import Xv6Stride.Compare
import Xv6Stride.ArrayHeap.Sift

/-!
# Processes

The constants of `param.h`, `enum procstate` and `struct proc` of `proc.h`, and the pointers
that the kernel keeps to process records. A `struct proc *` of the kernel points into one of
two arrays: a slot of `ptable.proc`, or a cell of the `minheap` that `sched_stride` keeps on its
own stack and fills with copies of the runnable slots (`Ptr`). Which of the two a write goes
through is what decides whether the write reaches the process table, so pointers are kept as
addresses and not as the records they reach.

`compare` and `greater` of `proc.c` order records by `(pass, runtime, pid)`; `greater` is a
`Comparator` in the sense of `ArrayHeap` (`comparator_greater`), which is what the heap of
`sched_stride` needs.

The fields of `struct proc` that no modelled function reads or writes are left out: `sz`,
`pgdir`, `kstack`, `tf`, `ofile`, `cwd` and `name`. The kernel stack and the saved registers are
stood for by the `context` field alone: a number that names the stack address `swtch` saved.
-/

namespace Xv6Stride

/-- `NPROC` of `param.h`: the slots of `ptable.proc`, and the cells of a `minheap`. -/
def NPROC : ℕ := 64

/-- `Fin NPROC` has a `0`, the first slot. The `Zero` instance is the one `Fin.instOfNat` asks
for, written out so that the instance reads the same whatever else is imported. -/
instance : @NeZero ℕ (Zero.ofOfNat0) NPROC := ⟨Nat.succ_ne_zero 63⟩

/-- `STRIDE1` of `param.h`: the stride of one ticket. -/
def STRIDE1 : ℤ := 1024

/-- `TICKETS_INIT` of `param.h`: the tickets of a new process. -/
def TICKETS_INIT : ℤ := 8

/-- `enum procstate` of `proc.h`. -/
inductive procstate where
  | UNUSED
  | EMBRYO
  | SLEEPING
  | RUNNABLE
  | RUNNING
  | ZOMBIE
  deriving DecidableEq, Repr

/-- A `struct proc *`: null, slot `i` of `ptable.proc`, or cell `i` of the `heap` of
`sched_stride`. -/
inductive Ptr where
  | null
  | slot (i : Fin NPROC)
  | heap (i : ℕ)
  deriving DecidableEq, Repr

/-- A sleep channel (`void *chan`): the address of a process record, the address of `ticks`,
or another kernel address. `proc .null` is the null channel, which no sleeper waits on. -/
inductive Chan where
  | proc (p : Ptr)
  | ticks
  | other (n : ℕ)
  deriving DecidableEq, Repr

/-- The fields of `struct proc` that the modelled kernel functions read or write. -/
structure Proc where
  state : procstate
  pid : ℤ
  parent : Ptr
  /-- The saved kernel stack pointer of `swtch`; a number that names the address. -/
  context : ℕ
  chan : Chan
  /-- `killed`, which the kernel sets to `1` and tests for non-zero. -/
  killed : Bool
  tickets : ℤ
  stride : ℤ
  pass : ℤ
  remain : ℤ
  last_scheduled : ℤ
  last_interrupted : ℤ
  runtime : ℤ
  deriving DecidableEq, Repr

/-- A slot of the zero-filled `ptable` at boot. -/
def Proc.zero : Proc :=
  { state := .UNUSED, pid := 0, parent := .null, context := 0, chan := .proc .null,
    killed := false, tickets := 0, stride := 0, pass := 0, remain := 0, last_scheduled := 0,
    last_interrupted := 0, runtime := 0 }

/-! ## The order of `proc.c` -/

/-- The lexicographic key `(pass, runtime, pid)` of a record. -/
def Proc.key (p : Proc) : ℤ ×ₗ (ℤ ×ₗ ℤ) := Xv6Stride.key p.pass p.runtime p.pid

/-- `compare` of `proc.c`. -/
def compare (p1 p2 : Proc) : ℤ :=
  compareKeys p1.pass p1.runtime p1.pid p2.pass p2.runtime p2.pid

/-- `greater` of `proc.c`: `compare(p1, p2) > 0`. -/
def greater (p1 p2 : Proc) : Bool := decide (compare p1 p2 > 0)

/-- `greater` holds exactly when the second record's key is below the first's. -/
theorem greater_eq_true_iff {p q : Proc} : greater p q = true ↔ q.key < p.key := by
  simp only [greater, decide_eq_true_eq, gt_iff_lt, compare, compareKeys_pos_iff, Proc.key]

/-- `greater` fails exactly when the first record's key is at or below the second's. -/
theorem greater_eq_false_iff {p q : Proc} : greater p q = false ↔ p.key ≤ q.key := by
  rw [← Bool.not_eq_true, greater_eq_true_iff, not_lt]

/-- `compare` is at most `0` exactly when the first key is at or below the second. -/
theorem compare_nonpos_iff {p q : Proc} : compare p q ≤ 0 ↔ p.key ≤ q.key :=
  compareKeys_nonpos_iff

/-- `compare` is negative exactly when the first key is below the second. -/
theorem compare_neg_iff {p q : Proc} : compare p q < 0 ↔ p.key < q.key :=
  compareKeys_neg_iff

/-- Two records with the same key have the same `pid`. -/
theorem pid_eq_of_key_eq {p q : Proc} (h : p.key = q.key) : p.pid = q.pid :=
  (key_eq_iff.mp h).2.2

/-- `greater` is the strict part of the total preorder of keys. -/
theorem comparator_greater : ArrayHeap.Comparator greater :=
  comparator_compareKeys Proc.pass Proc.runtime Proc.pid

end Xv6Stride
