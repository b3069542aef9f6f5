import Xv6Stride.Proc

/-!
# The minheap of `proc.c`

`sched_stride` collects the runnable processes in a `minheap` on its stack: an array of
`NPROC` records and a `size`. `push` copies a record into cell `size` and sifts it up with
`greater`, unless the heap is full; `getmin` is the address of cell `0`. The array is a function
`ℕ → Proc`; the cells at and past `NPROC` stand for the memory after the C array, and `push`
never writes them (`push_arr_of_ge`).

Every sequence of pushes from a heap of size `0` keeps the first `NPROC` records it was given,
in heap order (`ArrayHeap.Holds`, kept by `holds_push` and so by `holds_pushes`). From that, the root is
at or before every record the heap holds: `push_sequence`. The scan of `sched_stride` pushes
the runnable slots of the table in table order (`scan`), which is `pushes` over the runnable
records (`scan_eq_pushes`); `scan_root` says what the root then is.
-/

namespace Xv6Stride

open ArrayHeap

/-- `minheap` of `proc.c`: `struct proc arr[NPROC]` and `int size`. -/
structure Minheap where
  arr : ℕ → Proc
  size : ℕ
  size_le : size ≤ NPROC

/-- `push` of `proc.c`: `-1` on a full heap; otherwise the record is written at cell `size`,
sifted up while its parent is `greater`, and `size` grows by one. -/
def push (h : Minheap) (p : Proc) : ℤ × Minheap :=
  if hs : h.size = NPROC then (-1, h)
  else
    (0, { arr := siftUp greater (Function.update h.arr h.size p) h.size
          size := h.size + 1
          size_le := by have := h.size_le; omega })

/-- `getmin` of `proc.c`: `&h->arr[0]`, a pointer into the heap and not into the table. -/
def getmin (_h : Minheap) : Ptr := .heap 0

variable {h : Minheap} {p : Proc}

/-- A push onto a full heap returns `-1` and changes nothing. -/
theorem push_of_eq (hs : h.size = NPROC) (p : Proc) : push h p = (-1, h) := by
  simp [push, hs]

/-- A push onto a heap with room returns `0` and inserts the record at the end, sifted up. -/
theorem push_of_lt (hs : h.size < NPROC) (p : Proc) :
    (push h p).1 = 0 ∧ (push h p).2.size = h.size + 1 ∧
      (push h p).2.arr = insert greater h.arr h.size p := by
  simp [push, Nat.ne_of_lt hs, ArrayHeap.insert]

/-- `push` never writes at or past cell `NPROC`: the guard keeps `idx` below the array's end. -/
theorem push_arr_of_ge {k : ℕ} (hk : NPROC ≤ k) (p : Proc) : (push h p).2.arr k = h.arr k := by
  rcases Nat.lt_or_eq_of_le h.size_le with hs | hs
  · rw [(push_of_lt hs p).2.2]
    exact insert_apply_of_lt p (by omega)
  · rw [push_of_eq hs]

/-- Heap order in the words of `proc.c`: `compare(arr[parent(i)], arr[i]) <= 0`. -/
theorem heapOrder_iff {a : ℕ → Proc} {n : ℕ} :
    HeapOrder greater a n ↔ ∀ i, 0 < i → i < n → compare (a (parent i)) (a i) ≤ 0 := by
  simp only [HeapOrder, greater_eq_false_iff, compare_nonpos_iff]

/-! ## Sequences of pushes -/

/-- One push keeps the records of a heap: a full heap is unchanged, any other gains the
record. -/
theorem holds_push {acc : List Proc} (hh : Holds greater h.arr h.size acc) (p : Proc) :
    Holds greater (push h p).2.arr (push h p).2.size
      (if h.size = NPROC then acc else acc ++ [p]) := by
  by_cases hs : h.size = NPROC
  · rw [push_of_eq hs, if_pos hs]
    exact hh
  · obtain ⟨-, hsize, harr⟩ := push_of_lt (lt_of_le_of_ne h.size_le hs) p
    rw [if_neg hs, hsize, harr]
    exact hh.insert comparator_greater p

/-- `push` calls one after another, their results ignored as `sched_stride` ignores them. -/
def pushes (h : Minheap) (ps : List Proc) : Minheap :=
  ps.foldl (fun h p => (push h p).2) h

/-- A sequence of pushes keeps the records that fit: those up to `NPROC` in all. -/
theorem holds_pushes {acc : List Proc} (hh : Holds greater h.arr h.size acc) (ps : List Proc) :
    Holds greater (pushes h ps).arr (pushes h ps).size (acc ++ ps.take (NPROC - acc.length)) := by
  induction ps generalizing h acc with
  | nil => simpa [pushes] using hh
  | cons p ps ih =>
    have hlen := hh.length_eq
    have hle := h.size_le
    have step := ih (holds_push hh p)
    simp only [pushes, List.foldl_cons] at step ⊢
    by_cases hs : h.size = NPROC
    · -- A full heap refuses `p` and every later record.
      rw [if_pos hs] at step
      have hz : NPROC - acc.length = 0 := by omega
      simpa [hz] using step
    · rw [if_neg hs] at step
      have hk : NPROC - acc.length = NPROC - (acc ++ [p]).length + 1 := by
        simp only [List.length_append, List.length_singleton]; omega
      rw [hk, List.take_succ_cons, List.append_cons]
      exact step

/-- Every sequence of `push` calls from a heap of size `0`, whatever its cells held: the heap
holds the first `NPROC` records pushed, in heap order, and no record pushed so far is strictly
before the record that `getmin` points to; the next push succeeds and grows the heap by one
while it is below `NPROC`, and at `NPROC` it returns `-1` and leaves the heap as it was. -/
theorem push_sequence (arr : ℕ → Proc) (ps : List Proc) (p : Proc) :
    let h := pushes ⟨arr, 0, Nat.zero_le _⟩ ps
    h.size = (ps.take NPROC).length ∧
      (elems h.arr h.size).Perm (ps.take NPROC) ∧
      (∀ i, 0 < i → i < h.size → compare (h.arr (parent i)) (h.arr i) ≤ 0) ∧
      (0 < h.size → getmin h = .heap 0 ∧ ∀ q ∈ ps.take NPROC, ¬ compare q (h.arr 0) < 0) ∧
      (h.size < NPROC → (push h p).1 = 0 ∧ (push h p).2.size = h.size + 1) ∧
      (h.size = NPROC → push h p = (-1, h)) := by
  intro h
  have hh : Holds greater h.arr h.size (ps.take NPROC) := by
    simpa using holds_pushes (h := ⟨arr, 0, Nat.zero_le _⟩) (holds_zero greater arr) ps
  refine ⟨hh.length_eq, hh.perm, heapOrder_iff.mp hh.ordered, fun _ => ⟨rfl, ?_⟩,
    fun hs => ⟨(push_of_lt hs p).1, (push_of_lt hs p).2.1⟩, fun hs => push_of_eq hs p⟩
  intro q hq
  rw [compare_neg_iff, not_lt, ← greater_eq_false_iff]
  exact hh.root_first comparator_greater hq

/-! ## The scan of `sched_stride` -/

/-- The loop of `sched_stride` over the table: `if (p->state == RUNNABLE) push(&heap, p)`. -/
def scan (h : Minheap) : List Proc → Minheap
  | [] => h
  | p :: ps => scan (if p.state = .RUNNABLE then (push h p).2 else h) ps

/-- The scan pushes the runnable records of the table, in table order. -/
theorem scan_eq_pushes (h : Minheap) (tbl : List Proc) :
    scan h tbl = pushes h (tbl.filter fun p => p.state = .RUNNABLE) := by
  induction tbl generalizing h with
  | nil => rfl
  | cons p ps ih =>
    by_cases hp : p.state = .RUNNABLE
    · simp [scan, hp, ih, pushes]
    · simp [scan, hp, ih]

/-- The scan of a table of at most `NPROC` slots from an empty heap holds every runnable slot,
in heap order, and its root is at or before each of them. -/
theorem scan_root (arr : ℕ → Proc) {tbl : List Proc} (hlen : tbl.length ≤ NPROC) :
    let h := scan ⟨arr, 0, Nat.zero_le _⟩ tbl
    Holds greater h.arr h.size (tbl.filter fun p => p.state = .RUNNABLE) ∧
      ∀ q ∈ tbl, q.state = .RUNNABLE → (h.arr 0).key ≤ q.key := by
  intro h
  have hfit : (tbl.filter fun p => p.state = .RUNNABLE).length ≤ NPROC :=
    (List.length_filter_le _ _).trans hlen
  have hh : Holds greater h.arr h.size (tbl.filter fun p => p.state = .RUNNABLE) := by
    simpa [h, scan_eq_pushes, List.take_of_length_le hfit] using
      holds_pushes (h := ⟨arr, 0, Nat.zero_le _⟩) (holds_zero greater arr)
        (tbl.filter fun p => p.state = .RUNNABLE)
  refine ⟨hh, fun q hq hrun => ?_⟩
  exact greater_eq_false_iff.mp (hh.root_first comparator_greater (List.mem_filter.mpr ⟨hq, by simpa⟩))

/-- When some slot is runnable, the root of the scan is a copy of a runnable slot. -/
theorem scan_root_mem (arr : ℕ → Proc) {tbl : List Proc} (hlen : tbl.length ≤ NPROC) {q : Proc}
    (hq : q ∈ tbl) (hrun : q.state = .RUNNABLE) :
    let h := scan ⟨arr, 0, Nat.zero_le _⟩ tbl
    0 < h.size ∧ h.arr 0 ∈ tbl ∧ (h.arr 0).state = .RUNNABLE := by
  intro h
  obtain ⟨hh, -⟩ := scan_root arr hlen
  have hpos : 0 < h.size := by
    rw [hh.length_eq]
    exact List.length_pos_of_mem (List.mem_filter.mpr ⟨hq, by simpa using hrun⟩)
  have hroot : h.arr 0 ∈ elems h.arr h.size := mem_elems.mpr ⟨0, hpos, rfl⟩
  obtain ⟨hmem, hstate⟩ := List.mem_filter.mp (hh.perm.mem_iff.mp hroot)
  exact ⟨hpos, hmem, by simpa using hstate⟩

end Xv6Stride
