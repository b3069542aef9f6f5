import Xv6Stride.Minheap

/-!
# The kernel's process state

The state that the process code of `proc.c` and the timer path of `trap.c` read and write, on
one CPU: `ptable.proc`, the `minheap` in the frame of `sched_stride` (the same stack cells in
every iteration of its loop), `mycpu()->proc`, `ticks`, `nextpid`, `initproc`, and the position
of the loop of `sched_RR`. Two ghost fields record what the hardware does: `resumed` is the saved
context that the last `swtch` into a process loaded, and `nextctx` is a fresh name for the next
context that `allocproc` or `swtch` saves.

A write through a pointer (`Kernel.write`) changes the slot or the heap cell the pointer
designates and nothing else; `deref` reads it. The functions here change the table only:
`wakeup1`, `kill`, `allocproc`, `userinit`, `fork`, the loop of `exit` that passes children to
`initproc` (`reparent`), and the reaping of a zombie by `wait` (`reap`). What each of them does
to one slot is stated beside it, so that the invariants of whole runs never unfold them.

`struct cpu`, the locks, the page tables, the files and the trap frame are not modelled; the
interrupt flag is, where it decides whether a timer tick can come (`Sched.lean`).
-/

namespace Xv6Stride

/-- The process state of the kernel, on one CPU. -/
structure Kernel where
  /-- `ptable.proc`. -/
  ptable : Fin NPROC → Proc
  /-- The `minheap heap` of `sched_stride`, whose cells stay on the scheduler's stack. -/
  heap : Minheap
  /-- `mycpu()->proc`, the process running on the CPU, or null in the scheduler. -/
  cpu : Ptr
  /-- The context that the last `swtch` into a process loaded. -/
  resumed : ℕ
  /-- `ticks` of `trap.c`. -/
  ticks : ℕ
  nextpid : ℤ
  initproc : Ptr
  /-- The name of the next context that `allocproc` or `swtch` saves. -/
  nextctx : ℕ
  /-- The slot that the inner loop of `sched_RR` looks at next. -/
  rr : ℕ

namespace Kernel

/-- The record a pointer designates. Null designates nothing; the model reads a zero record. -/
def deref (k : Kernel) : Ptr → Proc
  | .null => Proc.zero
  | .slot i => k.ptable i
  | .heap i => k.heap.arr i

/-- A write of fields through a pointer: `p->field = value`. -/
def write (k : Kernel) (p : Ptr) (f : Proc → Proc) : Kernel :=
  match p with
  | .null => k
  | .slot i => { k with ptable := Function.update k.ptable i (f (k.ptable i)) }
  | .heap i => { k with heap := { k.heap with arr := Function.update k.heap.arr i (f (k.heap.arr i)) } }

variable (k : Kernel) (p : Ptr) (f : Proc → Proc)

/-- A write through a pointer keeps `c->proc`. -/
@[simp] theorem write_cpu : (k.write p f).cpu = k.cpu := by cases p <;> rfl
/-- A write through a pointer keeps `ticks`. -/
@[simp] theorem write_ticks : (k.write p f).ticks = k.ticks := by cases p <;> rfl
/-- A write through a pointer keeps `nextpid`. -/
@[simp] theorem write_nextpid : (k.write p f).nextpid = k.nextpid := by cases p <;> rfl
/-- A write through a pointer keeps `initproc`. -/
@[simp] theorem write_initproc : (k.write p f).initproc = k.initproc := by cases p <;> rfl
/-- A write through a pointer keeps the next context's name. -/
@[simp] theorem write_nextctx : (k.write p f).nextctx = k.nextctx := by cases p <;> rfl
/-- A write through a pointer keeps the resumed context. -/
@[simp] theorem write_resumed : (k.write p f).resumed = k.resumed := by cases p <;> rfl
/-- A write through a pointer keeps the position of `sched_RR`. -/
@[simp] theorem write_rr : (k.write p f).rr = k.rr := by cases p <;> rfl
/-- A write through a pointer keeps the heap's size. -/
@[simp] theorem write_heap_size : (k.write p f).heap.size = k.heap.size := by cases p <;> rfl

/-- A write through a pointer into the heap leaves the table as it was. -/
@[simp] theorem write_heap_ptable (i : ℕ) : (k.write (.heap i) f).ptable = k.ptable := rfl

/-- A write through a slot pointer updates that slot of the table. -/
@[simp] theorem write_slot_ptable (i : Fin NPROC) :
    (k.write (.slot i) f).ptable = Function.update k.ptable i (f (k.ptable i)) := rfl

/-- A write through a pointer is read back through it. -/
theorem deref_write_self (hp : p ≠ .null) : (k.write p f).deref p = f (k.deref p) := by
  cases p with
  | null => exact absurd rfl hp
  | slot i => simp [write, deref]
  | heap i => simp [write, deref]

end Kernel

/-- `getticks`: `ticks` as an `int`. -/
def getticks (k : Kernel) : ℤ := k.ticks

/-- The stride fields that `userinit` and `fork` set when `stride_scheduler` is on. -/
def initStride (p : Proc) : Proc :=
  let p := { p with tickets := TICKETS_INIT }
  let p := { p with stride := STRIDE1.tdiv p.tickets }
  { p with pass := 0, remain := p.stride, last_scheduled := 0, last_interrupted := 0,
           runtime := 0 }

/-- The first slot of the table, in table order, whose record satisfies `P`. -/
def firstSlot (k : Kernel) (P : Proc → Prop) [DecidablePred P] : Option (Fin NPROC) :=
  (List.finRange NPROC).find? fun i => P (k.ptable i)

/-- The slot that `firstSlot` finds satisfies its test. -/
theorem firstSlot_spec {k : Kernel} {P : Proc → Prop} [DecidablePred P] {i : Fin NPROC}
    (h : firstSlot k P = some i) : P (k.ptable i) := by
  simpa using List.find?_some h

/-- `find?` over the slot numbers finds the least one that passes: `finRange` is increasing,
so every slot below the one found comes before it. -/
theorem find?_finRange_least {n : ℕ} {p : Fin n → Bool} {i : Fin n}
    (h : (List.finRange n).find? p = some i) (j : Fin n) (hj : j < i) : p j = false := by
  obtain ⟨-, as, bs, hsplit, has⟩ := List.find?_eq_some_iff_append.mp h
  have hsorted := List.pairwise_lt_finRange n
  rw [hsplit, List.pairwise_append] at hsorted
  have hmem : j ∈ as ++ i :: bs := hsplit ▸ List.mem_finRange j
  rcases List.mem_append.mp hmem with ha | hb
  · simpa using has j ha
  · rcases List.mem_cons.mp hb with rfl | hb
    · exact absurd hj (Fin.lt_irrefl _)
    · -- the slots after `i` are above it
      have hij : i < j := (List.pairwise_cons.mp hsorted.2.1).1 j hb
      exact absurd hj (Fin.lt_asymm hij)

/-- When `firstSlot` finds nothing, no slot satisfies its test. -/
theorem firstSlot_none {k : Kernel} {P : Proc → Prop} [DecidablePred P]
    (h : firstSlot k P = none) (i : Fin NPROC) : ¬ P (k.ptable i) := by
  simpa using List.find?_eq_none.mp h i (List.mem_finRange i)

/-! ## Functions that change the table -/

/-- `wakeup1(chan)`: every slot `SLEEPING` on `chan` becomes `RUNNABLE`. Each turn of the loop
reads and writes its own slot only, so the loop is a map over the slots. -/
def wakeup1 (k : Kernel) (chan : Chan) : Kernel :=
  { k with ptable := fun i =>
      if (k.ptable i).state = .SLEEPING ∧ (k.ptable i).chan = chan then
        { k.ptable i with state := .RUNNABLE }
      else k.ptable i }

/-- `kill(pid)`: the first slot with that `pid` is marked killed and, if it sleeps, woken. -/
def kill (k : Kernel) (pid : ℤ) : Kernel :=
  match firstSlot k fun p => p.pid = pid with
  | some i =>
    k.write (.slot i) fun q =>
      { q with killed := true, state := if q.state = .SLEEPING then .RUNNABLE else q.state }
  | none => k

/-- `allocproc`: the first `UNUSED` slot becomes `EMBRYO` with `pid = nextpid++`; if `kalloc`
fails (`kallocOk = false`) it goes back to `UNUSED` and the result is null, else its context is
a fresh one that returns to `forkret`. -/
def allocproc (k : Kernel) (kallocOk : Bool) : Kernel × Ptr :=
  match firstSlot k fun p => p.state = .UNUSED with
  | none => (k, .null)
  | some i =>
    let k' := k.write (.slot i) fun q => { q with state := .EMBRYO, pid := k.nextpid }
    let k' := { k' with nextpid := k.nextpid + 1 }
    if kallocOk then
      ({ k'.write (.slot i) fun q => { q with context := k.nextctx } with
          nextctx := k.nextctx + 1 }, .slot i)
    else (k'.write (.slot i) fun q => { q with state := .UNUSED }, .null)

/-- `userinit`: the first process, `RUNNABLE`, with the stride fields when `stride_scheduler`
is on. `kalloc` does not fail at boot. -/
def userinit (stride_scheduler : Bool) (k : Kernel) : Kernel :=
  let (k, p) := allocproc k true
  let k := { k with initproc := p }
  let k := k.write p fun q => { q with state := .RUNNABLE }
  if stride_scheduler then k.write p initStride else k

/-- `fork` by the running process: a new slot whose `parent` is `myproc()`, made `RUNNABLE`
with fresh stride fields. `kallocOk` and `copyOk` are the outcomes of `kalloc` and `copyuvm`. -/
def fork (stride_scheduler : Bool) (k : Kernel) (kallocOk copyOk : Bool) : Kernel :=
  let curproc := k.cpu
  let (k, np) := allocproc k kallocOk
  if np = .null then k
  else if !copyOk then k.write np fun q => { q with state := .UNUSED }
  else
    let k := k.write np fun q => { q with parent := curproc }
    let k := k.write np fun q => { q with state := .RUNNABLE }
    if stride_scheduler then k.write np initStride else k

/-- The loop of `exit` over the table: each child of `curproc` passes to `initproc`, and a
zombie child wakes `initproc`. -/
def reparent (k : Kernel) (curproc : Ptr) : Kernel :=
  (List.finRange NPROC).foldl
    (fun k i =>
      if (k.ptable i).parent = curproc then
        let k := k.write (.slot i) fun q => { q with parent := k.initproc }
        if (k.ptable i).state = .ZOMBIE then wakeup1 k (.proc k.initproc) else k
      else k)
    k

/-- The reaping of a zombie child by `wait`: `pid`, `parent` and `killed` cleared, and the
slot `UNUSED`. -/
def reap (k : Kernel) (i : Fin NPROC) : Kernel :=
  k.write (.slot i) fun q => { q with pid := 0, parent := .null, killed := false, state := .UNUSED }

/-- The state at boot, before `userinit`: a zero-filled table; `heapArr` is whatever the
scheduler's stack held. -/
def boot (heapArr : ℕ → Proc) : Kernel where
  ptable := fun _ => Proc.zero
  heap := ⟨heapArr, 0, Nat.zero_le _⟩
  cpu := .null
  resumed := 0
  ticks := 0
  nextpid := 1
  initproc := .null
  nextctx := 1
  rr := 0

/-! ## Frame lemmas

A write through a pointer that designates no slot leaves the table as it was; every other table
function is stated as what it does to one slot. `wakeup1`, `kill` and the loop of `exit` only
*touch* slots (`Proc.Touched`): they change the links `parent` and `killed`, and wake a sleeper.
`fork` takes the first free slot (`fork_cases`). -/

namespace Kernel

variable {k : Kernel} {p : Ptr} {f : Proc → Proc}

/-- A write through a pointer that designates no slot leaves the table as it was. -/
theorem write_ptable_of_ne_slot (h : ∀ i, p ≠ .slot i) : (k.write p f).ptable = k.ptable := by
  cases p with
  | null => rfl
  | slot i => exact absurd rfl (h i)
  | heap i => rfl

/-- A write through a slot pointer changes that slot only. -/
theorem write_slot_ptable_of_ne {i j : Fin NPROC} (h : j ≠ i) :
    (k.write (.slot i) f).ptable j = k.ptable j := by
  simp [Function.update_of_ne h]

/-- A write changes no slot but the one it goes through. -/
theorem write_ptable_of_ne {i : Fin NPROC} (h : p ≠ .slot i) : (k.write p f).ptable i = k.ptable i := by
  cases p with
  | null => rfl
  | slot j => exact write_slot_ptable_of_ne fun hij => h (hij ▸ rfl)
  | heap n => rfl

/-- A write that keeps a field of a record keeps that field of every slot. -/
theorem write_ptable_field {α : Type} (g : Proc → α) (hf : ∀ q, g (f q) = g q) (i : Fin NPROC) :
    g ((k.write p f).ptable i) = g (k.ptable i) := by
  by_cases hp : p = .slot i
  · subst hp
    simp [hf]
  · rw [write_ptable_of_ne hp]

/-- A write that keeps a record's state keeps every slot's state. -/
theorem write_ptable_state (hf : ∀ q, (f q).state = q.state) (i : Fin NPROC) :
    ((k.write p f).ptable i).state = (k.ptable i).state :=
  write_ptable_field Proc.state hf i

/-- A write that keeps a record's `parent` keeps every slot's `parent`. -/
theorem write_ptable_parent (hf : ∀ q, (f q).parent = q.parent) (i : Fin NPROC) :
    ((k.write p f).ptable i).parent = (k.ptable i).parent :=
  write_ptable_field Proc.parent hf i

end Kernel

/-- The record with its state and links blanked: what the touching functions keep. -/
def Proc.body (p : Proc) : Proc := { p with state := .UNUSED, parent := .null, killed := false }

/-- `q` is `p` with new links (`parent`, `killed`), and woken if `p` slept: all that `wakeup1`,
`kill` and the loop of `exit` do to a slot. -/
structure Proc.Touched (p q : Proc) : Prop where
  body : q.body = p.body
  state : q.state = p.state ∨ p.state = .SLEEPING ∧ q.state = .RUNNABLE

namespace Proc.Touched

variable {p q r : Proc}

/-- A record touches itself. -/
theorem refl (p : Proc) : p.Touched p := ⟨rfl, .inl rfl⟩

/-- Touching twice is touching: a woken record is not woken again. -/
theorem trans (h₁ : p.Touched q) (h₂ : q.Touched r) : p.Touched r where
  body := h₂.body.trans h₁.body
  state := by
    rcases h₁.state with h₁ | ⟨hp, hq⟩ <;> rcases h₂.state with h₂ | ⟨hq', hr⟩
    · exact .inl (h₂.trans h₁)
    · exact .inr ⟨h₁ ▸ hq', hr⟩
    · exact .inr ⟨hp, h₂.trans hq⟩
    -- a woken record is `RUNNABLE`, so it cannot be woken again
    · rw [hq] at hq'
      cases hq'

/-- Touching keeps the pid. -/
theorem pid_eq (h : p.Touched q) : q.pid = p.pid := (congrArg Proc.pid h.body :)
/-- Touching keeps the saved context. -/
theorem context_eq (h : p.Touched q) : q.context = p.context := (congrArg Proc.context h.body :)
/-- Touching keeps `pass`. -/
theorem pass_eq (h : p.Touched q) : q.pass = p.pass := (congrArg Proc.pass h.body :)
/-- Touching keeps the channel. -/
theorem chan_eq (h : p.Touched q) : q.chan = p.chan := (congrArg Proc.chan h.body :)
/-- Touching keeps `runtime`. -/
theorem runtime_eq (h : p.Touched q) : q.runtime = p.runtime := (congrArg Proc.runtime h.body :)

/-- A record that does not sleep keeps its state. -/
theorem state_eq (h : p.Touched q) (hs : p.state ≠ .SLEEPING) : q.state = p.state := by
  rcases h.state with h | ⟨hp, -⟩
  · exact h
  · exact absurd hp hs

/-- Being in a state other than `SLEEPING` and `RUNNABLE` is kept both ways. -/
theorem state_eq_iff (h : p.Touched q) {s : procstate} (h₁ : s ≠ .SLEEPING)
    (h₂ : s ≠ .RUNNABLE) : q.state = s ↔ p.state = s := by
  rcases h.state with h | ⟨hp, hq⟩
  · rw [h]
  · rw [hp, hq]
    exact ⟨fun e => absurd e.symm h₂, fun e => absurd e.symm h₁⟩

/-- A new parent touches a record. -/
theorem of_parent (p : Proc) (parent : Ptr) : p.Touched { p with parent := parent } :=
  ⟨rfl, .inl rfl⟩

/-- Waking a sleeper touches it. -/
theorem of_wake (hp : p.state = .SLEEPING) : p.Touched { p with state := .RUNNABLE } :=
  ⟨rfl, .inr ⟨hp, rfl⟩⟩

end Proc.Touched

/-- `k'` is `k` with its slots touched, and nothing else changed. -/
structure Kernel.Touched (k k' : Kernel) : Prop where
  slot : ∀ i, (k.ptable i).Touched (k'.ptable i)
  rest : { k' with ptable := k.ptable } = k

namespace Kernel.Touched

variable {k k' k'' : Kernel}

/-- A kernel touches itself. -/
theorem refl (k : Kernel) : k.Touched k := ⟨fun _ => .refl _, rfl⟩

/-- Touching the slots twice is touching them. -/
theorem trans (h₁ : k.Touched k') (h₂ : k'.Touched k'') : k.Touched k'' where
  slot i := (h₁.slot i).trans (h₂.slot i)
  rest := calc
    { k'' with ptable := k.ptable } = { { k'' with ptable := k'.ptable } with ptable := k.ptable } :=
      rfl
    _ = { k' with ptable := k.ptable } := by rw [h₂.rest]
    _ = k := h₁.rest

/-- Touching keeps `c->proc`. -/
theorem cpu_eq (h : k.Touched k') : k'.cpu = k.cpu := (congrArg Kernel.cpu h.rest :)
/-- Touching keeps the scheduler's heap. -/
theorem heap_eq (h : k.Touched k') : k'.heap = k.heap := (congrArg Kernel.heap h.rest :)
/-- Touching keeps `initproc`. -/
theorem initproc_eq (h : k.Touched k') : k'.initproc = k.initproc := (congrArg Kernel.initproc h.rest :)
/-- Touching keeps `nextpid`. -/
theorem nextpid_eq (h : k.Touched k') : k'.nextpid = k.nextpid := (congrArg Kernel.nextpid h.rest :)
/-- Touching keeps the position of `sched_RR`. -/
theorem rr_eq (h : k.Touched k') : k'.rr = k.rr := (congrArg Kernel.rr h.rest :)
/-- Touching keeps the next context's name. -/
theorem nextctx_eq (h : k.Touched k') : k'.nextctx = k.nextctx := (congrArg Kernel.nextctx h.rest :)

/-- A write through a slot pointer that touches the slot touches the kernel. -/
theorem of_write_slot {i : Fin NPROC} {f : Proc → Proc} (hf : (k.ptable i).Touched (f (k.ptable i))) :
    k.Touched (k.write (.slot i) f) where
  slot j := by
    by_cases hj : j = i
    · subst hj
      simpa using hf
    · rw [Kernel.write_slot_ptable_of_ne hj]
      exact .refl _
  rest := rfl

end Kernel.Touched


/-- `wakeup1` wakes sleepers only. -/
theorem touched_wakeup1 (k : Kernel) (chan : Chan) : k.Touched (wakeup1 k chan) where
  slot i := by
    by_cases h : (k.ptable i).state = .SLEEPING ∧ (k.ptable i).chan = chan
    · simpa [wakeup1, h] using Proc.Touched.of_wake h.1
    · simpa [wakeup1, h] using Proc.Touched.refl (k.ptable i)
  rest := rfl

/-- `kill` marks a slot and wakes it if it sleeps. -/
theorem touched_kill (k : Kernel) (pid : ℤ) : k.Touched (kill k pid) := by
  unfold kill
  split
  next i _ =>
    apply Kernel.Touched.of_write_slot
    refine ⟨rfl, ?_⟩
    by_cases hs : (k.ptable i).state = .SLEEPING
    · exact .inr ⟨hs, by simp [hs]⟩
    · exact .inl (by simp [hs])
  · exact .refl k

/-- A loop whose every turn touches the kernel touches it. -/
theorem Kernel.Touched.foldl {α : Type} {f : Kernel → α → Kernel}
    (hf : ∀ (k : Kernel) a, k.Touched (f k a))
    (l : List α) (k : Kernel) : k.Touched (l.foldl f k) := by
  induction l generalizing k with
  | nil => exact .refl k
  | cons a l ih => exact (hf k a).trans (ih _)

/-- One turn of the loop of `exit`, at slot `i`. -/
def reparentTurn (curproc : Ptr) (k : Kernel) (i : Fin NPROC) : Kernel :=
  if (k.ptable i).parent = curproc then
    let k := k.write (.slot i) fun q => { q with parent := k.initproc }
    if (k.ptable i).state = .ZOMBIE then wakeup1 k (.proc k.initproc) else k
  else k

/-- The loop of `exit` is a fold of its turns over the slots in table order. -/
theorem reparent_eq_foldl (k : Kernel) (curproc : Ptr) :
    reparent k curproc = (List.finRange NPROC).foldl (reparentTurn curproc) k := rfl

/-- A turn of the loop of `exit` changes a `parent` link and may wake `initproc`. -/
theorem touched_reparentTurn (curproc : Ptr) (k : Kernel) (i : Fin NPROC) :
    k.Touched (reparentTurn curproc k i) := by
  unfold reparentTurn
  dsimp only
  split
  · have hw := Kernel.Touched.of_write_slot (k := k) (i := i)
      (f := fun q => { q with parent := k.initproc }) (Proc.Touched.of_parent _ _)
    split
    · exact hw.trans (touched_wakeup1 _ _)
    · exact hw
  · exact .refl k

/-- The loop of `exit` changes `parent` links and wakes `initproc`. -/
theorem touched_reparent (k : Kernel) (curproc : Ptr) : k.Touched (reparent k curproc) := by
  rw [reparent_eq_foldl]
  exact Kernel.Touched.foldl (touched_reparentTurn curproc) _ k

/-! ## Parent links -/

/-- `wakeup1` changes no link. -/
@[simp] theorem wakeup1_parent (k : Kernel) (chan : Chan) (i : Fin NPROC) :
    ((wakeup1 k chan).ptable i).parent = (k.ptable i).parent := by
  simp only [wakeup1]
  split <;> rfl

/-- `kill` changes no link. -/
@[simp] theorem kill_parent (k : Kernel) (pid : ℤ) (i : Fin NPROC) :
    ((kill k pid).ptable i).parent = (k.ptable i).parent := by
  unfold kill
  split
  next j _ =>
    by_cases hij : i = j
    · subst hij
      simp
    · rw [Kernel.write_slot_ptable_of_ne hij]
  · rfl

/-- A loop over slots whose turn at `a` points slot `a` from `c` to `initproc`, and changes no
other link nor `initproc`: after the turns over `l`, the slots of `l` that pointed at `c` point
at `initproc`. -/
theorem foldl_parent {c : Ptr} {f : Kernel → Fin NPROC → Kernel}
    (hinit : ∀ k a, (f k a).initproc = k.initproc)
    (hf : ∀ k a i, ((f k a).ptable i).parent =
      if i = a ∧ (k.ptable a).parent = c then k.initproc else (k.ptable i).parent)
    (l : List (Fin NPROC)) (k : Kernel) (hc : c ≠ k.initproc) (i : Fin NPROC) :
    ((l.foldl f k).ptable i).parent =
      if l.contains i ∧ (k.ptable i).parent = c then k.initproc else (k.ptable i).parent := by
  induction l generalizing k with
  | nil => simp
  | cons a l ih =>
    rw [List.foldl_cons, ih (f k a) (by rwa [hinit]), hinit, hf]
    -- a link the turn at `a` set is to `initproc`, which is not `c`
    by_cases hia : i = a
    · subst hia
      by_cases hp : (k.ptable i).parent = c <;> simp [hp, Ne.symm hc]
    · simp [hia]

/-- The loop of `exit` points every child of `curproc` at `initproc` and leaves the other links:
as `curproc` is not `initproc`, no link to `curproc` is left. -/
theorem reparent_parent {k : Kernel} {curproc : Ptr} (hc : curproc ≠ k.initproc) (i : Fin NPROC) :
    ((reparent k curproc).ptable i).parent =
      if (k.ptable i).parent = curproc then k.initproc else (k.ptable i).parent := by
  unfold reparent
  refine (foldl_parent (fun k a => ?_) (fun k a j => ?_) _ k hc i).trans (by simp)
  · -- a turn writes a link of slot `a` and may wake `initproc`
    dsimp only
    split
    · split <;> rfl
    · rfl
  · dsimp only
    split
    · split <;> by_cases hj : j = a <;> simp_all
    · by_cases hj : j = a <;> simp_all

/-- What `fork` does: nothing when no slot is free; otherwise the first `UNUSED` slot ends
`UNUSED` again with its link as it was, or `RUNNABLE` under the next pid, with fresh stride fields under `STRIDE` and the
caller as its parent, the other slots stay, `nextpid` moves on, and of the rest only `nextctx`
changes. -/
theorem fork_cases (stride_scheduler : Bool) (k : Kernel) (kallocOk copyOk : Bool) :
    let k' := fork stride_scheduler k kallocOk copyOk
    k' = k ∨ ∃ i, (k.ptable i).state = .UNUSED ∧ (∀ j, j ≠ i → k'.ptable j = k.ptable j) ∧
      { k' with ptable := k.ptable, nextctx := k.nextctx } = { k with nextpid := k.nextpid + 1 } ∧
      ((k'.ptable i).state = .UNUSED ∧ (k'.ptable i).parent = (k.ptable i).parent ∨
        (k'.ptable i).state = .RUNNABLE ∧ (k'.ptable i).pid = k.nextpid ∧
          (stride_scheduler = true → (k'.ptable i).pass = 0 ∧ (k'.ptable i).runtime = 0) ∧
          (k'.ptable i).parent = k.cpu) := by
  intro k'
  cases hf : firstSlot k fun p => p.state = .UNUSED with
  | none =>
    left
    simp [k', fork, allocproc, hf]
  | some i =>
    right
    refine ⟨i, firstSlot_spec hf, ?_⟩
    -- one case for each outcome of `kalloc` and `copyuvm`, under each scheduler
    cases kallocOk <;> cases copyOk <;> cases stride_scheduler <;>
      simp +contextual [k', fork, allocproc, hf, Kernel.write, initStride]

/-- The pid `fork` leaves: `allocproc` writes `nextpid` into the slot it takes, which keeps it
even when `kalloc` or `copyuvm` fails and the slot is freed again. -/
theorem fork_pid (stride_scheduler : Bool) (k : Kernel) (kallocOk copyOk : Bool) :
    let k' := fork stride_scheduler k kallocOk copyOk
    k' = k ∨ ∃ i, (k.ptable i).state = .UNUSED ∧ (∀ j, j ≠ i → k'.ptable j = k.ptable j) ∧
      (k'.ptable i).pid = k.nextpid ∧ k'.nextpid = k.nextpid + 1 := by
  intro k'
  cases hf : firstSlot k fun p => p.state = .UNUSED with
  | none =>
    left
    simp [k', fork, allocproc, hf]
  | some i =>
    right
    refine ⟨i, firstSlot_spec hf, ?_⟩
    cases kallocOk <;> cases copyOk <;> cases stride_scheduler <;>
      simp +contextual [k', fork, allocproc, hf, Kernel.write, initStride]

/-- `userinit` at boot: slot `0` becomes `initproc`, runnable, with pid `1` and the first
context. -/
theorem userinit_boot (stride_scheduler : Bool) (heapArr : ℕ → Proc) :
    userinit stride_scheduler (boot heapArr) =
      { boot heapArr with
        ptable := Function.update (boot heapArr).ptable 0
          (let p := { Proc.zero with state := .RUNNABLE, pid := 1, context := 1 }
           if stride_scheduler then initStride p else p)
        nextpid := 2, initproc := .slot 0, nextctx := 2 } := by
  have hslot : firstSlot (boot heapArr) (fun p => p.state = .UNUSED) = some 0 := rfl
  simp only [userinit, allocproc, hslot]
  cases stride_scheduler <;> simp [Kernel.write, boot]

/-! ## Fresh pids

`allocproc` gives each new process `nextpid` and moves `nextpid` on, and a slot's pid changes
nowhere else but in `wait`'s reaping, which frees the slot. So the live slots, those not
`UNUSED`, have distinct pids below `nextpid`. -/

/-- Live slots have distinct positive pids below `nextpid`. -/
structure PidsFresh (k : Kernel) : Prop where
  nextpid_pos : 0 < k.nextpid
  pid_pos : ∀ i, (k.ptable i).state ≠ .UNUSED → 0 < (k.ptable i).pid
  pid_lt : ∀ i, (k.ptable i).state ≠ .UNUSED → (k.ptable i).pid < k.nextpid
  pid_inj : ∀ i j, (k.ptable i).state ≠ .UNUSED → (k.ptable j).state ≠ .UNUSED →
    (k.ptable i).pid = (k.ptable j).pid → i = j

namespace PidsFresh

variable {k k' : Kernel}

/-- Fresh pids survive any change in which every slot live afterwards was live before, under
the same pid, and `nextpid` stays. -/
theorem mono (h : PidsFresh k)
    (hs : ∀ i, (k'.ptable i).state ≠ .UNUSED →
      (k.ptable i).state ≠ .UNUSED ∧ (k'.ptable i).pid = (k.ptable i).pid)
    (hn : k'.nextpid = k.nextpid) : PidsFresh k' where
  nextpid_pos := hn ▸ h.nextpid_pos
  pid_pos i hi := by
    obtain ⟨hl, hp⟩ := hs i hi
    rw [hp]
    exact h.pid_pos i hl
  pid_lt i hi := by
    obtain ⟨hl, hp⟩ := hs i hi
    rw [hp, hn]
    exact h.pid_lt i hl
  pid_inj i j hi hj hij := by
    obtain ⟨hli, hpi⟩ := hs i hi
    obtain ⟨hlj, hpj⟩ := hs j hj
    rw [hpi, hpj] at hij
    exact h.pid_inj i j hli hlj hij

/-- Runnable slots are live, so they too have distinct pids. -/
theorem runnable_inj (h : PidsFresh k) {i j : Fin NPROC} (hi : (k.ptable i).state = .RUNNABLE)
    (hj : (k.ptable j).state = .RUNNABLE) (hij : (k.ptable i).pid = (k.ptable j).pid) : i = j := by
  have hlive : ∀ l, (k.ptable l).state = .RUNNABLE → (k.ptable l).state ≠ .UNUSED :=
    fun l hl => by rw [hl]; decide
  exact h.pid_inj i j (hlive i hi) (hlive j hj) hij

/-- Fresh pids are a property of the table and `nextpid` alone. -/
theorem congr (h : PidsFresh k) (hp : k'.ptable = k.ptable) (hn : k'.nextpid = k.nextpid) :
    PidsFresh k' :=
  h.mono (fun i hl => ⟨hp ▸ hl, by rw [hp]⟩) hn

/-- Touched slots keep their pids and their liveness, so the pids stay fresh. -/
theorem touched (h : PidsFresh k) (ht : k.Touched k') : PidsFresh k' :=
  h.mono (fun i hi => ⟨((ht.slot i).state_eq_iff (by decide) (by decide)).not.mp hi,
    (ht.slot i).pid_eq⟩) ht.nextpid_eq

/-- A slot that a write keeps live, under its pid, keeps the pids fresh. -/
theorem write_slot (h : PidsFresh k) {i : Fin NPROC} {f : Proc → Proc}
    (hlive : (k.ptable i).state ≠ .UNUSED) (hpid : (f (k.ptable i)).pid = (k.ptable i).pid) :
    PidsFresh (k.write (.slot i) f) := by
  refine h.mono (fun j hj => ?_) rfl
  by_cases hji : j = i
  · subst hji
    simp only [Kernel.write_slot_ptable, Function.update_self] at hj ⊢
    exact ⟨hlive, hpid⟩
  · rw [Kernel.write_slot_ptable_of_ne hji] at hj ⊢
    exact ⟨hj, rfl⟩

/-- `fork` gives the slot it fills the next pid. -/
theorem fork (h : PidsFresh k) (stride_scheduler kallocOk copyOk : Bool) :
    PidsFresh (fork stride_scheduler k kallocOk copyOk) := by
  rcases fork_cases stride_scheduler k kallocOk copyOk with hk | ⟨i, -, hother, hrest, hnew⟩
  · rw [hk]
    exact h
  set k' := Xv6Stride.fork stride_scheduler k kallocOk copyOk
  have hn : k'.nextpid = k.nextpid + 1 := (congrArg Kernel.nextpid hrest :)
  -- the filled slot, when live, has pid `nextpid`; every other slot is as it was
  have hi : (k'.ptable i).state ≠ .UNUSED → (k'.ptable i).pid = k.nextpid := by
    intro hl
    rcases hnew with ⟨hu, -⟩ | ⟨-, hp, -⟩
    · exact absurd hu hl
    · exact hp
  have hlt : ∀ j, j ≠ i → (k'.ptable j).state ≠ .UNUSED → (k'.ptable j).pid < k.nextpid := by
    intro j hj hl
    rw [hother j hj] at hl ⊢
    exact h.pid_lt j hl
  refine ⟨by rw [hn]; have := h.nextpid_pos; omega, fun j hj => ?_, fun j hj => ?_,
    fun j l hj hl hjl => ?_⟩
  · by_cases hji : j = i
    · subst hji
      rw [hi hj]
      exact h.nextpid_pos
    · rw [hother j hji] at hj ⊢
      exact h.pid_pos j hj
  · rw [hn]
    by_cases hji : j = i
    · subst hji
      rw [hi hj]
      omega
    · have := hlt j hji hj
      omega
  · by_cases hji : j = i <;> by_cases hli : l = i
    · rw [hji, hli]
    · subst hji
      have := hlt l hli hl
      rw [hi hj] at hjl
      omega
    · subst hli
      have := hlt j hji hj
      rw [hi hl] at hjl
      omega
    · rw [hother j hji] at hj hjl
      rw [hother l hli] at hl hjl
      exact h.pid_inj j l hj hl hjl

end PidsFresh

/-- `userinit` on the zero-filled table starts the pids fresh. -/
theorem pidsFresh_boot (stride_scheduler : Bool) (heapArr : ℕ → Proc) :
    PidsFresh (userinit stride_scheduler (boot heapArr)) := by
  have hk₀ := userinit_boot stride_scheduler heapArr
  set k₀ := userinit stride_scheduler (boot heapArr)
  -- slot `0`, with pid `1`, is the only live slot
  have hlive : ∀ i, (k₀.ptable i).state ≠ .UNUSED → i = 0 := by
    intro i hi
    by_contra hne
    simp [hk₀, Function.update_of_ne hne, boot, Proc.zero] at hi
  have hpid : (k₀.ptable 0).pid = 1 := by
    cases stride_scheduler <;> simp [hk₀, initStride]
  have hnext : k₀.nextpid = 2 := by simp [hk₀]
  refine ⟨by rw [hnext]; decide, fun i hi => ?_, fun i hi => ?_, fun i j hi hj _ => ?_⟩
  · rw [hlive i hi, hpid]
    decide
  · rw [hlive i hi, hpid, hnext]
    decide
  · rw [hlive i hi, hlive j hj]

end Xv6Stride
