import Mathlib.Logic.Relation

/-!
# The life of a process

What a scheduler on one CPU is for, over any set `ι` of process slots and any type `C` of wait
channels. A process is free, ready to run, running, blocked on a channel, or done. Each event
moves every process along at most one edge of its life (`Move`): a free slot is spawned ready, a
ready process is dispatched, a running one is preempted, blocks or finishes, a blocked one is
woken ready, and a finished one is reaped. At most one process runs, and a process starts
running only on an idle CPU (`Step`).

Over runs this is what a scheduler must never do: switch to a finished process before its slot
is freed (`done_of_run`), or to a blocked one before it is woken (`blocked_of_run`).

One event of a kernel is several updates in a row. `Quiet` is what a run of updates with no
dispatch, spawn or reap does to a process: the running one may leave the CPU, and a blocked one
may be woken. Quiet updates compose (`Quiet.trans`), and a system call that spawns or reaps,
followed by quiet updates, is still one edge (`Call.quiet`).
-/

namespace Xv6Stride.Lifecycle

/-- What a process is to the scheduler. -/
inductive Phase (C : Type) where
  | free
  | ready
  | running
  | blocked (chan : C)
  | done
  deriving DecidableEq, Repr

variable {ι C : Type} {a b c : Phase C}

/-- One edge of a process's life, or none. -/
inductive Move : Phase C → Phase C → Prop
  | stay (p : Phase C) : Move p p
  | spawn : Move .free .ready
  | dispatch : Move .ready .running
  | preempt : Move .running .ready
  | block (ch : C) : Move .running (.blocked ch)
  | wake (ch : C) : Move (.blocked ch) .ready
  | finish : Move .running .done
  | reap : Move .done .free

/-- One step of the machine: every process moves along at most one edge, at most one process
runs, and a process starts running only when none ran. -/
structure Step (p p' : ι → Phase C) : Prop where
  move : ∀ i, Move (p i) (p' i)
  one_cpu : ∀ i j, p' i = .running → p' j = .running → i = j
  idle : ∀ i, p i ≠ .running → p' i = .running → ∀ j, p j ≠ .running

/-! ## Over runs -/

/-- A finished process moves only when it is reaped. -/
theorem Move.done_of_ne_free (h : Move .done b) (hb : b ≠ .free) : b = .done := by
  cases h with
  | stay => rfl
  | reap => exact absurd rfl hb

/-- A blocked process moves only when it is woken. -/
theorem Move.blocked_of_ne_ready {ch : C} (h : Move (.blocked ch) b) (hb : b ≠ .ready) :
    b = .blocked ch := by
  cases h with
  | stay => rfl
  | wake => exact absurd rfl hb

/-- A ready process stays ready or is dispatched. -/
theorem Move.ready_cases (h : Move .ready b) : b = .ready ∨ b = .running := by
  cases h with
  | stay => exact .inl rfl
  | dispatch => exact .inr rfl

section Runs

variable {i : ι} {p p' : ι → Phase C}

/-- Along a run in which process `i` is never freed, a finished `i` stays finished: it is never
dispatched. -/
theorem done_of_run (hrun : Relation.ReflTransGen (fun p p' => Step p p' ∧ p' i ≠ .free) p p')
    (hdone : p i = .done) : p' i = .done := by
  induction hrun with
  | refl => exact hdone
  | tail _ hstep ih =>
    have hm := hstep.1.move i
    rw [ih] at hm
    exact hm.done_of_ne_free hstep.2

/-- Along a run in which process `i` is never made ready, a blocked `i` stays blocked on the
same channel: it is never dispatched. -/
theorem blocked_of_run {ch : C}
    (hrun : Relation.ReflTransGen (fun p p' => Step p p' ∧ p' i ≠ .ready) p p')
    (hblocked : p i = .blocked ch) : p' i = .blocked ch := by
  induction hrun with
  | refl => exact hblocked
  | tail _ hstep ih =>
    have hm := hstep.1.move i
    rw [ih] at hm
    exact hm.blocked_of_ne_ready hstep.2

end Runs

/-! ## Updates within one event -/

/-- What updates with no dispatch, spawn or reap do to a process: a running one may leave the
CPU in any way but freed, a blocked one may be woken, and the others stay. -/
def Quiet : Phase C → Phase C → Prop
  | .free, b => b = .free
  | .ready, b => b = .ready
  | .running, b => b ≠ .free
  | .blocked ch, b => b = .blocked ch ∨ b = .ready
  | .done, b => b = .done

/-- Staying in a phase is quiet. -/
theorem Quiet.refl (a : Phase C) : Quiet a a := by
  cases a <;> simp [Quiet]

/-- A wakeup of a blocked process is quiet. -/
theorem Quiet.wake (ch : C) : Quiet (.blocked ch) .ready :=
  .inr rfl

/-- A running process may leave the CPU for any phase but free. -/
theorem Quiet.of_running (hb : b ≠ .free) : Quiet .running b :=
  hb

/-- A quiet update is an edge of the machine, or no move at all. -/
theorem Quiet.move (h : Quiet a b) : Move a b := by
  -- by the phase before, then the phase after
  cases a with
  | free => obtain rfl := (h : b = .free); exact .stay _
  | ready => obtain rfl := (h : b = .ready); exact .stay _
  | running =>
    cases b with
    | free => exact absurd rfl (h : (Phase.free : Phase C) ≠ .free)
    | ready => exact .preempt
    | running => exact .stay _
    | blocked ch => exact .block ch
    | done => exact .finish
  | blocked ch =>
    rcases (h : b = .blocked ch ∨ b = .ready) with rfl | rfl
    · exact .stay _
    · exact .wake ch
  | done => obtain rfl := (h : b = .done); exact .stay _

/-- Quiet updates in a row are quiet: a woken process is ready and stays so, and a process that
left the CPU is at worst woken again. -/
theorem Quiet.trans (h₁ : Quiet a b) (h₂ : Quiet b c) : Quiet a c := by
  cases a <;> cases b <;> cases c <;> simp_all [Quiet]

/-- What a system call does to a process before its caller may exit: quiet updates, or the
spawn of a free slot, or the reaping of a finished process. -/
def Call (a b : Phase C) : Prop :=
  Quiet a b ∨ (a = .free ∧ b = .ready) ∨ (a = .done ∧ b = .free)

/-- A quiet update is what a system call may do. -/
theorem Quiet.call (h : Quiet a b) : Call a b :=
  .inl h

/-- A system call, then quiet updates, moves each process along at most one edge: what was
spawned is ready and what was reaped is free, and quiet updates leave both as they are. -/
theorem Call.quiet (h : Call a b) (hq : Quiet b c) : Move a c := by
  rcases h with h | ⟨rfl, rfl⟩ | ⟨rfl, rfl⟩
  · exact (h.trans hq).move
  · obtain rfl := (hq : c = .ready)
    exact .spawn
  · obtain rfl := (hq : c = .free)
    exact .reap

end Xv6Stride.Lifecycle
