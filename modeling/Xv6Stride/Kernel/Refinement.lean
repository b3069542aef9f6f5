import Xv6Stride.Lifecycle
import Xv6Stride.Kernel.RoundRobin
import Xv6Stride.Kernel.Progress

/-!
# The round-robin kernel refines the life of a process

Read through the state of each slot of `ptable.proc` (`Proc.phase`), every event of the kernel
under `sched_RR` is a step of the lifecycle machine of `Lifecycle.lean` (`rr_refines_lifecycle`):
each process moves along at most one edge of its life, at most one runs, and one starts running
only when none ran. So under `sched_RR` a process that has exited is never switched to before
its slot is freed, and a sleeping one never before a wakeup or a `kill` has made it runnable
(`rr_zombie_until_freed`, `rr_sleeper_until_woken`): the consequences that `Stride.lean` shows
`sched_stride` does not have.

Each function of an event is stated by what it does to the phases: the table functions
`wakeup1`, `kill` and the loop of `exit` are quiet (they wake sleepers), a process leaving the
CPU through `sched` moves from running and no other slot changes, `fork` spawns a free slot and
`wait` reaps a zombie. The rules of `Lifecycle.lean` put the functions of one event together.
`allocproc`'s `EMBRYO` never outlives the event that made it (`NoEmbryo`), so between events a
slot is free exactly when it is `UNUSED`.

The same functions move each slot along at most one edge under `sched_stride` too
(`moves_of_stepInvariant` takes the scheduler's invariant of runs). There no slot is ever
running, so a runnable slot is never dispatched and stays runnable for good
(`stride_slots_never_freed`): the slots of the table only fill, and once all are runnable every
`fork` fails.
-/

namespace Xv6Stride

open Lifecycle

/-- The phase of a slot's record in the life of its process. An `EMBRYO` slot is one that
`allocproc` holds for `fork` within one event. -/
def Proc.phase (p : Proc) : Phase Chan :=
  match p.state with
  | .UNUSED => .free
  | .EMBRYO => .free
  | .SLEEPING => .blocked p.chan
  | .RUNNABLE => .ready
  | .RUNNING => .running
  | .ZOMBIE => .done

/-- The phases of the slots of the table. -/
def Kernel.phases (k : Kernel) (i : Fin NPROC) : Phase Chan := (k.ptable i).phase

/-! ## Phases of a record -/

namespace Proc

variable {p q : Proc}

/-- The phase reads the state and the channel alone. -/
theorem phase_congr (hs : q.state = p.state) (hc : q.chan = p.chan) : q.phase = p.phase := by
  unfold phase
  rw [hs, hc]

/-- A record runs exactly when it is `RUNNING`. -/
theorem phase_eq_running : p.phase = .running ↔ p.state = .RUNNING := by
  unfold phase
  split <;> simp_all

/-- A record is ready exactly when it is `RUNNABLE`. -/
theorem phase_eq_ready : p.phase = .ready ↔ p.state = .RUNNABLE := by
  unfold phase
  split <;> simp_all

/-- A record is done exactly when it is a `ZOMBIE`. -/
theorem phase_eq_done : p.phase = .done ↔ p.state = .ZOMBIE := by
  unfold phase
  split <;> simp_all

/-- A record is free exactly when it is `UNUSED` or `EMBRYO`. -/
theorem phase_eq_free : p.phase = .free ↔ p.state = .UNUSED ∨ p.state = .EMBRYO := by
  unfold phase
  split <;> simp_all

/-- A record is blocked on a channel exactly when it sleeps on it. -/
theorem phase_eq_blocked {ch : Chan} : p.phase = .blocked ch ↔ p.state = .SLEEPING ∧ p.chan = ch := by
  unfold phase
  split <;> simp_all

/-- A runnable record that moves one edge is runnable or running: it was dispatched or not. -/
theorem runnable_of_move (hm : Move p.phase q.phase) (hp : p.state = .RUNNABLE) :
    q.state = .RUNNABLE ∨ q.state = .RUNNING := by
  rw [phase_eq_ready.mpr hp] at hm
  rcases hm.ready_cases with hready | hrunning
  · exact .inl (phase_eq_ready.mp hready)
  · exact .inr (phase_eq_running.mp hrunning)

/-- Touching a record wakes it at most. -/
theorem Touched.quiet (h : p.Touched q) : Quiet p.phase q.phase := by
  have hchan : q.chan = p.chan := (congrArg Proc.chan h.body :)
  rcases h.state with hs | ⟨hs, hr⟩
  · rw [phase_congr hs hchan]
    exact Quiet.refl _
  · rw [phase_eq_blocked.mpr ⟨hs, rfl⟩, phase_eq_ready.mpr hr]
    exact Quiet.wake _

end Proc

/-! ## What each function does to the phases -/

/-- Every slot moves quietly from `k` to `k'`. -/
def Kernel.Quiets (k k' : Kernel) : Prop := ∀ i, Quiet (k.phases i) (k'.phases i)

namespace Kernel.Quiets

variable {k k₁ k' : Kernel}

/-- Every slot stays where it is. -/
theorem refl (k : Kernel) : k.Quiets k := fun _ => Quiet.refl _

/-- Quiet moves in a row are quiet. -/
theorem trans (h₁ : k.Quiets k₁) (h₂ : k₁.Quiets k') : k.Quiets k' :=
  fun i => (h₁ i).trans (h₂ i)

/-- A kernel with the same phases moves nothing. -/
theorem of_phases_eq (h : k'.phases = k.phases) : k.Quiets k' := by
  intro i
  rw [h]
  exact Quiet.refl _

end Kernel.Quiets

section Functions

variable {stride_scheduler : Bool} {k k' : Kernel}

/-- Touching the slots is quiet: it wakes sleepers at most. -/
theorem Kernel.Touched.quiets (h : k.Touched k') : k.Quiets k' :=
  fun i => (h.slot i).quiet

/-- A write that keeps the state and the channel keeps every phase. -/
theorem phases_write {p : Ptr} {f : Proc → Proc}
    (hf : ∀ q, (f q).state = q.state ∧ (f q).chan = q.chan) : (k.write p f).phases = k.phases := by
  funext i
  cases p with
  | null => rfl
  | slot c =>
    by_cases hi : i = c
    · subst hi
      simp only [Kernel.phases, Kernel.write_slot_ptable, Function.update_self]
      exact Proc.phase_congr (hf _).1 (hf _).2
    · simp [Kernel.phases, Function.update_of_ne hi]
  | heap n => rfl

/-- The record `c->proc` designates runs: what `RRInv` says of a process on the CPU. -/
def Kernel.OnCpu (k : Kernel) : Prop := ∀ c, k.cpu = .slot c → (k.ptable c).state = .RUNNING

/-- Touching the slots keeps the process on the CPU running. -/
theorem Kernel.OnCpu.touched (h : k.OnCpu) (ht : k.Touched k') : k'.OnCpu := by
  intro c hc
  have hrun := h c (ht.cpu_eq ▸ hc)
  rw [(ht.slot c).state_eq (by rw [hrun]; decide), hrun]

/-- `sched_stride`'s accounting after its `swtch` writes `last_interrupted` and `runtime`
only. -/
theorem phases_strideReturn (k : Kernel) : (strideReturn k).phases = k.phases := by
  have h₁ := phases_write (k := k) (p := k.cpu)
    (f := fun q => { q with last_interrupted := getticks k }) fun _ => ⟨rfl, rfl⟩
  have h₂ := phases_write (k := k.write k.cpu fun q => { q with last_interrupted := getticks k })
    (p := k.cpu) (f := fun q => { q with runtime := q.runtime + (q.last_interrupted - q.last_scheduled) })
    fun _ => ⟨rfl, rfl⟩
  exact h₂.trans h₁

/-- `sched` saves a context, and the scheduler's side of the switch keeps every state: no phase
changes. -/
theorem phases_sched (h : sched stride_scheduler k = .ok k') : k'.phases = k.phases := by
  obtain ⟨-, rfl⟩ := sched_eq_ok.mp h
  have hsave := phases_write (k := k) (p := k.cpu)
    (f := fun q => { q with context := k.nextctx }) fun _ => ⟨rfl, rfl⟩
  cases stride_scheduler
  · exact hsave
  · exact (phases_strideReturn _).trans hsave

/-- A process that writes its own state, other than a free one, and leaves the CPU through
`sched` moves from running; no other slot changes. -/
theorem quiets_release {f : Proc → Proc} (hrun : k.OnCpu) (hf : ∀ q, (f q).phase ≠ .free)
    (h : sched stride_scheduler (k.write k.cpu f) = .ok k') : k.Quiets k' := by
  rw [Kernel.Quiets, phases_sched h]
  intro i
  -- the write lands in the slot `c->proc` designates, if any
  cases hc : k.cpu with
  | null => exact Quiet.refl _
  | slot c =>
    by_cases hi : i = c
    · subst hi
      have hr : (k.ptable i).phase = .running := Proc.phase_eq_running.mpr (hrun i hc)
      simp only [Kernel.phases, Kernel.write_slot_ptable, Function.update_self, hr]
      exact Quiet.of_running (hf _)
    · simp only [Kernel.phases, Kernel.write_slot_ptable, Function.update_of_ne hi]
      exact Quiet.refl _
  | heap n => exact Quiet.refl _

/-- `yield` is quiet: its caller goes from running to ready. -/
theorem quiets_yield (hrun : k.OnCpu) (h : yield stride_scheduler k = .ok k') : k.Quiets k' :=
  quiets_release hrun (fun _ => by simp [Proc.phase]) h

/-- `sleep` is quiet: its caller goes from running to blocked. -/
theorem quiets_sleep (hrun : k.OnCpu) {chan : Chan} (h : sleep stride_scheduler k chan = .ok k') :
    k.Quiets k' :=
  quiets_release hrun (fun _ => by simp [Proc.phase]) (sleep_eq_ok.mp h).2

/-- `exit` wakes the parent and `initproc` at most, and moves its caller from running. -/
theorem quiets_exit (hrun : k.OnCpu) (h : exit stride_scheduler k = .ok k') : k.Quiets k' := by
  obtain ⟨-, k₁, ht, hs⟩ := exit_cases h
  have hz : ∀ q : Proc, ({ q with state := .ZOMBIE } : Proc).phase ≠ .free := fun _ => by
    simp [Proc.phase]
  exact ht.quiets.trans (quiets_release (hrun.touched ht) hz hs)

/-- Every slot moves as a system call may move it, from `k` to `k'`. -/
def Kernel.Calls (k k' : Kernel) : Prop := ∀ i, Call (k.phases i) (k'.phases i)

/-- Quiet moves are what a system call may do. -/
theorem Kernel.Quiets.calls {k k' : Kernel} (h : k.Quiets k') : k.Calls k' :=
  fun i => (h i).call

/-- `fork` spawns at most the free slot it took. -/
theorem calls_fork (kallocOk copyOk : Bool) : k.Calls (fork stride_scheduler k kallocOk copyOk) := by
  rcases fork_cases stride_scheduler k kallocOk copyOk with h | ⟨c, hfree, hother, -, hnew⟩
  · rw [h]
    exact (Kernel.Quiets.refl k).calls
  intro i
  by_cases hi : i = c
  · subst hi
    have hf : (k.ptable i).phase = .free := Proc.phase_eq_free.mpr (.inl hfree)
    simp only [Kernel.phases, hf]
    rcases hnew with ⟨hu, -⟩ | ⟨hr, -⟩
    · exact Quiet.call (by rw [Proc.phase_eq_free.mpr (.inl hu)]; exact Quiet.refl _)
    · exact .inr (.inl ⟨rfl, Proc.phase_eq_ready.mpr hr⟩)
  · simp only [Kernel.phases, hother i hi]
    exact Quiet.call (Quiet.refl _)

/-- `wait` reaps a zombie, returns, or sleeps. -/
theorem calls_wait (hrun : k.OnCpu) (h : wait stride_scheduler k = .ok k') : k.Calls k' := by
  rcases wait_cases h with ⟨c, -, hz, rfl⟩ | rfl | ⟨-, h⟩
  · intro i
    by_cases hi : i = c
    · subst hi
      have hd : (k.ptable i).phase = .done := Proc.phase_eq_done.mpr hz
      simp only [Kernel.phases, reap, Kernel.write_slot_ptable, Function.update_self, hd]
      exact .inr (.inr ⟨rfl, by simp [Proc.phase]⟩)
    · simp only [Kernel.phases, reap, Kernel.write_slot_ptable, Function.update_of_ne hi]
      exact Quiet.call (Quiet.refl _)
  · exact (Kernel.Quiets.refl _).calls
  · exact (quiets_sleep hrun h).calls

/-- `kill` is quiet: it wakes its target at most. -/
theorem quiets_kill (k : Kernel) (pid : ℤ) : k.Quiets (kill k pid) :=
  (touched_kill k pid).quiets

/-- A turn of `sched_RR` dispatches one runnable slot, or none. -/
theorem moves_schedRR (k : Kernel) (i : Fin NPROC) : Move (k.phases i) ((schedRR k).phases i) := by
  cases hn : nextRunnable k with
  | none =>
    rw [schedRR_of_none hn]
    exact .stay _
  | some j =>
    rw [schedRR_of_some hn]
    by_cases hi : i = j
    · subst hi
      have hr : (k.ptable i).phase = .ready :=
        Proc.phase_eq_ready.mpr (nextRunnable_eq_some_iff.mp hn).2.1
      have hd : ({ k.ptable i with state := .RUNNING } : Proc).phase = .running :=
        Proc.phase_eq_running.mpr rfl
      simp only [Kernel.phases, Function.update_self, hr, hd]
      exact .dispatch
    · simp only [Kernel.phases, Function.update_of_ne hi]
      exact .stay _

/-- After `exit` the scheduler is on the CPU. -/
theorem exit_cpu (h : exit stride_scheduler k = .ok k') : k'.cpu = .null :=
  sched_cpu (exit_eq_ok.mp h).2

/-- An event leaves `c->proc` as it was, or clears it, or finds it clear. -/
theorem step_cpu {e : Event} (h : step stride_scheduler k e = some k') :
    k'.cpu = k.cpu ∨ k'.cpu = .null ∨ k.cpu = .null := by
  rcases step_cases h with ⟨-, hc, -⟩ | ⟨user, -, h⟩ | ⟨chan, -, rfl⟩ | ⟨-, call, h, hcall⟩
  · exact .inr (.inr hc)
  · rcases timer_cases h with ⟨-, h⟩ | ⟨-, h⟩ | rfl
    · exact .inr (.inl (exit_cpu h))
    · exact .inr (.inl (sched_cpu h))
    · exact .inl rfl
  · exact .inl rfl
  · rcases syscall_cases h with h | ⟨k₁, hk₁, ⟨-, h⟩ | rfl⟩
    · exact .inr (.inl (exit_cpu h))
    · exact .inr (.inl (exit_cpu h))
    · -- the call itself: `fork`, `wait` without sleeping and `kill` keep the caller on the CPU
      rcases hcall _ hk₁ with ⟨a, c, -, rfl⟩ | ⟨-, h⟩ | ⟨-, h⟩ | ⟨chan, -, h⟩ | ⟨pid, -, rfl⟩
      · exact .inl (fork_cpu _ _ a c).1
      · exact .inr (.inl (exit_cpu h))
      · rcases wait_cpu h with h | ⟨h, -⟩
        · exact .inr (.inl h)
        · exact .inl h
      · exact .inr (.inl (sched_cpu (sleep_eq_ok.mp h).2))
      · exact .inl (touched_kill k pid).cpu_eq

end Functions

/-! ## The refinement -/

variable {k k' : Kernel}

/-- A turn of `sched_stride` leaves the table as it was. -/
theorem schedStride_ptable (k : Kernel) : (schedStride k).ptable = k.ptable := by
  by_cases hpos : 0 < k.scanned.size
  · exact (schedStride_of_pos hpos).2.1
  · simp only [schedStride, if_neg hpos]

/-- Under an invariant of runs that puts a running process on the CPU, every event moves each slot
along at most one edge if the scheduler's turn does: the tick, the wakeups and a process leaving
the CPU are quiet, and a system call that spawns or reaps is followed by quiet updates at most. -/
theorem moves_of_stepInvariant {stride_scheduler : Bool} {I : Kernel → Prop}
    (hI : StepInvariant stride_scheduler I) (hon : ∀ k, I k → k.OnCpu)
    (hturn : ∀ k, I k → k.cpu = .null → ∀ i,
      Move (k.phases i) ((if stride_scheduler then schedStride k else schedRR k).phases i))
    (hinv : I k) {e : Event} (h : step stride_scheduler k e = some k') (i : Fin NPROC) :
    Move (k.phases i) (k'.phases i) := by
  rcases step_cases h with ⟨-, hc, rfl⟩ | ⟨user, -, h⟩ | ⟨chan, -, rfl⟩ | ⟨hcpu, call, h, hcall⟩
  · exact hturn k hinv hc i
  · have hq : k.Quiets (wakeup1 { k with ticks := k.ticks + 1 } .ticks) :=
      (Kernel.Quiets.of_phases_eq rfl).trans (touched_wakeup1 _ _).quiets
    have hrun : (wakeup1 { k with ticks := k.ticks + 1 } .ticks).OnCpu :=
      hon _ (hI.wakeup _ _ (hI.tick k hinv))
    rcases timer_cases h with ⟨-, h⟩ | ⟨-, h⟩ | rfl
    · exact (hq.trans (quiets_exit hrun h) i).move
    · exact (hq.trans (quiets_yield hrun h) i).move
    · exact (hq i).move
  · exact ((touched_wakeup1 k chan).quiets i).move
  · -- what the call does, and that the invariant holds after it for the caller's exit
    have hcalls : ∀ k₁, call k = .ok k₁ → k.Calls k₁ ∧ I k₁ := fun k₁ hk₁ => by
      rcases hcall k₁ hk₁ with ⟨a, c, -, rfl⟩ | ⟨-, h⟩ | ⟨-, h⟩ | ⟨chan, -, h⟩ | ⟨pid, -, rfl⟩
      · exact ⟨calls_fork a c, hI.fork k a c hinv hcpu⟩
      · exact ⟨(quiets_exit (hon k hinv) h).calls, hI.exit k k₁ hinv h⟩
      · exact ⟨calls_wait (hon k hinv) h, hI.wait k k₁ hinv h⟩
      · exact ⟨(quiets_sleep (hon k hinv) h).calls, hI.sleep k chan k₁ hinv h⟩
      · exact ⟨(quiets_kill k pid).calls, hI.kill k pid hinv⟩
    rcases syscall_cases h with h | ⟨k₁, hk₁, ⟨-, h⟩ | rfl⟩
    · exact (quiets_exit (hon k hinv) h i).move
    · obtain ⟨hc, hinv₁⟩ := hcalls k₁ hk₁
      exact (hc i).quiet (quiets_exit (hon k₁ hinv₁) h i)
    · exact ((hcalls _ hk₁).1 i).quiet (Quiet.refl _)

/-- Under the round-robin invariant every event moves each slot along at most one edge. -/
theorem moves_rr (hinv : RRInv k) {e : Event} (h : step false k e = some k') (i : Fin NPROC) :
    Move (k.phases i) (k'.phases i) :=
  moves_of_stepInvariant RRInv.stepInvariant (fun _ h => h.on_cpu)
    (fun k _ _ i => moves_schedRR k i) hinv h i

/-- Under `STRIDE`'s invariant `c->proc` never designates a slot, and a turn of the scheduler
leaves the table as it was: every event moves each slot along at most one edge. -/
theorem moves_stride (hinv : StrideInv k) {e : Event} (h : step true k e = some k')
    (i : Fin NPROC) : Move (k.phases i) (k'.phases i) := by
  refine moves_of_stepInvariant StrideInv.stepInvariant
    (fun _ h c hc => absurd hc (h.cpu_ne_slot c)) (fun k _ _ i => ?_) hinv h i
  show Move _ ((schedStride k).ptable i).phase
  rw [schedStride_ptable]
  exact .stay _

/-- Under `sched_RR`, one event from a reachable state is one step of the lifecycle machine. -/
theorem lifecycle_step (hk : Reachable false k) {e : Event} (h : step false k e = some k') :
    Lifecycle.Step k.phases k'.phases := by
  have hinv := reachable_rrInv hk
  have hinv' := reachable_rrInv (hk.step e h)
  refine ⟨moves_rr hinv h, fun i j hi hj => ?_, fun i hi hi' j hj => ?_⟩
  · -- one CPU: a running slot is the one `c->proc` designates
    have h₁ := hinv'.running i (Proc.phase_eq_running.mp hi)
    have h₂ := hinv'.running j (Proc.phase_eq_running.mp hj)
    exact Ptr.slot.inj (h₁.symm.trans h₂)
  · -- a slot starts running only where `c->proc` moved, from null
    have hc' := hinv'.running i (Proc.phase_eq_running.mp hi')
    have hc := hinv.running j (Proc.phase_eq_running.mp hj)
    rcases step_cpu h with hcpu | hcpu | hcpu
    · rw [hc', hc] at hcpu
      obtain rfl := Ptr.slot.inj hcpu
      exact hi hj
    · rw [hc'] at hcpu
      cases hcpu
    · rw [hc] at hcpu
      cases hcpu

/-- Under `sched_RR`, a turn of the scheduler can come whenever no process runs. -/
theorem rr_schedule_step (hc : k.cpu = .null) : step false k .schedule = some (schedRR k) :=
  Option.ite_none_right_eq_some.mpr ⟨hc, rfl⟩

/-- After `userinit` under `sched_RR`: `initproc` runs and forks a child, the timer preempts it,
and the child runs and exits. -/
def rrExited : Kernel :=
  (run false rrInit [.schedule, .fork true true, .timer false, .schedule, .exit]).getD rrInit

set_option maxRecDepth 4000 in
/-- The run that `rrExited` names happens. -/
theorem rrExited_run :
    run false rrInit [.schedule, .fork true true, .timer false, .schedule, .exit] =
      some rrExited :=
  run_eq_getD (by decide)

/-- No slot is `EMBRYO`: the embryo that `allocproc` makes for `fork` never outlives the event. -/
def NoEmbryo (k : Kernel) : Prop := ∀ i, (k.ptable i).state ≠ .EMBRYO

namespace NoEmbryo

variable {stride_scheduler : Bool}

/-- A kernel with the same table has no embryo either. -/
theorem of_ptable_eq (h : NoEmbryo k) (hp : k'.ptable = k.ptable) : NoEmbryo k' := by
  intro i
  rw [hp]
  exact h i

/-- Touching the slots makes no embryo: only a sleeper changes state, to `RUNNABLE`. -/
theorem touched (h : NoEmbryo k) (ht : k.Touched k') : NoEmbryo k' := by
  intro i he
  rcases (ht.slot i).state with hs | ⟨-, hr⟩
  · exact h i (hs ▸ he)
  · rw [hr] at he
    cases he

/-- A write that makes no embryo of a record keeps the table free of them. -/
theorem write (h : NoEmbryo k) {p : Ptr} {f : Proc → Proc}
    (hf : ∀ q, q.state ≠ .EMBRYO → (f q).state ≠ .EMBRYO) : NoEmbryo (k.write p f) := by
  intro i
  cases p with
  | null => exact h i
  | slot c =>
    by_cases hi : i = c
    · subst hi
      simp only [Kernel.write_slot_ptable, Function.update_self]
      exact hf _ (h i)
    · simp only [Kernel.write_slot_ptable, Function.update_of_ne hi]
      exact h i
  | heap n => exact h i

/-- The scheduler's return makes no embryo. -/
theorem strideReturn (h : NoEmbryo k) : NoEmbryo (Xv6Stride.strideReturn k) :=
  ((h.write (p := k.cpu) (f := fun q => { q with last_interrupted := getticks k })
    fun _ hq => hq).write (p := k.cpu)
    (f := fun q => { q with runtime := q.runtime + (q.last_interrupted - q.last_scheduled) })
    fun _ hq => hq).of_ptable_eq rfl

/-- `sched` saves a context and the scheduler's side of the switch keeps every state. -/
theorem sched (h : NoEmbryo k) (hs : Xv6Stride.sched stride_scheduler k = .ok k') :
    NoEmbryo k' := by
  obtain ⟨-, rfl⟩ := sched_eq_ok.mp hs
  have hsave := h.write (p := k.cpu) (f := fun q => { q with context := k.nextctx }) fun _ hq => hq
  cases stride_scheduler
  · exact hsave.of_ptable_eq rfl
  · exact NoEmbryo.strideReturn (hsave.of_ptable_eq rfl)

/-- `yield` makes no embryo. -/
theorem yield (h : NoEmbryo k) (hs : Xv6Stride.yield stride_scheduler k = .ok k') :
    NoEmbryo k' :=
  (h.write (p := k.cpu) (f := fun q => { q with state := .RUNNABLE }) fun _ _ => by simp).sched hs

/-- `sleep` makes no embryo. -/
theorem sleep (h : NoEmbryo k) {chan : Chan} (hs : Xv6Stride.sleep stride_scheduler k chan = .ok k') :
    NoEmbryo k' :=
  (h.write (p := k.cpu) (f := fun q => { q with chan := chan, state := .SLEEPING })
    fun _ _ => by simp).sched (sleep_eq_ok.mp hs).2

/-- `exit` makes no embryo. -/
theorem exit (h : NoEmbryo k) (hs : Xv6Stride.exit stride_scheduler k = .ok k') : NoEmbryo k' := by
  obtain ⟨-, k₁, ht, hs⟩ := exit_cases hs
  exact ((h.touched ht).write (p := k₁.cpu) (f := fun q => { q with state := .ZOMBIE })
    fun _ _ => by simp).sched hs

/-- `wait` makes no embryo: the reaped slot becomes `UNUSED`. -/
theorem wait (h : NoEmbryo k) (hs : Xv6Stride.wait stride_scheduler k = .ok k') : NoEmbryo k' := by
  rcases wait_cases hs with ⟨c, -, -, rfl⟩ | rfl | ⟨-, hs⟩
  · exact h.write fun _ _ => by simp
  · exact h
  · exact h.sleep hs

/-- `fork` leaves the slot it took `UNUSED` or `RUNNABLE`. -/
theorem fork (h : NoEmbryo k) (kallocOk copyOk : Bool) :
    NoEmbryo (Xv6Stride.fork stride_scheduler k kallocOk copyOk) := by
  rcases fork_cases stride_scheduler k kallocOk copyOk with hk | ⟨c, -, hother, -, hnew⟩
  · rw [hk]
    exact h
  intro i
  by_cases hi : i = c
  · subst hi
    rcases hnew with ⟨hu, -⟩ | ⟨hr, -⟩
    · rw [hu]
      decide
    · rw [hr]
      decide
  · rw [hother i hi]
    exact h i

/-- `kill` makes no embryo. -/
theorem kill (h : NoEmbryo k) (pid : ℤ) : NoEmbryo (Xv6Stride.kill k pid) :=
  h.touched (touched_kill k pid)

/-- A turn of `sched_RR` makes no embryo: it marks a slot `RUNNING`. -/
theorem schedRR (h : NoEmbryo k) : NoEmbryo (Xv6Stride.schedRR k) := by
  cases hn : nextRunnable k with
  | none =>
    rw [schedRR_of_none hn]
    exact h
  | some j =>
    rw [schedRR_of_some hn]
    intro i
    by_cases hi : i = j
    · subst hi
      simp
    · simp only [Function.update_of_ne hi]
      exact h i

/-- No event leaves an embryo behind, under either scheduler. -/
theorem stepInvariant (stride_scheduler : Bool) : StepInvariant stride_scheduler NoEmbryo where
  schedule _ h _ := by
    cases stride_scheduler
    · exact h.schedRR
    · exact h.of_ptable_eq (schedStride_ptable _)
  wakeup k chan h := h.touched (touched_wakeup1 k chan)
  tick _ h := h.of_ptable_eq rfl
  yield _ _ h := h.yield
  exit _ _ h := h.exit
  wait _ _ h := h.wait
  sleep _ _ _ h := h.sleep
  fork _ kallocOk copyOk h _ := h.fork kallocOk copyOk
  kill _ pid h := h.kill pid

end NoEmbryo

/-- At boot no slot is an embryo: `userinit` makes its slot `RUNNABLE`. -/
theorem noEmbryo_boot (stride_scheduler : Bool) (heapArr : ℕ → Proc) :
    NoEmbryo (userinit stride_scheduler (boot heapArr)) := by
  intro i
  rw [userinit_boot]
  by_cases h0 : i = 0
  · subst h0
    cases stride_scheduler <;> simp [initStride]
  · simp [Function.update_of_ne h0, boot, Proc.zero]

/-- No reachable state has an embryo. -/
theorem reachable_noEmbryo {stride_scheduler : Bool} (hk : Reachable stride_scheduler k) :
    NoEmbryo k :=
  (NoEmbryo.stepInvariant stride_scheduler).reachable (noEmbryo_boot stride_scheduler) hk

/-! ## What a scheduler must never do -/

/-- A run of events from a reachable state under `sched_RR`, each arriving where `P` holds, is
a run of the lifecycle machine, each step arriving where `Q` holds of the phases. -/
theorem lifecycle_run {P : Kernel → Prop} {Q : (Fin NPROC → Phase Chan) → Prop}
    (hPQ : ∀ k₂, Reachable false k₂ → P k₂ → Q k₂.phases) (hk : Reachable false k)
    (hrun : Relation.ReflTransGen (fun k₁ k₂ => (∃ e, step false k₁ e = some k₂) ∧ P k₂) k k') :
    Reachable false k' ∧
      Relation.ReflTransGen (fun p p' => Lifecycle.Step p p' ∧ Q p') k.phases k'.phases := by
  induction hrun with
  | refl => exact ⟨hk, .refl⟩
  | tail _ hstep ih =>
    obtain ⟨hk₁, habs⟩ := ih
    obtain ⟨⟨e, he⟩, hp⟩ := hstep
    have hk₂ := hk₁.step e he
    exact ⟨hk₂, habs.tail ⟨lifecycle_step hk₁ he, hPQ _ hk₂ hp⟩⟩

/-- Under `sched_RR`, from any reachable state, a process that has exited stays a `ZOMBIE`, so is
never switched to, along every run in which its slot is not freed. -/
theorem rr_zombie_until_freed (hk : Reachable false k) {i : Fin NPROC}
    (hz : (k.ptable i).state = .ZOMBIE)
    (hrun : Relation.ReflTransGen
      (fun k₁ k₂ => (∃ e, step false k₁ e = some k₂) ∧ (k₂.ptable i).state ≠ .UNUSED) k k') :
    (k'.ptable i).state = .ZOMBIE := by
  -- between events a slot is free exactly when it is `UNUSED`
  have hfree : ∀ k₂, Reachable false k₂ → (k₂.ptable i).state ≠ .UNUSED → k₂.phases i ≠ .free :=
    fun k₂ hk₂ hu hf => (Proc.phase_eq_free.mp hf).elim hu (reachable_noEmbryo hk₂ i)
  obtain ⟨-, habs⟩ := lifecycle_run (Q := fun p => p i ≠ .free) hfree hk hrun
  have hdone : k'.phases i = .done := done_of_run habs (Proc.phase_eq_done.mpr hz)
  exact Proc.phase_eq_done.mp hdone

set_option maxRecDepth 4000 in
/-- After the child's exit the scheduler's pass ends with nothing dispatched, and the child is
still a `ZOMBIE`. -/
theorem rr_zombie_until_freed_exited : ((schedRR rrExited).ptable 1).state = .ZOMBIE := by
  have hc : rrExited.cpu = .null := by decide
  exact rr_zombie_until_freed (reachable_run (.boot fun _ => Proc.zero) rrExited_run)
    (by decide) (.single ⟨⟨.schedule, rr_schedule_step hc⟩, by decide⟩)

/-- Under `sched_RR`, from any reachable state, a sleeping process stays `SLEEPING` on its
channel, so is never switched to, along every run in which no wakeup or `kill` makes it
`RUNNABLE`. -/
theorem rr_sleeper_until_woken (hk : Reachable false k) {i : Fin NPROC}
    (hs : (k.ptable i).state = .SLEEPING)
    (hrun : Relation.ReflTransGen
      (fun k₁ k₂ => (∃ e, step false k₁ e = some k₂) ∧ (k₂.ptable i).state ≠ .RUNNABLE) k k') :
    (k'.ptable i).state = .SLEEPING ∧ (k'.ptable i).chan = (k.ptable i).chan := by
  have hready : ∀ k₂, Reachable false k₂ → (k₂.ptable i).state ≠ .RUNNABLE →
      k₂.phases i ≠ .ready :=
    fun k₂ _ hr hp => hr (Proc.phase_eq_ready.mp hp)
  obtain ⟨-, habs⟩ := lifecycle_run (Q := fun p => p i ≠ .ready) hready hk hrun
  have hblocked : k'.phases i = .blocked (k.ptable i).chan :=
    blocked_of_run habs (Proc.phase_eq_blocked.mpr ⟨hs, rfl⟩)
  exact Proc.phase_eq_blocked.mp hblocked

/-- After `userinit` under `sched_RR`: `initproc` runs and sleeps on `ticks`. -/
def rrSlept : Kernel := (run false rrInit [.schedule, .sleep .ticks]).getD rrInit

/-- The run that `rrSlept` names happens. -/
theorem rrSlept_run : run false rrInit [.schedule, .sleep .ticks] = some rrSlept :=
  run_eq_getD (by decide)

/-- The next turn of `sched_RR` passes over the sleeping `initproc`. -/
theorem rr_sleeper_until_woken_init :
    ((schedRR rrSlept).ptable 0).state = .SLEEPING ∧
      ((schedRR rrSlept).ptable 0).chan = (rrSlept.ptable 0).chan := by
  have hc : rrSlept.cpu = .null := by decide
  exact rr_sleeper_until_woken (reachable_run (.boot fun _ => Proc.zero) rrSlept_run)
    (by decide) (.single ⟨⟨.schedule, rr_schedule_step hc⟩, by decide⟩)

/-! ## Under `STRIDE`, no slot is ever freed -/

/-- `fork` on a table with no free slot fails and changes nothing. -/
theorem fork_full {stride_scheduler kallocOk copyOk : Bool}
    (hfull : ∀ i, (k.ptable i).state ≠ .UNUSED) : fork stride_scheduler k kallocOk copyOk = k := by
  rcases fork_cases stride_scheduler k kallocOk copyOk with h | ⟨i, hfree, -⟩
  · exact h
  · exact absurd hfree (hfull i)

/-- Under `STRIDE` a runnable slot stays runnable across every event: the table never holds a
running slot, and the process's own writes go to the heap's copy. -/
theorem stride_runnable_step (hk : Reachable true k) {e : Event} (h : step true k e = some k')
    {i : Fin NPROC} (hr : (k.ptable i).state = .RUNNABLE) : (k'.ptable i).state = .RUNNABLE := by
  rcases Proc.runnable_of_move (moves_stride (reachable_strideInv hk) h i) hr with hr' | hs
  · exact hr'
  · -- a dispatch would mark the slot `RUNNING`, which no slot is under `STRIDE`
    rcases (reachable_strideInv (hk.step e h)).state i with hu | hu <;> rw [hs] at hu <;> cases hu

/-- Under `STRIDE`, from every reachable state, along every run of events, a runnable slot stays
runnable: neither `exit` nor `wait` ever frees a slot, so the table only fills, and once every slot
is runnable every `fork` fails. -/
theorem stride_slots_never_freed (hk : Reachable true k) {es : List Event}
    (h : run true k es = some k') :
    (∀ i, (k.ptable i).state = .RUNNABLE → (k'.ptable i).state = .RUNNABLE) ∧
      ((∀ i, (k.ptable i).state = .RUNNABLE) →
        ∀ kallocOk copyOk, fork true k' kallocOk copyOk = k') := by
  -- every runnable slot stays runnable, event after event
  have hstay : ∀ i, (k.ptable i).state = .RUNNABLE → (k'.ptable i).state = .RUNNABLE := by
    induction es generalizing k with
    | nil =>
      cases h
      exact fun _ hr => hr
    | cons e es ih =>
      simp only [run, Option.bind_eq_some_iff] at h
      obtain ⟨k₁, h₁, h₂⟩ := h
      exact fun i hr => ih (hk.step e h₁) h₂ i (stride_runnable_step hk h₁ hr)
  refine ⟨hstay, fun hfull kallocOk copyOk => fork_full fun i => ?_⟩
  rw [hstay i (hfull i)]
  decide

/-- After the first turn of `sched_stride`, `initproc` exits. -/
def strideExited : Kernel := (run true strideInit [.schedule, .exit]).getD strideInit

/-- The run that `strideExited` names happens. -/
theorem strideExited_run : run true strideInit [.schedule, .exit] = some strideExited :=
  run_eq_getD (by decide +kernel)

/-- `initproc` has exited, and its slot is still runnable. -/
theorem stride_slots_never_freed_init : (strideExited.ptable 0).state = .RUNNABLE :=
  (stride_slots_never_freed (.boot fun _ => Proc.zero) strideExited_run).1 0 (by decide +kernel)

end Xv6Stride
