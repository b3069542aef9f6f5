import Xv6Stride.Kernel.Wait

/-!
# What ends a sleep

A process that sleeps on a channel stays asleep until an event ends its sleep
(`rr_sleeper_until_woken`). This module says which events can, under either scheduler.
`wakeup1(chan)` ends the sleeps on `chan` and no other, and a tick is `wakeup1(&ticks)`. `kill(pid)`
ends the sleep of the one process it marks. `exit` ends the sleeps on the channels of the exiting
process's parent and of `initproc`. Every other write of a state lands in a slot that does not
sleep: the process on the CPU in `yield`, `sleep`, `exit` and `sched`, a free slot in `fork`, a
zombie in `wait`, a runnable one in `sched_RR`; `sched_stride` writes no slot at all. A killed
process exits on a tick and around any system call, so the exit's channels belong to every event
but a turn of the scheduler and a `wakeup` (`Event.MayWake`).

`Kernel.WakesOnly k k' W` says that every sleep that ends from `k` to `k'` is one that `W` allows.
It is proved once for each function and composed along what an event runs with
`WakesOnly.trans`, as the phases of `Refinement.lean` are. The exit that follows a system call is
stated in terms of the state before the call: the call keeps its caller running on the CPU, with
its parent, and keeps `initproc` (`Kernel.KeepsCaller`).

The other half is what starts a sleep (`Kernel.SleepsOnly`): only the process on the CPU, in its
own `sleep(chan)` or in its `wait` on its own channel (`sleep_starts_only_by`). No function puts
another process to sleep, and this needs no invariant at all.
-/

namespace Xv6Stride

/-- Every sleep on a channel that ends from `k` to `k'` is one that `W` allows. -/
def Kernel.WakesOnly (k k' : Kernel) (W : Fin NPROC → Chan → Prop) : Prop :=
  ∀ i chan, k.SleepsOn i chan → ¬ k'.SleepsOn i chan → W i chan

/-- The channels that the exit of the process on the CPU wakes: its parent's and `initproc`'s. -/
def Kernel.ExitWakes (k : Kernel) (chan : Chan) : Prop :=
  chan = .proc (k.deref k.cpu).parent ∨ chan = .proc k.initproc

/-- The sleeps of slot `i` on `chan` that an event from `k` may end: none for a turn of the
scheduler, those on its channel for `wakeup`, and for every other event those that an exit of the
process on the CPU ends, besides those on `ticks` for a tick and that of the process of `pid` for
`kill(pid)`. -/
def Event.MayWake (k : Kernel) (i : Fin NPROC) (chan : Chan) : Event → Prop
  | .schedule => False
  | .wakeup c => chan = c
  | .timer _ => chan = .ticks ∨ k.ExitWakes chan
  | .kill pid => (k.ptable i).pid = pid ∨ k.ExitWakes chan
  | .fork _ _ | .exit | .wait | .sleep _ => k.ExitWakes chan

namespace Kernel.WakesOnly

variable {k k₁ k' : Kernel} {W W' : Fin NPROC → Chan → Prop}

/-- No change ends no sleep. -/
theorem refl (k : Kernel) (W : Fin NPROC → Chan → Prop) : k.WakesOnly k W :=
  fun _ _ hs hn => absurd hs hn

/-- A weaker allowance allows every sleep that a stronger one does. -/
theorem mono (h : k.WakesOnly k' W) (hW : ∀ i chan, W i chan → W' i chan) : k.WakesOnly k' W' :=
  fun i chan hs hn => hW i chan (h i chan hs hn)

/-- A sleep that ends over two changes ends in the first, or survives it and ends in the
second. -/
theorem trans (h₁ : k.WakesOnly k₁ W) (h₂ : k₁.WakesOnly k' W') :
    k.WakesOnly k' fun i chan => W i chan ∨ W' i chan := by
  intro i chan hs hn
  by_cases hs₁ : k₁.SleepsOn i chan
  · exact .inr (h₂ i chan hs₁ hn)
  · exact .inl (h₁ i chan hs hs₁)

/-- A change that keeps every sleeper ends no sleep. -/
theorem of_sleepers (h : ∀ i chan, k.SleepsOn i chan → k'.SleepsOn i chan) : k.WakesOnly k' W :=
  fun i chan hs hn => absurd (h i chan hs) hn

end Kernel.WakesOnly

/-! ## Sleepers that a change keeps -/

section Sleepers

variable {k k' : Kernel} {i : Fin NPROC} {chan : Chan}

/-- A kernel with the same phases keeps every sleeper on its channel. -/
theorem Kernel.SleepsOn.of_phases_eq (h : k'.phases = k.phases) (hs : k.SleepsOn i chan) :
    k'.SleepsOn i chan := by
  have hb : k.phases i = .blocked chan := Proc.phase_eq_blocked.mpr hs
  rw [← h] at hb
  exact Proc.phase_eq_blocked.mp hb

/-- A write through a pointer that designates no sleeping slot keeps every sleeper. -/
theorem Kernel.SleepsOn.write {p : Ptr} {f : Proc → Proc}
    (hp : ∀ c, p = .slot c → (k.ptable c).state ≠ .SLEEPING) (hs : k.SleepsOn i chan) :
    (k.write p f).SleepsOn i chan := by
  have hi : p ≠ .slot i := fun h => hp i h hs.1
  rw [Kernel.SleepsOn, Kernel.write_ptable_of_ne hi]
  exact hs

/-- A turn of `sched_RR` dispatches a runnable slot, so keeps every sleeper. -/
theorem Kernel.SleepsOn.schedRR (hs : k.SleepsOn i chan) : (schedRR k).SleepsOn i chan := by
  cases hn : nextRunnable k with
  | none =>
    rw [schedRR_of_none hn]
    exact hs
  | some j =>
    have hij : i ≠ j := by
      rintro rfl
      have hsl : (k.ptable i).state = .SLEEPING := hs.1
      rw [(nextRunnable_eq_some_iff.mp hn).2.1] at hsl
      cases hsl
    rw [schedRR_of_some hn, Kernel.SleepsOn]
    simp only [Function.update_of_ne hij]
    exact hs

end Sleepers

/-! ## What each function wakes -/

section Functions

variable {stride_scheduler : Bool} {k k' : Kernel} {W : Fin NPROC → Chan → Prop}

/-- `wakeup1(chan)` ends the sleeps on `chan` only. -/
theorem wakesOnly_wakeup1 (k : Kernel) (chan : Chan) :
    k.WakesOnly (wakeup1 k chan) fun _ c => c = chan := by
  intro i c hs hn
  by_contra hc
  -- a sleeper on another channel fails the test of `wakeup1`
  have hw : ¬ ((k.ptable i).state = .SLEEPING ∧ (k.ptable i).chan = chan) :=
    fun h => hc (hs.2.symm.trans h.2)
  exact hn (by simpa only [Kernel.SleepsOn, wakeup1, if_neg hw] using hs)

/-- `kill(pid)` ends the sleep of a process of that pid only. -/
theorem wakesOnly_kill (k : Kernel) (pid : ℤ) :
    k.WakesOnly (kill k pid) fun i _ => (k.ptable i).pid = pid := by
  intro i c hs hn
  unfold kill at hn
  split at hn
  next j hj =>
    by_contra hp
    have hij : i ≠ j := by
      rintro rfl
      exact hp (firstSlot_spec hj)
    rw [Kernel.SleepsOn, Kernel.write_slot_ptable_of_ne hij] at hn
    exact hn hs
  next => exact absurd hs hn

/-- A turn of the loop of `exit` gives a child to `initproc` and wakes `initproc`'s channel at
most. -/
theorem wakesOnly_reparentTurn (curproc : Ptr) (k : Kernel) (a : Fin NPROC) :
    k.WakesOnly (reparentTurn curproc k a) fun _ c => c = .proc k.initproc := by
  unfold reparentTurn
  dsimp only
  split
  · -- the new parent link keeps every state and channel
    have hw : k.WakesOnly (k.write (.slot a) fun q => { q with parent := k.initproc })
        fun _ _ => False :=
      .of_sleepers fun _ _ hs => hs.of_phases_eq (phases_write fun _ => ⟨rfl, rfl⟩)
    split
    · exact (hw.trans (wakesOnly_wakeup1 _ _)).mono fun _ _ h => h.resolve_left id
    · exact hw.mono fun _ _ => False.elim
  · exact .refl _ _

/-- The loop of `exit` wakes `initproc`'s channel at most. -/
theorem wakesOnly_reparent (k : Kernel) (curproc : Ptr) :
    k.WakesOnly (reparent k curproc) fun _ c => c = .proc k.initproc := by
  rw [reparent_eq_foldl]
  generalize List.finRange NPROC = l
  -- each turn keeps `initproc`, so every turn wakes the channel of the first
  induction l generalizing k with
  | nil => exact .refl _ _
  | cons a l ih =>
    have hinit : (reparentTurn curproc k a).initproc = k.initproc :=
      (touched_reparentTurn curproc k a).initproc_eq
    rw [List.foldl_cons]
    refine ((wakesOnly_reparentTurn curproc k a).trans (ih _)).mono fun _ c h => ?_
    rcases h with h | h
    · exact h
    · rw [h, hinit]

/-- A process that writes its own record and leaves the CPU through `sched` ends no sleep: it
runs, and `sched` keeps every state. -/
theorem wakesOnly_release {f : Proc → Proc} (hon : k.OnCpu)
    (h : sched stride_scheduler (k.write k.cpu f) = .ok k') : k.WakesOnly k' W := by
  refine .of_sleepers fun _ _ hs => (hs.write fun c hc => ?_).of_phases_eq (phases_sched h)
  rw [hon c hc]
  decide

/-- `sleep` ends no other sleep: it writes the running process, which does not sleep. -/
theorem wakesOnly_sleep (hon : k.OnCpu) {chan : Chan} (h : sleep stride_scheduler k chan = .ok k') :
    k.WakesOnly k' W :=
  wakesOnly_release hon (sleep_eq_ok.mp h).2

/-- `exit` wakes the channels of its caller's parent and of `initproc`, and its `ZOMBIE` is
written in the running slot. -/
theorem wakesOnly_exit (hon : k.OnCpu) (h : exit stride_scheduler k = .ok k') :
    k.WakesOnly k' fun _ c => k.ExitWakes c := by
  obtain ⟨-, hs⟩ := exit_eq_ok.mp h
  generalize hk₁ : reparent (wakeup1 k (.proc (k.deref k.cpu).parent)) k.cpu = k₁ at hs
  have ht : k.Touched k₁ := hk₁ ▸ (touched_wakeup1 _ _).trans (touched_reparent _ _)
  have hw : k.WakesOnly k₁ fun _ c => k.ExitWakes c := by
    rw [← hk₁]
    exact (wakesOnly_wakeup1 _ _).trans (wakesOnly_reparent _ _)
  rw [← ht.cpu_eq] at hs
  have hrel : k₁.WakesOnly k' fun _ _ => False := wakesOnly_release (hon.touched ht) hs
  exact (hw.trans hrel).mono fun _ _ h => h.resolve_right id

/-- `fork` writes the free slot it took, so ends no sleep. -/
theorem wakesOnly_fork (stride_scheduler : Bool) (k : Kernel) (kallocOk copyOk : Bool) :
    k.WakesOnly (fork stride_scheduler k kallocOk copyOk) W := by
  rcases fork_cases stride_scheduler k kallocOk copyOk with h | ⟨n, hfree, hother, -, -⟩
  · rw [h]
    exact .refl _ _
  · refine .of_sleepers fun i chan hs => ?_
    have hin : i ≠ n := by
      rintro rfl
      rw [hs.1] at hfree
      cases hfree
    rw [Kernel.SleepsOn, hother i hin]
    exact hs

/-- `wait` frees a zombie, returns, or puts its caller to sleep: it ends no sleep. -/
theorem wakesOnly_wait (hon : k.OnCpu) (h : wait stride_scheduler k = .ok k') : k.WakesOnly k' W := by
  rcases wait_cases h with ⟨c, -, hz, rfl⟩ | rfl | ⟨-, h⟩
  · refine .of_sleepers fun _ _ hs => hs.write fun c' hc => ?_
    cases hc
    rw [hz]
    decide
  · exact .refl _ _
  · exact wakesOnly_sleep hon h

end Functions

/-! ## The caller of a system call -/

/-- `k'` keeps the process on the CPU of `k`: it still runs, with the same parent, and
`initproc` is the same. The exit that follows a call then wakes what it would have woken before
the call. -/
structure Kernel.KeepsCaller (k k' : Kernel) : Prop where
  onCpu : k'.OnCpu
  parent_eq : (k'.deref k'.cpu).parent = (k.deref k.cpu).parent
  initproc_eq : k'.initproc = k.initproc

namespace Kernel.KeepsCaller

variable {k k' : Kernel}

/-- A process running on the CPU keeps itself as the caller. -/
theorem refl (hon : k.OnCpu) : k.KeepsCaller k := ⟨hon, rfl, rfl⟩

/-- A kept caller makes its exit wake the same channels. -/
theorem exitWakes (h : k.KeepsCaller k') : k'.ExitWakes = k.ExitWakes := by
  funext chan
  rw [Kernel.ExitWakes, Kernel.ExitWakes, h.parent_eq, h.initproc_eq]

/-- A change that keeps `c->proc`, the heap and `initproc`, and the state and the parent of the
slot `c->proc` designates, keeps the caller. -/
theorem of_slot (hon : k.OnCpu) (hcpu : k'.cpu = k.cpu) (hheap : k'.heap = k.heap)
    (hinit : k'.initproc = k.initproc)
    (hslot : ∀ c, k.cpu = .slot c →
      (k'.ptable c).state = (k.ptable c).state ∧ (k'.ptable c).parent = (k.ptable c).parent) :
    k.KeepsCaller k' where
  onCpu c hc := by
    rw [hcpu] at hc
    rw [(hslot c hc).1, hon c hc]
  parent_eq := by
    rw [hcpu]
    cases hc : k.cpu with
    | null => rfl
    | slot c => exact (hslot c hc).2
    | heap n =>
      show (k'.heap.arr n).parent = (k.heap.arr n).parent
      rw [hheap]
  initproc_eq := hinit

/-- Touching the table keeps the caller if it keeps every parent. -/
theorem of_touched (hon : k.OnCpu) (ht : k.Touched k')
    (hp : ∀ i, (k'.ptable i).parent = (k.ptable i).parent) : k.KeepsCaller k' :=
  .of_slot hon ht.cpu_eq ht.heap_eq ht.initproc_eq fun c hc =>
    ⟨(ht.slot c).state_eq (by rw [hon c hc]; decide), hp c⟩

end Kernel.KeepsCaller

section Calls

variable {stride_scheduler : Bool} {k k' : Kernel}

/-- `fork` takes a free slot, never the caller's. -/
theorem keepsCaller_fork (hon : k.OnCpu) (kallocOk copyOk : Bool) :
    k.KeepsCaller (fork stride_scheduler k kallocOk copyOk) := by
  rcases fork_cases stride_scheduler k kallocOk copyOk with h | ⟨n, hfree, hother, hrest, -⟩
  · rw [h]
    exact .refl hon
  refine .of_slot hon (congrArg Kernel.cpu hrest :) (congrArg Kernel.heap hrest :)
    (congrArg Kernel.initproc hrest :) fun c hc => ?_
  -- the caller runs, so it is not the free slot that `fork` took
  have hcn : c ≠ n := by
    rintro rfl
    rw [hon c hc] at hfree
    cases hfree
  rw [hother c hcn]
  exact ⟨rfl, rfl⟩

/-- `wait` that returns to its caller frees a zombie, never the caller. -/
theorem keepsCaller_wait (hon : k.OnCpu) (h : wait stride_scheduler k = .ok k')
    (hc' : k'.cpu ≠ .null) : k.KeepsCaller k' := by
  rcases wait_cases h with ⟨n, -, hz, rfl⟩ | rfl | ⟨-, h⟩
  · refine .of_slot hon (Kernel.write_cpu ..) rfl (Kernel.write_initproc ..) fun c hc => ?_
    have hcn : c ≠ n := by
      rintro rfl
      rw [hon c hc] at hz
      cases hz
    rw [reap, Kernel.write_slot_ptable_of_ne hcn]
    exact ⟨rfl, rfl⟩
  · exact .refl hon
  · exact absurd (sched_cpu (sleep_eq_ok.mp h).2) hc'

/-- The trap path of a system call: what the call wakes, and the exit of a killed caller before
or after it. -/
theorem wakesOnly_syscall {call : Kernel → Except String Kernel} {W : Fin NPROC → Chan → Prop}
    (hon : k.OnCpu)
    (hcall : ∀ k₁, call k = .ok k₁ → k.WakesOnly k₁ W ∧ (k₁.cpu ≠ .null → k.KeepsCaller k₁))
    (h : syscall stride_scheduler k call = .ok k') :
    k.WakesOnly k' fun i c => W i c ∨ k.ExitWakes c := by
  rcases syscall_cases h with h | ⟨k₁, hk₁, ⟨hc₁, h⟩ | rfl⟩
  · exact (wakesOnly_exit hon h).mono fun _ _ => Or.inr
  · -- the caller, killed during the call, exits with the parent and `initproc` it had before
    obtain ⟨hw, hkeep⟩ := hcall k₁ hk₁
    have hkc := hkeep hc₁
    refine (hw.trans (wakesOnly_exit hkc.onCpu h)).mono fun _ c h => ?_
    rwa [hkc.exitWakes] at h
  · exact (hcall _ hk₁).1.mono fun _ _ => Or.inl

/-- A tick wakes the sleepers on `ticks`, and its exit what an exit wakes. -/
theorem wakesOnly_timer {user : Bool} (hon : k.OnCpu) (h : timer stride_scheduler k user = .ok k') :
    k.WakesOnly k' fun _ c => c = .ticks ∨ k.ExitWakes c := by
  have hw : k.WakesOnly (wakeup1 { k with ticks := k.ticks + 1 } .ticks) fun _ c => c = .ticks :=
    wakesOnly_wakeup1 _ _
  have hkc : k.KeepsCaller (wakeup1 { k with ticks := k.ticks + 1 } .ticks) :=
    .of_slot hon rfl rfl rfl fun c hc =>
      ⟨((touched_wakeup1 _ _).slot c).state_eq (by simp [hon c hc]), wakeup1_parent _ _ c⟩
  rcases timer_cases h with ⟨-, h⟩ | ⟨-, h⟩ | rfl
  · refine (hw.trans (wakesOnly_exit hkc.onCpu h)).mono fun _ c h => ?_
    rwa [hkc.exitWakes] at h
  · exact (hw.trans (wakesOnly_release hkc.onCpu h)).mono fun _ _ h => .inl (h.resolve_right id)
  · exact hw.mono fun _ _ => Or.inl

/-- What an event wakes, when the record `c->proc` designates runs. -/
theorem wakesOnly_step (hon : k.OnCpu) {e : Event} (h : step stride_scheduler k e = some k') :
    k.WakesOnly k' fun i chan => e.MayWake k i chan := by
  cases e with
  | schedule =>
    obtain ⟨-, h⟩ := Option.ite_none_right_eq_some.mp h
    cases h
    cases stride_scheduler
    · exact .of_sleepers fun _ _ hs => hs.schedRR
    · refine .of_sleepers fun i chan hs => ?_
      rw [if_pos rfl, Kernel.SleepsOn, schedStride_ptable]
      exact hs
  | timer user =>
    obtain ⟨-, h⟩ := Option.ite_none_right_eq_some.mp h
    exact wakesOnly_timer hon (toOption_eq_some.mp h)
  | wakeup chan =>
    obtain ⟨-, h⟩ := Option.ite_none_right_eq_some.mp h
    cases h
    exact wakesOnly_wakeup1 k chan
  | fork kallocOk copyOk =>
    obtain ⟨-, h⟩ := Option.ite_none_right_eq_some.mp h
    refine (wakesOnly_syscall (W := fun _ _ => False) hon (fun k₁ hk₁ => ?_)
      (toOption_eq_some.mp h)).mono fun _ _ h => h.resolve_left id
    cases hk₁
    exact ⟨wakesOnly_fork stride_scheduler k kallocOk copyOk,
      fun _ => keepsCaller_fork hon kallocOk copyOk⟩
  | exit =>
    obtain ⟨-, h⟩ := Option.ite_none_right_eq_some.mp h
    refine (wakesOnly_syscall hon (fun k₁ hk₁ => ⟨wakesOnly_exit hon hk₁, fun hc => ?_⟩)
      (toOption_eq_some.mp h)).mono fun _ _ h => h.elim id id
    exact absurd (exit_cpu hk₁) hc
  | wait =>
    obtain ⟨-, h⟩ := Option.ite_none_right_eq_some.mp h
    refine (wakesOnly_syscall (W := fun _ _ => False) hon
      (fun k₁ hk₁ => ⟨wakesOnly_wait hon hk₁, keepsCaller_wait hon hk₁⟩)
      (toOption_eq_some.mp h)).mono fun _ _ h => h.resolve_left id
  | sleep chan =>
    obtain ⟨-, h⟩ := Option.ite_none_right_eq_some.mp h
    refine (wakesOnly_syscall (W := fun _ _ => False) hon (fun k₁ hk₁ => ⟨wakesOnly_sleep hon hk₁,
      fun hc => absurd (sched_cpu (sleep_eq_ok.mp hk₁).2) hc⟩)
      (toOption_eq_some.mp h)).mono fun _ _ h => h.resolve_left id
  | kill pid =>
    obtain ⟨-, h⟩ := Option.ite_none_right_eq_some.mp h
    refine wakesOnly_syscall hon (fun k₁ hk₁ => ?_) (toOption_eq_some.mp h)
    cases hk₁
    exact ⟨wakesOnly_kill k pid, fun _ => .of_touched hon (touched_kill k pid) (kill_parent k pid)⟩

end Calls

/-! ## Along runs -/

variable {stride_scheduler : Bool} {k k' : Kernel}

/-- Under either scheduler, the record `c->proc` designates runs in every reachable state:
under `sched_RR` by its invariant, under `sched_stride` because it designates no slot. -/
theorem reachable_onCpu (hk : Reachable stride_scheduler k) : k.OnCpu := by
  cases stride_scheduler
  · exact (reachable_rrInv hk).on_cpu
  · exact fun c hc => absurd hc ((reachable_strideInv hk).cpu_ne_slot c)

/-- The state of `rrWaited` before the child's exit: `initproc` sleeps in `wait`. -/
def rrWaiting : Kernel := (run false rrInit [.schedule, .fork true true, .wait, .schedule]).getD rrInit

set_option maxRecDepth 4000 in
/-- The run that `rrWaiting` names happens. -/
theorem rrWaiting_run :
    run false rrInit [.schedule, .fork true true, .wait, .schedule] = some rrWaiting :=
  run_eq_getD (by decide)

/-- Every sleep on a channel that starts from `k` to `k'` is one that `S` allows. -/
def Kernel.SleepsOnly (k k' : Kernel) (S : Fin NPROC → Chan → Prop) : Prop :=
  ∀ i chan, ¬ k.SleepsOn i chan → k'.SleepsOn i chan → S i chan

/-- The sleeps of slot `i` on `chan` that an event from `k` may start: that of the process on the
CPU, on the channel of its `sleep`, or on its own channel in `wait`. -/
def Event.MaySleep (k : Kernel) (i : Fin NPROC) (chan : Chan) : Event → Prop
  | .sleep c => k.cpu = .slot i ∧ chan = c
  | .wait => k.cpu = .slot i ∧ chan = .proc k.cpu
  | _ => False

namespace Kernel.SleepsOnly

variable {k k₁ k' : Kernel} {S S' : Fin NPROC → Chan → Prop}

/-- No change starts no sleep. -/
theorem refl (k : Kernel) (S : Fin NPROC → Chan → Prop) : k.SleepsOnly k S :=
  fun _ _ hn hs => absurd hs hn

/-- A weaker allowance allows every sleep that a stronger one does. -/
theorem mono (h : k.SleepsOnly k' S) (hS : ∀ i chan, S i chan → S' i chan) : k.SleepsOnly k' S' :=
  fun i chan hn hs => hS i chan (h i chan hn hs)

/-- A sleep that starts over two changes starts in the second, or in the first and lasts. -/
theorem trans (h₁ : k.SleepsOnly k₁ S) (h₂ : k₁.SleepsOnly k' S') :
    k.SleepsOnly k' fun i chan => S i chan ∨ S' i chan := by
  intro i chan hn hs
  by_cases hs₁ : k₁.SleepsOn i chan
  · exact .inl (h₁ i chan hn hs₁)
  · exact .inr (h₂ i chan hs₁ hs)

/-- A change after which every sleeper slept before starts no sleep. -/
theorem of_sleepers (h : ∀ i chan, k'.SleepsOn i chan → k.SleepsOn i chan) : k.SleepsOnly k' S :=
  fun i chan hn hs => absurd (h i chan hs) hn

/-- Touching the slots starts no sleep: it wakes sleepers at most. -/
theorem of_touched (ht : k.Touched k') : k.SleepsOnly k' S :=
  .of_sleepers fun _ _ hs => ht.sleepsOn hs

end Kernel.SleepsOnly

section Starts

variable {stride_scheduler : Bool} {k k' : Kernel} {S : Fin NPROC → Chan → Prop}

/-- A write of a state other than `SLEEPING` starts no sleep. -/
theorem sleepsOnly_write {p : Ptr} {f : Proc → Proc}
    (hf : ∀ c, p = .slot c → (f (k.ptable c)).state ≠ .SLEEPING) : k.SleepsOnly (k.write p f) S := by
  refine .of_sleepers fun i chan hs => ?_
  by_cases hp : p = .slot i
  · subst hp
    rw [Kernel.SleepsOn, Kernel.write_slot_ptable, Function.update_self] at hs
    exact absurd hs.1 (hf i rfl)
  · rw [Kernel.SleepsOn, Kernel.write_ptable_of_ne hp] at hs
    exact hs

/-- `sched` starts no sleep: it saves a context and keeps every phase. -/
theorem sleepsOnly_sched (h : sched stride_scheduler k = .ok k') : k.SleepsOnly k' S :=
  .of_sleepers fun _ _ hs => hs.of_phases_eq (phases_sched h).symm

/-- `sleep(chan)` puts the process on the CPU to sleep on `chan`. -/
theorem sleepsOnly_sleep {chan : Chan} (h : sleep stride_scheduler k chan = .ok k') :
    k.SleepsOnly k' fun i c => k.cpu = .slot i ∧ c = chan := by
  -- the write starts a sleep only in the slot it writes, and `sched` starts none
  have hw : k.SleepsOnly (k.write k.cpu fun q => { q with chan := chan, state := .SLEEPING })
      fun i c => k.cpu = .slot i ∧ c = chan := by
    intro i c hn hs
    by_cases hp : k.cpu = .slot i
    · rw [Kernel.SleepsOn, hp, Kernel.write_slot_ptable, Function.update_self] at hs
      exact ⟨hp, hs.2.symm⟩
    · rw [Kernel.SleepsOn, Kernel.write_ptable_of_ne hp] at hs
      exact absurd hs hn
  exact (hw.trans (sleepsOnly_sched (sleep_eq_ok.mp h).2)).mono fun _ _ h => h.resolve_right id

/-- `exit` starts no sleep: it touches the slots and marks its caller `ZOMBIE`. -/
theorem sleepsOnly_exit (h : exit stride_scheduler k = .ok k') : k.SleepsOnly k' S := by
  obtain ⟨-, k₁, ht, hs⟩ := exit_cases h
  exact ((Kernel.SleepsOnly.of_touched ht).trans
    ((sleepsOnly_write fun _ _ => by simp).trans (sleepsOnly_sched hs))).mono
    fun _ _ h => h.elim id (·.elim id id)

/-- `wait` frees a zombie, returns, or puts its caller to sleep on its own channel. -/
theorem sleepsOnly_wait (h : wait stride_scheduler k = .ok k') :
    k.SleepsOnly k' fun i c => k.cpu = .slot i ∧ c = .proc k.cpu := by
  rcases wait_cases h with ⟨c, -, -, rfl⟩ | rfl | ⟨-, h⟩
  · exact sleepsOnly_write fun _ _ => by simp
  · exact .refl _ _
  · exact sleepsOnly_sleep h

/-- `fork` writes the free slot it took, `UNUSED` again or `RUNNABLE`. -/
theorem sleepsOnly_fork (stride_scheduler : Bool) (k : Kernel) (kallocOk copyOk : Bool) :
    k.SleepsOnly (fork stride_scheduler k kallocOk copyOk) S := by
  rcases fork_cases stride_scheduler k kallocOk copyOk with hf | ⟨n, -, hother, -, hnew⟩
  · rw [hf]
    exact .refl _ _
  refine .of_sleepers fun i chan hs => ?_
  by_cases hin : i = n
  · subst hin
    rcases hnew with ⟨hu, -⟩ | ⟨hr, -⟩
    · rw [Kernel.SleepsOn, hu] at hs
      cases hs.1
    · rw [Kernel.SleepsOn, hr] at hs
      cases hs.1
  · rw [Kernel.SleepsOn, hother i hin] at hs
    exact hs

/-- A turn of either scheduler starts no sleep. -/
theorem sleepsOnly_schedule (k : Kernel) :
    k.SleepsOnly (if stride_scheduler then schedStride k else schedRR k) S := by
  cases stride_scheduler
  · cases hn : nextRunnable k with
    | none =>
      rw [if_neg Bool.false_ne_true, schedRR_of_none hn]
      exact .refl _ _
    | some j =>
      rw [if_neg Bool.false_ne_true, schedRR_of_some hn]
      refine .of_sleepers fun i chan hs => ?_
      have hij : i ≠ j := by
        rintro rfl
        simp [Kernel.SleepsOn] at hs
      simpa only [Kernel.SleepsOn, Function.update_of_ne hij] using hs
  · refine .of_sleepers fun i chan hs => ?_
    rw [if_pos rfl, Kernel.SleepsOn, schedStride_ptable] at hs
    exact hs

/-- A timer tick starts no sleep: it wakes, then exits or yields its process. -/
theorem sleepsOnly_timer {user : Bool} (h : timer stride_scheduler k user = .ok k') :
    k.SleepsOnly k' S := by
  have hw : k.SleepsOnly (wakeup1 { k with ticks := k.ticks + 1 } .ticks) S :=
    .of_sleepers fun _ _ hs => (touched_wakeup1 _ _).sleepsOn hs
  rcases timer_cases h with ⟨-, h⟩ | ⟨-, h⟩ | rfl
  · exact (hw.trans (sleepsOnly_exit h)).mono fun _ _ h => h.elim id id
  · exact (hw.trans ((sleepsOnly_write fun _ _ => by simp).trans (sleepsOnly_sched h))).mono
      fun _ _ h => h.elim id (·.elim id id)
  · exact hw

/-- The trap path of a system call starts the sleeps of the call only: its exits start none. -/
theorem sleepsOnly_syscall {call : Kernel → Except String Kernel}
    (hcall : ∀ k₁, call k = .ok k₁ → k.SleepsOnly k₁ S)
    (h : syscall stride_scheduler k call = .ok k') : k.SleepsOnly k' S := by
  rcases syscall_cases h with h | ⟨k₁, hk₁, ⟨-, h⟩ | rfl⟩
  · exact sleepsOnly_exit h
  · exact ((hcall k₁ hk₁).trans (sleepsOnly_exit h)).mono fun _ _ h => h.elim id id
  · exact hcall _ hk₁

/-- What an event puts to sleep. -/
theorem sleepsOnly_step {e : Event} (h : step stride_scheduler k e = some k') :
    k.SleepsOnly k' fun i chan => e.MaySleep k i chan := by
  cases e with
  | schedule =>
    obtain ⟨-, h⟩ := Option.ite_none_right_eq_some.mp h
    cases h
    exact sleepsOnly_schedule k
  | timer user =>
    obtain ⟨-, h⟩ := Option.ite_none_right_eq_some.mp h
    exact sleepsOnly_timer (toOption_eq_some.mp h)
  | wakeup chan =>
    obtain ⟨-, h⟩ := Option.ite_none_right_eq_some.mp h
    cases h
    exact .of_touched (touched_wakeup1 k chan)
  | fork kallocOk copyOk =>
    obtain ⟨-, h⟩ := Option.ite_none_right_eq_some.mp h
    refine sleepsOnly_syscall (fun k₁ hk₁ => ?_) (toOption_eq_some.mp h)
    cases hk₁
    exact sleepsOnly_fork stride_scheduler k kallocOk copyOk
  | exit =>
    obtain ⟨-, h⟩ := Option.ite_none_right_eq_some.mp h
    exact sleepsOnly_syscall (fun _ hk₁ => sleepsOnly_exit hk₁) (toOption_eq_some.mp h)
  | wait =>
    obtain ⟨-, h⟩ := Option.ite_none_right_eq_some.mp h
    exact sleepsOnly_syscall (fun _ hk₁ => sleepsOnly_wait hk₁) (toOption_eq_some.mp h)
  | sleep chan =>
    obtain ⟨-, h⟩ := Option.ite_none_right_eq_some.mp h
    exact sleepsOnly_syscall (fun _ hk₁ => sleepsOnly_sleep hk₁) (toOption_eq_some.mp h)
  | kill pid =>
    obtain ⟨-, h⟩ := Option.ite_none_right_eq_some.mp h
    refine sleepsOnly_syscall (fun k₁ hk₁ => ?_) (toOption_eq_some.mp h)
    cases hk₁
    exact .of_touched (touched_kill k pid)

end Starts

end Xv6Stride
