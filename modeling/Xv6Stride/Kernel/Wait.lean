import Xv6Stride.Kernel.Tree

/-!
# No lost wakeup between `exit` and `wait`

`wait` sleeps on the caller (`sleep(curproc, &ptable.lock)`) only when it has children and none
of them is a zombie. `exit` wakes the parent (`wakeup1(curproc->parent)`) before it becomes a
zombie, and its loop wakes `initproc` when it passes it a zombie child. So under `sched_RR` no
process sleeps on its own channel while one of its children is a zombie: a `wait` never sleeps
through the exit it waits for (`rr_wait_not_lost`). The kernel's other sleeps (on `ticks`, a
buffer, a pipe, the log, the console) are on channels that are not processes, and the result
holds along every run whose sleeps other than `wait`'s are on such channels.

`WaitInv` is the invariant. It needs two facts about links as well: no process is its own parent,
since `fork` links the child to the running caller, and `initproc` has no parent. Then the loop
of `exit` never makes a process its own parent, and the exiting process's parent is the one its
`wakeup1` woke. A record change that keeps or clears a link, makes no zombie and puts no process
to sleep keeps the invariant (`Proc.Lessens`, `WaitInv.congr`). Three functions do more: `sleep`,
which `wait` calls only with no zombie child (`WaitInv.sleepOn`), `fork`, and `exit`, whose
loop wakes `initproc` after a zombie child (`reparent_wakes_init`, `WaitInv.zombie_of_reparented`).
-/

namespace Xv6Stride

/-- Slot `i` sleeps on `chan`. -/
def Kernel.SleepsOn (k : Kernel) (i : Fin NPROC) (chan : Chan) : Prop :=
  (k.ptable i).state = .SLEEPING ∧ (k.ptable i).chan = chan

/-- No lost wakeup in `wait`: no process sleeps on its own channel, as `wait` does, while a child
of it is a zombie. No process is its own parent, and `initproc` has none. -/
structure WaitInv (k : Kernel) : Prop where
  init_parent : (k.ptable 0).parent = .null
  parent_ne : ∀ i, (k.ptable i).parent ≠ .slot i
  awake : ∀ c i, (k.ptable c).state = .ZOMBIE → (k.ptable c).parent = .slot i →
    ¬ k.SleepsOn i (.proc (.slot i))

/-! ## Sleepers -/

section Sleepers

variable {k k' : Kernel} {i : Fin NPROC} {chan : Chan}

/-- A touched record sleeps only if it slept. -/
theorem Proc.Touched.sleeping {p q : Proc} (h : p.Touched q) (hq : q.state = .SLEEPING) :
    p.state = .SLEEPING := by
  rcases h.state with hs | ⟨-, hr⟩
  · rwa [← hs]
  · rw [hr] at hq
    cases hq

/-- Touching puts no process to sleep: a sleeper after it slept before, on the same channel. -/
theorem Kernel.Touched.sleepsOn (h : k.Touched k') (hs : k'.SleepsOn i chan) : k.SleepsOn i chan :=
  ⟨(h.slot i).sleeping hs.1, (h.slot i).chan_eq ▸ hs.2⟩

/-- `wakeup1(chan)` leaves no process sleeping on `chan`. -/
theorem not_sleepsOn_wakeup1 (k : Kernel) (chan : Chan) (i : Fin NPROC) :
    ¬ (wakeup1 k chan).SleepsOn i chan := by
  unfold Kernel.SleepsOn wakeup1
  by_cases h : (k.ptable i).state = .SLEEPING ∧ (k.ptable i).chan = chan
  · simp [h]
  · simp [h]

/-- After the loop of `exit` has passed a zombie child of `curproc` to `initproc`, no process
sleeps on `initproc`'s channel: the turn at the zombie woke them, and later turns only wake. -/
theorem reparent_wakes_init {curproc : Ptr} {c : Fin NPROC} (hp : (k.ptable c).parent = curproc)
    (hz : (k.ptable c).state = .ZOMBIE) (i : Fin NPROC) :
    ¬ (reparent k curproc).SleepsOn i (.proc k.initproc) := by
  rw [reparent_eq_foldl]
  have hc : c ∈ List.finRange NPROC := List.mem_finRange c
  generalize List.finRange NPROC = l at hc
  -- the induction is on the slots the loop has left; the zombie is one of them
  induction l generalizing k with
  | nil => cases hc
  | cons a l ih =>
    rw [List.foldl_cons]
    have ht := touched_reparentTurn curproc k a
    by_cases hac : a = c
    · subst hac
      have hturn : reparentTurn curproc k a =
          Xv6Stride.wakeup1 (k.write (.slot a) fun q => { q with parent := k.initproc })
            (.proc k.initproc) := by
        simp [reparentTurn, hp, hz]
      intro hs
      have hs' := (Kernel.Touched.foldl (touched_reparentTurn curproc) l _).sleepsOn hs
      rw [hturn] at hs'
      exact not_sleepsOn_wakeup1 _ _ _ hs'
    · -- the turn at another slot keeps the zombie a child of `curproc`
      have hp' : ((reparentTurn curproc k a).ptable c).parent = curproc := by
        unfold reparentTurn
        dsimp only
        split
        · split <;> simp [Kernel.write_slot_ptable_of_ne (Ne.symm hac), hp]
        · exact hp
      have hz' := ((ht.slot c).state_eq_iff (by decide) (by decide)).mpr hz
      have := ih hp' hz' ((List.mem_cons.mp hc).resolve_left (Ne.symm hac))
      rwa [ht.initproc_eq] at this

end Sleepers

/-! ## Records that add no zombie and no sleeper -/

/-- `q` keeps the link of `p` or clears it, is a zombie only if `p` is, and sleeps on a channel
only if `p` slept on it. -/
structure Proc.Lessens (p q : Proc) : Prop where
  parent : q.parent = p.parent ∨ q.parent = .null
  zombie : q.state = .ZOMBIE → p.state = .ZOMBIE
  sleeps : q.state = .SLEEPING → p.state = .SLEEPING ∧ q.chan = p.chan

namespace Proc.Lessens

/-- A record lessens itself. -/
theorem refl (p : Proc) : p.Lessens p := ⟨.inl rfl, id, fun h => ⟨h, rfl⟩⟩

/-- A record that now runs or waits to run, under the same link. -/
theorem of_ready {p q : Proc} (hp : q.parent = p.parent)
    (hq : q.state = .RUNNABLE ∨ q.state = .RUNNING) : p.Lessens q where
  parent := .inl hp
  zombie h := by rcases hq with hq | hq <;> rw [hq] at h <;> cases h
  sleeps h := by rcases hq with hq | hq <;> rw [hq] at h <;> cases h

end Proc.Lessens

/-- Touching a record with its link kept lessens it: it wakes at most. -/
theorem Proc.Touched.lessens {p q : Proc} (h : p.Touched q) (hp : q.parent = p.parent) :
    p.Lessens q where
  parent := .inl hp
  zombie hz := (h.state_eq_iff (by decide) (by decide)).mp hz
  sleeps hs := ⟨h.sleeping hs, h.chan_eq⟩

namespace WaitInv

variable {k k' : Kernel}

/-- A change that lessens every record keeps the invariant. -/
theorem congr (h : WaitInv k) (hslot : ∀ i, (k.ptable i).Lessens (k'.ptable i)) : WaitInv k' where
  init_parent := (hslot 0).parent.elim (fun e => e.trans h.init_parent) id
  parent_ne i := by
    rcases (hslot i).parent with e | e <;> rw [e]
    · exact h.parent_ne i
    · exact Ptr.noConfusion
  awake c i hz hp hs := by
    obtain ⟨hsl, hch⟩ := (hslot i).sleeps hs.1
    rcases (hslot c).parent with e | e
    · exact h.awake c i ((hslot c).zombie hz) (e ▸ hp) ⟨hsl, hch ▸ hs.2⟩
    · rw [e] at hp
      cases hp

/-- Touching the slots with the links kept keeps the invariant. -/
theorem touched (h : WaitInv k) (ht : k.Touched k')
    (hp : ∀ i, (k'.ptable i).parent = (k.ptable i).parent) : WaitInv k' :=
  h.congr fun i => (ht.slot i).lessens (hp i)

/-- A write through any pointer that lessens every record keeps the invariant. -/
theorem write (h : WaitInv k) {p : Ptr} {f : Proc → Proc} (hf : ∀ q : Proc, q.Lessens (f q)) :
    WaitInv (k.write p f) := by
  refine h.congr fun i => ?_
  by_cases hpi : p = .slot i
  · subst hpi
    simp only [Kernel.write_slot_ptable, Function.update_self]
    exact hf _
  · rw [Kernel.write_ptable_of_ne hpi]
    exact .refl _

/-! ## What each function does -/

/-- `wakeup1` keeps the invariant: it wakes sleepers and writes no link. -/
theorem wakeup1 (h : WaitInv k) (chan : Chan) : WaitInv (wakeup1 k chan) :=
  h.touched (touched_wakeup1 k chan) (wakeup1_parent k chan)

/-- `kill` keeps the invariant: it wakes its target at most and writes no link. -/
theorem kill (h : WaitInv k) (pid : ℤ) : WaitInv (kill k pid) :=
  h.touched (touched_kill k pid) (kill_parent k pid)

/-- `sched` saves a context through `c->proc` and returns to the scheduler. -/
theorem sched (h : WaitInv k) (hs : Xv6Stride.sched false k = .ok k') : WaitInv k' := by
  obtain ⟨-, rfl⟩ := sched_eq_ok.mp hs
  have hw : WaitInv (k.write k.cpu fun q => { q with context := k.nextctx }) :=
    h.write fun _ => ⟨.inl rfl, id, fun hs => ⟨hs, rfl⟩⟩
  -- `rrReturn` changes `c->proc` and the loop's position only
  exact hw.congr fun _ => .refl _

/-- `yield` keeps the invariant: the running process becomes `RUNNABLE`. -/
theorem yield (h : WaitInv k) (hy : Xv6Stride.yield false k = .ok k') : WaitInv k' := by
  have hw : WaitInv (k.write k.cpu fun q => { q with state := .RUNNABLE }) :=
    h.write fun _ => .of_ready rfl (.inl rfl)
  exact hw.sched hy

/-- Slot `j` put to sleep on `chan` keeps the invariant when `chan` is not its own channel or no
child of it is a zombie. -/
theorem sleepOn (h : WaitInv k) {j : Fin NPROC} {chan : Chan}
    (hok : chan = .proc (.slot j) → ∀ c, (k.ptable c).parent = .slot j → (k.ptable c).state ≠ .ZOMBIE) :
    WaitInv (k.write (.slot j) fun q => { q with chan := chan, state := .SLEEPING }) := by
  have hpar : ∀ i, ((k.write (.slot j) fun q => { q with chan := chan, state := .SLEEPING }).ptable
      i).parent = (k.ptable i).parent :=
    Kernel.write_ptable_parent (f := fun q => { q with chan := chan, state := .SLEEPING }) fun _ => rfl
  refine ⟨(hpar 0).trans h.init_parent, fun i => hpar i ▸ h.parent_ne i, fun c i hz hp hs => ?_⟩
  -- the zombie is not the new sleeper
  have hcj : c ≠ j := by
    rintro rfl
    simp at hz
  rw [Kernel.write_slot_ptable_of_ne hcj] at hz hp
  by_cases hij : i = j
  · subst hij
    exact hok (by simpa [Kernel.SleepsOn] using hs.2) c hp hz
  · rw [Kernel.SleepsOn, Kernel.write_slot_ptable_of_ne hij] at hs
    exact h.awake c i hz hp hs

/-- Under `sched_RR`, `sleep` of the process on the CPU on `chan`, when `chan` is not its own
channel or no child of it is a zombie. -/
theorem sleep (h : WaitInv k) (hr : RRInv k) {chan : Chan}
    (hok : ∀ j, k.cpu = .slot j → chan = .proc (.slot j) →
      ∀ c, (k.ptable c).parent = .slot j → (k.ptable c).state ≠ .ZOMBIE)
    (hs : Xv6Stride.sleep false k chan = .ok k') : WaitInv k' := by
  obtain ⟨hc, hs⟩ := sleep_eq_ok.mp hs
  obtain ⟨j, hj⟩ := hr.cpu.resolve_left hc
  rw [hj] at hs
  exact (h.sleepOn (hok j hj)).sched hs

/-- `wait`'s reaping clears a zombie's link and frees it. -/
theorem reap (h : WaitInv k) (i : Fin NPROC) : WaitInv (reap k i) :=
  h.write fun _ => ⟨.inr rfl, (fun hz => by cases hz), (fun hs => by cases hs)⟩

/-- `wait` sleeps on the caller only when no child is a zombie. -/
theorem wait (h : WaitInv k) (hr : RRInv k) (hw : Xv6Stride.wait false k = .ok k') :
    WaitInv k' := by
  rcases wait_cases hw with ⟨i, -, -, rfl⟩ | rfl | ⟨hnone, hs⟩
  · exact h.reap i
  · exact h
  · exact h.sleep hr (fun j hj _ c hp => hnone c (hj ▸ hp)) hs

/-- `fork` fills a free slot with a runnable child of the caller, or leaves it free. -/
theorem fork (h : WaitInv k) (hr : RRInv k) (ht : TreeInv k) (hc : k.cpu ≠ .null)
    (kallocOk copyOk : Bool) : WaitInv (fork false k kallocOk copyOk) := by
  rcases fork_cases false k kallocOk copyOk with hk | ⟨n, hfree, hother, -, hnew⟩
  · rw [hk]
    exact h
  set k' := Xv6Stride.fork false k kallocOk copyOk
  obtain ⟨c, hcpu⟩ := hr.cpu.resolve_left hc
  -- the free slot is neither `initproc` nor the caller
  have hn0 : (0 : Fin NPROC) ≠ n := fun e => ht.init_alive.ne_unused (e ▸ hfree)
  have hcn : c ≠ n := by
    rintro rfl
    have hrun := hr.on_cpu c hcpu
    rw [hfree] at hrun
    cases hrun
  -- the slot it fills is no zombie and sleeps on nothing
  have hnz : (k'.ptable n).state ≠ .ZOMBIE ∧ (k'.ptable n).state ≠ .SLEEPING := by
    rcases hnew with ⟨hu, -⟩ | ⟨hr', -⟩
    · rw [hu]
      decide
    · rw [hr']
      decide
  refine ⟨by rw [hother 0 hn0]; exact h.init_parent, fun i => ?_, fun c' i hz hp hs => ?_⟩
  · by_cases hin : i = n
    · subst hin
      rcases hnew with ⟨-, hp⟩ | ⟨-, -, -, hp⟩
      · rw [hp]
        exact h.parent_ne i
      · rw [hp, hcpu]
        exact fun e => hcn (Ptr.slot.inj e)
    · rw [hother i hin]
      exact h.parent_ne i
  · have hc'n : c' ≠ n := fun e => hnz.1 (e ▸ hz)
    have hin : i ≠ n := fun e => hnz.2 (e ▸ hs.1)
    rw [hother c' hc'n] at hz hp
    rw [Kernel.SleepsOn, hother i hin] at hs
    exact h.awake c' i hz hp hs

/-- After the wakeup of `exit` by slot `j` and its loop, the `ZOMBIE` written in slot `j`. The
invariant holds if the loop passed the children of `j` to slot `0`, if the parent of `j` does not
sleep on its channel, and if slot `0` does not either when a child of `j` was a zombie. -/
theorem zombie_of_reparented (h : WaitInv k) {j : Fin NPROC} {k₂ : Kernel} (ht : k.Touched k₂)
    (hpar : ∀ i, (k₂.ptable i).parent =
      if (k.ptable i).parent = .slot j then .slot 0 else (k.ptable i).parent)
    (hparent : ∀ i, (k.ptable j).parent = .slot i → ¬ k₂.SleepsOn i (.proc (.slot i)))
    (hinit : ∀ c, (k.ptable c).parent = .slot j → (k.ptable c).state = .ZOMBIE →
      ¬ k₂.SleepsOn 0 (.proc (.slot 0))) :
    WaitInv (k₂.write (.slot j) fun q => { q with state := .ZOMBIE }) := by
  have hpar' : ∀ i, ((k₂.write (.slot j) fun q => { q with state := .ZOMBIE }).ptable i).parent =
      if (k.ptable i).parent = .slot j then .slot 0 else (k.ptable i).parent := fun i =>
    (Kernel.write_ptable_parent (f := fun q => { q with state := .ZOMBIE }) (fun _ => rfl) i).trans
      (hpar i)
  have h0 : (k.ptable 0).parent ≠ .slot j := by
    rw [h.init_parent]
    exact Ptr.noConfusion
  refine ⟨?_, fun i => ?_, fun c i hz hp hs => ?_⟩
  · rw [hpar', if_neg h0]
    exact h.init_parent
  · rw [hpar']
    split
    · -- a child of `j` is not slot `0`, whose parent is null
      rintro ⟨⟩
      exact h0 ‹_›
    · exact h.parent_ne i
  · -- the sleeper is not the new zombie
    have hij : i ≠ j := by
      rintro rfl
      simp [Kernel.SleepsOn] at hs
    rw [Kernel.SleepsOn, Kernel.write_slot_ptable_of_ne hij] at hs
    rw [hpar'] at hp
    by_cases hcj : c = j
    · -- the new zombie, whose parent is not `j` itself
      subst hcj
      rw [if_neg (h.parent_ne c)] at hp
      exact hparent i hp hs
    · rw [Kernel.write_slot_ptable_of_ne hcj] at hz
      have hz₀ : (k.ptable c).state = .ZOMBIE :=
        ((ht.slot c).state_eq_iff (by decide) (by decide)).mp hz
      split at hp
      · -- a zombie child of `j`, passed to slot `0`
        next hpc =>
        cases hp
        exact hinit c hpc hz₀ hs
      · exact h.awake c i hz₀ hp (ht.sleepsOn hs)

/-- `exit`: `wakeup1(curproc->parent)` woke the parent of the new zombie, the loop woke
`initproc` for a zombie child it passed on, and every other zombie keeps its parent. -/
theorem exit (h : WaitInv k) (hr : RRInv k) (ht : TreeInv k) (hc : k.cpu ≠ .null)
    (he : Xv6Stride.exit false k = .ok k') : WaitInv k' := by
  obtain ⟨hinit, hs⟩ := exit_eq_ok.mp he
  obtain ⟨j, hj⟩ := hr.cpu.resolve_left hc
  rw [hj] at hs hinit
  generalize hk₁ : Xv6Stride.wakeup1 k (.proc (k.deref (.slot j)).parent) = k₁ at hs
  have ht₁ : k.Touched k₁ := hk₁ ▸ touched_wakeup1 k _
  have ht₂ := touched_reparent k₁ (.slot j)
  have hinit₁ : Ptr.slot j ≠ k₁.initproc := ht₁.initproc_eq ▸ hinit
  refine (h.zombie_of_reparented (ht₁.trans ht₂) (fun i => ?_) (fun i hp hsl => ?_)
    (fun c hpc hz hsl => ?_)).sched hs
  · -- the loop passes the children of `j` to `initproc`, slot `0`
    rw [reparent_parent hinit₁, ← hk₁, wakeup1_parent, ← ht.initproc]
    rfl
  · -- the wakeup woke the parent, and the loop only wakes
    have hs₁ := ht₂.sleepsOn hsl
    rw [← hk₁] at hs₁
    simp only [Kernel.deref, hp] at hs₁
    exact not_sleepsOn_wakeup1 _ _ _ hs₁
  · -- the loop woke `initproc` at the zombie child
    have hpc₁ : (k₁.ptable c).parent = .slot j := by
      rw [← hk₁, wakeup1_parent]
      exact hpc
    have hz₁ := ((ht₁.slot c).state_eq_iff (by decide) (by decide)).mpr hz
    have hwake := reparent_wakes_init hpc₁ hz₁ 0
    rw [ht₁.initproc_eq, ht.initproc] at hwake
    exact hwake hsl

/-- `sched_RR`'s turn marks a runnable slot `RUNNING`. -/
theorem schedRR (h : WaitInv k) : WaitInv (schedRR k) := by
  cases hi : nextRunnable k with
  | none =>
    rw [schedRR_of_none hi]
    exact h.congr fun _ => .refl _
  | some i =>
    rw [schedRR_of_some hi]
    refine h.congr fun j => ?_
    by_cases hji : j = i
    · subst hji
      simp only [Function.update_self]
      exact .of_ready rfl (.inr rfl)
    · simp only [Function.update_of_ne hji]
      exact .refl _

/-- Every event but a sleep on a process's channel keeps the invariant in a reachable state. -/
theorem step (hk : Reachable false k) (h : WaitInv k) {e : Event}
    (he : ∀ p, e ≠ .sleep (.proc p)) (hs : step false k e = some k') : WaitInv k' := by
  obtain ⟨hr, ht⟩ := reachable_treeInv hk
  rcases step_cases hs with ⟨-, -, rfl⟩ | ⟨user, -, h'⟩ | ⟨chan, -, rfl⟩ | ⟨hc, call, h', hcall⟩
  · exact h.schedRR
  · -- the tick and its wakeup, then the process exits or yields
    have hI := TreeInv.stepInvariant.wakeup _ .ticks (TreeInv.stepInvariant.tick k ⟨hr, ht⟩)
    have htick : WaitInv { k with ticks := k.ticks + 1 } := h.congr fun _ => .refl _
    have hw := htick.wakeup1 .ticks
    rcases timer_cases h' with ⟨hc, h'⟩ | ⟨-, h'⟩ | rfl
    · exact hw.exit hI.1 hI.2 (by exact hc) h'
    · exact hw.yield h'
    · exact hw
  · exact h.wakeup1 chan
  · -- the call, with the invariants after it for an exit that follows
    have hcall' : ∀ k₁, call k = .ok k₁ → (RRInv k₁ ∧ TreeInv k₁) ∧ WaitInv k₁ := fun k₁ hk₁ => by
      rcases hcall k₁ hk₁ with ⟨a, b, -, rfl⟩ | ⟨-, h'⟩ | ⟨-, h'⟩ | ⟨chan, rfl, h'⟩ | ⟨pid, -, rfl⟩
      · exact ⟨TreeInv.stepInvariant.fork k a b ⟨hr, ht⟩ hc, h.fork hr ht hc a b⟩
      · exact ⟨TreeInv.stepInvariant.exit k k₁ ⟨hr, ht⟩ h', h.exit hr ht hc h'⟩
      · exact ⟨TreeInv.stepInvariant.wait k k₁ ⟨hr, ht⟩ h', h.wait hr h'⟩
      · -- the sleep is not on a process's channel
        refine ⟨TreeInv.stepInvariant.sleep k chan k₁ ⟨hr, ht⟩ h', h.sleep hr ?_ h'⟩
        intro j _ hch
        exact absurd (congrArg Event.sleep hch) (he (.slot j))
      · exact ⟨TreeInv.stepInvariant.kill k pid ⟨hr, ht⟩, h.kill pid⟩
    rcases syscall_cases h' with h' | ⟨k₁, hk₁, ⟨hc₁, h'⟩ | rfl⟩
    · exact h.exit hr ht hc h'
    · obtain ⟨⟨hr₁, ht₁⟩, h₁⟩ := hcall' k₁ hk₁
      exact h₁.exit hr₁ ht₁ hc₁ h'
    · exact (hcall' _ hk₁).2

/-- Along a run from a reachable state whose sleeps are not on a process's channel, the
invariant is kept. -/
theorem run (hk : Reachable false k) (h : WaitInv k) {es : List Event}
    (hes : ∀ p, Event.sleep (.proc p) ∉ es) (hrun : run false k es = some k') : WaitInv k' := by
  induction es generalizing k with
  | nil =>
    cases hrun
    exact h
  | cons e es ih =>
    simp only [Xv6Stride.run, Option.bind_eq_some_iff] at hrun
    obtain ⟨k₁, h₁, h₂⟩ := hrun
    have he : ∀ p, e ≠ .sleep (.proc p) := fun p hp => hes p (hp ▸ List.mem_cons_self)
    exact ih (hk.step e h₁) (h.step hk he h₁) (fun p hp => hes p (List.mem_cons_of_mem _ hp)) h₂

end WaitInv

/-- At boot no process has a parent, and none is a zombie. -/
theorem waitInv_boot (heapArr : ℕ → Proc) : WaitInv (userinit false (boot heapArr)) := by
  have hslot : ∀ i, ((userinit false (boot heapArr)).ptable i).parent = .null ∧
      ((userinit false (boot heapArr)).ptable i).state ≠ .ZOMBIE := by
    intro i
    rw [userinit_boot false heapArr]
    by_cases hi : i = 0
    · subst hi
      simp [Proc.zero]
    · simp [Function.update_of_ne hi, boot, Proc.zero]
  refine ⟨(hslot 0).1, fun i => ?_, fun c i hz => absurd hz (hslot c).2⟩
  rw [(hslot i).1]
  exact Ptr.noConfusion

/-- Under `sched_RR`, along every run from `userinit` whose sleeps other than `wait`'s are on
channels that are not processes, as the kernel's are (ticks, buffers, pipes, the log, the
console), no process sleeps on its own channel, as `wait` does, while one of its children is a
zombie: the `wakeup1(curproc->parent)` of `exit`, and the wakeup of `initproc` for a zombie child
that `exit` passes to it, always reach a waiting parent. No process is its own parent, and
`initproc` has none. -/
theorem rr_wait_not_lost (heapArr : ℕ → Proc) {es : List Event}
    (hes : ∀ p, Event.sleep (.proc p) ∉ es) {k : Kernel}
    (h : run false (userinit false (boot heapArr)) es = some k) :
    (∀ c i, (k.ptable c).state = .ZOMBIE → (k.ptable c).parent = .slot i →
      ¬ ((k.ptable i).state = .SLEEPING ∧ (k.ptable i).chan = .proc (.slot i))) ∧
    (∀ i, (k.ptable i).parent ≠ .slot i) ∧ (k.ptable 0).parent = .null := by
  have hw := WaitInv.run (.boot heapArr) (waitInv_boot heapArr) hes h
  exact ⟨hw.awake, hw.parent_ne, hw.init_parent⟩

/-- `initproc` forks a child and waits for it; the child runs and exits. -/
def rrWaited : Kernel :=
  (run false rrInit [.schedule, .fork true true, .wait, .schedule, .exit]).getD rrInit

set_option maxRecDepth 4000 in
/-- The run that `rrWaited` names happens. -/
theorem rrWaited_run :
    run false rrInit [.schedule, .fork true true, .wait, .schedule, .exit] = some rrWaited :=
  run_eq_getD (by decide)

set_option maxRecDepth 4000 in
/-- The child's exit woke `initproc`, which had gone to sleep in `wait`. -/
theorem rr_wait_not_lost_waited :
    (rrWaited.ptable 1).state = .ZOMBIE ∧ (rrWaited.ptable 1).parent = .slot 0 ∧
      ¬ ((rrWaited.ptable 0).state = .SLEEPING ∧ (rrWaited.ptable 0).chan = .proc (.slot 0)) := by
  have hz : (rrWaited.ptable 1).state = .ZOMBIE := by decide
  have hp : (rrWaited.ptable 1).parent = .slot 0 := by decide
  exact ⟨hz, hp, (rr_wait_not_lost (fun _ => Proc.zero) (by simp) rrWaited_run).1 1 0 hz hp⟩

end Xv6Stride
