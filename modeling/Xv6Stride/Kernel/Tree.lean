import Xv6Stride.Kernel.Refinement

/-!
# The process tree under round robin

`fork` links each new process to the process that made it (`np->parent = curproc`). `exit`
passes the children of the exiting process to `initproc` before it becomes a `ZOMBIE`, and
`wait` frees a zombie child. Under `sched_RR` these keep the process tree whole. In every
reachable state `initproc` is slot `0` and has not exited. Every other process in the table,
zombies included, links to a parent slot whose process has not exited (`rr_parent_alive`). So no
`parent` link dangles into a freed or reused slot, and every zombie has a parent that can reap it.

`TreeInv` is that invariant. Each slot of a function's result keeps its link, is alive as before,
and is in use only if it was before (`Proc.Keeps`). The exceptions are the three functions that
change the tree. `fork` fills a free slot, which no link reaches, with a child of the running
process. `exit` takes the exiting process out only after `reparent` has left no link to it
(`reparent_parent`). `wait` frees a zombie, which no link reaches either.
-/

namespace Xv6Stride

/-- A process that has not exited: runnable, running or sleeping. -/
def Proc.Alive (p : Proc) : Prop :=
  p.state = .RUNNABLE ∨ p.state = .RUNNING ∨ p.state = .SLEEPING

instance (p : Proc) : Decidable p.Alive := inferInstanceAs (Decidable (_ ∨ _))

/-- The process tree: `initproc` is slot `0` and has not exited, and every other process in the
table has a parent slot whose process has not exited. -/
structure TreeInv (k : Kernel) : Prop where
  initproc : k.initproc = .slot 0
  init_alive : (k.ptable 0).Alive
  parent : ∀ i, i ≠ 0 → (k.ptable i).state ≠ .UNUSED →
    ∃ j, (k.ptable i).parent = .slot j ∧ (k.ptable j).Alive

/-! ## Records that keep their place in the tree -/

/-- `q` is alive exactly when `p` is, and in use only if `p` is, with the same link. -/
structure Proc.Keeps (p q : Proc) : Prop where
  alive : q.Alive ↔ p.Alive
  used : q.state ≠ .UNUSED → p.state ≠ .UNUSED ∧ q.parent = p.parent

namespace Proc

variable {p q : Proc}

/-- A process that has not exited is in use. -/
theorem Alive.ne_unused (h : p.Alive) : p.state ≠ .UNUSED := by
  rcases h with h | h | h <;> rw [h] <;> decide

/-- A process that has not exited is not a zombie. -/
theorem Alive.ne_zombie (h : p.Alive) : p.state ≠ .ZOMBIE := by
  rcases h with h | h | h <;> rw [h] <;> decide

/-- A record keeps its own place. -/
theorem Keeps.refl (p : Proc) : p.Keeps p := ⟨.rfl, fun hu => ⟨hu, rfl⟩⟩

/-- A record with the same state and link keeps its place. -/
theorem Keeps.of_state_eq (hs : q.state = p.state) (hp : q.parent = p.parent) : p.Keeps q where
  alive := by rw [Alive, Alive, hs]
  used hu := ⟨hs ▸ hu, hp⟩

/-- A live record written to another live one keeps its place. -/
theorem Keeps.of_alive (hp : q.parent = p.parent) (h : p.Alive) (h' : q.Alive) : p.Keeps q :=
  ⟨iff_of_true h' h, fun _ => ⟨h.ne_unused, hp⟩⟩

/-- Touching a record wakes it at most, which keeps it alive or not as it was. -/
theorem Touched.alive_iff (h : p.Touched q) : q.Alive ↔ p.Alive := by
  rcases h.state with hs | ⟨hs, hr⟩
  · rw [Alive, Alive, hs]
  · exact iff_of_true (.inl hr) (.inr (.inr hs))

/-- Touching a record with its link kept keeps its place in the tree. -/
theorem Touched.keeps (h : p.Touched q) (hp : q.parent = p.parent) : p.Keeps q where
  alive := h.alive_iff
  used hu := ⟨by rwa [Ne, ← h.state_eq_iff (by decide) (by decide)], hp⟩

end Proc

namespace TreeInv

variable {k k' : Kernel}

/-- A change that keeps `initproc` and the place of every slot keeps the tree. -/
theorem congr (h : TreeInv k) (hinit : k'.initproc = k.initproc)
    (hslot : ∀ i, (k.ptable i).Keeps (k'.ptable i)) : TreeInv k' where
  initproc := hinit.trans h.initproc
  init_alive := (hslot 0).alive.mpr h.init_alive
  parent i hi hu := by
    obtain ⟨hu₀, hp⟩ := (hslot i).used hu
    obtain ⟨j, hj, ha⟩ := h.parent i hi hu₀
    exact ⟨j, hp.trans hj, (hslot j).alive.mpr ha⟩

/-- Touching the slots with the links kept keeps the tree. -/
theorem touched (h : TreeInv k) (ht : k.Touched k')
    (hp : ∀ i, (k'.ptable i).parent = (k.ptable i).parent) : TreeInv k' :=
  h.congr ht.initproc_eq fun i => (ht.slot i).keeps (hp i)

/-- A write that keeps the state and the link of a record keeps the tree. -/
theorem write (h : TreeInv k) {p : Ptr} {f : Proc → Proc} (hs : ∀ q, (f q).state = q.state)
    (hp : ∀ q, (f q).parent = q.parent) : TreeInv (k.write p f) :=
  h.congr (Kernel.write_initproc ..) fun i =>
    .of_state_eq (Kernel.write_ptable_state hs i) (Kernel.write_ptable_parent hp i)

/-- A write of a live slot that leaves it live and keeps its link keeps the tree. -/
theorem write_slot (h : TreeInv k) {c : Fin NPROC} {f : Proc → Proc}
    (hp : ∀ q, (f q).parent = q.parent) (ha : (k.ptable c).Alive) (ha' : (f (k.ptable c)).Alive) :
    TreeInv (k.write (.slot c) f) := by
  refine h.congr (Kernel.write_initproc ..) fun i => ?_
  by_cases hic : i = c
  · subst hic
    simp only [Kernel.write_slot_ptable, Function.update_self]
    exact .of_alive (hp _) ha ha'
  · rw [Kernel.write_slot_ptable_of_ne hic]
    exact .refl _

/-- Under `sched_RR` a write through `c->proc` of a live state, with the link kept, keeps the
tree: `c->proc` is null or the running slot. -/
theorem write_cpu (h : TreeInv k) (hr : RRInv k) {f : Proc → Proc}
    (hp : ∀ q, (f q).parent = q.parent) (ha : ∀ q, (f q).Alive) : TreeInv (k.write k.cpu f) := by
  rcases hr.cpu with hc | ⟨c, hc⟩
  · rw [hc]
    exact h
  · rw [hc]
    exact h.write_slot hp (.inr (.inl (hr.on_cpu c hc))) (ha _)

/-! ## What each function does to the tree -/

/-- `wakeup1` keeps the tree: it wakes sleepers and writes no link. -/
theorem wakeup1 (h : TreeInv k) (chan : Chan) : TreeInv (wakeup1 k chan) :=
  h.touched (touched_wakeup1 k chan) (wakeup1_parent k chan)

/-- `kill` keeps the tree: it wakes its target at most and writes no link. -/
theorem kill (h : TreeInv k) (pid : ℤ) : TreeInv (kill k pid) :=
  h.touched (touched_kill k pid) (kill_parent k pid)

/-- `sched` saves a context through `c->proc` and returns to the scheduler. -/
theorem sched (h : TreeInv k) (hs : Xv6Stride.sched false k = .ok k') : TreeInv k' := by
  obtain ⟨-, rfl⟩ := sched_eq_ok.mp hs
  have hw : TreeInv (k.write k.cpu fun q => { q with context := k.nextctx }) :=
    h.write (fun _ => rfl) fun _ => rfl
  -- `rrReturn` changes `c->proc` and the loop's position only
  exact hw.congr rfl fun _ => .refl _

/-- `yield` keeps the tree: the running process stays alive. -/
theorem yield (h : TreeInv k) (hr : RRInv k) (hy : Xv6Stride.yield false k = .ok k') :
    TreeInv k' := by
  have hw : TreeInv (k.write k.cpu fun q => { q with state := .RUNNABLE }) :=
    h.write_cpu hr (fun _ => rfl) fun _ => .inl rfl
  exact hw.sched hy

/-- `sleep` keeps the tree: the running process stays alive. -/
theorem sleep (h : TreeInv k) (hr : RRInv k) {chan : Chan}
    (hs : Xv6Stride.sleep false k chan = .ok k') : TreeInv k' := by
  have hw : TreeInv (k.write k.cpu fun q => { q with chan := chan, state := .SLEEPING }) :=
    h.write_cpu hr (fun _ => rfl) fun _ => .inr (.inr rfl)
  exact hw.sched (sleep_eq_ok.mp hs).2

/-- After the loop of `exit`, the `ZOMBIE` written through `c->proc`: no link is left to the
exiting process, which is the only one to leave the living. -/
theorem zombie_of_reparented (h : TreeInv k) (hc : k.cpu ≠ k.initproc)
    (hlive : ∀ c, k.cpu = .slot c → (k.ptable c).state ≠ .UNUSED) {k₂ : Kernel}
    (ht : k.Touched k₂) (hpar₂ : ∀ i, (k₂.ptable i).parent =
      if (k.ptable i).parent = k.cpu then k.initproc else (k.ptable i).parent) :
    TreeInv (k₂.write k.cpu fun q => { q with state := .ZOMBIE }) := by
  -- the links after the loop, and the slots other than `c->proc`'s
  have hpar : ∀ i, ((k₂.write k.cpu fun q => { q with state := .ZOMBIE }).ptable i).parent =
      if (k.ptable i).parent = k.cpu then k.initproc else (k.ptable i).parent := fun i =>
    (Kernel.write_ptable_parent (p := k.cpu) (f := fun q => { q with state := .ZOMBIE })
      (fun _ => rfl) i).trans (hpar₂ i)
  have hother : ∀ j, k.cpu ≠ .slot j →
      (((k₂.write k.cpu fun q => { q with state := .ZOMBIE }).ptable j).Alive ↔
        (k.ptable j).Alive) := fun j hj => by
    rw [Kernel.write_ptable_of_ne hj]
    exact (ht.slot j).alive_iff
  have hused : ∀ i, ((k₂.write k.cpu fun q => { q with state := .ZOMBIE }).ptable i).state ≠
      .UNUSED → (k.ptable i).state ≠ .UNUSED := fun i hu => by
    by_cases hi : k.cpu = .slot i
    · exact hlive i hi
    · rw [Kernel.write_ptable_of_ne hi] at hu
      rwa [Ne, ← (ht.slot i).state_eq_iff (by decide) (by decide)]
  have h0 : k.cpu ≠ .slot 0 := h.initproc ▸ hc
  refine ⟨by rw [Kernel.write_initproc, ht.initproc_eq, h.initproc],
    (hother 0 h0).mpr h.init_alive, fun i hi hu => ?_⟩
  rw [hpar i]
  by_cases hpi : (k.ptable i).parent = k.cpu
  · -- a child of the exiting process now links to `initproc`
    rw [if_pos hpi, h.initproc]
    exact ⟨0, rfl, (hother 0 h0).mpr h.init_alive⟩
  · rw [if_neg hpi]
    obtain ⟨j, hj, ha⟩ := h.parent i hi (hused i hu)
    exact ⟨j, hj, (hother j (hj ▸ Ne.symm hpi)).mpr ha⟩

/-- `exit` keeps the tree: its children go to `initproc` before the caller becomes a zombie. -/
theorem exit (h : TreeInv k) (hr : RRInv k) (he : Xv6Stride.exit false k = .ok k') : TreeInv k' := by
  obtain ⟨hc, hs⟩ := exit_eq_ok.mp he
  generalize hk₁ : Xv6Stride.wakeup1 k (.proc (k.deref k.cpu).parent) = k₁ at hs
  have ht : k.Touched k₁ := hk₁ ▸ touched_wakeup1 k _
  have h₁ : TreeInv k₁ := hk₁ ▸ h.wakeup1 _
  have hc₁ : k₁.cpu ≠ k₁.initproc := by rw [ht.cpu_eq, ht.initproc_eq]; exact hc
  -- the slot on the CPU is in use, and the wakeup keeps it so
  have hlive : ∀ c, k₁.cpu = .slot c → (k₁.ptable c).state ≠ .UNUSED := fun c hcpu => by
    rw [ht.cpu_eq] at hcpu
    rw [Ne, (ht.slot c).state_eq_iff (by decide) (by decide)]
    exact hr.live c hcpu
  have h₃ := h₁.zombie_of_reparented hc₁ hlive (touched_reparent k₁ k₁.cpu) (reparent_parent hc₁)
  rw [ht.cpu_eq] at h₃
  exact h₃.sched hs

/-- `wait`'s reaping frees a zombie, to which no link goes. -/
theorem reap (h : TreeInv k) {i : Fin NPROC} (hz : (k.ptable i).state = .ZOMBIE) :
    TreeInv (reap k i) := by
  have hdead : ¬ (k.ptable i).Alive := fun ha => ha.ne_zombie hz
  refine h.congr (Kernel.write_initproc ..) fun j => ?_
  by_cases hji : j = i
  · -- the freed slot is neither alive nor in use
    subst hji
    refine ⟨iff_of_false (by simp [Xv6Stride.reap, Proc.Alive]) hdead, fun hu => ?_⟩
    exact absurd (by simp [Xv6Stride.reap]) hu
  · rw [Xv6Stride.reap, Kernel.write_slot_ptable_of_ne hji]
    exact .refl _

/-- `wait` keeps the tree: it reaps a zombie, returns, or sleeps. -/
theorem wait (h : TreeInv k) (hr : RRInv k) (hw : Xv6Stride.wait false k = .ok k') : TreeInv k' := by
  rcases wait_cases hw with ⟨i, -, hz, rfl⟩ | rfl | ⟨-, hs⟩
  · exact h.reap hz
  · exact h
  · exact h.sleep hr hs

/-- `fork` fills a free slot, to which no link goes, with a child of the running process. -/
theorem fork (h : TreeInv k) (hr : RRInv k) (hc : k.cpu ≠ .null) (kallocOk copyOk : Bool) :
    TreeInv (fork false k kallocOk copyOk) := by
  rcases fork_cases false k kallocOk copyOk with hk | ⟨n, hfree, hother, hrest, hnew⟩
  · rw [hk]
    exact h
  set k' := Xv6Stride.fork false k kallocOk copyOk
  obtain ⟨c, hcpu⟩ := hr.cpu.resolve_left hc
  have hrun : (k.ptable c).state = .RUNNING := hr.on_cpu c hcpu
  -- neither `initproc` nor a parent is the free slot
  have hfree_dead : ∀ j, (k.ptable j).Alive → j ≠ n := fun j ha hjn =>
    ha.ne_unused (hjn ▸ hfree)
  have hkeep : ∀ j, j ≠ n → ((k'.ptable j).Alive ↔ (k.ptable j).Alive) := fun j hj => by
    rw [hother j hj]
  have hinit : k'.initproc = k.initproc := (congrArg Kernel.initproc hrest :)
  refine ⟨hinit.trans h.initproc,
    (hkeep 0 (hfree_dead 0 h.init_alive)).mpr h.init_alive, fun i hi hu => ?_⟩
  by_cases hin : i = n
  · -- the new process links to the running one
    subst hin
    rcases hnew with ⟨hu', -⟩ | ⟨-, -, -, hp⟩
    · exact absurd hu' hu
    · have hca : (k.ptable c).Alive := .inr (.inl hrun)
      exact ⟨c, hp.trans hcpu, (hkeep c (hfree_dead c hca)).mpr hca⟩
  · rw [hother i hin] at hu ⊢
    obtain ⟨j, hj, ha⟩ := h.parent i hi hu
    exact ⟨j, hj, (hkeep j (hfree_dead j ha)).mpr ha⟩

/-- A turn of `sched_RR` marks a runnable slot `RUNNING`, which keeps it alive. -/
theorem schedRR (h : TreeInv k) : TreeInv (schedRR k) := by
  cases hi : nextRunnable k with
  | none =>
    rw [schedRR_of_none hi]
    exact h.congr rfl fun _ => .refl _
  | some i =>
    have hr := (nextRunnable_eq_some_iff.mp hi).2.1
    rw [schedRR_of_some hi]
    refine h.congr rfl fun j => ?_
    by_cases hji : j = i
    · subst hji
      simp only [Function.update_self]
      exact .of_alive rfl (.inl hr) (.inr (.inl rfl))
    · simp only [Function.update_of_ne hji]
      exact .refl _

/-- The tree and the round-robin invariant together survive every function of an event. -/
theorem stepInvariant : StepInvariant false fun k => RRInv k ∧ TreeInv k where
  schedule _ h hc := ⟨h.1.schedRR hc, h.2.schedRR⟩
  wakeup k chan h := ⟨RRInv.stepInvariant.wakeup k chan h.1, h.2.wakeup1 chan⟩
  tick _ h := ⟨RRInv.stepInvariant.tick _ h.1, h.2.congr rfl fun _ => .refl _⟩
  yield k k' h hy := ⟨RRInv.stepInvariant.yield k k' h.1 hy, h.2.yield h.1 hy⟩
  exit k k' h he := ⟨RRInv.stepInvariant.exit k k' h.1 he, h.2.exit h.1 he⟩
  wait k k' h hw := ⟨RRInv.stepInvariant.wait k k' h.1 hw, h.2.wait h.1 hw⟩
  sleep k chan k' h hs := ⟨RRInv.stepInvariant.sleep k chan k' h.1 hs, h.2.sleep h.1 hs⟩
  fork k kallocOk copyOk h hc :=
    ⟨RRInv.stepInvariant.fork k kallocOk copyOk h.1 hc, h.2.fork h.1 hc kallocOk copyOk⟩
  kill k pid h := ⟨RRInv.stepInvariant.kill k pid h.1, h.2.kill pid⟩

end TreeInv

/-- `userinit` makes slot `0` the runnable `initproc`, and every other slot is free. -/
theorem treeInv_boot (heapArr : ℕ → Proc) : TreeInv (userinit false (boot heapArr)) := by
  rw [userinit_boot false heapArr]
  refine ⟨rfl, by simp [Proc.Alive], fun i hi hu => absurd ?_ hu⟩
  simp [Function.update_of_ne hi, boot, Proc.zero]

/-- Every reachable state under `sched_RR` has the invariant and the tree. -/
theorem reachable_treeInv {k : Kernel} (hk : Reachable false k) : RRInv k ∧ TreeInv k :=
  TreeInv.stepInvariant.reachable (fun heapArr => ⟨rrInv_boot heapArr, treeInv_boot heapArr⟩) hk

end Xv6Stride
