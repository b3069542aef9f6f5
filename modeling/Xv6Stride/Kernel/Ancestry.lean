import Xv6Stride.Kernel.Tree

/-!
# The process tree is rooted at `initproc`

`rr_parent_alive` says that no `parent` link dangles. Here the links also lead to the root:
under `sched_RR`, following `parent` from any process in the table reaches `initproc`
(`rr_reaches_initproc`). So the links form one tree, and no cycle of links holds a set of
processes apart from it.

The measure is the pid. `fork` gives a child `nextpid`, above the pid of every process in the
table, its parent's included. `exit` passes its children to `initproc`, whose pid is the least of
all. No other function writes a pid or a link of a process in use. So every process but
`initproc` is younger than its parent (`AgeInv`), and the pid falls along each link. Each function
but `fork` keeps every process in use with its pid and its link, or with `initproc` for its link
(`Proc.KeepsAge`); this composes along the functions of an event. `fork` is shown on its own.
-/

namespace Xv6Stride

/-- The pointer that a record links to as its parent: `p->parent`. -/
def Kernel.parentLink (k : Kernel) (p : Ptr) : Ptr := (k.deref p).parent

/-- Every process but `initproc` is younger than `initproc` and than its parent: its pid is
larger. -/
structure AgeInv (k : Kernel) : Prop where
  init_least : ∀ i, i ≠ 0 → (k.ptable i).state ≠ .UNUSED → (k.ptable 0).pid < (k.ptable i).pid
  older : ∀ i j, i ≠ 0 → (k.ptable i).state ≠ .UNUSED → (k.ptable i).parent = .slot j →
    (k.ptable j).pid < (k.ptable i).pid

/-- `q` is in use only if `p` was, under the same pid, and linked to the same parent or to
`initproc`. -/
def Proc.KeepsAge (p q : Proc) : Prop :=
  q.state ≠ .UNUSED →
    p.state ≠ .UNUSED ∧ q.pid = p.pid ∧ (q.parent = p.parent ∨ q.parent = .slot 0)

namespace Proc.KeepsAge

variable {p q r : Proc}

/-- A record keeps its own age. -/
theorem refl (p : Proc) : p.KeepsAge p := fun hu => ⟨hu, rfl, .inl rfl⟩

/-- Keeping the age twice keeps it. -/
theorem trans (h₁ : p.KeepsAge q) (h₂ : q.KeepsAge r) : p.KeepsAge r := by
  intro hu
  obtain ⟨hq, hpid₂, hpar₂⟩ := h₂ hu
  obtain ⟨hp, hpid₁, hpar₁⟩ := h₁ hq
  refine ⟨hp, hpid₂.trans hpid₁, ?_⟩
  rcases hpar₂ with h | h
  · rw [h]
    exact hpar₁
  · exact .inr h

/-- A record in use, written with its pid and its link kept. -/
theorem of_live (hp : p.state ≠ .UNUSED) (hpid : q.pid = p.pid) (hpar : q.parent = p.parent) :
    p.KeepsAge q :=
  fun _ => ⟨hp, hpid, .inl hpar⟩

/-- A record with the same state, pid and link keeps its age. -/
theorem of_state_eq (hs : q.state = p.state) (hpid : q.pid = p.pid) (hpar : q.parent = p.parent) :
    p.KeepsAge q :=
  fun hu => ⟨hs ▸ hu, hpid, .inl hpar⟩

/-- Touching a record keeps it in use or not, and keeps its pid. -/
theorem of_touched (h : p.Touched q) (hpar : q.parent = p.parent ∨ q.parent = .slot 0) :
    p.KeepsAge q :=
  fun hu => ⟨(h.state_eq_iff (by decide) (by decide)).not.mp hu, h.pid_eq, hpar⟩

end Proc.KeepsAge

/-- Every slot keeps its age from `k` to `k'`. -/
def Kernel.KeepsAges (k k' : Kernel) : Prop := ∀ i, (k.ptable i).KeepsAge (k'.ptable i)

namespace Kernel.KeepsAges

variable {k k₁ k' : Kernel}

/-- A kernel keeps its own ages. -/
theorem refl (k : Kernel) : k.KeepsAges k := fun _ => .refl _

/-- Keeping the ages twice keeps them. -/
theorem trans (h₁ : k.KeepsAges k₁) (h₂ : k₁.KeepsAges k') : k.KeepsAges k' :=
  fun i => (h₁ i).trans (h₂ i)

/-- A kernel with the same table keeps every age. -/
theorem of_ptable_eq (h : k'.ptable = k.ptable) : k.KeepsAges k' := by
  intro i
  rw [h]
  exact .refl _

/-- Touching the slots, with each link kept or moved to `initproc`, keeps every age. -/
theorem touched (ht : k.Touched k')
    (hpar : ∀ i, (k'.ptable i).parent = (k.ptable i).parent ∨ (k'.ptable i).parent = .slot 0) :
    k.KeepsAges k' :=
  fun i => .of_touched (ht.slot i) (hpar i)

/-- A write through a pointer that keeps the age of the record it writes. -/
theorem write {p : Ptr} {f : Proc → Proc}
    (hf : ∀ c, p = .slot c → (k.ptable c).KeepsAge (f (k.ptable c))) : k.KeepsAges (k.write p f) := by
  intro i
  by_cases hp : p = .slot i
  · subst hp
    rw [Kernel.write_slot_ptable, Function.update_self]
    exact hf i rfl
  · rw [Kernel.write_ptable_of_ne hp]
    exact .refl _

end Kernel.KeepsAges

/-! ## What each function but `fork` does to the ages -/

section Functions

variable {k k' : Kernel}

/-- `wakeup1` keeps every age: it writes no pid and no link. -/
theorem keepsAges_wakeup1 (k : Kernel) (chan : Chan) : k.KeepsAges (wakeup1 k chan) :=
  .touched (touched_wakeup1 k chan) fun i => .inl (wakeup1_parent k chan i)

/-- `kill` keeps every age: it writes no pid and no link. -/
theorem keepsAges_kill (k : Kernel) (pid : ℤ) : k.KeepsAges (kill k pid) :=
  .touched (touched_kill k pid) fun i => .inl (kill_parent k pid i)

/-- `sched` saves a context; `rrReturn` changes `c->proc` and the loop's position only. -/
theorem keepsAges_sched (hs : sched false k = .ok k') : k.KeepsAges k' := by
  obtain ⟨-, rfl⟩ := sched_eq_ok.mp hs
  have hsave : k.KeepsAges (k.write k.cpu fun q => { q with context := k.nextctx }) :=
    .write fun _ _ => .of_state_eq rfl rfl rfl
  exact hsave

/-- Under `sched_RR` a write through `c->proc` lands in a slot in use, if any. -/
theorem keepsAges_write_cpu (hr : RRSafe k) {f : Proc → Proc} (hpid : ∀ q, (f q).pid = q.pid)
    (hpar : ∀ q, (f q).parent = q.parent) : k.KeepsAges (k.write k.cpu f) :=
  .write fun c hc => .of_live (hr.live c hc) (hpid _) (hpar _)

/-- `yield` keeps every age: it marks a slot in use `RUNNABLE`. -/
theorem keepsAges_yield (hr : RRInv k) (hy : yield false k = .ok k') : k.KeepsAges k' :=
  (keepsAges_write_cpu (f := fun q => { q with state := .RUNNABLE }) hr.toRRSafe (fun _ => rfl)
    fun _ => rfl).trans (keepsAges_sched hy)

/-- `sleep` keeps every age: it marks a slot in use `SLEEPING`. -/
theorem keepsAges_sleep (hr : RRInv k) {chan : Chan} (hs : sleep false k chan = .ok k') :
    k.KeepsAges k' :=
  (keepsAges_write_cpu (f := fun q => { q with chan := chan, state := .SLEEPING }) hr.toRRSafe
    (fun _ => rfl) fun _ => rfl).trans (keepsAges_sched (sleep_eq_ok.mp hs).2)

/-- `exit` links the children of its caller to `initproc`, slot `0`, and writes `ZOMBIE` in the
caller's slot, which is in use. -/
theorem keepsAges_exit (hr : RRInv k) (ht : TreeInv k) (he : exit false k = .ok k') :
    k.KeepsAges k' := by
  obtain ⟨hc, hs⟩ := exit_eq_ok.mp he
  generalize hk₁ : wakeup1 k (.proc (k.deref k.cpu).parent) = k₁ at hs
  have ht₁ : k.Touched k₁ := hk₁ ▸ touched_wakeup1 k _
  have hwake : k.KeepsAges k₁ := hk₁ ▸ keepsAges_wakeup1 k _
  have hc₁ : k.cpu ≠ k₁.initproc := by
    rw [ht₁.initproc_eq]
    exact hc
  have hloop : k₁.KeepsAges (reparent k₁ k.cpu) := by
    refine .touched (touched_reparent k₁ k.cpu) fun i => ?_
    rw [reparent_parent hc₁ i]
    split
    · exact .inr (by rw [ht₁.initproc_eq, ht.initproc])
    · exact .inl rfl
  have ht₂ : k.Touched (reparent k₁ k.cpu) := ht₁.trans (touched_reparent _ _)
  -- the loop's result stays opaque: unfolding it runs the loop over the whole table
  generalize reparent k₁ k.cpu = k₂ at hs hloop ht₂
  -- the caller's slot is in use, and the wakeup and the loop keep it so
  have hlive : ∀ c, k.cpu = .slot c → (k₂.ptable c).state ≠ .UNUSED := fun c hc => by
    rw [Ne, (ht₂.slot c).state_eq_iff (by decide) (by decide)]
    exact hr.live c hc
  have hzombie : k₂.KeepsAges (k₂.write k.cpu fun q => { q with state := .ZOMBIE }) :=
    .write fun c hc => .of_live (hlive c hc) rfl rfl
  exact (hwake.trans hloop).trans (hzombie.trans (keepsAges_sched hs))

/-- `wait`'s reaping frees a slot, which no longer counts. -/
theorem keepsAges_reap (k : Kernel) (i : Fin NPROC) : k.KeepsAges (reap k i) :=
  .write fun _ _ hu => absurd rfl hu

/-- `wait` keeps every age: it reaps a slot, returns, or sleeps. -/
theorem keepsAges_wait (hr : RRInv k) (hw : wait false k = .ok k') : k.KeepsAges k' := by
  rcases wait_cases hw with ⟨i, -, -, rfl⟩ | rfl | ⟨-, hs⟩
  · exact keepsAges_reap k i
  · exact .refl _
  · exact keepsAges_sleep hr hs

/-- A turn of `sched_RR` marks a runnable slot `RUNNING`. -/
theorem keepsAges_schedRR (k : Kernel) : k.KeepsAges (schedRR k) := by
  cases hn : nextRunnable k with
  | none =>
    rw [schedRR_of_none hn]
    exact .of_ptable_eq rfl
  | some j =>
    rw [schedRR_of_some hn]
    intro i
    by_cases hi : i = j
    · subst hi
      simp only [Function.update_self]
      exact .of_live (by rw [(nextRunnable_eq_some_iff.mp hn).2.1]; decide) rfl rfl
    · simp only [Function.update_of_ne hi]
      exact .refl _

end Functions

namespace AgeInv

variable {k k' : Kernel}

/-- The ages kept, and the tree after: every link goes to a live slot, which was in use under
the same pid. -/
theorem congr (h : AgeInv k) (ht : TreeInv k') (hk : k.KeepsAges k') : AgeInv k' where
  init_least i hi hu := by
    obtain ⟨hu₀, hpid, -⟩ := hk i hu
    obtain ⟨-, hpid₀, -⟩ := hk 0 ht.init_alive.ne_unused
    rw [hpid, hpid₀]
    exact h.init_least i hi hu₀
  older i j hi hu hp := by
    obtain ⟨hu₀, hpid, hpar⟩ := hk i hu
    obtain ⟨j', hj', ha⟩ := ht.parent i hi hu
    have hjj : j' = j := Ptr.slot.inj (hj'.symm.trans hp)
    subst hjj
    obtain ⟨-, hpidj, -⟩ := hk j' ha.ne_unused
    rw [hpid, hpidj]
    rcases hpar with hpar | hpar
    · exact h.older i j' hi hu₀ (hpar.symm.trans hp)
    · -- a child of an exited process, linked to `initproc`
      have hj0 : j' = 0 := Ptr.slot.inj (hp.symm.trans hpar)
      subst hj0
      exact h.init_least i hi hu₀

/-- `fork` gives the child `nextpid`, above every pid in use, and links it to the caller. -/
theorem fork (h : AgeInv k) (hr : RRInv k) (ht : TreeInv k) (hc : k.cpu ≠ .null)
    (kallocOk copyOk : Bool) : AgeInv (Xv6Stride.fork false k kallocOk copyOk) := by
  rcases fork_cases false k kallocOk copyOk with hk | ⟨n, hfree, hother, -, hnew⟩
  · rw [hk]
    exact h
  obtain ⟨c, hcpu⟩ := hr.cpu.resolve_left hc
  -- a slot in use is not the free slot that `fork` took
  have hne : ∀ j, (k.ptable j).state ≠ .UNUSED → j ≠ n := fun j hj hjn => hj (hjn ▸ hfree)
  have h0 : (0 : Fin NPROC) ≠ n := hne 0 ht.init_alive.ne_unused
  constructor
  · intro i hi hu
    rw [hother 0 h0]
    by_cases hin : i = n
    · subst hin
      rcases hnew with ⟨hu', -⟩ | ⟨-, hpid, -, -⟩
      · exact absurd hu' hu
      · rw [hpid]
        exact hr.pids.pid_lt 0 ht.init_alive.ne_unused
    · rw [hother i hin] at hu ⊢
      exact h.init_least i hi hu
  · intro i j hi hu hp
    by_cases hin : i = n
    · subst hin
      rcases hnew with ⟨hu', -⟩ | ⟨-, hpid, -, hpar⟩
      · exact absurd hu' hu
      · -- the child links to the caller, which keeps its slot and pid
        have hcj : c = j := Ptr.slot.inj (hcpu.symm.trans (hpar.symm.trans hp))
        subst hcj
        rw [hother c (hne c (hr.live c hcpu)), hpid]
        exact hr.pids.pid_lt c (hr.live c hcpu)
    · rw [hother i hin] at hu hp ⊢
      obtain ⟨j', hj', ha⟩ := ht.parent i hi hu
      have hjj : j' = j := Ptr.slot.inj (hj'.symm.trans hp)
      subst hjj
      rw [hother j' (hne j' ha.ne_unused)]
      exact h.older i j' hi hu hp

/-- The ages, the tree and the round-robin invariant together survive every function of an
event. -/
theorem stepInvariant : StepInvariant false fun k => (RRInv k ∧ TreeInv k) ∧ AgeInv k where
  schedule k h hc :=
    have h' := TreeInv.stepInvariant.schedule k h.1 hc
    ⟨h', h.2.congr h'.2 (keepsAges_schedRR k)⟩
  wakeup k chan h :=
    have h' := TreeInv.stepInvariant.wakeup k chan h.1
    ⟨h', h.2.congr h'.2 (keepsAges_wakeup1 k chan)⟩
  tick k h :=
    have h' := TreeInv.stepInvariant.tick k h.1
    ⟨h', h.2.congr h'.2 (.of_ptable_eq rfl)⟩
  yield k k' h hy :=
    have h' := TreeInv.stepInvariant.yield k k' h.1 hy
    ⟨h', h.2.congr h'.2 (keepsAges_yield h.1.1 hy)⟩
  exit k k' h he :=
    have h' := TreeInv.stepInvariant.exit k k' h.1 he
    ⟨h', h.2.congr h'.2 (keepsAges_exit h.1.1 h.1.2 he)⟩
  wait k k' h hw :=
    have h' := TreeInv.stepInvariant.wait k k' h.1 hw
    ⟨h', h.2.congr h'.2 (keepsAges_wait h.1.1 hw)⟩
  sleep k chan k' h hs :=
    have h' := TreeInv.stepInvariant.sleep k chan k' h.1 hs
    ⟨h', h.2.congr h'.2 (keepsAges_sleep h.1.1 hs)⟩
  fork k kallocOk copyOk h hc :=
    ⟨TreeInv.stepInvariant.fork k kallocOk copyOk h.1 hc,
      h.2.fork h.1.1 h.1.2 hc kallocOk copyOk⟩
  kill k pid h :=
    have h' := TreeInv.stepInvariant.kill k pid h.1
    ⟨h', h.2.congr h'.2 (keepsAges_kill k pid)⟩

/-- Following links from a process in use reaches slot `0`: the pid falls along each link, and
it is positive. -/
theorem reaches (h : AgeInv k) (ht : TreeInv k) (hp : PidsFresh k) (i : Fin NPROC)
    (hu : (k.ptable i).state ≠ .UNUSED) : ∃ n, k.parentLink^[n] (.slot i) = .slot 0 := by
  suffices hs : ∀ m i, (k.ptable i).state ≠ .UNUSED → (k.ptable i).pid.toNat = m →
      ∃ n, k.parentLink^[n] (.slot i) = .slot 0 from hs _ i hu rfl
  intro m
  -- strong induction on the pid
  induction m using Nat.strong_induction_on with
  | _ m ih =>
    intro i hu hm
    by_cases hi : i = 0
    · exact ⟨0, by rw [hi]; rfl⟩
    obtain ⟨j, hj, ha⟩ := ht.parent i hi hu
    have hlt : (k.ptable j).pid < (k.ptable i).pid := h.older i j hi hu hj
    have hpos : 0 < (k.ptable j).pid := hp.pid_pos j ha.ne_unused
    obtain ⟨n, hn⟩ := ih _ (by omega) j ha.ne_unused rfl
    refine ⟨n + 1, ?_⟩
    rw [Function.iterate_succ_apply]
    show k.parentLink^[n] (k.ptable i).parent = .slot 0
    rw [hj]
    exact hn

end AgeInv

/-- At boot only `initproc` is in use. -/
theorem ageInv_boot (heapArr : ℕ → Proc) : AgeInv (userinit false (boot heapArr)) := by
  have hfree : ∀ i : Fin NPROC, i ≠ 0 →
      ((userinit false (boot heapArr)).ptable i).state = .UNUSED := by
    intro i hi
    rw [userinit_boot false heapArr]
    simp [Function.update_of_ne hi, boot, Proc.zero]
  exact ⟨fun i hi hu => absurd (hfree i hi) hu, fun i _ hi hu _ => absurd (hfree i hi) hu⟩

/-- Every reachable state under `sched_RR` has the invariant, the tree and the ages. -/
theorem reachable_ageInv {k : Kernel} (hk : Reachable false k) :
    (RRInv k ∧ TreeInv k) ∧ AgeInv k :=
  AgeInv.stepInvariant.reachable
    (fun heapArr => ⟨⟨rrInv_boot heapArr, treeInv_boot heapArr⟩, ageInv_boot heapArr⟩) hk

end Xv6Stride
