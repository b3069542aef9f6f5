import Xv6Stride.Kernel.Fairness

/-!
# `kill` finds the process of a pid

`kill(pid)` scans the table in order and marks the first slot whose `pid` matches, free slots
included. A free slot keeps a pid: `0` after `wait` reaps it, or the `nextpid` that `allocproc`
gave it when `kalloc` or `copyuvm` failed (`fork_pid`). So the scan could stop at a free slot
before the process. It never does. `nextpid` only grows, so every pid but `0` is in one slot at
most, and the pid of a process in use is never `0` (`PidsUnique`). Under either scheduler, `kill`
of the pid of a process in the table marks that process and no other slot (`kill_marks_owner`).

This is stronger than `PidsFresh`, which compares the slots in use only. Each function but
`fork` and `wait`'s reaping keeps every pid, and keeps a slot in use only if it was
(`Proc.KeepsPid`); the writes through `c->proc` need the process on the CPU to run
(`Kernel.OnCpu`), which either scheduler's invariant gives.

Over time the same holds: from `k` on, a slot keeps its pid, holds `0`, or holds a pid given after
`k` (`Kernel.PidsAfter`, which composes along a run). So a pid other than `0` is never given
again and never moves to another slot (`pid_never_reused`).
-/

namespace Xv6Stride

/-- Every pid in the table is below `nextpid`, a process in use has a positive pid, and no two
slots share a pid other than `0`. -/
structure PidsUnique (k : Kernel) : Prop where
  nextpid_pos : 0 < k.nextpid
  lt : ∀ i, (k.ptable i).pid < k.nextpid
  pos : ∀ i, (k.ptable i).state ≠ .UNUSED → 0 < (k.ptable i).pid
  inj : ∀ i j, (k.ptable i).pid ≠ 0 → (k.ptable j).pid = (k.ptable i).pid → j = i

/-- `q` has the pid of `p`, and is in use only if `p` was. -/
def Proc.KeepsPid (p q : Proc) : Prop := q.pid = p.pid ∧ (q.state ≠ .UNUSED → p.state ≠ .UNUSED)

namespace PidsUnique

variable {stride_scheduler : Bool} {k k' : Kernel}

/-- A change that keeps every pid and `nextpid`, and puts no free slot in use, keeps the
invariant. -/
theorem congr (h : PidsUnique k) (hslot : ∀ i, (k.ptable i).KeepsPid (k'.ptable i))
    (hn : k'.nextpid = k.nextpid) : PidsUnique k' where
  nextpid_pos := hn ▸ h.nextpid_pos
  lt i := by
    rw [(hslot i).1, hn]
    exact h.lt i
  pos i hu := by
    rw [(hslot i).1]
    exact h.pos i ((hslot i).2 hu)
  inj i j hi hj := by
    rw [(hslot i).1] at hi hj
    rw [(hslot j).1] at hj
    exact h.inj i j hi hj

/-- Touching the slots keeps the invariant: it keeps every pid, and a free slot stays free. -/
theorem touched (h : PidsUnique k) (ht : k.Touched k') : PidsUnique k' :=
  h.congr (fun i => ⟨(ht.slot i).pid_eq,
    ((ht.slot i).state_eq_iff (by decide) (by decide)).not.mp⟩) ht.nextpid_eq

/-- A write that keeps the pid of the record it writes, and puts no free slot in use. -/
theorem write (h : PidsUnique k) {p : Ptr} {f : Proc → Proc}
    (hf : ∀ c, p = .slot c → (k.ptable c).KeepsPid (f (k.ptable c))) :
    PidsUnique (k.write p f) := by
  refine h.congr (fun i => ?_) (Kernel.write_nextpid ..)
  by_cases hp : p = .slot i
  · subst hp
    rw [Kernel.write_slot_ptable, Function.update_self]
    exact hf i rfl
  · rw [Kernel.write_ptable_of_ne hp]
    exact ⟨rfl, id⟩

/-- A write through `c->proc` of a record that runs. -/
theorem write_cpu (h : PidsUnique k) (hon : k.OnCpu) {f : Proc → Proc}
    (hpid : ∀ q, (f q).pid = q.pid) : PidsUnique (k.write k.cpu f) :=
  h.write fun c hc => ⟨hpid _, fun _ => by rw [hon c hc]; decide⟩

/-- The scheduler's return writes its accounting through `c->proc`, and keeps every pid. -/
theorem strideReturn (h : PidsUnique k) : PidsUnique (Xv6Stride.strideReturn k) :=
  ((h.write fun _ _ => ⟨rfl, id⟩).write fun _ _ => ⟨rfl, id⟩).congr (fun _ => ⟨rfl, id⟩) rfl

/-- `sched` saves a context, and the scheduler's side of the switch writes its accounting. -/
theorem sched (h : PidsUnique k) (hs : Xv6Stride.sched stride_scheduler k = .ok k') :
    PidsUnique k' := by
  obtain ⟨-, rfl⟩ := sched_eq_ok.mp hs
  have hsave : PidsUnique (k.write k.cpu fun q => { q with context := k.nextctx }) :=
    h.write fun _ _ => ⟨rfl, id⟩
  cases stride_scheduler
  · exact hsave.congr (fun _ => ⟨rfl, id⟩) rfl
  · exact PidsUnique.strideReturn (hsave.congr (fun _ => ⟨rfl, id⟩) rfl)

/-- `yield` keeps the invariant: it writes the state of the slot on the CPU. -/
theorem yield (h : PidsUnique k) (hon : k.OnCpu)
    (hy : Xv6Stride.yield stride_scheduler k = .ok k') : PidsUnique k' :=
  (h.write_cpu hon (f := fun q => { q with state := .RUNNABLE }) fun _ => rfl).sched hy

/-- `sleep` keeps the invariant: it writes the state of the slot on the CPU. -/
theorem sleep (h : PidsUnique k) (hon : k.OnCpu) {chan : Chan}
    (hs : Xv6Stride.sleep stride_scheduler k chan = .ok k') : PidsUnique k' :=
  (h.write_cpu hon (f := fun q => { q with chan := chan, state := .SLEEPING })
    fun _ => rfl).sched (sleep_eq_ok.mp hs).2

/-- `exit` keeps the invariant: it touches the slots and marks the slot on the CPU `ZOMBIE`. -/
theorem exit (h : PidsUnique k) (hon : k.OnCpu) (he : Xv6Stride.exit stride_scheduler k = .ok k') :
    PidsUnique k' := by
  obtain ⟨-, k₁, ht, hs⟩ := exit_cases he
  exact ((h.touched ht).write_cpu (hon.touched ht) (f := fun q => { q with state := .ZOMBIE })
    fun _ => rfl).sched hs

/-- `wait`'s reaping gives the freed slot pid `0`. -/
theorem reap (h : PidsUnique k) (c : Fin NPROC) : PidsUnique (Xv6Stride.reap k c) where
  nextpid_pos := h.nextpid_pos
  lt i := by
    by_cases hi : i = c
    · subst hi
      simpa [Xv6Stride.reap] using h.nextpid_pos
    · rw [Xv6Stride.reap, Kernel.write_slot_ptable_of_ne hi]
      exact h.lt i
  pos i hu := by
    by_cases hi : i = c
    · subst hi
      simp [Xv6Stride.reap] at hu
    · rw [Xv6Stride.reap, Kernel.write_slot_ptable_of_ne hi] at hu ⊢
      exact h.pos i hu
  inj i j hi hj := by
    -- the freed slot holds `0`, which is no one's pid
    have hic : i ≠ c := by
      rintro rfl
      simp [Xv6Stride.reap] at hi
    rw [Xv6Stride.reap, Kernel.write_slot_ptable_of_ne hic] at hi hj
    by_cases hjc : j = c
    · subst hjc
      simp only [Kernel.write_slot_ptable, Function.update_self] at hj
      exact absurd hj.symm hi
    · rw [Kernel.write_slot_ptable_of_ne hjc] at hj
      exact h.inj i j hi hj

/-- `wait` keeps the invariant: it reaps a zombie, returns, or sleeps. -/
theorem wait (h : PidsUnique k) (hon : k.OnCpu) (hw : Xv6Stride.wait stride_scheduler k = .ok k') :
    PidsUnique k' := by
  rcases wait_cases hw with ⟨c, -, -, rfl⟩ | rfl | ⟨-, hs⟩
  · exact h.reap c
  · exact h
  · exact h.sleep hon hs

/-- `fork` writes `nextpid` into the free slot it takes, and moves `nextpid` on. -/
theorem fork (h : PidsUnique k) (kallocOk copyOk : Bool) :
    PidsUnique (Xv6Stride.fork stride_scheduler k kallocOk copyOk) := by
  rcases fork_pid stride_scheduler k kallocOk copyOk with hf | ⟨n, hfree, hother, hpid, hnext⟩
  · rw [hf]
    exact h
  have hpos := h.nextpid_pos
  refine ⟨by rw [hnext]; omega, fun i => ?_, fun i hu => ?_, fun i j hi hj => ?_⟩
  · rw [hnext]
    by_cases hin : i = n
    · subst hin
      rw [hpid]
      omega
    · rw [hother i hin]
      have := h.lt i
      omega
  · by_cases hin : i = n
    · subst hin
      rw [hpid]
      exact h.nextpid_pos
    · rw [hother i hin] at hu ⊢
      exact h.pos i hu
  · -- the new pid is above every old one
    by_cases hin : i = n <;> by_cases hjn : j = n
    · rw [hin, hjn]
    · subst hin
      rw [hother j hjn, hpid] at hj
      exact absurd hj (ne_of_lt (h.lt j))
    · subst hjn
      rw [hother i hin, hpid] at hj
      exact absurd hj.symm (ne_of_lt (h.lt i))
    · rw [hother i hin] at hi hj
      rw [hother j hjn] at hj
      exact h.inj i j hi hj

/-- A turn of `sched_RR` marks a runnable slot `RUNNING`. -/
theorem schedRR (h : PidsUnique k) : PidsUnique (Xv6Stride.schedRR k) := by
  cases hn : nextRunnable k with
  | none =>
    rw [schedRR_of_none hn]
    exact h.congr (fun _ => ⟨rfl, id⟩) rfl
  | some j =>
    rw [schedRR_of_some hn]
    refine h.congr (fun i => ?_) rfl
    by_cases hi : i = j
    · subst hi
      simp only [Function.update_self]
      exact ⟨rfl, fun _ => by rw [(nextRunnable_eq_some_iff.mp hn).2.1]; decide⟩
    · simp only [Function.update_of_ne hi]
      exact ⟨rfl, id⟩

/-- A turn of `sched_stride` leaves the table and `nextpid` as they were. -/
theorem schedStride (h : PidsUnique k) : PidsUnique (Xv6Stride.schedStride k) := by
  by_cases hpos : 0 < k.scanned.size
  · obtain ⟨-, hp, -, -, -, hn⟩ := schedStride_of_pos hpos
    exact h.congr (fun i => by rw [hp]; exact ⟨rfl, id⟩) hn
  · have hnone : ∀ i, (k.ptable i).state ≠ .RUNNABLE := fun i hi =>
      hpos (scanned_least ⟨i, hi⟩).1
    rw [schedStride_of_none hnone]
    exact h.congr (fun _ => ⟨rfl, id⟩) rfl

/-- Under an invariant of runs that puts a running process on the CPU, the invariant holds along
the runs too. -/
theorem stepInvariant {I : Kernel → Prop} (hI : StepInvariant stride_scheduler I)
    (hon : ∀ k, I k → k.OnCpu) : StepInvariant stride_scheduler fun k => I k ∧ PidsUnique k where
  schedule k h hc := by
    refine ⟨hI.schedule k h.1 hc, ?_⟩
    cases stride_scheduler
    · exact h.2.schedRR
    · exact h.2.schedStride
  wakeup k chan h := ⟨hI.wakeup k chan h.1, h.2.touched (touched_wakeup1 k chan)⟩
  tick k h := ⟨hI.tick k h.1, h.2.congr (fun _ => ⟨rfl, id⟩) rfl⟩
  yield k k' h hy := ⟨hI.yield k k' h.1 hy, h.2.yield (hon k h.1) hy⟩
  exit k k' h he := ⟨hI.exit k k' h.1 he, h.2.exit (hon k h.1) he⟩
  wait k k' h hw := ⟨hI.wait k k' h.1 hw, h.2.wait (hon k h.1) hw⟩
  sleep k chan k' h hs := ⟨hI.sleep k chan k' h.1 hs, h.2.sleep (hon k h.1) hs⟩
  fork k kallocOk copyOk h hc := ⟨hI.fork k kallocOk copyOk h.1 hc, h.2.fork kallocOk copyOk⟩
  kill k pid h := ⟨hI.kill k pid h.1, h.2.touched (touched_kill k pid)⟩

/-- The scan of `kill(pid)` over the table stops at the one slot that holds a pid other
than `0`. -/
theorem firstSlot_pid (h : PidsUnique k) {i : Fin NPROC} (hi : (k.ptable i).pid ≠ 0) :
    firstSlot k (fun p => p.pid = (k.ptable i).pid) = some i := by
  cases hf : firstSlot k fun p => p.pid = (k.ptable i).pid with
  | none => exact absurd rfl (firstSlot_none hf i)
  | some j => rw [h.inj i j hi (firstSlot_spec hf)]

end PidsUnique

/-- `userinit` gives `initproc` pid `1`; every other slot holds `0`. -/
theorem pidsUnique_boot (stride_scheduler : Bool) (heapArr : ℕ → Proc) :
    PidsUnique (userinit stride_scheduler (boot heapArr)) := by
  have hslot : ∀ i : Fin NPROC, i ≠ 0 →
      ((userinit stride_scheduler (boot heapArr)).ptable i).pid = 0 ∧
        ((userinit stride_scheduler (boot heapArr)).ptable i).state = .UNUSED := by
    intro i hi
    rw [userinit_boot]
    simp [Function.update_of_ne hi, boot, Proc.zero]
  have h0 : ((userinit stride_scheduler (boot heapArr)).ptable 0).pid = 1 := by
    rw [userinit_boot]
    cases stride_scheduler <;> simp [initStride]
  have hn : (userinit stride_scheduler (boot heapArr)).nextpid = 2 := by
    rw [userinit_boot]
  refine ⟨by rw [hn]; decide, fun i => ?_, fun i hu => ?_, fun i j hi hj => ?_⟩
  · rw [hn]
    by_cases hi : i = 0
    · rw [hi, h0]
      decide
    · rw [(hslot i hi).1]
      decide
  · by_cases hi : i = 0
    · rw [hi, h0]
      decide
    · exact absurd (hslot i hi).2 hu
  · -- only `initproc` holds a pid other than `0`
    have hi0 : i = 0 := by
      by_contra hi0
      exact hi (hslot i hi0).1
    subst hi0
    by_contra hj0
    rw [(hslot j hj0).1, h0] at hj
    exact absurd hj (by decide)

/-- Every reachable state, under either scheduler, has unique pids. -/
theorem reachable_pidsUnique {stride_scheduler : Bool} {k : Kernel}
    (hk : Reachable stride_scheduler k) : PidsUnique k := by
  cases stride_scheduler
  · exact ((PidsUnique.stepInvariant RRInv.stepInvariant fun _ h => h.on_cpu).reachable
      (fun heapArr => ⟨rrInv_boot heapArr, pidsUnique_boot false heapArr⟩) hk).2
  · exact ((PidsUnique.stepInvariant StrideInv.stepInvariant
      fun _ h c hc => absurd hc (h.cpu_ne_slot c)).reachable
      (fun heapArr => ⟨strideInv_boot heapArr, pidsUnique_boot true heapArr⟩) hk).2

/-- From `k` to `k'`, `nextpid` does not fall, and each slot keeps its pid, holds `0`, or holds a
pid given after `k`. -/
def Kernel.PidsAfter (k k' : Kernel) : Prop :=
  k.nextpid ≤ k'.nextpid ∧ ∀ j, (k'.ptable j).pid = (k.ptable j).pid ∨ (k'.ptable j).pid = 0 ∨
    k.nextpid ≤ (k'.ptable j).pid

namespace Kernel.PidsAfter

variable {k k₁ k' : Kernel}

/-- A kernel has no pid given after itself. -/
theorem refl (k : Kernel) : k.PidsAfter k := ⟨le_rfl, fun _ => .inl rfl⟩

/-- Pids given after a later state are given after an earlier one: the relation composes along a
run. -/
theorem trans (h₁ : k.PidsAfter k₁) (h₂ : k₁.PidsAfter k') : k.PidsAfter k' := by
  refine ⟨h₁.1.trans h₂.1, fun j => ?_⟩
  rcases h₂.2 j with h | h | h
  · rw [h]
    exact h₁.2 j
  · exact .inr (.inl h)
  · exact .inr (.inr (h₁.1.trans h))

/-- A change that keeps every pid and `nextpid`. -/
theorem of_pids (hp : ∀ j, (k'.ptable j).pid = (k.ptable j).pid) (hn : k'.nextpid = k.nextpid) :
    k.PidsAfter k' :=
  ⟨hn.ge, fun j => .inl (hp j)⟩

/-- A write that keeps the pid of a record keeps every pid. -/
theorem write {p : Ptr} {f : Proc → Proc} (hf : ∀ q, (f q).pid = q.pid) :
    k.PidsAfter (k.write p f) :=
  .of_pids (Kernel.write_ptable_field Proc.pid hf) (Kernel.write_nextpid ..)

/-- Touching the slots keeps every pid. -/
theorem touched (ht : k.Touched k') : k.PidsAfter k' :=
  .of_pids (fun j => (ht.slot j).pid_eq) ht.nextpid_eq

end Kernel.PidsAfter

section After

variable {stride_scheduler : Bool} {k k' : Kernel}

/-- The scheduler's return writes its accounting and keeps every pid. -/
theorem pidsAfter_strideReturn (k : Kernel) : k.PidsAfter (strideReturn k) :=
  (Kernel.PidsAfter.write (p := k.cpu) (f := fun q => { q with last_interrupted := getticks k })
    fun _ => rfl).trans (Kernel.PidsAfter.write (p := k.cpu)
    (f := fun q => { q with runtime := q.runtime + (q.last_interrupted - q.last_scheduled) })
    fun _ => rfl)

/-- `sched` keeps every pid: it saves a context, and under `STRIDE` writes its accounting. -/
theorem pidsAfter_sched (hs : sched stride_scheduler k = .ok k') : k.PidsAfter k' := by
  obtain ⟨-, rfl⟩ := sched_eq_ok.mp hs
  have hsave : k.PidsAfter (k.write k.cpu fun q => { q with context := k.nextctx }) :=
    .write fun _ => rfl
  cases stride_scheduler
  · exact hsave
  · exact hsave.trans (pidsAfter_strideReturn _)

/-- A process that writes its own record and leaves the CPU through `sched`. -/
theorem pidsAfter_release {f : Proc → Proc} (hf : ∀ q, (f q).pid = q.pid)
    (hs : sched stride_scheduler (k.write k.cpu f) = .ok k') : k.PidsAfter k' :=
  (Kernel.PidsAfter.write hf).trans (pidsAfter_sched hs)

/-- `sleep` keeps every pid. -/
theorem pidsAfter_sleep {chan : Chan} (hs : sleep stride_scheduler k chan = .ok k') :
    k.PidsAfter k' :=
  pidsAfter_release (f := fun q => { q with chan := chan, state := .SLEEPING }) (fun _ => rfl)
    (sleep_eq_ok.mp hs).2

/-- `exit` keeps every pid: it touches the slots and marks its caller `ZOMBIE`. -/
theorem pidsAfter_exit (he : exit stride_scheduler k = .ok k') : k.PidsAfter k' := by
  obtain ⟨-, k₁, ht, hs⟩ := exit_cases he
  exact (Kernel.PidsAfter.touched ht).trans
    (pidsAfter_release (f := fun q => { q with state := .ZOMBIE }) (fun _ => rfl) hs)

/-- `wait`'s reaping gives the freed slot pid `0`. -/
theorem pidsAfter_reap (k : Kernel) (c : Fin NPROC) : k.PidsAfter (reap k c) := by
  refine ⟨le_rfl, fun j => ?_⟩
  by_cases hj : j = c
  · subst hj
    simp [reap]
  · rw [reap, Kernel.write_slot_ptable_of_ne hj]
    exact .inl rfl

/-- `wait` reaps, returns, or sleeps: only the reaped slot's pid changes, to `0`. -/
theorem pidsAfter_wait (hw : wait stride_scheduler k = .ok k') : k.PidsAfter k' := by
  rcases wait_cases hw with ⟨c, -, -, rfl⟩ | rfl | ⟨-, hs⟩
  · exact pidsAfter_reap k c
  · exact .refl _
  · exact pidsAfter_sleep hs

/-- `fork` gives the slot it takes `nextpid`, and moves `nextpid` on. -/
theorem pidsAfter_fork (stride_scheduler : Bool) (k : Kernel) (kallocOk copyOk : Bool) :
    k.PidsAfter (fork stride_scheduler k kallocOk copyOk) := by
  rcases fork_pid stride_scheduler k kallocOk copyOk with hf | ⟨n, -, hother, hpid, hnext⟩
  · rw [hf]
    exact .refl _
  refine ⟨by rw [hnext]; omega, fun j => ?_⟩
  by_cases hj : j = n
  · subst hj
    exact .inr (.inr hpid.ge)
  · exact .inl (by rw [hother j hj])

/-- A turn of `sched_RR` keeps every pid: it marks a slot `RUNNING`. -/
theorem pidsAfter_schedRR (k : Kernel) : k.PidsAfter (schedRR k) := by
  cases hn : nextRunnable k with
  | none =>
    rw [schedRR_of_none hn]
    exact .of_pids (fun _ => rfl) rfl
  | some i =>
    rw [schedRR_of_some hn]
    refine .of_pids (fun j => ?_) rfl
    by_cases hj : j = i
    · subst hj
      simp
    · simp [Function.update_of_ne hj]

/-- A turn of `sched_stride` keeps every pid: it writes the heap only. -/
theorem pidsAfter_schedStride (k : Kernel) : k.PidsAfter (schedStride k) := by
  by_cases hpos : 0 < k.scanned.size
  · obtain ⟨-, hp, -, -, -, hn⟩ := schedStride_of_pos hpos
    exact .of_pids (fun j => by rw [hp]) hn
  · have hnone : ∀ i, (k.ptable i).state ≠ .RUNNABLE := fun i hi =>
      hpos (scanned_least ⟨i, hi⟩).1
    rw [schedStride_of_none hnone]
    exact .of_pids (fun _ => rfl) rfl

/-- A timer tick keeps every pid: it wakes, then exits or yields its process. -/
theorem pidsAfter_timer {user : Bool} (h : timer stride_scheduler k user = .ok k') :
    k.PidsAfter k' := by
  have htick : k.PidsAfter { k with ticks := k.ticks + 1 } := .of_pids (fun _ => rfl) rfl
  have hw : k.PidsAfter (wakeup1 { k with ticks := k.ticks + 1 } .ticks) :=
    htick.trans (.touched (touched_wakeup1 _ _))
  rcases timer_cases h with ⟨-, h⟩ | ⟨-, h⟩ | rfl
  · exact hw.trans (pidsAfter_exit h)
  · exact hw.trans (pidsAfter_release (f := fun q => { q with state := .RUNNABLE }) (fun _ => rfl) h)
  · exact hw

/-- A system call whose call gives pids only after its start, with the exit of a killed caller
around it, does the same. -/
theorem pidsAfter_syscall {call : Kernel → Except String Kernel}
    (hcall : ∀ k₁, call k = .ok k₁ → k.PidsAfter k₁)
    (h : syscall stride_scheduler k call = .ok k') : k.PidsAfter k' := by
  rcases syscall_cases h with h | ⟨k₁, hk₁, ⟨-, h⟩ | rfl⟩
  · exact pidsAfter_exit h
  · exact (hcall k₁ hk₁).trans (pidsAfter_exit h)
  · exact hcall _ hk₁

/-- Every event gives pids only after the state it starts from. -/
theorem pidsAfter_step {e : Event} (h : step stride_scheduler k e = some k') : k.PidsAfter k' := by
  rcases step_cases h with ⟨-, -, rfl⟩ | ⟨user, -, h⟩ | ⟨chan, -, rfl⟩ | ⟨-, call, h, hcall⟩
  · cases stride_scheduler
    · exact pidsAfter_schedRR k
    · exact pidsAfter_schedStride k
  · exact pidsAfter_timer h
  · exact .touched (touched_wakeup1 k chan)
  · refine pidsAfter_syscall (fun k₁ hk₁ => ?_) h
    rcases hcall k₁ hk₁ with ⟨a, c, -, rfl⟩ | ⟨-, hk₁⟩ | ⟨-, hk₁⟩ | ⟨chan, -, hk₁⟩ | ⟨pid, -, rfl⟩
    · exact pidsAfter_fork stride_scheduler k a c
    · exact pidsAfter_exit hk₁
    · exact pidsAfter_wait hk₁
    · exact pidsAfter_sleep hk₁
    · exact .touched (touched_kill k pid)

/-- Along a run, by induction on its steps. -/
theorem pidsAfter_run
    (h : Relation.ReflTransGen (fun k₁ k₂ => ∃ e, step stride_scheduler k₁ e = some k₂) k k') :
    k.PidsAfter k' := by
  induction h with
  | refl => exact .refl _
  | tail _ hs ih =>
    obtain ⟨e, hs⟩ := hs
    exact ih.trans (pidsAfter_step hs)

/-- A run of a list of events is a run of steps. -/
theorem run_reflTransGen {es : List Event} (h : run stride_scheduler k es = some k') :
    Relation.ReflTransGen (fun k₁ k₂ => ∃ e, step stride_scheduler k₁ e = some k₂) k k' := by
  induction es generalizing k with
  | nil =>
    cases h
    exact .refl
  | cons e es ih =>
    obtain ⟨k₁, hs, hr⟩ := Option.bind_eq_some_iff.mp h
    exact .head ⟨e, hs⟩ (ih hr)

end After

/-- From `rrForked`: the first child runs and exits, `initproc` reaps it in `wait` and forks
again, and `allocproc` gives the freed slot `1` to the new child. -/
def rrReforked : Kernel :=
  (run false rrForked [.timer false, .schedule, .exit, .schedule, .timer false, .schedule,
    .schedule, .wait, .fork true true]).getD rrForked

set_option maxRecDepth 4000 in
/-- The run that `rrReforked` names happens. -/
theorem rrReforked_run :
    run false rrForked [.timer false, .schedule, .exit, .schedule, .timer false, .schedule,
      .schedule, .wait, .fork true true] = some rrReforked :=
  run_eq_getD (by decide)

end Xv6Stride
