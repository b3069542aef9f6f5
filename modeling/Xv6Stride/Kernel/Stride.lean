import Xv6Stride.Kernel.Sched

/-!
# The stride scheduler over whole runs

`sched_stride` chooses well. One scan of the table from an empty heap puts at the root a copy of
the runnable slot least in `(pass, runtime, pid)`, and `c->proc` then designates that copy, marked
`RUNNING` (`sched_stride_select`).

What it does with the choice is where runs go wrong: it dispatches the copy. `c->proc` is
`&heap.arr[0]`, so the process's own writes (`RUNNABLE` in `yield`, `SLEEPING` in `sleep`,
`ZOMBIE` in `exit`), the context that `sched` saves, and the scheduler's `runtime` accounting all
land in the heap, and the table never learns of them. No code raises `pass` at all.

`StrideInv` is what follows for the table over every run from `userinit`: a slot is only ever
`UNUSED` or `RUNNABLE`, the `pass` and `runtime` of a runnable slot stay `0`, and `initproc`, in
slot `0` with pid `1`, keeps the context that `allocproc` gave it. Every event keeps it
(`StrideInv.stepInvariant`), so every reachable state has it (`reachable_strideInv`), and every dispatch
of every run then takes slot `0` (`stride_dispatches_init`): the first process runs forever, from
its first context, whatever it does.

Proof plan: the table functions only touch slots (`Kernel.Touched`), the writes through
`c->proc` go to the heap, and `fork` fills one free slot (`fork_cases`). One lemma for each
function of `Sched.lean` carries the invariant across it; these are the obligations of
`StepInvariant`, whose rule does the case split on the event and the induction over runs.
-/

namespace Xv6Stride

variable {k k' : Kernel}

/-! ## The choice of `sched_stride` -/

/-- The slots that `sched_stride` scans: `List.ofFn` of the table has `NPROC` records. -/
theorem length_ofFn_ptable (k : Kernel) : (List.ofFn k.ptable).length ≤ NPROC := by simp

/-- With a runnable slot, the scan's root is a copy of a runnable slot at or before every
runnable slot. -/
theorem scanned_least (hrun : ∃ i, (k.ptable i).state = .RUNNABLE) :
    0 < k.scanned.size ∧ ∃ i, (k.ptable i).state = .RUNNABLE ∧ k.scanned.arr 0 = k.ptable i ∧
      ∀ j, (k.ptable j).state = .RUNNABLE → (k.ptable i).key ≤ (k.ptable j).key := by
  obtain ⟨i₀, hi₀⟩ := hrun
  obtain ⟨hpos, hmem, -⟩ :=
    scan_root_mem k.heap.arr (length_ofFn_ptable k) (List.mem_ofFn.mpr ⟨i₀, rfl⟩) hi₀
  have hle := (scan_root k.heap.arr (length_ofFn_ptable k)).2
  -- the root is a record of the table: name its slot
  obtain ⟨i, hi⟩ := List.mem_ofFn.mp hmem
  have hroot : k.scanned.arr 0 = k.ptable i := hi.symm
  have hrun : (k.ptable i).state = .RUNNABLE := by
    rw [← hroot]
    exact (scan_root_mem k.heap.arr (length_ofFn_ptable k) (List.mem_ofFn.mpr ⟨i₀, rfl⟩) hi₀).2.2
  refine ⟨hpos, i, hrun, hroot, fun j hj => ?_⟩
  rw [← hroot]
  exact hle _ (List.mem_ofFn.mpr ⟨j, rfl⟩) hj

/-- Without a runnable slot the scan pushes nothing: the heap is the old one, emptied. -/
theorem scanned_of_none (h : ∀ i, (k.ptable i).state ≠ .RUNNABLE) :
    k.scanned = { k.heap with size := 0, size_le := Nat.zero_le _ } := by
  have hnil : ((List.ofFn k.ptable).filter fun p => p.state = .RUNNABLE) = [] := by
    rw [List.filter_eq_nil_iff]
    intro p hp
    obtain ⟨i, rfl⟩ := List.mem_ofFn.mp hp
    simpa using h i
  rw [Kernel.scanned, scan_eq_pushes, hnil]
  rfl

/-- A dispatch: `c->proc` is the heap's root, which holds the chosen copy marked `RUNNING`, the
CPU resumes the context in the copy, and the table is left as it was. -/
theorem schedStride_of_pos (h : 0 < k.scanned.size) :
    let k' := schedStride k
    k'.cpu = .heap 0 ∧ k'.ptable = k.ptable ∧
      k'.heap.arr 0 = { k.scanned.arr 0 with state := .RUNNING, last_scheduled := getticks k } ∧
      k'.resumed = (k.scanned.arr 0).context ∧ k'.initproc = k.initproc ∧
      k'.nextpid = k.nextpid := by
  simp [schedStride, h, getmin, Kernel.write, Kernel.deref, getticks]

/-- With nothing to run, a turn of `sched_stride` only empties its heap. -/
theorem schedStride_of_none (h : ∀ i, (k.ptable i).state ≠ .RUNNABLE) :
    schedStride k = { k with heap := { k.heap with size := 0, size_le := Nat.zero_le _ } } := by
  have hsize : ¬ 0 < k.scanned.size := by simp [scanned_of_none h]
  simp only [schedStride, if_neg hsize]
  rw [scanned_of_none h]

/-- One turn of `sched_stride` over a table whose runnable slots have distinct pids. With a
runnable slot, the root of its heap is a copy of the runnable slot least under `compare`, the
only one; `c->proc` points at that root, so what it designates is the least slot's record marked
`RUNNING` and stamped with the tick, the CPU resumes the least slot's context, and the table is
left as it was. With none, the turn dispatches nothing and only empties its heap. -/
theorem sched_stride_select (k : Kernel)
    (hpid : ∀ i j, (k.ptable i).state = .RUNNABLE → (k.ptable j).state = .RUNNABLE →
      (k.ptable i).pid = (k.ptable j).pid → i = j) :
    ((∃ i, (k.ptable i).state = .RUNNABLE) →
      ∃ i, (k.ptable i).state = .RUNNABLE ∧
        (∀ j, (k.ptable j).state = .RUNNABLE → compare (k.ptable i) (k.ptable j) ≤ 0) ∧
        (∀ j, (k.ptable j).state = .RUNNABLE →
          (∀ l, (k.ptable l).state = .RUNNABLE → compare (k.ptable j) (k.ptable l) ≤ 0) → j = i) ∧
        0 < k.scanned.size ∧ k.scanned.arr 0 = k.ptable i ∧
        (schedStride k).cpu = .heap 0 ∧
        (schedStride k).deref (schedStride k).cpu =
          { k.ptable i with state := .RUNNING, last_scheduled := getticks k } ∧
        (schedStride k).resumed = (k.ptable i).context ∧ (schedStride k).ptable = k.ptable) ∧
    ((∀ i, (k.ptable i).state ≠ .RUNNABLE) →
      schedStride k = { k with heap := { k.heap with size := 0, size_le := Nat.zero_le _ } }) := by
  refine ⟨fun hrun => ?_, schedStride_of_none⟩
  obtain ⟨hpos, i, hi, hroot, hmin⟩ := scanned_least hrun
  obtain ⟨hcpu, hptable, harr, hres, -, -⟩ := schedStride_of_pos hpos
  refine ⟨i, hi, fun j hj => compare_nonpos_iff.mpr (hmin j hj), ?_, hpos, hroot, hcpu, ?_,
    hroot ▸ hres, hptable⟩
  · -- two least records have equal keys, hence equal pids, hence are one slot
    intro j hj hjmin
    have hij : (k.ptable i).key ≤ (k.ptable j).key := hmin j hj
    have hji : (k.ptable j).key ≤ (k.ptable i).key := compare_nonpos_iff.mp (hjmin i hi)
    exact hpid j i hj hi (pid_eq_of_key_eq (le_antisymm hji hij))
  · -- `c->proc` designates the heap's root, which holds the copy
    rw [hcpu, ← hroot]
    exact harr

/-- The state after `userinit` under `STRIDE`, with the scheduler's stack zero-filled. -/
def strideInit : Kernel := userinit true (boot fun _ => Proc.zero)

/-- `initproc` runs and forks a child, and the timer preempts it: slots `0` and `1` are runnable,
with pids `1` and `2` and the same `pass` and `runtime`. -/
def strideForked : Kernel :=
  (run true strideInit [.schedule, .fork true true, .timer true]).getD strideInit

/-- The run that `strideForked` names happens. -/
theorem strideForked_run :
    run true strideInit [.schedule, .fork true true, .timer true] = some strideForked :=
  run_eq_getD (by decide +kernel)

/-- On a tie in `pass` and `runtime` the turn breaks it by pid: `c->proc` designates the copy of
slot `0`, the slot of pid `1`, marked `RUNNING`. -/
theorem sched_stride_select_tie :
    (strideForked.ptable 1).state = .RUNNABLE ∧
      (strideForked.ptable 0).pass = (strideForked.ptable 1).pass ∧
      (strideForked.ptable 0).runtime = (strideForked.ptable 1).runtime ∧
      (schedStride strideForked).deref (schedStride strideForked).cpu =
        { strideForked.ptable 0 with state := .RUNNING, last_scheduled := getticks strideForked } := by
  -- slots `0` and `1` are the runnable ones; slot `0` is least, by its pid
  obtain ⟨hpid, h0, h1, hleast, htie⟩ : (∀ i j, (strideForked.ptable i).state = .RUNNABLE →
      (strideForked.ptable j).state = .RUNNABLE →
      (strideForked.ptable i).pid = (strideForked.ptable j).pid → i = j) ∧
      (strideForked.ptable 0).state = .RUNNABLE ∧ (strideForked.ptable 1).state = .RUNNABLE ∧
      (∀ l, (strideForked.ptable l).state = .RUNNABLE →
        compare (strideForked.ptable 0) (strideForked.ptable l) ≤ 0) ∧
      (strideForked.ptable 0).pass = (strideForked.ptable 1).pass ∧
      (strideForked.ptable 0).runtime = (strideForked.ptable 1).runtime := by
    decide +kernel
  obtain ⟨i, -, -, huniq, -, -, -, hderef, -, -⟩ :=
    (sched_stride_select strideForked hpid).1 ⟨0, h0⟩
  rw [hderef, ← huniq 0 h0 hleast]
  exact ⟨h1, htie.1, htie.2, rfl⟩

/-! ## The invariant of runs under `STRIDE` -/

/-- What every state of a run under `STRIDE` satisfies. -/
structure StrideInv (k : Kernel) : Prop where
  /-- `c->proc` is null, or the root cell of the scheduler's heap. -/
  cpu : k.cpu = .null ∨ k.cpu = .heap 0
  /-- No slot of the table is ever `EMBRYO`, `SLEEPING`, `RUNNING` or a `ZOMBIE`. -/
  state : ∀ i, (k.ptable i).state = .UNUSED ∨ (k.ptable i).state = .RUNNABLE
  /-- A runnable slot keeps the `pass` and `runtime` it was created with. -/
  zero : ∀ i, (k.ptable i).state = .RUNNABLE → (k.ptable i).pass = 0 ∧ (k.ptable i).runtime = 0
  /-- Live slots have distinct positive pids below `nextpid`. -/
  pids : PidsFresh k
  initproc : k.initproc = .slot 0
  /-- Slot `0` is `initproc`: runnable, pid `1`, at the context `allocproc` gave it. -/
  init : (k.ptable 0).state = .RUNNABLE ∧ (k.ptable 0).pid = 1 ∧ (k.ptable 0).context = 1

namespace StrideInv

/-- Under the invariant `c->proc` designates no slot of the table. -/
theorem cpu_ne_slot (hinv : StrideInv k) (i : Fin NPROC) : k.cpu ≠ .slot i := by
  rcases hinv.cpu with h | h <;> rw [h] <;> simp

/-- The invariant reads the slots through what touching keeps, `initproc`, `nextpid` and
`c->proc`: touched slots keep it. -/
theorem of_touched (hinv : StrideInv k) (hs : ∀ i, (k.ptable i).Touched (k'.ptable i))
    (hi : k'.initproc = k.initproc) (hn : k'.nextpid = k.nextpid)
    (hc : k'.cpu = .null ∨ k'.cpu = .heap 0) : StrideInv k' := by
  -- no slot sleeps, so no slot changes its state
  have hst : ∀ i, (k'.ptable i).state = (k.ptable i).state := fun i =>
    (hs i).state_eq (by rcases hinv.state i with h | h <;> rw [h] <;> decide)
  refine ⟨hc, fun i => hst i ▸ hinv.state i, fun i hr => ?_,
    hinv.pids.mono (fun i hl => ⟨hst i ▸ hl, (hs i).pid_eq⟩) hn, hi ▸ hinv.initproc, ?_⟩
  · rw [(hs i).pass_eq, (hs i).runtime_eq]
    exact hinv.zero i (hst i ▸ hr)
  · rw [hst, (hs 0).pid_eq, (hs 0).context_eq]
    exact hinv.init

/-- A state with the same table, `initproc` and `nextpid`, and `c->proc` null or the root, keeps the
invariant. -/
theorem of_ptable_eq (hinv : StrideInv k) (hp : k'.ptable = k.ptable)
    (hi : k'.initproc = k.initproc) (hn : k'.nextpid = k.nextpid)
    (hc : k'.cpu = .null ∨ k'.cpu = .heap 0) : StrideInv k' :=
  hinv.of_touched (fun _ => hp ▸ .refl _) hi hn hc

/-- Touching the slots keeps the invariant: no slot sleeps, so none is woken. -/
theorem touched (hinv : StrideInv k) (h : k.Touched k') : StrideInv k' :=
  hinv.of_touched h.slot h.initproc_eq h.nextpid_eq (h.cpu_eq ▸ hinv.cpu)

/-- A write through `c->proc` goes to the heap. -/
theorem write_cpu (hinv : StrideInv k) (f : Proc → Proc) : StrideInv (k.write k.cpu f) :=
  hinv.of_ptable_eq (Kernel.write_ptable_of_ne_slot hinv.cpu_ne_slot) (by simp) (by simp)
    (by simpa using hinv.cpu)

/-- The scheduler's return charges the heap's root and clears `c->proc`. -/
theorem strideReturn (hinv : StrideInv k) : StrideInv (strideReturn k) :=
  hinv.of_ptable_eq
    (by simp [Xv6Stride.strideReturn, Kernel.write_ptable_of_ne_slot hinv.cpu_ne_slot])
    (by simp [Xv6Stride.strideReturn]) (by simp [Xv6Stride.strideReturn])
    (by simp [Xv6Stride.strideReturn])

/-- `sched` keeps the invariant: it saves the context in the heap, and the scheduler's return
charges the heap's root. -/
theorem sched (hinv : StrideInv k) (h : sched true k = .ok k') : StrideInv k' := by
  obtain ⟨-, rfl⟩ := sched_eq_ok.mp h
  -- `sched` saves the context through `c->proc`, then the scheduler returns
  have hsave := hinv.write_cpu fun q => { q with context := k.nextctx }
  simp only [if_true]
  apply StrideInv.strideReturn
  exact hsave.of_ptable_eq rfl rfl rfl hsave.cpu

/-- `yield` keeps the invariant: its `RUNNABLE` goes to the heap copy. -/
theorem yield (hinv : StrideInv k) (h : yield true k = .ok k') : StrideInv k' :=
  (hinv.write_cpu _).sched h

/-- `sleep` keeps the invariant: its `SLEEPING` goes to the heap copy. -/
theorem sleep (hinv : StrideInv k) {chan : Chan} (h : sleep true k chan = .ok k') :
    StrideInv k' :=
  (hinv.write_cpu _).sched (sleep_eq_ok.mp h).2

/-- `exit` keeps the invariant: the loop only touches slots, and its `ZOMBIE` goes to the heap copy.
-/
theorem exit (hinv : StrideInv k) (h : exit true k = .ok k') : StrideInv k' := by
  obtain ⟨-, k₁, ht, h⟩ := exit_cases h
  exact ((hinv.touched ht).write_cpu fun q => { q with state := .ZOMBIE }).sched h

/-- `wait` keeps the invariant: no slot is a zombie, so it returns or sleeps. -/
theorem wait (hinv : StrideInv k) (h : wait true k = .ok k') : StrideInv k' := by
  rcases wait_cases h with ⟨i, -, hz, -⟩ | rfl | ⟨-, h⟩
  -- no slot is a zombie, so there is no child to reap
  · rcases hinv.state i with hs | hs <;> rw [hs] at hz <;> cases hz
  · exact hinv
  · exact hinv.sleep h

/-- `fork` fills a free slot other than `initproc`'s, with a `pass` and `runtime` of `0`. -/
theorem fork (hinv : StrideInv k) (kallocOk copyOk : Bool) :
    StrideInv (fork true k kallocOk copyOk) := by
  rcases fork_cases true k kallocOk copyOk with h | ⟨i, hfree, hother, hrest, hnew⟩
  · rw [h]
    exact hinv
  set k' := Xv6Stride.fork true k kallocOk copyOk
  have hcpu : k'.cpu = k.cpu := (congrArg Kernel.cpu hrest :)
  have hinit : k'.initproc = k.initproc := (congrArg Kernel.initproc hrest :)
  -- slot `0` is runnable, so the free slot is another one
  have hi0 : (0 : Fin NPROC) ≠ i := by
    rintro rfl
    rw [hinv.init.1] at hfree
    cases hfree
  refine ⟨hcpu ▸ hinv.cpu, fun j => ?_, fun j hr => ?_, hinv.pids.fork true kallocOk copyOk,
    hinit ▸ hinv.initproc, ?_⟩
  · by_cases hj : j = i
    · subst hj
      rcases hnew with ⟨hu, -⟩ | ⟨hr, -⟩
      · exact .inl hu
      · exact .inr hr
    · rw [hother j hj]
      exact hinv.state j
  · by_cases hj : j = i
    · subst hj
      -- the new slot, when runnable, has fresh stride fields
      rcases hnew with ⟨hu, -⟩ | ⟨-, -, hz, -⟩
      · rw [hu] at hr
        cases hr
      · exact hz rfl
    · rw [hother j hj] at hr ⊢
      exact hinv.zero j hr
  · rw [hother 0 hi0]
    exact hinv.init

/-- `kill` keeps the invariant: it only touches slots. -/
theorem kill (hinv : StrideInv k) (pid : ℤ) : StrideInv (kill k pid) :=
  hinv.touched (touched_kill k pid)

/-- A turn of `sched_stride` keeps the invariant: it writes the heap, never the table. -/
theorem schedStride (hinv : StrideInv k) : StrideInv (schedStride k) := by
  by_cases hpos : 0 < k.scanned.size
  · obtain ⟨hc, hp, -, -, hi, hn⟩ := schedStride_of_pos hpos
    exact hinv.of_ptable_eq hp hi hn (.inr hc)
  · have hnone : ∀ i, (k.ptable i).state ≠ .RUNNABLE := fun i hi =>
      hpos (scanned_least ⟨i, hi⟩).1
    rw [schedStride_of_none hnone]
    exact hinv.of_ptable_eq rfl rfl rfl hinv.cpu

/-- The invariant is one of runs: each function that an event runs keeps it. -/
theorem stepInvariant : StepInvariant true StrideInv where
  schedule _ hinv _ := hinv.schedStride
  wakeup k chan hinv := hinv.touched (touched_wakeup1 k chan)
  -- the tick changes `ticks` alone
  tick _ hinv := hinv.of_ptable_eq rfl rfl rfl hinv.cpu
  yield _ _ hinv := hinv.yield
  exit _ _ hinv := hinv.exit
  wait _ _ hinv := hinv.wait
  sleep _ _ _ hinv := hinv.sleep
  fork _ kallocOk copyOk hinv _ := hinv.fork kallocOk copyOk
  kill _ pid hinv := hinv.kill pid

end StrideInv

/-- `userinit` on the zero-filled table puts `initproc` in slot `0`. -/
theorem strideInv_boot (heapArr : ℕ → Proc) : StrideInv (userinit true (boot heapArr)) := by
  have hk₀ := userinit_boot true heapArr
  set k₀ := userinit true (boot heapArr)
  -- slot `0` holds `initproc`, and every other slot is still zero-filled
  have hslot : ∀ i : Fin NPROC, i ≠ 0 → k₀.ptable i = Proc.zero := fun i hi => by
    simp [hk₀, Function.update_of_ne hi, boot]
  have hrun : ∀ i, (k₀.ptable i).state = .RUNNABLE → i = 0 := by
    intro i hi
    by_contra hne
    rw [hslot i hne] at hi
    cases hi
  refine ⟨by simp [hk₀, boot], fun i => ?_, fun i hi => ?_, pidsFresh_boot true heapArr,
    by simp [hk₀], by simp [hk₀, initStride]⟩
  · by_cases h0 : i = 0
    · subst h0
      simp [hk₀, initStride]
    · rw [hslot i h0]
      exact .inl rfl
  · obtain rfl := hrun i hi
    simp [hk₀, initStride]

/-- Every state of every run under `STRIDE` has the invariant. -/
theorem reachable_strideInv (hk : Reachable true k) : StrideInv k :=
  StrideInv.stepInvariant.reachable strideInv_boot hk

/-! ## Every dispatch runs `initproc` -/

/-- Under the invariant the scan's root is a copy of slot `0`: every runnable slot has `pass` and
`runtime` `0`, and slot `0` has the least pid. -/
theorem StrideInv.scanned_root (hinv : StrideInv k) :
    0 < k.scanned.size ∧ k.scanned.arr 0 = k.ptable 0 := by
  obtain ⟨hpos, i, hi, hroot, hmin⟩ := scanned_least ⟨0, hinv.init.1⟩
  refine ⟨hpos, ?_⟩
  -- the root's key `(0, 0, pid)` is at most slot `0`'s `(0, 0, 1)`, so its pid is `1`
  have hle := hmin 0 hinv.init.1
  obtain ⟨hp, hr⟩ := hinv.zero i hi
  obtain ⟨hp0, hr0⟩ := hinv.zero 0 hinv.init.1
  have hpid : (k.ptable i).pid ≤ 1 := by
    rw [Proc.key, Proc.key, hp, hr, hp0, hr0, hinv.init.2.1, le_iff_lt_or_eq, key_lt_iff,
      key_eq_iff] at hle
    omega
  have hpos := hinv.pids.pid_pos i (by rw [hi]; decide)
  have hi0 : i = 0 := hinv.pids.runnable_inj hi hinv.init.1 (by rw [hinv.init.2.1]; omega)
  rw [hroot, hi0]

/-- A turn of `sched_stride` under the invariant dispatches a copy of `initproc`'s slot:
`c->proc` is the heap's root, which holds slot `0` marked `RUNNING`, the CPU resumes context `1`,
and no slot of the table is `RUNNING`. -/
theorem StrideInv.dispatch (hinv : StrideInv k) :
    let k' := Xv6Stride.schedStride k
    k'.cpu = .heap 0 ∧
      k'.deref k'.cpu = { k.ptable 0 with state := .RUNNING, last_scheduled := getticks k } ∧
      k'.resumed = 1 ∧ ∀ i, (k'.ptable i).state ≠ .RUNNING := by
  obtain ⟨hpos, hroot⟩ := hinv.scanned_root
  obtain ⟨hc, hp, harr, hres, -, -⟩ := schedStride_of_pos hpos
  refine ⟨hc, ?_, ?_, fun i => ?_⟩
  · rw [hc, Kernel.deref, harr, hroot]
  · rw [hres, hroot, hinv.init.2.2]
  · rw [hp]
    rcases hinv.state i with h | h <;> rw [h] <;> decide

/-- Under `STRIDE`, every turn of the scheduler in every run from `userinit` switches to a copy
of `initproc` (pid `1`) and resumes its first context, whatever `initproc` did since; the table
never has a `RUNNING` slot, and the `pass` and `runtime` of a runnable slot never leave `0`. -/
theorem stride_dispatches_init (hk : Reachable true k) (hs : step true k .schedule = some k') :
    k'.cpu = .heap 0 ∧ (k'.deref k'.cpu).pid = 1 ∧ k'.resumed = 1 ∧
      ∀ i, (k'.ptable i).state ≠ .RUNNING ∧
        ((k'.ptable i).state = .RUNNABLE → (k'.ptable i).pass = 0 ∧ (k'.ptable i).runtime = 0) := by
  have hinv := reachable_strideInv hk
  have hinv' := reachable_strideInv (hk.step .schedule hs)
  have hk' : k' = schedStride k := by
    simp only [step, if_true] at hs
    split at hs
    · exact (Option.some.inj hs).symm
    · cases hs
  subst hk'
  obtain ⟨hc, hd, hres, hrun⟩ := hinv.dispatch
  refine ⟨hc, by rw [hd, hinv.init.2.1], hres, fun i => ⟨hrun i, hinv'.zero i⟩⟩

/-- The first turn of the scheduler after `userinit` runs `initproc` from the heap. -/
theorem stride_dispatches_init_boot :
    (schedStride strideInit).cpu = .heap 0 ∧
      ((schedStride strideInit).deref (schedStride strideInit).cpu).pid = 1 :=
  have h := stride_dispatches_init (k := strideInit) (.boot fun _ => Proc.zero) rfl
  ⟨h.1, h.2.1⟩

/-- `initproc` sleeps on a channel that nothing wakes. The dispatch leaves slot `0` `RUNNABLE`
with `c->proc` on the heap; the sleep and the context that `sched` saves (`2`) go to the heap
copy; the next turn switches to pid `1` again, into context `1`. -/
theorem stride_sleeper_redispatched :
    (run true strideInit [.schedule]).map (fun k => (k.cpu, (k.ptable 0).state)) =
      some (.heap 0, .RUNNABLE) ∧
    (run true strideInit [.schedule, .sleep (.other 0)]).map
        (fun k => ((k.heap.arr 0).state, (k.heap.arr 0).context, (k.ptable 0).state,
          (k.ptable 0).context)) =
      some (.SLEEPING, 2, .RUNNABLE, 1) ∧
    (run true strideInit [.schedule, .sleep (.other 0), .schedule]).map
        (fun k => (k.cpu, (k.deref k.cpu).pid, k.resumed)) = some (.heap 0, 1, 1) := by
  decide +kernel

/-- Two runnable processes of equal tickets, stride `128` and pass `0`: after `fork`, pid `1` is
dispatched at each of the next two turns and pid `2` at neither, and no `pass` leaves `0`. -/
theorem stride_pass_frozen :
    (run true strideInit [.schedule, .fork true true, .timer true]).map (fun k =>
        (k.cpu, (k.ptable 0).pid, (k.ptable 0).state, (k.ptable 0).stride, (k.ptable 0).pass)) =
      some (.null, 1, .RUNNABLE, 128, 0) ∧
    (run true strideInit [.schedule, .fork true true, .timer true]).map (fun k =>
        ((k.ptable 1).pid, (k.ptable 1).state, (k.ptable 1).stride, (k.ptable 1).pass)) =
      some (2, .RUNNABLE, 128, 0) ∧
    (run true strideInit [.schedule, .fork true true, .timer true, .schedule]).map
        (fun k => (k.deref k.cpu).pid) = some 1 ∧
    (run true strideInit
        [.schedule, .fork true true, .timer true, .schedule, .timer true, .schedule]).map
        (fun k => ((k.deref k.cpu).pid, (k.ptable 0).pass, (k.ptable 1).pass)) = some (1, 0, 0) := by
  decide +kernel

/-- One dispatch of pid `1` over one tick: the scheduler charges the tick to the heap copy, and
the `runtime` of slot `0` stays `0` while `ticks` is `1`. -/
theorem stride_runtime_lost :
    (run true strideInit [.schedule, .timer true]).map
        (fun k => (k.ticks, k.cpu, (k.heap.arr 0).pid, (k.heap.arr 0).runtime,
          (k.ptable 0).runtime)) =
      some (1, .null, 1, 1, 0) := by
  decide +kernel

end Xv6Stride
