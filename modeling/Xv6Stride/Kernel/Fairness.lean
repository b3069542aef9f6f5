import Mathlib.Data.List.Chain
import Xv6Stride.Kernel.Refinement

/-!
# Round robin is fair

`sched_RR` scans `ptable.proc` in order from where its last turn stopped, and a pass that finds
nothing runnable starts again from slot `0`. So a runnable process waits only for the slots that
the scan meets before it: under `sched_RR`, from every reachable state, a `RUNNABLE` slot `i` is
switched to within `turnsBefore i (nextTurn k) + 1` turns of the scheduler, and so within
`NPROC + 1`, whatever the processes do meanwhile (`rr_bounded_waiting`). `Stride.lean` shows
that `sched_stride` has no such bound, since it dispatches `initproc` at every turn.

Where the next turn starts (`nextTurn`) is `rr` while the scheduler runs. While a process runs it
is the slot after that process's slot, because `sched` returns to the loop's `p++`. Only a turn of
the scheduler moves it (`nextTurn_step`). Each other event either keeps `c->proc` and `rr`, or is
the running process leaving the CPU through `sched`. A turn that leaves `i` runnable has passed
over it, and the next turn starts one candidate closer to `i` in the cyclic order
(`turnsBefore_schedRR`). So turns and the distance left add up to at most the distance at the
start (`count_schedule_add_turnsBefore_le`). Under `sched_RR` a runnable slot leaves `RUNNABLE`
only when it is dispatched (`runnable_of_trace`).
-/

namespace Xv6Stride

/-! ## Distance in a cyclic scan -/

section Cyclic

variable {n : ℕ} {i : Fin n} {r j : ℕ}

/-- How many turns a scan of `n` slots in cyclic order takes from position `r` before it reaches
slot `i`, when each turn stops at some slot before `i` or, past the last slot, starts again from
`0`. -/
def turnsBefore (i : Fin n) (r : ℕ) : ℕ :=
  if r ≤ i.val then i.val - r else n - r + 1 + i.val

/-- No slot is more than `n` turns away. -/
theorem turnsBefore_le (i : Fin n) (r : ℕ) : turnsBefore i r ≤ n := by
  have hi := i.isLt
  unfold turnsBefore
  split <;> omega

/-- A turn from `r` that stops at a slot `j` before `i`, or at one after `r` when `i` is not,
leaves the scan closer to `i`. -/
theorem turnsBefore_succ_lt (hrj : r ≤ j) (hjn : j < n)
    (hpass : r ≤ i.val → j < i.val) : turnsBefore i (j + 1) < turnsBefore i r := by
  unfold turnsBefore
  by_cases hri : r ≤ i.val
  · have hj := hpass hri
    rw [if_pos hri, if_pos (by omega)]
    omega
  · rw [if_neg hri, if_neg (by omega)]
    omega

/-- A pass that ends beyond `i` starts again from `0`, which is closer to `i`. -/
theorem turnsBefore_zero_lt (hir : i.val < r) : turnsBefore i 0 < turnsBefore i r := by
  unfold turnsBefore
  rw [if_pos (Nat.zero_le _), if_neg (by omega)]
  omega

end Cyclic

/-! ## Where the next turn starts -/

/-- Where the next turn of `sched_RR` starts: at `rr` in the scheduler, and at the slot after the
running process's slot while that runs, since `sched` comes back to the loop's `p++`. -/
def nextTurn (k : Kernel) : ℕ :=
  if k.cpu = .null then k.rr else k.rr + 1

section Frame

variable {k k' : Kernel}

/-- Touching the slots keeps where the next turn starts. -/
theorem Kernel.Touched.nextTurn_eq (h : k.Touched k') : nextTurn k' = nextTurn k := by
  simp only [nextTurn, h.cpu_eq, h.rr_eq]

/-- A write through a pointer keeps where the next turn starts. -/
@[simp] theorem nextTurn_write (k : Kernel) (p : Ptr) (f : Proc → Proc) :
    nextTurn (k.write p f) = nextTurn k := by
  simp [nextTurn]

/-- `sched` from a process takes it off the CPU and moves the loop to the next slot, which is
where the next turn was to start. -/
theorem nextTurn_sched (hc : k.cpu ≠ .null) (h : sched false k = .ok k') :
    nextTurn k' = nextTurn k := by
  obtain ⟨-, rfl⟩ := sched_eq_ok.mp h
  simp [nextTurn, rrReturn, hc]

/-- `yield` of a running process keeps where the next turn starts: `sched` returns to the loop after
its slot. -/
theorem nextTurn_yield (hc : k.cpu ≠ .null) (h : yield false k = .ok k') :
    nextTurn k' = nextTurn k := by
  have h' := nextTurn_sched (by simpa using hc) h
  rwa [nextTurn_write] at h'

/-- `sleep` keeps where the next turn starts. -/
theorem nextTurn_sleep {chan : Chan} (h : sleep false k chan = .ok k') :
    nextTurn k' = nextTurn k := by
  obtain ⟨hc, hs⟩ := sleep_eq_ok.mp h
  have h' := nextTurn_sched (by simpa using hc) hs
  rwa [nextTurn_write] at h'

/-- `exit` of a running process keeps where the next turn starts. -/
theorem nextTurn_exit (hc : k.cpu ≠ .null) (h : exit false k = .ok k') :
    nextTurn k' = nextTurn k := by
  obtain ⟨-, k₁, ht, hs⟩ := exit_cases h
  have hc₁ : k₁.cpu ≠ .null := ht.cpu_eq ▸ hc
  rw [nextTurn_sched (by simpa using hc₁) hs, nextTurn_write, ht.nextTurn_eq]

/-- `wait` keeps where the next turn starts. -/
theorem nextTurn_wait (h : wait false k = .ok k') : nextTurn k' = nextTurn k := by
  rcases wait_cases h with ⟨i, -, -, rfl⟩ | rfl | ⟨-, h⟩
  · exact nextTurn_write _ _ _
  · rfl
  · exact nextTurn_sleep h

/-- `fork` keeps where the next turn starts. -/
theorem nextTurn_fork (k : Kernel) (kallocOk copyOk : Bool) :
    nextTurn (fork false k kallocOk copyOk) = nextTurn k := by
  rcases fork_cases false k kallocOk copyOk with h | ⟨-, -, -, hrest, -⟩
  · rw [h]
  · -- `fork` changes the table, `nextpid` and `nextctx` only
    have hc := congrArg Kernel.cpu hrest
    have hr := congrArg Kernel.rr hrest
    simp only at hc hr
    simp only [nextTurn, hc, hr]

/-- A timer tick keeps where the next turn starts: the tick and its wakeup touch the table only,
and a process that exits or yields leaves the CPU through `sched`. -/
theorem nextTurn_timer {user : Bool} (h : timer false k user = .ok k') :
    nextTurn k' = nextTurn k := by
  have hq : nextTurn (wakeup1 { k with ticks := k.ticks + 1 } .ticks) = nextTurn k := by
    rw [(touched_wakeup1 _ _).nextTurn_eq]
    simp [nextTurn]
  rcases timer_cases h with ⟨hc, h⟩ | ⟨hc, h⟩ | rfl
  · rw [nextTurn_exit (by exact hc) h, hq]
  · rw [nextTurn_yield (by exact hc) h, hq]
  · exact hq

/-- A system call whose call keeps where the next turn starts keeps it, with the exit of a killed
caller around it. -/
theorem nextTurn_syscall (hc : k.cpu ≠ .null) {call : Kernel → Except String Kernel}
    (hcall : ∀ k₁, call k = .ok k₁ → nextTurn k₁ = nextTurn k)
    (h : syscall false k call = .ok k') : nextTurn k' = nextTurn k := by
  rcases syscall_cases h with h | ⟨k₁, hk₁, ⟨hc₁, h⟩ | rfl⟩
  · exact nextTurn_exit hc h
  · rw [nextTurn_exit hc₁ h, hcall k₁ hk₁]
  · exact hcall _ hk₁

/-- Only a turn of `sched_RR` moves where the next turn starts. -/
theorem nextTurn_step {e : Event} (h : step false k e = some k') :
    (e = .schedule ∧ k.cpu = .null ∧ k' = schedRR k) ∨ nextTurn k' = nextTurn k := by
  rcases step_cases h with ⟨he, hc, rfl⟩ | ⟨user, -, h⟩ | ⟨chan, -, rfl⟩ | ⟨hc, call, h, hcall⟩
  · exact .inl ⟨he, hc, rfl⟩
  · exact .inr (nextTurn_timer h)
  · exact .inr (touched_wakeup1 k chan).nextTurn_eq
  · refine .inr (nextTurn_syscall hc (fun k₁ hk₁ => ?_) h)
    rcases hcall k₁ hk₁ with ⟨a, c, -, rfl⟩ | ⟨-, h⟩ | ⟨-, h⟩ | ⟨chan, -, h⟩ | ⟨pid, -, rfl⟩
    · exact nextTurn_fork k a c
    · exact nextTurn_exit hc h
    · exact nextTurn_wait h
    · exact nextTurn_sleep h
    · exact (touched_kill k pid).nextTurn_eq

end Frame

/-! ## A turn of the scheduler -/

section Turn

variable {k : Kernel} {i j : Fin NPROC}

/-- After a dispatch the next turn starts after the slot dispatched. -/
theorem nextTurn_schedRR_of_some (hf : nextRunnable k = some j) :
    nextTurn (schedRR k) = j.val + 1 := by
  simp [nextTurn, schedRR_of_some hf]

/-- After a turn that found nothing the next pass starts at slot `0`. -/
theorem nextTurn_schedRR_of_none (hc : k.cpu = .null) (hf : nextRunnable k = none) :
    nextTurn (schedRR k) = 0 := by
  simp [nextTurn, schedRR_of_none hf, hc]

/-- A turn of `sched_RR` that leaves a runnable slot `i` runnable has passed over it, and the
next turn starts closer to `i`. -/
theorem turnsBefore_schedRR (hc : k.cpu = .null) (hi : (k.ptable i).state = .RUNNABLE)
    (hi' : ((schedRR k).ptable i).state = .RUNNABLE) :
    turnsBefore i (nextTurn (schedRR k)) < turnsBefore i (nextTurn k) := by
  have hstart : nextTurn k = k.rr := if_pos hc
  rw [hstart]
  cases hf : nextRunnable k with
  | none =>
    -- the pass ends, which it would not if `i` were at or after `rr`
    have hir : i.val < k.rr := by
      by_contra hle
      exact nextRunnable_eq_none_iff.mp hf i (by omega) hi
    rw [nextTurn_schedRR_of_none hc hf]
    exact turnsBefore_zero_lt hir
  | some j =>
    obtain ⟨hrj, -, hleast⟩ := nextRunnable_eq_some_iff.mp hf
    -- the slot dispatched is not `i`, which would now be `RUNNING`
    have hji : j.val ≠ i.val := by
      intro hji
      rw [schedRR_of_some hf, Fin.ext hji] at hi'
      simp at hi'
    rw [nextTurn_schedRR_of_some hf]
    refine turnsBefore_succ_lt hrj j.isLt fun hri => ?_
    -- `i` is runnable at or after `rr`, so the first runnable slot from there is not after it
    by_contra hge
    exact hleast i hri (Fin.lt_def.mpr (by omega)) hi

/-- One event with slot `i` runnable before and after brings the next turn closer to `i` if it
is a turn of the scheduler, and keeps the distance otherwise. -/
theorem turnsBefore_step {k k' : Kernel} {e : Event} (h : step false k e = some k')
    (hi : (k.ptable i).state = .RUNNABLE) (hi' : (k'.ptable i).state = .RUNNABLE) :
    turnsBefore i (nextTurn k') + (if e = .schedule then 1 else 0) ≤ turnsBefore i (nextTurn k) := by
  by_cases he : e = .schedule
  · subst he
    obtain ⟨hc, rfl⟩ := schedule_cases_rr h
    have hlt := turnsBefore_schedRR hc hi hi'
    rw [if_pos rfl]
    omega
  · rw [if_neg he, Nat.add_zero, (nextTurn_step h).resolve_left fun h => he h.1]

end Turn

/-! ## Over runs -/

section Runs

variable {k k' : Kernel} {i : Fin NPROC}

/-- Along a run under `sched_RR` in every state of which slot `i` is `RUNNABLE`, the turns of the
scheduler and the distance left to `i` add up to at most the distance at the start. -/
theorem count_schedule_add_turnsBefore_le {es : List Event} (h : run false k es = some k')
    (hready : ∀ k₂ ∈ trace false k es, (k₂.ptable i).state = .RUNNABLE) :
    es.count .schedule + turnsBefore i (nextTurn k') ≤ turnsBefore i (nextTurn k) := by
  induction es generalizing k with
  | nil =>
    cases h
    simp
  | cons e es ih =>
    simp only [run, Option.bind_eq_some_iff] at h
    obtain ⟨k₁, h₁, h₂⟩ := h
    rw [trace_cons h₁] at hready
    have hstep := turnsBefore_step h₁ (hready k List.mem_cons_self)
      (hready k₁ (List.mem_cons_of_mem _ (self_mem_trace false k₁ es)))
    have hrest := ih h₂ fun k₂ hk₂ => hready k₂ (List.mem_cons_of_mem _ hk₂)
    rw [List.count_cons]
    simp only [beq_iff_eq] at hstep ⊢
    omega

/-- Under `sched_RR`, from a reachable state, a runnable slot stays runnable along a run until a
state where it is running. -/
theorem runnable_of_trace (hk : Reachable false k) {es : List Event}
    (hi : (k.ptable i).state = .RUNNABLE)
    (hnot : ∀ k₂ ∈ trace false k es, (k₂.ptable i).state ≠ .RUNNING) :
    ∀ k₂ ∈ trace false k es, (k₂.ptable i).state = .RUNNABLE := by
  induction es generalizing k with
  | nil =>
    intro k₂ hk₂
    rw [List.mem_singleton.mp hk₂]
    exact hi
  | cons e es ih =>
    cases hs : step false k e with
    | none =>
      intro k₂ hk₂
      simp only [trace, hs, List.mem_singleton] at hk₂
      rw [hk₂]
      exact hi
    | some k₁ =>
      rw [trace_cons hs] at hnot ⊢
      have hnot₁ := fun k₂ hk₂ => hnot k₂ (List.mem_cons_of_mem _ hk₂)
      -- the event moved slot `i` one edge at most, and not to running
      have hi₁ : (k₁.ptable i).state = .RUNNABLE :=
        (Proc.runnable_of_move (moves_rr (reachable_rrInv hk) hs i) hi).resolve_right
          (hnot₁ k₁ (self_mem_trace false k₁ es))
      intro k₂ hk₂
      rcases List.mem_cons.mp hk₂ with rfl | hk₂
      · exact hi
      · exact ih (hk.step e hs) hi₁ hnot₁ k₂ hk₂

/-- Under `sched_RR`, from every reachable state, along every run of events, a `RUNNABLE` slot is
switched to within `turnsBefore i (nextTurn k) + 1` turns of the scheduler, which is at most
`NPROC + 1` (`turnsBefore_le`): the scan from where the next turn starts passes over it at most
once per pass, whatever the processes do meanwhile. -/
theorem rr_bounded_waiting (hk : Reachable false k) {es : List Event}
    (h : run false k es = some k') (hi : (k.ptable i).state = .RUNNABLE)
    (hturns : turnsBefore i (nextTurn k) < es.count .schedule) :
    ∃ k₂ ∈ trace false k es, (k₂.ptable i).state = .RUNNING := by
  by_contra hnone
  simp only [not_exists, not_and] at hnone
  have hle := count_schedule_add_turnsBefore_le h (runnable_of_trace hk hi hnone)
  omega

end Runs

/-- `initproc` runs and has forked two children, in slots `1` and `2`. -/
def rrForked : Kernel :=
  (run false rrInit [.schedule, .fork true true, .fork true true]).getD rrInit

/-- The run that `rrForked` names happens. -/
theorem rrForked_run : run false rrInit [.schedule, .fork true true, .fork true true] = some rrForked :=
  run_eq_getD (by decide)

/-- The second child waits one turn, for the first: after `initproc` and the first child yield,
the second turn switches to it. -/
theorem rr_bounded_waiting_second :
    (trace false rrForked [.timer false, .schedule, .timer false, .schedule]).any
      (fun k₂ => (k₂.ptable 2).state = .RUNNING) = true := by
  obtain ⟨k₂, hk₂, hrun⟩ : ∃ k₂ ∈ trace false rrForked [.timer false, .schedule, .timer false, .schedule],
      (k₂.ptable 2).state = .RUNNING :=
    rr_bounded_waiting (reachable_run (.boot fun _ => Proc.zero) rrForked_run)
      (run_eq_getD (by decide)) (by decide) (by decide)
  exact List.any_eq_true.mpr ⟨k₂, hk₂, by simpa using hrun⟩

/-! ## The order of the dispatches -/

/-- What each turn of the scheduler leaves in `c->proc` along a run: the slot it switched to, or
null for a turn that found nothing to run and ended its pass. -/
def dispatches (stride_scheduler : Bool) (k : Kernel) : List Event → List Ptr
  | [] => []
  | e :: es =>
    match step stride_scheduler k e with
    | some k₁ =>
      if e = .schedule then k₁.cpu :: dispatches stride_scheduler k₁ es
      else dispatches stride_scheduler k₁ es
    | none => []

section Order

variable {k k₁ : Kernel} {e : Event} {es : List Event}

/-- A step of a run adds what `c->proc` holds after it when it is a turn of the scheduler. -/
theorem dispatches_cons (h : step false k e = some k₁) :
    dispatches false k (e :: es) =
      if e = .schedule then k₁.cpu :: dispatches false k₁ es else dispatches false k₁ es := by
  simp only [dispatches, h]

/-- A turn of `sched_RR` leaves a slot in `c->proc` only by switching to the first runnable slot
from `rr`. -/
theorem nextRunnable_of_schedRR_cpu (hc : k.cpu = .null) {j : Fin NPROC}
    (h : (schedRR k).cpu = .slot j) : nextRunnable k = some j := by
  cases hn : nextRunnable k with
  | none =>
    rw [schedRR_of_none hn, hc] at h
    cases h
  | some i =>
    rw [schedRR_of_some hn, Ptr.slot.injEq] at h
    rw [h]

/-- The first turn of a run that switches to a slot switches to one at or after where the next
turn starts. -/
theorem nextTurn_le_of_dispatches_head {j : Fin NPROC}
    (h : (dispatches false k es).head? = some (.slot j)) : nextTurn k ≤ j.val := by
  induction es generalizing k with
  | nil => simp [dispatches] at h
  | cons e es ih =>
    cases hs : step false k e with
    | none => simp [dispatches, hs] at h
    | some k₁ =>
      rw [dispatches_cons hs] at h
      by_cases he : e = .schedule
      · -- this turn is the first: it switched to `j`, the first runnable slot from `rr`
        subst he
        obtain ⟨hc, rfl⟩ := schedule_cases_rr hs
        rw [if_pos rfl, List.head?_cons, Option.some.injEq] at h
        rw [nextTurn, if_pos hc]
        exact (nextRunnable_eq_some_iff.mp (nextRunnable_of_schedRR_cpu hc h)).1
      · rw [if_neg he] at h
        rw [← (nextTurn_step hs).resolve_left fun h => he h.1]
        exact ih h

end Order

/-- Under `sched_RR`, along every run of events from any state, the turns of one pass switch to
slots in increasing order: of two successive turns that both switch to a slot, the second
switches to a later one. So a pass runs each slot at most once, and the scan comes back to a
slot only after a turn that finds nothing (`c->proc` null) has ended the pass. -/
theorem rr_dispatch_order (k : Kernel) (es : List Event) :
    (dispatches false k es).IsChain fun p q => ∀ j₁ j₂, p = .slot j₁ → q = .slot j₂ → j₁ < j₂ := by
  induction es generalizing k with
  | nil => exact .nil
  | cons e es ih =>
    cases hs : step false k e with
    | none =>
      simp only [dispatches, hs]
      exact .nil
    | some k₁ =>
      rw [dispatches_cons hs]
      by_cases he : e = .schedule
      · subst he
        obtain ⟨hc, rfl⟩ := schedule_cases_rr hs
        rw [if_pos rfl]
        refine List.isChain_cons.mpr ⟨fun q hq j₁ j₂ hj₁ hj₂ => ?_, ih _⟩
        -- the next turn starts right after `j₁`, and the turn that switches to `j₂` not before it
        have hstart := nextTurn_schedRR_of_some (nextRunnable_of_schedRR_cpu hc hj₁)
        have hle := nextTurn_le_of_dispatches_head (Option.mem_def.mp (hj₂ ▸ hq))
        rw [Fin.lt_def]
        omega
      · rw [if_neg he]
        exact ih k₁

set_option maxRecDepth 4000 in
/-- After `initproc` and its two children each yield, the turns switch to slot `1`, then slot
`2`, end the pass, and start the next at slot `0`. -/
theorem rr_dispatch_order_forked :
    let es := [.timer false, .schedule, .timer false, .schedule, .timer false, .schedule,
      .schedule, .timer false, .schedule]
    dispatches false rrForked es = [.slot 1, .slot 2, .null, .slot 0, .slot 1] ∧
      (dispatches false rrForked es).IsChain
        fun p q => ∀ j₁ j₂, p = .slot j₁ → q = .slot j₂ → j₁ < j₂ :=
  ⟨by decide, rr_dispatch_order rrForked _⟩

end Xv6Stride
