import Xv6Stride.Kernel.Fairness
import Xv6Stride.Kernel.Tree

/-!
# Each context is resumed once under round robin

`swtch` loads a saved context, and a saved context serves one resumption only: the process then
runs on and saves a new one when it next calls `sched`. `sched` saves a fresh context
(`Kernel.nextctx`), and `allocproc` saves one for a new process. `sched_RR` loads the context of
the slot it switches to. So under `sched_RR` no two turns of the scheduler load the same context
(`rr_resumes_nodup`). `sched_stride` differs: it switches to the copy of a slot in its heap and
loads the context of the copy, while the process saves its next context in its slot of `ptable`,
so every turn loads `initproc`'s first context again (`Stride.lean`).

`CtxInv k used` is the invariant, where `used` lists the contexts already loaded. Every live
process holds its own context, below `nextctx`, and no process that waits to run or sleeps holds
a context of `used`. A process that leaves the CPU saves `nextctx` in its slot, whatever it wrote
there before (`CtxInv.leave`). A turn that switches to a slot adds its context to `used`: the
slot now runs, and no other live slot holds that context (`CtxInv.dispatch`).
-/

namespace Xv6Stride

/-- The contexts that the turns of the scheduler load along a run: `p->context` of each process
that a turn switches to. -/
def resumes (stride_scheduler : Bool) (k : Kernel) : List Event → List ℕ
  | [] => []
  | e :: es =>
    match step stride_scheduler k e with
    | some k₁ =>
      if e = .schedule ∧ k₁.cpu ≠ .null then k₁.resumed :: resumes stride_scheduler k₁ es
      else resumes stride_scheduler k₁ es
    | none => []

/-- Waiting to run or sleeping: a process whose saved context a later turn may load. -/
def Proc.Parked (p : Proc) : Prop := p.state = .RUNNABLE ∨ p.state = .SLEEPING

/-- A process that waits to run or sleeps has not exited. -/
theorem Proc.Parked.alive {p : Proc} (h : p.Parked) : p.Alive :=
  h.elim .inl fun hs => .inr (.inr hs)

/-- The contexts: every live process holds its own, below `nextctx`; no process that waits to run
or sleeps holds one of `used`, and those are below `nextctx` too. -/
structure CtxInv (k : Kernel) (used : List ℕ) : Prop where
  fresh : ∀ i, (k.ptable i).Alive → (k.ptable i).context < k.nextctx
  distinct : ∀ i j, (k.ptable i).Alive → (k.ptable j).Alive →
    (k.ptable i).context = (k.ptable j).context → i = j
  parked : ∀ i, (k.ptable i).Parked → (k.ptable i).context ∉ used
  below : ∀ c ∈ used, c < k.nextctx

/-! ## Records that keep their context -/

/-- `q` is live only if `p` is, with the same context, and waits to run or sleeps only if `p`
does. -/
structure Proc.KeepsContext (p q : Proc) : Prop where
  alive : q.Alive → p.Alive ∧ q.context = p.context
  parked : q.Parked → p.Parked

namespace Proc.KeepsContext

/-- A record keeps its own context. -/
theorem refl (p : Proc) : p.KeepsContext p := ⟨fun h => ⟨h, rfl⟩, id⟩

/-- A record that is not live holds no context that counts. -/
theorem of_not_alive {p q : Proc} (h : ¬ q.Alive) : p.KeepsContext q :=
  ⟨fun ha => absurd ha h, fun hp => absurd hp.alive h⟩

end Proc.KeepsContext

/-- Touching a record wakes it at most, and keeps its context. -/
theorem Proc.Touched.keepsContext {p q : Proc} (h : p.Touched q) : p.KeepsContext q where
  alive ha := ⟨h.alive_iff.mp ha, h.context_eq⟩
  parked hq := by
    rcases h.state with hs | ⟨hs, -⟩
    · rwa [Proc.Parked, ← hs]
    · exact .inr hs

namespace CtxInv

variable {k k' : Kernel} {used : List ℕ}

/-- Fewer used contexts keep the invariant. -/
theorem mono (h : CtxInv k used) {used' : List ℕ} (hsub : used' ⊆ used) : CtxInv k used' :=
  ⟨h.fresh, h.distinct, fun i hp hc => h.parked i hp (hsub hc), fun c hc => h.below c (hsub hc)⟩

/-- A change that keeps the context of every record and does not lower `nextctx` keeps the
invariant. -/
theorem congr (h : CtxInv k used) (hn : k.nextctx ≤ k'.nextctx)
    (hslot : ∀ i, (k.ptable i).KeepsContext (k'.ptable i)) : CtxInv k' used where
  fresh i ha := by
    obtain ⟨ha₀, hc⟩ := (hslot i).alive ha
    rw [hc]
    exact lt_of_lt_of_le (h.fresh i ha₀) hn
  distinct i j hi hj he := by
    obtain ⟨hi₀, hci⟩ := (hslot i).alive hi
    obtain ⟨hj₀, hcj⟩ := (hslot j).alive hj
    exact h.distinct i j hi₀ hj₀ (by rw [← hci, ← hcj, he])
  parked i hp := by
    rw [((hslot i).alive hp.alive).2]
    exact h.parked i ((hslot i).parked hp)
  below c hc := lt_of_lt_of_le (h.below c hc) hn

/-- Touching the slots keeps the invariant: it keeps every context and wakes sleepers at most. -/
theorem touched (h : CtxInv k used) (ht : k.Touched k') : CtxInv k' used :=
  h.congr ht.nextctx_eq.ge fun i => (ht.slot i).keepsContext

/-! ## What each function does -/

/-- One slot given the fresh context `nextctx`, which then moves on, with every other slot
kept: no other live slot holds that context, and `used` does not contain it. -/
theorem fresh_slot (h : CtxInv k used) {n : Fin NPROC} (hn : k'.nextctx = k.nextctx + 1)
    (hc : (k'.ptable n).context = k.nextctx) (hother : ∀ i, i ≠ n → k'.ptable i = k.ptable i) :
    CtxInv k' used := by
  -- the other live slots hold contexts below the fresh one
  have hlt : ∀ i, i ≠ n → (k'.ptable i).Alive → (k'.ptable i).context < k.nextctx :=
    fun i hin ha => by
      rw [hother i hin] at ha ⊢
      exact h.fresh i ha
  refine ⟨fun i ha => ?_, fun i j hi hj he => ?_, fun i hp => ?_, fun c hc' => ?_⟩
  · rw [hn]
    by_cases hin : i = n
    · rw [hin, hc]
      exact Nat.lt_succ_self _
    · exact Nat.lt_succ_of_lt (hlt i hin ha)
  · by_cases hin : i = n <;> by_cases hjn : j = n
    · rw [hin, hjn]
    · rw [hin, hc] at he
      exact absurd (he ▸ hlt j hjn hj) (lt_irrefl _)
    · rw [hjn, hc] at he
      exact absurd (he ▸ hlt i hin hi) (lt_irrefl _)
    · rw [hother i hin] at hi he
      rw [hother j hjn] at hj he
      exact h.distinct i j hi hj he
  · by_cases hin : i = n
    · rw [hin, hc]
      exact fun hu => lt_irrefl _ (h.below _ hu)
    · rw [hother i hin] at hp ⊢
      exact h.parked i hp
  · rw [hn]
    exact Nat.lt_succ_of_lt (h.below c hc')

/-- `sched` after a write `f` through `c->proc`: a slot that `c->proc` does not designate stays,
the one it designates holds the fresh context `nextctx`, and `nextctx` moves on. -/
theorem sched_write_context {f : Proc → Proc} (hs : sched false (k.write k.cpu f) = .ok k') :
    k'.nextctx = k.nextctx + 1 ∧ (∀ i, k.cpu ≠ .slot i → k'.ptable i = k.ptable i) ∧
      ∀ j, k.cpu = .slot j → (k'.ptable j).context = k.nextctx := by
  obtain ⟨-, rfl⟩ := sched_eq_ok.mp hs
  exact ⟨by simp [rrReturn], fun i hi => by simp [rrReturn, Kernel.write_ptable_of_ne hi],
    fun j hj => by simp [rrReturn, hj]⟩

/-- The process on the CPU leaves it through `sched`, after any write to its slot: it saves the
fresh context `nextctx`. -/
theorem leave (h : CtxInv k used) {f : Proc → Proc} (hs : sched false (k.write k.cpu f) = .ok k') :
    CtxInv k' used := by
  obtain ⟨hn, hkeep, hfresh⟩ := sched_write_context hs
  by_cases hj : ∃ j, k.cpu = .slot j
  · obtain ⟨j, hj⟩ := hj
    refine h.fresh_slot hn (hfresh j hj) fun i hij => hkeep i fun hi => hij ?_
    rw [hj] at hi
    exact (Ptr.slot.inj hi).symm
  · -- `c->proc` designates no slot, and the table stays
    refine h.congr (by rw [hn]; exact Nat.le_succ _) fun i => ?_
    rw [hkeep i fun hi => hj ⟨i, hi⟩]
    exact .refl _

/-- `yield` keeps the invariant: the caller leaves the CPU with its context saved fresh. -/
theorem yield (h : CtxInv k used) (hy : Xv6Stride.yield false k = .ok k') : CtxInv k' used :=
  h.leave hy

/-- `sleep` keeps the invariant: the caller leaves the CPU with its context saved fresh. -/
theorem sleep (h : CtxInv k used) {chan : Chan} (hs : Xv6Stride.sleep false k chan = .ok k') :
    CtxInv k' used :=
  h.leave (sleep_eq_ok.mp hs).2

/-- `exit` touches the table, then leaves the CPU as a zombie. -/
theorem exit (h : CtxInv k used) (he : Xv6Stride.exit false k = .ok k') : CtxInv k' used := by
  obtain ⟨-, k₁, ht, hs⟩ := exit_cases he
  exact (h.touched ht).leave hs

/-- `wait`'s reaping frees a zombie, which holds no live context. -/
theorem reap (h : CtxInv k used) (i : Fin NPROC) : CtxInv (reap k i) used := by
  refine h.congr le_rfl fun j => ?_
  by_cases hji : j = i
  · subst hji
    exact .of_not_alive (by simp [Xv6Stride.reap, Proc.Alive])
  · rw [Xv6Stride.reap, Kernel.write_slot_ptable_of_ne hji]
    exact .refl _

/-- `wait` keeps the invariant: it reaps a zombie, returns, or sleeps. -/
theorem wait (h : CtxInv k used) (hw : Xv6Stride.wait false k = .ok k') : CtxInv k' used := by
  rcases wait_cases hw with ⟨i, -, -, rfl⟩ | rfl | ⟨-, hs⟩
  · exact h.reap i
  · exact h
  · exact h.sleep hs

/-- `fork` saves a context only in the slot it fills, the fresh one `nextctx`, and `nextctx`
moves on exactly then. -/
theorem fork_context (stride_scheduler : Bool) (k : Kernel) (kallocOk copyOk : Bool) :
    let k' := Xv6Stride.fork stride_scheduler k kallocOk copyOk
    k.nextctx ≤ k'.nextctx ∧ ∀ i, (k.ptable i).state = .UNUSED → (k'.ptable i).state = .RUNNABLE →
      (k'.ptable i).context = k.nextctx ∧ k'.nextctx = k.nextctx + 1 := by
  intro k'
  cases hf : firstSlot k fun p => p.state = .UNUSED with
  | none =>
    have hk : k' = k := by simp [k', Xv6Stride.fork, allocproc, hf]
    refine ⟨hk ▸ le_refl _, fun i hu hr => ?_⟩
    rw [hk, hu] at hr
    cases hr
  | some n =>
    -- one case for each outcome of `kalloc` and `copyuvm`, under each scheduler
    refine ⟨?_, fun i hu hr => ?_⟩
    · cases kallocOk <;> cases copyOk <;> cases stride_scheduler <;>
        simp [k', Xv6Stride.fork, allocproc, hf, Kernel.write, initStride]
    · by_cases hin : i = n
      · subst hin
        cases kallocOk <;> cases copyOk <;> cases stride_scheduler <;>
          simp_all [k', Xv6Stride.fork, allocproc, Kernel.write, initStride]
      · -- the other slots stay as they were, and this one is not runnable
        cases kallocOk <;> cases copyOk <;> cases stride_scheduler <;>
          simp_all [k', Xv6Stride.fork, allocproc, Kernel.write, initStride]

/-- `fork` fills a free slot with a child that holds the fresh context, or leaves it free. -/
theorem fork (h : CtxInv k used) (kallocOk copyOk : Bool) :
    CtxInv (Xv6Stride.fork false k kallocOk copyOk) used := by
  rcases fork_cases false k kallocOk copyOk with hk | ⟨n, hfree, hother, -, hnew⟩
  · rw [hk]
    exact h
  obtain ⟨hn, hctx⟩ := fork_context false k kallocOk copyOk
  rcases hnew with ⟨hu, -⟩ | ⟨hr, -⟩
  · -- the slot is free again: every record keeps its context
    refine h.congr hn fun i => ?_
    by_cases hin : i = n
    · subst hin
      exact .of_not_alive fun ha => ha.ne_unused hu
    · rw [hother i hin]
      exact .refl _
  · -- the new child holds the fresh context
    obtain ⟨hc, hn'⟩ := hctx n hfree hr
    exact h.fresh_slot hn' hc hother

/-- A turn of `sched_RR` that switches to slot `j` loads its context: the slot now runs, and no
other live slot holds that context. -/
theorem dispatch (h : CtxInv k used) {j : Fin NPROC} (hj : nextRunnable k = some j) :
    CtxInv (schedRR k) ((k.ptable j).context :: used) := by
  have hrun := (nextRunnable_eq_some_iff.mp hj).2.1
  rw [schedRR_of_some hj]
  -- the slot switched to keeps its context and stays live
  have hslot : ∀ i, (k.ptable i).KeepsContext
      (Function.update k.ptable j ({ k.ptable j with state := .RUNNING } : Proc) i) := fun i => by
    by_cases hij : i = j
    · subst hij
      simp only [Function.update_self]
      exact ⟨fun _ => ⟨.inl hrun, rfl⟩, fun hp => by rcases hp with hp | hp <;> cases hp⟩
    · simp only [Function.update_of_ne hij]
      exact .refl _
  have h' : CtxInv { k with
      ptable := Function.update k.ptable j ({ k.ptable j with state := .RUNNING } : Proc)
      cpu := .slot j, rr := j.val, resumed := (k.ptable j).context } used :=
    h.congr le_rfl hslot
  refine ⟨h'.fresh, h'.distinct, fun i hp => ?_, fun c hc => ?_⟩
  · have hij : i ≠ j := by
      rintro rfl
      simp only [Function.update_self] at hp
      rcases hp with hp | hp <;> cases hp
    simp only [Function.update_of_ne hij] at hp ⊢
    intro hm
    rcases List.mem_cons.mp hm with hc | hc
    · exact hij (h.distinct i j hp.alive (.inl hrun) hc)
    · exact h.parked i hp hc
  · rcases List.mem_cons.mp hc with rfl | hc
    · exact h.fresh j (.inl hrun)
    · exact h.below c hc

/-- A turn of the scheduler that switches to a slot loads a context not in `used`. -/
theorem resumed_not_mem (h : CtxInv k used) (hk : k.cpu = .null) (hc : (schedRR k).cpu ≠ .null) :
    (schedRR k).resumed ∉ used := by
  cases hj : nextRunnable k with
  | none =>
    rw [schedRR_of_none hj] at hc
    exact absurd hk hc
  | some j =>
    rw [schedRR_of_some hj]
    exact h.parked j (.inl (nextRunnable_eq_some_iff.mp hj).2.1)

/-- An event other than a turn of the scheduler keeps the invariant. -/
theorem step_of_ne {e : Event} (h : CtxInv k used) (he : e ≠ .schedule)
    (hs : step false k e = some k') : CtxInv k' used := by
  rcases step_cases hs with ⟨rfl, -, -⟩ | ⟨user, -, h'⟩ | ⟨chan, -, rfl⟩ | ⟨-, call, h', hcall⟩
  · exact absurd rfl he
  · -- the tick and its wakeup, then the process exits or yields
    have htick : CtxInv { k with ticks := k.ticks + 1 } used := h.congr le_rfl fun _ => .refl _
    have hw := htick.touched (touched_wakeup1 _ .ticks)
    rcases timer_cases h' with ⟨-, h'⟩ | ⟨-, h'⟩ | rfl
    · exact hw.exit h'
    · exact hw.yield h'
    · exact hw
  · exact h.touched (touched_wakeup1 k chan)
  · have hcall' : ∀ k₁, call k = .ok k₁ → CtxInv k₁ used := fun k₁ hk₁ => by
      rcases hcall k₁ hk₁ with ⟨a, b, -, rfl⟩ | ⟨-, h'⟩ | ⟨-, h'⟩ | ⟨chan, -, h'⟩ | ⟨pid, -, rfl⟩
      · exact h.fork a b
      · exact h.exit h'
      · exact h.wait h'
      · exact h.sleep h'
      · exact h.touched (touched_kill k pid)
    rcases syscall_cases h' with h' | ⟨k₁, hk₁, ⟨-, h'⟩ | rfl⟩
    · exact h.exit h'
    · exact (hcall' k₁ hk₁).exit h'
    · exact hcall' _ hk₁

/-- Every event keeps the invariant, with the context that a turn loads added to `used`. -/
theorem step {e : Event} (h : CtxInv k used) (hs : step false k e = some k') :
    CtxInv k' (if e = .schedule ∧ k'.cpu ≠ .null then k'.resumed :: used else used) := by
  by_cases he : e = .schedule
  · subst he
    obtain ⟨hc, rfl⟩ := schedule_cases_rr hs
    cases hj : nextRunnable k with
    | none =>
      -- the turn ends the pass and switches to nothing
      rw [schedRR_of_none hj, if_neg (by simp [hc])]
      exact h.congr le_rfl fun _ => .refl _
    | some j =>
      have hres : (schedRR k).resumed = (k.ptable j).context := by rw [schedRR_of_some hj]
      rw [if_pos ⟨rfl, by simp [schedRR_of_some hj]⟩, hres]
      exact h.dispatch hj
  · rw [if_neg fun h => he h.1]
    exact h.step_of_ne he hs

end CtxInv

/-- At boot `initproc` holds context `1`, below `nextctx`, and no other slot is live. -/
theorem ctxInv_boot (heapArr : ℕ → Proc) : CtxInv (userinit false (boot heapArr)) [] := by
  rw [userinit_boot false heapArr]
  have hdead : ∀ i : Fin NPROC, i ≠ 0 → ¬ (Function.update (boot heapArr).ptable 0
      ({ Proc.zero with state := .RUNNABLE, pid := 1, context := 1 } : Proc) i).Alive := by
    intro i hi
    simp [Function.update_of_ne hi, boot, Proc.zero, Proc.Alive]
  refine ⟨fun i ha => ?_, fun i j hi hj _ => ?_, fun _ _ hc => absurd hc List.not_mem_nil,
    fun _ hc => absurd hc List.not_mem_nil⟩
  · by_cases hi : i = 0
    · subst hi
      simp
    · exact absurd ha (hdead i hi)
  · by_contra hij
    by_cases hi0 : i = 0
    · exact hdead j (hi0 ▸ Ne.symm hij) hj
    · exact hdead i hi0 hi

/-- Every reachable state under `sched_RR` has the invariant, with no context used yet. -/
theorem reachable_ctxInv {k : Kernel} (hk : Reachable false k) : CtxInv k [] := by
  induction hk with
  | boot heapArr => exact ctxInv_boot heapArr
  | step e _ hs ih => exact (ih.step hs).mono fun _ hc => absurd hc List.not_mem_nil

/-- Along a run, the contexts that the turns load are distinct and none is in `used`. -/
theorem resumes_nodup_of_ctxInv {k : Kernel} {used : List ℕ} (h : CtxInv k used) (es : List Event) :
    (resumes false k es).Nodup ∧ ∀ c ∈ resumes false k es, c ∉ used := by
  induction es generalizing k used with
  | nil => simp [resumes]
  | cons e es ih =>
    cases hs : step false k e with
    | none => simp [resumes, hs]
    | some k₁ =>
      have h₁ := h.step hs
      simp only [resumes, hs]
      split
      next hd =>
        -- a turn that loads a context: it is not in `used`, nor loaded again later
        rw [if_pos hd] at h₁
        obtain ⟨hnd, hnot⟩ := ih h₁
        have hfresh : k₁.resumed ∉ used := by
          obtain ⟨rfl, hc₁⟩ := hd
          obtain ⟨hc, rfl⟩ := schedule_cases_rr hs
          exact h.resumed_not_mem hc hc₁
        refine ⟨List.nodup_cons.mpr ⟨fun hm => hnot _ hm List.mem_cons_self, hnd⟩, fun c hc => ?_⟩
        rcases List.mem_cons.mp hc with rfl | hc
        · exact hfresh
        · exact fun hu => hnot c hc (List.mem_cons_of_mem _ hu)
      next hd =>
        rw [if_neg hd] at h₁
        exact ih h₁

/-- Under `sched_RR`, from every reachable state, along every run of events, no two turns of the
scheduler load the same context: each context that `sched` or `allocproc` saves is resumed at
most once, so `swtch` never resumes a stale one. -/
theorem rr_resumes_nodup {k : Kernel} (hk : Reachable false k) (es : List Event) :
    (resumes false k es).Nodup :=
  (resumes_nodup_of_ctxInv (reachable_ctxInv hk) es).1

set_option maxRecDepth 4000 in
/-- After `initproc` and its two children each yield, the turns load the three contexts that the
children got from `allocproc` and `initproc` saved in `sched`. -/
theorem rr_resumes_nodup_forked :
    let es := [.timer false, .schedule, .timer false, .schedule, .timer false, .schedule, .schedule]
    resumes false rrForked es = [2, 3, 4] ∧ (resumes false rrForked es).Nodup :=
  ⟨by decide, rr_resumes_nodup (reachable_run (.boot fun _ => Proc.zero) rrForked_run) _⟩

end Xv6Stride
