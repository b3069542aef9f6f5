import Xv6Stride.Kernel.State

/-!
# Scheduling and the process step relation

The scheduler and the running process take turns on the CPU. One turn of the scheduler's loop
(`schedStride` under `SCHEDULER=STRIDE`, `schedRR` otherwise) picks a record and `swtch`es to
the context saved in it. The process then runs until it gives the CPU back through `sched`,
from `yield` (the timer), `sleep` or `exit`; `sched` saves its context through `myproc()`, and
the scheduler resumes after its own `swtch`, which under `STRIDE` charges the run's ticks to
the record it dispatched (`strideReturn`).

`sched_stride` dispatches `getmin(&heap)`, the address of cell `0` of its own heap, which holds
a copy of the chosen slot. So `c->proc`, and every write through `myproc()`, designates that
copy: the model keeps this, as pointers are addresses (`Ptr`).

A run of the system is a sequence of `Event`s: a turn of the scheduler, a timer interrupt, a
wakeup from an interrupt handler, or a system call of the running process. `step` says what each
does and when it can happen; a panic stops the machine, and so has no step. The processes' own
code between events, and what a resumed context does before its next event, are not modelled:
any event may follow any dispatch. `Reachable` is every state of a run from `userinit`.
-/

namespace Xv6Stride

/-! ## The scheduler's side of a switch -/

/-- `sched_stride` after its `swtch` returns: `last_interrupted` and `runtime` of the record it
dispatched, through its own `p`, then `c->proc = 0`. -/
def strideReturn (k : Kernel) : Kernel :=
  let p := k.cpu
  let k := k.write p fun q => { q with last_interrupted := getticks k }
  let k := k.write p fun q => { q with runtime := q.runtime + (q.last_interrupted - q.last_scheduled) }
  { k with cpu := .null }

/-- `sched_RR` after its `swtch` returns: `c->proc = 0`, and the loop goes on at the next slot. -/
def rrReturn (k : Kernel) : Kernel :=
  { k with cpu := .null, rr := k.rr + 1 }

/-- `sched`: `swtch(&p->context, mycpu()->scheduler)` with `p = myproc()`, after which the
scheduler runs. The checks on the locks and the interrupt flag are not modelled. -/
def sched (stride_scheduler : Bool) (k : Kernel) : Except String Kernel :=
  let p := k.cpu
  if (k.deref p).state = .RUNNING then .error "sched running"
  else
    let k := k.write p fun q => { q with context := k.nextctx }
    let k := { k with nextctx := k.nextctx + 1 }
    .ok (if stride_scheduler then strideReturn k else rrReturn k)

/-- `yield`: `myproc()->state = RUNNABLE`, then `sched`. -/
def yield (stride_scheduler : Bool) (k : Kernel) : Except String Kernel :=
  sched stride_scheduler (k.write k.cpu fun q => { q with state := .RUNNABLE })

/-- `sleep(chan, lk)`: `p->chan = chan; p->state = SLEEPING` with `p = myproc()`, then `sched`.
The tidying after `sched` returns belongs to the resumed context. -/
def sleep (stride_scheduler : Bool) (k : Kernel) (chan : Chan) : Except String Kernel :=
  if k.cpu = .null then .error "sleep"
  else sched stride_scheduler (k.write k.cpu fun q => { q with chan := chan, state := .SLEEPING })

/-- `exit`: the parent is woken, the children pass to `initproc`, and `curproc` becomes a
`ZOMBIE` and calls `sched`. -/
def exit (stride_scheduler : Bool) (k : Kernel) : Except String Kernel :=
  let curproc := k.cpu
  if curproc = k.initproc then .error "init exiting"
  else
    let k := wakeup1 k (.proc (k.deref curproc).parent)
    let k := reparent k curproc
    sched stride_scheduler (k.write curproc fun q => { q with state := .ZOMBIE })

/-- `wait`: the first zombie child is reaped; with no child, or when killed, it returns `-1`;
otherwise it sleeps on `curproc`. -/
def wait (stride_scheduler : Bool) (k : Kernel) : Except String Kernel :=
  let curproc := k.cpu
  match firstSlot k fun p => p.parent = curproc ∧ p.state = .ZOMBIE with
  | some i => .ok (reap k i)
  | none =>
    if (firstSlot k fun p => p.parent = curproc) = none ∨ (k.deref curproc).killed then .ok k
    else sleep stride_scheduler k (.proc curproc)

/-! ## The scheduler's side of a dispatch -/

/-- `heap.size = 0` and the loop over the table: the `heap` of `sched_stride` when it chooses. -/
def Kernel.scanned (k : Kernel) : Minheap :=
  scan { k.heap with size := 0, size_le := Nat.zero_le _ } (List.ofFn k.ptable)

/-- One turn of the loop of `sched_stride`, up to its `swtch`: with a runnable slot, the root of
the heap is dispatched through `p = getmin(&heap)`: `c->proc = p`, `p->state = RUNNING`,
`p->last_scheduled = getticks()`, and the CPU loads `p->context`. -/
def schedStride (k : Kernel) : Kernel :=
  let heap := k.scanned
  if 0 < heap.size then
    let p := getmin heap
    let k := { k with heap := heap, cpu := p }
    let k := k.write p fun q => { q with state := .RUNNING }
    let k := k.write p fun q => { q with last_scheduled := getticks k }
    { k with resumed := (k.deref p).context }
  else { k with heap := heap }

/-- The next slot from position `rr` on that is `RUNNABLE`. -/
def nextRunnable (k : Kernel) : Option (Fin NPROC) :=
  (List.finRange NPROC).find? fun i => k.rr ≤ i.val ∧ (k.ptable i).state = .RUNNABLE

/-- One step of the inner loop of `sched_RR`: the next `RUNNABLE` slot `p` is dispatched
(`c->proc = p`, `p->state = RUNNING`, `swtch` to `p->context`); past the last slot the pass
ends and the next one starts from slot `0`. -/
def schedRR (k : Kernel) : Kernel :=
  match nextRunnable k with
  | some i =>
    let k := { k with cpu := .slot i, rr := i.val }
    let k := k.write (.slot i) fun q => { q with state := .RUNNING }
    { k with resumed := (k.ptable i).context }
  | none => { k with rr := 0 }

/-! ## Traps and events -/

/-- The timer interrupt of `trap.c` on CPU 0: `ticks++` and `wakeup(&ticks)`; then a killed
process trapped from user mode exits, and a `RUNNING` one yields. -/
def timer (stride_scheduler : Bool) (k : Kernel) (user : Bool) : Except String Kernel :=
  let k := wakeup1 { k with ticks := k.ticks + 1 } .ticks
  if k.cpu ≠ .null ∧ (k.deref k.cpu).killed = true ∧ user = true then exit stride_scheduler k
  else if k.cpu ≠ .null ∧ (k.deref k.cpu).state = .RUNNING then yield stride_scheduler k
  else .ok k

/-- The system-call path of `trap.c`: a killed process exits before the call, and after it if it
is still on the CPU. -/
def syscall (stride_scheduler : Bool) (k : Kernel) (call : Kernel → Except String Kernel) :
    Except String Kernel :=
  if (k.deref k.cpu).killed then exit stride_scheduler k
  else
    match call k with
    | .ok k =>
      if k.cpu ≠ .null ∧ (k.deref k.cpu).killed = true then exit stride_scheduler k else .ok k
    | .error e => .error e

/-- What can happen next on the machine. -/
inductive Event where
  /-- One turn of the scheduler's loop. -/
  | schedule
  /-- A timer interrupt, trapped from user mode or not. -/
  | timer (user : Bool)
  /-- `wakeup(chan)` from an interrupt handler. -/
  | wakeup (chan : Chan)
  /-- A `fork` of the running process, with the outcomes of `kalloc` and `copyuvm`. -/
  | fork (kallocOk copyOk : Bool)
  | exit
  | wait
  /-- A `sleep(chan, lk)` inside a system call of the running process. -/
  | sleep (chan : Chan)
  | kill (pid : ℤ)
  deriving DecidableEq, Repr

/-- Interrupts are on: a process runs, or the scheduler is between dispatches. `sched_stride`
enables them at the top of each turn and holds no lock while it scans; `sched_RR` holds
`ptable.lock` over a whole pass of the table. -/
def interruptible (stride_scheduler : Bool) (k : Kernel) : Prop :=
  k.cpu ≠ .null ∨ stride_scheduler = true ∨ k.rr = 0

instance (stride_scheduler : Bool) (k : Kernel) : Decidable (interruptible stride_scheduler k) :=
  inferInstanceAs (Decidable (_ ∨ _))

/-- One event: the scheduler turns only when no process runs, the running process makes its
calls, and interrupts come when they are on. `none` when the event cannot happen, or panics. -/
def step (stride_scheduler : Bool) (k : Kernel) : Event → Option Kernel
  | .schedule =>
    if k.cpu = .null then some (if stride_scheduler then schedStride k else schedRR k) else none
  | .timer user =>
    if interruptible stride_scheduler k then (timer stride_scheduler k user).toOption else none
  | .wakeup chan => if interruptible stride_scheduler k then some (wakeup1 k chan) else none
  | .fork kallocOk copyOk =>
    if k.cpu ≠ .null then
      (syscall stride_scheduler k fun k => .ok (fork stride_scheduler k kallocOk copyOk)).toOption
    else none
  | .exit => if k.cpu ≠ .null then (syscall stride_scheduler k (exit stride_scheduler)).toOption else none
  | .wait => if k.cpu ≠ .null then (syscall stride_scheduler k (wait stride_scheduler)).toOption else none
  | .sleep chan =>
    if k.cpu ≠ .null then (syscall stride_scheduler k fun k => sleep stride_scheduler k chan).toOption
    else none
  | .kill pid =>
    if k.cpu ≠ .null then (syscall stride_scheduler k fun k => .ok (kill k pid)).toOption else none

/-! ## What each event can do

One inversion lemma for each function that an event runs, so that the invariants of whole runs
take a step apart by cases and never unfold the functions. -/

section Inversion

variable {stride_scheduler : Bool} {k k' : Kernel}

/-- An `Except` read as an `Option` is `some` exactly when it is `ok`. -/
theorem toOption_eq_some {x : Except String Kernel} : x.toOption = some k ↔ x = .ok k := by
  cases x <;> simp [Except.toOption]

/-- `sched` stops the machine on a `RUNNING` record; otherwise it saves a fresh context through
`c->proc`, and the scheduler returns. -/
theorem sched_eq_ok :
    sched stride_scheduler k = .ok k' ↔ (k.deref k.cpu).state ≠ .RUNNING ∧
      let k₁ := k.write k.cpu fun q => { q with context := k.nextctx }
      let k₂ := { k₁ with nextctx := k₁.nextctx + 1 }
      k' = if stride_scheduler then strideReturn k₂ else rrReturn k₂ := by
  by_cases hr : (k.deref k.cpu).state = .RUNNING
  · simp [sched, hr]
  · simp only [sched, hr, if_false, ne_eq, not_false_eq_true, true_and]
    exact ⟨fun h => (Except.ok.inj h).symm, fun h => congrArg Except.ok h.symm⟩

/-- `sleep` returns when a process is on the CPU and its `sched` returns after the process is marked
`SLEEPING` on the channel. -/
theorem sleep_eq_ok {chan : Chan} :
    sleep stride_scheduler k chan = .ok k' ↔ k.cpu ≠ .null ∧
      sched stride_scheduler (k.write k.cpu fun q => { q with chan := chan, state := .SLEEPING }) =
        .ok k' := by
  simp only [sleep]
  split <;> simp [*]

/-- `exit` returns when the caller is not `initproc` and its `sched` returns after the wakeup of the
parent, the loop over the children and the `ZOMBIE` mark. -/
theorem exit_eq_ok :
    exit stride_scheduler k = .ok k' ↔ k.cpu ≠ k.initproc ∧
      sched stride_scheduler
        ((reparent (wakeup1 k (.proc (k.deref k.cpu).parent)) k.cpu).write k.cpu
          fun q => { q with state := .ZOMBIE }) = .ok k' := by
  simp only [exit]
  split <;> simp [*]

/-- An `exit` that returns touches the table (the parent's wakeup and the loop over the
children), then writes `ZOMBIE` through `c->proc`, which the touching kept, and calls `sched`. -/
theorem exit_cases (h : exit stride_scheduler k = .ok k') :
    k.cpu ≠ k.initproc ∧ ∃ k₁, k.Touched k₁ ∧
      sched stride_scheduler (k₁.write k₁.cpu fun q => { q with state := .ZOMBIE }) = .ok k' := by
  obtain ⟨hc, hs⟩ := exit_eq_ok.mp h
  have ht := (touched_wakeup1 k (.proc (k.deref k.cpu).parent)).trans (touched_reparent _ k.cpu)
  refine ⟨hc, _, ht, ?_⟩
  rw [ht.cpu_eq]
  exact hs

/-- `wait` reaps a zombie child, returns at once, or, with no zombie child, sleeps on the caller. -/
theorem wait_cases (h : wait stride_scheduler k = .ok k') :
    (∃ i, (k.ptable i).parent = k.cpu ∧ (k.ptable i).state = .ZOMBIE ∧ k' = reap k i) ∨ k' = k ∨
      (∀ i, (k.ptable i).parent = k.cpu → (k.ptable i).state ≠ .ZOMBIE) ∧
        sleep stride_scheduler k (.proc k.cpu) = .ok k' := by
  simp only [wait] at h
  split at h
  next i hi =>
    obtain ⟨hparent, hzombie⟩ := firstSlot_spec hi
    exact .inl ⟨i, hparent, hzombie, (Except.ok.inj h).symm⟩
  next hnone =>
    split at h
    · cases h
      exact .inr (.inl rfl)
    · -- it sleeps only when no child is a zombie
      exact .inr (.inr ⟨fun i hp hz => firstSlot_none hnone i ⟨hp, hz⟩, h⟩)

/-- A timer tick ends in `exit` or `yield` of the process on the CPU, or with the tick alone. -/
theorem timer_cases {user : Bool} (h : timer stride_scheduler k user = .ok k') :
    let k₁ := wakeup1 { k with ticks := k.ticks + 1 } .ticks
    k.cpu ≠ .null ∧ exit stride_scheduler k₁ = .ok k' ∨
      k.cpu ≠ .null ∧ yield stride_scheduler k₁ = .ok k' ∨ k' = k₁ := by
  simp only [timer] at h
  split at h
  next hc => exact .inl ⟨hc.1, h⟩
  · split at h
    next hc => exact .inr (.inl ⟨hc.1, h⟩)
    · cases h
      exact .inr (.inr rfl)

/-- A system call: a killed caller exits, or the call runs and the caller exits after it if it
is still on the CPU and was killed meanwhile. -/
theorem syscall_cases {call : Kernel → Except String Kernel}
    (h : syscall stride_scheduler k call = .ok k') :
    exit stride_scheduler k = .ok k' ∨
      ∃ k₁, call k = .ok k₁ ∧ (k₁.cpu ≠ .null ∧ exit stride_scheduler k₁ = .ok k' ∨ k' = k₁) := by
  simp only [syscall] at h
  split at h
  · exact .inl h
  · split at h
    next k₁ hk₁ =>
      split at h
      next hc => exact .inr ⟨k₁, hk₁, .inl ⟨hc.1, h⟩⟩
      · exact .inr ⟨k₁, hk₁, .inr (Except.ok.inj h).symm⟩
    · cases h

/-- What one event can be: a turn of the scheduler when no process runs, a timer tick, a
wakeup, or a system call of the running process that runs one of its calls. -/
theorem step_cases {e : Event} (h : step stride_scheduler k e = some k') :
    (e = .schedule ∧ k.cpu = .null ∧ k' = if stride_scheduler then schedStride k else schedRR k) ∨
    (∃ user, e = .timer user ∧ timer stride_scheduler k user = .ok k') ∨
    (∃ chan, e = .wakeup chan ∧ k' = wakeup1 k chan) ∨
    (k.cpu ≠ .null ∧ ∃ call : Kernel → Except String Kernel,
      syscall stride_scheduler k call = .ok k' ∧ ∀ k₁, call k = .ok k₁ →
        (∃ kallocOk copyOk, e = .fork kallocOk copyOk ∧ k₁ = fork stride_scheduler k kallocOk copyOk) ∨
        (e = .exit ∧ exit stride_scheduler k = .ok k₁) ∨ (e = .wait ∧ wait stride_scheduler k = .ok k₁) ∨
        (∃ chan, e = .sleep chan ∧ sleep stride_scheduler k chan = .ok k₁) ∨
        ∃ pid, e = .kill pid ∧ k₁ = kill k pid) := by
  -- each event is its guard, then what it runs
  cases e with
  | schedule =>
    obtain ⟨hc, h⟩ := Option.ite_none_right_eq_some.mp h
    exact .inl ⟨rfl, hc, (Option.some.inj h).symm⟩
  | timer user =>
    obtain ⟨-, h⟩ := Option.ite_none_right_eq_some.mp h
    exact .inr (.inl ⟨user, rfl, toOption_eq_some.mp h⟩)
  | wakeup chan =>
    obtain ⟨-, h⟩ := Option.ite_none_right_eq_some.mp h
    exact .inr (.inr (.inl ⟨chan, rfl, (Option.some.inj h).symm⟩))
  | fork kallocOk copyOk =>
    obtain ⟨hc, h⟩ := Option.ite_none_right_eq_some.mp h
    refine .inr (.inr (.inr ⟨hc, _, toOption_eq_some.mp h, fun k₁ hk₁ => ?_⟩))
    exact .inl ⟨kallocOk, copyOk, rfl, (Except.ok.inj hk₁).symm⟩
  | exit =>
    obtain ⟨hc, h⟩ := Option.ite_none_right_eq_some.mp h
    exact .inr (.inr (.inr ⟨hc, _, toOption_eq_some.mp h, fun k₁ hk₁ => .inr (.inl ⟨rfl, hk₁⟩)⟩))
  | wait =>
    obtain ⟨hc, h⟩ := Option.ite_none_right_eq_some.mp h
    exact .inr (.inr (.inr ⟨hc, _, toOption_eq_some.mp h,
      fun k₁ hk₁ => .inr (.inr (.inl ⟨rfl, hk₁⟩))⟩))
  | sleep chan =>
    obtain ⟨hc, h⟩ := Option.ite_none_right_eq_some.mp h
    exact .inr (.inr (.inr ⟨hc, _, toOption_eq_some.mp h,
      fun k₁ hk₁ => .inr (.inr (.inr (.inl ⟨chan, rfl, hk₁⟩)))⟩))
  | kill pid =>
    obtain ⟨hc, h⟩ := Option.ite_none_right_eq_some.mp h
    refine .inr (.inr (.inr ⟨hc, _, toOption_eq_some.mp h, fun k₁ hk₁ => ?_⟩))
    exact .inr (.inr (.inr (.inr ⟨pid, rfl, (Except.ok.inj hk₁).symm⟩)))

/-- A turn of the scheduler happens only when no process runs. -/
theorem schedule_cases (h : step stride_scheduler k .schedule = some k') :
    k.cpu = .null ∧ k' = if stride_scheduler then schedStride k else schedRR k := by
  obtain ⟨hc, h⟩ := Option.ite_none_right_eq_some.mp h
  exact ⟨hc, (Option.some.inj h).symm⟩

/-- A turn of the scheduler under `sched_RR` is one step of its inner loop. -/
theorem schedule_cases_rr (h : step false k .schedule = some k') :
    k.cpu = .null ∧ k' = schedRR k :=
  schedule_cases h

end Inversion

/-- The states of every run from `userinit`, whatever the scheduler's stack held at boot. -/
inductive Reachable (stride_scheduler : Bool) : Kernel → Prop where
  | boot (heapArr : ℕ → Proc) : Reachable stride_scheduler (userinit stride_scheduler (boot heapArr))
  | step {k k' : Kernel} (e : Event) :
      Reachable stride_scheduler k → step stride_scheduler k e = some k' →
        Reachable stride_scheduler k'

/-- A run of events, stopped at the first that cannot happen. -/
def run (stride_scheduler : Bool) (k : Kernel) : List Event → Option Kernel
  | [] => some k
  | e :: es => (step stride_scheduler k e).bind fun k => run stride_scheduler k es

/-- The end of a run from a reachable state is reachable. -/
theorem reachable_run {stride_scheduler : Bool} {k k' : Kernel} (hk : Reachable stride_scheduler k) :
    ∀ {es : List Event}, run stride_scheduler k es = some k' → Reachable stride_scheduler k' := by
  intro es
  induction es generalizing k with
  | nil => intro h; cases h; exact hk
  | cons e es ih =>
    intro h
    simp only [run, Option.bind_eq_some_iff] at h
    obtain ⟨k1, h1, h2⟩ := h
    exact ih (hk.step e h1) h2

/-- A run that happens ends in its result, read with any default. -/
theorem run_eq_getD {stride_scheduler : Bool} {k : Kernel} {es : List Event}
    (h : (run stride_scheduler k es).isSome) :
    run stride_scheduler k es = some ((run stride_scheduler k es).getD k) :=
  (Option.getD_of_ne_none (Option.isSome_iff_ne_none.mp h) k).symm

/-- The states a run of events passes through, from the first to the one where it stops. -/
def trace (stride_scheduler : Bool) (k : Kernel) : List Event → List Kernel
  | [] => [k]
  | e :: es =>
    k :: match step stride_scheduler k e with
      | some k₁ => trace stride_scheduler k₁ es
      | none => []

/-- A trace starts with its first state. -/
theorem self_mem_trace (stride_scheduler : Bool) (k : Kernel) (es : List Event) :
    k ∈ trace stride_scheduler k es := by
  cases es <;> simp [trace]

/-- A trace of a step and then a run is the first state followed by the run's trace. -/
theorem trace_cons {stride_scheduler : Bool} {k k₁ : Kernel} {e : Event} {es : List Event}
    (h : step stride_scheduler k e = some k₁) :
    trace stride_scheduler k (e :: es) = k :: trace stride_scheduler k₁ es := by
  simp [trace, h]

/-! ## Invariants of runs

A trap and the system-call path only compose the functions above, so an invariant of the kernel
that the scheduler's turn, a wakeup, a tick and each call of a process keep is kept by every
event. `StepInvariant` lists these obligations, one for each function; `StepInvariant.step`
takes an event apart by `step_cases`, and `StepInvariant.reachable` is the induction over runs. -/

/-- What an invariant `I` of the kernel must survive: each function that an event runs. -/
structure StepInvariant (stride_scheduler : Bool) (I : Kernel → Prop) : Prop where
  schedule : ∀ k, I k → k.cpu = .null → I (if stride_scheduler then schedStride k else schedRR k)
  wakeup : ∀ k chan, I k → I (wakeup1 k chan)
  tick : ∀ k, I k → I { k with ticks := k.ticks + 1 }
  yield : ∀ k k', I k → yield stride_scheduler k = .ok k' → I k'
  exit : ∀ k k', I k → exit stride_scheduler k = .ok k' → I k'
  wait : ∀ k k', I k → wait stride_scheduler k = .ok k' → I k'
  sleep : ∀ k chan k', I k → sleep stride_scheduler k chan = .ok k' → I k'
  /-- `fork` runs as a call of the process on the CPU. -/
  fork : ∀ k kallocOk copyOk, I k → k.cpu ≠ .null → I (fork stride_scheduler k kallocOk copyOk)
  kill : ∀ k pid, I k → I (kill k pid)

namespace StepInvariant

variable {stride_scheduler : Bool} {I : Kernel → Prop} {k k' : Kernel}

/-- A timer tick keeps a step invariant: after the tick and its wakeup the trap exits, yields or
returns (`timer_cases`). -/
theorem timer (hI : StepInvariant stride_scheduler I) (hk : I k) {user : Bool}
    (h : Xv6Stride.timer stride_scheduler k user = .ok k') : I k' := by
  -- the tick and its wakeup come first, whatever the trap then does with the process
  have hw : I (wakeup1 { k with ticks := k.ticks + 1 } .ticks) := hI.wakeup _ _ (hI.tick k hk)
  rcases timer_cases h with ⟨-, h⟩ | ⟨-, h⟩ | rfl
  · exact hI.exit _ _ hw h
  · exact hI.yield _ _ hw h
  · exact hw

/-- A system call whose call keeps a step invariant keeps it, with the exit of a killed caller
around it. -/
theorem syscall (hI : StepInvariant stride_scheduler I) (hk : I k)
    {call : Kernel → Except String Kernel} (hcall : ∀ k₁, call k = .ok k₁ → I k₁)
    (h : Xv6Stride.syscall stride_scheduler k call = .ok k') : I k' := by
  rcases syscall_cases h with h | ⟨k₁, hk₁, ⟨-, h⟩ | rfl⟩
  · exact hI.exit _ _ hk h
  · exact hI.exit _ _ (hcall k₁ hk₁) h
  · exact hcall _ hk₁

/-- Every event keeps the invariant. -/
theorem step (hI : StepInvariant stride_scheduler I) (hk : I k) {e : Event}
    (h : Xv6Stride.step stride_scheduler k e = some k') : I k' := by
  rcases step_cases h with ⟨-, hc, rfl⟩ | ⟨user, -, h⟩ | ⟨chan, -, rfl⟩ | ⟨hc, call, h, hcall⟩
  · exact hI.schedule k hk hc
  · exact hI.timer hk h
  · exact hI.wakeup k chan hk
  · refine hI.syscall hk (fun k₁ hk₁ => ?_) h
    -- the call the process made, with what it did
    rcases hcall k₁ hk₁ with ⟨kallocOk, copyOk, -, rfl⟩ | ⟨-, h⟩ | ⟨-, h⟩ | ⟨chan, -, h⟩ |
      ⟨pid, -, rfl⟩
    · exact hI.fork k kallocOk copyOk hk hc
    · exact hI.exit _ _ hk h
    · exact hI.wait _ _ hk h
    · exact hI.sleep _ _ _ hk h
    · exact hI.kill k pid hk

/-- An invariant that `userinit` establishes holds in every state of every run. -/
theorem reachable (hI : StepInvariant stride_scheduler I)
    (hboot : ∀ heapArr, I (userinit stride_scheduler (boot heapArr)))
    (hk : Reachable stride_scheduler k) : I k := by
  induction hk with
  | boot heapArr => exact hboot heapArr
  | step e _ hs ih => exact hI.step ih hs

end StepInvariant

end Xv6Stride
