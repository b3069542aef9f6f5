import Mathlib.Data.List.FinRange
import Xv6Stride.Minheap

/-!
# `filterproc.c`: selection by filtering

`filterproc.c` is a draft of the scheduler's choice that does without the heap. Its `getmin`
narrows the runnable slots in three passes: those with the least `pass`, among them those with
the least `runtime`, and among those the least `pid`. Each pass collects copies in a `procarray`
and tracks its minimum from the sentinel `10000`.

`init` assigns the array it allocates to its own parameter only, so as written every caller
goes on with an uninitialised pointer. The model follows the evident intent, which the caller
`getmin` relies on: `init` gives its caller an empty array of `maxsize` cells. The rest is the source as it stands,
the second pass included, whose update of the running minimum is `min_runtime = min_runtime`:
the minimum stays at the sentinel, and the third pass keeps only records whose `runtime` is
`10000`. When it keeps none, `getmin` returns the first record of the least pass, in table
order, whatever its `runtime` (`getmin_ne_heap`). A read of a cell that was never written,
which the source makes when a pass collects nothing, is `none`.

Without a tie the passes do their job: where one runnable slot alone has the least `pass`, below
the sentinel, the first pass finds that `pass` (`passOne_of_least`), the second collects that
slot alone (`passTwo_of_least`), and `getmin` returns it, as the heap does (`getmin_eq_heap`). Each pass is a loop that appends the
records passing a test and folds a running value over them (`foldl_collect`).
-/

namespace Xv6Stride.Filterproc

/-- `procarray` of `filterproc.c`: the records written so far (`size` of them) and `maxsize`. -/
structure Procarray where
  procs : List Proc
  maxsize : ℕ

/-- `init` as its callers use it: an empty array of `maxsize` cells. -/
def init (maxsize : ℕ) : Procarray := ⟨[], maxsize⟩

/-- `append`: `-1` on a full array, else the record goes after the others. -/
def append (parr : Procarray) (newproc : Proc) : ℤ × Procarray :=
  if parr.procs.length = parr.maxsize then (-1, parr)
  else (0, ⟨parr.procs ++ [newproc], parr.maxsize⟩)

/-- The first pass: every runnable slot is appended, and `minimum_pass` follows the least
`pass` from `10000`. -/
def passOne (ptable : List Proc) : ℤ × Procarray :=
  ptable.foldl
    (fun acc p =>
      if p.state = .RUNNABLE then
        (if p.pass < acc.1 then p.pass else acc.1, (append acc.2 p).2)
      else acc)
    (10000, init NPROC)

/-- The second pass: the runnable records of pass `minimum_pass` are appended; the update of
`min_runtime` assigns it to itself, as the source does. -/
def passTwo (minimum_pass : ℤ) (runnables : Procarray) : ℤ × Procarray :=
  runnables.procs.foldl
    (fun acc p =>
      if p.pass = minimum_pass then
        (if p.runtime < acc.1 then acc.1 else acc.1, (append acc.2 p).2)
      else acc)
    (10000, init runnables.procs.length)

/-- The third pass: records of `runtime` equal to `min_runtime` are appended, and `minpid`,
which starts at the first record of `minpass`, moves to any of them with a smaller `pid`. -/
def passThree (min_runtime : ℤ) (minpass : Procarray) : Option Proc × Procarray :=
  minpass.procs.foldl
    (fun acc p =>
      if p.runtime = min_runtime then
        (match acc.1 with
          | some q => if p.pid < q.pid then some p else some q
          | none => none,
         (append acc.2 p).2)
      else acc)
    (minpass.procs.head?, init minpass.procs.length)

/-- `getmin` of `filterproc.c` over the slots of `ptable.proc`. -/
def getmin (ptable : Fin NPROC → Proc) : Option Proc :=
  let (minimum_pass, runnables) := passOne (List.ofFn ptable)
  if runnables.procs.length = 1 then runnables.procs.head?
  else
    let (min_runtime, minpass) := passTwo minimum_pass runnables
    if minpass.procs.length = 1 then minpass.procs.head?
    else
      let (minpid, minruntime) := passThree min_runtime minpass
      if minruntime.procs.length = 1 then minruntime.procs.head? else minpid

/-- Two runnable slots of pass `0`: slot `0` with `pid` 2 and `runtime` 5, slot `1` with `pid` 1
and `runtime` 0. -/
def tieTable : Fin NPROC → Proc := fun i =>
  if i.val = 0 then { Proc.zero with state := .RUNNABLE, pid := 2, runtime := 5 }
  else if i.val = 1 then { Proc.zero with state := .RUNNABLE, pid := 1 }
  else Proc.zero

/-- On a tie on `pass`, `getmin` returns slot `0` (`pid` 2, `runtime` 5), while the heap
selection of `sched_stride` returns slot `1`, the runnable slot least in
`(pass, runtime, pid)`. The pids are distinct and the values are far below the sentinels. -/
theorem getmin_ne_heap :
    getmin tieTable = some (tieTable 0) ∧
      (scan ⟨fun _ => Proc.zero, 0, Nat.zero_le _⟩ (List.ofFn tieTable)).arr 0 = tieTable 1 ∧
      (tieTable 1).key < (tieTable 0).key := by
  decide +kernel

/-! ## Where `getmin` agrees with the heap -/

/-- A loop that appends the records passing `P` to an array with room for them, and folds `g`
over the same records: what each pass of `getmin` does. -/
theorem foldl_collect {β : Type} (P : Proc → Prop) [DecidablePred P] (g : β → Proc → β)
    (l : List Proc) (m : β) (arr : Procarray)
    (hcap : arr.procs.length + (l.filter P).length ≤ arr.maxsize) :
    l.foldl (fun acc p => if P p then (g acc.1 p, (append acc.2 p).2) else acc) (m, arr) =
      ((l.filter P).foldl g m, ⟨arr.procs ++ l.filter P, arr.maxsize⟩) := by
  induction l generalizing m arr with
  | nil => simp
  | cons p l ih =>
    by_cases hp : P p
    · -- the array has room for `p`, so `append` writes it
      have hcap' : arr.procs.length + 1 + (l.filter P).length ≤ arr.maxsize := by
        simp only [List.filter_cons, hp, decide_true, if_true, List.length_cons] at hcap
        omega
      have happ : (append arr p).2 = ⟨arr.procs ++ [p], arr.maxsize⟩ := by
        unfold append
        rw [if_neg (by omega)]
      simp only [List.foldl_cons, hp, if_true, happ]
      rw [ih _ _ (by simpa using hcap')]
      simp [hp]
    · simp only [List.foldl_cons, hp, if_false]
      rw [ih m arr (by simpa [hp] using hcap)]
      simp [hp]

/-- The running minimum of the first pass is at most its start and every `pass` it met, and is
one of those. -/
theorem foldl_min_pass (l : List Proc) (m : ℤ) :
    let v := l.foldl (fun acc p => if p.pass < acc then p.pass else acc) m
    v ≤ m ∧ (∀ r ∈ l, v ≤ r.pass) ∧ (v = m ∨ ∃ r ∈ l, v = r.pass) := by
  induction l generalizing m with
  | nil => simp
  | cons p l ih =>
    simp only [List.foldl_cons, List.mem_cons, forall_eq_or_imp, exists_eq_or_imp]
    by_cases hlt : p.pass < m
    · -- `p` lowers the running minimum to its own pass
      rw [if_pos hlt]
      obtain ⟨hle, hall, hwho⟩ := ih p.pass
      refine ⟨by omega, ⟨hle, hall⟩, ?_⟩
      rcases hwho with h | h
      · exact .inr (.inl h)
      · exact .inr (.inr h)
    · rw [if_neg hlt]
      obtain ⟨hle, hall, hwho⟩ := ih m
      refine ⟨hle, ⟨by omega, hall⟩, ?_⟩
      rcases hwho with h | h
      · exact .inl h
      · exact .inr (.inr h)

/-- Filtering the records of a table by a test that one slot alone passes leaves that slot's
record. -/
theorem filter_ofFn_eq_singleton {α : Type} {n : ℕ} (f : Fin n → α) (P : α → Bool) (i : Fin n)
    (h : ∀ j, P (f j) = true ↔ j = i) : (List.ofFn f).filter P = [f i] := by
  rw [List.ofFn_eq_map, List.filter_map]
  -- on the slot numbers the test is `j = i`, and `i` occurs once in `finRange`
  have hfin : (List.finRange n).filter (P ∘ f) = [i] := by
    rw [List.filter_congr (q := fun j => j == i)
      (fun j _ => by rw [Bool.eq_iff_iff, Function.comp_apply, h, beq_iff_eq])]
    rw [List.filter_beq, List.count_eq_one_of_mem (List.nodup_finRange n) (List.mem_finRange i)]
    rfl
  simp [hfin]

section Least

/-! Throughout, slot `i` is runnable and has a smaller `pass` than every other runnable slot. -/

variable {ptable : Fin NPROC → Proc} {i : Fin NPROC}
  (hi : (ptable i).state = .RUNNABLE)
  (hleast : ∀ j, (ptable j).state = .RUNNABLE → j ≠ i → (ptable i).pass < (ptable j).pass)
include hi hleast

omit hleast in
/-- Slot `i`'s record is among those the first pass collects. -/
theorem mem_runnables : ptable i ∈ (List.ofFn ptable).filter (fun p => p.state = .RUNNABLE) :=
  List.mem_filter.mpr ⟨List.mem_ofFn.mpr ⟨i, rfl⟩, by simpa using hi⟩

omit hi in
/-- Every runnable record other than slot `i`'s has a larger `pass`. -/
theorem runnable_eq_or_pass_lt :
    ∀ r ∈ (List.ofFn ptable).filter (fun p => p.state = .RUNNABLE),
      r = ptable i ∨ (ptable i).pass < r.pass := by
  intro r hr
  obtain ⟨hr, hrun⟩ := List.mem_filter.mp hr
  obtain ⟨j, rfl⟩ := List.mem_ofFn.mp hr
  by_cases hji : j = i
  · exact .inl (hji ▸ rfl)
  · exact .inr (hleast j (by simpa using hrun) hji)

/-- Below the sentinel, the first pass collects the runnable records and ends at slot `i`'s
`pass`. -/
theorem passOne_of_least (hlow : (ptable i).pass < 10000) :
    passOne (List.ofFn ptable) =
      ((ptable i).pass, ⟨(List.ofFn ptable).filter (fun p => p.state = .RUNNABLE), NPROC⟩) := by
  set R := (List.ofFn ptable).filter fun p => p.state = .RUNNABLE
  have hcollect : passOne (List.ofFn ptable) =
      (R.foldl (fun acc p => if p.pass < acc then p.pass else acc) 10000, ⟨R, NPROC⟩) := by
    unfold passOne
    rw [foldl_collect (fun p => p.state = .RUNNABLE)
      fun acc p => if p.pass < acc then p.pass else acc]
    · rfl
    · have hlen : (List.ofFn ptable).length ≤ NPROC := by simp
      simpa [init] using (List.length_filter_le _ _).trans hlen
  -- the running minimum is a pass it met, or the sentinel, and at most slot `i`'s
  obtain ⟨-, hall, hwho⟩ := foldl_min_pass R 10000
  have hle := hall _ (mem_runnables hi)
  rw [hcollect, Prod.mk.injEq]
  refine ⟨?_, rfl⟩
  rcases hwho with h | ⟨r, hr, h⟩
  · omega
  · rcases runnable_eq_or_pass_lt hleast r hr with rfl | hlt
    · exact h
    · omega

/-- The second pass, run on the runnable records with slot `i`'s `pass`, collects slot `i`'s
record alone. -/
theorem passTwo_of_least :
    let R := (List.ofFn ptable).filter (fun p => p.state = .RUNNABLE)
    (passTwo (ptable i).pass ⟨R, NPROC⟩).2 = ⟨[ptable i], R.length⟩ := by
  intro R
  -- among the runnable records, slot `i`'s alone has that pass
  have hsingle : R.filter (fun p => p.pass = (ptable i).pass) = [ptable i] := by
    rw [List.filter_filter]
    apply filter_ofFn_eq_singleton
    intro j
    by_cases hji : j = i
    · subst hji
      simp [hi]
    · simp only [Bool.and_eq_true, decide_eq_true_eq, hji, iff_false, not_and]
      intro heq hj
      exact absurd heq (ne_of_gt (hleast j hj hji))
  unfold passTwo
  rw [foldl_collect (fun p => p.pass = (ptable i).pass)
    fun acc p => if p.runtime < acc then acc else acc]
  · simp [init, hsingle]
  · simp only [init, hsingle, List.length_nil, List.length_singleton]
    exact List.length_pos_of_mem (mem_runnables hi)

/-- Below the sentinel, `getmin` returns slot `i`'s record: from the first pass if it is the only
runnable record, else from the second. -/
theorem getmin_of_least (hlow : (ptable i).pass < 10000) : getmin ptable = some (ptable i) := by
  have hiR := mem_runnables hi
  unfold getmin
  rw [passOne_of_least hi hleast hlow]
  by_cases h1 : ((List.ofFn ptable).filter (fun p => p.state = .RUNNABLE)).length = 1
  · obtain ⟨r, hr⟩ := List.length_eq_one_iff.mp h1
    rw [hr] at hiR
    simp [hr, List.mem_singleton.mp hiR]
  · simp [h1, passTwo_of_least hi hleast]

/-- The heap's root after a scan from an empty heap is slot `i`'s record: it is least in
`(pass, runtime, pid)` among the runnable records, and a record of larger `pass` is not. -/
theorem scan_root_of_least (arr : ℕ → Proc) :
    (scan ⟨arr, 0, Nat.zero_le _⟩ (List.ofFn ptable)).arr 0 = ptable i := by
  have hlen : (List.ofFn ptable).length ≤ NPROC := by simp
  obtain ⟨-, hmem, hrun⟩ := scan_root_mem arr hlen (List.mem_ofFn.mpr ⟨i, rfl⟩) hi
  have hle := (scan_root arr hlen).2 _ (List.mem_ofFn.mpr ⟨i, rfl⟩) hi
  rcases runnable_eq_or_pass_lt hleast _ (List.mem_filter.mpr ⟨hmem, by simpa using hrun⟩)
    with h | hlt
  · exact h
  · -- a root of larger pass would come after slot `i` in the key order
    rw [Proc.key, Proc.key, le_iff_lt_or_eq, key_lt_iff, key_eq_iff] at hle
    omega

end Least

/-- Where one runnable slot alone has the least `pass`, and it is below the sentinel `10000`,
`getmin` returns that slot's record, and so does the heap selection of `sched_stride`. Ties on
`pass` are where the two can part (`getmin_ne_heap`). -/
theorem getmin_eq_heap (ptable : Fin NPROC → Proc) (arr : ℕ → Proc) {i : Fin NPROC}
    (hi : (ptable i).state = .RUNNABLE) (hlow : (ptable i).pass < 10000)
    (hleast : ∀ j, (ptable j).state = .RUNNABLE → j ≠ i → (ptable i).pass < (ptable j).pass) :
    getmin ptable = some (ptable i) ∧
      (scan ⟨arr, 0, Nat.zero_le _⟩ (List.ofFn ptable)).arr 0 = ptable i :=
  ⟨getmin_of_least hi hleast hlow, scan_root_of_least hi hleast arr⟩

/-- Two runnable slots of distinct passes: slot `1`, of pass `3`, is the one both choose. -/
def passTable : Fin NPROC → Proc := fun i =>
  if i.val = 0 then { Proc.zero with state := .RUNNABLE, pid := 1, pass := 5 }
  else if i.val = 1 then { Proc.zero with state := .RUNNABLE, pid := 2, pass := 3, runtime := 7 }
  else Proc.zero

/-- In `passTable` slot `1` alone has the least `pass`, and both selections return it. -/
theorem getmin_eq_heap_passTable :
    getmin passTable = some (passTable 1) ∧
      (scan ⟨fun _ => Proc.zero, 0, Nat.zero_le _⟩ (List.ofFn passTable)).arr 0 = passTable 1 :=
  getmin_eq_heap passTable (fun _ => Proc.zero) (by decide) (by decide) (by decide)

end Xv6Stride.Filterproc
