import Xv6Stride.Compare
import Xv6Stride.ArrayHeap.Sift

/-!
# The heap of `heaptest.c`

`heaptest.c` is the user-space test bed of the scheduler's heap. Its `struct proc` is a record of
its own, and its `minheap` has a `malloc`ed array of `maxsize` cells, `push` as in `proc.c`, and
also `pop` (the last record to the root, then `heapify`) and `getsorted`, which pops every record
in turn and pushes them all back.

Every run of pushes below `maxsize` and pops above size `0` from `init` (`Run`) keeps heap order
and holds exactly the records pushed and not yet popped; each pop takes a record that no record
of the heap is strictly before (`pop_spec`). `getsorted` pops the heap empty in sorted order
(`drain_spec`) and pushes the sorted records back (`refill_spec`): `getsorted_spec`. Every
such run, `main`'s twelve pushes among them, and the `getsorted` at its end are covered by
`heap_run`. `heapify` terminates on every input: it is defined by recursion on
`size - idx`, which each exchange lowers.
-/

namespace Xv6Stride.Heaptest

open ArrayHeap

/-- `struct proc` of `heaptest.c`. -/
structure Proc where
  pid : ℤ
  name : String
  tickets : ℤ
  stride : ℤ
  pass : ℤ
  remain : ℤ
  last_scheduled : ℤ
  last_interrupted : ℤ
  runtime : ℤ
  deriving DecidableEq, Repr

/-- `compare` of `heaptest.c`. -/
def compare (p1 p2 : Proc) : ℤ :=
  compareKeys p1.pass p1.runtime p1.pid p2.pass p2.runtime p2.pid

/-- `greater` of `heaptest.c`: `compare(p1, p2) > 0`. -/
def greater (p1 p2 : Proc) : Bool := decide (compare p1 p2 > 0)

/-- `greater` is false exactly when `compare` puts the first record at or before the second. -/
theorem greater_eq_false_iff {p q : Proc} : greater p q = false ↔ compare p q ≤ 0 := by
  simp [greater]

/-- `greater` is a comparator: asymmetric, with a transitive negation, as the heap functions need. -/
theorem comparator_greater : Comparator greater :=
  comparator_compareKeys Proc.pass Proc.runtime Proc.pid

/-- `minheap` of `heaptest.c`: `arr`, `size` and `maxsize`. -/
structure Minheap where
  arr : ℕ → Proc
  size : ℕ
  maxsize : ℕ
  size_le : size ≤ maxsize

/-- `init`: size `0` and `maxsize` cells; `arr` is what `malloc` returned, whatever it holds. -/
def init (maxsize : ℕ) (arr : ℕ → Proc) : Minheap := ⟨arr, 0, maxsize, Nat.zero_le _⟩

/-- `heapify(h, idx)`: the sift-down of the library, on the heap's counted cells. -/
def heapify (h : Minheap) (idx : ℕ) : Minheap :=
  { h with arr := siftDown greater h.arr h.size idx }

/-- `push` of `heaptest.c`: as in `proc.c`, with `maxsize` for `NPROC`. -/
def push (h : Minheap) (p : Proc) : ℤ × Minheap :=
  if hs : h.size = h.maxsize then (-1, h)
  else
    (0, { arr := siftUp greater (Function.update h.arr h.size p) h.size
          size := h.size + 1
          maxsize := h.maxsize
          size_le := by have := h.size_le; omega })

/-- `getmin` of `heaptest.c`: a copy of `arr[0]`. -/
def getmin (h : Minheap) : Proc := h.arr 0

/-- `pop`: `swap(&arr[0], &arr[size - 1]); size--; heapify(h, 0)`. On an empty heap the C
indexes `arr[-1]`; the model's `size - 1` stops at `0` there. `getsorted`, the only caller of
`pop`, pops `size` times and so never an empty heap. -/
def pop (h : Minheap) : Minheap :=
  heapify
    { arr := swap h.arr 0 (h.size - 1)
      size := h.size - 1
      maxsize := h.maxsize
      size_le := by have := h.size_le; omega } 0

/-- The first loop of `getsorted`: `k` times, `sorted[i] = getmin(h); pop(h)`. -/
def drain : ℕ → Minheap → List Proc × Minheap
  | 0, h => ([], h)
  | k + 1, h =>
    let r := drain k (pop h)
    (getmin h :: r.1, r.2)

/-- The second loop of `getsorted`: `push(h, &sorted[i])` for every `i`, in order. -/
def refill (h : Minheap) (sorted : List Proc) : Minheap :=
  sorted.foldl (fun h p => (push h p).2) h

/-- `getsorted`: the records in the order they were popped, and the heap after they are pushed
back. -/
def getsorted (h : Minheap) : List Proc × Minheap :=
  let r := drain h.size h
  (r.1, refill r.2 r.1)

/-! ## One operation -/

variable {h : Minheap}

/-- A push below `maxsize` returns `0` and inserts the record at the end, sifted up. -/
theorem push_of_lt (hs : h.size < h.maxsize) (p : Proc) :
    (push h p).1 = 0 ∧ (push h p).2.size = h.size + 1 ∧
      (push h p).2.arr = insert greater h.arr h.size p ∧ (push h p).2.maxsize = h.maxsize := by
  simp [push, Nat.ne_of_lt hs, ArrayHeap.insert]

/-- `pop` moves the last record to the root and sifts it down. -/
theorem pop_arr (h : Minheap) : (pop h).arr = removeRoot greater h.arr h.size := rfl

/-- `pop` counts one record fewer. -/
theorem pop_size (h : Minheap) : (pop h).size = h.size - 1 := rfl

/-- `pop` keeps the array's capacity. -/
theorem pop_maxsize (h : Minheap) : (pop h).maxsize = h.maxsize := rfl

/-- The record `getmin` returns is at or before every record of an ordered heap. -/
theorem getmin_first (ho : HeapOrder greater h.arr h.size) {q : Proc}
    (hq : q ∈ elems h.arr h.size) : compare (getmin h) q ≤ 0 :=
  greater_eq_false_iff.mp (ho.root_first_mem comparator_greater hq)

/-- `pop` of a non-empty ordered heap takes the record `getmin` returns and keeps the others,
in heap order. -/
theorem pop_spec (ho : HeapOrder greater h.arr h.size) (hn : 0 < h.size) :
    (getmin h :: elems (pop h).arr (pop h).size).Perm (elems h.arr h.size) ∧
      HeapOrder greater (pop h).arr (pop h).size :=
  ⟨removeRoot_perm hn, removeRoot_heapOrder comparator_greater ho⟩

/-- A push below `maxsize` adds the record and keeps heap order. -/
theorem holds_push {l : List Proc} (hh : Holds greater h.arr h.size l) (hs : h.size < h.maxsize)
    (p : Proc) :
    Holds greater (push h p).2.arr (push h p).2.size (l ++ [p]) ∧
      (push h p).2.maxsize = h.maxsize := by
  obtain ⟨-, hsize, harr, hmax⟩ := push_of_lt hs p
  rw [hsize, harr]
  exact ⟨hh.insert comparator_greater p, hmax⟩

/-! ## `getsorted` -/

/-- `k` pops of an ordered heap with at least `k` records return them in sorted order, and the
heap keeps the rest in heap order. -/
theorem drain_spec (k : ℕ) : ∀ h : Minheap, HeapOrder greater h.arr h.size → k ≤ h.size →
    ((drain k h).1 ++ elems (drain k h).2.arr (drain k h).2.size).Perm (elems h.arr h.size) ∧
      (drain k h).1.Pairwise (fun x y => compare x y ≤ 0) ∧
      HeapOrder greater (drain k h).2.arr (drain k h).2.size ∧
      (drain k h).2.size = h.size - k ∧ (drain k h).2.maxsize = h.maxsize := by
  induction k with
  | zero => intro h ho _; simp [drain, ho]
  | succ k ih =>
    intro h ho hk
    obtain ⟨hpop, hpo⟩ := pop_spec ho (by omega)
    obtain ⟨hperm, hsorted, hord, hsize, hmax⟩ := ih (pop h) hpo (by rw [pop_size]; omega)
    -- Every record popped later was in the heap when `getmin` was read.
    have hlater : ∀ y ∈ (drain k (pop h)).1, compare (getmin h) y ≤ 0 := by
      intro y hy
      have hy' : y ∈ elems (pop h).arr (pop h).size :=
        hperm.mem_iff.mp (List.mem_append_left _ hy)
      exact getmin_first ho (hpop.mem_iff.mp (List.mem_cons_of_mem _ hy'))
    refine ⟨?_, List.pairwise_cons.mpr ⟨hlater, hsorted⟩, hord, ?_, ?_⟩
    · show (getmin h :: ((drain k (pop h)).1 ++ elems (drain k (pop h)).2.arr
        (drain k (pop h)).2.size)).Perm (elems h.arr h.size)
      exact (hperm.cons _).trans hpop
    · show (drain k (pop h)).2.size = h.size - (k + 1)
      rw [hsize, pop_size]; omega
    · show (drain k (pop h)).2.maxsize = h.maxsize
      rw [hmax, pop_maxsize]

/-- Pushing records back into a heap with room for all of them keeps every one, in heap
order. -/
theorem refill_spec (l : List Proc) : ∀ (h : Minheap) (acc : List Proc),
    Holds greater h.arr h.size acc → h.size + l.length ≤ h.maxsize →
      Holds greater (refill h l).arr (refill h l).size (acc ++ l) ∧
        (refill h l).maxsize = h.maxsize := by
  induction l with
  | nil => intro h acc hh _; simpa [refill] using hh
  | cons p l ih =>
    intro h acc hh hroom
    simp only [List.length_cons] at hroom
    obtain ⟨hh', hmax⟩ := holds_push hh (by omega) p
    have hsize : (push h p).2.size = h.size + 1 := (push_of_lt (by omega) p).2.1
    obtain ⟨hfin, hmax'⟩ := ih (push h p).2 (acc ++ [p]) hh' (by rw [hsize, hmax]; omega)
    refine ⟨?_, ?_⟩
    · simpa [refill] using hfin
    · rw [← hmax]; exact hmax'

/-- `getsorted` of an ordered heap returns its records sorted, and leaves the heap holding the
same records, in heap order, at the same size. -/
theorem getsorted_spec (ho : HeapOrder greater h.arr h.size) :
    (getsorted h).1.Perm (elems h.arr h.size) ∧
      (getsorted h).1.Pairwise (fun x y => compare x y ≤ 0) ∧
      Holds greater (getsorted h).2.arr (getsorted h).2.size (getsorted h).1 ∧
      (getsorted h).2.size = h.size := by
  obtain ⟨hperm, hsorted, hord, hsize, hmax⟩ := drain_spec h.size h ho le_rfl
  generalize hr : drain h.size h = r at hperm hsorted hord hsize hmax
  -- The first loop leaves an empty heap, so the popped records are all of them.
  have hempty : r.2.size = 0 := by rw [hsize]; omega
  have hall : r.1.Perm (elems h.arr h.size) := by
    simpa [hempty, elems] using hperm
  have hlen : r.1.length = h.size := by rw [hall.length_eq, length_elems]
  have hstart : Holds greater r.2.arr r.2.size [] := by
    rw [hempty]; exact holds_zero greater r.2.arr
  obtain ⟨hfin, -⟩ := refill_spec r.1 r.2 [] hstart
    (by rw [hempty, hlen, hmax, Nat.zero_add]; exact h.size_le)
  simp only [getsorted, hr, List.nil_append] at hfin ⊢
  exact ⟨hall, hsorted, hfin, by rw [hfin.length_eq, hlen]⟩

/-! ## Runs -/

/-- The heaps that pushes below `maxsize` and pops above size `0` reach from `init`, with the
records pushed and the records popped (each the `getmin` of its pop), in order. -/
inductive Run : Minheap → List Proc → List Proc → Prop where
  | init (maxsize : ℕ) (arr : ℕ → Proc) : Run (init maxsize arr) [] []
  | push {h : Minheap} {pushed popped : List Proc} (p : Proc) :
      Run h pushed popped → h.size < h.maxsize → Run (push h p).2 (pushed ++ [p]) popped
  | pop {h : Minheap} {pushed popped : List Proc} :
      Run h pushed popped → 0 < h.size → Run (pop h) pushed (popped ++ [getmin h])

/-- Along a run the heap is ordered and holds the records pushed and not popped. -/
theorem holds_of_run {pushed popped : List Proc} (r : Run h pushed popped) :
    HeapOrder greater h.arr h.size ∧ (elems h.arr h.size ++ popped).Perm pushed := by
  induction r with
  | init maxsize arr => exact ⟨(holds_zero greater arr).ordered, by simp [Heaptest.init, elems]⟩
  | @push h pushed popped p _ hs ih =>
    obtain ⟨ho, hperm⟩ := ih
    obtain ⟨hh', -⟩ := holds_push ⟨List.Perm.refl _, ho⟩ hs p
    refine ⟨hh'.ordered, ?_⟩
    -- The new record joins the stored ones: `stored ++ [p] ++ popped ~ pushed ++ [p]`.
    calc (elems (push h p).2.arr (push h p).2.size ++ popped).Perm
          (elems h.arr h.size ++ [p] ++ popped) := hh'.perm.append_right popped
      _ = elems h.arr h.size ++ ([p] ++ popped) := List.append_assoc _ _ _
      List.Perm _ (elems h.arr h.size ++ (popped ++ [p])) := List.perm_append_comm.append_left _
      _ = elems h.arr h.size ++ popped ++ [p] := (List.append_assoc _ _ _).symm
      List.Perm _ (pushed ++ [p]) := hperm.append_right [p]
  | @pop h pushed popped _ hn ih =>
    obtain ⟨ho, hperm⟩ := ih
    obtain ⟨hpop, hpo⟩ := pop_spec ho hn
    refine ⟨hpo, ?_⟩
    -- The popped record leaves the stored ones for the popped list.
    calc (elems (pop h).arr (pop h).size ++ (popped ++ [getmin h])).Perm
          (getmin h :: (elems (pop h).arr (pop h).size ++ popped)) := by
          rw [← List.append_assoc]
          exact List.perm_append_singleton _ _
      _ = (getmin h :: elems (pop h).arr (pop h).size) ++ popped := rfl
      List.Perm _ (elems h.arr h.size ++ popped) := hpop.append_right popped
      List.Perm _ pushed := hperm

/-- Every interleaving of pushes below `maxsize` and pops above size `0` from `init`: the heap is
in heap order, its records are those pushed less those popped, each pop takes a record at or
before every record of the heap, and `getsorted` returns the heap's records sorted in
non-decreasing `compare` order and leaves the same records in heap order. -/
theorem heap_run {pushed popped : List Proc} (r : Run h pushed popped) :
    (∀ i, 0 < i → i < h.size → compare (h.arr (parent i)) (h.arr i) ≤ 0) ∧
      (elems h.arr h.size ++ popped).Perm pushed ∧
      (0 < h.size → (∀ q ∈ elems h.arr h.size, compare (getmin h) q ≤ 0) ∧
        (getmin h :: elems (pop h).arr (pop h).size).Perm (elems h.arr h.size)) ∧
      (getsorted h).1.Perm (elems h.arr h.size) ∧
      (getsorted h).1.Pairwise (fun x y => compare x y ≤ 0) ∧
      (elems (getsorted h).2.arr (getsorted h).2.size).Perm (elems h.arr h.size) ∧
      (∀ i, 0 < i → i < (getsorted h).2.size →
        compare ((getsorted h).2.arr (parent i)) ((getsorted h).2.arr i) ≤ 0) := by
  obtain ⟨ho, hperm⟩ := holds_of_run r
  obtain ⟨hall, hsorted, hfin, -⟩ := getsorted_spec ho
  have horder : ∀ {a : ℕ → Proc} {n : ℕ}, HeapOrder greater a n →
      ∀ i, 0 < i → i < n → compare (a (parent i)) (a i) ≤ 0 :=
    fun ho i h0 hi => greater_eq_false_iff.mp (ho i h0 hi)
  exact ⟨horder ho, hperm, fun hn => ⟨fun q hq => getmin_first ho hq, (pop_spec ho hn).1⟩,
    hall, hsorted, hfin.perm.trans hall, horder hfin.ordered⟩

/-- The first two pushes of `main` (`P8` with pass 1, `P7` with pass 7) and a pop, on a heap of
`hsize = 12` cells: the run's conditions hold, and `getsorted` sorts what is left. -/
theorem heap_run_main :
    let h := pop (push (push (init 12 fun _ => ⟨0, "", 0, 0, 0, 0, 0, 0, 0⟩)
      ⟨8, "P8", 0, 0, 1, 0, 0, 0, 5⟩).2 ⟨7, "P7", 0, 0, 7, 0, 0, 0, 4⟩).2
    (getsorted h).1.Perm (elems h.arr h.size) ∧
      (getsorted h).1.Pairwise (fun x y => compare x y ≤ 0) :=
  let r := heap_run (Run.pop (Run.push _ (Run.push _ (Run.init 12 _) (by decide)) (by decide))
    (by decide))
  ⟨r.2.2.2.1, r.2.2.2.2.1⟩

end Xv6Stride.Heaptest
