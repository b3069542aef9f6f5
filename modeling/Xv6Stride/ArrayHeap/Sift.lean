import Xv6Stride.ArrayHeap.Basic

/-!
# Sifting up and down

`siftUp` is the loop of a heap's `push`: while the record at cell `i` is strictly before its
parent's, the two are exchanged and the loop moves to the parent. `siftDown` is `heapify`: the
record at cell `i` is exchanged with the first of its counted children that is strictly before it
and before its sibling, and the recursion moves to that child. Both move along one path and only
exchange cells, so they permute the records (`siftUp_perm`, `siftDown_perm`).

Each sift restores heap order from a start in which order may fail at one cell only. The two
starts are `SiftingUp` (every parent and child pair is ordered except the pair above `i`, and the
parent of `i` is at or before the children of `i`) and `SiftingDown` (every pair is ordered
except the pairs below `i`, and the parent of `i` is at or before the children of `i`). One
exchange keeps the start at the next cell of the path (`SiftingUp.swap_parent`,
`SiftingDown.swap_smallest`), and the cell where a sift stops has its pair in order
(`SiftingUp.heapOrder`, `SiftingDown.heapOrder`).

`insert` writes a record past the last counted cell and sifts it up; `removeRoot` moves the last
counted record to the root and sifts it down. Their specifications (`insert_perm`,
`insert_heapOrder`, `removeRoot_perm`, `removeRoot_heapOrder`) are what the heaps of the kernel
and of `heaptest.c` use, through `Holds`: the counted cells hold a given list of records, in heap
order.
-/

namespace ArrayHeap

variable {α : Type*} {gt : α → α → Bool} {a : ℕ → α} {i j k n : ℕ}

/-! ## Up -/

/-- The loop of `push`: `while (idx != 0 && greater(&arr[parent(idx)], &arr[idx]))`, exchanging
the two cells and moving to the parent. -/
def siftUp (gt : α → α → Bool) (a : ℕ → α) (i : ℕ) : ℕ → α :=
  if _ : i ≠ 0 ∧ gt (a (parent i)) (a i) = true then
    siftUp gt (swap a i (parent i)) (parent i)
  else a
termination_by i
decreasing_by exact parent_lt ‹i ≠ 0 ∧ _›.1

/-- The loop writes nothing past the cell it starts from. -/
theorem siftUp_apply_of_lt (h : i < k) : siftUp gt a i k = a k := by
  fun_induction siftUp gt a i with
  | case1 a i hcond ih =>
    rw [ih (Nat.lt_of_le_of_lt (parent_le i) h)]
    exact swap_apply_of_ne (Nat.ne_of_gt h) (Nat.ne_of_gt (Nat.lt_of_le_of_lt (parent_le i) h))
  | case2 => rfl

/-- The loop permutes the records of any prefix that holds its start. -/
theorem siftUp_perm (hi : i < n) : (elems (siftUp gt a i) n).Perm (elems a n) := by
  fun_induction siftUp gt a i with
  | case1 a i hcond ih =>
    have hp : parent i < n := Nat.lt_of_le_of_lt (parent_le i) hi
    exact (ih hp).trans (elems_swap_perm hi hp)
  | case2 => exact List.Perm.refl _

/-- The start of `siftUp` at cell `i`: all pairs are ordered except the one above `i`, and the
parent of `i` is at or before the children of `i`. -/
structure SiftingUp (gt : α → α → Bool) (a : ℕ → α) (n i : ℕ) : Prop where
  except : ∀ j, 0 < j → j < n → j ≠ i → gt (a (parent j)) (a j) = false
  grand : 0 < i → ∀ c, 0 < c → c < n → parent c = i → gt (a (parent i)) (a c) = false

/-- One exchange with a parent that is strictly after the record moves the start up. -/
theorem SiftingUp.swap_parent (hc : Comparator gt) (o : SiftingUp gt a n i) (hi : 0 < i)
    (hin : i < n) (hgt : gt (a (parent i)) (a i) = true) :
    SiftingUp gt (swap a i (parent i)) n (parent i) := by
  have hki : parent i < i := parent_lt (Nat.pos_iff_ne_zero.mp hi)
  constructor
  · intro j hj0 hjn hjk
    by_cases hji : j = i
    · -- The exchanged pair itself is now in order.
      subst hji
      rw [swap_apply_right, swap_apply_left]
      exact hc.asymm _ _ hgt
    rw [swap_apply_of_ne hji hjk]
    by_cases hpi : parent j = i
    · -- A child of `i` is now under the old parent of `i`.
      rw [hpi, swap_apply_left]
      exact o.grand hi j hj0 hjn hpi
    by_cases hpk : parent j = parent i
    · -- A sibling of `i` is now under the record that moved up.
      have hold := o.except j hj0 hjn hji
      rw [hpk] at hold
      rw [hpk, swap_apply_right]
      exact hc.trans_of_gt hgt hold
    · rw [swap_apply_of_ne hpi hpk]
      exact o.except j hj0 hjn hji
  · intro hk0 c hc0 hcn hpc
    have hpk : parent (parent i) < parent i := parent_lt (Nat.pos_iff_ne_zero.mp hk0)
    rw [swap_apply_of_ne (by omega) (Nat.ne_of_lt hpk)]
    have hup := o.except (parent i) hk0 (by omega) (Nat.ne_of_lt hki)
    by_cases hci : c = i
    · subst hci
      rw [swap_apply_left]
      exact hup
    · have hck : c ≠ parent i := Nat.ne_of_gt (lt_of_parent_eq hc0 hpc)
      rw [swap_apply_of_ne hci hck]
      have hold := o.except c hc0 hcn hci
      rw [hpc] at hold
      exact hc.trans _ _ _ hup hold

/-- Where the loop stops, at the root or below a parent that is not after the record, the heap
is ordered. -/
theorem SiftingUp.heapOrder (o : SiftingUp gt a n i)
    (hstop : 0 < i → gt (a (parent i)) (a i) = false) : HeapOrder gt a n := by
  intro j hj0 hjn
  by_cases hji : j = i
  · subst hji
    exact hstop hj0
  · exact o.except j hj0 hjn hji

/-- The loop restores heap order from its start. -/
theorem siftUp_heapOrder (hc : Comparator gt) (o : SiftingUp gt a n i) (hin : i < n) :
    HeapOrder gt (siftUp gt a i) n := by
  fun_induction siftUp gt a i with
  | case1 a i hcond ih =>
    have hi : 0 < i := Nat.pos_iff_ne_zero.mpr hcond.1
    exact ih (o.swap_parent hc hi hin hcond.2) (Nat.lt_of_le_of_lt (parent_le i) hin)
  | case2 a i hcond =>
    refine o.heapOrder fun hi => ?_
    simpa [Nat.pos_iff_ne_zero.mp hi] using hcond

/-- A record written past the counted cells and sifted up, as `push` does. -/
def insert (gt : α → α → Bool) (a : ℕ → α) (n : ℕ) (x : α) : ℕ → α :=
  siftUp gt (Function.update a n x) n

/-- The new record is the only pair that may be out of order. -/
theorem sifting_update (ho : HeapOrder gt a n) (x : α) :
    SiftingUp gt (Function.update a n x) (n + 1) n := by
  constructor
  · intro j hj0 hjn hjk
    have hjn' : j < n := by omega
    have hpj : parent j < n := Nat.lt_of_le_of_lt (parent_le j) hjn'
    rw [Function.update_of_ne (Nat.ne_of_lt hjn'), Function.update_of_ne (Nat.ne_of_lt hpj)]
    exact ho j hj0 hjn'
  · intro _ c hc0 hcn hpc
    have := (parent_eq_iff hc0).mp hpc
    omega

/-- Insertion at the end of an ordered heap, sifted up, leaves one more cell in heap order. -/
theorem insert_heapOrder (hc : Comparator gt) (ho : HeapOrder gt a n) (x : α) :
    HeapOrder gt (insert gt a n x) (n + 1) :=
  siftUp_heapOrder hc (sifting_update ho x) (Nat.lt_succ_self n)

/-- Insertion adds its record to the counted ones and moves the rest only among themselves. -/
theorem insert_perm (a : ℕ → α) (n : ℕ) (x : α) :
    (elems (insert gt a n x) (n + 1)).Perm (elems a n ++ [x]) := by
  rw [← elems_update_self a n x]
  exact siftUp_perm (Nat.lt_succ_self n)

/-- Nothing past the new record's cell is written. -/
theorem insert_apply_of_lt (x : α) (h : n < k) : insert gt a n x k = a k := by
  rw [insert, siftUp_apply_of_lt h, Function.update_of_ne (Nat.ne_of_gt h)]

/-! ## Down -/

/-- One comparison of `heapify`: `if (c < h->size && greater(&arr[s], &arr[c])) s = c`. -/
def pickLess (gt : α → α → Bool) (a : ℕ → α) (n s c : ℕ) : ℕ :=
  if c < n ∧ gt (a s) (a c) = true then c else s

/-- The lesser of a cell and its child is the cell itself or the child, and then the child is
counted. -/
theorem pickLess_cases (gt : α → α → Bool) (a : ℕ → α) (n s c : ℕ) :
    pickLess gt a n s c = s ∨ (pickLess gt a n s c = c ∧ c < n) := by
  unfold pickLess
  split_ifs with h
  · exact Or.inr ⟨rfl, h.1⟩
  · exact Or.inl rfl

/-- The pick is at or before the cell it started from. -/
theorem pickLess_first (hc : Comparator gt) (a : ℕ → α) (n s c : ℕ) :
    gt (a (pickLess gt a n s c)) (a s) = false := by
  unfold pickLess
  split_ifs with h
  · exact hc.asymm _ _ h.2
  · exact hc.irrefl _

/-- The pick is at or before the candidate, when the candidate is counted. -/
theorem pickLess_first_cand (hc : Comparator gt) (a : ℕ → α) (s : ℕ) (hcn : c < n) :
    gt (a (pickLess gt a n s c)) (a c) = false := by
  unfold pickLess
  split_ifs with h
  · exact hc.irrefl _
  · simpa [hcn] using h

/-- The cell that `heapify` picks: `smallest = idx`, then the left child, then the right child. -/
def smallest (gt : α → α → Bool) (a : ℕ → α) (n i : ℕ) : ℕ :=
  pickLess gt a n (pickLess gt a n i (2 * i + 1)) (2 * i + 2)

/-- The pick is the cell itself or one of its counted children. -/
theorem smallest_cases (gt : α → α → Bool) (a : ℕ → α) (n i : ℕ) :
    smallest gt a n i = i ∨
      (0 < smallest gt a n i ∧ parent (smallest gt a n i) = i ∧ smallest gt a n i < n) := by
  unfold smallest
  rcases pickLess_cases gt a n (pickLess gt a n i (2 * i + 1)) (2 * i + 2) with h2 | ⟨h2, hr⟩
  · rw [h2]
    rcases pickLess_cases gt a n i (2 * i + 1) with h1 | ⟨h1, hl⟩
    · exact Or.inl h1
    · rw [h1]
      exact Or.inr ⟨by omega, (parent_eq_iff (by omega)).mpr (Or.inl rfl), hl⟩
  · rw [h2]
    exact Or.inr ⟨by omega, (parent_eq_iff (by omega)).mpr (Or.inr rfl), hr⟩

/-- The pick is at or before the cell and every counted child of it. -/
theorem smallest_first (hc : Comparator gt) (a : ℕ → α) (n i : ℕ) :
    gt (a (smallest gt a n i)) (a i) = false ∧
      ∀ c, 0 < c → c < n → parent c = i → gt (a (smallest gt a n i)) (a c) = false := by
  have h1 := pickLess_first hc a n i (2 * i + 1)
  have h2 := pickLess_first hc a n (pickLess gt a n i (2 * i + 1)) (2 * i + 2)
  refine ⟨hc.trans _ _ _ h2 h1, fun c hc0 hcn hpc => ?_⟩
  rcases (parent_eq_iff hc0).mp hpc with rfl | rfl
  · exact hc.trans _ _ _ h2 (pickLess_first_cand hc a i hcn)
  · exact pickLess_first_cand hc a _ hcn

/-- `heapify`: exchange with the picked child and continue there, until the cell is its own
pick. -/
def siftDown (gt : α → α → Bool) (a : ℕ → α) (n i : ℕ) : ℕ → α :=
  if _ : smallest gt a n i ≠ i then
    siftDown gt (swap a i (smallest gt a n i)) n (smallest gt a n i)
  else a
termination_by n - i
decreasing_by
  rcases smallest_cases gt a n i with h' | ⟨h0, hp, hn⟩
  · exact absurd h' ‹_›
  · have := lt_of_parent_eq h0 hp
    omega

/-- `heapify` permutes the counted records. -/
theorem siftDown_perm : (elems (siftDown gt a n i) n).Perm (elems a n) := by
  fun_induction siftDown gt a n i with
  | case1 a i hs ih =>
    rcases smallest_cases gt a n i with h' | ⟨h0, hp, hn⟩
    · exact absurd h' hs
    · have := lt_of_parent_eq h0 hp
      exact ih.trans (elems_swap_perm (by omega) hn)
  | case2 => exact List.Perm.refl _

/-- The start of `heapify` at cell `i`: all pairs are ordered except those below `i`, and the
parent of `i` is at or before the children of `i`. -/
structure SiftingDown (gt : α → α → Bool) (a : ℕ → α) (n i : ℕ) : Prop where
  except : ∀ j, 0 < j → j < n → parent j ≠ i → gt (a (parent j)) (a j) = false
  grand : 0 < i → ∀ c, 0 < c → c < n → parent c = i → gt (a (parent i)) (a c) = false

/-- One exchange with the picked child moves the start down to it. -/
theorem SiftingDown.swap_smallest (hc : Comparator gt) (o : SiftingDown gt a n i)
    (hs : smallest gt a n i ≠ i) :
    SiftingDown gt (swap a i (smallest gt a n i)) n (smallest gt a n i) := by
  obtain ⟨hs0, hps, hsn⟩ := (smallest_cases gt a n i).resolve_left hs
  obtain ⟨hfirst, hchild⟩ := smallest_first hc a n i
  generalize smallest gt a n i = s at hs hs0 hps hsn hfirst hchild
  have his : i < s := lt_of_parent_eq hs0 hps
  constructor
  · intro j hj0 hjn hpj
    by_cases hjs : j = s
    · -- The exchanged pair itself is now in order.
      subst hjs
      rw [hps, swap_apply_left, swap_apply_right]
      exact hfirst
    by_cases hji : j = i
    · -- The moved-up record is at or after the parent of `i`.
      subst hji
      have hp : parent j < j := parent_lt (Nat.pos_iff_ne_zero.mp hj0)
      rw [swap_apply_of_ne (Nat.ne_of_lt hp) (by omega), swap_apply_left]
      exact o.grand hj0 s hs0 hsn hps
    rw [swap_apply_of_ne hji hjs]
    by_cases hpi : parent j = i
    · -- The sibling of the picked child is under the picked record.
      rw [hpi, swap_apply_left]
      exact hchild j hj0 hjn hpi
    · rw [swap_apply_of_ne hpi hpj]
      exact o.except j hj0 hjn hpi
  · intro _ c hc0 hcn hpc
    have hsc : s < c := lt_of_parent_eq hc0 hpc
    rw [hps, swap_apply_left, swap_apply_of_ne (by omega) (by omega)]
    have hold := o.except c hc0 hcn (by omega)
    rwa [hpc] at hold

/-- Where `heapify` stops, with the cell at or before its children, the heap is ordered. -/
theorem SiftingDown.heapOrder (o : SiftingDown gt a n i)
    (hstop : ∀ c, 0 < c → c < n → parent c = i → gt (a i) (a c) = false) :
    HeapOrder gt a n := by
  intro j hj0 hjn
  by_cases hpj : parent j = i
  · rw [hpj]
    exact hstop j hj0 hjn hpj
  · exact o.except j hj0 hjn hpj

/-- `heapify` restores heap order from its start. -/
theorem siftDown_heapOrder (hc : Comparator gt) (o : SiftingDown gt a n i) :
    HeapOrder gt (siftDown gt a n i) n := by
  fun_induction siftDown gt a n i with
  | case1 a i hs ih => exact ih (o.swap_smallest hc hs)
  | case2 a i hs =>
    have hsi : smallest gt a n i = i := not_not.mp hs
    refine o.heapOrder fun c hc0 hcn hpc => ?_
    have := (smallest_first hc a n i).2 c hc0 hcn hpc
    rwa [hsi] at this

/-- The last counted record moved to the root and sifted down, the count one less: `pop`. -/
def removeRoot (gt : α → α → Bool) (a : ℕ → α) (n : ℕ) : ℕ → α :=
  siftDown gt (swap a 0 (n - 1)) (n - 1) 0

/-- The root leaves and the other records stay. -/
theorem removeRoot_perm (hn : 0 < n) :
    (a 0 :: elems (removeRoot gt a n) (n - 1)).Perm (elems a n) := by
  obtain ⟨m, rfl⟩ : ∃ m, n = m + 1 := ⟨n - 1, by omega⟩
  have hswap := elems_swap_perm (a := a) hn (Nat.lt_succ_self m)
  rw [elems_succ, swap_apply_right] at hswap
  have hdown : (elems (removeRoot gt a (m + 1)) m).Perm (elems (swap a 0 m) m) := siftDown_perm
  rw [Nat.add_sub_cancel]
  exact ((hdown.cons (a 0)).trans (List.perm_append_singleton _ _).symm).trans hswap

/-- Moving the last record to the root breaks order only below the root. -/
theorem sifting_swap_root (ho : HeapOrder gt a n) :
    SiftingDown gt (swap a 0 (n - 1)) (n - 1) 0 := by
  constructor
  · intro j hj0 hjn hpj
    have hp : parent j < j := parent_lt (Nat.pos_iff_ne_zero.mp hj0)
    rw [swap_apply_of_ne hpj (by omega), swap_apply_of_ne (by omega) (by omega)]
    exact ho j hj0 (by omega)
  · intro h
    exact absurd h (Nat.lt_irrefl 0)

/-- Removal of the root leaves the remaining cells in heap order. -/
theorem removeRoot_heapOrder (hc : Comparator gt) (ho : HeapOrder gt a n) :
    HeapOrder gt (removeRoot gt a n) (n - 1) :=
  siftDown_heapOrder hc (sifting_swap_root ho)

/-! ## Heaps of given records -/

/-- The first `n` cells hold the records `l`, one per cell, in heap order. -/
structure Holds (gt : α → α → Bool) (a : ℕ → α) (n : ℕ) (l : List α) : Prop where
  perm : (elems a n).Perm l
  ordered : HeapOrder gt a n

variable {l : List α}

/-- A heap that holds a list counts as many cells as the list has records. -/
theorem Holds.length_eq (hh : Holds gt a n l) : n = l.length := by
  rw [← hh.perm.length_eq, length_elems]

/-- No counted cell, whatever the array holds: no record. -/
theorem holds_zero (gt : α → α → Bool) (a : ℕ → α) : Holds gt a 0 [] :=
  ⟨by simp [elems], fun _ _ h => absurd h (Nat.not_lt_zero _)⟩

/-- Insertion keeps the heap holding the list, with the record added at its end. -/
theorem Holds.insert (hc : Comparator gt) (hh : Holds gt a n l) (x : α) :
    Holds gt (insert gt a n x) (n + 1) (l ++ [x]) :=
  ⟨(insert_perm a n x).trans (hh.perm.append_right [x]), insert_heapOrder hc hh.ordered x⟩

/-- No record of the heap is strictly before the root. -/
theorem Holds.root_first (hc : Comparator gt) (hh : Holds gt a n l) {x : α} (hx : x ∈ l) :
    gt (a 0) x = false :=
  hh.ordered.root_first_mem hc (hh.perm.mem_iff.mpr hx)

end ArrayHeap
