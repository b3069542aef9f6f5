import Mathlib.Logic.Equiv.Basic
import Mathlib.Data.List.Nodup

/-!
# Binary min-heaps in an array

A binary heap keeps a tree in the first `n` cells of an array `a : ℕ → α`: the children of cell
`i` are `2 i + 1` and `2 i + 2`, and its parent is `(i - 1) / 2`. Records are compared by a
Boolean `gt`, the "strictly after" test of a total preorder (`Comparator`). Ties are allowed, so
two cells may hold records that compare level and are still different records.

This file has the shape of the tree, the cell exchange `swap`, the records that the first `n`
cells hold (`elems`, taken in cell order and compared up to permutation), and heap order
(`HeapOrder`), with the fact that the root of an ordered heap is at or before every record it
holds (`HeapOrder.root_first`). The sifts are in `ArrayHeap/Sift.lean`.
-/

namespace ArrayHeap

variable {α : Type*}

/-- `gt` is the negation of a total preorder: it never holds both ways, and "not after" is
transitive. -/
structure Comparator (gt : α → α → Bool) : Prop where
  asymm : ∀ x y, gt x y = true → gt y x = false
  trans : ∀ x y z, gt x y = false → gt y z = false → gt x z = false

namespace Comparator

variable {gt : α → α → Bool}

/-- No record is after itself. -/
theorem irrefl (hc : Comparator gt) (x : α) : gt x x = false := by
  cases h : gt x x
  · rfl
  · have := hc.asymm x x h
    rw [h] at this
    exact this

/-- A record strictly before `y` is at or before everything that `y` is at or before. -/
theorem trans_of_gt (hc : Comparator gt) {x y z : α} (hyx : gt y x = true)
    (hyz : gt y z = false) : gt x z = false :=
  hc.trans x y z (hc.asymm y x hyx) hyz

end Comparator

/-! ## The tree -/

/-- The parent of cell `i`, as `(idx - 1) / 2` in both C files. It is `0` at the root. -/
def parent (i : ℕ) : ℕ := (i - 1) / 2

/-- The parent of a cell other than the root comes before it. -/
theorem parent_lt {i : ℕ} (h : i ≠ 0) : parent i < i := by
  unfold parent; omega

/-- No cell's parent comes after it. -/
theorem parent_le (i : ℕ) : parent i ≤ i := by
  unfold parent; omega

/-- The cells whose parent is `i` are its two children. -/
theorem parent_eq_iff {c i : ℕ} (hc : 0 < c) : parent c = i ↔ c = 2 * i + 1 ∨ c = 2 * i + 2 := by
  unfold parent; omega

/-- A child is after its parent in the array. -/
theorem lt_of_parent_eq {c i : ℕ} (hc : 0 < c) (h : parent c = i) : i < c := by
  have := (parent_eq_iff hc).mp h
  omega

/-! ## Exchanging two cells -/

/-- `swap` of the C files: `temp = *p1; *p1 = *p2; *p2 = temp` on cells `i` and `j`. -/
def swap (a : ℕ → α) (i j : ℕ) : ℕ → α :=
  Function.update (Function.update a i (a j)) j (a i)

variable {a b : ℕ → α} {i j k n : ℕ}

/-- The swap puts the second cell's record at the first. -/
@[simp] theorem swap_apply_left (a : ℕ → α) (i j : ℕ) : swap a i j i = a j := by
  by_cases h : i = j
  · subst h; simp [swap]
  · simp [swap, h]

/-- The swap puts the first cell's record at the second. -/
@[simp] theorem swap_apply_right (a : ℕ → α) (i j : ℕ) : swap a i j j = a i := by
  simp [swap]

/-- The swap leaves every other cell as it was. -/
theorem swap_apply_of_ne (hi : k ≠ i) (hj : k ≠ j) : swap a i j k = a k := by
  simp [swap, hi, hj]

/-- The exchange reads the array through the transposition of `i` and `j`. -/
theorem swap_eq_comp (a : ℕ → α) (i j : ℕ) : swap a i j = a ∘ Equiv.swap i j := by
  funext k
  rcases eq_or_ne k i with rfl | hi
  · simp
  rcases eq_or_ne k j with rfl | hj
  · simp
  rw [swap_apply_of_ne hi hj, Function.comp_apply, Equiv.swap_apply_of_ne_of_ne hi hj]

/-! ## The records of the first `n` cells -/

/-- The records held by cells `0, …, n - 1`, in cell order. -/
def elems (a : ℕ → α) (n : ℕ) : List α := (List.range n).map a

/-- The first `n` cells are `n` records. -/
@[simp] theorem length_elems (a : ℕ → α) (n : ℕ) : (elems a n).length = n := by
  simp [elems]

/-- One more cell adds its record at the end. -/
theorem elems_succ (a : ℕ → α) (n : ℕ) : elems a (n + 1) = elems a n ++ [a n] := by
  simp [elems, List.range_succ]

/-- A record is among the first `n` cells exactly when one of them holds it. -/
theorem mem_elems {x : α} : x ∈ elems a n ↔ ∃ k < n, a k = x := by
  simp [elems]

/-- Only the first `n` cells count. -/
theorem elems_congr (h : ∀ k < n, a k = b k) : elems a n = elems b n := by
  unfold elems
  exact List.map_congr_left fun k hk => h k (List.mem_range.mp hk)

/-- Writing cell `n` and counting it appends the new record. -/
theorem elems_update_self (a : ℕ → α) (n : ℕ) (x : α) :
    elems (Function.update a n x) (n + 1) = elems a n ++ [x] := by
  rw [elems_succ, Function.update_self,
    elems_congr fun k hk => Function.update_of_ne (Nat.ne_of_lt hk) x a]

/-- Exchanging two counted cells permutes the records. -/
theorem elems_swap_perm (hi : i < n) (hj : j < n) : (elems (swap a i j) n).Perm (elems a n) := by
  have hrange : ((List.range n).map (Equiv.swap i j)).Perm (List.range n) := by
    rw [List.perm_ext_iff_of_nodup (List.nodup_range.map (Equiv.injective _)) List.nodup_range]
    intro k
    simp only [List.mem_map, List.mem_range]
    constructor
    · rintro ⟨m, hm, rfl⟩
      rcases eq_or_ne m i with rfl | hmi
      · simpa using hj
      rcases eq_or_ne m j with rfl | hmj
      · simpa using hi
      rwa [Equiv.swap_apply_of_ne_of_ne hmi hmj]
    · intro hk
      exact ⟨Equiv.swap i j k, by
        rcases eq_or_ne k i with rfl | hki
        · simpa using hj
        rcases eq_or_ne k j with rfl | hkj
        · simpa using hi
        rwa [Equiv.swap_apply_of_ne_of_ne hki hkj], Equiv.swap_apply_self i j k⟩
  unfold elems
  rw [swap_eq_comp, ← List.map_map]
  exact hrange.map a

/-! ## Heap order -/

variable {gt : α → α → Bool}

/-- Every counted cell other than the root is at or after its parent. -/
def HeapOrder (gt : α → α → Bool) (a : ℕ → α) (n : ℕ) : Prop :=
  ∀ i, 0 < i → i < n → gt (a (parent i)) (a i) = false

/-- The root of an ordered heap is at or before every counted cell, by induction up the path
from the cell to the root. -/
theorem HeapOrder.root_first (hc : Comparator gt) (ho : HeapOrder gt a n) :
    ∀ i < n, gt (a 0) (a i) = false := by
  intro i
  induction i using Nat.strongRecOn with
  | ind i ih =>
    intro hi
    rcases Nat.eq_zero_or_pos i with rfl | hpos
    · exact hc.irrefl _
    · have hp := parent_lt (Nat.pos_iff_ne_zero.mp hpos)
      exact hc.trans _ _ _ (ih (parent i) hp (by omega)) (ho i hpos hi)

/-- No record that the heap holds is strictly before its root. -/
theorem HeapOrder.root_first_mem (hc : Comparator gt) (ho : HeapOrder gt a n) {x : α}
    (hx : x ∈ elems a n) : gt (a 0) x = false := by
  obtain ⟨k, hk, rfl⟩ := mem_elems.mp hx
  exact ho.root_first hc k hk

end ArrayHeap
