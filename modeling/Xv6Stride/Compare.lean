import Mathlib.Data.Prod.Lex
import Mathlib.Algebra.Order.Group.Int
import Xv6Stride.ArrayHeap.Basic

/-!
# The order of the stride scheduler

`compare` of `proc.c` and of `heaptest.c` has the same body over two different `struct proc`:
it orders by `pass`, breaks ties by `runtime`, and then by `pid` (the README's Task 2). Both read
only those three fields, so the body is `compareKeys` over them, and each file's `compare` is
`compareKeys` applied to its own record.

`compareKeys` answers `-1`, `0` or `1` as the triple `(pass, runtime, pid)` is below, equal to,
or above the other in the lexicographic order of Mathlib (`key`): `compareKeys_pos_iff` and
`compareKeys_nonpos_iff`. So `greater`, which tests `compare > 0`, is the strict part of a total
preorder on records, on either record type (`comparator_compareKeys`), and two records are level
under it exactly when their three keys agree.
-/

namespace Xv6Stride

/-- The triple that `compare` orders: `pass`, then `runtime`, then `pid`. -/
def key (pass runtime pid : ℤ) : ℤ ×ₗ (ℤ ×ₗ ℤ) := toLex (pass, toLex (runtime, pid))

/-- Keys order lexicographically: by `pass`, then `runtime`, then `pid`. -/
theorem key_lt_iff {a b c a' b' c' : ℤ} :
    key a b c < key a' b' c' ↔ a < a' ∨ a = a' ∧ (b < b' ∨ b = b' ∧ c < c') := by
  simp [key, Prod.Lex.toLex_lt_toLex]

/-- Two keys are equal exactly when their three fields are. -/
theorem key_eq_iff {a b c a' b' c' : ℤ} :
    key a b c = key a' b' c' ↔ a = a' ∧ b = b' ∧ c = c' := by
  simp [key]

/-- The body of `compare` in `proc.c` and `heaptest.c`, on the fields `pass`, `runtime` and
`pid` of its two records. -/
def compareKeys (pass1 runtime1 pid1 pass2 runtime2 pid2 : ℤ) : ℤ :=
  if pass1 ≠ pass2 then (if pass1 < pass2 then -1 else 1)
  else if runtime1 ≠ runtime2 then (if runtime1 < runtime2 then -1 else 1)
  else if pid1 ≠ pid2 then (if pid1 < pid2 then -1 else 1)
  else 0

variable {a b c a' b' c' : ℤ}

/-- `compare` is positive exactly when the second triple is lexicographically below the first. -/
theorem compareKeys_pos_iff : 0 < compareKeys a b c a' b' c' ↔ key a' b' c' < key a b c := by
  rw [key_lt_iff]
  unfold compareKeys
  split_ifs <;> omega

/-- `compare` is negative exactly when the first triple is lexicographically below the second. -/
theorem compareKeys_neg_iff : compareKeys a b c a' b' c' < 0 ↔ key a b c < key a' b' c' := by
  rw [key_lt_iff]
  unfold compareKeys
  split_ifs <;> omega

/-- `compare` is at most zero exactly when the first triple is at or below the second. -/
theorem compareKeys_nonpos_iff : compareKeys a b c a' b' c' ≤ 0 ↔ key a b c ≤ key a' b' c' := by
  rw [← not_lt, ← not_lt, compareKeys_pos_iff]

/-- The test `compare(x, y) > 0` is a `Comparator` on any record type, through the three fields
that `compare` reads. -/
theorem comparator_compareKeys {α : Type*} (pass runtime pid : α → ℤ) :
    ArrayHeap.Comparator fun x y =>
      decide (compareKeys (pass x) (runtime x) (pid x) (pass y) (runtime y) (pid y) > 0) where
  asymm x y h := by
    simp only [decide_eq_true_eq, decide_eq_false_iff_not, gt_iff_lt, compareKeys_pos_iff] at h ⊢
    exact lt_asymm h
  trans x y z hxy hyz := by
    simp only [decide_eq_false_iff_not, gt_iff_lt, compareKeys_pos_iff, not_lt] at hxy hyz ⊢
    exact hxy.trans hyz

end Xv6Stride
