import Mathlib.Algebra.BigOperators.Group.List.Basic
import Mathlib.Algebra.CharZero.Defs
import Mathlib.Data.List.Induction
import Mathlib.Order.Bounds.Basic
import Mathlib.Tactic.FieldSimp
import Mathlib.Tactic.LinearCombination
import Mathlib.Tactic.Ring

set_option autoImplicit false

/-! # Mean and squared deviations of a list

The arithmetic mean of a list and the sum of the squared deviations from it, over any field of characteristic
0. Both can be kept up to date when a value is appended: the sum of squares grows by the product of the
deviations from the old and from the new mean. The least and the greatest value are folds of `min` and
`max`. -/

namespace Moments

section Sums

variable {K : Type*} [Field K]

def mean (xs : List K) : K := xs.sum / xs.length

/-- The sum of the squared deviations from the mean. -/
def sqDev (xs : List K) : K := (xs.map (fun x => (x - mean xs) ^ 2)).sum

theorem sum_sq_sub (xs : List K) (c : K) :
    (xs.map (fun x => (x - c) ^ 2)).sum
      = (xs.map (fun x => x ^ 2)).sum - 2 * c * xs.sum + xs.length * c ^ 2 := by
  induction xs with
  | nil => simp
  | cons x xs ih =>
      simp only [List.map_cons, List.sum_cons, List.length_cons, ih]
      push_cast
      ring

variable [CharZero K]

theorem length_mul_mean (xs : List K) : xs.length * mean xs = xs.sum := by
  cases xs with
  | nil => simp
  | cons x xs =>
      have hne : ((x :: xs).length : K) ≠ 0 := Nat.cast_ne_zero.2 (by simp)
      exact mul_div_cancel₀ _ hne

theorem mean_concat (xs : List K) (x : K) :
    mean (xs ++ [x]) = mean xs + (x - mean xs) / (xs.length + 1 : Nat) := by
  have hne : ((xs.length + 1 : Nat) : K) ≠ 0 := Nat.cast_ne_zero.2 (Nat.succ_ne_zero _)
  have hold := length_mul_mean xs
  have hnew : ((xs.length + 1 : Nat) : K) * mean (xs ++ [x]) = xs.sum + x := by
    have h := length_mul_mean (xs ++ [x])
    simpa using h
  rw [eq_comm, ← sub_eq_zero]
  field_simp
  push_cast at hnew ⊢
  linear_combination hold - hnew

theorem sqDev_eq (xs : List K) :
    sqDev xs = (xs.map (fun x => x ^ 2)).sum - xs.length * mean xs ^ 2 := by
  rw [sqDev, sum_sq_sub]
  linear_combination 2 * mean xs * length_mul_mean xs

/-- **The update.** The deviation from the old mean times the one from the new mean. -/
theorem sqDev_concat (xs : List K) (x : K) :
    sqDev (xs ++ [x]) = sqDev xs + (x - mean xs) * (x - mean (xs ++ [x])) := by
  -- without division: only the products of a mean and a length are used
  have hold := length_mul_mean xs
  have hnew := length_mul_mean (xs ++ [x])
  rw [sqDev_eq, sqDev_eq]
  simp only [List.map_append, List.map_cons, List.map_nil, List.sum_append, List.sum_cons, List.sum_nil,
    List.length_append, List.length_cons, List.length_nil, add_zero] at hnew ⊢
  push_cast at hnew ⊢
  linear_combination (mean xs + mean (xs ++ [x])) * (hold - hnew)

end Sums

/-! ## The range of a list -/

section Range

variable {α : Type*} [LinearOrder α]

theorem foldl_min_isLeast (xs : List α) (hne : xs ≠ []) {top : α} (h : ∀ x ∈ xs, x ≤ top) :
    IsLeast {x | x ∈ xs} (xs.foldl min top) := by
  induction xs using List.reverseRecOn with
  | nil => exact absurd rfl hne
  | append_singleton xs x ih =>
      rw [List.foldl_append, List.foldl_cons, List.foldl_nil]
      by_cases hxs : xs = []
      · subst hxs
        rw [List.foldl_nil, min_eq_right (h x (by simp))]
        simp [IsLeast, lowerBounds]
      · obtain ⟨hmem, hlow⟩ := ih hxs (fun y hy => h y (List.mem_append_left _ hy))
        constructor
        · rcases min_choice (xs.foldl min top) x with heq | heq
          · rw [heq]
            exact List.mem_append_left _ hmem
          · rw [heq]
            exact List.mem_append_right _ (List.mem_singleton_self x)
        · intro y hy
          rcases List.mem_append.1 hy with hy | hy
          · exact (min_le_left _ _).trans (hlow hy)
          · rw [List.mem_singleton.1 hy]
            exact min_le_right _ _

/-- The same with the order turned around. -/
theorem foldl_max_isGreatest (xs : List α) (hne : xs ≠ []) {bot : α} (h : ∀ x ∈ xs, bot ≤ x) :
    IsGreatest {x | x ∈ xs} (xs.foldl max bot) :=
  foldl_min_isLeast (α := αᵒᵈ) xs hne h

end Range

end Moments
