import Mathlib.Algebra.GroupWithZero.Nat
import Mathlib.Algebra.Order.BigOperators.Group.List
import Mathlib.Algebra.Order.Group.Nat

set_option autoImplicit false

/-! # Serving a queue from the front

A server works through a queue with a budget. It serves the front as long as the front fits, spends
what the front asks for, and stops at the first one that does not fit; whoever stands behind is not
looked at. `Rule.served` counts who is served and `Rule.left` is the budget that remains.

The rule is any relation between budgets and demands together with a way to spend, so a queue with
several limits is one rule over a product of budgets. -/

namespace Queue

variable {β α : Type*}

/-- When a demand fits a budget, and what remains of the budget then. -/
structure Rule (β α : Type*) where
  Fits : β → α → Prop
  [dec : ∀ b a, Decidable (Fits b a)]
  spend : β → α → β

namespace Rule

variable (R : Rule β α)

instance (b : β) (a : α) : Decidable (R.Fits b a) := R.dec b a

/-- How many of the queue are served. -/
def served : β → List α → Nat
  | _, [] => 0
  | b, a :: as => if R.Fits b a then served (R.spend b a) as + 1 else 0

/-- What is left of the budget. -/
def left : β → List α → β
  | b, [] => b
  | b, a :: as => if R.Fits b a then left (R.spend b a) as else b

variable {R} {b : β} {a : α} {as bs : List α}

theorem served_cons_of_fits (h : R.Fits b a) :
    R.served b (a :: as) = R.served (R.spend b a) as + 1 := if_pos h

theorem served_cons_of_not_fits (h : ¬ R.Fits b a) : R.served b (a :: as) = 0 := if_neg h

theorem left_cons_of_fits (h : R.Fits b a) :
    R.left b (a :: as) = R.left (R.spend b a) as := if_pos h

theorem left_cons_of_not_fits (h : ¬ R.Fits b a) : R.left b (a :: as) = b := if_neg h

theorem served_le_length (b : β) (as : List α) : R.served b as ≤ as.length := by
  induction as generalizing b with
  | nil => exact Nat.le_refl _
  | cons a as ih =>
      by_cases h : R.Fits b a
      · rw [served_cons_of_fits h]
        exact Nat.succ_le_succ (ih _)
      · rw [served_cons_of_not_fits h]
        exact Nat.zero_le _

/-- Where nobody is served nothing is spent. -/
theorem left_of_served_eq_zero (h : R.served b as = 0) : R.left b as = b := by
  cases as with
  | nil => rfl
  | cons a as =>
      by_cases hfits : R.Fits b a
      · rw [served_cons_of_fits hfits] at h
        cases h
      · exact left_cons_of_not_fits hfits

/-- What those served cost and what is left make up the budget, in any measure of it. -/
theorem sum_served_add_left {m : β → Nat} {w : α → Nat}
    (hm : ∀ b a, R.Fits b a → m (R.spend b a) + w a = m b) (b : β) (as : List α) :
    ((as.take (R.served b as)).map w).sum + m (R.left b as) = m b := by
  induction as generalizing b with
  | nil => exact Nat.zero_add _
  | cons a as ih =>
      by_cases h : R.Fits b a
      · have hrest := ih (R.spend b a)
        rw [served_cons_of_fits h, left_cons_of_fits h, List.take_succ_cons, List.map_cons,
          List.sum_cons, ← hm b a h]
        omega
      · rw [served_cons_of_not_fits h, left_cons_of_not_fits h]
        exact Nat.zero_add _

end Rule

end Queue
