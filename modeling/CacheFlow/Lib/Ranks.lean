import Mathlib.Algebra.GroupWithZero.Nat
import Mathlib.Algebra.Order.BigOperators.Group.List
import Mathlib.Algebra.Order.Group.Nat
import Mathlib.Data.List.GetD
import Mathlib.Data.List.Sort

set_option autoImplicit false

/-! # Ranks and cumulative counts

The element of rank `r` of a list is the `r`-th in sorted order, counted from 1. It is below a threshold
exactly if `r` elements are (`ranked_lt_iff`), so ranks can be found from counts alone: by a scan for the first
position at which cumulative counts reach a target. -/

namespace Ranks

/-! ## Cumulative counts -/

/-- The scan from position `i`, with the counts before it adding up to `cum`. -/
def firstFrom (target : Nat) : Nat → Nat → List Nat → Option Nat
  | _, _, [] => none
  | i, cum, c :: counts =>
    if target ≤ cum + c then some i else firstFrom target (i + 1) (cum + c) counts

/-- The first position up to which the counts add up to `target` at least. -/
def first (target : Nat) (counts : List Nat) : Option Nat := firstFrom target 0 0 counts

theorem firstFrom_eq_some {target i cum k : Nat} {counts : List Nat}
    (h : firstFrom target i cum counts = some k) :
    ∃ j, k = i + j ∧ j < counts.length ∧ target ≤ cum + (counts.take (j + 1)).sum ∧
      ∀ l < j, cum + (counts.take (l + 1)).sum < target := by
  induction counts generalizing i cum with
  | nil => cases h
  | cons c counts ih =>
      rw [firstFrom] at h
      split at h
      · next hle =>
          cases h
          exact ⟨0, rfl, by simp, by simpa using hle, by simp⟩
      · next hlt =>
          obtain ⟨j, rfl, hj, hle, hbefore⟩ := ih h
          refine ⟨j + 1, by omega, by simpa using hj, by simpa [Nat.add_assoc] using hle, ?_⟩
          intro l hl
          cases l with
          | zero => simpa using hlt
          | succ l => simpa [Nat.add_assoc] using hbefore l (by omega)

theorem firstFrom_isSome {target i cum : Nat} {counts : List Nat} (hne : counts ≠ [])
    (h : target ≤ cum + counts.sum) : (firstFrom target i cum counts).isSome := by
  induction counts generalizing i cum with
  | nil => exact absurd rfl hne
  | cons c counts ih =>
      rw [firstFrom]
      split
      · rfl
      · next hlt =>
          rw [List.sum_cons] at h
          refine ih ?_ (by omega)
          rintro rfl
          rw [List.sum_nil] at h
          omega

variable {target : Nat} {counts : List Nat}

theorem first_spec {k : Nat} (h : first target counts = some k) :
    k < counts.length ∧ target ≤ (counts.take (k + 1)).sum ∧
      ∀ l < k, (counts.take (l + 1)).sum < target := by
  obtain ⟨j, rfl, hj, hle, hbefore⟩ := firstFrom_eq_some h
  rw [Nat.zero_add] at hle ⊢
  refine ⟨hj, hle, ?_⟩
  intro l hl
  have hlt := hbefore l hl
  rwa [Nat.zero_add] at hlt

theorem exists_first (hne : counts ≠ []) (h : target ≤ counts.sum) : ∃ k, first target counts = some k :=
  Option.isSome_iff_exists.1 (firstFrom_isSome hne (by rwa [Nat.zero_add]))

/-- A larger target is not reached earlier. -/
theorem first_mono {target' k k' : Nat} (hle : target ≤ target') (h : first target counts = some k)
    (h' : first target' counts = some k') : k ≤ k' := by
  obtain ⟨-, -, hbefore⟩ := first_spec h
  obtain ⟨-, hreach, -⟩ := first_spec h'
  by_contra hlt
  have hearly := hbefore k' (by omega)
  omega

/-! ## Counting below thresholds -/

section Order

variable {α : Type*} [LinearOrder α]

theorem countP_Ico_add (xs : List α) {a b c : α} (hab : a ≤ b) (hbc : b ≤ c) :
    xs.countP (fun x => a ≤ x ∧ x < b) + xs.countP (fun x => b ≤ x ∧ x < c)
      = xs.countP (fun x => a ≤ x ∧ x < c) := by
  induction xs with
  | nil => rfl
  | cons x xs ih =>
      simp only [List.countP_cons, ← ih, decide_eq_true_eq]
      rcases lt_or_ge x b with hx | hx
      · have hc : x < c := lt_of_lt_of_le hx hbc
        by_cases ha : a ≤ x
        · simp [ha, hx, hc, not_le.2 hx]
          omega
        · simp [ha, not_le.2 hx]
      · have ha : a ≤ x := hab.trans hx
        simp only [ha, hx, not_lt.2 hx, and_false, if_false, true_and]
        omega

theorem lt_countP_iff {ys : List α} (hys : ys.Pairwise (· ≤ ·)) {r : Nat} (hr : r < ys.length) (v : α) :
    r < ys.countP (fun y => y < v) ↔ ys[r] < v := by
  induction ys generalizing r with
  | nil => cases hr
  | cons y ys ih =>
      obtain ⟨hy, hys⟩ := List.pairwise_cons.1 hys
      by_cases hv : y < v
      · rw [List.countP_cons_of_pos (by simpa using hv)]
        cases r with
        | zero => simp [hv]
        | succ r =>
            rw [Nat.succ_lt_succ_iff, List.getElem_cons_succ]
            exact ih hys (Nat.lt_of_succ_lt_succ hr)
      · -- no element is below the threshold
        have hall : ∀ z ∈ y :: ys, v ≤ z := by
          intro z hz
          rcases List.mem_cons.1 hz with rfl | hz
          · exact not_lt.1 hv
          · exact (not_lt.1 hv).trans (hy z hz)
        have hzero : (y :: ys).countP (fun y => y < v) = 0 := by
          rw [List.countP_eq_zero]
          intro z hz
          simpa using hall z hz
        rw [hzero]
        exact ⟨fun h => absurd h (Nat.not_lt_zero r), fun h =>
          absurd h (not_lt.2 (hall _ (List.getElem_mem hr)))⟩

variable [Zero α]

/-- The element of rank `r`. -/
def ranked (xs : List α) (r : Nat) : α := (xs.insertionSort (· ≤ ·)).getD (r - 1) 0

variable {xs : List α} {r : Nat}

theorem ranked_eq (hpos : 1 ≤ r) (hle : r ≤ xs.length) :
    ∃ hlt : r - 1 < (xs.insertionSort (· ≤ ·)).length, ranked xs r = (xs.insertionSort (· ≤ ·))[r - 1] := by
  have hlt : r - 1 < (xs.insertionSort (· ≤ ·)).length := by
    rw [List.length_insertionSort]
    omega
  exact ⟨hlt, List.getD_eq_getElem _ _ hlt⟩

theorem ranked_mem (hpos : 1 ≤ r) (hle : r ≤ xs.length) : ranked xs r ∈ xs := by
  obtain ⟨hlt, heq⟩ := ranked_eq hpos hle
  rw [heq]
  exact (List.mem_insertionSort (· ≤ ·)).1 (List.getElem_mem hlt)

/-- **The element of rank `r` is below a threshold if `r` elements are.** -/
theorem ranked_lt_iff (hpos : 1 ≤ r) (hle : r ≤ xs.length) (v : α) :
    ranked xs r < v ↔ r ≤ xs.countP (fun x => x < v) := by
  obtain ⟨hlt, heq⟩ := ranked_eq hpos hle
  have hcount : (xs.insertionSort (· ≤ ·)).countP (fun x => x < v) = xs.countP (fun x => x < v) :=
    (List.perm_insertionSort (· ≤ ·) xs).countP_eq _
  rw [heq, ← lt_countP_iff (List.pairwise_insertionSort (· ≤ ·) xs) hlt, hcount]
  omega

theorem ranked_mono {r' : Nat} (hpos : 1 ≤ r) (hr : r ≤ r') (hle : r' ≤ xs.length) :
    ranked xs r ≤ ranked xs r' := by
  by_contra hlt
  have hcount := (ranked_lt_iff (by omega) hle _).1 (not_le.1 hlt)
  exact lt_irrefl _ ((ranked_lt_iff hpos (hr.trans hle) _).2 (hr.trans hcount))

end Order

end Ranks
