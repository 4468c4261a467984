import CacheFlow.Lib.Weighted

set_option autoImplicit false

/-! # Drawing from weighted candidates

A generator returns one value after another, each uniform in `[0, 1)` and independent of the others:
`uniformDraws` is the measure on the streams it can return. `uniformDraws_cons` takes the first value off a
stream, so the probability of what a program does with a stream follows the program's recursion.

`uniform_pick` is the probability of a choice by a uniform value: the share of the item's weight. -/

namespace Weighted

open MeasureTheory

/-! ## Streams -/

/-- One value of a generator. -/
noncomputable def uniform : Measure ℝ := volume.restrict (Set.Ico 0 1)

instance : IsProbabilityMeasure uniform := ⟨by simp [uniform]⟩

/-- All values of a generator. -/
noncomputable def uniformDraws : Measure (ℕ → ℝ) := Measure.infinitePi (fun _ => uniform)

instance : IsProbabilityMeasure uniformDraws := inferInstanceAs (IsProbabilityMeasure (Measure.infinitePi _))

/-- A stream with a value in front. -/
def consDraw (x : ℝ × (ℕ → ℝ)) : ℕ → ℝ
  | 0 => x.1
  | n + 1 => x.2 n

/-- A stream is its first value and the rest of it. -/
def consEquiv : ℝ × (ℕ → ℝ) ≃ᵐ (ℕ → ℝ) where
  toFun := consDraw
  invFun draws := (draws 0, fun n => draws (n + 1))
  left_inv _ := rfl
  right_inv draws := funext (fun n => by cases n <;> rfl)
  measurable_toFun := by
    refine measurable_pi_iff.2 (fun n => ?_)
    cases n with
    | zero => exact measurable_fst
    | succ n => exact (measurable_pi_apply n).comp measurable_snd
  measurable_invFun :=
    (measurable_pi_apply 0).prodMk (measurable_pi_iff.2 (fun n => measurable_pi_apply (n + 1)))

/-- A finite product of sides is one over the values up to some number. -/
theorem pi_eq_range (s : Finset ℕ) (t : ℕ → Set ℝ) :
    ∃ N, ∃ t' : ℕ → Set ℝ, (∀ i, t' i = t i ∨ t' i = Set.univ) ∧
      Set.pi (s : Set ℕ) t = {draws | ∀ i < N, draws i ∈ t' i} ∧
      ∏ i ∈ s, uniform (t i) = ∏ i ∈ Finset.range N, uniform (t' i) := by
  classical
  obtain ⟨N, hN⟩ := s.bddAbove
  have hsub : s ⊆ Finset.range (N + 1) := fun i hi =>
    Finset.mem_range.2 (Nat.lt_succ_of_le (hN hi))
  refine ⟨N + 1, fun i => if i ∈ s then t i else Set.univ, fun i => ?_, ?_, ?_⟩
  · by_cases hi : i ∈ s
    · exact Or.inl (if_pos hi)
    · exact Or.inr (if_neg hi)
  · ext draws
    constructor
    · intro h i _
      by_cases hi : i ∈ s
      · simpa [hi] using h i hi
      · simp [hi]
    · intro h i hi
      simpa [Finset.mem_coe.1 hi] using h i (Finset.mem_range.1 (hsub hi))
  · refine Finset.prod_subset_one_on_sdiff hsub (fun i hi => ?_) (fun i hi => ?_)
    · simp [(Finset.mem_sdiff.1 hi).2]
    · simp [hi]

theorem uniformDraws_range (N : ℕ) {t : ℕ → Set ℝ} (ht : ∀ i, MeasurableSet (t i)) :
    uniformDraws {draws | ∀ i < N, draws i ∈ t i} = ∏ i ∈ Finset.range N, uniform (t i) := by
  have hpi : {draws : ℕ → ℝ | ∀ i < N, draws i ∈ t i} = Set.pi (Finset.range N : Set ℕ) t := by
    ext draws
    simp [Set.mem_pi]
  rw [hpi, uniformDraws, Measure.infinitePi_pi _ (fun i _ => ht i)]

/-- The first value and the rest of a stream are independent, and the rest is again a stream. -/
theorem map_consEquiv : (uniform.prod uniformDraws).map consEquiv = uniformDraws := by
  refine Measure.eq_infinitePi _ (fun s t ht => ?_)
  obtain ⟨N, t', ht', hset, hprod⟩ := pi_eq_range s t
  have hmeas : ∀ i, MeasurableSet (t' i) := by
    intro i
    rcases ht' i with heq | heq
    · rw [heq]
      exact ht i
    · rw [heq]
      exact MeasurableSet.univ
  rw [hset, hprod, consEquiv.map_apply]
  cases N with
  | zero => simp
  | succ N =>
      have hpre : Set.preimage consEquiv {draws | ∀ i < N + 1, draws i ∈ t' i}
          = t' 0 ×ˢ {draws | ∀ i < N, draws i ∈ t' (i + 1)} := by
        ext ⟨u, draws⟩
        constructor
        · intro h
          exact ⟨h 0 (Nat.succ_pos N), fun i hi => h (i + 1) (Nat.succ_lt_succ hi)⟩
        · rintro ⟨hu, h⟩ i hi
          cases i with
          | zero => exact hu
          | succ i => exact h i (Nat.lt_of_succ_lt_succ hi)
      rw [hpre, Measure.prod_prod, uniformDraws_range N (fun i => hmeas (i + 1)),
        Finset.prod_range_succ', mul_comm]

/-- **The first value** of a stream, and what is done with the rest. -/
theorem uniformDraws_cons (A : Set ℝ) (E : Set (ℕ → ℝ)) :
    uniformDraws {draws | draws 0 ∈ A ∧ (fun n => draws (n + 1)) ∈ E} = uniform A * uniformDraws E := by
  have hpre : Set.preimage consEquiv {draws | draws 0 ∈ A ∧ (fun n => draws (n + 1)) ∈ E} = A ×ˢ E := by
    ext ⟨u, draws⟩
    exact Iff.rfl
  rw [← Measure.prod_prod, ← hpre, ← consEquiv.map_apply, map_consEquiv]

/-! ## A choice -/

section Choice

variable {α : Type*} [DecidableEq α]

/-- The weight of all candidates of an item. -/
noncomputable def weightOf (a : α) (l : List (ℝ × α)) : ℝ := total (l.filter (fun c => c.2 = a))

theorem weightOf_nonneg {l : List (ℝ × α)} (hpos : ∀ c ∈ l, 0 < c.1) (a : α) : 0 ≤ weightOf a l :=
  total_nonneg (fun c hc => hpos c (List.mem_of_mem_filter hc))

/-- The values between `acc` and the sum of the weights at which an item is picked. -/
def pickedAt (a : α) (acc : ℝ) (l : List (ℝ × α)) : Set ℝ :=
  {r | acc < r ∧ r ≤ acc + total l ∧ pick r acc l = some a}

theorem pickedAt_cons {c : ℝ × α} {l : List (ℝ × α)} (hc : 0 < c.1) (hl : ∀ x ∈ l, 0 < x.1) (a : α)
    (acc : ℝ) :
    pickedAt a acc (c :: l)
      = (if c.2 = a then Set.Ioc acc (acc + c.1) else ∅) ∪ pickedAt a (acc + c.1) l := by
  have hnonneg := total_nonneg hl
  ext r
  simp only [pickedAt, pick, total_cons, Set.mem_ofPred_eq, Set.mem_union]
  by_cases hr : r ≤ acc + c.1
  · have hlow : ¬ acc + c.1 < r := not_lt.2 hr
    simp only [hr, if_true, hlow, false_and, or_false]
    split
    · next heq =>
        simp only [heq, Set.mem_Ioc, hr, and_true]
        exact ⟨fun h => h.1, fun h => ⟨h, by linarith⟩⟩
    · next hne => simp [hne]
  · have hlow : acc + c.1 < r := not_le.1 hr
    have hout : r ∉ (if c.2 = a then Set.Ioc acc (acc + c.1) else ∅ : Set ℝ) := by
      split
      · exact fun h => hr h.2
      · exact Set.notMem_empty r
    simp only [hr, if_false, hlow, true_and, hout, false_or, ← add_assoc]
    exact ⟨fun h => h.2, fun h => ⟨by linarith, h⟩⟩

theorem volume_pickedAt {l : List (ℝ × α)} (hpos : ∀ c ∈ l, 0 < c.1) (a : α) (acc : ℝ) :
    volume (pickedAt a acc l) = ENNReal.ofReal (weightOf a l) := by
  induction l generalizing acc with
  | nil => simp [pickedAt, pick, weightOf]
  | cons c l ih =>
      have hc : 0 < c.1 := hpos c (List.mem_cons_self ..)
      have hl : ∀ x ∈ l, 0 < x.1 := fun x hx => hpos x (List.mem_cons_of_mem _ hx)
      have hmeas : MeasurableSet (if c.2 = a then Set.Ioc acc (acc + c.1) else ∅ : Set ℝ) := by
        split
        · exact measurableSet_Ioc
        · exact MeasurableSet.empty
      have hdisj : Disjoint (if c.2 = a then Set.Ioc acc (acc + c.1) else ∅ : Set ℝ)
          (pickedAt a (acc + c.1) l) := by
        refine Set.disjoint_left.2 (fun r hr hrest => ?_)
        split at hr
        · exact absurd hrest.1 (not_lt.2 hr.2)
        · exact absurd hr (Set.notMem_empty r)
      rw [pickedAt_cons hc hl, measure_union' hdisj hmeas, ih hl]
      by_cases hca : c.2 = a
      · rw [if_pos hca, Real.volume_Ioc, add_sub_cancel_left,
          ← ENNReal.ofReal_add hc.le (weightOf_nonneg hl a), weightOf, weightOf,
          List.filter_cons_of_pos (by simpa using hca), total_cons]
      · rw [if_neg hca, measure_empty, zero_add, weightOf, weightOf,
          List.filter_cons_of_neg (by simpa using hca)]

/-- **A uniform choice** takes an item with the probability that is the share of its weight. -/
theorem uniform_pick {l : List (ℝ × α)} (hpos : ∀ c ∈ l, 0 < c.1) (hne : l ≠ []) (a first : α) :
    uniform {u | (pick (u * total l) 0 l).getD first = a} = ENNReal.ofReal (weightOf a l / total l) := by
  have htotal : 0 < total l := by
    refine List.sum_pos _ (fun w hw => ?_) (by simpa using hne)
    obtain ⟨c, hc, rfl⟩ := List.mem_map.1 hw
    exact hpos c hc
  have hset : {u | (pick (u * total l) 0 l).getD first = a} ∩ Set.Ioc 0 1
      = Set.preimage (· * total l) (pickedAt a 0 l) := by
    ext u
    simp only [Set.mem_inter_iff, Set.mem_ofPred_eq, Set.mem_Ioc, Set.mem_preimage, pickedAt, zero_add]
    rw [mul_pos_iff_of_pos_right htotal, mul_le_iff_le_one_left htotal]
    constructor
    · rintro ⟨hpick, hlow, hhigh⟩
      refine ⟨hlow, hhigh, ?_⟩
      have hdraw : u * total l ≤ 0 + total l := by
        rw [zero_add]
        exact mul_le_of_le_one_left htotal.le hhigh
      obtain ⟨i, c, -, hc, -⟩ := exists_pick_first hne hdraw
      rw [hc, Option.getD_some] at hpick
      rw [hc, hpick]
    · rintro ⟨hlow, hhigh, hpick⟩
      rw [hpick]
      exact ⟨rfl, hlow, hhigh⟩
  rw [uniform, Measure.restrict_congr_set Ico_ae_eq_Ioc, Measure.restrict_apply' measurableSet_Ioc, hset,
    Real.volume_preimage_mul_right htotal.ne', volume_pickedAt hpos, abs_of_pos (inv_pos.2 htotal),
    ← ENNReal.ofReal_mul (inv_pos.2 htotal).le, div_eq_inv_mul]

end Choice

end Weighted
