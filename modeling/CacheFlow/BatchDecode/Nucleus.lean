import CacheFlow.BatchDecode.Sample

set_option autoImplicit false

/-! # What `top_k` and `top_p` keep

For a temperature of at least `1e-6`, `sample` selects twice: `top_k` keeps the tokens with the largest
logits, `top_p` the most probable of these until their probabilities add up to the threshold. The token that
is returned is the first kept one at which the probabilities reach the value drawn.

Here the exponential is any function and the value drawn any value up to the sum. Whether the softmax is
shifted by the maximum depends on the partial sort, which is only made for a `top_k` inside the vocabulary
(`maxLogit_isGreatest_iff`). -/

namespace CacheFlow

open Weighted

section Selection

variable {K : Type} [Field K] [LinearOrder K] {exp : K → K} {sorting : Sorting K TokenId}
  {m : ModelConfig} {sp : SamplerParams K} {logits : Nat → K}

/-! ## The candidates -/

omit [LinearOrder K] in
theorem mem_scored {c : K × TokenId} :
    c ∈ scored m sp logits ↔ ∃ v < m.vocabSize, c = (logits v / sp.temperature, (v : Int)) := by
  simp [scored, eq_comm]

theorem topKCandidates_subset {c : K × TokenId} (h : c ∈ topKCandidates sorting m sp logits) :
    c ∈ scored m sp logits := by
  unfold topKCandidates at h
  split at h
  · exact (sorting.partialSort_perm _ _).mem_iff.1 (List.mem_of_mem_take h)
  · exact h

theorem length_topKCandidates (sorting : Sorting K TokenId) (logits : Nat → K)
    (hin : 0 < sp.topK ∧ sp.topK < m.vocabSize) :
    ((topKCandidates sorting m sp logits).length : Int) = sp.topK := by
  have hscored : (scored m sp logits).length = m.vocabSize := by simp [scored]
  rw [topKCandidates, if_pos hin, List.length_take, (sorting.partialSort_perm _ _).length_eq, hscored]
  omega

theorem topKCandidates_ne_nil (sorting : Sorting K TokenId) (sp : SamplerParams K) (logits : Nat → K)
    (hvocab : 1 ≤ m.vocabSize) : topKCandidates sorting m sp logits ≠ [] := by
  by_cases hin : 0 < sp.topK ∧ sp.topK < m.vocabSize
  · have hlen := length_topKCandidates sorting logits hin
    intro hnil
    rw [hnil, List.length_nil] at hlen
    omega
  · rw [topKCandidates, if_neg hin]
    refine List.ne_nil_of_length_pos ?_
    rw [scored, List.length_map, List.length_range]
    exact hvocab

/-- A token that is no candidate has no larger logit than the candidates. -/
theorem topKCandidates_top {c c' : K × TokenId} (hc : c ∈ topKCandidates sorting m sp logits)
    (hc' : c' ∈ scored m sp logits) (hout : c' ∉ topKCandidates sorting m sp logits) : c'.1 ≤ c.1 := by
  unfold topKCandidates at hc hout
  split at hc
  · next hin =>
      rw [if_pos hin] at hout
      have hmem := (sorting.partialSort_perm sp.topK.toNat (scored m sp logits)).mem_iff.2 hc'
      rw [← List.take_append_drop sp.topK.toNat
        (sorting.partialSort sp.topK.toNat (scored m sp logits)), List.mem_append] at hmem
      exact sorting.partialSort_top _ _ c hc c' (hmem.resolve_left hout)
  · next hin =>
      rw [if_neg hin] at hout
      exact absurd hc' hout

/-! ## The shift of the softmax -/

variable [IsStrictOrderedRing K]

/-- What the selection keeps of a row: tokens of the vocabulary, each once and with its probability among
    the candidates of `top_k`. -/
structure IsNucleus (exp : K → K) (sorting : Sorting K TokenId) (m : ModelConfig) (sp : SamplerParams K)
    (logits : Nat → K) (kept : List (K × TokenId)) : Prop where
  nonempty : kept ≠ []
  inVocab : ∀ x ∈ kept, ∃ v < m.vocabSize, x.2 = (v : Int)
  nodup : (kept.map Prod.snd).Nodup
  size : 0 < sp.topK → sp.topK < m.vocabSize → (kept.length : Int) ≤ sp.topK
  top : ∀ v < m.vocabSize, ∀ w < m.vocabSize, (v : Int) ∈ kept.map Prod.snd →
    (w : Int) ∉ kept.map Prod.snd → logits w ≤ logits v
  weight : ∀ x ∈ kept, ∃ c ∈ topKCandidates sorting m sp logits, c.2 = x.2 ∧
    x.1 = probability exp (topKCandidates sorting m sp logits) c
  mass : sp.topP < 1 → sp.topP ≤ total kept
  minimal : sp.topP < 1 → ∀ x ∈ kept, (∀ y ∈ kept, x.1 ≤ y.1) → kept.length = 1 ∨ total kept - x.1 < sp.topP

/-- The token is the first of the kept ones at which the probabilities reach the value drawn. -/
def FirstReaching (kept : List (K × TokenId)) (r : K) (tok : TokenId) : Prop :=
  ∃ i x, kept[i]? = some x ∧ x.2 = tok ∧ r ≤ total (kept.take (i + 1)) ∧
    ∀ j < i, total (kept.take (j + 1)) < r

section Exponential

variable (hexp : ∀ x, 0 < exp x)

include hexp

theorem sumExp_pos_of_pos {l : List (K × TokenId)} (hne : l ≠ []) : 0 < sumExp exp l := by
  refine List.sum_pos _ ?_ (by simpa using hne)
  intro w hw
  simp only [List.map_map, List.mem_map, Function.comp_apply] at hw
  obtain ⟨c, -, rfl⟩ := hw
  exact hexp _

theorem total_probabilities {l : List (K × TokenId)} (hne : l ≠ []) : total (probabilities exp l) = 1 := by
  have hsum := sumExp_pos_of_pos hexp hne
  rw [← div_self hsum.ne']
  simp only [total, probabilities, probability, sumExp, List.map_map, Function.comp_def, div_eq_mul_inv]
  rw [List.sum_map_mul_right]

/-- A larger probability is that of a larger logit. -/
theorem probability_le_iff (hmono : StrictMono exp) {l : List (K × TokenId)} (hne : l ≠ [])
    {c c' : K × TokenId} : probability exp l c ≤ probability exp l c' ↔ c.1 ≤ c'.1 := by
  rw [probability, probability, div_le_div_iff_of_pos_right (sumExp_pos_of_pos hexp hne), hmono.le_iff_le,
    sub_le_sub_iff_right]

end Exponential

/-- What is kept and what is dropped of a list of probabilities. -/
structure Cut (threshold : K) (probs kept : List (K × TokenId)) : Prop where
  nonempty : kept ≠ []
  sub : ∃ dropped, (kept ++ dropped).Perm probs ∧ ∀ x ∈ kept, ∀ y ∈ dropped, y.1 ≤ x.1
  mass : threshold < 1 → threshold ≤ total kept
  minimal : threshold < 1 → ∀ x ∈ kept, (∀ y ∈ kept, x.1 ≤ y.1) →
    kept.length = 1 ∨ total kept - x.1 < threshold

/-- The start of a sorted list up to the threshold. -/
theorem nucleus_cut (sorting : Sorting K TokenId) {probs : List (K × TokenId)} (hne : probs ≠ [])
    (htotal : total probs = 1) {threshold : K} (hlt : threshold < 1) :
    Cut threshold probs (nucleus threshold (sorting.sort probs)) := by
  have hperm := sorting.sort_perm probs
  have hsorted := sorting.sort_sorted probs
  have hne' : sorting.sort probs ≠ [] := fun hnil => hne (by rw [hnil] at hperm; exact hperm.nil_eq.symm)
  have hsplit := List.take_append_drop (cutoff threshold 0 (sorting.sort probs)) (sorting.sort probs)
  rw [← hsplit, List.pairwise_append] at hsorted
  have hmass : threshold ≤ total (nucleus threshold (sorting.sort probs)) := by
    have hreach := cutoff_reaches threshold 0 hne' (by
      rw [zero_add, total_perm hperm, htotal]
      exact hlt.le)
    rwa [zero_add] at hreach
  refine ⟨?_, ⟨(sorting.sort probs).drop (cutoff threshold 0 (sorting.sort probs)), ?_, hsorted.2.2⟩,
    fun _ => hmass, ?_⟩
  · intro hnil
    have hhead := head?_nucleus threshold (sorting.sort probs)
    rw [hnil] at hhead
    exact hne' (List.head?_eq_none_iff.1 hhead.symm)
  · rw [nucleus, hsplit]
    exact hperm
  · intro _ x hx _
    rcases cutoff_minimal threshold 0 hne' with hone | ⟨n, hn, hbelow⟩
    · left
      rw [nucleus, hone, List.length_take]
      exact Nat.min_eq_left (List.length_pos_of_ne_nil hne')
    · right
      rw [zero_add] at hbelow
      have hlt' : n < (sorting.sort probs).length := by
        by_contra hge
        rw [List.take_of_length_le (by omega), total_perm hperm, htotal] at hbelow
        exact absurd hlt (not_lt.2 hbelow.le)
      have hkept : nucleus threshold (sorting.sort probs)
          = (sorting.sort probs).take n ++ [(sorting.sort probs)[n]] := by
        rw [nucleus, hn, List.take_succ_eq_append_getElem hlt']
      -- the last one is the least probable
      have hlast : (sorting.sort probs)[n].1 ≤ x.1 := by
        have hordered := hsorted.1
        rw [← nucleus, hkept, List.pairwise_append] at hordered
        rw [hkept, List.mem_append, List.mem_singleton] at hx
        rcases hx with hx | rfl
        · exact hordered.2.2 x hx _ (List.mem_singleton_self _)
        · exact le_rfl
      rw [hkept, total_append, total_cons, total_nil, add_zero]
      linarith

/-- A cut of the probabilities of the candidates is a nucleus of the row. -/
theorem Cut.isNucleus {kept : List (K × TokenId)} (hexp : ∀ x, 0 < exp x) (hmono : StrictMono exp)
    (hvocab : 1 ≤ m.vocabSize) (htemp : 0 < sp.temperature)
    (h : Cut sp.topP (probabilities exp (topKCandidates sorting m sp logits)) kept) :
    IsNucleus exp sorting m sp logits kept := by
  have hne := topKCandidates_ne_nil sorting sp logits hvocab
  obtain ⟨dropped, hperm, hordered⟩ := h.sub
  have hprob : ∀ x, x ∈ kept ∨ x ∈ dropped ↔ ∃ c ∈ topKCandidates sorting m sp logits,
      (probability exp (topKCandidates sorting m sp logits) c, c.2) = x := by
    intro x
    rw [← List.mem_append, hperm.mem_iff, probabilities, List.mem_map]
  have hweight : ∀ x ∈ kept, ∃ c ∈ topKCandidates sorting m sp logits, c.2 = x.2 ∧
      x.1 = probability exp (topKCandidates sorting m sp logits) c := by
    intro x hx
    obtain ⟨c, hc, rfl⟩ := (hprob x).1 (Or.inl hx)
    exact ⟨c, hc, rfl, rfl⟩
  have hscored : ∀ {c}, c ∈ topKCandidates sorting m sp logits → ∀ {v : Nat}, c.2 = (v : Int) →
      c.1 = logits v / sp.temperature := by
    intro c hc v hv
    obtain ⟨u, -, rfl⟩ := mem_scored.1 (topKCandidates_subset hc)
    rw [Int.natCast_inj.1 hv]
  refine ⟨h.nonempty, ?_, ?_, ?_, ?_, hweight, h.mass, h.minimal⟩
  · intro x hx
    obtain ⟨c, hc, htok, -⟩ := hweight x hx
    obtain ⟨v, hv, rfl⟩ := mem_scored.1 (topKCandidates_subset hc)
    exact ⟨v, hv, htok.symm⟩
  · have hall : ((kept ++ dropped).map Prod.snd).Nodup := by
      rw [(hperm.map Prod.snd).nodup_iff, probabilities, List.map_map]
      exact topKCandidates_nodup
    rw [List.map_append] at hall
    exact hall.of_append_left
  · intro hpos hlt
    have hlen := hperm.length_eq
    rw [List.length_append, probabilities, List.length_map] at hlen
    have hcount := length_topKCandidates sorting logits ⟨hpos, hlt⟩
    omega
  · intro v hv w hw hkeptv hkeptw
    obtain ⟨x, hx, hxv⟩ := List.mem_map.1 hkeptv
    obtain ⟨c, hc, htok, hxc⟩ := hweight x hx
    have hcv := hscored hc (htok.trans hxv)
    rw [← div_le_div_iff_of_pos_right htemp, ← hcv]
    by_cases hcand : (logits w / sp.temperature, (w : Int)) ∈ topKCandidates sorting m sp logits
    · -- dropped by `top_p`
      have hy := (hprob _).2 ⟨_, hcand, rfl⟩
      have hdropped := hy.resolve_left (fun hk => hkeptw (List.mem_map.2 ⟨_, hk, rfl⟩))
      have hle := hordered x hx _ hdropped
      rw [hxc] at hle
      exact (probability_le_iff hexp hmono hne).1 hle
    · -- dropped by `top_k`
      exact topKCandidates_top hc (mem_scored.2 ⟨w, hw, rfl⟩) hcand

/-- **`sample` chooses from the right nucleus.** For every row, every temperature of at least `1e-6` and every
    positive increasing function in place of the exponential, the kept tokens are a nucleus of the row, and
    for every value drawn up to the sum of their probabilities the first one at which they reach it is
    returned. -/
theorem sample_keeps_nucleus (exp : K → K) (sorting : Sorting K TokenId) (m : ModelConfig)
    (sp : SamplerParams K) (logits : Nat → K) (hexp : ∀ x, 0 < exp x) (hmono : StrictMono exp)
    (hvocab : 1 ≤ m.vocabSize) (htemp : 1 / 10 ^ 6 ≤ sp.temperature) :
    IsNucleus exp sorting m sp logits (keptTokens exp sorting m sp logits) ∧
      ∀ r, 0 ≤ r → r ≤ total (keptTokens exp sorting m sp logits) →
        FirstReaching (keptTokens exp sorting m sp logits) r
          (chosenAt (keptTokens exp sorting m sp logits) r) := by
  have hpos : 0 < sp.temperature := lt_of_lt_of_le (by positivity) htemp
  have hne := topKCandidates_ne_nil sorting sp logits hvocab
  have hcut : Cut sp.topP (probabilities exp (topKCandidates sorting m sp logits))
      (keptTokens exp sorting m sp logits) := by
    have hprobs : probabilities exp (topKCandidates sorting m sp logits) ≠ [] := by
      simpa [probabilities] using hne
    unfold keptTokens
    split
    · next hlt => exact nucleus_cut sorting hprobs (total_probabilities hexp hne) hlt
    · next hge =>
        refine ⟨hprobs, ⟨[], by simp, by simp⟩, fun hlt => absurd hlt hge, fun hlt => absurd hlt hge⟩
  refine ⟨hcut.isNucleus hexp hmono hvocab hpos, fun r _ hr => ?_⟩
  have hdraw : r ≤ 0 + total (keptTokens exp sorting m sp logits) := by
    rw [zero_add]
    exact hr
  obtain ⟨i, x, hi, hpick, hreach, hbefore⟩ := exists_pick_first hcut.nonempty hdraw
  refine ⟨i, x, hi, ?_, by rwa [zero_add] at hreach, fun j hj => ?_⟩
  · rw [chosenAt, hpick]
    rfl
  · have hj' := hbefore j hj
    rwa [zero_add] at hj'

end Selection

/-- The nucleus for the default parameters, with the exponential of the reals. -/
theorem default_keeps_nucleus :
    IsNucleus Real.exp (Sorting.merge ℝ TokenId) {} (.default ℝ) (fun v => v)
      (keptTokens Real.exp (Sorting.merge ℝ TokenId) {} (.default ℝ) (fun v => v)) :=
  (sample_keeps_nucleus Real.exp (Sorting.merge ℝ TokenId) {} (.default ℝ) (fun v => v) Real.exp_pos
    Real.exp_strictMono (by decide) (by norm_num [SamplerParams.default])).1

end CacheFlow
