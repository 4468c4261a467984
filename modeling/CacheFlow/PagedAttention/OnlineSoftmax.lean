import CacheFlow.PagedAttention.Agreement

set_option autoImplicit false

/-! # The online softmax loop and its merges

A lane of `paged_attention_v2_kernel` makes one pass over its tokens: it keeps the largest logit so far
and brings its sums to the new one whenever it grows. The warps of a partition, and then the partitions
themselves, are put together in the same way, with each part brought to the common maximum.

Here the loop runs over an arbitrary list of logits and value vectors, from an arbitrary start of
`local_max`, and its results are merged along an arbitrary tree. Both give what two passes give: the
maximum first, then the sums of the exponentials relative to it. -/

namespace CacheFlow.PagedAttention

open Simt

section Online

variable {K : Type} [Field K] [LinearOrder K] (e : Exponential K)

/-- The body of the loop, on a logit and the value vector of its token. -/
def absorb (st : LaneState K) (t : K × (Nat → K)) : LaneState K :=
  let localMax := max st.localMax t.1
  let correction := e.ofDiff st.localMax localMax
  { localMax := localMax,
    localSum := st.localSum * correction + e.ofDiff t.1 localMax,
    localOut := fun idx => st.localOut idx * correction + e.ofDiff t.1 localMax * t.2 idx }

/-- The loop, with `local_max` starting at `start`. -/
def onlineLoop (start : WithBot K) (l : List (K × (Nat → K))) : LaneState K :=
  l.foldl (absorb e) { localMax := start, localSum := 0, localOut := fun _ => 0 }

/-- Two results, each multiplied with the exponential of its distance to the common maximum. -/
def merge (a b : LaneState K) : LaneState K :=
  let globalMax := max a.localMax b.localMax
  { localMax := globalMax,
    localSum := a.localSum * e.ofDiff a.localMax globalMax
      + b.localSum * e.ofDiff b.localMax globalMax,
    localOut := fun idx => a.localOut idx * e.ofDiff a.localMax globalMax
      + b.localOut idx * e.ofDiff b.localMax globalMax }

/-- All results at once, as the warps of a thread block are merged. -/
def mergeAll (sts : List (LaneState K)) : LaneState K :=
  let globalMax := sts.foldl (fun m st => max m st.localMax) ⊥
  { localMax := globalMax,
    localSum := (sts.map (fun st => st.localSum * e.ofDiff st.localMax globalMax)).sum,
    localOut := fun idx => (sts.map (fun st => st.localOut idx * e.ofDiff st.localMax globalMax)).sum }

/-- An order in which results are merged: a loop over some tokens, or a merge of two earlier results. -/
inductive MergeTree (K : Type) where
  | loop (start : WithBot K) (l : List (K × (Nat → K)))
  | merge (left right : MergeTree K)

namespace MergeTree

def run : MergeTree K → LaneState K
  | .loop start l => onlineLoop e start l
  | .merge left right => PagedAttention.merge e left.run right.run

/-- The tokens of all loops. -/
def pairs : MergeTree K → List (K × (Nat → K))
  | .loop _ l => l
  | .merge left right => left.pairs ++ right.pairs

/-- Every loop starts at or below its logits; a loop without tokens starts at `-FLT_MAX`. -/
def Admissible : MergeTree K → Prop
  | .loop start l => (∀ t ∈ l, start ≤ t.1) ∧ (l = [] → start = ⊥)
  | .merge left right => left.Admissible ∧ right.Admissible

/-- The largest start of a loop. -/
def start : MergeTree K → WithBot K
  | .loop start _ => start
  | .merge left right => max left.start right.start

end MergeTree

/-- The two-pass softmax: the largest logit `m`, and the sums of the exponentials relative to it. -/
def IsTwoPass (l : List (K × (Nat → K))) (st : LaneState K) : Prop :=
  ∃ m : K, IsGreatest {x | x ∈ l.map Prod.fst} m ∧ st.localMax = m ∧
    st.localSum = (l.map (fun t => e (t.1 - m))).sum ∧
    ∀ idx, st.localOut idx = (l.map (fun t => e (t.1 - m) * t.2 idx)).sum

/-! ## The invariant -/

/-- What a result for the tokens `l` is: the largest of the start and the logits, and the two sums
    relative to it. -/
structure Relative (start : WithBot K) (l : List (K × (Nat → K))) (st : LaneState K) : Prop where
  top : st.localMax = max start (l.map Prod.fst).maximum
  sum : Shifted e st.localMax st.localSum (l.map (fun t => e t.1)).sum
  out : ∀ idx, Shifted e st.localMax (st.localOut idx) (l.map (fun t => e t.1 * t.2 idx)).sum

variable {e}

namespace Relative

variable {start start' : WithBot K} {l l' : List (K × (Nat → K))} {st st' : LaneState K}

/-- One token: the sums are brought to the new maximum, and the token is added. -/
theorem absorb (h : Relative e start l st) (t : K × (Nat → K)) :
    Relative e start (l ++ [t]) (absorb e st t) := by
  have hold : st.localMax ≤ max st.localMax t.1 := le_max_left _ _
  have hnew : (t.1 : WithBot K) ≤ max st.localMax t.1 := le_max_right _ _
  refine ⟨?_, ?_, fun idx => ?_⟩
  · simp only [PagedAttention.absorb, h.top, List.map_append, List.map_singleton,
      List.maximum_concat, max_assoc]
  · have hterm := Shifted.term (e := e) hnew 1
    rw [mul_one, mul_one] at hterm
    simpa [PagedAttention.absorb] using (h.sum.rescale hold).add hterm
  · have hterm := Shifted.term (e := e) hnew (t.2 idx)
    simpa [PagedAttention.absorb] using ((h.out idx).rescale hold).add hterm

/-- The whole loop. -/
theorem onlineLoop (start : WithBot K) (l : List (K × (Nat → K))) :
    Relative e start l (onlineLoop e start l) := by
  induction l using List.reverseRecOn with
  | nil => exact ⟨(max_bot_right start).symm, Shifted.zero _, fun _ => Shifted.zero _⟩
  | append_singleton l t ih =>
      rw [PagedAttention.onlineLoop, List.foldl_append]
      exact ih.absorb t

/-- A merge: both results are brought to the larger maximum. -/
theorem merge (h : Relative e start l st) (h' : Relative e start' l' st') :
    Relative e (max start start') (l ++ l') (merge e st st') := by
  have hleft : st.localMax ≤ max st.localMax st'.localMax := le_max_left _ _
  have hright : st'.localMax ≤ max st.localMax st'.localMax := le_max_right _ _
  refine ⟨?_, ?_, fun idx => ?_⟩
  · simp only [PagedAttention.merge, h.top, h'.top, List.map_append, maximum_append]
    exact max_max_max_comm _ _ _ _
  · simpa [PagedAttention.merge] using (h.sum.rescale hleft).add (h'.sum.rescale hright)
  · simpa [PagedAttention.merge] using
      ((h.out idx).rescale hleft).add ((h'.out idx).rescale hright)

/-- The order of the tokens does not matter. -/
theorem perm (h : Relative e start l st) (hl : l.Perm l') : Relative e start l' st where
  top := by rw [h.top, (hl.map _).maximum_eq]
  sum := by rw [← (hl.map _).sum_eq]; exact h.sum
  out := by intro idx; rw [← (hl.map _).sum_eq]; exact h.out idx

/-- Relative to the largest logit, the sums are those of the second pass. -/
theorem isTwoPass (h : Relative e start l st) (hne : l ≠ [])
    (hstart : start ≤ (l.map Prod.fst).maximum) : IsTwoPass e l st := by
  have hlogits : l.map Prod.fst ≠ [] := mt List.map_eq_nil_iff.1 hne
  obtain ⟨m, hm⟩ := WithBot.ne_bot_iff_exists.1 (List.maximum_ne_bot_of_ne_nil hlogits)
  have htop : st.localMax = m := by rw [h.top, max_eq_right hstart, hm]
  have hle : ∀ t ∈ l, (t.1 : WithBot K) ≤ m := by
    intro t ht
    rw [hm]
    exact List.le_maximum_of_mem' (List.mem_map_of_mem ht)
  have hsum := h.sum
  have hout := h.out
  rw [htop] at hsum hout
  refine ⟨m, ⟨List.maximum_mem hm.symm, ?_⟩, htop, ?_, fun idx => ?_⟩
  · intro x hx
    obtain ⟨t, ht, rfl⟩ := List.mem_map.1 hx
    exact WithBot.coe_le_coe.1 (hle t ht)
  · refine hsum.unique (Shifted.sum l (fun t ht => ?_)) WithBot.coe_ne_bot
    simpa using Shifted.term (e := e) (hle t ht) 1
  · refine (hout idx).unique (Shifted.sum l (fun t ht => ?_)) WithBot.coe_ne_bot
    simpa using Shifted.term (e := e) (hle t ht) (t.2 idx)

end Relative

namespace MergeTree

theorem relative_run (tree : MergeTree K) : Relative e tree.start tree.pairs (tree.run e) := by
  induction tree with
  | loop start l => exact Relative.onlineLoop start l
  | merge left right ihl ihr => exact ihl.merge ihr

omit [Field K] in
theorem start_le_maximum {tree : MergeTree K} (h : tree.Admissible) :
    tree.start ≤ (tree.pairs.map Prod.fst).maximum := by
  induction tree with
  | loop start l =>
      rcases l with - | ⟨t, l⟩
      · rw [MergeTree.start, h.2 rfl]
        exact bot_le
      · have hmem : t.1 ∈ (t :: l).map Prod.fst := List.mem_map_of_mem List.mem_cons_self
        exact (h.1 t List.mem_cons_self).trans (List.le_maximum_of_mem' hmem)
  | merge left right ihl ihr =>
      rw [pairs, List.map_append, maximum_append]
      exact max_le_max (ihl h.1) (ihr h.2)

end MergeTree

/-! ## All at once, or one after another -/

/-- A result without tokens. -/
def idle (K : Type) [Field K] : LaneState K := { localMax := ⊥, localSum := 0, localOut := fun _ => 0 }

/-- A sum that was brought to a maximum is brought to a larger one. -/
theorem sum_rescale {sts : List (LaneState K)} {m m' : WithBot K} (h : ∀ st ∈ sts, st.localMax ≤ m)
    (hm : m ≤ m') (f : LaneState K → K) :
    (sts.map (fun st => f st * e.ofDiff st.localMax m)).sum * e.ofDiff m m'
      = (sts.map (fun st => f st * e.ofDiff st.localMax m')).sum := by
  rw [← List.sum_map_mul_right]
  congr 1
  apply List.map_congr_left
  intro st hst
  rw [mul_assoc, e.ofDiff_mul_ofDiff (h st hst) hm]

/-- **Merging all results at once is merging them one after another.** -/
theorem mergeAll_eq_foldl (sts : List (LaneState K)) : mergeAll e sts = sts.foldl (merge e) (idle K) := by
  induction sts using List.reverseRecOn with
  | nil => rfl
  | append_singleton sts st ih =>
      have hle : ∀ st' ∈ sts, st'.localMax ≤ sts.foldl (fun m st => max m st.localMax) ⊥ :=
        fun st' hst' => le_foldl_max sts LaneState.localMax hst'
      rw [List.foldl_append, ← ih]
      simp only [mergeAll, merge, List.foldl_append, List.foldl_cons, List.foldl_nil, List.map_append,
        List.map_cons, List.map_nil, List.sum_append, List.sum_cons, List.sum_nil, add_zero,
        sum_rescale hle (le_max_left _ _)]

theorem Relative.mergeAll {ι : Type} (l : List ι) {g : ι → List (K × (Nat → K))} {f : ι → LaneState K}
    (h : ∀ i ∈ l, Relative e ⊥ (g i) (f i)) : Relative e ⊥ (l.flatMap g) (mergeAll e (l.map f)) := by
  rw [mergeAll_eq_foldl]
  induction l using List.reverseRecOn with
  | nil => exact Relative.onlineLoop ⊥ []
  | append_singleton l i ih =>
      have hlast := h i (List.mem_append_right _ (List.mem_singleton_self i))
      have hmerge := (ih (fun j hj => h j (List.mem_append_left _ hj))).merge hlast
      rw [max_self] at hmerge
      simpa using hmerge

/-- **The online softmax is the two-pass softmax.** One pass over the tokens finds the largest logit and
    the two sums relative to it, whatever `local_max` starts from below the logits; and results merged
    along any tree are those of all their tokens, in any order. -/
theorem online_softmax_eq_two_pass (e : Exponential K) :
    (∀ (start : WithBot K) (l : List (K × (Nat → K))), l ≠ [] → (∀ t ∈ l, start ≤ t.1) →
      IsTwoPass e l (onlineLoop e start l)) ∧
    (∀ tree : MergeTree K, tree.Admissible → tree.pairs ≠ [] →
      ∀ l, l.Perm tree.pairs → IsTwoPass e l (tree.run e)) := by
  have htrees : ∀ tree : MergeTree K, tree.Admissible → tree.pairs ≠ [] →
      ∀ l, l.Perm tree.pairs → IsTwoPass e l (tree.run e) := by
    intro tree hadm hne l hl
    have hstart := MergeTree.start_le_maximum hadm
    rw [← (hl.map Prod.fst).maximum_eq] at hstart
    refine (tree.relative_run.perm hl.symm).isTwoPass ?_ hstart
    rintro rfl
    exact hne hl.nil_eq.symm
  refine ⟨fun start l hne hle => ?_, htrees⟩
  exact htrees (.loop start l) ⟨hle, fun hnil => absurd hnil hne⟩ hne l (List.Perm.refl l)

/-- Three tokens, the largest logit in the middle. -/
noncomputable def threeTokens : List (ℝ × (Nat → ℝ)) :=
  [(-1, fun _ => 0), (1, fun _ => 1), (0, fun _ => -1)]

/-- The same tokens on three warps, one of which has none. -/
noncomputable def threeWarps : MergeTree ℝ :=
  .merge (.merge (.loop ⊥ [(0, fun _ => -1)]) (.loop ⊥ [])) (.loop ⊥ [(-1, fun _ => 0), (1, fun _ => 1)])

/-- One loop that starts from -3, and a merge that takes the last token first. -/
theorem online_softmax_three_tokens :
    IsTwoPass realExp threeTokens (onlineLoop realExp (-3 : ℝ) threeTokens) ∧
      IsTwoPass realExp threeTokens (threeWarps.run realExp) := by
  refine ⟨(online_softmax_eq_two_pass realExp).1 _ threeTokens (List.cons_ne_nil _ _) ?_,
    (online_softmax_eq_two_pass realExp).2 threeWarps ?_ (List.cons_ne_nil _ _) _ ?_⟩
  · intro t ht
    simp only [threeTokens, List.mem_cons, List.not_mem_nil, or_false] at ht
    rcases ht with rfl | rfl | rfl <;> exact WithBot.coe_le_coe.2 (by norm_num)
  · simp [threeWarps, MergeTree.Admissible]
  · exact List.perm_append_singleton (0, fun _ => -1) [(-1, fun _ => 0), (1, fun _ => 1)]

end Online

/-! ## The kernel -/

section Kernel

variable {K : Type} [Field K] [LinearOrder K] (e : Exponential K) (sh : Shape)
  (p : PagedAttentionParams K) (seq head : Nat)

/-- What a lane runs over: the logit of each token of its warp, and its part of the value vector. -/
def lanePairs (part warp lane : Nat) : List (K × (Nat → K)) :=
  (v2Tokens sh p seq part warp).map (fun t =>
    (dot sh p seq head t.1 t.2 lane, laneValue sh p seq head t.1 t.2 lane))

/-- The logits and value vectors of a partition, in the order of the positions. -/
def partPairs (part lane : Nat) : List (K × (Nat → K)) :=
  (partPositions p seq part).map (fun pos =>
    (score sh p seq head pos, fun idx => value sh p seq head pos (lane + warpSize * idx)))

/-- The loop of the kernel is the loop over these pairs. -/
theorem v2Lane_eq_onlineLoop (part warp lane : Nat) :
    v2Lane e sh p seq head part warp lane
      = onlineLoop e ⊥ (lanePairs sh p seq head part warp lane) := by
  rw [onlineLoop, lanePairs, List.foldl_map]
  rfl

/-- The results of a lane index merged over the warps. -/
def v2Merged (part lane : Nat) : LaneState K :=
  mergeAll e ((List.range sh.numWarps).map (fun warp => v2Lane e sh p seq head part warp lane))

variable {e sh p seq head}

omit [LinearOrder K] in
/-- The tokens of all warps, as a lane reads them, are the positions of the partition. -/
theorem lanePairs_perm {part lane : Nat} (hlane : lane < warpSize) :
    ((List.range sh.numWarps).flatMap (fun warp => lanePairs sh p seq head part warp lane)).Perm
      (partPairs sh p seq head part lane) := by
  have htile := (v2Tokens_tile sh p seq part).map (fun pos =>
    (score sh p seq head pos, fun idx => value sh p seq head pos (lane + warpSize * idx)))
  refine List.Perm.trans (List.Perm.of_eq ?_) htile
  rw [List.map_map, List.map_flatMap]
  congr 1
  funext warp
  apply List.map_congr_left
  intro t ht
  have hoff : t.2 < sh.blockSize := v2Tokens_lt sh p seq part ht
  simp only [dot_eq hoff hlane, Function.comp_apply, Prod.mk.injEq, true_and]
  funext idx
  rw [← laneValue_eq hoff, Nat.add_mul_mod_self_left, Nat.mod_eq_of_lt hlane,
    Nat.add_mul_div_left _ _ (by decide : 0 < warpSize), Nat.div_eq_of_lt hlane, Nat.zero_add]

theorem v2Merged_relative {part lane : Nat} (hlane : lane < warpSize) :
    Relative e ⊥ (partPairs sh p seq head part lane) (v2Merged e sh p seq head part lane) := by
  refine Relative.perm (Relative.mergeAll _ (fun warp _ => ?_)) (lanePairs_perm hlane)
  rw [v2Lane_eq_onlineLoop]
  exact Relative.onlineLoop ⊥ _

/-- Every lane has the maximum of its warp before the reduction. -/
theorem v2WarpMax_eq_localMax {part warp lane : Nat} (hlane : lane < warpSize) :
    v2WarpMax e sh p seq head part warp lane = (v2Lane e sh p seq head part warp lane).localMax := by
  rw [v2WarpMax_eq hlane, (v2Lane_sums hlane).top]

theorem maxLogits_eq_merged {part lane : Nat} (hlane : lane < warpSize) :
    maxLogits e sh p seq head part = (v2Merged e sh p seq head part lane).localMax := by
  have hlanes : ∀ warp, v2WarpMax e sh p seq head part warp 0
      = (v2Lane e sh p seq head part warp lane).localMax := by
    intro warp
    rw [← v2WarpMax_eq_localMax hlane, v2WarpMax_eq hlane, v2WarpMax_eq (by decide)]
  simp only [maxLogits, v2Merged, mergeAll, List.foldl_map, hlanes]

theorem tmpOutput_eq_merged {part lane : Nat} (hlane : lane < warpSize) (idx : Nat) :
    tmpOutput e sh p seq head part (lane + warpSize * idx)
      = (v2Merged e sh p seq head part lane).localOut idx := by
  have hmod : (lane + warpSize * idx) % warpSize = lane := by
    rw [Nat.add_mul_mod_self_left, Nat.mod_eq_of_lt hlane]
  have hdiv : (lane + warpSize * idx) / warpSize = idx := by
    rw [Nat.add_mul_div_left _ _ (by decide : 0 < warpSize), Nat.div_eq_of_lt hlane, Nat.zero_add]
  have hmax : maxLogits e sh p seq head part = (v2Merged e sh p seq head part lane).localMax :=
    maxLogits_eq_merged hlane
  simp only [v2Merged, mergeAll] at hmax
  simp only [tmpOutput, hmod, hdiv, v2Correction, v2WarpMax_eq_localMax hlane, hmax, v2Merged, mergeAll,
    List.map_map]
  rfl

/-- **What a partition hands to the reduce kernel** is the two-pass softmax of its positions, except that
    `exp_sums` has the sum once for each of the 32 lanes. -/
theorem partition_isTwoPass {part lane : Nat} (hlane : lane < warpSize)
    (hpart : v2StartTok part < p.contextLens seq) :
    IsTwoPass e (partPairs sh p seq head part lane) (v2Merged e sh p seq head part lane) ∧
    maxLogits e sh p seq head part = (v2Merged e sh p seq head part lane).localMax ∧
    expSums e sh p seq head part = 32 * (v2Merged e sh p seq head part lane).localSum ∧
    ∀ idx, tmpOutput e sh p seq head part (lane + warpSize * idx)
      = (v2Merged e sh p seq head part lane).localOut idx := by
  have hrel : Relative e ⊥ (partPairs sh p seq head part lane) (v2Merged e sh p seq head part lane) :=
    v2Merged_relative hlane
  have hne : partPositions p seq part ≠ [] := by
    refine List.ne_nil_of_mem ((mem_partPositions p seq part).2 ⟨hpart, ?_⟩)
    rw [v2StartTok, Nat.mul_div_cancel _ (by decide)]
  have htwo := hrel.isTwoPass (mt List.map_eq_nil_iff.1 hne) bot_le
  refine ⟨htwo, maxLogits_eq_merged hlane, (expSums_shifted part).unique ?_ ?_,
    tmpOutput_eq_merged hlane⟩
  · have hsum := hrel.sum
    rw [← maxLogits_eq_merged hlane, maxLogits_eq, partPairs, List.map_map] at hsum
    rw [Shifted, mul_assoc]
    exact congrArg (32 * ·) hsum
  · obtain ⟨m, -, htop, -⟩ := htwo
    rw [← maxLogits_eq, maxLogits_eq_merged hlane, htop]
    exact WithBot.coe_ne_bot

end Kernel

end CacheFlow.PagedAttention
