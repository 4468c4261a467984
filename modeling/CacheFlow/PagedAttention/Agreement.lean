import CacheFlow.PagedAttention

set_option autoImplicit false

/-! # What the two attention kernels compute

Over exact arithmetic `paged_attention_v1_kernel` computes the softmax average of the values. The
partitioned kernel does not: `tmp_output` of a partition is a sum of values weighted with exponentials,
not an average, and the reduce kernel multiplies it with `exp_sums` once more. The output is the average
with every weight multiplied by the sum of exponentials of its partition. The two agree for all values
exactly when the context is a single token. -/

namespace CacheFlow.PagedAttention

open Simt

/-! ## Reductions over a warp -/

/-- The rounds of a warp reduction reach every lane once. -/
theorem reached_warp {lane : Nat} (h : lane < warpSize) :
    (reached [16, 8, 4, 2, 1].reverse lane).Perm (List.range warpSize) :=
  reached_perm (k := 5) (by decide) h

theorem warpReduceSum_eq {K : Type} [Field K] (val : Nat → K) {lane : Nat} (h : lane < warpSize) :
    warpReduceSum val lane = ((List.range warpSize).map val).sum :=
  butterfly_eq val (reached_warp h)

theorem warpReduceMax_eq {K : Type} [LinearOrder K] (val : Nat → WithBot K) {lane : Nat}
    (h : lane < warpSize) :
    warpReduceMax val lane = ((List.range warpSize).map val).foldr max ⊥ := by
  have : Std.LawfulIdentity (max : WithBot K → WithBot K → WithBot K) ⊥ :=
    { left_id := fun a => max_eq_right bot_le, right_id := fun a => max_eq_left bot_le }
  exact butterfly_eq val (reached_warp h)

/-- Lanes that agree have the maximum already. -/
theorem warpReduceMax_const {K : Type} [LinearOrder K] {val : Nat → WithBot K} {c : WithBot K}
    (hval : ∀ lane < warpSize, val lane = c) {lane : Nat} (h : lane < warpSize) :
    warpReduceMax val lane = c := by
  rw [warpReduceMax_eq val h]
  refine le_antisymm (List.max_le_of_forall_le _ _ ?_) ?_
  · intro x hx
    obtain ⟨lane', hlane', rfl⟩ := List.mem_map.1 hx
    exact (hval lane' (List.mem_range.1 hlane')).le
  · exact List.le_max_of_le (List.mem_map_of_mem (List.mem_range.2 h)) (hval lane h).ge

section Scores

variable {K : Type} [Field K] (sh : Shape) (p : PagedAttentionParams K)
  (seq head : Nat)

/-- The position of a token in its sequence. -/
def position (t : Nat × Nat) : Nat := t.1 * sh.blockSize + t.2

/-- The scaled dot product of the query with the key at a position. -/
def score (pos : Nat) : K :=
  ((List.range sh.headDim).map (fun d =>
    p.query ((seq * p.numHeads + head) * sh.headDim + d) * p.keyCache
      (tokenOffset sh p seq head (pos / sh.blockSize) (pos % sh.blockSize) + d))).sum * p.scale

/-- The value vector at a position. -/
def value (pos d : Nat) : K :=
  p.valueCache (tokenOffset sh p seq head (pos / sh.blockSize) (pos % sh.blockSize) + d)

variable {sh p seq head}

theorem position_div {t : Nat × Nat} (ht : t.2 < sh.blockSize) : position sh t / sh.blockSize = t.1 := by
  rw [position, Nat.add_comm, Nat.add_mul_div_right _ _ sh.blockSize_pos, Nat.div_eq_of_lt ht,
    Nat.zero_add]

theorem position_mod {t : Nat × Nat} (ht : t.2 < sh.blockSize) : position sh t % sh.blockSize = t.2 := by
  rw [position, Nat.add_comm, Nat.add_mul_mod_self_right, Nat.mod_eq_of_lt ht]

/-- **Every lane has the score** of the token it works on. -/
theorem dot_eq {t : Nat × Nat} (ht : t.2 < sh.blockSize) {lane : Nat} (hlane : lane < warpSize) :
    dot sh p seq head t.1 t.2 lane = score sh p seq head (position sh t) := by
  have htiles := strided_tiles 0 sh.headDim (n := warpSize) (by decide)
  simp only [Nat.zero_add, Nat.sub_zero, ← List.range_eq_range'] at htiles
  have hlanes : laneDot sh p seq head t.1 t.2 = fun lane' =>
      ((strided lane' sh.headDim warpSize).map (fun d =>
        p.query ((seq * p.numHeads + head) * sh.headDim + d)
          * p.keyCache (tokenOffset sh p seq head t.1 t.2 + d))).sum := by
    funext lane'
    rw [laneDot, foldl_add, zero_add]
  rw [dot, warpReduceSum_eq _ hlane, score, position_div ht, position_mod ht, hlanes, ← sum_flatMap,
    (htiles.map _).sum_eq]

omit [Field K] in
theorem laneValue_eq {t : Nat × Nat} (ht : t.2 < sh.blockSize) (d : Nat) :
    laneValue sh p seq head t.1 t.2 (d % warpSize) (d / warpSize)
      = value sh p seq head (position sh t) d := by
  rw [laneValue, value, position_div ht, position_mod ht, Nat.mod_add_div]

end Scores

/-! ## V1 is the softmax average -/

section Tokens

variable {K : Type} (sh : Shape) (p : PagedAttentionParams K) (seq : Nat)

/-- The tokens of a warp, with the rest of the last block skipped instead of left. -/
theorem v1Tokens_eq (warp : Nat) :
    v1Tokens sh p seq warp
      = (strided (0 / sh.blockSize + warp) ((p.contextLens seq + sh.blockSize - 1) / sh.blockSize)
          sh.numWarps).flatMap (blockSlice sh.blockSize 0 (p.contextLens seq)) := by
  rw [v1Tokens, Nat.zero_div, Nat.zero_add]
  congr 1
  funext blk
  rw [blockSlice, takeWhile_eq_filter]
  · simp
  · refine List.pairwise_lt_range.imp ?_
    intro off off' hlt hoff'
    simp only [decide_eq_true_eq] at hoff' ⊢
    omega

theorem v1Tokens_lt {warp : Nat} {t : Nat × Nat} (ht : t ∈ v1Tokens sh p seq warp) :
    t.2 < sh.blockSize := by
  rw [v1Tokens_eq] at ht
  obtain ⟨blk, -, ht⟩ := List.mem_flatMap.1 ht
  exact (mem_blockSlice.1 ht).2.1

/-- The warps visit every position of the context once. -/
theorem v1Tokens_tile :
    (((List.range sh.numWarps).flatMap (v1Tokens sh p seq)).map (position sh)).Perm
      (List.range (p.contextLens seq)) := by
  have htiles := strided_blocks_tile 0 (p.contextLens seq) sh.blockSize_pos sh.numWarps_pos
  rw [Nat.sub_zero, ← List.range_eq_range'] at htiles
  rw [funext (v1Tokens_eq sh p seq)]
  exact htiles

variable {sh}

/-- A sum over the tokens of all warps is a sum over the positions they visit. -/
theorem sum_warps [AddCommMonoid K] {tokens : Nat → List (Nat × Nat)} {l : List Nat}
    (h : (((List.range sh.numWarps).flatMap tokens).map (position sh)).Perm l) (f : Nat → K) :
    ((List.range sh.numWarps).map (fun warp =>
      ((tokens warp).map (fun t => f (position sh t))).sum)).sum = (l.map f).sum := by
  rw [← sum_flatMap, ← (h.map f).sum_eq, List.map_map]
  rfl

end Tokens

section V1

variable {K : Type} [Field K] [LinearOrder K] {e : Exponential K} {sh : Shape}
  {p : PagedAttentionParams K} {seq head : Nat}

theorem v1WarpMax_eq (warp : Nat) :
    v1WarpMax sh p seq head warp
      = ((v1Tokens sh p seq warp).map (fun t => score sh p seq head (position sh t))).maximum := by
  refine warpReduceMax_const (fun lane hlane => ?_) (by decide)
  rw [foldl_max]
  congr 1
  apply List.map_congr_left
  intro t ht
  exact dot_eq (v1Tokens_lt sh p seq ht) hlane

theorem score_le_v1Max {pos : Nat} (hpos : pos < p.contextLens seq) :
    ((score sh p seq head pos : K) : WithBot K) ≤ v1Max sh p seq head := by
  have hmem := (v1Tokens_tile sh p seq).mem_iff.2 (List.mem_range.2 hpos)
  obtain ⟨t, ht, rfl⟩ := List.mem_map.1 hmem
  obtain ⟨warp, hwarp, ht⟩ := List.mem_flatMap.1 ht
  have hwarp' := List.mem_range.1 hwarp
  have hlane : warp < warpSize := Nat.lt_of_lt_of_le hwarp' sh.numWarps_le
  rw [v1Max, warpReduceMax_eq _ (by decide)]
  refine List.le_max_of_le (List.mem_map_of_mem (List.mem_range.2 hlane)) ?_
  rw [if_pos hwarp', v1WarpMax_eq]
  exact List.le_maximum_of_mem' (List.mem_map_of_mem ht)

theorem v1Max_ne_bot (hctx : 1 ≤ p.contextLens seq) : v1Max sh p seq head ≠ ⊥ := by
  have hle : ((score sh p seq head 0 : K) : WithBot K) ≤ v1Max sh p seq head := score_le_v1Max hctx
  intro hbot
  rw [hbot] at hle
  exact WithBot.not_coe_le_bot _ hle

/-- The exponential `smem_qk` holds for a position. -/
theorem v1Weight_eq {warp : Nat} {t : Nat × Nat} (ht : t ∈ v1Tokens sh p seq warp) :
    v1Weight e sh p seq head t
      = e.ofDiff ((score sh p seq head (position sh t) : K) : WithBot K) (v1Max sh p seq head) := by
  rw [v1Weight, dot_eq (v1Tokens_lt sh p seq ht) (by decide)]

theorem v1WarpSum_eq (warp : Nat) :
    v1WarpSum e sh p seq head warp
      = ((v1Tokens sh p seq warp).map (v1Weight e sh p seq head)).sum := by
  have hlanes : ∀ lane, (v1Tokens sh p seq warp).foldl (fun sum t =>
      if lane = 0 then sum + v1Weight e sh p seq head t else sum) 0
        = if lane < 1 then ((v1Tokens sh p seq warp).map (v1Weight e sh p seq head)).sum else 0 := by
    intro lane
    by_cases hlane : lane = 0
    · simp [hlane, foldl_add]
    · have hzero : ∀ (l : List (Nat × Nat)) (x : K), l.foldl (fun sum _ => sum) x = x := by
        intro l x
        induction l with
        | nil => rfl
        | cons t l ih => exact ih
      simp [hlane, hzero]
  rw [v1WarpSum, warpReduceSum_eq _ (by decide), funext hlanes]
  rw [sum_range_ite _ (by decide)]
  simp

/-- `smem_sum` and the output stand for the two sums of the softmax relative to the maximum. -/
theorem v1Sum_shifted :
    Shifted e (v1Max sh p seq head) (v1Sum e sh p seq head)
      ((List.range (p.contextLens seq)).map (fun pos => e (score sh p seq head pos))).sum := by
  have hsum : v1Sum e sh p seq head = ((List.range (p.contextLens seq)).map (fun pos =>
      e.ofDiff ((score sh p seq head pos : K) : WithBot K) (v1Max sh p seq head))).sum := by
    rw [v1Sum, warpReduceSum_eq _ (by decide), sum_range_ite _ sh.numWarps_le,
      ← sum_warps (v1Tokens_tile sh p seq)]
    congr 1
    apply List.map_congr_left
    intro warp _
    rw [v1WarpSum_eq]
    congr 1
    apply List.map_congr_left
    intro t ht
    exact v1Weight_eq ht
  rw [hsum]
  refine Shifted.sum _ (fun pos hpos => ?_)
  have hle : ((score sh p seq head pos : K) : WithBot K) ≤ v1Max sh p seq head :=
    score_le_v1Max (List.mem_range.1 hpos)
  simpa using Shifted.term (e := e) hle 1

/-- **The output of V1 is the softmax average of the values.** -/
theorem pagedAttentionV1_eq (hctx : 1 ≤ p.contextLens seq) (d : Nat) :
    pagedAttentionV1 e sh p seq head d
      = ((List.range (p.contextLens seq)).map (fun pos =>
          e (score sh p seq head pos) * value sh p seq head pos d)).sum
        / ((List.range (p.contextLens seq)).map (fun pos => e (score sh p seq head pos))).sum := by
  have hout : pagedAttentionV1 e sh p seq head d = ((List.range (p.contextLens seq)).map (fun pos =>
      e.ofDiff ((score sh p seq head pos : K) : WithBot K) (v1Max sh p seq head)
        * value sh p seq head pos d)).sum / v1Sum e sh p seq head := by
    rw [pagedAttentionV1, div_eq_mul_inv, ← List.sum_map_mul_right,
      ← sum_warps (v1Tokens_tile sh p seq)]
    congr 1
    apply List.map_congr_left
    intro warp _
    rw [v1LocalOut, foldl_add, zero_add]
    congr 1
    apply List.map_congr_left
    intro t ht
    rw [v1Weight_eq ht, laneValue_eq (v1Tokens_lt sh p seq ht), one_div]
    ring
  rw [hout]
  refine Shifted.div (Shifted.sum _ (fun pos hpos => ?_)) v1Sum_shifted (v1Max_ne_bot hctx)
  exact Shifted.term (score_le_v1Max (List.mem_range.1 hpos)) _

end V1

/-! ## One partition of V2 -/

section Partition

variable {K : Type} (sh : Shape) (p : PagedAttentionParams K) (seq part : Nat)

/-- The positions of a partition. -/
def partPositions : List Nat :=
  List.range' (v2StartTok part) (v2EndTok p seq part - v2StartTok part)

theorem v2Tokens_lt {warp : Nat} {t : Nat × Nat} (ht : t ∈ v2Tokens sh p seq part warp) :
    t.2 < sh.blockSize := by
  obtain ⟨blk, -, ht⟩ := List.mem_flatMap.1 ht
  exact (mem_blockSlice.1 ht).2.1

/-- The warps visit every position of the partition once. -/
theorem v2Tokens_tile :
    (((List.range sh.numWarps).flatMap (v2Tokens sh p seq part)).map (position sh)).Perm
      (partPositions p seq part) :=
  strided_blocks_tile (v2StartTok part) (v2EndTok p seq part) sh.blockSize_pos sh.numWarps_pos

/-- The positions of a partition are those below the end of the context with its number. -/
theorem mem_partPositions {pos : Nat} :
    pos ∈ partPositions p seq part ↔ pos < p.contextLens seq ∧ pos / partitionSize = part := by
  rw [partPositions, List.mem_range'_1, v2StartTok, v2EndTok, v2StartTok, partitionSize]
  omega

/-- The partitions make up the context. -/
theorem partPositions_tile :
    ((List.range (numParts p seq)).flatMap (partPositions p seq)).Perm
      (List.range (p.contextLens seq)) :=
  parts_tile (p.contextLens seq) (by decide) (by rw [numParts, partitionSize]; omega)

end Partition

section Lanes

variable {K : Type} [Field K] [LinearOrder K] {e : Exponential K} {sh : Shape}
  {p : PagedAttentionParams K} {seq head : Nat}

/-- What a lane has after the tokens `l`: the largest score, and the two sums relative to it. -/
structure LaneSums (e : Exponential K) (sh : Shape) (p : PagedAttentionParams K)
    (seq head lane : Nat) (l : List (Nat × Nat)) (st : LaneState K) : Prop where
  top : st.localMax = (l.map (fun t => score sh p seq head (position sh t))).maximum
  sum : Shifted e st.localMax st.localSum
    (l.map (fun t => e (score sh p seq head (position sh t)))).sum
  out : ∀ idx, Shifted e st.localMax (st.localOut idx)
    (l.map (fun t => e (score sh p seq head (position sh t))
      * laneValue sh p seq head t.1 t.2 lane idx)).sum

/-- One token: the sums are brought to the new maximum, and the token is added. -/
theorem LaneSums.token {lane : Nat} {l : List (Nat × Nat)} {st : LaneState K}
    (h : LaneSums e sh p seq head lane l st) (hlane : lane < warpSize) {t : Nat × Nat}
    (ht : t.2 < sh.blockSize) :
    LaneSums e sh p seq head lane (l ++ [t]) (v2Token e sh p seq head lane st t) := by
  have hdot : dot sh p seq head t.1 t.2 lane = score sh p seq head (position sh t) := dot_eq ht hlane
  have hold : st.localMax ≤ max st.localMax ((score sh p seq head (position sh t) : K) : WithBot K) :=
    le_max_left _ _
  have hnew : ((score sh p seq head (position sh t) : K) : WithBot K)
      ≤ max st.localMax ((score sh p seq head (position sh t) : K) : WithBot K) :=
    le_max_right _ _
  refine ⟨?_, ?_, fun idx => ?_⟩
  · simp only [v2Token, hdot, h.top, List.map_append, List.map_singleton, List.maximum_concat]
  · have hterm := Shifted.term (e := e) hnew 1
    rw [mul_one, mul_one] at hterm
    simpa [v2Token, hdot] using (h.sum.rescale hold).add hterm
  · have hterm := Shifted.term (e := e) hnew (laneValue sh p seq head t.1 t.2 lane idx)
    simpa [v2Token, hdot] using ((h.out idx).rescale hold).add hterm

theorem v2Lane_sums {part warp lane : Nat} (hlane : lane < warpSize) :
    LaneSums e sh p seq head lane (v2Tokens sh p seq part warp)
      (v2Lane e sh p seq head part warp lane) := by
  have hlt : ∀ t ∈ v2Tokens sh p seq part warp, t.2 < sh.blockSize :=
    fun t ht => v2Tokens_lt sh p seq part ht
  unfold v2Lane
  generalize v2Tokens sh p seq part warp = l at hlt
  induction l using List.reverseRecOn with
  | nil => exact ⟨rfl, Shifted.zero _, fun _ => Shifted.zero _⟩
  | append_singleton l t ih =>
      rw [List.foldl_append]
      exact (ih (fun u hu => hlt u (List.mem_append_left _ hu))).token hlane
        (hlt t (List.mem_append_right _ (List.mem_singleton_self t)))

/-- The largest score of a partition. -/
def partMax (sh : Shape) (p : PagedAttentionParams K) (seq head part : Nat) : WithBot K :=
  ((partPositions p seq part).map (score sh p seq head)).maximum

/-- The largest score a warp has seen. -/
theorem v2WarpMax_eq {part warp lane : Nat} (hlane : lane < warpSize) :
    v2WarpMax e sh p seq head part warp lane
      = ((v2Tokens sh p seq part warp).map (fun t => score sh p seq head (position sh t))).maximum :=
  warpReduceMax_const (fun _ hlane' => (v2Lane_sums hlane').top) hlane

theorem maxLogits_eq (part : Nat) :
    maxLogits e sh p seq head part = partMax sh p seq head part := by
  rw [maxLogits, partMax, ← ((v2Tokens_tile sh p seq part).map (score sh p seq head)).maximum_eq]
  simp only [v2WarpMax_eq (show 0 < warpSize by decide)]
  rw [foldl_maximum, List.map_map, List.map_flatMap]
  rfl

theorem v2WarpMax_le {part warp lane : Nat} (hlane : lane < warpSize)
    (hwarp : warp ∈ List.range sh.numWarps) :
    v2WarpMax e sh p seq head part warp lane ≤ partMax sh p seq head part := by
  rw [v2WarpMax_eq hlane, partMax,
    ← ((v2Tokens_tile sh p seq part).map (score sh p seq head)).maximum_eq]
  apply List.maximum_mono
  intro x hx
  obtain ⟨t, ht, rfl⟩ := List.mem_map.1 hx
  exact List.mem_map_of_mem (List.mem_map_of_mem (List.mem_flatMap.2 ⟨warp, hwarp, ht⟩))

/-- A lane's sum after the correction, relative to the largest score of the partition. -/
theorem v2Lane_corrected {part warp lane : Nat} (hlane : lane < warpSize)
    (hwarp : warp ∈ List.range sh.numWarps) {a total : K}
    (h : Shifted e (v2Lane e sh p seq head part warp lane).localMax a total) :
    Shifted e (partMax sh p seq head part) (a * v2Correction e sh p seq head part warp lane) total := by
  have hmax : (v2Lane e sh p seq head part warp lane).localMax
      = v2WarpMax e sh p seq head part warp lane := by
    rw [(v2Lane_sums hlane).top, v2WarpMax_eq hlane]
  rw [v2Correction, maxLogits_eq]
  rw [hmax] at h
  exact h.rescale (v2WarpMax_le hlane hwarp)

/-- `exp_sums` counts every exponential once for each of the 32 lanes. -/
theorem expSums_shifted (part : Nat) :
    Shifted e (partMax sh p seq head part) (expSums e sh p seq head part)
      (32 * ((partPositions p seq part).map (fun pos => e (score sh p seq head pos))).sum) := by
  rw [expSums, foldl_add, zero_add, ← sum_warps (v2Tokens_tile sh p seq part),
    ← List.sum_map_mul_left]
  refine Shifted.sum _ (fun warp hwarp => ?_)
  have hlanes : Shifted e (partMax sh p seq head part)
      ((List.range warpSize).map (fun lane => (v2Lane e sh p seq head part warp lane).localSum
        * v2Correction e sh p seq head part warp lane)).sum
      ((List.range warpSize).map (fun _ => ((v2Tokens sh p seq part warp).map (fun t =>
        e (score sh p seq head (position sh t)))).sum)).sum :=
    Shifted.sum _ (fun lane hlane => v2Lane_corrected (List.mem_range.1 hlane) hwarp
      (v2Lane_sums (List.mem_range.1 hlane)).sum)
  rw [v2WarpSum, warpReduceSum_eq _ (by decide)]
  simpa using hlanes

/-- `tmp_output` is the weighted sum of the values, not their average. -/
theorem tmpOutput_shifted (part d : Nat) :
    Shifted e (partMax sh p seq head part) (tmpOutput e sh p seq head part d)
      ((partPositions p seq part).map (fun pos =>
        e (score sh p seq head pos) * value sh p seq head pos d)).sum := by
  have hlane : d % warpSize < warpSize := Nat.mod_lt d (by decide)
  rw [tmpOutput, ← sum_warps (v2Tokens_tile sh p seq part)]
  refine Shifted.sum _ (fun warp hwarp => ?_)
  have hsums : LaneSums e sh p seq head (d % warpSize) (v2Tokens sh p seq part warp)
      (v2Lane e sh p seq head part warp (d % warpSize)) := v2Lane_sums hlane
  have hout := v2Lane_corrected hlane hwarp (hsums.out (d / warpSize))
  have hvalues : (v2Tokens sh p seq part warp).map (fun t =>
      e (score sh p seq head (position sh t))
        * laneValue sh p seq head t.1 t.2 (d % warpSize) (d / warpSize))
      = (v2Tokens sh p seq part warp).map (fun t =>
        e (score sh p seq head (position sh t)) * value sh p seq head (position sh t) d) := by
    apply List.map_congr_left
    intro t ht
    rw [laneValue_eq (v2Tokens_lt sh p seq part ht)]
  rwa [hvalues] at hout

end Lanes

/-! ## The reduce kernel -/

section Reduce

variable {K : Type} [Field K] [LinearOrder K] (e : Exponential K) (sh : Shape)
  (p : PagedAttentionParams K) (seq head : Nat)

/-- The sum of the exponentials of a partition relative to its largest score. -/
def partSum (part : Nat) : K :=
  ((partPositions p seq part).map (fun pos =>
    e.ofDiff ((score sh p seq head pos : K) : WithBot K) (partMax sh p seq head part))).sum

variable {e sh p seq head}

theorem partSum_shifted (part : Nat) :
    Shifted e (partMax sh p seq head part) (partSum e sh p seq head part)
      ((partPositions p seq part).map (fun pos => e (score sh p seq head pos))).sum := by
  refine Shifted.sum _ (fun pos hpos => ?_)
  have hle : ((score sh p seq head pos : K) : WithBot K) ≤ partMax sh p seq head part :=
    List.le_maximum_of_mem' (List.mem_map_of_mem hpos)
  simpa using Shifted.term (e := e) hle 1

theorem reduceMax_eq :
    reduceMax e sh p seq head = ((List.range (numParts p seq)).flatMap (fun part =>
      (partPositions p seq part).map (score sh p seq head))).maximum := by
  rw [reduceMax]
  simp only [maxLogits_eq, partMax]
  exact foldl_maximum _ _

theorem partMax_le_reduceMax {part : Nat} (hpart : part ∈ List.range (numParts p seq)) :
    partMax sh p seq head part ≤ reduceMax e sh p seq head := by
  rw [reduceMax_eq, partMax]
  exact List.maximum_mono (fun x hx => List.mem_flatMap.2 ⟨part, hpart, hx⟩)

theorem reduceMax_ne_bot (hctx : 1 ≤ p.contextLens seq) : reduceMax e sh p seq head ≠ ⊥ := by
  rw [reduceMax_eq, ← List.map_flatMap]
  apply List.maximum_ne_bot_of_ne_nil
  intro hnil
  have hlen := (partPositions_tile p seq).length_eq
  rw [List.map_eq_nil_iff.1 hnil, List.length_nil, List.length_range] at hlen
  omega

/-- The weight of a partition stands for the sum of its exponentials, once for each lane. -/
theorem reduceWeight_shifted {part : Nat} (hpart : part ∈ List.range (numParts p seq)) :
    Shifted e (reduceMax e sh p seq head) (reduceWeight e sh p seq head part)
      (32 * ((partPositions p seq part).map (fun pos => e (score sh p seq head pos))).sum) := by
  rw [reduceWeight, maxLogits_eq]
  exact (expSums_shifted part).rescale (partMax_le_reduceMax hpart)

/-- The weight already has the sum of exponentials, and `tmp_output` has not been divided by it. -/
theorem reduceTerm_shifted {part : Nat} (hpart : part ∈ List.range (numParts p seq)) (d : Nat) :
    Shifted e (reduceMax e sh p seq head)
      (reduceWeight e sh p seq head part * tmpOutput e sh p seq head part d)
      (32 * (partSum e sh p seq head part * ((partPositions p seq part).map (fun pos =>
        e (score sh p seq head pos) * value sh p seq head pos d)).sum)) := by
  have hweight : reduceWeight e sh p seq head part * e.weight (reduceMax e sh p seq head) = _ :=
    reduceWeight_shifted hpart
  have hout : tmpOutput e sh p seq head part d * e.weight (partMax sh p seq head part) = _ :=
    tmpOutput_shifted part d
  have hsum : partSum e sh p seq head part * e.weight (partMax sh p seq head part) = _ :=
    partSum_shifted part
  rw [Shifted, mul_right_comm, hweight, ← hout, ← hsum]
  ring

omit [Field K] [LinearOrder K] in
/-- A sum over the partitions is a sum over the context. -/
theorem sum_partitions {M : Type} [AddCommMonoid M] (f : Nat → Nat → M) :
    ((List.range (numParts p seq)).map (fun part =>
      ((partPositions p seq part).map (f part)).sum)).sum
      = ((List.range (p.contextLens seq)).map (fun pos => f (pos / partitionSize) pos)).sum := by
  rw [← ((partPositions_tile p seq).map _).sum_eq, sum_flatMap]
  congr 1
  apply List.map_congr_left
  intro part _
  congr 1
  apply List.map_congr_left
  intro pos hpos
  rw [((mem_partPositions p seq part).1 hpos).2]

/-- **The output of V2** is the average with each weight multiplied by the sum of exponentials of its
    partition. -/
theorem pagedAttentionV2_eq [IsStrictOrderedRing K] (hctx : 1 ≤ p.contextLens seq) (d : Nat) :
    pagedAttentionV2 e sh p seq head d
      = ((List.range (p.contextLens seq)).map (fun pos =>
          partSum e sh p seq head (pos / partitionSize)
            * (e (score sh p seq head pos) * value sh p seq head pos d))).sum
        / ((List.range (p.contextLens seq)).map (fun pos => e (score sh p seq head pos))).sum := by
  have hacc : Shifted e (reduceMax e sh p seq head)
      ((List.range (numParts p seq)).map (fun part =>
        reduceWeight e sh p seq head part * tmpOutput e sh p seq head part d)).sum _ :=
    Shifted.sum _ (fun part hpart => reduceTerm_shifted hpart d)
  have htotal : Shifted e (reduceMax e sh p seq head)
      ((List.range (numParts p seq)).map (reduceWeight e sh p seq head)).sum _ :=
    Shifted.sum _ (fun part hpart => reduceWeight_shifted hpart)
  have hlanes : (32 : K) ≠ 0 := by norm_num
  rw [pagedAttentionV2, foldl_add, foldl_add, zero_add, zero_add,
    hacc.div htotal (reduceMax_ne_bot hctx), List.sum_map_mul_left, List.sum_map_mul_left,
    mul_div_mul_left _ _ hlanes, sum_partitions (fun _ pos => e (score sh p seq head pos))]
  simp only [← List.sum_map_mul_left]
  rw [sum_partitions (fun part pos => partSum e sh p seq head part
    * (e (score sh p seq head pos) * value sh p seq head pos d))]

end Reduce

/-! ## When the kernels agree -/

section Agreement

variable {K : Type} [Field K] [LinearOrder K] [IsStrictOrderedRing K] {e : Exponential K} {sh : Shape}
  {p : PagedAttentionParams K} {seq head : Nat}

omit [IsStrictOrderedRing K] in
/-- The largest score of a partition counts 1, every other token of the partition adds to it. -/
theorem partSum_eq {part : Nat} (hne : partPositions p seq part ≠ []) :
    ∃ top ∈ partPositions p seq part, partSum e sh p seq head part
      = 1 + (((partPositions p seq part).erase top).map (fun pos =>
          e (score sh p seq head pos - score sh p seq head top))).sum := by
  obtain ⟨m, hm⟩ := WithBot.ne_bot_iff_exists.1 (List.maximum_ne_bot_of_ne_nil
    (mt List.map_eq_nil_iff.1 hne : (partPositions p seq part).map (score sh p seq head) ≠ []))
  obtain ⟨top, htop, rfl⟩ := List.mem_map.1 (List.maximum_eq_coe_iff.1 hm.symm).1
  have hsplit := ((List.perm_cons_erase htop).map (fun pos =>
    e (score sh p seq head pos - score sh p seq head top))).sum_eq
  refine ⟨top, htop, ?_⟩
  simp only [partSum, partMax, ← hm, e.ofDiff_coe]
  rw [hsplit, List.map_cons, List.sum_cons, sub_self, e.map_zero]

theorem one_le_partSum {part : Nat} (hne : partPositions p seq part ≠ []) :
    1 ≤ partSum e sh p seq head part := by
  obtain ⟨top, -, heq⟩ := partSum_eq (e := e) (p := p) hne
  rw [heq]
  refine le_add_of_nonneg_right (List.sum_nonneg ?_)
  intro x hx
  obtain ⟨pos, -, rfl⟩ := List.mem_map.1 hx
  exact (e.pos _).le

/-- A partition counts 1 exactly if it is a single token. -/
theorem partSum_eq_one_iff {part : Nat} (hne : partPositions p seq part ≠ []) :
    partSum e sh p seq head part = 1 ↔ (partPositions p seq part).length = 1 := by
  obtain ⟨top, htop, heq⟩ := partSum_eq (e := e) (p := p) hne
  have hlen := List.length_erase_of_mem htop
  have hpos := List.length_pos_of_mem htop
  rw [heq, add_eq_left]
  constructor
  · intro hsum
    by_contra hmany
    refine (List.sum_pos _ ?_ ?_).ne' hsum
    · intro x hx
      obtain ⟨pos, -, rfl⟩ := List.mem_map.1 hx
      exact e.pos _
    · intro hnil
      rw [List.map_eq_nil_iff.1 hnil, List.length_nil] at hlen
      omega
  · intro hone
    rw [hone] at hlen
    rw [List.length_eq_zero_iff.1 hlen, List.map_nil, List.sum_nil]

theorem sum_exp_pos (hctx : 1 ≤ p.contextLens seq) :
    0 < ((List.range (p.contextLens seq)).map (fun pos => e (score sh p seq head pos))).sum := by
  refine List.sum_pos _ ?_ ?_
  · intro x hx
    obtain ⟨pos, -, rfl⟩ := List.mem_map.1 hx
    exact e.pos _
  · simp only [ne_eq, List.map_eq_nil_iff, List.range_eq_nil]
    omega

/-- In one dimension the kernels agree if the weights that V2 has in excess cancel. -/
theorem agree_iff (hctx : 1 ≤ p.contextLens seq) (d : Nat) :
    pagedAttentionV2 e sh p seq head d = pagedAttentionV1 e sh p seq head d ↔
      ((List.range (p.contextLens seq)).map (fun pos =>
        (partSum e sh p seq head (pos / partitionSize) - 1)
          * (e (score sh p seq head pos) * value sh p seq head pos d))).sum = 0 := by
  have hsplit : ((List.range (p.contextLens seq)).map (fun pos =>
      partSum e sh p seq head (pos / partitionSize)
        * (e (score sh p seq head pos) * value sh p seq head pos d))).sum
      = ((List.range (p.contextLens seq)).map (fun pos =>
          (partSum e sh p seq head (pos / partitionSize) - 1)
            * (e (score sh p seq head pos) * value sh p seq head pos d))).sum
        + ((List.range (p.contextLens seq)).map (fun pos =>
          e (score sh p seq head pos) * value sh p seq head pos d)).sum := by
    rw [← List.sum_map_add]
    simp only [sub_mul, one_mul, sub_add_cancel]
  rw [pagedAttentionV2_eq hctx, pagedAttentionV1_eq hctx, div_left_inj' (sum_exp_pos hctx).ne',
    hsplit, add_eq_right]

omit [Field K] [LinearOrder K] [IsStrictOrderedRing K] in
/-- The first partition has the first tokens of the context. -/
theorem partPositions_zero : partPositions p seq 0 = List.range (min partitionSize (p.contextLens seq)) := by
  simp [partPositions, v2StartTok, v2EndTok, List.range_eq_range']

/-- With values of one sign nothing cancels: V2 is too large as soon as there are two tokens. -/
theorem excess_ne_zero (hctx : 1 ≤ p.contextLens seq) (hmany : p.contextLens seq ≠ 1) {d : Nat}
    (hval : ∀ pos, 0 < value sh p seq head pos d) :
    ((List.range (p.contextLens seq)).map (fun pos =>
      (partSum e sh p seq head (pos / partitionSize) - 1)
        * (e (score sh p seq head pos) * value sh p seq head pos d))).sum ≠ 0 := by
  have hpart : ∀ pos < p.contextLens seq, partPositions p seq (pos / partitionSize) ≠ [] := by
    intro pos hpos
    exact List.ne_nil_of_mem ((mem_partPositions p seq _).2 ⟨hpos, rfl⟩)
  have hfirst : partSum e sh p seq head (0 / partitionSize) ≠ 1 := by
    rw [Ne, partSum_eq_one_iff (hpart 0 hctx), Nat.zero_div, partPositions_zero, List.length_range,
      partitionSize]
    omega
  have hweight : ∀ pos, 0 < e (score sh p seq head pos) * value sh p seq head pos d :=
    fun pos => mul_pos (e.pos _) (hval pos)
  have hnonneg : ∀ x ∈ (List.range (p.contextLens seq)).map (fun pos =>
      (partSum e sh p seq head (pos / partitionSize) - 1)
        * (e (score sh p seq head pos) * value sh p seq head pos d)), 0 ≤ x := by
    intro x hx
    obtain ⟨pos, hpos, rfl⟩ := List.mem_map.1 hx
    have hone : 1 ≤ partSum e sh p seq head (pos / partitionSize) :=
      one_le_partSum (hpart pos (List.mem_range.1 hpos))
    exact mul_nonneg (sub_nonneg.2 hone) (hweight pos).le
  intro hzero
  have hterm := List.all_zero_of_le_zero_le_of_sum_eq_zero hnonneg hzero
    (List.mem_map_of_mem (List.mem_range.2 hctx))
  rcases mul_eq_zero.1 hterm with hsum | hexp
  · exact hfirst (sub_eq_zero.1 hsum)
  · exact (hweight 0).ne' hexp

/-- A single token has nothing in excess. -/
theorem excess_eq_zero (hone : p.contextLens seq = 1) (d : Nat) :
    ((List.range (p.contextLens seq)).map (fun pos =>
      (partSum e sh p seq head (pos / partitionSize) - 1)
        * (e (score sh p seq head pos) * value sh p seq head pos d))).sum = 0 := by
  have hlen : (partPositions p seq 0).length = 1 := by
    rw [partPositions_zero, hone, List.length_range, partitionSize]
    omega
  have hsum : partSum e sh p seq head 0 = 1 :=
    (partSum_eq_one_iff (List.ne_nil_of_length_pos (by omega))).2 hlen
  simp [hone, hsum]

/-- **The kernels against each other.** V1 computes the softmax average. For given values V2 computes it
    too exactly if the weights it has in excess cancel in every dimension; for all values exactly if the
    context is a single token. -/
theorem kernels_agree_iff (e : Exponential K) (sh : Shape) (p : PagedAttentionParams K)
    (seq head : Nat) (hctx : 1 ≤ p.contextLens seq) :
    (∀ d, pagedAttentionV1 e sh p seq head d
      = ((List.range (p.contextLens seq)).map (fun pos =>
          e (score sh p seq head pos) * value sh p seq head pos d)).sum
        / ((List.range (p.contextLens seq)).map (fun pos => e (score sh p seq head pos))).sum) ∧
    ((∀ d < sh.headDim, pagedAttentionV2 e sh p seq head d = pagedAttentionV1 e sh p seq head d) ↔
      ∀ d < sh.headDim, ((List.range (p.contextLens seq)).map (fun pos =>
        (partSum e sh p seq head (pos / partitionSize) - 1)
          * (e (score sh p seq head pos) * value sh p seq head pos d))).sum = 0) ∧
    ((∀ values : Int → K, ∀ d < sh.headDim,
      pagedAttentionV2 e sh { p with valueCache := values } seq head d
        = pagedAttentionV1 e sh { p with valueCache := values } seq head d) ↔
      p.contextLens seq = 1) := by
  refine ⟨pagedAttentionV1_eq hctx, ?_, ?_, ?_⟩
  · exact forall₂_congr (fun d _ => agree_iff hctx d)
  · intro hall
    by_contra hmany
    have hagree := hall (fun _ => 1) 0 sh.headDim_pos
    rw [agree_iff (p := { p with valueCache := fun _ => 1 }) hctx] at hagree
    exact excess_ne_zero (p := { p with valueCache := fun _ => 1 }) hctx hmany
      (fun _ => one_pos) hagree
  · intro hone values d _
    rw [agree_iff (p := { p with valueCache := values }) hctx]
    exact excess_eq_zero (p := { p with valueCache := values }) hone d

/-- The instantiation of the templates that both kernels are launched with. -/
def launched : Shape where
  headDim := 128
  blockSize := 16
  numWarps := 4
  headDim_pos := by decide
  blockSize_pos := by decide
  numWarps_pos := by decide
  numWarps_le := by decide

noncomputable def realExp : Exponential ℝ where
  toFun := Real.exp
  pos := Real.exp_pos
  map_add := Real.exp_add

/-- Tokens with equal scores and values 1, in one block. -/
def equalScores (ctxLen : Nat) : PagedAttentionParams ℝ where
  query := fun _ => 0
  keyCache := fun _ => 0
  valueCache := fun _ => 1
  blockTables := fun _ => 0
  contextLens := fun _ => ctxLen
  scale := 1
  numHeads := 1
  numKvHeads := 1
  maxBlocksPerSeq := 1

theorem score_equalScores (ctxLen : Nat) (values : Int → ℝ) (pos : Nat) :
    score launched { equalScores ctxLen with valueCache := values } 0 0 pos = 0 := by
  simp [score, equalScores]

/-- With two tokens of equal scores every weight of the partition is counted twice. -/
theorem partSum_equalScores_two (values : Int → ℝ) :
    partSum realExp launched { equalScores 2 with valueCache := values } 0 0 0 = 2 := by
  have hpart : partPositions { equalScores 2 with valueCache := values } 0 0 = [0, 1] := by
    rw [partPositions_zero]
    rfl
  have hmax : partMax launched { equalScores 2 with valueCache := values } 0 0 0
      = ((0 : ℝ) : WithBot ℝ) := by
    simp [partMax, hpart, score_equalScores, List.maximum_cons]
  rw [partSum, hpart, hmax]
  simp only [score_equalScores, Exponential.ofDiff_coe, sub_zero, Exponential.map_zero]
  norm_num

/-- Two tokens: V1 returns the value, V2 twice the value. -/
theorem equalScores_two :
    pagedAttentionV1 realExp launched (equalScores 2) 0 0 0 = 1 ∧
      pagedAttentionV2 realExp launched (equalScores 2) 0 0 0 = 2 := by
  have hscore : ∀ pos, score launched (equalScores 2) 0 0 pos = 0 := score_equalScores 2 (fun _ => 1)
  have hvalue : ∀ pos, value launched (equalScores 2) 0 0 pos 0 = 1 := fun _ => rfl
  have hctx : (equalScores 2).contextLens 0 = 2 := rfl
  have hsum : partSum realExp launched (equalScores 2) 0 0 0 = 2 := partSum_equalScores_two (fun _ => 1)
  have hparts : (0 : Nat) / partitionSize = 0 ∧ (1 : Nat) / partitionSize = 0 := by decide
  rw [pagedAttentionV1_eq (by decide), pagedAttentionV2_eq (by decide)]
  simp only [hscore, hvalue, hctx, Exponential.map_zero, List.range_succ, List.range_zero,
    List.nil_append, List.cons_append, List.map_cons, List.map_nil, List.sum_cons, List.sum_nil,
    hparts, hsum]
  norm_num

/-- Two tokens with equal scores, the values of the first 1 and those of the second -1. -/
def oppositeValues : PagedAttentionParams ℝ :=
  { equalScores 2 with valueCache := fun i => if i < 128 then 1 else -1 }

/-- The kernels agree on a single token, here with values that are all different, and on two tokens of
    opposite values, where the excess of the one cancels that of the other. -/
theorem equalScores_agree :
    pagedAttentionV2 realExp launched { equalScores 1 with valueCache := fun i => i } 0 0 7
        = pagedAttentionV1 realExp launched { equalScores 1 with valueCache := fun i => i } 0 0 7 ∧
      ∀ d < 128, pagedAttentionV2 realExp launched oppositeValues 0 0 d
        = pagedAttentionV1 realExp launched oppositeValues 0 0 d := by
  refine ⟨(kernels_agree_iff realExp launched (equalScores 1) 0 0 (by decide)).2.2.2 rfl (fun i => i) 7
    (by decide), ?_⟩
  refine (kernels_agree_iff realExp launched oppositeValues 0 0 (by decide)).2.1.2 ?_
  intro d hd
  have hlt : d < 128 := hd
  have hfirst : value launched oppositeValues 0 0 0 d = 1 := by
    simp [value, tokenOffset, launched, oppositeValues, equalScores, kvOffset, physBlock, kvHead, hlt]
  have hsecond : value launched oppositeValues 0 0 1 d = -1 := by
    simp [value, tokenOffset, launched, oppositeValues, equalScores, kvOffset, physBlock, kvHead]
  have hscore : ∀ pos, score launched oppositeValues 0 0 pos = 0 := score_equalScores 2 _
  have hsum : partSum realExp launched oppositeValues 0 0 0 = 2 := partSum_equalScores_two _
  have hctx : oppositeValues.contextLens 0 = 2 := rfl
  have hparts : (0 : Nat) / partitionSize = 0 ∧ (1 : Nat) / partitionSize = 0 := by decide
  simp only [hctx, List.range_succ, List.range_zero, List.nil_append, List.cons_append, List.map_cons,
    List.map_nil, List.sum_cons, List.sum_nil, hparts, hsum, hscore, hfirst, hsecond]
  ring

end Agreement

end CacheFlow.PagedAttention
