import CacheFlow.PagedAttention.Agreement
import CacheFlow.PagedAttention.SharedMemory

set_option autoImplicit false

/-! # Which positions the attention loops visit

The loops of the kernels for arbitrary template arguments: any block size, any partition size, which need
not be a multiple of the block size, and any number of warps. A warp takes every `num_warps`-th block of
its range. V1 leaves a block at the end of the context; V2 skips the positions of a block that are outside
of the partition, as the first and the last block of a partition may belong to two of them.

Over all partitions, warps, blocks and offsets every position of the context is visited once. The index
arithmetic is over unbounded integers. -/

namespace CacheFlow.PagedAttention

open Simt

/-! ## The loops -/

section Loops

variable (blockSize partSize numWarps ctxLen : Nat)

/-- One loop over the blocks of V1, which stops within the last block. -/
def v1Loop (warp : Nat) : List Nat :=
  let numBlocks := (ctxLen + blockSize - 1) / blockSize
  (strided warp numBlocks numWarps).flatMap (fun blk =>
    ((List.range blockSize).map (fun off => blk * blockSize + off)).takeWhile (fun pos => pos < ctxLen))

/-- The positions a warp visits in each pass of `paged_attention_v1_kernel`. -/
def v1Visits (pass : V1Pass) (warp : Nat) : List Nat :=
  match pass with
  | .scores => v1Loop blockSize numWarps ctxLen warp
  | .weights => v1Loop blockSize numWarps ctxLen warp
  | .output => v1Loop blockSize numWarps ctxLen warp

/-- `start_tok >= ctx_len`: the thread blocks of the partition return at once. -/
def v2Returns (part : Nat) : Prop := ctxLen ≤ part * partSize

instance (part : Nat) : Decidable (v2Returns partSize ctxLen part) :=
  inferInstanceAs (Decidable (ctxLen ≤ part * partSize))

/-- The positions a warp of `paged_attention_v2_kernel` visits. -/
def v2Visits (part warp : Nat) : List Nat :=
  let startTok := part * partSize
  if v2Returns partSize ctxLen part then []
  else
    let endTok := min (startTok + partSize) ctxLen
    let startBlock := startTok / blockSize
    let endBlock := (endTok + blockSize - 1) / blockSize
    (strided (startBlock + warp) endBlock numWarps).flatMap (fun blk =>
      ((List.range blockSize).map (fun off => blk * blockSize + off)).filter (fun pos =>
        ¬(pos < startTok ∨ endTok ≤ pos)))

/-- The partitions `paged_attention_v2_reduce_kernel` runs over. -/
def reduceParts : List Nat := List.range ((ctxLen + 511) / 512)

/-- Every position of the context is visited once: by the partitions of V2 together, of which those that
    return at once are those that the reduce kernel leaves out, and in every pass of V1. -/
structure VisitsOnce (numPartitions : Nat) : Prop where
  v2 : ((List.range numPartitions).flatMap (fun part => (List.range numWarps).flatMap (fun warp =>
    v2Visits blockSize partSize numWarps ctxLen part warp))).Perm (List.range ctxLen)
  reduce : partSize = 512 → ∀ part, v2Returns partSize ctxLen part ↔ part ∉ reduceParts ctxLen
  v1 : ∀ pass, ((List.range numWarps).flatMap (fun warp =>
    v1Visits blockSize numWarps ctxLen pass warp)).Perm (List.range ctxLen)

variable {blockSize partSize numWarps ctxLen}

/-! ## One block -/

/-- A block visited from one position to another. -/
theorem filter_block (start stop blk : Nat) :
    ((List.range blockSize).map (fun off => blk * blockSize + off)).filter (fun pos =>
      ¬(pos < start ∨ stop ≤ pos))
      = (blockSlice blockSize start stop blk).map (fun t => t.1 * blockSize + t.2) := by
  rw [List.filter_map, blockSlice, List.map_map]
  congr 1
  apply List.filter_congr
  intro off _
  simp only [Function.comp_apply, decide_eq_decide]
  omega

/-- A block visited up to the end of the context. -/
theorem takeWhile_block (stop blk : Nat) :
    ((List.range blockSize).map (fun off => blk * blockSize + off)).takeWhile (fun pos => pos < stop)
      = (blockSlice blockSize 0 stop blk).map (fun t => t.1 * blockSize + t.2) := by
  have hmono : ((List.range blockSize).map (fun off => blk * blockSize + off)).Pairwise (fun a b =>
      decide (b < stop) = true → decide (a < stop) = true) := by
    rw [List.pairwise_map]
    refine List.pairwise_lt_range.imp ?_
    intro off off' hlt hoff'
    simp only [decide_eq_true_eq] at hoff' ⊢
    omega
  rw [takeWhile_eq_filter _ _ hmono, ← filter_block 0 stop blk]
  apply List.filter_congr
  intro pos _
  simp

/-! ## All warps -/

/-- Each pass of V1 visits the context. -/
theorem v1Loop_tiles (ctxLen : Nat) (hblock : 1 ≤ blockSize) (hwarps : 1 ≤ numWarps) :
    ((List.range numWarps).flatMap (fun warp => v1Loop blockSize numWarps ctxLen warp)).Perm
      (List.range ctxLen) := by
  have htiles := strided_blocks_tile 0 ctxLen hblock hwarps
  rw [Nat.sub_zero, ← List.range_eq_range', Nat.zero_div] at htiles
  simpa only [v1Loop, takeWhile_block, ← List.map_flatMap, Nat.zero_add] using htiles

/-- A partition of V2 visits its part of the context, also when it starts or ends within a block. -/
theorem v2Visits_tile (ctxLen part : Nat) (hblock : 1 ≤ blockSize) (hwarps : 1 ≤ numWarps) :
    ((List.range numWarps).flatMap (fun warp =>
      v2Visits blockSize partSize numWarps ctxLen part warp)).Perm
      (List.range' (part * partSize) (min (part * partSize + partSize) ctxLen - part * partSize)) := by
  by_cases hreturns : v2Returns partSize ctxLen part
  · have hempty : min (part * partSize + partSize) ctxLen - part * partSize = 0 := by
      rw [v2Returns] at hreturns
      omega
    simp [v2Visits, hreturns, hempty]
  · have htiles := strided_blocks_tile (part * partSize) (min (part * partSize + partSize) ctxLen)
      hblock hwarps
    simpa only [v2Visits, if_neg hreturns, filter_block, ← List.map_flatMap] using htiles

/-- **The attention loops visit every position exactly once.** -/
theorem attention_visits_once {blockSize partSize numWarps ctxLen numPartitions : Nat}
    (hblock : 1 ≤ blockSize) (hpart : 1 ≤ partSize) (hwarps : 1 ≤ numWarps)
    (hparts : (ctxLen + partSize - 1) / partSize ≤ numPartitions) :
    VisitsOnce blockSize partSize numWarps ctxLen numPartitions where
  v2 := by
    refine List.Perm.trans ?_ (parts_tile ctxLen hpart hparts)
    exact List.Perm.flatMap_left _ (fun part _ => v2Visits_tile ctxLen part hblock hwarps)
  reduce := by
    rintro rfl part
    rw [v2Returns, reduceParts, List.mem_range]
    omega
  v1 := by
    intro pass
    cases pass with
    | scores => exact v1Loop_tiles ctxLen hblock hwarps
    | weights => exact v1Loop_tiles ctxLen hblock hwarps
    | output => exact v1Loop_tiles ctxLen hblock hwarps

/-- Blocks of 3 and partitions of 4, so that every other partition starts within a block. -/
theorem attention_visits_once_straddling : VisitsOnce 3 4 2 10 5 :=
  attention_visits_once (by decide) (by decide) (by decide) (by decide)

end Loops

/-! ## The loops of the modelled kernels -/

section Kernels

variable {K : Type} (sh : Shape) (p : PagedAttentionParams K) (seq : Nat)

theorem v1Tokens_positions (pass : V1Pass) (warp : Nat) :
    (v1Tokens sh p seq warp).map (position sh)
      = v1Visits sh.blockSize sh.numWarps (p.contextLens seq) pass warp := by
  have hloop : (v1Tokens sh p seq warp).map (position sh)
      = v1Loop sh.blockSize sh.numWarps (p.contextLens seq) warp := by
    rw [v1Tokens_eq, List.map_flatMap, Nat.zero_div, Nat.zero_add]
    simp only [v1Loop, takeWhile_block]
    rfl
  cases pass <;> exact hloop

theorem v2Tokens_positions (part warp : Nat) :
    (v2Tokens sh p seq part warp).map (position sh)
      = v2Visits sh.blockSize partitionSize sh.numWarps (p.contextLens seq) part warp := by
  by_cases hreturns : v2Returns partitionSize (p.contextLens seq) part
  · -- the loops of a partition behind the context find no position
    rw [v2Visits, if_pos hreturns, List.map_eq_nil_iff, List.eq_nil_iff_forall_not_mem]
    intro t ht
    obtain ⟨blk, -, ht⟩ := List.mem_flatMap.1 ht
    obtain ⟨-, -, hlow, hhigh⟩ := mem_blockSlice.1 ht
    rw [v2Returns] at hreturns
    rw [v2EndTok] at hhigh
    rw [v2StartTok] at hlow hhigh
    omega
  · simp only [v2Visits, if_neg hreturns, filter_block, v2Tokens, List.map_flatMap]
    rfl

theorem reduceParts_eq : reduceParts (p.contextLens seq) = List.range (numParts p seq) := rfl

end Kernels

end CacheFlow.PagedAttention
