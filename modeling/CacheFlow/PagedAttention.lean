import CacheFlow.Lib.Simt
import CacheFlow.Lib.Softmax
import CacheFlow.BatchDecode

set_option autoImplicit false

/-! # The paged attention kernels

One sequence and one head of `paged_attention_v1_kernel`, and of `paged_attention_v2_kernel` followed by
`paged_attention_v2_reduce_kernel`, over an arbitrary ordered field: exact arithmetic instead of `float`,
any positive function that turns sums into products instead of `__expf`, no `1e-8f`, and shared memory of
any size.

The model keeps the threads. A warp is 32 lanes that run in lockstep; what a thread keeps in a register is
a function of its lane, a reduction is the butterfly of shuffles, and an `atomicAdd` from every warp is a
sum over the warps. `-FLT_MAX`, which every maximum starts from, is `⊥`: it is below every score, and its
exponential is nothing. -/

namespace CacheFlow.PagedAttention

open Simt

/-- `WARP_SIZE`. -/
abbrev warpSize : Nat := 32

/-- `PARTITION_SIZE`, which the reduce kernel has as a literal. -/
abbrev partitionSize : Nat := 512

/-- The template arguments of a kernel; `numWarps` is `NUM_THREADS / WARP_SIZE`, and a thread block has at
    most 1024 threads. -/
structure Shape where
  headDim : Nat
  blockSize : Nat
  numWarps : Nat
  headDim_pos : 1 ≤ headDim
  blockSize_pos : 1 ≤ blockSize
  numWarps_pos : 1 ≤ numWarps
  numWarps_le : numWarps ≤ warpSize

/-- The arrays and sizes a kernel is launched with. -/
structure PagedAttentionParams (K : Type) where
  query : Nat → K
  keyCache : Int → K
  valueCache : Int → K
  blockTables : Nat → Int
  contextLens : Nat → Nat
  scale : K
  numHeads : Nat
  numKvHeads : Nat
  maxBlocksPerSeq : Nat

/-! ## Warp-level primitives -/

def warpReduceSum {K : Type} [Add K] (val : Nat → K) : Nat → K :=
  butterfly (· + ·) [16, 8, 4, 2, 1] val

def warpReduceMax {K : Type} [LinearOrder K] (val : Nat → WithBot K) : Nat → WithBot K :=
  butterfly max [16, 8, 4, 2, 1] val

/-! ## Addresses -/

/-- The KV head a query head is grouped with. -/
def kvHead (numHeads numKvHeads head : Nat) : Nat := head / (numHeads / numKvHeads)

/-- Where the keys, or the values, of one token start in the cache. -/
def kvOffset (numKvHeads blockSize headDim : Nat) (phys : Int) (kvHead off : Nat) : Int :=
  ((phys * numKvHeads + kvHead) * blockSize + off) * headDim

section Kernels

variable {K : Type} [Field K] [LinearOrder K] (e : Exponential K) (sh : Shape)
  (p : PagedAttentionParams K) (seq head : Nat)

/-- The physical block of the logical block `blk`. -/
def physBlock (blk : Nat) : Int := p.blockTables (seq * p.maxBlocksPerSeq + blk)

/-- Where the token at offset `off` of the logical block `blk` starts in the cache. -/
def tokenOffset (blk off : Nat) : Int :=
  kvOffset p.numKvHeads sh.blockSize sh.headDim (physBlock p seq blk)
    (kvHead p.numHeads p.numKvHeads head) off

/-- The part of the dot product one lane computes. -/
def laneDot (blk off lane : Nat) : K :=
  (strided lane sh.headDim warpSize).foldl (fun dot d =>
    dot + p.query ((seq * p.numHeads + head) * sh.headDim + d)
      * p.keyCache (tokenOffset sh p seq head blk off + d)) 0

/-- The scaled dot product as every lane has it. -/
def dot (blk off lane : Nat) : K := warpReduceSum (laneDot sh p seq head blk off) lane * p.scale

/-- The element of the value vector a lane reads into `local_out[idx]`. -/
def laneValue (blk off lane idx : Nat) : K :=
  p.valueCache (tokenOffset sh p seq head blk off + (lane + warpSize * idx : Nat))

/-! ## Paged attention V1 -/

/-- The tokens a warp visits, as block and offset: every `num_warps`-th block, up to the end of the
    context. -/
def v1Tokens (warp : Nat) : List (Nat × Nat) :=
  let ctxLen := p.contextLens seq
  let numBlocks := (ctxLen + sh.blockSize - 1) / sh.blockSize
  (strided warp numBlocks sh.numWarps).flatMap (fun blk =>
    ((List.range sh.blockSize).takeWhile (fun off => blk * sh.blockSize + off < ctxLen)).map
      (fun off => (blk, off)))

/-- `smem_max[warp]`. -/
def v1WarpMax (warp : Nat) : WithBot K :=
  warpReduceMax (fun lane =>
    (v1Tokens sh p seq warp).foldl (fun m t =>
      max m ((dot sh p seq head t.1 t.2 lane : K) : WithBot K)) ⊥) 0

/-- `qk_max` after the reduction over the warps. -/
def v1Max : WithBot K :=
  warpReduceMax (fun lane => if lane < sh.numWarps then v1WarpMax sh p seq head lane else ⊥) 0

/-- The entry of `smem_qk` for a token: the dot product of lane 0, then its exponential. -/
def v1Weight (t : Nat × Nat) : K :=
  e.ofDiff ((dot sh p seq head t.1 t.2 0 : K) : WithBot K) (v1Max sh p seq head)

/-- `smem_sum[warp]`; only lane 0 adds anything. -/
def v1WarpSum (warp : Nat) : K :=
  warpReduceSum (fun lane => (v1Tokens sh p seq warp).foldl (fun sum t =>
    if lane = 0 then sum + v1Weight e sh p seq head t else sum) 0) 0

/-- `smem_sum[0]` after the reduction over the warps. -/
def v1Sum : K :=
  warpReduceSum (fun lane => if lane < sh.numWarps then v1WarpSum e sh p seq head lane else 0) 0

/-- `local_out[idx]`. -/
def v1LocalOut (warp lane idx : Nat) : K :=
  (v1Tokens sh p seq warp).foldl (fun out t =>
    out + v1Weight e sh p seq head t * (1 / v1Sum e sh p seq head)
      * laneValue sh p seq head t.1 t.2 lane idx) 0

/-- The output of `paged_attention_v1_kernel` in dimension `d`. -/
def pagedAttentionV1 (d : Nat) : K :=
  ((List.range sh.numWarps).map (fun warp =>
    v1LocalOut e sh p seq head warp (d % warpSize) (d / warpSize))).sum

/-! ## Paged attention V2 -/

/-- What a lane keeps while it runs over the tokens of its warp. -/
structure LaneState (K : Type) where
  localMax : WithBot K
  localSum : K
  localOut : Nat → K

def v2StartTok (part : Nat) : Nat := part * partitionSize

def v2EndTok (part : Nat) : Nat := min (v2StartTok part + partitionSize) (p.contextLens seq)

/-- The tokens of the partition that a warp visits. -/
def v2Tokens (part warp : Nat) : List (Nat × Nat) :=
  let startTok := v2StartTok part
  let endTok := v2EndTok p seq part
  let startBlock := startTok / sh.blockSize
  let endBlock := (endTok + sh.blockSize - 1) / sh.blockSize
  (strided (startBlock + warp) endBlock sh.numWarps).flatMap (fun blk =>
    ((List.range sh.blockSize).filter (fun off =>
      startTok ≤ blk * sh.blockSize + off ∧ blk * sh.blockSize + off < endTok)).map
      (fun off => (blk, off)))

/-- The body of the loop over the tokens. -/
def v2Token (lane : Nat) (st : LaneState K) (t : Nat × Nat) : LaneState K :=
  let x : K := dot sh p seq head t.1 t.2 lane
  let localMax := max st.localMax x
  let correction := e.ofDiff st.localMax localMax
  { localMax := localMax,
    localSum := st.localSum * correction + e.ofDiff x localMax,
    localOut := fun idx => st.localOut idx * correction
      + e.ofDiff x localMax * laneValue sh p seq head t.1 t.2 lane idx }

/-- What a lane has after the loop. -/
def v2Lane (part warp lane : Nat) : LaneState K :=
  (v2Tokens sh p seq part warp).foldl (v2Token e sh p seq head lane)
    { localMax := ⊥, localSum := 0, localOut := fun _ => 0 }

/-- `local_max` after the reduction over the lanes. -/
def v2WarpMax (part warp lane : Nat) : WithBot K :=
  warpReduceMax (fun lane => (v2Lane e sh p seq head part warp lane).localMax) lane

/-- `max_logits` of the partition. -/
def maxLogits (part : Nat) : WithBot K :=
  (List.range sh.numWarps).foldl (fun m warp => max m (v2WarpMax e sh p seq head part warp 0)) ⊥

def v2Correction (part warp lane : Nat) : K :=
  e.ofDiff (v2WarpMax e sh p seq head part warp lane) (maxLogits e sh p seq head part)

/-- `s_sum[warp]`: every lane of the warp contributes its sum. -/
def v2WarpSum (part warp : Nat) : K :=
  warpReduceSum (fun lane => (v2Lane e sh p seq head part warp lane).localSum
    * v2Correction e sh p seq head part warp lane) 0

/-- `exp_sums` of the partition. -/
def expSums (part : Nat) : K :=
  (List.range sh.numWarps).foldl (fun total warp => total + v2WarpSum e sh p seq head part warp) 0

/-- `tmp_output` of the partition in dimension `d`, which starts from zero. -/
def tmpOutput (part d : Nat) : K :=
  ((List.range sh.numWarps).map (fun warp =>
    (v2Lane e sh p seq head part warp (d % warpSize)).localOut (d / warpSize)
      * v2Correction e sh p seq head part warp (d % warpSize))).sum

/-! ### The reduce kernel -/

def numParts : Nat := (p.contextLens seq + 511) / 512

def reduceMax : WithBot K :=
  (List.range (numParts p seq)).foldl (fun m part => max m (maxLogits e sh p seq head part)) ⊥

/-- The weight the reduce kernel gives to a partition. -/
def reduceWeight (part : Nat) : K :=
  expSums e sh p seq head part
    * e.ofDiff (maxLogits e sh p seq head part) (reduceMax e sh p seq head)

/-- The output of `paged_attention_v2_reduce_kernel` in dimension `d`. -/
def pagedAttentionV2 (d : Nat) : K :=
  let totalWeight := (List.range (numParts p seq)).foldl (fun total part =>
    total + reduceWeight e sh p seq head part) 0
  let acc := (List.range (numParts p seq)).foldl (fun acc part =>
    acc + reduceWeight e sh p seq head part * tmpOutput e sh p seq head part d) 0
  acc / totalWeight

end Kernels

end CacheFlow.PagedAttention
