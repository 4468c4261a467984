import CacheFlow.PagedAttention.Cells

set_option autoImplicit false

/-! # The indices of the V1 kernel

`paged_attention_v1_kernel` keeps the score of every token of the context in `smem_qk`, at the token's
position. The array is declared with one entry for each thread, whatever the length of the context, while
`execute_attention` launches the kernel for contexts of up to 8192 tokens; the memory that the launch asks
for beyond `head_dim` floats, one for each token of the longest context, is not where `smem_qk` is.

The tables of the batch lie in one array with `max_blocks_per_seq` columns. The index into it is computed
in `int`; in exact arithmetic a covered position keeps every warp in the row of its sequence. -/

namespace CacheFlow.PagedAttention

open Simt

/-! ## The launch -/

/-- The longest context of a batch as `execute_attention` finds it. -/
def maxCtx (ctx : DecodeContext) : Int := ctx.contextLens.foldl max 0

/-- The instantiation `launch_paged_attention_v1` picks, with 128 threads. Nothing is launched for other
    sizes. -/
def launchPagedAttentionV1 (headDim blockSize : Int) : Option Shape :=
  if headDim = 128 ∧ blockSize = 16 then
    some launched
  else if headDim = 64 ∧ blockSize = 16 then
    some { launched with headDim := 64, headDim_pos := by decide }
  else none

/-- The parameters of the launch with the arrays as `prepare_kv_cache_inputs` computes them in `int`. A
    context length that is not positive ends every loop of the kernel before its first round. -/
def intLaunchParams {K : Type} (blockSize : Nat) (batch : DecodeBatch) (inputs : LaunchInputs K) :
    PagedAttentionParams K :=
  let ctx := prepareKvCacheInputs blockSize batch
  { launchParams blockSize batch inputs with
    blockTables := fun i => ctx.blockTables.getD i 0,
    contextLens := fun i => (ctx.contextLens.getD i 0).toNat }

theorem launchPagedAttentionV1_eq {headDim blockSize : Int} {sh : Shape}
    (h : launchPagedAttentionV1 headDim blockSize = some sh) :
    blockSize = 16 ∧ sh.blockSize = 16 ∧ sh.numWarps = 4 := by
  unfold launchPagedAttentionV1 at h
  split at h
  · next heq =>
      cases h
      exact ⟨heq.2, rfl, rfl⟩
  · split at h
    · next heq =>
        cases h
        exact ⟨heq.2, rfl, rfl⟩
    · cases h

/-! ## The accesses -/

/-- The three loops over the tokens. -/
inductive V1Pass where
  /-- The dot products, which lane 0 stores. -/
  | scores
  /-- The exponentials, which every lane reads and stores. -/
  | weights
  /-- The weighted values, for which every lane reads the weights. -/
  | output
  deriving DecidableEq, Repr

/-- `NUM_THREADS`, the declared size of `smem_qk`. -/
def smemQkSize (sh : Shape) : Nat := sh.numWarps * warpSize

section Kernel

variable {K : Type} (sh : Shape) (p : PagedAttentionParams K) (seq : Nat)

def numBlocks : Nat := (p.contextLens seq + sh.blockSize - 1) / sh.blockSize

/-- Where a lane reads or writes `smem_qk` in a pass. -/
def smemQkIndices (pass : V1Pass) (warp lane : Nat) : List Nat :=
  match pass with
  | .scores => if lane = 0 then (v1Tokens sh p seq warp).map (position sh) else []
  | .weights => (v1Tokens sh p seq warp).flatMap (fun t => [position sh t, position sh t])
  | .output => (v1Tokens sh p seq warp).map (position sh)

/-- Where a warp reads `block_tables` in a pass. -/
def blockTableIndices (pass : V1Pass) (warp : Nat) : List Int :=
  match pass with
  | .scores | .output => (strided warp (numBlocks sh p seq) sh.numWarps).map (fun blk : Nat =>
      toInt (seq * toInt p.maxBlocksPerSeq + blk))
  | .weights => []

/-- Every index of the kernel is in range: those into `smem_qk` below its size, those into `block_tables`
    in the row of the sequence. -/
structure V1InRange (numSeqs : Nat) : Prop where
  smem : ∀ seq < numSeqs, ∀ warp < sh.numWarps, ∀ lane < warpSize, ∀ pass,
    ∀ i ∈ smemQkIndices sh p seq pass warp lane, i < smemQkSize sh
  row : ∀ seq < numSeqs, ∀ warp < sh.numWarps, ∀ pass, ∀ i ∈ blockTableIndices sh p seq pass warp,
    (seq * p.maxBlocksPerSeq : Nat) ≤ i ∧ i < ((seq + 1) * p.maxBlocksPerSeq : Nat)

/-! ## One sequence -/

theorem mem_smemQkIndices {pass : V1Pass} {warp lane i : Nat}
    (h : i ∈ smemQkIndices sh p seq pass warp lane) :
    ∃ t ∈ v1Tokens sh p seq warp, position sh t = i := by
  cases pass with
  | scores =>
      simp only [smemQkIndices] at h
      split at h
      · exact List.mem_map.1 h
      · exact absurd h List.not_mem_nil
  | weights =>
      obtain ⟨t, ht, hi⟩ := List.mem_flatMap.1 h
      have hpos : i = position sh t := by simpa using hi
      exact ⟨t, ht, hpos.symm⟩
  | output => exact List.mem_map.1 h

/-- **The indices into `smem_qk` are the positions of the context**, so they are in range exactly when the
    context is no longer than the array. -/
theorem smemQkIndices_lt_iff (n : Nat) :
    (∀ warp < sh.numWarps, ∀ lane < warpSize, ∀ pass, ∀ i ∈ smemQkIndices sh p seq pass warp lane,
      i < n) ↔ p.contextLens seq ≤ n := by
  have htile : ∀ i, (∃ warp < sh.numWarps, ∃ t ∈ v1Tokens sh p seq warp, position sh t = i) ↔
      i < p.contextLens seq := by
    intro i
    have hmem := (v1Tokens_tile sh p seq).mem_iff (a := i)
    rw [List.mem_range] at hmem
    rw [← hmem]
    simp only [List.mem_map, List.mem_flatMap, List.mem_range]
    constructor
    · rintro ⟨warp, hwarp, t, ht, hpos⟩
      exact ⟨t, ⟨warp, hwarp, ht⟩, hpos⟩
    · rintro ⟨t, ⟨warp, hwarp, ht⟩, hpos⟩
      exact ⟨warp, hwarp, t, ht, hpos⟩
  constructor
  · intro h
    by_contra hlong
    -- the token at position `n` is read in the last pass
    obtain ⟨warp, hwarp, t, ht, hpos⟩ := (htile n).2 (Nat.not_le.1 hlong)
    have hlt := h warp hwarp 0 (by decide) .output n (List.mem_map.2 ⟨t, ht, hpos⟩)
    exact Nat.lt_irrefl n hlt
  · intro h warp hwarp lane _ pass i hi
    obtain ⟨t, ht, hpos⟩ := mem_smemQkIndices sh p seq hi
    exact Nat.lt_of_lt_of_le ((htile i).1 ⟨warp, hwarp, t, ht, hpos⟩) h

/-- The `int` that holds an index of the flattened tables is in the row exactly when nothing is lost. -/
theorem blockTableIndex_iff (seq : Nat) {cols blk : Nat} (hblk : blk < cols) (hsmall : blk < 2 ^ 32) :
    ((seq * cols : Nat) ≤ toInt (seq * toInt cols + blk) ∧
      toInt (seq * toInt cols + blk) < ((seq + 1) * cols : Nat)) ↔ seq * cols + blk < 2 ^ 31 := by
  have hcast : toInt (seq * toInt cols + blk) = toInt ((seq * cols + blk : Nat) : Int) := by
    rw [toInt, toInt, toInt, ← Int.bmod_add_bmod, Int.mul_bmod_bmod, Int.bmod_add_bmod]
    push_cast
    rfl
  have hrow : ((seq + 1) * cols : Nat) = seq * cols + cols := Nat.succ_mul seq cols
  rw [hcast, hrow]
  generalize seq * cols = start
  constructor
  · rintro ⟨hlow, -⟩
    -- a value that does not fit is moved by a multiple of `2 ^ 32`, which is longer than the row
    by_contra hbig
    have hlt := toInt_lt ((start + blk : Nat) : Int)
    obtain ⟨k, hk⟩ := dvd_sub_toInt ((start + blk : Nat) : Int)
    omega
  · intro hfits
    rw [toInt_of_lt (by omega) (by omega)]
    omega

/-- **The indices into `block_tables` are those of the blocks of the context**, so they stay in the row
    exactly when the last of them can be computed in `int`. -/
theorem blockTableIndices_iff (hcols : numBlocks sh p seq ≤ p.maxBlocksPerSeq)
    (hsmall : numBlocks sh p seq ≤ 2 ^ 32) :
    (∀ warp < sh.numWarps, ∀ pass, ∀ i ∈ blockTableIndices sh p seq pass warp,
      (seq * p.maxBlocksPerSeq : Nat) ≤ i ∧ i < ((seq + 1) * p.maxBlocksPerSeq : Nat)) ↔
    (0 < numBlocks sh p seq → seq * p.maxBlocksPerSeq + numBlocks sh p seq ≤ 2 ^ 31) := by
  have hindex : ∀ blk < numBlocks sh p seq, _ := fun blk hblk =>
    blockTableIndex_iff seq (Nat.lt_of_lt_of_le hblk hcols) (Nat.lt_of_lt_of_le hblk hsmall)
  have htile : ∀ blk, (∃ warp < sh.numWarps, blk ∈ strided warp (numBlocks sh p seq) sh.numWarps) ↔
      blk < numBlocks sh p seq := by
    intro blk
    have hmem := (strided_tiles 0 (numBlocks sh p seq) sh.numWarps_pos).mem_iff (a := blk)
    simpa only [List.mem_flatMap, List.mem_range, Nat.zero_add, Nat.sub_zero,
      ← List.range_eq_range'] using hmem
  constructor
  · intro h hpos
    obtain ⟨warp, hwarp, hblk⟩ := (htile (numBlocks sh p seq - 1)).2 (by omega)
    have hlast := h warp hwarp .output _ (List.mem_map_of_mem hblk)
    have hfits := (hindex _ (by omega)).1 hlast
    omega
  · intro h warp hwarp pass i hi
    have hread : ∃ blk, blk < numBlocks sh p seq ∧ toInt (seq * toInt p.maxBlocksPerSeq + blk) = i := by
      cases pass with
      | scores | output =>
          obtain ⟨blk, hblk, heq⟩ := List.mem_map.1 hi
          exact ⟨blk, (htile blk).1 ⟨warp, hwarp, hblk⟩, heq⟩
      | weights => exact absurd hi List.not_mem_nil
    obtain ⟨blk, hblk, rfl⟩ := hread
    refine (hindex blk hblk).2 ?_
    have hend := h (Nat.zero_lt_of_lt hblk)
    omega

end Kernel

/-! ## A batch -/

section Batch

variable {K : Type} {bs : Nat} {batch : DecodeBatch} {inputs : LaunchInputs K}

/-- The context length of an entry. -/
def contextLen (e : BatchEntry) : Int := toInt (e.position + 1)

theorem contextLens_intLaunchParams {j : Nat} {e : BatchEntry} (he : batch.entries[j]? = some e) :
    (intLaunchParams bs batch inputs).contextLens j = (contextLen e).toNat := by
  have hlen : (prepareKvCacheInputs bs batch).contextLens[j]? = some (contextLen e) := by
    simp only [prepareKvCacheInputs, List.getElem?_map, he, Option.map_some, contextLen]
  show ((prepareKvCacheInputs bs batch).contextLens.getD j 0).toNat = _
  rw [List.getD_eq_getElem?_getD, hlen, Option.getD_some]

theorem contextLen_le_maxCtx {e : BatchEntry} (he : e ∈ batch.entries) :
    contextLen e ≤ maxCtx (prepareKvCacheInputs bs batch) := by
  have hfold : ∀ (l : List Int) (n : Int), n ≤ l.foldl max n ∧ ∀ c ∈ l, c ≤ l.foldl max n := by
    intro l
    induction l with
    | nil => simp
    | cons a l ih =>
        intro n
        obtain ⟨hstart, hmem⟩ := ih (max n a)
        refine ⟨(Int.le_max_left ..).trans hstart, fun c hc => ?_⟩
        rcases List.mem_cons.1 hc with rfl | hc
        · exact (Int.le_max_right ..).trans hstart
        · exact hmem c hc
  exact (hfold _ 0).2 _ (List.mem_map_of_mem he)

theorem contextLen_le (e : BatchEntry) : contextLen e ≤ e.position + 1 := by
  obtain ⟨k, hk⟩ := dvd_sub_toInt (e.position + 1)
  have hlt := toInt_lt (e.position + 1)
  rw [contextLen]
  omega

/-- The blocks of a context that ends at a covered position are in the table. -/
theorem blocks_le_of_covered {ctxLen : Int} {pos n : Nat} (hlen : ctxLen ≤ pos + 1)
    (hcover : (pos : Int).tdiv 16 < n) : (ctxLen.toNat + 15) / 16 ≤ n := by
  have hdiv : (pos : Int).tdiv 16 = (pos / 16 : Nat) := rfl
  omega

/-- The tables cover the positions, in the arithmetic of `prepare_kv_cache_inputs`. -/
def TablesCover (bs : Nat) (batch : DecodeBatch) : Prop :=
  ∀ e ∈ batch.entries, (e.position : Int).tdiv (toInt bs) < e.blockTable.length

instance (bs : Nat) (batch : DecodeBatch) : Decidable (TablesCover bs batch) :=
  inferInstanceAs (Decidable (∀ e ∈ batch.entries, _))

/-- No context is longer than the 128 entries of `smem_qk`, and no block that is read lies beyond the
    first `2 ^ 31` entries of the flattened tables. -/
structure FitsV1 (batch : DecodeBatch) : Prop where
  smem : ∀ e ∈ batch.entries, contextLen e ≤ 128
  table : ∀ i e, batch.entries[i]? = some e → 0 < contextLen e →
    i * maxBlocks batch + ((contextLen e).toNat + 15) / 16 ≤ 2 ^ 31

/-- The warps stay in the row of their sequence exactly if the blocks of its context can be addressed. -/
theorem row_iff {headDim : Int} {sh : Shape}
    (hlaunch : launchPagedAttentionV1 headDim (toInt bs) = some sh)
    (hdispatch : maxCtx (prepareKvCacheInputs bs batch) ≤ 8192) (hcover : TablesCover bs batch) {j : Nat}
    {e : BatchEntry} (he : batch.entries[j]? = some e) :
    (∀ warp < sh.numWarps, ∀ pass,
      ∀ i ∈ blockTableIndices sh (intLaunchParams bs batch inputs) j pass warp,
        (j * maxBlocks batch : Nat) ≤ i ∧ i < ((j + 1) * maxBlocks batch : Nat)) ↔
    (0 < ((contextLen e).toNat + 15) / 16 →
      j * maxBlocks batch + ((contextLen e).toNat + 15) / 16 ≤ 2 ^ 31) := by
  obtain ⟨hbs, hblock, -⟩ := launchPagedAttentionV1_eq hlaunch
  have hmem := List.mem_of_getElem? he
  have hnum : numBlocks sh (intLaunchParams bs batch inputs) j = ((contextLen e).toNat + 15) / 16 := by
    rw [numBlocks, contextLens_intLaunchParams he, hblock, Nat.add_sub_assoc (by decide)]
  have hcols : ((contextLen e).toNat + 15) / 16 ≤ maxBlocks batch := by
    have hblk := hcover e hmem
    rw [hbs] at hblk
    exact (blocks_le_of_covered (contextLen_le e) hblk).trans (length_le_maxBlocks hmem)
  have hshort : contextLen e ≤ 8192 := (contextLen_le_maxCtx hmem).trans hdispatch
  have hiff := blockTableIndices_iff sh (intLaunchParams bs batch inputs) j
    (by rw [hnum]; exact hcols) (by rw [hnum]; omega)
  rw [hnum] at hiff
  exact hiff

/-- **The indices of V1.** For every batch whose tables cover its positions and that `execute_attention`
    dispatches to V1, and for every instantiation that is launched, all indices that any warp and lane
    computes in the three passes are in range exactly when the batch is `FitsV1`. -/
theorem v1_indices_in_range_iff {headDim : Int} {sh : Shape}
    (hlaunch : launchPagedAttentionV1 headDim (toInt bs) = some sh)
    (hdispatch : maxCtx (prepareKvCacheInputs bs batch) ≤ 8192) (hcover : TablesCover bs batch) :
    V1InRange sh (intLaunchParams bs batch inputs) batch.entries.length ↔ FitsV1 batch := by
  obtain ⟨-, -, hwarps⟩ := launchPagedAttentionV1_eq hlaunch
  have hsize : smemQkSize sh = 128 := by
    rw [smemQkSize, hwarps]
    rfl
  constructor
  · intro h
    refine ⟨fun e he => ?_, fun j e he hpos => ?_⟩
    · obtain ⟨j, hj, rfl⟩ := List.getElem_of_mem he
      have hsmem := (smemQkIndices_lt_iff sh (intLaunchParams bs batch inputs) j _).1 (h.smem j hj)
      rw [contextLens_intLaunchParams (List.getElem?_eq_getElem hj), hsize] at hsmem
      omega
    · obtain ⟨hj, -⟩ := List.getElem?_eq_some_iff.1 he
      exact (row_iff hlaunch hdispatch hcover he).1 (h.row j hj) (by omega)
  · intro h
    refine ⟨fun j hj => ?_, fun j hj => ?_⟩
    · have hlen := h.smem _ (List.getElem_mem hj)
      refine (smemQkIndices_lt_iff sh (intLaunchParams bs batch inputs) j _).2 ?_
      rw [contextLens_intLaunchParams (List.getElem?_eq_getElem hj), hsize]
      omega
    · refine (row_iff hlaunch hdispatch hcover (List.getElem?_eq_getElem hj)).2 (fun hpos => ?_)
      exact h.table j _ (List.getElem?_eq_getElem hj) (by omega)

/-- One request with 20 blocks of 16 tokens. -/
def longTable (position : Nat) : DecodeBatch where
  entries := [{ seqId := 0, token := 1, position := position,
                blockTable := (List.range 20).map (fun i : Nat => (i : Int)), isPrefill := false }]
  totalTokens := 1

/-- A context of 128 tokens fills `smem_qk`. -/
theorem longTable_in_range : ∃ sh, launchPagedAttentionV1 64 (toInt 16) = some sh ∧
    V1InRange sh (intLaunchParams 16 (longTable 127) groupedHeads) 1 := by
  have hlaunch : ∃ sh, launchPagedAttentionV1 64 (toInt 16) = some sh :=
    Option.isSome_iff_exists.1 (by decide +kernel)
  obtain ⟨sh, hsh⟩ := hlaunch
  refine ⟨sh, hsh, (v1_indices_in_range_iff hsh (by decide +kernel) (by decide +kernel)).2 ⟨?_, ?_⟩⟩
  · decide +kernel
  · have hblocks : ∀ e ∈ (longTable 127).entries, ((contextLen e).toNat + 15) / 16 ≤ 2 ^ 31 := by
      decide +kernel
    intro i e he _
    obtain ⟨hi, -⟩ := List.getElem?_eq_some_iff.1 he
    obtain rfl : i = 0 := Nat.lt_one_iff.1 hi
    rw [Nat.zero_mul, Nat.zero_add]
    exact hblocks e (List.mem_of_getElem? he)

/-- With one token more, lane 0 of the first warp writes the entry behind the array. -/
theorem longTable_out_of_range :
    maxCtx (prepareKvCacheInputs 16 (longTable 128)) ≤ 8192 ∧ TablesCover 16 (longTable 128) ∧
    ∃ sh, launchPagedAttentionV1 128 (toInt 16) = some sh ∧
      ¬ V1InRange sh (intLaunchParams 16 (longTable 128) groupedHeads) 1 := by
  have hindex : 128 ∈ smemQkIndices launched (intLaunchParams 16 (longTable 128) groupedHeads) 0
      .scores 0 0 := by decide +kernel
  refine ⟨by decide +kernel, by decide +kernel, launched, ?_, fun h => ?_⟩
  · have hbs : toInt 16 = 16 := by decide +kernel
    rw [hbs]
    rfl
  · exact absurd (h.smem 0 (by decide) 0 (by decide) 0 (by decide) .scores 128 hindex) (by decide)

end Batch

end CacheFlow.PagedAttention
