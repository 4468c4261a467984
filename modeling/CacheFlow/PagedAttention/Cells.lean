import CacheFlow.PagedAttention.Agreement

set_option autoImplicit false

/-! # The cells of the cache

The keys and values of a token are written by `reshape_and_cache_kernel`, which starts from the token's
slot, and read by `execute_attention_cpu` and the two attention kernels, which start from a position and a
block table: the first from the table of the entry, the kernels from the flattened tables with
`max_blocks` columns. All of them compute over unbounded integers here; `slotAt_eq_slotAtIn` ties this to
the computation in `int`. The same offset is used in the key cache and in the value cache. -/

namespace CacheFlow.PagedAttention

open Simt

/-! ## Arrays over unbounded integers -/

/-- `slotAt` with the cast to `int` as a parameter. -/
def slotAtIn (cast : Int → Int) (blockSize : Nat) (blockTable : List BlockId) (position : Nat) :
    Option Int :=
  let blockIdx := (cast position).tdiv (cast blockSize)
  let blockOff := (cast position).tmod (cast blockSize)
  if blockIdx < cast blockTable.length then
    some (cast (blockTable.getD blockIdx.toNat 0 * cast blockSize + blockOff))
  else none

theorem slotAt_eq_slotAtIn : slotAt = slotAtIn toInt := rfl

/-- `prepareKvCacheInputs` with the cast to `int` as a parameter. -/
def prepareKvCacheInputsIn (cast : Int → Int) (blockSize : Nat) (batch : DecodeBatch) :
    DecodeContext where
  blockTables := batch.entries.flatMap (fun e =>
    e.blockTable ++ List.replicate (maxBlocks batch - e.blockTable.length) 0)
  contextLens := batch.entries.map (fun e => cast (e.position + 1))
  slotMapping := batch.entries.map (fun e => slotAtIn cast blockSize e.blockTable e.position)
    ++ List.replicate (batch.totalTokens - batch.entries.length) none

theorem prepareKvCacheInputs_eq : prepareKvCacheInputs = prepareKvCacheInputsIn toInt := rfl

/-! ## Writing -/

/-- What one thread of `reshape_and_cache_kernel` copies: from the first offset, into the new keys or
    values, to the second, into the cache. Nothing for a slot that has not been written. -/
def reshapeAndCacheKernel (slotMapping : List (Option Int))
    (numTokens numKvHeads headDim blockSize tokenIdx headIdx d : Nat) : Option (Nat × Int) :=
  if numTokens ≤ tokenIdx ∨ headDim ≤ d then none
  else (slotMapping.getD tokenIdx none).map (fun slot =>
    let blockIdx : Int := slot.tdiv blockSize
    let blockOff : Int := slot.tmod blockSize
    let srcOff := (tokenIdx * numKvHeads + headIdx) * headDim + d
    let dstOff : Int := ((blockIdx * numKvHeads + headIdx) * blockSize + blockOff) * headDim + d
    (srcOff, dstOff))

/-! ## Reading

A read is a position, a dimension and the offset into the cache. -/

/-- What `execute_attention_cpu` reads for an entry and a head. A position beyond the table is skipped. -/
def cpuReads (blockSize headDim nHeads nKvHeads : Nat) (entry : BatchEntry) (h : Nat) :
    List (Nat × Nat × Int) :=
  let ctxLen := entry.position + 1
  let kvH := kvHead nHeads nKvHeads h
  (List.range ctxLen).flatMap (fun t =>
    let blk := t / blockSize
    let off := t % blockSize
    if entry.blockTable.length ≤ blk then []
    else
      let phys := entry.blockTable.getD blk 0
      (List.range headDim).map (fun d =>
        (t, d, ((phys * nKvHeads + kvH) * blockSize + off) * headDim + d)))

section Kernels

variable {K : Type} (sh : Shape) (p : PagedAttentionParams K) (seq head : Nat)

/-- What the lanes of a warp read for one token. -/
def tokenReads (t : Nat × Nat) : List (Nat × Nat × Int) :=
  (List.range warpSize).flatMap (fun lane => (strided lane sh.headDim warpSize).map (fun d =>
    (position sh t, d, tokenOffset sh p seq head t.1 t.2 + d)))

def v1Reads : List (Nat × Nat × Int) :=
  ((List.range sh.numWarps).flatMap (v1Tokens sh p seq)).flatMap (tokenReads sh p seq head)

/-- Partitions beyond the context return at once. -/
def v2Reads : List (Nat × Nat × Int) :=
  (List.range (numParts p seq)).flatMap (fun part =>
    ((List.range sh.numWarps).flatMap (v2Tokens sh p seq part)).flatMap (tokenReads sh p seq head))

end Kernels

/-- The three implementations of attention. -/
inductive AttentionPath where
  | cpu
  | pagedV1
  | pagedV2
  deriving DecidableEq, Repr

/-- The tensors and sizes that `execute_attention` adds to the arrays of the context. -/
structure LaunchInputs (K : Type) where
  query : Nat → K
  keyCache : Int → K
  valueCache : Int → K
  scale : K
  nHeads : Nat
  nKvHeads : Nat

/-- The parameters the kernels are launched with. -/
def launchParams {K : Type} (blockSize : Nat) (batch : DecodeBatch) (inputs : LaunchInputs K) :
    PagedAttentionParams K :=
  let ctx := prepareKvCacheInputsIn id blockSize batch
  { query := inputs.query,
    keyCache := inputs.keyCache,
    valueCache := inputs.valueCache,
    blockTables := fun i => ctx.blockTables.getD i 0,
    contextLens := fun i => (ctx.contextLens.getD i 0).toNat,
    scale := inputs.scale,
    numHeads := inputs.nHeads,
    numKvHeads := inputs.nKvHeads,
    maxBlocksPerSeq := maxBlocks batch }

/-- What the thread for the token `tokenIdx`, the KV head `headIdx` and the dimension `d` writes when
    the new keys and values of a batch are stored. -/
def cacheWrite {K : Type} (sh : Shape) (batch : DecodeBatch) (inputs : LaunchInputs K)
    (numTokens tokenIdx headIdx d : Nat) : Option (Nat × Int) :=
  reshapeAndCacheKernel (prepareKvCacheInputsIn id sh.blockSize batch).slotMapping numTokens
    inputs.nKvHeads sh.headDim sh.blockSize tokenIdx headIdx d

/-- What an implementation reads for the entry `seq` of the batch. -/
def AttentionPath.reads {K : Type} (path : AttentionPath) (sh : Shape) (batch : DecodeBatch)
    (inputs : LaunchInputs K) (seq head : Nat) : List (Nat × Nat × Int) :=
  match path with
  | .cpu => (batch.entries[seq]?.map (fun e =>
      cpuReads sh.blockSize sh.headDim inputs.nHeads inputs.nKvHeads e head)).getD []
  | .pagedV1 => v1Reads sh (launchParams sh.blockSize batch inputs) seq head
  | .pagedV2 => v2Reads sh (launchParams sh.blockSize batch inputs) seq head

/-! ## The map from coordinates to cells -/

/-- **Block, KV head, offset and dimension determine the cell and are determined by it.** -/
theorem cell_inj {nKvHeads bs hd : Nat} {b b' : Int} {k k' off off' d d' : Nat} (hk : k < nKvHeads)
    (hk' : k' < nKvHeads) (hoff : off < bs) (hoff' : off' < bs) (hd₁ : d < hd) (hd₂ : d' < hd)
    (h : kvOffset nKvHeads bs hd b k off + d = kvOffset nKvHeads bs hd b' k' off' + d') :
    b = b' ∧ k = k' ∧ off = off' ∧ d = d' := by
  obtain ⟨hvec, rfl⟩ := slot_inj hd₁ hd₂ h
  obtain ⟨hrow, rfl⟩ := slot_inj hoff hoff' hvec
  obtain ⟨rfl, rfl⟩ := slot_inj hk hk' hrow
  exact ⟨rfl, rfl, rfl, rfl⟩

theorem kvHead_lt {nHeads nKvHeads head : Nat} (hkv : 1 ≤ nKvHeads) (hdvd : nKvHeads ∣ nHeads)
    (hhead : head < nHeads) : kvHead nHeads nKvHeads head < nKvHeads := by
  obtain ⟨group, rfl⟩ := hdvd
  rw [kvHead, Nat.mul_div_cancel_left _ hkv]
  exact Nat.div_lt_of_lt_mul (by rwa [Nat.mul_comm])

/-! ## What is written -/

theorem slotAtIn_id {bs : Nat} {table : List BlockId} {position : Nat} {b : BlockId}
    (hb : table[position / bs]? = some b) :
    slotAtIn id bs table position = some (b * bs + (position % bs : Nat)) := by
  obtain ⟨hidx, rfl⟩ := List.getElem?_eq_some_iff.1 hb
  have hdiv : (position : Int).tdiv bs = (position / bs : Nat) := rfl
  have hmod : (position : Int).tmod bs = (position % bs : Nat) := rfl
  simp only [slotAtIn, id_eq, hdiv, hmod, Int.toNat_natCast]
  rw [if_pos (by exact_mod_cast hidx), List.getD_eq_getElem?_getD, hb, Option.getD_some]

/-- Decoding a slot gives back the block and the offset. -/
theorem slot_decode {bs : Nat} {b : Int} {off : Nat} (hb : 0 ≤ b) (hoff : off < bs) :
    (b * bs + off).tdiv bs = b ∧ (b * bs + off).tmod bs = off := by
  obtain ⟨n, rfl⟩ := Int.eq_ofNat_of_zero_le hb
  have hdiv : ((n * bs + off : Nat) : Int).tdiv bs = ((n * bs + off) / bs : Nat) := rfl
  have hmod : ((n * bs + off : Nat) : Int).tmod bs = ((n * bs + off) % bs : Nat) := rfl
  push_cast at hdiv hmod
  rw [hdiv, hmod]
  constructor
  · rw [Int.add_comm, Int.add_mul_ediv_right _ _ (by omega),
      Int.ediv_eq_zero_of_lt (by omega) (by omega), Int.zero_add]
  · rw [Int.add_comm, Int.add_mul_emod_self_right, Int.emod_eq_of_lt (by omega) (by omega)]

section Batch

variable {K : Type} {sh : Shape} {batch : DecodeBatch} {inputs : LaunchInputs K}

/-- **A token is written to the cell of its position.** -/
theorem reshapeAndCacheKernel_eq {i numTokens nKvHeads hd bs kvh d : Nat} {e : BatchEntry} {b : BlockId}
    (hbs : 1 ≤ bs) (he : batch.entries[i]? = some e) (hi : i < numTokens) (hd' : d < hd)
    (hb : e.blockTable[e.position / bs]? = some b) (hpos : 0 ≤ b) :
    reshapeAndCacheKernel (prepareKvCacheInputsIn id bs batch).slotMapping numTokens nKvHeads hd bs
        i kvh d
      = some ((i * nKvHeads + kvh) * hd + d,
          kvOffset nKvHeads bs hd b kvh (e.position % bs) + d) := by
  have hslot : (prepareKvCacheInputsIn id bs batch).slotMapping.getD i none
      = some (b * bs + (e.position % bs : Nat)) := by
    obtain ⟨hlt, rfl⟩ := List.getElem?_eq_some_iff.1 he
    rw [prepareKvCacheInputsIn, List.getD_eq_getElem?_getD,
      List.getElem?_append_left (by rwa [List.length_map]), List.getElem?_map, he, Option.map_some,
      Option.getD_some, slotAtIn_id hb]
  obtain ⟨hdiv, hmod⟩ := slot_decode hpos (Nat.mod_lt e.position hbs)
  rw [reshapeAndCacheKernel, if_neg (by omega), hslot, Option.map_some]
  simp only [hdiv, hmod, kvOffset]

/-! ## What is read -/

theorem mem_cpuReads {bs hd nHeads nKvHeads h pos d : Nat} {e : BatchEntry} {x : Int} :
    (pos, d, x) ∈ cpuReads bs hd nHeads nKvHeads e h ↔ pos ≤ e.position ∧ d < hd ∧
      ∃ b, e.blockTable[pos / bs]? = some b ∧
        x = kvOffset nKvHeads bs hd b (kvHead nHeads nKvHeads h) (pos % bs) + d := by
  simp only [cpuReads, List.mem_flatMap, List.mem_range]
  constructor
  · rintro ⟨t, ht, hmem⟩
    split at hmem
    · exact absurd hmem List.not_mem_nil
    · rename_i hblk
      obtain ⟨d', hd', heq⟩ := List.mem_map.1 hmem
      obtain ⟨rfl, hrest⟩ := Prod.mk.inj heq
      obtain ⟨rfl, rfl⟩ := Prod.mk.inj hrest
      have hget := List.getElem?_eq_getElem (Nat.not_le.1 hblk)
      refine ⟨Nat.lt_succ_iff.1 ht, List.mem_range.1 hd', _, hget, ?_⟩
      rw [List.getD_eq_getElem?_getD, hget, Option.getD_some, kvOffset]
  · rintro ⟨hpos, hd', b, hb, rfl⟩
    obtain ⟨hidx, -⟩ := List.getElem?_eq_some_iff.1 hb
    refine ⟨pos, Nat.lt_succ_of_le hpos, ?_⟩
    rw [if_neg (Nat.not_le.2 hidx), List.getD_eq_getElem?_getD, hb]
    exact List.mem_map.2 ⟨d, List.mem_range.2 hd', rfl⟩

section Kernel

variable {p : PagedAttentionParams K} {seq head pos d : Nat} {x : Int}

/-- The lanes of a warp read every dimension of a token. -/
theorem mem_tokenReads {t : Nat × Nat} (ht : t.2 < sh.blockSize) :
    (pos, d, x) ∈ tokenReads sh p seq head t ↔ pos = position sh t ∧ d < sh.headDim ∧
      x = tokenOffset sh p seq head (pos / sh.blockSize) (pos % sh.blockSize) + d := by
  have htiles := strided_tiles 0 sh.headDim (n := warpSize) (by decide)
  simp only [Nat.zero_add, Nat.sub_zero, ← List.range_eq_range'] at htiles
  rw [tokenReads, ← List.map_flatMap, List.mem_map]
  simp only [htiles.mem_iff, List.mem_range, Prod.mk.injEq]
  constructor
  · rintro ⟨d', hd', rfl, rfl, rfl⟩
    exact ⟨rfl, hd', by rw [position_div ht, position_mod ht]⟩
  · rintro ⟨rfl, hd', rfl⟩
    exact ⟨d, hd', rfl, rfl, by rw [position_div ht, position_mod ht]⟩

/-- Warps that visit the positions of `l` read every dimension of each of them. -/
theorem mem_warpReads {tokens : Nat → List (Nat × Nat)} {l : List Nat}
    (htile : (((List.range sh.numWarps).flatMap tokens).map (position sh)).Perm l)
    (hlt : ∀ warp, ∀ t ∈ tokens warp, t.2 < sh.blockSize) :
    (pos, d, x) ∈ ((List.range sh.numWarps).flatMap tokens).flatMap (tokenReads sh p seq head) ↔
      pos ∈ l ∧ d < sh.headDim ∧
        x = tokenOffset sh p seq head (pos / sh.blockSize) (pos % sh.blockSize) + d := by
  have hlt' : ∀ t ∈ (List.range sh.numWarps).flatMap tokens, t.2 < sh.blockSize := by
    intro t ht
    obtain ⟨warp, -, ht⟩ := List.mem_flatMap.1 ht
    exact hlt warp t ht
  rw [← htile.mem_iff, List.mem_flatMap, List.mem_map]
  constructor
  · rintro ⟨t, ht, hmem⟩
    obtain ⟨rfl, hrest⟩ := (mem_tokenReads (hlt' t ht)).1 hmem
    exact ⟨⟨t, ht, rfl⟩, hrest⟩
  · rintro ⟨⟨t, ht, rfl⟩, hrest⟩
    exact ⟨t, ht, (mem_tokenReads (hlt' t ht)).2 ⟨rfl, hrest⟩⟩

theorem mem_v1Reads :
    (pos, d, x) ∈ v1Reads sh p seq head ↔ pos < p.contextLens seq ∧ d < sh.headDim ∧
      x = tokenOffset sh p seq head (pos / sh.blockSize) (pos % sh.blockSize) + d := by
  rw [v1Reads, mem_warpReads (v1Tokens_tile sh p seq) (fun _ _ ht => v1Tokens_lt sh p seq ht),
    List.mem_range]

theorem mem_v2Reads :
    (pos, d, x) ∈ v2Reads sh p seq head ↔ pos < p.contextLens seq ∧ d < sh.headDim ∧
      x = tokenOffset sh p seq head (pos / sh.blockSize) (pos % sh.blockSize) + d := by
  have htile := (partPositions_tile p seq).mem_iff (a := pos)
  rw [List.mem_range, List.mem_flatMap] at htile
  rw [v2Reads, List.mem_flatMap, ← htile]
  simp only [mem_warpReads (v2Tokens_tile sh p seq _) (fun _ _ ht => v2Tokens_lt sh p seq _ ht)]
  constructor
  · rintro ⟨part, hpart, hpos, hrest⟩
    exact ⟨⟨part, hpart, hpos⟩, hrest⟩
  · rintro ⟨⟨part, hpart, hpos⟩, hrest⟩
    exact ⟨part, hpart, hpos, hrest⟩

end Kernel

/-! ### The flattened tables -/

/-- Row-major access to rows of one length. -/
theorem getElem?_flatMap_row {α β : Type} {g : α → List β} {n : Nat} (l : List α)
    (hlen : ∀ a ∈ l, (g a).length = n) {j k : Nat} (hk : k < n) :
    (l.flatMap g)[j * n + k]? = l[j]?.bind (fun a => (g a)[k]?) := by
  induction l generalizing j with
  | nil => simp
  | cons a l ih =>
      have ha := hlen a (List.mem_cons_self ..)
      rw [List.flatMap_cons]
      cases j with
      | zero =>
          rw [Nat.zero_mul, Nat.zero_add, List.getElem?_append_left (by omega)]
          simp
      | succ j =>
          have hidx : (j + 1) * n + k - (g a).length = j * n + k := by
            rw [ha, Nat.succ_mul]
            omega
          rw [List.getElem?_append_right (by rw [ha, Nat.succ_mul]; omega), hidx,
            ih (fun b hb => hlen b (List.mem_cons_of_mem _ hb)), List.getElem?_cons_succ]

theorem length_le_maxBlocks {e : BatchEntry} (he : e ∈ batch.entries) :
    e.blockTable.length ≤ maxBlocks batch := by
  have hfold : ∀ (l : List BatchEntry) (n : Nat),
      n ≤ l.foldl (fun n e => max n e.blockTable.length) n ∧
        ∀ e ∈ l, e.blockTable.length ≤ l.foldl (fun n e => max n e.blockTable.length) n := by
    intro l
    induction l with
    | nil => simp
    | cons a l ih =>
        intro n
        obtain ⟨hstart, hmem⟩ := ih (max n a.blockTable.length)
        refine ⟨(Nat.le_max_left ..).trans hstart, fun e he => ?_⟩
        rcases List.mem_cons.1 he with rfl | he
        · exact (Nat.le_max_right ..).trans hstart
        · exact hmem e he
  exact (hfold batch.entries 0).2 e he

/-- The kernels find the block of an entry in its row of the flattened tables. -/
theorem physBlock_launchParams {j blk : Nat} {e : BatchEntry} {b : BlockId}
    (he : batch.entries[j]? = some e) (hb : e.blockTable[blk]? = some b) :
    physBlock (launchParams sh.blockSize batch inputs) j blk = b := by
  obtain ⟨hblk, -⟩ := List.getElem?_eq_some_iff.1 hb
  have hrows : ∀ e' ∈ batch.entries, (e'.blockTable
      ++ List.replicate (maxBlocks batch - e'.blockTable.length) (0 : Int)).length = maxBlocks batch := by
    intro e' he'
    have hle := length_le_maxBlocks he'
    rw [List.length_append, List.length_replicate]
    omega
  have hcol : blk < maxBlocks batch :=
    Nat.lt_of_lt_of_le hblk (length_le_maxBlocks (List.mem_of_getElem? he))
  have hrow := getElem?_flatMap_row batch.entries hrows hcol (j := j)
  rw [he, Option.bind_some, List.getElem?_append_left hblk, hb] at hrow
  exact congrArg (Option.getD · 0) hrow

theorem contextLens_launchParams {j : Nat} {e : BatchEntry} (he : batch.entries[j]? = some e) :
    (launchParams sh.blockSize batch inputs).contextLens j = e.position + 1 := by
  have hlen : (prepareKvCacheInputsIn id sh.blockSize batch).contextLens[j]?
      = some ((e.position : Int) + 1) := by
    rw [prepareKvCacheInputsIn, List.getElem?_map, he]
    rfl
  simp only [launchParams, List.getD_eq_getElem?_getD, hlen, Option.getD_some]
  omega

/-- **Every implementation reads the cell of the position**, and reads all positions up to its own, as
    far as the table goes. -/
theorem AttentionPath.mem_reads (path : AttentionPath) {j head pos d : Nat} {e : BatchEntry}
    {b : BlockId} (he : batch.entries[j]? = some e) (hb : e.blockTable[pos / sh.blockSize]? = some b)
    {x : Int} :
    (pos, d, x) ∈ path.reads sh batch inputs j head ↔ pos ≤ e.position ∧ d < sh.headDim ∧
      x = kvOffset inputs.nKvHeads sh.blockSize sh.headDim b
        (kvHead inputs.nHeads inputs.nKvHeads head) (pos % sh.blockSize) + d := by
  have hkernel : tokenOffset sh (launchParams sh.blockSize batch inputs) j head
      (pos / sh.blockSize) (pos % sh.blockSize)
      = kvOffset inputs.nKvHeads sh.blockSize sh.headDim b
          (kvHead inputs.nHeads inputs.nKvHeads head) (pos % sh.blockSize) := by
    rw [tokenOffset, physBlock_launchParams he hb]
    rfl
  cases path with
  | cpu =>
      simp only [AttentionPath.reads, he, Option.map_some, Option.getD_some, mem_cpuReads, hb,
        Option.some.injEq, exists_eq_left']
  | pagedV1 =>
      rw [AttentionPath.reads, mem_v1Reads, contextLens_launchParams he, hkernel, Nat.lt_succ_iff]
  | pagedV2 =>
      rw [AttentionPath.reads, mem_v2Reads, contextLens_launchParams he, hkernel, Nat.lt_succ_iff]

/-! ## Writes and reads -/

/-- Every position of the batch is covered by its table, and no block id is negative. -/
structure Covered (bs : Nat) (batch : DecodeBatch) : Prop where
  covered : ∀ e ∈ batch.entries, e.position / bs < e.blockTable.length
  nonneg : ∀ e ∈ batch.entries, ∀ b ∈ e.blockTable, 0 ≤ b

/-- The block of an entry's position, and what is written there. -/
theorem Covered.cacheWrite_eq (h : Covered sh.blockSize batch) (inputs : LaunchInputs K)
    {i numTokens : Nat} {e : BatchEntry} (he : batch.entries[i]? = some e) (hi : i < numTokens) :
    ∃ b, e.blockTable[e.position / sh.blockSize]? = some b ∧ ∀ kvh, ∀ d < sh.headDim,
      cacheWrite sh batch inputs numTokens i kvh d
        = some ((i * inputs.nKvHeads + kvh) * sh.headDim + d,
            kvOffset inputs.nKvHeads sh.blockSize sh.headDim b kvh (e.position % sh.blockSize) + d) := by
  have hmem := List.mem_of_getElem? he
  have hb := List.getElem?_eq_getElem (h.covered e hmem)
  refine ⟨_, hb, fun kvh d hd => ?_⟩
  exact reshapeAndCacheKernel_eq sh.blockSize_pos he hi hd hb (h.nonneg e hmem _ (List.getElem_mem _))

/-- **The write path and the read paths address the same cell.** What is written for a token, a KV head
    and a dimension goes to the one cell that every implementation of attention reads for that position,
    KV head and dimension, in every entry whose table has the same block there; the entry reads it if its
    own position is not before it. Different coordinates are different cells, so writes collide only in
    the same block at the same offset. -/
theorem writes_and_reads_same_cell {K : Type} (sh : Shape) (batch : DecodeBatch)
    (inputs : LaunchInputs K) (numTokens : Nat) (hkv : 1 ≤ inputs.nKvHeads)
    (hdvd : inputs.nKvHeads ∣ inputs.nHeads) (hbatch : Covered sh.blockSize batch) :
    (∀ head < inputs.nHeads, kvHead inputs.nHeads inputs.nKvHeads head < inputs.nKvHeads) ∧
    (∀ i e, batch.entries[i]? = some e → i < numTokens →
      ∀ kvh < inputs.nKvHeads, ∀ d < sh.headDim, ∃ cell,
        cacheWrite sh batch inputs numTokens i kvh d
          = some ((i * inputs.nKvHeads + kvh) * sh.headDim + d, cell) ∧
        ∀ (path : AttentionPath) (j : Nat) (e' : BatchEntry), batch.entries[j]? = some e' →
          e'.blockTable[e.position / sh.blockSize]? = e.blockTable[e.position / sh.blockSize]? →
          ∀ head < inputs.nHeads, kvHead inputs.nHeads inputs.nKvHeads head = kvh →
            ∀ x, (e.position, d, x) ∈ path.reads sh batch inputs j head ↔
              e.position ≤ e'.position ∧ x = cell) ∧
    (∀ (b b' : Int), ∀ k < inputs.nKvHeads, ∀ k' < inputs.nKvHeads, ∀ off < sh.blockSize,
      ∀ off' < sh.blockSize, ∀ d < sh.headDim, ∀ d' < sh.headDim,
        kvOffset inputs.nKvHeads sh.blockSize sh.headDim b k off + d
          = kvOffset inputs.nKvHeads sh.blockSize sh.headDim b' k' off' + d' →
        b = b' ∧ k = k' ∧ off = off' ∧ d = d') ∧
    (∀ i e i' e', batch.entries[i]? = some e → batch.entries[i']? = some e' →
      ∀ kvh < inputs.nKvHeads, ∀ kvh' < inputs.nKvHeads, ∀ d d' src src' cell,
        cacheWrite sh batch inputs numTokens i kvh d = some (src, cell) →
        cacheWrite sh batch inputs numTokens i' kvh' d' = some (src', cell) →
        e.blockTable[e.position / sh.blockSize]? = e'.blockTable[e'.position / sh.blockSize]? ∧
          e.position % sh.blockSize = e'.position % sh.blockSize ∧ kvh = kvh' ∧ d = d') := by
  have hguard : ∀ {i kvh d w}, cacheWrite sh batch inputs numTokens i kvh d = some w →
      i < numTokens ∧ d < sh.headDim := by
    intro i kvh d w hw
    rw [cacheWrite, reshapeAndCacheKernel] at hw
    split at hw
    · exact absurd hw (by simp)
    · omega
  refine ⟨fun head => kvHead_lt hkv hdvd, ?_, ?_, ?_⟩
  · intro i e he hi kvh _ d hd
    obtain ⟨b, hb, hwrite⟩ := hbatch.cacheWrite_eq inputs he hi
    refine ⟨_, hwrite kvh d hd, fun path j e' he' htable head _ hhead x => ?_⟩
    rw [path.mem_reads he' (htable.trans hb), hhead]
    constructor
    · rintro ⟨hpos, -, rfl⟩
      exact ⟨hpos, rfl⟩
    · rintro ⟨hpos, rfl⟩
      exact ⟨hpos, hd, rfl⟩
  · intro b b' k hk k' hk' off hoff off' hoff' d hd d' hd' heq
    exact cell_inj hk hk' hoff hoff' hd hd' heq
  · intro i e i' e' he he' kvh hkvh kvh' hkvh' d d' src src' cell hw hw'
    obtain ⟨hi, hd⟩ := hguard hw
    obtain ⟨hi', hd'⟩ := hguard hw'
    obtain ⟨b, hb, hwrite⟩ := hbatch.cacheWrite_eq inputs he hi
    obtain ⟨b', hb', hwrite'⟩ := hbatch.cacheWrite_eq inputs he' hi'
    rw [hwrite kvh d hd] at hw
    rw [hwrite' kvh' d' hd'] at hw'
    have hcell := (Prod.mk.inj (Option.some.inj hw)).2.trans (Prod.mk.inj (Option.some.inj hw')).2.symm
    obtain ⟨rfl, rfl, hoff, rfl⟩ := cell_inj hkvh hkvh' (Nat.mod_lt _ sh.blockSize_pos)
      (Nat.mod_lt _ sh.blockSize_pos) hd hd' hcell
    exact ⟨hb.trans hb'.symm, hoff, rfl, rfl⟩

/-- Two requests that share a block, at positions 3 and 4 of tables with blocks of two tokens. -/
def sharedBlock : DecodeBatch where
  entries := [
    { seqId := 0, token := 7, position := 3, blockTable := [4, 1], isPrefill := false },
    { seqId := 1, token := 9, position := 4, blockTable := [4, 1, 6], isPrefill := false }]
  totalTokens := 2

def sharedShape : Shape where
  headDim := 2
  blockSize := 2
  numWarps := 1
  headDim_pos := by decide
  blockSize_pos := by decide
  numWarps_pos := by decide
  numWarps_le := by decide

/-- Four query heads over two KV heads. -/
def groupedHeads : LaunchInputs ℚ where
  query := fun _ => 1
  keyCache := fun _ => 0
  valueCache := fun _ => 0
  scale := 1
  nHeads := 4
  nKvHeads := 2

/-- What the first request writes at position 3 is read by the second, by every implementation. -/
theorem sharedBlock_read : ∃ cell,
    cacheWrite sharedShape sharedBlock groupedHeads 2 0 1 1 = some (3, cell) ∧
      ∀ path : AttentionPath, (3, 1, cell) ∈ path.reads sharedShape sharedBlock groupedHeads 1 2 := by
  have hbatch : Covered sharedShape.blockSize sharedBlock := ⟨by decide, by decide⟩
  obtain ⟨-, hcells, -⟩ := writes_and_reads_same_cell sharedShape sharedBlock groupedHeads 2
    (by decide) (by decide) hbatch
  obtain ⟨cell, hwrite, hread⟩ := hcells 0 _ rfl (by decide) 1 (by decide) 1 (by decide)
  refine ⟨cell, hwrite, fun path => ?_⟩
  exact (hread path 1 _ rfl rfl 2 (by decide) rfl cell).2 ⟨by decide, rfl⟩

end Batch

end CacheFlow.PagedAttention
