import CacheFlow.Compaction
import CacheFlow.PagedAttention.Cells

set_option autoImplicit false

/-! # Storing the keys and values of a batch

`launch_reshape_and_cache` runs one thread for each token, KV head and dimension; a thread copies one
element of the new keys and one of the new values to the slot of its token. The threads run in any order,
so a launch is a list of copies in any order, the same for both caches.

What has to be found in the caches later is a record the code does not keep: the vector that was last
computed for each sequence and position. `Stored` says that a table leads to that vector, and
`Stored.reshapeAndCache` what a launch does to it: the positions of the batch are stored, and nothing
that is stored for a sequence with other blocks is disturbed. -/

namespace CacheFlow.PagedAttention

open Copy

/-! ## The kernel -/

/-- What the threads of `launch_reshape_and_cache` copy. -/
def cacheWrites (sh : Shape) (numKvHeads : Nat) (batch : DecodeBatch) : List (Nat × Int) :=
  (List.range batch.entries.length).flatMap (fun tokenIdx =>
    (List.range numKvHeads).flatMap (fun headIdx =>
      (List.range sh.headDim).filterMap (fun d =>
        reshapeAndCacheKernel (prepareKvCacheInputs sh.blockSize batch).slotMapping
          batch.entries.length numKvHeads sh.headDim sh.blockSize tokenIdx headIdx d)))

/-- The new keys and values of a batch, as the flat arrays the kernel reads. -/
structure NewVectors (K : Type) where
  key : Nat → K
  value : Nat → K

/-- The caches after the copies `ops`. -/
def reshapeAndCache {K : Type} (new : NewVectors K) (ops : List (Nat × Int)) (caches : KvCaches K) :
    KvCaches K where
  key := copyAll new.key ops caches.key
  value := copyAll new.value ops caches.value

/-! ## The record -/

/-- A vector for each sequence, position and KV head. -/
abbrev Vectors (K : Type) : Type := SeqId → Nat → Nat → Nat → K

/-- The record after a batch with the elements `new`: the positions of the batch have new vectors. -/
def remember {K : Type} (sh : Shape) (numKvHeads : Nat) (batch : DecodeBatch) (new : Nat → K)
    (record : Vectors K) : Vectors K := fun s pos headIdx d =>
  match batch.entries.findIdx? (fun e => e.seqId = s ∧ e.position = pos) with
  | some i => new ((i * numKvHeads + headIdx) * sh.headDim + d)
  | none => record s pos headIdx d

/-- The table leads to the vector that is recorded for the position. -/
def Stored {K : Type} (sh : Shape) (numKvHeads : Nat) (mem : Int → K) (record : Vectors K)
    (table : List BlockId) (s : SeqId) (pos : Nat) : Prop :=
  ∃ b, table[pos / sh.blockSize]? = some b ∧ ∀ headIdx < numKvHeads, ∀ d < sh.headDim,
    mem (kvOffset numKvHeads sh.blockSize sh.headDim b headIdx (pos % sh.blockSize) + d)
      = record s pos headIdx d

/-! ## What a launch changes -/

section Launch

variable {K : Type} {sh : Shape} {numKvHeads n : Nat} {batch : DecodeBatch}

/-- A thread copies to the cell of its token's position. -/
theorem reshape_prepared (numKvHeads : Nat) (h : batch.Apart n sh.blockSize)
    (hsize : n * sh.blockSize < 2 ^ 31) {i : Nat} {e : BatchEntry} (he : batch.entries[i]? = some e) :
    ∃ b, e.blockTable[e.position / sh.blockSize]? = some b ∧ ∀ headIdx, ∀ d < sh.headDim,
      reshapeAndCacheKernel (prepareKvCacheInputs sh.blockSize batch).slotMapping
          batch.entries.length numKvHeads sh.headDim sh.blockSize i headIdx d
        = some ((i * numKvHeads + headIdx) * sh.headDim + d,
            kvOffset numKvHeads sh.blockSize sh.headDim b headIdx (e.position % sh.blockSize) + d) := by
  obtain ⟨hi, rfl⟩ := List.getElem?_eq_some_iff.1 he
  have hmem : batch.entries[i] ∈ batch.entries := List.getElem_mem hi
  have htable := h.table _ hmem
  have hcov := h.covered _ hmem
  refine ⟨_, List.getElem?_eq_getElem hcov, fun headIdx d hd => ?_⟩
  have hslot : (prepareKvCacheInputs sh.blockSize batch).slotMapping.getD i none
      = some (batch.entries[i].blockTable[batch.entries[i].position / sh.blockSize] * sh.blockSize
          + (batch.entries[i].position % sh.blockSize : Nat)) := by
    rw [prepareKvCacheInputs, List.getD_eq_getElem?_getD,
      List.getElem?_append_left (by rwa [List.length_map]), List.getElem?_map, he, Option.map_some,
      Option.getD_some, htable.slotAt_eq sh.blockSize_pos hsize hcov]
  obtain ⟨hdiv, hmod⟩ := slot_decode (htable.range _ (List.getElem_mem hcov)).1
    (Nat.mod_lt batch.entries[i].position sh.blockSize_pos)
  rw [reshapeAndCacheKernel, if_neg (by omega), hslot, Option.map_some]
  simp only [hdiv, hmod, kvOffset]

theorem mem_cacheWrites (h : batch.Apart n sh.blockSize) (hsize : n * sh.blockSize < 2 ^ 31)
    {op : Nat × Int} :
    op ∈ cacheWrites sh numKvHeads batch ↔ ∃ i e b, batch.entries[i]? = some e ∧
      e.blockTable[e.position / sh.blockSize]? = some b ∧ ∃ headIdx < numKvHeads, ∃ d < sh.headDim,
        op = ((i * numKvHeads + headIdx) * sh.headDim + d,
          kvOffset numKvHeads sh.blockSize sh.headDim b headIdx (e.position % sh.blockSize) + d) := by
  simp only [cacheWrites, List.mem_flatMap, List.mem_filterMap, List.mem_range]
  constructor
  · rintro ⟨i, hi, headIdx, hhead, d, hd, hop⟩
    have he := List.getElem?_eq_getElem hi
    obtain ⟨b, hb, hcopy⟩ := reshape_prepared numKvHeads h hsize he
    rw [hcopy headIdx d hd] at hop
    exact ⟨i, _, b, he, hb, headIdx, hhead, d, hd, (Option.some.inj hop).symm⟩
  · rintro ⟨i, e, b, he, hb, headIdx, hhead, d, hd, rfl⟩
    obtain ⟨hi, -⟩ := List.getElem?_eq_some_iff.1 he
    obtain ⟨b', hb', hcopy⟩ := reshape_prepared numKvHeads h hsize he
    rw [hb] at hb'
    rw [← Option.some.inj hb'] at hcopy
    exact ⟨i, hi, headIdx, hhead, d, hd, hcopy headIdx d hd⟩

/-- Entries of a batch at the same position of the same sequence are one entry. -/
theorem index_eq (h : batch.Apart n sh.blockSize) {i j : Nat} {e e' : BatchEntry}
    (he : batch.entries[i]? = some e) (he' : batch.entries[j]? = some e')
    (hid : e.seqId = e'.seqId) (hpos : e.position = e'.position) : i = j := by
  obtain ⟨hi, rfl⟩ := List.getElem?_eq_some_iff.1 he
  obtain ⟨hj, rfl⟩ := List.getElem?_eq_some_iff.1 he'
  refine (List.getElem?_inj (by rwa [List.length_map]) h.positions).1 ?_
  rw [List.getElem?_map, List.getElem?_map, he, he', Option.map_some, Option.map_some, hid, hpos]

theorem remember_of_entry (h : batch.Apart n sh.blockSize) {i : Nat} {e : BatchEntry}
    (he : batch.entries[i]? = some e) (new : Nat → K) (record : Vectors K) (headIdx d : Nat) :
    remember sh numKvHeads batch new record e.seqId e.position headIdx d
      = new ((i * numKvHeads + headIdx) * sh.headDim + d) := by
  unfold remember
  split
  · next j hj =>
      obtain ⟨hlt, hkey, -⟩ := List.findIdx?_eq_some_iff_getElem.1 hj
      simp only [decide_eq_true_eq] at hkey
      rw [index_eq h he (List.getElem?_eq_getElem hlt) hkey.1.symm hkey.2.symm]
  · next hnone =>
      have hnot := List.findIdx?_eq_none_iff.1 hnone e (List.mem_of_getElem? he)
      simp at hnot

theorem remember_of_notMem {s : SeqId} {pos : Nat}
    (hnot : ∀ e ∈ batch.entries, ¬ (e.seqId = s ∧ e.position = pos)) (new : Nat → K)
    (record : Vectors K) :
    remember sh numKvHeads batch new record s pos = record s pos := by
  have hnone : batch.entries.findIdx? (fun e => e.seqId = s ∧ e.position = pos) = none :=
    List.findIdx?_eq_none_iff.2 (fun e he => by simpa using hnot e he)
  funext headIdx d
  simp only [remember, hnone]

/-- The blocks of the sequence `s` in the batch: its entries have the table, and those of other sequences
    have none of its blocks. -/
structure TableOf (batch : DecodeBatch) (s : SeqId) (table : List BlockId) : Prop where
  same : ∀ e ∈ batch.entries, e.seqId = s → e.blockTable = table
  apart : ∀ e ∈ batch.entries, e.seqId ≠ s → List.Disjoint e.blockTable table

/-- A copy into a cell of the sequence is for that position of the sequence. -/
theorem TableOf.entry_of_cell {s : SeqId} {table : List BlockId} (htable : TableOf batch s table)
    (hin : TableIn n table) {pos i : Nat} {e : BatchEntry} {b : BlockId}
    (hb : table[pos / sh.blockSize]? = some b) (he : batch.entries[i]? = some e)
    (hcell : e.blockTable[e.position / sh.blockSize]? = some b)
    (hoff : e.position % sh.blockSize = pos % sh.blockSize) : e.seqId = s ∧ e.position = pos := by
  have hmem := List.mem_of_getElem? he
  have hid : e.seqId = s := by
    by_contra hne
    exact htable.apart e hmem hne (List.mem_of_getElem? hcell) (List.mem_of_getElem? hb)
  rw [htable.same e hmem hid] at hcell
  obtain ⟨hlt, -⟩ := List.getElem?_eq_some_iff.1 hcell
  have hdiv : e.position / sh.blockSize = pos / sh.blockSize :=
    (List.getElem?_inj hlt hin.nodup).1 (hcell.trans hb.symm)
  refine ⟨hid, ?_⟩
  rw [← Nat.div_add_mod e.position sh.blockSize, hdiv, hoff, Nat.div_add_mod]

/-- **What a launch stores.** In whatever order the threads run, afterwards the positions of the batch are
    stored, and so is what was stored before for a sequence with blocks of its own. -/
theorem Stored.reshapeAndCache {s : SeqId} {table : List BlockId} {pos : Nat} {mem : Int → K}
    {record : Vectors K} (h : batch.Apart n sh.blockSize) (hsize : n * sh.blockSize < 2 ^ 31)
    (htable : TableOf batch s table) (hin : TableIn n table)
    (hpos : (∃ e ∈ batch.entries, e.seqId = s ∧ e.position = pos) ∨
      Stored sh numKvHeads mem record table s pos)
    (new : Nat → K) {ops : List (Nat × Int)} (hops : ops.Perm (cacheWrites sh numKvHeads batch)) :
    Stored sh numKvHeads (copyAll new ops mem) (remember sh numKvHeads batch new record) table s
      pos := by
  by_cases hentry : ∃ e ∈ batch.entries, e.seqId = s ∧ e.position = pos
  · obtain ⟨e, hmem, rfl, rfl⟩ := hentry
    obtain ⟨i, hi, heq⟩ := List.mem_iff_getElem.1 hmem
    have he : batch.entries[i]? = some e := by rw [List.getElem?_eq_getElem hi, heq]
    obtain ⟨b, hb, -⟩ := reshape_prepared numKvHeads h hsize he
    rw [htable.same e hmem rfl] at hb
    refine ⟨b, hb, fun headIdx hhead d hd => ?_⟩
    rw [remember_of_entry h he]
    have hb' : e.blockTable[e.position / sh.blockSize]? = some b := by
      rw [htable.same e hmem rfl]
      exact hb
    have hop := (mem_cacheWrites h hsize).2
      ⟨i, e, b, he, hb', headIdx, hhead, d, hd, rfl⟩
    refine copyAll_of_mem (hops.mem_iff.2 hop) ?_
    -- every copy into this cell is made by the same thread
    intro op' hop' hcell
    obtain ⟨j, e', b', he', hb'', headIdx', hhead', d', hd', rfl⟩ :=
      (mem_cacheWrites h hsize).1 (hops.mem_iff.1 hop')
    obtain ⟨rfl, rfl, hoff, rfl⟩ := cell_inj hhead' hhead (Nat.mod_lt _ sh.blockSize_pos)
      (Nat.mod_lt _ sh.blockSize_pos) hd' hd hcell
    obtain ⟨hid, hpos'⟩ := htable.entry_of_cell hin hb he' hb'' hoff
    rw [index_eq h he' he hid hpos']
  · have hnot : ∀ e ∈ batch.entries, ¬ (e.seqId = s ∧ e.position = pos) :=
      fun e he hkey => hentry ⟨e, he, hkey⟩
    obtain ⟨b, hb, hcells⟩ := hpos.resolve_left hentry
    refine ⟨b, hb, fun headIdx hhead d hd => ?_⟩
    rw [remember_of_notMem hnot, ← hcells headIdx hhead d hd]
    refine copyAll_of_notMem ?_
    intro hdst
    obtain ⟨op, hop, hcell⟩ := List.mem_map.1 hdst
    obtain ⟨j, e, b', he, hb', headIdx', hhead', d', hd', rfl⟩ :=
      (mem_cacheWrites h hsize).1 (hops.mem_iff.1 hop)
    obtain ⟨rfl, rfl, hoff, rfl⟩ := cell_inj hhead' hhead (Nat.mod_lt _ sh.blockSize_pos)
      (Nat.mod_lt _ sh.blockSize_pos) hd' hd hcell
    exact hnot e (List.mem_of_getElem? he) (htable.entry_of_cell hin hb he hb' hoff)

end Launch

/-- No implementation reads beyond the entry's own position. -/
theorem AttentionPath.le_of_mem_reads {K : Type} {sh : Shape} {batch : DecodeBatch}
    {inputs : LaunchInputs K} (path : AttentionPath) {j head pos d : Nat} {e : BatchEntry}
    (he : batch.entries[j]? = some e) {x : Int}
    (hx : (pos, d, x) ∈ path.reads sh batch inputs j head) : pos ≤ e.position ∧ d < sh.headDim := by
  cases path with
  | cpu =>
      simp only [AttentionPath.reads, he, Option.map_some, Option.getD_some, mem_cpuReads] at hx
      exact ⟨hx.1, hx.2.1⟩
  | pagedV1 =>
      rw [AttentionPath.reads, mem_v1Reads, contextLens_launchParams he, Nat.lt_succ_iff] at hx
      exact ⟨hx.1, hx.2.1⟩
  | pagedV2 =>
      rw [AttentionPath.reads, mem_v2Reads, contextLens_launchParams he, Nat.lt_succ_iff] at hx
      exact ⟨hx.1, hx.2.1⟩

/-! ## Attention over vectors -/

section Dense

variable {K : Type} [Field K] [LinearOrder K] (e : Exponential K)

/-- The scaled dot product of two vectors. -/
def denseScore (headDim : Nat) (scale : K) (query key : Nat → K) : K :=
  ((List.range headDim).map (fun d => query d * key d)).sum * scale

/-- Attention of a query over `n` keys and values, without a cache: the average of the values with the
    exponentials of the scores as weights. -/
def denseAttention (headDim : Nat) (scale : K) (query : Nat → K) (keys values : Nat → Nat → K)
    (n d : Nat) : K :=
  ((List.range n).map (fun t => e (denseScore headDim scale query (keys t)) * values t d)).sum
    / ((List.range n).map (fun t => e (denseScore headDim scale query (keys t)))).sum

variable {sh : Shape} {batch : DecodeBatch} {inputs : LaunchInputs K}
  {keys values : Vectors K}

/-- **V1 over stored vectors.** If the table of an entry leads to the recorded vectors up to its position,
    the kernel computes attention over these vectors. -/
theorem pagedAttentionV1_stored (hkv : 1 ≤ inputs.nKvHeads) (hdvd : inputs.nKvHeads ∣ inputs.nHeads)
    {j : Nat} {entry : BatchEntry} (he : batch.entries[j]? = some entry)
    (hkeys : ∀ pos ≤ entry.position,
      Stored sh inputs.nKvHeads inputs.keyCache keys entry.blockTable entry.seqId pos)
    (hvalues : ∀ pos ≤ entry.position,
      Stored sh inputs.nKvHeads inputs.valueCache values entry.blockTable entry.seqId pos)
    {head d : Nat} (hhead : head < inputs.nHeads) (hd : d < sh.headDim) :
    pagedAttentionV1 e sh (launchParams sh.blockSize batch inputs) j head d
      = denseAttention e sh.headDim inputs.scale
          (fun d => inputs.query ((j * inputs.nHeads + head) * sh.headDim + d))
          (fun t => keys entry.seqId t (kvHead inputs.nHeads inputs.nKvHeads head))
          (fun t => values entry.seqId t (kvHead inputs.nHeads inputs.nKvHeads head))
          (entry.position + 1) d := by
  have hctx : (launchParams sh.blockSize batch inputs).contextLens j = entry.position + 1 :=
    contextLens_launchParams he
  have hlt := kvHead_lt hkv hdvd hhead
  have hoffset : ∀ {pos : Nat} {b : BlockId}, entry.blockTable[pos / sh.blockSize]? = some b →
      tokenOffset sh (launchParams sh.blockSize batch inputs) j head (pos / sh.blockSize)
          (pos % sh.blockSize)
        = kvOffset inputs.nKvHeads sh.blockSize sh.headDim b
            (kvHead inputs.nHeads inputs.nKvHeads head) (pos % sh.blockSize) := by
    intro pos b hb
    rw [tokenOffset, physBlock_launchParams he hb]
    rfl
  have hscore : ∀ pos ≤ entry.position, score sh (launchParams sh.blockSize batch inputs) j head pos
      = denseScore sh.headDim inputs.scale
          (fun d => inputs.query ((j * inputs.nHeads + head) * sh.headDim + d))
          (keys entry.seqId pos (kvHead inputs.nHeads inputs.nKvHeads head)) := by
    intro pos hpos
    obtain ⟨b, hb, hcells⟩ := hkeys pos hpos
    rw [score, denseScore, hoffset hb]
    refine congrArg (fun l => List.sum l * inputs.scale) (List.map_congr_left (fun d hd => ?_))
    exact congrArg (_ * ·) (hcells _ hlt d (List.mem_range.1 hd))
  have hvalue : ∀ pos ≤ entry.position, value sh (launchParams sh.blockSize batch inputs) j head pos d
      = values entry.seqId pos (kvHead inputs.nHeads inputs.nKvHeads head) d := by
    intro pos hpos
    obtain ⟨b, hb, hcells⟩ := hvalues pos hpos
    rw [value, hoffset hb]
    exact hcells _ hlt d hd
  have hrange : ∀ {pos : Nat}, pos ∈ List.range (entry.position + 1) → pos ≤ entry.position :=
    fun hpos => Nat.lt_succ_iff.1 (List.mem_range.1 hpos)
  rw [pagedAttentionV1_eq (by rw [hctx]; omega), denseAttention, hctx]
  congr 2
  · refine List.map_congr_left (fun pos hpos => ?_)
    rw [hscore pos (hrange hpos), hvalue pos (hrange hpos)]
  · refine List.map_congr_left (fun pos hpos => ?_)
    rw [hscore pos (hrange hpos)]

end Dense

end CacheFlow.PagedAttention
