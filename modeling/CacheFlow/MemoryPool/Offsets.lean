import CacheFlow.Lib.MachineInt
import CacheFlow.MemoryPool

set_option autoImplicit false

/-! # Offsets computed in `int`

Four places compute where a block or a cell of the cache starts in 32 bits: `execute_attention_cpu`,
`compact_kv_cache_kernel`, `reshape_and_cache_kernel` and `memset_blocks_kernel`; `copy_blocks_kernel` and
`swap_blocks_kernel` do it in 64. Each is an expression here, and `OffsetsFit` says that no operand and no
result of any of them reaches `2 ^ 31`, for any block the manager can hand out.

The first three address the cells of a region, the last one the bytes `block_bytes()` gives to a block,
which count both regions and all layers: it is the one that overflows first, with the default
configuration at block 512 of 8192. -/

namespace CacheFlow

open MachineInt

section Expressions

variable (m : ModelConfig) (c : CacheConfig)

/-- The K offset of `execute_attention_cpu`. -/
def attentionOffset (phys kvH off : Nat) : Expr :=
  .mul (.add (.mul (.add (.mul (.val phys) (.val m.nKvHeads)) (.val kvH)) (.val c.blockSize))
    (.val off)) (.val m.headDim)

def elemsPerBlock : Expr :=
  .mul (.mul (.val m.nKvHeads) (.val c.blockSize)) (.val m.headDim)

/-- `src_off` and `dst_off` of `compact_kv_cache_kernel`. -/
def compactOffset (block i : Nat) : Expr :=
  .add (.mul (.val block) (elemsPerBlock m c)) (.val i)

/-- `dst_off` of `reshape_and_cache_kernel`. -/
def reshapeOffset (slot headIdx d : Nat) : Expr :=
  let blockIdx : Expr := .div (.val slot) (.val c.blockSize)
  let blockOff : Expr := .mod (.val slot) (.val c.blockSize)
  .add (.mul (.add (.mul (.add (.mul blockIdx (.val m.nKvHeads)) (.val headIdx)) (.val c.blockSize))
    blockOff) (.val m.headDim)) (.val d)

/-- `base` of `memset_blocks_kernel`, launched with `block_bytes()`; `sizeof(float)` is 4. -/
def memsetBase (bid : Nat) : Expr :=
  .mul (.val bid) (.div (.val m.blockBytes) (.val 4))

/-- The computation in `int` is the one of the decode engine. -/
theorem attentionOffset_run (hm : m.Positive) (phys kvH off : Nat) (hkv : kvH < m.nKvHeads) :
    (attentionOffset m c phys kvH off).run toInt = cellOffset m c phys kvH off := by
  have hcast : ∀ {n : Nat}, n < 2 ^ 31 → toInt n = n := fun hn =>
    toInt_of_lt (by omega) (by exact_mod_cast hn)
  obtain ⟨-, hnkv⟩ := hm.nKvHeads
  simp only [attentionOffset, Expr.run, cellOffset, hcast hnkv, hcast hm.headDim.2,
    hcast (Nat.lt_trans hkv hnkv)]

/-- A block id is an `int32_t`. -/
structure HandedOut (b : Nat) : Prop where
  lt : b < c.numGpuBlocks
  int : b < 2 ^ 31

/-- No operand and no result of the four expressions reaches `2 ^ 31`. -/
structure OffsetsFit : Prop where
  attention : ∀ phys kvH off, HandedOut c phys → kvH < m.nKvHeads → off < c.blockSize →
    (attentionOffset m c phys kvH off).All (· < 2 ^ 31)
  compact : ∀ block i, HandedOut c block → i < (elemsPerBlock m c).value →
    (compactOffset m c block i).All (· < 2 ^ 31)
  reshape : ∀ phys off headIdx d, HandedOut c phys → off < c.blockSize → headIdx < m.nKvHeads →
    d < m.headDim → (reshapeOffset m c (phys * c.blockSize + off) headIdx d).All (· < 2 ^ 31)
  memset : ∀ bid, HandedOut c bid → (memsetBase m bid).All (· < 2 ^ 31)

/-- The condition: a block and the cells of a region can be counted in `int`, and so can the bytes of a
    block and the floats that `memset_blocks` skips for the last block. -/
structure OffsetsSized : Prop where
  elems : m.nKvHeads * c.blockSize * m.headDim < 2 ^ 31
  cells : c.numGpuBlocks * (m.nKvHeads * c.blockSize * m.headDim) ≤ 2 ^ 31
  bytes : m.blockBytes < 2 ^ 31
  bases : (c.numGpuBlocks - 1) * (m.blockBytes / 4) < 2 ^ 31

instance : Decidable (OffsetsSized m c) :=
  decidable_of_iff (m.nKvHeads * c.blockSize * m.headDim < 2 ^ 31 ∧
      c.numGpuBlocks * (m.nKvHeads * c.blockSize * m.headDim) ≤ 2 ^ 31 ∧ m.blockBytes < 2 ^ 31 ∧
      (c.numGpuBlocks - 1) * (m.blockBytes / 4) < 2 ^ 31)
    ⟨fun h => ⟨h.1, h.2.1, h.2.2.1, h.2.2.2⟩, fun h => ⟨h.elems, h.cells, h.bytes, h.bases⟩⟩

end Expressions

section Fit

variable {m : ModelConfig} {c : CacheConfig}

/-- The slot of an offset in a block leads back to both. -/
theorem slot_div_mod (phys : Nat) {off bs : Nat} (hoff : off < bs) :
    (phys * bs + off) / bs = phys ∧ (phys * bs + off) % bs = off := by
  have hbs : 0 < bs := Nat.zero_lt_of_lt hoff
  rw [Nat.add_comm, Nat.add_mul_div_right _ _ hbs, Nat.div_eq_of_lt hoff, Nat.zero_add,
    Nat.add_mul_mod_self_right, Nat.mod_eq_of_lt hoff]
  exact ⟨rfl, rfl⟩

/-- The operands and results that `attentionOffset` has before its last operation. -/
theorem OffsetsSized.row (h : OffsetsSized m c) (hm : m.Positive) {phys kvH off : Nat}
    (hphys : HandedOut c phys) (hkv : kvH < m.nKvHeads) (hoff : off < c.blockSize) :
    phys * m.nKvHeads + kvH < 2 ^ 31 ∧ c.blockSize < 2 ^ 31 ∧
      (phys * m.nKvHeads + kvH) * c.blockSize + off < 2 ^ 31 ∧
      ((phys * m.nKvHeads + kvH) * c.blockSize + off) * m.headDim + m.headDim ≤ 2 ^ 31 := by
  have hhd := hm.headDim.1
  have hbs : 0 < c.blockSize := Nat.zero_lt_of_lt hoff
  have hrow : (phys * m.nKvHeads + kvH) * c.blockSize + off < c.numGpuBlocks * m.nKvHeads * c.blockSize :=
    row_lt (row_lt hphys.lt hkv) hoff
  have hcells : c.numGpuBlocks * m.nKvHeads * c.blockSize * m.headDim ≤ 2 ^ 31 :=
    Nat.le_trans (Nat.le_of_eq (by ring)) h.cells
  have hlast : ((phys * m.nKvHeads + kvH) * c.blockSize + off) * m.headDim + m.headDim ≤ 2 ^ 31 :=
    calc ((phys * m.nKvHeads + kvH) * c.blockSize + off) * m.headDim + m.headDim
        = ((phys * m.nKvHeads + kvH) * c.blockSize + off + 1) * m.headDim := (Nat.succ_mul ..).symm
      _ ≤ c.numGpuBlocks * m.nKvHeads * c.blockSize * m.headDim := Nat.mul_le_mul_right _ hrow
      _ ≤ 2 ^ 31 := hcells
  have hrow' : (phys * m.nKvHeads + kvH) * c.blockSize + off
      ≤ ((phys * m.nKvHeads + kvH) * c.blockSize + off) * m.headDim := Nat.le_mul_of_pos_right _ hhd
  have hhead : phys * m.nKvHeads + kvH ≤ (phys * m.nKvHeads + kvH) * c.blockSize :=
    Nat.le_mul_of_pos_right _ hbs
  have hblock : c.blockSize ≤ m.nKvHeads * c.blockSize * m.headDim :=
    Nat.le_trans (Nat.le_mul_of_pos_left _ hm.nKvHeads.1) (Nat.le_mul_of_pos_right _ hhd)
  have helems := h.elems
  refine ⟨?_, ?_, ?_, hlast⟩
  · omega
  · omega
  · omega

/-- The condition is enough. -/
theorem OffsetsSized.offsetsFit (h : OffsetsSized m c) (hm : m.Positive) : OffsetsFit m c := by
  obtain ⟨hkv1, hkv2⟩ := hm.nKvHeads
  obtain ⟨hhd1, hhd2⟩ := hm.headDim
  refine ⟨?_, ?_, ?_, ?_⟩
  · intro phys kvH off hphys hkv hoff
    obtain ⟨hhead, hbs, hrow, hlast⟩ := h.row hm hphys hkv hoff
    have hint := hphys.int
    simp only [attentionOffset, Expr.All, Expr.value]
    omega
  · intro block i hblock hi
    have helems := h.elems
    have hvalue : (elemsPerBlock m c).value = m.nKvHeads * c.blockSize * m.headDim := rfl
    have hparts : m.nKvHeads * c.blockSize ≤ m.nKvHeads * c.blockSize * m.headDim :=
      Nat.le_mul_of_pos_right _ hhd1
    have hbs : c.blockSize ≤ m.nKvHeads * c.blockSize := Nat.le_mul_of_pos_left _ hkv1
    have hlast : block * (m.nKvHeads * c.blockSize * m.headDim) + i < 2 ^ 31 :=
      Nat.lt_of_lt_of_le (row_lt hblock.lt (hvalue ▸ hi)) h.cells
    have hint := hblock.int
    simp only [compactOffset, elemsPerBlock, Expr.All, Expr.value]
    omega
  · intro phys off headIdx d hphys hoff hkv hd
    obtain ⟨hhead, hbs, hrow, hlast⟩ := h.row hm hphys hkv hoff
    have hint := hphys.int
    obtain ⟨hdiv, hmod⟩ := slot_div_mod phys hoff
    have hslot : phys * c.blockSize + off < 2 ^ 31 := by
      have hle : phys * c.blockSize ≤ (phys * m.nKvHeads + headIdx) * c.blockSize :=
        Nat.mul_le_mul_right _ (Nat.le_trans (Nat.le_mul_of_pos_right _ hkv1) (Nat.le_add_right ..))
      omega
    simp only [reshapeOffset, Expr.All, Expr.value, hdiv, hmod]
    omega
  · intro bid hbid
    have hbytes := h.bytes
    have hbase : bid * (m.blockBytes / 4) ≤ (c.numGpuBlocks - 1) * (m.blockBytes / 4) :=
      Nat.mul_le_mul_right _ (Nat.le_sub_one_of_lt hbid.lt)
    have hlast := h.bases
    have hint := hbid.int
    simp only [memsetBase, Expr.All, Expr.value]
    omega

/-- `block_bytes()` for one head of one dimension. -/
theorem blockBytes_one (hm : m.Positive) (hkv : m.nKvHeads = 1) (hhd : m.headDim = 1) :
    m.blockBytes = 128 * m.nLayers := by
  have helem : m.kvCacheElemSize = 1 := by
    rw [ModelConfig.kvCacheElemSize, hkv, hhd]
    rfl
  have hlayers := hm.nLayers.2
  have hsize : m.blockBytes = toSize (2 * m.nLayers * m.kvCacheElemSize * 16 * 4 : Nat) := rfl
  rw [hsize, helem, toSize_of_lt (by omega)]
  omega

/-- The condition is necessary. A manager with more blocks than `int` has ids hands out all of them; then
    a block has one cell, and `memset_blocks` skips 32 floats or more for each of them. -/
theorem OffsetsFit.sized (h : OffsetsFit m c) (hm : m.Positive) (hn : 1 ≤ c.numGpuBlocks)
    (hbs : 1 ≤ c.blockSize) : OffsetsSized m c := by
  have hpos : 1 ≤ m.nKvHeads * c.blockSize * m.headDim :=
    Nat.mul_pos (Nat.mul_pos hm.nKvHeads.1 hbs) hm.headDim.1
  have hfirst : HandedOut c 0 := ⟨hn, by decide⟩
  have helems : m.nKvHeads * c.blockSize * m.headDim < 2 ^ 31 :=
    (h.compact 0 0 hfirst hpos).1.2.1.value
  have hbytes : m.blockBytes < 2 ^ 31 := (h.memset 0 hfirst).2.1.1
  -- the last block there is an id for
  have hlast : ∀ b, HandedOut c b → (b + 1) * (m.nKvHeads * c.blockSize * m.headDim) ≤ 2 ^ 31 ∧
      b * (m.blockBytes / 4) < 2 ^ 31 := by
    intro b hb
    have hcell : b * (m.nKvHeads * c.blockSize * m.headDim)
        + (m.nKvHeads * c.blockSize * m.headDim - 1) < 2 ^ 31 :=
      (h.compact b _ hb (Nat.sub_one_lt_of_lt hpos)).value
    refine ⟨?_, (h.memset b hb).value⟩
    rw [Nat.succ_mul]
    omega
  by_cases hmany : c.numGpuBlocks ≤ 2 ^ 31
  · obtain ⟨hcells, hbases⟩ := hlast (c.numGpuBlocks - 1) ⟨by omega, by omega⟩
    rw [Nat.sub_add_cancel hn] at hcells
    exact ⟨helems, hcells, hbytes, hbases⟩
  · obtain ⟨hcells, hbases⟩ := hlast (2 ^ 31 - 1) ⟨by omega, by decide⟩
    have hone : m.nKvHeads * c.blockSize * m.headDim = 1 := by omega
    have hhd : m.headDim = 1 := Nat.eq_one_of_mul_eq_one_left hone
    have hkv : m.nKvHeads = 1 :=
      Nat.eq_one_of_mul_eq_one_right (Nat.eq_one_of_mul_eq_one_right hone)
    have hlayers := hm.nLayers.1
    rw [blockBytes_one hm hkv hhd] at hbases
    omega

/-- The decode engine then computes the offset over unbounded integers. -/
theorem OffsetsFit.cellOffset_eq (h : OffsetsFit m c) (hm : m.Positive) {phys kvH off : Nat}
    (hphys : HandedOut c phys) (hkv : kvH < m.nKvHeads) (hoff : off < c.blockSize) :
    cellOffset m c phys kvH off = (rowOf m c phys kvH off * m.headDim : Nat) := by
  have hall := h.attention phys kvH off hphys hkv hoff
  rw [← attentionOffset_run m c hm phys kvH off hkv]
  refine Expr.run_eq_value (hall.imp (fun n hn => ?_))
  exact toInt_of_lt (by omega) (by exact_mod_cast hn)

end Fit

/-- **When no offset overflows.** For all positive sizes, the operands and results of the four computations
    stay below `2 ^ 31` for every block that can be handed out exactly if the sizes are `OffsetsSized`. -/
theorem offsetsFit_iff (m : ModelConfig) (c : CacheConfig) (hm : m.Positive)
    (hn : 1 ≤ c.numGpuBlocks) (hbs : 1 ≤ c.blockSize) : OffsetsFit m c ↔ OffsetsSized m c :=
  ⟨fun h => h.sized hm hn hbs, fun h => h.offsetsFit hm⟩

/-- The default model with 512 blocks. -/
theorem offsetsFit_512 : OffsetsFit {} { numGpuBlocks := 512 } :=
  (offsetsFit_iff {} { numGpuBlocks := 512 } ⟨by decide, by decide, by decide⟩ (by decide)
    (by decide)).2 (by decide)

/-- With the default number of blocks, `memset_blocks` overflows at block 512. -/
theorem not_offsetsFit_default : ¬ OffsetsFit {} {} := by
  intro h
  have hbase : (memsetBase {} 512).value < 2 ^ 31 := (h.memset 512 ⟨by decide, by decide⟩).value
  exact absurd hbase (by decide)

end CacheFlow
