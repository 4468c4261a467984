import CacheFlow.PagedAttention

set_option autoImplicit false

/-! # The memory pool and the regions of the cache

The drivers build the pools with `block_bytes()` bytes for each block, which counts the layers of the
model and the compile-time block size of 16 tokens. The decode engine puts the keys of all blocks at the
start of the GPU pool and the values behind them, without layers, for blocks of the size the cache is
configured with.

Sizes are computed in `size_t`, modulo `2 ^ 64`, offsets of cells in `int`. `RegionsFit` says that all
cells of both regions lie in the pool, `regionsFit_iff` for which configurations they do. -/

namespace CacheFlow

open PagedAttention

/-- The value as a `size_t`. -/
def toSize (n : Int) : Nat := (n % 2 ^ 64).toNat

/-- `KV_BLOCK_SIZE`. -/
abbrev kvBlockSize : Nat := 16

/-- The sizes are positive values of `int32_t`. -/
structure ModelConfig.Positive (m : ModelConfig) : Prop where
  nLayers : 1 ≤ m.nLayers ∧ m.nLayers < 2 ^ 31
  nKvHeads : 1 ≤ m.nKvHeads ∧ m.nKvHeads < 2 ^ 31
  headDim : 1 ≤ m.headDim ∧ m.headDim < 2 ^ 31

def ModelConfig.kvCacheElemSize (m : ModelConfig) : Nat := toSize (m.headDim * m.nKvHeads)

/-- `sizeof(float)` is 4. -/
def ModelConfig.blockBytes (m : ModelConfig) : Nat :=
  toSize (2 * m.nLayers * m.kvCacheElemSize * kvBlockSize * 4)

/-! ## Pools -/

structure MemoryPool where
  blockSizeBytes : Nat
  numBlocks : Nat
  deriving DecidableEq, Repr

/-- The size of the region the constructor allocates. -/
def MemoryPool.totalBytes (pool : MemoryPool) : Nat := toSize (pool.blockSizeBytes * pool.numBlocks)

structure PoolManager where
  gpuPool : MemoryPool
  cpuPool : MemoryPool
  deriving DecidableEq, Repr

def PoolManager.new (blockSizeBytes numGpuBlocks numCpuBlocks : Nat) : PoolManager where
  gpuPool := { blockSizeBytes := blockSizeBytes, numBlocks := numGpuBlocks }
  cpuPool := { blockSizeBytes := blockSizeBytes, numBlocks := numCpuBlocks }

/-- The pools as the drivers build them. -/
def driverPools (m : ModelConfig) (c : CacheConfig) : PoolManager :=
  PoolManager.new m.blockBytes c.numGpuBlocks c.numCpuBlocks

/-! ## Cells of the decode engine -/

section Engine

variable (m : ModelConfig) (c : CacheConfig)

/-- The distance of `value_cache_ptr` from `key_cache_ptr`, in floats. -/
def valueCacheOffset (pool : MemoryPool) : Nat :=
  toSize (pool.numBlocks * m.nKvHeads * toInt c.blockSize * m.headDim)

/-- Where a token starts in its region, in floats, every operation in `int`. -/
def cellOffset (phys kvH off : Nat) : Int :=
  let blockSize := toInt c.blockSize
  let row := toInt (toInt (toInt phys * m.nKvHeads) + kvH)
  toInt (toInt (toInt (row * blockSize) + toInt off) * m.headDim)

/-- The K cell of the dimension `d`, in floats from the start of the pool. -/
def keyCell (phys kvH off d : Nat) : Int := cellOffset m c phys kvH off + d

def valueCell (pool : MemoryPool) (phys kvH off d : Nat) : Int :=
  valueCacheOffset m c pool + cellOffset m c phys kvH off + d

/-- The float at `x` lies in the pool. -/
def MemoryPool.Holds (pool : MemoryPool) (x : Int) : Prop := 0 ≤ 4 * x ∧ 4 * x + 4 ≤ pool.totalBytes

/-- The coordinates of a cell. -/
structure IsCell (phys kvH off d : Nat) : Prop where
  phys : phys < c.numGpuBlocks
  kvH : kvH < m.nKvHeads
  off : off < c.blockSize
  d : d < m.headDim

/-- All cells of both regions lie in the GPU pool, and no K cell is a V cell. -/
structure RegionsFit : Prop where
  key : ∀ phys kvH off d, IsCell m c phys kvH off d →
    (driverPools m c).gpuPool.Holds (keyCell m c phys kvH off d)
  value : ∀ phys kvH off d, IsCell m c phys kvH off d →
    (driverPools m c).gpuPool.Holds (valueCell m c (driverPools m c).gpuPool phys kvH off d)
  apart : ∀ phys kvH off d phys' kvH' off' d', IsCell m c phys kvH off d →
    IsCell m c phys' kvH' off' d' →
    keyCell m c phys kvH off d ≠ valueCell m c (driverPools m c).gpuPool phys' kvH' off' d'

end Engine

/-! ## Machine arithmetic -/

theorem toSize_of_lt {n : Nat} (h : n < 2 ^ 64) : toSize n = n := by
  rw [toSize, Int.emod_eq_of_lt (by omega) (by exact_mod_cast h), Int.toNat_natCast]

theorem toSize_natCast (n : Nat) : toSize n = n % 2 ^ 64 := by
  rw [toSize]
  omega

/-- An `int` between `2 ^ 31` and `2 ^ 32` has become negative. -/
theorem toInt_neg {n : Int} (hlow : 2 ^ 31 ≤ n) (hhigh : n < 2 ^ 32) : toInt n < 0 := by
  rw [toInt, Int.bmod_eq_emod, Int.emod_eq_of_lt (by omega) (by omega), if_pos (by omega)]
  omega

section Sizes

variable (m : ModelConfig) (c : CacheConfig)

/-- The tokens of all blocks, once for every KV head. -/
def cacheRows : Nat := c.numGpuBlocks * m.nKvHeads * c.blockSize

/-- Where a token starts in its region, over unbounded integers; in units of `headDim`. -/
def rowOf (phys kvH off : Nat) : Nat := (phys * m.nKvHeads + kvH) * c.blockSize + off

/-- Casts on the way do not change the result of a computation in `int`. -/
theorem cellOffset_eq (phys kvH off : Nat) :
    cellOffset m c phys kvH off = toInt (rowOf m c phys kvH off * m.headDim : Nat) := by
  simp only [cellOffset, toInt, rowOf]
  push_cast
  simp only [Int.bmod_mul_bmod, Int.bmod_add_bmod, Int.mul_bmod_bmod, Int.add_bmod_bmod]

/-- The offset the attention kernels compute, taken to an `int`. -/
theorem cellOffset_eq_kvOffset (phys kvH off : Nat) :
    cellOffset m c phys kvH off = toInt (kvOffset m.nKvHeads c.blockSize m.headDim phys kvH off) := by
  rw [cellOffset_eq, rowOf, kvOffset]
  push_cast
  rfl

/-- The size of the pool over unbounded integers. -/
def poolBytes : Nat := 128 * m.nLayers * m.headDim * m.nKvHeads * c.numGpuBlocks

theorem totalBytes_eq : (driverPools m c).gpuPool.totalBytes = poolBytes m c % 2 ^ 64 := by
  have helem : m.kvCacheElemSize = m.headDim * m.nKvHeads % 2 ^ 64 :=
    toSize_natCast (m.headDim * m.nKvHeads)
  have hblock : m.blockBytes = 2 * m.nLayers * m.kvCacheElemSize * kvBlockSize * 4 % 2 ^ 64 :=
    toSize_natCast (2 * m.nLayers * m.kvCacheElemSize * kvBlockSize * 4)
  have htotal : (driverPools m c).gpuPool.totalBytes = m.blockBytes * c.numGpuBlocks % 2 ^ 64 :=
    toSize_natCast (m.blockBytes * c.numGpuBlocks)
  have hsize : 2 * m.nLayers * (m.headDim * m.nKvHeads) * kvBlockSize * 4 * c.numGpuBlocks
      = poolBytes m c := by
    rw [poolBytes, kvBlockSize]
    ring
  rw [htotal, hblock, helem, Nat.mod_mul_mod, ← hsize]
  simp only [Nat.mul_mod, Nat.mod_mod]

end Sizes

/-! ## When the regions fit -/

section Fit

variable {m : ModelConfig} {c : CacheConfig}

theorem row_lt {a n b k : Nat} (ha : a < n) (hb : b < k) : a * k + b < n * k :=
  calc a * k + b < a * k + k := Nat.add_lt_add_left hb _
    _ = (a + 1) * k := (Nat.succ_mul a k).symm
    _ ≤ n * k := Nat.mul_le_mul_right k ha

theorem IsCell.rowOf_lt {phys kvH off d : Nat} (h : IsCell m c phys kvH off d) :
    rowOf m c phys kvH off < cacheRows m c :=
  row_lt (row_lt h.phys h.kvH) h.off

/-- Every row is the row of a token. -/
theorem exists_isCell (hm : m.Positive) {r : Nat} (hr : r < cacheRows m c) :
    ∃ phys kvH off, IsCell m c phys kvH off 0 ∧ rowOf m c phys kvH off = r := by
  have hbs : 1 ≤ c.blockSize := Nat.pos_of_ne_zero (by
    intro hzero
    rw [cacheRows, hzero, Nat.mul_zero] at hr
    omega)
  have hhead : r / c.blockSize < c.numGpuBlocks * m.nKvHeads := Nat.div_lt_of_lt_mul (by
    rwa [Nat.mul_comm])
  refine ⟨r / c.blockSize / m.nKvHeads, r / c.blockSize % m.nKvHeads, r % c.blockSize, ⟨?_, ?_, ?_, ?_⟩, ?_⟩
  · exact Nat.div_lt_of_lt_mul (by rwa [Nat.mul_comm])
  · exact Nat.mod_lt _ hm.nKvHeads.1
  · exact Nat.mod_lt _ hbs
  · exact hm.headDim.1
  · rw [rowOf, Nat.div_add_mod', Nat.div_add_mod']

/-- The condition: the block size and the last row are values of `int`, and two regions fit in the size of
    the pool. -/
structure Sized (m : ModelConfig) (c : CacheConfig) : Prop where
  blockSize : c.blockSize < 2 ^ 31
  lastRow : (cacheRows m c - 1) * m.headDim < 2 ^ 31
  regions : 8 * (cacheRows m c * m.headDim) ≤ poolBytes m c % 2 ^ 64

/-- The number of cells of a region. -/
theorem cacheRows_lt (hm : m.Positive) (hlast : (cacheRows m c - 1) * m.headDim < 2 ^ 31) :
    cacheRows m c * m.headDim < 2 ^ 32 := by
  have hhd := hm.headDim.2
  rw [Nat.sub_one_mul] at hlast
  omega

theorem valueCacheOffset_eq (hm : m.Positive) (hbs : c.blockSize < 2 ^ 31)
    (hlast : (cacheRows m c - 1) * m.headDim < 2 ^ 31) :
    valueCacheOffset m c (driverPools m c).gpuPool = cacheRows m c * m.headDim := by
  have hlt := cacheRows_lt hm hlast
  rw [valueCacheOffset, toInt_of_lt (by omega) (by exact_mod_cast hbs)]
  exact toSize_of_lt (n := cacheRows m c * m.headDim) (by omega)

/-- Inside the range of `int` a cell is where it should be. -/
theorem cellOffset_of_le (hlast : (cacheRows m c - 1) * m.headDim < 2 ^ 31) {phys kvH off : Nat}
    (hrow : rowOf m c phys kvH off < cacheRows m c) :
    cellOffset m c phys kvH off = (rowOf m c phys kvH off * m.headDim : Nat) := by
  have hle : rowOf m c phys kvH off * m.headDim ≤ (cacheRows m c - 1) * m.headDim :=
    Nat.mul_le_mul_right _ (by omega)
  rw [cellOffset_eq]
  exact toInt_of_lt (by omega) (by omega)

theorem Sized.keyCell_range (h : Sized m c) {phys kvH off d : Nat} (hcell : IsCell m c phys kvH off d) :
    0 ≤ keyCell m c phys kvH off d ∧
      keyCell m c phys kvH off d < (cacheRows m c * m.headDim : Nat) := by
  have hlt := row_lt hcell.rowOf_lt hcell.d
  rw [keyCell, cellOffset_of_le h.lastRow hcell.rowOf_lt]
  omega

theorem Sized.valueCell_eq (h : Sized m c) (hm : m.Positive) (phys kvH off d : Nat) :
    valueCell m c (driverPools m c).gpuPool phys kvH off d
      = (cacheRows m c * m.headDim : Nat) + keyCell m c phys kvH off d := by
  rw [valueCell, valueCacheOffset_eq hm h.blockSize h.lastRow, keyCell, Int.add_assoc]

/-- The condition is enough. -/
theorem Sized.regionsFit (h : Sized m c) (hm : m.Positive) : RegionsFit m c := by
  have hpool : (8 * (cacheRows m c * m.headDim) : Nat)
      ≤ ((driverPools m c).gpuPool.totalBytes : Int) := by
    rw [totalBytes_eq]
    exact_mod_cast h.regions
  refine ⟨?_, ?_, ?_⟩
  · intro phys kvH off d hcell
    obtain ⟨hlow, hhigh⟩ := h.keyCell_range hcell
    constructor
    · omega
    · omega
  · intro phys kvH off d hcell
    obtain ⟨hlow, hhigh⟩ := h.keyCell_range hcell
    rw [h.valueCell_eq hm]
    constructor
    · omega
    · omega
  · intro phys kvH off d phys' kvH' off' d' hcell hcell'
    obtain ⟨-, hhigh⟩ := h.keyCell_range hcell
    obtain ⟨hlow', -⟩ := h.keyCell_range hcell'
    rw [h.valueCell_eq hm]
    omega

/-- If a row starts beyond the range of `int`, some K cell lies before the pool. -/
theorem RegionsFit.lastRow (h : RegionsFit m c) (hm : m.Positive) :
    (cacheRows m c - 1) * m.headDim < 2 ^ 31 := by
  obtain ⟨hhd, hhd'⟩ := hm.headDim
  by_contra hover
  -- the first row that starts at `2 ^ 31` or later starts before `2 ^ 32`
  obtain ⟨r, hr, hlow, hhigh⟩ : ∃ r < cacheRows m c, 2 ^ 31 ≤ r * m.headDim ∧ r * m.headDim < 2 ^ 32 := by
    have hdiv := Nat.div_add_mod' (2 ^ 31 - 1) m.headDim
    have hmod := Nat.mod_lt (2 ^ 31 - 1) hhd
    generalize (2 ^ 31 - 1) / m.headDim = q at hdiv
    refine ⟨q + 1, ?_, ?_, ?_⟩
    · by_contra hle
      have hmul : (cacheRows m c - 1) * m.headDim ≤ q * m.headDim :=
        Nat.mul_le_mul_right _ (by omega)
      omega
    · rw [Nat.succ_mul]
      omega
    · rw [Nat.succ_mul]
      omega
  obtain ⟨phys, kvH, off, hcell, rfl⟩ := exists_isCell hm hr
  have hneg : cellOffset m c phys kvH off < 0 := by
    rw [cellOffset_eq]
    exact toInt_neg (by omega) (by omega)
  obtain ⟨hnonneg, -⟩ := h.key phys kvH off 0 hcell
  rw [keyCell] at hnonneg
  omega

/-- The pool has fewer than `2 ^ 64` bytes. -/
theorem RegionsFit.blockSize (h : RegionsFit m c) (hm : m.Positive) (hn : 1 ≤ c.numGpuBlocks) :
    c.blockSize < 2 ^ 31 := by
  have hlast := h.lastRow hm
  obtain ⟨hkv, -⟩ := hm.nKvHeads
  obtain ⟨hhd, -⟩ := hm.headDim
  by_contra hover
  -- only one block of one head with one dimension is left, and its size is cast to a negative value
  have hblocks : 1 ≤ c.numGpuBlocks * m.nKvHeads := Nat.mul_pos hn hkv
  have hrows : c.blockSize ≤ cacheRows m c := Nat.le_mul_of_pos_left _ hblocks
  have hdim : cacheRows m c - 1 ≤ (cacheRows m c - 1) * m.headDim := Nat.le_mul_of_pos_right _ hhd
  have hbs : c.blockSize = 2 ^ 31 := by omega
  have hone : c.numGpuBlocks * m.nKvHeads = 1 := by
    by_contra hmany
    have htwo : 2 * c.blockSize ≤ cacheRows m c := Nat.mul_le_mul_right _ (by omega)
    omega
  have hdimOne : m.headDim = 1 := by
    by_contra hmany
    have htwo : (cacheRows m c - 1) * 2 ≤ (cacheRows m c - 1) * m.headDim :=
      Nat.mul_le_mul_left _ (by omega)
    omega
  have hvalue : (valueCacheOffset m c (driverPools m c).gpuPool : Int) = 2 ^ 64 - 2 ^ 31 := by
    have hsize : ((c.numGpuBlocks * m.nKvHeads : Nat) : Int) * toInt c.blockSize * m.headDim
        = -2 ^ 31 := by
      rw [hone, hbs, hdimOne]
      decide
    rw [Int.natCast_mul] at hsize
    have heq : valueCacheOffset m c (driverPools m c).gpuPool = toSize (-2 ^ 31) := congrArg toSize hsize
    rw [heq]
    decide
  have hcell : IsCell m c 0 0 0 0 := ⟨by omega, by omega, by omega, by omega⟩
  obtain ⟨-, hhigh⟩ := h.value 0 0 0 0 hcell
  have htotal : (driverPools m c).gpuPool.totalBytes < 2 ^ 64 := by
    rw [totalBytes_eq]
    exact Nat.mod_lt _ (by decide)
  have hzero : cellOffset m c 0 0 0 = 0 := by
    rw [cellOffset_eq, rowOf]
    simp [toInt]
  rw [valueCell, hvalue, hzero] at hhigh
  omega

/-- The last V cell ends where the second region ends. -/
theorem RegionsFit.sized (h : RegionsFit m c) (hm : m.Positive) (hn : 1 ≤ c.numGpuBlocks)
    (hbs : 1 ≤ c.blockSize) : Sized m c := by
  have hlast := h.lastRow hm
  have hsize := h.blockSize hm hn
  obtain ⟨hhd, -⟩ := hm.headDim
  have hrows : 1 ≤ cacheRows m c := Nat.mul_pos (Nat.mul_pos hn hm.nKvHeads.1) hbs
  refine ⟨hsize, hlast, ?_⟩
  obtain ⟨phys, kvH, off, hcell, hrow⟩ := exists_isCell hm (Nat.sub_one_lt_of_lt hrows)
  have hcell' : IsCell m c phys kvH off (m.headDim - 1) := { hcell with d := by omega }
  obtain ⟨-, hhigh⟩ := h.value phys kvH off (m.headDim - 1) hcell'
  rw [valueCell, valueCacheOffset_eq hm hsize hlast, cellOffset_of_le hlast hcell.rowOf_lt, hrow,
    totalBytes_eq, Nat.sub_one_mul] at hhigh
  have hle : m.headDim ≤ cacheRows m c * m.headDim := Nat.le_mul_of_pos_left _ hrows
  omega

end Fit

/-- **When the K and V regions fit in the GPU pool.** They do exactly if `block_size` and the offset of
    the last row are values of `int` and the size of the pool, modulo `2 ^ 64`, is enough for both. Where
    nothing overflows, this is `block_size ≤ 16 * n_layers`. -/
theorem regionsFit_iff (m : ModelConfig) (c : CacheConfig) (hm : m.Positive)
    (hn : 1 ≤ c.numGpuBlocks) (hbs : 1 ≤ c.blockSize) :
    (RegionsFit m c ↔ Sized m c) ∧
      (c.blockSize < 2 ^ 31 → (cacheRows m c - 1) * m.headDim < 2 ^ 31 → poolBytes m c < 2 ^ 64 →
        (RegionsFit m c ↔ c.blockSize ≤ 16 * m.nLayers)) := by
  have hiff : RegionsFit m c ↔ Sized m c :=
    ⟨fun h => h.sized hm hn hbs, fun h => h.regionsFit hm⟩
  refine ⟨hiff, fun hsize hlast hpool => hiff.trans ?_⟩
  have hcells : 1 ≤ c.numGpuBlocks * m.nKvHeads * m.headDim :=
    Nat.mul_pos (Nat.mul_pos hn hm.nKvHeads.1) hm.headDim.1
  have hregions : 8 * (cacheRows m c * m.headDim) ≤ poolBytes m c ↔ c.blockSize ≤ 16 * m.nLayers := by
    have hleft : 8 * (cacheRows m c * m.headDim)
        = 8 * (c.numGpuBlocks * m.nKvHeads * m.headDim) * c.blockSize := by
      rw [cacheRows]
      ring
    have hright : poolBytes m c
        = 8 * (c.numGpuBlocks * m.nKvHeads * m.headDim) * (16 * m.nLayers) := by
      rw [poolBytes]
      ring
    rw [hleft, hright]
    exact Nat.mul_le_mul_left_iff (by omega)
  constructor
  · intro h
    exact hregions.1 (h.regions.trans (Nat.mod_le _ _))
  · intro hle
    refine ⟨hsize, hlast, ?_⟩
    rw [Nat.mod_eq_of_lt hpool]
    exact hregions.2 hle

/-- The default configuration fits. -/
theorem regionsFit_default : RegionsFit {} {} :=
  ((regionsFit_iff {} {} ⟨by decide, by decide, by decide⟩ (by decide) (by decide)).2
    (by decide) (by decide) (by decide)).2 (by decide)

/-- `--gpu-blocks 64 --block-size 1024`: the K region takes the whole pool. -/
theorem not_regionsFit_largeBlocks : ¬ RegionsFit {} { numGpuBlocks := 64, blockSize := 1024 } := by
  intro h
  have hcell : IsCell {} { numGpuBlocks := 64, blockSize := 1024 } 0 0 0 0 :=
    ⟨by decide, by decide, by decide, by decide⟩
  have hin := h.value 0 0 0 0 hcell
  revert hin
  unfold MemoryPool.Holds
  decide

end CacheFlow
