import CacheFlow.Lib.Runs
import CacheFlow.MemoryPool

set_option autoImplicit false

/-! # Fragmentation

`compute_fragmentation` reads the descriptors and the free list of a device: how many blocks are in use, how
much of their capacity is filled, and how long the longest stretch of free block ids is. It takes for granted
that the free list holds the unreferenced blocks, each once (`FreeListExact`).

The two ratios are exact rationals here; what is counted in `size_t` is counted modulo `2 ^ 64`, and a
position in the vector of descriptors is cast to a 32-bit `BlockId`. `fragmentation_exact_iff` says when the
figures are right. -/

namespace CacheFlow.BlockManager

structure FragmentationStats where
  totalBlocks : Nat
  usedBlocks : Nat
  freeBlocks : Nat
  internalFragmentation : Rat
  externalFragmentation : Rat
  largestFreeRun : Nat
  deriving DecidableEq, Repr

/-- `total_filled`: the filled slots of the blocks in use. -/
def totalFilled (blks : List PhysicalBlock) : Nat :=
  blks.foldl (fun acc b => if 0 < b.refCount then toSize (acc + b.numFilled) else acc) 0

/-- The loop over the positions of the descriptors. -/
def largestFreeRun (bm : BlockManager) (device : DeviceType) : Nat :=
  Runs.longestRun (fun i : Nat => decide (toInt i ∈ bm.freeList device)) (bm.blocks device).length

/-- One less a ratio of two counters, 0 if the second is 0. -/
def lossOf (part whole : Nat) : Rat := if 0 < whole then 1 - (part : Rat) / whole else 0

def computeFragmentation (bm : BlockManager) (device : DeviceType) : FragmentationStats :=
  let blks := bm.blocks device
  let totalBlocks := blks.length
  let freeBlocks := (bm.freeList device).length
  let usedBlocks := toSize ((totalBlocks : Int) - freeBlocks)
  let maxCapacity := toSize (usedBlocks * bm.config.blockSize)
  let maxRun := bm.largestFreeRun device
  { totalBlocks := totalBlocks,
    usedBlocks := usedBlocks,
    freeBlocks := freeBlocks,
    internalFragmentation := lossOf (totalFilled blks) maxCapacity,
    externalFragmentation := lossOf maxRun freeBlocks,
    largestFreeRun := maxRun }

/-! ## What the figures should be -/

/-- The free list has the unreferenced blocks, each once, and no block is filled beyond its size. Block ids
    are 32-bit values, and the vector has fewer than `2 ^ 64` descriptors. -/
structure FreeListExact (bm : BlockManager) (d : DeviceType) : Prop where
  nodup : (bm.freeList d).Nodup
  inRange : ∀ b : Int, b ∈ bm.freeList d → 0 ≤ b ∧ b < (bm.blocks d).length
  free_iff : ∀ (i : Nat) (blk : PhysicalBlock), (bm.blocks d)[i]? = some blk →
    ((i : Int) ∈ bm.freeList d ↔ blk.refCount = 0)
  filled : ∀ blk ∈ bm.blocks d, blk.numFilled ≤ bm.config.blockSize
  ids : ∀ b : Int, b ∈ bm.freeList d → b < 2 ^ 31
  size : (bm.blocks d).length < 2 ^ 64

/-- The ids on the free list form one interval; an empty one if none is free. -/
def FreeInterval (bm : BlockManager) (d : DeviceType) : Prop :=
  ∃ (a : Int) (len : Nat), ∀ b : Int, b ∈ bm.freeList d ↔ a ≤ b ∧ b < a + len

/-- All figures are right. -/
structure FragmentationExact (bm : BlockManager) (d : DeviceType) : Prop where
  used : (bm.computeFragmentation d).usedBlocks = (bm.blocks d).countP (fun b => 0 < b.refCount)
  run : IsGreatest (Runs.lengths {b | b ∈ bm.freeList d}) (bm.computeFragmentation d).largestFreeRun
  run_le : (bm.computeFragmentation d).largestFreeRun ≤ (bm.computeFragmentation d).freeBlocks
  run_eq_iff : (bm.computeFragmentation d).largestFreeRun = (bm.computeFragmentation d).freeBlocks ↔
    bm.FreeInterval d
  internal_mem : (bm.computeFragmentation d).internalFragmentation ∈ Set.Icc 0 1
  external_mem : (bm.computeFragmentation d).externalFragmentation ∈ Set.Icc 0 1
  external_eq_zero : (bm.computeFragmentation d).externalFragmentation = 0 ↔ bm.FreeInterval d

/-- The slots of the blocks in use. -/
def capacity (bm : BlockManager) (d : DeviceType) : Nat :=
  (bm.blocks d).countP (fun b => 0 < b.refCount) * bm.config.blockSize

/-- The slots of the blocks in use that are filled. -/
def filledSlots (bm : BlockManager) (d : DeviceType) : Nat :=
  (((bm.blocks d).filter (fun b => 0 < b.refCount)).map PhysicalBlock.numFilled).sum

/-- No reference count is negative, and the wrapped capacity is not below the wrapped number of filled
    slots, or it is 0. -/
structure Countable (bm : BlockManager) (d : DeviceType) : Prop where
  nonneg : ∀ blk ∈ bm.blocks d, 0 ≤ blk.refCount
  wrapped : bm.filledSlots d % 2 ^ 64 ≤ bm.capacity d % 2 ^ 64 ∨ bm.capacity d % 2 ^ 64 = 0

/-! ## Counters -/

theorem totalFilled_eq (bm : BlockManager) (d : DeviceType) :
    totalFilled (bm.blocks d) = bm.filledSlots d % 2 ^ 64 := by
  have hloop : ∀ (blks : List PhysicalBlock) (acc : Nat), acc < 2 ^ 64 →
      blks.foldl (fun acc b => if 0 < b.refCount then toSize (acc + b.numFilled) else acc) acc
        = (acc + ((blks.filter (fun b => 0 < b.refCount)).map PhysicalBlock.numFilled).sum) % 2 ^ 64 := by
    intro blks
    induction blks with
    | nil =>
        intro acc hacc
        exact (Nat.mod_eq_of_lt hacc).symm
    | cons b blks ih =>
        intro acc hacc
        have hsize : toSize (acc + b.numFilled) = (acc + b.numFilled) % 2 ^ 64 :=
          toSize_natCast (acc + b.numFilled)
        rw [List.foldl_cons]
        split
        · next hpos =>
            rw [hsize, ih _ (Nat.mod_lt _ (by decide)), Nat.mod_add_mod]
            simp [hpos, Nat.add_assoc]
        · next hpos =>
            rw [ih acc hacc]
            simp [hpos]
  rw [totalFilled, hloop _ 0 (by decide), Nat.zero_add, filledSlots]

/-- Blocks with a reference count other than 0: those above and those below. -/
theorem countP_ne_zero (blks : List PhysicalBlock) :
    blks.countP (fun b => b.refCount ≠ 0)
      = blks.countP (fun b => 0 < b.refCount) + blks.countP (fun b => b.refCount < 0) := by
  induction blks with
  | nil => rfl
  | cons b blks ih =>
      simp only [List.countP_cons, ih, decide_eq_true_eq]
      split <;> split <;> split <;> omega

theorem lossOf_mem_Icc {part whole : Nat} :
    lossOf part whole ∈ Set.Icc (0 : Rat) 1 ↔ part ≤ whole ∨ whole = 0 := by
  unfold lossOf
  split
  · next hpos =>
      have hpos' : (0 : Rat) < whole := by exact_mod_cast hpos
      have hnonneg : (0 : Rat) ≤ part / whole := by positivity
      rw [Set.mem_Icc, sub_nonneg, div_le_one hpos', sub_le_self_iff, Nat.cast_le]
      constructor
      · rintro ⟨hle, -⟩
        exact Or.inl hle
      · rintro (hle | hzero)
        · exact ⟨hle, hnonneg⟩
        · omega
  · next hzero => simp [show whole = 0 by omega]

theorem lossOf_eq_zero {part whole : Nat} (hle : part ≤ whole) : lossOf part whole = 0 ↔ part = whole := by
  unfold lossOf
  split
  · next hpos =>
      have hne : (whole : Rat) ≠ 0 := by exact_mod_cast hpos.ne'
      rw [sub_eq_zero, eq_comm, div_eq_one_iff_eq hne, Nat.cast_inj]
  · next hzero =>
      simp only [true_iff]
      omega

namespace FreeListExact

variable {bm : BlockManager} {d : DeviceType} (h : bm.FreeListExact d)

include h

/-- The free list and the positions of the unreferenced blocks are the same. -/
theorem length_freeList :
    (bm.freeList d).length = (bm.blocks d).countP (fun b => b.refCount = 0) := by
  have hperm : (bm.freeList d).Perm (((List.range (bm.blocks d).length).filter (fun i =>
      ((bm.blocks d).getD i {}).refCount = 0)).map (fun i : Nat => (i : Int))) := by
    rw [List.perm_ext_iff_of_nodup h.nodup]
    · intro (b : Int)
      simp only [List.mem_map, List.mem_filter, List.mem_range, decide_eq_true_eq]
      constructor
      · intro hb
        obtain ⟨hlow, hhigh⟩ := h.inRange b hb
        have hlt : b.toNat < (bm.blocks d).length := by omega
        refine ⟨b.toNat, ⟨hlt, ?_⟩, Int.toNat_of_nonneg hlow⟩
        have hfree := (h.free_iff b.toNat _ (List.getElem?_eq_getElem hlt)).1 (by
          rwa [Int.toNat_of_nonneg hlow])
        rw [List.getD_eq_getElem _ _ hlt]
        exact hfree
      · rintro ⟨i, ⟨hlt, hzero⟩, rfl⟩
        rw [List.getD_eq_getElem _ _ hlt] at hzero
        exact (h.free_iff i _ (List.getElem?_eq_getElem hlt)).2 hzero
    · exact (List.nodup_range.filter _).map (fun _ _ heq => Int.natCast_inj.1 heq)
  have hblocks : (List.range (bm.blocks d).length).map (fun i => (bm.blocks d).getD i {})
      = bm.blocks d := by
    refine List.ext_getElem (by simp) ?_
    intro i hi hi'
    rw [List.getElem_map, List.getElem_range, List.getD_eq_getElem _ _ hi']
  rw [hperm.length_eq, List.length_map, ← List.countP_eq_length_filter]
  conv_rhs => rw [← hblocks, List.countP_map]
  rfl

theorem usedBlocks_eq : (bm.computeFragmentation d).usedBlocks
    = (bm.blocks d).countP (fun b => b.refCount ≠ 0) := by
  have hfree := h.length_freeList
  have hsplit := List.length_eq_countP_add_countP (fun b : PhysicalBlock => b.refCount = 0)
    (l := bm.blocks d)
  have hcount : (bm.blocks d).countP (fun b => b.refCount ≠ 0)
      = (bm.blocks d).countP (fun b => ¬ decide (b.refCount = 0) = true) :=
    List.countP_congr (fun b _ => by simp)
  have hused : ((bm.blocks d).length : Int) - (bm.freeList d).length
      = ((bm.blocks d).countP (fun b => b.refCount ≠ 0) : Nat) := by
    rw [hcount]
    omega
  have hsize := h.size
  show toSize (((bm.blocks d).length : Int) - (bm.freeList d).length) = _
  rw [hused]
  exact toSize_of_lt (Nat.lt_of_le_of_lt List.countP_le_length hsize)

/-- Positions whose ids are free follow each other as the ids do: the last id has no successor. -/
theorem toInt_add {start len : Nat} (hrun : ∀ i < len, toInt (start + i : Nat) ∈ bm.freeList d) :
    ∀ i < len, toInt (start + i : Nat) = toInt start + i := by
  intro i hi
  induction i with
  | zero => simp
  | succ i ih =>
      have hprev := ih (by omega)
      have hlow := (h.inRange _ (hrun i (by omega))).1
      have hlow' := (h.inRange _ (hrun (i + 1) hi)).1
      have hnext : toInt (start + (i + 1) : Nat) = toInt (start + i : Nat) + 1 := by
        simp only [toInt, Int.bmod_def] at hlow hlow' ⊢
        push_cast at hlow hlow' ⊢
        omega
      rw [hnext, hprev]
      push_cast
      ring

/-- **The longest run of the loop** is the longest interval of free ids. -/
theorem largestFreeRun_isGreatest :
    IsGreatest (Runs.lengths {b | b ∈ bm.freeList d}) (bm.largestFreeRun d) := by
  obtain ⟨⟨start, hrun⟩, hbest⟩ := Runs.longestRun_isGreatest
    (fun i : Nat => decide (toInt i ∈ bm.freeList d)) (bm.blocks d).length
  refine ⟨?_, ?_⟩
  · have hmem : ∀ i < bm.largestFreeRun d, toInt (start + i : Nat) ∈ bm.freeList d :=
      fun i hi => of_decide_eq_true (hrun.2 i hi)
    refine ⟨toInt start, ?_⟩
    rintro b ⟨hlow, hhigh⟩
    have hlt : (b - toInt start).toNat < bm.largestFreeRun d := by omega
    have hb := hmem _ hlt
    rw [h.toInt_add hmem _ hlt] at hb
    have heq : toInt start + ((b - toInt start).toNat : Nat) = b := by omega
    rwa [heq] at hb
  · rintro len ⟨a, hsub⟩
    cases len with
    | zero => exact Nat.zero_le _
    | succ len =>
        have hfree : ∀ i < len + 1, a + (i : Nat) ∈ bm.freeList d := by
          intro i hi
          exact hsub ⟨by omega, by omega⟩
        have hfirst := h.inRange a (by simpa using hfree 0 (by omega))
        have hlast := h.inRange (a + len) (by simpa using hfree len (by omega))
        refine hbest ⟨a.toNat, by omega, ?_⟩
        intro i hi
        have hb := hfree i hi
        have hid := h.ids _ hb
        have hcast : toInt (a.toNat + i : Nat) = a + i := by
          rw [toInt_of_lt (by omega) (by omega)]
          omega
        rw [decide_eq_true_eq, hcast]
        exact hb

theorem largestFreeRun_spec :
    bm.largestFreeRun d ≤ (bm.freeList d).length ∧
      (bm.largestFreeRun d = (bm.freeList d).length ↔ bm.FreeInterval d) := by
  have hgreatest := h.largestFreeRun_isGreatest
  have hset : {b | b ∈ bm.freeList d} = ((bm.freeList d).toFinset : Set Int) := by
    ext b
    simp
  have hcard : (bm.freeList d).toFinset.card = (bm.freeList d).length :=
    List.toFinset_card_of_nodup h.nodup
  rw [hset] at hgreatest
  have hiff := Runs.eq_card_iff hgreatest
  have hle := Runs.le_card hgreatest.1
  rw [hcard] at hiff hle
  refine ⟨hle, hiff.trans ?_⟩
  constructor
  · rintro ⟨a, len, heq⟩
    refine ⟨a, len, fun b => ?_⟩
    rw [← List.mem_toFinset, heq, Finset.mem_Ico]
  · rintro ⟨a, len, hiff⟩
    refine ⟨a, len, ?_⟩
    ext b
    rw [List.mem_toFinset, hiff, Finset.mem_Ico]

theorem filledSlots_le : bm.filledSlots d ≤ bm.capacity d := by
  rw [filledSlots, capacity, List.countP_eq_length_filter]
  have hle := List.sum_le_card_nsmul (((bm.blocks d).filter (fun b => 0 < b.refCount)).map
    PhysicalBlock.numFilled) bm.config.blockSize (by
      intro n hn
      obtain ⟨blk, hblk, rfl⟩ := List.mem_map.1 hn
      exact h.filled blk (List.mem_filter.1 hblk).1)
  rwa [List.length_map, smul_eq_mul] at hle

end FreeListExact

/-- **When the figures are right.** In every state whose free list is exact, all figures are right if and
    only if no reference count is negative and the number of filled slots does not exceed the capacity after
    both have wrapped; in particular whenever the capacity is below `2 ^ 64`. -/
theorem fragmentation_exact_iff (bm : BlockManager) (d : DeviceType) (h : bm.FreeListExact d) :
    (bm.FragmentationExact d ↔ bm.Countable d) ∧
      ((∀ blk ∈ bm.blocks d, 0 ≤ blk.refCount) → bm.capacity d < 2 ^ 64 → bm.FragmentationExact d) := by
  have hused := h.usedBlocks_eq
  have hsplit := countP_ne_zero (bm.blocks d)
  obtain ⟨hrun_le, hrun_iff⟩ := h.largestFreeRun_spec
  have hnonneg_iff : (bm.computeFragmentation d).usedBlocks
      = (bm.blocks d).countP (fun b => 0 < b.refCount) ↔ ∀ blk ∈ bm.blocks d, 0 ≤ blk.refCount := by
    rw [hused, hsplit, Nat.add_eq_left, List.countP_eq_zero]
    simp
  have hinternal : (∀ blk ∈ bm.blocks d, 0 ≤ blk.refCount) →
      ((bm.computeFragmentation d).internalFragmentation ∈ Set.Icc 0 1 ↔
        bm.filledSlots d % 2 ^ 64 ≤ bm.capacity d % 2 ^ 64 ∨ bm.capacity d % 2 ^ 64 = 0) := by
    intro hnonneg
    have hcapacity : toSize ((bm.computeFragmentation d).usedBlocks * bm.config.blockSize)
        = bm.capacity d % 2 ^ 64 := by
      rw [hnonneg_iff.2 hnonneg]
      exact toSize_natCast (bm.capacity d)
    show lossOf (totalFilled (bm.blocks d))
      (toSize ((bm.computeFragmentation d).usedBlocks * bm.config.blockSize)) ∈ Set.Icc 0 1 ↔ _
    rw [hcapacity, totalFilled_eq, lossOf_mem_Icc]
  have hiff : bm.FragmentationExact d ↔ bm.Countable d := by
    constructor
    · intro hexact
      have hnonneg := hnonneg_iff.1 hexact.used
      exact ⟨hnonneg, (hinternal hnonneg).1 hexact.internal_mem⟩
    · rintro ⟨hnonneg, hwrapped⟩
      exact ⟨hnonneg_iff.2 hnonneg, h.largestFreeRun_isGreatest, hrun_le, hrun_iff,
        (hinternal hnonneg).2 hwrapped, lossOf_mem_Icc.2 (Or.inl hrun_le),
        (lossOf_eq_zero hrun_le).trans hrun_iff⟩
  refine ⟨hiff, fun hnonneg hsmall => hiff.2 ⟨hnonneg, Or.inl ?_⟩⟩
  have hle := h.filledSlots_le
  rw [Nat.mod_eq_of_lt hsmall]
  exact (Nat.mod_le _ _).trans hle

/-- Every second of four blocks has been given back. -/
def scattered : BlockManager :=
  let bm := (([0, 1, 2, 3] : List SeqId).foldl (fun bm s => (bm.allocateBlock s .cuda).2)
    (BlockManager.new { numGpuBlocks := 4, numCpuBlocks := 0, blockSize := 2 }))
  (bm.freeBlocks 0).freeBlocks 2

/-- The longest of the two runs of one block is reported, and half of the free blocks are scattered. -/
theorem scattered_exact : scattered.FragmentationExact .cuda ∧
    (scattered.computeFragmentation .cuda).largestFreeRun = 1 ∧
    (scattered.computeFragmentation .cuda).freeBlocks = 2 := by
  have hfree : ∀ i : Nat, i < 4 → ∀ blk ∈ (scattered.blocks .cuda)[i]?,
      ((i : Int) ∈ scattered.freeList .cuda ↔ blk.refCount = 0) := by decide
  have hexact : scattered.FreeListExact .cuda :=
    ⟨by decide, by decide, fun i blk hblk => hfree i (List.getElem?_eq_some_iff.1 hblk).1 blk hblk,
      by decide, by decide, by decide⟩
  exact ⟨(fragmentation_exact_iff scattered .cuda hexact).2 (by decide) (by decide), by decide, by decide⟩

/-- Two blocks of `2 ^ 63 + 1` slots in use, with two slots and one slot filled. -/
def hugeBlocks : BlockManager where
  config := { numGpuBlocks := 2, numCpuBlocks := 0, blockSize := 2 ^ 63 + 1 }
  blocks := fun _ =>
    [{ blockId := 0, refCount := 1, numFilled := 2 }, { blockId := 1, refCount := 1, numFilled := 1 }]
  freeList := fun _ => []
  seqBlockMap := ∅

/-- The capacity wraps to two slots, and the internal fragmentation is negative. -/
theorem hugeBlocks_not_exact : hugeBlocks.FreeListExact .cuda ∧
    (hugeBlocks.computeFragmentation .cuda).internalFragmentation = -1 / 2 ∧
    ¬ hugeBlocks.FragmentationExact .cuda := by
  have hfree : ∀ i : Nat, i < 2 → ∀ blk ∈ (hugeBlocks.blocks .cuda)[i]?,
      ((i : Int) ∈ hugeBlocks.freeList .cuda ↔ blk.refCount = 0) := by decide
  have hloss : (hugeBlocks.computeFragmentation .cuda).internalFragmentation = -1 / 2 := by
    have hparts : (hugeBlocks.computeFragmentation .cuda).internalFragmentation = lossOf 3 2 := rfl
    rw [hparts, lossOf]
    norm_num
  refine ⟨⟨by decide, by decide,
    fun i blk hblk => hfree i (List.getElem?_eq_some_iff.1 hblk).1 blk hblk, by decide, by decide,
    by decide⟩, hloss, ?_⟩
  intro hexact
  have hin := hexact.internal_mem.1
  rw [hloss] at hin
  norm_num at hin

end CacheFlow.BlockManager
