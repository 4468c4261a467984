import CacheFlow.Common
import Mathlib.Data.List.AList
import Mathlib.Logic.Function.Basic

set_option autoImplicit false

/-! # The block manager

`BlockManager` hands out fixed-size key/value blocks on two devices. It keeps one descriptor per
block, one free list per device and, in `seq_block_map_`, the blocks it has handed to each sequence.

The model keeps the descriptor vectors and the free lists of both devices as functions of the device
(`blocks .cuda` is `gpu_blocks_`, `freeList .cpu` is `cpu_free_list_`). A free list is a stack: the
head of the list is the back of the vector. The second half of the file is the interface the other
modules use: for every operation, what it does to `freeList`, `refCount` and `seqBlocks`. -/

namespace CacheFlow

/-- The descriptor of one physical block. -/
structure PhysicalBlock where
  blockId : BlockId := invalidBlock
  device : DeviceType := .cuda
  refCount : Int := 0
  numFilled : Nat := 0
  hash : Nat := 0
  isPrefix : Bool := false
  deriving DecidableEq, Repr

structure BlockManager where
  config : CacheConfig
  blocks : DeviceType → List PhysicalBlock
  freeList : DeviceType → List BlockId
  seqBlockMap : AList (fun _ : SeqId => List (DeviceType × BlockId))

namespace BlockManager

/-! ## Construction -/

/-- The descriptors `init_blocks` writes. -/
def initBlocks (count : Nat) (device : DeviceType) : List PhysicalBlock :=
  (List.range count).map (fun i : Nat =>
    { blockId := (i : BlockId), device := device, refCount := 0 })

/-- The free list `init_blocks` writes: it pushes `count - 1` down to `0`, so `0` is on top. -/
def initFreeList (count : Nat) : List BlockId :=
  (List.range count).map (fun i : Nat => (i : BlockId))

/-- `num_gpu_blocks` or `num_cpu_blocks`, by device. -/
def countFor (config : CacheConfig) : DeviceType → Nat
  | .cuda => config.numGpuBlocks
  | .cpu => config.numCpuBlocks

def new (config : CacheConfig) : BlockManager where
  config := config
  blocks d := initBlocks (countFor config d) d
  freeList d := initFreeList (countFor config d)
  seqBlockMap := ∅

/-! ## Descriptors and free lists -/

def getBlock (bm : BlockManager) (id : BlockId) (device : DeviceType) : Option PhysicalBlock :=
  if id < 0 then none else (bm.blocks device)[id.toNat]?

/-- Overwrite the descriptor of `id`; a write outside the vector has no modelled effect. -/
def setBlock (bm : BlockManager) (id : BlockId) (device : DeviceType) (blk : PhysicalBlock) :
    BlockManager :=
  if id < 0 then bm
  else { bm with
    blocks := Function.update bm.blocks device ((bm.blocks device).set id.toNat blk) }

def popFree (bm : BlockManager) (device : DeviceType) : BlockId × BlockManager :=
  match bm.freeList device with
  | [] => (invalidBlock, bm)
  | id :: rest => (id, { bm with freeList := Function.update bm.freeList device rest })

def pushFree (bm : BlockManager) (device : DeviceType) (id : BlockId) : BlockManager :=
  { bm with freeList := Function.update bm.freeList device (id :: bm.freeList device) }

/-- The vector `seq_block_map_[seq_id]`, empty when the key is absent. -/
def seqBlocks (bm : BlockManager) (seqId : SeqId) : List (DeviceType × BlockId) :=
  (bm.seqBlockMap.lookup seqId).getD []

/-- `seq_block_map_[seq_id].emplace_back(device, bid)`. -/
def emplaceBack (bm : BlockManager) (seqId : SeqId) (device : DeviceType) (bid : BlockId) :
    BlockManager :=
  { bm with seqBlockMap := bm.seqBlockMap.insert seqId (bm.seqBlocks seqId ++ [(device, bid)]) }

/-! ## Allocation -/

def allocateBlock (bm : BlockManager) (seqId : SeqId) (device : DeviceType) :
    BlockId × BlockManager :=
  let r := bm.popFree device
  if r.1 = invalidBlock then (invalidBlock, r.2)
  else
    let blk := (r.2.getBlock r.1 device).getD {}
    let bm' := r.2.setBlock r.1 device
      { blk with refCount := 1, numFilled := 0, hash := 0, isPrefix := false }
    (r.1, bm'.emplaceBack seqId device r.1)

/-- The body shared by `free_block` and the loop of `free_blocks`. -/
def freeBlock (bm : BlockManager) (blockId : BlockId) (device : DeviceType) : BlockManager :=
  match bm.getBlock blockId device with
  | none => bm
  | some blk =>
    if blk.refCount - 1 ≤ 0 then
      (bm.setBlock blockId device
        { blk with refCount := 0, numFilled := 0, hash := 0, isPrefix := false }).pushFree
          device blockId
    else bm.setBlock blockId device { blk with refCount := blk.refCount - 1 }

/-- The loop of `free_blocks` over the entries of one sequence. -/
def freeEntries (bm : BlockManager) (entries : List (DeviceType × BlockId)) : BlockManager :=
  entries.foldl (fun bm e => bm.freeBlock e.2 e.1) bm

def freeBlocks (bm : BlockManager) (seqId : SeqId) : BlockManager :=
  match bm.seqBlockMap.lookup seqId with
  | none => bm
  | some entries =>
    let bm' := bm.freeEntries entries
    { bm' with seqBlockMap := bm'.seqBlockMap.erase seqId }

/-- A series of `allocate_block` calls, one for each sequence of the list. -/
def allocateSeries (bm : BlockManager) (device : DeviceType) :
    List SeqId → List BlockId × BlockManager
  | [] => ([], bm)
  | seqId :: rest =>
    let r := bm.allocateBlock seqId device
    let rs := r.2.allocateSeries device rest
    (r.1 :: rs.1, rs.2)

def canAllocate (bm : BlockManager) (numBlocks : Nat) : Bool :=
  decide (numBlocks ≤ (bm.freeList .cuda).length)

def numFreeGpuBlocks (bm : BlockManager) : Nat := (bm.freeList .cuda).length

def numFreeCpuBlocks (bm : BlockManager) : Nat := (bm.freeList .cpu).length

def numTotalGpuBlocks (bm : BlockManager) : Nat := (bm.blocks .cuda).length

def numTotalCpuBlocks (bm : BlockManager) : Nat := (bm.blocks .cpu).length

def blockSize (bm : BlockManager) : Nat := bm.config.blockSize

/-! ## Copy-on-write and reference counts -/

def copyOnWrite (bm : BlockManager) (srcBlock : BlockId) (newSeq : SeqId) (device : DeviceType) :
    BlockId × BlockManager :=
  let src := (bm.getBlock srcBlock device).getD {}
  if src.refCount = 1 then (srcBlock, bm.emplaceBack newSeq device srcBlock)
  else
    let r := bm.popFree device
    if r.1 = invalidBlock then (invalidBlock, r.2)
    else
      let dst := (r.2.getBlock r.1 device).getD {}
      let bm₁ := r.2.setBlock r.1 device
        { dst with refCount := 1, numFilled := src.numFilled, hash := src.hash, isPrefix := false }
      let src' := (bm₁.getBlock srcBlock device).getD {}
      let bm₂ := bm₁.setBlock srcBlock device { src' with refCount := src'.refCount - 1 }
      (r.1, bm₂.emplaceBack newSeq device r.1)

def incrementRef (bm : BlockManager) (blockId : BlockId) (device : DeviceType) : BlockManager :=
  match bm.getBlock blockId device with
  | none => bm
  | some blk => bm.setBlock blockId device { blk with refCount := blk.refCount + 1 }

/-- Unlike `freeBlock` this leaves the other fields of a block it puts on the free list. -/
def decrementRef (bm : BlockManager) (blockId : BlockId) (device : DeviceType) : BlockManager :=
  match bm.getBlock blockId device with
  | none => bm
  | some blk =>
    if blk.refCount - 1 ≤ 0 then
      (bm.setBlock blockId device { blk with refCount := 0 }).pushFree device blockId
    else bm.setBlock blockId device { blk with refCount := blk.refCount - 1 }

/-- The reference count of a block, 0 outside the vector. -/
def refCount (bm : BlockManager) (device : DeviceType) (id : BlockId) : Int :=
  match bm.getBlock id device with
  | none => 0
  | some blk => blk.refCount

/-- `id` names a block of `device`. -/
def InRange (bm : BlockManager) (device : DeviceType) (id : BlockId) : Prop :=
  0 ≤ id ∧ id.toNat < (bm.blocks device).length

/-! ## What the primitive writes change -/

variable (bm : BlockManager) {d d' : DeviceType} {b b' : BlockId} {s s' : SeqId}

theorem getBlock_of_inRange (h : bm.InRange d b) :
    ∃ blk, bm.getBlock b d = some blk ∧ blk.refCount = bm.refCount d b := by
  obtain ⟨hpos, hlt⟩ := h
  have hneg : ¬ b < 0 := Int.not_lt.2 hpos
  refine ⟨(bm.blocks d)[b.toNat], ?_, ?_⟩
  · simp [getBlock, hneg, hlt]
  · simp [refCount, getBlock, hneg, hlt]

theorem InRange.ne_invalidBlock {bm : BlockManager} (h : bm.InRange d b) : b ≠ invalidBlock := by
  rintro rfl
  exact absurd h.1 (by decide)

@[simp] theorem setBlock_freeList (blk : PhysicalBlock) :
    (bm.setBlock b d blk).freeList = bm.freeList := by
  unfold setBlock; split <;> rfl

@[simp] theorem setBlock_seqBlockMap (blk : PhysicalBlock) :
    (bm.setBlock b d blk).seqBlockMap = bm.seqBlockMap := by
  unfold setBlock; split <;> rfl

@[simp] theorem setBlock_config (blk : PhysicalBlock) :
    (bm.setBlock b d blk).config = bm.config := by
  unfold setBlock; split <;> rfl

@[simp] theorem setBlock_length (blk : PhysicalBlock) (d' : DeviceType) :
    ((bm.setBlock b d blk).blocks d').length = (bm.blocks d').length := by
  unfold setBlock
  split
  · rfl
  · by_cases hd : d' = d
    · subst hd; simp
    · simp [Function.update_of_ne hd]

theorem getBlock_setBlock (blk : PhysicalBlock) (h : bm.InRange d b) :
    (bm.setBlock b d blk).getBlock b' d'
      = if d' = d ∧ b' = b then some blk else bm.getBlock b' d' := by
  obtain ⟨hpos, hlt⟩ := h
  have hneg : ¬ b < 0 := Int.not_lt.2 hpos
  simp only [setBlock, getBlock, if_neg hneg]
  by_cases hb' : b' < 0
  · have hne : b' ≠ b := fun he => hneg (he ▸ hb')
    simp [hb', hne]
  · by_cases hd : d' = d
    · subst hd
      by_cases hb : b' = b
      · subst hb; simp [hb', hlt]
      · have hne : b.toNat ≠ b'.toNat := by unfold BlockId at *; omega
        simp [hb', hb, hne]
    · simp [hd]

theorem refCount_setBlock (blk : PhysicalBlock) (h : bm.InRange d b) :
    (bm.setBlock b d blk).refCount d' b'
      = if d' = d ∧ b' = b then blk.refCount else bm.refCount d' b' := by
  simp only [refCount, getBlock_setBlock bm blk h]
  by_cases hc : d' = d ∧ b' = b <;> simp [hc]

@[simp] theorem pushFree_freeList (id : BlockId) :
    (bm.pushFree d id).freeList d' = if d' = d then id :: bm.freeList d' else bm.freeList d' := by
  by_cases hd : d' = d
  · subst hd; simp [pushFree]
  · simp [pushFree, hd]

@[simp] theorem pushFree_blocks (id : BlockId) : (bm.pushFree d id).blocks = bm.blocks := rfl

@[simp] theorem pushFree_seqBlockMap (id : BlockId) :
    (bm.pushFree d id).seqBlockMap = bm.seqBlockMap := rfl

@[simp] theorem pushFree_config (id : BlockId) : (bm.pushFree d id).config = bm.config := rfl

@[simp] theorem pushFree_refCount (id : BlockId) :
    (bm.pushFree d id).refCount d' b = bm.refCount d' b := rfl

@[simp] theorem emplaceBack_freeList : (bm.emplaceBack s d b).freeList = bm.freeList := rfl

@[simp] theorem emplaceBack_blocks : (bm.emplaceBack s d b).blocks = bm.blocks := rfl

@[simp] theorem emplaceBack_config : (bm.emplaceBack s d b).config = bm.config := rfl

@[simp] theorem emplaceBack_refCount :
    (bm.emplaceBack s d b).refCount d' b' = bm.refCount d' b' := rfl

theorem emplaceBack_seqBlocks :
    (bm.emplaceBack s d b).seqBlocks s'
      = if s' = s then bm.seqBlocks s ++ [(d, b)] else bm.seqBlocks s' := by
  by_cases hs : s' = s
  · subst hs; simp [emplaceBack, seqBlocks]
  · simp [emplaceBack, seqBlocks, hs, AList.lookup_insert_ne hs]

/-! ## What the operations change

Each operation is described by its effect on the free lists, the reference counts and the entries of
`seq_block_map_`; the number of blocks and the configuration never change. -/

theorem allocateBlock_nil (h : bm.freeList d = []) :
    bm.allocateBlock s d = (invalidBlock, bm) := by
  simp [allocateBlock, popFree, h]

@[simp] theorem allocateBlock_config : (bm.allocateBlock s d).2.config = bm.config := by
  cases hfl : bm.freeList d with
  | nil => rw [allocateBlock_nil bm hfl]
  | cons b rest =>
      simp only [allocateBlock, popFree, hfl]
      split <;> simp

/-- What a successful `allocate_block` returns and leaves behind. -/
structure Allocated (bm bm' : BlockManager) (s : SeqId) (d : DeviceType) (b : BlockId)
    (rest : List BlockId) : Prop where
  freeList : bm'.freeList = Function.update bm.freeList d rest
  refCount : ∀ d' b', bm'.refCount d' b' = if d' = d ∧ b' = b then 1 else bm.refCount d' b'
  seqBlocks : ∀ s', bm'.seqBlocks s'
    = if s' = s then bm.seqBlocks s ++ [(d, b)] else bm.seqBlocks s'
  length : ∀ d', (bm'.blocks d').length = (bm.blocks d').length
  config : bm'.config = bm.config

theorem allocateBlock_cons {rest : List BlockId} (h : bm.freeList d = b :: rest)
    (hb : bm.InRange d b) :
    (bm.allocateBlock s d).1 = b ∧ Allocated bm (bm.allocateBlock s d).2 s d b rest := by
  have hne : b ≠ invalidBlock := hb.ne_invalidBlock
  let bm' : BlockManager := { bm with freeList := Function.update bm.freeList d rest }
  have hpop : bm.popFree d = (b, bm') := by simp [popFree, h, bm']
  have hb' : bm'.InRange d b := hb
  simp only [allocateBlock, hpop, if_neg hne]
  refine ⟨trivial, ?_, fun d₁ b₁ => ?_, fun s₁ => ?_, fun d₁ => ?_, ?_⟩
  · simp [bm']
  · rw [emplaceBack_refCount, refCount_setBlock bm' _ hb']
    rfl
  · rw [emplaceBack_seqBlocks]
    simp only [seqBlocks, setBlock_seqBlockMap]
    rfl
  · simp [bm']
  · simp [bm']

theorem Allocated.inRange {bm bm' : BlockManager} {rest : List BlockId}
    (ha : Allocated bm bm' s d b rest) : bm'.InRange d' b' ↔ bm.InRange d' b' := by
  rw [InRange, InRange, ha.length]

/-- What a series of successful allocations for one sequence leaves behind: the blocks `bids`, the top
    of the free list, now belong to `s`. -/
structure Handed (bm bm' : BlockManager) (s : SeqId) (d : DeviceType) (bids : List BlockId) :
    Prop where
  freeList : bm.freeList d = bids ++ bm'.freeList d
  freeList_ne : ∀ d', d' ≠ d → bm'.freeList d' = bm.freeList d'
  refCount : ∀ d' b', bm'.refCount d' b' = if d' = d ∧ b' ∈ bids then 1 else bm.refCount d' b'
  seqBlocks : ∀ s', bm'.seqBlocks s'
    = if s' = s then bm.seqBlocks s ++ bids.map (Prod.mk d) else bm.seqBlocks s'
  length : ∀ d', (bm'.blocks d').length = (bm.blocks d').length
  config : bm'.config = bm.config

theorem Handed.nil (bm : BlockManager) (s : SeqId) (d : DeviceType) : Handed bm bm s d [] := by
  refine ⟨rfl, fun _ _ => rfl, fun _ _ => ?_, fun s' => ?_, fun _ => rfl, rfl⟩
  · simp
  · by_cases hs : s' = s
    · subst hs; simp
    · simp [hs]

theorem Handed.cons {bm bm₁ bm₂ : BlockManager} {rest bids : List BlockId}
    (hfl : bm.freeList d = b :: rest) (ha : Allocated bm bm₁ s d b rest)
    (h : Handed bm₁ bm₂ s d bids) : Handed bm bm₂ s d (b :: bids) := by
  have hrest : bm₁.freeList d = rest := by rw [ha.freeList, Function.update_self]
  refine ⟨?_, fun d' hd' => ?_, fun d' b' => ?_, fun s' => ?_, fun d' => ?_, ?_⟩
  · rw [hfl, ← hrest, h.freeList, List.cons_append]
  · rw [h.freeList_ne d' hd', ha.freeList, Function.update_of_ne hd']
  · rw [h.refCount, ha.refCount]
    by_cases hd' : d' = d
    · by_cases hb' : b' = b
      · simp [hd', hb']
      · simp [hd', hb']
    · simp [hd']
  · rw [h.seqBlocks, ha.seqBlocks, ha.seqBlocks]
    by_cases hs' : s' = s
    · simp [hs']
    · simp [hs']
  · rw [h.length, ha.length]
  · rw [h.config, ha.config]

theorem Handed.inRange {bm bm' : BlockManager} {bids : List BlockId} (h : Handed bm bm' s d bids) :
    bm'.InRange d' b' ↔ bm.InRange d' b' := by
  rw [InRange, InRange, h.length]

/-- Calls that find enough free blocks return the top of the free list. -/
theorem allocateSeries_fst (seqs : List SeqId) (hlen : seqs.length ≤ (bm.freeList d).length)
    (hin : ∀ b ∈ bm.freeList d, bm.InRange d b) :
    (bm.allocateSeries d seqs).1 = (bm.freeList d).take seqs.length := by
  induction seqs generalizing bm with
  | nil => simp [allocateSeries]
  | cons s seqs ih =>
      cases hfl : bm.freeList d with
      | nil => simp [hfl] at hlen
      | cons b rest =>
          have hb : bm.InRange d b := hin b (by rw [hfl]; exact List.mem_cons_self ..)
          obtain ⟨hbid, ha⟩ := bm.allocateBlock_cons (s := s) hfl hb
          have hrest : (bm.allocateBlock s d).2.freeList d = rest := by
            rw [ha.freeList, Function.update_self]
          have hlen' : seqs.length ≤ ((bm.allocateBlock s d).2.freeList d).length := by
            rw [hfl] at hlen
            rw [hrest]
            simpa using hlen
          have hin' : ∀ b ∈ (bm.allocateBlock s d).2.freeList d,
              (bm.allocateBlock s d).2.InRange d b := by
            intro b' hb'
            rw [ha.inRange]
            rw [hrest] at hb'
            exact hin b' (by rw [hfl]; exact List.mem_cons_of_mem _ hb')
          simp [allocateSeries, ih _ hlen' hin', hbid, hrest]

theorem freeBlock_freeList (h : bm.InRange d b) :
    (bm.freeBlock b d).freeList d'
      = if d' = d ∧ bm.refCount d b ≤ 1 then b :: bm.freeList d' else bm.freeList d' := by
  obtain ⟨blk, hget, href⟩ := bm.getBlock_of_inRange h
  simp only [freeBlock, hget, ← href]
  by_cases hle : blk.refCount ≤ 1
  · rw [if_pos (by omega)]
    by_cases hd : d' = d <;> simp [hd, hle]
  · rw [if_neg (by omega)]
    simp [hle]

theorem freeBlock_refCount (h : bm.InRange d b) :
    (bm.freeBlock b d).refCount d' b'
      = if d' = d ∧ b' = b then max (bm.refCount d b - 1) 0 else bm.refCount d' b' := by
  obtain ⟨blk, hget, href⟩ := bm.getBlock_of_inRange h
  simp only [freeBlock, hget, ← href]
  split
  · next hle =>
      rw [pushFree_refCount, refCount_setBlock bm _ h]
      simp [show max (blk.refCount - 1) 0 = 0 by omega]
  · next hgt =>
      rw [refCount_setBlock bm _ h]
      simp [show max (blk.refCount - 1) 0 = blk.refCount - 1 by omega]

@[simp] theorem freeBlock_seqBlockMap : (bm.freeBlock b d).seqBlockMap = bm.seqBlockMap := by
  unfold freeBlock
  split
  · rfl
  · split <;> simp

@[simp] theorem freeBlock_seqBlocks : (bm.freeBlock b d).seqBlocks s = bm.seqBlocks s := by
  simp [seqBlocks]

@[simp] theorem freeBlock_length :
    ((bm.freeBlock b d).blocks d').length = (bm.blocks d').length := by
  unfold freeBlock
  split
  · rfl
  · split <;> simp

@[simp] theorem freeBlock_config : (bm.freeBlock b d).config = bm.config := by
  unfold freeBlock
  split
  · rfl
  · split <;> simp

@[simp] theorem freeEntries_seqBlockMap (es : List (DeviceType × BlockId)) :
    (bm.freeEntries es).seqBlockMap = bm.seqBlockMap := by
  induction es generalizing bm with
  | nil => rfl
  | cons e es ih => simp only [freeEntries, List.foldl_cons] at *; rw [ih]; simp

@[simp] theorem freeEntries_length (es : List (DeviceType × BlockId)) :
    ((bm.freeEntries es).blocks d).length = (bm.blocks d).length := by
  induction es generalizing bm with
  | nil => rfl
  | cons e es ih => simp only [freeEntries, List.foldl_cons] at *; rw [ih]; simp

@[simp] theorem freeEntries_config (es : List (DeviceType × BlockId)) :
    (bm.freeEntries es).config = bm.config := by
  induction es generalizing bm with
  | nil => rfl
  | cons e es ih => simp only [freeEntries, List.foldl_cons] at *; rw [ih]; simp

theorem freeBlocks_freeList :
    (bm.freeBlocks s).freeList = (bm.freeEntries (bm.seqBlocks s)).freeList := by
  unfold freeBlocks seqBlocks
  cases bm.seqBlockMap.lookup s <;> rfl

theorem freeBlocks_refCount :
    (bm.freeBlocks s).refCount d b = (bm.freeEntries (bm.seqBlocks s)).refCount d b := by
  unfold freeBlocks seqBlocks
  cases bm.seqBlockMap.lookup s <;> rfl

theorem freeBlocks_seqBlocks :
    (bm.freeBlocks s).seqBlocks s' = if s' = s then [] else bm.seqBlocks s' := by
  unfold freeBlocks
  cases hs : bm.seqBlockMap.lookup s with
  | none =>
      by_cases h : s' = s
      · subst h; simp [seqBlocks, hs]
      · simp [h]
  | some es =>
      by_cases h : s' = s
      · subst h; simp [seqBlocks]
      · simp [seqBlocks, h, AList.lookup_erase_ne h]

@[simp] theorem freeBlocks_length :
    ((bm.freeBlocks s).blocks d).length = (bm.blocks d).length := by
  unfold freeBlocks
  cases bm.seqBlockMap.lookup s <;> simp

@[simp] theorem freeBlocks_config : (bm.freeBlocks s).config = bm.config := by
  unfold freeBlocks
  cases bm.seqBlockMap.lookup s <;> simp

end BlockManager

end CacheFlow
