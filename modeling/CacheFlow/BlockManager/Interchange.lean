import CacheFlow.Lib.Observation
import CacheFlow.BlockManager.Fragmentation

set_option autoImplicit false

/-! # Two ways to release a block

`free_block` and `decrement_ref` both give up one reference. When it was the last one, `free_block` also
resets `num_filled`, `hash` and `is_prefix`, while `decrement_ref` leaves them as they are. No caller that
keeps to blocks with a reference can see the difference: `allocate_block` and `copy_on_write` write all three
fields of a block they take from the free list, and every figure counts referenced blocks only.

`Alike` relates two states that differ in these fields of unreferenced blocks at most. Every call respects
it. -/

namespace CacheFlow.BlockManager

/-! ## Calls and answers -/

/-- `1 - free / total`, read exactly. -/
def gpuCacheUsage (bm : BlockManager) : Rat :=
  if bm.numTotalGpuBlocks = 0 then 0 else 1 - (bm.numFreeGpuBlocks : Rat) / bm.numTotalGpuBlocks

def cpuCacheUsage (bm : BlockManager) : Rat :=
  if bm.numTotalCpuBlocks = 0 then 0 else 1 - (bm.numFreeCpuBlocks : Rat) / bm.numTotalCpuBlocks

/-- The calls of the interface. `write` is a write through the pointer that `get_block` returns. -/
inductive Call
  | allocateBlock (seqId : SeqId) (device : DeviceType)
  | freeBlock (blockId : BlockId) (device : DeviceType)
  | freeBlocks (seqId : SeqId)
  | incrementRef (blockId : BlockId) (device : DeviceType)
  | decrementRef (blockId : BlockId) (device : DeviceType)
  | copyOnWrite (srcBlock : BlockId) (newSeq : SeqId) (device : DeviceType)
  | getBlock (id : BlockId) (device : DeviceType)
  | write (id : BlockId) (device : DeviceType) (blk : PhysicalBlock)
  | numFreeGpuBlocks
  | numFreeCpuBlocks
  | canAllocate (numBlocks : Nat)
  | gpuCacheUsage
  | cpuCacheUsage
  | computeFragmentation (device : DeviceType)

/-- What a call returns. -/
inductive Answer
  | done
  | block (id : BlockId)
  | descriptor (blk : Option PhysicalBlock)
  | count (n : Nat)
  | flag (b : Bool)
  | usage (r : Rat)
  | fragmentation (stats : FragmentationStats)
  deriving DecidableEq

def call (bm : BlockManager) : Call → Answer × BlockManager
  | .allocateBlock s d => (.block (bm.allocateBlock s d).1, (bm.allocateBlock s d).2)
  | .freeBlock b d => (.done, bm.freeBlock b d)
  | .freeBlocks s => (.done, bm.freeBlocks s)
  | .incrementRef b d => (.done, bm.incrementRef b d)
  | .decrementRef b d => (.done, bm.decrementRef b d)
  | .copyOnWrite b s d => (.block (bm.copyOnWrite b s d).1, (bm.copyOnWrite b s d).2)
  | .getBlock b d => (.descriptor (bm.getBlock b d), bm)
  | .write b d blk => (.done, bm.setBlock b d blk)
  | .numFreeGpuBlocks => (.count bm.numFreeGpuBlocks, bm)
  | .numFreeCpuBlocks => (.count bm.numFreeCpuBlocks, bm)
  | .canAllocate n => (.flag (bm.canAllocate n), bm)
  | .gpuCacheUsage => (.usage bm.gpuCacheUsage, bm)
  | .cpuCacheUsage => (.usage bm.cpuCacheUsage, bm)
  | .computeFragmentation d => (.fragmentation (bm.computeFragmentation d), bm)

/-- The block a call is made on; `free_blocks` takes what it finds. -/
def Call.target : Call → Option (DeviceType × BlockId)
  | .freeBlock b d | .incrementRef b d | .decrementRef b d | .copyOnWrite b _ d | .getBlock b d
  | .write b d _ => some (d, b)
  | _ => none

/-- A call on a block is made while the block has a reference. -/
def OnLive (bm : BlockManager) (c : Call) : Prop := ∀ x ∈ c.target, 0 < bm.refCount x.1 x.2

instance (bm : BlockManager) (c : Call) : Decidable (bm.OnLive c) :=
  inferInstanceAs (Decidable (∀ x ∈ c.target, 0 < bm.refCount x.1 x.2))

/-! ## States that differ in stale fields -/

/-- The descriptor without what an unreferenced block keeps from its last use. -/
def scrubBlock (blk : PhysicalBlock) : PhysicalBlock :=
  if 0 < blk.refCount then blk else { blk with numFilled := 0, hash := 0, isPrefix := false }

def scrub (bm : BlockManager) : BlockManager :=
  { bm with blocks := fun d => (bm.blocks d).map scrubBlock }

/-- The two states differ in stale fields of unreferenced blocks at most. -/
def Alike (bm bm' : BlockManager) : Prop := bm.scrub = bm'.scrub

@[simp] theorem scrubBlock_refCount (blk : PhysicalBlock) : (scrubBlock blk).refCount = blk.refCount := by
  unfold scrubBlock; split <;> rfl

@[simp] theorem scrubBlock_blockId (blk : PhysicalBlock) : (scrubBlock blk).blockId = blk.blockId := by
  unfold scrubBlock; split <;> rfl

@[simp] theorem scrubBlock_device (blk : PhysicalBlock) : (scrubBlock blk).device = blk.device := by
  unfold scrubBlock; split <;> rfl

theorem scrubBlock_of_pos {blk : PhysicalBlock} (h : 0 < blk.refCount) : scrubBlock blk = blk := if_pos h

section Blocks

variable {blk blk' : PhysicalBlock}

theorem scrubBlock_eq_iff :
    scrubBlock blk = scrubBlock blk' ↔ blk.blockId = blk'.blockId ∧ blk.device = blk'.device ∧
      blk.refCount = blk'.refCount ∧ (0 < blk.refCount → blk = blk') := by
  constructor
  · intro h
    have href : blk.refCount = blk'.refCount := by simpa using congrArg PhysicalBlock.refCount h
    refine ⟨by simpa using congrArg PhysicalBlock.blockId h,
      by simpa using congrArg PhysicalBlock.device h, href, fun hpos => ?_⟩
    rwa [scrubBlock_of_pos hpos, scrubBlock_of_pos (href ▸ hpos)] at h
  · rintro ⟨hid, hdev, href, hpos⟩
    by_cases hlive : 0 < blk.refCount
    · rw [hpos hlive]
    · simp only [scrubBlock, if_neg (href ▸ hlive), hid, hdev, href]

/-- A count that goes down leaves alike descriptors alike. -/
theorem scrubBlock_decrement (h : scrubBlock blk = scrubBlock blk') :
    scrubBlock { blk with refCount := blk.refCount - 1 }
      = scrubBlock { blk' with refCount := blk'.refCount - 1 } := by
  obtain ⟨hid, hdev, href, hpos⟩ := scrubBlock_eq_iff.1 h
  refine scrubBlock_eq_iff.2 ⟨hid, hdev, by rw [href], fun hlive => ?_⟩
  have hlive' : 0 < blk.refCount - 1 := hlive
  rw [hpos (by omega)]

end Blocks

namespace Alike

variable {bm bm' : BlockManager} {b : BlockId} {d : DeviceType} {s : SeqId}

theorem freeList (h : Alike bm bm') : bm.freeList = bm'.freeList := by
  have hscrub : bm.scrub.freeList = bm'.scrub.freeList := congrArg BlockManager.freeList h
  exact hscrub

theorem seqBlockMap (h : Alike bm bm') : bm.seqBlockMap = bm'.seqBlockMap := by
  have hscrub : bm.scrub.seqBlockMap = bm'.scrub.seqBlockMap := congrArg BlockManager.seqBlockMap h
  exact hscrub

theorem config (h : Alike bm bm') : bm.config = bm'.config := by
  have hscrub : bm.scrub.config = bm'.scrub.config := congrArg BlockManager.config h
  exact hscrub

theorem blocks (h : Alike bm bm') (d : DeviceType) :
    (bm.blocks d).map scrubBlock = (bm'.blocks d).map scrubBlock := by
  have hscrub : bm.scrub.blocks d = bm'.scrub.blocks d := congrArg (fun t => t.blocks d) h
  exact hscrub

theorem length (h : Alike bm bm') (d : DeviceType) : (bm.blocks d).length = (bm'.blocks d).length := by
  simpa using congrArg List.length (h.blocks d)

theorem of_fields (hconfig : bm.config = bm'.config) (hblocks : ∀ d, (bm.blocks d).map scrubBlock
    = (bm'.blocks d).map scrubBlock) (hfree : bm.freeList = bm'.freeList)
    (hmap : bm.seqBlockMap = bm'.seqBlockMap) : Alike bm bm' := by
  unfold Alike scrub
  rw [hconfig, hfree, hmap, funext hblocks]

/-- Alike states have alike descriptors. -/
theorem getBlock (h : Alike bm bm') (b : BlockId) (d : DeviceType) :
    (bm.getBlock b d).map scrubBlock = (bm'.getBlock b d).map scrubBlock := by
  unfold BlockManager.getBlock
  split
  · rfl
  · rw [← List.getElem?_map, ← List.getElem?_map, h.blocks d]

theorem getBlock_cases (h : Alike bm bm') (b : BlockId) (d : DeviceType) :
    (bm.getBlock b d = none ∧ bm'.getBlock b d = none) ∨
      ∃ blk blk', bm.getBlock b d = some blk ∧ bm'.getBlock b d = some blk' ∧
        scrubBlock blk = scrubBlock blk' := by
  have hget := h.getBlock b d
  cases hb : bm.getBlock b d with
  | none =>
      rw [hb, Option.map_none, eq_comm, Option.map_eq_none_iff] at hget
      exact .inl ⟨rfl, hget⟩
  | some blk =>
      rw [hb, Option.map_some, eq_comm, Option.map_eq_some_iff] at hget
      obtain ⟨blk', hb', heq⟩ := hget
      exact .inr ⟨blk, blk', rfl, hb', heq.symm⟩

theorem refCount (h : Alike bm bm') (d : DeviceType) (b : BlockId) :
    bm.refCount d b = bm'.refCount d b := by
  unfold BlockManager.refCount
  obtain ⟨hb, hb'⟩ | ⟨blk, blk', hb, hb', heq⟩ := h.getBlock_cases b d
  · rw [hb, hb']
  · rw [hb, hb']
    exact (scrubBlock_eq_iff.1 heq).2.2.1

/-- A referenced block has the same descriptor in both. -/
theorem getBlock_of_pos (h : Alike bm bm') (hlive : 0 < bm.refCount d b) :
    ∃ blk, bm.getBlock b d = some blk ∧ bm'.getBlock b d = some blk ∧ 0 < blk.refCount := by
  unfold BlockManager.refCount at hlive
  obtain ⟨hb, -⟩ | ⟨blk, blk', hb, hb', heq⟩ := h.getBlock_cases b d
  · simp [hb] at hlive
  · rw [hb] at hlive
    rw [(scrubBlock_eq_iff.1 heq).2.2.2 hlive] at hb hlive
    exact ⟨blk', hb, hb', hlive⟩

/-! ### The primitive writes -/

theorem setBlock (h : Alike bm bm') {blk blk' : PhysicalBlock} (hblk : scrubBlock blk = scrubBlock blk')
    (b : BlockId) (d : DeviceType) : Alike (bm.setBlock b d blk) (bm'.setBlock b d blk') := by
  refine of_fields (by simp [h.config]) (fun d' => ?_) (by simp [h.freeList]) (by simp [h.seqBlockMap])
  unfold BlockManager.setBlock
  split
  · exact h.blocks d'
  · by_cases hd : d' = d
    · subst hd
      simp [List.map_set, h.blocks, hblk]
    · simp [Function.update_of_ne hd, h.blocks]

theorem pushFree (h : Alike bm bm') (d : DeviceType) (b : BlockId) :
    Alike (bm.pushFree d b) (bm'.pushFree d b) :=
  of_fields h.config h.blocks (by simp [BlockManager.pushFree, h.freeList]) h.seqBlockMap

theorem emplaceBack (h : Alike bm bm') (s : SeqId) (d : DeviceType) (b : BlockId) :
    Alike (bm.emplaceBack s d b) (bm'.emplaceBack s d b) :=
  of_fields h.config h.blocks h.freeList
    (by simp [BlockManager.emplaceBack, BlockManager.seqBlocks, h.seqBlockMap])

theorem popFree (h : Alike bm bm') (d : DeviceType) :
    (bm.popFree d).1 = (bm'.popFree d).1 ∧ Alike (bm.popFree d).2 (bm'.popFree d).2 := by
  unfold BlockManager.popFree
  rw [h.freeList]
  split
  · exact ⟨rfl, h⟩
  · exact ⟨rfl, of_fields h.config h.blocks rfl h.seqBlockMap⟩

/-! ### The operations -/

/-- Both ways to release a block, in alike states. -/
theorem decrementRef_freeBlock (h : Alike bm bm') (b : BlockId) (d : DeviceType) :
    Alike (bm.decrementRef b d) (bm'.freeBlock b d) := by
  unfold BlockManager.decrementRef BlockManager.freeBlock
  obtain ⟨hb, hb'⟩ | ⟨blk, blk', hb, hb', heq⟩ := h.getBlock_cases b d
  · rw [hb, hb']
    exact h
  · obtain ⟨hid, hdev, href, -⟩ := scrubBlock_eq_iff.1 heq
    simp only [hb, hb', href]
    split
    · refine (h.setBlock ?_ b d).pushFree d b
      exact scrubBlock_eq_iff.2 ⟨hid, hdev, rfl, fun hpos => absurd hpos (lt_irrefl _)⟩
    · rw [← href]
      exact h.setBlock (href ▸ scrubBlock_decrement heq) b d

theorem freeBlock (h : Alike bm bm') (b : BlockId) (d : DeviceType) :
    Alike (bm.freeBlock b d) (bm'.freeBlock b d) :=
  (decrementRef_freeBlock rfl b d).symm.trans (h.decrementRef_freeBlock b d)

theorem decrementRef (h : Alike bm bm') (b : BlockId) (d : DeviceType) :
    Alike (bm.decrementRef b d) (bm'.decrementRef b d) :=
  (h.decrementRef_freeBlock b d).trans (decrementRef_freeBlock rfl b d).symm

theorem freeEntries (h : Alike bm bm') (es : List (DeviceType × BlockId)) :
    Alike (bm.freeEntries es) (bm'.freeEntries es) := by
  induction es generalizing bm bm' with
  | nil => exact h
  | cons e es ih => exact ih (h.freeBlock e.2 e.1)

theorem freeBlocks (h : Alike bm bm') (s : SeqId) : Alike (bm.freeBlocks s) (bm'.freeBlocks s) := by
  unfold BlockManager.freeBlocks
  rw [h.seqBlockMap]
  split
  · exact h
  · next entries _ =>
      have hfree := h.freeEntries entries
      exact of_fields hfree.config hfree.blocks hfree.freeList (by simp [h.seqBlockMap])

/-- An unreferenced block would come back with its old fields; a referenced one has the same in both. -/
theorem incrementRef (h : Alike bm bm') (hlive : 0 < bm.refCount d b) :
    Alike (bm.incrementRef b d) (bm'.incrementRef b d) := by
  obtain ⟨blk, hb, hb', -⟩ := h.getBlock_of_pos hlive
  unfold BlockManager.incrementRef
  rw [hb, hb']
  exact h.setBlock rfl b d

/-- What a block from the free list is given, it is given in full. -/
theorem setBlock_of_popped (h : Alike bm bm') (b : BlockId) (d : DeviceType) (r : Int) (n hash : Nat) :
    Alike (bm.setBlock b d { (bm.getBlock b d).getD {} with
        refCount := r, numFilled := n, hash := hash, isPrefix := false })
      (bm'.setBlock b d { (bm'.getBlock b d).getD {} with
        refCount := r, numFilled := n, hash := hash, isPrefix := false }) := by
  refine h.setBlock ?_ b d
  obtain ⟨hb, hb'⟩ | ⟨blk, blk', hb, hb', heq⟩ := h.getBlock_cases b d
  · rw [hb, hb']
  · obtain ⟨hid, hdev, -⟩ := scrubBlock_eq_iff.1 heq
    simp [hb, hb', hid, hdev]

theorem allocateBlock (h : Alike bm bm') (s : SeqId) (d : DeviceType) :
    (bm.allocateBlock s d).1 = (bm'.allocateBlock s d).1 ∧
      Alike (bm.allocateBlock s d).2 (bm'.allocateBlock s d).2 := by
  obtain ⟨hfst, hsnd⟩ := h.popFree d
  unfold BlockManager.allocateBlock
  simp only [hfst]
  split
  · exact ⟨rfl, hsnd⟩
  · exact ⟨rfl, (hsnd.setBlock_of_popped _ d 1 0 0).emplaceBack s d _⟩

/-- The copy takes its fields from the source, which has a reference; the source loses one. -/
theorem copyOnWrite (h : Alike bm bm') (hlive : 0 < bm.refCount d b) (s : SeqId) :
    (bm.copyOnWrite b s d).1 = (bm'.copyOnWrite b s d).1 ∧
      Alike (bm.copyOnWrite b s d).2 (bm'.copyOnWrite b s d).2 := by
  obtain ⟨blk, hb, hb', -⟩ := h.getBlock_of_pos hlive
  obtain ⟨hfst, hsnd⟩ := h.popFree d
  unfold BlockManager.copyOnWrite
  simp only [hb, hb', Option.getD_some, hfst]
  split
  · exact ⟨rfl, h.emplaceBack s d b⟩
  · split
    · exact ⟨rfl, hsnd⟩
    · have hcopied := hsnd.setBlock_of_popped (bm'.popFree d).1 d 1 blk.numFilled blk.hash
      refine ⟨rfl, (hcopied.setBlock ?_ b d).emplaceBack s d _⟩
      obtain ⟨hc, hc'⟩ | ⟨src, src', hc, hc', heq⟩ := hcopied.getBlock_cases b d
      · rw [hc, hc']
      · rw [hc, hc']
        exact scrubBlock_decrement heq

/-! ### The figures -/

/-- Only referenced blocks are counted. -/
theorem totalFilled (h : Alike bm bm') (d : DeviceType) :
    totalFilled (bm.blocks d) = totalFilled (bm'.blocks d) := by
  have hscrub : ∀ blks : List PhysicalBlock,
      BlockManager.totalFilled (blks.map scrubBlock) = BlockManager.totalFilled blks := by
    intro blks
    unfold BlockManager.totalFilled
    rw [List.foldl_map]
    congr 1
    funext acc blk
    by_cases hpos : 0 < blk.refCount
    · rw [scrubBlock_of_pos hpos]
    · simp [hpos]
  rw [← hscrub, h.blocks d, hscrub]

theorem computeFragmentation (h : Alike bm bm') (d : DeviceType) :
    bm.computeFragmentation d = bm'.computeFragmentation d := by
  unfold BlockManager.computeFragmentation BlockManager.largestFreeRun
  simp only [h.length, h.freeList, h.config, h.totalFilled]

end Alike

/-! ## Calls respect the relation -/

theorem alike_bisimulation : Observation.Bisimulation call OnLive Alike where
  ok_iff := by
    intro bm bm' h c
    simp only [OnLive, h.refCount]
  answer := by
    intro bm bm' h c hc
    cases c with
    | allocateBlock s d => exact congrArg Answer.block (h.allocateBlock s d).1
    | copyOnWrite b s d => exact congrArg Answer.block (h.copyOnWrite (hc (d, b) rfl) s).1
    | getBlock b d =>
        obtain ⟨blk, hb, hb', -⟩ := h.getBlock_of_pos (hc (d, b) rfl)
        simp [call, hb, hb']
    | freeBlock | freeBlocks | incrementRef | decrementRef | write => rfl
    | computeFragmentation d => exact congrArg Answer.fragmentation (h.computeFragmentation d)
    | numFreeGpuBlocks | numFreeCpuBlocks | canAllocate | gpuCacheUsage | cpuCacheUsage =>
        simp [call, numFreeGpuBlocks, numFreeCpuBlocks, canAllocate, gpuCacheUsage, cpuCacheUsage,
          numTotalGpuBlocks, numTotalCpuBlocks, h.freeList, h.length]
  next := by
    intro bm bm' h c hc
    cases c with
    | allocateBlock s d => exact (h.allocateBlock s d).2
    | freeBlock b d => exact h.freeBlock b d
    | freeBlocks s => exact h.freeBlocks s
    | incrementRef b d => exact h.incrementRef (hc (d, b) rfl)
    | decrementRef b d => exact h.decrementRef b d
    | copyOnWrite b s d => exact (h.copyOnWrite (hc (d, b) rfl) s).2
    | write b d blk => exact h.setBlock rfl b d
    | getBlock | numFreeGpuBlocks | numFreeCpuBlocks | canAllocate | gpuCacheUsage | cpuCacheUsage
    | computeFragmentation => exact h

/-- **`decrement_ref` and `free_block` are interchangeable.** Whatever the state and the block, the same
    calls on referenced blocks can be made after either, and they have the same answers. -/
theorem releases_indistinguishable (bm : BlockManager) (b : BlockId) (d : DeviceType) :
    Observation.Indistinguishable call OnLive (bm.decrementRef b d) (bm.freeBlock b d) :=
  alike_bisimulation.indistinguishable (Alike.decrementRef_freeBlock rfl b d)

/-- Two blocks, one of them in use and filled. -/
def filledBlock : BlockManager where
  config := { blockSize := 4, numGpuBlocks := 2, numCpuBlocks := 0 }
  blocks
    | .cuda => [{ blockId := 0, refCount := 1, numFilled := 3, hash := 77, isPrefix := true },
        { blockId := 1 }]
    | .cpu => []
  freeList
    | .cuda => [1]
    | .cpu => []
  seqBlockMap := ∅

/-- The released block is taken again, shared and copied. -/
def reuse : List Call :=
  [.computeFragmentation .cuda, .allocateBlock 7 .cuda, .getBlock 0 .cuda, .incrementRef 0 .cuda,
    .copyOnWrite 0 8 .cuda, .getBlock 1 .cuda, .freeBlocks 7, .canAllocate 1]

/-- Every call of `reuse` is on a referenced block, and the answers are the same after both releases. -/
theorem releases_indistinguishable_reuse :
    Run.AllOk (Observation.next call) OnLive (filledBlock.decrementRef 0 .cuda) reuse ∧
      Observation.answers call (filledBlock.decrementRef 0 .cuda) reuse
        = Observation.answers call (filledBlock.freeBlock 0 .cuda) reuse := by
  have hok : Run.AllOk (Observation.next call) OnLive (filledBlock.decrementRef 0 .cuda) reuse := by
    decide
  exact ⟨hok, (releases_indistinguishable filledBlock 0 .cuda reuse).2 hok⟩

/-- The states differ: the descriptor of the unreferenced block does. -/
example : (filledBlock.decrementRef 0 .cuda).getBlock 0 .cuda
    ≠ (filledBlock.freeBlock 0 .cuda).getBlock 0 .cuda := by decide

end CacheFlow.BlockManager
