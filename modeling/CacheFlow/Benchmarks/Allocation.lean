import CacheFlow.BlockManager.Counts
import CacheFlow.BlockManager.Fragmentation

set_option autoImplicit false

/-! # The allocation benchmark

`run_allocation_bench` takes half of the pool, at most 10000 blocks, one block for each sequence, and then
frees every other one of them. It reports the internal fragmentation between the two, and the external
fragmentation at the end, for each of four block sizes.

Neither depends on the block size (`fragmentation_bench`). No slot has been filled when the first one is
computed, so it is 1. Blocks are handed out in the order of their ids, so at the end every second id below the
number of allocations is free and so are all ids above: the longest run is what was never allocated, and for
a pool of a multiple of four blocks, at most 20000, the external fragmentation is one third. -/

namespace CacheFlow.BlockManager

/-- Every other element, from the first on. -/
def everyOther {α : Type} : List α → List α
  | [] => []
  | [a] => [a]
  | a :: _ :: rest => a :: everyOther rest

/-- `num_ops`. -/
def numOps (cache : CacheConfig) : Nat := min (cache.numGpuBlocks / 2) 10000

/-- The fragmentation that `run_allocation_bench` reports. -/
structure KVCacheResult where
  internalFragmentation : Rat
  externalFragmentation : Rat

/-- The first loop: the ids that `allocate_block` returns, and the pool. -/
def allocateOps (cfg : CacheConfig) (blockSize : Nat) : List BlockId × BlockManager :=
  (BlockManager.new { cfg with blockSize := blockSize }).allocateSeries .cuda (List.range (numOps cfg))

def runAllocationBench (cfg : CacheConfig) (blockSize : Nat) : KVCacheResult :=
  let r := allocateOps cfg blockSize
  let allocated := ((List.range (numOps cfg)).zip r.1).filter (fun a => a.2 ≠ invalidBlock)
  let bm := (everyOther allocated).foldl (fun bm a => bm.freeBlock a.2 .cuda) r.2
  { internalFragmentation := (r.2.computeFragmentation .cuda).internalFragmentation,
    externalFragmentation := (bm.computeFragmentation .cuda).externalFragmentation }

/-! ## Every other element -/

theorem map_everyOther {α β : Type} (f : α → β) (l : List α) : (everyOther l).map f = everyOther (l.map f) := by
  fun_induction everyOther l with
  | case1 => rfl
  | case2 a => rfl
  | case3 a b rest ih => simp [everyOther, ih]

theorem length_everyOther {α : Type} (l : List α) : (everyOther l).length = (l.length + 1) / 2 := by
  fun_induction everyOther l with
  | case1 => simp
  | case2 a => simp
  | case3 a b rest ih =>
      simp only [List.length_cons, ih]
      omega

theorem mem_everyOther_range' (start n i : Nat) :
    i ∈ everyOther (List.range' start n) ↔ start ≤ i ∧ i < start + n ∧ (i - start) % 2 = 0 := by
  induction n using Nat.strong_induction_on generalizing start with
  | _ n ih =>
      match n with
      | 0 =>
          simp only [List.range'_zero, everyOther, List.not_mem_nil, false_iff]
          omega
      | 1 =>
          simp only [List.range'_one, everyOther, List.mem_singleton]
          omega
      | n + 2 =>
          have hsplit : List.range' start (n + 2) = start :: (start + 1) :: List.range' (start + 2) n := by
            rw [List.range'_succ, List.range'_succ]
          rw [hsplit, everyOther, List.mem_cons, ih n (by omega)]
          omega

/-! ## The pool -/

/-- What the benchmark needs of the pool: all of it is known by its free list. -/
structure FreshPool (cache : CacheConfig) (bm : BlockManager) : Prop where
  config : bm.config = cache
  length : (bm.blocks .cuda).length = cache.numGpuBlocks
  filled : ∀ blk ∈ bm.blocks .cuda, blk.numFilled = 0
  refCount : ∀ b, bm.refCount .cuda b ≤ 1
  inRange : ∀ b ∈ bm.freeList .cuda, bm.InRange .cuda b

variable {cache : CacheConfig} {bm : BlockManager}

theorem new_freshPool (cache : CacheConfig) : FreshPool cache (BlockManager.new cache) := by
  refine ⟨rfl, ?_, ?_, ?_, fun b hb => (((counts_new cache).free .cuda b).1 hb).1⟩
  · simp [BlockManager.new, initBlocks, countFor]
  · intro blk hblk
    obtain ⟨i, -, rfl⟩ := List.mem_map.1 hblk
    rfl
  · intro b
    rw [(counts_new cache).refCount]
    exact Int.zero_le_ofNat 1

/-- Overwriting a descriptor that has no filled slot by another one. -/
theorem filled_setBlock (hall : ∀ blk ∈ bm.blocks .cuda, blk.numFilled = 0) (b : BlockId) {new : PhysicalBlock}
    (hnew : new.numFilled = 0) : ∀ blk ∈ (bm.setBlock b .cuda new).blocks .cuda, blk.numFilled = 0 := by
  intro blk hblk
  unfold setBlock at hblk
  split at hblk
  · exact hall blk hblk
  · simp only [Function.update_self] at hblk
    rcases List.mem_or_eq_of_mem_set hblk with hold | rfl
    · exact hall blk hold
    · exact hnew

theorem FreshPool.allocateBlock (h : FreshPool cache bm) (s : SeqId) {b : BlockId} {rest : List BlockId}
    (hfl : bm.freeList .cuda = b :: rest) :
    FreshPool cache (bm.allocateBlock s .cuda).2 ∧ (bm.allocateBlock s .cuda).2.freeList .cuda = rest := by
  have hb : bm.InRange .cuda b := h.inRange b (by rw [hfl]; exact List.mem_cons_self ..)
  obtain ⟨-, ha⟩ := bm.allocateBlock_cons (s := s) hfl hb
  have hfree : (bm.allocateBlock s .cuda).2.freeList .cuda = rest := by
    rw [ha.freeList, Function.update_self]
  refine ⟨⟨ha.config.trans h.config, (ha.length .cuda).trans h.length, ?_, ?_, ?_⟩, hfree⟩
  · intro blk hblk
    simp only [BlockManager.allocateBlock, popFree, hfl, if_neg hb.ne_invalidBlock] at hblk
    have hpopped : ∀ blk ∈ ({ bm with freeList := Function.update bm.freeList .cuda rest } :
        BlockManager).blocks .cuda, blk.numFilled = 0 := h.filled
    exact filled_setBlock hpopped b rfl blk hblk
  · intro b'
    rw [ha.refCount]
    split
    · exact Int.le_refl 1
    · exact h.refCount b'
  · intro b' hb'
    rw [hfree] at hb'
    exact ha.inRange.2 (h.inRange b' (by rw [hfl]; exact List.mem_cons_of_mem _ hb'))

/-- **A series of allocations** takes the start of the free list. -/
theorem FreshPool.allocateSeries (h : FreshPool cache bm) (seqs : List SeqId)
    (hlen : seqs.length ≤ (bm.freeList .cuda).length) :
    FreshPool cache (bm.allocateSeries .cuda seqs).2 ∧
      (bm.allocateSeries .cuda seqs).2.freeList .cuda = (bm.freeList .cuda).drop seqs.length := by
  induction seqs generalizing bm with
  | nil => exact ⟨h, rfl⟩
  | cons s seqs ih =>
      cases hfl : bm.freeList .cuda with
      | nil =>
          rw [hfl] at hlen
          exact absurd hlen (Nat.not_succ_le_zero _)
      | cons b rest =>
          obtain ⟨hnext, hfree⟩ := h.allocateBlock s hfl
          rw [hfl] at hlen
          have hrest := ih hnext (by rw [hfree]; exact Nat.le_of_succ_le_succ hlen)
          rw [hfree] at hrest
          exact hrest

/-- **Blocks with one reference that are freed** go to the front of the free list. -/
theorem freeList_foldl_freeBlock (l : List BlockId) (href : ∀ b, bm.refCount .cuda b ≤ 1)
    (hin : ∀ b ∈ l, bm.InRange .cuda b) :
    (l.foldl (fun bm b => bm.freeBlock b .cuda) bm).freeList .cuda = l.reverse ++ bm.freeList .cuda ∧
      ((l.foldl (fun bm b => bm.freeBlock b .cuda) bm).blocks .cuda).length = (bm.blocks .cuda).length := by
  induction l generalizing bm with
  | nil => exact ⟨rfl, rfl⟩
  | cons b l ih =>
      have hb : bm.InRange .cuda b := hin b (List.mem_cons_self ..)
      have href' : ∀ b', (bm.freeBlock b .cuda).refCount .cuda b' ≤ 1 := by
        intro b'
        rw [freeBlock_refCount bm hb]
        split
        · have hle := href b
          omega
        · exact href b'
      have hin' : ∀ b' ∈ l, (bm.freeBlock b .cuda).InRange .cuda b' := by
        intro b' hb'
        rw [InRange, freeBlock_length]
        exact hin b' (List.mem_cons_of_mem _ hb')
      have hrest := ih href' hin'
      rw [freeBlock_freeList bm hb, if_pos ⟨rfl, href b⟩, freeBlock_length] at hrest
      rw [List.foldl_cons, List.reverse_cons, List.append_assoc]
      exact hrest

/-! ## The longest run -/

/-- If every second number below `n` has the property and so has every number from `n` on, the latter are the
    longest run, with the one before them if that has it. -/
theorem longestRun_half {p : Nat → Bool} {n total : Nat} (hn : n < total)
    (hp : ∀ i < total, p i = true ↔ n ≤ i ∨ i % 2 = 0) :
    Runs.longestRun p total = total - n + n % 2 := by
  refine (Runs.longestRun_isGreatest p total).unique ⟨⟨n - n % 2, ?_⟩, ?_⟩
  · refine ⟨by omega, fun i hi => (hp _ (by omega)).2 (by omega)⟩
  · rintro len ⟨start, hend, hrun⟩
    by_contra hlong
    -- two numbers next to each other, both below `n`
    have hfirst := (hp start (by omega)).1 (hrun 0 (by omega))
    have hsecond := (hp (start + 1) (by omega)).1 (hrun 1 (by omega))
    omega

/-! ## The figures -/

theorem lossOf_zero {whole : Nat} : lossOf 0 whole = if whole = 0 then 0 else 1 := by
  by_cases hzero : whole = 0
  · simp [lossOf, hzero]
  · rw [lossOf, if_pos (Nat.pos_of_ne_zero hzero), if_neg hzero, Nat.cast_zero, zero_div, sub_zero]

/-- With `n` unfilled blocks in use all of their capacity is lost. -/
theorem FreshPool.internal (h : FreshPool cache bm) {n : Nat} (hpool : cache.numGpuBlocks ≤ 2 ^ 31)
    (hfree : (bm.freeList .cuda).length + n = cache.numGpuBlocks) (hcap : n * cache.blockSize < 2 ^ 64) :
    (bm.computeFragmentation .cuda).internalFragmentation = if n * cache.blockSize = 0 then 0 else 1 := by
  have hfilled : totalFilled (bm.blocks .cuda) = 0 := by
    have hzero : bm.filledSlots .cuda = 0 := by
      refine List.sum_eq_zero (fun x hx => ?_)
      obtain ⟨blk, hblk, rfl⟩ := List.mem_map.1 hx
      exact h.filled blk (List.mem_of_mem_filter hblk)
    rw [totalFilled_eq, hzero, Nat.zero_mod]
  have hused : toSize (((bm.blocks .cuda).length : Int) - (bm.freeList .cuda).length) = n := by
    have hdiff : ((bm.blocks .cuda).length : Int) - (bm.freeList .cuda).length = (n : Int) := by
      rw [h.length]
      omega
    rw [hdiff]
    exact toSize_of_lt (by omega)
  have hmax : toSize ((n : Int) * cache.blockSize) = n * cache.blockSize := by
    rw [← Nat.cast_mul]
    exact toSize_of_lt hcap
  show lossOf (totalFilled (bm.blocks .cuda))
    (toSize ((toSize (((bm.blocks .cuda).length : Int) - (bm.freeList .cuda).length) : Int)
      * bm.config.blockSize)) = _
  rw [hfilled, hused, h.config, hmax, lossOf_zero]

/-- The free ids are every second one below `n`, and all from `n` on. -/
theorem external_half {n total : Nat} (hn : n < total) (hpool : total ≤ 2 ^ 31)
    (hlen : (bm.blocks .cuda).length = total)
    (hfree : bm.freeList .cuda = ((everyOther (List.range n)).map (fun i : Nat => (i : Int))).reverse
      ++ (List.range' n (total - n)).map (fun i : Nat => (i : Int))) :
    (bm.computeFragmentation .cuda).externalFragmentation
      = ((n / 2 : Nat) : Rat) / ((total - n / 2 : Nat) : Rat) := by
  have hmem : ∀ i < total, (toInt (i : Int) ∈ bm.freeList .cuda ↔ n ≤ i ∨ i % 2 = 0) := by
    intro i hi
    rw [toInt_of_lt (Int.natCast_nonneg i) (by omega), hfree, List.mem_append, List.mem_reverse,
      List.mem_map_of_injective Nat.cast_injective, List.mem_map_of_injective Nat.cast_injective,
      List.range_eq_range', mem_everyOther_range', List.mem_range'_1]
    omega
  have hrun : bm.largestFreeRun .cuda = total - n + n % 2 := by
    rw [largestFreeRun, hlen]
    exact longestRun_half hn (fun i hi => by rw [decide_eq_true_eq]; exact hmem i hi)
  have hcount : (bm.freeList .cuda).length = total - n / 2 := by
    rw [hfree, List.length_append, List.length_reverse, List.length_map, List.length_map, length_everyOther,
      List.length_range, List.length_range']
    omega
  show lossOf (bm.largestFreeRun .cuda) (bm.freeList .cuda).length = _
  have hpos : 0 < total - n / 2 := by omega
  have hsum : (total - n + n % 2) + n / 2 = total - n / 2 := by omega
  rw [hrun, hcount, lossOf, if_pos hpos, one_sub_div (by exact_mod_cast hpos.ne'), ← hsum]
  push_cast
  ring

section Bench

variable (cfg : CacheConfig) (blockSize : Nat)

theorem numOps_le : numOps cfg ≤ cfg.numGpuBlocks := by
  rw [numOps]
  omega

/-- Blocks are handed out in the order of their ids. -/
theorem allocateOps_spec :
    FreshPool { cfg with blockSize := blockSize } (allocateOps cfg blockSize).2 ∧
      (allocateOps cfg blockSize).1 = (List.range (numOps cfg)).map (fun i : Nat => (i : Int)) ∧
      (allocateOps cfg blockSize).2.freeList .cuda
        = (List.range' (numOps cfg) (cfg.numGpuBlocks - numOps cfg)).map (fun i : Nat => (i : Int)) := by
  have hnew := new_freshPool { cfg with blockSize := blockSize }
  have hfl : (BlockManager.new { cfg with blockSize := blockSize }).freeList .cuda
      = (List.range cfg.numGpuBlocks).map (fun i : Nat => (i : Int)) := rfl
  have hlen : (List.range (numOps cfg)).length
      ≤ ((BlockManager.new { cfg with blockSize := blockSize }).freeList .cuda).length := by
    rw [hfl, List.length_map, List.length_range, List.length_range]
    exact numOps_le cfg
  obtain ⟨hstate, hfree⟩ := hnew.allocateSeries (List.range (numOps cfg)) hlen
  refine ⟨hstate, ?_, ?_⟩
  · rw [allocateOps, allocateSeries_fst _ _ hlen hnew.inRange, hfl, List.length_range, ← List.map_take,
      List.take_range, Nat.min_eq_left (numOps_le cfg)]
  · rw [allocateOps, hfree, hfl, List.length_range, ← List.map_drop, List.range_eq_range', List.drop_range']
    simp

/-- The ids of the blocks that are freed. -/
theorem freed_ids (n : Nat) :
    (everyOther (((List.range n).zip ((List.range n).map (fun i : Nat => (i : Int)))).filter
      (fun a => a.2 ≠ invalidBlock))).map Prod.snd
        = (everyOther (List.range n)).map (fun i : Nat => (i : Int)) := by
  have hall : ((List.range n).zip ((List.range n).map (fun i : Nat => (i : Int)))).filter
      (fun a => a.2 ≠ invalidBlock) = (List.range n).zip ((List.range n).map (fun i : Nat => (i : Int))) := by
    refine List.filter_eq_self.2 (fun a ha => ?_)
    obtain ⟨i, -, hi⟩ := List.mem_map.1 (List.of_mem_zip ha).2
    have hvalid : (i : Int) ≠ -1 := by omega
    rw [decide_eq_true_eq, ← hi]
    exact hvalid
  rw [hall, map_everyOther, map_everyOther, List.map_snd_zip (by simp)]

/-- The free list at the end. -/
theorem freed_freeList {ids : List Nat} (hids : ∀ i ∈ ids, i < cfg.numGpuBlocks) :
    ((ids.map (fun i : Nat => (i : Int))).foldl (fun bm b => bm.freeBlock b .cuda)
        (allocateOps cfg blockSize).2).freeList .cuda
      = (ids.map (fun i : Nat => (i : Int))).reverse ++ (allocateOps cfg blockSize).2.freeList .cuda ∧
    (((ids.map (fun i : Nat => (i : Int))).foldl (fun bm b => bm.freeBlock b .cuda)
        (allocateOps cfg blockSize).2).blocks .cuda).length = cfg.numGpuBlocks := by
  obtain ⟨hstate, -, -⟩ := allocateOps_spec cfg blockSize
  have hin : ∀ b ∈ ids.map (fun i : Nat => (i : Int)), (allocateOps cfg blockSize).2.InRange .cuda b := by
    intro b hb
    obtain ⟨i, hi, rfl⟩ := List.mem_map.1 hb
    refine ⟨Int.natCast_nonneg i, ?_⟩
    rw [hstate.length, Int.toNat_natCast]
    exact hids i hi
  obtain ⟨hfree, hlen⟩ := freeList_foldl_freeBlock _ hstate.refCount hin
  exact ⟨hfree, hlen.trans hstate.length⟩

/-- **The fragmentation that the benchmark reports.** For every pool and every block size, as long as the
    slots of the allocated blocks can be counted: the internal fragmentation is 1, or 0 if nothing is
    allocated, and the external fragmentation is a function of the number of blocks. -/
theorem fragmentation_bench (hbs : 1 ≤ blockSize) (hpool : cfg.numGpuBlocks ≤ 2 ^ 31)
    (hcap : numOps cfg * blockSize < 2 ^ 64) :
    (runAllocationBench cfg blockSize).internalFragmentation = (if cfg.numGpuBlocks < 2 then 0 else 1) ∧
      (runAllocationBench cfg blockSize).externalFragmentation
        = ((numOps cfg / 2 : Nat) : Rat) / ((cfg.numGpuBlocks - numOps cfg / 2 : Nat) : Rat) := by
  obtain ⟨hstate, hids, hfree⟩ := allocateOps_spec cfg blockSize
  constructor
  · have hlen : ((allocateOps cfg blockSize).2.freeList .cuda).length + numOps cfg = cfg.numGpuBlocks := by
      have hle := numOps_le cfg
      rw [hfree, List.length_map, List.length_range']
      omega
    refine (hstate.internal hpool hlen hcap).trans (if_congr ?_ rfl rfl)
    rw [Nat.mul_eq_zero, numOps]
    show _ ∨ blockSize = 0 ↔ _
    omega
  · have hfreed : ∀ i ∈ everyOther (List.range (numOps cfg)), i < cfg.numGpuBlocks := by
      intro i hi
      rw [List.range_eq_range', mem_everyOther_range'] at hi
      have hle := numOps_le cfg
      omega
    obtain ⟨hend, hlen⟩ := freed_freeList cfg blockSize hfreed
    rw [hfree] at hend
    have hfold : ∀ l : List (SeqId × BlockId),
        l.foldl (fun bm a => bm.freeBlock a.2 .cuda) (allocateOps cfg blockSize).2
          = (l.map Prod.snd).foldl (fun bm b => bm.freeBlock b .cuda) (allocateOps cfg blockSize).2 :=
      fun l => by rw [List.foldl_map]
    rw [runAllocationBench, hids]
    simp only [hfold, freed_ids]
    rcases Nat.eq_zero_or_pos cfg.numGpuBlocks with hzero | hpos
    · have hnone : numOps cfg = 0 := by
        rw [numOps, hzero]
        rfl
      rw [hnone, hzero] at hend
      rw [hnone, hzero]
      show lossOf _ (List.length _) = _
      rw [hend]
      simp [lossOf, everyOther]
    · exact external_half (by rw [numOps]; omega) hpool hlen hend

end Bench

/-- The default pool, with blocks of 64 slots. -/
theorem defaultPool_fragmentation :
    (runAllocationBench {} 64).internalFragmentation = 1 ∧
      (runAllocationBench {} 64).externalFragmentation = 1 / 3 := by
  obtain ⟨hint, hext⟩ := fragmentation_bench {} 64 (by decide) (by decide) (by decide)
  have hops : numOps {} = 4096 := by decide
  refine ⟨hint.trans (if_neg (by decide)), hext.trans ?_⟩
  rw [hops]
  norm_num

end CacheFlow.BlockManager
