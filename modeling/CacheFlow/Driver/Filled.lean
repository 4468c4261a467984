import CacheFlow.BlockManager.Fragmentation
import CacheFlow.Driver
import CacheFlow.Scheduler.Accounting
import CacheFlow.Scheduler.Groups

set_option autoImplicit false

/-! # The internal fragmentation that is reported

`compute_fragmentation` compares the filled slots of the blocks in use with their capacity, and takes the
filled slots from `num_filled` of the descriptors. Nothing in the loop fills a block: `allocate_block` and
the calls that free blocks write 0, `update_after_decode` does not touch the descriptors, and the only other
writer is `copy_on_write`, which copies what it finds.

So the figure is 1 whenever a block is in use, whatever is stored. In recompute mode the blocks in use after
`schedule()` hold at least one token, and the figure is right in one case only: when the capacity is a
multiple of `2 ^ 64`, so that it wraps to 0, and every slot is filled. -/

namespace CacheFlow

open Scheduler

namespace BlockManager

/-! ## No block is filled -/

/-- No descriptor counts a filled slot. -/
def Unfilled (bm : BlockManager) : Prop := ∀ d, ∀ blk ∈ bm.blocks d, blk.numFilled = 0

namespace Unfilled

variable {bm : BlockManager}

theorem getBlock (h : bm.Unfilled) {b : BlockId} {d : DeviceType} {blk : PhysicalBlock}
    (hget : bm.getBlock b d = some blk) : blk.numFilled = 0 := by
  unfold BlockManager.getBlock at hget
  split at hget
  · cases hget
  · exact h d blk (List.mem_of_getElem? hget)

theorem setBlock (h : bm.Unfilled) (b : BlockId) (d : DeviceType) {blk : PhysicalBlock}
    (hblk : blk.numFilled = 0) : (bm.setBlock b d blk).Unfilled := by
  unfold BlockManager.setBlock
  split
  · exact h
  · intro d' blk' hmem
    by_cases hd : d' = d
    · subst hd
      simp only [Function.update_self] at hmem
      rcases List.mem_or_eq_of_mem_set hmem with hmem | rfl
      · exact h d' blk' hmem
      · exact hblk
    · simp only [Function.update_of_ne hd] at hmem
      exact h d' blk' hmem

theorem popFree (h : bm.Unfilled) (d : DeviceType) : (bm.popFree d).2.Unfilled := by
  unfold BlockManager.popFree
  split
  · exact h
  · exact h

theorem allocateBlock (h : bm.Unfilled) (s : SeqId) (d : DeviceType) :
    (bm.allocateBlock s d).2.Unfilled := by
  unfold BlockManager.allocateBlock
  dsimp only
  split
  · exact h.popFree d
  · exact (h.popFree d).setBlock _ d rfl

theorem freeBlock (h : bm.Unfilled) (b : BlockId) (d : DeviceType) : (bm.freeBlock b d).Unfilled := by
  unfold BlockManager.freeBlock
  split
  · exact h
  · next blk hget =>
      split
      · exact h.setBlock b d rfl
      · have hblk : blk.numFilled = 0 := h.getBlock hget
        exact h.setBlock b d hblk

theorem freeBlocks (h : bm.Unfilled) (s : SeqId) : (bm.freeBlocks s).Unfilled := by
  have hloop : ∀ (es : List (DeviceType × BlockId)) (bm : BlockManager), bm.Unfilled →
      (bm.freeEntries es).Unfilled := by
    intro es
    induction es with
    | nil => exact fun bm hbm => hbm
    | cons e es ih => exact fun bm hbm => ih _ (hbm.freeBlock e.2 e.1)
  unfold BlockManager.freeBlocks
  split
  · exact h
  · exact hloop _ bm h

theorem totalFilled (h : bm.Unfilled) (d : DeviceType) : totalFilled (bm.blocks d) = 0 := by
  have hsum : bm.filledSlots d = 0 := by
    refine List.sum_eq_zero (fun n hn => ?_)
    obtain ⟨blk, hblk, rfl⟩ := List.mem_map.1 hn
    exact h d blk (List.mem_filter.1 hblk).1
  rw [totalFilled_eq, hsum, Nat.zero_mod]

end Unfilled

theorem unfilled_stable : Stable Unfilled :=
  ⟨fun _ s d h => h.allocateBlock s d, fun _ b h => h.freeBlock b .cuda, fun _ s h => h.freeBlocks s⟩

theorem unfilled_new (cache : CacheConfig) : (BlockManager.new cache).Unfilled := by
  intro d blk hblk
  obtain ⟨i, -, rfl⟩ := List.mem_map.1 hblk
  rfl

/-! ## Blocks in use -/

/-- The number of blocks with a reference. -/
def usedBlocks (bm : BlockManager) (d : DeviceType) : Nat :=
  (bm.blocks d).countP (fun b => 0 < b.refCount)

/-- Counting the descriptors is counting the ids. -/
theorem usedBlocks_eq_countP (bm : BlockManager) (d : DeviceType) :
    bm.usedBlocks d = ((List.range (bm.blocks d).length).map (fun i : Nat => (i : BlockId))).countP
      (fun b => 0 < bm.refCount d b) := by
  have hblocks : bm.blocks d
      = (List.range (bm.blocks d).length).map (fun i => (bm.blocks d).getD i {}) := by
    refine List.ext_getElem (by simp) ?_
    intro i hi hi'
    rw [List.getElem_map, List.getElem_range, List.getD_eq_getElem _ _ hi]
  rw [usedBlocks, List.countP_map]
  conv_lhs => rw [hblocks]
  rw [List.countP_map]
  refine List.countP_congr (fun i hi => ?_)
  have hlt := List.mem_range.1 hi
  have hneg : ¬ (i : BlockId) < 0 := Int.not_lt.2 (Int.natCast_nonneg i)
  simp only [Function.comp_apply, refCount, BlockManager.getBlock, if_neg hneg]
  rw [show ((i : BlockId)).toNat = i from Int.toNat_natCast i, List.getElem?_eq_getElem hlt,
    List.getD_eq_getElem _ _ hlt]

/-- What is reported while no block is filled: everything is lost, unless the capacity wraps to 0. -/
theorem internalFragmentation_of_unfilled {bm : BlockManager} (h : bm.Unfilled) {d : DeviceType}
    (hused : (bm.blocks d).length = (bm.freeList d).length + bm.usedBlocks d) :
    (bm.computeFragmentation d).internalFragmentation
      = if bm.usedBlocks d * bm.config.blockSize % 2 ^ 64 = 0 then 0 else 1 := by
  have hcount : ((bm.blocks d).length : Int) - (bm.freeList d).length = (bm.usedBlocks d : Nat) := by
    omega
  have hcap : toSize (toSize (((bm.blocks d).length : Int) - (bm.freeList d).length)
      * bm.config.blockSize) = bm.usedBlocks d * bm.config.blockSize % 2 ^ 64 := by
    rw [hcount, toSize_natCast, ← Nat.cast_mul, toSize_natCast, Nat.mod_mul_mod]
  show lossOf (BlockManager.totalFilled (bm.blocks d)) _ = _
  rw [h.totalFilled, hcap, lossOf]
  by_cases hzero : bm.usedBlocks d * bm.config.blockSize % 2 ^ 64 = 0
  · rw [if_neg (by omega), if_pos hzero]
  · rw [if_pos (Nat.pos_of_ne_zero hzero), if_neg hzero]
    simp

/-- The figures 0 and 1 against the part of the capacity that has no tokens. -/
theorem wrapped_loss_eq_iff {tokens : Nat} (htokens : 0 < tokens) (capacity : Nat) :
    (if capacity % 2 ^ 64 = 0 then 0 else 1 : Rat) = 1 - (tokens : Rat) / capacity ↔
      capacity % 2 ^ 64 = 0 ∧ tokens = capacity := by
  have hne : (tokens : Rat) ≠ 0 := Nat.cast_ne_zero.2 htokens.ne'
  by_cases hzero : capacity % 2 ^ 64 = 0
  · rw [if_pos hzero, and_iff_right hzero, eq_comm, sub_eq_zero, eq_comm]
    rcases Nat.eq_zero_or_pos capacity with rfl | hpos
    · simp [htokens.ne']
    · rw [div_eq_one_iff_eq (Nat.cast_ne_zero.2 hpos.ne'), Nat.cast_inj]
  · have hcap : (capacity : Rat) ≠ 0 := by
      refine Nat.cast_ne_zero.2 (fun heq => hzero ?_)
      rw [heq]
      rfl
    rw [if_neg hzero, eq_comm, sub_eq_self]
    constructor
    · intro hdiv
      exact absurd hdiv (div_ne_zero hne hcap)
    · rintro ⟨hwrap, -⟩
      exact absurd hwrap hzero

end BlockManager

open BlockManager

/-! ## Tokens in use -/

/-- The tokens of the running sequences. -/
def Scheduler.storedTokens (st : Scheduler) : Nat :=
  ((st.running.flatMap (fun p => (st.groups p).sequences)).map SequenceData.totalLen).sum

namespace Scheduler.Accounted

variable {cache : CacheConfig} {st : Scheduler} {own : Owners}

/-- The blocks in use are the held blocks. -/
theorem usedBlocks_eq (h : Accounted cache st own) (hwf : st.WellFormed) :
    st.blockManager.usedBlocks .cuda = st.heldBlocks.length := by
  have hfree : (st.blockManager.freeList .cuda).countP (fun b => 0 < st.blockManager.refCount .cuda b)
      = 0 := by
    refine List.countP_eq_zero.2 (fun b hb => ?_)
    simp [h.owned.refCount_free hb]
  have hheld : st.heldBlocks.countP (fun b => 0 < st.blockManager.refCount .cuda b)
      = st.heldBlocks.length := by
    refine List.countP_eq_length.2 (fun b hb => ?_)
    rw [heldBlocks_eq hwf] at hb
    obtain ⟨p, hp, hb⟩ := List.mem_flatMap.1 hb
    rw [← h.running p hp] at hb
    simp [h.owned.refCount_owned hb]
  rw [usedBlocks_eq_countP, h.pool, ← (h.perm_pool hwf).countP_eq, List.countP_append, hfree, hheld,
    Nat.zero_add]

theorem length_blocks (h : Accounted cache st own) (hwf : st.WellFormed) :
    (st.blockManager.blocks .cuda).length
      = (st.blockManager.freeList .cuda).length + st.blockManager.usedBlocks .cuda := by
  have hlen := (h.perm_pool hwf).length_eq
  rw [List.length_append, List.length_map, List.length_range] at hlen
  rw [h.pool, h.usedBlocks_eq hwf, hlen]

/-- A block in use is there for a token: no unfinished sequence has more blocks than its tokens fill. -/
theorem storedTokens_pos (h : Accounted cache st own) (hwf : st.WellFormed)
    (hunfin : ∀ p ∈ st.running, (st.seq p).isFinished = false)
    (hused : 0 < st.blockManager.usedBlocks .cuda) : 0 < st.storedTokens := by
  rw [h.usedBlocks_eq hwf, heldBlocks_eq hwf] at hused
  obtain ⟨b, hb⟩ := List.exists_mem_of_length_pos hused
  obtain ⟨p, hp, hb⟩ := List.mem_flatMap.1 hb
  have hblocks : 0 < (st.seq p).logicalBlocks.length := by
    rw [held] at hb
    split at hb
    · exact absurd hb List.not_mem_nil
    · exact List.length_pos_of_mem hb
  have hlen : 0 < (st.seq p).totalLen := by
    have hceil := hblocks.trans_le (h.grown p hp (hunfin p hp))
    rw [Nat.ceilDiv_eq_add_pred_div] at hceil
    by_contra hzero
    have hbs := Nat.pos_of_div_pos hceil
    rw [Nat.div_eq_of_lt (by omega)] at hceil
    omega
  have hsingle := hwf.single_of_mem (WellFormed.mem_running hp)
  refine Nat.lt_of_lt_of_le hlen (List.single_le_sum (fun _ _ => Nat.zero_le _) _ ?_)
  refine List.mem_map_of_mem (List.mem_flatMap.2 ⟨p, hp, ?_⟩)
  rw [hsingle.sequences]
  exact List.mem_singleton_self _

end Scheduler.Accounted

/-! ## Runs -/

namespace Driver

/-- The loop in recompute mode. -/
structure Recomputing (cache : CacheConfig) (d : Driver) : Prop where
  queues : d.Queues
  mode : d.sched.config.preemptionMode = .recompute
  accounted : ∃ own, Accounted cache d.sched own
  unfilled : d.sched.blockManager.Unfilled

theorem init_recomputing {config : SchedulerConfig} (cache : CacheConfig)
    (hmode : config.preemptionMode = .recompute) : (init config cache).Recomputing cache :=
  ⟨init_queues config cache, hmode, new_accounted config cache, unfilled_new cache⟩

/-- What `schedule()` leaves in recompute mode. -/
theorem Recomputing.mid {cache : CacheConfig} {d : Driver} (h : d.Recomputing cache)
    (hphase : d.phase = .ready) : MidRecompute cache d.sched d.sched.afterSwapIn := by
  obtain ⟨own, hacc⟩ := h.accounted
  exact schedule_accounted h.queues.wf h.mode (h.queues.unfinished (by rw [hphase]; simp)) hacc

theorem step_recomputing (cache : CacheConfig) (d : Driver) (op : DriverOp) (h : d.Recomputing cache)
    (hok : d.Permits op) : (d.step op).Recomputing cache := by
  have hqueues := step_queues d op h.queues hok
  obtain ⟨own, hacc⟩ := h.accounted
  have hwf := h.queues.wf
  rcases hok.cases with ⟨group, rfl, hfresh⟩ | ⟨hnot, hok⟩
  · exact ⟨hqueues, h.mode, ⟨own, hacc.addRequest hwf hfresh⟩, h.unfilled⟩
  · rcases step_cases hok with ⟨group, hop, -⟩ | ⟨-, hphase, heq⟩ | ⟨out, -, hphase, heq⟩ |
      ⟨out, batch, toks, -, hphase, -, heq⟩ | ⟨out, toks, now, -, hphase, heq⟩ | ⟨-, hphase, heq⟩
    · exact absurd hop (hnot group)
    · rw [heq] at hqueues ⊢
      have hconfig := (schedule_midStep hwf).config
      exact ⟨hqueues, (congrArg SchedulerConfig.preemptionMode hconfig).trans h.mode,
        (h.mid hphase).accounted, afterSwapIn_stable unfilled_stable d.sched h.unfilled⟩
    · rw [heq] at hqueues ⊢
      exact ⟨hqueues, h.mode, ⟨own, hacc⟩, h.unfilled⟩
    · rw [heq] at hqueues ⊢
      exact ⟨hqueues, h.mode, ⟨own, hacc⟩, h.unfilled⟩
    · rw [heq] at hqueues ⊢
      exact ⟨hqueues, h.mode, ⟨own, hacc.updateAfterDecode hwf out toks now⟩, h.unfilled⟩
    · rw [heq] at hqueues ⊢
      refine ⟨hqueues, ?_, hacc.freeFinishedRequests hwf, ?_⟩
      · rw [freeFinishedRequests_eq]
        exact h.mode
      · rw [freeFinishedRequests_eq]
        exact releaseGroups_stable unfilled_stable _ _ _ h.unfilled

theorem reach_recomputing {config : SchedulerConfig} {cache : CacheConfig} {d : Driver}
    (hmode : config.preemptionMode = .recompute)
    (h : Run.Reach step Permits (init config cache) d) : d.Recomputing cache :=
  h.invariant (init_recomputing cache hmode) (step_recomputing cache)

/-- **The reported internal fragmentation.** After a call of `schedule()`, whether or not it schedules
    every running group, it is the part of the blocks in use without tokens exactly if the capacity of
    these blocks is a multiple of `2 ^ 64` and the tokens fill it. -/
theorem internalFragmentation_exact_iff {config : SchedulerConfig} {cache : CacheConfig} {d : Driver}
    (hmode : config.preemptionMode = .recompute)
    (h : Run.Reach step Permits (init config cache) d) (hphase : d.phase = .ready)
    (hused : 0 < d.sched.schedule.2.blockManager.usedBlocks .cuda) :
    (d.sched.schedule.2.blockManager.computeFragmentation .cuda).internalFragmentation
      = 1 - (d.sched.schedule.2.storedTokens : Rat)
        / (d.sched.schedule.2.blockManager.usedBlocks .cuda * cache.blockSize) ↔
    d.sched.schedule.2.blockManager.usedBlocks .cuda * cache.blockSize % 2 ^ 64 = 0 ∧
      d.sched.schedule.2.storedTokens
        = d.sched.schedule.2.blockManager.usedBlocks .cuda * cache.blockSize := by
  have hinv := reach_recomputing hmode h
  have hmid := hinv.mid hphase
  obtain ⟨own, hacc⟩ := hmid.accounted
  have hwf := (schedule_midStep hinv.queues.wf).wf
  have hunfilled := afterSwapIn_stable unfilled_stable d.sched hinv.unfilled
  have htokens : 0 < d.sched.schedule.2.storedTokens :=
    hacc.storedTokens_pos hwf (fun p hp => hmid.unfinished p
      ((schedule_midStep hinv.queues.wf).queued.mem_iff.1 (WellFormed.mem_running hp))) hused
  have hreport := internalFragmentation_of_unfilled hunfilled (hacc.length_blocks hwf)
  rw [hacc.config] at hreport
  have hfigure := wrapped_loss_eq_iff htokens
    (d.sched.afterSwapIn.sched.blockManager.usedBlocks .cuda * cache.blockSize)
  rw [← hreport, Nat.cast_mul] at hfigure
  exact hfigure

/-- One request with three tokens, on blocks of four. -/
def threeOfFour : List DriverOp := [.addRequest (.new 1 [5, 6, 7] {})]

def threeOfFourEnd : Driver :=
  threeOfFour.foldl step (init { preemptionMode := .recompute }
    { numGpuBlocks := 2, numCpuBlocks := 0, blockSize := 4 })

theorem threeOfFour_reach : Run.Reach step Permits (init { preemptionMode := .recompute }
    { numGpuBlocks := 2, numCpuBlocks := 0, blockSize := 4 }) threeOfFourEnd :=
  Run.Reach.of_allOk threeOfFour (by decide)

/-- One block is in use, three of its four slots have a token, and all of it is reported lost. -/
theorem threeOfFour_reported_lost :
    Run.Reach step Permits (init { preemptionMode := .recompute }
      { numGpuBlocks := 2, numCpuBlocks := 0, blockSize := 4 }) threeOfFourEnd ∧
    (∀ p ∈ threeOfFourEnd.sched.schedule.2.running,
      p ∈ threeOfFourEnd.sched.schedule.1.scheduledGroups) ∧
    threeOfFourEnd.sched.schedule.2.blockManager.usedBlocks .cuda = 1 ∧
    threeOfFourEnd.sched.schedule.2.storedTokens = 3 ∧
    (threeOfFourEnd.sched.schedule.2.blockManager.computeFragmentation .cuda).internalFragmentation
      ≠ 1 - 3 / (1 * 4) := by
  refine ⟨threeOfFour_reach, by decide, by decide, by decide, ?_⟩
  have hunfilled := afterSwapIn_stable unfilled_stable threeOfFourEnd.sched
    (reach_recomputing rfl threeOfFour_reach).unfilled
  rw [show threeOfFourEnd.sched.schedule.2 = threeOfFourEnd.sched.afterSwapIn.sched from rfl,
    internalFragmentation_of_unfilled hunfilled (by decide), if_neg (by decide)]
  norm_num

theorem threeOfFour_not_exact :
    (threeOfFourEnd.sched.schedule.2.blockManager.computeFragmentation .cuda).internalFragmentation
      ≠ 1 - (threeOfFourEnd.sched.schedule.2.storedTokens : Rat)
        / (threeOfFourEnd.sched.schedule.2.blockManager.usedBlocks .cuda * (4 : Nat)) := by
  intro hexact
  have hcap := (internalFragmentation_exact_iff rfl threeOfFour_reach rfl (by decide)).1
    hexact
  exact absurd hcap.1 (by decide)

end Driver

end CacheFlow
