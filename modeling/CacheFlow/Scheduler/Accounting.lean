import CacheFlow.BlockManager.Exclusive
import CacheFlow.Scheduler.Single
import Mathlib.Algebra.Order.Floor.Div

set_option autoImplicit false

/-! # Block accounting without swapping

As long as no group is swapped out, ownership of the GPU blocks is exclusive and the scheduler's two
records of it agree: `logical_blocks` of the running sequences and `seq_block_map_`. `Accounted` states
this between any two operations; each operation of the interface preserves it, and so does every move
of a scheduling step but swapping. None of it depends on the value of `num_blocks_needed`; that a
scheduled sequence can store all its tokens does, and holds where the sum in it does not wrap.

The moves share one lemma, `Accounted.move`: rewrite one sequence, give it a new list of blocks, and
move its group between the queues. -/

namespace CacheFlow

open BlockManager

/-! ## Block demand -/

theorem ceilDiv_mono {m n : Nat} (h : m ≤ n) (bs : Nat) : m ⌈/⌉ bs ≤ n ⌈/⌉ bs := by
  rw [Nat.ceilDiv_eq_add_pred_div, Nat.ceilDiv_eq_add_pred_div]
  exact Nat.div_le_div_right (by omega)

/-- A wrapped sum only lowers the demand. -/
theorem blocksFor_le_ceilDiv (n bs : Nat) : blocksFor n bs ≤ n ⌈/⌉ bs := by
  rw [Nat.ceilDiv_eq_add_pred_div, blocksFor]
  exact Nat.div_le_div_right (Nat.mod_le _ _)

theorem blocksFor_eq_ceilDiv {n bs : Nat} (h : n + bs ≤ 2 ^ 64) : blocksFor n bs = n ⌈/⌉ bs := by
  rw [Nat.ceilDiv_eq_add_pred_div, blocksFor, Nat.mod_eq_of_lt (by omega)]

namespace SequenceData

theorem numBlocksNeeded_le_ceilDiv (seq : SequenceData) (bs : Nat) :
    seq.numBlocksNeeded bs ≤ seq.totalLen ⌈/⌉ bs :=
  blocksFor_le_ceilDiv seq.totalLen bs

/-- Where the sum does not wrap, a sequence that has what `num_blocks_needed` asks for, and no more than
    its tokens fill, has one block for every `bs` tokens begun. -/
theorem NoWrap.length_eq {seq : SequenceData} {bs : Nat} (h : seq.NoWrap bs)
    (hneeded : seq.numBlocksNeeded bs ≤ seq.logicalBlocks.length)
    (hgrown : seq.logicalBlocks.length ≤ seq.totalLen ⌈/⌉ bs) :
    seq.logicalBlocks.length = seq.totalLen ⌈/⌉ bs :=
  Nat.le_antisymm hgrown ((blocksFor_eq_ceilDiv h).symm.trans_le hneeded)

theorem NoWrap.mono {x y : SequenceData} {bs : Nat} (h : y.NoWrap bs) (hle : x.totalLen ≤ y.totalLen) :
    x.NoWrap bs :=
  (Nat.add_le_add_right hle bs).trans h

end SequenceData

namespace Scheduler

/-- The blocks a sequence of the running queue holds: an aborted one has released its blocks. -/
def held (seq : SequenceData) : List BlockId :=
  if seq.status = .finishedAbort then [] else seq.logicalBlocks

/-- The logical blocks of the sequences in the running queue that are not aborted. -/
def heldBlocks (st : Scheduler) : List BlockId :=
  ((st.running.flatMap (fun p => (st.groups p).sequences)).filter
    (fun seq => seq.status ≠ .finishedAbort)).flatMap SequenceData.logicalBlocks

/-- The block manager implements the ownership function `own`, and `own` is what the queues say. -/
structure Accounted (cache : CacheConfig) (st : Scheduler) (own : Owners) : Prop where
  config : st.blockManager.config = cache
  pool : (st.blockManager.blocks .cuda).length = cache.numGpuBlocks
  owned : Owned st.blockManager own
  running : ∀ p ∈ st.running, own (st.seq p).seqId = held (st.seq p)
  other : ∀ id, (∀ p ∈ st.running, (st.seq p).seqId ≠ id) → own id = []
  swapped : st.swapped = []
  waiting : ∀ p ∈ st.waiting, (st.seq p).logicalBlocks = []
  grown : ∀ p ∈ st.running, (st.seq p).isFinished = false →
    (st.seq p).logicalBlocks.length ≤ (st.seq p).totalLen ⌈/⌉ cache.blockSize

theorem held_of_unfinished {seq : SequenceData} (h : seq.isFinished = false) :
    held seq = seq.logicalBlocks := by
  refine if_neg (fun hs => ?_)
  rw [SequenceData.isFinished, hs] at h
  cases h

/-- The held blocks, sequence by sequence. -/
theorem heldBlocks_eq {st : Scheduler} (hwf : st.WellFormed) :
    st.heldBlocks = st.running.flatMap (fun p => held (st.seq p)) := by
  have hrun : ∀ ps : List GroupPtr, (∀ p ∈ ps, p ∈ st.queued) →
      ((ps.flatMap (fun p => (st.groups p).sequences)).filter
        (fun seq => seq.status ≠ .finishedAbort)).flatMap SequenceData.logicalBlocks
      = ps.flatMap (fun p => held (st.seq p)) := by
    intro ps hps
    induction ps with
    | nil => rfl
    | cons p rest ih =>
        have hsingle := hwf.single_of_mem (hps p (List.mem_cons_self ..))
        rw [List.flatMap_cons, List.filter_append, List.flatMap_append, List.flatMap_cons,
          ih (fun q hq => hps q (List.mem_cons_of_mem _ hq)), hsingle.sequences]
        congr 1
        by_cases hs : (st.groups p).seq.status = .finishedAbort
        · simp [held, seq, hs]
        · simp [held, seq, hs]
  exact hrun st.running (fun p hp => WellFormed.mem_running hp)

namespace Accounted

variable {cache : CacheConfig} {st : Scheduler} {own : Owners} {p : GroupPtr}

theorem blockSize (h : Accounted cache st own) : st.blockManager.blockSize = cache.blockSize :=
  congrArg CacheConfig.blockSize h.config

/-- A waiting sequence owns nothing. -/
theorem own_waiting (h : Accounted cache st own) (hwf : st.WellFormed) (hp : p ∈ st.waiting) :
    own (st.seq p).seqId = [] := by
  refine h.other _ (fun q hq heq => ?_)
  have hqp := hwf.eq_of_seqId (WellFormed.mem_running hq) (WellFormed.mem_waiting hp) heq
  subst hqp
  exact hwf.queues.disjoint_running_waiting hq hp

/-- Free list and held blocks together are the pool. -/
theorem perm_pool (h : Accounted cache st own) (hwf : st.WellFormed) :
    (st.blockManager.freeList .cuda ++ st.heldBlocks).Perm
      ((List.range cache.numGpuBlocks).map (fun i : Nat => (i : BlockId))) := by
  have hids : (st.running.map (fun p => (st.seq p).seqId)).Nodup := by
    refine hwf.queues.nodup_running.map_on (fun p hp q hq heq => ?_)
    exact hwf.eq_of_seqId (WellFormed.mem_running hp) (WellFormed.mem_running hq) heq
  have hheld : st.heldBlocks = (st.running.map (fun p => (st.seq p).seqId)).flatMap own := by
    rw [heldBlocks_eq hwf, List.flatMap_map]
    exact List.flatMap_congr (fun p hp => (h.running p hp).symm)
  rw [hheld, ← h.pool]
  refine h.owned.perm_pool hids (fun id hid => h.other id (fun p hp heq => hid ?_))
  exact List.mem_map.2 ⟨p, hp, heq⟩

/-- Every block is free or held by a running sequence. -/
theorem free_add_held (h : Accounted cache st own) (hwf : st.WellFormed) :
    (st.blockManager.freeList .cuda).length
      + (st.running.map (fun p => (held (st.seq p)).length)).sum = cache.numGpuBlocks := by
  have hlen := (h.perm_pool hwf).length_eq
  rw [heldBlocks_eq hwf] at hlen
  simpa [List.length_flatMap] using hlen

/-- **Moving one group.** Sequence `x` replaces the one of `p`, which now owns `l`, and `p` changes
    queues. What is left to check is about `x` alone. -/
theorem move (h : Accounted cache st own) (hwf : st.WellFormed) (hp : p ∈ st.queued)
    {x : SequenceData} {bm : BlockManager} {l : List BlockId} {running waiting : List GroupPtr}
    (hx : x.seqId = (st.seq p).seqId)
    (hown : Owned bm (Function.update own (st.seq p).seqId l))
    (hconf : bm.config = st.blockManager.config)
    (hpool : (bm.blocks .cuda).length = (st.blockManager.blocks .cuda).length)
    (hrun : ∀ q, q ≠ p → (q ∈ running ↔ q ∈ st.running))
    (hwait : ∀ q, q ≠ p → q ∈ waiting → q ∈ st.waiting)
    (hin : p ∈ running → l = held x ∧
      (x.isFinished = false → x.logicalBlocks.length ≤ x.totalLen ⌈/⌉ cache.blockSize))
    (hout : p ∉ running → l = [])
    (hpw : p ∈ waiting → x.logicalBlocks = []) :
    Accounted cache { st.putSequences p [x] bm with running := running, waiting := waiting }
      (Function.update own (st.seq p).seqId l) := by
  have hseq : ∀ q, { st.putSequences p [x] bm with running := running, waiting := waiting }.seq q
      = if q = p then x else st.seq q := fun q => seq_of_groups rfl q
  have hne : ∀ q ∈ st.running, q ≠ p → (st.seq q).seqId ≠ (st.seq p).seqId :=
    fun q hq hqp heq => hqp (hwf.eq_of_seqId (WellFormed.mem_running hq) hp heq)
  refine ⟨hconf.trans h.config, hpool.trans h.pool, hown, fun q hq => ?_, fun id hid => ?_,
    h.swapped, fun q hq => ?_, fun q hq hfin => ?_⟩
  · rw [hseq]
    by_cases hqp : q = p
    · subst hqp
      rw [if_pos rfl, hx, Function.update_self]
      exact (hin hq).1
    · have hq' := (hrun q hqp).1 hq
      rw [if_neg hqp, Function.update_of_ne (hne q hq' hqp)]
      exact h.running q hq'
  · simp only [hseq] at hid
    by_cases hidp : id = (st.seq p).seqId
    · subst hidp
      rw [Function.update_self]
      refine hout (fun hpr => hid p hpr ?_)
      rw [if_pos rfl, hx]
    · rw [Function.update_of_ne hidp]
      refine h.other id (fun q hq heq => ?_)
      have hqp : q ≠ p := fun hqp => hidp (by rw [← heq, hqp])
      exact hid q ((hrun q hqp).2 hq) (by rw [if_neg hqp]; exact heq)
  · rw [hseq]
    by_cases hqp : q = p
    · subst hqp
      rw [if_pos rfl]
      exact hpw hq
    · rw [if_neg hqp]
      exact h.waiting q (hwait q hqp hq)
  · rw [hseq] at hfin ⊢
    by_cases hqp : q = p
    · subst hqp
      rw [if_pos rfl] at hfin ⊢
      exact (hin hq).2 hfin
    · rw [if_neg hqp] at hfin ⊢
      exact h.grown q ((hrun q hqp).1 hq) hfin

/-! ## The moves of a scheduling step -/

/-- Growing a running sequence by its missing blocks. -/
theorem decodeGroup {s : ScheduleState} (h : Accounted cache s.sched own)
    (hwf : s.sched.WellFormed) (hp : p ∈ s.sched.running)
    (hfin : (s.sched.seq p).isFinished = false)
    (hfits : missingBlocks s.sched.blockManager (s.sched.seq p)
      ≤ (s.sched.blockManager.freeList .cuda).length) :
    ∃ own', Accounted cache (s.decodeGroup p).sched own' := by
  have hmem : p ∈ s.sched.queued := WellFormed.mem_running hp
  obtain ⟨bids, hlen, hseq, hhand⟩ := allocateFor_handed s.sched.blockManager (s.sched.seq p)
    (missingBlocks s.sched.blockManager (s.sched.seq p)) hfits h.owned.free_inRange
  rw [ScheduleState.decodeGroup_sched (hwf.single_of_mem hmem), appendBlocks_of_unfinished hfin,
    hseq]
  refine ⟨_, h.move hwf hmem rfl (h.owned.handed hhand) hhand.config (hhand.length _)
    (fun q _ => Iff.rfl) (fun q _ hq => hq) (fun _ => ⟨?_, fun _ => ?_⟩) (fun hnot => absurd hp hnot)
    (fun hw => absurd hw (hwf.queues.disjoint_running_waiting hp))⟩
  · rw [h.running p hp, held_of_unfinished hfin, held_of_unfinished]
    exact hfin
  · -- the sequence had at most the blocks its tokens fill, and got no more than the rest
    have hgrown := h.grown p hp hfin
    have hneeded := (s.sched.seq p).numBlocksNeeded_le_ceilDiv cache.blockSize
    rw [missingBlocks, h.blockSize] at hlen
    rw [List.length_append, hlen]
    show _ ≤ (s.sched.seq p).totalLen ⌈/⌉ cache.blockSize
    omega

/-- Admitting the front of the waiting queue with the blocks of its prompt. -/
theorem admitGroup {s : ScheduleState} {rest : List GroupPtr} (h : Accounted cache s.sched own)
    (hwf : s.sched.WellFormed) (hwait : s.sched.waiting = p :: rest)
    (hfits : (s.sched.seq p).numBlocksNeeded s.sched.blockManager.blockSize
      ≤ (s.sched.blockManager.freeList .cuda).length) :
    ∃ own', Accounted cache (s.admitGroup p rest).sched own' := by
  have hpw : p ∈ s.sched.waiting := by rw [hwait]; exact List.mem_cons_self ..
  have hmem : p ∈ s.sched.queued := WellFormed.mem_waiting hpw
  obtain ⟨bids, hlen, hseq, hhand⟩ := prefillSequence_handed s.sched.blockManager (s.sched.seq p) _
    hfits h.owned.free_inRange
  have hown := h.owned.handed hhand
  rw [h.own_waiting hwf hpw, List.nil_append] at hown
  rw [ScheduleState.admitGroup_sched (hwf.single_of_mem hmem), hseq]
  have hprest : p ∉ rest := hwf.queues.not_mem_rest_waiting hwait
  refine ⟨_, h.move hwf hmem rfl hown hhand.config (hhand.length _) (fun q hq => ?_)
    (fun q _ hq => ?_) (fun _ => ⟨?_, fun _ => ?_⟩) (fun hnot => ?_) (fun hw => absurd hw hprest)⟩
  · simp [hq]
  · rw [hwait]
    exact List.mem_cons_of_mem _ hq
  · rw [held, if_neg (by simp), h.waiting p hpw, List.nil_append]
  · rw [h.blockSize] at hlen
    rw [h.waiting p hpw, List.nil_append]
    exact hlen.trans_le (SequenceData.numBlocksNeeded_le_ceilDiv _ _)
  · exact absurd (List.mem_append_right _ (List.mem_singleton_self p)) hnot

/-- Preempting the last running group for recomputation. -/
theorem recomputeGroup {s : ScheduleState} {init : List GroupPtr}
    (h : Accounted cache s.sched own) (hwf : s.sched.WellFormed)
    (hrun : s.sched.running = init ++ [p]) (hfin : (s.sched.seq p).isFinished = false) :
    ∃ own', Accounted cache (s.recomputeGroup p init).sched own' := by
  have hpr : p ∈ s.sched.running := by rw [hrun]; simp
  have hmem : p ∈ s.sched.queued := WellFormed.mem_running hpr
  have hpinit : p ∉ init := hwf.queues.not_mem_init hrun
  rw [ScheduleState.recomputeGroup_sched (hwf.single_of_mem hmem),
    recomputeSequence_of_unfinished hfin]
  refine ⟨_, h.move hwf hmem rfl (h.owned.freeBlocks _) (freeBlocks_config _) (freeBlocks_length _)
    (fun q hq => ?_) (fun q hq hqw => ?_) (fun hp => absurd hp hpinit) (fun _ => rfl)
    (fun _ => rfl)⟩
  · rw [hrun]
    simp [hq]
  · rcases List.mem_cons.1 hqw with heq | hqw
    · exact absurd heq hq
    · exact hqw

/-- The order of the waiting queue does not matter. -/
theorem sorted (h : Accounted cache st own) {w : List GroupPtr} (hperm : w.Perm st.waiting) :
    Accounted cache { st with waiting := w } own :=
  ⟨h.config, h.pool, h.owned, h.running, h.other, h.swapped,
    fun q hq => h.waiting q (hperm.mem_iff.1 hq), h.grown⟩

/-! ## The other operations -/

theorem addRequest (h : Accounted cache st own) (hwf : st.WellFormed) {group : SequenceGroup}
    (hfresh : st.FreshRequest group) : Accounted cache (st.addRequest group) own := by
  have hold := hwf.seq_addRequest group
  have hrun : ∀ q ∈ st.running, (st.addRequest group).seq q = st.seq q :=
    fun q hq => hold q (WellFormed.mem_running hq)
  refine ⟨h.config, h.pool, h.owned, fun q hq => ?_, fun id hid => ?_, h.swapped, fun q hq => ?_,
    fun q hq hfin => ?_⟩
  · rw [hrun q hq]
    exact h.running q hq
  · refine h.other id (fun q hq => ?_)
    have := hid q hq
    rwa [hrun q hq] at this
  · rcases List.mem_append.1 hq with hq | hq
    · rw [hold q (WellFormed.mem_waiting hq)]
      exact h.waiting q hq
    · obtain rfl := List.mem_singleton.1 hq
      rw [hfresh.seq_next]
  · rw [hrun q hq] at hfin ⊢
    exact h.grown q hq hfin

/-- Aborting releases what the sequence owned, and nothing more. -/
theorem abortRequest (h : Accounted cache st own) (hwf : st.WellFormed) (id : SeqId) :
    ∃ own', Accounted cache (st.abortRequest id) own' := by
  cases hp : st.requestMap.lookup id with
  | none =>
      refine ⟨own, ?_⟩
      simp only [Scheduler.abortRequest, hp]
      exact h
  | some p =>
      have hmem := (hwf.named id p hp).1
      rw [abortRequest_eq hwf hp]
      -- erasing the name of the request touches none of the records of `Accounted`
      suffices hput : ∃ own', Accounted cache
          { st.putSequences p [(abortSequence st.blockManager (st.seq p)).1]
              (abortSequence st.blockManager (st.seq p)).2 with
            running := st.running, waiting := st.waiting } own' by
        obtain ⟨own', h'⟩ := hput
        exact ⟨own', ⟨h'.config, h'.pool, h'.owned, h'.running, h'.other, h'.swapped, h'.waiting,
          h'.grown⟩⟩
      by_cases hfin : (st.seq p).isFinished = true
      · -- a finished sequence is left alone
        have hsame : abortSequence st.blockManager (st.seq p) = (st.seq p, st.blockManager) := by
          rw [abortSequence, if_pos hfin]
        rw [hsame]
        refine ⟨_, h.move hwf hmem rfl (l := own (st.seq p).seqId) ?_ rfl rfl (fun _ _ => Iff.rfl)
          (fun _ _ hq => hq) (fun hr => ⟨h.running p hr, h.grown p hr⟩) (fun hnot => ?_)
          (h.waiting p)⟩
        · rw [Function.update_eq_self]
          exact h.owned
        · refine h.other _ (fun q hq heq => hnot ?_)
          rw [← hwf.eq_of_seqId (WellFormed.mem_running hq) hmem heq]
          exact hq
      · have habort : abortSequence st.blockManager (st.seq p)
            = ({ st.seq p with status := .finishedAbort },
                st.blockManager.freeBlocks (st.seq p).seqId) := by
          rw [abortSequence, if_neg hfin]
        rw [habort]
        exact ⟨_, h.move hwf hmem rfl (h.owned.freeBlocks _) (freeBlocks_config _)
          (freeBlocks_length _) (fun _ _ => Iff.rfl) (fun _ _ hq => hq)
          (fun _ => ⟨rfl, fun hun => by cases hun⟩) (fun _ => rfl) (h.waiting p)⟩

/-- An extended sequence holds what it held. -/
theorem held_extends {x y : SequenceData} (h : Extends x y) :
    held y = held x := by
  rcases h.status with hs | ⟨hx, hs⟩
  · rw [held, held, hs, h.logicalBlocks]
  · rw [held_of_unfinished hx, held, hs, if_neg (by simp), h.logicalBlocks]

theorem updateAfterDecode (h : Accounted cache st own) (hwf : st.WellFormed)
    (out : SchedulerOutput) (toks : List TokenId) (now : TimePoint) :
    Accounted cache (st.updateAfterDecode out toks now) own := by
  have hext := hwf.extends_updateAfterDecode out toks now
  have hrun : ∀ p ∈ st.running, Extends (st.seq p) ((st.updateAfterDecode out toks now).seq p) :=
    fun p hp => hext p (WellFormed.mem_running hp)
  refine ⟨h.config, h.pool, h.owned, fun p hp => ?_, fun id hid => ?_, h.swapped, fun p hp => ?_,
    fun p hp hfin => ?_⟩
  · rw [(hrun p hp).seqId, held_extends (hrun p hp)]
    exact h.running p hp
  · refine h.other id (fun p hp => ?_)
    have := hid p hp
    rwa [(hrun p hp).seqId] at this
  · rw [(hext p (WellFormed.mem_waiting hp)).logicalBlocks]
    exact h.waiting p hp
  · have hx : (st.seq p).isFinished = false := by
      rwa [SequenceData.isFinished, (hrun p hp).status_of_unfinished hfin] at hfin
    rw [(hrun p hp).logicalBlocks]
    exact (h.grown p hp hx).trans (ceilDiv_mono (hrun p hp).totalLen_le cache.blockSize)

end Accounted

/-! ## Releasing finished groups -/

theorem releaseGroups_cons {groups : GroupPtr → SequenceGroup} {p : GroupPtr}
    (hp : (groups p).Single) (bm : BlockManager) (rest : List GroupPtr) :
    releaseGroups groups bm (p :: rest)
      = releaseGroups groups (bm.freeBlocks (groups p).seq.seqId) rest := by
  rw [releaseGroups, List.foldl_cons, hp.sequences]
  rfl

theorem releaseGroups_pool (groups : GroupPtr → SequenceGroup) (ps : List GroupPtr)
    (bm : BlockManager) (hps : ∀ p ∈ ps, (groups p).Single) :
    (releaseGroups groups bm ps).config = bm.config ∧
    ∀ d, ((releaseGroups groups bm ps).blocks d).length = (bm.blocks d).length := by
  induction ps generalizing bm with
  | nil => exact ⟨rfl, fun _ => rfl⟩
  | cons p rest ih =>
      rw [releaseGroups_cons (hps p (List.mem_cons_self ..))]
      obtain ⟨hconf, hlen⟩ := ih (bm.freeBlocks (groups p).seq.seqId)
        (fun q hq => hps q (List.mem_cons_of_mem _ hq))
      exact ⟨hconf.trans (freeBlocks_config bm), fun d => (hlen d).trans (freeBlocks_length bm)⟩

theorem freeFinishedRequests_cache {st : Scheduler} (hwf : st.WellFormed) :
    st.freeFinishedRequests.blockManager.config = st.blockManager.config := by
  rw [freeFinishedRequests_eq]
  exact (releaseGroups_pool st.groups _ st.blockManager
    (fun p hp => hwf.single_of_mem (released_finished hwf hp).1)).1

/-- Releasing a list of groups leaves their sequences without blocks and the others alone. -/
theorem releaseGroups_owned {groups : GroupPtr → SequenceGroup} (ps : List GroupPtr)
    {bm : BlockManager} {own : Owners} (hps : ∀ p ∈ ps, (groups p).Single) (h : Owned bm own) :
    Owned (releaseGroups groups bm ps)
      (fun id => if ∃ p ∈ ps, (groups p).seq.seqId = id then [] else own id) := by
  induction ps generalizing bm own with
  | nil => simpa [releaseGroups] using h
  | cons p rest ih =>
      rw [releaseGroups_cons (hps p (List.mem_cons_self ..))]
      have hrest := ih (fun q hq => hps q (List.mem_cons_of_mem _ hq))
        (h.freeBlocks (groups p).seq.seqId)
      convert hrest using 1
      funext id
      by_cases hex : ∃ q ∈ rest, (groups q).seq.seqId = id
      · obtain ⟨q, hq, hid⟩ := hex
        rw [if_pos ⟨q, List.mem_cons_of_mem _ hq, hid⟩, if_pos ⟨q, hq, hid⟩]
      · rw [if_neg hex]
        by_cases hp : (groups p).seq.seqId = id
        · rw [if_pos ⟨p, List.mem_cons_self .., hp⟩, ← hp, Function.update_self]
        · have hnone : ¬ ∃ q ∈ p :: rest, (groups q).seq.seqId = id := by
            rintro ⟨q, hq, hid⟩
            rcases List.mem_cons.1 hq with rfl | hq
            · exact hp hid
            · exact hex ⟨q, hq, hid⟩
          rw [if_neg hnone, Function.update_of_ne (Ne.symm hp)]

theorem Accounted.freeFinishedRequests {cache : CacheConfig} {st : Scheduler} {own : Owners}
    (h : Accounted cache st own) (hwf : st.WellFormed) :
    ∃ own', Accounted cache st.freeFinishedRequests own' := by
  have hsingle := fun p hp => released_single (p := p) hwf hp
  have hpool := releaseGroups_pool st.groups _ st.blockManager hsingle
  have hstay : ∀ q ∈ st.unfinishedIn st.running,
      q ∈ st.running ∧ (st.seq q).isFinished = false := fun q hq =>
    (unfinishedIn_single hwf (fun _ => WellFormed.mem_running)).1 hq
  rw [freeFinishedRequests_eq]
  refine ⟨_, hpool.1.trans h.config, (hpool.2 _).trans h.pool, releaseGroups_owned _ hsingle h.owned,
    fun q hq => ?_, fun id hid => ?_, h.swapped, fun q hq => ?_, fun q hq => ?_⟩
  · have hne := not_released_seqId hwf (List.mem_append_left _ hq)
    exact (if_neg hne).trans (h.running q (hstay q hq).1)
  · show (if _ then _ else _) = _
    split
    · rfl
    · next hnot =>
        refine h.other id (fun q hq heq => ?_)
        by_cases hfin : (st.seq q).isFinished = true
        · refine hnot ⟨q, List.mem_append_left _ ?_, heq⟩
          exact (finishedIn_single hwf (fun _ => WellFormed.mem_running)).2 ⟨hq, hfin⟩
        · refine hid q ?_ heq
          exact (unfinishedIn_single hwf (fun _ => WellFormed.mem_running)).2
            ⟨hq, by simpa using hfin⟩
  · exact h.waiting q (List.mem_filter.1 hq).1
  · exact h.grown q (hstay q hq).1

/-- The groups that stay in the queues, when nothing is swapped out. -/
theorem Accounted.mem_unfinished_iff {cache : CacheConfig} {st : Scheduler} {own : Owners}
    (h : Accounted cache st own) (hwf : st.WellFormed) {p : GroupPtr} :
    p ∈ st.unfinishedIn st.running ++ (st.unfinishedIn st.waiting ++ st.swapped) ↔
      p ∈ st.queued ∧ (st.seq p).isFinished = false := by
  rw [queued, h.swapped, List.append_nil, List.append_nil, List.mem_append, List.mem_append,
    unfinishedIn_single hwf (fun _ => WellFormed.mem_running),
    unfinishedIn_single hwf (fun _ => WellFormed.mem_waiting), or_and_right]

theorem new_accounted (config : SchedulerConfig) (cache : CacheConfig) :
    ∃ own, Accounted cache (Scheduler.new config (BlockManager.new cache)) own := by
  refine ⟨fun _ => [], rfl, by simp [Scheduler.new, BlockManager.new, initBlocks, countFor],
    owned_new cache, ?_, fun _ _ => rfl, rfl, ?_, ?_⟩
  · exact fun p hp => absurd hp List.not_mem_nil
  · exact fun p hp => absurd hp List.not_mem_nil
  · exact fun p hp => absurd hp List.not_mem_nil

/-! ## A scheduling step in recompute mode -/

/-- Every queued sequence is unfinished, as `free_finished_requests` leaves the queues when nothing is
    swapped out. -/
def AllUnfinished (st : Scheduler) : Prop := ∀ p ∈ st.queued, (st.seq p).isFinished = false

/-- The groups scheduled so far are running and have the blocks `num_blocks_needed` asks for. -/
def ScheduledFilled (bs : Nat) (s : ScheduleState) : Prop :=
  ∀ p ∈ s.output.scheduledGroups, p ∈ s.sched.running ∧
    (s.sched.seq p).numBlocksNeeded bs ≤ (s.sched.seq p).logicalBlocks.length

/-- Between the moves of a step in recompute mode. -/
structure MidRecompute (cache : CacheConfig) (st : Scheduler) (s : ScheduleState) : Prop where
  accounted : ∃ own, Accounted cache s.sched own
  unfinished : ∀ p ∈ st.queued, (s.sched.seq p).isFinished = false
  filled : ScheduledFilled cache.blockSize s

variable {cache : CacheConfig} {st : Scheduler} {s : ScheduleState} {p : GroupPtr}

/-- Rewriting one sequence by an unfinished one leaves all unfinished. -/
theorem unfinished_of_seq {s' : ScheduleState} {x : SequenceData}
    (h : ∀ q ∈ st.queued, (s.sched.seq q).isFinished = false)
    (hseq : ∀ q, s'.sched.seq q = if q = p then x else s.sched.seq q) (hx : x.isFinished = false) :
    ∀ q ∈ st.queued, (s'.sched.seq q).isFinished = false := by
  intro q hq
  rw [hseq]
  split
  · exact hx
  · exact h q hq

theorem MidRecompute.decodeGroup (h : MidRecompute cache st s) (hs : st.MidStep s)
    (hp : p ∈ s.sched.running) (hfits : s.decodeFits p) :
    MidRecompute cache st (s.decodeGroup p) := by
  obtain ⟨own, hacc⟩ := h.accounted
  have hmem : p ∈ s.sched.queued := WellFormed.mem_running hp
  have hsingle := hs.wf.single_of_mem hmem
  have hfin := h.unfinished p (hs.queued.mem_iff.1 hmem)
  obtain ⟨bids, hlen, hseq⟩ := ScheduleState.decodeGroup_seq hsingle hfin
  refine ⟨hacc.decodeGroup hs.wf hp hfin ((hsingle.canAppend _ hfin).1 hfits.2.2),
    unfinished_of_seq h.unfinished hseq hfin, fun q hq => ?_⟩
  have hrun : (s.decodeGroup p).sched.running = s.sched.running := rfl
  rw [hrun, hseq]
  by_cases hqp : q = p
  · subst hqp
    refine ⟨hp, ?_⟩
    rw [missingBlocks, hacc.blockSize] at hlen
    rw [if_pos rfl, List.length_append, hlen]
    exact le_add_tsub
  · rw [if_neg hqp]
    exact h.filled q (mem_of_mem_concat hq hqp)

theorem MidRecompute.admitGroup {rest : List GroupPtr} (h : MidRecompute cache st s)
    (hs : st.MidStep s) (hwait : s.sched.waiting = p :: rest) (hfits : s.prefillFits p) :
    MidRecompute cache st (s.admitGroup p rest) := by
  obtain ⟨own, hacc⟩ := h.accounted
  have hpw : p ∈ s.sched.waiting := by rw [hwait]; exact List.mem_cons_self ..
  have hsingle := hs.wf.single_of_mem (WellFormed.mem_waiting hpw)
  obtain ⟨bids, hlen, hseq⟩ := ScheduleState.admitGroup_seq hsingle rest
  refine ⟨hacc.admitGroup hs.wf hwait (hfits.room hsingle), unfinished_of_seq h.unfinished hseq rfl,
    fun q hq => ?_⟩
  have hrun : (s.admitGroup p rest).sched.running = s.sched.running ++ [p] := rfl
  rw [hrun, hseq]
  by_cases hqp : q = p
  · subst hqp
    refine ⟨List.mem_append_right _ (List.mem_singleton_self q), ?_⟩
    rw [hacc.blockSize] at hlen
    rw [if_pos rfl, hacc.waiting q hpw, List.nil_append]
    exact Nat.le_of_eq hlen.symm
  · rw [if_neg hqp]
    obtain ⟨hqrun, hfilled⟩ := h.filled q (mem_of_mem_concat hq hqp)
    exact ⟨List.mem_append_left _ hqrun, hfilled⟩

theorem MidRecompute.recomputeGroup {init : List GroupPtr} (h : MidRecompute cache st s)
    (hs : st.MidStep s) (hrun : s.sched.running = init ++ [p])
    (hvictim : p ∉ s.output.scheduledGroups) :
    MidRecompute cache st (s.recomputeGroup p init) := by
  obtain ⟨own, hacc⟩ := h.accounted
  have hmem : p ∈ s.sched.queued := WellFormed.mem_running (by rw [hrun]; simp)
  have hsingle := hs.wf.single_of_mem hmem
  have hfin := h.unfinished p (hs.queued.mem_iff.1 hmem)
  have hseq := ScheduleState.recomputeGroup_seq hsingle init hfin
  refine ⟨hacc.recomputeGroup hs.wf hrun hfin, unfinished_of_seq h.unfinished hseq rfl,
    fun q hq => ?_⟩
  have hqp : q ≠ p := fun heq => hvictim (heq ▸ hq)
  obtain ⟨hqrun, hfilled⟩ := h.filled q hq
  rw [hseq, if_neg hqp]
  refine ⟨?_, hfilled⟩
  rw [hrun] at hqrun
  exact mem_of_mem_concat hqrun hqp

theorem MidRecompute.sorted {w : List GroupPtr} (h : MidRecompute cache st s)
    (hperm : w.Perm s.sched.waiting) :
    MidRecompute cache st { s with sched := { s.sched with waiting := w } } := by
  obtain ⟨own, hacc⟩ := h.accounted
  exact ⟨⟨own, hacc.sorted hperm⟩, h.unfinished, h.filled⟩

/-- **Rule for one step in recompute mode** from unfinished queues. -/
theorem afterSwapIn_recompute {P : ScheduleState → Prop} (hwf : st.WellFormed)
    (hmode : st.config.preemptionMode = .recompute) (hunfin : st.AllUnfinished) {own : Owners}
    (hacc : Accounted cache st own) (hbegin : P st.beginSchedule)
    (hdecode : ∀ s p rest, st.MidStep s → MidRecompute cache st s → P s →
      st.DecodesAt (p :: rest) s → (s.sched.seq p).isFinished = false → s.decodeFits p →
      P (s.decodeGroup p))
    (hrecompute : ∀ s init v, st.MidStep s → MidRecompute cache st s → P s → st.PreemptsAt s →
      s.sched.running = init ++ [v] → P (s.recomputeGroup v init))
    (hsort : ∀ s w, P s → w.Perm s.sched.waiting → P { s with sched := { s.sched with waiting := w } })
    (hfront : ∀ s p rest, st.MidStep s → MidRecompute cache st s → P s →
      s.sched.waiting = p :: rest → s.prefillFits p → P (s.admitGroup p rest)) :
    MidRecompute cache st st.afterSwapIn ∧ P st.afterSwapIn := by
  refine (afterSwapIn_wellFormed (P := fun s => MidRecompute cache st s ∧ P s) hwf
    ⟨⟨⟨own, hacc⟩, hunfin, fun q hq => absurd hq List.not_mem_nil⟩, hbegin⟩ ?_ ?_ ?_ ?_ ?_ ?_).2
  · rintro s p rest hs ⟨h, hP⟩ hat hfin hfits
    exact ⟨h.decodeGroup hs hat.mem_running hfits, hdecode s p rest hs h hP hat hfin hfits⟩
  · intro s init v hswap
    rw [hmode] at hswap
    cases hswap
  · rintro s init v - hs ⟨h, hP⟩ hat hrun
    exact ⟨h.recomputeGroup hs hrun (hat.victim_not_scheduled hwf.queues.nodup_running hrun),
      hrecompute s init v hs h hP hat hrun⟩
  · rintro s w - ⟨h, hP⟩ hperm
    exact ⟨h.sorted hperm, hsort s w hP hperm⟩
  · rintro s p rest hs ⟨h, hP⟩ - hwait hfits
    exact ⟨h.admitGroup hs hwait hfits, hfront s p rest hs h hP hwait hfits⟩
  · rintro s p rest - ⟨h, -⟩ hswap
    -- nothing is ever swapped out in this mode
    obtain ⟨own', hacc'⟩ := h.accounted
    rw [hacc'.swapped] at hswap
    cases hswap

/-- A step in recompute mode from unfinished queues keeps the accounts, and every scheduled sequence
    has the blocks `num_blocks_needed` asks for. -/
theorem schedule_accounted (hwf : st.WellFormed) (hmode : st.config.preemptionMode = .recompute)
    (hunfin : st.AllUnfinished) {own : Owners} (hacc : Accounted cache st own) :
    MidRecompute cache st st.afterSwapIn :=
  (afterSwapIn_recompute (P := fun _ => True) hwf hmode hunfin hacc trivial
    (fun _ _ _ _ _ _ _ _ _ => trivial) (fun _ _ _ _ _ _ _ _ => trivial) (fun _ _ _ _ => trivial)
    (fun _ _ _ _ _ _ _ _ => trivial)).1

/-! ## Runs -/

/-- In no queued sequence does the sum of `num_blocks_needed` wrap. -/
def NoWrap (st : Scheduler) : Prop :=
  ∀ p ∈ st.queued, ∀ seq ∈ (st.groups p).sequences, seq.NoWrap st.blockManager.blockSize

instance (st : Scheduler) : Decidable st.NoWrap :=
  inferInstanceAs (Decidable (∀ p ∈ st.queued, _))

/-- `schedule()` makes no sequence longer. -/
theorem MidStep.noWrap {st : Scheduler} {s : ScheduleState} (h : st.MidStep s) (hwf : st.WellFormed)
    (hsum : st.NoWrap) {p : GroupPtr} (hp : p ∈ s.sched.queued) :
    (s.sched.seq p).NoWrap st.blockManager.blockSize := by
  have hmem := h.queued.mem_iff.1 hp
  have hseq : st.seq p ∈ (st.groups p).sequences := by
    rw [(hwf.single_of_mem hmem).sequences]
    exact List.mem_singleton_self _
  exact (hsum p hmem _ hseq).mono (h.totalLen p)

/-- A scheduler together with whether `free_finished_requests` was the last operation on it. -/
structure Client where
  sched : Scheduler
  freed : Bool

namespace Client

def step (c : Client) (op : Op) : Client :=
  { sched := c.sched.step op,
    freed := match op with | .freeFinishedRequests => true | _ => false }

/-- Requests have one sequence and distinct live ids, and `schedule()` comes directly after
    `free_finished_requests`. -/
def Permitted (c : Client) : Op → Prop
  | .addRequest group => c.sched.FreshRequest group
  | .schedule => c.freed = true
  | _ => True

instance (c : Client) : (op : Op) → Decidable (c.Permitted op)
  | .addRequest group => inferInstanceAs (Decidable (c.sched.FreshRequest group))
  | .schedule => inferInstanceAs (Decidable (c.freed = true))
  | .abortRequest _ | .updateAfterDecode .. | .freeFinishedRequests => isTrue trivial

def init (config : SchedulerConfig) (cache : CacheConfig) : Client :=
  { sched := Scheduler.new config (BlockManager.new cache), freed := false }

/-- The invariant of all runs in recompute mode. -/
structure Recomputes (cache : CacheConfig) (c : Client) : Prop where
  wf : c.sched.WellFormed
  mode : c.sched.config.preemptionMode = .recompute
  accounted : ∃ own, Accounted cache c.sched own
  freed : c.freed = true → c.sched.AllUnfinished

theorem init_recomputes {config : SchedulerConfig} (cache : CacheConfig)
    (hmode : config.preemptionMode = .recompute) : Recomputes cache (init config cache) :=
  ⟨new_wellFormed config _, hmode, new_accounted config cache, fun h => by cases h⟩

theorem step_recomputes (cache : CacheConfig) (c : Client) (op : Op) (h : Recomputes cache c)
    (hok : c.Permitted op) : Recomputes cache (c.step op) := by
  obtain ⟨own, hacc⟩ := h.accounted
  cases op with
  | addRequest group =>
      exact ⟨addRequest_wellFormed h.wf hok, h.mode, ⟨own, hacc.addRequest h.wf hok⟩,
        fun hf => by cases hf⟩
  | abortRequest id =>
      refine ⟨abortRequest_wellFormed h.wf id, ?_, hacc.abortRequest h.wf id, fun hf => by cases hf⟩
      simp only [step, Scheduler.step, Scheduler.abortRequest]
      split <;> exact h.mode
  | schedule =>
      have hmid := schedule_accounted h.wf h.mode (h.freed hok) hacc
      have hstep := schedule_midStep h.wf
      exact ⟨hstep.wf, (congrArg SchedulerConfig.preemptionMode hstep.config).trans h.mode,
        hmid.accounted, fun hf => by cases hf⟩
  | updateAfterDecode out toks now =>
      exact ⟨updateAfterDecode_wellFormed h.wf out toks now, h.mode,
        ⟨own, hacc.updateAfterDecode h.wf out toks now⟩, fun hf => by cases hf⟩
  | freeFinishedRequests =>
      have hwf := freeFinishedRequests_wellFormed h.wf
      refine ⟨hwf, ?_, hacc.freeFinishedRequests h.wf, fun _ p hp => ?_⟩
      · simp only [step, Scheduler.step, freeFinishedRequests_eq]
        exact h.mode
      · simp only [step, Scheduler.step, freeFinishedRequests_eq] at hp ⊢
        exact ((hacc.mem_unfinished_iff h.wf).1 hp).2

theorem reach_recomputes {config : SchedulerConfig} {cache : CacheConfig} {c : Client}
    (hmode : config.preemptionMode = .recompute)
    (h : Run.Reach step Permitted (init config cache) c) : Recomputes cache c :=
  h.invariant (init_recomputes cache hmode) (step_recomputes cache)

/-- **Block accounting in recompute mode.** Between any two operations the free list and the blocks of
    the running, not aborted sequences are the pool; the reference counts, `seq_block_map_` and the
    waiting queue agree; and a scheduled sequence has exactly the blocks its tokens fill, if no queued
    sequence wraps the sum in `num_blocks_needed`. -/
theorem recompute_accounting {config : SchedulerConfig} {cache : CacheConfig} {c : Client}
    (hmode : config.preemptionMode = .recompute)
    (h : Run.Reach step Permitted (init config cache) c) :
    (c.sched.blockManager.freeList .cuda ++ c.sched.heldBlocks).Perm
      ((List.range cache.numGpuBlocks).map (fun i : Nat => (i : BlockId))) ∧
    (∀ b ∈ c.sched.heldBlocks, c.sched.blockManager.refCount .cuda b = 1) ∧
    (∀ b ∈ c.sched.blockManager.freeList .cuda, c.sched.blockManager.refCount .cuda b = 0) ∧
    (∀ p ∈ c.sched.running, ∀ seq ∈ (c.sched.groups p).sequences, seq.status ≠ .finishedAbort →
      c.sched.blockManager.seqBlocks seq.seqId = seq.logicalBlocks.map (Prod.mk .cuda)) ∧
    (∀ p ∈ c.sched.waiting, ∀ seq ∈ (c.sched.groups p).sequences,
      seq.logicalBlocks = [] ∧ c.sched.blockManager.seqBlocks seq.seqId = []) ∧
    (c.Permitted .schedule → c.sched.NoWrap → ∀ p ∈ c.sched.schedule.1.scheduledGroups,
      ∀ seq ∈ (c.sched.schedule.2.groups p).sequences,
      seq.logicalBlocks.length = seq.totalLen ⌈/⌉ cache.blockSize) := by
  have hinv := reach_recomputes hmode h
  obtain ⟨own, hacc⟩ := hinv.accounted
  have hone : ∀ p ∈ c.sched.queued, ∀ seq ∈ (c.sched.groups p).sequences,
      seq = c.sched.seq p := by
    intro p hp seq hseq
    rw [(hinv.wf.single_of_mem hp).sequences] at hseq
    exact List.mem_singleton.1 hseq
  refine ⟨hacc.perm_pool hinv.wf, fun b hb => ?_, fun b hb => hacc.owned.refCount_free hb,
    fun p hp seq hseq hs => ?_, fun p hp seq hseq => ?_, fun hok hsum p hp seq hseq => ?_⟩
  · rw [heldBlocks_eq hinv.wf] at hb
    obtain ⟨p, hp, hbp⟩ := List.mem_flatMap.1 hb
    rw [← hacc.running p hp] at hbp
    exact hacc.owned.refCount_owned hbp
  · obtain rfl := hone p (WellFormed.mem_running hp) seq hseq
    rw [hacc.owned.seqBlocks, hacc.running p hp, held, if_neg hs]
  · obtain rfl := hone p (WellFormed.mem_waiting hp) seq hseq
    refine ⟨hacc.waiting p hp, ?_⟩
    rw [hacc.owned.seqBlocks, hacc.own_waiting hinv.wf hp]
    rfl
  · have hmid := schedule_accounted hinv.wf hinv.mode (hinv.freed hok) hacc
    have hstep := schedule_midStep hinv.wf
    obtain ⟨hrun, hfilled⟩ := hmid.filled p hp
    obtain ⟨own', hacc'⟩ := hmid.accounted
    have hmem := WellFormed.mem_running hrun
    have hfin := hmid.unfinished p (hstep.queued.mem_iff.1 hmem)
    have hwrap := hstep.noWrap hinv.wf hsum hmem
    have heq : seq ∈ [c.sched.afterSwapIn.sched.seq p] :=
      (hstep.wf.single_of_mem hmem).sequences ▸ hseq
    rw [hacc.blockSize] at hwrap
    rw [List.mem_singleton.1 heq]
    exact hwrap.length_eq hfilled (hacc'.grown p hrun hfin)

def wrappingCache : CacheConfig := { numGpuBlocks := 1, numCpuBlocks := 0, blockSize := 2 ^ 64 - 1 }

/-- One request of two tokens: with a block size of `2^64 - 1` the sum wraps to 0. -/
def wrappingEnd : Client :=
  [.addRequest (.new 1 [7, 8] {}), .freeFinishedRequests].foldl step
    (init { preemptionMode := .recompute } wrappingCache)

/-- It is scheduled without the block its tokens need. -/
theorem wrappingEnd_unfilled :
    Run.Reach step Permitted (init { preemptionMode := .recompute } wrappingCache) wrappingEnd ∧
    wrappingEnd.Permitted .schedule ∧
    ¬ ∀ p ∈ wrappingEnd.sched.schedule.1.scheduledGroups,
      ∀ seq ∈ (wrappingEnd.sched.schedule.2.groups p).sequences,
      seq.logicalBlocks.length = seq.totalLen ⌈/⌉ wrappingCache.blockSize :=
  ⟨Run.Reach.of_allOk _ (by decide), by decide, by decide⟩

/-- Two requests on a pool of two blocks of one token: the second `schedule()` cannot grow the first
    request, preempts the other one and admits it again with the block it lost. -/
def preemptingRun : List Op :=
  [.addRequest (.new 1 [7] {}), .addRequest (.new 2 [8] {}), .freeFinishedRequests, .schedule,
    .updateAfterDecode { scheduledGroups := [0, 1] } [9, 9] 0, .freeFinishedRequests, .schedule]

def preemptingEnd : Client :=
  preemptingRun.foldl step (init { preemptionMode := .recompute }
    { numGpuBlocks := 2, numCpuBlocks := 0, blockSize := 1 })

theorem preemptingRun_accounting :
    preemptingEnd.sched.heldBlocks = [0, 1] ∧
    (preemptingEnd.sched.blockManager.freeList .cuda ++ preemptingEnd.sched.heldBlocks).Perm
      [0, 1] := by
  refine ⟨by decide, ?_⟩
  exact (recompute_accounting rfl (Run.Reach.of_allOk preemptingRun (by decide))).1

end Client

end Scheduler

end CacheFlow
