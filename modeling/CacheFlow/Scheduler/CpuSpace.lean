import CacheFlow.Scheduler.Census
import CacheFlow.Scheduler.Coverage
import CacheFlow.Scheduler.Episodes

set_option autoImplicit false

/-! # The swap space on the CPU

A CPU block is taken in one place, `preempt`, and given back in one, `free_blocks`, which is called for
a sequence that is aborted or has finished. `try_swap_in` gives nothing back: the sequence gets new GPU
blocks and the entries of its CPU blocks stay in `seq_block_map_`. If it is preempted again, it takes
as many CPU blocks as if it had none.

What the map records for the queued sequences is therefore at least what the swapped ones need, and
the blocks in use are what is recorded (`CpuLedger`). The two agree in every state of a run exactly as
long as no call brings back a sequence that has blocks. -/

namespace CacheFlow

namespace BlockManager

variable {bm bm' : BlockManager} {n : Nat} {s : SeqId} {d : DeviceType} {b : BlockId}

/-! ## CPU blocks and their entries -/

/-- The number of CPU blocks that `free_blocks` releases for a sequence. -/
def cpuEntries (bm : BlockManager) (s : SeqId) : Nat :=
  (bm.seqBlocks s).countP (fun e => e.1 = .cpu)

/-- The CPU has `n` blocks with at most one reference each, and all ids that are kept name blocks. -/
structure CpuCounted (n : Nat) (bm : BlockManager) : Prop where
  pool : (bm.blocks .cpu).length = n
  count : ∀ b, bm.refCount .cpu b ≤ 1
  free : bm.FreeInRange
  entries : bm.EntriesInRange

theorem cpuCounted_new (cache : CacheConfig) :
    CpuCounted cache.numCpuBlocks (BlockManager.new cache) := by
  refine ⟨by simp [BlockManager.new, initBlocks, countFor], ?_, freeInRange_new cache, ?_⟩
  · intro b
    rw [(counts_new cache).refCount]
    decide
  · intro s e he
    exact absurd he List.not_mem_nil

theorem CpuCounted.handed {bids : List BlockId} (h : CpuCounted n bm) (hh : Handed bm bm' s d bids) :
    CpuCounted n bm' :=
  ⟨(hh.length .cpu).trans h.pool, hh.refCount_le h.count, hh.freeInRange h.free,
    hh.entriesInRange h.free h.entries⟩

theorem CpuCounted.allocateBlock (h : CpuCounted n bm) (s : SeqId) (d : DeviceType) :
    CpuCounted n (bm.allocateBlock s d).2 := by
  cases hfl : bm.freeList d with
  | nil =>
      rw [allocateBlock_nil bm hfl]
      exact h
  | cons b rest =>
      have hb : bm.InRange d b := h.free d b (by rw [hfl]; exact List.mem_cons_self ..)
      have ha := (bm.allocateBlock_cons (s := s) hfl hb).2
      exact h.handed ((Handed.nil (bm.allocateBlock s d).2 s d).cons hfl ha)

theorem freeBlock_refCount_of_ne (bm : BlockManager) (b b' : BlockId) {d d' : DeviceType}
    (hd : d' ≠ d) : (bm.freeBlock b d).refCount d' b' = bm.refCount d' b' := by
  cases hget : bm.getBlock b d with
  | none => simp [BlockManager.freeBlock, hget]
  | some blk => rw [freeBlock_refCount bm (inRange_of_getBlock hget), if_neg (fun h => hd h.1)]

theorem CpuCounted.freeBlock (h : CpuCounted n bm) (b : BlockId) :
    CpuCounted n (bm.freeBlock b .cuda) := by
  refine ⟨(freeBlock_length bm).trans h.pool, ?_, h.free.freeBlock b .cuda,
    h.entries.freeBlock b .cuda⟩
  intro b'
  rw [freeBlock_refCount_of_ne bm b b' (by decide)]
  exact h.count b'

/-- Releasing a sequence gives back as many CPU blocks as it has entries for. -/
theorem CpuCounted.freeBlocks (h : CpuCounted n bm) (s : SeqId) :
    CpuCounted n (bm.freeBlocks s) ∧
      ((bm.freeBlocks s).freeList .cpu).length = (bm.freeList .cpu).length + bm.cpuEntries s := by
  obtain ⟨hcount, hlen⟩ := freeBlocks_pushed h.count h.entries s
  exact ⟨⟨(freeBlocks_length bm).trans h.pool, hcount, h.free.freeBlocks s, h.entries.freeBlocks s⟩,
    hlen⟩

theorem cpuCounted_stable (n : Nat) : Stable (CpuCounted n) :=
  ⟨fun _ s d h => h.allocateBlock s d, fun _ b h => h.freeBlock b, fun _ s h => (h.freeBlocks s).1⟩

theorem cpuEntries_freeBlocks (bm : BlockManager) (s s' : SeqId) :
    (bm.freeBlocks s).cpuEntries s' = if s' = s then 0 else bm.cpuEntries s' := by
  rw [cpuEntries, freeBlocks_seqBlocks]
  split
  · rfl
  · rfl

/-- GPU blocks leave no entry for the CPU. -/
theorem cpuEntries_handed {bids : List BlockId} (hh : Handed bm bm' s .cuda bids) (s' : SeqId) :
    bm'.cpuEntries s' = bm.cpuEntries s' := by
  rw [cpuEntries, hh.seqBlocks, cpuEntries]
  by_cases hs : s' = s
  · subst hs
    rw [if_pos rfl, List.countP_append, List.countP_map, Nat.add_eq_left]
    exact List.countP_eq_zero.2 (fun _ _ => by simp)
  · rw [if_neg hs]

end BlockManager

open BlockManager SequenceData

/-- Swapping out a sequence leaves an entry for each CPU block it takes. -/
theorem swapOutSequence_cpuEntries (st : BlockManager × List BlockOp) (x : SequenceData)
    (hn : x.liveBlocks.length ≤ (st.1.freeList .cpu).length) (hin : st.1.FreeInRange) (s : SeqId) :
    (swapOutSequence st x).2.1.cpuEntries s
      = st.1.cpuEntries s + if s = x.seqId then x.liveBlocks.length else 0 := by
  by_cases hfin : x.isFinished = true
  · rw [swapOutSequence, if_pos hfin, liveBlocks_of_finished hfin]
    simp
  · have hfin' : x.isFinished = false := by simpa using hfin
    rw [liveBlocks_of_unfinished hfin'] at hn ⊢
    obtain ⟨hblocks, -, -⟩ := swapOutBlocks_spec x.seqId x.logicalBlocks st hn hin
    rw [swapOutSequence_of_unfinished hfin', cpuEntries, hblocks, cpuEntries]
    by_cases hs : s = x.seqId
    · subst hs
      rw [if_pos rfl, if_pos rfl, List.countP_append, List.countP_map,
        ← swapOutBlocks_length x.seqId x.logicalBlocks st]
      congr 1
      exact List.countP_eq_length.2 (fun _ _ => by simp)
    · simp [hs]

namespace Scheduler

open ScheduleState

/-! ## The ledger -/

/-- The CPU blocks a queued group needs: those of its unfinished sequence while it is swapped. -/
def cpuNeeded (st : Scheduler) (p : GroupPtr) : Nat :=
  if p ∈ st.swapped then (st.seq p).liveBlocks.length else 0

/-- The CPU blocks `seq_block_map_` records for a group. -/
def cpuRecorded (st : Scheduler) (p : GroupPtr) : Nat :=
  st.blockManager.cpuEntries (st.seq p).seqId

/-- Every CPU block is free or recorded for a queued group, and what each group needs is related by `R`
    to what is recorded for it. -/
structure CpuLedger (n : Nat) (R : Nat → Nat → Prop) (st : Scheduler) : Prop where
  wf : st.WellFormed
  counted : CpuCounted n st.blockManager
  total : (st.blockManager.freeList .cpu).length + (st.queued.map st.cpuRecorded).sum = n
  needed : ∀ p ∈ st.queued, R (st.cpuNeeded p) (st.cpuRecorded p)
  other : ∀ id, (∀ p ∈ st.queued, (st.seq p).seqId ≠ id) → st.blockManager.cpuEntries id = 0

/-- The relations between what is needed and what is recorded that taking CPU blocks keeps. -/
structure Taking (R : Nat → Nat → Prop) : Prop where
  none : R 0 0
  take : ∀ m k, R 0 m → R k (m + k)

theorem taking_le : Taking (· ≤ ·) :=
  ⟨Nat.le_refl 0, fun m k _ => Nat.le_add_left k m⟩

theorem taking_eq : Taking (· = ·) :=
  ⟨rfl, fun m k h => by omega⟩

namespace CpuLedger

variable {n : Nat} {R : Nat → Nat → Prop} {st : Scheduler} {p : GroupPtr}

theorem new (R : Nat → Nat → Prop) (config : SchedulerConfig) (cache : CacheConfig) :
    CpuLedger cache.numCpuBlocks R (Scheduler.new config (BlockManager.new cache)) := by
  refine ⟨new_wellFormed config _, cpuCounted_new cache, ?_, ?_, fun _ _ => rfl⟩
  · simp [Scheduler.new, queued, BlockManager.new, initFreeList, countFor]
  · exact fun p hp => absurd hp List.not_mem_nil

/-- What is recorded for a group that is not swapped. -/
theorem recorded (h : CpuLedger n R st) (hp : p ∈ st.queued) (hnot : p ∉ st.swapped) :
    R 0 (st.cpuRecorded p) := by
  have hneeded := h.needed p hp
  rwa [cpuNeeded, if_neg hnot] at hneeded

/-- What is recorded after sequence `x` has replaced the one of `p`. -/
theorem recorded_put (h : CpuLedger n R st) (hp : p ∈ st.queued) {x : SequenceData}
    {bm : BlockManager} {running waiting swapped : List GroupPtr} (hx : x.seqId = (st.seq p).seqId)
    (hother : ∀ id, id ≠ (st.seq p).seqId → bm.cpuEntries id = st.blockManager.cpuEntries id)
    {q : GroupPtr} (hq : q ∈ st.queued) :
    { st.putSequences p [x] bm with
      running := running, waiting := waiting, swapped := swapped }.cpuRecorded q
      = if q = p then bm.cpuEntries (st.seq p).seqId else st.cpuRecorded q := by
  rw [cpuRecorded, seq_of_groups rfl q]
  by_cases hqp : q = p
  · rw [if_pos hqp, if_pos hqp, hx]
    rfl
  · rw [if_neg hqp, if_neg hqp]
    exact hother _ (fun heq => hqp (h.wf.eq_of_seqId hq hp heq))

/-- **Moving one group.** Sequence `x` replaces the one of `p`, whose map entry is the only one to
    change, and `p` changes queues. -/
theorem move (h : CpuLedger n R st) (hp : p ∈ st.queued) {x : SequenceData} {bm : BlockManager}
    {running waiting swapped : List GroupPtr} (hx : x.seqId = (st.seq p).seqId)
    (hcounted : CpuCounted n bm)
    (hother : ∀ id, id ≠ (st.seq p).seqId → bm.cpuEntries id = st.blockManager.cpuEntries id)
    (hfree : (bm.freeList .cpu).length + bm.cpuEntries (st.seq p).seqId
      = (st.blockManager.freeList .cpu).length + st.cpuRecorded p)
    (hq : (running ++ (waiting ++ swapped)).Perm st.queued)
    (hswap : ∀ q, q ≠ p → (q ∈ swapped ↔ q ∈ st.swapped))
    (hneeded : R (if p ∈ swapped then x.liveBlocks.length else 0)
      (bm.cpuEntries (st.seq p).seqId)) :
    CpuLedger n R { st.putSequences p [x] bm with
      running := running, waiting := waiting, swapped := swapped } := by
  refine ⟨h.wf.put bm hx hq, hcounted, ?_, ?_, ?_⟩
  · have hsum := sum_map_ite_of_mem (f := st.cpuRecorded) (n := bm.cpuEntries (st.seq p).seqId)
      h.wf.nodup hp
    have htotal := h.total
    show (bm.freeList .cpu).length + ((running ++ (waiting ++ swapped)).map _).sum = n
    rw [(hq.map _).sum_eq, List.map_congr_left (fun q hq' => h.recorded_put hp hx hother hq')]
    omega
  · intro q hqq
    have hq' : q ∈ st.queued := hq.mem_iff.1 hqq
    rw [h.recorded_put hp hx hother hq', cpuNeeded, seq_of_groups rfl q]
    by_cases hqp : q = p
    · subst hqp
      rw [if_pos rfl, if_pos rfl]
      exact hneeded
    · rw [if_neg hqp, if_neg hqp]
      simp only [hswap q hqp]
      exact h.needed q hq'
  · intro id hid
    have hidp : id ≠ (st.seq p).seqId := fun heq =>
      hid p (hq.mem_iff.2 hp) (by rw [seq_of_groups rfl p, if_pos rfl, hx, heq])
    refine (hother id hidp).trans (h.other id ?_)
    intro q hq' heq
    have hqp : q ≠ p := fun heq' => hidp (by rw [← heq, heq'])
    exact hid q (hq.mem_iff.2 hq') (by rw [seq_of_groups rfl q, if_neg hqp]; exact heq)

/-! ### The moves of a scheduling step -/

/-- A group that takes GPU blocks and is not swapped before or after. -/
theorem moveHanded (h : CpuLedger n R st) (hp : p ∈ st.queued) (hnot : p ∉ st.swapped)
    {x : SequenceData} {bm : BlockManager} {bids : List BlockId} {running waiting : List GroupPtr}
    (hx : x.seqId = (st.seq p).seqId)
    (hhand : Handed st.blockManager bm (st.seq p).seqId .cuda bids)
    (hq : (running ++ (waiting ++ st.swapped)).Perm st.queued) :
    CpuLedger n R { st.putSequences p [x] bm with running := running, waiting := waiting } := by
  refine h.move hp hx (h.counted.handed hhand) (fun id _ => cpuEntries_handed hhand id) ?_ hq
    (fun _ _ => Iff.rfl) ?_
  · rw [hhand.freeList_ne .cpu (by decide), cpuEntries_handed hhand, cpuRecorded]
  · rw [if_neg (show p ∉ (st.putSequences p [x] bm).swapped from hnot), cpuEntries_handed hhand]
    exact h.recorded hp hnot

theorem decodeGroup {s : ScheduleState} (h : CpuLedger n R s.sched) (hp : p ∈ s.sched.running)
    (hfin : (s.sched.seq p).isFinished = false)
    (hfits : missingBlocks s.sched.blockManager (s.sched.seq p)
      ≤ (s.sched.blockManager.freeList .cuda).length) : CpuLedger n R (s.decodeGroup p).sched := by
  have hmem : p ∈ s.sched.queued := WellFormed.mem_running hp
  obtain ⟨bids, -, hseq, hhand⟩ := allocateFor_handed s.sched.blockManager (s.sched.seq p) _ hfits
    (h.counted.free .cuda)
  rw [decodeGroup_sched (h.wf.single_of_mem hmem), appendBlocks_of_unfinished hfin, hseq]
  exact h.moveHanded hmem (h.wf.queues.disjoint_running_swapped hp) rfl hhand (List.Perm.refl _)

theorem admitGroup {s : ScheduleState} {rest : List GroupPtr} (h : CpuLedger n R s.sched)
    (hwait : s.sched.waiting = p :: rest)
    (hfits : (s.sched.seq p).numBlocksNeeded s.sched.blockManager.blockSize
      ≤ (s.sched.blockManager.freeList .cuda).length) :
    CpuLedger n R (s.admitGroup p rest).sched := by
  have hp : p ∈ s.sched.waiting := by rw [hwait]; exact List.mem_cons_self ..
  have hmem : p ∈ s.sched.queued := WellFormed.mem_waiting hp
  obtain ⟨bids, -, hseq, hhand⟩ := prefillSequence_handed s.sched.blockManager (s.sched.seq p) _
    hfits (h.counted.free .cuda)
  rw [admitGroup_sched (h.wf.single_of_mem hmem), hseq]
  refine h.moveHanded hmem (h.wf.queues.disjoint_waiting_swapped hp) rfl hhand (List.Perm.of_eq ?_)
  rw [queued, hwait]
  simp

/-- A preempted group takes as many CPU blocks as it needs. -/
theorem swapOutGroup {s : ScheduleState} {init : List GroupPtr} {v : GroupPtr} (hR : Taking R)
    (h : CpuLedger n R s.sched) (hv : s.sched.running = init ++ [v])
    (hcpu : (s.sched.seq v).liveBlocks.length ≤ (s.sched.blockManager.freeList .cpu).length) :
    CpuLedger n R (s.swapOutGroup v init).sched := by
  have hrun : v ∈ s.sched.running := by rw [hv]; simp
  have hmem : v ∈ s.sched.queued := WellFormed.mem_running hrun
  have hsingle := h.wf.single_of_mem hmem
  obtain ⟨dsts, hmoved, hlive, hlen, -, hfree, -, -⟩ := swapOutSequence_spec
    (s.sched.blockManager, s.output.blockSwapsOut) (s.sched.seq v) hcpu h.counted.free
  have hentries := swapOutSequence_cpuEntries (s.sched.blockManager, s.output.blockSwapsOut)
    (s.sched.seq v) hcpu h.counted.free
  have hcounted := swapOutSequence_stable (cpuCounted_stable n)
    (s.sched.blockManager, s.output.blockSwapsOut) [s.sched.seq v] h.counted
  rw [swapOutGroup_sched hsingle]
  refine h.move hmem hmoved.seqId hcounted ?_ ?_ ?_ ?_ ?_
  · intro id hid
    rw [hentries, if_neg hid, Nat.add_zero]
  · have hcount := congrArg List.length hfree
    rw [List.length_append, hlen] at hcount
    rw [hentries, if_pos rfl, cpuRecorded]
    dsimp only at hcount ⊢
    omega
  · rw [queued, hv]
    exact perm_swapOut _ _ _ _
  · intro q hqv
    exact ⟨fun hq => mem_of_mem_concat hq hqv, fun hq => List.mem_append_left _ hq⟩
  · rw [if_pos (List.mem_append_right _ (List.mem_singleton_self v)), hlive, hlen, hentries,
      if_pos rfl]
    exact hR.take _ _ (h.recorded hmem (h.wf.queues.disjoint_running_swapped hrun))

/-- Swapping in a group leaves all that is recorded for the CPU. -/
theorem recorded_swapInGroup {s : ScheduleState} {rest : List GroupPtr} (h : CpuLedger n R s.sched)
    (hswap : s.sched.swapped = p :: rest)
    (hfits : (s.sched.seq p).liveBlocks.length ≤ (s.sched.blockManager.freeList .cuda).length)
    (q : GroupPtr) : (s.swapInGroup p rest).sched.cpuRecorded q = s.sched.cpuRecorded q := by
  have hmem : p ∈ s.sched.queued := WellFormed.mem_swapped (by rw [hswap]; simp)
  obtain ⟨dsts, hmoved, -, -, -, hhand⟩ := swapInSequence_spec
    (s.sched.blockManager, s.output.blockSwapsIn) (s.sched.seq p) hfits h.counted.free
  have hid : ((s.swapInGroup p rest).sched.seq q).seqId = (s.sched.seq q).seqId := by
    rw [swapInGroup_sched (h.wf.single_of_mem hmem), seq_of_groups rfl q]
    split
    · next hqp => rw [hqp, hmoved.seqId]
    · rfl
  rw [cpuRecorded, hid, swapInGroup_sched (h.wf.single_of_mem hmem)]
  exact cpuEntries_handed hhand _

/-- A group that is swapped in needs no CPU block any more. -/
theorem swapInGroup {s : ScheduleState} {rest : List GroupPtr} (h : CpuLedger n R s.sched)
    (hswap : s.sched.swapped = p :: rest)
    (hfits : (s.sched.seq p).liveBlocks.length ≤ (s.sched.blockManager.freeList .cuda).length)
    (hback : ∀ m, R (s.sched.seq p).liveBlocks.length m → R 0 m) :
    CpuLedger n R (s.swapInGroup p rest).sched := by
  have hin : p ∈ s.sched.swapped := by rw [hswap]; exact List.mem_cons_self ..
  have hmem : p ∈ s.sched.queued := WellFormed.mem_swapped hin
  have hrest : p ∉ rest := h.wf.queues.not_mem_rest_swapped hswap
  obtain ⟨dsts, hmoved, -, -, -, hhand⟩ := swapInSequence_spec
    (s.sched.blockManager, s.output.blockSwapsIn) (s.sched.seq p) hfits h.counted.free
  have hentries := cpuEntries_handed hhand
  rw [swapInGroup_sched (h.wf.single_of_mem hmem)]
  refine h.move hmem hmoved.seqId (h.counted.handed hhand) (fun id _ => hentries id) ?_ ?_ ?_ ?_
  · rw [hhand.freeList_ne .cpu (by decide), hentries, cpuRecorded]
  · rw [queued, hswap]
    exact perm_swapIn _ _ _ _
  · intro q hqp
    rw [hswap, List.mem_cons]
    exact ⟨Or.inr, fun hq => hq.resolve_left hqp⟩
  · have hneeded := h.needed p hmem
    rw [cpuNeeded, if_pos hin] at hneeded
    rw [if_neg hrest, hentries]
    exact hback _ hneeded

theorem sorted (h : CpuLedger n R st) {w : List GroupPtr} (hperm : w.Perm st.waiting) :
    CpuLedger n R { st with waiting := w } := by
  have hq : (st.running ++ (w ++ st.swapped)).Perm st.queued :=
    List.Perm.append_left _ (List.Perm.append_right _ hperm)
  refine ⟨h.wf.transfer hq rfl rfl (fun _ => rfl) (fun _ _ hs => hs), h.counted, ?_,
    fun q hq' => h.needed q (hq.mem_iff.1 hq'), fun id hid => h.other id (fun q hq' =>
      hid q (hq.mem_iff.2 hq'))⟩
  exact (congrArg _ (hq.map st.cpuRecorded).sum_eq).trans h.total

/-! ### The other operations -/

theorem addRequest (hR : Taking R) (h : CpuLedger n R st) {group : SequenceGroup}
    (hfresh : st.FreshRequest group) : CpuLedger n R (st.addRequest group) := by
  have hperm := st.addRequest_queued group
  have hold := h.wf.seq_addRequest group
  have hsame : ∀ q ∈ st.queued, (st.addRequest group).cpuRecorded q = st.cpuRecorded q := by
    intro q hq
    rw [cpuRecorded, hold q hq]
    rfl
  -- the id of the new group is that of no queued one, so nothing is recorded for it
  have hid : ((st.addRequest group).seq st.next).seqId = group.requestId := by
    rw [hfresh.seq_next]
  have hnew : (st.addRequest group).cpuRecorded st.next = 0 := by
    refine h.other _ ?_
    intro q hq
    rw [hid, h.wf.seqId hq]
    exact hfresh.2 q hq
  have hnext : st.next ∉ st.swapped := fun hmem =>
    Nat.lt_irrefl _ (h.wf.stored _ (WellFormed.mem_swapped hmem))
  refine ⟨addRequest_wellFormed h.wf hfresh, h.counted, ?_, ?_, ?_⟩
  · rw [(hperm.map _).sum_eq, List.map_cons, List.sum_cons, hnew, List.map_congr_left hsame,
      Nat.zero_add]
    exact h.total
  · intro q hq
    rcases List.mem_cons.1 (hperm.mem_iff.1 hq) with rfl | hq
    · rw [hnew, cpuNeeded, if_neg (show st.next ∉ (st.addRequest group).swapped from hnext)]
      exact hR.none
    · rw [hsame q hq, cpuNeeded, hold q hq]
      exact h.needed q hq
  · intro id hid
    refine h.other id ?_
    intro q hq
    rw [← hold q hq]
    exact hid q (hperm.mem_iff.2 (List.mem_cons_of_mem _ hq))

/-- An aborted sequence gives back all CPU blocks recorded for it. -/
theorem abortRequest (hR : Taking R) (h : CpuLedger n R st) (id : SeqId) :
    CpuLedger n R (st.abortRequest id) := by
  cases hp : st.requestMap.lookup id with
  | none =>
      simp only [Scheduler.abortRequest, hp]
      exact h
  | some p =>
      have hmem := (h.wf.named id p hp).1
      have hwf := abortRequest_wellFormed h.wf id
      rw [abortRequest_eq h.wf hp] at hwf ⊢
      suffices hput : CpuLedger n R { st.putSequences p
          [(abortSequence st.blockManager (st.seq p)).1]
          (abortSequence st.blockManager (st.seq p)).2 with
            running := st.running, waiting := st.waiting, swapped := st.swapped } from
        ⟨hwf, hput.counted, hput.total, hput.needed, hput.other⟩
      by_cases hfin : (st.seq p).isFinished = true
      · rw [abortSequence, if_pos hfin]
        exact h.move hmem rfl h.counted (fun _ _ => rfl) rfl (List.Perm.refl _)
          (fun _ _ => Iff.rfl) (h.needed p hmem)
      · obtain ⟨hcounted, hfree⟩ := h.counted.freeBlocks (st.seq p).seqId
        have hentries := cpuEntries_freeBlocks st.blockManager (st.seq p).seqId
        rw [abortSequence, if_neg hfin]
        refine h.move hmem rfl hcounted ?_ ?_ (List.Perm.refl _) (fun _ _ => Iff.rfl) ?_
        · intro id' hid
          rw [hentries, if_neg hid]
        · rw [hentries, if_pos rfl, hfree, cpuRecorded, Nat.add_zero]
        · rw [hentries, if_pos rfl]
          have hlive : ({ st.seq p with status := .finishedAbort } : SequenceData).liveBlocks = [] :=
            rfl
          rw [hlive, List.length_nil, ite_self]
          exact hR.none

/-- An update that touches no swapped group leaves the ledger. -/
theorem updateAfterDecode (h : CpuLedger n R st) {out : SchedulerOutput}
    (hout : ∀ p ∈ out.scheduledGroups, p ∉ st.swapped) (toks : List TokenId) (now : TimePoint) :
    CpuLedger n R (st.updateAfterDecode out toks now) := by
  have hid : ∀ q ∈ st.queued, ((st.updateAfterDecode out toks now).seq q).seqId
      = (st.seq q).seqId := fun q hq =>
    (h.wf.extends_updateAfterDecode out toks now q hq).seqId
  have hrecorded : ∀ q ∈ st.queued, (st.updateAfterDecode out toks now).cpuRecorded q
      = st.cpuRecorded q := by
    intro q hq
    rw [cpuRecorded, hid q hq]
    rfl
  refine ⟨updateAfterDecode_wellFormed h.wf out toks now, h.counted, ?_, ?_, ?_⟩
  · show _ + (st.queued.map _).sum = n
    rw [List.map_congr_left hrecorded]
    exact h.total
  · intro q hq
    have hneeded := h.needed q hq
    rw [hrecorded q hq, cpuNeeded]
    by_cases hswap : q ∈ st.swapped
    · have hseq : (st.updateAfterDecode out toks now).seq q = st.seq q :=
        congrArg SequenceGroup.seq
          (BatchManager.updateGroups_of_not_mem now _ _ _ (fun hmem => hout q hmem hswap))
      rw [hseq]
      exact hneeded
    · rw [cpuNeeded, if_neg hswap] at hneeded
      rw [if_neg (show q ∉ (st.updateAfterDecode out toks now).swapped from hswap)]
      exact hneeded
  · intro id hno
    refine h.other id ?_
    intro q hq
    rw [← hid q hq]
    exact hno q hq

end CpuLedger

/-- Releasing a list of groups gives back the CPU blocks recorded for them. -/
theorem releaseGroups_cpu {n : Nat} {groups : GroupPtr → SequenceGroup} (ps : List GroupPtr)
    (bm : BlockManager) (hps : ∀ p ∈ ps, (groups p).Single)
    (hids : (ps.map (fun p => (groups p).seq.seqId)).Nodup) (h : CpuCounted n bm) :
    ((releaseGroups groups bm ps).freeList .cpu).length
      = (bm.freeList .cpu).length + (ps.map (fun p => bm.cpuEntries (groups p).seq.seqId)).sum := by
  induction ps generalizing bm with
  | nil => rfl
  | cons p rest ih =>
      rw [List.map_cons, List.nodup_cons] at hids
      obtain ⟨hcounted, hfree⟩ := h.freeBlocks (groups p).seq.seqId
      -- the entries of the later groups are not touched by the first release
      have hsame : ∀ q ∈ rest, (bm.freeBlocks (groups p).seq.seqId).cpuEntries (groups q).seq.seqId
          = bm.cpuEntries (groups q).seq.seqId := by
        intro q hq
        rw [cpuEntries_freeBlocks, if_neg]
        exact fun heq => hids.1 (List.mem_map.2 ⟨q, hq, heq⟩)
      rw [releaseGroups_cons (hps p (List.mem_cons_self ..)),
        ih _ (fun q hq => hps q (List.mem_cons_of_mem _ hq)) hids.2 hcounted, hfree,
        List.map_congr_left hsame, List.map_cons, List.sum_cons, Nat.add_assoc]

theorem cpuEntries_releaseGroups {groups : GroupPtr → SequenceGroup} (ps : List GroupPtr)
    (bm : BlockManager) (hps : ∀ p ∈ ps, (groups p).Single) (id : SeqId) :
    (releaseGroups groups bm ps).cpuEntries id
      = if ∃ p ∈ ps, (groups p).seq.seqId = id then 0 else bm.cpuEntries id := by
  rw [cpuEntries, releaseGroups_seqBlocks ps bm hps]
  split
  · rfl
  · rfl

theorem CpuLedger.freeFinishedRequests {n : Nat} {R : Nat → Nat → Prop} {st : Scheduler}
    (h : CpuLedger n R st) : CpuLedger n R st.freeFinishedRequests := by
  have hsingle := fun p hp => released_single (p := p) h.wf hp
  have hwf := freeFinishedRequests_wellFormed h.wf
  have hperm := queued_perm_released st
  have hentries := cpuEntries_releaseGroups _ st.blockManager hsingle
  rw [freeFinishedRequests_eq] at hwf ⊢
  have hstay : ∀ q ∈ st.unfinishedIn st.running ++ (st.unfinishedIn st.waiting ++ st.swapped),
      q ∈ st.queued ∧ (releaseGroups st.groups st.blockManager
        (st.finishedIn st.running ++ st.finishedIn st.waiting)).cpuEntries (st.seq q).seqId
        = st.cpuRecorded q := by
    intro q hq
    have hmem : q ∈ st.queued := hperm.mem_iff.2 (List.mem_append_right _ hq)
    refine ⟨hmem, ?_⟩
    rw [hentries, if_neg (not_released_seqId h.wf hq)]
    rfl
  refine ⟨hwf, releaseGroups_stable (cpuCounted_stable n) _ _ _ h.counted, ?_, ?_, ?_⟩
  · have htotal := h.total
    rw [(hperm.map _).sum_eq, List.map_append, List.sum_append] at htotal
    have hfree := releaseGroups_cpu _ st.blockManager hsingle (released_ids_nodup h.wf) h.counted
    have hsum := congrArg List.sum (List.map_congr_left (fun q hq => (hstay q hq).2))
    refine Eq.trans ?_ htotal
    rw [← Nat.add_assoc]
    exact congrArg₂ _ hfree hsum
  · intro q hq
    obtain ⟨hmem, hrecorded⟩ := hstay q hq
    have hneeded := h.needed q hmem
    rw [← hrecorded] at hneeded
    exact hneeded
  · intro id hid
    refine (hentries id).trans ?_
    split
    · rfl
    · next hnot =>
        refine h.other id ?_
        intro q hq heq
        rcases List.mem_append.1 (hperm.mem_iff.1 hq) with hq | hq
        · exact hnot ⟨q, hq, heq⟩
        · exact hid q hq heq

/-! ## The groups a call brings back -/

end Scheduler

namespace ScheduleState

open Scheduler

/-- The groups the swap-in loop brings back, each with the state it is brought back in. -/
def swapInReturns : List GroupPtr → ScheduleState → List (ScheduleState × GroupPtr)
  | [], _ => []
  | p :: rest, s =>
    if s.swapInFits p then (s, p) :: swapInReturns rest (s.swapInGroup p rest) else []

variable {n : Nat} {R : Nat → Nat → Prop}

/-- The loop keeps a ledger that each group it brings back keeps. -/
theorem swapInLoop_ledger (l : List GroupPtr) (s : ScheduleState) (h : CpuLedger n R s.sched)
    (hl : s.sched.swapped = l)
    (hback : ∀ v ∈ swapInReturns l s, ∀ m, R (v.1.sched.seq v.2).liveBlocks.length m → R 0 m) :
    CpuLedger n R (swapInLoop l s).sched := by
  induction l generalizing s with
  | nil => exact h
  | cons p rest ih =>
      rw [swapInReturns] at hback
      rw [swapInLoop]
      by_cases hfits : s.swapInFits p
      · rw [if_pos hfits] at hback ⊢
        have hsingle := h.wf.single_of_mem (WellFormed.mem_swapped (p := p) (by rw [hl]; simp))
        refine ih _ (h.swapInGroup hl (swapIn_room hfits hsingle)
          (hback _ (List.mem_cons_self ..))) rfl ?_
        exact fun v hv => hback v (List.mem_cons_of_mem _ hv)
      · rw [if_neg hfits]
        exact h

/-- The loop leaves all that is recorded for the CPU, and only adds to the running queue. -/
theorem swapInLoop_recorded (l : List GroupPtr) (s : ScheduleState) (h : CpuLedger n (· ≤ ·) s.sched)
    (hl : s.sched.swapped = l) (q : GroupPtr) :
    (swapInLoop l s).sched.cpuRecorded q = s.sched.cpuRecorded q ∧
      (q ∈ s.sched.running → q ∈ (swapInLoop l s).sched.running) := by
  induction l generalizing s with
  | nil => exact ⟨rfl, id⟩
  | cons p rest ih =>
      rw [swapInLoop]
      by_cases hfits : s.swapInFits p
      · rw [if_pos hfits]
        have hsingle := h.wf.single_of_mem (WellFormed.mem_swapped (p := p) (by rw [hl]; simp))
        have hroom := swapIn_room hfits hsingle
        obtain ⟨hsame, hrun⟩ := ih _ (h.swapInGroup hl hroom (fun m _ => Nat.zero_le m)) rfl
        exact ⟨hsame.trans (h.recorded_swapInGroup hl hroom q),
          fun hq => hrun (List.mem_append_left _ hq)⟩
      · rw [if_neg hfits]
        exact ⟨rfl, id⟩

/-- A group that is brought back runs when the loop ends, with as many CPU blocks recorded as it
    needed. -/
theorem swapInLoop_stale (l : List GroupPtr) (s : ScheduleState) (h : CpuLedger n (· ≤ ·) s.sched)
    (hl : s.sched.swapped = l) {v : ScheduleState × GroupPtr} (hv : v ∈ swapInReturns l s) :
    v.2 ∈ (swapInLoop l s).sched.running ∧
      (v.1.sched.seq v.2).liveBlocks.length ≤ (swapInLoop l s).sched.cpuRecorded v.2 := by
  induction l generalizing s with
  | nil => exact absurd hv List.not_mem_nil
  | cons p rest ih =>
      rw [swapInReturns] at hv
      rw [swapInLoop]
      by_cases hfits : s.swapInFits p
      · rw [if_pos hfits] at hv ⊢
        have hp : p ∈ s.sched.swapped := by rw [hl]; exact List.mem_cons_self ..
        have hmem : p ∈ s.sched.queued := WellFormed.mem_swapped hp
        have hroom := swapIn_room hfits (h.wf.single_of_mem hmem)
        have hnext := h.swapInGroup hl hroom (fun m _ => Nat.zero_le m)
        rcases List.mem_cons.1 hv with rfl | hv
        · obtain ⟨hsame, hrun⟩ := swapInLoop_recorded rest (s.swapInGroup p rest) hnext rfl p
          refine ⟨hrun (List.mem_append_right _ (List.mem_singleton_self p)), ?_⟩
          have hneeded := h.needed p hmem
          rw [cpuNeeded, if_pos hp] at hneeded
          rw [hsame, h.recorded_swapInGroup hl hroom]
          exact hneeded
        · exact ih _ hnext rfl hv
      · rw [if_neg hfits] at hv
        exact absurd hv List.not_mem_nil

end ScheduleState

namespace Scheduler

open ScheduleState

/-- The groups `try_swap_in` brings back in the call starting in `st`. -/
def swapIns (st : Scheduler) : List (ScheduleState × GroupPtr) :=
  if st.afterPrefills.sched.swapped ≠ [] ∧ 0 < st.afterPrefills.budgetTokens ∧
      0 < st.afterPrefills.budgetSeqs then
    swapInReturns st.afterPrefills.sched.swapped st.afterPrefills
  else []

/-- `try_swap_in` brings back no unfinished sequence that has blocks. -/
def ReturnsNoBlocks (st : Scheduler) : Prop :=
  ∀ v ∈ st.swapIns, (v.1.sched.seq v.2).liveBlocks = []

instance (st : Scheduler) : Decidable st.ReturnsNoBlocks :=
  inferInstanceAs (Decidable (∀ v ∈ st.swapIns, _))

variable {n : Nat} {R : Nat → Nat → Prop} {st : Scheduler}

/-- The ledger up to the swap-in phase, when preemptions find enough CPU blocks. -/
theorem CpuLedger.afterPrefills (hR : Taking R) (h : CpuLedger n R st)
    (hmode : st.config.preemptionMode = .swap) (hcpu : st.CpuSuffices) :
    CpuLedger n R st.afterPrefills.sched := by
  have hdecodes := (afterDecodes_wellFormed (P := fun s => CpuLedger n R s.sched) h.wf h
    ?_ ?_ ?_).2
  · refine st.afterPrefills_invariant (P := fun s => CpuLedger n R s.sched) ?_ ?_
    · obtain ⟨w, hperm, hw⟩ := st.afterDecodes.sched.sortWaitingQueue_eq
      rw [beforePrefills, hw]
      exact hdecodes.sorted hperm
    · intro s p rest hs _ hwait hfits
      have hsingle := hs.wf.single_of_mem (WellFormed.mem_waiting (p := p) (by rw [hwait]; simp))
      exact hs.admitGroup hwait (hfits.room hsingle)
  · intro s p rest hs hP hat hfin hfits
    have hsingle := hs.wf.single_of_mem (WellFormed.mem_running hat.mem_running)
    exact hP.decodeGroup hat.mem_running hfin ((hsingle.canAppend _ hfin).1 hfits.2.2)
  · intro s init v _ hs hP hat hv
    refine hP.swapOutGroup hR hv ?_
    have hsingle := hs.wf.single_of_mem (WellFormed.mem_running (p := v) (by rw [hv]; simp))
    rw [Scheduler.seq, liveBlocks_length hsingle]
    exact hcpu.room hat hv
  · intro s init v hrec
    rw [hmode] at hrec
    cases hrec

theorem CpuLedger.schedule (hR : Taking R) (h : CpuLedger n R st)
    (hmode : st.config.preemptionMode = .swap) (hcpu : st.CpuSuffices)
    (hback : ∀ v ∈ st.swapIns, ∀ m, R (v.1.sched.seq v.2).liveBlocks.length m → R 0 m) :
    CpuLedger n R st.schedule.2 := by
  have hprefills := h.afterPrefills hR hmode hcpu
  show CpuLedger n R st.afterSwapIn.sched
  rw [swapIns] at hback
  simp only [afterSwapIn]
  split
  · next hcond =>
      rw [if_pos hcond] at hback
      exact swapInLoop_ledger _ _ hprefills rfl hback
  · exact hprefills

/-- A sequence that is brought back runs after the call with its CPU blocks still recorded. -/
theorem CpuLedger.stale (h : CpuLedger n (· ≤ ·) st) (hmode : st.config.preemptionMode = .swap)
    (hcpu : st.CpuSuffices) {v : ScheduleState × GroupPtr} (hv : v ∈ st.swapIns) :
    v.2 ∈ st.schedule.2.running ∧
      (v.1.sched.seq v.2).liveBlocks.length ≤ st.schedule.2.cpuRecorded v.2 := by
  have hprefills := h.afterPrefills taking_le hmode hcpu
  show v.2 ∈ st.afterSwapIn.sched.running ∧ _ ≤ st.afterSwapIn.sched.cpuRecorded v.2
  rw [swapIns] at hv
  simp only [afterSwapIn]
  split at hv
  · next hcond =>
      rw [if_pos hcond]
      exact swapInLoop_stale _ _ hprefills rfl hv
  · exact absurd hv List.not_mem_nil

/-! ## The blocks in use -/

/-- The CPU blocks in use are those of the unfinished sequences in the swapped queue. -/
def CpuReturned (st : Scheduler) : Prop :=
  st.blockManager.numTotalCpuBlocks - st.blockManager.numFreeCpuBlocks
    = (st.swapped.map (fun p => swapInBlockCount (st.groups p))).sum

instance (st : Scheduler) : Decidable st.CpuReturned := inferInstanceAs (Decidable (_ = _))

/-- Sums of smaller summands are equal when all summands are. -/
theorem sum_map_eq_iff {f g : GroupPtr → Nat} {l : List GroupPtr} (h : ∀ p ∈ l, f p ≤ g p) :
    (l.map f).sum = (l.map g).sum ↔ ∀ p ∈ l, f p = g p := by
  induction l with
  | nil => simp
  | cons p rest ih =>
      have hp := h p (List.mem_cons_self ..)
      have hrest : ∀ q ∈ rest, f q ≤ g q := fun q hq => h q (List.mem_cons_of_mem _ hq)
      have hle := List.sum_le_sum hrest
      rw [List.forall_mem_cons, ← ih hrest, List.map_cons, List.map_cons, List.sum_cons,
        List.sum_cons]
      omega

/-- Only the swapped groups need CPU blocks. -/
theorem sum_cpuNeeded (hwf : st.WellFormed) : (st.queued.map st.cpuNeeded).sum
    = (st.swapped.map (fun p => swapInBlockCount (st.groups p))).sum := by
  have hzero : ∀ l : List GroupPtr, (∀ p ∈ l, p ∉ st.swapped) → (l.map st.cpuNeeded).sum = 0 := by
    intro l hl
    have hmap : l.map st.cpuNeeded = l.map (fun _ => 0) :=
      List.map_congr_left (fun p hp => if_neg (hl p hp))
    simp [hmap]
  have hswapped : ∀ p ∈ st.swapped, st.cpuNeeded p = swapInBlockCount (st.groups p) := by
    intro p hp
    rw [cpuNeeded, if_pos hp, Scheduler.seq,
      liveBlocks_length (hwf.single_of_mem (WellFormed.mem_swapped hp))]
  rw [queued, List.map_append, List.map_append, List.sum_append, List.sum_append,
    hzero _ (fun p hp => hwf.queues.disjoint_running_swapped hp),
    hzero _ (fun p hp => hwf.queues.disjoint_waiting_swapped hp), List.map_congr_left hswapped,
    Nat.zero_add, Nat.zero_add]

/-- The blocks in use are those needed when nothing more is recorded for any group. -/
theorem CpuLedger.returned_iff (h : CpuLedger n (· ≤ ·) st) :
    st.CpuReturned ↔ ∀ p ∈ st.queued, st.cpuNeeded p = st.cpuRecorded p := by
  have htotal := h.total
  have hpool := h.counted.pool
  rw [CpuReturned, ← sum_cpuNeeded h.wf, ← sum_map_eq_iff h.needed, numTotalCpuBlocks,
    numFreeCpuBlocks]
  omega

/-! ## Runs -/

/-- A client that keeps the output of its latest `schedule()`. -/
structure SwapClient extends Client where
  output : SchedulerOutput

namespace SwapClient

def init (config : SchedulerConfig) (cache : CacheConfig) : SwapClient :=
  { toClient := Client.init config cache, output := {} }

def step (c : SwapClient) (op : Op) : SwapClient :=
  { toClient := c.toClient.step op,
    output := match op with | .schedule => c.sched.schedule.1 | _ => c.output }

/-- `update_after_decode` gets the latest output. -/
def LatestOutput (c : SwapClient) : Op → Prop
  | .updateAfterDecode out _ _ => out = c.output
  | _ => True

/-- Requests have one sequence and distinct live ids, `schedule()` comes directly after
    `free_finished_requests` and finds enough CPU blocks for its preemption, and updates are about the
    latest output. -/
def Permitted (c : SwapClient) (op : Op) : Prop :=
  c.toClient.Permitted op ∧ c.sched.SwapOp op ∧ c.LatestOutput op

/-- No call of `schedule()` brings back an unfinished sequence that has blocks. -/
def ReturnsNoBlocks (c : SwapClient) : Op → Prop
  | .schedule => c.sched.ReturnsNoBlocks
  | _ => True

instance (c : SwapClient) : (op : Op) → Decidable (c.LatestOutput op)
  | .updateAfterDecode out _ _ => inferInstanceAs (Decidable (out = c.output))
  | .addRequest _ | .abortRequest _ | .schedule | .freeFinishedRequests => isTrue trivial

instance (c : SwapClient) (op : Op) : Decidable (c.Permitted op) :=
  inferInstanceAs (Decidable (_ ∧ _ ∧ _))

instance (c : SwapClient) : (op : Op) → Decidable (c.ReturnsNoBlocks op)
  | .schedule => inferInstanceAs (Decidable c.sched.ReturnsNoBlocks)
  | .addRequest _ | .abortRequest _ | .updateAfterDecode .. | .freeFinishedRequests => isTrue trivial

/-- The invariant of runs in swap mode. -/
structure Ledger (n : Nat) (R : Nat → Nat → Prop) (c : SwapClient) : Prop where
  mode : c.sched.config.preemptionMode = .swap
  ledger : CpuLedger n R c.sched
  output : ∀ p ∈ c.output.scheduledGroups, p ∉ c.sched.swapped

/-- Every operation keeps the ledger that the groups it brings back keep. -/
theorem Ledger.step {n : Nat} {R : Nat → Nat → Prop} {c : SwapClient} (hR : Taking R)
    (h : Ledger n R c) (op : Op) (hok : c.Permitted op)
    (hback : op = .schedule → ∀ v ∈ c.sched.swapIns, ∀ m,
      R (v.1.sched.seq v.2).liveBlocks.length m → R 0 m) : Ledger n R (c.step op) := by
  obtain ⟨hmode, hledger, hout⟩ := h
  obtain ⟨-, hswap, hlatest⟩ := hok
  cases op with
  | addRequest group => exact ⟨hmode, hledger.addRequest hR hswap, hout⟩
  | abortRequest id =>
      have hsame := abortRequest_sameQueues c.sched id
      refine ⟨?_, hledger.abortRequest hR id, ?_⟩
      · exact (congrArg SchedulerConfig.preemptionMode hsame.config).trans hmode
      · intro p hp
        show p ∉ (c.sched.abortRequest id).swapped
        rw [hsame.swapped]
        exact hout p hp
  | schedule =>
      have hnext := hledger.schedule hR hmode hswap (hback rfl)
      refine ⟨?_, hnext, ?_⟩
      · exact (congrArg SchedulerConfig.preemptionMode c.sched.schedule_frame.2.2).trans hmode
      · intro p hp
        exact hnext.wf.queues.disjoint_running_swapped
          (schedule_scheduled_running hledger.wf.queues.nodup_running p hp)
  | updateAfterDecode out toks now =>
      obtain rfl : out = c.output := hlatest
      exact ⟨hmode, hledger.updateAfterDecode hout toks now, hout⟩
  | freeFinishedRequests =>
      refine ⟨?_, hledger.freeFinishedRequests, ?_⟩
      · simp only [SwapClient.step, Client.step, Scheduler.step, freeFinishedRequests_eq]
        exact hmode
      · simp only [SwapClient.step, Client.step, Scheduler.step, freeFinishedRequests_eq]
        exact hout

theorem init_ledger (R : Nat → Nat → Prop) {config : SchedulerConfig} (cache : CacheConfig)
    (hmode : config.preemptionMode = .swap) : Ledger cache.numCpuBlocks R (init config cache) :=
  ⟨hmode, CpuLedger.new R config cache, fun _ hp => absurd hp List.not_mem_nil⟩

/-- In every run, what is recorded for a group is at least what it needs. -/
theorem run_ledger {config : SchedulerConfig} {cache : CacheConfig} {ops : List Op}
    (hmode : config.preemptionMode = .swap)
    (hrun : Run.AllOk step Permitted (init config cache) ops) :
    Ledger cache.numCpuBlocks (· ≤ ·) (ops.foldl step (init config cache)) := by
  refine hrun.invariant (init_ledger _ cache hmode) ?_
  intro c op h hok
  exact h.step taking_le op hok (fun _ _ _ m _ => Nat.zero_le m)

/-- Where no blocks are brought back, it is exactly what the group needs. -/
theorem run_ledger_exact {config : SchedulerConfig} {cache : CacheConfig} {ops : List Op}
    (hmode : config.preemptionMode = .swap)
    (hrun : Run.AllOk step Permitted (init config cache) ops)
    (hback : Run.AllOk step ReturnsNoBlocks (init config cache) ops) :
    Ledger cache.numCpuBlocks (· = ·) (ops.foldl step (init config cache)) := by
  refine (Run.allOk_and.2 ⟨hrun, hback⟩).invariant (init_ledger _ cache hmode) ?_
  rintro c op h ⟨hok, hnone⟩
  refine h.step taking_eq op hok ?_
  rintro rfl v hv m hm
  rw [hnone v hv] at hm
  exact hm

/-- **The swap space is returned exactly as long as nothing is brought back.** In swap mode the CPU
    blocks in use are, in every state of a run, those of the unfinished sequences in the swapped queue
    if and only if no call of the run swaps in an unfinished sequence that has blocks. -/
theorem cpu_space_returned_iff {config : SchedulerConfig} {cache : CacheConfig} {ops : List Op}
    (hmode : config.preemptionMode = .swap)
    (hrun : Run.AllOk step Permitted (init config cache) ops) :
    (∀ pre, pre <+: ops → (pre.foldl step (init config cache)).sched.CpuReturned) ↔
      Run.AllOk step ReturnsNoBlocks (init config cache) ops := by
  constructor
  · intro hall
    refine Run.allOk_of_split ?_
    intro pre op post hsplit
    rw [hsplit] at hrun
    obtain ⟨hpre, hop, -⟩ := Run.allOk_append.1 hrun
    cases op with
    | schedule =>
        intro v hv
        obtain ⟨hswap, hledger, -⟩ := run_ledger hmode hpre
        obtain ⟨hv', hstale⟩ := hledger.stale hswap hop.2.1 hv
        have hnext := (run_ledger hmode hpre).step taking_le .schedule hop
          (fun _ _ _ m _ => Nat.zero_le m)
        have hreturned := hall (pre ++ [.schedule]) ⟨post, by rw [hsplit]; simp⟩
        rw [List.foldl_append] at hreturned
        -- the group runs, so it needs nothing on the CPU, and nothing may be recorded for it
        have hneeded := hnext.ledger.returned_iff.1 hreturned v.2 (WellFormed.mem_running hv')
        rw [cpuNeeded, if_neg (hnext.ledger.wf.queues.disjoint_running_swapped hv')] at hneeded
        exact List.length_eq_zero_iff.1 (Nat.le_zero.1 (hneeded ▸ hstale))
    | addRequest _ | abortRequest _ | updateAfterDecode _ _ _ | freeFinishedRequests => trivial
  · rintro hback pre ⟨post, rfl⟩
    have hpre := (Run.allOk_append.1 hrun).1
    refine (run_ledger hmode hpre).ledger.returned_iff.2 ?_
    exact (run_ledger_exact hmode hpre (Run.allOk_append.1 hback).1).ledger.needed

/-- Three requests on a GPU with two blocks of one token, two of them at a time: the second is swapped
    out, and the third takes its block. -/
def parkedRun : List Op :=
  [.addRequest (.new 1 [7] {}), .addRequest (.new 2 [8] {}), .addRequest (.new 3 [9] {}),
    .freeFinishedRequests, .schedule,
    .updateAfterDecode { scheduledGroups := [0, 1], numBatchedTokens := 2 } [5, 5] 0,
    .freeFinishedRequests, .schedule]

def parkedEnd : SwapClient :=
  parkedRun.foldl step (init { maxNumSeqs := 2 }
    { numGpuBlocks := 2, numCpuBlocks := 4, blockSize := 1 })

theorem parked_returned :
    parkedEnd.sched.swapped = [1] ∧ parkedEnd.sched.blockManager.numFreeCpuBlocks = 3 ∧
      parkedEnd.sched.CpuReturned :=
  ⟨by decide, by decide, (cpu_space_returned_iff rfl (by decide)).2 (by decide) parkedRun
    (List.prefix_refl _)⟩

/-- Two requests on the same GPU: every further call swaps the second one out and in again. -/
def resumedRun : List Op :=
  [.addRequest (.new 1 [7] {}), .addRequest (.new 2 [8] {}), .freeFinishedRequests, .schedule,
    .updateAfterDecode { scheduledGroups := [0, 1], numBatchedTokens := 2 } [5, 5] 0,
    .freeFinishedRequests, .schedule, .freeFinishedRequests, .schedule, .freeFinishedRequests,
    .schedule]

def resumedEnd : SwapClient :=
  resumedRun.foldl step (init {} { numGpuBlocks := 2, numCpuBlocks := 4, blockSize := 1 })

/-- Three cycles take three CPU blocks, and no sequence is swapped. -/
theorem resumed_not_returned :
    Run.AllOk step Permitted (init {} { numGpuBlocks := 2, numCpuBlocks := 4, blockSize := 1 })
      resumedRun ∧
    resumedEnd.sched.swapped = [] ∧ resumedEnd.sched.blockManager.numFreeCpuBlocks = 1 ∧
      ¬ resumedEnd.sched.CpuReturned :=
  ⟨by decide +kernel, by decide +kernel, by decide +kernel, by decide +kernel⟩

end SwapClient

end Scheduler

end CacheFlow
