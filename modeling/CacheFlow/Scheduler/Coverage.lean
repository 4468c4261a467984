import CacheFlow.Scheduler.Ownership
import Mathlib.Algebra.Order.BigOperators.Group.List

set_option autoImplicit false

/-! # No block is lost

After a swapped group has been released, blocks may be free and held at the same time
(`Scheduler.Ownership`). What is never lost is the other direction: the free list and the running
sequences together name at least as many blocks as the pool has.

The argument only counts. No block has more than one reference, so every release pushes its block;
a running sequence has a map entry for each of its blocks, so releasing it pushes as many. -/

namespace CacheFlow

namespace BlockManager

variable {bm bm' : BlockManager} {s s' : SeqId} {d : DeviceType} {b : BlockId}

/-- Counts are at most one, and all ids that are kept name blocks of the pool. -/
structure Loose (bm : BlockManager) : Prop where
  count : ∀ b, bm.refCount .cuda b ≤ 1
  free : bm.FreeInRange
  entries : ∀ s, ∀ e ∈ bm.seqBlocks s, bm.InRange e.1 e.2

/-- The number of GPU blocks that `free_blocks` releases for a sequence. -/
def gpuEntries (bm : BlockManager) (s : SeqId) : Nat :=
  (bm.seqBlocks s).countP (fun e => e.1 = .cuda)

theorem loose_new (cache : CacheConfig) : (BlockManager.new cache).Loose := by
  have hcounts := counts_new cache
  refine ⟨?_, ?_, ?_⟩
  · intro b
    rw [hcounts.refCount]
    decide
  · intro d b hb
    exact ((hcounts.free d b).1 hb).1
  · intro s e he
    exact absurd he List.not_mem_nil

theorem Loose.handed {bids : List BlockId} (h : bm.Loose) (hh : Handed bm bm' s d bids) :
    bm'.Loose :=
  ⟨hh.refCount_le h.count, hh.freeInRange h.free, hh.entriesInRange h.free h.entries⟩

theorem gpuEntries_handed {bids : List BlockId} (hh : Handed bm bm' s .cuda bids) (s' : SeqId) :
    bm'.gpuEntries s' = bm.gpuEntries s' + if s' = s then bids.length else 0 := by
  rw [gpuEntries, hh.seqBlocks, gpuEntries]
  by_cases hs : s' = s
  · subst hs
    rw [if_pos rfl, if_pos rfl, List.countP_append, List.countP_map]
    congr 1
    exact List.countP_eq_length.2 (fun _ _ => by simp)
  · simp [hs]

theorem gpuEntries_handed_cpu {bids : List BlockId} (hh : Handed bm bm' s .cpu bids) (s' : SeqId) :
    bm'.gpuEntries s' = bm.gpuEntries s' := by
  rw [gpuEntries, hh.seqBlocks, gpuEntries]
  by_cases hs : s' = s
  · subst hs
    rw [if_pos rfl, List.countP_append, List.countP_map, Nat.add_eq_left]
    exact List.countP_eq_zero.2 (fun _ _ => by simp)
  · simp [hs]

/-! ## Releasing -/

/-- Releasing a block of the pool pushes it. -/
theorem Loose.freeBlock (h : bm.Loose) (hb : bm.InRange d b) :
    (bm.freeBlock b d).Loose ∧
      ((bm.freeBlock b d).freeList .cuda).length
        = (bm.freeList .cuda).length + if d = .cuda then 1 else 0 := by
  obtain ⟨hcount, hlen⟩ := freeBlock_pushed h.count hb
  exact ⟨⟨hcount, h.free.freeBlock b d, EntriesInRange.freeBlock h.entries b d⟩, hlen⟩

/-- Releasing a sequence pushes as many GPU blocks as it has entries for. -/
theorem Loose.freeBlocks (h : bm.Loose) (s : SeqId) :
    (bm.freeBlocks s).Loose ∧
      ((bm.freeBlocks s).freeList .cuda).length
        = (bm.freeList .cuda).length + bm.gpuEntries s ∧
      ∀ s', s' ≠ s → (bm.freeBlocks s).gpuEntries s' = bm.gpuEntries s' := by
  obtain ⟨hcount, hlen⟩ := freeBlocks_pushed h.count h.entries s
  refine ⟨⟨hcount, h.free.freeBlocks s, EntriesInRange.freeBlocks h.entries s⟩, hlen, ?_⟩
  intro s' hs'
  rw [gpuEntries, freeBlocks_seqBlocks, if_neg hs', gpuEntries]

/-- The swap-out loop pushes every block of the victim, whether or not the CPU has room for it. -/
theorem Loose.swapOutBlocks (s : SeqId) (bids : List BlockId) (st : BlockManager × List BlockOp)
    (h : st.1.Loose) (hin : ∀ b ∈ bids, st.1.InRange .cuda b) :
    (swapOutBlocks s bids st).2.1.Loose ∧
      ((swapOutBlocks s bids st).2.1.freeList .cuda).length
        = (st.1.freeList .cuda).length + bids.length ∧
      (∀ s', (swapOutBlocks s bids st).2.1.gpuEntries s' = st.1.gpuEntries s') ∧
      ∀ d, ((swapOutBlocks s bids st).2.1.blocks d).length = (st.1.blocks d).length := by
  induction bids generalizing st with
  | nil => exact ⟨h, rfl, fun _ => rfl, fun _ => rfl⟩
  | cons bid bids ih =>
      obtain ⟨bm, ops⟩ := st
      -- the CPU block, if there is one
      have hcpu : (bm.allocateBlock s .cpu).2.Loose ∧
          (bm.allocateBlock s .cpu).2.freeList .cuda = bm.freeList .cuda ∧
          (∀ s', (bm.allocateBlock s .cpu).2.gpuEntries s' = bm.gpuEntries s') ∧
          ∀ d, ((bm.allocateBlock s .cpu).2.blocks d).length = (bm.blocks d).length := by
        cases hfl : bm.freeList .cpu with
        | nil =>
            rw [allocateBlock_nil bm hfl]
            exact ⟨h, rfl, fun _ => rfl, fun _ => rfl⟩
        | cons b rest =>
            have hb : bm.InRange .cpu b := h.free .cpu b (by rw [hfl]; exact List.mem_cons_self ..)
            obtain ⟨-, ha⟩ := bm.allocateBlock_cons (s := s) hfl hb
            have hhand := (Handed.nil (bm.allocateBlock s .cpu).2 s .cpu).cons hfl ha
            exact ⟨h.handed hhand, hhand.freeList_ne .cuda (by decide), gpuEntries_handed_cpu hhand,
              hhand.length⟩
      obtain ⟨hloose, hfree, hgpu, hlen⟩ := hcpu
      have hbid : (bm.allocateBlock s .cpu).2.InRange .cuda bid := by
        rw [InRange, hlen]
        exact hin bid (List.mem_cons_self ..)
      obtain ⟨hloose', hfree'⟩ := hloose.freeBlock hbid
      obtain ⟨hl, hf, hg, hp⟩ := ih ((bm.allocateBlock s .cpu).2.freeBlock bid .cuda,
        ops ++ [⟨s, bid, (bm.allocateBlock s .cpu).1⟩]) hloose' (by
          intro b hb
          rw [InRange, freeBlock_length, hlen]
          exact hin b (List.mem_cons_of_mem _ hb))
      rw [CacheFlow.swapOutBlocks]
      refine ⟨hl, ?_, ?_, ?_⟩
      · refine hf.trans ?_
        show (((bm.allocateBlock s .cpu).2.freeBlock bid .cuda).freeList .cuda).length + bids.length
          = (bm.freeList .cuda).length + (bids.length + 1)
        rw [hfree', hfree, if_pos rfl]
        omega
      · intro s'
        refine (hg s').trans ?_
        rw [gpuEntries, freeBlock_seqBlocks]
        exact hgpu s'
      · intro d
        refine (hp d).trans ?_
        rw [freeBlock_length]
        exact hlen d

end BlockManager

namespace Scheduler

open BlockManager

/-! ## The invariant -/

/-- The number of blocks the running sequences list. -/
def listedBlocks (st : Scheduler) : Nat :=
  (st.running.map (fun p => (st.seq p).logicalBlocks.length)).sum

/-- The free list and the running sequences list at least as many blocks as the pool has. -/
structure Covered (cache : CacheConfig) (st : Scheduler) : Prop where
  config : st.blockManager.config = cache
  loose : st.blockManager.Loose
  blocks : ∀ p ∈ st.running, ∀ b ∈ (st.seq p).logicalBlocks, st.blockManager.InRange .cuda b
  entries : ∀ p ∈ st.running,
    (st.seq p).logicalBlocks.length ≤ st.blockManager.gpuEntries (st.seq p).seqId
  covers : cache.numGpuBlocks ≤ (st.blockManager.freeList .cuda).length + st.listedBlocks

section Sums

variable {f : GroupPtr → Nat} {l : List GroupPtr} {p : GroupPtr} {n : Nat}

theorem map_ite_of_not_mem (hp : p ∉ l) : l.map (fun q => if q = p then n else f q) = l.map f := by
  refine List.map_congr_left (fun q hq => if_neg ?_)
  rintro rfl
  exact hp hq

/-- A sum over a list in which one summand has changed. -/
theorem sum_map_ite_of_mem (hnodup : l.Nodup) (hp : p ∈ l) :
    (l.map (fun q => if q = p then n else f q)).sum + f p = (l.map f).sum + n := by
  have hperm := List.perm_cons_erase hp
  have hrest : p ∉ l.erase p := fun hin => ((List.Nodup.mem_erase_iff hnodup).1 hin).1 rfl
  rw [(hperm.map _).sum_eq, (hperm.map f).sum_eq, List.map_cons, List.map_cons,
    map_ite_of_not_mem hrest, List.sum_cons, List.sum_cons, if_pos rfl]
  omega

end Sums

namespace Covered

variable {cache : CacheConfig} {st : Scheduler} {p : GroupPtr}

/-- **Moving one group.** Sequence `x` replaces the one of `p`, whose map entry is the only one to
    change, and `p` changes queues. -/
theorem move (h : Covered cache st) (hwf : st.WellFormed) (hp : p ∈ st.queued) {x : SequenceData}
    {bm : BlockManager} {running waiting swapped : List GroupPtr}
    (hx : x.seqId = (st.seq p).seqId) (hconf : bm.config = st.blockManager.config)
    (hloose : bm.Loose) (hlen : ∀ d, (bm.blocks d).length = (st.blockManager.blocks d).length)
    (hother : ∀ id, id ≠ (st.seq p).seqId → bm.gpuEntries id = st.blockManager.gpuEntries id)
    (hrun : ∀ q ∈ running, q ≠ p → q ∈ st.running)
    (hpr : p ∈ running → (∀ b ∈ x.logicalBlocks, bm.InRange .cuda b) ∧
      x.logicalBlocks.length ≤ bm.gpuEntries x.seqId)
    (hcov : cache.numGpuBlocks ≤ (bm.freeList .cuda).length
      + (running.map (fun q => if q = p then x.logicalBlocks.length
          else (st.seq q).logicalBlocks.length)).sum) :
    Covered cache { st.putSequences p [x] bm with
      running := running, waiting := waiting, swapped := swapped } := by
  have hseq : ∀ q, { st.putSequences p [x] bm with
      running := running, waiting := waiting, swapped := swapped }.seq q
      = if q = p then x else st.seq q := fun q => seq_of_groups rfl q
  refine ⟨hconf.trans h.config, hloose, ?_, ?_, ?_⟩
  · intro q hq b hb
    rw [hseq] at hb
    split at hb
    · next hqp =>
        subst hqp
        exact (hpr hq).1 b hb
    · next hqp =>
        show bm.InRange .cuda b
        rw [InRange, hlen]
        exact h.blocks q (hrun q hq hqp) b hb
  · intro q hq
    rw [hseq]
    split
    · next hqp =>
        subst hqp
        exact (hpr hq).2
    · next hqp =>
        have hq' := hrun q hq hqp
        have hne : (st.seq q).seqId ≠ (st.seq p).seqId :=
          fun heq => hqp (hwf.eq_of_seqId (WellFormed.mem_running hq') hp heq)
        show _ ≤ bm.gpuEntries (st.seq q).seqId
        rw [hother _ hne]
        exact h.entries q hq'
  · simp only [listedBlocks, hseq, apply_ite (fun y : SequenceData => y.logicalBlocks.length)]
    exact hcov

/-! ## The moves of a scheduling step -/

theorem decodeGroup {s : ScheduleState} (h : Covered cache s.sched) (hwf : s.sched.WellFormed)
    (hp : p ∈ s.sched.running) (hfin : (s.sched.seq p).isFinished = false)
    (hfits : missingBlocks s.sched.blockManager (s.sched.seq p)
      ≤ (s.sched.blockManager.freeList .cuda).length) :
    Covered cache (s.decodeGroup p).sched := by
  have hmem : p ∈ s.sched.queued := WellFormed.mem_running hp
  obtain ⟨bids, -, hseq, hhand⟩ := allocateFor_handed s.sched.blockManager (s.sched.seq p) _ hfits
    (h.loose.free .cuda)
  rw [ScheduleState.decodeGroup_sched (hwf.single_of_mem hmem), appendBlocks_of_unfinished hfin,
    hseq]
  refine h.move hwf hmem rfl hhand.config (h.loose.handed hhand) hhand.length ?_
    (fun q hq _ => hq) ?_ ?_
  · intro id hid
    rw [gpuEntries_handed hhand, if_neg hid, Nat.add_zero]
  · intro _
    refine ⟨?_, ?_⟩
    · intro b hb
      rw [hhand.inRange]
      rcases List.mem_append.1 hb with hb | hb
      · exact h.blocks p hp b hb
      · exact h.loose.free .cuda b (by rw [hhand.freeList]; exact List.mem_append_left _ hb)
    · have hentries := h.entries p hp
      have hgpu := gpuEntries_handed hhand (s.sched.seq p).seqId
      rw [if_pos rfl] at hgpu
      show ((s.sched.seq p).logicalBlocks ++ bids).length ≤ _
      rw [hgpu, List.length_append]
      omega
  · have hcov := h.covers
    have hfree := congrArg List.length hhand.freeList
    have hsum := sum_map_ite_of_mem (f := fun q => (s.sched.seq q).logicalBlocks.length)
      (n := ((s.sched.seq p).logicalBlocks ++ bids).length) hwf.queues.nodup_running hp
    have hgrown : ((s.sched.seq p).logicalBlocks ++ bids).length
        = (s.sched.seq p).logicalBlocks.length + bids.length := List.length_append
    rw [List.length_append] at hfree
    rw [listedBlocks] at hcov
    have hle : cache.numGpuBlocks ≤ ((allocateFor s.sched.blockManager (s.sched.seq p)
        (missingBlocks s.sched.blockManager (s.sched.seq p))).2.freeList .cuda).length
        + (s.sched.running.map (fun q => if q = p then
            ((s.sched.seq p).logicalBlocks ++ bids).length
            else (s.sched.seq q).logicalBlocks.length)).sum := by
      omega
    exact hle

/-- A group that enters the running queue with newly handed blocks. -/
theorem enter {s : ScheduleState} (h : Covered cache s.sched) (hwf : s.sched.WellFormed)
    (hp : p ∈ s.sched.queued) (hnot : p ∉ s.sched.running) {x : SequenceData}
    (hx : x.seqId = (s.sched.seq p).seqId) {bm : BlockManager} {bids : List BlockId}
    (hbids : x.logicalBlocks = bids)
    (hhand : Handed s.sched.blockManager bm (s.sched.seq p).seqId .cuda bids)
    {waiting swapped : List GroupPtr} :
    Covered cache { s.sched.putSequences p [x] bm with
      running := s.sched.running ++ [p], waiting := waiting, swapped := swapped } := by
  refine h.move hwf hp hx hhand.config (h.loose.handed hhand) hhand.length ?_ ?_ ?_ ?_
  · intro id hid
    rw [gpuEntries_handed hhand, if_neg hid, Nat.add_zero]
  · intro q hq hqp
    exact mem_of_mem_concat hq hqp
  · intro _
    refine ⟨?_, ?_⟩
    · intro b hb
      rw [hbids] at hb
      rw [hhand.inRange]
      exact h.loose.free .cuda b (by rw [hhand.freeList]; exact List.mem_append_left _ hb)
    · rw [hx, hbids, gpuEntries_handed hhand, if_pos rfl]
      omega
  · have hcov := h.covers
    have hfree := congrArg List.length hhand.freeList
    rw [List.length_append] at hfree
    rw [listedBlocks] at hcov
    rw [List.map_append, List.sum_append, map_ite_of_not_mem hnot, hbids]
    simp only [List.map_singleton, if_true, List.sum_singleton]
    omega

theorem admitGroup {s : ScheduleState} {rest : List GroupPtr} (h : Covered cache s.sched)
    (hwf : s.sched.WellFormed) (hwait : s.sched.waiting = p :: rest)
    (hempty : (s.sched.seq p).logicalBlocks = [])
    (hfits : (s.sched.seq p).numBlocksNeeded s.sched.blockManager.blockSize
      ≤ (s.sched.blockManager.freeList .cuda).length) :
    Covered cache (s.admitGroup p rest).sched := by
  have hpw : p ∈ s.sched.waiting := by rw [hwait]; exact List.mem_cons_self ..
  have hmem : p ∈ s.sched.queued := WellFormed.mem_waiting hpw
  obtain ⟨bids, -, hseq, hhand⟩ := prefillSequence_handed s.sched.blockManager (s.sched.seq p) _
    hfits (h.loose.free .cuda)
  rw [ScheduleState.admitGroup_sched (hwf.single_of_mem hmem), hseq, hempty, List.nil_append]
  exact h.enter hwf hmem (fun hr => hwf.queues.disjoint_running_waiting hr hpw) (by rfl) (by rfl) hhand

theorem swapInGroup {s : ScheduleState} {rest : List GroupPtr} (h : Covered cache s.sched)
    (hwf : s.sched.WellFormed) (hswap : s.sched.swapped = p :: rest)
    (hfin : (s.sched.seq p).isFinished = false)
    (hfits : (s.sched.seq p).logicalBlocks.length
      ≤ (s.sched.blockManager.freeList .cuda).length) :
    Covered cache (s.swapInGroup p rest).sched := by
  have hps : p ∈ s.sched.swapped := by rw [hswap]; exact List.mem_cons_self ..
  have hmem : p ∈ s.sched.queued := WellFormed.mem_swapped hps
  have hhand := swapInBlocks_handed (s.sched.seq p).seqId (s.sched.seq p).logicalBlocks
    (s.sched.blockManager, s.output.blockSwapsIn) hfits (h.loose.free .cuda)
  rw [ScheduleState.swapInGroup_sched (hwf.single_of_mem hmem), swapInSequence_of_unfinished hfin]
  exact h.enter hwf hmem (fun hr => hwf.queues.disjoint_running_swapped hr hps) (by rfl) (by rfl) hhand

/-- Swapping out the last running group pushes each of its blocks. -/
theorem swapOutGroup {s : ScheduleState} {init : List GroupPtr} (h : Covered cache s.sched)
    (hwf : s.sched.WellFormed) (hrun : s.sched.running = init ++ [p])
    (hfin : (s.sched.seq p).isFinished = false) :
    Covered cache (s.swapOutGroup p init).sched ∧
      ((s.swapOutGroup p init).sched.blockManager.freeList .cuda).length
        = (s.sched.blockManager.freeList .cuda).length
          + (s.sched.seq p).logicalBlocks.length := by
  have hp : p ∈ s.sched.running := by rw [hrun]; simp
  have hmem : p ∈ s.sched.queued := WellFormed.mem_running hp
  have hpinit : p ∉ init := hwf.queues.not_mem_init hrun
  obtain ⟨hloose, hfree, hgpu, hlen⟩ := Loose.swapOutBlocks (s.sched.seq p).seqId
    (s.sched.seq p).logicalBlocks (s.sched.blockManager, s.output.blockSwapsOut) h.loose
    (h.blocks p hp)
  rw [ScheduleState.swapOutGroup_sched (hwf.single_of_mem hmem), swapOutSequence_of_unfinished hfin]
  refine ⟨?_, hfree⟩
  refine h.move hwf hmem rfl (swapOutBlocks_config _ _ _) hloose hlen (fun id _ => hgpu id) ?_
    (fun hin => absurd hin hpinit) ?_
  · intro q hq _
    rw [hrun]
    exact List.mem_append_left _ hq
  · have hcov := h.covers
    rw [map_ite_of_not_mem hpinit]
    simp only [listedBlocks, hrun, List.map_append, List.sum_append, List.map_singleton,
      List.sum_singleton] at hcov
    refine Nat.le_trans ?_ (Nat.add_le_add_right (Nat.le_of_eq hfree.symm) _)
    show _ ≤ (s.sched.blockManager.freeList .cuda).length
      + (s.sched.seq p).logicalBlocks.length + _
    omega

/-! ## The other operations -/

theorem addRequest (h : Covered cache st) (hwf : st.WellFormed) (group : SequenceGroup) :
    Covered cache (st.addRequest group) := by
  have hold : ∀ q ∈ st.running, (st.addRequest group).seq q = st.seq q :=
    fun q hq => hwf.seq_addRequest group q (WellFormed.mem_running hq)
  refine ⟨h.config, h.loose, ?_, ?_, ?_⟩
  · intro q hq
    rw [hold q hq]
    exact h.blocks q hq
  · intro q hq
    rw [hold q hq]
    exact h.entries q hq
  · have hsame : (st.addRequest group).listedBlocks = st.listedBlocks :=
      congrArg List.sum (List.map_congr_left (fun q hq => by rw [hold q hq]))
    rw [hsame]
    exact h.covers

theorem updateAfterDecode (h : Covered cache st) (hwf : st.WellFormed) (out : SchedulerOutput)
    (toks : List TokenId) (now : TimePoint) :
    Covered cache (st.updateAfterDecode out toks now) := by
  have hext : ∀ p ∈ st.running, Extends (st.seq p) ((st.updateAfterDecode out toks now).seq p) :=
    fun p hp => hwf.extends_updateAfterDecode out toks now p (WellFormed.mem_running hp)
  refine ⟨h.config, h.loose, ?_, ?_, ?_⟩
  · intro q hq
    rw [(hext q hq).logicalBlocks]
    exact h.blocks q hq
  · intro q hq
    rw [(hext q hq).logicalBlocks, (hext q hq).seqId]
    exact h.entries q hq
  · have hsame : (st.updateAfterDecode out toks now).listedBlocks = st.listedBlocks :=
      congrArg List.sum (List.map_congr_left (fun q hq => by rw [(hext q hq).logicalBlocks]))
    rw [hsame]
    exact h.covers

end Covered

/-- Releasing a list of groups pushes the blocks they have entries for. -/
theorem releaseGroups_loose (groups : GroupPtr → SequenceGroup) (ps : List GroupPtr)
    (bm : BlockManager) (hps : ∀ p ∈ ps, (groups p).Single)
    (hids : (ps.map (fun p => (groups p).seq.seqId)).Nodup) (h : bm.Loose) :
    (releaseGroups groups bm ps).Loose ∧
      ((releaseGroups groups bm ps).freeList .cuda).length
        = (bm.freeList .cuda).length
          + (ps.map (fun p => bm.gpuEntries (groups p).seq.seqId)).sum ∧
      ∀ id, (∀ p ∈ ps, (groups p).seq.seqId ≠ id) →
        (releaseGroups groups bm ps).gpuEntries id = bm.gpuEntries id := by
  induction ps generalizing bm with
  | nil => exact ⟨h, rfl, fun _ _ => rfl⟩
  | cons p rest ih =>
      obtain ⟨hp, hrest⟩ := List.nodup_cons.1 hids
      rw [releaseGroups_cons (hps p (List.mem_cons_self ..))]
      obtain ⟨hloose, hlen, hgpu⟩ := h.freeBlocks (groups p).seq.seqId
      obtain ⟨hloose', hlen', hgpu'⟩ := ih (bm.freeBlocks (groups p).seq.seqId)
        (fun q hq => hps q (List.mem_cons_of_mem _ hq)) hrest hloose
      have hne : ∀ q ∈ rest, (groups q).seq.seqId ≠ (groups p).seq.seqId := fun q hq heq =>
        hp (List.mem_map.2 ⟨q, hq, heq⟩)
      have hsame : rest.map (fun q => (bm.freeBlocks (groups p).seq.seqId).gpuEntries
          (groups q).seq.seqId) = rest.map (fun q => bm.gpuEntries (groups q).seq.seqId) :=
        List.map_congr_left (fun q hq => hgpu _ (hne q hq))
      refine ⟨hloose', ?_, ?_⟩
      · rw [hlen', hlen, hsame, List.map_cons, List.sum_cons, Nat.add_assoc]
      · intro id hid
        rw [hgpu' id (fun q hq => hid q (List.mem_cons_of_mem _ hq)),
          hgpu id (Ne.symm (hid p (List.mem_cons_self ..)))]

theorem Covered.freeFinishedRequests {cache : CacheConfig} {st : Scheduler} (h : Covered cache st)
    (hwf : st.WellFormed) : Covered cache st.freeFinishedRequests := by
  have hsingle := fun p hp => released_single (p := p) hwf hp
  have hpool := releaseGroups_pool st.groups _ st.blockManager hsingle
  obtain ⟨hloose, hlen, hgpu⟩ := releaseGroups_loose st.groups _ st.blockManager hsingle
    (released_ids_nodup hwf) h.loose
  rw [freeFinishedRequests_eq]
  refine ⟨hpool.1.trans h.config, hloose, ?_, ?_, ?_⟩
  · intro q hq b hb
    show (releaseGroups _ _ _).InRange .cuda b
    rw [InRange, hpool.2]
    exact h.blocks q (List.mem_filter.1 hq).1 b hb
  · intro q hq
    have hother := hgpu (st.seq q).seqId (fun p hp heq =>
      not_released_seqId hwf (List.mem_append_left _ hq) ⟨p, hp, heq⟩)
    show _ ≤ (releaseGroups _ _ _).gpuEntries (st.seq q).seqId
    rw [hother]
    exact h.entries q (List.mem_filter.1 hq).1
  · -- what the finished sequences listed is on the free list now
    have hsplit : st.listedBlocks
        = ((st.finishedIn st.running).map (fun p => (st.seq p).logicalBlocks.length)).sum
          + ((st.unfinishedIn st.running).map (fun p => (st.seq p).logicalBlocks.length)).sum := by
      rw [← List.sum_append, ← List.map_append]
      exact ((List.filter_append_perm _ _).map _).sum_eq.symm
    have hreleased : ((st.finishedIn st.running).map (fun p => (st.seq p).logicalBlocks.length)).sum
        ≤ ((st.finishedIn st.running).map
            (fun p => st.blockManager.gpuEntries (st.groups p).seq.seqId)).sum :=
      List.sum_le_sum (fun p hp => h.entries p (List.mem_filter.1 hp).1)
    have hcov := h.covers
    rw [List.map_append, List.sum_append] at hlen
    show _ ≤ ((releaseGroups _ _ _).freeList .cuda).length
      + ((st.unfinishedIn st.running).map (fun p => (st.seq p).logicalBlocks.length)).sum
    rw [hlen]
    omega

theorem new_covered (config : SchedulerConfig) (cache : CacheConfig) :
    Covered cache (Scheduler.new config (BlockManager.new cache)) := by
  refine ⟨rfl, loose_new cache, ?_, ?_, ?_⟩
  · intro p hp
    exact absurd hp List.not_mem_nil
  · intro p hp
    exact absurd hp List.not_mem_nil
  · simp [Scheduler.new, BlockManager.new, initFreeList, countFor]

end Scheduler

end CacheFlow
