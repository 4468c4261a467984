import CacheFlow.Lib.Copy
import CacheFlow.BatchManager.Delivery
import CacheFlow.Scheduler.Swap
import Mathlib.Data.List.Flatten

set_option autoImplicit false

/-! # Swap-out and swap-in as copies between two memories

The scheduler only writes down which blocks are to be copied; the executor copies them later, first all
blocks going out, then all coming in, and then the step overwrites GPU blocks. In between, the GPU blocks
a victim has given up and other CPU blocks are handed to other groups, possibly in the same call.

An episode of a group starts with the call that preempts it and ends with the next call that swaps it in.
From any state in which nobody shares a block (`Apart`), every episode brings back what was there: as many
blocks with the same contents, and the same tokens. -/

namespace CacheFlow

open BlockManager Copy

/-! ## Executing an output -/

/-- The contents of the blocks of both devices. -/
structure KvMemory (C : Type) where
  gpu : BlockId → C
  cpu : BlockId → C

namespace KvMemory

variable {C : Type}

/-- A copy from the GPU to the CPU. -/
def swapOut (m : KvMemory C) (op : BlockOp) : KvMemory C :=
  { m with cpu := Function.update m.cpu op.dst (m.gpu op.src) }

/-- A copy from the CPU to the GPU. -/
def swapIn (m : KvMemory C) (op : BlockOp) : KvMemory C :=
  { m with gpu := Function.update m.gpu op.dst (m.cpu op.src) }

/-- The copies of one output: out, then in. -/
def execute (m : KvMemory C) (out : SchedulerOutput) : KvMemory C :=
  out.blockSwapsIn.foldl swapIn (out.blockSwapsOut.foldl swapOut m)

/-- A write of the step that follows. -/
def write (m : KvMemory C) (b : BlockId) (c : C) : KvMemory C :=
  { m with gpu := Function.update m.gpu b c }

theorem foldl_swapOut (m : KvMemory C) (s : SeqId) (ops : List (BlockId × BlockId)) :
    (ops.map (fun c => (⟨s, c.1, c.2⟩ : BlockOp))).foldl swapOut m
      = { m with cpu := copyAll m.gpu ops m.cpu } := by
  induction ops generalizing m with
  | nil => rfl
  | cons op ops ih =>
      rw [List.map_cons, List.foldl_cons, ih]
      rfl

theorem foldl_swapIn (m : KvMemory C) (s : SeqId) (ops : List (BlockId × BlockId)) :
    (ops.map (fun c => (⟨s, c.1, c.2⟩ : BlockOp))).foldl swapIn m
      = { m with gpu := copyAll m.cpu ops m.gpu } := by
  induction ops generalizing m with
  | nil => rfl
  | cons op ops ih =>
      rw [List.map_cons, List.foldl_cons, ih]
      rfl

/-- Executing an output that only differs in copies out, before anything comes in. -/
theorem execute_swapOut {m : KvMemory C} {out out' : SchedulerOutput} {s : SeqId}
    {srcs dsts : List BlockId} (hout : out'.blockSwapsOut = out.blockSwapsOut ++ copies s srcs dsts)
    (hin : out.blockSwapsIn = []) (hin' : out'.blockSwapsIn = []) :
    m.execute out' = { m.execute out with
      cpu := copyAll (m.execute out).gpu (srcs.zip dsts) (m.execute out).cpu } := by
  rw [execute, execute, hout, hin, hin', List.foldl_append]
  exact foldl_swapOut _ s (srcs.zip dsts)

/-- Executing an output that has copies in added at the end. -/
theorem execute_swapIn {m : KvMemory C} {out out' : SchedulerOutput} {s : SeqId}
    {srcs dsts : List BlockId} (hout : out'.blockSwapsOut = out.blockSwapsOut)
    (hin : out'.blockSwapsIn = out.blockSwapsIn ++ copies s srcs dsts) :
    m.execute out' = { m.execute out with
      gpu := copyAll (m.execute out).cpu (srcs.zip dsts) (m.execute out).gpu } := by
  rw [execute, execute, hout, hin, List.foldl_append]
  exact foldl_swapIn _ s (srcs.zip dsts)

end KvMemory

/-! ## The loops over one sequence -/

namespace SequenceData

/-- The blocks a sequence needs the contents of: none when it has finished. -/
def liveBlocks (x : SequenceData) : List BlockId := if x.isFinished then [] else x.logicalBlocks

theorem liveBlocks_of_unfinished {x : SequenceData} (h : x.isFinished = false) :
    x.liveBlocks = x.logicalBlocks := by
  rw [liveBlocks, if_neg (by simp [h])]

theorem liveBlocks_of_finished {x : SequenceData} (h : x.isFinished = true) : x.liveBlocks = [] := by
  rw [liveBlocks, if_pos h]

theorem liveBlocks_grown {x : SequenceData} (h : x.isFinished = false) (bids : List BlockId) :
    ({ x with logicalBlocks := x.logicalBlocks ++ bids } : SequenceData).liveBlocks
      = x.liveBlocks ++ bids := by
  rw [liveBlocks_of_unfinished h]
  exact liveBlocks_of_unfinished h

theorem liveBlocks_running (x : SequenceData) (bids : List BlockId) :
    ({ x with status := .running, logicalBlocks := bids } : SequenceData).liveBlocks = bids :=
  rfl

/-- Moving a sequence changes its blocks and its status, and does not finish it. -/
structure Moved (x y : SequenceData) : Prop where
  seqId : y.seqId = x.seqId
  promptTokens : y.promptTokens = x.promptTokens
  outputTokens : y.outputTokens = x.outputTokens
  finished : y.isFinished = x.isFinished

end SequenceData

open SequenceData

/-- What swapping out does to one sequence, with room on the CPU. -/
theorem swapOutSequence_spec (st : BlockManager × List BlockOp) (x : SequenceData)
    (hn : x.liveBlocks.length ≤ (st.1.freeList .cpu).length) (hin : st.1.FreeInRange) :
    ∃ dsts : List BlockId, Moved x (swapOutSequence st x).1 ∧
      (swapOutSequence st x).1.liveBlocks = dsts ∧ dsts.length = x.liveBlocks.length ∧
      (swapOutSequence st x).2.2 = st.2 ++ copies x.seqId x.liveBlocks dsts ∧
      st.1.freeList .cpu = dsts ++ (swapOutSequence st x).2.1.freeList .cpu ∧
      ((swapOutSequence st x).2.1.freeList .cuda).Subperm (x.liveBlocks ++ st.1.freeList .cuda) ∧
      (swapOutSequence st x).2.1.FreeInRange := by
  by_cases hfin : x.isFinished = true
  · rw [swapOutSequence, if_pos hfin, liveBlocks_of_finished hfin]
    exact ⟨[], ⟨rfl, rfl, rfl, rfl⟩, rfl, rfl, by simp [copies], rfl, List.Subperm.refl _, hin⟩
  · have hfin' : x.isFinished = false := by simpa using hfin
    rw [liveBlocks_of_unfinished hfin'] at hn ⊢
    obtain ⟨-, hsub, hrange⟩ := swapOutBlocks_spec x.seqId x.logicalBlocks st hn hin
    rw [swapOutSequence_of_unfinished hfin']
    exact ⟨(swapOutBlocks x.seqId x.logicalBlocks st).1, ⟨rfl, rfl, rfl, hfin'.symm⟩,
      liveBlocks_of_unfinished rfl, swapOutBlocks_length _ _ _, swapOutBlocks_copies _ _ _,
      swapOutBlocks_cpu _ _ _ hn hin, hsub, hrange⟩

/-- What swapping in does to one sequence. -/
theorem swapInSequence_spec (st : BlockManager × List BlockOp) (x : SequenceData)
    (hn : x.liveBlocks.length ≤ (st.1.freeList .cuda).length) (hin : st.1.FreeInRange) :
    ∃ dsts : List BlockId, Moved x (swapInSequence st x).1 ∧
      (swapInSequence st x).1.liveBlocks = dsts ∧ dsts.length = x.liveBlocks.length ∧
      (swapInSequence st x).2.2 = st.2 ++ copies x.seqId x.liveBlocks dsts ∧
      Handed st.1 (swapInSequence st x).2.1 x.seqId .cuda dsts := by
  by_cases hfin : x.isFinished = true
  · rw [swapInSequence, if_pos hfin, liveBlocks_of_finished hfin]
    exact ⟨[], ⟨rfl, rfl, rfl, rfl⟩, rfl, rfl, by simp [copies], Handed.nil _ _ _⟩
  · have hfin' : x.isFinished = false := by simpa using hfin
    rw [liveBlocks_of_unfinished hfin'] at hn ⊢
    rw [swapInSequence_of_unfinished hfin']
    exact ⟨(swapInBlocks x.seqId x.logicalBlocks st).1, ⟨rfl, rfl, rfl, hfin'.symm⟩,
      liveBlocks_of_unfinished rfl, swapInBlocks_length _ _ _, swapInBlocks_copies _ _ _,
      swapInBlocks_handed _ _ _ hn (hin .cuda)⟩

namespace Scheduler

open ScheduleState

/-! ## Nobody shares a block -/

/-- The blocks of the groups in a queue. -/
def liveIn (st : Scheduler) (queue : List GroupPtr) : List BlockId :=
  queue.flatMap (fun p => (st.seq p).liveBlocks)

/-- Queued groups have one sequence each, waiting ones no blocks, and no block is free and held, or held
    twice: on the GPU by the running sequences, on the CPU by the swapped ones. -/
structure Apart (st : Scheduler) : Prop where
  nodup : st.queued.Nodup
  single : ∀ p ∈ st.queued, (st.groups p).Single
  range : st.blockManager.FreeInRange
  waiting : ∀ p ∈ st.waiting, (st.seq p).logicalBlocks = []
  gpu : (st.blockManager.freeList .cuda ++ st.liveIn st.running).Nodup
  cpu : (st.blockManager.freeList .cpu ++ st.liveIn st.swapped).Nodup

/-- The sequence of `p` is replaced by `x`. -/
def liveWith (st : Scheduler) (p : GroupPtr) (x : SequenceData) (queue : List GroupPtr) :
    List BlockId :=
  queue.flatMap (fun q => (if q = p then x else st.seq q).liveBlocks)

theorem liveWith_of_notMem {st : Scheduler} {p : GroupPtr} {x : SequenceData}
    {queue : List GroupPtr} (h : p ∉ queue) : st.liveWith p x queue = st.liveIn queue := by
  refine List.flatMap_congr ?_
  intro q hq
  rw [if_neg (fun hqp : q = p => h (hqp ▸ hq))]

theorem liveWith_concat {st : Scheduler} {p : GroupPtr} {x : SequenceData}
    {queue : List GroupPtr} (h : p ∉ queue) :
    st.liveWith p x (queue ++ [p]) = st.liveIn queue ++ x.liveBlocks := by
  have hsplit : st.liveWith p x (queue ++ [p])
      = st.liveWith p x queue ++ (if p = p then x else st.seq p).liveBlocks := by
    simp [liveWith]
  rw [hsplit, liveWith_of_notMem h, if_pos rfl]

/-- Growing the sequence of a queued group. -/
theorem liveWith_perm {st : Scheduler} {p : GroupPtr} {x : SequenceData} {bids : List BlockId}
    {queue : List GroupPtr} (hnodup : queue.Nodup) (hp : p ∈ queue)
    (hx : x.liveBlocks = (st.seq p).liveBlocks ++ bids) :
    (st.liveWith p x queue).Perm (bids ++ st.liveIn queue) := by
  have hperm := List.perm_cons_erase hp
  have hrest : p ∉ queue.erase p := fun hin => ((List.Nodup.mem_erase_iff hnodup).1 hin).1 rfl
  have hnew : (st.liveWith p x queue).Perm (x.liveBlocks ++ st.liveIn (queue.erase p)) := by
    refine (hperm.flatMap_right _).trans (List.Perm.of_eq ?_)
    rw [List.flatMap_cons, if_pos rfl]
    exact congrArg (x.liveBlocks ++ ·) (liveWith_of_notMem hrest)
  have hold : (st.liveIn queue).Perm ((st.seq p).liveBlocks ++ st.liveIn (queue.erase p)) :=
    hperm.flatMap_right _
  refine hnew.trans ?_
  rw [hx, List.append_assoc]
  refine (List.perm_append_comm_assoc _ _ _).trans (List.Perm.append_left bids ?_)
  exact hold.symm

namespace Apart

variable {st : Scheduler} {p : GroupPtr}

theorem queues (h : st.Apart) : st.QueuesDisjoint := h.nodup

/-- **Moving one group.** Sequence `x` replaces the one of `p`, and `p` changes queues. -/
theorem put (h : st.Apart) {x : SequenceData} {bm : BlockManager}
    {running waiting swapped : List GroupPtr} (hx : x.seqId = (st.seq p).seqId)
    (hq : (running ++ (waiting ++ swapped)).Perm st.queued) (hrange : bm.FreeInRange)
    (hwait : ∀ q ∈ waiting, q ≠ p ∧ q ∈ st.waiting)
    (hgpu : (bm.freeList .cuda ++ st.liveWith p x running).Nodup)
    (hcpu : (bm.freeList .cpu ++ st.liveWith p x swapped).Nodup) :
    { st.putSequences p [x] bm with
      running := running, waiting := waiting, swapped := swapped }.Apart := by
  have hseq : ∀ q, { st.putSequences p [x] bm with
      running := running, waiting := waiting, swapped := swapped }.seq q
      = if q = p then x else st.seq q := fun q => seq_of_groups rfl q
  have hheld : ∀ queue, { st.putSequences p [x] bm with
      running := running, waiting := waiting, swapped := swapped }.liveIn queue
      = st.liveWith p x queue := by
    intro queue
    simp only [liveIn, liveWith, hseq]
  refine ⟨hq.nodup_iff.2 h.nodup, ?_, hrange, ?_, ?_, ?_⟩
  · intro q hmem
    have hsingle := h.single q (hq.mem_iff.1 hmem)
    by_cases hqp : q = p
    · subst hqp
      refine ⟨by simp [putSequences], ?_⟩
      simpa [putSequences] using hx.trans hsingle.seqId
    · simpa [putSequences, hqp] using hsingle
  · intro q hqw
    obtain ⟨hqp, hold⟩ := hwait q hqw
    rw [hseq, if_neg hqp]
    exact h.waiting q hold
  · rw [hheld]
    exact hgpu
  · rw [hheld]
    exact hcpu

/-! ### The moves of a scheduling step -/

theorem decodeGroup {s : ScheduleState} (h : s.sched.Apart) (hp : p ∈ s.sched.running)
    (hfin : (s.sched.seq p).isFinished = false)
    (hfits : missingBlocks s.sched.blockManager (s.sched.seq p)
      ≤ (s.sched.blockManager.freeList .cuda).length) : (s.decodeGroup p).sched.Apart := by
  have hmem : p ∈ s.sched.queued := WellFormed.mem_running hp
  obtain ⟨bids, -, hseq, hhand⟩ := allocateFor_handed s.sched.blockManager (s.sched.seq p) _ hfits
    (h.range .cuda)
  rw [decodeGroup_sched (h.single p hmem), appendBlocks_of_unfinished hfin, hseq]
  refine h.put rfl (List.Perm.refl _) (hhand.freeInRange h.range) ?_ ?_ ?_
  · intro q hq
    exact ⟨fun hqp => h.queues.disjoint_running_waiting hp (hqp ▸ hq), hq⟩
  · have hgpu := h.gpu
    rw [hhand.freeList] at hgpu
    have hgrown := liveWith_perm h.queues.nodup_running hp (liveBlocks_grown hfin bids)
    refine ((List.Perm.append_left _ hgrown).trans ?_).nodup_iff.2 hgpu
    rw [List.append_assoc]
    exact List.perm_append_comm_assoc _ _ _
  · rw [liveWith_of_notMem (h.queues.disjoint_running_swapped hp), hhand.freeList_ne .cpu (by decide)]
    exact h.cpu

theorem admitGroup {s : ScheduleState} {rest : List GroupPtr} (h : s.sched.Apart)
    (hwait : s.sched.waiting = p :: rest)
    (hfits : (s.sched.seq p).numBlocksNeeded s.sched.blockManager.blockSize
      ≤ (s.sched.blockManager.freeList .cuda).length) : (s.admitGroup p rest).sched.Apart := by
  have hp : p ∈ s.sched.waiting := by rw [hwait]; exact List.mem_cons_self ..
  have hmem : p ∈ s.sched.queued := WellFormed.mem_waiting hp
  obtain ⟨bids, -, hseq, hhand⟩ := prefillSequence_handed s.sched.blockManager (s.sched.seq p) _
    hfits (h.range .cuda)
  rw [admitGroup_sched (h.single p hmem), hseq]
  refine h.put rfl (List.Perm.of_eq ?_) (hhand.freeInRange h.range) ?_ ?_ ?_
  · rw [queued, hwait]
    simp [putSequences]
  · intro q hq
    refine ⟨fun hqp => h.queues.not_mem_rest_waiting hwait (hqp ▸ hq), ?_⟩
    rw [hwait]
    exact List.mem_cons_of_mem _ hq
  · have hgpu := h.gpu
    rw [hhand.freeList, List.append_assoc] at hgpu
    rw [liveWith_concat (fun hr => h.queues.disjoint_running_waiting hr hp), liveBlocks_running,
      h.waiting p hp, List.nil_append, ← List.append_assoc]
    exact List.perm_append_comm.nodup_iff.2 hgpu
  · show (_ ++ s.sched.liveWith p _ s.sched.swapped).Nodup
    rw [liveWith_of_notMem (h.queues.disjoint_waiting_swapped hp), hhand.freeList_ne .cpu (by decide)]
    exact h.cpu

/-- What swapping out the last running group does: its blocks are copied to CPU blocks that were free. -/
theorem swapOutGroup {s : ScheduleState} {init : List GroupPtr} {v : GroupPtr} (h : s.sched.Apart)
    (hv : s.sched.running = init ++ [v])
    (hcpu : (s.sched.seq v).liveBlocks.length ≤ (s.sched.blockManager.freeList .cpu).length) :
    (s.swapOutGroup v init).sched.Apart ∧
      Moved (s.sched.seq v) ((s.swapOutGroup v init).sched.seq v) ∧
      ∃ dsts rest : List BlockId, ((s.swapOutGroup v init).sched.seq v).liveBlocks = dsts ∧
        dsts.length = (s.sched.seq v).liveBlocks.length ∧
        s.sched.blockManager.freeList .cpu = dsts ++ rest ∧
        (s.swapOutGroup v init).output.blockSwapsOut
          = s.output.blockSwapsOut
            ++ copies (s.sched.seq v).seqId (s.sched.seq v).liveBlocks dsts := by
  have hmem : v ∈ s.sched.running := by rw [hv]; simp
  have hsingle := h.single v (WellFormed.mem_running hmem)
  obtain ⟨dsts, hmoved, hheld, hlen, hops, hfree, hsub, hrange⟩ := swapOutSequence_spec
    (s.sched.blockManager, s.output.blockSwapsOut) (s.sched.seq v) hcpu h.range
  have hself : (s.swapOutGroup v init).sched.seq v
      = (swapOutSequence (s.sched.blockManager, s.output.blockSwapsOut) (s.sched.seq v)).1 := by
    rw [swapOutGroup_sched hsingle, seq_of_groups rfl v, if_pos rfl]
  have hout : (s.swapOutGroup v init).output.blockSwapsOut
      = (swapOutSequence (s.sched.blockManager, s.output.blockSwapsOut) (s.sched.seq v)).2.2 := by
    simp only [ScheduleState.swapOutGroup, hsingle.sequences, threadSequences]
    rfl
  refine ⟨?_, hself ▸ hmoved, dsts, _, by rw [hself]; exact hheld, hlen, hfree,
    hout.trans hops⟩
  rw [swapOutGroup_sched hsingle]
  refine h.put hmoved.seqId ?_ hrange ?_ ?_ ?_
  · rw [queued, hv]
    exact perm_swapOut _ _ _ _
  · intro q hq
    exact ⟨fun hqv => h.queues.disjoint_running_waiting hmem (hqv ▸ hq), hq⟩
  · have hgpu := h.gpu
    rw [hv, liveIn, List.flatMap_append, List.flatMap_singleton] at hgpu
    rw [liveWith_of_notMem (h.queues.not_mem_init hv)]
    refine nodup_of_subperm ?_ hgpu
    refine ((List.subperm_append_right _).2 hsub).trans (List.Perm.subperm ?_)
    rw [List.append_assoc]
    refine (List.perm_append_comm_assoc _ _ _).trans (List.Perm.append_left _ ?_)
    exact List.perm_append_comm
  · have hcpu' := h.cpu
    rw [show s.sched.blockManager.freeList .cpu = dsts ++ _ from hfree] at hcpu'
    rw [liveWith_concat (h.queues.disjoint_running_swapped hmem), hheld, ← List.append_assoc]
    rw [List.append_assoc] at hcpu'
    exact List.perm_append_comm.nodup_iff.2 hcpu'

/-- What swapping in the front of the queue does: its blocks are copied to GPU blocks that were free. -/
theorem swapInGroup {s : ScheduleState} {rest : List GroupPtr} (h : s.sched.Apart)
    (hswap : s.sched.swapped = p :: rest)
    (hfits : (s.sched.seq p).liveBlocks.length ≤ (s.sched.blockManager.freeList .cuda).length) :
    (s.swapInGroup p rest).sched.Apart ∧
      Moved (s.sched.seq p) ((s.swapInGroup p rest).sched.seq p) ∧
      ∃ dsts free : List BlockId, ((s.swapInGroup p rest).sched.seq p).liveBlocks = dsts ∧
        dsts.length = (s.sched.seq p).liveBlocks.length ∧
        s.sched.blockManager.freeList .cuda = dsts ++ free ∧
        (s.swapInGroup p rest).output.blockSwapsIn
          = s.output.blockSwapsIn
            ++ copies (s.sched.seq p).seqId (s.sched.seq p).liveBlocks dsts := by
  have hmem : p ∈ s.sched.swapped := by rw [hswap]; exact List.mem_cons_self ..
  have hsingle := h.single p (WellFormed.mem_swapped hmem)
  obtain ⟨dsts, hmoved, hheld, hlen, hops, hhand⟩ := swapInSequence_spec
    (s.sched.blockManager, s.output.blockSwapsIn) (s.sched.seq p) hfits h.range
  have hself : (s.swapInGroup p rest).sched.seq p
      = (swapInSequence (s.sched.blockManager, s.output.blockSwapsIn) (s.sched.seq p)).1 := by
    rw [swapInGroup_sched hsingle, seq_of_groups rfl p, if_pos rfl]
  have hout : (s.swapInGroup p rest).output.blockSwapsIn
      = (swapInSequence (s.sched.blockManager, s.output.blockSwapsIn) (s.sched.seq p)).2.2 := by
    simp only [ScheduleState.swapInGroup, charge, hsingle.sequences, threadSequences]
    rfl
  refine ⟨?_, hself ▸ hmoved, dsts, _, by rw [hself]; exact hheld, hlen, hhand.freeList,
    hout.trans hops⟩
  rw [swapInGroup_sched hsingle]
  refine h.put hmoved.seqId ?_ (hhand.freeInRange h.range) ?_ ?_ ?_
  · rw [queued, hswap]
    exact perm_swapIn _ _ _ _
  · intro q hq
    exact ⟨fun hqp => h.queues.disjoint_waiting_swapped (hqp ▸ hq) hmem, hq⟩
  · have hgpu := h.gpu
    rw [show s.sched.blockManager.freeList .cuda = dsts ++ _ from hhand.freeList] at hgpu
    rw [liveWith_concat (fun hr => h.queues.disjoint_running_swapped hr hmem), hheld, ← List.append_assoc]
    rw [List.append_assoc] at hgpu
    exact List.perm_append_comm.nodup_iff.2 hgpu
  · have hcpu := h.cpu
    rw [hswap] at hcpu
    rw [liveWith_of_notMem (h.queues.not_mem_rest_swapped hswap), hhand.freeList_ne .cpu (by decide)]
    refine hcpu.sublist (List.Sublist.append_left ?_ _)
    rw [liveIn, liveIn, List.flatMap_cons]
    exact List.sublist_append_right _ _

theorem sorted (h : st.Apart) {w : List GroupPtr} (hperm : w.Perm st.waiting) :
    { st with waiting := w }.Apart := by
  have hqueued : (st.running ++ (w ++ st.swapped)).Perm st.queued :=
    List.Perm.append_left _ (List.Perm.append_right _ hperm)
  exact ⟨hqueued.nodup_iff.2 h.nodup, fun q hq => h.single q (hqueued.mem_iff.1 hq), h.range,
    fun q hq => h.waiting q (hperm.mem_iff.1 hq), h.gpu, h.cpu⟩

end Apart

/-! ## Following one group through a call -/

variable {C : Type}

/-- The sequence `y`, with its blocks in the memory `mem`, has the tokens of `x` and these contents. -/
structure Saved (x : SequenceData) (contents : List C) (y : SequenceData) (mem : BlockId → C) :
    Prop where
  moved : Moved x y
  contents : y.liveBlocks.map mem = contents

/-- In the call that starts with the memory `m` and has come to `s`, the group `q` is saved: on the CPU
    until the call swaps it in, on the GPU from then on. -/
def Tracked (q : GroupPtr) (x : SequenceData) (contents : List C) (m : KvMemory C)
    (s : ScheduleState) : Prop :=
  (q ∈ s.sched.swapped ∧ q ∉ s.output.swappedInGroups ∧
    Saved x contents (s.sched.seq q) (m.execute s.output).cpu) ∨
  (q ∈ s.sched.running ∧ q ∈ s.output.swappedInGroups ∧
    Saved x contents (s.sched.seq q) (m.execute s.output).gpu)

theorem Saved.of_map {x y : SequenceData} {contents : List C} {mem mem' : BlockId → C}
    (h : Saved x contents y mem) (hmem : y.liveBlocks.map mem' = y.liveBlocks.map mem) :
    Saved x contents y mem' :=
  ⟨h.moved, hmem.trans h.contents⟩

theorem mem_liveIn {st : Scheduler} {q : GroupPtr} {queue : List GroupPtr} (hq : q ∈ queue)
    {b : BlockId} (hb : b ∈ (st.seq q).liveBlocks) : b ∈ st.liveIn queue :=
  List.mem_flatMap.2 ⟨q, hq, hb⟩

/-- Copies to blocks that were free leave the blocks of the queue. -/
theorem map_copyAll_live {st : Scheduler} {q : GroupPtr} {queue : List GroupPtr}
    {free dsts rest srcs : List BlockId} {src dst : BlockId → C}
    (hpool : (free ++ st.liveIn queue).Nodup) (hfree : free = dsts ++ rest)
    (hlen : dsts.length = srcs.length) (hq : q ∈ queue) :
    (st.seq q).liveBlocks.map (copyAll src (srcs.zip dsts) dst) = (st.seq q).liveBlocks.map dst := by
  refine map_copyAll_of_disjoint ?_
  rw [List.map_snd_zip (Nat.le_of_eq hlen)]
  intro b hb hdst
  refine (List.nodup_append.1 hpool).2.2 b ?_ b (mem_liveIn hq hb) rfl
  rw [hfree]
  exact List.mem_append_left _ hdst

namespace Tracked

variable {q : GroupPtr} {x : SequenceData} {contents : List C} {m : KvMemory C} {s : ScheduleState}

theorem sorted (h : Tracked q x contents m s) (w : List GroupPtr) :
    Tracked q x contents m { s with sched := { s.sched with waiting := w } } :=
  h

theorem admitGroup {p : GroupPtr} {rest : List GroupPtr} (h : Tracked q x contents m s)
    (hs : s.sched.Apart) (hwait : s.sched.waiting = p :: rest) :
    Tracked q x contents m (s.admitGroup p rest) := by
  have hp : p ∈ s.sched.waiting := by rw [hwait]; exact List.mem_cons_self ..
  have hseq : q ≠ p → (s.admitGroup p rest).sched.seq q = s.sched.seq q := by
    intro hqp
    simp [Scheduler.seq, ScheduleState.admitGroup, charge, putSequences, hqp]
  rcases h with ⟨hq, hnot, hsaved⟩ | ⟨hq, hin, hsaved⟩
  · have hqp : q ≠ p := fun heq => hs.queues.disjoint_waiting_swapped hp (heq ▸ hq)
    refine Or.inl ⟨hq, hnot, ?_⟩
    rw [hseq hqp]
    exact hsaved
  · have hqp : q ≠ p := fun heq => hs.queues.disjoint_running_waiting hq (heq ▸ hp)
    refine Or.inr ⟨List.mem_append_left _ hq, hin, ?_⟩
    rw [hseq hqp]
    exact hsaved

/-- Swapping in a group brings back its contents and leaves those of the others. -/
theorem swapInGroup {p : GroupPtr} {rest : List GroupPtr} (h : Tracked q x contents m s)
    (hs : s.sched.Apart) (hswap : s.sched.swapped = p :: rest)
    (hfits : (s.sched.seq p).liveBlocks.length ≤ (s.sched.blockManager.freeList .cuda).length) :
    Tracked q x contents m (s.swapInGroup p rest) := by
  have hp : p ∈ s.sched.swapped := by rw [hswap]; exact List.mem_cons_self ..
  obtain ⟨-, hmoved, dsts, free, hheld, hlen, hfree, hops⟩ := hs.swapInGroup hswap hfits
  have hmem : m.execute (s.swapInGroup p rest).output = { m.execute s.output with
      gpu := copyAll (m.execute s.output).cpu ((s.sched.seq p).liveBlocks.zip dsts)
        (m.execute s.output).gpu } := KvMemory.execute_swapIn rfl hops
  have hseq : q ≠ p → (s.swapInGroup p rest).sched.seq q = s.sched.seq q := by
    intro hqp
    simp [Scheduler.seq, ScheduleState.swapInGroup, charge, putSequences, hqp]
  rcases h with ⟨hq, hnot, hsaved⟩ | ⟨hq, hin, hsaved⟩
  · by_cases hqp : q = p
    · subst hqp
      have hnodup : dsts.Nodup := by
        have hpool := hs.gpu
        rw [hfree, List.append_assoc] at hpool
        exact (List.nodup_append.1 hpool).1
      refine Or.inr ⟨List.mem_append_right _ (List.mem_singleton_self q),
        List.mem_append_right _ (List.mem_singleton_self q), ?_, ?_⟩
      · exact ⟨hmoved.seqId.trans hsaved.moved.seqId,
          hmoved.promptTokens.trans hsaved.moved.promptTokens,
          hmoved.outputTokens.trans hsaved.moved.outputTokens,
          hmoved.finished.trans hsaved.moved.finished⟩
      · rw [hheld, hmem]
        exact (map_copyAll_zip hlen.symm hnodup).trans hsaved.contents
    · refine Or.inl ⟨?_, ?_, ?_⟩
      · rw [hswap] at hq
        exact (List.mem_cons.1 hq).resolve_left hqp
      · exact fun hin => hnot (mem_of_mem_concat hin hqp)
      · rw [hseq hqp, hmem]
        exact hsaved
  · have hqp : q ≠ p := fun heq => hs.queues.disjoint_running_swapped hq (heq ▸ hp)
    refine Or.inr ⟨List.mem_append_left _ hq, List.mem_append_left _ hin, ?_⟩
    rw [hseq hqp, hmem]
    exact hsaved.of_map (map_copyAll_live hs.gpu hfree hlen hq)

/-- Swapping out another group leaves the contents of a swapped one. -/
theorem swapOutGroup {init : List GroupPtr} {v : GroupPtr} (hs : s.sched.Apart)
    (hq : q ∈ s.sched.swapped) (hnot : q ∉ s.output.swappedInGroups)
    (hsaved : Saved x contents (s.sched.seq q) (m.execute s.output).cpu)
    (hin : s.output.blockSwapsIn = []) (hv : s.sched.running = init ++ [v])
    (hcpu : (s.sched.seq v).liveBlocks.length ≤ (s.sched.blockManager.freeList .cpu).length) :
    Tracked q x contents m (s.swapOutGroup v init) := by
  obtain ⟨-, -, dsts, free, -, hlen, hfree, hops⟩ := hs.swapOutGroup hv hcpu
  have hmem := KvMemory.execute_swapOut (m := m) hops hin hin
  have hqv : q ≠ v := by
    rintro rfl
    exact hs.queues.disjoint_running_swapped (by rw [hv]; simp) hq
  have hseq : (s.swapOutGroup v init).sched.seq q = s.sched.seq q := by
    simp [Scheduler.seq, ScheduleState.swapOutGroup, putSequences, hqv]
  refine Or.inl ⟨List.mem_append_left _ hq, hnot, ?_⟩
  rw [hseq, hmem]
  exact hsaved.of_map (map_copyAll_live hs.cpu hfree hlen hq)

/-- The victim of a preemption is saved with the contents it had. -/
theorem of_swapOutGroup {init : List GroupPtr} {v : GroupPtr} (hs : s.sched.Apart)
    (hin : s.output.blockSwapsIn = []) (hnot : v ∉ s.output.swappedInGroups)
    (hv : s.sched.running = init ++ [v])
    (hcpu : (s.sched.seq v).liveBlocks.length ≤ (s.sched.blockManager.freeList .cpu).length) :
    Tracked v (s.sched.seq v) ((s.sched.seq v).liveBlocks.map (m.execute s.output).gpu) m
      (s.swapOutGroup v init) := by
  obtain ⟨-, hmoved, dsts, free, hheld, hlen, hfree, hops⟩ := hs.swapOutGroup hv hcpu
  have hmem := KvMemory.execute_swapOut (m := m) hops hin hin
  have hnodup : dsts.Nodup := by
    have hpool := hs.cpu
    rw [hfree, List.append_assoc] at hpool
    exact (List.nodup_append.1 hpool).1
  refine Or.inl ⟨List.mem_append_right _ (List.mem_singleton_self v), hnot, hmoved, ?_⟩
  rw [hheld, hmem]
  exact map_copyAll_zip hlen.symm hnodup

end Tracked

/-! ## One call -/

/-- What holds while the decode loop of the call starting in `st` runs. -/
structure Decoding (st : Scheduler) (s : ScheduleState) : Prop where
  apart : s.sched.Apart
  config : s.sched.config = st.config
  swapped : s.sched.swapped = st.swapped
  swapsOut : s.output.blockSwapsOut = []
  swapsIn : s.output.blockSwapsIn = []
  swappedIn : s.output.swappedInGroups = []
  preempted : s.output.preemptedGroups = []
  kept : ∀ q, q ∉ s.output.scheduledGroups → s.sched.groups q = st.groups q

theorem Apart.decoding {st : Scheduler} (h : st.Apart) :
    st.Decoding (decodeLoop st.running st.beginSchedule).1 := by
  refine (st.decodeLoop_invariant (P := st.Decoding)
    ⟨h, rfl, rfl, rfl, rfl, rfl, rfl, fun _ _ => rfl⟩ ?_).1
  intro s p rest hs hat hfin hfits
  have hp := hat.mem_running
  have hsingle := hs.apart.single p (WellFormed.mem_running hp)
  rw [hsingle.allFinished] at hfin
  refine ⟨hs.apart.decodeGroup hp hfin ((hsingle.canAppend _ hfin).1 hfits.2.2), hs.config,
    hs.swapped, hs.swapsOut, hs.swapsIn, hs.swappedIn, hs.preempted, ?_⟩
  intro q hq
  have hq' : q ∉ s.output.scheduledGroups ++ [p] := hq
  have hqp : q ≠ p := fun heq => hq' (List.mem_append_right _ (List.mem_singleton.2 heq))
  rw [← hs.kept q (fun hmem => hq' (List.mem_append_left _ hmem))]
  simp [ScheduleState.decodeGroup, charge, putSequences, hqp]

theorem liveBlocks_length {g : SequenceGroup} (hsingle : g.Single) :
    g.seq.liveBlocks.length = swapInBlockCount g := by
  by_cases hfin : g.seq.isFinished = true
  · rw [liveBlocks_of_finished hfin, swapInBlockCount, hsingle.sequences]
    simp [hfin]
  · have hfin' : g.seq.isFinished = false := by simpa using hfin
    rw [liveBlocks_of_unfinished hfin', hsingle.swapInBlockCount hfin']

/-- A group that is swapped in finds as many GPU blocks as it has. -/
theorem swapIn_room {s : ScheduleState} {p : GroupPtr} (hfits : s.swapInFits p)
    (hsingle : (s.sched.groups p).Single) :
    (s.sched.seq p).liveBlocks.length ≤ (s.sched.blockManager.freeList .cuda).length := by
  rw [Scheduler.seq, liveBlocks_length hsingle]
  exact of_decide_eq_true hfits.2.2

/-- A preemption of a call that finds enough CPU blocks. -/
theorem PreemptsAt.swapOut {st : Scheduler} (h : st.Apart)
    (hmode : st.config.preemptionMode = .swap) (hcpu : st.CpuSuffices) {s : ScheduleState}
    (hat : st.PreemptsAt s) {init : List GroupPtr} {v : GroupPtr}
    (hv : s.sched.running = init ++ [v]) :
    st.Decoding s ∧ s.preempt = s.swapOutGroup v init ∧
      (s.sched.seq v).liveBlocks.length ≤ (s.sched.blockManager.freeList .cpu).length := by
  have hs := h.decoding
  rw [hat] at hs
  refine ⟨hs, ?_, ?_⟩
  · rw [preempt_eq hv, hs.config, hmode]
  · have hsingle := hs.apart.single v (WellFormed.mem_running (by rw [hv]; simp))
    rw [Scheduler.seq, liveBlocks_length hsingle]
    exact hcpu.room hat hv

/-- The group a call preempts is the last running one where its decode loop stops. -/
theorem mem_preempted {st : Scheduler} (h : st.Apart) {p : GroupPtr}
    (hmode : st.config.preemptionMode = .swap) (hcpu : st.CpuSuffices)
    (hp : p ∈ st.schedule.1.preemptedGroups) :
    ∃ s init, st.PreemptsAt s ∧ s.sched.running = init ++ [p] := by
  have hrest : st.afterSwapIn.output.preemptedGroups = st.afterDecodes.output.preemptedGroups := by
    refine st.afterSwapIn_invariant_of
      (P := fun s => s.output.preemptedGroups = st.afterDecodes.output.preemptedGroups) rfl ?_ ?_
    · exact fun _ _ _ hs _ _ _ => hs
    · exact fun _ _ _ hs _ _ => hs
  have hp' : p ∈ st.afterDecodes.output.preemptedGroups := hrest ▸ hp
  refine st.afterDecodes_of_loop (P := fun s => p ∈ s.output.preemptedGroups →
    ∃ s init, st.PreemptsAt s ∧ s.sched.running = init ++ [p]) ?_ ?_ hp'
  · intro hmem
    rw [h.decoding.preempted] at hmem
    exact absurd hmem List.not_mem_nil
  · intro s init v _ hat hv hmem
    obtain ⟨hs, heq, -⟩ := hat.swapOut h hmode hcpu hv
    rw [heq] at hmem
    have hpv : p = v := by
      have hmem' : p ∈ s.output.preemptedGroups ++ [v] := hmem
      rw [hs.preempted, List.nil_append] at hmem'
      exact List.mem_singleton.1 hmem'
    exact ⟨s, init, hat, hpv ▸ hv⟩

theorem Apart.afterDecodes {st : Scheduler} (h : st.Apart)
    (hmode : st.config.preemptionMode = .swap) (hcpu : st.CpuSuffices) :
    st.afterDecodes.sched.Apart := by
  refine st.afterDecodes_of_loop (P := fun s => s.sched.Apart) h.decoding.apart ?_
  intro s init v _ hat hv
  obtain ⟨hs, heq, hroom⟩ := hat.swapOut h hmode hcpu hv
  rw [heq]
  exact (hs.apart.swapOutGroup hv hroom).1

/-- **Rule for the other phases** of a call, when nobody shares a block. -/
theorem afterSwapIn_apart {Q : ScheduleState → Prop} {st : Scheduler}
    (h : st.afterDecodes.sched.Apart) (hQ : Q st.afterDecodes)
    (hsort : ∀ s w, Q s → Q { s with sched := { s.sched with waiting := w } })
    (hfront : ∀ s p rest, s.sched.Apart → Q s → s.sched.waiting = p :: rest →
      Q (s.admitGroup p rest))
    (hswap : ∀ s p rest, s.sched.Apart → Q s → s.sched.swapped = p :: rest →
      (s.sched.seq p).liveBlocks.length ≤ (s.sched.blockManager.freeList .cuda).length →
      Q (s.swapInGroup p rest)) :
    st.afterSwapIn.sched.Apart ∧ Q st.afterSwapIn := by
  refine st.afterSwapIn_invariant_of (P := fun s => s.sched.Apart ∧ Q s) ?_ ?_ ?_
  · obtain ⟨w, hperm, hw⟩ := st.afterDecodes.sched.sortWaitingQueue_eq
    rw [beforePrefills, hw]
    exact ⟨h.sorted hperm, hsort _ w hQ⟩
  · rintro s p rest ⟨hs, hQs⟩ - hwait hfits
    have hsingle := hs.single p (WellFormed.mem_waiting (by rw [hwait]; simp))
    exact ⟨hs.admitGroup hwait (hfits.room hsingle), hfront s p rest hs hQs hwait⟩
  · rintro s p rest ⟨hs, hQs⟩ hback hfits
    have hsingle := hs.single p (WellFormed.mem_swapped (by rw [hback]; simp))
    have hroom := swapIn_room hfits hsingle
    exact ⟨(hs.swapInGroup hback hroom).1, hswap s p rest hs hQs hback hroom⟩

theorem Apart.schedule {st : Scheduler} (h : st.Apart)
    (hmode : st.config.preemptionMode = .swap) (hcpu : st.CpuSuffices) : st.schedule.2.Apart :=
  (afterSwapIn_apart (Q := fun _ => True) (h.afterDecodes hmode hcpu) trivial
    (fun _ _ _ => trivial) (fun _ _ _ _ _ _ => trivial) (fun _ _ _ _ _ _ _ => trivial)).1

/-- A call follows a group that is saved when the decode phase ends. -/
theorem afterSwapIn_tracked {st : Scheduler} {q : GroupPtr} {x : SequenceData}
    {contents : List C} {m : KvMemory C} (h : st.afterDecodes.sched.Apart)
    (htrack : Tracked q x contents m st.afterDecodes) : Tracked q x contents m st.afterSwapIn :=
  (afterSwapIn_apart h htrack (fun _ w ht => ht.sorted w)
    (fun _ _ _ hs ht hwait => ht.admitGroup hs hwait)
    (fun _ _ _ hs ht hswap hfits => ht.swapInGroup hs hswap hfits)).2

/-- A group that is swapped when a call starts stays saved. -/
theorem Apart.swapped_tracked {st : Scheduler} (h : st.Apart)
    (hmode : st.config.preemptionMode = .swap) (hcpu : st.CpuSuffices) {q : GroupPtr}
    {x : SequenceData} {contents : List C} {m : KvMemory C} (hq : q ∈ st.swapped)
    (hsaved : Saved x contents (st.seq q) m.cpu) : Tracked q x contents m st.afterSwapIn := by
  refine afterSwapIn_tracked (h.afterDecodes hmode hcpu) ?_
  -- nothing has happened to the group when the decode loop ends
  have hloop : ∀ s, st.Decoding s → (∀ p ∈ s.output.scheduledGroups, p ∈ st.running) →
      q ∈ s.sched.swapped ∧ q ∉ s.output.swappedInGroups ∧
        Saved x contents (s.sched.seq q) (m.execute s.output).cpu := by
    intro s hs hsub
    have hnot : q ∉ s.output.scheduledGroups := fun hmem => h.queues.disjoint_running_swapped (hsub q hmem) hq
    refine ⟨by rw [hs.swapped]; exact hq, by rw [hs.swappedIn]; exact List.not_mem_nil, ?_⟩
    rw [Scheduler.seq, hs.kept q hnot, KvMemory.execute, hs.swapsOut, hs.swapsIn]
    exact hsaved
  have hsub := (st.decodeLoop_invariant
    (P := fun s => ∀ p ∈ s.output.scheduledGroups, p ∈ st.running)
    (fun _ hp => absurd hp List.not_mem_nil) ?_).1
  · refine st.afterDecodes_of_loop (P := fun s => Tracked q x contents m s)
      (Or.inl (hloop _ h.decoding hsub)) ?_
    intro s init v _ hat hv
    obtain ⟨hs, heq, hroom⟩ := hat.swapOut h hmode hcpu hv
    rw [hat] at hsub
    obtain ⟨hq', hnot, hsaved'⟩ := hloop s hs hsub
    rw [heq]
    exact Tracked.swapOutGroup hs.apart hq' hnot hsaved' hs.swapsIn hv hroom
  · intro s p rest hs hat _ _ r hr
    rcases List.mem_append.1 hr with hr | hr
    · exact hs r hr
    · rw [List.mem_singleton.1 hr, ← hat.1]
      exact hat.mem_running

/-- A group that a call preempts is saved with the contents it had before the call. -/
theorem Apart.preempted_tracked {st : Scheduler} (h : st.Apart)
    (hmode : st.config.preemptionMode = .swap) (hcpu : st.CpuSuffices) {p : GroupPtr}
    (hp : p ∈ st.schedule.1.preemptedGroups) (m : KvMemory C) :
    Tracked p (st.seq p) ((st.seq p).liveBlocks.map m.gpu) m st.afterSwapIn := by
  obtain ⟨s, init, hat, hv⟩ := mem_preempted h hmode hcpu hp
  obtain ⟨hs, heq, hroom⟩ := hat.swapOut h hmode hcpu hv
  have hseq : s.sched.seq p = st.seq p := by
    rw [Scheduler.seq, hs.kept p (hat.victim_not_scheduled h.queues.nodup_running hv), Scheduler.seq]
  have hmem : m.execute s.output = m := by
    rw [KvMemory.execute, hs.swapsOut, hs.swapsIn]
    rfl
  have htrack := Tracked.of_swapOutGroup (m := m) hs.apart hs.swapsIn
    (by rw [hs.swappedIn]; exact List.not_mem_nil) hv hroom
  rw [hseq, hmem, ← heq, ← hat.afterDecodes] at htrack
  exact afterSwapIn_tracked (h.afterDecodes hmode hcpu) htrack

/-! ## Updates between the calls -/

theorem Apart.updateAfterDecode {st : Scheduler} (h : st.Apart) (out : SchedulerOutput)
    (toks : List TokenId) (now : TimePoint) : (st.updateAfterDecode out toks now).Apart := by
  have hupd : ∀ p ∈ st.queued, Updates (st.groups p)
      ((st.updateAfterDecode out toks now).groups p) :=
    fun p hp => updateGroups_updates now _ _ _ _ (h.single p hp)
  have hlive : ∀ queue : List GroupPtr, (∀ p ∈ queue, p ∈ st.queued) →
      ((st.updateAfterDecode out toks now).liveIn queue).Sublist (st.liveIn queue) := by
    intro queue hqueue
    refine List.Sublist.flatMap_right queue (fun p hp => ?_)
    have hext := (hupd p (hqueue p hp)).seq
    by_cases hfin : ((st.updateAfterDecode out toks now).seq p).isFinished = true
    · rw [liveBlocks_of_finished hfin]
      exact List.nil_sublist _
    · have hfin' : ((st.updateAfterDecode out toks now).seq p).isFinished = false := by
        simpa using hfin
      have hold : (st.seq p).isFinished = false := by
        rw [SequenceData.isFinished, Scheduler.seq, ← hext.status_of_unfinished hfin']
        exact hfin'
      rw [liveBlocks_of_unfinished hfin', liveBlocks_of_unfinished hold]
      exact hext.logicalBlocks ▸ List.Sublist.refl _
  refine ⟨h.nodup, fun p hp => (hupd p hp).single, h.range, ?_, ?_, ?_⟩
  · intro p hp
    exact (hupd p (WellFormed.mem_waiting hp)).seq.logicalBlocks.trans (h.waiting p hp)
  · exact h.gpu.sublist ((List.Sublist.refl _).append (hlive _ (fun _ => WellFormed.mem_running)))
  · exact h.cpu.sublist ((List.Sublist.refl _).append (hlive _ (fun _ => WellFormed.mem_swapped)))

end Scheduler

/-! ## Runs of the executor -/

/-- The scheduler, the output of its latest call and the memories. -/
structure Executor (C : Type) where
  sched : Scheduler
  output : SchedulerOutput
  mem : KvMemory C

namespace Executor

variable {C : Type}

/-- A call of `schedule()` whose copies are executed at once, `update_after_decode` with the latest
    output, or a write to a GPU block. -/
inductive Op (C : Type)
  | schedule
  | updateAfterDecode (newTokens : List TokenId) (now : TimePoint)
  | write (b : BlockId) (c : C)

def step (e : Executor C) : Op C → Executor C
  | .schedule =>
    { sched := e.sched.schedule.2,
      output := e.sched.schedule.1,
      mem := e.mem.execute e.sched.schedule.1 }
  | .updateAfterDecode newTokens now =>
    { e with sched := e.sched.updateAfterDecode e.output newTokens now }
  | .write b c => { e with mem := e.mem.write b c }

/-- Preemptions find enough CPU blocks. -/
def Permitted (e : Executor C) : Op C → Prop
  | .schedule => e.sched.CpuSuffices
  | _ => True

/-- The operation is a call that swaps `p` in. -/
def SwapsIn (p : GroupPtr) (e : Executor C) : Op C → Prop
  | .schedule => p ∈ e.sched.schedule.1.swappedInGroups
  | _ => False

/-- Nobody shares a block, and the groups of the latest output run. -/
structure Ready (e : Executor C) : Prop where
  mode : e.sched.config.preemptionMode = .swap
  apart : e.sched.Apart
  scheduled : ∀ p ∈ e.output.scheduledGroups, p ∈ e.sched.running

theorem Ready.step {e : Executor C} (h : e.Ready) (op : Op C) (hop : e.Permitted op) :
    (e.step op).Ready := by
  cases op with
  | schedule =>
      refine ⟨?_, h.apart.schedule h.mode hop,
        Scheduler.schedule_scheduled_running h.apart.queues.nodup_running⟩
      show e.sched.schedule.2.config.preemptionMode = .swap
      rw [e.sched.schedule_frame.2.2]
      exact h.mode
  | updateAfterDecode newTokens now =>
      exact ⟨h.mode, h.apart.updateAfterDecode e.output newTokens now, h.scheduled⟩
  | write b c => exact ⟨h.mode, h.apart, h.scheduled⟩

/-- The call starting in `a` preempts `p`, and `b` is the state after the next call that swaps `p` in:
    the same call, or a later one with no such call in between. -/
structure Episode (p : GroupPtr) (a b : Executor C) : Prop where
  cpu : a.sched.CpuSuffices
  preempted : p ∈ a.sched.schedule.1.preemptedGroups
  back : (p ∈ a.sched.schedule.1.swappedInGroups ∧ b = a.step .schedule) ∨
    (p ∉ a.sched.schedule.1.swappedInGroups ∧ ∃ c : Executor C,
      Run.Reach step (fun e op => e.Permitted op ∧ ¬ SwapsIn p e op) (a.step .schedule) c ∧
      c.sched.CpuSuffices ∧ p ∈ c.sched.schedule.1.swappedInGroups ∧ b = c.step .schedule)

/-- The sequence of `p` is in `b` what it was in `a`. -/
structure Restored (p : GroupPtr) (a b : Executor C) : Prop where
  blocks : (b.sched.seq p).logicalBlocks.length = (a.sched.seq p).logicalBlocks.length
  promptTokens : (b.sched.seq p).promptTokens = (a.sched.seq p).promptTokens
  outputTokens : (b.sched.seq p).outputTokens = (a.sched.seq p).outputTokens
  contents : (b.sched.seq p).logicalBlocks.map b.mem.gpu
    = (a.sched.seq p).logicalBlocks.map a.mem.gpu

/-- While a group is swapped, its contents are on the CPU. -/
structure Parked (p : GroupPtr) (x : SequenceData) (contents : List C) (e : Executor C) : Prop where
  ready : e.Ready
  swapped : p ∈ e.sched.swapped
  saved : Scheduler.Saved x contents (e.sched.seq p) e.mem.cpu

theorem Parked.step {p : GroupPtr} {x : SequenceData} {contents : List C} {e : Executor C}
    (h : Parked p x contents e) (op : Op C) (hop : e.Permitted op) (hnot : ¬ SwapsIn p e op) :
    Parked p x contents (e.step op) := by
  have hready := h.ready.step op hop
  cases op with
  | schedule =>
      have htrack := h.ready.apart.swapped_tracked h.ready.mode hop h.swapped h.saved
      rcases htrack with ⟨hswapped, -, hsaved⟩ | ⟨-, hin, -⟩
      · exact ⟨hready, hswapped, hsaved⟩
      · exact absurd hin hnot
  | updateAfterDecode newTokens now =>
      -- the group is swapped, so the latest output does not schedule it
      have hout : p ∉ e.output.scheduledGroups := fun hmem =>
        h.ready.apart.queues.disjoint_running_swapped (h.ready.scheduled p hmem) h.swapped
      have hseq : (e.step (.updateAfterDecode newTokens now)).sched.seq p = e.sched.seq p :=
        congrArg SequenceGroup.seq (BatchManager.updateGroups_of_not_mem now _ _ _ hout)
      refine ⟨hready, h.swapped, ?_⟩
      rw [hseq]
      exact h.saved
  | write b c => exact ⟨hready, h.swapped, h.saved⟩

/-- What a call that swaps the group in leaves. -/
theorem restored_of_tracked {p : GroupPtr} {a c : Executor C}
    (hun : (a.sched.seq p).isFinished = false)
    (htrack : Scheduler.Tracked p (a.sched.seq p) ((a.sched.seq p).liveBlocks.map a.mem.gpu) c.mem
      c.sched.afterSwapIn)
    (hin : p ∈ c.sched.schedule.1.swappedInGroups) : Restored p a (c.step .schedule) := by
  rcases htrack with ⟨-, hnot, -⟩ | ⟨-, -, hsaved⟩
  · exact absurd hin hnot
  · have hun' : ((c.step .schedule).sched.seq p).isFinished = false :=
      hsaved.moved.finished.trans hun
    have hcontents : ((c.step .schedule).sched.seq p).liveBlocks.map (c.step .schedule).mem.gpu
        = (a.sched.seq p).liveBlocks.map a.mem.gpu := hsaved.contents
    rw [liveBlocks_of_unfinished hun', liveBlocks_of_unfinished hun] at hcontents
    refine ⟨?_, hsaved.moved.promptTokens, hsaved.moved.outputTokens, hcontents⟩
    simpa using congrArg List.length hcontents

/-- **An episode brings the sequence back.** From any state in swap mode in which nobody shares a block,
    in every run of calls, updates and writes whose preemptions find enough CPU blocks: a group that is
    preempted and later swapped in has the same tokens, as many blocks, and in each of them what it had
    when it was preempted. -/
theorem episode_restores {start a b : Executor C} {p : GroupPtr} (hstart : start.Ready)
    (ha : Run.Reach step Permitted start a) (hepisode : Episode p a b)
    (hun : (a.sched.seq p).isFinished = false) : Restored p a b := by
  have hready : a.Ready := ha.invariant hstart (fun _ op h hop => h.step op hop)
  have hafter : (a.step .schedule).Ready := hready.step .schedule hepisode.cpu
  have htrack := hready.apart.preempted_tracked hready.mode hepisode.cpu hepisode.preempted a.mem
  rcases hepisode.back with ⟨hin, rfl⟩ | ⟨hnot, c, hc, hcpu, hin, rfl⟩
  · exact restored_of_tracked hun htrack hin
  · have hparked : Parked p (a.sched.seq p) ((a.sched.seq p).liveBlocks.map a.mem.gpu)
        (a.step .schedule) := by
      rcases htrack with ⟨hswapped, -, hsaved⟩ | ⟨-, hin', -⟩
      · exact ⟨hafter, hswapped, hsaved⟩
      · exact absurd hin' hnot
    have hend := hc.invariant hparked (fun _ op h hop => h.step op hop.1 hop.2)
    have hcall := hend.ready.apart.swapped_tracked hend.ready.mode hcpu hend.swapped hend.saved
    exact restored_of_tracked hun hcall hin

instance (e : Executor C) : (op : Op C) → Decidable (e.Permitted op)
  | .schedule => inferInstanceAs (Decidable e.sched.CpuSuffices)
  | .updateAfterDecode .. | .write .. => isTrue trivial

instance (p : GroupPtr) (e : Executor C) : (op : Op C) → Decidable (SwapsIn p e op)
  | .schedule => inferInstanceAs (Decidable (p ∈ _))
  | .updateAfterDecode .. | .write .. => isFalse id

/-- Three requests wait for a GPU with four blocks of one token; two may run at a time. -/
def threeWaiting : Executor Nat where
  sched := (((Scheduler.new { maxNumSeqs := 2 }
    (BlockManager.new { numGpuBlocks := 4, numCpuBlocks := 4, blockSize := 1 })).addRequest
    (.new 1 [10] { maxTokens := 2 })).addRequest (.new 2 [20] {})).addRequest (.new 3 [30] {})
  output := {}
  mem := { gpu := fun _ => 0, cpu := fun _ => 0 }

/-- The first two requests run until the first has finished and the second finds no block. -/
def untilPreempted : List (Op Nat) :=
  [.schedule, .updateAfterDecode [11, 21] 0, .schedule, .updateAfterDecode [12, 22] 0,
    .write 0 100, .write 1 101, .write 2 102, .write 3 103]

/-- The third request runs until it finds no block either. -/
def untilSwappedIn : List (Op Nat) :=
  [.write 1 5, .write 3 6, .updateAfterDecode [31] 0, .schedule, .updateAfterDecode [32] 0,
    .write 1 7, .write 3 8]

def preemptedAt : Executor Nat := untilPreempted.foldl step threeWaiting

def swappedInAt : Executor Nat := untilSwappedIn.foldl step (preemptedAt.step .schedule)

/-- The second request is preempted, the third takes its blocks and is preempted in turn, which brings
    the second back. -/
theorem second_restored :
    (preemptedAt.sched.seq 1).logicalBlocks.map preemptedAt.mem.gpu = [101, 103] ∧
      swappedInAt.sched.schedule.1.preemptedGroups = [2] ∧
      Restored 1 preemptedAt (swappedInAt.step .schedule) := by
  have hready : threeWaiting.Ready :=
    ⟨rfl, ⟨by decide, by decide, freeInRange_new _, by decide, by decide, by decide⟩, by decide⟩
  have hepisode : Episode 1 preemptedAt (swappedInAt.step .schedule) :=
    ⟨by decide, by decide, Or.inr ⟨by decide, swappedInAt,
      Run.Reach.of_allOk untilSwappedIn (by decide), by decide, by decide, rfl⟩⟩
  exact ⟨by decide, by decide, episode_restores hready
    (Run.Reach.of_allOk untilPreempted (by decide)) hepisode (by decide)⟩

end Executor

end CacheFlow
