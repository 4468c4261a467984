import CacheFlow.Scheduler.Phases

set_option autoImplicit false

/-! # Requests with one sequence

All clients of the scheduler submit groups made by the constructor `SequenceGroup(rid, prompt, …)`,
which have a single sequence named like the request. This file specialises the model to them: the
checks and moves of `schedule()` in terms of that sequence, and `WellFormed`, which says that the three
queues hold distinct requests and that `request_map_` points into them.

`afterSwapIn_wellFormed` is the rule of `Phases` with `WellFormed` built in; the invariants of the
later modules are all proved with it. -/

namespace CacheFlow

open ScheduleState

/-! ## Groups -/

/-- Two groups with the name and the parameters of one request. -/
structure SameName (g g' : SequenceGroup) : Prop where
  requestId : g'.requestId = g.requestId
  sampling : g'.sampling = g.sampling

namespace SequenceGroup

/-- The first sequence of a group. -/
def seq (g : SequenceGroup) : SequenceData := g.sequences.headD { seqId := 0, promptTokens := [] }

/-- The group has one sequence, named like the request. -/
structure Single (g : SequenceGroup) : Prop where
  sequences : g.sequences = [g.seq]
  seqId : g.seq.seqId = g.requestId

instance (g : SequenceGroup) : Decidable g.Single :=
  decidable_of_iff (g.sequences = [g.seq] ∧ g.seq.seqId = g.requestId)
    ⟨fun h => ⟨h.1, h.2⟩, fun h => ⟨h.sequences, h.seqId⟩⟩

/-- The group is as its constructor leaves it. -/
def IsNew (g : SequenceGroup) : Prop :=
  g = SequenceGroup.new g.requestId g.seq.promptTokens g.sampling g.priority

instance (g : SequenceGroup) : Decidable g.IsNew := inferInstanceAs (Decidable (_ = _))

@[simp] theorem seq_with (g : SequenceGroup) (x : SequenceData) :
    ({ g with sequences := [x] } : SequenceGroup).seq = x := rfl

theorem IsNew.seq_eq {g : SequenceGroup} (h : g.IsNew) :
    g.seq = { seqId := g.requestId, promptTokens := g.seq.promptTokens } :=
  congrArg seq h

theorem IsNew.single {g : SequenceGroup} (h : g.IsNew) : g.Single := by
  refine ⟨?_, congrArg SequenceData.seqId h.seq_eq⟩
  rw [h.seq_eq]
  exact congrArg SequenceGroup.sequences h

namespace Single

variable {g : SequenceGroup} (h : g.Single)
include h

theorem allFinished : g.allFinished = g.seq.isFinished := by
  rw [SequenceGroup.allFinished, h.sequences]
  simp

theorem estimateTokens_decode (hfin : g.seq.isFinished = false) :
    Scheduler.estimateTokens g false = 1 := by
  rw [Scheduler.estimateTokens, SequenceGroup.numUnfinished, h.sequences]
  simp [hfin]

theorem estimateTokens_prefill : Scheduler.estimateTokens g true = g.seq.promptLen := by
  simp [Scheduler.estimateTokens, SequenceGroup.promptLen, h.sequences]

theorem canAppend (bm : BlockManager) (hfin : g.seq.isFinished = false) :
    Scheduler.canAppend bm g = true ↔ missingBlocks bm g.seq ≤ (bm.freeList .cuda).length := by
  rw [Scheduler.canAppend, h.sequences]
  simp [hfin, BlockManager.canAllocate]

theorem prefillBlocks (bm : BlockManager) :
    Scheduler.prefillBlocks bm g = g.seq.numBlocksNeeded bm.blockSize := by
  rw [Scheduler.prefillBlocks, h.sequences]

theorem swapInBlockCount (hfin : g.seq.isFinished = false) :
    Scheduler.swapInBlockCount g = g.seq.logicalBlocks.length := by
  rw [Scheduler.swapInBlockCount, h.sequences]
  simp [hfin]

end Single

end SequenceGroup

/-! ## The allocation loops -/

/-- Every call of the loop appends one id, valid or not. -/
theorem allocateFor_fst (bm : BlockManager) (seq : SequenceData) (n : Nat) :
    ∃ bids : List BlockId, bids.length = n ∧
      (allocateFor bm seq n).1 = { seq with logicalBlocks := seq.logicalBlocks ++ bids } := by
  induction n generalizing bm seq with
  | zero => exact ⟨[], rfl, by simp [allocateFor]⟩
  | succ n ih =>
      obtain ⟨bids, hlen, heq⟩ := ih (bm.allocateBlock seq.seqId .cuda).2
        { seq with logicalBlocks := seq.logicalBlocks ++ [(bm.allocateBlock seq.seqId .cuda).1] }
      refine ⟨(bm.allocateBlock seq.seqId .cuda).1 :: bids, by simp [hlen], ?_⟩
      rw [allocateFor, heq]
      simp

/-- With enough free blocks the loop hands out the top of the free list. -/
theorem allocateFor_handed (bm : BlockManager) (seq : SequenceData) (n : Nat)
    (hn : n ≤ (bm.freeList .cuda).length)
    (hin : ∀ b ∈ bm.freeList .cuda, bm.InRange .cuda b) :
    ∃ bids : List BlockId, bids.length = n ∧
      (allocateFor bm seq n).1 = { seq with logicalBlocks := seq.logicalBlocks ++ bids } ∧
      BlockManager.Handed bm (allocateFor bm seq n).2 seq.seqId .cuda bids := by
  induction n generalizing bm seq with
  | zero => exact ⟨[], rfl, by simp [allocateFor], BlockManager.Handed.nil _ _ _⟩
  | succ n ih =>
      cases hfl : bm.freeList .cuda with
      | nil => simp [hfl] at hn
      | cons b rest =>
          have hb : bm.InRange .cuda b := hin b (by rw [hfl]; exact List.mem_cons_self ..)
          obtain ⟨hbid, ha⟩ := bm.allocateBlock_cons (s := seq.seqId) hfl hb
          have hrest : (bm.allocateBlock seq.seqId .cuda).2.freeList .cuda = rest := by
            rw [ha.freeList, Function.update_self]
          obtain ⟨bids, hlen, heq, hhand⟩ := ih (bm.allocateBlock seq.seqId .cuda).2
            { seq with logicalBlocks := seq.logicalBlocks ++ [(bm.allocateBlock seq.seqId .cuda).1] }
            (by rw [hrest]; rw [hfl] at hn; simpa using hn)
            (fun b' hb' => by
              rw [ha.inRange]
              rw [hrest] at hb'
              exact hin b' (by rw [hfl]; exact List.mem_cons_of_mem _ hb'))
          refine ⟨b :: bids, by simp [hlen], ?_, hhand.cons hfl ha⟩
          rw [allocateFor, heq, hbid]
          simp

theorem prefillSequence_handed (bm : BlockManager) (seq : SequenceData) (n : Nat)
    (hn : n ≤ (bm.freeList .cuda).length)
    (hin : ∀ b ∈ bm.freeList .cuda, bm.InRange .cuda b) :
    ∃ bids : List BlockId, bids.length = n ∧
      (prefillSequence n bm seq).1
        = { seq with status := .running, logicalBlocks := seq.logicalBlocks ++ bids } ∧
      BlockManager.Handed bm (prefillSequence n bm seq).2 seq.seqId .cuda bids :=
  allocateFor_handed bm { seq with status := .running } n hn hin

/-- The swap-in loop takes one block for each block the sequence had. -/
theorem swapInBlocks_length (s : SeqId) (bids : List BlockId) (st : BlockManager × List BlockOp) :
    (swapInBlocks s bids st).1.length = bids.length := by
  induction bids generalizing st with
  | nil => rfl
  | cons bid rest ih => simp [swapInBlocks, ih]

theorem swapInBlocks_handed (s : SeqId) (bids : List BlockId) (st : BlockManager × List BlockOp)
    (hn : bids.length ≤ (st.1.freeList .cuda).length)
    (hin : ∀ b ∈ st.1.freeList .cuda, st.1.InRange .cuda b) :
    BlockManager.Handed st.1 (swapInBlocks s bids st).2.1 s .cuda (swapInBlocks s bids st).1 := by
  induction bids generalizing st with
  | nil => exact BlockManager.Handed.nil _ _ _
  | cons bid bids ih =>
      obtain ⟨bm, ops⟩ := st
      cases hfl : bm.freeList .cuda with
      | nil => simp [hfl] at hn
      | cons b rest =>
          have hb : bm.InRange .cuda b := hin b (by rw [hfl]; exact List.mem_cons_self ..)
          obtain ⟨hbid, ha⟩ := bm.allocateBlock_cons (s := s) hfl hb
          have hrest : (bm.allocateBlock s .cuda).2.freeList .cuda = rest := by
            rw [ha.freeList, Function.update_self]
          have hhand := ih ((bm.allocateBlock s .cuda).2,
            ops ++ [⟨s, bid, (bm.allocateBlock s .cuda).1⟩])
            (by simp only [hrest]; simp only [hfl] at hn; simpa using hn)
            (fun b' hb' => by
              simp only [hrest] at hb'
              exact ha.inRange.2 (hin b' (by rw [hfl]; exact List.mem_cons_of_mem _ hb')))
          have hcons := hhand.cons hfl ha
          rw [swapInBlocks]
          simpa only [hbid] using hcons

/-- The swap-out loop writes one id for each block the sequence had. -/
theorem swapOutBlocks_length (s : SeqId) (bids : List BlockId)
    (st : BlockManager × List BlockOp) : (swapOutBlocks s bids st).1.length = bids.length := by
  induction bids generalizing st with
  | nil => rfl
  | cons bid rest ih => simp [swapOutBlocks, ih]

/-! ## Well-formed queues -/

namespace Scheduler

/-- The groups in the three queues. -/
def queued (st : Scheduler) : List GroupPtr := st.running ++ (st.waiting ++ st.swapped)

/-- The sequence of group `p`. -/
def seq (st : Scheduler) (p : GroupPtr) : SequenceData := (st.groups p).seq

/-- No group is queued twice. -/
def QueuesDisjoint (st : Scheduler) : Prop := st.queued.Nodup

namespace QueuesDisjoint

variable {st : Scheduler} {p : GroupPtr}

theorem disjoint_running_waiting (h : st.QueuesDisjoint) (hp : p ∈ st.running) : p ∉ st.waiting :=
  fun hw => (List.nodup_append.1 h).2.2 p hp p (List.mem_append_left _ hw) rfl

theorem disjoint_running_swapped (h : st.QueuesDisjoint) (hp : p ∈ st.running) : p ∉ st.swapped :=
  fun hs => (List.nodup_append.1 h).2.2 p hp p (List.mem_append_right _ hs) rfl

theorem disjoint_waiting_swapped (h : st.QueuesDisjoint) (hp : p ∈ st.waiting) : p ∉ st.swapped :=
  fun hs => (List.nodup_append.1 (List.nodup_append.1 h).2.1).2.2 p hp p hs rfl

theorem nodup_running (h : st.QueuesDisjoint) : st.running.Nodup := (List.nodup_append.1 h).1

theorem not_mem_rest_waiting (h : st.QueuesDisjoint) {rest : List GroupPtr}
    (hw : st.waiting = p :: rest) : p ∉ rest := by
  have hnodup := (List.nodup_append.1 (List.nodup_append.1 h).2.1).1
  rw [hw] at hnodup
  exact (List.nodup_cons.1 hnodup).1

theorem not_mem_rest_swapped (h : st.QueuesDisjoint) {rest : List GroupPtr}
    (hs : st.swapped = p :: rest) : p ∉ rest := by
  have hnodup := (List.nodup_append.1 (List.nodup_append.1 h).2.1).2.1
  rw [hs] at hnodup
  exact (List.nodup_cons.1 hnodup).1

theorem not_mem_init (h : st.QueuesDisjoint) {init : List GroupPtr} (hr : st.running = init ++ [p]) :
    p ∉ init := by
  have hnodup := h.nodup_running
  rw [hr] at hnodup
  exact fun hp => (List.nodup_append.1 hnodup).2.2 p hp p (List.mem_singleton_self p) rfl

end QueuesDisjoint

/-- The queues hold stored groups with distinct request ids, and `request_map_` maps an id to the
    queued group of that id. -/
structure WellFormed (st : Scheduler) : Prop where
  ids : (st.queued.map (fun p => (st.groups p).requestId)).Nodup
  stored : ∀ p ∈ st.queued, p < st.next
  single : ∀ p < st.next, (st.groups p).Single
  named : ∀ id p, st.requestMap.lookup id = some p → p ∈ st.queued ∧ (st.groups p).requestId = id

/-- The request `group` is new and no queued group has its id. -/
def FreshRequest (st : Scheduler) (group : SequenceGroup) : Prop :=
  group.IsNew ∧ ∀ p ∈ st.queued, (st.groups p).requestId ≠ group.requestId

instance (st : Scheduler) (group : SequenceGroup) : Decidable (st.FreshRequest group) :=
  inferInstanceAs (Decidable (_ ∧ _))

namespace WellFormed

variable {st st' : Scheduler} {p q : GroupPtr}

theorem nodup (h : st.WellFormed) : st.queued.Nodup := List.Nodup.of_map _ h.ids

theorem queues (h : st.WellFormed) : st.QueuesDisjoint := h.nodup

theorem single_of_mem (h : st.WellFormed) (hp : p ∈ st.queued) : (st.groups p).Single :=
  h.single p (h.stored p hp)

theorem seqId (h : st.WellFormed) (hp : p ∈ st.queued) :
    (st.seq p).seqId = (st.groups p).requestId :=
  (h.single_of_mem hp).seqId

theorem eq_of_seqId (h : st.WellFormed) (hp : p ∈ st.queued) (hq : q ∈ st.queued)
    (heq : (st.seq p).seqId = (st.seq q).seqId) : p = q := by
  rw [h.seqId hp, h.seqId hq] at heq
  exact List.inj_on_of_nodup_map h.ids hp hq heq

theorem mem_running (hp : p ∈ st.running) : p ∈ st.queued :=
  List.mem_append_left _ hp

theorem mem_waiting (hp : p ∈ st.waiting) : p ∈ st.queued :=
  List.mem_append_right _ (List.mem_append_left _ hp)

theorem mem_swapped (hp : p ∈ st.swapped) : p ∈ st.queued :=
  List.mem_append_right _ (List.mem_append_right _ hp)

/-- Moving groups between the queues and rewriting sequences under the same id keeps the queues
    well-formed. -/
theorem transfer (h : st.WellFormed) (hq : st'.queued.Perm st.queued) (hnext : st'.next = st.next)
    (hmap : st'.requestMap = st.requestMap)
    (hid : ∀ p, (st'.groups p).requestId = (st.groups p).requestId)
    (hsingle : ∀ p < st.next, (st.groups p).Single → (st'.groups p).Single) : st'.WellFormed := by
  refine ⟨?_, fun p hp => ?_, fun p hp => ?_, fun id p hp => ?_⟩
  · simp only [hid]
    exact (hq.map _).nodup_iff.2 h.ids
  · rw [hnext]
    exact h.stored p (hq.mem_iff.1 hp)
  · rw [hnext] at hp
    exact hsingle p hp (h.single p hp)
  · rw [hmap] at hp
    obtain ⟨hmem, hpid⟩ := h.named id p hp
    exact ⟨hq.mem_iff.2 hmem, by rw [hid]; exact hpid⟩

/-- The shape of every move of a scheduling step: one sequence is rewritten, groups change queues. -/
theorem put (h : st.WellFormed) {x : SequenceData} (bm : BlockManager)
    (hx : x.seqId = (st.seq p).seqId) {running waiting swapped : List GroupPtr}
    (hq : (running ++ (waiting ++ swapped)).Perm st.queued) :
    { st.putSequences p [x] bm with
      running := running, waiting := waiting, swapped := swapped }.WellFormed := by
  refine h.transfer hq rfl rfl (fun q => ?_) (fun q hq' hs => ?_)
  · by_cases hqp : q = p
    · subst hqp; simp [putSequences]
    · simp [putSequences, hqp]
  · by_cases hqp : q = p
    · subst hqp
      refine ⟨by simp [putSequences], ?_⟩
      simpa [putSequences] using hx.trans hs.seqId
    · simpa [putSequences, hqp] using hs

end WellFormed

/-- The sequences after one of them has been rewritten. -/
theorem seq_of_groups {st st' : Scheduler} {p : GroupPtr} {x : SequenceData}
    (hg : st'.groups = Function.update st.groups p { st.groups p with sequences := [x] })
    (q : GroupPtr) : st'.seq q = if q = p then x else st.seq q := by
  by_cases hq : q = p
  · subst hq; simp [seq, hg]
  · simp [seq, hg, hq]

end Scheduler

/-! ## The moves on single sequences -/

@[simp] theorem appendBlocks_seqId (bm : BlockManager) (seq : SequenceData) :
    (appendBlocks bm seq).1.seqId = seq.seqId := by
  unfold appendBlocks
  split
  · rfl
  · obtain ⟨bids, -, heq⟩ := allocateFor_fst bm seq (missingBlocks bm seq)
    rw [heq]

@[simp] theorem prefillSequence_seqId (n : Nat) (bm : BlockManager) (seq : SequenceData) :
    (prefillSequence n bm seq).1.seqId = seq.seqId := by
  obtain ⟨bids, -, heq⟩ := allocateFor_fst bm { seq with status := .running } n
  rw [prefillSequence, heq]

@[simp] theorem swapInSequence_seqId (st : BlockManager × List BlockOp) (seq : SequenceData) :
    (swapInSequence st seq).1.seqId = seq.seqId := by
  unfold swapInSequence
  split <;> rfl

@[simp] theorem swapOutSequence_seqId (st : BlockManager × List BlockOp) (seq : SequenceData) :
    (swapOutSequence st seq).1.seqId = seq.seqId := by
  unfold swapOutSequence
  split <;> rfl

@[simp] theorem recomputeSequence_seqId (bm : BlockManager) (seq : SequenceData) :
    (recomputeSequence bm seq).1.seqId = seq.seqId := by
  unfold recomputeSequence
  split <;> rfl

@[simp] theorem abortSequence_seqId (bm : BlockManager) (seq : SequenceData) :
    (abortSequence bm seq).1.seqId = seq.seqId := by
  unfold abortSequence
  split <;> rfl

/-! ### No move makes a sequence longer -/

/-- The sequence `y` has the tokens of `x` and is finished if `x` is. -/
structure SameText (x y : SequenceData) : Prop where
  promptTokens : y.promptTokens = x.promptTokens
  outputTokens : y.outputTokens = x.outputTokens
  isFinished : y.isFinished = x.isFinished

theorem appendBlocks_text (bm : BlockManager) (seq : SequenceData) :
    SameText seq (appendBlocks bm seq).1 := by
  unfold appendBlocks
  split
  · exact ⟨rfl, rfl, rfl⟩
  · obtain ⟨bids, -, heq⟩ := allocateFor_fst bm seq (missingBlocks bm seq)
    rw [heq]
    exact ⟨rfl, rfl, rfl⟩

theorem swapInSequence_text (st : BlockManager × List BlockOp) (seq : SequenceData) :
    SameText seq (swapInSequence st seq).1 := by
  cases hfin : seq.isFinished with
  | true => simpa [swapInSequence, hfin] using SameText.mk rfl rfl rfl
  | false =>
      simp only [swapInSequence, hfin]
      exact ⟨rfl, rfl, hfin.symm⟩

theorem swapOutSequence_text (st : BlockManager × List BlockOp) (seq : SequenceData) :
    SameText seq (swapOutSequence st seq).1 := by
  cases hfin : seq.isFinished with
  | true => simpa [swapOutSequence, hfin] using SameText.mk rfl rfl rfl
  | false =>
      simp only [swapOutSequence, hfin]
      exact ⟨rfl, rfl, hfin.symm⟩

theorem SameText.totalLen {x y : SequenceData} (h : SameText x y) : y.totalLen = x.totalLen := by
  simp only [SequenceData.totalLen, SequenceData.promptLen, SequenceData.outputLen, h.promptTokens,
    h.outputTokens]

theorem prefillSequence_totalLen (n : Nat) (bm : BlockManager) (seq : SequenceData) :
    (prefillSequence n bm seq).1.totalLen = seq.totalLen := by
  obtain ⟨bids, -, heq⟩ := allocateFor_fst bm { seq with status := .running } n
  rw [prefillSequence, heq]
  rfl

theorem recomputeSequence_promptTokens (bm : BlockManager) (seq : SequenceData) :
    (recomputeSequence bm seq).1.promptTokens = seq.promptTokens := by
  unfold recomputeSequence
  split <;> rfl

/-- Recomputation takes the output away. -/
theorem recomputeSequence_totalLen (bm : BlockManager) (seq : SequenceData) :
    (recomputeSequence bm seq).1.totalLen ≤ seq.totalLen := by
  unfold recomputeSequence
  split
  · exact Nat.le_refl _
  · exact Nat.le_add_right _ _

/-! ### No move changes the configuration of the block manager -/

@[simp] theorem allocateFor_config (bm : BlockManager) (seq : SequenceData) (n : Nat) :
    (allocateFor bm seq n).2.config = bm.config := by
  induction n generalizing bm seq with
  | zero => rfl
  | succ n ih =>
      rw [allocateFor, ih]
      exact BlockManager.allocateBlock_config bm

theorem swapInBlocks_config (s : SeqId) (bids : List BlockId) (st : BlockManager × List BlockOp) :
    (swapInBlocks s bids st).2.1.config = st.1.config := by
  induction bids generalizing st with
  | nil => rfl
  | cons bid rest ih => simp [swapInBlocks, ih]

theorem swapOutBlocks_config (s : SeqId) (bids : List BlockId)
    (st : BlockManager × List BlockOp) : (swapOutBlocks s bids st).2.1.config = st.1.config := by
  induction bids generalizing st with
  | nil => rfl
  | cons bid rest ih => simp [swapOutBlocks, ih]

@[simp] theorem appendBlocks_config (bm : BlockManager) (seq : SequenceData) :
    (appendBlocks bm seq).2.config = bm.config := by
  unfold appendBlocks
  split <;> simp

@[simp] theorem prefillSequence_config (n : Nat) (bm : BlockManager) (seq : SequenceData) :
    (prefillSequence n bm seq).2.config = bm.config := by
  simp [prefillSequence]

@[simp] theorem swapInSequence_config (st : BlockManager × List BlockOp) (seq : SequenceData) :
    (swapInSequence st seq).2.1.config = st.1.config := by
  unfold swapInSequence
  split
  · rfl
  · exact swapInBlocks_config _ _ _

@[simp] theorem swapOutSequence_config (st : BlockManager × List BlockOp) (seq : SequenceData) :
    (swapOutSequence st seq).2.1.config = st.1.config := by
  unfold swapOutSequence
  split
  · rfl
  · exact swapOutBlocks_config _ _ _

@[simp] theorem recomputeSequence_config (bm : BlockManager) (seq : SequenceData) :
    (recomputeSequence bm seq).2.config = bm.config := by
  unfold recomputeSequence
  split <;> simp

/-! ### The moves on unfinished sequences -/

theorem appendBlocks_of_unfinished {bm : BlockManager} {seq : SequenceData}
    (hfin : seq.isFinished = false) :
    appendBlocks bm seq = allocateFor bm seq (missingBlocks bm seq) := by
  rw [appendBlocks, if_neg (by simp [hfin])]

theorem swapInSequence_of_unfinished {st : BlockManager × List BlockOp} {seq : SequenceData}
    (hfin : seq.isFinished = false) :
    swapInSequence st seq
      = ({ seq with
            status := .running, logicalBlocks := (swapInBlocks seq.seqId seq.logicalBlocks st).1 },
          (swapInBlocks seq.seqId seq.logicalBlocks st).2) := by
  rw [swapInSequence, if_neg (by simp [hfin])]

theorem swapOutSequence_of_unfinished {st : BlockManager × List BlockOp} {seq : SequenceData}
    (hfin : seq.isFinished = false) :
    swapOutSequence st seq
      = ({ seq with
            status := .swapped, logicalBlocks := (swapOutBlocks seq.seqId seq.logicalBlocks st).1 },
          (swapOutBlocks seq.seqId seq.logicalBlocks st).2) := by
  rw [swapOutSequence, if_neg (by simp [hfin])]

theorem recomputeSequence_of_unfinished {bm : BlockManager} {seq : SequenceData}
    (hfin : seq.isFinished = false) :
    recomputeSequence bm seq
      = ({ seq with status := .preempted, logicalBlocks := [], outputTokens := [] },
          bm.freeBlocks seq.seqId) := by
  rw [recomputeSequence, if_neg (by simp [hfin])]

namespace ScheduleState

variable {s : ScheduleState} {p : GroupPtr} (h : (s.sched.groups p).Single)
include h

theorem decodeGroup_sched :
    (s.decodeGroup p).sched
      = s.sched.putSequences p [(appendBlocks s.sched.blockManager (s.sched.seq p)).1]
          (appendBlocks s.sched.blockManager (s.sched.seq p)).2 := by
  simp only [decodeGroup, charge, h.sequences, threadSequences]
  rfl

theorem admitGroup_sched (rest : List GroupPtr) :
    (s.admitGroup p rest).sched
      = { s.sched.putSequences p
            [(prefillSequence ((s.sched.seq p).numBlocksNeeded s.sched.blockManager.blockSize)
              s.sched.blockManager (s.sched.seq p)).1]
            (prefillSequence ((s.sched.seq p).numBlocksNeeded s.sched.blockManager.blockSize)
              s.sched.blockManager (s.sched.seq p)).2 with
          running := s.sched.running ++ [p], waiting := rest } := by
  simp only [admitGroup, charge, h.prefillBlocks, h.sequences, threadSequences]
  rfl

theorem swapInGroup_sched (rest : List GroupPtr) :
    (s.swapInGroup p rest).sched
      = { s.sched.putSequences p
            [(swapInSequence (s.sched.blockManager, s.output.blockSwapsIn) (s.sched.seq p)).1]
            (swapInSequence (s.sched.blockManager, s.output.blockSwapsIn) (s.sched.seq p)).2.1 with
          running := s.sched.running ++ [p], swapped := rest } := by
  simp only [swapInGroup, charge, h.sequences, threadSequences]
  rfl

theorem swapOutGroup_sched (running : List GroupPtr) :
    (s.swapOutGroup p running).sched
      = { s.sched.putSequences p
            [(swapOutSequence (s.sched.blockManager, s.output.blockSwapsOut) (s.sched.seq p)).1]
            (swapOutSequence (s.sched.blockManager, s.output.blockSwapsOut) (s.sched.seq p)).2.1 with
          swapped := s.sched.swapped ++ [p], running := running } := by
  simp only [swapOutGroup, h.sequences, threadSequences]
  rfl

theorem recomputeGroup_sched (running : List GroupPtr) :
    (s.recomputeGroup p running).sched
      = { s.sched.putSequences p
            [(recomputeSequence s.sched.blockManager (s.sched.seq p)).1]
            (recomputeSequence s.sched.blockManager (s.sched.seq p)).2 with
          waiting := p :: s.sched.waiting, running := running } := by
  simp only [recomputeGroup, h.sequences, threadSequences]
  rfl

/-! ### What a move does to the sequences

Lengths only: these hold whether or not the allocations succeed. -/

theorem decodeGroup_seq (hfin : (s.sched.seq p).isFinished = false) :
    ∃ bids : List BlockId, bids.length = missingBlocks s.sched.blockManager (s.sched.seq p) ∧
      ∀ q, (s.decodeGroup p).sched.seq q = if q = p then
        { s.sched.seq p with logicalBlocks := (s.sched.seq p).logicalBlocks ++ bids }
      else s.sched.seq q := by
  obtain ⟨bids, hlen, heq⟩ := allocateFor_fst s.sched.blockManager (s.sched.seq p)
    (missingBlocks s.sched.blockManager (s.sched.seq p))
  refine ⟨bids, hlen, fun q => ?_⟩
  rw [decodeGroup_sched h, appendBlocks_of_unfinished hfin, heq]
  exact Scheduler.seq_of_groups rfl q

theorem admitGroup_seq (rest : List GroupPtr) :
    ∃ bids : List BlockId,
      bids.length = (s.sched.seq p).numBlocksNeeded s.sched.blockManager.blockSize ∧
      ∀ q, (s.admitGroup p rest).sched.seq q = if q = p then
        { s.sched.seq p with
          status := .running, logicalBlocks := (s.sched.seq p).logicalBlocks ++ bids }
      else s.sched.seq q := by
  obtain ⟨bids, hlen, heq⟩ := allocateFor_fst s.sched.blockManager
    { s.sched.seq p with status := .running }
    ((s.sched.seq p).numBlocksNeeded s.sched.blockManager.blockSize)
  refine ⟨bids, hlen, fun q => ?_⟩
  rw [admitGroup_sched h, prefillSequence, heq]
  exact Scheduler.seq_of_groups rfl q

theorem swapInGroup_seq (rest : List GroupPtr) (hfin : (s.sched.seq p).isFinished = false) :
    ∃ bids : List BlockId, bids.length = (s.sched.seq p).logicalBlocks.length ∧
      ∀ q, (s.swapInGroup p rest).sched.seq q = if q = p then
        { s.sched.seq p with status := .running, logicalBlocks := bids }
      else s.sched.seq q := by
  refine ⟨_, swapInBlocks_length (s.sched.seq p).seqId (s.sched.seq p).logicalBlocks
    (s.sched.blockManager, s.output.blockSwapsIn), fun q => ?_⟩
  rw [swapInGroup_sched h, swapInSequence_of_unfinished hfin]
  exact Scheduler.seq_of_groups rfl q

theorem swapOutGroup_seq (running : List GroupPtr) (hfin : (s.sched.seq p).isFinished = false) :
    ∃ bids : List BlockId, bids.length = (s.sched.seq p).logicalBlocks.length ∧
      ∀ q, (s.swapOutGroup p running).sched.seq q = if q = p then
        { s.sched.seq p with status := .swapped, logicalBlocks := bids }
      else s.sched.seq q := by
  refine ⟨_, swapOutBlocks_length (s.sched.seq p).seqId (s.sched.seq p).logicalBlocks
    (s.sched.blockManager, s.output.blockSwapsOut), fun q => ?_⟩
  rw [swapOutGroup_sched h, swapOutSequence_of_unfinished hfin]
  exact Scheduler.seq_of_groups rfl q

theorem recomputeGroup_seq (running : List GroupPtr) (hfin : (s.sched.seq p).isFinished = false)
    (q : GroupPtr) :
    (s.recomputeGroup p running).sched.seq q = if q = p then
      { s.sched.seq p with status := .preempted, logicalBlocks := [], outputTokens := [] }
    else s.sched.seq q := by
  rw [recomputeGroup_sched h, recomputeSequence_of_unfinished hfin]
  exact Scheduler.seq_of_groups rfl q

omit h in
/-- A group that is admitted finds the blocks of its prompt. -/
theorem prefillFits.room (hfits : s.prefillFits p) (hsingle : (s.sched.groups p).Single) :
    (s.sched.seq p).numBlocksNeeded s.sched.blockManager.blockSize
      ≤ (s.sched.blockManager.freeList .cuda).length := by
  have hcan := hfits.2.2
  rw [hsingle.prefillBlocks] at hcan
  exact of_decide_eq_true hcan

end ScheduleState

namespace Scheduler

/-! ## The rule for a step from well-formed queues -/

/-- The queues before and after a swap-in, as one list. -/
theorem perm_swapIn (running waiting rest : List GroupPtr) (p : GroupPtr) :
    ((running ++ [p]) ++ (waiting ++ rest)).Perm (running ++ (waiting ++ p :: rest)) := by
  rw [List.append_assoc]
  refine List.Perm.append_left _ ?_
  show List.Perm (p :: (waiting ++ rest)) (waiting ++ p :: rest)
  exact List.perm_middle.symm

/-- The queues before and after a swap-out, as one list. -/
theorem perm_swapOut (init waiting swapped : List GroupPtr) (p : GroupPtr) :
    (init ++ (waiting ++ (swapped ++ [p]))).Perm ((init ++ [p]) ++ (waiting ++ swapped)) := by
  rw [List.append_assoc]
  refine List.Perm.append_left _ ?_
  rw [← List.append_assoc]
  exact List.perm_append_comm

/-- What holds at every point of a `schedule()` call that starts in `st` with well-formed queues. -/
structure MidStep (st : Scheduler) (s : ScheduleState) : Prop where
  wf : s.sched.WellFormed
  queued : s.sched.queued.Perm st.queued
  config : s.sched.config = st.config
  next : s.sched.next = st.next
  cache : s.sched.blockManager.config = st.blockManager.config
  totalLen : ∀ q, (s.sched.seq q).totalLen ≤ (st.seq q).totalLen

/-- The shape of every move: one sequence is rewritten, groups change queues. -/
theorem MidStep.put {st : Scheduler} {s s' : ScheduleState} (h : st.MidStep s) {p : GroupPtr}
    {x : SequenceData} {bm : BlockManager} {running waiting swapped : List GroupPtr}
    (hs' : s'.sched = { s.sched.putSequences p [x] bm with
      running := running, waiting := waiting, swapped := swapped })
    (hx : x.seqId = (s.sched.seq p).seqId) (hlen : x.totalLen ≤ (s.sched.seq p).totalLen)
    (hbm : bm.config = s.sched.blockManager.config)
    (hq : (running ++ (waiting ++ swapped)).Perm s.sched.queued) : st.MidStep s' := by
  refine ⟨?_, ?_, ?_, ?_, ?_, fun q => ?_⟩
  · rw [hs']
    exact h.wf.put bm hx hq
  · rw [hs']
    exact hq.trans h.queued
  · rw [hs']
    exact h.config
  · rw [hs']
    exact h.next
  · rw [hs']
    exact hbm.trans h.cache
  · rw [hs', seq_of_groups rfl]
    split
    · next hqp =>
        rw [hqp]
        exact hlen.trans (h.totalLen p)
    · exact h.totalLen q

/-- **Rule for the decode phase** from well-formed queues: the preemption is the one of the configured
    mode, and the checks are about single sequences. -/
theorem afterDecodes_wellFormed {P : ScheduleState → Prop} {st : Scheduler} (hwf : st.WellFormed)
    (hbegin : P st.beginSchedule)
    (hdecode : ∀ s p rest, st.MidStep s → P s → st.DecodesAt (p :: rest) s →
      (s.sched.seq p).isFinished = false → s.decodeFits p → P (s.decodeGroup p))
    (hswapOut : ∀ s init v, st.config.preemptionMode = .swap → st.MidStep s → P s →
      st.PreemptsAt s → s.sched.running = init ++ [v] → P (s.swapOutGroup v init))
    (hrecompute : ∀ s init v, st.config.preemptionMode = .recompute → st.MidStep s → P s →
      st.PreemptsAt s → s.sched.running = init ++ [v] → P (s.recomputeGroup v init)) :
    st.MidStep st.afterDecodes ∧ P st.afterDecodes := by
  refine st.afterDecodes_invariant (P := fun s => st.MidStep s ∧ P s)
    ⟨⟨hwf, List.Perm.refl _, rfl, rfl, rfl, fun _ => Nat.le_refl _⟩, hbegin⟩ ?_ ?_
  · rintro s p rest ⟨hs, hP⟩ hat hfin hfits
    have hmem : p ∈ s.sched.queued := WellFormed.mem_running hat.mem_running
    have hsingle := hs.wf.single_of_mem hmem
    rw [hsingle.allFinished] at hfin
    refine ⟨hs.put (decodeGroup_sched hsingle) (by simp)
      (appendBlocks_text _ _).totalLen.le (by simp) (List.Perm.refl _), ?_⟩
    exact hdecode s p rest hs hP hat hfin hfits
  · rintro s init v ⟨hs, hP⟩ hat hv
    have hmem : v ∈ s.sched.queued := WellFormed.mem_running (by rw [hv]; simp)
    have hsingle := hs.wf.single_of_mem hmem
    rw [preempt_eq hv]
    cases hmode : s.sched.config.preemptionMode with
    | swap =>
        refine ⟨hs.put (swapOutGroup_sched hsingle _) (by simp)
          (swapOutSequence_text _ _).totalLen.le (by simp) ?_,
          hswapOut s init v (by rw [← hs.config]; exact hmode) hs hP hat hv⟩
        rw [queued, hv]
        exact perm_swapOut _ _ _ _
    | recompute =>
        refine ⟨hs.put (recomputeGroup_sched hsingle _) (by simp)
          (recomputeSequence_totalLen _ _) (by simp) (List.Perm.of_eq ?_),
          hrecompute s init v (by rw [← hs.config]; exact hmode) hs hP hat hv⟩
        rw [queued, hv]
        simp [putSequences]

theorem MidStep.sorted {st : Scheduler} {s : ScheduleState} (hs : st.MidStep s)
    {w : List GroupPtr} (hperm : w.Perm s.sched.waiting) :
    st.MidStep { s with sched := { s.sched with waiting := w } } := by
  have hqueued : (s.sched.running ++ (w ++ s.sched.swapped)).Perm s.sched.queued :=
    List.Perm.append_left _ (List.Perm.append_right _ hperm)
  refine ⟨?_, hqueued.trans hs.queued, hs.config, hs.next, hs.cache, hs.totalLen⟩
  exact hs.wf.transfer hqueued rfl rfl (fun _ => rfl) (fun _ _ h => h)

/-- **Rule for the other phases** from well-formed queues. -/
theorem afterSwapIn_wellFormed_of {P : ScheduleState → Prop} {st : Scheduler}
    (hsorted : st.MidStep st.beforePrefills ∧ P st.beforePrefills)
    (hfront : ∀ s p rest, st.MidStep s → P s → (s, p) ∈ st.admissions →
      s.sched.waiting = p :: rest → s.prefillFits p → P (s.admitGroup p rest))
    (hswapIn : ∀ s p rest, st.MidStep s → P s → s.sched.swapped = p :: rest →
      s.swapInFits p → P (s.swapInGroup p rest)) :
    st.MidStep st.afterSwapIn ∧ P st.afterSwapIn := by
  refine st.afterSwapIn_invariant_of (P := fun s => st.MidStep s ∧ P s) hsorted ?_ ?_
  · rintro s p rest ⟨hs, hP⟩ hadm hwait hfits
    have hmem : p ∈ s.sched.queued := WellFormed.mem_waiting (by rw [hwait]; simp)
    refine ⟨hs.put (admitGroup_sched (hs.wf.single_of_mem hmem) _) (by simp)
      (prefillSequence_totalLen _ _ _).le (by simp) (List.Perm.of_eq ?_), hfront s p rest hs hP hadm hwait hfits⟩
    rw [queued, hwait]
    simp [putSequences]
  · rintro s p rest ⟨hs, hP⟩ hswap hfits
    have hmem : p ∈ s.sched.queued := WellFormed.mem_swapped (by rw [hswap]; simp)
    refine ⟨hs.put (swapInGroup_sched (hs.wf.single_of_mem hmem) _) (by simp)
      (swapInSequence_text _ _).totalLen.le (by simp) ?_,
      hswapIn s p rest hs hP hswap hfits⟩
    rw [queued, hswap]
    exact perm_swapIn _ _ _ _

/-- **Rule for one step** from well-formed queues. -/
theorem afterSwapIn_wellFormed {P : ScheduleState → Prop} {st : Scheduler} (hwf : st.WellFormed)
    (hbegin : P st.beginSchedule)
    (hdecode : ∀ s p rest, st.MidStep s → P s → st.DecodesAt (p :: rest) s →
      (s.sched.seq p).isFinished = false → s.decodeFits p → P (s.decodeGroup p))
    (hswapOut : ∀ s init v, st.config.preemptionMode = .swap → st.MidStep s → P s →
      st.PreemptsAt s → s.sched.running = init ++ [v] → P (s.swapOutGroup v init))
    (hrecompute : ∀ s init v, st.config.preemptionMode = .recompute → st.MidStep s → P s →
      st.PreemptsAt s → s.sched.running = init ++ [v] → P (s.recomputeGroup v init))
    (hsort : ∀ s w, st.MidStep s → P s → w.Perm s.sched.waiting →
      P { s with sched := { s.sched with waiting := w } })
    (hfront : ∀ s p rest, st.MidStep s → P s → (s, p) ∈ st.admissions →
      s.sched.waiting = p :: rest → s.prefillFits p → P (s.admitGroup p rest))
    (hswapIn : ∀ s p rest, st.MidStep s → P s → s.sched.swapped = p :: rest →
      s.swapInFits p → P (s.swapInGroup p rest)) :
    st.MidStep st.afterSwapIn ∧ P st.afterSwapIn := by
  obtain ⟨hs, hP⟩ := afterDecodes_wellFormed hwf hbegin hdecode hswapOut hrecompute
  refine afterSwapIn_wellFormed_of ?_ hfront hswapIn
  obtain ⟨w, hperm, hw⟩ := st.afterDecodes.sched.sortWaitingQueue_eq
  rw [beforePrefills, hw]
  exact ⟨hs.sorted hperm, hsort _ w hs hP hperm⟩

theorem schedule_midStep {st : Scheduler} (hwf : st.WellFormed) : st.MidStep st.afterSwapIn :=
  (afterSwapIn_wellFormed (P := fun _ => True) hwf trivial (fun _ _ _ _ _ _ _ _ => trivial)
    (fun _ _ _ _ _ _ _ _ => trivial) (fun _ _ _ _ _ _ _ _ => trivial)
    (fun _ _ _ _ _ => trivial) (fun _ _ _ _ _ _ _ _ => trivial) (fun _ _ _ _ _ _ _ => trivial)).1

/-! ## The other operations -/

theorem addRequest_queued (st : Scheduler) (group : SequenceGroup) :
    (st.addRequest group).queued.Perm (st.next :: st.queued) := by
  have hleft : (st.addRequest group).queued
      = (st.running ++ st.waiting) ++ st.next :: st.swapped := by
    simp [queued, addRequest]
  have hright : st.queued = (st.running ++ st.waiting) ++ st.swapped := by
    simp [queued]
  rw [hleft, hright]
  exact List.perm_middle

theorem groups_addRequest_of_lt (st : Scheduler) (group : SequenceGroup) {p : GroupPtr}
    (hp : p < st.next) : (st.addRequest group).groups p = st.groups p :=
  Function.update_of_ne (Nat.ne_of_lt hp) _ _

theorem groups_addRequest_self (st : Scheduler) (group : SequenceGroup) :
    (st.addRequest group).groups st.next = group :=
  Function.update_self _ _ _

/-- Adding a request leaves the queued sequences. -/
theorem WellFormed.seq_addRequest {st : Scheduler} (h : st.WellFormed) (group : SequenceGroup) :
    ∀ q ∈ st.queued, (st.addRequest group).seq q = st.seq q :=
  fun q hq => congrArg SequenceGroup.seq (st.groups_addRequest_of_lt group (h.stored q hq))

/-- The sequence of a new request. -/
theorem FreshRequest.seq_next {st : Scheduler} {group : SequenceGroup} (h : st.FreshRequest group) :
    (st.addRequest group).seq st.next
      = { seqId := group.requestId, promptTokens := group.seq.promptTokens } := by
  rw [seq, groups_addRequest_self, h.1.seq_eq]

theorem addRequest_wellFormed {st : Scheduler} (hwf : st.WellFormed) {group : SequenceGroup}
    (hfresh : st.FreshRequest group) : (st.addRequest group).WellFormed := by
  obtain ⟨hnew, hid⟩ := hfresh
  have hperm := st.addRequest_queued group
  have hold : ∀ p ∈ st.queued, (st.addRequest group).groups p = st.groups p :=
    fun p hp => st.groups_addRequest_of_lt group (hwf.stored p hp)
  refine ⟨?_, fun p hp => ?_, fun p hp => ?_, fun id p hp => ?_⟩
  · refine (hperm.map _).nodup_iff.2 ?_
    rw [List.map_cons, List.nodup_cons, groups_addRequest_self,
      List.map_congr_left (fun p hp => congrArg SequenceGroup.requestId (hold p hp))]
    refine ⟨fun hmem => ?_, hwf.ids⟩
    obtain ⟨p, hp, heq⟩ := List.mem_map.1 hmem
    exact hid p hp heq
  · rcases List.mem_cons.1 (hperm.mem_iff.1 hp) with rfl | hp
    · exact Nat.lt_succ_self _
    · exact Nat.lt_succ_of_lt (hwf.stored p hp)
  · rcases Nat.lt_succ_iff_lt_or_eq.1 hp with hlt | rfl
    · rw [groups_addRequest_of_lt st group hlt]
      exact hwf.single p hlt
    · rw [groups_addRequest_self]
      exact hnew.single
  · by_cases hid' : id = group.requestId
    · subst hid'
      simp only [addRequest, AList.lookup_insert, Option.some.injEq] at hp
      subst hp
      exact ⟨hperm.mem_iff.2 (List.mem_cons_self ..), by rw [groups_addRequest_self]⟩
    · simp only [addRequest, AList.lookup_insert_ne hid'] at hp
      obtain ⟨hmem, hpid⟩ := hwf.named id p hp
      exact ⟨hperm.mem_iff.2 (List.mem_cons_of_mem _ hmem), by rw [hold p hmem]; exact hpid⟩

/-- What `abort_request` does to the queued group it finds. -/
theorem abortRequest_eq {st : Scheduler} (hwf : st.WellFormed) {id : SeqId} {p : GroupPtr}
    (hp : st.requestMap.lookup id = some p) :
    st.abortRequest id = { st.putSequences p [(abortSequence st.blockManager (st.seq p)).1]
      (abortSequence st.blockManager (st.seq p)).2 with requestMap := st.requestMap.erase id } := by
  have hsingle := hwf.single_of_mem (hwf.named id p hp).1
  simp only [abortRequest, hp, hsingle.sequences, threadSequences]
  rfl

theorem abortRequest_wellFormed {st : Scheduler} (hwf : st.WellFormed) (id : SeqId) :
    (st.abortRequest id).WellFormed := by
  cases hp : st.requestMap.lookup id with
  | none =>
      simp only [abortRequest, hp]
      exact hwf
  | some p =>
      rw [abortRequest_eq hwf hp]
      have hput := hwf.put (p := p) (abortSequence st.blockManager (st.seq p)).2
        (abortSequence_seqId st.blockManager (st.seq p)) (List.Perm.refl _)
      refine ⟨hput.ids, hput.stored, hput.single, fun id' q hq => hput.named id' q ?_⟩
      by_cases hid : id' = id
      · subst hid
        rw [AList.lookup_erase] at hq
        cases hq
      · rwa [AList.lookup_erase_ne hid] at hq

/-- What `update_after_decode` may do to a sequence: append tokens, and finish it if it was not. -/
structure Extends (x y : SequenceData) : Prop where
  seqId : y.seqId = x.seqId
  promptTokens : y.promptTokens = x.promptTokens
  logicalBlocks : y.logicalBlocks = x.logicalBlocks
  outputTokens : x.outputLen ≤ y.outputLen
  status : y.status = x.status ∨ (x.isFinished = false ∧ y.status = .finishedLength)

namespace Extends

variable {x y z : SequenceData}

theorem refl (x : SequenceData) : Extends x x :=
  ⟨rfl, rfl, rfl, Nat.le_refl _, Or.inl rfl⟩

theorem trans (hxy : Extends x y) (hyz : Extends y z) : Extends x z := by
  refine ⟨hyz.seqId.trans hxy.seqId, hyz.promptTokens.trans hxy.promptTokens,
    hyz.logicalBlocks.trans hxy.logicalBlocks, Nat.le_trans hxy.outputTokens hyz.outputTokens, ?_⟩
  rcases hyz.status with hz | ⟨hy, hz⟩
  · rw [hz]
    exact hxy.status
  · refine Or.inr ⟨?_, hz⟩
    rcases hxy.status with hy' | ⟨hx, -⟩
    · rwa [SequenceData.isFinished, hy'] at hy
    · exact hx

theorem acceptToken (maxTokens : Int) (x : SequenceData) (tok : TokenId)
    (hfin : x.isFinished = false) : Extends x (BatchManager.acceptToken maxTokens x tok) := by
  have hlen : x.outputLen ≤ (x.appendToken tok).outputLen := by
    simp [SequenceData.outputLen, SequenceData.appendToken]
  simp only [BatchManager.acceptToken]
  split
  · exact ⟨rfl, rfl, rfl, hlen, Or.inr ⟨hfin, rfl⟩⟩
  · exact ⟨rfl, rfl, rfl, hlen, Or.inl rfl⟩

theorem totalLen_le (h : Extends x y) : x.totalLen ≤ y.totalLen := by
  have := h.outputTokens
  simp only [SequenceData.totalLen, SequenceData.promptLen, h.promptTokens]
  omega

theorem status_of_unfinished (h : Extends x y) (hy : y.isFinished = false) :
    y.status = x.status := by
  rcases h.status with hs | ⟨-, hs⟩
  · exact hs
  · rw [SequenceData.isFinished, hs] at hy
    cases hy

end Extends

/-- The group `h` is `g` after its sequence has been extended. -/
structure Updates (g h : SequenceGroup) : Prop where
  requestId : h.requestId = g.requestId
  sampling : h.sampling = g.sampling
  priority : h.priority = g.priority
  single : h.Single
  seq : Extends g.seq h.seq

theorem updateSequences_single (maxTokens : Int) (now : TimePoint) (x : SequenceData)
    (first : Option TimePoint) (toks : List TokenId) :
    ∃ y first' toks', BatchManager.updateSequences maxTokens now [x] first toks
      = ([y], first', toks') ∧ Extends x y := by
  by_cases hfin : x.isFinished = true
  · exact ⟨x, first, toks, by simp [BatchManager.updateSequences, hfin], Extends.refl x⟩
  · have hfin' : x.isFinished = false := by simpa using hfin
    cases toks with
    | nil => exact ⟨x, first, [], by simp [BatchManager.updateSequences, hfin'], Extends.refl x⟩
    | cons tok toks =>
        exact ⟨_, _, _, by simp only [BatchManager.updateSequences, hfin']; rfl,
          Extends.acceptToken maxTokens x tok hfin'⟩

theorem updateGroups_updates (now : TimePoint) (ps : List GroupPtr)
    (groups : GroupPtr → SequenceGroup) (toks : List TokenId) (p : GroupPtr)
    (hp : (groups p).Single) :
    Updates (groups p) (BatchManager.updateGroups now ps groups toks p) := by
  induction ps generalizing groups toks with
  | nil => exact ⟨rfl, rfl, rfl, hp, Extends.refl _⟩
  | cons q rest ih =>
      rw [BatchManager.updateGroups]
      by_cases hpq : p = q
      · subst hpq
        -- one visit of the group, then the rest of the list
        obtain ⟨y, first, toks', hupd, hext⟩ := updateSequences_single
          (groups p).sampling.maxTokens now (groups p).seq (groups p).firstTokenTime toks
        rw [hp.sequences, hupd]
        have hrest := ih (Function.update groups p
          { groups p with sequences := [y], firstTokenTime := first }) toks'
          (by rw [Function.update_self]; exact ⟨rfl, hext.seqId.trans hp.seqId⟩)
        rw [Function.update_self] at hrest
        exact ⟨hrest.requestId, hrest.sampling, hrest.priority, hrest.single,
          hext.trans hrest.seq⟩
      · have hrest := fun (g : SequenceGroup) (toks : List TokenId) =>
          ih (Function.update groups q g) toks (by rw [Function.update_of_ne hpq]; exact hp)
        simp only [Function.update_of_ne hpq] at hrest
        exact hrest _ _

theorem updateAfterDecode_updates {st : Scheduler} (hwf : st.WellFormed) (out : SchedulerOutput)
    (toks : List TokenId) (now : TimePoint) {p : GroupPtr} (hp : p < st.next) :
    Updates (st.groups p) ((st.updateAfterDecode out toks now).groups p) :=
  updateGroups_updates now _ _ _ _ (hwf.single p hp)

/-- `update_after_decode` only adds to a queued sequence. -/
theorem WellFormed.extends_updateAfterDecode {st : Scheduler} (h : st.WellFormed)
    (out : SchedulerOutput) (toks : List TokenId) (now : TimePoint) :
    ∀ p ∈ st.queued, Extends (st.seq p) ((st.updateAfterDecode out toks now).seq p) :=
  fun p hp => (updateAfterDecode_updates h out toks now (h.stored p hp)).seq

theorem updateAfterDecode_wellFormed {st : Scheduler} (hwf : st.WellFormed)
    (out : SchedulerOutput) (toks : List TokenId) (now : TimePoint) :
    (st.updateAfterDecode out toks now).WellFormed := by
  have hid : ∀ p ∈ st.queued,
      ((st.updateAfterDecode out toks now).groups p).requestId = (st.groups p).requestId :=
    fun p hp => (updateAfterDecode_updates hwf out toks now (hwf.stored p hp)).requestId
  refine ⟨?_, hwf.stored, fun p hp => ?_, fun id p hp => ?_⟩
  · show (st.queued.map _).Nodup
    rw [List.map_congr_left hid]
    exact hwf.ids
  · exact (updateAfterDecode_updates hwf out toks now hp).single
  · obtain ⟨hmem, hpid⟩ := hwf.named id p hp
    exact ⟨hmem, (hid p hmem).trans hpid⟩

theorem finishedIn_single {st : Scheduler} (hwf : st.WellFormed) {q : List GroupPtr}
    (hq : q ⊆ st.queued) {p : GroupPtr} :
    p ∈ st.finishedIn q ↔ p ∈ q ∧ (st.seq p).isFinished = true := by
  rw [finishedIn, List.mem_filter]
  refine and_congr_right (fun hp => ?_)
  rw [(hwf.single_of_mem (hq hp)).allFinished, seq]

theorem unfinishedIn_single {st : Scheduler} (hwf : st.WellFormed) {q : List GroupPtr}
    (hq : q ⊆ st.queued) {p : GroupPtr} :
    p ∈ st.unfinishedIn q ↔ p ∈ q ∧ (st.seq p).isFinished = false := by
  rw [unfinishedIn, List.mem_filter]
  refine and_congr_right (fun hp => ?_)
  rw [(hwf.single_of_mem (hq hp)).allFinished, seq, Bool.not_eq_true']

/-- What `free_finished_requests` destroys is queued and finished. -/
theorem released_finished {st : Scheduler} (hwf : st.WellFormed) {p : GroupPtr}
    (hp : p ∈ st.finishedIn st.running ++ st.finishedIn st.waiting) :
    p ∈ st.queued ∧ (st.seq p).isFinished = true := by
  rcases List.mem_append.1 hp with hp | hp
  · rw [finishedIn_single hwf (fun _ => WellFormed.mem_running)] at hp
    exact ⟨WellFormed.mem_running hp.1, hp.2⟩
  · rw [finishedIn_single hwf (fun _ => WellFormed.mem_waiting)] at hp
    exact ⟨WellFormed.mem_waiting hp.1, hp.2⟩

theorem released_single {st : Scheduler} (hwf : st.WellFormed) {p : GroupPtr}
    (hp : p ∈ st.finishedIn st.running ++ st.finishedIn st.waiting) : (st.groups p).Single :=
  hwf.single_of_mem (released_finished hwf hp).1

/-- The queues split into the groups `free_finished_requests` destroys and those that stay. -/
theorem queued_perm_released (st : Scheduler) :
    st.queued.Perm ((st.finishedIn st.running ++ st.finishedIn st.waiting) ++
      (st.unfinishedIn st.running ++ (st.unfinishedIn st.waiting ++ st.swapped))) := by
  have hr := List.filter_append_perm (fun p => (st.groups p).allFinished) st.running
  have hw := List.filter_append_perm (fun p => (st.groups p).allFinished) st.waiting
  refine (hr.symm.append (hw.symm.append_right st.swapped)).trans ?_
  simp only [List.append_assoc]
  exact List.Perm.append_left _ (List.perm_append_comm_assoc _ _ _)

/-- No two of the destroyed groups share their sequence id. -/
theorem released_ids_nodup {st : Scheduler} (hwf : st.WellFormed) :
    ((st.finishedIn st.running ++ st.finishedIn st.waiting).map
      (fun p => (st.groups p).seq.seqId)).Nodup := by
  have hnodup := (queued_perm_released st).nodup_iff.1 hwf.nodup
  refine (List.nodup_append.1 hnodup).1.map_on ?_
  intro p hp q hq heq
  exact hwf.eq_of_seqId (released_finished hwf hp).1 (released_finished hwf hq).1 heq

/-- The id of a group that stays is that of no destroyed group. -/
theorem not_released_seqId {st : Scheduler} (hwf : st.WellFormed) {q : GroupPtr}
    (hq : q ∈ st.unfinishedIn st.running ++ (st.unfinishedIn st.waiting ++ st.swapped)) :
    ¬ ∃ p ∈ st.finishedIn st.running ++ st.finishedIn st.waiting,
      (st.groups p).seq.seqId = (st.seq q).seqId := by
  have hperm := queued_perm_released st
  rintro ⟨p, hp, hid⟩
  have hmem : q ∈ st.queued := hperm.mem_iff.2 (List.mem_append_right _ hq)
  have heq := hwf.eq_of_seqId (released_finished hwf hp).1 hmem hid
  exact (List.nodup_append.1 (hperm.nodup_iff.1 hwf.nodup)).2.2 p hp q hq heq

/-- What `free_finished_requests` leaves in `request_map_` points to groups that stay: the id of every
    destroyed group is erased, whatever it was mapped to. -/
theorem named_freeFinishedRequests {st : Scheduler}
    (h : ∀ id p, st.requestMap.lookup id = some p →
      p ∈ st.queued ∧ (st.groups p).requestId = id) (id : SeqId) (p : GroupPtr)
    (hp : st.freeFinishedRequests.requestMap.lookup id = some p) :
    p ∈ st.freeFinishedRequests.queued ∧ (st.freeFinishedRequests.groups p).requestId = id := by
  rw [freeFinishedRequests_eq] at hp ⊢
  simp only [lookup_eraseRequests] at hp
  split at hp
  · cases hp
  · next hnot =>
      obtain ⟨hmem, hpid⟩ := h id p hp
      -- a group that is mapped and not erased is not finished, so its queue keeps it
      have hstay : ∀ q : List GroupPtr, (∀ r ∈ st.finishedIn q, (st.groups r).requestId ≠ id) →
          p ∈ q → p ∈ st.unfinishedIn q := by
        intro q hq hpq
        rw [unfinishedIn, List.mem_filter]
        refine ⟨hpq, ?_⟩
        by_contra hfin
        exact hq p (List.mem_filter.2 ⟨hpq, by simpa using hfin⟩) hpid
      refine ⟨?_, hpid⟩
      rcases List.mem_append.1 hmem with hrun | hmem
      · exact List.mem_append_left _ (hstay _
          (fun r hr hid => hnot ⟨r, List.mem_append_left _ hr, hid⟩) hrun)
      · rcases List.mem_append.1 hmem with hwait | hswap
        · exact List.mem_append_right _ (List.mem_append_left _ (hstay _
            (fun r hr hid => hnot ⟨r, List.mem_append_right _ hr, hid⟩) hwait))
        · exact List.mem_append_right _ (List.mem_append_right _ hswap)

/-- The queues after `free_finished_requests` are the queues before with groups left out. -/
theorem freeFinishedRequests_queued_sublist (st : Scheduler) :
    st.freeFinishedRequests.queued.Sublist st.queued := by
  rw [freeFinishedRequests_eq]
  exact List.filter_sublist.append (List.filter_sublist.append (List.Sublist.refl _))

theorem freeFinishedRequests_wellFormed {st : Scheduler} (hwf : st.WellFormed) :
    st.freeFinishedRequests.WellFormed := by
  have hsub := st.freeFinishedRequests_queued_sublist
  have hgroups : st.freeFinishedRequests.groups = st.groups := by rw [freeFinishedRequests_eq]
  have hnext : st.freeFinishedRequests.next = st.next := by rw [freeFinishedRequests_eq]
  refine ⟨?_, fun p hp => ?_, fun p hp => ?_, named_freeFinishedRequests hwf.named⟩
  · rw [hgroups]
    exact (hsub.map _).nodup hwf.ids
  · rw [hnext]
    exact hwf.stored p (hsub.subset hp)
  · rw [hgroups]
    exact hwf.single p (hnext ▸ hp)

theorem new_wellFormed (config : SchedulerConfig) (bm : BlockManager) :
    (Scheduler.new config bm).WellFormed := by
  refine ⟨List.nodup_nil, fun p hp => ?_, fun p hp => ?_, fun id p hp => ?_⟩
  · exact absurd hp List.not_mem_nil
  · exact absurd hp (Nat.not_lt_zero p)
  · simp [Scheduler.new] at hp

end Scheduler

end CacheFlow
