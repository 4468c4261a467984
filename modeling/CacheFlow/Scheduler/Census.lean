import CacheFlow.Scheduler.Single

set_option autoImplicit false

/-! # The census of the queues

The scheduler owns its groups through the `unique_ptr`s of three deques and moves them from one to
another while it iterates over them; `request_map_` and the scheduler's output keep raw pointers. This
file follows the groups through every run of the public interface, for groups with any number of
sequences, request ids that may be repeated, and a world outside that rewrites statuses and output
tokens between the calls.

`Census` is the scheduler with the history a caller can write down: the groups it has added, those the
queues have lost in `free_finished_requests`, those `schedule_prefills` has admitted, and the latest
output. One call only shuffles the groups between the queues (`schedule_shuffles`); that no group is lost
or duplicated, and that no pointer dangles, is an invariant of the runs. -/

namespace CacheFlow

open ScheduleState

/-! ## The machine -/

/-- What the world outside the scheduler does to a sequence: set its status and its output. -/
def SequenceData.Rewrites (x y : SequenceData) : Prop :=
  y = { x with status := y.status, outputTokens := y.outputTokens }

instance (x y : SequenceData) : Decidable (x.Rewrites y) := inferInstanceAs (Decidable (_ = _))

/-- All pointers in an output. -/
def SchedulerOutput.pointers (out : SchedulerOutput) : List GroupPtr :=
  out.scheduledGroups ++ (out.preemptedGroups ++ out.swappedInGroups)

/-- A scheduler with the history of its groups. -/
structure Census where
  sched : Scheduler
  /-- The groups `add_request` has received, in order. -/
  added : List GroupPtr
  /-- The groups that have left the queues in `free_finished_requests`. -/
  removed : List GroupPtr
  /-- The groups `schedule_prefills` has admitted, in order. -/
  admitted : List GroupPtr
  /-- The output of the latest `schedule()`; the caller drops it at `free_finished_requests`. -/
  output : SchedulerOutput

inductive CensusOp
  | addRequest (group : SequenceGroup)
  | abortRequest (requestId : SeqId)
  | schedule
  | freeFinishedRequests
  /-- The world outside rewrites the sequences of the group `p`. -/
  | rewrite (p : GroupPtr) (seqs : List SequenceData)
  deriving DecidableEq

namespace Census

def init (config : SchedulerConfig) (bm : BlockManager) : Census where
  sched := Scheduler.new config bm
  added := []
  removed := []
  admitted := []
  output := {}

def step (c : Census) : CensusOp → Census
  | .addRequest group =>
    { c with sched := c.sched.addRequest group, added := c.added ++ [c.sched.next] }
  | .abortRequest requestId => { c with sched := c.sched.abortRequest requestId }
  | .schedule =>
    { c with
      sched := c.sched.schedule.2,
      admitted := c.admitted ++ c.sched.admissions.map Prod.snd,
      output := c.sched.schedule.1 }
  | .freeFinishedRequests =>
    { c with
      sched := c.sched.freeFinishedRequests,
      removed :=
        c.removed ++ c.sched.queued.filter (fun p => p ∉ c.sched.freeFinishedRequests.queued),
      output := {} }
  | .rewrite p seqs => { c with sched := c.sched.putSequences p seqs c.sched.blockManager }

/-- Groups are added with a sequence; the world outside rewrites groups that exist. -/
def Permitted (c : Census) : CensusOp → Prop
  | .addRequest group => group.sequences ≠ []
  | .rewrite p seqs =>
    p ∈ c.sched.queued ∧ List.Forall₂ SequenceData.Rewrites (c.sched.groups p).sequences seqs
  | _ => True

instance (c : Census) : ∀ op, Decidable (c.Permitted op)
  | .addRequest _ => inferInstanceAs (Decidable (_ ≠ _))
  | .rewrite _ _ => inferInstanceAs (Decidable (_ ∧ _))
  | .abortRequest _ => inferInstanceAs (Decidable True)
  | .schedule => inferInstanceAs (Decidable True)
  | .freeFinishedRequests => inferInstanceAs (Decidable True)

end Census

/-! ## One call -/

/-- The group `h` is `g` with other sequences. -/
structure SameRequest (g h : SequenceGroup) : Prop extends SameName g h where
  priority : h.priority = g.priority

theorem SameRequest.refl (g : SequenceGroup) : SameRequest g g := ⟨⟨rfl, rfl⟩, rfl⟩

theorem SameRequest.trans {g h k : SequenceGroup} (hgh : SameRequest g h) (hhk : SameRequest h k) :
    SameRequest g k :=
  ⟨⟨hhk.requestId.trans hgh.requestId, hhk.sampling.trans hgh.sampling⟩,
    hhk.priority.trans hgh.priority⟩

namespace Scheduler

/-- Storing sequences changes nothing else of any request. -/
theorem putSequences_sameRequest (st : Scheduler) (p : GroupPtr) (seqs : List SequenceData)
    (bm : BlockManager) (q : GroupPtr) :
    SameRequest (st.groups q) ((st.putSequences p seqs bm).groups q) := by
  by_cases hq : q = p
  · subst hq
    exact ⟨⟨by simp [putSequences], by simp [putSequences]⟩, by simp [putSequences]⟩
  · have heq : (st.putSequences p seqs bm).groups q = st.groups q := by simp [putSequences, hq]
    rw [heq]
    exact SameRequest.refl _

/-- What holds at every point of a `schedule()` call that starts in `st`: the queues hold the same
    groups, and the output points to some of them. -/
structure Shuffles (st : Scheduler) (s : ScheduleState) : Prop where
  queued : s.sched.queued.Perm st.queued
  same : ∀ p, SameRequest (st.groups p) (s.sched.groups p)
  config : s.sched.config = st.config
  output : ∀ p ∈ s.output.pointers, p ∈ st.queued

namespace Shuffles

variable {st : Scheduler} {s s' : ScheduleState} {p : GroupPtr} {rest : List GroupPtr}

/-- The shape of every move: the sequences of a queued group are rewritten, groups change queues, and
    the output gets no other pointer. -/
theorem move (h : st.Shuffles s) {seqs : List SequenceData} {bm : BlockManager}
    {running waiting swapped : List GroupPtr}
    (hs' : s'.sched = { s.sched.putSequences p seqs bm with
      running := running, waiting := waiting, swapped := swapped })
    (hp : p ∈ s.sched.queued) (hq : (running ++ (waiting ++ swapped)).Perm s.sched.queued)
    (hout : ∀ q ∈ s'.output.pointers, q = p ∨ q ∈ s.output.pointers) : st.Shuffles s' := by
  refine ⟨?_, fun q => ?_, ?_, fun q hq' => ?_⟩
  · rw [hs']
    exact hq.trans h.queued
  · rw [hs']
    exact (h.same q).trans (s.sched.putSequences_sameRequest p seqs bm q)
  · rw [hs']
    exact h.config
  · rcases hout q hq' with rfl | hq'
    · exact h.queued.mem_iff.1 hp
    · exact h.output q hq'

theorem queues (h : st.Shuffles s) (hst : st.QueuesDisjoint) : s.sched.QueuesDisjoint :=
  h.queued.nodup_iff.2 hst

theorem begin (st : Scheduler) : st.Shuffles st.beginSchedule := by
  refine ⟨List.Perm.refl _, fun _ => SameRequest.refl _, rfl, fun p hp => ?_⟩
  exact absurd hp List.not_mem_nil

theorem decode (h : st.Shuffles s) (hp : p ∈ s.sched.running) : st.Shuffles (s.decodeGroup p) := by
  refine h.move rfl (WellFormed.mem_running hp) (List.Perm.refl _) ?_
  intro q hq
  simp only [decodeGroup, charge, SchedulerOutput.pointers, List.mem_append,
    List.mem_singleton] at hq ⊢
  tauto

theorem swapOut (h : st.Shuffles s) {init : List GroupPtr} (hv : s.sched.running = init ++ [p]) :
    st.Shuffles (s.swapOutGroup p init) := by
  refine h.move (p := p) rfl (WellFormed.mem_running (by rw [hv]; simp)) ?_ ?_
  · rw [Scheduler.queued, hv]
    exact perm_swapOut _ _ _ _
  · intro q hq
    simp only [swapOutGroup, SchedulerOutput.pointers, List.mem_append, List.mem_singleton] at hq ⊢
    tauto

theorem recompute (h : st.Shuffles s) {init : List GroupPtr} (hv : s.sched.running = init ++ [p]) :
    st.Shuffles (s.recomputeGroup p init) := by
  refine h.move (p := p) rfl (WellFormed.mem_running (by rw [hv]; simp)) (List.Perm.of_eq ?_) ?_
  · rw [Scheduler.queued, hv]
    simp [putSequences]
  · intro q hq
    simp only [recomputeGroup, SchedulerOutput.pointers, List.mem_append, List.mem_singleton] at hq ⊢
    tauto

theorem preempt (h : st.Shuffles s) {init : List GroupPtr} (hv : s.sched.running = init ++ [p]) :
    st.Shuffles s.preempt := by
  rw [preempt_eq hv]
  cases s.sched.config.preemptionMode with
  | swap => exact h.swapOut hv
  | recompute => exact h.recompute hv

theorem sort (h : st.Shuffles s) : st.Shuffles { s with sched := s.sched.sortWaitingQueue } := by
  obtain ⟨w, hperm, hw⟩ := s.sched.sortWaitingQueue_eq
  rw [hw]
  refine ⟨List.Perm.trans ?_ h.queued, h.same, h.config, h.output⟩
  exact List.Perm.append_left _ (List.Perm.append_right _ hperm)

theorem prefill (h : st.Shuffles s) (hwait : s.sched.waiting = p :: rest) :
    st.Shuffles (s.admitGroup p rest) := by
  refine h.move (p := p) rfl (WellFormed.mem_waiting (by rw [hwait]; simp)) (List.Perm.of_eq ?_) ?_
  · rw [Scheduler.queued, hwait]
    simp [putSequences]
  · intro q hq
    simp only [admitGroup, charge, SchedulerOutput.pointers, List.mem_append,
      List.mem_singleton] at hq ⊢
    tauto

theorem swapIn (h : st.Shuffles s) (hswap : s.sched.swapped = p :: rest) :
    st.Shuffles (s.swapInGroup p rest) := by
  refine h.move (p := p) rfl (WellFormed.mem_swapped (by rw [hswap]; simp)) ?_ ?_
  · rw [Scheduler.queued, hswap]
    exact perm_swapIn _ _ _ _
  · intro q hq
    simp only [swapInGroup, charge, SchedulerOutput.pointers, List.mem_append,
      List.mem_singleton] at hq ⊢
    tauto

end Shuffles

/-- **One call moves groups between the queues**, and outputs pointers to queued groups. -/
theorem schedule_shuffles (st : Scheduler) : st.Shuffles st.afterSwapIn :=
  st.afterSwapIn_invariant (Shuffles.begin st) (fun _ _ _ h hat _ _ => h.decode hat.mem_running)
    (fun _ _ _ h _ hv => h.preempt hv) (fun _ h => h.sort) (fun _ _ _ h _ hwait _ => h.prefill hwait)
    (fun _ _ _ h hswap _ => h.swapIn hswap)

/-- The scheduler `st'` is `st` with other sequences and another `request_map_`. -/
structure SameQueues (st st' : Scheduler) : Prop where
  running : st'.running = st.running
  waiting : st'.waiting = st.waiting
  swapped : st'.swapped = st.swapped
  next : st'.next = st.next
  config : st'.config = st.config
  same : ∀ p, SameRequest (st.groups p) (st'.groups p)

theorem SameQueues.queued {st st' : Scheduler} (h : SameQueues st st') : st'.queued = st.queued := by
  rw [Scheduler.queued, h.running, h.waiting, h.swapped]
  rfl

theorem putSequences_sameQueues (st : Scheduler) (p : GroupPtr) (seqs : List SequenceData)
    (bm : BlockManager) : SameQueues st (st.putSequences p seqs bm) :=
  ⟨rfl, rfl, rfl, rfl, rfl, st.putSequences_sameRequest p seqs bm⟩

theorem abortRequest_sameQueues (st : Scheduler) (id : SeqId) :
    SameQueues st (st.abortRequest id) := by
  unfold abortRequest
  split
  · exact ⟨rfl, rfl, rfl, rfl, rfl, fun _ => SameRequest.refl _⟩
  · exact ⟨rfl, rfl, rfl, rfl, rfl, st.putSequences_sameRequest _ _ st.blockManager⟩

/-- `abort_request` adds nothing to `request_map_`. -/
theorem lookup_abortRequest {st : Scheduler} {id id' : SeqId} {p : GroupPtr}
    (h : (st.abortRequest id).requestMap.lookup id' = some p) :
    st.requestMap.lookup id' = some p := by
  unfold abortRequest at h
  split at h
  · exact h
  · by_cases hid : id' = id
    · subst hid
      rw [AList.lookup_erase] at h
      cases h
    · rwa [AList.lookup_erase_ne hid] at h

/-- The groups that leave the queues in `free_finished_requests` are finished. -/
theorem allFinished_of_removed {st : Scheduler} {p : GroupPtr} (hp : p ∈ st.queued)
    (hgone : p ∉ st.freeFinishedRequests.queued) : (st.groups p).allFinished = true := by
  rcases List.mem_append.1 ((queued_perm_released st).mem_iff.1 hp) with h | h
  · rcases List.mem_append.1 h with h | h
    · exact (List.mem_filter.1 h).2
    · exact (List.mem_filter.1 h).2
  · rw [freeFinishedRequests_eq] at hgone
    exact absurd h hgone

/-- What leaves the queues in `free_finished_requests` and what stays make up the queues. -/
theorem queued_perm_removed {st : Scheduler} (h : st.queued.Nodup) :
    st.queued.Perm (st.freeFinishedRequests.queued ++
      st.queued.filter (fun p => p ∉ st.freeFinishedRequests.queued)) := by
  have hstay := st.freeFinishedRequests_queued_sublist
  have hkept : (st.queued.filter (fun p => p ∈ st.freeFinishedRequests.queued)).Perm
      st.freeFinishedRequests.queued := by
    refine (List.perm_ext_iff_of_nodup (h.filter _) (hstay.nodup h)).2 (fun p => ?_)
    simp only [List.mem_filter, decide_eq_true_eq]
    exact ⟨fun hp => hp.2, fun hp => ⟨hstay.subset hp, hp⟩⟩
  have hsplit := List.filter_append_perm
    (fun p => decide (p ∈ st.freeFinishedRequests.queued)) st.queued
  refine hsplit.symm.trans ?_
  simp only [decide_not]
  exact hkept.append_right _

end Scheduler

/-! ## Runs -/

namespace Census

/-- Every group added is queued once or has been removed, and every pointer kept points to a queued
    group. -/
structure Balanced (c : Census) : Prop where
  distinct : c.added.Nodup
  stored : ∀ p ∈ c.added, p < c.sched.next
  balance : c.added.Perm (c.sched.queued ++ c.removed)
  named : ∀ id p, c.sched.requestMap.lookup id = some p →
    p ∈ c.sched.queued ∧ (c.sched.groups p).requestId = id
  output : ∀ p ∈ c.output.pointers, p ∈ c.sched.queued

namespace Balanced

variable {c : Census}

theorem queues (h : c.Balanced) : c.sched.QueuesDisjoint :=
  (List.nodup_append.1 (h.balance.nodup_iff.1 h.distinct)).1

theorem mem_added (h : c.Balanced) {p : GroupPtr} (hp : p ∈ c.sched.queued) : p ∈ c.added :=
  h.balance.mem_iff.2 (List.mem_append_left _ hp)

theorem init (config : SchedulerConfig) (bm : BlockManager) : (Census.init config bm).Balanced := by
  refine ⟨List.nodup_nil, fun p hp => ?_, List.Perm.refl _, fun id p hp => ?_, fun p hp => ?_⟩
  · exact absurd hp List.not_mem_nil
  · simp [Census.init, Scheduler.new] at hp
  · exact absurd hp List.not_mem_nil

theorem addRequest (h : c.Balanced) (group : SequenceGroup) :
    (c.step (.addRequest group)).Balanced := by
  have hperm := c.sched.addRequest_queued group
  have hfresh : c.sched.next ∉ c.added := fun hmem => Nat.lt_irrefl _ (h.stored _ hmem)
  refine ⟨?_, fun p hp => ?_, ?_, fun id p hp => ?_, fun p hp => ?_⟩
  · exact List.nodup_append.2 ⟨h.distinct, List.nodup_singleton _, fun p hp q hq heq =>
      hfresh (List.mem_singleton.1 hq ▸ heq ▸ hp)⟩
  · rcases List.mem_append.1 hp with hp | hp
    · exact Nat.lt_succ_of_lt (h.stored p hp)
    · rw [List.mem_singleton.1 hp]
      exact Nat.lt_succ_self _
  · have hadded : (c.added ++ [c.sched.next]).Perm (c.sched.next :: (c.sched.queued ++ c.removed)) :=
      (List.perm_append_singleton _ _).trans (h.balance.cons _)
    exact hadded.trans (hperm.symm.append_right _)
  · by_cases hid : id = group.requestId
    · -- the id now names the new group, whatever it named before
      subst hid
      simp only [step, Scheduler.addRequest, AList.lookup_insert, Option.some.injEq] at hp
      subst hp
      exact ⟨hperm.mem_iff.2 (List.mem_cons_self ..),
        congrArg SequenceGroup.requestId (c.sched.groups_addRequest_self group)⟩
    · simp only [step, Scheduler.addRequest, AList.lookup_insert_ne hid] at hp
      obtain ⟨hmem, hpid⟩ := h.named id p hp
      refine ⟨hperm.mem_iff.2 (List.mem_cons_of_mem _ hmem), ?_⟩
      rw [← hpid]
      exact congrArg SequenceGroup.requestId
        (c.sched.groups_addRequest_of_lt group (h.stored p (h.mem_added hmem)))
  · exact hperm.mem_iff.2 (List.mem_cons_of_mem _ (h.output p hp))

/-- Operations that move nothing and add nothing to `request_map_` keep the balance. -/
theorem sameQueues (h : c.Balanced) {st : Scheduler} (hsame : Scheduler.SameQueues c.sched st)
    (hmap : ∀ id p, st.requestMap.lookup id = some p → c.sched.requestMap.lookup id = some p) :
    ({ c with sched := st } : Census).Balanced := by
  refine ⟨h.distinct, fun p hp => ?_, ?_, fun id p hp => ?_, fun p hp => ?_⟩
  · show p < st.next
    rw [hsame.next]
    exact h.stored p hp
  · show c.added.Perm (st.queued ++ c.removed)
    rw [hsame.queued]
    exact h.balance
  · obtain ⟨hmem, hpid⟩ := h.named id p (hmap id p hp)
    refine ⟨?_, (hsame.same p).requestId.trans hpid⟩
    show p ∈ st.queued
    rw [hsame.queued]
    exact hmem
  · show p ∈ st.queued
    rw [hsame.queued]
    exact h.output p hp

theorem schedule (h : c.Balanced) : (c.step .schedule).Balanced := by
  obtain ⟨hmap, hnext, -⟩ := c.sched.schedule_frame
  have hshuffle := c.sched.schedule_shuffles
  have hq : c.sched.schedule.2.queued.Perm c.sched.queued := hshuffle.queued
  refine ⟨h.distinct, fun p hp => ?_, ?_, fun id p hp => ?_, fun p hp => ?_⟩
  · show p < c.sched.schedule.2.next
    rw [hnext]
    exact h.stored p hp
  · exact h.balance.trans (hq.symm.append_right _)
  · have hp' : c.sched.requestMap.lookup id = some p := hmap ▸ hp
    obtain ⟨hmem, hpid⟩ := h.named id p hp'
    exact ⟨hq.mem_iff.2 hmem, (hshuffle.same p).requestId.trans hpid⟩
  · exact hq.mem_iff.2 (hshuffle.output p hp)

theorem freeFinishedRequests (h : c.Balanced) : (c.step .freeFinishedRequests).Balanced := by
  refine ⟨h.distinct, fun p hp => ?_, ?_, Scheduler.named_freeFinishedRequests h.named,
    fun p hp => ?_⟩
  · show p < c.sched.freeFinishedRequests.next
    rw [Scheduler.freeFinishedRequests_eq]
    exact h.stored p hp
  · have hsplit := (Scheduler.queued_perm_removed h.queues).append_right c.removed
    refine h.balance.trans (hsplit.trans ?_)
    show List.Perm _ (c.sched.freeFinishedRequests.queued ++ (c.removed ++ _))
    rw [List.append_assoc]
    exact List.Perm.append_left _ List.perm_append_comm
  · exact absurd hp List.not_mem_nil

theorem step (h : c.Balanced) (op : CensusOp) : (c.step op).Balanced := by
  cases op with
  | addRequest group => exact h.addRequest group
  | abortRequest id =>
      exact h.sameQueues (c.sched.abortRequest_sameQueues id)
        (fun _ _ => Scheduler.lookup_abortRequest)
  | schedule => exact h.schedule
  | freeFinishedRequests => exact h.freeFinishedRequests
  | rewrite p seqs =>
      exact h.sameQueues (c.sched.putSequences_sameQueues p seqs _) (fun _ _ h => h)

end Balanced

variable {config : SchedulerConfig} {bm : BlockManager} {c : Census}

theorem balanced_of_reach (h : Run.Reach step Permitted (init config bm) c) : c.Balanced :=
  h.invariant (Balanced.init config bm) (fun _ op hc _ => hc.step op)

/-- **No request is lost or duplicated.** In every run the groups of the three queues are the groups
    added less those removed, each in one queue and once; `free_finished_requests` removes finished
    groups only; `request_map_` and the latest output point to queued groups. -/
theorem no_request_lost (h : Run.Reach step Permitted (init config bm) c) :
    c.added.Nodup ∧ c.added.Perm (c.sched.queued ++ c.removed) ∧
    (c.sched.running ++ (c.sched.waiting ++ c.sched.swapped)).Nodup ∧
    (∀ p ∈ c.sched.queued, p ∉ c.sched.freeFinishedRequests.queued →
      (c.sched.groups p).allFinished = true) ∧
    (∀ id p, c.sched.requestMap.lookup id = some p → p ∈ c.sched.queued) ∧
    ∀ p ∈ c.output.pointers, p ∈ c.sched.queued := by
  have hc := balanced_of_reach h
  refine ⟨hc.distinct, hc.balance, hc.queues, ?_, ?_, hc.output⟩
  · intro p hp hgone
    exact Scheduler.allFinished_of_removed hp hgone
  · intro id p hp
    exact (hc.named id p hp).1

/-- Two requests of the same id: the second is swapped out and in again; the first stops, and its
    removal takes the entry of the second with it, so that the abort finds nothing. -/
def repeatedId : List CensusOp :=
  let first : SequenceData :=
    { seqId := 7, promptTokens := [1, 2], outputTokens := [5], logicalBlocks := [0],
      status := .running }
  [.addRequest (SequenceGroup.new 7 [1, 2] {}), .addRequest (SequenceGroup.new 7 [3, 4] {}), .schedule,
    .rewrite 0 [first], .schedule, .rewrite 0 [{ first with status := .finishedStopped }],
    .freeFinishedRequests, .abortRequest 7]

theorem repeatedId_balanced :
    let c := repeatedId.foldl step (init { maxNumSeqs := 2 }
      (BlockManager.new { numGpuBlocks := 2, numCpuBlocks := 1, blockSize := 2 }))
    c.added = [0, 1] ∧ c.removed = [0] ∧ c.sched.running = [1] ∧
      c.added.Perm (c.sched.queued ++ c.removed) :=
  ⟨by decide, by decide, by decide, (no_request_lost (Run.Reach.of_allOk _ (by decide))).2.1⟩

end Census

end CacheFlow
