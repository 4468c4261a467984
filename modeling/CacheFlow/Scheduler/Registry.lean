import CacheFlow.Scheduler.Census

set_option autoImplicit false

/-! # What `free_finished_requests` leaves behind

`free_finished_requests` goes through the running and the waiting queue and destroys the groups whose
sequences are all finished, with their blocks and their entries of `request_map_`. Two kinds of groups
escape it. The swapped queue is not looked at, so a group that finishes there (by `abort_request`) stays
until it has been swapped in. And a group that is aborted while it waits loses its entry of
`request_map_` at once; if `schedule_prefills` admits it before it is destroyed, it runs without one.

`Registry` is the census with the groups `abort_request` has found. Where ids are distinct, a queued
group has its entry exactly when it is not among them, in every run; what a call of
`free_finished_requests` achieves can then be read off the state before it. -/

namespace CacheFlow

/-! ## The machine -/

/-- A census with the groups `abort_request` has found. -/
structure Registry where
  census : Census
  aborted : List GroupPtr

namespace Registry

def sched (r : Registry) : Scheduler := r.census.sched

def init (config : SchedulerConfig) (bm : BlockManager) : Registry where
  census := Census.init config bm
  aborted := []

def step (r : Registry) (op : CensusOp) : Registry where
  census := r.census.step op
  aborted :=
    match op with
    | .abortRequest requestId => r.aborted ++ (r.sched.requestMap.lookup requestId).toList
    | _ => r.aborted

def Permitted (r : Registry) (op : CensusOp) : Prop := r.census.Permitted op

instance (r : Registry) (op : CensusOp) : Decidable (r.Permitted op) :=
  inferInstanceAs (Decidable (r.census.Permitted op))

/-- All requests that have been added have ids of their own. -/
def DistinctIds (r : Registry) : Prop :=
  (r.census.added.map (fun p => (r.sched.groups p).requestId)).Nodup

instance (r : Registry) : Decidable r.DistinctIds := inferInstanceAs (Decidable (List.Nodup _))

/-- What `free_finished_requests` is for: no finished group stays in a queue, no destroyed group in
    `seq_block_map_`, and `request_map_` has the ids of the groups that stay. -/
structure FreesCompletely (r : Registry) : Prop where
  queues : ∀ p ∈ r.sched.freeFinishedRequests.queued,
    (r.sched.freeFinishedRequests.groups p).allFinished = false
  entries : ∀ p ∈ r.sched.queued, p ∉ r.sched.freeFinishedRequests.queued →
    ∀ x ∈ (r.sched.groups p).sequences,
      r.sched.freeFinishedRequests.blockManager.seqBlockMap.lookup x.seqId = none
  ids : r.DistinctIds → ∀ id,
    (r.sched.freeFinishedRequests.requestMap.lookup id).isSome = true ↔
      ∃ p ∈ r.sched.freeFinishedRequests.queued,
        (r.sched.freeFinishedRequests.groups p).requestId = id

end Registry

/-! ## Entries of destroyed groups -/

namespace BlockManager

theorem lookup_freeBlocks (bm : BlockManager) (s s' : SeqId) :
    (bm.freeBlocks s).seqBlockMap.lookup s'
      = if s' = s then none else bm.seqBlockMap.lookup s' := by
  unfold freeBlocks
  cases hs : bm.seqBlockMap.lookup s with
  | none =>
      by_cases h : s' = s
      · subst h
        simp [hs]
      · simp [h]
  | some es =>
      by_cases h : s' = s
      · subst h
        simp
      · simp [h, AList.lookup_erase_ne h]

/-- Releasing a list of sequences removes their entries and no other. -/
theorem lookup_foldl_freeBlocks (xs : List SequenceData) (bm : BlockManager) (s : SeqId) :
    (xs.foldl (fun bm x => bm.freeBlocks x.seqId) bm).seqBlockMap.lookup s
      = if ∃ x ∈ xs, x.seqId = s then none else bm.seqBlockMap.lookup s := by
  induction xs generalizing bm with
  | nil => simp
  | cons x xs ih =>
      rw [List.foldl_cons, ih, lookup_freeBlocks]
      by_cases hx : x.seqId = s
      · simp [hx]
      · simp [hx, Ne.symm hx]

end BlockManager

namespace Scheduler

theorem lookup_releaseGroups (groups : GroupPtr → SequenceGroup) (ps : List GroupPtr)
    (bm : BlockManager) (s : SeqId) :
    (releaseGroups groups bm ps).seqBlockMap.lookup s
      = if ∃ p ∈ ps, ∃ x ∈ (groups p).sequences, x.seqId = s then none
        else bm.seqBlockMap.lookup s := by
  induction ps generalizing bm with
  | nil => simp [releaseGroups]
  | cons p rest ih =>
      have hstep : releaseGroups groups bm (p :: rest) = releaseGroups groups
          ((groups p).sequences.foldl (fun bm x => bm.freeBlocks x.seqId) bm) rest := rfl
      rw [hstep, ih, BlockManager.lookup_foldl_freeBlocks]
      by_cases hp : ∃ x ∈ (groups p).sequences, x.seqId = s
      · simp [hp]
      · simp [hp]

/-- The groups that are destroyed are those of the running and the waiting queue that are finished. -/
theorem mem_released_iff {st : Scheduler} (hst : st.QueuesDisjoint) {p : GroupPtr} :
    p ∈ st.finishedIn st.running ++ st.finishedIn st.waiting ↔
      p ∈ st.queued ∧ p ∉ st.freeFinishedRequests.queued := by
  have hperm := queued_perm_released st
  have hnodup := List.nodup_append.1 (hperm.nodup_iff.1 hst)
  have hstay : st.freeFinishedRequests.queued
      = st.unfinishedIn st.running ++ (st.unfinishedIn st.waiting ++ st.swapped) := by
    rw [freeFinishedRequests_eq]
    rfl
  rw [hstay, hperm.mem_iff]
  constructor
  · intro hp
    exact ⟨List.mem_append_left _ hp, fun hq => hnodup.2.2 p hp p hq rfl⟩
  · rintro ⟨hp, hnot⟩
    exact (List.mem_append.1 hp).resolve_right hnot

/-- **Part of the work is always done**: the sequences of the destroyed groups have no entry left. -/
theorem freeFinishedRequests_entries {st : Scheduler} (hst : st.QueuesDisjoint) {p : GroupPtr}
    (hp : p ∈ st.queued) (hgone : p ∉ st.freeFinishedRequests.queued) {x : SequenceData}
    (hx : x ∈ (st.groups p).sequences) :
    st.freeFinishedRequests.blockManager.seqBlockMap.lookup x.seqId = none := by
  have hreleased := (mem_released_iff hst).2 ⟨hp, hgone⟩
  rw [freeFinishedRequests_eq]
  simp only [lookup_releaseGroups]
  rw [if_pos ⟨p, hreleased, x, hx, rfl⟩]

/-- What stays is queued, and unfinished if it was not swapped out. -/
theorem mem_freeFinishedRequests {st : Scheduler} {p : GroupPtr} :
    p ∈ st.freeFinishedRequests.queued ↔
      p ∈ st.swapped ∨ (p ∈ st.queued ∧ (st.groups p).allFinished = false) := by
  rw [freeFinishedRequests_eq]
  simp only [queued, unfinishedIn, List.mem_append, List.mem_filter, Bool.not_eq_true']
  tauto

/-- Queues without a finished group are left where no finished group was swapped out. -/
theorem freeFinishedRequests_queues_iff {st : Scheduler} :
    (∀ p ∈ st.freeFinishedRequests.queued,
      (st.freeFinishedRequests.groups p).allFinished = false) ↔
    ∀ p ∈ st.swapped, (st.groups p).allFinished = false := by
  have hgroups : st.freeFinishedRequests.groups = st.groups := by rw [freeFinishedRequests_eq]
  rw [hgroups]
  constructor
  · intro h p hp
    exact h p (mem_freeFinishedRequests.2 (Or.inl hp))
  · intro h p hp
    rcases mem_freeFinishedRequests.1 hp with hp | hp
    · exact h p hp
    · exact hp.2

end Scheduler

/-! ## Runs -/

namespace Registry

/-- Where ids are distinct, a queued group is in `request_map_` exactly when it has not been aborted. -/
structure Recorded (r : Registry) : Prop where
  balanced : r.census.Balanced
  aborted : ∀ p ∈ r.aborted, p ∈ r.census.added
  mapped : r.DistinctIds → ∀ p ∈ r.sched.queued,
    r.sched.requestMap.lookup (r.sched.groups p).requestId = some p ↔ p ∉ r.aborted

namespace Recorded

variable {r : Registry}

theorem init (config : SchedulerConfig) (bm : BlockManager) : (Registry.init config bm).Recorded :=
  ⟨Census.Balanced.init config bm, fun _ hp => absurd hp List.not_mem_nil,
    fun _ _ hp => absurd hp List.not_mem_nil⟩

/-- Two queued groups of one id are the same. -/
theorem eq_of_id (h : r.Recorded) (hids : r.DistinctIds) {p q : GroupPtr} (hp : p ∈ r.sched.queued)
    (hq : q ∈ r.sched.queued)
    (heq : (r.sched.groups p).requestId = (r.sched.groups q).requestId) : p = q :=
  List.inj_on_of_nodup_map hids (h.balanced.mem_added hp) (h.balanced.mem_added hq) heq

theorem addRequest (h : r.Recorded) (group : SequenceGroup) :
    (r.step (.addRequest group)).Recorded := by
  have hsame : ∀ p ∈ r.census.added, (r.sched.addRequest group).groups p = r.sched.groups p :=
    fun p hp => r.sched.groups_addRequest_of_lt group (h.balanced.stored p hp)
  have hself : (r.sched.addRequest group).groups r.sched.next = group :=
    r.sched.groups_addRequest_self group
  refine ⟨h.balanced.addRequest group, fun p hp => List.mem_append_left _ (h.aborted p hp),
    fun hids p hp => ?_⟩
  -- the new id is none of those before
  have hids' : (r.census.added.map (fun p => (r.sched.groups p).requestId) ++
      [group.requestId]).Nodup := by
    have hmap : (r.census.added ++ [r.sched.next]).map
        (fun p => ((r.sched.addRequest group).groups p).requestId)
          = r.census.added.map (fun p => (r.sched.groups p).requestId) ++ [group.requestId] := by
      rw [List.map_append, List.map_singleton, hself,
        List.map_congr_left (fun p hp => congrArg SequenceGroup.requestId (hsame p hp))]
    exact hmap ▸ hids
  obtain ⟨hold, -, hnew⟩ := List.nodup_append.1 hids'
  rcases List.mem_cons.1 ((r.sched.addRequest_queued group).mem_iff.1 hp) with rfl | hp
  · have hfresh : r.sched.next ∉ r.aborted :=
      fun hmem => Nat.lt_irrefl _ (h.balanced.stored _ (h.aborted _ hmem))
    show (r.sched.requestMap.insert group.requestId r.sched.next).lookup
      ((r.sched.addRequest group).groups r.sched.next).requestId = some r.sched.next ↔ _
    rw [hself, AList.lookup_insert]
    exact ⟨fun _ => hfresh, fun _ => rfl⟩
  · have hadded := h.balanced.mem_added hp
    have hne : (r.sched.groups p).requestId ≠ group.requestId :=
      hnew _ (List.mem_map_of_mem hadded) _ (List.mem_singleton_self _)
    show (r.sched.requestMap.insert group.requestId r.sched.next).lookup
      ((r.sched.addRequest group).groups p).requestId = some p ↔ _
    rw [hsame p hadded, AList.lookup_insert_ne hne]
    exact h.mapped hold p hp

/-- Operations that neither move groups nor touch `request_map_` or the aborted groups. -/
theorem frame (h : r.Recorded) {r' : Registry} (hbal : r'.census.Balanced)
    (hadded : r'.census.added = r.census.added) (haborted : r'.aborted = r.aborted)
    (hqueued : ∀ p ∈ r'.sched.queued, p ∈ r.sched.queued)
    (hid : ∀ p, (r'.sched.groups p).requestId = (r.sched.groups p).requestId)
    (hlookup : r.DistinctIds → ∀ p ∈ r'.sched.queued,
      r'.sched.requestMap.lookup (r.sched.groups p).requestId
        = r.sched.requestMap.lookup (r.sched.groups p).requestId) : r'.Recorded := by
  have hids : r'.DistinctIds → r.DistinctIds := by
    simp only [DistinctIds, hadded, hid]
    exact id
  refine ⟨hbal, ?_, fun hdist p hp => ?_⟩
  · rw [haborted, hadded]
    exact h.aborted
  · rw [hid, hlookup (hids hdist) p hp, haborted]
    exact h.mapped (hids hdist) p (hqueued p hp)

theorem schedule (h : r.Recorded) : (r.step .schedule).Recorded := by
  have hshuffle := r.sched.schedule_shuffles
  refine h.frame h.balanced.schedule rfl rfl (fun p hp => hshuffle.queued.mem_iff.1 hp)
    (fun p => (hshuffle.same p).requestId) (fun _ p _ => ?_)
  show r.sched.schedule.2.requestMap.lookup _ = _
  rw [r.sched.schedule_frame.1]

/-- The groups that stay keep their entry, or keep having none. -/
theorem lookup_of_stays (h : r.Recorded) (hids : r.DistinctIds) {p : GroupPtr}
    (hp : p ∈ r.sched.freeFinishedRequests.queued) :
    r.sched.freeFinishedRequests.requestMap.lookup (r.sched.groups p).requestId
      = r.sched.requestMap.lookup (r.sched.groups p).requestId := by
  have hmem := r.sched.freeFinishedRequests_queued_sublist.subset hp
  have hnot : ¬ ∃ q ∈ r.sched.finishedIn r.sched.running ++ r.sched.finishedIn r.sched.waiting,
      (r.sched.groups q).requestId = (r.sched.groups p).requestId := by
    rintro ⟨q, hq, hid⟩
    obtain ⟨hqueued, hgone⟩ := (Scheduler.mem_released_iff h.balanced.queues).1 hq
    exact hgone (h.eq_of_id hids hqueued hmem hid ▸ hp)
  rw [Scheduler.freeFinishedRequests_eq]
  simp only [Scheduler.lookup_eraseRequests]
  rw [if_neg hnot]

theorem freeFinishedRequests (h : r.Recorded) : (r.step .freeFinishedRequests).Recorded := by
  have hsub := r.sched.freeFinishedRequests_queued_sublist
  refine h.frame h.balanced.freeFinishedRequests rfl rfl (fun p hp => hsub.subset hp) (fun p => ?_)
    (fun hids p hp => h.lookup_of_stays hids hp)
  show (r.sched.freeFinishedRequests.groups p).requestId = _
  rw [Scheduler.freeFinishedRequests_eq]

theorem abortRequest (h : r.Recorded) (id : SeqId) : (r.step (.abortRequest id)).Recorded := by
  have hsame := r.sched.abortRequest_sameQueues id
  have hbal := h.balanced.step (.abortRequest id)
  cases hlookup : r.sched.requestMap.lookup id with
  | none =>
      have hnothing : r.sched.abortRequest id = r.sched := by simp [Scheduler.abortRequest, hlookup]
      refine h.frame hbal rfl ?_ (fun p hp => ?_) (fun p => (hsame.same p).requestId) (fun _ p _ => ?_)
      · simp [step, hlookup]
      · exact hsame.queued ▸ hp
      · show (r.sched.abortRequest id).requestMap.lookup _ = _
        rw [hnothing]
  | some q =>
      obtain ⟨hq, hqid⟩ := h.balanced.named id q hlookup
      have haborted : (r.step (.abortRequest id)).aborted = r.aborted ++ [q] := by
        simp [step, hlookup]
      have hmap : (r.sched.abortRequest id).requestMap = r.sched.requestMap.erase id := by
        simp [Scheduler.abortRequest, hlookup]
      have hid : ∀ p, ((r.sched.abortRequest id).groups p).requestId
          = (r.sched.groups p).requestId := fun p => (hsame.same p).requestId
      refine ⟨hbal, fun p hp => ?_, fun hdist p hp => ?_⟩
      · rw [haborted] at hp
        rcases List.mem_append.1 hp with hp | hp
        · exact h.aborted p hp
        · rw [List.mem_singleton.1 hp]
          exact h.balanced.mem_added hq
      · have hids : r.DistinctIds := by
          have hdist' : (r.census.added.map
            (fun p => ((r.sched.abortRequest id).groups p).requestId)).Nodup := hdist
          simp only [hid] at hdist'
          exact hdist'
        have hp' : p ∈ r.sched.queued := hsame.queued ▸ hp
        rw [haborted]
        show (r.sched.abortRequest id).requestMap.lookup
          ((r.sched.abortRequest id).groups p).requestId = some p ↔ _
        rw [hid, hmap]
        by_cases hpq : p = q
        · -- the group aborted has lost its entry
          have hgone : (r.sched.requestMap.erase id).lookup (r.sched.groups p).requestId = none := by
            rw [hpq]
            show (r.sched.requestMap.erase id).lookup (r.census.sched.groups q).requestId = none
            rw [hqid, AList.lookup_erase]
          simp [hgone, hpq]
        · have hne : (r.sched.groups p).requestId ≠ id := fun heq =>
            hpq (h.eq_of_id hids hp' hq (heq.trans hqid.symm))
          rw [AList.lookup_erase_ne hne, h.mapped hids p hp']
          simp [hpq]

theorem step (h : r.Recorded) (op : CensusOp) : (r.step op).Recorded := by
  have hbal := h.balanced.step op
  cases op with
  | addRequest group => exact h.addRequest group
  | abortRequest id => exact h.abortRequest id
  | schedule => exact h.schedule
  | freeFinishedRequests => exact h.freeFinishedRequests
  | rewrite p seqs =>
      have hsame := r.sched.putSequences_sameQueues p seqs r.sched.blockManager
      exact h.frame hbal rfl rfl (fun q hq => hsame.queued ▸ hq) (fun q => (hsame.same q).requestId)
        (fun _ _ _ => rfl)

end Recorded

/-- No finished group is swapped out and, where ids are distinct, no aborted group is unfinished
    again. -/
structure NothingEscapes (r : Registry) : Prop where
  swapped : ∀ p ∈ r.sched.swapped, (r.sched.groups p).allFinished = false
  aborted : r.DistinctIds → ∀ p ∈ r.aborted, p ∈ r.sched.queued →
    (r.sched.groups p).allFinished = true

/-- `request_map_` has the ids of the groups that stay exactly when none of them has been aborted. -/
theorem Recorded.ids_iff {r : Registry} (h : r.Recorded) (hids : r.DistinctIds) :
    (∀ id, (r.sched.freeFinishedRequests.requestMap.lookup id).isSome = true ↔
      ∃ p ∈ r.sched.freeFinishedRequests.queued,
        (r.sched.freeFinishedRequests.groups p).requestId = id) ↔
    ∀ p ∈ r.sched.freeFinishedRequests.queued, p ∉ r.aborted := by
  have hgroups : r.sched.freeFinishedRequests.groups = r.sched.groups := by
    rw [Scheduler.freeFinishedRequests_eq]
  have hsub := r.sched.freeFinishedRequests_queued_sublist
  constructor
  · intro hmap p hp
    have hsome := (hmap (r.sched.groups p).requestId).2 ⟨p, hp, by rw [hgroups]⟩
    rw [h.lookup_of_stays hids hp] at hsome
    obtain ⟨q, hq⟩ := Option.isSome_iff_exists.1 hsome
    obtain ⟨hqueued, hqid⟩ := h.balanced.named _ q hq
    have hqp : q = p := h.eq_of_id hids hqueued (hsub.subset hp) hqid
    rw [hqp] at hq
    exact (h.mapped hids p (hsub.subset hp)).1 hq
  · intro hkept id
    constructor
    · intro hsome
      obtain ⟨q, hq⟩ := Option.isSome_iff_exists.1 hsome
      obtain ⟨hqueued, hqid⟩ := Scheduler.named_freeFinishedRequests h.balanced.named id q hq
      exact ⟨q, hqueued, hqid⟩
    · rintro ⟨p, hp, rfl⟩
      rw [hgroups, h.lookup_of_stays hids hp, (h.mapped hids p (hsub.subset hp)).2 (hkept p hp)]
      rfl

variable {config : SchedulerConfig} {bm : BlockManager} {r : Registry}

/-- **Completeness of `free_finished_requests`.** In every state reached, whatever has been aborted,
    preempted or finished, the call leaves no finished group in a queue, no entry of a destroyed group
    and exactly the ids of the groups that stay, if and only if no finished group is swapped out and no
    aborted group is unfinished again. -/
theorem frees_completely_iff (h : Run.Reach step Permitted (init config bm) r) :
    r.FreesCompletely ↔ r.NothingEscapes := by
  have hr : r.Recorded := h.invariant (Recorded.init config bm) (fun _ op hr _ => hr.step op)
  constructor
  · intro hfree
    have hswapped := Scheduler.freeFinishedRequests_queues_iff.1 hfree.queues
    refine ⟨hswapped, fun hids p hp hmem => ?_⟩
    by_contra hunfin
    have hstays : p ∈ r.sched.freeFinishedRequests.queued :=
      Scheduler.mem_freeFinishedRequests.2 (Or.inr ⟨hmem, by simpa using hunfin⟩)
    exact (hr.ids_iff hids).1 (hfree.ids hids) p hstays hp
  · rintro ⟨hswapped, haborted⟩
    have hqueues := Scheduler.freeFinishedRequests_queues_iff.2 hswapped
    refine ⟨hqueues, ?_, fun hids => (hr.ids_iff hids).2 (fun p hp hab => ?_)⟩
    · intro p hp hgone x hx
      exact Scheduler.freeFinishedRequests_entries hr.balanced.queues hp hgone hx
    · have hmem := r.sched.freeFinishedRequests_queued_sublist.subset hp
      have hunfin := hqueues p hp
      rw [Scheduler.freeFinishedRequests_eq] at hunfin
      rw [haborted hids p hab hmem] at hunfin
      cases hunfin

def pool : Registry :=
  init {} (BlockManager.new { numGpuBlocks := 2, numCpuBlocks := 1, blockSize := 2 })

/-- Two requests run, the second is aborted. -/
def abortedRunning : List CensusOp :=
  [.addRequest (SequenceGroup.new 0 [1, 2] {}), .addRequest (SequenceGroup.new 1 [1, 2] {}), .schedule,
    .abortRequest 1]

theorem abortedRunning_freed :
    (abortedRunning.foldl step pool).FreesCompletely ∧
      (abortedRunning.foldl step pool).sched.freeFinishedRequests.queued = [0] :=
  ⟨(frees_completely_iff (Run.Reach.of_allOk _ (by decide))).2 ⟨by decide, by decide⟩, by decide⟩

/-- The first of two requests outgrows its block, the second is swapped out, a third takes its place; then
    the second is aborted. -/
def abortedSwapped : List CensusOp :=
  let grown : SequenceData :=
    { seqId := 0, promptTokens := [1, 2], outputTokens := [5], logicalBlocks := [0],
      status := .running }
  [.addRequest (SequenceGroup.new 0 [1, 2] {}), .addRequest (SequenceGroup.new 1 [1, 2] {}), .schedule,
    .rewrite 0 [grown], .addRequest (SequenceGroup.new 2 [1] {}), .schedule, .abortRequest 1]

/-- A request is aborted while it waits, and admitted. -/
def abortedWaiting : List CensusOp :=
  [.addRequest (SequenceGroup.new 0 [1, 2] {}), .abortRequest 0, .schedule]

/-- Both escape: the swapped-out group stays in its queue, finished, and neither has an entry of
    `request_map_`. -/
theorem aborted_not_freed :
    (Run.Reach step Permitted pool (abortedSwapped.foldl step pool) ∧
      (abortedSwapped.foldl step pool).DistinctIds ∧
      ¬ (abortedSwapped.foldl step pool).FreesCompletely) ∧
    (Run.Reach step Permitted pool (abortedWaiting.foldl step pool) ∧
      (abortedWaiting.foldl step pool).DistinctIds ∧
      ¬ (abortedWaiting.foldl step pool).FreesCompletely) := by
  refine ⟨⟨Run.Reach.of_allOk _ (by decide), by decide, fun hfree => ?_⟩,
    ⟨Run.Reach.of_allOk _ (by decide), by decide, fun hfree => ?_⟩⟩
  · exact absurd (hfree.queues 1 (by decide)) (by decide)
  · exact absurd ((hfree.ids (by decide) 0).2 ⟨0, by decide, by decide⟩) (by decide)

end Registry

end CacheFlow
