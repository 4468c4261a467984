import CacheFlow.Scheduler.Census

set_option autoImplicit false

/-! # The order of admission

The waiting queue is sorted again by every `schedule()`, takes arrivals at the back and preempted groups
at the front, and loses finished groups from the middle. What survives all of this is the order of two
groups that have never been admitted: if the one added first is at least as preferred, it stands in
front (`Census.Ordered`). The sort is stable, so it keeps the pair; a preempted group has been admitted
before, so it is not one of the pair.

`no_overtaking` reads the order off at every admission. -/

namespace CacheFlow

open ScheduleState

/-- The group `g` is at least as preferred as `h`. -/
def SchedulePolicy.Prefers (policy : SchedulePolicy) (g h : SequenceGroup) : Prop :=
  match policy with
  | .fcfs => True
  | .shortestRemaining => g.sampling.maxTokens ≤ h.sampling.maxTokens
  | .priority => h.priority ≤ g.priority

instance (policy : SchedulePolicy) (g h : SequenceGroup) : Decidable (policy.Prefers g h) :=
  match policy with
  | .fcfs => inferInstanceAs (Decidable True)
  | .shortestRemaining => inferInstanceAs (Decidable (_ ≤ _))
  | .priority => inferInstanceAs (Decidable (_ ≤ _))

/-- The preference is about what no operation changes. -/
theorem SameRequest.prefers_iff {policy : SchedulePolicy} {g g' h h' : SequenceGroup}
    (hg : SameRequest g g') (hh : SameRequest h h') :
    policy.Prefers g' h' ↔ policy.Prefers g h := by
  cases policy with
  | fcfs => exact Iff.rfl
  | shortestRemaining => simp only [SchedulePolicy.Prefers, hg.sampling, hh.sampling]
  | priority => simp only [SchedulePolicy.Prefers, hg.priority, hh.priority]

/-! ## Pairs in a queue -/

/-- The groups `a` and `b` stand in the queue in this order. -/
def Before (l : List GroupPtr) (a b : GroupPtr) : Prop := [a, b].Sublist l

namespace Before

variable {l l' : List GroupPtr} {a b p : GroupPtr}

theorem mono (h : Before l a b) (hl : l.Sublist l') : Before l' a b := List.Sublist.trans h hl

theorem mem_right (h : Before l a b) : b ∈ l :=
  h.subset (List.mem_cons_of_mem _ (List.mem_cons_self ..))

/-- A pair stays when another group leaves the front. -/
theorem tail (h : Before (p :: l) a b) (ha : a ≠ p) : Before l a b := by
  cases h with
  | cons _ h => exact h
  | cons_cons _ h => exact absurd rfl ha

/-- Leaving other groups out keeps the pair. -/
theorem filter (h : Before l a b) {f : GroupPtr → Bool} (ha : f a = true) (hb : f b = true) :
    Before (l.filter f) a b := by
  have hsub := List.Sublist.filter f h
  rwa [List.filter_cons_of_pos ha, List.filter_cons_of_pos hb] at hsub

/-- A group that arrives at the back stands behind all others. -/
theorem concat (ha : a ∈ l) : Before (l ++ [b]) a b :=
  (List.singleton_sublist.2 ha).append (List.Sublist.refl [b])

end Before

/-- The sort keeps the order of a pair whose first group is at least as preferred. -/
theorem Scheduler.before_sortWaitingQueue {st : Scheduler} {a b : GroupPtr}
    (h : Before st.waiting a b)
    (hpref : st.config.policy.Prefers (st.groups a) (st.groups b)) :
    Before st.sortWaitingQueue.waiting a b := by
  unfold sortWaitingQueue
  cases hpolicy : st.config.policy with
  | fcfs => exact h
  | shortestRemaining =>
      rw [hpolicy] at hpref
      exact List.pair_sublist_insertionSort hpref h
  | priority =>
      rw [hpolicy] at hpref
      exact List.pair_sublist_insertionSort hpref h

namespace Scheduler

/-! ## One call -/

/-- Two waiting groups that are not among the `admitted` stand in the order they were added in, if the
    first is at least as preferred. -/
def InOrder (admitted : List GroupPtr) (st : Scheduler) : Prop :=
  ∀ a ∈ st.waiting, ∀ b ∈ st.waiting, a ∉ admitted → b ∉ admitted → a < b →
    st.config.policy.Prefers (st.groups a) (st.groups b) → Before st.waiting a b

namespace InOrder

variable {admitted : List GroupPtr} {st st' : Scheduler}

theorem mono (h : st.InOrder admitted) {admitted' : List GroupPtr} (hsub : admitted ⊆ admitted') :
    st.InOrder admitted' :=
  fun a ha b hb hna hnb => h a ha b hb (fun hmem => hna (hsub hmem)) (fun hmem => hnb (hsub hmem))

/-- A change that brings no group to the waiting queue that was never admitted, and keeps the pairs of
    those it leaves there, keeps the order. -/
theorem transfer (h : st.InOrder admitted) (hconfig : st'.config = st.config)
    (hsame : ∀ p, SameRequest (st.groups p) (st'.groups p))
    (hmem : ∀ p ∈ st'.waiting, p ∉ admitted → p ∈ st.waiting)
    (hpair : ∀ a ∈ st'.waiting, ∀ b ∈ st'.waiting, Before st.waiting a b →
      st.config.policy.Prefers (st.groups a) (st.groups b) → Before st'.waiting a b) :
    st'.InOrder admitted := by
  intro a ha b hb hna hnb hlt hpref
  rw [hconfig, (hsame a).prefers_iff (hsame b)] at hpref
  exact hpair a ha b hb (h a (hmem a ha hna) b (hmem b hb hnb) hna hnb hlt hpref) hpref

/-- A change elsewhere keeps the order. -/
theorem frame (h : st.InOrder admitted) (hconfig : st'.config = st.config)
    (hsame : ∀ p, SameRequest (st.groups p) (st'.groups p)) (hwait : st'.waiting = st.waiting) :
    st'.InOrder admitted := by
  refine h.transfer hconfig hsame (fun p hp _ => hwait ▸ hp) (fun a _ b _ hab _ => ?_)
  rw [hwait]
  exact hab

theorem sameQueues (h : st.InOrder admitted) (hsame : SameQueues st st') : st'.InOrder admitted :=
  h.frame hsame.config hsame.same hsame.waiting

theorem addRequest (h : st.InOrder admitted) (hstored : ∀ p ∈ st.waiting, p < st.next)
    (group : SequenceGroup) : (st.addRequest group).InOrder admitted := by
  intro a ha b hb hna hnb hlt hpref
  have hmem : ∀ p ∈ (st.addRequest group).waiting, p ∈ st.waiting ∨ p = st.next := by
    intro p hp
    rcases List.mem_append.1 hp with hp | hp
    · exact Or.inl hp
    · exact Or.inr (List.mem_singleton.1 hp)
  have ha' : a ∈ st.waiting := by
    rcases hmem a ha with ha | rfl
    · exact ha
    · -- nothing is added after the group that arrives
      rcases hmem b hb with hb | rfl
      · exact absurd (hstored b hb) (Nat.not_lt_of_lt hlt)
      · exact absurd hlt (Nat.lt_irrefl _)
  rcases hmem b hb with hb | rfl
  · rw [st.groups_addRequest_of_lt group (hstored a ha'),
      st.groups_addRequest_of_lt group (hstored b hb)] at hpref
    exact (h a ha' b hb hna hnb hlt hpref).mono (List.sublist_append_left _ _)
  · exact Before.concat ha'

theorem freeFinishedRequests (h : st.InOrder admitted) :
    st.freeFinishedRequests.InOrder admitted := by
  rw [freeFinishedRequests_eq]
  refine h.transfer rfl (fun _ => SameRequest.refl _) (fun p hp _ => (List.mem_filter.1 hp).1) ?_
  intro a ha b hb hab _
  exact hab.filter (List.mem_filter.1 ha).2 (List.mem_filter.1 hb).2

theorem sort (h : st.InOrder admitted) : st.sortWaitingQueue.InOrder admitted := by
  obtain ⟨w, hperm, hw⟩ := st.sortWaitingQueue_eq
  have hpair := @before_sortWaitingQueue st
  rw [hw] at hpair ⊢
  exact h.transfer rfl (fun _ => SameRequest.refl _) (fun p hp _ => hperm.mem_iff.1 hp)
    (fun a _ b _ hab hpref => hpair hab hpref)

/-- The front leaves; the pairs behind it stay. -/
theorem prefill {s : ScheduleState} (h : s.sched.InOrder admitted) (hq : s.sched.QueuesDisjoint)
    {p : GroupPtr} {rest : List GroupPtr} (hwait : s.sched.waiting = p :: rest) :
    (s.admitGroup p rest).sched.InOrder admitted := by
  refine h.transfer rfl (s.sched.putSequences_sameRequest p _ s.sched.blockManager) (fun q hq' _ => ?_)
    (fun a ha b _ hab _ => ?_)
  · rw [hwait]
    exact List.mem_cons_of_mem _ hq'
  · rw [hwait] at hab
    have hap : a ≠ p := fun hap => hq.not_mem_rest_waiting hwait (hap ▸ ha)
    exact hab.tail hap

/-- A preempted group has been admitted before, so it may stand at the front. -/
theorem preempt {s : ScheduleState} (h : s.sched.InOrder admitted) {init : List GroupPtr}
    {v : GroupPtr} (hv : s.sched.running = init ++ [v]) (hadm : v ∈ admitted) :
    s.preempt.sched.InOrder admitted := by
  have hswap : (s.swapOutGroup v init).sched.InOrder admitted :=
    h.frame rfl (s.sched.putSequences_sameRequest v _ s.sched.blockManager) rfl
  have hrecompute : (s.recomputeGroup v init).sched.InOrder admitted := by
    refine h.transfer rfl (s.sched.putSequences_sameRequest v _ s.sched.blockManager)
      (fun p hp hnp => ?_) (fun a _ b _ hab _ => ?_)
    · rcases List.mem_cons.1 hp with rfl | hp
      · exact absurd hadm hnp
      · exact hp
    · exact hab.mono (List.sublist_cons_self _ _)
  rw [preempt_eq hv]
  cases s.sched.config.preemptionMode with
  | swap => exact hswap
  | recompute => exact hrecompute

end InOrder

section Call

variable {admitted : List GroupPtr} {st : Scheduler} (hrun : ∀ p ∈ st.running, p ∈ admitted)
  (h : st.InOrder admitted) (hq : st.QueuesDisjoint)
include hrun h

/-- The order survives the decode phase and the sort. -/
theorem inOrder_beforePrefills :
    st.Shuffles st.beforePrefills ∧ st.beforePrefills.sched.InOrder admitted := by
  have hdecodes : st.Shuffles st.afterDecodes ∧ st.afterDecodes.sched.InOrder admitted := by
    refine st.afterDecodes_invariant (P := fun s => st.Shuffles s ∧ s.sched.InOrder admitted)
      ⟨Shuffles.begin st, h⟩ ?_ ?_
    · rintro s p rest ⟨hs, hord⟩ hat _ _
      exact ⟨hs.decode hat.mem_running, hord.sameQueues (s.sched.putSequences_sameQueues p _ _)⟩
    · rintro s init v ⟨hs, hord⟩ hat hv
      obtain ⟨-, -, ⟨hsame, -⟩, -⟩ := hat.split
      have hmem : v ∈ st.running := by
        rw [← hsame, hv]
        simp
      exact ⟨hs.preempt hv, hord.preempt hv (hrun v hmem)⟩
  exact ⟨hdecodes.1.sort, hdecodes.2.sort⟩

include hq

/-- The order survives the call. -/
theorem inOrder_schedule : st.schedule.2.InOrder admitted := by
  have hend := st.afterSwapIn_invariant_of
    (P := fun s => st.Shuffles s ∧ s.sched.InOrder admitted)
    (inOrder_beforePrefills hrun h)
    (fun s p rest hs _ hwait _ => ⟨hs.1.prefill hwait, hs.2.prefill (hs.1.queues hq) hwait⟩)
    (fun s p rest hs hswap _ => ⟨hs.1.swapIn hswap,
      hs.2.frame rfl (s.sched.putSequences_sameRequest p _ s.sched.blockManager) rfl⟩)
  exact hend.2

/-- At every admission the queue is in order, and the group admitted is its front. -/
theorem inOrder_admissions {s : ScheduleState} {p : GroupPtr} (hmem : (s, p) ∈ st.admissions) :
    st.Shuffles s ∧ s.sched.InOrder admitted ∧ ∃ rest, s.sched.waiting = p :: rest := by
  have hat := st.admissions_invariant
    (P := fun s => st.Shuffles s ∧ s.sched.InOrder admitted)
    (inOrder_beforePrefills hrun h)
    (fun s p rest hs _ hwait _ => ⟨hs.1.prefill hwait, hs.2.prefill (hs.1.queues hq) hwait⟩) hmem
  exact ⟨hat.1.1, hat.1.2, hat.2⟩

end Call

/-- What runs or is swapped out after a call has been admitted in it or did so before. -/
theorem mem_admitted_schedule {st : Scheduler} {admitted : List GroupPtr}
    (h : ∀ p ∈ st.running ++ st.swapped, p ∈ admitted) (p : GroupPtr)
    (hp : p ∈ st.schedule.2.running ++ st.schedule.2.swapped) :
    p ∈ admitted ++ st.admissions.map Prod.snd := by
  refine st.afterSwapIn_invariant (P := fun s => ∀ p ∈ s.sched.running ++ s.sched.swapped,
    p ∈ admitted ++ st.admissions.map Prod.snd) ?_ ?_ ?_ ?_ ?_ ?_ p hp
  · intro p hp
    exact List.mem_append_left _ (h p hp)
  · intro s p rest hs _ _ _
    exact hs
  · intro s init v hs _ hv q hq
    refine hs q ?_
    rw [preempt_eq hv] at hq
    rw [hv]
    cases hmode : s.sched.config.preemptionMode with
    | swap =>
        simp only [hmode, swapOutGroup, Scheduler.putSequences, List.mem_append,
          List.mem_singleton] at hq ⊢
        tauto
    | recompute =>
        simp only [hmode, recomputeGroup, Scheduler.putSequences, List.mem_append,
          List.mem_singleton] at hq ⊢
        tauto
  · intro s hs
    obtain ⟨w, -, hw⟩ := s.sched.sortWaitingQueue_eq
    rw [hw]
    exact hs
  · intro s p rest hs hadm _ _ q hq
    simp only [admitGroup, charge, Scheduler.putSequences, List.append_assoc, List.mem_append,
      List.mem_singleton] at hq
    rcases hq with hq | rfl | hq
    · exact hs q (List.mem_append_left _ hq)
    · exact List.mem_append_right _ (List.mem_map_of_mem hadm)
    · exact hs q (List.mem_append_right _ hq)
  · intro s p rest hs hswap _ q hq
    refine hs q ?_
    rw [hswap]
    simp only [swapInGroup, charge, Scheduler.putSequences, List.append_assoc, List.mem_append,
      List.mem_cons, List.not_mem_nil] at hq ⊢
    tauto

end Scheduler

/-! ## Runs -/

namespace Census

/-- The order of the groups never admitted, with what it rests on: addresses are handed out in
    increasing order, and what is not waiting has been admitted. -/
structure Ordered (config : SchedulerConfig) (c : Census) : Prop where
  balanced : c.Balanced
  config : c.sched.config = config
  increasing : c.added.Pairwise (· < ·)
  admitted : ∀ p ∈ c.sched.running ++ c.sched.swapped, p ∈ c.admitted
  order : c.sched.InOrder c.admitted

namespace Ordered

variable {config : SchedulerConfig} {c : Census}

theorem init (config : SchedulerConfig) (bm : BlockManager) :
    (Census.init config bm).Ordered config :=
  ⟨Balanced.init config bm, rfl, List.Pairwise.nil, fun _ hp => absurd hp List.not_mem_nil,
    fun _ ha => absurd ha List.not_mem_nil⟩

theorem addRequest (h : c.Ordered config) (group : SequenceGroup) :
    (c.step (.addRequest group)).Ordered config := by
  refine ⟨h.balanced.addRequest group, h.config, ?_, h.admitted, ?_⟩
  · refine List.pairwise_append.2 ⟨h.increasing, List.pairwise_singleton _ _, fun p hp q hq => ?_⟩
    rw [List.mem_singleton.1 hq]
    exact h.balanced.stored p hp
  · refine h.order.addRequest (fun p hp => ?_) group
    exact h.balanced.stored p (h.balanced.mem_added (Scheduler.WellFormed.mem_waiting hp))

/-- Operations that move nothing keep the order. -/
theorem sameQueues (h : c.Ordered config) {st : Scheduler}
    (hsame : Scheduler.SameQueues c.sched st)
    (hbal : ({ c with sched := st } : Census).Balanced) :
    ({ c with sched := st } : Census).Ordered config := by
  refine ⟨hbal, hsame.config.trans h.config, h.increasing, ?_, h.order.sameQueues hsame⟩
  show ∀ p ∈ st.running ++ st.swapped, p ∈ c.admitted
  rw [hsame.running, hsame.swapped]
  exact h.admitted

theorem schedule (h : c.Ordered config) : (c.step .schedule).Ordered config := by
  have hrun : ∀ p ∈ c.sched.running, p ∈ c.admitted :=
    fun p hp => h.admitted p (List.mem_append_left _ hp)
  have horder := Scheduler.inOrder_schedule hrun h.order h.balanced.queues
  exact ⟨h.balanced.schedule, c.sched.schedule_frame.2.2.trans h.config, h.increasing,
    Scheduler.mem_admitted_schedule h.admitted, horder.mono (List.subset_append_left _ _)⟩

theorem freeFinishedRequests (h : c.Ordered config) :
    (c.step .freeFinishedRequests).Ordered config := by
  refine ⟨h.balanced.freeFinishedRequests, ?_, h.increasing, fun p hp => h.admitted p ?_,
    h.order.freeFinishedRequests⟩
  · show c.sched.freeFinishedRequests.config = config
    rw [Scheduler.freeFinishedRequests_eq]
    exact h.config
  · rw [step, Scheduler.freeFinishedRequests_eq] at hp
    exact (List.filter_sublist.append (List.Sublist.refl _)).subset hp

theorem step (h : c.Ordered config) (op : CensusOp) : (c.step op).Ordered config := by
  have hbal := h.balanced.step op
  cases op with
  | addRequest group => exact h.addRequest group
  | abortRequest id => exact h.sameQueues (c.sched.abortRequest_sameQueues id) hbal
  | schedule => exact h.schedule
  | freeFinishedRequests => exact h.freeFinishedRequests
  | rewrite p seqs => exact h.sameQueues (c.sched.putSequences_sameQueues p seqs _) hbal

end Ordered

variable {config : SchedulerConfig} {bm : BlockManager} {c : Census}

theorem ordered_of_reach (h : Run.Reach step Permitted (init config bm) c) : c.Ordered config :=
  h.invariant (Ordered.init config bm) (fun _ op hc _ => hc.step op)

/-- **No overtaking.** Where the next call admits `b` for the first time, no group `a` that was added
    before it and is at least as preferred is waiting without ever having been admitted; and the groups
    the call admits are a first part of the waiting queue as `sort_waiting_queue` leaves it. -/
theorem no_overtaking (h : Run.Reach step Permitted (init config bm) c) :
    (∀ s b, (s, b) ∈ c.sched.admissions → b ∉ c.admitted →
      ∀ a, Before c.added a b →
        config.policy.Prefers (c.sched.groups a) (c.sched.groups b) →
        a ∉ c.admitted → a ∉ s.sched.waiting) ∧
    c.sched.admissions.map Prod.snd <+: c.sched.afterDecodes.sched.sortWaitingQueue.waiting := by
  have hc := ordered_of_reach h
  have hrun : ∀ p ∈ c.sched.running, p ∈ c.admitted :=
    fun p hp => hc.admitted p (List.mem_append_left _ hp)
  refine ⟨?_, prefillAdmissions_prefix _ _⟩
  intro s b hmem hnb a hab hpref hna hwaits
  obtain ⟨hs, hord, rest, hwait⟩ :=
    Scheduler.inOrder_admissions hrun hc.order hc.balanced.queues hmem
  have hlt : a < b := List.pairwise_pair.1 (hc.increasing.sublist hab)
  have hpref' : s.sched.config.policy.Prefers (s.sched.groups a) (s.sched.groups b) := by
    rw [hs.config, hc.config, (hs.same a).prefers_iff (hs.same b)]
    exact hpref
  have hb : b ∈ s.sched.waiting := by
    rw [hwait]
    exact List.mem_cons_self ..
  -- `a` would stand in front of the front
  have hbefore := hord a hwaits b hb hna hnb hlt hpref'
  rw [hwait] at hbefore
  exact (hs.queues hc.balanced.queues).not_mem_rest_waiting hwait
    (hbefore.tail (Nat.ne_of_lt hlt)).mem_right

/-- Group 0 is admitted, outgrows the pool and is about to be preempted to the front of the queue; of the
    three groups behind it the last has the highest priority, the others share one. -/
def preemptedFirst : List CensusOp :=
  let grown : SequenceData :=
    { seqId := 0, promptTokens := [1, 2], outputTokens := [3, 4, 5, 6, 7, 8, 9],
      logicalBlocks := [0], status := .running }
  [.addRequest (SequenceGroup.new 0 [1, 2] {}), .schedule, .rewrite 0 [grown],
    .addRequest (SequenceGroup.new 1 [1, 2] {} 3), .addRequest (SequenceGroup.new 2 [1, 2] {} 3),
    .addRequest (SequenceGroup.new 3 [1, 2] {} 5)]

theorem preemptedFirst_inOrder :
    let c := preemptedFirst.foldl step (init { policy := .priority, preemptionMode := .recompute }
      (BlockManager.new { numGpuBlocks := 4, numCpuBlocks := 1, blockSize := 2 }))
    c.sched.admissions.map Prod.snd = [3, 1, 2, 0] ∧
      ∀ s, (s, 2) ∈ c.sched.admissions → 1 ∉ s.sched.waiting := by
  refine ⟨by decide, fun s hmem => ?_⟩
  refine (no_overtaking (Run.Reach.of_allOk _ (by decide))).1 s 2 hmem (by decide) 1 ?_ (by decide)
    (by decide)
  exact List.isSublist_iff_sublist.1 (by decide)

end Census

end CacheFlow
