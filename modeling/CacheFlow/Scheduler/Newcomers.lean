import CacheFlow.Scheduler.Order
import CacheFlow.Scheduler.Room

set_option autoImplicit false

/-! # Newcomers and swapped-out groups

In swap mode a group that has been admitted never waits again, so under FCFS the waiting queue holds the
newcomers, in the order they were added, and all groups that have been admitted were added before them
(`Census.Newcomers`). A call serves the waiting queue first. Whatever is swapped out after a call that
admits anyone has therefore been overtaken by a newcomer: not to overtake, the call must admit nobody or
find room for the whole swapped queue in what the newcomers leave. -/

namespace CacheFlow

open ScheduleState

namespace Scheduler

variable {st : Scheduler} (hpolicy : st.config.policy = .fcfs)
  (hmode : st.config.preemptionMode = .swap)
include hpolicy hmode

/-- Neither the decode phase nor the sort changes the waiting queue. -/
theorem sortedWaiting_fcfs_swap : st.afterDecodes.sortedWaiting = st.waiting := by
  have hconfig := st.afterDecodes_shuffles.config
  have hwaiting : st.afterDecodes.sched.waiting = st.waiting := by
    rcases st.afterDecodes_victim.2 with ⟨-, -, -, hwait, -⟩ | ⟨v, init, -, -, -, -, -, hswap⟩
    · exact hwait
    · exact (hswap hmode).1
  rw [sortedWaiting, sortWaitingQueue, hconfig, hpolicy]
  exact hwaiting

/-- The call takes its admissions from the front of the waiting queue and leaves the rest. -/
theorem schedule_waiting_fcfs_swap (hst : st.QueuesDisjoint) :
    st.waiting = st.admissions.map Prod.snd ++ st.schedule.2.waiting := by
  have hsorted := sortedWaiting_fcfs_swap hpolicy hmode
  obtain ⟨-, -, -, -, hwait, -⟩ := schedule_serves hst
  rw [(admissions_eq_admits hst).1, hwait, hsorted]
  have hprefix : st.afterDecodes.admits <+: st.waiting := by
    rw [admits, hsorted]
    exact List.take_prefix _ _
  conv_lhs => rw [← List.take_append_drop st.afterDecodes.admits.length st.waiting]
  rw [← List.prefix_iff_eq_take.1 hprefix]

omit hpolicy hmode in
/-- What is swapped out when the decode phase ends was running or swapped out before. -/
theorem mem_swapped_afterDecodes {p : GroupPtr} (hp : p ∈ st.afterDecodes.sched.swapped) :
    p ∈ st.running ++ st.swapped := by
  rcases st.afterDecodes_victim.2 with ⟨-, -, -, -, hsw⟩ | ⟨v, init, -, -, hlast, -, hrec, hswap⟩
  · exact List.mem_append_right _ (hsw ▸ hp)
  · cases hmode : st.config.preemptionMode with
    | recompute =>
        rw [(hrec hmode).2] at hp
        exact List.mem_append_right _ hp
    | swap =>
        rw [(hswap hmode).2] at hp
        rcases List.mem_append.1 hp with hp | hp
        · exact List.mem_append_right _ hp
        · rw [List.mem_singleton.1 hp, hlast]
          simp

end Scheduler

namespace Census

/-- The waiting queue holds newcomers, in the order they were added, and everyone admitted was added
    before them. -/
structure Newcomers (config : SchedulerConfig) (c : Census) : Prop where
  ordered : c.Ordered config
  waiting : c.sched.waiting.Pairwise (· < ·)
  later : ∀ a ∈ c.admitted, ∀ b ∈ c.sched.waiting, a < b
  stored : ∀ a ∈ c.admitted, a < c.sched.next

namespace Newcomers

variable {config : SchedulerConfig} {c : Census}

theorem init (config : SchedulerConfig) (bm : BlockManager) :
    (Census.init config bm).Newcomers config :=
  ⟨Ordered.init config bm, List.Pairwise.nil, fun _ ha => absurd ha List.not_mem_nil,
    fun _ ha => absurd ha List.not_mem_nil⟩

theorem addRequest (h : c.Newcomers config) (group : SequenceGroup) :
    (c.step (.addRequest group)).Newcomers config := by
  have hlt : ∀ p ∈ c.sched.waiting, p < c.sched.next := fun p hp =>
    h.ordered.balanced.stored p (h.ordered.balanced.mem_added (Scheduler.WellFormed.mem_waiting hp))
  refine ⟨h.ordered.addRequest group, ?_, ?_, fun a ha => Nat.lt_succ_of_lt (h.stored a ha)⟩
  · refine List.pairwise_append.2 ⟨h.waiting, List.pairwise_singleton _ _, fun p hp q hq => ?_⟩
    rw [List.mem_singleton.1 hq]
    exact hlt p hp
  · intro a ha b hb
    rcases List.mem_append.1 hb with hb | hb
    · exact h.later a ha b hb
    · rw [List.mem_singleton.1 hb]
      exact h.stored a ha

/-- Operations that move nothing. -/
theorem sameQueues (h : c.Newcomers config) {st : Scheduler}
    (hsame : Scheduler.SameQueues c.sched st)
    (hord : ({ c with sched := st } : Census).Ordered config) :
    ({ c with sched := st } : Census).Newcomers config := by
  obtain ⟨-, hwaiting, hlater, hstored⟩ := h
  refine ⟨hord, ?_, ?_, ?_⟩
  · show st.waiting.Pairwise (· < ·)
    rw [hsame.waiting]
    exact hwaiting
  · show ∀ a ∈ c.admitted, ∀ b ∈ st.waiting, a < b
    rw [hsame.waiting]
    exact hlater
  · show ∀ a ∈ c.admitted, a < st.next
    rw [hsame.next]
    exact hstored

theorem freeFinishedRequests (h : c.Newcomers config) :
    (c.step .freeFinishedRequests).Newcomers config := by
  have hord := h.ordered.freeFinishedRequests
  have hwait : c.sched.freeFinishedRequests.waiting.Sublist c.sched.waiting := by
    rw [Scheduler.freeFinishedRequests_eq]
    exact List.filter_sublist
  refine ⟨hord, h.waiting.sublist hwait, fun a ha b hb => h.later a ha b (hwait.subset hb), ?_⟩
  show ∀ a ∈ c.admitted, a < c.sched.freeFinishedRequests.next
  rw [Scheduler.freeFinishedRequests_eq]
  exact h.stored

variable (hpolicy : config.policy = .fcfs) (hmode : config.preemptionMode = .swap)
include hpolicy hmode

/-- The groups a call admits stand in front of the groups that keep waiting. -/
theorem schedule (h : c.Newcomers config) : (c.step .schedule).Newcomers config := by
  have hsplit : c.sched.waiting = c.sched.admissions.map Prod.snd ++ c.sched.schedule.2.waiting :=
    Scheduler.schedule_waiting_fcfs_swap (by rw [h.ordered.config, hpolicy])
      (by rw [h.ordered.config, hmode]) h.ordered.balanced.queues
  have hpairs := h.waiting
  have hlater := h.later
  rw [hsplit] at hpairs hlater
  obtain ⟨-, hrest, hfront⟩ := List.pairwise_append.1 hpairs
  refine ⟨h.ordered.schedule, hrest, ?_, ?_⟩
  · intro a ha b hb
    rcases List.mem_append.1 ha with ha | ha
    · exact hlater a ha b (List.mem_append_right _ hb)
    · exact hfront a ha b hb
  · show ∀ a ∈ c.admitted ++ _, a < c.sched.schedule.2.next
    rw [c.sched.schedule_frame.2.1]
    intro a ha
    rcases List.mem_append.1 ha with ha | ha
    · exact h.stored a ha
    · have hmem : a ∈ c.sched.waiting := hsplit ▸ List.mem_append_left _ ha
      exact h.ordered.balanced.stored a
        (h.ordered.balanced.mem_added (Scheduler.WellFormed.mem_waiting hmem))

theorem step (h : c.Newcomers config) (op : CensusOp) : (c.step op).Newcomers config := by
  have hord := h.ordered.step op
  cases op with
  | addRequest group => exact h.addRequest group
  | abortRequest id => exact h.sameQueues (c.sched.abortRequest_sameQueues id) hord
  | schedule => exact h.schedule hpolicy hmode
  | freeFinishedRequests => exact h.freeFinishedRequests
  | rewrite p seqs => exact h.sameQueues (c.sched.putSequences_sameQueues p seqs _) hord

end Newcomers

variable {config : SchedulerConfig} {bm : BlockManager} {c : Census}

/-- In a list in increasing order the smaller of two elements stands in front. -/
theorem before_of_lt {l : List GroupPtr} (hl : l.Pairwise (· < ·)) {a b : GroupPtr} (ha : a ∈ l)
    (hb : b ∈ l) (hab : a < b) : Before l a b := by
  induction l with
  | nil => exact absurd ha List.not_mem_nil
  | cons x rest ih =>
      obtain ⟨hx, hrest⟩ := List.pairwise_cons.1 hl
      rcases List.mem_cons.1 hb with rfl | hb'
      · rcases List.mem_cons.1 ha with rfl | ha'
        · exact absurd hab (Nat.lt_irrefl _)
        · exact absurd (hx a ha') (Nat.not_lt_of_lt hab)
      · rcases List.mem_cons.1 ha with rfl | ha'
        · exact List.Sublist.cons_cons _ (List.singleton_sublist.2 hb')
        · exact (ih hrest ha' hb').mono (List.sublist_cons_self _ _)

/-- A group that runs or is swapped out was added before everyone who waits, and those are new. -/
theorem Newcomers.before (hc : c.Newcomers config) {a b : GroupPtr}
    (ha : a ∈ c.sched.running ++ c.sched.swapped) (hb : b ∈ c.sched.waiting) :
    b ∉ c.admitted ∧ Before c.added a b := by
  refine ⟨fun hmem => Nat.lt_irrefl b (hc.later b hmem b hb), ?_⟩
  have hlt := hc.later a (hc.ordered.admitted a ha) b hb
  have hbadded := hc.ordered.balanced.mem_added (Scheduler.WellFormed.mem_waiting hb)
  have haadded : a ∈ c.added := by
    apply hc.ordered.balanced.mem_added
    rcases List.mem_append.1 ha with ha | ha
    · exact Scheduler.WellFormed.mem_running ha
    · exact Scheduler.WellFormed.mem_swapped ha
  exact before_of_lt hc.ordered.increasing haadded hbadded hlt

/-- The front of the waiting queue finds no room, or all of the swapped queue finds room in what the
    groups admitted leave. -/
def YieldsToSwapped (st : Scheduler) : Prop :=
  (∀ p, st.waiting.head? = some p → ¬ st.afterDecodes.room.Fits
    (Scheduler.prefillDemand st.afterDecodes.sched.blockManager (st.afterDecodes.sched.groups p))) ∨
  st.afterDecodes.sched.swapped.length ≤ st.afterDecodes.numResumed

/-- A call admits someone exactly when the front of the waiting queue finds room. -/
theorem admits_eq_nil_iff {s : ScheduleState} : s.admits = [] ↔
    ∀ p, s.sortedWaiting.head? = some p →
      ¬ s.room.Fits (Scheduler.prefillDemand s.sched.blockManager (s.sched.groups p)) := by
  rw [admits]
  cases hw : s.sortedWaiting with
  | nil => simp
  | cons p rest =>
      have hcons : s.prefillDemands (p :: rest) = Scheduler.prefillDemand s.sched.blockManager
          (s.sched.groups p) :: s.prefillDemands rest := rfl
      rw [hcons, Queue.Rule.served]
      by_cases hfits : s.room.Fits (Scheduler.prefillDemand s.sched.blockManager (s.sched.groups p))
      · have hrule : Room.rule.Fits s.room _ := hfits
        simp [if_pos hrule, hfits]
      · have hrule : ¬ Room.rule.Fits s.room _ := hfits
        simp [if_neg hrule, hfits]

/-- **Swapped-out requests and newcomers.** In every run under FCFS with swapping, the next call admits
    no group for the first time while a group added before it stays in the swapped queue, exactly when
    the front of the waiting queue finds no room or the whole swapped queue does after it. -/
theorem swapped_not_overtaken_iff (hpolicy : config.policy = .fcfs)
    (hmode : config.preemptionMode = .swap) (h : Run.Reach step Permitted (init config bm) c) :
    (∀ b ∈ c.sched.admissions.map Prod.snd, b ∉ c.admitted →
      ∀ a, Before c.added a b → a ∉ c.sched.schedule.2.swapped) ↔
    YieldsToSwapped c.sched := by
  have hc : c.Newcomers config :=
    h.invariant (Newcomers.init config bm) (fun _ op hc _ => hc.step hpolicy hmode op)
  have hq := hc.ordered.balanced.queues
  have hsorted : c.sched.afterDecodes.sortedWaiting = c.sched.waiting :=
    Scheduler.sortedWaiting_fcfs_swap (by rw [hc.ordered.config, hpolicy])
      (by rw [hc.ordered.config, hmode])
  obtain ⟨-, -, -, -, -, hswapped, -⟩ := Scheduler.schedule_serves hq
  have hnobody := admits_eq_nil_iff (s := c.sched.afterDecodes)
  rw [hsorted] at hnobody
  rw [(Scheduler.admissions_eq_admits hq).1, YieldsToSwapped, ← hnobody]
  constructor
  · intro hyield
    by_contra hnot
    rw [not_or] at hnot
    obtain ⟨b, hb⟩ := List.exists_mem_of_ne_nil _ hnot.1
    obtain ⟨a, ha⟩ : ∃ a, a ∈ c.sched.schedule.2.swapped := by
      refine List.exists_mem_of_ne_nil _ ?_
      rw [hswapped, Ne, List.drop_eq_nil_iff]
      exact hnot.2
    -- `a` has been admitted before and `b` has not, so `a` was added first
    have hbw : b ∈ c.sched.waiting := by
      rw [← hsorted]
      exact List.mem_of_mem_take hb
    have haold : a ∈ c.sched.running ++ c.sched.swapped := by
      rw [hswapped] at ha
      exact Scheduler.mem_swapped_afterDecodes (List.mem_of_mem_drop ha)
    obtain ⟨hbnew, hbefore⟩ := hc.before haold hbw
    exact hyield b hb hbnew a hbefore ha
  · rintro (hnil | hall) b hb _ a _ ha
    · rw [hnil] at hb
      exact absurd hb List.not_mem_nil
    · rw [hswapped, List.drop_eq_nil_of_le hall] at ha
      exact absurd ha List.not_mem_nil

instance (st : Scheduler) : Decidable (YieldsToSwapped st) :=
  inferInstanceAs (Decidable ((∀ p ∈ st.waiting.head?, ¬ st.afterDecodes.room.Fits
    (Scheduler.prefillDemand st.afterDecodes.sched.blockManager (st.afterDecodes.sched.groups p))) ∨
    st.afterDecodes.sched.swapped.length ≤ st.afterDecodes.numResumed))

/-- The first of two requests outgrows its block, the second is about to be swapped out, and a third has
    arrived. -/
def thirdArrives : List CensusOp :=
  let grown : SequenceData :=
    { seqId := 0, promptTokens := [1, 2], outputTokens := [5, 6, 7], logicalBlocks := [0],
      status := .running }
  [.addRequest (SequenceGroup.new 0 [1, 2] {}), .addRequest (SequenceGroup.new 1 [1, 2] {}),
    .schedule, .rewrite 0 [grown], .addRequest (SequenceGroup.new 2 [1] {})]

def pool (n : Nat) : Census :=
  init {} (BlockManager.new { numGpuBlocks := n, numCpuBlocks := 1, blockSize := 2 })

/-- With three blocks both the newcomer and the group swapped out find room. -/
theorem thirdArrives_not_overtaken :
    let c := thirdArrives.foldl step (pool 3)
    c.sched.admissions.map Prod.snd = [2] ∧ c.sched.schedule.1.preemptedGroups = [1] ∧
      1 ∉ c.sched.schedule.2.swapped := by
  refine ⟨by decide, by decide, ?_⟩
  exact (swapped_not_overtaken_iff rfl rfl (Run.Reach.of_allOk _ (by decide))).2 (by decide)
    2 (by decide) (by decide) 1 (List.isSublist_iff_sublist.1 (by decide))

/-- With two blocks the newcomer takes what the group swapped out has left. -/
theorem thirdArrives_overtakes :
    let c := thirdArrives.foldl step (pool 2)
    Run.Reach step Permitted (pool 2) c ∧
      ¬ ∀ b ∈ c.sched.admissions.map Prod.snd, b ∉ c.admitted →
        ∀ a, Before c.added a b → a ∉ c.sched.schedule.2.swapped := by
  refine ⟨Run.Reach.of_allOk _ (by decide), fun hyield => ?_⟩
  exact hyield 2 (by decide) (by decide) 1 (List.isSublist_iff_sublist.1 (by decide)) (by decide)

end Census

end CacheFlow
