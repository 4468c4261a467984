import CacheFlow.Scheduler.SeqLimit

set_option autoImplicit false

/-! # The victim of a preemption

`preempt` takes the last group of the running queue. Whether that is the least important one depends on
how the queue came about: groups join at its end, in the order of the sorted waiting queue and then of
the swapped queue, and nothing sorts the running queue. A request of high priority that arrives late
joins behind less important ones, and so does a group that is swapped in behind one that was swapped out
before it.

As long as nobody joins behind a less important group (`JoinsInOrder`) the running queue descends in
priority (`Descending`) along the whole run, and its last group is the right victim, if it is not one
that has finished. -/

namespace CacheFlow

open ScheduleState Run

namespace Scheduler

/-- The unfinished groups of the running queue stand in descending order of priority. -/
def Descending (st : Scheduler) : Prop :=
  (st.unfinishedIn st.running).Pairwise (fun p q => (st.groups q).priority ≤ (st.groups p).priority)

/-- The unfinished groups that join the running queue in the call, in order. -/
def joining (st : Scheduler) : List GroupPtr :=
  st.afterDecodes.admits ++ st.afterDecodes.sched.unfinishedIn st.afterDecodes.resumes

/-- Nobody joins the running queue behind an unfinished group of lower priority. -/
def JoinsInOrder (st : Scheduler) : Prop :=
  (∀ q ∈ st.joining,
    ∀ p ∈ st.afterDecodes.sched.unfinishedIn st.afterDecodes.sched.running,
      (st.groups q).priority ≤ (st.groups p).priority) ∧
  st.joining.Pairwise (fun p q => (st.groups q).priority ≤ (st.groups p).priority)

instance (st : Scheduler) : Decidable st.JoinsInOrder := inferInstanceAs (Decidable (_ ∧ _))

/-- The running queue does not end in a finished group. -/
def EndsUnfinished (st : Scheduler) : Prop :=
  ∀ v ∈ st.running.getLast?, (st.groups v).allFinished = false

instance (st : Scheduler) : Decidable st.EndsUnfinished :=
  inferInstanceAs (Decidable (∀ v ∈ st.running.getLast?, _))

/-- The condition on the calls of a run. -/
def PriorityOp (st : Scheduler) : Op → Prop
  | .schedule => st.EndsUnfinished ∧ st.JoinsInOrder
  | _ => True

instance (st : Scheduler) : (op : Op) → Decidable (st.PriorityOp op)
  | .schedule => inferInstanceAs (Decidable (_ ∧ _))
  | .addRequest _ | .abortRequest _ | .updateAfterDecode .. | .freeFinishedRequests => isTrue trivial

/-! ## One operation -/

/-- Where the decode loop calls `preempt`, the running queue is that of the state before the call, and
    nobody has finished or changed priority. -/
theorem PreemptsAt.same {st : Scheduler} {s : ScheduleState} (hat : st.PreemptsAt s) :
    s.sched.running = st.running ∧ ∀ p,
      (s.sched.groups p).allFinished = (st.groups p).allFinished ∧
      (s.sched.groups p).priority = (st.groups p).priority := by
  have hs : s = (decodeLoop st.running st.beginSchedule).1 := by rw [hat]
  obtain ⟨l, hvisited, -⟩ := Visited.loop st
  have hshuffles := (st.decodeLoop_invariant (Shuffles.begin st)
    (fun _ _ _ h hat _ _ => h.decode hat.mem_running)).1
  rw [hs]
  exact ⟨st.decodeLoop_frame.1, fun p => ⟨hvisited.same p, (hshuffles.same p).priority⟩⟩

/-- The victim of a descending queue that ends unfinished is the least important group. -/
theorem Descending.last_minimal {st : Scheduler} (h : st.Descending) {init : List GroupPtr}
    {v : GroupPtr} (hlast : st.running = init ++ [v]) (hv : (st.groups v).allFinished = false)
    {q : GroupPtr} (hq : q ∈ st.running) (hunfin : (st.groups q).allFinished = false) :
    (st.groups v).priority ≤ (st.groups q).priority := by
  have hsplit : st.unfinishedIn st.running = st.unfinishedIn init ++ [v] := by
    rw [hlast, unfinishedIn, List.filter_append]
    simp [unfinishedIn, hv]
  rw [Descending, hsplit] at h
  by_cases hqv : q = v
  · rw [hqv]
  · refine (List.pairwise_append.1 h).2.2 q ?_ v (List.mem_singleton_self v)
    rw [hlast] at hq
    exact List.mem_filter.2 ⟨mem_of_mem_concat hq hqv, by simp [hunfin]⟩

/-- Taking groups out keeps the order of the others. -/
theorem Descending.recedes {st st' : Scheduler} (h : st.Descending) (hrec : Recedes st st') :
    st'.Descending := by
  refine List.Pairwise.imp_of_mem ?_ (List.Pairwise.sublist hrec.sublist h)
  intro p q hp hq hle
  have hmem : ∀ r ∈ st'.unfinishedIn st'.running, r ∈ st.running :=
    fun r hr => (List.mem_filter.1 (hrec.sublist.subset hr)).1
  rw [hrec.priority p (hmem p hp), hrec.priority q (hmem q hq)]
  exact hle

/-- A call in which groups join in order keeps the queue descending. -/
theorem Descending.schedule {st : Scheduler} (h : st.Descending) (hst : st.QueuesDisjoint)
    (hne : st.NonEmpty) (hjoin : st.JoinsInOrder) : st.schedule.2.Descending := by
  have hsame : ∀ p, (st.schedule.2.groups p).priority = (st.groups p).priority :=
    fun p => (st.schedule_shuffles.same p).priority
  have hcount := decodesCounted hst
  -- the decode phase takes the victim out and leaves the order
  have hsub : (st.afterDecodes.sched.unfinishedIn st.afterDecodes.sched.running).Sublist
      (st.unfinishedIn st.running) := by
    have hfilter : st.afterDecodes.sched.unfinishedIn st.afterDecodes.sched.running
        = st.unfinishedIn st.afterDecodes.sched.running :=
      List.filter_congr (fun p _ => by rw [hcount.same])
    rw [hfilter]
    refine List.Sublist.filter _ ?_
    rcases st.afterDecodes_victim.2 with ⟨-, -, hrun, -⟩ | ⟨v, init, -, -, hlast, hinit, -⟩
    · rw [hrun]
    · rw [hlast, hinit]
      exact List.sublist_append_left _ _
  rw [Descending, unfinishedIn_schedule hst hne]
  simp only [hsame]
  exact List.pairwise_append.2 ⟨List.Pairwise.sublist hsub h, hjoin.2, fun p hp q hq =>
    hjoin.1 q hq p hp⟩

/-! ## Runs -/

/-- An operation that meets the condition keeps the queue descending. -/
theorem Descending.step {config : SchedulerConfig} {st : Scheduler} (h : st.Descending)
    (hkept : st.Kept config) {op : Op} (hop : ClientOp st op) (hprio : st.PriorityOp op) :
    (st.step op).Descending := by
  by_cases hsched : op = .schedule
  · subst hsched
    exact h.schedule hkept.queues hkept.nonempty hprio.2
  · exact h.recedes ((hkept.step hop).2 hsched)

/-- **The victim is the least important running group.** In every run whose calls find an unfinished group
    at the end of the running queue and let nobody join behind a less important one, whenever
    `schedule()` preempts, the victim is unfinished and no unfinished group that is running at that
    moment has a lower priority. -/
theorem victim_least_important (config : SchedulerConfig) (bm : BlockManager) (ops : List Op)
    (hops : AllOk step ClientOp (Scheduler.new config bm) ops)
    (horder : AllOk step PriorityOp (Scheduler.new config bm) ops) :
    ∀ pre post, ops = pre ++ .schedule :: post → ∀ s init v,
      (pre.foldl step (Scheduler.new config bm)).PreemptsAt s → s.sched.running = init ++ [v] →
      (s.sched.groups v).allFinished = false ∧
      ∀ q ∈ s.sched.running, (s.sched.groups q).allFinished = false →
        (s.sched.groups v).priority ≤ (s.sched.groups q).priority := by
  rintro pre post rfl s init v hat hv
  obtain ⟨hpre, -⟩ := allOk_append.1 (allOk_and.2 ⟨hops, horder⟩)
  obtain ⟨hends, -⟩ := (allOk_append.1 horder).2.1
  have hinv := hpre.invariant (P := fun st => st.Kept config ∧ st.Descending)
    ⟨Kept.new config bm, List.Pairwise.nil⟩
    (fun st op h hop => ⟨(h.1.step hop.1).1, h.2.step h.1 hop.1 hop.2⟩)
  obtain ⟨-, hdesc⟩ := hinv
  generalize pre.foldl step (Scheduler.new config bm) = st at hat hends hdesc
  -- the decode loop has changed neither the queue nor who is finished, nor any priority
  obtain ⟨hrun, hsame⟩ := hat.same
  rw [hrun] at hv
  have hunfin : (st.groups v).allFinished = false := hends v (by rw [hv, List.getLast?_concat]; rfl)
  refine ⟨(hsame v).1.trans hunfin, fun q hq hqfin => ?_⟩
  rw [(hsame v).2, (hsame q).2]
  rw [hrun] at hq
  exact hdesc.last_minimal hv hunfin hq ((hsame q).1.symm.trans hqfin)

/-- Two requests of the given priorities, the second of which arrives when the first is running; then the
    first outgrows its block. -/
def lateRun (first second : Int) : List Op :=
  [.addRequest (SequenceGroup.new 0 [1] {} first), .freeFinishedRequests, .schedule,
    .updateAfterDecode { scheduledGroups := [0], numBatchedTokens := 1 } [9] 0,
    .addRequest (SequenceGroup.new 1 [1, 2] {} second), .freeFinishedRequests, .schedule,
    .updateAfterDecode { scheduledGroups := [0, 1], numBatchedTokens := 3 } [9, 9] 1,
    .freeFinishedRequests]

def byPriority (mode : PreemptionMode) : Scheduler :=
  Scheduler.new { policy := .priority, preemptionMode := mode }
    (BlockManager.new { numGpuBlocks := 2, numCpuBlocks := 2, blockSize := 2 })

/-- The late request is the less important one, and is preempted. -/
theorem lateRun_victim_least :
    ((lateRun 5 1).foldl step (byPriority .swap)).victim = some 1 ∧
    ∀ s init v, ((lateRun 5 1).foldl step (byPriority .swap)).PreemptsAt s →
      s.sched.running = init ++ [v] → (s.sched.groups v).allFinished = false ∧
        ∀ q ∈ s.sched.running, (s.sched.groups q).allFinished = false →
          (s.sched.groups v).priority ≤ (s.sched.groups q).priority :=
  ⟨by decide, victim_least_important _ _ (lateRun 5 1 ++ [.schedule]) (by decide) (by decide)
    (lateRun 5 1) [] rfl⟩

/-- The late request is the more important one, and is preempted all the same, in both modes. -/
theorem lateRun_victim_not_least :
    (AllOk step ClientOp (byPriority .swap) (lateRun 1 5 ++ [.schedule]) ∧
      ∃ s init, ((lateRun 1 5).foldl step (byPriority .swap)).PreemptsAt s ∧
        s.sched.running = init ++ [1] ∧ ∃ q ∈ s.sched.running,
          (s.sched.groups q).allFinished = false ∧
          (s.sched.groups q).priority < (s.sched.groups 1).priority) ∧
    (AllOk step ClientOp (byPriority .recompute) (lateRun 1 5 ++ [.schedule]) ∧
      ∃ s init, ((lateRun 1 5).foldl step (byPriority .recompute)).PreemptsAt s ∧
        s.sched.running = init ++ [1] ∧ ∃ q ∈ s.sched.running,
          (s.sched.groups q).allFinished = false ∧
          (s.sched.groups q).priority < (s.sched.groups 1).priority) :=
  ⟨⟨by decide, _, [0], Prod.ext rfl (by decide), by decide, 0, by decide, by decide, by decide⟩,
    ⟨by decide, _, [0], Prod.ext rfl (by decide), by decide, 0, by decide, by decide, by decide⟩⟩

end Scheduler

end CacheFlow
