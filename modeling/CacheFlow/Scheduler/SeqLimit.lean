import CacheFlow.Scheduler.Finished
import CacheFlow.Scheduler.Room

set_option autoImplicit false

/-! # `max_num_seqs` and the running queue

`budget_seqs` is a counter of one call, charged for every group the call visits. A call that visits all
running groups before it lets others in keeps the running queue within `max_num_seqs`. A call that
preempts does not: the decode loop ends there, the running groups behind the one that failed are not
charged, and the two other phases spend the budget as if they were not running.

`WithinLimit` compares the two: the groups left unvisited and those that find room, against the budget
the decode phase leaves. A run keeps the running queue within `max_num_seqs` exactly when all its calls
are `WithinLimit`. -/

namespace CacheFlow

open ScheduleState Run

/-! ## What a phase does to finished groups -/

/-- A loop whose body finishes and revives nobody. -/
theorem threadSequences_allFinished {σ : Type} {f : σ → SequenceData → SequenceData × σ}
    (hf : ∀ s x, (f s x).1.isFinished = x.isFinished) (s : σ) (seqs : List SequenceData) :
    (threadSequences f s seqs).1.all SequenceData.isFinished = seqs.all SequenceData.isFinished := by
  induction seqs generalizing s with
  | nil => rfl
  | cons x xs ih => simp only [threadSequences, List.all_cons, hf, ih]

theorem allocateFor_status (bm : BlockManager) (x : SequenceData) (n : Nat) :
    (allocateFor bm x n).1.status = x.status := by
  induction n generalizing bm x with
  | zero => rfl
  | succ n ih => rw [allocateFor, ih]

/-- Storing sequences with the same answer to `all_finished`. -/
theorem allFinished_update (groups : GroupPtr → SequenceGroup) {p : GroupPtr}
    {seqs : List SequenceData}
    (h : seqs.all SequenceData.isFinished = (groups p).sequences.all SequenceData.isFinished)
    (q : GroupPtr) :
    (Function.update groups p { groups p with sequences := seqs } q).allFinished
      = (groups q).allFinished := by
  by_cases hq : q = p
  · subst hq
    rw [Function.update_self]
    exact h
  · rw [Function.update_of_ne hq]

namespace ScheduleState

theorem decodeGroup_allFinished (s : ScheduleState) (p q : GroupPtr) :
    ((s.decodeGroup p).sched.groups q).allFinished = (s.sched.groups q).allFinished := by
  refine allFinished_update _ (threadSequences_allFinished ?_ _ _) q
  intro bm x
  unfold appendBlocks
  split
  · rfl
  · simp [SequenceData.isFinished, allocateFor_status]

theorem swapInGroup_allFinished (s : ScheduleState) (p : GroupPtr) (rest : List GroupPtr)
    (q : GroupPtr) :
    ((s.swapInGroup p rest).sched.groups q).allFinished = (s.sched.groups q).allFinished := by
  refine allFinished_update _ (threadSequences_allFinished ?_ _ _) q
  intro st x
  cases hfin : x.isFinished with
  | true => simp [swapInSequence, hfin]
  | false =>
      simp only [swapInSequence, hfin]
      rfl

theorem preempt_allFinished {s : ScheduleState} {init : List GroupPtr} {v : GroupPtr}
    (hv : s.sched.running = init ++ [v]) (q : GroupPtr) :
    (s.preempt.sched.groups q).allFinished = (s.sched.groups q).allFinished := by
  rw [preempt_eq hv]
  cases s.sched.config.preemptionMode with
  | swap =>
      refine allFinished_update _ (threadSequences_allFinished ?_ _ _) q
      intro st x
      cases hfin : x.isFinished with
      | true => simp [swapOutSequence, hfin]
      | false =>
          simp only [swapOutSequence, hfin]
          rfl
  | recompute =>
      refine allFinished_update _ (threadSequences_allFinished ?_ _ _) q
      intro bm x
      cases hfin : x.isFinished with
      | true => simp [recomputeSequence, hfin]
      | false =>
          simp only [recomputeSequence, hfin]
          rfl

theorem admitGroup_nonempty (s : ScheduleState) (p : GroupPtr) (rest : List GroupPtr) (q : GroupPtr)
    (h : (s.sched.groups q).sequences ≠ []) :
    ((s.admitGroup p rest).sched.groups q).sequences ≠ [] := by
  by_cases hq : q = p
  · subst hq
    cases hseqs : (s.sched.groups q).sequences with
    | nil => exact absurd hseqs h
    | cons x xs => simp [admitGroup, charge, Scheduler.putSequences, hseqs, threadSequences]
  · rw [groups_admitGroup_of_ne hq]
    exact h

/-- A group that is admitted runs, whatever it was before. -/
theorem admitGroup_allFinished (s : ScheduleState) {p : GroupPtr} (rest : List GroupPtr)
    (hne : (s.sched.groups p).sequences ≠ []) :
    ((s.admitGroup p rest).sched.groups p).allFinished = false := by
  cases hseqs : (s.sched.groups p).sequences with
  | nil => exact absurd hseqs hne
  | cons x xs =>
      simp [admitGroup, charge, Scheduler.putSequences, SequenceGroup.allFinished, hseqs,
        threadSequences, prefillSequence, SequenceData.isFinished, allocateFor_status,
        RequestStatus.isFinished]

end ScheduleState

namespace Scheduler

/-! ## The decode phase -/

/-- The unfinished groups in the running queue. -/
def numUnfinishedRunning (st : Scheduler) : Nat := (st.unfinishedIn st.running).length

/-- The decode loop has visited the running groups in front of `l`: it has scheduled the unfinished ones
    and charged one place for each. -/
structure Visited (st : Scheduler) (l : List GroupPtr) (s : ScheduleState) : Prop where
  visited : ∃ pre, st.running = pre ++ l ∧ s.output.scheduledGroups.Sublist pre ∧
    ∀ p ∈ pre, (st.groups p).allFinished = false → p ∈ s.output.scheduledGroups
  same : ∀ p, (s.sched.groups p).allFinished = (st.groups p).allFinished
  unfinished : ∀ p ∈ s.output.scheduledGroups, (st.groups p).allFinished = false
  places : s.output.scheduledGroups.length + s.budgetSeqs = st.config.maxNumSeqs

namespace Visited

variable {st : Scheduler} {s : ScheduleState} {p : GroupPtr} {rest : List GroupPtr}

theorem begin (st : Scheduler) : st.Visited st.running st.beginSchedule :=
  ⟨⟨[], rfl, List.Sublist.refl _, fun _ hp => absurd hp List.not_mem_nil⟩, fun _ => rfl,
    fun _ hp => absurd hp List.not_mem_nil, Nat.zero_add _⟩

theorem skip (h : st.Visited (p :: rest) s) (hfin : (s.sched.groups p).allFinished = true) :
    st.Visited rest s := by
  obtain ⟨pre, hsplit, hsub, hvisited⟩ := h.visited
  refine ⟨⟨pre ++ [p], by simpa using hsplit, hsub.trans (List.sublist_append_left _ _), ?_⟩, h.same,
    h.unfinished, h.places⟩
  intro q hq hunfin
  rcases List.mem_append.1 hq with hq | hq
  · exact hvisited q hq hunfin
  · rw [List.mem_singleton.1 hq, ← h.same p, hfin] at hunfin
    cases hunfin

theorem decode (h : st.Visited (p :: rest) s) (hfin : (s.sched.groups p).allFinished = false)
    (hfits : s.decodeFits p) : st.Visited rest (s.decodeGroup p) := by
  obtain ⟨pre, hsplit, hsub, hvisited⟩ := h.visited
  have hsched : (s.decodeGroup p).output.scheduledGroups = s.output.scheduledGroups ++ [p] := rfl
  refine ⟨⟨pre ++ [p], by simpa using hsplit, hsub.append (List.Sublist.refl [p]), ?_⟩, ?_, ?_, ?_⟩
  · intro q hq hunfin
    rw [hsched]
    rcases List.mem_append.1 hq with hq | hq
    · exact List.mem_append_left _ (hvisited q hq hunfin)
    · exact List.mem_append_right _ hq
  · intro q
    rw [decodeGroup_allFinished, h.same q]
  · intro q hq
    rw [hsched] at hq
    rcases List.mem_append.1 hq with hq | hq
    · exact h.unfinished q hq
    · rw [List.mem_singleton.1 hq, ← h.same p, hfin]
  · have hplaces := h.places
    have hseqs := hfits.2.1
    have hcharge : (s.decodeGroup p).budgetSeqs = s.budgetSeqs - 1 := rfl
    rw [hsched, hcharge, List.length_append, List.length_singleton]
    omega

/-- The loop visits all running groups, or stops in front of one. -/
theorem loop (st : Scheduler) :
    ∃ l, st.Visited l (decodeLoop st.running st.beginSchedule).1 ∧
      ((decodeLoop st.running st.beginSchedule).2 = false → l = []) := by
  rcases decodeLoop_induct (P := st.Visited) (fun p rest s hfin h => h.skip hfin)
    (fun p rest s hfin hfits h => h.decode hfin hfits) st.running st.beginSchedule (begin st) with
    ⟨-, h⟩ | ⟨hflag, p, rest, h, -⟩
  · exact ⟨[], h, fun _ => rfl⟩
  · refine ⟨p :: rest, h, fun hfalse => ?_⟩
    rw [hflag] at hfalse
    cases hfalse

/-- What the loop schedules is running, each group once. -/
theorem scheduled {l : List GroupPtr} (h : st.Visited l s) (hst : st.QueuesDisjoint) :
    (∀ p ∈ s.output.scheduledGroups, p ∈ st.running) ∧ s.output.scheduledGroups.Nodup := by
  obtain ⟨pre, hsplit, hsub, -⟩ := h.visited
  have hnodup := hst.nodup_running
  rw [hsplit] at hnodup ⊢
  exact ⟨fun p hp => List.mem_append_left _ (hsub.subset hp),
    hsub.nodup (List.nodup_append.1 hnodup).1⟩

end Visited

/-- The unfinished groups that run on without the decode loop having visited them. -/
def unvisited (st : Scheduler) : List GroupPtr :=
  (st.afterDecodes.sched.unfinishedIn st.afterDecodes.sched.running).filter
    (fun p => p ∉ st.afterDecodes.output.scheduledGroups)

/-- What the decode phase leaves: the groups scheduled are unfinished running groups, each charged with
    one place; without a preemption no other unfinished group is running. -/
structure DecodesCounted (st : Scheduler) : Prop where
  same : ∀ p, (st.afterDecodes.sched.groups p).allFinished = (st.groups p).allFinished
  unfinished : ∀ p ∈ st.afterDecodes.output.scheduledGroups, (st.groups p).allFinished = false
  places : st.afterDecodes.output.scheduledGroups.length + st.afterDecodes.budgetSeqs
    = st.config.maxNumSeqs
  running : ∀ p ∈ st.afterDecodes.output.scheduledGroups, p ∈ st.afterDecodes.sched.running
  nodup : st.afterDecodes.output.scheduledGroups.Nodup
  all : st.victim = none → st.unvisited = []

/-- A preemption leaves what the loop has counted as it is. -/
theorem PreemptsAt.decodesCounted {st : Scheduler} {s : ScheduleState} {l : List GroupPtr}
    (hat : st.PreemptsAt s) (hst : st.QueuesDisjoint) (hvis : st.Visited l s)
    (hrunning : s.sched.running = st.running) : st.DecodesCounted := by
  obtain ⟨hrun, hnodup⟩ := hvis.scheduled hst
  have hflag : (decodeLoop st.running st.beginSchedule).2 = true := congrArg Prod.snd hat
  rcases st.afterDecodes_victim.2 with ⟨hnone, -⟩ | ⟨v, init, hv, -, hlast, hinit, -⟩
  · -- a preemption has a victim
    obtain ⟨q, rest, ⟨-, pre', hsplit', -⟩, -⟩ := hat.split
    rw [Scheduler.victim, if_pos hflag, List.getLast?_eq_none_iff, hsplit'] at hnone
    simp at hnone
  · have hsched := preempt_scheduledGroups s
    have hbudget := (preempt_budgets s).2
    have hnot := victim_not_decoded hst hv
    rw [← hat.afterDecodes] at hsched hbudget
    refine ⟨?_, ?_, ?_, ?_, ?_, ?_⟩
    · intro p
      rw [hat.afterDecodes, preempt_allFinished (hrunning.trans hlast), hvis.same]
    · rw [hsched]
      exact hvis.unfinished
    · rw [hsched, hbudget]
      exact hvis.places
    · intro p hp
      rw [hinit]
      rw [hsched] at hp hnot
      apply mem_of_mem_concat (hlast ▸ hrun p hp)
      rintro rfl
      exact hnot hp
    · rw [hsched]
      exact hnodup
    · intro hnone
      rw [hv] at hnone
      cases hnone

/-- Without a preemption the loop visits everyone. -/
theorem Visited.decodesCounted {st : Scheduler} (hvis : st.Visited [] st.afterDecodes)
    (hst : st.QueuesDisjoint) (hrunning : st.afterDecodes.sched.running = st.running) :
    st.DecodesCounted := by
  obtain ⟨pre, hsplit, -, hall⟩ := hvis.visited
  obtain ⟨hrun, hnodup⟩ := hvis.scheduled hst
  rw [List.append_nil] at hsplit
  refine ⟨hvis.same, hvis.unfinished, hvis.places, ?_, hnodup, fun _ => ?_⟩
  · rw [hrunning]
    exact hrun
  · rw [unvisited, hrunning, List.filter_eq_nil_iff]
    intro p hp
    obtain ⟨hp, hunfin⟩ := List.mem_filter.1 hp
    rw [hsplit] at hp
    have hunfin' : (st.groups p).allFinished = false := by
      rw [← hvis.same p]
      simpa using hunfin
    simp [hall p hp hunfin']

theorem decodesCounted {st : Scheduler} (hst : st.QueuesDisjoint) : st.DecodesCounted := by
  obtain ⟨l, hvis, hend⟩ := Visited.loop st
  have hrunning := st.decodeLoop_frame.1
  by_cases hflag : (decodeLoop st.running st.beginSchedule).2 = true
  · have hat : st.PreemptsAt (decodeLoop st.running st.beginSchedule).1 := Prod.ext rfl hflag
    exact hat.decodesCounted hst hvis hrunning
  · have hafter : st.afterDecodes = (decodeLoop st.running st.beginSchedule).1 := by
      simp only [afterDecodes, scheduleDecodes]
      exact if_neg hflag
    rw [hend (by simpa using hflag), ← hafter] at hvis
    rw [← hafter] at hrunning
    exact hvis.decodesCounted hst hrunning

/-- The unfinished running groups are those scheduled and those not visited. -/
theorem DecodesCounted.length_unfinished {st : Scheduler} (h : st.DecodesCounted)
    (hnodup : st.afterDecodes.sched.running.Nodup) :
    (st.afterDecodes.sched.unfinishedIn st.afterDecodes.sched.running).length
      = st.afterDecodes.output.scheduledGroups.length + st.unvisited.length := by
  have hsplit := List.filter_append_perm
    (fun p => decide (p ∈ st.afterDecodes.output.scheduledGroups))
    (st.afterDecodes.sched.unfinishedIn st.afterDecodes.sched.running)
  have hsched : ((st.afterDecodes.sched.unfinishedIn st.afterDecodes.sched.running).filter
      (fun p => p ∈ st.afterDecodes.output.scheduledGroups)).Perm
        st.afterDecodes.output.scheduledGroups := by
    refine (List.perm_ext_iff_of_nodup ((hnodup.filter _).filter _) h.nodup).2 (fun p => ?_)
    simp only [List.mem_filter, decide_eq_true_eq]
    refine ⟨fun hp => hp.2, fun hp => ⟨⟨h.running p hp, ?_⟩, hp⟩⟩
    rw [h.same, h.unfinished p hp]
    rfl
  rw [← hsplit.length_eq, List.length_append, hsched.length_eq, unvisited]
  simp only [decide_not]

/-! ## One call -/

/-- Every queued group has a sequence. -/
def NonEmpty (st : Scheduler) : Prop := ∀ p ∈ st.queued, (st.groups p).sequences ≠ []

/-- No phase removes a sequence from its group. -/
theorem afterDecodes_nonempty (st : Scheduler) :
    ∀ q, (st.groups q).sequences ≠ [] → (st.afterDecodes.sched.groups q).sequences ≠ [] := by
  refine st.afterDecodes_invariant (P := fun s => ∀ q, (st.groups q).sequences ≠ [] →
    (s.sched.groups q).sequences ≠ []) (fun _ h => h) ?_ ?_
  · exact fun s p _ h _ _ _ q hq => (decodeGroup_keepsFinished s p q).nonempty (h q hq)
  · exact fun s init v h _ hv q hq => (preempt_keepsFinished hv q).nonempty (h q hq)

theorem afterSwapIn_nonempty (st : Scheduler) :
    ∀ q, (st.groups q).sequences ≠ [] → (st.afterSwapIn.sched.groups q).sequences ≠ [] := by
  refine st.afterSwapIn_invariant_of (P := fun s => ∀ q, (st.groups q).sequences ≠ [] →
    (s.sched.groups q).sequences ≠ []) ?_ ?_ ?_
  · rw [st.beforePrefills_eq.2.1]
    exact st.afterDecodes_nonempty
  · intro s p rest h _ _ _ q hq
    exact admitGroup_nonempty s p rest q (h q hq)
  · intro s p rest h _ _ q hq
    exact (swapInGroup_keepsFinished s p rest q).nonempty (h q hq)

/-- Who has been admitted runs when the prefill phase ends. -/
theorem afterPrefills_allFinished {st : Scheduler} (hst : st.QueuesDisjoint) (hne : st.NonEmpty)
    {p : GroupPtr} (hp : p ∈ st.afterDecodes.admits) :
    (st.afterPrefills.sched.groups p).allFinished = false := by
  have hshuffle := st.afterDecodes_shuffles
  obtain ⟨hadm, -⟩ := admissions_eq_admits hst
  obtain ⟨-, hgroups, -, hrun, -, -⟩ := st.beforePrefills_eq
  -- who runs now and did not when the phase began has been admitted, and runs
  have hphase := st.afterPrefills_invariant
    (P := fun s => st.Shuffles s ∧ (∀ q ∈ st.queued, (s.sched.groups q).sequences ≠ []) ∧
      ∀ q ∈ s.sched.running, q ∈ st.afterDecodes.sched.running ∨
        (s.sched.groups q).allFinished = false)
    ⟨hshuffle.sort, fun q hq => hgroups ▸ st.afterDecodes_nonempty q (hne q hq),
      fun q hq => Or.inl (hrun ▸ hq)⟩ ?_
  · have hmem : p ∈ st.afterPrefills.sched.running := by
      rw [afterPrefills_eq, (prefillLoop_running _ _).1]
      exact List.mem_append_right _ (hadm.symm ▸ hp)
    refine (hphase.2.2 p hmem).resolve_left (fun hold => ?_)
    exact (hshuffle.queues hst).disjoint_running_waiting hold
      (mem_sortedWaiting.1 (List.mem_of_mem_take hp))
  · rintro s q rest ⟨hs, hnonempty, hnew⟩ _ hwait _
    have hq : (s.sched.groups q).sequences ≠ [] :=
      hnonempty q (hs.queued.mem_iff.1 (WellFormed.mem_waiting (by rw [hwait]; simp)))
    refine ⟨hs.prefill hwait, fun r hr => admitGroup_nonempty s q rest r (hnonempty r hr),
      fun r hr => ?_⟩
    · by_cases hrq : r = q
      · subst hrq
        exact Or.inr (admitGroup_allFinished s rest hq)
      · rw [groups_admitGroup_of_ne hrq]
        exact hnew r (mem_of_mem_concat hr hrq)

theorem afterSwapIn_allFinished (st : Scheduler) (p : GroupPtr) :
    (st.afterSwapIn.sched.groups p).allFinished = (st.afterPrefills.sched.groups p).allFinished :=
  st.afterSwapIn_of_prefills
    (P := fun s => (s.sched.groups p).allFinished = (st.afterPrefills.sched.groups p).allFinished) rfl
    (fun s q rest h _ _ => (swapInGroup_allFinished s q rest p).trans h)

/-- **The unfinished running groups after a call**: those the decode phase leaves, those admitted and the
    unfinished ones swapped in. -/
theorem unfinishedIn_schedule {st : Scheduler} (hst : st.QueuesDisjoint) (hne : st.NonEmpty) :
    st.schedule.2.unfinishedIn st.schedule.2.running
      = st.afterDecodes.sched.unfinishedIn st.afterDecodes.sched.running ++
        (st.afterDecodes.admits ++ st.afterDecodes.sched.unfinishedIn st.afterDecodes.resumes) := by
  obtain ⟨-, -, -, hrun, -⟩ := schedule_serves hst
  obtain ⟨-, -, hframe⟩ := admissions_eq_admits hst
  obtain ⟨-, -, hdisj⟩ := beforePrefills_nodup hst
  have hq := st.afterDecodes_shuffles.queues hst
  have hfinal : ∀ p, (st.schedule.2.groups p).allFinished
      = (st.afterPrefills.sched.groups p).allFinished := st.afterSwapIn_allFinished
  -- outside the admissions the answer is that of the decode phase
  have hkept : ∀ l : List GroupPtr, (∀ p ∈ l, p ∉ st.afterDecodes.sched.waiting) →
      st.schedule.2.unfinishedIn l = st.afterDecodes.sched.unfinishedIn l := by
    intro l hl
    refine List.filter_congr (fun p hp => ?_)
    rw [hfinal, hframe p (fun hadm => hl p hp (mem_sortedWaiting.1 (List.mem_of_mem_take hadm)))]
  have hadmitted : st.schedule.2.unfinishedIn st.afterDecodes.admits = st.afterDecodes.admits := by
    refine List.filter_eq_self.2 (fun p hp => ?_)
    rw [hfinal, afterPrefills_allFinished hst hne hp]
    rfl
  have hrunning := hkept st.afterDecodes.sched.running (fun p hp => hq.disjoint_running_waiting hp)
  have hresumed := hkept st.afterDecodes.resumes (fun p hp hw =>
    hdisj p (List.mem_of_mem_take hp) (mem_sortedWaiting.2 hw))
  have happend : ∀ l l' : List GroupPtr, st.schedule.2.unfinishedIn (l ++ l')
      = st.schedule.2.unfinishedIn l ++ st.schedule.2.unfinishedIn l' :=
    fun l l' => List.filter_append ..
  rw [hrun, happend, happend, hrunning, hadmitted, hresumed]

/-- If the call preempts, the budget the decode phase leaves has places for the groups it has not visited
    besides those that find room. -/
def WithinLimit (st : Scheduler) : Prop :=
  st.victim = none ∨
  st.unvisited.length + st.afterDecodes.admits.length
    + (st.afterDecodes.sched.unfinishedIn st.afterDecodes.resumes).length
      ≤ st.afterDecodes.budgetSeqs

instance (st : Scheduler) : Decidable st.WithinLimit := inferInstanceAs (Decidable (_ ∨ _))

/-- **One call** ends within the limit exactly when it is `WithinLimit`. -/
theorem schedule_within_iff {st : Scheduler} (hst : st.QueuesDisjoint) (hne : st.NonEmpty) :
    st.schedule.2.numUnfinishedRunning ≤ st.config.maxNumSeqs ↔ st.WithinLimit := by
  have hcount := decodesCounted hst
  have hplaces := hcount.places
  have hlen := hcount.length_unfinished (st.afterDecodes_shuffles.queues hst).nodup_running
  rw [numUnfinishedRunning, unfinishedIn_schedule hst hne, List.length_append, List.length_append, hlen,
    WithinLimit]
  refine ⟨fun h => Or.inr (by omega), ?_⟩
  rintro (hnone | h)
  · -- all running groups have been charged, and so is everyone who joins them
    have hvisited : st.unvisited.length = 0 := by rw [hcount.all hnone, List.length_nil]
    have hroom := st.afterDecodes.admits_add_resumes_le
    have hresumes : (st.afterDecodes.sched.unfinishedIn st.afterDecodes.resumes).length
        ≤ st.afterDecodes.resumes.length := List.length_filter_le ..
    omega
  · omega

/-! ## Runs -/

/-- What every run keeps: no group is queued twice, queued groups are stored and have sequences. -/
structure Kept (config : SchedulerConfig) (st : Scheduler) : Prop where
  config : st.config = config
  queues : st.QueuesDisjoint
  stored : ∀ p ∈ st.queued, p < st.next
  nonempty : st.NonEmpty

/-- The running queue of `st'` has at most lost unfinished groups; priorities are the same. -/
structure Recedes (st st' : Scheduler) : Prop where
  sublist : (st'.unfinishedIn st'.running).Sublist (st.unfinishedIn st.running)
  priority : ∀ p ∈ st.running, (st'.groups p).priority = (st.groups p).priority

/-- `update_after_decode` touches sequences and times only. -/
theorem updateGroups_priority (now : TimePoint) (ps : List GroupPtr)
    (groups : GroupPtr → SequenceGroup) (toks : List TokenId) (q : GroupPtr) :
    (BatchManager.updateGroups now ps groups toks q).priority = (groups q).priority := by
  induction ps generalizing groups toks with
  | nil => rfl
  | cons p rest ih =>
      rw [BatchManager.updateGroups, ih]
      by_cases hq : q = p
      · subst hq
        rw [Function.update_self]
      · rw [Function.update_of_ne hq]

namespace Kept

variable {config : SchedulerConfig} {st : Scheduler}

theorem new (config : SchedulerConfig) (bm : BlockManager) : (Scheduler.new config bm).Kept config :=
  ⟨rfl, List.nodup_nil, fun _ hp => absurd hp List.not_mem_nil,
    fun _ hp => absurd hp List.not_mem_nil⟩

theorem addRequest (h : st.Kept config) {group : SequenceGroup} (hgroup : group.sequences ≠ []) :
    (st.addRequest group).Kept config := by
  have hperm := st.addRequest_queued group
  have hfresh : st.next ∉ st.queued := fun hmem => Nat.lt_irrefl _ (h.stored _ hmem)
  refine ⟨h.config, hperm.nodup_iff.2 (List.nodup_cons.2 ⟨hfresh, h.queues⟩), fun p hp => ?_,
    fun p hp => ?_⟩
  · rcases List.mem_cons.1 (hperm.mem_iff.1 hp) with rfl | hp
    · exact Nat.lt_succ_self _
    · exact Nat.lt_succ_of_lt (h.stored p hp)
  · rcases List.mem_cons.1 (hperm.mem_iff.1 hp) with rfl | hp
    · rw [st.groups_addRequest_self]
      exact hgroup
    · rw [st.groups_addRequest_of_lt group (h.stored p hp)]
      exact h.nonempty p hp

/-- Operations that add nothing to the queues and keep the finished sequences. -/
theorem of_keepsGroups (h : st.Kept config) {st' : Scheduler} (hconfig : st'.config = st.config)
    (hsub : st'.queued.Sublist st.queued) (hkeep : KeepsGroups st st') : st'.Kept config :=
  ⟨hconfig.trans h.config, hsub.nodup h.queues,
    fun p hp => Nat.lt_of_lt_of_le (h.stored p (hsub.subset hp)) hkeep.1,
    fun p hp => (hkeep.2 p (h.stored p (hsub.subset hp))).nonempty (h.nonempty p (hsub.subset hp))⟩

theorem schedule (h : st.Kept config) : st.schedule.2.Kept config := by
  obtain ⟨-, hnext, hconfig⟩ := st.schedule_frame
  have hperm : st.schedule.2.queued.Perm st.queued := st.schedule_shuffles.queued
  refine ⟨hconfig.trans h.config, hperm.nodup_iff.2 h.queues, fun p hp => ?_, fun p hp => ?_⟩
  · rw [hnext]
    exact h.stored p (hperm.mem_iff.1 hp)
  · exact st.afterSwapIn_nonempty p (h.nonempty p (hperm.mem_iff.1 hp))

/-- Finished groups stay finished, so groups are at most taken out. -/
theorem recedes (h : st.Kept config) {st' : Scheduler} (hrun : st'.running.Sublist st.running)
    (hkeep : KeepsGroups st st')
    (hpriority : ∀ p < st.next, (st'.groups p).priority = (st.groups p).priority) :
    Recedes st st' := by
  have hlt : ∀ p ∈ st.running, p < st.next := fun p hp => h.stored p (WellFormed.mem_running hp)
  refine ⟨?_, fun p hp => hpriority p (hlt p hp)⟩
  have htwice : st'.unfinishedIn st'.running = st'.unfinishedIn (st.unfinishedIn st'.running) := by
    rw [unfinishedIn, unfinishedIn, unfinishedIn, List.filter_filter]
    refine List.filter_congr (fun p hp => ?_)
    cases hfin : (st.groups p).allFinished with
    | false => simp
    | true =>
        have hsame := (hkeep.2 p (hlt p (hrun.subset hp))).eq_of_all hfin
        have hfin' : (st'.groups p).allFinished = true := by
          rw [SequenceGroup.allFinished, hsame]
          exact hfin
        simp [hfin']
  rw [htwice]
  exact List.filter_sublist.trans (hrun.filter _)

/-- Apart from `schedule()` every operation at most takes unfinished groups out of the running queue. -/
theorem step (h : st.Kept config) {op : Op} (hop : ClientOp st op) :
    (st.step op).Kept config ∧ (op ≠ .schedule → Recedes st (st.step op)) := by
  cases op with
  | addRequest group =>
      have hkeep := st.step_keepsGroups (.addRequest group) hop
      refine ⟨h.addRequest hop, fun _ => h.recedes (List.Sublist.refl _) hkeep (fun p hp => ?_)⟩
      exact congrArg SequenceGroup.priority (st.groups_addRequest_of_lt group hp)
  | abortRequest id =>
      have hsame := st.abortRequest_sameQueues id
      have hkeep := st.abortRequest_keepsGroups id
      have hqueued : (st.abortRequest id).queued.Sublist st.queued := by simp [hsame.queued]
      have hrun : (st.abortRequest id).running.Sublist st.running := by simp [hsame.running]
      exact ⟨h.of_keepsGroups hsame.config hqueued hkeep,
        fun _ => h.recedes hrun hkeep (fun p _ => (hsame.same p).priority)⟩
  | schedule => exact ⟨h.schedule, fun hne => absurd rfl hne⟩
  | updateAfterDecode out toks now =>
      have hkeep := st.step_keepsGroups (.updateAfterDecode out toks now) trivial
      exact ⟨h.of_keepsGroups rfl (List.Sublist.refl _) hkeep, fun _ =>
        h.recedes (List.Sublist.refl _) hkeep (fun p _ => updateGroups_priority now _ _ toks p)⟩
  | freeFinishedRequests =>
      have hkeep := st.step_keepsGroups .freeFinishedRequests trivial
      have hconfig : st.freeFinishedRequests.config = st.config := by rw [freeFinishedRequests_eq]
      have hrun : st.freeFinishedRequests.running.Sublist st.running := by
        rw [freeFinishedRequests_eq]
        exact List.filter_sublist
      refine ⟨h.of_keepsGroups hconfig st.freeFinishedRequests_queued_sublist hkeep,
        fun _ => h.recedes hrun hkeep (fun p _ => ?_)⟩
      rw [Scheduler.step, freeFinishedRequests_eq]

end Kept

/-- The condition on the calls of a run. -/
def WithinLimitOp (st : Scheduler) : Op → Prop
  | .schedule => st.WithinLimit
  | _ => True

instance (st : Scheduler) : (op : Op) → Decidable (st.WithinLimitOp op)
  | .schedule => inferInstanceAs (Decidable st.WithinLimit)
  | .addRequest _ | .abortRequest _ | .updateAfterDecode .. | .freeFinishedRequests => isTrue trivial

/-- An operation that meets the condition keeps the running queue within the limit. -/
theorem Kept.step_within {config : SchedulerConfig} {st : Scheduler} (h : st.Kept config)
    (hle : st.numUnfinishedRunning ≤ config.maxNumSeqs) {op : Op} (hop : ClientOp st op)
    (hlimit : st.WithinLimitOp op) :
    (st.step op).numUnfinishedRunning ≤ config.maxNumSeqs := by
  by_cases hsched : op = .schedule
  · subst hsched
    have hcall := (schedule_within_iff h.queues h.nonempty).2 hlimit
    rw [h.config] at hcall
    exact hcall
  · exact Nat.le_trans ((h.step hop).2 hsched).sublist.length_le hle

/-- **The running queue and `max_num_seqs`.** In every run, whatever the policy and the preemption mode,
    the running queue never has more than `max_num_seqs` unfinished groups exactly when every call that
    preempts has places left for the groups it has not visited. -/
theorem running_within_limit_iff (config : SchedulerConfig) (bm : BlockManager) (ops : List Op)
    (hops : AllOk step ClientOp (Scheduler.new config bm) ops) :
    (∀ pre post, ops = pre ++ post →
      (pre.foldl step (Scheduler.new config bm)).numUnfinishedRunning ≤ config.maxNumSeqs) ↔
    AllOk step WithinLimitOp (Scheduler.new config bm) ops := by
  constructor
  · intro hlimit
    refine allOk_of_split ?_
    rintro pre op post rfl
    cases op with
    | schedule =>
        have hkept : (pre.foldl step (Scheduler.new config bm)).Kept config :=
          (allOk_append.1 hops).1.invariant (Kept.new config bm) (fun st op h hop => (h.step hop).1)
        have hafter := hlimit (pre ++ [.schedule]) post (by simp)
        rw [List.foldl_append] at hafter
        refine (schedule_within_iff hkept.queues hkept.nonempty).1 ?_
        rw [hkept.config]
        exact hafter
    | addRequest | abortRequest | updateAfterDecode | freeFinishedRequests => trivial
  · rintro hlimit pre post rfl
    have hboth := allOk_and.2 ⟨(allOk_append.1 hops).1, (allOk_append.1 hlimit).1⟩
    have hend := hboth.invariant (P := fun st => st.Kept config ∧
        st.numUnfinishedRunning ≤ config.maxNumSeqs) ⟨Kept.new config bm, Nat.zero_le _⟩
      (fun st op h hop => ⟨(h.1.step hop.1).1, h.1.step_within h.2 hop.1 hop.2⟩)
    exact hend.2

/-- Three requests are admitted and fill the pool; the first then needs a block more. The requests `late`
    are waiting behind them. -/
def fillingRun (late : List SequenceGroup) : List Op :=
  [.addRequest (SequenceGroup.new 0 [1, 2] {}), .addRequest (SequenceGroup.new 1 [1, 2] {}),
    .addRequest (SequenceGroup.new 2 [1, 2, 3] {})] ++ late.map Op.addRequest ++
  [.freeFinishedRequests, .schedule,
    .updateAfterDecode { scheduledGroups := [0, 1, 2], numBatchedTokens := 7 } [9, 9, 9] 0,
    .freeFinishedRequests, .schedule]

def fourBlocks : Scheduler :=
  Scheduler.new { maxNumSeqs := 3 }
    (BlockManager.new { numGpuBlocks := 4, numCpuBlocks := 2, blockSize := 2 })

/-- The last group is swapped out, one newcomer takes its place. -/
theorem oneLate_within_limit :
    ((fillingRun [SequenceGroup.new 3 [1] {}]).foldl step fourBlocks).running = [0, 1, 3] ∧
    ((fillingRun [SequenceGroup.new 3 [1] {}]).foldl step fourBlocks).numUnfinishedRunning ≤ 3 :=
  ⟨by decide, (running_within_limit_iff _ _ (fillingRun [SequenceGroup.new 3 [1] {}])
    (by decide)).2 (by decide) _ [] (by simp)⟩

/-- Two newcomers take the blocks of the last group: four groups run where three may. -/
theorem twoLate_over_limit :
    AllOk step ClientOp fourBlocks (fillingRun [SequenceGroup.new 3 [1] {}, SequenceGroup.new 4 [1] {}]) ∧
    ¬ ∀ pre post, fillingRun [SequenceGroup.new 3 [1] {}, SequenceGroup.new 4 [1] {}] = pre ++ post →
      (pre.foldl step fourBlocks).numUnfinishedRunning ≤ 3 := by
  refine ⟨by decide, fun hlimit => ?_⟩
  exact absurd (hlimit _ [] (List.append_nil _).symm) (by decide)

end Scheduler

end CacheFlow
