import CacheFlow.Scheduler.Phases

set_option autoImplicit false

/-! # Finished sequences stay finished

Every phase but one looks at `is_finished` before it touches a sequence. The prefill phase does not:
`schedule_prefills` sets the status of all sequences of the admitted group to `RUNNING`. A group that
is aborted while it waits, or that is preempted for recomputation with a finished sequence in it, comes
back to life when it is admitted.

`SchedulesClean` is the condition that no admission of a call finds a finished sequence. As long as it
holds at every call, a finished sequence is never changed again. -/

namespace CacheFlow.Scheduler

open ScheduleState Run

/-- No admission of the call starting in `st` finds a finished sequence. -/
def SchedulesClean (st : Scheduler) : Prop :=
  ∀ x ∈ st.admissions, ∀ seq ∈ (x.1.sched.groups x.2).sequences, seq.isFinished = false

instance (st : Scheduler) : Decidable st.SchedulesClean :=
  inferInstanceAs (Decidable (∀ x ∈ st.admissions, ∀ seq ∈ (x.1.sched.groups x.2).sequences,
    seq.isFinished = false))

/-- What a client may do: anything, as long as its requests have a sequence. -/
def ClientOp (_ : Scheduler) : Op → Prop
  | .addRequest group => group.sequences ≠ []
  | _ => True

/-- What a client may do, with the condition on `schedule()`. -/
def CleanOp (st : Scheduler) : Op → Prop
  | .addRequest group => group.sequences ≠ []
  | .schedule => st.SchedulesClean
  | _ => True

instance (st : Scheduler) : (op : Op) → Decidable (ClientOp st op)
  | .addRequest group => inferInstanceAs (Decidable (group.sequences ≠ []))
  | .abortRequest _ | .schedule | .updateAfterDecode .. | .freeFinishedRequests => isTrue trivial

instance (st : Scheduler) : (op : Op) → Decidable (CleanOp st op)
  | .addRequest group => inferInstanceAs (Decidable (group.sequences ≠ []))
  | .schedule => inferInstanceAs (Decidable st.SchedulesClean)
  | .abortRequest _ | .updateAfterDecode .. | .freeFinishedRequests => isTrue trivial

/-! ## Lists of sequences whose finished members stay as they are -/

/-- The finished sequences of `seqs` stand unchanged in `seqs'`. -/
def KeepsFinished (seqs seqs' : List SequenceData) : Prop :=
  List.Forall₂ (fun seq seq' => seq.isFinished = true → seq' = seq) seqs seqs'

namespace KeepsFinished

theorem refl (seqs : List SequenceData) : KeepsFinished seqs seqs :=
  List.forall₂_same.2 (fun _ _ _ => rfl)

theorem trans {as bs cs : List SequenceData} (hab : KeepsFinished as bs)
    (hbc : KeepsFinished bs cs) : KeepsFinished as cs := by
  induction hab generalizing cs with
  | nil => exact hbc
  | cons hab _ ih =>
      cases hbc with
      | cons hbc hrest =>
          refine List.Forall₂.cons (fun hfin => ?_) (ih hrest)
          have heq := hab hfin
          subst heq
          exact hbc hfin

/-- A list of finished sequences can only be kept as it is. -/
theorem eq_of_all {as bs : List SequenceData} (h : KeepsFinished as bs)
    (hall : as.all SequenceData.isFinished = true) : bs = as := by
  induction h with
  | nil => rfl
  | cons hab _ ih =>
      rw [List.all_cons, Bool.and_eq_true] at hall
      rw [hab hall.1, ih hall.2]

theorem finished {as bs : List SequenceData} (h : KeepsFinished as bs) :
    List.Forall₂ (fun seq seq' => seq.isFinished = true → seq'.isFinished = true) as bs :=
  h.imp (fun _ _ hab hfin => by rw [hab hfin]; exact hfin)

theorem nonempty {as bs : List SequenceData} (h : KeepsFinished as bs) (hne : as ≠ []) :
    bs ≠ [] := by
  intro hnil
  have hlen := h.length_eq
  rw [hnil] at hlen
  exact hne (List.length_eq_zero_iff.1 hlen)

end KeepsFinished

/-- A loop whose body returns finished sequences as they are keeps them. -/
theorem threadSequences_keepsFinished {σ : Type} {f : σ → SequenceData → SequenceData × σ}
    (hf : ∀ s seq, seq.isFinished = true → (f s seq).1 = seq) (s : σ) (seqs : List SequenceData) :
    KeepsFinished seqs (threadSequences f s seqs).1 := by
  induction seqs generalizing s with
  | nil => exact List.Forall₂.nil
  | cons seq rest ih => exact List.Forall₂.cons (hf s seq) (ih _)

/-- On unfinished sequences there is nothing to keep. -/
theorem threadSequences_keepsFinished_of_none {σ : Type} (f : σ → SequenceData → SequenceData × σ)
    (s : σ) (seqs : List SequenceData) (hnone : ∀ seq ∈ seqs, seq.isFinished = false) :
    KeepsFinished seqs (threadSequences f s seqs).1 := by
  induction seqs generalizing s with
  | nil => exact List.Forall₂.nil
  | cons seq rest ih =>
      refine List.Forall₂.cons (fun hfin => ?_) (ih _ (fun x hx => hnone x (by simp [hx])))
      rw [hnone seq (by simp)] at hfin
      cases hfin

theorem updateSequences_keepsFinished (maxTokens : Int) (now : TimePoint)
    (seqs : List SequenceData) (first : Option TimePoint) (toks : List TokenId) :
    KeepsFinished seqs (BatchManager.updateSequences maxTokens now seqs first toks).1 := by
  induction seqs generalizing first toks with
  | nil => exact List.Forall₂.nil
  | cons seq rest ih =>
      by_cases hfin : seq.isFinished
      · simp only [BatchManager.updateSequences, hfin, if_true]
        exact List.Forall₂.cons (fun _ => rfl) (ih first toks)
      · cases toks with
        | nil =>
            simp only [BatchManager.updateSequences, hfin]
            exact KeepsFinished.refl _
        | cons tok toks =>
            simp only [BatchManager.updateSequences, hfin]
            exact List.Forall₂.cons (fun h => absurd h hfin) (ih _ toks)

/-! ## One operation -/

/-- Every group stored before the operation keeps its finished sequences. -/
def KeepsGroups (st st' : Scheduler) : Prop :=
  st.next ≤ st'.next ∧ ∀ p < st.next, KeepsFinished (st.groups p).sequences (st'.groups p).sequences

theorem KeepsGroups.refl (st : Scheduler) : KeepsGroups st st :=
  ⟨Nat.le_refl _, fun _ _ => KeepsFinished.refl _⟩

theorem KeepsGroups.trans {a b c : Scheduler} (hab : KeepsGroups a b) (hbc : KeepsGroups b c) :
    KeepsGroups a c :=
  ⟨Nat.le_trans hab.1 hbc.1, fun p hp =>
    (hab.2 p hp).trans (hbc.2 p (Nat.lt_of_lt_of_le hp hab.1))⟩

/-- Writing back kept sequences keeps every group. -/
theorem keepsFinished_update (groups : GroupPtr → SequenceGroup) {p : GroupPtr}
    {seqs : List SequenceData} (h : KeepsFinished (groups p).sequences seqs) (q : GroupPtr) :
    KeepsFinished (groups q).sequences
      (Function.update groups p { groups p with sequences := seqs } q).sequences := by
  by_cases hq : q = p
  · subst hq
    rw [Function.update_self]
    exact h
  · rw [Function.update_of_ne hq]
    exact KeepsFinished.refl _

theorem preempt_keepsFinished {s : ScheduleState} {init : List GroupPtr} {v : GroupPtr}
    (hv : s.sched.running = init ++ [v]) (q : GroupPtr) :
    KeepsFinished (s.sched.groups q).sequences (s.preempt.sched.groups q).sequences := by
  rw [preempt_eq hv]
  cases s.sched.config.preemptionMode with
  | swap =>
      refine keepsFinished_update _ (threadSequences_keepsFinished ?_ _ _) q
      intro st seq hfin
      simp [swapOutSequence, hfin]
  | recompute =>
      refine keepsFinished_update _ (threadSequences_keepsFinished ?_ _ _) q
      intro st seq hfin
      simp [recomputeSequence, hfin]

theorem decodeGroup_keepsFinished (s : ScheduleState) (p q : GroupPtr) :
    KeepsFinished (s.sched.groups q).sequences ((s.decodeGroup p).sched.groups q).sequences := by
  refine keepsFinished_update _ (threadSequences_keepsFinished ?_ _ _) q
  intro bm seq hfin
  simp [appendBlocks, hfin]

theorem swapInGroup_keepsFinished (s : ScheduleState) (p : GroupPtr) (rest : List GroupPtr)
    (q : GroupPtr) :
    KeepsFinished (s.sched.groups q).sequences
      ((s.swapInGroup p rest).sched.groups q).sequences := by
  refine keepsFinished_update _ (threadSequences_keepsFinished ?_ _ _) q
  intro st seq hfin
  simp [swapInSequence, hfin]

/-- A clean call keeps every finished sequence, and a group with only finished sequences is neither
    scheduled nor changed. -/
theorem schedule_keepsFinished {st : Scheduler} (hclean : st.SchedulesClean) (q : GroupPtr) :
    KeepsFinished (st.groups q).sequences (st.schedule.2.groups q).sequences ∧
    ((st.groups q).allFinished = true → (st.groups q).sequences ≠ [] →
      q ∉ st.schedule.1.scheduledGroups) := by
  -- a group whose sequences are kept still has none but finished ones
  have hstill : ∀ s : ScheduleState, (st.groups q).allFinished = true →
      KeepsFinished (st.groups q).sequences (s.sched.groups q).sequences →
      (s.sched.groups q).sequences = (st.groups q).sequences :=
    fun s hall hkeep => hkeep.eq_of_all hall
  refine st.afterSwapIn_invariant (P := fun s =>
    KeepsFinished (st.groups q).sequences (s.sched.groups q).sequences ∧
    ((st.groups q).allFinished = true → (st.groups q).sequences ≠ [] →
      q ∉ s.output.scheduledGroups)) ?_ ?_ ?_ ?_ ?_ ?_
  · exact ⟨KeepsFinished.refl _, fun _ _ => List.not_mem_nil⟩
  · rintro s p rest ⟨hkeep, hsched⟩ - hfin -
    refine ⟨hkeep.trans (decodeGroup_keepsFinished s p q), fun hall hne hmem => ?_⟩
    rcases List.mem_append.1 hmem with hmem | hmem
    · exact hsched hall hne hmem
    · -- the loop has just seen that `p` is not finished
      obtain rfl := List.mem_singleton.1 hmem
      rw [SequenceGroup.allFinished, hstill s hall hkeep] at hfin
      exact absurd hall (by simp [SequenceGroup.allFinished, hfin])
  · rintro s init v ⟨hkeep, hsched⟩ - hv
    refine ⟨hkeep.trans (preempt_keepsFinished hv q), fun hall hne => ?_⟩
    rw [preempt_eq hv]
    cases s.sched.config.preemptionMode <;> exact hsched hall hne
  · rintro s ⟨hkeep, hsched⟩
    obtain ⟨w, -, hw⟩ := s.sched.sortWaitingQueue_eq
    rw [hw]
    exact ⟨hkeep, hsched⟩
  · rintro s p rest ⟨hkeep, hsched⟩ hadm - -
    have hnone := hclean (s, p) hadm
    refine ⟨hkeep.trans (keepsFinished_update _
      (threadSequences_keepsFinished_of_none _ _ _ hnone) q), fun hall hne hmem => ?_⟩
    rcases List.mem_append.1 hmem with hmem | hmem
    · exact hsched hall hne hmem
    · -- a clean admission is of a group without finished sequences
      obtain rfl := List.mem_singleton.1 hmem
      obtain ⟨seq, hseq⟩ := List.exists_mem_of_ne_nil _ hne
      have hunfin := hnone seq (by rw [hstill s hall hkeep]; exact hseq)
      rw [List.all_eq_true.1 hall seq hseq] at hunfin
      cases hunfin
  · rintro s p rest ⟨hkeep, hsched⟩ - -
    exact ⟨hkeep.trans (swapInGroup_keepsFinished s p rest q), hsched⟩

theorem updateGroups_keepsFinished (now : TimePoint) (ps : List GroupPtr)
    (groups : GroupPtr → SequenceGroup) (toks : List TokenId) (q : GroupPtr) :
    KeepsFinished (groups q).sequences (BatchManager.updateGroups now ps groups toks q).sequences := by
  induction ps generalizing groups toks with
  | nil => exact KeepsFinished.refl _
  | cons p rest ih =>
      rw [BatchManager.updateGroups]
      refine KeepsFinished.trans ?_ (ih _ _)
      by_cases hq : q = p
      · subst hq
        rw [Function.update_self]
        exact updateSequences_keepsFinished _ _ _ _ _
      · rw [Function.update_of_ne hq]
        exact KeepsFinished.refl _

theorem abortRequest_keepsGroups (st : Scheduler) (id : SeqId) :
    KeepsGroups st (st.abortRequest id) := by
  unfold abortRequest
  split
  · exact KeepsGroups.refl st
  · refine ⟨Nat.le_refl _, fun p _ => ?_⟩
    refine keepsFinished_update _ (threadSequences_keepsFinished ?_ _ _) p
    intro bm seq hfin
    simp [abortSequence, hfin]

theorem step_keepsGroups (st : Scheduler) (op : Op) (hok : CleanOp st op) :
    KeepsGroups st (st.step op) := by
  cases op with
  | addRequest group =>
      refine ⟨Nat.le_succ _, fun p hp => ?_⟩
      simpa [step, addRequest, Function.update_of_ne (Nat.ne_of_lt hp)]
        using KeepsFinished.refl (st.groups p).sequences
  | abortRequest id => exact st.abortRequest_keepsGroups id
  | schedule =>
      exact ⟨st.schedule_frame.2.1.ge, fun p _ => (schedule_keepsFinished hok p).1⟩
  | updateAfterDecode out toks now =>
      exact ⟨Nat.le_refl _, fun p _ => updateGroups_keepsFinished now _ _ toks p⟩
  | freeFinishedRequests =>
      rw [step, freeFinishedRequests_eq]
      exact KeepsGroups.refl st

/-! ## Runs -/

/-- `request_map_` points to stored groups, and stored groups have sequences. -/
def Stored (st : Scheduler) : Prop :=
  (∀ id p, st.requestMap.lookup id = some p → p < st.next) ∧
  ∀ p < st.next, (st.groups p).sequences ≠ []

/-- Operations that only shrink `request_map_` and keep the groups keep `Stored`. -/
theorem Stored.of_keepsGroups {st st' : Scheduler} (h : Stored st) (hkeep : KeepsGroups st st')
    (hnext : st'.next = st.next)
    (hmap : ∀ id p, st'.requestMap.lookup id = some p → st.requestMap.lookup id = some p) :
    Stored st' := by
  refine ⟨fun id p hp => ?_, fun p hp => ?_⟩
  · rw [hnext]
    exact h.1 id p (hmap id p hp)
  · rw [hnext] at hp
    exact (hkeep.2 p hp).nonempty (h.2 p hp)

theorem lookup_erase_imp (m : AList (fun _ : SeqId => GroupPtr)) (k id : SeqId) (p : GroupPtr)
    (h : (m.erase k).lookup id = some p) : m.lookup id = some p := by
  by_cases hid : id = k
  · subst hid
    rw [AList.lookup_erase] at h
    cases h
  · rwa [AList.lookup_erase_ne hid] at h

theorem step_stored (st : Scheduler) (op : Op) (h : Stored st) (hok : CleanOp st op) :
    Stored (st.step op) := by
  have hkeep := st.step_keepsGroups op hok
  cases op with
  | addRequest group =>
      refine ⟨fun id p hp => ?_, fun p hp => ?_⟩
      · by_cases hid : id = group.requestId
        · subst hid
          simp only [step, addRequest, AList.lookup_insert, Option.some.injEq] at hp ⊢
          exact hp ▸ Nat.lt_succ_self _
        · simp only [step, addRequest, AList.lookup_insert_ne hid] at hp ⊢
          exact Nat.lt_succ_of_lt (h.1 id p hp)
      · simp only [step, addRequest] at hp ⊢
        by_cases hp' : p = st.next
        · subst hp'
          rw [Function.update_self]
          exact hok
        · rw [Function.update_of_ne hp']
          exact h.2 p (Nat.lt_of_le_of_ne (Nat.lt_succ_iff.1 hp) hp')
  | abortRequest id =>
      refine h.of_keepsGroups hkeep ?_ ?_
      · simp only [step, abortRequest]
        split <;> rfl
      · simp only [step, abortRequest]
        split
        · exact fun _ _ hp => hp
        · exact fun id' p hp => lookup_erase_imp _ _ _ _ hp
  | schedule =>
      refine h.of_keepsGroups hkeep st.schedule_frame.2.1 (fun id p hp => ?_)
      rwa [step, st.schedule_frame.1] at hp
  | updateAfterDecode out toks now =>
      exact h.of_keepsGroups hkeep rfl (fun _ _ hp => hp)
  | freeFinishedRequests =>
      refine h.of_keepsGroups hkeep ?_ (fun id p hp => ?_)
      · rw [step, freeFinishedRequests_eq]
      · rw [step, freeFinishedRequests_eq, lookup_eraseRequests] at hp
        split at hp
        · cases hp
        · exact hp

theorem reach_stored {config : SchedulerConfig} {bm : BlockManager} {st : Scheduler}
    (h : Reach step CleanOp (Scheduler.new config bm) st) : Stored st := by
  refine h.invariant (P := Stored) ⟨fun id p hp => ?_, fun p hp => ?_⟩ step_stored
  · simp [Scheduler.new] at hp
  · exact absurd hp (Nat.not_lt_zero p)

theorem reach_keepsGroups {st st' : Scheduler} (h : Reach step CleanOp st st') :
    KeepsGroups st st' :=
  h.preorder KeepsGroups.refl (fun _ _ _ => KeepsGroups.trans) step_keepsGroups

/-- After `abort_request` the group it found has only finished sequences. -/
theorem abortRequest_allFinished {st : Scheduler} {id : SeqId} {p : GroupPtr}
    (hp : st.requestMap.lookup id = some p) :
    ((st.abortRequest id).groups p).allFinished = true := by
  have hall : ∀ (bm : BlockManager) (seqs : List SequenceData),
      (threadSequences abortSequence bm seqs).1.all SequenceData.isFinished = true := by
    intro bm seqs
    induction seqs generalizing bm with
    | nil => rfl
    | cons seq rest ih =>
        simp only [threadSequences, List.all_cons, Bool.and_eq_true]
        refine ⟨?_, ih _⟩
        by_cases hfin : seq.isFinished = true
        · simp [abortSequence, hfin]
        · simp only [abortSequence, hfin]
          rfl
  simp only [abortRequest, hp, putSequences, SequenceGroup.allFinished, Function.update_self]
  exact hall _ _

/-- **Finished is final.** In a run whose `schedule()` calls admit no group with a finished sequence,
    a sequence that is finished stays finished, and a group that `abort_request` has found is never
    scheduled or given a block again. -/
theorem finished_final (config : SchedulerConfig) (cache : CacheConfig) {st st' : Scheduler}
    (hst : Reach step CleanOp (Scheduler.new config (BlockManager.new cache)) st)
    (hst' : Reach step CleanOp st st') :
    (∀ p < st.next, List.Forall₂ (fun seq seq' => seq.isFinished = true → seq'.isFinished = true)
      (st.groups p).sequences (st'.groups p).sequences) ∧
    (∀ id p, st.requestMap.lookup id = some p → ∀ st'', Reach step CleanOp (st.abortRequest id) st'' →
      st''.SchedulesClean →
      p ∉ st''.schedule.1.scheduledGroups ∧
      (st''.schedule.2.groups p).sequences = (st''.groups p).sequences) := by
  have hstored := reach_stored hst
  refine ⟨fun p hp => ((reach_keepsGroups hst').2 p hp).finished, ?_⟩
  intro id p hlookup st'' hst'' hclean
  have hlt : p < st.next := hstored.1 id p hlookup
  have habort : KeepsGroups st (st.abortRequest id) := st.abortRequest_keepsGroups id
  have hkeep := (reach_keepsGroups hst'').2 p (Nat.lt_of_lt_of_le hlt habort.1)
  have hall := abortRequest_allFinished hlookup
  have hsame : (st''.groups p).sequences = ((st.abortRequest id).groups p).sequences :=
    hkeep.eq_of_all hall
  have hall'' : (st''.groups p).allFinished = true := by
    rw [SequenceGroup.allFinished, hsame]
    exact hall
  have hne : (st''.groups p).sequences ≠ [] :=
    hkeep.nonempty ((habort.2 p hlt).nonempty (hstored.2 p hlt))
  obtain ⟨hsched, hnot⟩ := schedule_keepsFinished hclean p
  exact ⟨hnot hall'' hne, hsched.eq_of_all hall''⟩

/-- A scheduler with one request, added and not yet scheduled. -/
def oneWaiting : Scheduler :=
  (Scheduler.new {} (BlockManager.new { numGpuBlocks := 2, numCpuBlocks := 0, blockSize := 4 })).addRequest
    (.new 1 [7] {})

/-- A request aborted while it waits is running again after the next `schedule()`, which schedules it
    and gives it a block. -/
theorem aborted_waiting_revived :
    Reach step ClientOp
      (Scheduler.new {} (BlockManager.new { numGpuBlocks := 2, numCpuBlocks := 0, blockSize := 4 }))
      oneWaiting ∧
    oneWaiting.requestMap.lookup 1 = some 0 ∧
    ((oneWaiting.abortRequest 1).groups 0).sequences.map SequenceData.status = [.finishedAbort] ∧
    (oneWaiting.abortRequest 1).schedule.1.scheduledGroups = [0] ∧
    ((oneWaiting.abortRequest 1).schedule.2.groups 0).sequences.map SequenceData.status = [.running] ∧
    ((oneWaiting.abortRequest 1).schedule.2.groups 0).sequences.map SequenceData.logicalBlocks
      = [[0]] := by
  refine ⟨?_, by decide, by decide, by decide, by decide, by decide⟩
  exact Reach.of_allOk [Op.addRequest (.new 1 [7] {})] (by decide)

/-- The same request aborted while it runs: the later calls are clean and leave it alone. -/
theorem aborted_running_final :
    (oneWaiting.schedule.2.abortRequest 1).SchedulesClean ∧
    0 ∉ (oneWaiting.schedule.2.abortRequest 1).schedule.1.scheduledGroups := by
  have hclean : (oneWaiting.schedule.2.abortRequest 1).SchedulesClean := by decide
  have hst : Reach step CleanOp
      (Scheduler.new {} (BlockManager.new { numGpuBlocks := 2, numCpuBlocks := 0, blockSize := 4 }))
      oneWaiting.schedule.2 :=
    Reach.of_allOk [Op.addRequest (.new 1 [7] {}), Op.schedule] (by decide)
  exact ⟨hclean, ((finished_final _ _ hst (Reach.refl _)).2 1 0 (by decide) _ (Reach.refl _) hclean).1⟩

end CacheFlow.Scheduler
