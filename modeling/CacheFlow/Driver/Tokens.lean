import CacheFlow.Driver.Budgets
import CacheFlow.Scheduler.SeqLimit

set_option autoImplicit false

/-! # `num_batched_tokens` and the size of the batch

`schedule()` counts tokens by what it charges: one for each unfinished sequence of a group that decodes
or is swapped in, the first prompt of a group that is admitted. `build_batch` counts the entries it
makes: one for each unfinished sequence that has an output, the whole prompt for one that has none, and
only of the groups that are scheduled. The decode phase agrees with the batch, because in the driver
loop every unfinished sequence that is running or swapped out has an output (`Fed`). The two counts part
where a group is swapped in, which is charged and not in the batch, and where an admitted group has a
second sequence, which is in the batch and not charged.

Both counts are computed for groups with any number of sequences; `TokensMatch` is where they are
equal. -/

namespace CacheFlow

open Scheduler ScheduleState BatchManager

/-! ## The statistics -/

namespace BatchManager

/-- The statistics count the entries of the batch. -/
def Counted (acc : DecodeBatch × BatchStats) : Prop :=
  acc.2.numPrefillTokens + acc.2.numDecodeTokens = acc.1.entries.length

theorem addPrompt_counted (seq : SequenceData) (toks : List TokenId) (i : Nat)
    {acc : DecodeBatch × BatchStats} (h : Counted acc) : Counted (addPrompt seq i toks acc) := by
  induction toks generalizing i acc with
  | nil => exact h
  | cons tok rest ih =>
      refine ih (i + 1) ?_
      simp only [Counted, DecodeBatch.add, List.length_append, List.length_singleton] at h ⊢
      omega

theorem addSequence_counted {acc : DecodeBatch × BatchStats} (seq : SequenceData) (h : Counted acc) :
    Counted (addSequence acc seq) := by
  unfold addSequence
  split
  · exact h
  · split
    · exact addPrompt_counted seq _ 0 h
    · simp only [Counted, DecodeBatch.add, List.length_append, List.length_singleton] at h ⊢
      omega

theorem foldl_counted {α : Type} {f : DecodeBatch × BatchStats → α → DecodeBatch × BatchStats}
    (hf : ∀ acc a, Counted acc → Counted (f acc a)) (as : List α) {acc : DecodeBatch × BatchStats}
    (h : Counted acc) : Counted (as.foldl f acc) := by
  induction as generalizing acc with
  | nil => exact h
  | cons a as ih => exact ih (hf acc a h)

/-- **The statistics add up to the batch.** -/
theorem buildBatch_stats (groups : GroupPtr → SequenceGroup) (out : SchedulerOutput) :
    (buildBatch groups out).2.numPrefillTokens + (buildBatch groups out).2.numDecodeTokens
      = (buildBatch groups out).1.entries.length := by
  have hcounted : Counted (out.scheduledGroups.foldl (addGroup groups) ({}, {})) :=
    foldl_counted (fun acc p h => foldl_counted (fun acc x h => addSequence_counted x h) _ h) _ rfl
  simp only [buildBatch, computePadding]
  split <;> exact hcounted

theorem buildBatch_entries_length (groups : GroupPtr → SequenceGroup) (out : SchedulerOutput) :
    (buildBatch groups out).1.entries.length = entriesIn groups out.scheduledGroups := by
  rw [buildBatch_entries, List.length_flatMap]
  rfl

end BatchManager

/-! ## What a phase does to the tokens of a sequence -/

/-- What `build_batch` reads of a sequence to count its entries. -/
def SequenceData.text (x : SequenceData) : List TokenId × List TokenId × Bool :=
  (x.promptTokens, x.outputTokens, x.isFinished)

theorem SameText.text_eq {x y : SequenceData} (h : SameText x y) : y.text = x.text := by
  simp only [SequenceData.text, h.promptTokens, h.outputTokens, h.isFinished]

/-- The entries `build_batch` makes for such a sequence. -/
def textTokens : List TokenId × List TokenId × Bool → Nat
  | (_, _, true) => 0
  | (prompt, [], false) => prompt.length
  | (_, _ :: _, false) => 1

theorem seqEntries_length (x : SequenceData) : (seqEntries x).length = textTokens x.text := by
  cases hfin : x.isFinished with
  | true => simp [seqEntries, SequenceData.text, textTokens, hfin]
  | false =>
      cases hout : x.outputTokens with
      | nil => simp [seqEntries, SequenceData.text, SequenceData.outputLen, textTokens, hfin, hout]
      | cons t ts => simp [seqEntries, SequenceData.text, SequenceData.outputLen, textTokens, hfin, hout]

theorem entryCount_eq (seqs : List SequenceData) :
    entryCount seqs = ((seqs.map SequenceData.text).map textTokens).sum := by
  induction seqs with
  | nil => rfl
  | cons x xs ih => simp only [entryCount_cons, seqEntries_length, ih, List.map_cons, List.sum_cons]

/-- Groups with the same tokens and the same finished sequences. -/
def SameTexts (g g' : SequenceGroup) : Prop :=
  g'.sequences.map SequenceData.text = g.sequences.map SequenceData.text

theorem SameTexts.numUnfinished {g g' : SequenceGroup} (h : SameTexts g g') :
    g'.numUnfinished = g.numUnfinished := by
  have hcount : ∀ g : SequenceGroup,
      g.numUnfinished = (g.sequences.map SequenceData.text).countP (fun t => !t.2.2) := by
    intro g
    rw [List.countP_map]
    rfl
  rw [hcount, hcount, h]

theorem SameTexts.entryCount {g g' : SequenceGroup} (h : SameTexts g g') :
    entryCount g'.sequences = entryCount g.sequences := by
  rw [entryCount_eq, entryCount_eq, h]

/-- Every unfinished sequence of the group has an output. -/
def SequenceGroup.HasOutput (g : SequenceGroup) : Prop :=
  ∀ x ∈ g.sequences, x.isFinished = false → x.outputTokens ≠ []

/-- The entries of a group that is admitted: all its sequences run then, also one that was finished. -/
def SequenceGroup.batchTokens (g : SequenceGroup) : Nat :=
  (g.sequences.map (fun x => if x.outputLen = 0 then x.promptLen else 1)).sum

theorem SameTexts.hasOutput {g g' : SequenceGroup} (h : SameTexts g g') (hg : g.HasOutput) :
    g'.HasOutput := by
  intro y hy hfin
  have hmem : y.text ∈ g.sequences.map SequenceData.text := h ▸ List.mem_map_of_mem hy
  obtain ⟨x, hx, htext⟩ := List.mem_map.1 hmem
  simp only [SequenceData.text, Prod.mk.injEq] at htext
  rw [← htext.2.1]
  exact hg x hx (htext.2.2.trans hfin)

/-- Such a group has one entry for each unfinished sequence. -/
theorem SequenceGroup.HasOutput.entryCount {g : SequenceGroup} (h : g.HasOutput) :
    entryCount g.sequences = g.numUnfinished := by
  obtain ⟨_, seqs, _, _, _⟩ := g
  simp only [SequenceGroup.numUnfinished]
  induction seqs with
  | nil => rfl
  | cons x xs ih =>
      have hxs := ih (fun y hy => h y (List.mem_cons_of_mem _ hy))
      rw [entryCount_cons, hxs, List.countP_cons]
      cases hfin : x.isFinished with
      | true => simp [seqEntries, hfin]
      | false =>
          rw [seqEntries_length_of_output (h x (List.mem_cons_self ..) hfin) hfin]
          simp [Nat.add_comm]

/-- With a token for every unfinished sequence, `update_after_decode` leaves none without an output. -/
theorem updateSequences_hasOutput (maxTokens : Int) (now : TimePoint) (seqs : List SequenceData)
    (first : Option TimePoint) (toks : List TokenId) (h : activeCount seqs ≤ toks.length) :
    ∀ y ∈ (updateSequences maxTokens now seqs first toks).1, y.isFinished = false →
      y.outputTokens ≠ [] := by
  induction seqs generalizing first toks with
  | nil => exact fun y hy => absurd hy List.not_mem_nil
  | cons x xs ih =>
      intro y hy hyfin
      rw [activeCount_cons] at h
      cases hfin : x.isFinished with
      | true =>
          simp only [hfin, if_true, Nat.add_zero] at h
          simp only [updateSequences, hfin, if_true] at hy
          rcases List.mem_cons.1 hy with rfl | hy
          · rw [hfin] at hyfin
            cases hyfin
          · exact ih first toks h y hy hyfin
      | false =>
          cases toks with
          | nil => simp [hfin] at h
          | cons tok toks =>
              simp only [updateSequences, hfin] at hy
              rcases List.mem_cons.1 hy with rfl | hy
              · rw [acceptToken_outputTokens]
                simp
              · refine ih _ toks ?_ y hy hyfin
                simpa [hfin] using h

theorem updateGroups_hasOutput (now : TimePoint) (ps : List GroupPtr)
    (groups : GroupPtr → SequenceGroup) (toks : List TokenId) (hnodup : ps.Nodup)
    (h : activeIn groups ps ≤ toks.length) :
    ∀ p ∈ ps, (updateGroups now ps groups toks p).HasOutput := by
  induction ps generalizing groups toks with
  | nil => exact fun p hp => absurd hp List.not_mem_nil
  | cons q rest ih =>
      obtain ⟨hq, hrest⟩ := List.nodup_cons.1 hnodup
      have hcons : activeIn groups (q :: rest)
          = activeCount (groups q).sequences + activeIn groups rest := rfl
      rw [hcons] at h
      intro p hp
      rw [updateGroups]
      rcases List.mem_cons.1 hp with rfl | hp
      · rw [updateGroups_of_not_mem now rest _ _ hq, Function.update_self]
        exact updateSequences_hasOutput _ now _ _ toks (by omega)
      · refine ih _ _ hrest ?_ p hp
        have hsame : activeIn (Function.update groups q
            { groups q with
              sequences := (updateSequences (groups q).sampling.maxTokens now (groups q).sequences
                (groups q).firstTokenTime toks).1,
              firstTokenTime := (updateSequences (groups q).sampling.maxTokens now
                (groups q).sequences (groups q).firstTokenTime toks).2.1 }) rest
            = activeIn groups rest := by
          refine congrArg List.sum (List.map_congr_left (fun r hr => ?_))
          rw [Function.update_of_ne (ne_of_mem_of_not_mem hr hq)]
        rw [updateSequences_snd, List.length_drop, hsame]
        omega

/-- A loop whose body keeps a property of every sequence. -/
theorem threadSequences_map {σ τ : Type} {f : σ → SequenceData → SequenceData × σ}
    {g : SequenceData → τ} (hf : ∀ s x, g (f s x).1 = g x) (s : σ) (seqs : List SequenceData) :
    (threadSequences f s seqs).1.map g = seqs.map g := by
  induction seqs generalizing s with
  | nil => rfl
  | cons x xs ih => simp only [threadSequences, List.map_cons, hf, ih]

/-- Storing sequences of which a property is kept. -/
theorem map_sequences_update {τ : Type} {g : SequenceData → τ} (groups : GroupPtr → SequenceGroup)
    {p : GroupPtr} {seqs : List SequenceData} (h : seqs.map g = (groups p).sequences.map g)
    (q : GroupPtr) :
    (Function.update groups p { groups p with sequences := seqs } q).sequences.map g
      = (groups q).sequences.map g := by
  by_cases hq : q = p
  · subst hq
    rw [Function.update_self]
    exact h
  · rw [Function.update_of_ne hq]

namespace ScheduleState

theorem decodeGroup_text (s : ScheduleState) (p q : GroupPtr) :
    ((s.decodeGroup p).sched.groups q).sequences.map SequenceData.text
      = (s.sched.groups q).sequences.map SequenceData.text :=
  map_sequences_update _ (threadSequences_map (fun bm x => (appendBlocks_text bm x).text_eq) _ _) q

theorem swapInGroup_text (s : ScheduleState) (p : GroupPtr) (rest : List GroupPtr) (q : GroupPtr) :
    ((s.swapInGroup p rest).sched.groups q).sequences.map SequenceData.text
      = (s.sched.groups q).sequences.map SequenceData.text :=
  map_sequences_update _ (threadSequences_map (fun st x => (swapInSequence_text st x).text_eq) _ _) q

theorem swapOutGroup_text (s : ScheduleState) (v : GroupPtr) (init : List GroupPtr) (q : GroupPtr) :
    ((s.swapOutGroup v init).sched.groups q).sequences.map SequenceData.text
      = (s.sched.groups q).sequences.map SequenceData.text :=
  map_sequences_update _ (threadSequences_map (fun st x => (swapOutSequence_text st x).text_eq) _ _) q

/-- Admission keeps the tokens of every sequence and sets it running. -/
theorem admitGroup_text (s : ScheduleState) (p : GroupPtr) (rest : List GroupPtr) :
    ((s.admitGroup p rest).sched.groups p).sequences.map SequenceData.text
      = (s.sched.groups p).sequences.map (fun x => (x.promptTokens, x.outputTokens, false)) := by
  have hseqs : ∀ n (bm : BlockManager) (seqs : List SequenceData),
      (threadSequences (prefillSequence n) bm seqs).1.map SequenceData.text
        = seqs.map (fun x => (x.promptTokens, x.outputTokens, false)) := by
    intro n bm seqs
    induction seqs generalizing bm with
    | nil => rfl
    | cons x xs ih =>
        obtain ⟨bids, -, heq⟩ := allocateFor_fst bm { x with status := .running } n
        simp only [threadSequences, List.map_cons, ih, prefillSequence, heq]
        rfl
  simp only [admitGroup, charge, putSequences, Function.update_self]
  exact hseqs _ _ _

/-- No phase changes a prompt. -/
theorem recomputeGroup_prompts (s : ScheduleState) (v : GroupPtr) (init : List GroupPtr)
    (q : GroupPtr) :
    ((s.recomputeGroup v init).sched.groups q).sequences.map SequenceData.promptTokens
      = (s.sched.groups q).sequences.map SequenceData.promptTokens :=
  map_sequences_update _ (threadSequences_map recomputeSequence_promptTokens _ _) q

/-- Who is admitted runs with the tokens it had; the groups behind it do not matter. -/
theorem prefillLoop_text (l : List GroupPtr) (s : ScheduleState) (hl : l.Nodup) :
    ∀ q ∈ (prefillAdmissions l s).map Prod.snd,
      ((prefillLoop l s).sched.groups q).sequences.map SequenceData.text
        = (s.sched.groups q).sequences.map (fun x => (x.promptTokens, x.outputTokens, false)) := by
  induction l generalizing s with
  | nil => exact fun _ hq => absurd hq List.not_mem_nil
  | cons p rest ih =>
      obtain ⟨hp, hrest⟩ := List.nodup_cons.1 hl
      intro q hq
      by_cases hfits : s.prefillFits p
      · rw [prefillAdmissions, if_pos hfits, List.map_cons, List.mem_cons] at hq
        rw [prefillLoop, if_pos hfits]
        have hlater : p ∉ (prefillAdmissions rest (s.admitGroup p rest)).map Prod.snd := by
          intro hmem
          have hpre := prefillAdmissions_prefix rest (s.admitGroup p rest)
          exact hp (hpre.subset hmem)
        rcases hq with rfl | hq
        · rw [(prefillLoop_serves rest _ hrest).2.2 q hlater]
          exact admitGroup_text s q rest
        · have hqp : q ≠ p := fun heq => hlater (heq ▸ hq)
          rw [ih (s.admitGroup p rest) hrest q hq, groups_admitGroup_of_ne hqp]
      · rw [prefillAdmissions, if_neg hfits] at hq
        exact absurd hq List.not_mem_nil

end ScheduleState

namespace Scheduler

variable {st : Scheduler}

/-! ## The tokens of one call -/

/-- The decode loop charges a token for each unfinished sequence it schedules, and touches no tokens. -/
structure DecodesCharged (st : Scheduler) (s : ScheduleState) : Prop where
  same : ∀ q, SameTexts (st.groups q) (s.sched.groups q)
  tokens : (s.output.scheduledGroups.map (fun p => (st.groups p).numUnfinished)).sum + s.budgetTokens
    = st.config.maxNumBatchedTokens

theorem decodeLoop_charged (st : Scheduler) :
    st.DecodesCharged (decodeLoop st.running st.beginSchedule).1 := by
  refine (st.decodeLoop_invariant (P := st.DecodesCharged) ⟨fun _ => rfl, Nat.zero_add _⟩ ?_).1
  intro s p rest h _ _ hfits
  refine ⟨fun q => (decodeGroup_text s p q).trans (h.same q), ?_⟩
  have hcharge : (s.decodeGroup p).budgetTokens = s.budgetTokens - (s.sched.groups p).numUnfinished :=
    rfl
  have hsched : (s.decodeGroup p).output.scheduledGroups = s.output.scheduledGroups ++ [p] := rfl
  have htokens := h.tokens
  have hle : (s.sched.groups p).numUnfinished ≤ s.budgetTokens := hfits.1
  rw [hcharge, hsched, (h.same p).numUnfinished]
  rw [(h.same p).numUnfinished] at hle
  simp only [List.map_append, List.map_cons, List.map_nil, List.sum_append, List.sum_cons, List.sum_nil]
  omega

theorem afterDecodes_tokens (st : Scheduler) :
    (st.afterDecodes.output.scheduledGroups.map (fun p => (st.groups p).numUnfinished)).sum
      + st.afterDecodes.budgetTokens = st.config.maxNumBatchedTokens := by
  refine st.afterDecodes_of_loop (P := fun s =>
    (s.output.scheduledGroups.map (fun p => (st.groups p).numUnfinished)).sum + s.budgetTokens
      = st.config.maxNumBatchedTokens) st.decodeLoop_charged.tokens ?_
  intro s init v h _ _
  rw [preempt_scheduledGroups, (preempt_budgets s).1]
  exact h

/-- What runs or is swapped out after the decode phase did so before, with the same tokens: the victim
    of a recomputation, whose output is dropped, is in neither queue. -/
theorem afterDecodes_sameTexts (hst : st.QueuesDisjoint) :
    ∀ q ∈ st.afterDecodes.sched.running ++ st.afterDecodes.sched.swapped,
      q ∈ st.running ++ st.swapped ∧ SameTexts (st.groups q) (st.afterDecodes.sched.groups q) := by
  have hframe := st.decodeLoop_frame
  refine st.afterDecodes_of_loop (P := fun s => ∀ q ∈ s.sched.running ++ s.sched.swapped,
    q ∈ st.running ++ st.swapped ∧ SameTexts (st.groups q) (s.sched.groups q)) ?_ ?_
  · rw [hframe.1, hframe.2.2.1]
    exact fun q hq => ⟨hq, st.decodeLoop_charged.same q⟩
  · intro s init v h hat hv
    rw [hat] at hframe
    have hvrun : v ∈ s.sched.running := by rw [hv]; simp
    rw [preempt_eq hv]
    cases s.sched.config.preemptionMode with
    | swap =>
        intro q hq
        have hmem : q ∈ s.sched.running ++ s.sched.swapped := by
          rcases List.mem_append.1 hq with hq | hq
          · exact List.mem_append_left _ (by rw [hv]; exact List.mem_append_left _ hq)
          · by_cases hqv : q = v
            · exact List.mem_append_left _ (hqv ▸ hvrun)
            · exact List.mem_append_right _ (mem_of_mem_concat hq hqv)
        exact ⟨(h q hmem).1, (swapOutGroup_text s v init q).trans (h q hmem).2⟩
    | recompute =>
        intro q hq
        have hqv : q ≠ v := by
          rintro rfl
          rcases List.mem_append.1 hq with hq | hq
          · exact hst.not_mem_init (hframe.1.symm.trans hv) hq
          · exact hst.disjoint_running_swapped (hframe.1 ▸ hvrun) (hframe.2.2.1 ▸ hq)
        have hmem : q ∈ s.sched.running ++ s.sched.swapped := by
          rcases List.mem_append.1 hq with hq | hq
          · exact List.mem_append_left _ (by rw [hv]; exact List.mem_append_left _ hq)
          · exact List.mem_append_right _ hq
        have hgroup : (s.recomputeGroup v init).sched.groups q = s.sched.groups q := by
          simp [recomputeGroup, putSequences, hqv]
        rw [hgroup]
        exact h q hmem

/-- No call changes a prompt. -/
theorem schedule_prompts (st : Scheduler) (q : GroupPtr) :
    (st.schedule.2.groups q).sequences.map SequenceData.promptTokens
      = (st.groups q).sequences.map SequenceData.promptTokens := by
  have hof : ∀ g g' : SequenceGroup, SameTexts g g' →
      g'.sequences.map SequenceData.promptTokens = g.sequences.map SequenceData.promptTokens := by
    intro g g' h
    have hfst := congrArg (List.map Prod.fst) h
    rwa [List.map_map, List.map_map] at hfst
  refine st.afterSwapIn_invariant (P := fun s => (s.sched.groups q).sequences.map
    SequenceData.promptTokens = (st.groups q).sequences.map SequenceData.promptTokens) rfl ?_ ?_ ?_ ?_ ?_
  · intro s p rest h _ _ _
    exact (hof _ _ (decodeGroup_text s p q)).trans h
  · intro s init v h _ hv
    rw [preempt_eq hv]
    cases s.sched.config.preemptionMode with
    | swap => exact (hof _ _ (swapOutGroup_text s v init q)).trans h
    | recompute => exact (recomputeGroup_prompts s v init q).trans h
  · intro s h
    obtain ⟨w, -, hw⟩ := s.sched.sortWaitingQueue_eq
    rw [hw]
    exact h
  · intro s p rest h _ _ _
    by_cases hqp : q = p
    · subst hqp
      have hfst := congrArg (List.map Prod.fst) (admitGroup_text s q rest)
      rw [List.map_map, List.map_map] at hfst
      exact hfst.trans h
    · rw [groups_admitGroup_of_ne hqp]
      exact h
  · intro s p rest h _ _
    exact (hof _ _ (swapInGroup_text s p rest q)).trans h

/-- After a call the groups admitted run with the tokens they had; no other group has changed since the
    decode phase. -/
theorem schedule_texts (hst : st.QueuesDisjoint) :
    (∀ q ∉ st.afterDecodes.admits,
      SameTexts (st.afterDecodes.sched.groups q) (st.schedule.2.groups q)) ∧
    ∀ q ∈ st.afterDecodes.admits, (st.schedule.2.groups q).sequences.map SequenceData.text
      = (st.afterDecodes.sched.groups q).sequences.map
          (fun x => (x.promptTokens, x.outputTokens, false)) := by
  obtain ⟨hadm, -, hframe⟩ := admissions_eq_admits hst
  obtain ⟨-, hgroups, -, -, -, hwaiting⟩ := st.beforePrefills_eq
  have hswapIn : ∀ q, SameTexts (st.afterPrefills.sched.groups q) (st.schedule.2.groups q) := by
    intro q
    exact st.afterSwapIn_of_prefills
      (P := fun s => SameTexts (st.afterPrefills.sched.groups q) (s.sched.groups q)) rfl
      (fun s p rest h _ _ => (swapInGroup_text s p rest q).trans h)
  refine ⟨fun q hq => ?_, fun q hq => ?_⟩
  · rw [← hframe q hq]
    exact hswapIn q
  · have htext := prefillLoop_text st.beforePrefills.sched.waiting st.beforePrefills
      (hwaiting ▸ (beforePrefills_nodup hst).1) q (by rw [← hadm] at hq; exact hq)
    rw [← afterPrefills_eq, hgroups] at htext
    exact (hswapIn q).trans htext

/-- **What a call reports**: the tokens charged for the groups it decodes, for the first prompts of those
    it admits and for those it swaps in. -/
theorem schedule_numBatchedTokens (hst : st.QueuesDisjoint) :
    st.schedule.1.numBatchedTokens
      = (st.afterDecodes.output.scheduledGroups.map (fun p => (st.groups p).numUnfinished)).sum
        + ((st.afterDecodes.admits.map (fun p => (st.afterDecodes.sched.groups p).promptLen)).sum
          + (st.afterDecodes.resumes.map
              (fun p => (st.afterDecodes.sched.groups p).numUnfinished)).sum) := by
  obtain ⟨-, -, -, -, -, -, hroom⟩ := schedule_serves hst
  have hleft : st.afterSwapIn.budgetTokens = st.afterDecodes.roomAfterSwapIn.tokens :=
    congrArg Room.tokens hroom
  have hreport : st.schedule.1.numBatchedTokens
      = st.config.maxNumBatchedTokens - st.afterDecodes.roomAfterSwapIn.tokens := by rw [← hleft]; rfl
  have hdecodes := st.afterDecodes_tokens
  have hprefills := Room.tokens_add_left st.afterDecodes.room
    (st.afterDecodes.prefillDemands st.afterDecodes.sortedWaiting)
  have hbudget : st.afterDecodes.room.tokens = st.afterDecodes.budgetTokens := rfl
  have hswapIns : (st.afterDecodes.resumes.map
        (fun p => (st.afterDecodes.sched.groups p).numUnfinished)).sum
      + st.afterDecodes.roomAfterSwapIn.tokens = st.afterDecodes.roomAfterPrefills.tokens := by
    by_cases hopen : 0 < st.afterDecodes.roomAfterPrefills.tokens
    · have hsum := Room.tokens_add_left st.afterDecodes.roomAfterPrefills
        (st.afterDecodes.swapInDemands st.afterDecodes.sched.swapped)
      rw [swapInDemands, ← List.map_take, List.map_map] at hsum
      rw [resumes, numResumed, roomAfterSwapIn, if_pos hopen, if_pos hopen]
      exact hsum
    · simp [resumes, numResumed, roomAfterSwapIn, hopen]
  rw [prefillDemands, ← List.map_take, List.map_map] at hprefills
  have hadmits : (st.afterDecodes.admits.map (fun p => (st.afterDecodes.sched.groups p).promptLen)).sum
      + st.afterDecodes.roomAfterPrefills.tokens = st.afterDecodes.budgetTokens := hprefills
  omega

/-- **What the batch of a call costs**, when what runs has an output. -/
theorem schedule_entriesIn (hst : st.QueuesDisjoint)
    (hout : ∀ p ∈ st.running, (st.groups p).HasOutput) :
    entriesIn st.schedule.2.groups st.schedule.1.scheduledGroups
      = (st.afterDecodes.output.scheduledGroups.map (fun p => (st.groups p).numUnfinished)).sum
        + (st.afterDecodes.admits.map (fun p => (st.afterDecodes.sched.groups p).batchTokens)).sum := by
  obtain ⟨hsched, -⟩ := schedule_serves hst
  obtain ⟨hkept, hadmitted⟩ := schedule_texts hst
  have hq := st.afterDecodes_shuffles.queues hst
  have hrun := (decodesCounted hst).running
  rw [hsched, entriesIn, List.map_append, List.sum_append]
  congr 2
  · refine List.map_congr_left (fun p hp => ?_)
    have hnot : p ∉ st.afterDecodes.admits := fun hadm =>
      hq.disjoint_running_waiting (hrun p hp) (mem_sortedWaiting.1 (List.mem_of_mem_take hadm))
    obtain ⟨-, hsame⟩ := afterDecodes_sameTexts hst p (List.mem_append_left _ (hrun p hp))
    have hold : p ∈ st.running := by
      rcases st.afterDecodes_victim.2 with ⟨-, -, heq, -⟩ | ⟨v, init, -, -, hlast, heq, -⟩
      · exact heq ▸ hrun p hp
      · rw [hlast]
        exact List.mem_append_left _ (heq ▸ hrun p hp)
    rw [(hkept p hnot).entryCount, hsame.entryCount, (hout p hold).entryCount]
  · refine List.map_congr_left (fun p hp => ?_)
    rw [entryCount_eq, hadmitted p hp, List.map_map, SequenceGroup.batchTokens]
    refine congrArg List.sum (List.map_congr_left (fun x _ => ?_))
    cases hx : x.outputTokens <;>
      simp [textTokens, SequenceData.outputLen, SequenceData.promptLen, hx]

/-- The first prompts of the groups admitted and the unfinished sequences of those swapped in, which the
    call charges, are as many tokens as the sequences of the groups admitted have. -/
def TokensMatch (st : Scheduler) : Prop :=
  (st.afterDecodes.admits.map (fun p => (st.afterDecodes.sched.groups p).promptLen)).sum
    + (st.afterDecodes.resumes.map (fun p => (st.afterDecodes.sched.groups p).numUnfinished)).sum
  = (st.afterDecodes.admits.map (fun p => (st.afterDecodes.sched.groups p).batchTokens)).sum

instance (st : Scheduler) : Decidable st.TokensMatch := inferInstanceAs (Decidable (_ = _))

end Scheduler

namespace Driver

/-! ## Runs -/

/-- The loop with groups of one or more sequences, all with a prompt. -/
def EnabledGroups (d : Driver) : DriverOp → Prop
  | .addRequest group => group.sequences ≠ [] ∧ ∀ x ∈ group.sequences, x.promptTokens ≠ []
  | op => d.Enabled op

instance (d : Driver) : (op : DriverOp) → Decidable (d.EnabledGroups op)
  | .addRequest group =>
    inferInstanceAs (Decidable (group.sequences ≠ [] ∧ ∀ x ∈ group.sequences, x.promptTokens ≠ []))
  | .schedule => inferInstanceAs (Decidable (d.Enabled .schedule))
  | .buildBatch => inferInstanceAs (Decidable (d.Enabled .buildBatch))
  | .step toks => inferInstanceAs (Decidable (d.Enabled (.step toks)))
  | .updateAfterDecode now => inferInstanceAs (Decidable (d.Enabled (.updateAfterDecode now)))
  | .freeFinishedRequests => inferInstanceAs (Decidable (d.Enabled .freeFinishedRequests))

/-- Between the calls of the loop: what runs or is swapped out has an output, except for what has been
    scheduled and not yet updated; the engine has a token for each entry of the batch. -/
structure Fed (config : SchedulerConfig) (d : Driver) : Prop where
  kept : d.sched.Kept config
  prompts : ∀ p ∈ d.sched.queued, ∀ x ∈ (d.sched.groups p).sequences, x.promptTokens ≠ []
  outputs : ∀ p ∈ d.sched.running ++ d.sched.swapped, p ∉ d.phase.pending → (d.sched.groups p).HasOutput
  pending : ∀ p ∈ d.phase.pending, p ∈ d.sched.queued
  nodup : d.phase.pending.Nodup
  batched : ∀ out batch, d.phase = .batched out batch →
    batch.entries.length = entriesIn d.sched.groups out.scheduledGroups
  decoded : ∀ out toks, d.phase = .decoded out toks →
    toks.length = entriesIn d.sched.groups out.scheduledGroups

namespace Fed

variable {config : SchedulerConfig} {d : Driver}

theorem init (config : SchedulerConfig) (cache : CacheConfig) : Fed config (Driver.init config cache) :=
  ⟨Kept.new config _, fun _ hp => absurd hp List.not_mem_nil, fun _ hp => absurd hp List.not_mem_nil,
    fun _ hp => absurd hp List.not_mem_nil, List.nodup_nil, fun _ _ h => (by cases h),
    fun _ _ h => (by cases h)⟩

theorem addRequest (h : d.Fed config) {group : SequenceGroup} (hne : group.sequences ≠ [])
    (hprompts : ∀ x ∈ group.sequences, x.promptTokens ≠ []) :
    Fed config { d with sched := d.sched.addRequest group } := by
  have hperm := d.sched.addRequest_queued group
  have hold : ∀ p ∈ d.sched.queued, (d.sched.addRequest group).groups p = d.sched.groups p :=
    fun p hp => d.sched.groups_addRequest_of_lt group (h.kept.stored p hp)
  have hpend : entriesIn (d.sched.addRequest group).groups d.phase.pending
      = entriesIn d.sched.groups d.phase.pending := by
    refine congrArg List.sum (List.map_congr_left (fun p hp => ?_))
    rw [hold p (h.pending p hp)]
  refine ⟨h.kept.addRequest hne, ?_, ?_, ?_, h.nodup, ?_, ?_⟩
  · intro p hp
    rcases List.mem_cons.1 (hperm.mem_iff.1 hp) with rfl | hp
    · rw [groups_addRequest_self]
      exact hprompts
    · rw [hold p hp]
      exact h.prompts p hp
  · intro p hp
    have hmem : p ∈ d.sched.queued := by
      rcases List.mem_append.1 hp with hp | hp
      · exact WellFormed.mem_running hp
      · exact WellFormed.mem_swapped hp
    rw [hold p hmem]
    exact h.outputs p hp
  · exact fun p hp => hperm.mem_iff.2 (List.mem_cons_of_mem _ (h.pending p hp))
  · intro out batch hphase
    have hbatch := h.batched out batch hphase
    rw [show d.phase = _ from hphase] at hpend
    exact hbatch.trans hpend.symm
  · intro out toks hphase
    have htoks := h.decoded out toks hphase
    rw [show d.phase = _ from hphase] at hpend
    exact htoks.trans hpend.symm

theorem schedule (h : d.Fed config) (hphase : d.phase = .ready)
    (fed : GroupPtr → List (BatchEntry × SequenceData)) :
    Fed config { sched := d.sched.schedule.2, phase := .scheduled d.sched.schedule.1, fed := fed } := by
  have hst := h.kept.queues
  have houtputs := h.outputs
  rw [hphase] at houtputs
  obtain ⟨hsched, -, -, hrun, -, hswapped, -⟩ := schedule_serves hst
  have hperm : d.sched.schedule.2.queued.Perm d.sched.queued := d.sched.schedule_shuffles.queued
  refine ⟨h.kept.schedule, ?_, ?_, ?_, ?_, fun _ _ h => (by cases h), fun _ _ h => (by cases h)⟩
  · intro p hp x hx
    have hmem : x.promptTokens ∈ (d.sched.groups p).sequences.map SequenceData.promptTokens := by
      rw [← d.sched.schedule_prompts p]
      exact List.mem_map_of_mem hx
    obtain ⟨y, hy, heq⟩ := List.mem_map.1 hmem
    rw [← heq]
    exact h.prompts p (hperm.mem_iff.1 hp) y hy
  · intro p hp hnot
    have hnot' : p ∉ d.sched.afterDecodes.admits := by
      intro hadm
      refine hnot ?_
      rw [Phase.pending, hsched]
      exact List.mem_append_right _ hadm
    have hmem : p ∈ d.sched.afterDecodes.sched.running ++ d.sched.afterDecodes.sched.swapped := by
      simp only [hrun, hswapped, List.mem_append] at hp ⊢
      rcases hp with (hp | hp | hp) | hp
      · exact Or.inl hp
      · exact absurd hp hnot'
      · exact Or.inr (List.mem_of_mem_take hp)
      · exact Or.inr (List.mem_of_mem_drop hp)
    obtain ⟨hold, hsame⟩ := afterDecodes_sameTexts hst p hmem
    exact ((schedule_texts hst).1 p hnot').hasOutput
      (hsame.hasOutput (houtputs p hold List.not_mem_nil))
  · exact fun p hp => WellFormed.mem_running (schedule_scheduled_running hst.nodup_running p hp)
  · -- the groups decoded are running, those admitted were waiting
    have hcount := decodesCounted hst
    have hq := d.sched.afterDecodes_shuffles.queues hst
    rw [Phase.pending, hsched]
    refine List.nodup_append.2 ⟨hcount.nodup, (beforePrefills_nodup hst).1.sublist
      (List.take_sublist ..), ?_⟩
    rintro a ha _ hb rfl
    exact hq.disjoint_running_waiting (hcount.running a ha)
      (mem_sortedWaiting.1 (List.mem_of_mem_take hb))

theorem buildBatch (h : d.Fed config) {out : SchedulerOutput} (hphase : d.phase = .scheduled out)
    (fed : GroupPtr → List (BatchEntry × SequenceData)) :
    Fed config { sched := d.sched,
                 phase := .batched out (BatchManager.buildBatch d.sched.groups out).1, fed := fed } := by
  have houtputs := h.outputs
  have hpending := h.pending
  have hnodup := h.nodup
  rw [hphase] at houtputs hpending hnodup
  refine ⟨h.kept, h.prompts, houtputs, hpending, hnodup, ?_, fun _ _ h => (by cases h)⟩
  intro out' batch hout
  cases hout
  exact buildBatch_entries_length d.sched.groups out

theorem decode (h : d.Fed config) {out : SchedulerOutput} {batch : DecodeBatch}
    (hphase : d.phase = .batched out batch) {toks : List TokenId}
    (hlen : toks.length = batch.entries.length) : Fed config { d with phase := .decoded out toks } := by
  have houtputs := h.outputs
  have hpending := h.pending
  have hnodup := h.nodup
  rw [hphase] at houtputs hpending hnodup
  refine ⟨h.kept, h.prompts, houtputs, hpending, hnodup, fun _ _ h => (by cases h), ?_⟩
  intro out' toks' hout
  cases hout
  exact hlen.trans (h.batched out batch hphase)

/-- Every scheduled sequence receives a token: there are at least as many entries as sequences. -/
theorem updateAfterDecode (h : d.Fed config) {out : SchedulerOutput} {toks : List TokenId}
    (hphase : d.phase = .decoded out toks) (now : TimePoint) :
    Fed config { d with sched := d.sched.updateAfterDecode out toks now, phase := .updated } := by
  have houtputs := h.outputs
  have hpending := h.pending
  have hnodup := h.nodup
  rw [hphase] at houtputs hpending hnodup
  refine ⟨(h.kept.step (show ClientOp d.sched (.updateAfterDecode out toks now) from trivial)).1, ?_, ?_,
    fun _ hp => absurd hp List.not_mem_nil, List.nodup_nil, fun _ _ h => (by cases h),
    fun _ _ h => (by cases h)⟩
  · intro p hp y hy
    obtain ⟨x, hx, hext⟩ := updateGroups_extends now out.scheduledGroups d.sched.groups toks p y hy
    rw [hext.promptTokens]
    exact h.prompts p hp x hx
  · intro p hp _
    by_cases hsched : p ∈ out.scheduledGroups
    · refine updateGroups_hasOutput now out.scheduledGroups d.sched.groups toks hnodup ?_ p hsched
      rw [h.decoded out toks hphase]
      exact activeIn_le_entriesIn _ _ (fun q hq => h.prompts q (hpending q hq))
    · have hsame : (d.sched.updateAfterDecode out toks now).groups p = d.sched.groups p :=
        updateGroups_of_not_mem now _ _ toks hsched
      rw [hsame]
      exact houtputs p hp hsched

theorem freeFinishedRequests (h : d.Fed config) (hphase : d.phase = .updated) :
    Fed config { d with sched := d.sched.freeFinishedRequests, phase := .ready } := by
  have houtputs := h.outputs
  rw [hphase] at houtputs
  have hsub := d.sched.freeFinishedRequests_queued_sublist
  have hgroups : d.sched.freeFinishedRequests.groups = d.sched.groups := by
    rw [freeFinishedRequests_eq]
  refine ⟨(h.kept.step (show ClientOp d.sched .freeFinishedRequests from trivial)).1, ?_, ?_,
    fun _ hp => absurd hp List.not_mem_nil, List.nodup_nil, fun _ _ h => (by cases h),
    fun _ _ h => (by cases h)⟩
  · intro p hp
    rw [hgroups]
    exact h.prompts p (hsub.subset hp)
  · intro p hp _
    rw [hgroups]
    refine houtputs p ?_ List.not_mem_nil
    rw [freeFinishedRequests_eq] at hp
    rcases List.mem_append.1 hp with hp | hp
    · exact List.mem_append_left _ (List.mem_of_mem_filter hp)
    · exact List.mem_append_right _ hp

theorem step (h : d.Fed config) {op : DriverOp} (hop : d.EnabledGroups op) :
    (d.step op).Fed config := by
  by_cases hadd : ∃ group, op = .addRequest group
  · obtain ⟨group, rfl⟩ := hadd
    exact h.addRequest hop.1 hop.2
  · have hop' : d.Enabled op := by
      cases op with
      | addRequest group => exact absurd ⟨group, rfl⟩ hadd
      | schedule | buildBatch | step | updateAfterDecode | freeFinishedRequests => exact hop
    rcases step_cases hop' with ⟨group, rfl, -⟩ | ⟨rfl, hphase, heq⟩ | ⟨out, rfl, hphase, heq⟩ |
      ⟨out, batch, toks, rfl, hphase, hlen, heq⟩ | ⟨out, toks, now, rfl, hphase, heq⟩ |
      ⟨rfl, hphase, heq⟩
    · exact absurd ⟨group, rfl⟩ hadd
    · rw [heq]
      exact h.schedule hphase _
    · rw [heq]
      exact h.buildBatch hphase _
    · rw [heq]
      exact h.decode hphase hlen
    · rw [heq]
      exact h.updateAfterDecode hphase now
    · rw [heq]
      exact h.freeFinishedRequests hphase

end Fed

/-- **`num_batched_tokens` and the size of the batch.** In every state of the loop in which `schedule()`
    is next, with groups of any number of sequences and in both preemption modes, the number the call
    reports is `total_tokens` of the batch, and with it the number of entries and the sum of the two
    statistics, exactly when `TokensMatch` holds. -/
theorem numBatchedTokens_eq_iff {config : SchedulerConfig} {cache : CacheConfig} {d : Driver}
    (h : Run.Reach step EnabledGroups (init config cache) d) (hphase : d.phase = .ready) :
    (d.sched.schedule.1.numBatchedTokens
        = (BatchManager.buildBatch d.sched.schedule.2.groups d.sched.schedule.1).1.totalTokens ∧
      (BatchManager.buildBatch d.sched.schedule.2.groups d.sched.schedule.1).1.totalTokens
        = (BatchManager.buildBatch d.sched.schedule.2.groups d.sched.schedule.1).1.entries.length ∧
      (BatchManager.buildBatch d.sched.schedule.2.groups d.sched.schedule.1).1.totalTokens
        = (BatchManager.buildBatch d.sched.schedule.2.groups d.sched.schedule.1).2.numPrefillTokens
          + (BatchManager.buildBatch d.sched.schedule.2.groups d.sched.schedule.1).2.numDecodeTokens) ↔
    d.sched.TokensMatch := by
  have hfed : d.Fed config := h.invariant (Fed.init config cache) (fun _ _ hd hop => hd.step hop)
  have hst := hfed.kept.queues
  have houtputs := hfed.outputs
  rw [hphase] at houtputs
  have hreport := schedule_numBatchedTokens hst
  have hcost := schedule_entriesIn hst
    (fun p hp => houtputs p (List.mem_append_left _ hp) List.not_mem_nil)
  rw [buildBatch_stats, buildBatch_totalTokens, buildBatch_entries_length, hreport, hcost,
    TokensMatch]
  omega

/-- Two requests of one block each and one iteration of the loop. -/
def firstIteration : List DriverOp :=
  [.addRequest (SequenceGroup.new 0 [1, 2] {}), .addRequest (SequenceGroup.new 1 [1, 2] {}),
    .schedule, .buildBatch, .step [9, 9, 9, 9], .updateAfterDecode 0, .freeFinishedRequests]

def withBlocks (n : Nat) : Driver :=
  init {} { numGpuBlocks := n, numCpuBlocks := 2, blockSize := 2 }

/-- Two groups decode and a third is admitted: the call reports the tokens of the batch. -/
theorem firstIteration_tokens :
    let d := (firstIteration ++ [DriverOp.addRequest (SequenceGroup.new 2 [1, 2, 3] {})]).foldl step
      (withBlocks 8)
    d.sched.schedule.1.numBatchedTokens = 5 ∧ d.sched.schedule.1.numBatchedTokens
      = (BatchManager.buildBatch d.sched.schedule.2.groups d.sched.schedule.1).1.totalTokens :=
  ⟨by decide +kernel,
    ((numBatchedTokens_eq_iff (Run.Reach.of_allOk _ (by decide +kernel)) rfl).2
      (by decide +kernel)).1⟩

/-- A group with two prompts. -/
def twoPrompts : SequenceGroup :=
  { requestId := 0,
    sequences := [{ seqId := 0, promptTokens := [1, 2] }, { seqId := 1, promptTokens := [3] }] }

/-- In a pool of two blocks the second group is preempted and swapped in again: the call reports one
    token, the batch is empty. A group with two prompts is charged with the first one's two tokens, and
    the batch has three. -/
theorem firstIteration_swapIn_tokens :
    (Run.Reach step EnabledGroups (withBlocks 2) (firstIteration.foldl step (withBlocks 2)) ∧
      (firstIteration.foldl step (withBlocks 2)).sched.schedule.1.numBatchedTokens
        ≠ (BatchManager.buildBatch (firstIteration.foldl step (withBlocks 2)).sched.schedule.2.groups
            (firstIteration.foldl step (withBlocks 2)).sched.schedule.1).1.totalTokens) ∧
    (Run.Reach step EnabledGroups (withBlocks 8) ((withBlocks 8).step (.addRequest twoPrompts)) ∧
      ((withBlocks 8).step (.addRequest twoPrompts)).sched.schedule.1.numBatchedTokens
        ≠ (BatchManager.buildBatch
            ((withBlocks 8).step (.addRequest twoPrompts)).sched.schedule.2.groups
            ((withBlocks 8).step (.addRequest twoPrompts)).sched.schedule.1).1.totalTokens) :=
  ⟨⟨Run.Reach.of_allOk firstIteration (by decide +kernel), by decide +kernel⟩,
    Run.Reach.of_allOk [DriverOp.addRequest twoPrompts] (by decide +kernel), by decide +kernel⟩

end Driver

end CacheFlow
