import CacheFlow.Driver.Slots

set_option autoImplicit false

/-! # The budgets of a step

`schedule()` charges its budgets by the queue a group comes from: the prompt length for a group from
the waiting queue, one token for each unfinished sequence of a running or swapped one. `build_batch`
decides by `output_len` instead: the whole prompt for a sequence without output, one token otherwise.
The batch stays within the budget because the two never disagree upward. A running sequence that is
not finished has an output between two iterations, since every scheduled sequence receives a token; and
a sequence from the waiting queue costs at most its prompt, even one that was aborted with an output,
preempted and admitted again.

Requests are aborted between two iterations, and the next `schedule()` finds the finished groups still in
their queues. -/

namespace CacheFlow

open Scheduler ScheduleState BatchManager

namespace ScheduleState

/-! ## What a call charges -/

/-- The states in which the decode loop charges the budgets, each with the tokens it charges. -/
def decodeCharges : List GroupPtr → ScheduleState → List (ScheduleState × Nat)
  | [], _ => []
  | p :: rest, s =>
    if (s.sched.groups p).allFinished then decodeCharges rest s
    else if s.decodeFits p then
      (s, estimateTokens (s.sched.groups p) false) :: decodeCharges rest (s.decodeGroup p)
    else []

/-- The states in which the prefill loop charges the budgets, each with the tokens it charges. -/
def prefillCharges : List GroupPtr → ScheduleState → List (ScheduleState × Nat)
  | [], _ => []
  | p :: rest, s =>
    if s.prefillFits p then
      (s, estimateTokens (s.sched.groups p) true) :: prefillCharges rest (s.admitGroup p rest)
    else []

/-- The states in which the swap-in loop charges the budgets, each with the tokens it charges. -/
def swapInCharges : List GroupPtr → ScheduleState → List (ScheduleState × Nat)
  | [], _ => []
  | p :: rest, s =>
    if s.swapInFits p then
      (s, estimateTokens (s.sched.groups p) false) :: swapInCharges rest (s.swapInGroup p rest)
    else []

/-- Every charge is covered, and with what is left they make up what there was. -/
structure Charges (s s' : ScheduleState) (l : List (ScheduleState × Nat)) : Prop where
  covered : ∀ c ∈ l, c.2 ≤ c.1.budgetTokens ∧ 1 ≤ c.1.budgetSeqs
  tokens : (l.map Prod.snd).sum + s'.budgetTokens = s.budgetTokens
  seqs : l.length + s'.budgetSeqs = s.budgetSeqs

namespace Charges

variable {s s' s'' : ScheduleState} {l l' : List (ScheduleState × Nat)}

theorem nil (ht : s'.budgetTokens = s.budgetTokens) (hs : s'.budgetSeqs = s.budgetSeqs) :
    Charges s s' [] :=
  ⟨fun _ hc => absurd hc List.not_mem_nil, by simpa using ht, by simpa using hs⟩

theorem cons {t : Nat} (h : Charges s' s'' l) (ht : t ≤ s.budgetTokens) (hs : s.budgetSeqs ≠ 0)
    (ht' : s'.budgetTokens = s.budgetTokens - t) (hs' : s'.budgetSeqs = s.budgetSeqs - 1) :
    Charges s s'' ((s, t) :: l) := by
  have htokens := h.tokens
  have hseqs := h.seqs
  refine ⟨?_, ?_, ?_⟩
  · intro c hc
    rcases List.mem_cons.1 hc with rfl | hc
    · exact ⟨ht, Nat.one_le_iff_ne_zero.2 hs⟩
    · exact h.covered c hc
  · simp only [List.map_cons, List.sum_cons]
    omega
  · simp only [List.length_cons]
    omega

theorem append (h : Charges s s' l) (h' : Charges s' s'' l') : Charges s s'' (l ++ l') := by
  have h₁ := h.tokens
  have h₂ := h'.tokens
  have h₃ := h.seqs
  have h₄ := h'.seqs
  refine ⟨?_, ?_, ?_⟩
  · intro c hc
    rcases List.mem_append.1 hc with hc | hc
    · exact h.covered c hc
    · exact h'.covered c hc
  · simp only [List.map_append, List.sum_append]
    omega
  · simp only [List.length_append]
    omega

end Charges

theorem decodeLoop_charges (l : List GroupPtr) (s : ScheduleState) :
    Charges s (decodeLoop l s).1 (decodeCharges l s) := by
  induction l generalizing s with
  | nil => exact Charges.nil rfl rfl
  | cons p rest ih =>
      rw [decodeLoop, decodeCharges]
      by_cases hfin : (s.sched.groups p).allFinished = true
      · simp only [hfin, if_true]
        exact ih s
      · simp only [hfin]
        by_cases hfits : s.decodeFits p
        · simp only [hfits, if_true]
          exact (ih (s.decodeGroup p)).cons hfits.1 hfits.2.1 rfl rfl
        · simp only [hfits, if_false]
          exact Charges.nil rfl rfl

theorem prefillLoop_charges (l : List GroupPtr) (s : ScheduleState) :
    Charges s (prefillLoop l s) (prefillCharges l s) := by
  induction l generalizing s with
  | nil => exact Charges.nil rfl rfl
  | cons p rest ih =>
      rw [prefillLoop, prefillCharges]
      by_cases hfits : s.prefillFits p
      · simp only [hfits, if_true]
        exact (ih (s.admitGroup p rest)).cons hfits.2.1 hfits.1 rfl rfl
      · simp only [hfits, if_false]
        exact Charges.nil rfl rfl

theorem swapInLoop_charges (l : List GroupPtr) (s : ScheduleState) :
    Charges s (swapInLoop l s) (swapInCharges l s) := by
  induction l generalizing s with
  | nil => exact Charges.nil rfl rfl
  | cons p rest ih =>
      rw [swapInLoop, swapInCharges]
      by_cases hfits : s.swapInFits p
      · simp only [hfits, if_true]
        exact (ih (s.swapInGroup p rest)).cons hfits.2.1 hfits.1 rfl rfl
      · simp only [hfits, if_false]
        exact Charges.nil rfl rfl

end ScheduleState

namespace Scheduler

/-- The charges of the call starting in `st`, phase by phase. -/
def charges (st : Scheduler) : List (ScheduleState × Nat) :=
  decodeCharges st.running st.beginSchedule ++
    (prefillCharges st.beforePrefills.sched.waiting st.beforePrefills ++
      if st.afterPrefills.sched.swapped ≠ [] ∧ 0 < st.afterPrefills.budgetTokens ∧
          0 < st.afterPrefills.budgetSeqs then
        swapInCharges st.afterPrefills.sched.swapped st.afterPrefills
      else [])

/-- **No phase charges more than is left**, and the charges and what is left make up the limits. -/
theorem schedule_charges (st : Scheduler) :
    Charges st.beginSchedule st.afterSwapIn st.charges := by
  have hdecodes : Charges st.beginSchedule st.afterDecodes (decodeCharges st.running st.beginSchedule) := by
    have hloop := decodeLoop_charges st.running st.beginSchedule
    rw [← List.append_nil (decodeCharges _ _)]
    refine hloop.append ?_
    simp only [afterDecodes, scheduleDecodes]
    split
    · exact Charges.nil (preempt_budgets _).1 (preempt_budgets _).2
    · exact Charges.nil rfl rfl
  have hprefills : Charges st.afterDecodes st.afterPrefills
      (prefillCharges st.beforePrefills.sched.waiting st.beforePrefills) := by
    unfold afterPrefills
    split
    · next hnil =>
        have hwaiting : st.beforePrefills.sched.waiting = [] := by
          rw [beforePrefills, sortWaitingQueue_nil hnil]
          exact hnil
        rw [hwaiting]
        exact Charges.nil rfl rfl
    · have hloop := prefillLoop_charges st.beforePrefills.sched.waiting st.beforePrefills
      exact ⟨hloop.covered, hloop.tokens, hloop.seqs⟩
  refine hdecodes.append (hprefills.append ?_)
  simp only [afterSwapIn]
  split
  · exact swapInLoop_charges _ _
  · exact Charges.nil rfl rfl

end Scheduler

/-! ## Moves and what a batch costs -/

/-- A sequence with an output costs one token. -/
theorem seqEntries_length_of_output {seq : SequenceData} (hout : seq.outputTokens ≠ [])
    (hfin : seq.isFinished = false) : (seqEntries seq).length = 1 := by
  have hlen : seq.outputLen ≠ 0 := by simpa [SequenceData.outputLen] using hout
  simp [seqEntries, hfin, hlen]

/-- A sequence costs at most its prompt. -/
theorem seqEntries_length_le {seq : SequenceData} (hprompt : seq.promptTokens ≠ []) :
    (seqEntries seq).length ≤ seq.promptLen := by
  have hpos : 1 ≤ seq.promptTokens.length := List.length_pos_iff.2 hprompt
  unfold seqEntries SequenceData.promptLen
  split
  · simp
  · split
    · simp
    · simpa using hpos

namespace Driver

/-- The tokens of the batch that `build_batch` makes of the groups `ps`. -/
def cost (st : Scheduler) (ps : List GroupPtr) : Nat :=
  (ps.map (fun p => (seqEntries (st.seq p)).length)).sum

/-! ## One call -/

/-- What holds at every point of a call: what runs and what is swapped out has an output unless it has
    been scheduled in this call, and what has been scheduled costs no more than has been charged. -/
structure MidBudget (st : Scheduler) (s : ScheduleState) : Prop where
  prompts : ∀ q ∈ st.queued, (s.sched.seq q).promptTokens ≠ []
  running : ∀ q ∈ s.sched.running, (s.sched.seq q).isFinished = false →
    q ∉ s.output.scheduledGroups → (s.sched.seq q).outputTokens ≠ []
  swapped : ∀ q ∈ s.sched.swapped, (s.sched.seq q).isFinished = false →
    (s.sched.seq q).outputTokens ≠ []
  scheduled : ∀ q ∈ s.output.scheduledGroups,
    q ∈ s.sched.running ∧ (s.sched.seq q).isFinished = false
  nodup : s.output.scheduledGroups.Nodup
  tokens : cost s.sched s.output.scheduledGroups + s.budgetTokens ≤ st.config.maxNumBatchedTokens
  seqs : s.output.scheduledGroups.length + s.budgetSeqs ≤ st.config.maxNumSeqs

namespace MidBudget

variable {st : Scheduler} {s s' : ScheduleState} {p : GroupPtr} {x : SequenceData}

/-- What has been scheduled costs the same after the sequence of another group has been rewritten. -/
theorem cost_eq (hseq : ∀ q, s'.sched.seq q = if q = p then x else s.sched.seq q)
    (hp : p ∉ s.output.scheduledGroups) :
    cost s'.sched s.output.scheduledGroups = cost s.sched s.output.scheduledGroups := by
  unfold cost
  congr 1
  apply List.map_congr_left
  intro q hq
  rw [hseq, if_neg (ne_of_mem_of_not_mem hq hp)]

/-- No move takes a prompt away. -/
theorem prompts_move (h : MidBudget st s)
    (hseq : ∀ q, s'.sched.seq q = if q = p then x else s.sched.seq q)
    (hprompt : x.promptTokens = (s.sched.seq p).promptTokens) :
    ∀ q ∈ st.queued, (s'.sched.seq q).promptTokens ≠ [] := by
  intro q hq
  rw [hseq]
  split
  · next hqp =>
      rw [hprompt, ← hqp]
      exact h.prompts q hq
  · exact h.prompts q hq

/-- A move that schedules nothing. -/
theorem move (h : MidBudget st s)
    (hseq : ∀ q, s'.sched.seq q = if q = p then x else s.sched.seq q)
    (hnot : p ∉ s.output.scheduledGroups)
    (hprompt : x.promptTokens = (s.sched.seq p).promptTokens)
    (hrun : ∀ q ∈ s'.sched.running, q ≠ p → q ∈ s.sched.running)
    (hswap : ∀ q ∈ s'.sched.swapped, q ≠ p → q ∈ s.sched.swapped)
    (hout : p ∈ s'.sched.running ++ s'.sched.swapped → x.isFinished = false → x.outputTokens ≠ [])
    (hkeep : ∀ q ∈ s.output.scheduledGroups, q ∈ s'.sched.running)
    (hsched : s'.output.scheduledGroups = s.output.scheduledGroups)
    (htokens : s'.budgetTokens ≤ s.budgetTokens) (hseqs : s'.budgetSeqs ≤ s.budgetSeqs) :
    MidBudget st s' := by
  refine ⟨h.prompts_move hseq hprompt, ?_, ?_, ?_, ?_, ?_, ?_⟩
  · intro q hq
    rw [hseq, hsched]
    split
    · next hqp => exact fun hfin _ => hout (List.mem_append_left _ (hqp ▸ hq)) hfin
    · next hqp => exact h.running q (hrun q hq hqp)
  · intro q hq
    rw [hseq]
    split
    · next hqp => exact hout (List.mem_append_right _ (hqp ▸ hq))
    · next hqp => exact h.swapped q (hswap q hq hqp)
  · intro q hq
    rw [hsched] at hq
    rw [hseq, if_neg (ne_of_mem_of_not_mem hq hnot)]
    exact ⟨hkeep q hq, (h.scheduled q hq).2⟩
  · rw [hsched]
    exact h.nodup
  · have := h.tokens
    rw [hsched, cost_eq hseq hnot]
    omega
  · have := h.seqs
    rw [hsched]
    omega

/-- A move that schedules the group it rewrites, which costs no more than it is charged. -/
theorem schedules (h : MidBudget st s)
    (hseq : ∀ q, s'.sched.seq q = if q = p then x else s.sched.seq q)
    (hnot : p ∉ s.output.scheduledGroups)
    (hprompt : x.promptTokens = (s.sched.seq p).promptTokens) (hfin : x.isFinished = false)
    (hrun : ∀ q, q ∈ s'.sched.running ↔ q = p ∨ q ∈ s.sched.running)
    (hswap : ∀ q ∈ s'.sched.swapped, q ≠ p ∧ q ∈ s.sched.swapped)
    (hsched : s'.output.scheduledGroups = s.output.scheduledGroups ++ [p])
    (htokens : (seqEntries x).length + s'.budgetTokens ≤ s.budgetTokens)
    (hseqs : 1 + s'.budgetSeqs ≤ s.budgetSeqs) : MidBudget st s' := by
  refine ⟨h.prompts_move hseq hprompt, ?_, ?_, ?_, ?_, ?_, ?_⟩
  · intro q hq
    rw [hseq, hsched]
    split
    · next hqp => exact fun _ hq' => absurd (List.mem_append_right _ (List.mem_singleton.2 hqp)) hq'
    · next hqp =>
        exact fun hf hq' => h.running q (((hrun q).1 hq).resolve_left hqp) hf
          (fun hmem => hq' (List.mem_append_left _ hmem))
  · intro q hq
    obtain ⟨hqp, hq⟩ := hswap q hq
    rw [hseq, if_neg hqp]
    exact h.swapped q hq
  · intro q hq
    rw [hsched] at hq
    rcases List.mem_append.1 hq with hq | hq
    · rw [hseq, if_neg (ne_of_mem_of_not_mem hq hnot)]
      exact ⟨(hrun q).2 (Or.inr (h.scheduled q hq).1), (h.scheduled q hq).2⟩
    · rw [hseq, if_pos (List.mem_singleton.1 hq)]
      exact ⟨(hrun q).2 (Or.inl (List.mem_singleton.1 hq)), hfin⟩
  · rw [hsched]
    refine List.nodup_append.2 ⟨h.nodup, List.nodup_singleton p, ?_⟩
    intro a ha b hb hab
    exact hnot (List.mem_singleton.1 hb ▸ hab ▸ ha)
  · have hcost : cost s'.sched (s.output.scheduledGroups ++ [p])
        = cost s.sched s.output.scheduledGroups + (seqEntries x).length := by
      rw [← cost_eq hseq hnot]
      simp [cost, hseq]
    have := h.tokens
    rw [hsched, hcost]
    omega
  · have := h.seqs
    rw [hsched]
    simp only [List.length_append, List.length_singleton]
    omega

variable {rest init : List GroupPtr} {v : GroupPtr}

/-- A running group is charged one token, and costs one: it has an output. -/
theorem decodeGroup (h : MidBudget st s) (hwf : st.WellFormed) (hs : st.MidStep s)
    (hat : st.DecodesAt (p :: rest) s) (hfin : (s.sched.seq p).isFinished = false)
    (hfits : s.decodeFits p) : MidBudget st (s.decodeGroup p) := by
  have hp := hat.mem_running
  have hsingle := hs.wf.single_of_mem (WellFormed.mem_running hp)
  have hnot := hat.not_scheduled hwf.queues.nodup_running (List.mem_cons_self ..)
  have htext := appendBlocks_text s.sched.blockManager (s.sched.seq p)
  have hone : (seqEntries (appendBlocks s.sched.blockManager (s.sched.seq p)).1).length = 1 := by
    refine seqEntries_length_of_output ?_ (htext.isFinished.trans hfin)
    rw [htext.outputTokens]
    exact h.running p hp hfin hnot
  obtain ⟨htokens, hseqs, -⟩ := hfits
  have hcharge := hsingle.estimateTokens_decode hfin
  refine h.schedules (p := p) (x := (appendBlocks s.sched.blockManager (s.sched.seq p)).1)
    (fun q => ?_) hnot htext.promptTokens (htext.isFinished.trans hfin) ?_ ?_ rfl ?_ ?_
  · rw [decodeGroup_sched hsingle]
    exact seq_of_groups rfl q
  · intro q
    exact ⟨Or.inr, fun hq => hq.elim (fun hqp => hqp ▸ hp) id⟩
  · intro q hq
    exact ⟨fun hqp => hs.wf.queues.disjoint_running_swapped hp (hqp ▸ hq), hq⟩
  · rw [hone]
    simp only [ScheduleState.decodeGroup, charge]
    omega
  · simp only [ScheduleState.decodeGroup, charge]
    omega

/-- A waiting group is charged its prompt, and costs no more. -/
theorem admitGroup (h : MidBudget st s) (hs : st.MidStep s) (hwait : s.sched.waiting = p :: rest)
    (hfits : s.prefillFits p) : MidBudget st (s.admitGroup p rest) := by
  have hpw : p ∈ s.sched.waiting := by rw [hwait]; exact List.mem_cons_self ..
  have hsingle := hs.wf.single_of_mem (WellFormed.mem_waiting hpw)
  have hnot : p ∉ s.output.scheduledGroups :=
    fun hmem => hs.wf.queues.disjoint_running_waiting (h.scheduled p hmem).1 hpw
  obtain ⟨bids, -, hseq⟩ := admitGroup_seq hsingle rest
  have hprompt := h.prompts p (hs.queued.mem_iff.1 (WellFormed.mem_waiting hpw))
  obtain ⟨hseqs, htokens, -⟩ := hfits
  have hcharge : estimateTokens (s.sched.groups p) true = (s.sched.seq p).promptLen :=
    hsingle.estimateTokens_prefill
  refine h.schedules hseq hnot rfl rfl ?_ ?_ rfl ?_ ?_
  · intro q
    simp only [ScheduleState.admitGroup, charge, List.mem_append, List.mem_singleton]
    exact or_comm
  · intro q hq
    exact ⟨fun hqp => hs.wf.queues.disjoint_waiting_swapped hpw (hqp ▸ hq), hq⟩
  · refine Nat.le_trans (Nat.add_le_add_right (seqEntries_length_le ?_) _) ?_
    · exact hprompt
    show (s.sched.seq p).promptLen
      + (s.budgetTokens - estimateTokens (s.sched.groups p) true) ≤ s.budgetTokens
    omega
  · simp only [ScheduleState.admitGroup, charge]
    omega

/-- What has been scheduled stays in the running queue when its last group is preempted. -/
theorem scheduled_init (h : MidBudget st s) (hwf : st.WellFormed) (hat : st.PreemptsAt s)
    (hrun : s.sched.running = init ++ [v]) : ∀ q ∈ s.output.scheduledGroups, q ∈ init := by
  intro q hq
  have hnot := hat.victim_not_scheduled hwf.queues.nodup_running hrun
  have hq' := (h.scheduled q hq).1
  rw [hrun] at hq'
  exact mem_of_mem_concat hq' (ne_of_mem_of_not_mem hq hnot)

theorem swapOutGroup (h : MidBudget st s) (hwf : st.WellFormed) (hs : st.MidStep s)
    (hat : st.PreemptsAt s) (hrun : s.sched.running = init ++ [v]) :
    MidBudget st (s.swapOutGroup v init) := by
  have hv : v ∈ s.sched.running := by rw [hrun]; simp
  have hsingle := hs.wf.single_of_mem (WellFormed.mem_running hv)
  have hnot := hat.victim_not_scheduled hwf.queues.nodup_running hrun
  have htext := swapOutSequence_text (s.sched.blockManager, s.output.blockSwapsOut) (s.sched.seq v)
  refine h.move (p := v) (fun q => ?_) hnot htext.promptTokens (fun q hq _ => ?_) (fun q hq hqv => ?_)
    (fun _ hfin => ?_) (h.scheduled_init hwf hat hrun) rfl (Nat.le_refl _) (Nat.le_refl _)
  · rw [swapOutGroup_sched hsingle]
    exact seq_of_groups rfl q
  · rw [hrun]
    exact List.mem_append_left _ hq
  · exact mem_of_mem_concat hq hqv
  · rw [htext.outputTokens]
    exact h.running v hv (htext.isFinished ▸ hfin) hnot

/-- A victim that is finished goes to the waiting queue with its output. -/
theorem recomputeGroup (h : MidBudget st s) (hwf : st.WellFormed) (hs : st.MidStep s)
    (hat : st.PreemptsAt s) (hrun : s.sched.running = init ++ [v]) :
    MidBudget st (s.recomputeGroup v init) := by
  have hv : v ∈ s.sched.running := by rw [hrun]; simp
  have hsingle := hs.wf.single_of_mem (WellFormed.mem_running hv)
  have hnot := hat.victim_not_scheduled hwf.queues.nodup_running hrun
  refine h.move (p := v) (fun q => ?_) hnot
    (recomputeSequence_promptTokens s.sched.blockManager (s.sched.seq v)) (fun q hq _ => ?_)
    (fun q hq _ => hq) (fun hmem => ?_) (h.scheduled_init hwf hat hrun) rfl (Nat.le_refl _)
    (Nat.le_refl _)
  · rw [recomputeGroup_sched hsingle]
    exact seq_of_groups rfl q
  · rw [hrun]
    exact List.mem_append_left _ hq
  · -- the victim is in neither queue any more
    rcases List.mem_append.1 hmem with hmem | hmem
    · exact absurd hmem (hs.wf.queues.not_mem_init hrun)
    · exact absurd hmem (hs.wf.queues.disjoint_running_swapped hv)

theorem swapInGroup (h : MidBudget st s) (hs : st.MidStep s) (hswap : s.sched.swapped = p :: rest) :
    MidBudget st (s.swapInGroup p rest) := by
  have hps : p ∈ s.sched.swapped := by rw [hswap]; exact List.mem_cons_self ..
  have hsingle := hs.wf.single_of_mem (WellFormed.mem_swapped hps)
  have hnot : p ∉ s.output.scheduledGroups :=
    fun hmem => hs.wf.queues.disjoint_running_swapped (h.scheduled p hmem).1 hps
  have htext := swapInSequence_text (s.sched.blockManager, s.output.blockSwapsIn) (s.sched.seq p)
  refine h.move (p := p) (fun q => ?_) hnot htext.promptTokens (fun q hq hqp => ?_) (fun q hq _ => ?_)
    (fun _ hfin => ?_) (fun q hq => ?_) rfl (Nat.sub_le _ _) (Nat.sub_le _ _)
  · rw [swapInGroup_sched hsingle]
    exact seq_of_groups rfl q
  · exact mem_of_mem_concat hq hqp
  · rw [hswap]
    exact List.mem_cons_of_mem _ hq
  · rw [htext.outputTokens]
    exact h.swapped p hps (htext.isFinished ▸ hfin)
  · exact List.mem_append_left _ (h.scheduled q hq).1

end MidBudget

/-- **One call stays within its budgets**, from queues in which what runs or is swapped out and not
    finished has an output. -/
theorem schedule_midBudget {st : Scheduler} (hwf : st.WellFormed)
    (hprompts : ∀ q ∈ st.queued, (st.seq q).promptTokens ≠ [])
    (hrun : ∀ q ∈ st.running, (st.seq q).isFinished = false → (st.seq q).outputTokens ≠ [])
    (hswap : ∀ q ∈ st.swapped, (st.seq q).isFinished = false → (st.seq q).outputTokens ≠ []) :
    st.MidStep st.afterSwapIn ∧ MidBudget st st.afterSwapIn := by
  refine afterSwapIn_wellFormed hwf ?_ ?_ ?_ ?_ ?_ ?_ ?_
  · exact ⟨hprompts, fun q hq hfin _ => hrun q hq hfin, hswap,
      fun _ hq => absurd hq List.not_mem_nil, List.nodup_nil, Nat.le_of_eq (Nat.zero_add _),
      Nat.le_of_eq (Nat.zero_add _)⟩
  · intro s p rest hs h hat hfin hfits
    exact h.decodeGroup hwf hs hat hfin hfits
  · intro s init v _ hs h hat hv
    exact h.swapOutGroup hwf hs hat hv
  · intro s init v _ hs h hat hv
    exact h.recomputeGroup hwf hs hat hv
  · intro s w _ h _
    exact ⟨h.prompts, h.running, h.swapped, h.scheduled, h.nodup, h.tokens, h.seqs⟩
  · intro s p rest hs h _ hwait hfits
    exact h.admitGroup hs hwait hfits
  · intro s p rest hs h hswap _
    exact h.swapInGroup hs hswap

/-! ## Runs -/

/-- The loop with aborts. An abort leaves the loop where it is. -/
def abortingStep (d : Driver) : SessionOp → Driver
  | .loop op => d.step op
  | .abortRequest requestId => { d with sched := d.sched.abortRequest requestId }

/-- Requests are aborted between two iterations. -/
def AbortsBetween (d : Driver) : SessionOp → Prop
  | .loop op => d.Enabled op
  | .abortRequest _ =>
    match d.phase with
    | .ready => True
    | .scheduled _ | .batched _ _ | .decoded _ _ | .updated => False

instance : (d : Driver) → (op : SessionOp) → Decidable (d.AbortsBetween op)
  | d, .loop op => inferInstanceAs (Decidable (d.Enabled op))
  | ⟨_, phase, _⟩, .abortRequest _ =>
    match phase with
    | .ready => isTrue trivial
    | .scheduled _ | .batched _ _ | .decoded _ _ | .updated => isFalse id

/-- The batch fits the limits of the configuration. -/
structure FitsLimits (config : SchedulerConfig) (batch : DecodeBatch) : Prop where
  tokens : batch.totalTokens ≤ config.maxNumBatchedTokens
  seqs : (batch.entries.map BatchEntry.seqId).dedup.length ≤ config.maxNumSeqs

/-- Between the calls of the loop. What runs or is swapped out and is not finished has an output, except
    for what has been scheduled and not yet updated; that costs no more than the limits allow. -/
structure Budgeted (config : SchedulerConfig) (d : Driver) : Prop where
  wf : d.sched.WellFormed
  limits : d.sched.config = config
  prompts : ∀ p ∈ d.sched.queued, (d.sched.seq p).promptTokens ≠ []
  running : ∀ p ∈ d.sched.running, (d.sched.seq p).isFinished = false → p ∉ d.phase.pending →
    (d.sched.seq p).outputTokens ≠ []
  swapped : ∀ p ∈ d.sched.swapped, (d.sched.seq p).isFinished = false →
    (d.sched.seq p).outputTokens ≠ []
  pending : ∀ p ∈ d.phase.pending, p ∈ d.sched.running ∧ (d.sched.seq p).isFinished = false
  nodup : d.phase.pending.Nodup
  seqs : d.phase.pending.length ≤ config.maxNumSeqs
  tokens : ∀ out, d.phase = .scheduled out →
    cost d.sched out.scheduledGroups ≤ config.maxNumBatchedTokens
  batched : ∀ out batch, d.phase = .batched out batch →
    FitsLimits config batch ∧ out.scheduledGroups.length ≤ batch.entries.length
  decoded : ∀ out toks, d.phase = .decoded out toks → out.scheduledGroups.length ≤ toks.length

namespace Budgeted

variable {config : SchedulerConfig} {d : Driver}

theorem addRequest (h : d.Budgeted config) {group : SequenceGroup}
    (hfresh : d.sched.FreshRequest group) (hprompt : group.seq.promptTokens ≠ []) :
    Budgeted config { d with sched := d.sched.addRequest group } := by
  have hold := h.wf.seq_addRequest group
  have hrun : ∀ q ∈ d.sched.running, (d.sched.addRequest group).seq q = d.sched.seq q :=
    fun q hq => hold q (WellFormed.mem_running hq)
  refine ⟨addRequest_wellFormed h.wf hfresh, h.limits, ?_, ?_, ?_, ?_, h.nodup, h.seqs, ?_,
    h.batched, h.decoded⟩
  · intro q hq
    rcases List.mem_cons.1 ((d.sched.addRequest_queued group).mem_iff.1 hq) with rfl | hq
    · rw [Scheduler.seq, groups_addRequest_self]
      exact hprompt
    · rw [hold q hq]
      exact h.prompts q hq
  · intro q hq
    rw [hrun q hq]
    exact h.running q hq
  · intro q hq
    rw [hold q (WellFormed.mem_swapped hq)]
    exact h.swapped q hq
  · intro q hq
    rw [hrun q (h.pending q hq).1]
    exact h.pending q hq
  · intro out hout
    have hcost : cost (d.sched.addRequest group) out.scheduledGroups
        = cost d.sched out.scheduledGroups := by
      unfold cost
      congr 1
      apply List.map_congr_left
      intro q hq
      rw [hrun q (h.pending q (by rw [show d.phase = _ from hout]; exact hq)).1]
    rw [hcost]
    exact h.tokens out hout

theorem schedule (h : d.Budgeted config) (hphase : d.phase = .ready)
    (fed : GroupPtr → List (BatchEntry × SequenceData)) :
    Budgeted config { sched := d.sched.schedule.2, phase := .scheduled d.sched.schedule.1,
                      fed := fed } := by
  have hrun := h.running
  rw [hphase] at hrun
  obtain ⟨hs, hmid⟩ := schedule_midBudget h.wf h.prompts
    (fun q hq hfin => hrun q hq hfin List.not_mem_nil) h.swapped
  have htokens := hmid.tokens
  have hseqs := hmid.seqs
  rw [h.limits] at htokens hseqs
  refine ⟨hs.wf, hs.config.trans h.limits, ?_, hmid.running, hmid.swapped, hmid.scheduled,
    hmid.nodup, ?_, ?_, ?_, ?_⟩
  · intro q hq
    exact hmid.prompts q (hs.queued.mem_iff.1 hq)
  · exact Nat.le_of_add_right_le hseqs
  · intro out hout
    cases hout
    exact Nat.le_of_add_right_le htokens
  · intro out batch hout
    cases hout
  · intro out toks hout
    cases hout

/-- The batch costs what its sequences cost, and has no other sequences. -/
theorem fitsLimits (h : d.Budgeted config) {out : SchedulerOutput} (hphase : d.phase = .scheduled out) :
    FitsLimits config (BatchManager.buildBatch d.sched.groups out).1 := by
  have hpending := h.pending
  have hseqs := h.seqs
  rw [hphase] at hpending hseqs
  have hqueued : ∀ p ∈ out.scheduledGroups, p ∈ d.sched.queued :=
    fun p hp => WellFormed.mem_running (hpending p hp).1
  have hentries := buildBatch_entries_single h.wf hqueued
  refine ⟨?_, ?_⟩
  · rw [buildBatch_totalTokens, hentries, List.length_flatMap]
    exact h.tokens out hphase
  · have hsub : ((BatchManager.buildBatch d.sched.groups out).1.entries.map BatchEntry.seqId).dedup ⊆
        out.scheduledGroups.map (fun p => (d.sched.seq p).seqId) := by
      intro id hid
      rw [List.mem_dedup, hentries] at hid
      obtain ⟨e, he, rfl⟩ := List.mem_map.1 hid
      obtain ⟨p, hp, he⟩ := List.mem_flatMap.1 he
      rw [seqEntries_seqId he]
      exact List.mem_map_of_mem hp
    have hlen := ((List.nodup_dedup _).subperm hsub).length_le
    rw [List.length_map] at hlen
    exact Nat.le_trans hlen hseqs

theorem buildBatch (h : d.Budgeted config) {out : SchedulerOutput} (hphase : d.phase = .scheduled out)
    (fed : GroupPtr → List (BatchEntry × SequenceData)) :
    Budgeted config { sched := d.sched,
                      phase := .batched out (BatchManager.buildBatch d.sched.groups out).1,
                      fed := fed } := by
  have hrun := h.running
  have hpending := h.pending
  have hnodup := h.nodup
  have hseqs := h.seqs
  rw [hphase] at hrun hpending hnodup hseqs
  refine ⟨h.wf, h.limits, h.prompts, hrun, h.swapped, hpending, hnodup, hseqs, ?_, ?_, ?_⟩
  · intro out' hout
    cases hout
  · intro out' batch hout
    cases hout
    refine ⟨h.fitsLimits hphase, ?_⟩
    exact length_le_buildBatch h.wf (fun p hp => WellFormed.mem_running (hpending p hp).1)
      (fun p hp => (hpending p hp).2)
      (fun p hp => h.prompts p (WellFormed.mem_running (hpending p hp).1))
  · intro out' toks hout
    cases hout

theorem decode (h : d.Budgeted config) {out : SchedulerOutput} {batch : DecodeBatch}
    (hphase : d.phase = .batched out batch) {toks : List TokenId}
    (hlen : toks.length = batch.entries.length) :
    Budgeted config { d with phase := .decoded out toks } := by
  have hrun := h.running
  have hpending := h.pending
  have hnodup := h.nodup
  have hseqs := h.seqs
  rw [hphase] at hrun hpending hnodup hseqs
  refine ⟨h.wf, h.limits, h.prompts, hrun, h.swapped, hpending, hnodup, hseqs, ?_, ?_, ?_⟩
  · intro out' hout
    cases hout
  · intro out' batch' hout
    cases hout
  · intro out' toks' hout
    cases hout
    rw [hlen]
    exact (h.batched out batch hphase).2

/-- Every scheduled sequence receives a token. -/
theorem updateAfterDecode (h : d.Budgeted config) {out : SchedulerOutput} {toks : List TokenId}
    (hphase : d.phase = .decoded out toks) (now : TimePoint) :
    Budgeted config { d with sched := d.sched.updateAfterDecode out toks now, phase := .updated } := by
  have hrun := h.running
  have hpending := h.pending
  have hnodup := h.nodup
  rw [hphase] at hrun hpending hnodup
  have hother : ∀ p ∉ out.scheduledGroups,
      (d.sched.updateAfterDecode out toks now).seq p = d.sched.seq p :=
    fun p hp => updateAfterDecode_seq_of_not_mem toks now hp
  refine ⟨updateAfterDecode_wellFormed h.wf out toks now, h.limits, ?_, ?_, ?_, ?_, List.nodup_nil,
    Nat.zero_le _, ?_, ?_, ?_⟩
  · intro p hp
    show ((d.sched.updateAfterDecode out toks now).seq p).promptTokens ≠ []
    rw [(h.wf.extends_updateAfterDecode out toks now p hp).promptTokens]
    exact h.prompts p hp
  · intro p hp hfin _
    by_cases hsched : p ∈ out.scheduledGroups
    · obtain ⟨tok, htok⟩ := updateGroups_accepts now out.scheduledGroups d.sched.groups toks hnodup
        (fun q hq => ⟨h.wf.single_of_mem (WellFormed.mem_running (hpending q hq).1),
          (hpending q hq).2⟩) (h.decoded out toks hphase) hsched
      show (updateGroups now out.scheduledGroups d.sched.groups toks p).seq.outputTokens ≠ []
      rw [htok, acceptToken_outputTokens]
      exact List.append_ne_nil_of_right_ne_nil _ (List.cons_ne_nil _ _)
    · rw [hother p hsched] at hfin ⊢
      exact hrun p hp hfin hsched
  · intro p hp hfin
    have hsched : p ∉ out.scheduledGroups :=
      fun hs => h.wf.queues.disjoint_running_swapped (hpending p hs).1 hp
    rw [hother p hsched] at hfin ⊢
    exact h.swapped p hp hfin
  · intro p hp
    exact absurd hp List.not_mem_nil
  · intro out' hout
    cases hout
  · intro out' batch hout
    cases hout
  · intro out' toks' hout
    cases hout

theorem freeFinishedRequests (h : d.Budgeted config) (hphase : d.phase = .updated) :
    Budgeted config { d with sched := d.sched.freeFinishedRequests, phase := .ready } := by
  have hwf := freeFinishedRequests_wellFormed h.wf
  have hsub := d.sched.freeFinishedRequests_queued_sublist
  have hrun := h.running
  rw [hphase] at hrun
  rw [freeFinishedRequests_eq] at hwf hsub ⊢
  refine ⟨hwf, h.limits, ?_, ?_, h.swapped, ?_, List.nodup_nil, Nat.zero_le _, ?_, ?_, ?_⟩
  · intro p hp
    exact h.prompts p (hsub.subset hp)
  · intro p hp hfin _
    exact hrun p (List.mem_filter.1 hp).1 hfin List.not_mem_nil
  · intro p hp
    exact absurd hp List.not_mem_nil
  · intro out hout
    cases hout
  · intro out batch hout
    cases hout
  · intro out toks hout
    cases hout

/-- An abort takes no token away and revives nothing. -/
theorem abortRequest (h : d.Budgeted config) (hphase : d.phase = .ready) (requestId : SeqId) :
    Budgeted config { d with sched := d.sched.abortRequest requestId } := by
  have hqueues := d.sched.abortRequest_sameQueues requestId
  have htext : ∀ p, ((d.sched.abortRequest requestId).seq p).promptTokens
        = (d.sched.seq p).promptTokens ∧
      (((d.sched.abortRequest requestId).seq p).isFinished = false →
        (d.sched.seq p).isFinished = false) := by
    intro p
    cases hfound : d.sched.requestMap.lookup requestId with
    | none => simp [Scheduler.abortRequest, hfound]
    | some q =>
        rw [abortRequest_eq h.wf hfound, seq_of_groups rfl p]
        split
        · next hpq =>
            subst hpq
            unfold abortSequence
            split
            · exact ⟨rfl, id⟩
            · exact ⟨rfl, fun hfin => by cases hfin⟩
        · exact ⟨rfl, id⟩
  have houtput : ∀ p, ((d.sched.abortRequest requestId).seq p).outputTokens
      = (d.sched.seq p).outputTokens := fun p => abortRequest_outputTokens h.wf
  have hrun := h.running
  rw [hphase] at hrun
  refine ⟨abortRequest_wellFormed h.wf requestId, hqueues.config.trans h.limits, ?_, ?_, ?_, ?_, ?_,
    ?_, ?_, ?_, ?_⟩
  · intro p hp
    rw [(htext p).1]
    exact h.prompts p (hqueues.queued ▸ hp)
  · intro p hp hfin _
    rw [houtput p]
    exact hrun p (hqueues.running ▸ hp) ((htext p).2 hfin) List.not_mem_nil
  · intro p hp hfin
    rw [houtput p]
    exact h.swapped p (hqueues.swapped ▸ hp) ((htext p).2 hfin)
  · rw [hphase]
    exact fun p hp => absurd hp List.not_mem_nil
  · exact h.nodup
  · exact h.seqs
  · rw [hphase]
    exact fun out hout => by cases hout
  · exact h.batched
  · exact h.decoded

end Budgeted

theorem init_budgeted (config : SchedulerConfig) (cache : CacheConfig) :
    (init config cache).Budgeted config := by
  refine ⟨new_wellFormed config _, rfl, ?_, ?_, ?_, ?_, List.nodup_nil, Nat.zero_le _, ?_, ?_, ?_⟩
  · exact fun p hp => absurd hp List.not_mem_nil
  · exact fun p hp => absurd hp List.not_mem_nil
  · exact fun p hp => absurd hp List.not_mem_nil
  · exact fun p hp => absurd hp List.not_mem_nil
  · exact fun out hout => by cases hout
  · exact fun out batch hout => by cases hout
  · exact fun out toks hout => by cases hout

theorem abortingStep_budgeted {config : SchedulerConfig} (d : Driver) (op : SessionOp)
    (h : d.Budgeted config) (hok : d.AbortsBetween op) : (d.abortingStep op).Budgeted config := by
  cases op with
  | abortRequest requestId =>
      have hphase : d.phase = .ready := by
        cases hphase : d.phase <;> simp [AbortsBetween, hphase] at hok
        rfl
      exact h.abortRequest hphase requestId
  | loop op =>
      show (d.step op).Budgeted config
      rcases step_cases hok with ⟨group, -, hfresh, hprompt, heq⟩ | ⟨-, hphase, heq⟩ |
        ⟨out, -, hphase, heq⟩ | ⟨out, batch, toks, -, hphase, hlen, heq⟩ |
        ⟨out, toks, now, -, hphase, heq⟩ | ⟨-, hphase, heq⟩
      · rw [heq]
        exact h.addRequest hfresh hprompt
      · rw [heq]
        exact h.schedule hphase _
      · rw [heq]
        exact h.buildBatch hphase _
      · rw [heq]
        exact h.decode hphase hlen
      · rw [heq]
        exact h.updateAfterDecode hphase now
      · rw [heq]
        exact h.freeFinishedRequests hphase

/-- **The budgets hold end to end.** In every run of the loop, with aborts between the iterations and in
    either preemption mode: no phase of a call charges more than is left of a budget; no group is
    scheduled twice; and a batch has at most `max_num_batched_tokens` tokens, of at most `max_num_seqs`
    sequences. -/
theorem batch_budgets (config : SchedulerConfig) (cache : CacheConfig) (d : Driver)
    (h : Run.Reach abortingStep AbortsBetween (init config cache) d) :
    Charges d.sched.beginSchedule d.sched.afterSwapIn d.sched.charges ∧
    d.phase.pending.Nodup ∧
    ∀ out batch, d.phase = .batched out batch →
      batch.totalTokens ≤ config.maxNumBatchedTokens ∧
      (batch.entries.map BatchEntry.seqId).dedup.length ≤ config.maxNumSeqs := by
  have hd := h.invariant (init_budgeted config cache) abortingStep_budgeted
  refine ⟨d.sched.schedule_charges, hd.nodup, fun out batch hphase => ?_⟩
  exact ⟨(hd.batched out batch hphase).1.tokens, (hd.batched out batch hphase).1.seqs⟩

/-- Request 1 runs and is aborted with an output; request 2 is aborted while it waits, and the call that
    comes next admits it all the same. -/
def abortedTwo : List SessionOp :=
  [.loop (.addRequest (SequenceGroup.new 1 [4, 5] {})), .loop .schedule, .loop .buildBatch,
    .loop (.step [7, 8]), .loop (.updateAfterDecode 0), .loop .freeFinishedRequests,
    .loop (.addRequest (SequenceGroup.new 2 [4, 5, 6] {})), .abortRequest 1, .abortRequest 2,
    .loop .schedule, .loop .buildBatch]

theorem abortedTwo_budgets :
    ∃ out batch, (abortedTwo.foldl abortingStep (init
        { maxNumSeqs := 1, maxNumBatchedTokens := 3, preemptionMode := .recompute }
        { numGpuBlocks := 4, numCpuBlocks := 1, blockSize := 2 })).phase = .batched out batch ∧
      out.scheduledGroups = [1] ∧ batch.entries.length = 3 ∧ batch.totalTokens ≤ 3 :=
  ⟨_, _, rfl, by decide, by decide,
    ((batch_budgets _ _ _ (Run.Reach.of_allOk abortedTwo (by decide))).2.2 _ _ rfl).1⟩

end Driver

end CacheFlow
