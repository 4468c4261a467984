import CacheFlow.Driver.Service
import CacheFlow.Scheduler.Census

set_option autoImplicit false

/-! # Continuous batching is sequential generation

A model is a function from the tokens so far to the next one. Asked for one sequence at a time it generates
`n` tokens after a prompt by being applied `n` times (`generate`). The loop of `Driver` serves many sequences
at once: they join and leave the batch at different times, are swapped out and in, and lose their output
when they are preempted for recomputation, and the engine answers every entry of a batch with one token.

None of that can be seen in the output. If the engine answers an entry with what the model says after the
tokens up to the entry's position (`modelTokens`), then at any time the output of every sequence is what the
model generates from its prompt alone, and a finished one has as many tokens as were asked for
(`Driver.output_eq_generate`). It takes that each scheduled sequence has one entry in the batch:
`update_after_decode` hands out one token per sequence, so the tokens of a prompt of several entries would go
to its neighbours. -/

namespace CacheFlow

open Scheduler BatchManager

/-- `n` tokens after the prompt, one after another. -/
def generate (next : List TokenId → TokenId) (prompt : List TokenId) : Nat → List TokenId
  | 0 => []
  | n + 1 => generate next prompt n ++ [next (prompt ++ generate next prompt n)]

def SequenceData.allTokens (seq : SequenceData) : List TokenId := seq.promptTokens ++ seq.outputTokens

/-- The output is what the model generates from the prompt. -/
def SequenceData.Generated (next : List TokenId → TokenId) (seq : SequenceData) : Prop :=
  seq.outputTokens = generate next seq.promptTokens seq.outputLen

namespace SequenceData

variable {next : List TokenId → TokenId} {seq seq' : SequenceData}

theorem generated_of_nil (h : seq.outputTokens = []) : seq.Generated next := by
  rw [Generated, outputLen, h]
  rfl

theorem Generated.congr (h : seq.Generated next) (hprompt : seq'.promptTokens = seq.promptTokens)
    (hout : seq'.outputTokens = seq.outputTokens) : seq'.Generated next := by
  rw [Generated, outputLen, hprompt, hout]
  exact h

/-- **One more token** of the model. -/
theorem Generated.acceptToken (h : seq.Generated next) (maxTokens : Int) :
    (acceptToken maxTokens seq (next seq.allTokens)).Generated next := by
  have hout : (BatchManager.acceptToken maxTokens seq (next seq.allTokens)).outputTokens
      = seq.outputTokens ++ [next seq.allTokens] := by
    rw [BatchManager.acceptToken]
    split
    · rfl
    · rfl
  have hprompt : (BatchManager.acceptToken maxTokens seq (next seq.allTokens)).promptTokens
      = seq.promptTokens := by
    rw [BatchManager.acceptToken]
    split
    · rfl
    · rfl
  rw [Generated, outputLen, hout, hprompt, List.length_append, List.length_singleton, generate]
  have hgen : generate next seq.promptTokens seq.outputTokens.length = seq.outputTokens := h.symm
  rw [hgen]
  rfl

end SequenceData

namespace Driver

/-! ## The engine -/

/-- What the engine answers for the entries of one sequence: what the model says after the tokens up to the
    entry's position. -/
def modelAnswers (next : List TokenId → TokenId) (seq : SequenceData) : List TokenId :=
  (seqEntries seq).map (fun e => next (seq.allTokens.take (e.position + 1)))

/-- One token for each entry of the batch. -/
def modelTokens (next : List TokenId → TokenId) (sched : Scheduler) (out : SchedulerOutput) :
    List TokenId :=
  out.scheduledGroups.flatMap (fun p => modelAnswers next (sched.seq p))

/-- A step is answered by the model, and meets a batch with one entry for each scheduled sequence. -/
def Answered (next : List TokenId → TokenId) (d : Driver) : DriverOp → Prop
  | .step newTokens =>
    match d.phase with
    | .batched out _ => newTokens = modelTokens next d.sched out ∧
        ∀ p ∈ out.scheduledGroups, SingleEntry (d.sched.seq p)
    | .ready | .scheduled _ | .decoded _ _ | .updated => True
  | .addRequest _ | .schedule | .buildBatch | .updateAfterDecode _ | .freeFinishedRequests => True

instance (next : List TokenId → TokenId) : (d : Driver) → (op : DriverOp) → Decidable (d.Answered next op)
  | ⟨sched, .batched out _, _⟩, .step newTokens =>
    inferInstanceAs (Decidable (newTokens = modelTokens next sched out ∧
      ∀ p ∈ out.scheduledGroups,
        ((sched.seq p).isFinished = false → (sched.seq p).outputLen = 0 → (sched.seq p).promptLen = 1)))
  | ⟨_, .ready, _⟩, .step _ | ⟨_, .scheduled _, _⟩, .step _ | ⟨_, .decoded _ _, _⟩, .step _
  | ⟨_, .updated, _⟩, .step _ => isTrue trivial
  | _, .addRequest _ | _, .schedule | _, .buildBatch | _, .updateAfterDecode _
  | _, .freeFinishedRequests => isTrue trivial

/-- With one entry, the answer is the next token of the whole sequence. -/
theorem modelAnswers_eq {next : List TokenId → TokenId} {seq : SequenceData}
    (hfin : seq.isFinished = false) (hone : SingleEntry seq) :
    modelAnswers next seq = [next seq.allTokens] := by
  unfold modelAnswers seqEntries
  rw [if_neg (by rw [hfin]; simp)]
  split
  · next hout =>
      have hlen := hone hfin hout
      obtain ⟨tok, htok⟩ := List.length_eq_one_iff.1 hlen
      have hnil : seq.outputTokens = [] := List.eq_nil_of_length_eq_zero hout
      simp [SequenceData.allTokens, htok, hnil, prefillEntry]
  · next hout =>
      have htake : seq.allTokens.take (seq.totalLen - 1 + 1) = seq.allTokens := by
        refine List.take_of_length_le ?_
        rw [SequenceData.allTokens, List.length_append, SequenceData.totalLen, SequenceData.promptLen,
          SequenceData.outputLen]
        omega
      simp [decodeEntry, htake]

theorem modelTokens_eq {next : List TokenId → TokenId} {sched : Scheduler} {out : SchedulerOutput}
    (hfin : ∀ p ∈ out.scheduledGroups, (sched.seq p).isFinished = false)
    (hone : ∀ p ∈ out.scheduledGroups, SingleEntry (sched.seq p)) :
    modelTokens next sched out
      = out.scheduledGroups.map (fun p => next (sched.seq p).allTokens) := by
  rw [modelTokens, List.flatMap_congr (fun p hp => modelAnswers_eq (hfin p hp) (hone p hp))]
  induction out.scheduledGroups with
  | nil => rfl
  | cons p rest ih => rw [List.flatMap_cons, ih, List.map_cons, List.singleton_append]

/-! ## What the calls do to the output -/

/-- With one token for each scheduled group, every unfinished one accepts its own. -/
theorem updateGroups_map (now : TimePoint) (ps : List GroupPtr) (groups : GroupPtr → SequenceGroup)
    (tok : GroupPtr → TokenId) (hnodup : ps.Nodup)
    (hps : ∀ p ∈ ps, (groups p).Single ∧ (groups p).seq.isFinished = false) {p : GroupPtr}
    (hp : p ∈ ps) :
    (updateGroups now ps groups (ps.map tok) p).seq
      = acceptToken (groups p).sampling.maxTokens (groups p).seq (tok p) := by
  induction ps generalizing groups with
  | nil => exact absurd hp List.not_mem_nil
  | cons q rest ih =>
      obtain ⟨hq, hrest⟩ := List.nodup_cons.1 hnodup
      obtain ⟨hsingle, hfin⟩ := hps q (List.mem_cons_self ..)
      rw [updateGroups, List.map_cons, hsingle.sequences]
      simp only [updateSequences, hfin]
      rcases List.mem_cons.1 hp with rfl | hp
      · rw [updateGroups_of_not_mem now rest _ _ hq, Function.update_self]
        rfl
      · have hpq : p ≠ q := fun heq => hq (heq ▸ hp)
        have hrest' := fun (g : SequenceGroup) => ih (Function.update groups q g) hrest
          (fun r hr => by
            have hrq : r ≠ q := fun heq => hq (heq ▸ hr)
            rw [Function.update_of_ne hrq]
            exact hps r (List.mem_cons_of_mem _ hr)) hp
        simp only [Function.update_of_ne hpq] at hrest'
        exact hrest' _

/-- Between the moves of a step: a sequence has its output, or none. -/
def MidOutput (st : Scheduler) (s : ScheduleState) : Prop :=
  ∀ q ∈ st.queued, (s.sched.seq q).outputTokens = (st.seq q).outputTokens ∨
    (s.sched.seq q).outputTokens = []

/-- Rewriting the sequence of one group. -/
theorem MidOutput.move {st : Scheduler} {s s' : ScheduleState} {p : GroupPtr} (h : MidOutput st s)
    {x : SequenceData} (hseq : ∀ q, s'.sched.seq q = if q = p then x else s.sched.seq q)
    (hout : x.outputTokens = (s.sched.seq p).outputTokens ∨ x.outputTokens = []) :
    MidOutput st s' := by
  intro q hq
  rw [hseq]
  split
  · next hqp =>
      subst hqp
      rcases hout with hsame | hnil
      · rw [hsame]
        exact h q hq
      · exact .inr hnil
  · exact h q hq

/-- **A scheduling step** keeps the output of a sequence or drops all of it. -/
theorem schedule_outputs {st : Scheduler} (hwf : st.WellFormed)
    (hbegin : MidLoop st st.beginSchedule) : MidOutput st st.afterSwapIn := by
  obtain ⟨hs, hmid, hdecodes⟩ := afterDecodes_midLoop (P := MidOutput st) hwf
    ⟨hbegin, fun q _ => .inl rfl⟩
    (fun s p rest hs _ h hat hfin _ => by
      obtain ⟨bids, -, hseq⟩ := ScheduleState.decodeGroup_seq
        (hs.wf.single_of_mem (WellFormed.mem_running hat.mem_running)) hfin
      exact h.move hseq (.inl rfl))
    (fun s init v _ hs hmid h _ hrun => by
      have hmem : v ∈ s.sched.queued := WellFormed.mem_running (by rw [hrun]; simp)
      have hfin := hmid.unfinished v (hs.queued.mem_iff.1 hmem)
      obtain ⟨bids, -, hseq⟩ := ScheduleState.swapOutGroup_seq (hs.wf.single_of_mem hmem) init hfin
      exact h.move hseq (.inl rfl))
    (fun s init v _ hs hmid h _ hrun => by
      have hmem : v ∈ s.sched.queued := WellFormed.mem_running (by rw [hrun]; simp)
      have hfin := hmid.unfinished v (hs.queued.mem_iff.1 hmem)
      exact h.move (ScheduleState.recomputeGroup_seq (hs.wf.single_of_mem hmem) init hfin) (.inr rfl))
  refine (afterSwapIn_midLoop (P := MidOutput st) ⟨hs, hmid⟩ ?_ ?_ ?_).2.2
  · intro w _ heq
    rw [heq]
    exact hdecodes
  · intro s p rest hs _ h _ hwaiting _
    have hpw : p ∈ s.sched.waiting := by rw [hwaiting]; exact List.mem_cons_self ..
    obtain ⟨bids, -, hseq⟩ :=
      ScheduleState.admitGroup_seq (hs.wf.single_of_mem (WellFormed.mem_waiting hpw)) rest
    exact h.move hseq (.inl rfl)
  · intro s p rest hs hmid h hswap _
    have hmem : p ∈ s.sched.queued :=
      WellFormed.mem_swapped (by rw [hswap]; exact List.mem_cons_self ..)
    have hfin := hmid.unfinished p (hs.queued.mem_iff.1 hmem)
    obtain ⟨bids, -, hseq⟩ := ScheduleState.swapInGroup_seq (hs.wf.single_of_mem hmem) rest hfin
    exact h.move hseq (.inl rfl)

/-! ## Runs -/

/-- The group is one of the requests `ops` hands in. -/
def Requested (ops : List DriverOp) (g : SequenceGroup) : Prop :=
  ∃ group, .addRequest group ∈ ops ∧ g.requestId = group.requestId ∧ g.sampling = group.sampling ∧
    g.seq.promptTokens = group.seq.promptTokens

/-- Between the calls of the loop: the output of each sequence comes from the model, and the tokens that are
    about to be handed out are the next ones. -/
structure Generating (next : List TokenId → TokenId) (ops : List DriverOp) (d : Driver) : Prop where
  loop : d.Loop
  requested : ∀ p ∈ d.sched.queued, Requested ops (d.sched.groups p)
  generated : ∀ p ∈ d.sched.queued, (d.sched.seq p).Generated next
  short : ∀ p ∈ d.sched.queued, ((d.sched.seq p).isFinished = false ∧
    (d.sched.seq p).outputLen < (d.sched.groups p).outputLimit) ∨ Served (d.sched.groups p)
  answered : ∀ out toks, d.phase = .decoded out toks →
    toks = out.scheduledGroups.map (fun p => next (d.sched.seq p).allTokens)

namespace Generating

variable {next : List TokenId → TokenId} {ops : List DriverOp} {d : Driver}

/-- While nothing is finished. -/
theorem short_of_unfinished (h : d.Generating next ops) {p : GroupPtr} (hp : p ∈ d.sched.queued)
    (hfin : (d.sched.seq p).isFinished = false) :
    (d.sched.seq p).outputLen < (d.sched.groups p).outputLimit := by
  rcases h.short p hp with ⟨-, hlt⟩ | hserved
  · exact hlt
  · rw [Scheduler.seq, hserved.finished] at hfin
    cases hfin

theorem addRequest (h : d.Generating next ops) {group : SequenceGroup}
    (hfresh : d.sched.FreshRequest group) (hprompt : group.seq.promptTokens ≠ [])
    (hop : .addRequest group ∈ ops) :
    Generating next ops { d with sched := d.sched.addRequest group } := by
  have hold : ∀ q ∈ d.sched.queued, (d.sched.addRequest group).groups q = d.sched.groups q :=
    fun q hq => d.sched.groups_addRequest_of_lt group (h.loop.wf.stored q hq)
  have hnew := d.sched.groups_addRequest_self group
  have hqueued : ∀ {P : GroupPtr → Prop}, P d.sched.next → (∀ q ∈ d.sched.queued, P q) →
      ∀ q ∈ (d.sched.addRequest group).queued, P q := by
    intro P hnext hrest q hq
    rcases List.mem_cons.1 ((d.sched.addRequest_queued group).mem_iff.1 hq) with rfl | hq
    · exact hnext
    · exact hrest q hq
  have hseq := hfresh.seq_next
  refine ⟨h.loop.addRequest hfresh hprompt, hqueued ?_ ?_, hqueued ?_ ?_, hqueued ?_ ?_, ?_⟩
  · show Requested ops ((d.sched.addRequest group).groups d.sched.next)
    rw [hnew]
    exact ⟨group, hop, rfl, rfl, rfl⟩
  · intro q hq
    show Requested ops ((d.sched.addRequest group).groups q)
    rw [hold q hq]
    exact h.requested q hq
  · refine SequenceData.generated_of_nil ?_
    show ((d.sched.addRequest group).seq d.sched.next).outputTokens = []
    rw [hseq]
  · intro q hq
    show ((d.sched.addRequest group).seq q).Generated next
    rw [Scheduler.seq, hold q hq]
    exact h.generated q hq
  · left
    show ((d.sched.addRequest group).seq d.sched.next).isFinished = false ∧
      ((d.sched.addRequest group).seq d.sched.next).outputLen
        < ((d.sched.addRequest group).groups d.sched.next).outputLimit
    rw [hseq]
    exact ⟨rfl, outputLimit_pos _⟩
  · intro q hq
    show ((d.sched.addRequest group).seq q).isFinished = false ∧
      ((d.sched.addRequest group).seq q).outputLen
        < ((d.sched.addRequest group).groups q).outputLimit ∨ Served ((d.sched.addRequest group).groups q)
    rw [Scheduler.seq, hold q hq]
    exact h.short q hq
  · intro out toks hphase
    have hpending := h.loop.pending
    rw [show d.phase = .decoded out toks from hphase] at hpending
    rw [h.answered out toks hphase]
    refine List.map_congr_left (fun p hp => ?_)
    show next (d.sched.seq p).allTokens = next ((d.sched.addRequest group).seq p).allTokens
    rw [h.loop.wf.seq_addRequest group p (WellFormed.mem_running (hpending p hp))]

theorem schedule (h : d.Generating next ops) (hphase : d.phase = .ready)
    (fed : GroupPtr → List (BatchEntry × SequenceData)) :
    Generating next ops { sched := d.sched.schedule.2, phase := .scheduled d.sched.schedule.1,
                          fed := fed } := by
  obtain ⟨hs, hmid⟩ := h.loop.midLoop hphase
  have hunfin := h.loop.unfinished (by rw [hphase]; simp)
  have hout := schedule_outputs h.loop.wf (MidLoop.begin hunfin (fun p hp => (h.loop.waiting p hp).2))
  have hsame := (schedule_shuffles d.sched).same
  have hmem : ∀ {p}, p ∈ d.sched.schedule.2.queued → p ∈ d.sched.queued :=
    fun hp => hs.queued.mem_iff.1 hp
  refine ⟨h.loop.schedule hphase fed, ?_, ?_, ?_, ?_⟩
  · intro p hp
    obtain ⟨group, hop, hid, hsampling, hprompt⟩ := h.requested p (hmem hp)
    exact ⟨group, hop, (hsame p).requestId.trans hid, (hsame p).sampling.trans hsampling,
      (hmid.prompts p (hmem hp)).trans hprompt⟩
  · intro p hp
    rcases hout p (hmem hp) with hkept | hnil
    · exact (h.generated p (hmem hp)).congr (hmid.prompts p (hmem hp)) hkept
    · exact SequenceData.generated_of_nil hnil
  · intro p hp
    left
    refine ⟨hmid.unfinished p (hmem hp), ?_⟩
    have hlt := h.short_of_unfinished (hmem hp) (hunfin p (hmem hp))
    show (d.sched.afterSwapIn.sched.seq p).outputLen
      < (d.sched.afterSwapIn.sched.groups p).outputLimit
    rw [SequenceGroup.outputLimit, (hsame p).sampling, ← SequenceGroup.outputLimit]
    rcases hout p (hmem hp) with hkept | hnil
    · rw [SequenceData.outputLen, hkept]
      exact hlt
    · rw [SequenceData.outputLen, hnil]
      exact outputLimit_pos _
  · intro out toks hdec
    cases hdec

theorem updateAfterDecode (h : d.Generating next ops) {out : SchedulerOutput} {toks : List TokenId}
    (hphase : d.phase = .decoded out toks) (now : TimePoint) :
    Generating next ops
      { d with sched := d.sched.updateAfterDecode out toks now, phase := .updated } := by
  have hqueued := h.loop.toQueues.scheduled_queued hphase
  have hnodup := h.loop.toQueues.scheduled_nodup hphase
  have hunfin := h.loop.unfinished (by rw [hphase]; simp)
  have htoks := h.answered out toks hphase
  have hlen : out.scheduledGroups.length ≤ toks.length := by rw [htoks, List.length_map]
  have hU := updateAfterDecode_updated h.loop.wf hnodup
    (fun p hp => ⟨hqueued p hp, hunfin p (hqueued p hp),
      h.short_of_unfinished (hqueued p hp) (hunfin p (hqueued p hp))⟩) hlen now
  refine ⟨h.loop.updateAfterDecode hphase now, ?_, ?_, ?_, ?_⟩
  · intro p hp
    obtain ⟨group, hop, hid, hsampling, hprompt⟩ := h.requested p hp
    obtain ⟨⟨hid', hsampling'⟩, hprompt'⟩ := hU.same p (h.loop.wf.stored p hp)
    exact ⟨group, hop, hid'.trans hid, hsampling'.trans hsampling, hprompt'.trans hprompt⟩
  · intro p hp
    by_cases hs : p ∈ out.scheduledGroups
    · -- the token for this sequence is the next one of the model
      have hseq := updateGroups_map now out.scheduledGroups d.sched.groups
        (fun p => next (d.sched.seq p).allTokens) hnodup
        (fun q hq => ⟨h.loop.wf.single_of_mem (hqueued q hq), hunfin q (hqueued q hq)⟩) hs
      rw [← htoks] at hseq
      show ((d.sched.updateAfterDecode out toks now).groups p).seq.Generated next
      have hseq' : ((d.sched.updateAfterDecode out toks now).groups p).seq
          = acceptToken (d.sched.groups p).sampling.maxTokens (d.sched.seq p)
              (next (d.sched.seq p).allTokens) := hseq
      rw [hseq']
      exact (h.generated p hp).acceptToken _
    · show ((d.sched.updateAfterDecode out toks now).groups p).seq.Generated next
      rw [hU.other p hs]
      exact h.generated p hp
  · intro p hp
    by_cases hs : p ∈ out.scheduledGroups
    · exact (hU.accepted p hs).2
    · show ((d.sched.updateAfterDecode out toks now).seq p).isFinished = false ∧ _ ∨
        Served ((d.sched.updateAfterDecode out toks now).groups p)
      rw [Scheduler.seq, hU.other p hs]
      exact h.short p hp
  · intro out' toks' hdec
    cases hdec

theorem freeFinishedRequests (h : d.Generating next ops) :
    Generating next ops { d with sched := d.sched.freeFinishedRequests, phase := .ready } := by
  have hloop := h.loop.freeFinishedRequests
  have hsub := (freeFinishedRequests_queued_sublist d.sched).subset
  rw [freeFinishedRequests_eq] at hloop hsub ⊢
  refine ⟨hloop, fun p hp => h.requested p (hsub hp), fun p hp => h.generated p (hsub hp),
    fun p hp => h.short p (hsub hp), ?_⟩
  intro out toks hdec
  cases hdec

end Generating

/-- **One call** of the loop. -/
theorem step_generating {next : List TokenId → TokenId} {ops : List DriverOp} (d : Driver)
    (op : DriverOp) (h : d.Generating next ops)
    (hok : (d.Enabled op ∧ d.Answered next op) ∧ op ∈ ops) : (d.step op).Generating next ops := by
  obtain ⟨⟨hok, hanswered⟩, hmem⟩ := hok
  rcases step_cases hok with ⟨group, rfl, hfresh, hprompt, heq⟩ | ⟨-, hphase, heq⟩ |
    ⟨out, -, hphase, heq⟩ | ⟨out, batch, toks, rfl, hphase, -, heq⟩ |
    ⟨out, toks, now, -, hphase, heq⟩ | ⟨-, hphase, heq⟩
  · rw [heq]
    exact h.addRequest hfresh hprompt hmem
  · rw [heq]
    exact h.schedule hphase _
  · rw [heq]
    refine ⟨⟨h.loop.toQueues.pass (by rw [hphase]; rfl) (by rw [hphase]; simp) _, h.loop.prompts⟩,
      h.requested, h.generated, h.short, ?_⟩
    intro out' toks hdec
    cases hdec
  · have hpending := h.loop.pending
    rw [hphase] at hpending
    simp only [Answered, hphase] at hanswered
    obtain ⟨rfl, hone⟩ := hanswered
    rw [heq]
    refine ⟨⟨h.loop.toQueues.pass (by rw [hphase]; rfl) (by rw [hphase]; simp) _, h.loop.prompts⟩,
      h.requested, h.generated, h.short, ?_⟩
    intro out' toks hdec
    cases hdec
    refine modelTokens_eq (fun p hp => ?_) hone
    exact h.loop.unfinished (by rw [hphase]; simp) p (WellFormed.mem_running (hpending p hp))
  · rw [heq]
    exact h.updateAfterDecode hphase now
  · rw [heq]
    exact h.freeFinishedRequests

theorem init_generating (next : List TokenId → TokenId) (ops : List DriverOp)
    (config : SchedulerConfig) (cache : CacheConfig) : (init config cache).Generating next ops := by
  refine ⟨init_loop config cache, ?_, ?_, ?_, ?_⟩
  · exact fun p hp => absurd hp List.not_mem_nil
  · exact fun p hp => absurd hp List.not_mem_nil
  · exact fun p hp => absurd hp List.not_mem_nil
  · intro out toks hdec
    cases hdec

/-- **Batching cannot be seen in the output.** In every run of the loop in either mode and under any policy,
    in which the model answers every entry and each scheduled sequence has one entry: every sequence that is
    present belongs to a request of the run, its output so far is what the model generates from that
    request's prompt alone, and once it is finished the output is complete. -/
theorem output_eq_generate (next : List TokenId → TokenId) (config : SchedulerConfig)
    (cache : CacheConfig) (ops : List DriverOp)
    (hops : Run.AllOk step (fun d op => d.Enabled op ∧ d.Answered next op) (init config cache) ops)
    (p : GroupPtr) (hp : p ∈ (ops.foldl step (init config cache)).sched.queued) :
    ∃ group, .addRequest group ∈ ops ∧
      ((ops.foldl step (init config cache)).sched.groups p).requestId = group.requestId ∧
      ((ops.foldl step (init config cache)).sched.seq p).outputTokens
        = generate next group.seq.promptTokens
            ((ops.foldl step (init config cache)).sched.seq p).outputLen ∧
      (((ops.foldl step (init config cache)).sched.seq p).isFinished = true →
        ((ops.foldl step (init config cache)).sched.seq p).outputTokens
          = generate next group.seq.promptTokens group.outputLimit) := by
  have hmem : Run.AllOk step (fun _ op => op ∈ ops) (init config cache) ops :=
    Run.allOk_of_split (fun pre op post hsplit => by rw [hsplit]; simp)
  have h := (Run.allOk_and.2 ⟨hops, hmem⟩).invariant (init_generating next ops config cache)
    step_generating
  obtain ⟨group, hop, hid, hsampling, hprompt⟩ := h.requested p hp
  have hgen := h.generated p hp
  rw [SequenceData.Generated, Scheduler.seq, hprompt] at hgen
  refine ⟨group, hop, hid, hgen, fun hfin => ?_⟩
  rcases h.short p hp with ⟨hunfin, -⟩ | hserved
  · rw [hfin] at hunfin
    cases hunfin
  · rw [hserved.2, SequenceGroup.outputLimit, hsampling, ← SequenceGroup.outputLimit] at hgen
    exact hgen

/-- A model that shows the length and the first token. -/
def countingModel (tokens : List TokenId) : TokenId := 10 * tokens.length + tokens.headD 0

/-- Two requests of four tokens on three blocks: in the third iteration the second one loses its output, and
    in the fourth the first one is finished. -/
def recomputedRun : List DriverOp :=
  [.addRequest (.new 1 [3] { maxTokens := 4 }), .addRequest (.new 2 [5] { maxTokens := 4 }),
    .schedule, .buildBatch, .step [13, 15], .updateAfterDecode 0, .freeFinishedRequests,
    .schedule, .buildBatch, .step [23, 25], .updateAfterDecode 1, .freeFinishedRequests,
    .schedule, .buildBatch, .step [33, 15], .updateAfterDecode 2, .freeFinishedRequests,
    .schedule, .buildBatch, .step [43, 25], .updateAfterDecode 3]

theorem recomputedRun_generates :
    let d := recomputedRun.foldl step (init { preemptionMode := .recompute }
      { numGpuBlocks := 3, numCpuBlocks := 0, blockSize := 2 })
    ((d.sched.seq 0).isFinished = true ∧ (d.sched.seq 0).outputTokens = [13, 23, 33, 43]) ∧
      (d.sched.seq 1).outputTokens = [15, 25] ∧
      ∀ p ∈ d.sched.queued, ∃ group, .addRequest group ∈ recomputedRun ∧
        (d.sched.groups p).requestId = group.requestId ∧
        (d.sched.seq p).outputTokens
          = generate countingModel group.seq.promptTokens (d.sched.seq p).outputLen ∧
        ((d.sched.seq p).isFinished = true →
          (d.sched.seq p).outputTokens
            = generate countingModel group.seq.promptTokens group.outputLimit) :=
  ⟨by decide, by decide, output_eq_generate countingModel { preemptionMode := .recompute }
    { numGpuBlocks := 3, numCpuBlocks := 0, blockSize := 2 } recomputedRun (by decide)⟩

end Driver

end CacheFlow
