import CacheFlow.BatchManager.Delivery
import CacheFlow.Scheduler.Single

set_option autoImplicit false

/-! # The driver loop

Every client of the library runs the same loop: `schedule`, `build_batch`, the engine's `step`,
`update_after_decode`, `free_finished_requests`; requests may arrive at any point. `Driver` is that loop
as a state machine. Its phase says which call comes next and keeps what has to be passed on; the
engine may return any tokens, one for each entry of the batch.

`fed` is a record the code does not keep: the entries that were put into a batch for each group since
the scheduler last admitted it, each with the sequence as it was in that step.

The second half of the file is what the loop preserves about the queues alone (`Driver.Queues`, and
`Driver.Loop` for non-empty prompts), for either preemption mode and whether or not allocations succeed. -/

namespace CacheFlow

open Scheduler BatchManager

/-- The number of output tokens at which a sequence of the group is finished. The limit is tested after
    a token has been appended, so it is at least one. -/
def SequenceGroup.outputLimit (g : SequenceGroup) : Nat := (max 1 g.sampling.maxTokens).toNat

theorem SameName.outputLimit {g g' : SequenceGroup} (h : SameName g g') :
    g'.outputLimit = g.outputLimit := by
  rw [SequenceGroup.outputLimit, SequenceGroup.outputLimit, h.sampling]

/-- The call that comes next. -/
inductive Phase
  /-- `schedule`. -/
  | ready
  /-- `build_batch`. -/
  | scheduled (out : SchedulerOutput)
  /-- `step`. -/
  | batched (out : SchedulerOutput) (batch : DecodeBatch)
  /-- `update_after_decode`. -/
  | decoded (out : SchedulerOutput) (newTokens : List TokenId)
  /-- `free_finished_requests`. -/
  | updated

/-- The groups that have been scheduled and not yet updated. -/
def Phase.pending : Phase → List GroupPtr
  | .scheduled out | .batched out _ | .decoded out _ => out.scheduledGroups
  | .ready | .updated => []

structure Driver where
  sched : Scheduler
  phase : Phase
  fed : GroupPtr → List (BatchEntry × SequenceData)

inductive DriverOp
  | addRequest (group : SequenceGroup)
  | schedule
  | buildBatch
  | step (newTokens : List TokenId)
  | updateAfterDecode (now : TimePoint)
  | freeFinishedRequests

namespace Driver

def init (config : SchedulerConfig) (cache : CacheConfig) : Driver where
  sched := Scheduler.new config (BlockManager.new cache)
  phase := .ready
  fed _ := []

/-- The groups that `schedule_prefills` admits in the next call. -/
def admitted (st : Scheduler) : List GroupPtr := st.admissions.map Prod.snd

/-- The entries of a batch that belong to a sequence, with the sequence as it is. -/
def entriesFor (batch : DecodeBatch) (seq : SequenceData) : List (BatchEntry × SequenceData) :=
  (batch.entries.filter (fun e => e.seqId = seq.seqId)).map (fun e => (e, seq))

def step (d : Driver) : DriverOp → Driver
  | .addRequest group => { d with sched := d.sched.addRequest group }
  | .schedule =>
    { sched := d.sched.schedule.2,
      phase := .scheduled d.sched.schedule.1,
      fed := fun p => if p ∈ admitted d.sched then [] else d.fed p }
  | .buildBatch =>
    match d.phase with
    | .scheduled out =>
      let batch := (BatchManager.buildBatch d.sched.groups out).1
      { d with
        phase := .batched out batch,
        fed := fun p =>
          if p ∈ d.sched.queued then d.fed p ++ entriesFor batch (d.sched.seq p) else d.fed p }
    | _ => d
  | .step newTokens =>
    match d.phase with
    | .batched out _ => { d with phase := .decoded out newTokens }
    | _ => d
  | .updateAfterDecode now =>
    match d.phase with
    | .decoded out newTokens =>
      { d with sched := d.sched.updateAfterDecode out newTokens now, phase := .updated }
    | _ => d
  | .freeFinishedRequests => { d with sched := d.sched.freeFinishedRequests, phase := .ready }

/-- What may happen next: the call the phase asks for, or the arrival of a request with one sequence,
    a non-empty prompt and an id no queued request has. -/
def Enabled (d : Driver) (op : DriverOp) : Prop :=
  match op, d.phase with
  | .addRequest group, _ => d.sched.FreshRequest group ∧ group.seq.promptTokens ≠ []
  | .schedule, .ready => True
  | .buildBatch, .scheduled _ => True
  | .step newTokens, .batched _ batch => newTokens.length = batch.entries.length
  | .updateAfterDecode _, .decoded _ _ => True
  | .freeFinishedRequests, .updated => True
  | _, _ => False

instance : (d : Driver) → (op : DriverOp) → Decidable (d.Enabled op)
  | ⟨sched, phase, _⟩, op =>
    match op, phase with
    | .addRequest group, _ =>
      inferInstanceAs (Decidable (sched.FreshRequest group ∧ group.seq.promptTokens ≠ []))
    | .schedule, .ready | .buildBatch, .scheduled _ | .updateAfterDecode _, .decoded _ _
    | .freeFinishedRequests, .updated => isTrue trivial
    | .step newTokens, .batched _ batch =>
      inferInstanceAs (Decidable (newTokens.length = batch.entries.length))
    | .schedule, .scheduled _ | .schedule, .batched _ _ | .schedule, .decoded _ _
    | .schedule, .updated | .buildBatch, .ready | .buildBatch, .batched _ _
    | .buildBatch, .decoded _ _ | .buildBatch, .updated | .step _, .ready | .step _, .scheduled _
    | .step _, .decoded _ _ | .step _, .updated | .updateAfterDecode _, .ready
    | .updateAfterDecode _, .scheduled _ | .updateAfterDecode _, .batched _ _
    | .updateAfterDecode _, .updated | .freeFinishedRequests, .ready
    | .freeFinishedRequests, .scheduled _ | .freeFinishedRequests, .batched _ _
    | .freeFinishedRequests, .decoded _ _ => isFalse id

/-- What may happen next if a request may also have an empty prompt. -/
def Permits (d : Driver) : DriverOp → Prop
  | .addRequest group => d.sched.FreshRequest group
  | op => d.Enabled op

instance (d : Driver) : (op : DriverOp) → Decidable (d.Permits op)
  | .addRequest group => inferInstanceAs (Decidable (d.sched.FreshRequest group))
  | .schedule => inferInstanceAs (Decidable (d.Enabled .schedule))
  | .buildBatch => inferInstanceAs (Decidable (d.Enabled .buildBatch))
  | .step newTokens => inferInstanceAs (Decidable (d.Enabled (.step newTokens)))
  | .updateAfterDecode now => inferInstanceAs (Decidable (d.Enabled (.updateAfterDecode now)))
  | .freeFinishedRequests => inferInstanceAs (Decidable (d.Enabled .freeFinishedRequests))

/-- A request arrives, or the call is one that is enabled. -/
theorem Permits.cases {d : Driver} {op : DriverOp} (h : d.Permits op) :
    (∃ group, op = .addRequest group ∧ d.sched.FreshRequest group) ∨
      (∀ group, op ≠ .addRequest group) ∧ d.Enabled op := by
  cases op with
  | addRequest group => exact .inl ⟨group, rfl, h⟩
  | schedule | buildBatch | step | updateAfterDecode | freeFinishedRequests =>
      exact .inr ⟨by simp, h⟩

/-- **What an enabled operation does**, in one statement: the phase it needs and the state it leads
    to. -/
theorem step_cases {d : Driver} {op : DriverOp} (h : d.Enabled op) :
    (∃ group, op = .addRequest group ∧ d.sched.FreshRequest group ∧ group.seq.promptTokens ≠ [] ∧
      d.step op = { d with sched := d.sched.addRequest group }) ∨
    (op = .schedule ∧ d.phase = .ready ∧
      d.step op = { sched := d.sched.schedule.2, phase := .scheduled d.sched.schedule.1,
                    fed := fun p => if p ∈ admitted d.sched then [] else d.fed p }) ∨
    (∃ out, op = .buildBatch ∧ d.phase = .scheduled out ∧
      d.step op = { d with
        phase := .batched out (BatchManager.buildBatch d.sched.groups out).1,
        fed := fun p => if p ∈ d.sched.queued then
          d.fed p ++ entriesFor (BatchManager.buildBatch d.sched.groups out).1 (d.sched.seq p)
          else d.fed p }) ∨
    (∃ out batch toks, op = .step toks ∧ d.phase = .batched out batch ∧
      toks.length = batch.entries.length ∧ d.step op = { d with phase := .decoded out toks }) ∨
    (∃ out toks now, op = .updateAfterDecode now ∧ d.phase = .decoded out toks ∧
      d.step op = { d with sched := d.sched.updateAfterDecode out toks now, phase := .updated }) ∨
    (op = .freeFinishedRequests ∧ d.phase = .updated ∧
      d.step op = { d with sched := d.sched.freeFinishedRequests, phase := .ready }) := by
  obtain ⟨sched, phase, fed⟩ := d
  cases op with
  | addRequest group => exact Or.inl ⟨group, rfl, h.1, h.2, rfl⟩
  | schedule =>
      cases phase with
      | ready => exact Or.inr (Or.inl ⟨rfl, rfl, rfl⟩)
      | scheduled | batched | decoded | updated => exact False.elim h
  | buildBatch =>
      cases phase with
      | scheduled out => exact Or.inr (Or.inr (Or.inl ⟨out, rfl, rfl, rfl⟩))
      | ready | batched | decoded | updated => exact False.elim h
  | step toks =>
      cases phase with
      | batched out batch =>
          exact Or.inr (Or.inr (Or.inr (Or.inl ⟨out, batch, toks, rfl, rfl, h, rfl⟩)))
      | ready | scheduled | decoded | updated => exact False.elim h
  | updateAfterDecode now =>
      cases phase with
      | decoded out toks =>
          exact Or.inr (Or.inr (Or.inr (Or.inr (Or.inl ⟨out, toks, now, rfl, rfl, rfl⟩))))
      | ready | scheduled | batched | updated => exact False.elim h
  | freeFinishedRequests =>
      cases phase with
      | updated => exact Or.inr (Or.inr (Or.inr (Or.inr (Or.inr ⟨rfl, rfl, rfl⟩))))
      | ready | scheduled | batched | decoded => exact False.elim h

/-! ## A scheduling step on unfinished queues -/

/-- Between the moves of a step: the queued sequences keep their prompts and stay unfinished, waiting
    ones have neither output nor blocks, and what has been scheduled is running. -/
structure MidLoop (st : Scheduler) (s : ScheduleState) : Prop where
  prompts : ∀ q ∈ st.queued, (s.sched.seq q).promptTokens = (st.seq q).promptTokens
  unfinished : ∀ q ∈ st.queued, (s.sched.seq q).isFinished = false
  waiting : ∀ q ∈ s.sched.waiting,
    (s.sched.seq q).outputTokens = [] ∧ (s.sched.seq q).logicalBlocks = []
  scheduled : ∀ q ∈ s.output.scheduledGroups, q ∈ s.sched.running
  nodup : s.output.scheduledGroups.Nodup

variable {st : Scheduler} {s s' : ScheduleState} {p : GroupPtr}

/-- Rewriting the sequence of one group and moving the group. -/
theorem MidLoop.move (h : MidLoop st s) {x : SequenceData}
    (hseq : ∀ q, s'.sched.seq q = if q = p then x else s.sched.seq q)
    (hprompt : x.promptTokens = (s.sched.seq p).promptTokens) (hfin : x.isFinished = false)
    (hwait : ∀ q ∈ s'.sched.waiting, q ≠ p → q ∈ s.sched.waiting)
    (hp : p ∈ s'.sched.waiting → x.outputTokens = [] ∧ x.logicalBlocks = [])
    (hsched : ∀ q ∈ s'.output.scheduledGroups, q ∈ s'.sched.running)
    (hnodup : s'.output.scheduledGroups.Nodup) : MidLoop st s' := by
  refine ⟨?_, ?_, ?_, hsched, hnodup⟩
  · intro q hq
    rw [hseq]
    split
    · next hqp => rw [hprompt, ← hqp, h.prompts q hq]
    · exact h.prompts q hq
  · intro q hq
    rw [hseq]
    split
    · exact hfin
    · exact h.unfinished q hq
  · intro q hq
    rw [hseq]
    split
    · next hqp => exact hp (hqp ▸ hq)
    · next hqp => exact h.waiting q (hwait q hq hqp)

namespace MidLoop

theorem begin (hunfin : ∀ q ∈ st.queued, (st.seq q).isFinished = false)
    (hwait : ∀ q ∈ st.waiting, (st.seq q).outputTokens = [] ∧ (st.seq q).logicalBlocks = []) :
    MidLoop st st.beginSchedule :=
  ⟨fun _ _ => rfl, hunfin, hwait, fun _ hq => absurd hq List.not_mem_nil, List.nodup_nil⟩

theorem decodeGroup {rest : List GroupPtr} (h : MidLoop st s) (hwf : st.WellFormed)
    (hs : st.MidStep s) (hat : st.DecodesAt (p :: rest) s)
    (hfin : (s.sched.seq p).isFinished = false) : MidLoop st (s.decodeGroup p) := by
  have hp := hat.mem_running
  have hsingle := hs.wf.single_of_mem (WellFormed.mem_running hp)
  obtain ⟨bids, -, hseq⟩ := ScheduleState.decodeGroup_seq hsingle hfin
  refine h.move hseq rfl hfin (fun _ hq _ => hq)
    (fun hw => absurd hw (hs.wf.queues.disjoint_running_waiting hp)) ?_ ?_
  · intro q hq
    rcases List.mem_append.1 hq with hq | hq
    · exact h.scheduled q hq
    · rw [List.mem_singleton.1 hq]
      exact hp
  · refine List.nodup_append.2 ⟨h.nodup, List.nodup_singleton p, ?_⟩
    intro a ha b hb hab
    rw [hab, List.mem_singleton.1 hb] at ha
    exact hat.not_scheduled hwf.queues.nodup_running (List.mem_cons_self ..) ha

/-- What has been scheduled stays in the running queue when its last group is preempted. -/
theorem scheduled_init {init : List GroupPtr} {v : GroupPtr} (h : MidLoop st s)
    (hwf : st.WellFormed) (hat : st.PreemptsAt s) (hrun : s.sched.running = init ++ [v]) :
    ∀ q ∈ s.output.scheduledGroups, q ∈ init := by
  intro q hq
  have hnot := hat.victim_not_scheduled hwf.queues.nodup_running hrun
  have hq' := h.scheduled q hq
  rw [hrun] at hq'
  rcases List.mem_append.1 hq' with hq' | hq'
  · exact hq'
  · exact absurd hq (by rw [List.mem_singleton.1 hq']; exact hnot)

theorem swapOutGroup {init : List GroupPtr} {v : GroupPtr} (h : MidLoop st s)
    (hwf : st.WellFormed) (hs : st.MidStep s) (hat : st.PreemptsAt s)
    (hrun : s.sched.running = init ++ [v]) : MidLoop st (s.swapOutGroup v init) := by
  have hmem : v ∈ s.sched.queued := WellFormed.mem_running (by rw [hrun]; simp)
  have hfin := h.unfinished v (hs.queued.mem_iff.1 hmem)
  obtain ⟨bids, -, hseq⟩ := ScheduleState.swapOutGroup_seq (hs.wf.single_of_mem hmem) init hfin
  refine h.move hseq rfl rfl (fun _ hq _ => hq) ?_ (h.scheduled_init hwf hat hrun) h.nodup
  intro hw
  exact absurd hw (hs.wf.queues.disjoint_running_waiting (by rw [hrun]; simp))

theorem recomputeGroup {init : List GroupPtr} {v : GroupPtr} (h : MidLoop st s)
    (hwf : st.WellFormed) (hs : st.MidStep s) (hat : st.PreemptsAt s)
    (hrun : s.sched.running = init ++ [v]) : MidLoop st (s.recomputeGroup v init) := by
  have hmem : v ∈ s.sched.queued := WellFormed.mem_running (by rw [hrun]; simp)
  have hfin := h.unfinished v (hs.queued.mem_iff.1 hmem)
  have hseq := ScheduleState.recomputeGroup_seq (hs.wf.single_of_mem hmem) init hfin
  refine h.move hseq rfl rfl ?_ (fun _ => ⟨rfl, rfl⟩) (h.scheduled_init hwf hat hrun) h.nodup
  intro q hq hqv
  rcases List.mem_cons.1 hq with heq | hq
  · exact absurd heq hqv
  · exact hq

theorem sorted {w : List GroupPtr} (h : MidLoop st s) (hperm : w.Perm s.sched.waiting) :
    MidLoop st { s with sched := { s.sched with waiting := w } } :=
  ⟨h.prompts, h.unfinished, fun q hq => h.waiting q (hperm.mem_iff.1 hq), h.scheduled, h.nodup⟩

theorem admitGroup {rest : List GroupPtr} (h : MidLoop st s) (hs : st.MidStep s)
    (hwaiting : s.sched.waiting = p :: rest) : MidLoop st (s.admitGroup p rest) := by
  have hpw : p ∈ s.sched.waiting := by rw [hwaiting]; exact List.mem_cons_self ..
  have hsingle := hs.wf.single_of_mem (WellFormed.mem_waiting hpw)
  have hnot : p ∉ s.sched.running := fun hr => hs.wf.queues.disjoint_running_waiting hr hpw
  obtain ⟨bids, -, hseq⟩ := ScheduleState.admitGroup_seq hsingle rest
  have hprest := hs.wf.queues.not_mem_rest_waiting hwaiting
  refine h.move hseq rfl rfl ?_ (fun hp => absurd hp hprest) ?_ ?_
  · intro q hq _
    rw [hwaiting]
    exact List.mem_cons_of_mem _ hq
  · intro q hq
    rcases List.mem_append.1 hq with hq | hq
    · exact List.mem_append_left _ (h.scheduled q hq)
    · exact List.mem_append_right _ hq
  · refine List.nodup_append.2 ⟨h.nodup, List.nodup_singleton p, ?_⟩
    intro a ha b hb hab
    rw [hab, List.mem_singleton.1 hb] at ha
    exact hnot (h.scheduled p ha)

theorem swapInGroup {rest : List GroupPtr} (h : MidLoop st s) (hs : st.MidStep s)
    (hswap : s.sched.swapped = p :: rest) : MidLoop st (s.swapInGroup p rest) := by
  have hps : p ∈ s.sched.swapped := by rw [hswap]; exact List.mem_cons_self ..
  have hmem : p ∈ s.sched.queued := WellFormed.mem_swapped hps
  have hfin := h.unfinished p (hs.queued.mem_iff.1 hmem)
  obtain ⟨bids, -, hseq⟩ := ScheduleState.swapInGroup_seq (hs.wf.single_of_mem hmem) rest hfin
  refine h.move hseq rfl rfl (fun _ hq _ => hq) ?_ ?_ h.nodup
  · intro hw
    exact absurd hps (hs.wf.queues.disjoint_waiting_swapped hw)
  · intro q hq
    exact List.mem_append_left _ (h.scheduled q hq)

end MidLoop

/-- **Rule for the decode phase** of the loop. -/
theorem afterDecodes_midLoop {P : ScheduleState → Prop} (hwf : st.WellFormed)
    (hbegin : MidLoop st st.beginSchedule ∧ P st.beginSchedule)
    (hdecode : ∀ s p rest, st.MidStep s → MidLoop st s → P s → st.DecodesAt (p :: rest) s →
      (s.sched.seq p).isFinished = false → s.decodeFits p → P (s.decodeGroup p))
    (hswapOut : ∀ s init v, st.config.preemptionMode = .swap → st.MidStep s → MidLoop st s → P s →
      st.PreemptsAt s → s.sched.running = init ++ [v] → P (s.swapOutGroup v init))
    (hrecompute : ∀ s init v, st.config.preemptionMode = .recompute → st.MidStep s →
      MidLoop st s → P s → st.PreemptsAt s → s.sched.running = init ++ [v] →
      P (s.recomputeGroup v init)) :
    st.MidStep st.afterDecodes ∧ MidLoop st st.afterDecodes ∧ P st.afterDecodes := by
  refine afterDecodes_wellFormed (P := fun s => MidLoop st s ∧ P s) hwf hbegin ?_ ?_ ?_
  · rintro s p rest hs ⟨h, hP⟩ hat hfin hfits
    exact ⟨h.decodeGroup hwf hs hat hfin, hdecode s p rest hs h hP hat hfin hfits⟩
  · rintro s init v hmode hs ⟨h, hP⟩ hat hrun
    exact ⟨h.swapOutGroup hwf hs hat hrun, hswapOut s init v hmode hs h hP hat hrun⟩
  · rintro s init v hmode hs ⟨h, hP⟩ hat hrun
    exact ⟨h.recomputeGroup hwf hs hat hrun, hrecompute s init v hmode hs h hP hat hrun⟩

/-- **Rule for the other phases** of the loop. -/
theorem afterSwapIn_midLoop {P : ScheduleState → Prop}
    (hdecodes : st.MidStep st.afterDecodes ∧ MidLoop st st.afterDecodes)
    (hsorted : ∀ w, w.Perm st.afterDecodes.sched.waiting →
      st.beforePrefills = { st.afterDecodes with
        sched := { st.afterDecodes.sched with waiting := w } } → P st.beforePrefills)
    (hfront : ∀ s p rest, st.MidStep s → MidLoop st s → P s → (s, p) ∈ st.admissions →
      s.sched.waiting = p :: rest → s.prefillFits p → P (s.admitGroup p rest))
    (hswapIn : ∀ s p rest, st.MidStep s → MidLoop st s → P s → s.sched.swapped = p :: rest →
      s.swapInFits p → P (s.swapInGroup p rest)) :
    st.MidStep st.afterSwapIn ∧ MidLoop st st.afterSwapIn ∧ P st.afterSwapIn := by
  obtain ⟨hs, h⟩ := hdecodes
  refine afterSwapIn_wellFormed_of (P := fun s => MidLoop st s ∧ P s) ?_ ?_ ?_
  · obtain ⟨w, hperm, hw⟩ := st.afterDecodes.sched.sortWaitingQueue_eq
    have heq : st.beforePrefills = { st.afterDecodes with
        sched := { st.afterDecodes.sched with waiting := w } } := by
      rw [beforePrefills, hw]
    have hP := hsorted w hperm heq
    rw [heq] at hP ⊢
    exact ⟨hs.sorted hperm, h.sorted hperm, hP⟩
  · rintro s p rest hs ⟨h, hP⟩ hadm hwaiting hfits
    exact ⟨h.admitGroup hs hwaiting, hfront s p rest hs h hP hadm hwaiting hfits⟩
  · rintro s p rest hs ⟨h, hP⟩ hswap hfits
    exact ⟨h.swapInGroup hs hswap, hswapIn s p rest hs h hP hswap hfits⟩

theorem schedule_midLoop (hwf : st.WellFormed)
    (hunfin : ∀ q ∈ st.queued, (st.seq q).isFinished = false)
    (hwait : ∀ q ∈ st.waiting, (st.seq q).outputTokens = [] ∧ (st.seq q).logicalBlocks = []) :
    st.MidStep st.afterSwapIn ∧ MidLoop st st.afterSwapIn := by
  obtain ⟨hs, h, -⟩ := afterDecodes_midLoop (P := fun _ => True) hwf
    ⟨MidLoop.begin hunfin hwait, trivial⟩ (fun _ _ _ _ _ _ _ _ _ => trivial)
    (fun _ _ _ _ _ _ _ _ _ => trivial) (fun _ _ _ _ _ _ _ _ _ => trivial)
  obtain ⟨hs', h', -⟩ := afterSwapIn_midLoop (P := fun _ => True) ⟨hs, h⟩ (fun _ _ _ => trivial)
    (fun _ _ _ _ _ _ _ _ _ => trivial) (fun _ _ _ _ _ _ _ _ => trivial)
  exact ⟨hs', h'⟩

/-! ## Handing back one token per scheduled sequence -/

theorem updateAfterDecode_seq_of_not_mem {out : SchedulerOutput} (toks : List TokenId)
    (now : TimePoint) (hp : p ∉ out.scheduledGroups) :
    (st.updateAfterDecode out toks now).seq p = st.seq p :=
  congrArg SequenceGroup.seq (updateGroups_of_not_mem now _ _ _ hp)

/-- The tokens go to the scheduled groups in order: an unfinished one that is not behind the last token
    accepts one. -/
theorem updateGroups_accepts_of_not_mem_drop (now : TimePoint) (ps : List GroupPtr)
    (groups : GroupPtr → SequenceGroup) (toks : List TokenId) (hnodup : ps.Nodup)
    (hps : ∀ p ∈ ps, (groups p).Single ∧ (groups p).seq.isFinished = false) {p : GroupPtr}
    (hp : p ∈ ps) (hserved : p ∉ ps.drop toks.length) :
    ∃ tok, (updateGroups now ps groups toks p).seq
      = acceptToken (groups p).sampling.maxTokens (groups p).seq tok := by
  induction ps generalizing groups toks with
  | nil => exact absurd hp List.not_mem_nil
  | cons q rest ih =>
      obtain ⟨hq, hrest⟩ := List.nodup_cons.1 hnodup
      obtain ⟨hsingle, hfin⟩ := hps q (List.mem_cons_self ..)
      cases toks with
      | nil => exact absurd hp hserved
      | cons tok toks =>
          rw [updateGroups, hsingle.sequences]
          rcases List.mem_cons.1 hp with rfl | hp
          · refine ⟨tok, ?_⟩
            rw [updateGroups_of_not_mem now rest _ _ hq, Function.update_self]
            simp only [updateSequences, hfin]
            rfl
          · have hpq : p ≠ q := fun heq => hq (heq ▸ hp)
            have hrest' := fun (g : SequenceGroup) => ih (Function.update groups q g) toks hrest
              (fun r hr => by
                have hrq : r ≠ q := fun heq => hq (heq ▸ hr)
                rw [Function.update_of_ne hrq]
                exact hps r (List.mem_cons_of_mem _ hr))
              hp hserved
            simp only [Function.update_of_ne hpq] at hrest'
            simp only [updateSequences, hfin]
            exact hrest' _

/-- With a token for each scheduled group, every unfinished one accepts a token. -/
theorem updateGroups_accepts (now : TimePoint) (ps : List GroupPtr)
    (groups : GroupPtr → SequenceGroup) (toks : List TokenId) (hnodup : ps.Nodup)
    (hps : ∀ p ∈ ps, (groups p).Single ∧ (groups p).seq.isFinished = false)
    (hlen : ps.length ≤ toks.length) {p : GroupPtr} (hp : p ∈ ps) :
    ∃ tok, (updateGroups now ps groups toks p).seq
      = acceptToken (groups p).sampling.maxTokens (groups p).seq tok := by
  refine updateGroups_accepts_of_not_mem_drop now ps groups toks hnodup hps hp ?_
  rw [List.drop_eq_nil_of_le hlen]
  exact List.not_mem_nil

/-! ## The loop invariant -/

/-- The queues between the calls of the loop, in either mode. Only after `update_after_decode` may a
    running sequence be finished. -/
structure Queues (d : Driver) : Prop where
  wf : d.sched.WellFormed
  waiting : ∀ p ∈ d.sched.waiting, (d.sched.seq p).isFinished = false ∧
    (d.sched.seq p).outputTokens = [] ∧ (d.sched.seq p).logicalBlocks = []
  swapped : ∀ p ∈ d.sched.swapped, (d.sched.seq p).isFinished = false
  running : d.phase ≠ .updated → ∀ p ∈ d.sched.running, (d.sched.seq p).isFinished = false
  pending : ∀ p ∈ d.phase.pending, p ∈ d.sched.running
  nodup : d.phase.pending.Nodup

namespace Queues

variable {d : Driver}

theorem unfinished (h : d.Queues) (hphase : d.phase ≠ .updated) :
    ∀ p ∈ d.sched.queued, (d.sched.seq p).isFinished = false := by
  intro p hp
  rcases List.mem_append.1 hp with hp | hp
  · exact h.running hphase p hp
  · rcases List.mem_append.1 hp with hp | hp
    · exact (h.waiting p hp).1
    · exact h.swapped p hp

theorem scheduled_running (h : d.Queues) {out : SchedulerOutput} {toks : List TokenId}
    (hphase : d.phase = .decoded out toks) :
    ∀ p ∈ out.scheduledGroups, p ∈ d.sched.running := by
  have hpending := h.pending
  rwa [hphase] at hpending

theorem scheduled_queued (h : d.Queues) {out : SchedulerOutput} {toks : List TokenId}
    (hphase : d.phase = .decoded out toks) :
    ∀ p ∈ out.scheduledGroups, p ∈ d.sched.queued :=
  fun p hp => WellFormed.mem_running (h.scheduled_running hphase p hp)

theorem scheduled_nodup (h : d.Queues) {out : SchedulerOutput} {toks : List TokenId}
    (hphase : d.phase = .decoded out toks) : out.scheduledGroups.Nodup := by
  have hpending := h.nodup
  rwa [hphase] at hpending

theorem midLoop (h : d.Queues) (hphase : d.phase = .ready) :
    d.sched.MidStep d.sched.afterSwapIn ∧ MidLoop d.sched d.sched.afterSwapIn :=
  schedule_midLoop h.wf (h.unfinished (by rw [hphase]; simp)) (fun p hp => (h.waiting p hp).2)

theorem addRequest (h : d.Queues) {group : SequenceGroup} (hfresh : d.sched.FreshRequest group) :
    Queues { d with sched := d.sched.addRequest group } := by
  have hold := h.wf.seq_addRequest group
  have hnew := hfresh.seq_next
  refine ⟨addRequest_wellFormed h.wf hfresh, ?_, ?_, ?_, h.pending, h.nodup⟩
  · intro q hq
    rcases List.mem_append.1 hq with hq | hq
    · rw [hold q (WellFormed.mem_waiting hq)]
      exact h.waiting q hq
    · rw [List.mem_singleton.1 hq, hnew]
      exact ⟨rfl, rfl, rfl⟩
  · intro q hq
    rw [hold q (WellFormed.mem_swapped hq)]
    exact h.swapped q hq
  · intro hphase q hq
    rw [hold q (WellFormed.mem_running hq)]
    exact h.running hphase q hq

theorem schedule (h : d.Queues) (hphase : d.phase = .ready)
    (fed : GroupPtr → List (BatchEntry × SequenceData)) :
    Queues { sched := d.sched.schedule.2, phase := .scheduled d.sched.schedule.1, fed := fed } := by
  obtain ⟨hs, hmid⟩ := h.midLoop hphase
  have hfin : ∀ p ∈ d.sched.schedule.2.queued, (d.sched.schedule.2.seq p).isFinished = false :=
    fun p hp => hmid.unfinished p (hs.queued.mem_iff.1 hp)
  refine ⟨hs.wf, ?_, ?_, ?_, hmid.scheduled, hmid.nodup⟩
  · intro p hp
    exact ⟨hfin p (WellFormed.mem_waiting hp), hmid.waiting p hp⟩
  · intro p hp
    exact hfin p (WellFormed.mem_swapped hp)
  · intro _ p hp
    exact hfin p (WellFormed.mem_running hp)

/-- The calls between `schedule` and `update_after_decode` leave the scheduler alone. -/
theorem pass (h : d.Queues) {phase : Phase} (hpending : phase.pending = d.phase.pending)
    (hphase : d.phase ≠ .updated) (fed : GroupPtr → List (BatchEntry × SequenceData)) :
    Queues { sched := d.sched, phase := phase, fed := fed } :=
  ⟨h.wf, h.waiting, h.swapped, fun _ => h.running hphase, hpending ▸ h.pending, hpending ▸ h.nodup⟩

theorem updateAfterDecode (h : d.Queues) {out : SchedulerOutput} {toks : List TokenId}
    (hphase : d.phase = .decoded out toks) (now : TimePoint) :
    Queues { d with sched := d.sched.updateAfterDecode out toks now, phase := .updated } := by
  have hpending := h.scheduled_running hphase
  have hwait : ∀ p ∈ d.sched.waiting,
      (d.sched.updateAfterDecode out toks now).seq p = d.sched.seq p := fun p hp =>
    updateAfterDecode_seq_of_not_mem toks now
      (fun hs => h.wf.queues.disjoint_running_waiting (hpending p hs) hp)
  have hswap : ∀ p ∈ d.sched.swapped,
      (d.sched.updateAfterDecode out toks now).seq p = d.sched.seq p := fun p hp =>
    updateAfterDecode_seq_of_not_mem toks now
      (fun hs => h.wf.queues.disjoint_running_swapped (hpending p hs) hp)
  refine ⟨updateAfterDecode_wellFormed h.wf out toks now, ?_, ?_, ?_, ?_, List.nodup_nil⟩
  · intro p hp
    rw [hwait p hp]
    exact h.waiting p hp
  · intro p hp
    rw [hswap p hp]
    exact h.swapped p hp
  · intro hne
    exact absurd rfl hne
  · intro p hp
    exact absurd hp List.not_mem_nil

theorem freeFinishedRequests (h : d.Queues) :
    Queues { d with sched := d.sched.freeFinishedRequests, phase := .ready } := by
  have hwf := freeFinishedRequests_wellFormed h.wf
  rw [freeFinishedRequests_eq] at hwf ⊢
  refine ⟨hwf, ?_, h.swapped, ?_, ?_, List.nodup_nil⟩
  · intro p hp
    exact h.waiting p (List.mem_filter.1 hp).1
  · intro _ p hp
    exact ((unfinishedIn_single h.wf (fun _ => WellFormed.mem_running)).1 hp).2
  · intro p hp
    exact absurd hp List.not_mem_nil

end Queues

theorem init_queues (config : SchedulerConfig) (cache : CacheConfig) :
    (init config cache).Queues := by
  refine ⟨new_wellFormed config _, ?_, ?_, ?_, ?_, List.nodup_nil⟩
  · exact fun p hp => absurd hp List.not_mem_nil
  · exact fun p hp => absurd hp List.not_mem_nil
  · exact fun _ p hp => absurd hp List.not_mem_nil
  · exact fun p hp => absurd hp List.not_mem_nil

theorem step_queues (d : Driver) (op : DriverOp) (h : d.Queues) (hok : d.Permits op) :
    (d.step op).Queues := by
  rcases hok.cases with ⟨group, rfl, hfresh⟩ | ⟨hnot, hok⟩
  · exact h.addRequest hfresh
  · rcases step_cases hok with ⟨group, hop, -⟩ | ⟨-, hphase, heq⟩ | ⟨out, -, hphase, heq⟩ |
      ⟨out, batch, toks, -, hphase, -, heq⟩ | ⟨out, toks, now, -, hphase, heq⟩ | ⟨-, hphase, heq⟩
    · exact absurd hop (hnot group)
    · rw [heq]
      exact h.schedule hphase _
    · rw [heq]
      exact h.pass (by rw [hphase]; rfl) (by rw [hphase]; simp) _
    · rw [heq]
      exact h.pass (by rw [hphase]; rfl) (by rw [hphase]; simp) _
    · rw [heq]
      exact h.updateAfterDecode hphase now
    · rw [heq]
      exact h.freeFinishedRequests

/-- The same for requests with non-empty prompts. -/
structure Loop (d : Driver) : Prop extends d.Queues where
  prompts : ∀ p ∈ d.sched.queued, (d.sched.seq p).promptTokens ≠ []

namespace Loop

variable {d : Driver}

theorem addRequest (h : d.Loop) {group : SequenceGroup} (hfresh : d.sched.FreshRequest group)
    (hprompt : group.seq.promptTokens ≠ []) :
    Loop { d with sched := d.sched.addRequest group } := by
  refine ⟨h.toQueues.addRequest hfresh, ?_⟩
  intro q hq
  rcases List.mem_cons.1 ((d.sched.addRequest_queued group).mem_iff.1 hq) with rfl | hq
  · show ((d.sched.addRequest group).seq d.sched.next).promptTokens ≠ []
    rw [Scheduler.seq, groups_addRequest_self]
    exact hprompt
  · show ((d.sched.addRequest group).seq q).promptTokens ≠ []
    rw [h.wf.seq_addRequest group q hq]
    exact h.prompts q hq

theorem schedule (h : d.Loop) (hphase : d.phase = .ready)
    (fed : GroupPtr → List (BatchEntry × SequenceData)) :
    Loop { sched := d.sched.schedule.2, phase := .scheduled d.sched.schedule.1, fed := fed } := by
  obtain ⟨hs, hmid⟩ := h.midLoop hphase
  refine ⟨h.toQueues.schedule hphase fed, ?_⟩
  intro p hp
  have hq : p ∈ d.sched.queued := hs.queued.mem_iff.1 hp
  show (d.sched.afterSwapIn.sched.seq p).promptTokens ≠ []
  rw [hmid.prompts p hq]
  exact h.prompts p hq

theorem updateAfterDecode (h : d.Loop) {out : SchedulerOutput} {toks : List TokenId}
    (hphase : d.phase = .decoded out toks) (now : TimePoint) :
    Loop { d with sched := d.sched.updateAfterDecode out toks now, phase := .updated } := by
  refine ⟨h.toQueues.updateAfterDecode hphase now, ?_⟩
  intro p hp
  show ((d.sched.updateAfterDecode out toks now).seq p).promptTokens ≠ []
  rw [(h.wf.extends_updateAfterDecode out toks now p hp).promptTokens]
  exact h.prompts p hp

theorem freeFinishedRequests (h : d.Loop) :
    Loop { d with sched := d.sched.freeFinishedRequests, phase := .ready } := by
  refine ⟨h.toQueues.freeFinishedRequests, ?_⟩
  intro p hp
  have hmem := (freeFinishedRequests_queued_sublist d.sched).subset hp
  have hprompt := h.prompts p hmem
  simp only [freeFinishedRequests_eq] at hp ⊢
  exact hprompt

end Loop

theorem init_loop (config : SchedulerConfig) (cache : CacheConfig) : (init config cache).Loop :=
  ⟨init_queues config cache, fun _ hp => absurd hp List.not_mem_nil⟩

theorem step_loop (d : Driver) (op : DriverOp) (h : d.Loop) (hok : d.Enabled op) :
    (d.step op).Loop := by
  rcases step_cases hok with ⟨group, -, hfresh, hprompt, heq⟩ | ⟨-, hphase, heq⟩ |
    ⟨out, -, hphase, heq⟩ | ⟨out, batch, toks, -, hphase, -, heq⟩ |
    ⟨out, toks, now, -, hphase, heq⟩ | ⟨-, hphase, heq⟩
  · rw [heq]
    exact h.addRequest hfresh hprompt
  · rw [heq]
    exact h.schedule hphase _
  · rw [heq]
    exact ⟨h.toQueues.pass (by rw [hphase]; rfl) (by rw [hphase]; simp) _, h.prompts⟩
  · rw [heq]
    exact ⟨h.toQueues.pass (by rw [hphase]; rfl) (by rw [hphase]; simp) _, h.prompts⟩
  · rw [heq]
    exact h.updateAfterDecode hphase now
  · rw [heq]
    exact h.freeFinishedRequests

end Driver

end CacheFlow
