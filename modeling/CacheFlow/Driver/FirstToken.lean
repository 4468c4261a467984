import CacheFlow.Driver
import CacheFlow.Profiler.Requests
import CacheFlow.Scheduler.Room

set_option autoImplicit false

/-! # One sample per request of the time to the first token

The benchmarks report to the profiler from the driver loop: `record_request_start` when a request is handed
in; after `update_after_decode`, `record_first_token` for every scheduled sequence whose `output_len` is 1,
and `record_request_end` for every scheduled group that is finished. `Bench` is the loop of `Driver` with
these calls. `firstAt` is a record the code does not keep: when the first token of each request was
generated, which a later token never changes.

The profiler takes a sample whenever it is told, so a request is sampled twice if its `output_len` is 1 in
two iterations. Two things lead there. A group that is preempted for recomputation loses its output and
starts again at 1. And a group that is scheduled behind the last token `update_after_decode` has keeps its
`output_len`, which happens only if some scheduled sequence has an empty prompt. In a run without either
every request is sampled once at most, at its first token (`Bench.first_token_sampled_once`). -/

namespace CacheFlow

open Scheduler BatchManager

/-! ## The loop with its reports -/

structure Bench (K : Type) [Field K] where
  driver : Driver
  profiler : Profiler K
  /-- The ids `record_request_start` was called with. -/
  started : List SeqId
  firstAt : SeqId → Option TimePoint

inductive BenchOp
  /-- `record_request_start` and `add_request`. -/
  | submit (group : SequenceGroup) (now : TimePoint)
  /-- A call of the loop that is not reported. -/
  | call (op : DriverOp)
  /-- `update_after_decode`, then the reports of first tokens and of ends; `first` and `done` are the times
      the profiler reads. -/
  | update (now : TimePoint) (first done : SeqId → TimePoint)

/-- The scheduled groups behind the last new token. -/
def Phase.unserved : Phase → List GroupPtr
  | .decoded out newTokens => out.scheduledGroups.drop newTokens.length
  | .ready | .scheduled _ | .batched _ _ | .updated => []

/-- A call of the loop that is not reported. -/
def DriverOp.Unreported : DriverOp → Prop
  | .schedule | .buildBatch | .step _ | .freeFinishedRequests => True
  | .addRequest _ | .updateAfterDecode _ => False

instance : (op : DriverOp) → Decidable op.Unreported
  | .schedule | .buildBatch | .step _ | .freeFinishedRequests => isTrue trivial
  | .addRequest _ | .updateAfterDecode _ => isFalse id

namespace Bench

variable {K : Type} [Field K] [LinearOrder K]

/-- The sequences `record_first_token` is called for. -/
def reported (groups : GroupPtr → SequenceGroup) (out : SchedulerOutput) : List SeqId :=
  out.scheduledGroups.flatMap (fun p =>
    ((groups p).sequences.filter (fun seq => seq.outputLen = 1)).map SequenceData.seqId)

/-- The loop that calls `record_request_end`. -/
def recordEnds (groups : GroupPtr → SequenceGroup) (out : SchedulerOutput) (clock : SeqId → TimePoint)
    (pr : Profiler K) : Profiler K :=
  out.scheduledGroups.foldl (fun pr p =>
    if (groups p).allFinished then
      pr.recordRequestEnd (groups p).requestId (groups p).seq.outputLen (clock (groups p).requestId)
    else pr) pr

/-- A scheduled sequence with the id has an output. -/
def Generated (groups : GroupPtr → SequenceGroup) (out : SchedulerOutput) (id : SeqId) : Prop :=
  ∃ p ∈ out.scheduledGroups, ∃ seq ∈ (groups p).sequences, seq.seqId = id ∧ seq.outputTokens ≠ []

instance (groups : GroupPtr → SequenceGroup) (out : SchedulerOutput) (id : SeqId) :
    Decidable (Generated groups out id) :=
  inferInstanceAs (Decidable (∃ p ∈ out.scheduledGroups, ∃ seq ∈ (groups p).sequences,
    seq.seqId = id ∧ seq.outputTokens ≠ []))

def init (K : Type) [Field K] (config : SchedulerConfig) (cache : CacheConfig) : Bench K where
  driver := Driver.init config cache
  profiler := {}
  started := []
  firstAt _ := none

def step (b : Bench K) : BenchOp → Bench K
  | .submit group now =>
    { b with
      driver := b.driver.step (.addRequest group),
      profiler := b.profiler.recordRequestStart group.requestId now,
      started := group.requestId :: b.started }
  | .call op => { b with driver := b.driver.step op }
  | .update now first done =>
    match b.driver.phase with
    | .decoded out toks =>
      let groups := (b.driver.sched.updateAfterDecode out toks now).groups
      { b with
        driver := b.driver.step (.updateAfterDecode now),
        profiler := recordEnds groups out done
          (b.profiler.recordFirstTokens (reported groups out) first),
        firstAt := fun id => (b.firstAt id).or (if Generated groups out id then some (first id) else none) }
    | _ => b

/-- What may happen next: a request with one sequence and an id that was not used before, or the call the
    phase asks for. -/
def Enabled (b : Bench K) : BenchOp → Prop
  | .submit group _ => b.driver.sched.FreshRequest group ∧ group.requestId ∉ b.started
  | .call op => op.Unreported ∧ b.driver.Enabled op
  | .update now _ _ => b.driver.Enabled (.updateAfterDecode now)

instance (b : Bench K) : (op : BenchOp) → Decidable (b.Enabled op)
  | .submit group _ =>
    inferInstanceAs (Decidable (b.driver.sched.FreshRequest group ∧ group.requestId ∉ b.started))
  | .call op => inferInstanceAs (Decidable (op.Unreported ∧ b.driver.Enabled op))
  | .update now _ _ => inferInstanceAs (Decidable (b.driver.Enabled (.updateAfterDecode now)))

/-- There are no more samples than requests, and what is recorded as the time of a first token is the time
    of the first token. -/
structure SampledOnce (b : Bench K) : Prop where
  count : b.profiler.ttftStats.count ≤ b.started.dedup.length
  first : ∀ id rec, b.profiler.activeRequests.lookup id = some rec → rec.gotFirstToken = true →
    b.firstAt id = some rec.firstToken

/-- Nothing brings a sequence to a second first token: `schedule()` does not preempt a group with output for
    recomputation, and no group with one token of output is behind the last new token. -/
def NoRepeat (b : Bench K) : BenchOp → Prop
  | .call .schedule => b.driver.sched.config.preemptionMode = .recompute →
      ∀ v ∈ b.driver.sched.victim, (b.driver.sched.seq v).outputTokens = []
  | .update _ _ _ => ∀ p ∈ b.driver.phase.unserved, (b.driver.sched.seq p).outputLen ≠ 1
  | _ => True

instance (b : Bench K) : (op : BenchOp) → Decidable (b.NoRepeat op)
  | .call .schedule => inferInstanceAs (Decidable (b.driver.sched.config.preemptionMode = .recompute →
      ∀ v ∈ b.driver.sched.victim, (b.driver.sched.seq v).outputTokens = []))
  | .update _ _ _ =>
    inferInstanceAs (Decidable (∀ p ∈ b.driver.phase.unserved, (b.driver.sched.seq p).outputLen ≠ 1))
  | .submit _ _ | .call (.addRequest _) | .call .buildBatch | .call (.step _)
  | .call (.updateAfterDecode _) | .call .freeFinishedRequests => isTrue trivial

end Bench

/-! ## A scheduling step without such a preemption -/

/-- The queued sequences keep their ids and what they have generated. -/
structure KeepsOutput (st st' : Scheduler) : Prop where
  seqId : ∀ q ∈ st.queued, (st'.seq q).seqId = (st.seq q).seqId
  outputTokens : ∀ q ∈ st.queued, (st'.seq q).outputTokens = (st.seq q).outputTokens

namespace KeepsOutput

variable {st st' : Scheduler} {s s' : ScheduleState} {p : GroupPtr}

theorem of_seq (h : ∀ q ∈ st.queued, st'.seq q = st.seq q) : KeepsOutput st st' :=
  ⟨fun q hq => by rw [h q hq], fun q hq => by rw [h q hq]⟩

/-- Rewriting the sequence of one group. -/
theorem move (h : KeepsOutput st s.sched) {x : SequenceData}
    (hseq : ∀ q, s'.sched.seq q = if q = p then x else s.sched.seq q)
    (hid : x.seqId = (s.sched.seq p).seqId)
    (hout : x.outputTokens = (s.sched.seq p).outputTokens) : KeepsOutput st s'.sched := by
  constructor
  · intro q hq
    rw [hseq]
    split
    · next hqp => rw [hid, ← hqp, h.seqId q hq]
    · exact h.seqId q hq
  · intro q hq
    rw [hseq]
    split
    · next hqp => rw [hout, ← hqp, h.outputTokens q hq]
    · exact h.outputTokens q hq

section Schedule

variable (hwf : st.WellFormed) (hunfin : ∀ q ∈ st.queued, (st.seq q).isFinished = false)
  (hwait : ∀ q ∈ st.waiting, (st.seq q).outputTokens = [] ∧ (st.seq q).logicalBlocks = [])
  (hvictim : st.config.preemptionMode = .recompute → ∀ v ∈ st.victim, (st.seq v).outputTokens = [])

include hwf hunfin hwait hvictim

/-- The decode phase takes output only from a group that is preempted for recomputation. -/
theorem afterDecodes : st.MidStep st.afterDecodes ∧ Driver.MidLoop st st.afterDecodes ∧
    KeepsOutput st st.afterDecodes.sched :=
  Driver.afterDecodes_midLoop (P := fun s => KeepsOutput st s.sched) hwf
    ⟨Driver.MidLoop.begin hunfin hwait, of_seq (fun _ _ => rfl)⟩
    (fun s p rest hs _ h hat hfin _ => by
      have hsingle := hs.wf.single_of_mem (WellFormed.mem_running hat.mem_running)
      obtain ⟨bids, -, hseq⟩ := ScheduleState.decodeGroup_seq hsingle hfin
      exact h.move hseq rfl rfl)
    (fun s init v _ hs hmid h _ hrun => by
      have hmem : v ∈ s.sched.queued := WellFormed.mem_running (by rw [hrun]; simp)
      have hfin := hmid.unfinished v (hs.queued.mem_iff.1 hmem)
      obtain ⟨bids, -, hseq⟩ := ScheduleState.swapOutGroup_seq (hs.wf.single_of_mem hmem) init hfin
      exact h.move hseq rfl rfl)
    (fun s init v hmode hs hmid h hat hrun => by
      have hmem : v ∈ s.sched.queued := WellFormed.mem_running (by rw [hrun]; simp)
      have hold := hs.queued.mem_iff.1 hmem
      have hseq := ScheduleState.recomputeGroup_seq (hs.wf.single_of_mem hmem) init
        (hmid.unfinished v hold)
      -- the output that is cleared was empty
      have hempty : (s.sched.seq v).outputTokens = [] := by
        rw [h.outputTokens v hold]
        exact hvictim hmode v (hat.victim hrun)
      exact h.move hseq rfl hempty.symm)

/-- The other phases of `schedule()` take none. -/
theorem schedule : KeepsOutput st st.schedule.2 := by
  obtain ⟨hs, hmid, hdecodes⟩ := afterDecodes hwf hunfin hwait hvictim
  obtain ⟨-, -, h⟩ := Driver.afterSwapIn_midLoop (P := fun s => KeepsOutput st s.sched) ⟨hs, hmid⟩
    (fun w _ heq => by
      rw [heq]
      exact ⟨hdecodes.seqId, hdecodes.outputTokens⟩)
    (fun s p rest hs _ h _ hwaiting _ => by
      have hpw : p ∈ s.sched.waiting := by rw [hwaiting]; exact List.mem_cons_self ..
      have hsingle := hs.wf.single_of_mem (WellFormed.mem_waiting hpw)
      obtain ⟨bids, -, hseq⟩ := ScheduleState.admitGroup_seq hsingle rest
      exact h.move hseq rfl rfl)
    (fun s p rest hs hmid h hswap _ => by
      have hps : p ∈ s.sched.swapped := by rw [hswap]; exact List.mem_cons_self ..
      have hmem : p ∈ s.sched.queued := WellFormed.mem_swapped hps
      have hfin := hmid.unfinished p (hs.queued.mem_iff.1 hmem)
      obtain ⟨bids, -, hseq⟩ := ScheduleState.swapInGroup_seq (hs.wf.single_of_mem hmem) rest hfin
      exact h.move hseq rfl rfl)
  exact h

end Schedule

end KeepsOutput

/-! ## What is reported -/

namespace Driver.Queues

variable {d : Driver} {out : SchedulerOutput} {toks : List TokenId}

/-- A sequence that has one token after the update had none before: one that had a token has two now, or is
    behind the last new token. -/
theorem first_output (h : d.Queues) (hphase : d.phase = .decoded out toks) (now : TimePoint)
    (hnew : ∀ p ∈ out.scheduledGroups.drop toks.length, (d.sched.seq p).outputLen ≠ 1)
    {p : GroupPtr} (hp : p ∈ out.scheduledGroups)
    (hlen : ((d.sched.updateAfterDecode out toks now).seq p).outputLen = 1) :
    (d.sched.seq p).outputTokens = [] := by
  have hrun := h.scheduled_running hphase
  rw [← List.length_eq_zero_iff]
  by_cases hserved : p ∈ out.scheduledGroups.drop toks.length
  · have hne := hnew p hserved
    have hle := (h.wf.extends_updateAfterDecode out toks now p
      (WellFormed.mem_running (hrun p hp))).outputTokens
    rw [hlen] at hle
    unfold SequenceData.outputLen at hne hle
    omega
  · obtain ⟨tok, htok⟩ := updateGroups_accepts_of_not_mem_drop now out.scheduledGroups
      d.sched.groups toks (h.scheduled_nodup hphase)
      (fun q hq => ⟨h.wf.single_of_mem (WellFormed.mem_running (hrun q hq)),
        h.running (by rw [hphase]; simp) q (hrun q hq)⟩) hp hserved
    have hseq : (d.sched.updateAfterDecode out toks now).seq p
        = acceptToken (d.sched.groups p).sampling.maxTokens (d.sched.seq p) tok := htok
    rw [hseq, SequenceData.outputLen, acceptToken_outputTokens, List.length_append,
      List.length_singleton] at hlen
    omega

end Driver.Queues

namespace Bench

variable {K : Type} [Field K] [LinearOrder K]

/-- What the end of a request preserves, the loop over the ends preserves. -/
theorem recordEnds_invariant {P : Profiler K → Prop} (groups : GroupPtr → SequenceGroup)
    (out : SchedulerOutput) (clock : SeqId → TimePoint) {pr : Profiler K} (h : P pr)
    (hend : ∀ pr id n now, P pr → P (pr.recordRequestEnd id n now)) :
    P (recordEnds groups out clock pr) := by
  refine List.foldlRecOn out.scheduledGroups _ h (fun pr hpr p _ => ?_)
  split
  · exact hend pr _ _ _ hpr
  · exact hpr

/-- The ends of requests drop records and change none. -/
theorem lookup_recordEnds (groups : GroupPtr → SequenceGroup) (out : SchedulerOutput)
    (clock : SeqId → TimePoint) (pr : Profiler K) {id : SeqId} {rec : RequestRecord}
    (hrec : (recordEnds groups out clock pr).activeRequests.lookup id = some rec) :
    pr.activeRequests.lookup id = some rec := by
  revert hrec
  refine recordEnds_invariant (P := fun pr' => pr'.activeRequests.lookup id = some rec →
    pr.activeRequests.lookup id = some rec) groups out clock (fun hrec => hrec) ?_
  intro pr' id' n now ih hrec
  rw [Profiler.lookup_recordRequestEnd] at hrec
  split at hrec
  · cases hrec
  · exact ih hrec

theorem ttftStats_recordEnds (groups : GroupPtr → SequenceGroup) (out : SchedulerOutput)
    (clock : SeqId → TimePoint) (pr : Profiler K) :
    (recordEnds groups out clock pr).ttftStats = pr.ttftStats :=
  recordEnds_invariant (P := fun pr' => pr'.ttftStats = pr.ttftStats) groups out clock rfl
    (fun pr' id n now ih => (pr'.ttftStats_recordRequestEnd id n now).trans ih)

section Scheduled

variable {st : Scheduler} {out : SchedulerOutput} (hwf : st.WellFormed)
  (hsched : ∀ p ∈ out.scheduledGroups, p ∈ st.queued)

include hwf hsched

/-- Each group has one sequence. -/
theorem reported_eq : reported st.groups out
    = (out.scheduledGroups.filter (fun p => (st.seq p).outputLen = 1)).map (fun p => (st.seq p).seqId) := by
  have hlist : ∀ ps : List GroupPtr, (∀ p ∈ ps, p ∈ st.queued) →
      ps.flatMap (fun p => ((st.groups p).sequences.filter (fun seq => seq.outputLen = 1)).map
        SequenceData.seqId)
        = (ps.filter (fun p => (st.seq p).outputLen = 1)).map (fun p => (st.seq p).seqId) := by
    intro ps hps
    induction ps with
    | nil => rfl
    | cons p ps ih =>
        have hsingle := hwf.single_of_mem (hps p (List.mem_cons_self ..))
        have hrest := ih (fun q hq => hps q (List.mem_cons_of_mem _ hq))
        rw [List.flatMap_cons, hrest, hsingle.sequences]
        by_cases hlen : (st.groups p).seq.outputLen = 1
        · simp [Scheduler.seq, hlen]
        · simp [Scheduler.seq, hlen]
  exact hlist out.scheduledGroups hsched

theorem mem_reported {id : SeqId} : id ∈ reported st.groups out ↔
    ∃ p ∈ out.scheduledGroups, (st.seq p).seqId = id ∧ (st.seq p).outputLen = 1 := by
  rw [reported_eq hwf hsched, List.mem_map]
  simp only [List.mem_filter, decide_eq_true_eq]
  constructor
  · rintro ⟨p, ⟨hp, hlen⟩, hid⟩
    exact ⟨p, hp, hid, hlen⟩
  · rintro ⟨p, hp, hid, hlen⟩
    exact ⟨p, ⟨hp, hlen⟩, hid⟩

theorem nodup_reported (hnodup : out.scheduledGroups.Nodup) : (reported st.groups out).Nodup := by
  rw [reported_eq hwf hsched]
  refine (hnodup.filter _).map_on ?_
  intro p hp q hq heq
  exact hwf.eq_of_seqId (hsched p (List.mem_filter.1 hp).1) (hsched q (List.mem_filter.1 hq).1) heq

theorem generated_iff {id : SeqId} : Generated st.groups out id ↔
    ∃ p ∈ out.scheduledGroups, (st.seq p).seqId = id ∧ (st.seq p).outputTokens ≠ [] := by
  constructor
  · rintro ⟨p, hp, seq, hseq, hid, hout⟩
    rw [(hwf.single_of_mem (hsched p hp)).sequences, List.mem_singleton] at hseq
    subst hseq
    exact ⟨p, hp, hid, hout⟩
  · rintro ⟨p, hp, hid, hout⟩
    refine ⟨p, hp, st.seq p, ?_, hid, hout⟩
    rw [(hwf.single_of_mem (hsched p hp)).sequences]
    exact List.mem_singleton_self _

end Scheduled

theorem step_update {b : Bench K} {out : SchedulerOutput} {toks : List TokenId}
    (hphase : b.driver.phase = .decoded out toks) {now : TimePoint} {first done : SeqId → TimePoint} :
    b.step (.update now first done) =
      { b with
        driver := { b.driver with
          sched := b.driver.sched.updateAfterDecode out toks now, phase := .updated },
        profiler := recordEnds (b.driver.sched.updateAfterDecode out toks now).groups out done
          (b.profiler.recordFirstTokens
            (reported (b.driver.sched.updateAfterDecode out toks now).groups out) first),
        firstAt := fun id => (b.firstAt id).or
          (if Generated (b.driver.sched.updateAfterDecode out toks now).groups out id
            then some (first id) else none) } := by
  simp only [step, Driver.step, hphase]

/-! ## Runs -/

/-- A queued sequence has output exactly if the time of its first token is known, and every sample belongs
    to a request of its own whose first token has been generated. -/
structure Tracked (b : Bench K) : Prop where
  queues : b.driver.Queues
  known : ∀ p ∈ b.driver.sched.queued, (b.driver.sched.seq p).seqId ∈ b.started
  output : ∀ p ∈ b.driver.sched.queued,
    b.firstAt (b.driver.sched.seq p).seqId = none ↔ (b.driver.sched.seq p).outputTokens = []
  fresh : ∀ id, id ∉ b.started → b.firstAt id = none
  first : ∀ id rec, b.profiler.activeRequests.lookup id = some rec → rec.gotFirstToken = true →
    b.firstAt id = some rec.firstToken
  samples : ∃ ids : List SeqId, ids.Nodup ∧ (∀ id ∈ ids, b.firstAt id ≠ none) ∧
    b.profiler.ttftStats.count ≤ ids.length

omit [LinearOrder K] in
theorem init_tracked (config : SchedulerConfig) (cache : CacheConfig) :
    (init K config cache).Tracked := by
  refine ⟨Driver.init_queues config cache, ?_, ?_, fun _ _ => rfl, ?_, ?_⟩
  · exact fun p hp => absurd hp List.not_mem_nil
  · exact fun p hp => absurd hp List.not_mem_nil
  · intro id rec hrec
    exact absurd hrec (by simp [init])
  · exact ⟨[], List.nodup_nil, fun id hid => absurd hid List.not_mem_nil, Nat.le_refl _⟩

namespace Tracked

variable {b : Bench K}

omit [LinearOrder K] in
theorem sampledOnce (h : b.Tracked) : b.SampledOnce := by
  obtain ⟨ids, hnodup, hfirst, hcount⟩ := h.samples
  refine ⟨Nat.le_trans hcount ?_, h.first⟩
  refine (hnodup.subperm ?_).length_le
  intro id hid
  refine List.mem_dedup.2 ?_
  by_contra hnot
  exact hfirst id hid (h.fresh id hnot)

theorem submit (h : b.Tracked) {group : SequenceGroup} (hfresh : b.driver.sched.FreshRequest group)
    (hnew : group.requestId ∉ b.started) (now : TimePoint) : (b.step (.submit group now)).Tracked := by
  have hold := h.queues.wf.seq_addRequest group
  have hseq := hfresh.seq_next
  have hmem : ∀ q ∈ (b.driver.sched.addRequest group).queued,
      q = b.driver.sched.next ∨ q ∈ b.driver.sched.queued := fun q hq =>
    List.mem_cons.1 ((b.driver.sched.addRequest_queued group).mem_iff.1 hq)
  refine ⟨h.queues.addRequest hfresh, ?_, ?_, ?_, ?_, h.samples⟩
  · intro q hq
    show ((b.driver.sched.addRequest group).seq q).seqId ∈ group.requestId :: b.started
    rcases hmem q hq with rfl | hq
    · rw [hseq]
      exact List.mem_cons_self ..
    · rw [hold q hq]
      exact List.mem_cons_of_mem _ (h.known q hq)
  · intro q hq
    show b.firstAt ((b.driver.sched.addRequest group).seq q).seqId = none ↔
      ((b.driver.sched.addRequest group).seq q).outputTokens = []
    rcases hmem q hq with rfl | hq
    · rw [hseq]
      exact iff_of_true (h.fresh _ hnew) rfl
    · rw [hold q hq]
      exact h.output q hq
  · intro id hid
    exact h.fresh id (fun hmem => hid (List.mem_cons_of_mem _ hmem))
  · intro id rec hrec hgot
    have hrec' : (b.profiler.recordRequestStart group.requestId now).activeRequests.lookup id = some rec :=
      hrec
    rw [Profiler.lookup_recordRequestStart] at hrec'
    split at hrec'
    · -- a new record has no first token
      rw [← Option.some.inj hrec'] at hgot
      cases hgot
    · exact h.first id rec hrec' hgot

omit [LinearOrder K] in
/-- A call that leaves the output of the queued sequences. -/
theorem of_keepsOutput (h : b.Tracked) {d : Driver} (hqueues : d.Queues)
    (hqueued : ∀ p ∈ d.sched.queued, p ∈ b.driver.sched.queued)
    (hkeeps : KeepsOutput b.driver.sched d.sched) : Tracked { b with driver := d } := by
  refine ⟨hqueues, ?_, ?_, h.fresh, h.first, h.samples⟩
  · intro p hp
    show (d.sched.seq p).seqId ∈ b.started
    rw [hkeeps.seqId p (hqueued p hp)]
    exact h.known p (hqueued p hp)
  · intro p hp
    show b.firstAt (d.sched.seq p).seqId = none ↔ (d.sched.seq p).outputTokens = []
    rw [hkeeps.seqId p (hqueued p hp), hkeeps.outputTokens p (hqueued p hp)]
    exact h.output p (hqueued p hp)

theorem call (h : b.Tracked) {op : DriverOp} (hun : op.Unreported) (hok : b.driver.Enabled op)
    (hnew : b.NoRepeat (.call op)) : (b.step (.call op)).Tracked := by
  have hpermits : b.driver.Permits op := by
    cases op with
    | addRequest group => exact hun.elim
    | schedule | buildBatch | step | updateAfterDecode | freeFinishedRequests => exact hok
  have hqueues := Driver.step_queues b.driver op h.queues hpermits
  rcases Driver.step_cases hok with ⟨group, rfl, -⟩ | ⟨rfl, hphase, heq⟩ | ⟨out, rfl, hphase, heq⟩ |
    ⟨out, batch, toks, rfl, hphase, -, heq⟩ | ⟨out, toks, now, rfl, hphase, heq⟩ | ⟨rfl, hphase, heq⟩
  · exact hun.elim
  · have hkeeps := KeepsOutput.schedule h.queues.wf (h.queues.unfinished (by rw [hphase]; simp))
      (fun p hp => (h.queues.waiting p hp).2) hnew
    have hperm := (schedule_midStep h.queues.wf).queued
    exact h.of_keepsOutput hqueues (fun p hp => hperm.mem_iff.1 hp) hkeeps
  · refine h.of_keepsOutput hqueues ?_ (.of_seq ?_)
    · rw [heq]
      exact fun p hp => hp
    · rw [heq]
      exact fun p _ => rfl
  · refine h.of_keepsOutput hqueues ?_ (.of_seq ?_)
    · rw [heq]
      exact fun p hp => hp
    · rw [heq]
      exact fun p _ => rfl
  · exact hun.elim
  · refine h.of_keepsOutput hqueues ?_ (.of_seq ?_)
    · rw [heq]
      exact fun p hp => (freeFinishedRequests_queued_sublist b.driver.sched).subset hp
    · rw [heq, freeFinishedRequests_eq]
      exact fun p _ => rfl

section Update

variable {out : SchedulerOutput} {toks : List TokenId} (h : b.Tracked)
  (hphase : b.driver.phase = .decoded out toks) (now : TimePoint)

include h hphase

omit [LinearOrder K]

/-- A request that is reported has its first token from this step. -/
theorem reported_first
    (hnew : ∀ p ∈ out.scheduledGroups.drop toks.length, (b.driver.sched.seq p).outputLen ≠ 1) :
    ∀ id ∈ reported (b.driver.sched.updateAfterDecode out toks now).groups out,
      b.firstAt id = none ∧
        Generated (b.driver.sched.updateAfterDecode out toks now).groups out id := by
  have hwf := updateAfterDecode_wellFormed h.queues.wf out toks now
  have hrun := h.queues.scheduled_queued hphase
  intro id hid
  obtain ⟨p, hp, rfl, hlen⟩ := (mem_reported hwf hrun).1 hid
  constructor
  · rw [(h.queues.wf.extends_updateAfterDecode out toks now p (hrun p hp)).seqId]
    exact (h.output p (hrun p hp)).2 (h.queues.first_output hphase now hnew hp hlen)
  · refine (generated_iff hwf hrun).2 ⟨p, hp, rfl, fun hnil => ?_⟩
    rw [SequenceData.outputLen, hnil] at hlen
    cases hlen

/-- Nothing is generated for a request that was not started. -/
theorem generated_started {id : SeqId}
    (hgen : Generated (b.driver.sched.updateAfterDecode out toks now).groups out id) :
    id ∈ b.started := by
  have hwf := updateAfterDecode_wellFormed h.queues.wf out toks now
  have hrun := h.queues.scheduled_queued hphase
  obtain ⟨p, hp, rfl, -⟩ := (generated_iff hwf hrun).1 hgen
  rw [(h.queues.wf.extends_updateAfterDecode out toks now p (hrun p hp)).seqId]
  exact h.known p (hrun p hp)

/-- A sequence without output after the step had none before, and nothing was generated for it. -/
theorem output_updated {p : GroupPtr} (hp : p ∈ b.driver.sched.queued) :
    b.firstAt (b.driver.sched.seq p).seqId = none ∧
        ¬ Generated (b.driver.sched.updateAfterDecode out toks now).groups out
          (b.driver.sched.seq p).seqId ↔
      ((b.driver.sched.updateAfterDecode out toks now).seq p).outputTokens = [] := by
  have hwf := updateAfterDecode_wellFormed h.queues.wf out toks now
  have hrun := h.queues.scheduled_queued hphase
  have hext := h.queues.wf.extends_updateAfterDecode out toks now p hp
  rw [h.output p hp]
  constructor
  · rintro ⟨hnil, hnot⟩
    by_cases hsched : p ∈ out.scheduledGroups
    · by_contra hout
      exact hnot ((generated_iff hwf hrun).2 ⟨p, hsched, hext.seqId, hout⟩)
    · rw [Driver.updateAfterDecode_seq_of_not_mem toks now hsched]
      exact hnil
  · intro hnil
    have hle := hext.outputTokens
    rw [SequenceData.outputLen, SequenceData.outputLen, hnil] at hle
    refine ⟨List.length_eq_zero_iff.1 (Nat.eq_zero_of_le_zero hle), fun hgen => ?_⟩
    obtain ⟨q, hq, hid, hout⟩ := (generated_iff hwf hrun).1 hgen
    obtain rfl := hwf.eq_of_seqId (hrun q hq) hp (hid.trans hext.seqId.symm)
    exact hout hnil

end Update

theorem update (h : b.Tracked) {out : SchedulerOutput} {toks : List TokenId}
    (hphase : b.driver.phase = .decoded out toks) (now : TimePoint) (first done : SeqId → TimePoint)
    (hnew : ∀ p ∈ out.scheduledGroups.drop toks.length, (b.driver.sched.seq p).outputLen ≠ 1) :
    (b.step (.update now first done)).Tracked := by
  have hreported := h.reported_first hphase now hnew
  have hext := h.queues.wf.extends_updateAfterDecode out toks now
  rw [step_update hphase]
  refine ⟨h.queues.updateAfterDecode hphase now, ?_, ?_, ?_, ?_, ?_⟩
  · intro p hp
    show ((b.driver.sched.updateAfterDecode out toks now).seq p).seqId ∈ b.started
    rw [(hext p hp).seqId]
    exact h.known p hp
  · intro p hp
    rw [Option.or_eq_none_iff, ite_eq_right_iff, (hext p hp).seqId, ← h.output_updated hphase now hp]
    simp
  · intro id hid
    have hnot := mt (h.generated_started hphase now) hid
    simp only [h.fresh id hid, if_neg hnot, Option.or_none]
  · intro id rec hrec hgot
    have hrec' := lookup_recordEnds _ _ _ _ hrec
    rw [Profiler.lookup_recordFirstTokens] at hrec'
    split at hrec'
    · next hmem =>
        obtain ⟨rec₀, -, rfl⟩ := Option.map_eq_some_iff.1 hrec'
        obtain ⟨hnone, hgen⟩ := hreported id hmem
        simp only [hnone, if_pos hgen, Option.none_or]
    · simp only [h.first id rec hrec' hgot, Option.some_or]
  · obtain ⟨ids, hids, hfirst, hcount⟩ := h.samples
    have hwf := updateAfterDecode_wellFormed h.queues.wf out toks now
    -- the requests reported now had no first token before, so their samples are new
    refine ⟨reported (b.driver.sched.updateAfterDecode out toks now).groups out ++ ids, ?_, ?_, ?_⟩
    · refine List.nodup_append.2 ⟨nodup_reported hwf (h.queues.scheduled_queued hphase)
        (h.queues.scheduled_nodup hphase), hids, ?_⟩
      rintro id hid _ hmem rfl
      exact hfirst id hmem (hreported id hid).1
    · intro id hid hnone
      obtain ⟨hbefore, hnow⟩ := Option.or_eq_none_iff.1 hnone
      rcases List.mem_append.1 hid with hid | hid
      · rw [if_pos (hreported id hid).2] at hnow
        cases hnow
      · exact hfirst id hid hbefore
    · have hle := b.profiler.count_recordFirstTokens_le
        (reported (b.driver.sched.updateAfterDecode out toks now).groups out) first
      simp only [ttftStats_recordEnds, List.length_append]
      omega

end Tracked

theorem step_tracked (b : Bench K) (op : BenchOp) (h : b.Tracked)
    (hok : b.Enabled op ∧ b.NoRepeat op) : (b.step op).Tracked := by
  obtain ⟨hok, hnew⟩ := hok
  cases op with
  | submit group now => exact h.submit hok.1 hok.2 now
  | call op => exact h.call hok.1 hok.2 hnew
  | update now first done =>
      rcases Driver.step_cases hok with ⟨_, hop, -⟩ | ⟨hop, -⟩ | ⟨_, hop, -⟩ | ⟨_, _, _, hop, -⟩ |
        ⟨out, toks, _, -, hphase, -⟩ | ⟨hop, -⟩
      · cases hop
      · cases hop
      · cases hop
      · cases hop
      · refine h.update hphase now first done ?_
        simpa only [NoRepeat, hphase, Phase.unserved] using hnew
      · cases hop

/-- A step does not change the time of a first token. -/
theorem step_firstAt (b : Bench K) (op : BenchOp) {id : SeqId} {t : TimePoint}
    (h : b.firstAt id = some t) : (b.step op).firstAt id = some t := by
  cases op with
  | submit | call => exact h
  | update now first done =>
      simp only [step]
      split
      · show (b.firstAt id).or _ = some t
        rw [h]
        rfl
      · exact h

/-- The request was started, and if its record is still there, its first token is in it. -/
def Marked (id : SeqId) (b : Bench K) : Prop :=
  id ∈ b.started ∧ ∀ rec, b.profiler.activeRequests.lookup id = some rec → rec.gotFirstToken = true

theorem step_marked (b : Bench K) (op : BenchOp) {id : SeqId} (h : b.Marked id) (hok : b.Enabled op) :
    (b.step op).Marked id := by
  obtain ⟨hstarted, hgot⟩ := h
  cases op with
  | submit group now =>
      refine ⟨List.mem_cons_of_mem _ hstarted, ?_⟩
      intro rec hrec
      have hrec' : (b.profiler.recordRequestStart group.requestId now).activeRequests.lookup id
          = some rec := hrec
      have hne : id ≠ group.requestId := fun heq => hok.2 (heq ▸ hstarted)
      rw [Profiler.lookup_recordRequestStart, if_neg hne] at hrec'
      exact hgot rec hrec'
  | call => exact ⟨hstarted, hgot⟩
  | update now first done =>
      simp only [step]
      split
      · refine ⟨hstarted, ?_⟩
        intro rec hrec
        have hfirst := lookup_recordEnds _ _ _ _ hrec
        rw [Profiler.lookup_recordFirstTokens] at hfirst
        split at hfirst
        · obtain ⟨rec₀, -, rfl⟩ := Option.map_eq_some_iff.1 hfirst
          rfl
        · exact hgot rec hfirst
      · exact ⟨hstarted, hgot⟩

/-- **One sample per request.** In a run in which nothing brings a sequence to a second first token, there
    are no more samples than requests, and the time recorded for a first token is the time of the first
    token and stays as it is until the request ends. -/
theorem first_token_sampled_once {config : SchedulerConfig} {cache : CacheConfig} {b b' : Bench K}
    (h : Run.Reach step (fun b op => b.Enabled op ∧ b.NoRepeat op) (init K config cache) b)
    (h' : Run.Reach step (fun b op => b.Enabled op ∧ b.NoRepeat op) b b') :
    b.SampledOnce ∧ ∀ id rec rec', b.profiler.activeRequests.lookup id = some rec →
      rec.gotFirstToken = true → b'.profiler.activeRequests.lookup id = some rec' →
      rec'.gotFirstToken = true ∧ rec'.firstToken = rec.firstToken := by
  have htracked := h.invariant (init_tracked config cache) step_tracked
  have htracked' := h'.invariant htracked step_tracked
  refine ⟨htracked.sampledOnce, ?_⟩
  intro id rec rec' hrec hgot hrec'
  have hfirst := htracked.first id rec hrec hgot
  have hstarted : id ∈ b.started := by
    by_contra hnot
    rw [htracked.fresh id hnot] at hfirst
    cases hfirst
  have hmarked : b'.Marked id := by
    refine h'.invariant ⟨hstarted, ?_⟩ (fun b op hb hok => step_marked b op hb hok.1)
    intro rec₁ hrec₁
    rw [hrec] at hrec₁
    rw [← Option.some.inj hrec₁]
    exact hgot
  have hgot' := hmarked.2 rec' hrec'
  have hfirst' : b'.firstAt id = some rec.firstToken :=
    h'.invariant hfirst (fun b op hb _ => step_firstAt b op hb)
  rw [htracked'.first id rec' hrec' hgot'] at hfirst'
  exact ⟨hgot', Option.some.inj hfirst'⟩

/-- Two requests get their first tokens at 11. -/
def firstRound : List BenchOp :=
  [.submit (.new 1 [7] {}) 0, .submit (.new 2 [8] {}) 0, .call .schedule, .call .buildBatch,
    .call (.step [9, 9]), .update 10 (fun _ => 11) (fun _ => 12), .call .freeFinishedRequests]

def secondRound (newTokens : List TokenId) : List BenchOp :=
  [.call .schedule, .call .buildBatch, .call (.step newTokens), .update 20 (fun _ => 21) (fun _ => 22)]

/-- Blocks of one token, in recompute mode. -/
def blocksOfOne (n : Nat) : Bench Rat :=
  init Rat { preemptionMode := .recompute } { numGpuBlocks := n, numCpuBlocks := 0, blockSize := 1 }

def afterFirst (n : Nat) : Bench Rat := firstRound.foldl step (blocksOfOne n)

def afterSecond (n : Nat) (newTokens : List TokenId) : Bench Rat :=
  (secondRound newTokens).foldl step (afterFirst n)

/-- With room for both requests the record of the second one stays. -/
theorem first_token_kept_with_room :
    (afterFirst 4).profiler.activeRequests.lookup 2
      = some { start := 0, firstToken := 11, gotFirstToken := true } ∧
    (afterFirst 4).SampledOnce ∧
    ∀ rec, (afterSecond 4 [9, 9]).profiler.activeRequests.lookup 2 = some rec →
      rec.gotFirstToken = true ∧ rec.firstToken = 11 := by
  have hrun : Run.Reach step (fun b op => b.Enabled op ∧ b.NoRepeat op) (blocksOfOne 4)
      (afterFirst 4) := Run.Reach.of_allOk firstRound (by decide)
  have hrest : Run.Reach step (fun b op => b.Enabled op ∧ b.NoRepeat op) (afterFirst 4)
      (afterSecond 4 [9, 9]) := Run.Reach.of_allOk (secondRound [9, 9]) (by decide)
  obtain ⟨honce, hkept⟩ := first_token_sampled_once hrun hrest
  have hrecord : (afterFirst 4).profiler.activeRequests.lookup 2
      = some { start := 0, firstToken := 11, gotFirstToken := true } := by decide
  exact ⟨hrecord, honce, fun rec hrec => hkept 2 _ rec hrecord rfl hrec⟩

/-- With two blocks the second request is preempted, recomputed and sampled again: three samples for two
    requests, and the time of its first token is overwritten. -/
theorem recomputed_sampled_again :
    Run.Reach step Enabled (blocksOfOne 2) (afterSecond 2 [9]) ∧
    ¬ (afterSecond 2 [9]).SampledOnce ∧
    (afterSecond 2 [9]).started = [2, 1] ∧
    (afterSecond 2 [9]).profiler.ttftStats.count = 3 ∧
    (afterSecond 2 [9]).firstAt 2 = some 11 ∧
    (afterSecond 2 [9]).profiler.activeRequests.lookup 2
      = some { start := 0, firstToken := 21, gotFirstToken := true } := by
  have hcount : (afterSecond 2 [9]).profiler.ttftStats.count = 3 := by decide
  have hstarted : (afterSecond 2 [9]).started = [2, 1] := by decide
  refine ⟨?_, ?_, hstarted, hcount, by decide, by decide⟩
  · exact Run.Reach.of_allOk (firstRound ++ secondRound [9]) (by decide)
  · intro honce
    have hle := honce.count
    rw [hcount, hstarted] at hle
    exact absurd hle (by decide)

end Bench

end CacheFlow
