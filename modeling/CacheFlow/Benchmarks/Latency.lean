import CacheFlow.Benchmarks.ClosedLoop
import CacheFlow.Driver.Livelock

set_option autoImplicit false

/-! # The latency benchmark

`run_latency_bench` serves one request after the other: it hands in a request, runs iterations until nothing
is pending, and writes down the time of the request, the time to its first token and the time per token.

With blocks for one request every request takes `output_len` iterations, and the values that are written down
are known functions of the clock (`LatencyBench.completes_one_by_one`). The time per token is the decode time
divided by `tokens_generated - 1`. `tokens_generated` adds up the sizes of `new_tokens`, which has one token
for every entry of the batch, so the prompt counts in it: the divisor is `prompt_len + output_len - 2`
although `output_len` tokens were generated. -/

namespace CacheFlow

open Scheduler BatchManager

/-- The times the benchmark takes itself, beside those of the profiler. -/
structure LatencyEnv (K : Type) extends BenchEnv K where
  reqStart : SeqId → TimePoint
  firstTok : SeqId → TimePoint
  reqEnd : SeqId → TimePoint

/-- The variables of the benchmark, with those of the request that is served, and the objects it calls. The
    argument `target_output_len` is `outputLen` of the configuration. -/
structure LatencyBench (K : Type) [Field K] where
  sched : Scheduler
  profiler : Profiler K := {}
  measured : Measured K
  gotFirst : Bool := false
  tokensGenerated : Nat := 0
  perRequestLatencies : List K := []
  ttftValues : List K := []
  tpotValues : List K := []

namespace LatencyBench

variable {K : Type} [Field K] [LinearOrder K] [FloorSemiring K]

def latencySched (cfg : BenchConfig) : SchedulerConfig := { cfg.scheduler with maxNumSeqs := 1 }

def init (K : Type) [Field K] [LinearOrder K] [FloorSemiring K] (cfg : BenchConfig) : LatencyBench K where
  sched := Scheduler.new (latencySched cfg) (BlockManager.new cfg.cache)
  measured := { profiler := { latencyHist := .new 0 (500 : Nat) 500 } }

variable (cfg : BenchConfig) (env : LatencyEnv K)

def request (r : SeqId) : SequenceGroup := .new r (env.prompt r) cfg.samplingParams

/-- The request `r` is handed in. -/
def submit (r : SeqId) (s : LatencyBench K) : LatencyBench K :=
  { s with
    profiler := s.profiler.recordRequestStart r (env.startAt r),
    sched := s.sched.addRequest (request cfg env r),
    gotFirst := false,
    tokensGenerated := 0 }

/-- The rest of an iteration, after `schedule()` has returned `out`. -/
def serve (r : SeqId) (out : SchedulerOutput) (s : LatencyBench K) : LatencyBench K :=
  let i := s.measured.engine.totalSteps
  let batch := (buildBatch s.sched.groups out).1
  let newTokens := env.sample i batch
  let first := !s.gotFirst && !newTokens.isEmpty
  { s with
    measured := s.measured.step (batch, env.stepTimeMs i),
    profiler := if first then s.profiler.recordFirstToken r (env.firstAt r) else s.profiler,
    gotFirst := s.gotFirst || first,
    tokensGenerated := s.tokensGenerated + newTokens.length,
    sched := (s.sched.updateAfterDecode out newTokens (env.updateAt i)).freeFinishedRequests }

/-- The inner loop, for at most `fuel` iterations. -/
def drain (r : SeqId) : Nat → LatencyBench K → Option (LatencyBench K)
  | 0, _ => none
  | fuel + 1, s =>
    if s.sched.hasPending then
      let out := s.sched.schedule
      if out.1.isEmpty then some { s with sched := out.2 }
      else drain r fuel (serve env r out.1 { s with sched := out.2 })
    else some s

/-- What is written down when the loop has ended. -/
def record (r : SeqId) (s : LatencyBench K) : LatencyBench K :=
  { s with
    perRequestLatencies := s.perRequestLatencies
      ++ [Profiler.millis K (env.reqStart r) (env.reqEnd r)],
    ttftValues :=
      if s.gotFirst then s.ttftValues ++ [Profiler.millis K (env.reqStart r) (env.firstTok r)]
      else s.ttftValues,
    tpotValues :=
      if s.gotFirst = true ∧ 1 < s.tokensGenerated then
        s.tpotValues ++ [Profiler.millis K (env.firstTok r) (env.reqEnd r)
          / ((s.tokensGenerated - 1 : Nat) : K)]
      else s.tpotValues,
    profiler := s.profiler.recordRequestEnd r s.tokensGenerated (env.endAt r) }

/-- What the loops need: prompts of the configured length that fit the token budget, and blocks for one
    request at its full length. -/
structure Fits : Prop where
  promptLen : 1 ≤ cfg.promptLen
  prompts : ∀ r, (env.prompt r).length = cfg.promptLen
  budget : cfg.promptLen ≤ cfg.scheduler.maxNumBatchedTokens
  blocks : (cfg.promptLen + cfg.outputLimit) ⌈/⌉ cfg.cache.blockSize ≤ cfg.cache.numGpuBlocks

/-! ## The invariant -/

/-- `tokens_generated` when the request has `k` tokens. -/
def generated (k : Nat) : Nat := if k = 0 then 0 else cfg.promptLen + k - 1

/-- While the request `r` is served and has `k` tokens. -/
structure Serving (r k : Nat) (s : LatencyBench K) : Prop where
  service : Service cfg.cache s.sched
  config : s.sched.config = latencySched cfg
  next : s.sched.next = r + 1
  requests : ∀ p < r + 1, (s.sched.groups p).requestId = p ∧
    (s.sched.groups p).sampling = cfg.samplingParams ∧ (s.sched.seq p).promptTokens = env.prompt p
  queued : s.sched.queued = if k < cfg.outputLimit then [r] else []
  level : (s.sched.seq r).outputLen = k
  gotFirst : s.gotFirst = decide (0 < k)
  tokensGenerated : s.tokensGenerated = generated cfg k
  active : ∃ rec, s.profiler.activeRequests.lookup r = some rec ∧ rec.gotFirstToken = decide (0 < k)
  ended : ∀ id, id ≠ r → s.profiler.activeRequests.lookup id = none

/-- What no iteration changes, and what every iteration adds to. -/
structure Kept (k : Nat) (s s' : LatencyBench K) : Prop where
  latencies : s'.perRequestLatencies = s.perRequestLatencies
  ttftValues : s'.ttftValues = s.ttftValues
  tpotValues : s'.tpotValues = s.tpotValues
  total : s'.profiler.totalRequests = s.profiler.totalRequests
  ttft : s'.profiler.ttftStats.count = s.profiler.ttftStats.count + if 0 < k then 1 else 0
  tpot : s'.profiler.tpotStats = s.profiler.tpotStats
  steps : s'.measured.engine.totalSteps = s.measured.engine.totalSteps + k
  tokens : s'.measured.profiler.throughput.totalTokens
    = s.measured.profiler.throughput.totalTokens + generated cfg k

/-- Between two requests, before the request `r`. -/
structure Idle (r : Nat) (s : LatencyBench K) : Prop where
  service : Service cfg.cache s.sched
  config : s.sched.config = latencySched cfg
  next : s.sched.next = r
  requests : ∀ p < r, (s.sched.groups p).requestId = p ∧
    (s.sched.groups p).sampling = cfg.samplingParams ∧ (s.sched.seq p).promptTokens = env.prompt p
  queued : s.sched.queued = []
  ended : ∀ id, s.profiler.activeRequests.lookup id = none

variable {cfg env} {r k : Nat} {s s₀ : LatencyBench K}

omit [LinearOrder K] [FloorSemiring K] in
theorem Idle.submit (h : Idle cfg env r s) (hfits : Fits cfg env) :
    Serving cfg env r 0 (submit cfg env r s) ∧ Kept cfg 0 s (submit cfg env r s) := by
  have hpos := cfg.outputLimit_pos
  have hfresh : s.sched.FreshRequest (request cfg env r) := by
    refine ⟨rfl, fun p hp => ?_⟩
    rw [h.queued] at hp
    exact absurd hp List.not_mem_nil
  have hlen : (request cfg env r).seq.promptTokens.length = cfg.promptLen := hfits.prompts r
  have hnew : (s.sched.addRequest (request cfg env r)).groups r = request cfg env r := by
    have hself := s.sched.groups_addRequest_self (request cfg env r)
    rwa [h.next] at hself
  have hqueued : (s.sched.addRequest (request cfg env r)).queued = [r] := by
    have hperm := s.sched.addRequest_queued (request cfg env r)
    rw [h.queued, h.next] at hperm
    exact List.perm_singleton.1 hperm
  refine ⟨⟨?_, h.config, ?_, ?_, ?_, ?_, rfl, rfl, ?_, ?_⟩, rfl, rfl, rfl, rfl, rfl, rfl, rfl, rfl⟩
  · refine h.service.addRequest hfresh ?_ ?_
    · intro hnil
      rw [hnil] at hlen
      have hprompt := hfits.promptLen
      rw [← hlen] at hprompt
      exact absurd hprompt (by decide)
    · rw [SequenceData.promptLen, hlen, h.config]
      exact hfits.budget
  · show s.sched.next + 1 = r + 1
    rw [h.next]
  · intro p hp
    rw [LatencyBench.submit, Scheduler.seq]
    rcases Nat.lt_succ_iff_lt_or_eq.1 hp with hlt | rfl
    · rw [s.sched.groups_addRequest_of_lt _ (by rw [h.next]; exact hlt)]
      exact h.requests p hlt
    · rw [hnew]
      exact ⟨rfl, rfl, rfl⟩
  · rw [LatencyBench.submit, hqueued, if_pos hpos]
  · rw [LatencyBench.submit, Scheduler.seq, hnew]
    rfl
  · refine ⟨{ start := env.startAt r }, ?_, rfl⟩
    rw [LatencyBench.submit, Profiler.lookup_recordRequestStart, if_pos rfl]
  · intro id hid
    rw [LatencyBench.submit, Profiler.lookup_recordRequestStart, if_neg hid]
    exact h.ended id

/-! ## An iteration -/

omit [LinearOrder K] [FloorSemiring K] in
theorem Serving.outputLimit (h : Serving cfg env r k s) {p : GroupPtr} (hp : p < r + 1) :
    (s.sched.groups p).outputLimit = cfg.outputLimit := by
  simp only [SequenceGroup.outputLimit, (h.requests p hp).2.1, BenchConfig.samplingParams,
    BenchConfig.outputLimit]

omit [LinearOrder K] [FloorSemiring K] in
theorem Serving.reserved (h : Serving cfg env r k s) (hfits : Fits cfg env) :
    s.sched.reserved cfg.cache.blockSize ≤ cfg.cache.numGpuBlocks := by
  have hlen : (s.sched.groups r).seq.promptLen = cfg.promptLen :=
    (congrArg List.length (h.requests r (Nat.lt_succ_self r)).2.2).trans (hfits.prompts r)
  rw [Scheduler.reserved, h.queued]
  split
  · rw [List.map_singleton, List.sum_singleton, reserve, hlen, h.outputLimit (Nat.lt_succ_self r)]
    exact hfits.blocks
  · exact Nat.zero_le _

omit [LinearOrder K] [FloorSemiring K] in
/-- The request is the only one that is scheduled. -/
theorem Serving.scheduled (h : Serving cfg env r k s) (hfits : Fits cfg env)
    (hk : k < cfg.outputLimit) : s.sched.schedule.1.scheduledGroups = [r] := by
  have hqueued : s.sched.queued = [r] := by rw [h.queued, if_pos hk]
  have hne : s.sched.schedule.1.scheduledGroups ≠ [] :=
    h.service.scheduled_ne_nil (h.reserved hfits) (by rw [h.config]; exact Nat.le_refl 1)
      (by rw [hqueued]; exact List.cons_ne_nil r [])
  have hS := h.service.schedule (h.reserved hfits)
  have hsub : ∀ p ∈ s.sched.schedule.1.scheduledGroups, p = r := by
    intro p hp
    have hmem := hS.step.queued.mem_iff.1 (WellFormed.mem_running (hS.loop.scheduled p hp))
    rw [hqueued] at hmem
    exact List.mem_singleton.1 hmem
  obtain ⟨q, hq⟩ := List.exists_mem_of_ne_nil _ hne
  refine List.perm_singleton.1 ((List.perm_ext_iff_of_nodup hS.loop.nodup (List.nodup_singleton r)).2
    (fun p => ⟨fun hp => List.mem_singleton.2 (hsub p hp), fun hp => ?_⟩))
  rw [List.mem_singleton.1 hp, ← hsub q hq]
  exact hq

omit [LinearOrder K] [FloorSemiring K] in
theorem generated_succ (cfg : BenchConfig) (k : Nat) :
    generated cfg (k + 1) = generated cfg k + if k = 0 then cfg.promptLen else 1 := by
  rw [generated, generated, if_neg (Nat.succ_ne_zero k)]
  split
  · omega
  · omega

omit [FloorSemiring K] in
/-- The first token is reported in the first iteration of the request. -/
theorem Serving.firstToken (h : Serving cfg env r k s) {pr : Profiler K}
    (hpr : pr = if !s.gotFirst then s.profiler.recordFirstToken r (env.firstAt r) else s.profiler) :
    ((∃ rec, pr.activeRequests.lookup r = some rec ∧ rec.gotFirstToken = true) ∧
      ∀ id, id ≠ r → pr.activeRequests.lookup id = none) ∧
    pr.totalRequests = s.profiler.totalRequests ∧ pr.tpotStats = s.profiler.tpotStats ∧
    pr.ttftStats.count = s.profiler.ttftStats.count + if k = 0 then 1 else 0 := by
  obtain ⟨rec, hrec, hgot⟩ := h.active
  rw [hpr, h.gotFirst]
  by_cases hk : k = 0
  · subst hk
    simp only [Nat.lt_irrefl, decide_false, Bool.not_false, if_true]
    refine ⟨⟨?_, fun id hid => ?_⟩, ?_⟩
    · rw [Profiler.lookup_recordFirstToken, if_pos rfl, hrec]
      exact ⟨_, rfl, rfl⟩
    · rw [Profiler.lookup_recordFirstToken, if_neg hid]
      exact h.ended id hid
    · rw [Profiler.recordFirstToken, hrec]
      exact ⟨rfl, rfl, rfl⟩
  · have hpos : 0 < k := Nat.pos_of_ne_zero hk
    simp only [hpos, decide_true, Bool.not_true, Bool.false_eq_true, if_false, hk]
    exact ⟨⟨⟨rec, hrec, hgot.trans (decide_eq_true hpos)⟩, h.ended⟩, trivial, trivial, rfl⟩

omit [LinearOrder K] [FloorSemiring K] in
/-- The queue after an iteration: the request leaves it when it reaches its limit. -/
theorem Serving.queued_iterated (h : Serving cfg env r k s) {st' : Scheduler} {batch : DecodeBatch}
    (it : Iterated cfg.cache s.sched st' [r] batch) (hk : k < cfg.outputLimit) :
    st'.freeFinishedRequests.queued = if k + 1 < cfg.outputLimit then [r] else [] := by
  have hself : r < r + 1 := Nat.lt_succ_self r
  have hqueued : s.sched.queued = [r] := by rw [h.queued, if_pos hk]
  have hmem : r ∈ s.sched.queued := by rw [hqueued]; exact List.mem_singleton_self r
  have hgrown : (st'.seq r).outputLen = k + 1 := by
    rw [it.grown r (List.mem_singleton_self r), h.level]
  have hlimit : (st'.groups r).outputLimit = cfg.outputLimit := by
    rw [← h.outputLimit hself, (it.same r (by rw [h.next]; exact hself)).outputLimit]
  by_cases hend : k + 1 < cfg.outputLimit
  · rw [if_pos hend]
    refine List.perm_singleton.1 ((List.perm_ext_iff_of_nodup it.service.wf.queues
      (List.nodup_singleton r)).2 (fun p => ?_))
    rw [it.present, hqueued]
    refine ⟨fun hp => hp.1, fun hp => ⟨hp, ?_⟩⟩
    rw [List.mem_singleton.1 hp]
    by_contra hfin
    have hserved := it.finished r (List.mem_singleton_self r) (by simpa using hfin)
    have hlen := hgrown.symm.trans (hserved.2.trans hlimit)
    omega
  · rw [if_neg hend]
    refine List.eq_nil_iff_forall_not_mem.2 (fun p hp => ?_)
    have hshort := (it.service.short p hp).2
    have hp' := ((it.present p).1 hp).1
    rw [hqueued] at hp'
    rw [List.mem_singleton.1 hp', freeFinishedRequests_eq] at hshort
    have hshort : (st'.seq r).outputLen < (st'.groups r).outputLimit := hshort
    omega

/-- **One iteration** brings the request one token closer to its limit. -/
theorem Serving.iterate (h : Serving cfg env r k s) (hkept : Kept cfg k s₀ s) (hfits : Fits cfg env)
    (hk : k < cfg.outputLimit) {st' : Scheduler} {batch : DecodeBatch} {toks : List TokenId}
    (it : Iterated cfg.cache s.sched st' [r] batch) (hbatch : batch.totalTokens = batch.entries.length)
    (htoks : toks.length = batch.entries.length) (ms : K) {s' : LatencyBench K}
    (hs' : s' = { s with
      measured := s.measured.step (batch, ms),
      profiler := if !s.gotFirst && !toks.isEmpty then s.profiler.recordFirstToken r (env.firstAt r)
        else s.profiler,
      gotFirst := s.gotFirst || (!s.gotFirst && !toks.isEmpty),
      tokensGenerated := s.tokensGenerated + toks.length,
      sched := st'.freeFinishedRequests }) :
    Serving cfg env r (k + 1) s' ∧ Kept cfg (k + 1) s₀ s' := by
  have hself : r < r + 1 := Nat.lt_succ_self r
  have hlen : (s.sched.seq r).promptLen = cfg.promptLen :=
    (congrArg List.length (h.requests r hself).2.2).trans (hfits.prompts r)
  have htokens : batch.entries.length = if k = 0 then cfg.promptLen else 1 := by
    rw [it.tokens, List.map_singleton, List.sum_singleton, SequenceData.batchTokens, h.level, hlen]
  have hentries := it.entries_ne_nil h.service (List.cons_ne_nil r [])
  have hnew : toks.isEmpty = false := by
    rw [List.isEmpty_eq_false_iff, ← List.length_pos_iff, htoks]
    exact List.length_pos_iff.2 hentries
  rw [hnew, Bool.not_false, Bool.and_true, Bool.or_not_self,
    s.measured.step_of_ne_nil (x := (batch, ms)) hentries] at hs'
  obtain ⟨⟨hactive, hended⟩, htotal, htpot, httft⟩ := h.firstToken rfl
  have hgroups : st'.freeFinishedRequests.groups = st'.groups := by rw [freeFinishedRequests_eq]
  have hseq : ∀ p, st'.freeFinishedRequests.seq p = st'.seq p := fun p => by
    rw [Scheduler.seq, hgroups, Scheduler.seq]
  subst hs'
  constructor
  · refine ⟨it.service, ?_, ?_, ?_, h.queued_iterated it hk, ?_, ?_, ?_, ?_, hended⟩
    · rw [freeFinishedRequests_eq]
      exact it.config.trans h.config
    · rw [freeFinishedRequests_eq]
      exact it.next.trans h.next
    · intro p hp
      obtain ⟨⟨hid, hsampling⟩, hprompt⟩ := it.same p (by rw [h.next]; exact hp)
      obtain ⟨hid', hsampling', hprompt'⟩ := h.requests p hp
      rw [hseq, hgroups]
      exact ⟨hid.trans hid', hsampling.trans hsampling', hprompt.trans hprompt'⟩
    · rw [hseq, it.grown r (List.mem_singleton_self r), h.level]
    · simp
    · rw [generated_succ, ← h.tokensGenerated, ← htokens, ← htoks]
    · simpa using hactive
  · refine ⟨hkept.latencies, hkept.ttftValues, hkept.tpotValues, htotal.trans hkept.total, ?_,
      htpot.trans hkept.tpot, ?_, ?_⟩
    · rw [httft, hkept.ttft, if_pos (Nat.succ_pos k)]
      by_cases hzero : k = 0
      · subst hzero
        rfl
      · rw [if_pos (Nat.pos_of_ne_zero hzero), if_neg hzero]
    · exact congrArg (· + 1) hkept.steps
    · rw [generated_succ, ← htokens, ← hbatch, ← Nat.add_assoc, ← hkept.tokens]
      rfl

/-! ## The loops -/

/-- **The inner loop** runs until the request has reached its limit. -/
theorem Serving.drain (hfits : Fits cfg env) (fuel : Nat) (h : Serving cfg env r k s)
    (hkept : Kept cfg k s₀ s) (hk : k ≤ cfg.outputLimit) (hfuel : cfg.outputLimit < k + fuel) :
    ∃ s', LatencyBench.drain env r fuel s = some s' ∧ Serving cfg env r cfg.outputLimit s' ∧
      Kept cfg cfg.outputLimit s₀ s' := by
  induction fuel generalizing s k with
  | zero => omega
  | succ fuel ih =>
      have hpending := s.sched.hasPending_eq_false_iff
      rw [h.queued] at hpending
      rw [LatencyBench.drain]
      by_cases hend : k < cfg.outputLimit
      · rw [if_pos]
        · have hscheduled := h.scheduled hfits hend
          have hsome : s.sched.schedule.1.isEmpty = false := by
            rw [SchedulerOutput.isEmpty, hscheduled]
            rfl
          have it := h.service.iterated (h.reserved hfits)
            (env.sample_length s.measured.engine.totalSteps _)
            (env.updateAt s.measured.engine.totalSteps)
          rw [hscheduled] at it
          obtain ⟨hserving, hkept'⟩ := h.iterate hkept hfits hend it (buildBatch_totalTokens _ _)
            (env.sample_length s.measured.engine.totalSteps _)
            (env.stepTimeMs s.measured.engine.totalSteps) rfl
          simp only [hsome, Bool.false_eq_true, if_false]
          exact ih hserving hkept' hend (by omega)
        · rw [if_pos hend] at hpending
          by_contra hidle
          exact List.cons_ne_nil r [] (hpending.1 (by simpa using hidle))
      · have hlimit : k = cfg.outputLimit := Nat.le_antisymm hk (Nat.le_of_not_lt hend)
        rw [if_neg hend] at hpending
        rw [hpending.2 rfl, if_neg Bool.false_ne_true]
        exact ⟨s, rfl, hlimit ▸ h, hlimit ▸ hkept⟩

/-- The tokens that are counted for a request. -/
theorem generated_outputLimit (cfg : BenchConfig) :
    generated cfg cfg.outputLimit = cfg.promptLen + cfg.outputLimit - 1 :=
  if_neg (Nat.ne_of_gt cfg.outputLimit_pos)

/-- What has been written down after `r` requests. -/
structure Written (cfg : BenchConfig) (env : LatencyEnv K) (r : Nat) (s : LatencyBench K) : Prop where
  latencies : s.perRequestLatencies
    = (List.range r).map (fun i => Profiler.millis K (env.reqStart i) (env.reqEnd i))
  ttftValues : s.ttftValues
    = (List.range r).map (fun i => Profiler.millis K (env.reqStart i) (env.firstTok i))
  tpotValues : s.tpotValues = if 1 < cfg.promptLen + cfg.outputLimit - 1 then
      (List.range r).map (fun i => Profiler.millis K (env.firstTok i) (env.reqEnd i)
        / ((cfg.promptLen + cfg.outputLimit - 2 : Nat) : K))
    else []
  total : s.profiler.totalRequests = r
  ttft : s.profiler.ttftStats.count = r
  tpot : s.profiler.tpotStats.count = if 1 < cfg.promptLen + cfg.outputLimit - 1 then r else 0
  steps : s.measured.engine.totalSteps = r * cfg.outputLimit
  tokens : s.measured.profiler.throughput.totalTokens
    = r * (cfg.promptLen + cfg.outputLimit - 1)

omit [FloorSemiring K] in
/-- The end of a request. -/
theorem Serving.record (h : Serving cfg env r cfg.outputLimit s) (hkept : Kept cfg cfg.outputLimit s₀ s)
    (hw : Written cfg env r s₀) :
    Idle cfg env (r + 1) (record env r s) ∧ Written cfg env (r + 1) (record env r s) := by
  have hpos := cfg.outputLimit_pos
  have hgot : s.gotFirst = true := h.gotFirst.trans (decide_eq_true hpos)
  have hgen : s.tokensGenerated = cfg.promptLen + cfg.outputLimit - 1 :=
    h.tokensGenerated.trans (generated_outputLimit cfg)
  obtain ⟨rec, hrec, hrecGot⟩ := h.active
  have hrecGot : rec.gotFirstToken = true := hrecGot.trans (decide_eq_true hpos)
  have hqueued := h.queued
  rw [if_neg (Nat.lt_irrefl _)] at hqueued
  constructor
  · refine ⟨h.service, h.config, h.next, h.requests, hqueued, fun id => ?_⟩
    rw [LatencyBench.record, Profiler.lookup_recordRequestEnd]
    split
    · rfl
    · next hid => exact h.ended id hid
  · refine ⟨?_, ?_, ?_, ?_, ?_, ?_, ?_, ?_⟩
    · rw [LatencyBench.record, List.range_succ, List.map_append, ← hw.latencies, hkept.latencies]
      rfl
    · rw [LatencyBench.record, List.range_succ, List.map_append, ← hw.ttftValues, hgot,
        hkept.ttftValues]
      rfl
    · have hdiv : cfg.promptLen + cfg.outputLimit - 1 - 1 = cfg.promptLen + cfg.outputLimit - 2 :=
        Nat.sub_sub ..
      simp only [LatencyBench.record, hgot, hgen, hkept.tpotValues, hw.tpotValues, hdiv, true_and]
      split
      · rw [List.range_succ, List.map_append, List.map_singleton]
      · rfl
    · rw [LatencyBench.record, Profiler.recordRequestEnd, hrec]
      exact congrArg (· + 1) (hkept.total.trans hw.total)
    · rw [LatencyBench.record, Profiler.ttftStats_recordRequestEnd]
      exact hkept.ttft.trans (by rw [hw.ttft, if_pos hpos])
    · simp only [LatencyBench.record, Profiler.recordRequestEnd, hrec, hrecGot, hgen, hkept.tpot,
        true_and]
      have hcount := hw.tpot
      split
      · next hlt =>
          rw [if_pos hlt] at hcount
          exact congrArg (· + 1) hcount
      · next hlt =>
          rw [if_neg hlt] at hcount
          exact hcount
    · rw [LatencyBench.record, Nat.succ_mul, ← hw.steps]
      exact hkept.steps
    · rw [LatencyBench.record, Nat.succ_mul, ← hw.tokens, ← generated_outputLimit]
      exact hkept.tokens

omit [LinearOrder K] [FloorSemiring K] in
/-- Between two requests the pool is free, and the requests so far are served. -/
theorem Idle.served (h : Idle cfg env r s) :
    s.sched.hasPending = false ∧ s.sched.blockManager.numFreeGpuBlocks = cfg.cache.numGpuBlocks ∧
      ∀ p < r, (s.sched.groups p).requestId = p ∧ (s.sched.seq p).promptTokens = env.prompt p ∧
        (s.sched.seq p).status = .finishedLength ∧ (s.sched.seq p).outputLen = cfg.outputLimit := by
  refine ⟨s.sched.hasPending_eq_false_iff.2 h.queued, (h.service.idle h.queued).2.2.2.2, ?_⟩
  intro p hp
  obtain ⟨hid, hsampling, hprompt⟩ := h.requests p hp
  obtain ⟨hstatus, hlen⟩ := h.service.served p (by rw [h.next]; exact hp)
    (by rw [h.queued]; exact List.not_mem_nil)
  refine ⟨hid, hprompt, hstatus, hlen.trans ?_⟩
  simp only [SequenceGroup.outputLimit, hsampling, BenchConfig.samplingParams, BenchConfig.outputLimit]

end LatencyBench

end CacheFlow
