import CacheFlow.BatchDecode
import CacheFlow.BatchDecode.Stats
import CacheFlow.Benchmarks.Iteration
import CacheFlow.Driver.FirstToken

set_option autoImplicit false

/-! # The closed-loop benchmarks

`run_throughput_bench` and `run_scaling_point` keep `num_concurrent` requests in flight: in each iteration
they hand in requests as long as `num_running() + num_waiting()` is below the limit, run one step and count
the groups that are finished. They stop when `num_requests` groups have been counted, or when `schedule()`
returns nothing. They differ in one point: only the first one reports first tokens. The argument `concurrency`
of the second one is `numConcurrent` here.

A loop that stops when nothing is scheduled may stop early, and a counter that is raised for scheduled groups
may miss one. With blocks for `num_concurrent` requests at their full length neither happens: the loop ends
with every request served and counted once, and the numbers the profiler has then are functions of the
configuration (`ClosedLoop.completes`). All requests in flight are scheduled in every iteration, so they stay
in lockstep and the requests run in waves (`Lockstep`); the number of steps follows from that. The engine
counts tokens when they are fed, which are `prompt_len + output_len - 1` for each request. -/

namespace CacheFlow

open Scheduler BatchManager

/-- The fields of `BenchConfig` that the loops read. -/
structure BenchConfig where
  cache : CacheConfig
  scheduler : SchedulerConfig := {}
  numRequests : Nat := 100
  promptLen : Nat := 128
  outputLen : Nat := 256
  numConcurrent : Nat := 1

/-- What the loop meets: prompts, sampled tokens, one for each entry of the batch, and times. -/
structure BenchEnv (K : Type) where
  prompt : Nat → List TokenId
  sample : Nat → DecodeBatch → List TokenId
  stepTimeMs : Nat → K
  updateAt : Nat → TimePoint
  startAt : SeqId → TimePoint
  firstAt : SeqId → TimePoint
  endAt : SeqId → TimePoint
  sample_length : ∀ i batch, (sample i batch).length = batch.entries.length

namespace BenchConfig

variable (cfg : BenchConfig)

/-- The configuration of the scheduler, with `size_t` arithmetic. -/
def sched : SchedulerConfig :=
  { cfg.scheduler with
    maxNumSeqs := cfg.numConcurrent,
    maxNumBatchedTokens := cfg.numConcurrent * (cfg.promptLen + cfg.outputLen) % 2 ^ 64 }

/-- `static_cast<int32_t>(cfg.output_len)`. -/
def samplingParams : SamplingParams := { maxTokens := toInt cfg.outputLen }

/-- The number of tokens after which a request is finished. -/
def outputLimit : Nat := (max 1 (toInt cfg.outputLen)).toNat

theorem outputLimit_pos : 0 < cfg.outputLimit := by
  rw [outputLimit]
  omega

end BenchConfig

/-- The variables of the loop and the objects it calls. -/
structure ClosedLoop (K : Type) [Field K] where
  sched : Scheduler
  profiler : Profiler K := {}
  measured : Measured K
  nextId : SeqId := 0
  submitted : Nat := 0
  completed : Nat := 0

namespace ClosedLoop

variable {K : Type} [Field K] [LinearOrder K] [FloorSemiring K]

/-- The histogram of `ProfilerConfig`: 500 bins from 0 to 500. -/
def init (K : Type) [Field K] [LinearOrder K] [FloorSemiring K] (cfg : BenchConfig) : ClosedLoop K where
  sched := Scheduler.new cfg.sched (BlockManager.new cfg.cache)
  measured := { profiler := { latencyHist := .new 0 (500 : Nat) 500 } }

variable (cfg : BenchConfig) (env : BenchEnv K)

def request (id : SeqId) (i : Nat) : SequenceGroup := .new id (env.prompt i) cfg.samplingParams

/-- The body of the inner loop. -/
def submit (s : ClosedLoop K) : ClosedLoop K :=
  { s with
    profiler := s.profiler.recordRequestStart s.nextId (env.startAt s.nextId),
    sched := s.sched.addRequest (request cfg env s.nextId s.submitted),
    nextId := s.nextId + 1,
    submitted := s.submitted + 1 }

/-- The inner loop; the first argument is `num_requests - submitted`. -/
def submitLoop : Nat → ClosedLoop K → ClosedLoop K
  | 0, s => s
  | n + 1, s =>
    if s.sched.running.length + s.sched.waiting.length < cfg.numConcurrent then
      submitLoop n (submit cfg env s)
    else s

/-- The rest of an iteration, after `schedule()` has returned `out`; `first` says whether first tokens are
    reported. -/
def serve (first : Bool) (out : SchedulerOutput) (s : ClosedLoop K) : ClosedLoop K :=
  let i := s.measured.engine.totalSteps
  let batch := (buildBatch s.sched.groups out).1
  let sched := s.sched.updateAfterDecode out (env.sample i batch) (env.updateAt i)
  { s with
    measured := s.measured.step (batch, env.stepTimeMs i),
    profiler := Bench.recordEnds sched.groups out env.endAt
      (if first then s.profiler.recordFirstTokens (Bench.reported sched.groups out) env.firstAt
       else s.profiler),
    completed := s.completed + (out.scheduledGroups.filter (fun p => (sched.groups p).allFinished)).length,
    sched := sched.freeFinishedRequests }

/-- The outer loop, for at most `fuel` iterations. -/
def run (first : Bool) : Nat → ClosedLoop K → Option (ClosedLoop K)
  | 0, _ => none
  | fuel + 1, s =>
    if s.completed < cfg.numRequests then
      let s := submitLoop cfg env (cfg.numRequests - s.submitted) s
      let r := s.sched.schedule
      if r.1.isEmpty then some { s with sched := r.2 }
      else run first fuel (serve env first r.1 { s with sched := r.2 })
    else some s

end ClosedLoop

/-! ## What the reports add up to -/

namespace Profiler

variable {K : Type} [Field K] [LinearOrder K]

/-- First tokens of active requests are all counted. -/
theorem count_recordFirstTokens (pr : Profiler K) (ids : List SeqId) (clock : SeqId → TimePoint)
    (hactive : ∀ id ∈ ids, (pr.activeRequests.lookup id).isSome) :
    (pr.recordFirstTokens ids clock).ttftStats.count = pr.ttftStats.count + ids.length := by
  induction ids generalizing pr with
  | nil => rfl
  | cons a ids ih =>
      obtain ⟨rec, hrec⟩ := Option.isSome_iff_exists.1 (hactive a (List.mem_cons_self ..))
      have hcount : (pr.recordFirstToken a (clock a)).ttftStats.count = pr.ttftStats.count + 1 := by
        rw [recordFirstToken, hrec]
        rfl
      have hrest := ih (pr.recordFirstToken a (clock a)) (fun id hid => by
        rw [lookup_recordFirstToken]
        split
        · rw [hrec]
          rfl
        · exact hactive id (List.mem_cons_of_mem _ hid))
      rw [recordFirstTokens, List.foldl_cons, List.length_cons]
      rw [recordFirstTokens, hcount] at hrest
      omega

@[simp] theorem totalRequests_recordFirstTokens (pr : Profiler K) (ids : List SeqId)
    (clock : SeqId → TimePoint) : (pr.recordFirstTokens ids clock).totalRequests = pr.totalRequests := by
  induction ids generalizing pr with
  | nil => rfl
  | cons a ids ih =>
      have hrest := ih (pr.recordFirstToken a (clock a))
      rw [recordFirstTokens, List.foldl_cons]
      rw [recordFirstTokens] at hrest
      rw [hrest, recordFirstToken]
      split
      · rfl
      · rfl

@[simp] theorem tpotStats_recordFirstTokens (pr : Profiler K) (ids : List SeqId)
    (clock : SeqId → TimePoint) : (pr.recordFirstTokens ids clock).tpotStats = pr.tpotStats := by
  induction ids generalizing pr with
  | nil => rfl
  | cons a ids ih =>
      have hrest := ih (pr.recordFirstToken a (clock a))
      rw [recordFirstTokens, List.foldl_cons]
      rw [recordFirstTokens] at hrest
      rw [hrest, recordFirstToken]
      split
      · rfl
      · rfl

end Profiler

namespace Bench

variable {K : Type} [Field K] [LinearOrder K] {groups : GroupPtr → SequenceGroup}
  {clock : SeqId → TimePoint} {b : Bool} {n : Nat}

/-- The loop that calls `record_request_end`, for a list of groups. -/
def recordEndsOf (groups : GroupPtr → SequenceGroup) (clock : SeqId → TimePoint) (ps : List GroupPtr)
    (pr : Profiler K) : Profiler K :=
  ps.foldl (fun pr p =>
    if (groups p).allFinished then
      pr.recordRequestEnd (groups p).requestId (groups p).seq.outputLen (clock (groups p).requestId)
    else pr) pr

theorem recordEnds_eq (out : SchedulerOutput) (pr : Profiler K) :
    recordEnds groups out clock pr = recordEndsOf groups clock out.scheduledGroups pr := rfl

/-- What the ends of the finished groups among `ps` leave of the profiler `pr`. -/
structure Ended (groups : GroupPtr → SequenceGroup) (b : Bool) (n : Nat) (ps : List GroupPtr)
    (pr pr' : Profiler K) : Prop where
  total : pr'.totalRequests = pr.totalRequests + (ps.filter (fun p => (groups p).allFinished)).length
  tpot : pr'.tpotStats.count = pr.tpotStats.count +
    if b = true ∧ 1 < n then (ps.filter (fun p => (groups p).allFinished)).length else 0
  lookup : ∀ id, pr'.activeRequests.lookup id =
    if ∃ p ∈ ps, (groups p).allFinished = true ∧ (groups p).requestId = id then none
    else pr.activeRequests.lookup id

/-- **Each finished group is counted once.** -/
theorem recordEndsOf_ended (ps : List GroupPtr) (pr : Profiler K)
    (hids : (ps.map (fun p => (groups p).requestId)).Nodup)
    (hactive : ∀ p ∈ ps, (groups p).allFinished = true → (groups p).seq.outputLen = n ∧
      ∃ rec, pr.activeRequests.lookup (groups p).requestId = some rec ∧ rec.gotFirstToken = b) :
    Ended groups b n ps pr (recordEndsOf groups clock ps pr) := by
  induction ps generalizing pr with
  | nil => exact ⟨rfl, by simp [recordEndsOf], by simp [recordEndsOf]⟩
  | cons p ps ih =>
      obtain ⟨hp, hids⟩ := List.nodup_cons.1 hids
      rw [recordEndsOf, List.foldl_cons, ← recordEndsOf]
      by_cases hfin : (groups p).allFinished = true
      · obtain ⟨hlen, rec, hrec, hgot⟩ := hactive p (List.mem_cons_self ..) hfin
        rw [if_pos hfin, hlen]
        have hother : ∀ q ∈ ps, (groups q).requestId ≠ (groups p).requestId := by
          intro q hq heq
          exact hp (List.mem_map.2 ⟨q, hq, heq⟩)
        have hrest := ih (pr.recordRequestEnd (groups p).requestId n (clock (groups p).requestId)) hids
          (fun q hq hq' => by
            rw [Profiler.lookup_recordRequestEnd, if_neg (hother q hq)]
            exact hactive q (List.mem_cons_of_mem _ hq) hq')
        have hfilter : ((p :: ps).filter (fun p => (groups p).allFinished)).length
            = (ps.filter (fun p => (groups p).allFinished)).length + 1 := by simp [hfin]
        refine ⟨?_, ?_, ?_⟩
        · rw [hrest.total, hfilter, Profiler.recordRequestEnd, hrec]
          exact Nat.add_right_comm _ _ _
        · rw [hrest.tpot, hfilter, Profiler.recordRequestEnd, hrec]
          by_cases hb : b = true ∧ 1 < n
          · simp only [if_pos hb, hgot, RunningStats.update]
            omega
          · simp only [if_neg hb, hgot]
        · intro id
          rw [hrest.lookup, Profiler.lookup_recordRequestEnd]
          by_cases hid : id = (groups p).requestId
          · subst hid
            simp [hfin]
          · have hne : (groups p).requestId ≠ id := fun heq => hid heq.symm
            simp [hid, hne]
      · have hrest := ih pr hids (fun q hq => hactive q (List.mem_cons_of_mem _ hq))
        rw [if_neg hfin]
        have hfilter : (p :: ps).filter (fun p => (groups p).allFinished)
            = ps.filter (fun p => (groups p).allFinished) := by simp [hfin]
        refine ⟨by rw [hrest.total, hfilter], by rw [hrest.tpot, hfilter], ?_⟩
        · intro id
          rw [hrest.lookup]
          simp [hfin]

end Bench

namespace ClosedLoop

/-! ## The invariant -/

section Sums

/-- A sum over all requests, after the terms of some of them have grown. -/
theorem sum_range_grown {n : Nat} {ps : List Nat} (f f' δ : Nat → Nat) (hnodup : ps.Nodup)
    (hps : ∀ p ∈ ps, p < n ∧ f' p = f p + δ p) (hother : ∀ p < n, p ∉ ps → f' p = f p) :
    ∑ p ∈ Finset.range n, f' p = ∑ p ∈ Finset.range n, f p + (ps.map δ).sum := by
  have hterm : ∀ p ∈ Finset.range n, f' p = f p + if p ∈ ps.toFinset then δ p else 0 := by
    intro p hlt
    by_cases hp : p ∈ ps
    · rw [if_pos (List.mem_toFinset.2 hp), (hps p hp).2]
    · rw [if_neg (fun h => hp (List.mem_toFinset.1 h)), hother p (Finset.mem_range.1 hlt) hp, Nat.add_zero]
  have hsub : Finset.range n ∩ ps.toFinset = ps.toFinset :=
    Finset.inter_eq_right.2 (fun p hp => Finset.mem_range.2 (hps p (List.mem_toFinset.1 hp)).1)
  rw [Finset.sum_congr rfl hterm, Finset.sum_add_distrib, Finset.sum_ite_mem, hsub,
    List.sum_toFinset δ hnodup]

theorem sum_map_indicator (q : Nat → Prop) [DecidablePred q] (ps : List Nat) :
    (ps.map (fun p => if q p then 1 else 0)).sum = (ps.filter (fun p => q p)).length := by
  induction ps with
  | nil => rfl
  | cons p ps ih =>
      rw [List.map_cons, List.sum_cons, ih, List.filter_cons]
      by_cases hp : q p
      · simp [hp, Nat.add_comm]
      · simp [hp]

end Sums

/-- The tokens of a sequence that have been fed: its prompt, and its output but for the last token. -/
def fed (seq : SequenceData) : Nat := if seq.outputLen = 0 then 0 else seq.promptLen + seq.outputLen - 1

/-- Whether the sequence has its first token. -/
def hasFirst (seq : SequenceData) : Nat := if seq.outputLen = 0 then 0 else 1

section Invariant

variable {K : Type} [Field K] [LinearOrder K] [FloorSemiring K] (cfg : BenchConfig) (env : BenchEnv K)
  (first : Bool)

/-- Between the iterations, and between the requests that are handed in. The request `p` is the `p`-th one;
    it is present until it is finished, and everything that is reported is a sum over all requests. -/
structure Inv (s : ClosedLoop K) : Prop where
  service : Service cfg.cache s.sched
  config : s.sched.config = cfg.sched
  nextId : s.nextId = s.submitted
  next : s.sched.next = s.submitted
  limit : s.submitted ≤ cfg.numRequests
  requests : ∀ p < s.submitted, (s.sched.groups p).requestId = p ∧
    (s.sched.groups p).sampling = cfg.samplingParams ∧ (s.sched.seq p).promptTokens = env.prompt p
  inFlight : s.sched.queued.length ≤ cfg.numConcurrent
  counted : s.sched.queued.length + s.completed = s.submitted
  active : ∀ p ∈ s.sched.queued, ∃ rec, s.profiler.activeRequests.lookup p = some rec ∧
    (rec.gotFirstToken = true ↔ first = true ∧ 0 < (s.sched.seq p).outputLen)
  ended : ∀ id, id ∉ s.sched.queued → s.profiler.activeRequests.lookup id = none
  total : s.profiler.totalRequests = s.completed
  ttft : s.profiler.ttftStats.count
    = if first then ∑ p ∈ Finset.range s.submitted, hasFirst (s.sched.seq p) else 0
  tpot : s.profiler.tpotStats.count
    = if first = true ∧ 1 < cfg.outputLimit then s.completed else 0
  tokens : s.measured.profiler.throughput.totalTokens
    = ∑ p ∈ Finset.range s.submitted, fed (s.sched.seq p)
  latencies : s.measured.profiler.stepLatency.count = s.measured.engine.totalSteps

/-- What the loop needs: prompts of the configured length, a token budget that does not overflow, and blocks
    for all requests in flight at their full length. -/
structure Fits : Prop where
  concurrent : 1 ≤ cfg.numConcurrent
  promptLen : 1 ≤ cfg.promptLen
  prompts : ∀ i, (env.prompt i).length = cfg.promptLen
  budget : cfg.numConcurrent * (cfg.promptLen + cfg.outputLen) < 2 ^ 64
  blocks : cfg.numConcurrent * ((cfg.promptLen + cfg.outputLimit) ⌈/⌉ cfg.cache.blockSize)
    ≤ cfg.cache.numGpuBlocks

/-- What the inner loop leaves. -/
structure Submitted (s s' : ClosedLoop K) : Prop where
  inv : Inv cfg env first s'
  completed : s'.completed = s.completed
  measured : s'.measured = s.measured
  full : s'.sched.queued.length < cfg.numConcurrent → s'.submitted = cfg.numRequests
  fresh : (∀ p ∈ s.sched.queued, (s.sched.seq p).outputLen = 0) →
    ∀ p ∈ s'.sched.queued, (s'.sched.seq p).outputLen = 0

variable {cfg env first} {s : ClosedLoop K}

omit [Field K] [LinearOrder K] [FloorSemiring K] in
theorem Fits.maxNumBatchedTokens (h : Fits cfg env) :
    cfg.sched.maxNumBatchedTokens = cfg.numConcurrent * (cfg.promptLen + cfg.outputLen) :=
  Nat.mod_eq_of_lt h.budget

omit [LinearOrder K] [FloorSemiring K] in
/-- Submitting one more request. -/
theorem Inv.submit (h : Inv cfg env first s) (hfits : Fits cfg env)
    (hmore : s.submitted < cfg.numRequests) (hroom : s.sched.queued.length < cfg.numConcurrent) :
    Inv cfg env first (submit cfg env s) := by
  have hid : s.nextId = s.sched.next := h.nextId.trans h.next.symm
  have hqueued : ∀ p ∈ s.sched.queued, p < s.submitted := fun p hp => by
    rw [← h.next]
    exact h.service.wf.stored p hp
  have hfresh : s.sched.FreshRequest (request cfg env s.nextId s.submitted) := by
    refine ⟨rfl, fun p hp heq => ?_⟩
    have hlt := hqueued p hp
    rw [(h.requests p hlt).1] at heq
    exact absurd (heq.trans h.nextId) (Nat.ne_of_lt hlt)
  have hperm := s.sched.addRequest_queued (request cfg env s.nextId s.submitted)
  have hold : ∀ p < s.submitted, (s.sched.addRequest (request cfg env s.nextId s.submitted)).groups p
      = s.sched.groups p := fun p hp =>
    s.sched.groups_addRequest_of_lt _ (by rw [h.next]; exact hp)
  have hnew : (s.sched.addRequest (request cfg env s.nextId s.submitted)).groups s.submitted
      = request cfg env s.nextId s.submitted := by
    rw [← h.next]
    exact s.sched.groups_addRequest_self _
  -- a sum over all requests has a new term, which is 0
  have hsum : ∀ g : SequenceData → Nat,
      g (request cfg env s.nextId s.submitted).seq = 0 →
      ∑ p ∈ Finset.range (s.submitted + 1),
        g ((s.sched.addRequest (request cfg env s.nextId s.submitted)).seq p)
        = ∑ p ∈ Finset.range s.submitted, g (s.sched.seq p) := by
    intro g hzero
    rw [Finset.sum_range_succ, Scheduler.seq, hnew, hzero, Nat.add_zero]
    refine Finset.sum_congr rfl (fun p hp => ?_)
    rw [Scheduler.seq, hold p (Finset.mem_range.1 hp), Scheduler.seq]
  have hlen : (request cfg env s.nextId s.submitted).seq.promptTokens.length = cfg.promptLen :=
    hfits.prompts s.submitted
  refine ⟨?_, h.config, ?_, ?_, hmore, ?_, ?_, ?_, ?_, ?_, h.total, ?_, h.tpot, ?_, h.latencies⟩
  · refine h.service.addRequest hfresh ?_ ?_
    · intro hnil
      rw [hnil] at hlen
      have hpos := hfits.promptLen
      rw [← hlen] at hpos
      exact absurd hpos (by decide)
    · rw [SequenceData.promptLen, hlen, h.config, hfits.maxNumBatchedTokens]
      exact Nat.le_trans (Nat.le_add_right _ _) (Nat.le_mul_of_pos_left _ hfits.concurrent)
  · show s.nextId + 1 = s.submitted + 1
    rw [h.nextId]
  · show s.sched.next + 1 = s.submitted + 1
    rw [h.next]
  · intro p hp
    rcases Nat.lt_succ_iff_lt_or_eq.1 hp with hlt | rfl
    · show ((s.sched.addRequest (request cfg env s.nextId s.submitted)).groups p).requestId = p ∧ _ ∧ _
      rw [ClosedLoop.submit, Scheduler.seq, hold p hlt]
      exact h.requests p hlt
    · rw [ClosedLoop.submit, Scheduler.seq, hnew]
      exact ⟨h.nextId, rfl, rfl⟩
  · rw [ClosedLoop.submit, hperm.length_eq]
    exact hroom
  · show (s.sched.addRequest (request cfg env s.nextId s.submitted)).queued.length + s.completed
      = s.submitted + 1
    rw [hperm.length_eq, List.length_cons, ← h.counted]
    exact Nat.add_right_comm _ _ _
  · intro p hp
    simp only [ClosedLoop.submit] at hp ⊢
    rw [Profiler.lookup_recordRequestStart]
    rcases List.mem_cons.1 (hperm.mem_iff.1 hp) with rfl | hp
    · have hseq : (s.sched.addRequest (request cfg env s.nextId s.submitted)).seq s.sched.next
          = (request cfg env s.nextId s.submitted).seq := by
        rw [Scheduler.seq, s.sched.groups_addRequest_self]
      rw [if_pos hid.symm]
      refine ⟨_, rfl, ?_⟩
      rw [hseq]
      exact ⟨fun hgot => absurd hgot (by simp), fun hpos => absurd hpos.2 (Nat.lt_irrefl 0)⟩
    · have hne : p ≠ s.nextId := by
        rw [h.nextId]
        exact Nat.ne_of_lt (hqueued p hp)
      have hseq : (s.sched.addRequest (request cfg env s.nextId s.submitted)).seq p = s.sched.seq p :=
        congrArg SequenceGroup.seq (hold p (hqueued p hp))
      rw [if_neg hne, hseq]
      exact h.active p hp
  · intro id hid'
    simp only [ClosedLoop.submit] at hid' ⊢
    have hnot : id ∉ s.sched.next :: s.sched.queued := fun hmem => hid' (hperm.mem_iff.2 hmem)
    rw [Profiler.lookup_recordRequestStart, if_neg]
    · exact h.ended id (fun hmem => hnot (List.mem_cons_of_mem _ hmem))
    · rintro rfl
      rw [hid] at hnot
      exact hnot (List.mem_cons_self ..)
  · exact h.ttft.trans (by rw [ClosedLoop.submit, hsum hasFirst rfl])
  · exact h.tokens.trans (by rw [ClosedLoop.submit, hsum fed rfl])

omit [LinearOrder K] [FloorSemiring K] in
theorem Inv.swapped (h : Inv cfg env first s) : s.sched.swapped = [] := by
  obtain ⟨own, hacc⟩ := h.service.accounted
  exact hacc.swapped

omit [LinearOrder K] [FloorSemiring K] in
theorem Inv.queued_lt (h : Inv cfg env first s) : ∀ p ∈ s.sched.queued, p < s.submitted := by
  intro p hp
  rw [← h.next]
  exact h.service.wf.stored p hp

omit [LinearOrder K] [FloorSemiring K] in
theorem Inv.length_queued (h : Inv cfg env first s) :
    s.sched.queued.length = s.sched.running.length + s.sched.waiting.length := by
  rw [queued, h.swapped, List.append_nil, List.length_append]

omit [LinearOrder K] [FloorSemiring K] in
theorem Inv.submit_fresh (h : Inv cfg env first s)
    (hfresh : ∀ p ∈ s.sched.queued, (s.sched.seq p).outputLen = 0) :
    ∀ p ∈ (ClosedLoop.submit cfg env s).sched.queued,
      ((ClosedLoop.submit cfg env s).sched.seq p).outputLen = 0 := by
  intro p hp
  have hperm := s.sched.addRequest_queued (request cfg env s.nextId s.submitted)
  rw [ClosedLoop.submit, Scheduler.seq]
  rcases List.mem_cons.1 (hperm.mem_iff.1 hp) with rfl | hp
  · rw [s.sched.groups_addRequest_self]
    rfl
  · rw [s.sched.groups_addRequest_of_lt _ (by rw [h.next]; exact h.queued_lt p hp)]
    exact hfresh p hp

omit [LinearOrder K] [FloorSemiring K] in
/-- **The inner loop** hands in requests until as many are in flight as are allowed or all have been handed
    in. -/
theorem Inv.submitLoop (hfits : Fits cfg env) (n : Nat) (h : Inv cfg env first s)
    (hn : s.submitted + n = cfg.numRequests) :
    Submitted cfg env first s (submitLoop cfg env n s) := by
  induction n generalizing s with
  | zero => exact ⟨h, rfl, rfl, fun _ => hn, fun hfresh => hfresh⟩
  | succ n ih =>
      rw [ClosedLoop.submitLoop, ← h.length_queued]
      by_cases hroom : s.sched.queued.length < cfg.numConcurrent
      · have hrest := ih (h.submit hfits (by omega) hroom) (by
          show s.submitted + 1 + n = cfg.numRequests
          omega)
        rw [if_pos hroom]
        exact ⟨hrest.inv, hrest.completed, hrest.measured, hrest.full,
          fun hfresh => hrest.fresh (h.submit_fresh hfresh)⟩
      · rw [if_neg hroom]
        exact ⟨h, rfl, rfl, fun hlt => absurd hlt hroom, fun hfresh => hfresh⟩

omit [LinearOrder K] [FloorSemiring K] in
/-- With as many requests in flight as are allowed, nothing is handed in. -/
theorem Inv.submitLoop_full (h : Inv cfg env first s)
    (hfull : s.sched.queued.length < cfg.numConcurrent → s.submitted = cfg.numRequests) :
    ClosedLoop.submitLoop cfg env (cfg.numRequests - s.submitted) s = s := by
  cases hn : cfg.numRequests - s.submitted with
  | zero => rfl
  | succ n =>
      rw [ClosedLoop.submitLoop, ← h.length_queued]
      refine if_neg (fun hroom => ?_)
      have hall := hfull hroom
      omega

omit [LinearOrder K] [FloorSemiring K] in
/-- The groups present have the same limit and the same reserve. -/
theorem Inv.outputLimit (h : Inv cfg env first s) {p : GroupPtr} (hp : p < s.submitted) :
    (s.sched.groups p).outputLimit = cfg.outputLimit := by
  simp only [SequenceGroup.outputLimit, (h.requests p hp).2.1, BenchConfig.samplingParams,
    BenchConfig.outputLimit]

omit [LinearOrder K] [FloorSemiring K] in
theorem Inv.reserved (h : Inv cfg env first s) (hfits : Fits cfg env) :
    s.sched.reserved cfg.cache.blockSize ≤ cfg.cache.numGpuBlocks := by
  have hreserve : ∀ p ∈ s.sched.queued, reserve cfg.cache.blockSize (s.sched.groups p)
      = (cfg.promptLen + cfg.outputLimit) ⌈/⌉ cfg.cache.blockSize := by
    intro p hp
    have hlen : (s.sched.groups p).seq.promptLen = cfg.promptLen :=
      (congrArg List.length (h.requests p (h.queued_lt p hp)).2.2).trans (hfits.prompts p)
    rw [reserve, hlen, h.outputLimit (h.queued_lt p hp)]
  rw [Scheduler.reserved, List.map_congr_left hreserve, List.map_const', List.sum_replicate, smul_eq_mul]
  exact Nat.le_trans (Nat.mul_le_mul_right _ h.inFlight) hfits.blocks

/-! ## The reports of an iteration -/

section Reports

variable {st' : Scheduler} {out : SchedulerOutput} {batch : DecodeBatch}

omit [LinearOrder K] [FloorSemiring K] in
/-- First tokens are reported for the scheduled groups that had none. -/
theorem Inv.reported_eq (h : Inv cfg env first s)
    (it : Iterated cfg.cache s.sched st' out.scheduledGroups batch) :
    Bench.reported st'.groups out
      = out.scheduledGroups.filter (fun p => (s.sched.seq p).outputLen = 0) := by
  have hmem : ∀ p ∈ out.scheduledGroups, p ∈ st'.queued :=
    fun p hp => it.queued.mem_iff.2 (it.mem p hp)
  rw [Bench.reported_eq it.wf hmem]
  have hfilter : out.scheduledGroups.filter (fun p => (st'.seq p).outputLen = 1)
      = out.scheduledGroups.filter (fun p => (s.sched.seq p).outputLen = 0) := by
    refine List.filter_congr (fun p hp => ?_)
    rw [it.grown p hp]
    simp
  rw [hfilter]
  refine (List.map_congr_left (fun p hp => ?_)).trans (List.map_id _)
  have hp := (List.mem_filter.1 hp).1
  have hlt := h.queued_lt p (it.mem p hp)
  have hid : (st'.groups p).requestId = p :=
    ((it.same p (by rw [h.next]; exact hlt)).requestId).trans (h.requests p hlt).1
  exact ((it.wf.single_of_mem (hmem p hp)).seqId).trans hid

omit [FloorSemiring K] in
/-- What the profiler knows of the requests present, after the first tokens have been reported. -/
theorem Inv.reported_active (h : Inv cfg env first s)
    (it : Iterated cfg.cache s.sched st' out.scheduledGroups batch) {p : GroupPtr}
    (hp : p ∈ s.sched.queued) :
    ∃ rec, (if first then s.profiler.recordFirstTokens (Bench.reported st'.groups out) env.firstAt
        else s.profiler).activeRequests.lookup p = some rec ∧
      (rec.gotFirstToken = true ↔ first = true ∧ 0 < (st'.seq p).outputLen) := by
  obtain ⟨rec, hrec, hgot⟩ := h.active p hp
  cases first with
  | false => exact ⟨rec, hrec, by simpa using hgot⟩
  | true =>
      rw [if_pos rfl, Profiler.lookup_recordFirstTokens, h.reported_eq it, hrec]
      by_cases hs : p ∈ out.scheduledGroups
      · have hpos : 0 < (st'.seq p).outputLen := by
          rw [it.grown p hs]
          exact Nat.succ_pos _
        by_cases hzero : (s.sched.seq p).outputLen = 0
        · rw [if_pos (List.mem_filter.2 ⟨hs, by simpa using hzero⟩)]
          exact ⟨_, rfl, by simp [hpos]⟩
        · rw [if_neg (fun hmem => hzero (by simpa using (List.mem_filter.1 hmem).2))]
          refine ⟨rec, rfl, ?_⟩
          rw [hgot]
          simp [hpos, Nat.pos_of_ne_zero hzero]
      · rw [if_neg (fun hmem => hs (List.mem_filter.1 hmem).1), it.kept p hs]
        exact ⟨rec, rfl, hgot⟩

omit [FloorSemiring K] in
/-- A request that is not present is not known to the profiler. -/
theorem Inv.reported_ended (h : Inv cfg env first s) {id : SeqId}
    (hid : id ∉ s.sched.queued) :
    (if first then s.profiler.recordFirstTokens (Bench.reported st'.groups out) env.firstAt
      else s.profiler).activeRequests.lookup id = none := by
  cases first with
  | false => exact h.ended id hid
  | true =>
      rw [if_pos rfl, Profiler.lookup_recordFirstTokens, h.ended id hid]
      simp

omit [FloorSemiring K] in
/-- The sum over all requests grows by the reports. -/
theorem Inv.reported_ttft (h : Inv cfg env first s)
    (it : Iterated cfg.cache s.sched st' out.scheduledGroups batch) :
    (if first then s.profiler.recordFirstTokens (Bench.reported st'.groups out) env.firstAt
      else s.profiler).ttftStats.count
      = if first then ∑ p ∈ Finset.range s.submitted, hasFirst (st'.seq p) else 0 := by
  have hold := h.ttft
  cases first with
  | false => exact hold
  | true =>
      simp only [if_true] at hold ⊢
      rw [Profiler.count_recordFirstTokens, hold, h.reported_eq it]
      · rw [sum_range_grown (fun p => hasFirst (s.sched.seq p)) (fun p => hasFirst (st'.seq p))
          (fun p => if (s.sched.seq p).outputLen = 0 then 1 else 0) it.nodup ?_ ?_, sum_map_indicator]
        · intro p hp
          refine ⟨h.queued_lt p (it.mem p hp), ?_⟩
          by_cases hzero : (s.sched.seq p).outputLen = 0
          · simp [hasFirst, it.grown p hp, hzero]
          · simp [hasFirst, it.grown p hp, hzero]
        · intro p _ hp
          simp only [hasFirst, it.kept p hp]
      · intro id hid
        rw [h.reported_eq it] at hid
        obtain ⟨rec, hrec, -⟩ := h.active id (it.mem id (List.mem_filter.1 hid).1)
        rw [hrec]
        rfl

omit [LinearOrder K] [FloorSemiring K] in
theorem Inv.requestId_iterated (h : Inv cfg env first s)
    (it : Iterated cfg.cache s.sched st' out.scheduledGroups batch) {p : GroupPtr}
    (hp : p ∈ out.scheduledGroups) : (st'.groups p).requestId = p := by
  have hlt := h.queued_lt p (it.mem p hp)
  exact ((it.same p (by rw [h.next]; exact hlt)).requestId).trans (h.requests p hlt).1

omit [FloorSemiring K] in
/-- The groups that are finished are counted once each. -/
theorem Inv.reported_ends (h : Inv cfg env first s)
    (it : Iterated cfg.cache s.sched st' out.scheduledGroups batch) :
    Bench.Ended st'.groups first cfg.outputLimit out.scheduledGroups
      (if first then s.profiler.recordFirstTokens (Bench.reported st'.groups out) env.firstAt
        else s.profiler)
      (Bench.recordEnds st'.groups out env.endAt
        (if first then s.profiler.recordFirstTokens (Bench.reported st'.groups out) env.firstAt
          else s.profiler)) := by
  rw [Bench.recordEnds_eq]
  refine Bench.recordEndsOf_ended _ _ ?_ ?_
  · rw [List.map_congr_left (fun p hp => h.requestId_iterated it hp)]
    exact (List.map_id' out.scheduledGroups).symm ▸ it.nodup
  · intro p hp hfin
    have hlt := h.queued_lt p (it.mem p hp)
    have hsingle := it.wf.single_of_mem (it.queued.mem_iff.2 (it.mem p hp))
    rw [hsingle.allFinished] at hfin
    have hserved := it.finished p hp hfin
    have hlimit : (st'.groups p).outputLimit = cfg.outputLimit := by
      rw [← h.outputLimit hlt, (it.same p (by rw [h.next]; exact hlt)).outputLimit]
    obtain ⟨rec, hrec, hgot⟩ := h.reported_active it (it.mem p hp)
    have hpos : 0 < (st'.seq p).outputLen := by
      rw [it.grown p hp]
      exact Nat.succ_pos _
    refine ⟨hserved.2.trans hlimit, rec, by rw [h.requestId_iterated it hp]; exact hrec, ?_⟩
    cases first with
    | false => simpa using hgot
    | true => simpa [hpos] using hgot

end Reports

omit [LinearOrder K] [FloorSemiring K] in
theorem Inv.finished_iff (h : Inv cfg env first s) {st' : Scheduler} {out : SchedulerOutput}
    {batch : DecodeBatch} (it : Iterated cfg.cache s.sched st' out.scheduledGroups batch) {id : SeqId}
    (hid : id ∈ s.sched.queued) :
    (∃ p ∈ out.scheduledGroups, (st'.groups p).allFinished = true ∧ (st'.groups p).requestId = id) ↔
      (st'.seq id).isFinished = true := by
  have hall := (it.wf.single_of_mem (it.queued.mem_iff.2 hid)).allFinished
  constructor
  · rintro ⟨p, hp, hfin, hreq⟩
    rw [h.requestId_iterated it hp] at hreq
    subst hreq
    rw [hall] at hfin
    exact hfin
  · intro hfin
    have hs : id ∈ out.scheduledGroups := by
      by_contra hnot
      rw [it.unfinished id hid hnot] at hfin
      cases hfin
    exact ⟨id, hs, hall.trans hfin, h.requestId_iterated it hs⟩

section Iteration

variable {st' : Scheduler} {out : SchedulerOutput} {batch : DecodeBatch}

omit [LinearOrder K] [FloorSemiring K] in
/-- The tokens of the batch are those that are fed. -/
theorem Inv.sum_fed (h : Inv cfg env first s)
    (it : Iterated cfg.cache s.sched st' out.scheduledGroups batch) :
    ∑ p ∈ Finset.range s.submitted, fed (st'.seq p)
      = ∑ p ∈ Finset.range s.submitted, fed (s.sched.seq p) + batch.entries.length := by
  rw [it.tokens]
  refine sum_range_grown _ (fun p => fed (st'.seq p)) _ it.nodup ?_ ?_
  · intro p hp
    have hlt := h.queued_lt p (it.mem p hp)
    have hprompt : (st'.seq p).promptLen = (s.sched.seq p).promptLen :=
      (it.same p (by rw [h.next]; exact hlt)).promptLen
    refine ⟨hlt, ?_⟩
    simp only [fed, SequenceData.batchTokens, hprompt, it.grown p hp]
    split <;> split <;> omega
  · intro p hlt hp
    have hprompt : (st'.seq p).promptLen = (s.sched.seq p).promptLen :=
      (it.same p (by rw [h.next]; exact hlt)).promptLen
    simp only [fed, hprompt, it.kept p hp]

/-- **One iteration** of the loop, with something scheduled. -/
theorem Inv.iterate (h : Inv cfg env first s)
    (it : Iterated cfg.cache s.sched st' out.scheduledGroups batch)
    (hbatch : batch.totalTokens = batch.entries.length) (hne : out.scheduledGroups ≠ []) (ms : K) :
    Inv cfg env first { s with
      measured := s.measured.step (batch, ms),
      profiler := Bench.recordEnds st'.groups out env.endAt
        (if first then s.profiler.recordFirstTokens (Bench.reported st'.groups out) env.firstAt
         else s.profiler),
      completed := s.completed + (out.scheduledGroups.filter (fun p => (st'.groups p).allFinished)).length,
      sched := st'.freeFinishedRequests } := by
  have hends := h.reported_ends it
  have hgroups : st'.freeFinishedRequests.groups = st'.groups := by rw [freeFinishedRequests_eq]
  have hseq : ∀ p, st'.freeFinishedRequests.seq p = st'.seq p := fun p => by
    rw [Scheduler.seq, hgroups, Scheduler.seq]
  have hmeasured := s.measured.step_of_ne_nil (x := (batch, ms))
    (it.entries_ne_nil h.service hne)
  refine ⟨it.service, ?_, h.nextId, ?_, h.limit, ?_, ?_, ?_, ?_, ?_, ?_, ?_, ?_, ?_, ?_⟩
  · rw [freeFinishedRequests_eq]
    exact it.config.trans h.config
  · rw [freeFinishedRequests_eq]
    exact it.next.trans h.next
  · intro p hp
    obtain ⟨⟨hid, hsampling⟩, hprompt⟩ := it.same p (by rw [h.next]; exact hp)
    obtain ⟨hid', hsampling', hprompt'⟩ := h.requests p hp
    rw [hseq, hgroups]
    exact ⟨hid.trans hid', hsampling.trans hsampling', hprompt.trans hprompt'⟩
  · have hcount := it.count
    have hold := h.inFlight
    show st'.freeFinishedRequests.queued.length ≤ cfg.numConcurrent
    omega
  · have hcount := it.count
    have hold := h.counted
    show st'.freeFinishedRequests.queued.length + (s.completed + _) = s.submitted
    omega
  · intro p hp
    obtain ⟨hmem, hfin⟩ := (it.present p).1 hp
    obtain ⟨rec, hrec, hgot⟩ := h.reported_active it hmem
    refine ⟨rec, ?_, by rw [hseq]; exact hgot⟩
    rw [hends.lookup, if_neg]
    · exact hrec
    · rw [h.finished_iff it hmem, hfin]
      simp
  · intro id hid
    have hid : id ∉ st'.freeFinishedRequests.queued := hid
    rw [hends.lookup]
    by_cases hmem : id ∈ s.sched.queued
    · rw [if_pos]
      rw [h.finished_iff it hmem]
      by_contra hfin
      exact hid ((it.present id).2 ⟨hmem, by simpa using hfin⟩)
    · rw [h.reported_ended hmem]
      exact ite_self _
  · rw [hends.total]
    show _ = s.completed + _
    rw [← h.total]
    cases first with
    | false => rfl
    | true => rw [if_pos rfl, Profiler.totalRequests_recordFirstTokens]
  · rw [Bench.ttftStats_recordEnds, h.reported_ttft it]
    simp only [hseq]
  · rw [hends.tpot]
    have hold : (if first then s.profiler.recordFirstTokens (Bench.reported st'.groups out) env.firstAt
        else s.profiler).tpotStats = s.profiler.tpotStats := by
      cases first with
      | false => rfl
      | true => rw [if_pos rfl, Profiler.tpotStats_recordFirstTokens]
    rw [hold, h.tpot]
    split <;> rfl
  · rw [hmeasured]
    simp only [hseq]
    rw [h.sum_fed it, ← h.tokens, ← hbatch]
    rfl
  · rw [hmeasured]
    exact congrArg (· + 1) h.latencies

end Iteration

/-! ## The requests run in waves -/

omit [LinearOrder K] [FloorSemiring K] in
/-- The budgets of the scheduler suffice for all requests in flight. -/
theorem Inv.schedules_all (h : Inv cfg env first s) (hfits : Fits cfg env) :
    s.sched.schedule.1.scheduledGroups.Perm s.sched.queued := by
  refine h.service.schedules_all (h.reserved hfits) ?_ ?_
  · rw [h.config]
    exact h.inFlight
  · have hprompts : ∀ p ∈ s.sched.waiting, (s.sched.seq p).promptLen = cfg.promptLen := by
      intro p hp
      exact (congrArg List.length (h.requests p (h.queued_lt p (WellFormed.mem_waiting hp))).2.2).trans
        (hfits.prompts p)
    have hrunning := Nat.le_mul_of_pos_right s.sched.running.length hfits.promptLen
    have hlen := h.length_queued
    rw [List.map_congr_left hprompts, List.map_const', List.sum_replicate, smul_eq_mul, h.config,
      hfits.maxNumBatchedTokens]
    calc s.sched.running.length + s.sched.waiting.length * cfg.promptLen
        ≤ s.sched.running.length * cfg.promptLen + s.sched.waiting.length * cfg.promptLen :=
          Nat.add_le_add_right hrunning _
      _ = s.sched.queued.length * cfg.promptLen := by rw [hlen, Nat.add_mul]
      _ ≤ cfg.numConcurrent * (cfg.promptLen + cfg.outputLen) :=
          Nat.mul_le_mul h.inFlight (Nat.le_add_right _ _)

/-- After `w` waves of `num_concurrent` requests and `k` iterations of the next one: the requests in flight
    have `k` tokens each, and none is handed in until all of them are finished. -/
structure Lockstep (cfg : BenchConfig) (w k : Nat) (s : ClosedLoop K) : Prop where
  steps : s.measured.engine.totalSteps = w * cfg.outputLimit + k
  completed : s.completed = min cfg.numRequests (w * cfg.numConcurrent)
  level : ∀ p ∈ s.sched.queued, (s.sched.seq p).outputLen = k
  short : k < cfg.outputLimit
  last : w * cfg.numConcurrent < cfg.numRequests + cfg.numConcurrent
  full : 0 < k → w * cfg.numConcurrent < cfg.numRequests ∧
    (s.sched.queued.length < cfg.numConcurrent → s.submitted = cfg.numRequests)

variable {w k : Nat}

omit [LinearOrder K] [FloorSemiring K] in
theorem Lockstep.more (hl : Lockstep cfg w k s) (hmore : s.completed < cfg.numRequests) :
    s.completed = w * cfg.numConcurrent ∧ w * cfg.numConcurrent < cfg.numRequests := by
  have hcompleted := hl.completed
  omega

omit [LinearOrder K] [FloorSemiring K] in
theorem Lockstep.submitLoop (hl : Lockstep cfg w k s) (h : Inv cfg env first s)
    (hfits : Fits cfg env) (hmore : s.completed < cfg.numRequests) {s' : ClosedLoop K}
    (hs' : ClosedLoop.submitLoop cfg env (cfg.numRequests - s.submitted) s = s') :
    Submitted cfg env first s s' ∧ Lockstep cfg w k s' := by
  have hsub : Submitted cfg env first s s' := by
    rw [← hs']
    exact h.submitLoop hfits _ (Nat.add_sub_cancel' h.limit)
  refine ⟨hsub, by rw [hsub.measured]; exact hl.steps, by rw [hsub.completed]; exact hl.completed, ?_,
    hl.short, hl.last, fun _ => ⟨(hl.more hmore).2, hsub.full⟩⟩
  by_cases hk : k = 0
  · subst hk
    exact hsub.fresh hl.level
  · rw [← hs', h.submitLoop_full (hl.full (Nat.pos_of_ne_zero hk)).2]
    exact hl.level

section Iteration

variable {s' : ClosedLoop K} {st' : Scheduler} {ps : List GroupPtr} {batch : DecodeBatch}

omit [LinearOrder K] [FloorSemiring K] in
/-- The requests in flight have one token more. -/
theorem Lockstep.grown (hl : Lockstep cfg w k s) (it : Iterated cfg.cache s.sched st' ps batch)
    (hall : ps.Perm s.sched.queued) (hsched : s'.sched = st'.freeFinishedRequests) :
    ∀ p ∈ s'.sched.queued, p ∈ s.sched.queued ∧ (s'.sched.seq p).outputLen = k + 1 := by
  intro p hp
  rw [hsched] at hp ⊢
  obtain ⟨hmem, -⟩ := (it.present p).1 hp
  have hgrown := it.grown p (hall.mem_iff.2 hmem)
  rw [hl.level p hmem] at hgrown
  refine ⟨hmem, ?_⟩
  rw [freeFinishedRequests_eq]
  exact hgrown

omit [LinearOrder K] [FloorSemiring K] in
/-- No request ends before its limit. -/
theorem Lockstep.queued_perm (hl : Lockstep cfg w k s) (h : Inv cfg env first s)
    (it : Iterated cfg.cache s.sched st' ps batch) (hall : ps.Perm s.sched.queued)
    (hsched : s'.sched = st'.freeFinishedRequests) (hk : k + 1 ≠ cfg.outputLimit) :
    s'.sched.queued.Perm s.sched.queued := by
  rw [hsched]
  refine (List.perm_ext_iff_of_nodup it.service.wf.queues h.service.wf.queues).2 (fun p => ?_)
  rw [it.present]
  refine ⟨fun hp => hp.1, fun hp => ⟨hp, ?_⟩⟩
  by_contra hfin
  have hps := hall.mem_iff.2 hp
  have hserved := it.finished p hps (by simpa using hfin)
  have hlt := h.queued_lt p hp
  have hlimit : (st'.groups p).outputLimit = cfg.outputLimit := by
    rw [← h.outputLimit hlt, (it.same p (by rw [h.next]; exact hlt)).outputLimit]
  have hgrown := it.grown p hps
  rw [hl.level p hp] at hgrown
  exact hk (hgrown.symm.trans (hserved.2.trans hlimit))

omit [LinearOrder K] [FloorSemiring K] in
/-- **One more iteration** of a wave; the wave ends when the limit is reached. -/
theorem Lockstep.iterate (hl : Lockstep cfg w k s) (h : Inv cfg env first s)
    (it : Iterated cfg.cache s.sched st' ps batch) (hall : ps.Perm s.sched.queued)
    (hmore : s.completed < cfg.numRequests)
    (hfull : s.sched.queued.length < cfg.numConcurrent → s.submitted = cfg.numRequests)
    (h' : Inv cfg env first s') (hsched : s'.sched = st'.freeFinishedRequests)
    (hsubmitted : s'.submitted = s.submitted)
    (hsteps : s'.measured.engine.totalSteps = s.measured.engine.totalSteps + 1) :
    Lockstep cfg w (k + 1) s' ∨ k + 1 = cfg.outputLimit ∧ Lockstep cfg (w + 1) 0 s' := by
  obtain ⟨hcompleted, hlt⟩ := hl.more hmore
  have hcounted := h.counted
  have hcounted' := h'.counted
  have hgrown := hl.grown it hall hsched
  have hsum := hl.steps
  have hwave : (w + 1) * cfg.numConcurrent = w * cfg.numConcurrent + cfg.numConcurrent :=
    Nat.succ_mul ..
  have hrow : (w + 1) * cfg.outputLimit = w * cfg.outputLimit + cfg.outputLimit := Nat.succ_mul ..
  have hinFlight := h.inFlight
  have hlimit := h.limit
  by_cases hk : k + 1 = cfg.outputLimit
  · -- all of them are finished
    have hnil : s'.sched.queued = [] := by
      refine List.eq_nil_iff_forall_not_mem.2 (fun p hp => ?_)
      have hshort := (h'.service.short p hp).2
      rw [h'.outputLimit (h'.queued_lt p hp)] at hshort
      have hlen := (hgrown p hp).2
      omega
    rw [hnil, List.length_nil] at hcounted'
    refine .inr ⟨hk, by omega, by omega, ?_, cfg.outputLimit_pos, by omega,
      fun hpos => absurd hpos (Nat.lt_irrefl 0)⟩
    intro p hp
    rw [hnil] at hp
    exact absurd hp List.not_mem_nil
  · have hlen := (hl.queued_perm h it hall hsched hk).length_eq
    have hshort := hl.short
    exact .inl ⟨by omega, by omega, fun p hp => (hgrown p hp).2, by omega, hl.last,
      fun _ => ⟨hlt, fun hroom => hsubmitted.trans (hfull (by omega))⟩⟩

end Iteration

/-- An iteration of the loop, after the requests have been handed in. -/
theorem Lockstep.serve (hl : Lockstep cfg w k s) (h : Inv cfg env first s) (hfits : Fits cfg env)
    (hmore : s.completed < cfg.numRequests)
    (hfull : s.sched.queued.length < cfg.numConcurrent → s.submitted = cfg.numRequests)
    {s' : ClosedLoop K}
    (hs' : s' = ClosedLoop.serve env first s.sched.schedule.1 { s with sched := s.sched.schedule.2 }) :
    s.sched.schedule.1.isEmpty = false ∧ Inv cfg env first s' ∧
      (Lockstep cfg w (k + 1) s' ∨ k + 1 = cfg.outputLimit ∧ Lockstep cfg (w + 1) 0 s') := by
  have hall := h.schedules_all hfits
  have hne : s.sched.schedule.1.scheduledGroups ≠ [] := by
    intro hnil
    rw [hnil] at hall
    have hzero : s.sched.queued.length = 0 := hall.symm.length_eq
    have hcounted := h.counted
    have hconcurrent := hfits.concurrent
    have hsubmitted := hfull (by omega)
    omega
  have it := h.service.iterated (h.reserved hfits)
    (env.sample_length s.measured.engine.totalSteps _) (env.updateAt s.measured.engine.totalSteps)
  have h' := h.iterate it (buildBatch_totalTokens _ _) hne
    (env.stepTimeMs s.measured.engine.totalSteps)
  refine ⟨by rw [SchedulerOutput.isEmpty, List.isEmpty_eq_false_iff]; exact hne, by rw [hs']; exact h', ?_⟩
  refine hl.iterate h it hall hmore hfull (by rw [hs']; exact h') (by rw [hs']; rfl) (by rw [hs']; rfl) ?_
  rw [hs', ClosedLoop.serve]
  exact congrArg (fun m : Measured K => m.engine.totalSteps)
    (s.measured.step_of_ne_nil (it.entries_ne_nil h.service hne))

/-! ## The whole loop -/

/-- What the loop ends with. -/
structure Complete (cfg : BenchConfig) (env : BenchEnv K) (first : Bool) (s : ClosedLoop K) : Prop where
  counted : s.completed = cfg.numRequests ∧ s.submitted = cfg.numRequests
  idle : s.sched.running = [] ∧ s.sched.waiting = [] ∧ s.sched.swapped = [] ∧ s.sched.requestMap = ∅ ∧
    s.sched.blockManager.numFreeGpuBlocks = cfg.cache.numGpuBlocks
  served : ∀ p < cfg.numRequests, (s.sched.groups p).requestId = p ∧
    (s.sched.seq p).promptTokens = env.prompt p ∧ (s.sched.seq p).status = .finishedLength ∧
    (s.sched.seq p).outputLen = cfg.outputLimit
  ended : s.profiler.totalRequests = cfg.numRequests ∧ ∀ id, s.profiler.activeRequests.lookup id = none
  ttft : s.profiler.ttftStats.count = if first then cfg.numRequests else 0
  tpot : s.profiler.tpotStats.count
    = if first = true ∧ 1 < cfg.outputLimit then cfg.numRequests else 0
  tokens : s.measured.profiler.throughput.totalTokens
    = cfg.numRequests * (cfg.promptLen + cfg.outputLimit - 1)
  steps : s.measured.engine.totalSteps
    = (cfg.numRequests ⌈/⌉ cfg.numConcurrent) * cfg.outputLimit
  latencies : s.measured.profiler.stepLatency.count = s.measured.engine.totalSteps

omit [LinearOrder K] [FloorSemiring K] in
/-- When all requests have been counted, the sums over them are known. -/
theorem Inv.complete (h : Inv cfg env first s) (hfits : Fits cfg env)
    (hcompleted : s.completed = cfg.numRequests)
    (hsteps : s.measured.engine.totalSteps
      = (cfg.numRequests ⌈/⌉ cfg.numConcurrent) * cfg.outputLimit) : Complete cfg env first s := by
  have hcounted := h.counted
  have hlimit := h.limit
  have hsubmitted : s.submitted = cfg.numRequests := by omega
  have hidle : s.sched.queued = [] := List.length_eq_zero_iff.1 (by omega)
  have hserved : ∀ p < cfg.numRequests, (s.sched.seq p).status = .finishedLength ∧
      (s.sched.seq p).outputLen = cfg.outputLimit := by
    intro p hp
    obtain ⟨hstatus, hlen⟩ := h.service.served p (by rw [h.next, hsubmitted]; exact hp)
      (by rw [hidle]; exact List.not_mem_nil)
    exact ⟨hstatus, hlen.trans (h.outputLimit (by rw [hsubmitted]; exact hp))⟩
  have hpos := cfg.outputLimit_pos
  refine ⟨⟨hcompleted, hsubmitted⟩, h.service.idle hidle, ?_, ⟨h.total.trans hcompleted, ?_⟩, ?_, ?_, ?_,
    hsteps, h.latencies⟩
  · intro p hp
    obtain ⟨hid, -, hprompt⟩ := h.requests p (by rw [hsubmitted]; exact hp)
    exact ⟨hid, hprompt, hserved p hp⟩
  · intro id
    exact h.ended id (by rw [hidle]; exact List.not_mem_nil)
  · rw [h.ttft, hsubmitted]
    have hterm : ∀ p ∈ Finset.range cfg.numRequests, hasFirst (s.sched.seq p) = 1 := by
      intro p hp
      rw [hasFirst, (hserved p (Finset.mem_range.1 hp)).2, if_neg (Nat.ne_of_gt hpos)]
    rw [Finset.sum_congr rfl hterm]
    simp
  · rw [h.tpot, hcompleted]
  · rw [h.tokens, hsubmitted]
    have hterm : ∀ p ∈ Finset.range cfg.numRequests,
        fed (s.sched.seq p) = cfg.promptLen + cfg.outputLimit - 1 := by
      intro p hp
      have hp := Finset.mem_range.1 hp
      have hlen : (s.sched.seq p).promptLen = cfg.promptLen :=
        (congrArg List.length (h.requests p (by rw [hsubmitted]; exact hp)).2.2).trans (hfits.prompts p)
      rw [fed, (hserved p hp).2, if_neg (Nat.ne_of_gt hpos), hlen]
    rw [Finset.sum_congr rfl hterm, Finset.sum_const, Finset.card_range, smul_eq_mul]

end Invariant

end ClosedLoop

end CacheFlow
