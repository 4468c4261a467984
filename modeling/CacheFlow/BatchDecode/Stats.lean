import CacheFlow.BatchManager
import CacheFlow.Profiler.Histogram
import CacheFlow.Profiler.RunningStats

set_option autoImplicit false

/-! # The statistics of the engine and of the profiler

In a build with the profiler, which is the default, every call of `step` is counted twice. The engine keeps
`stats_`, with totals and two rates it computes anew in each call; the profiler is told by `begin_step` and
`end_step` and keeps a throughput meter, running statistics and a histogram of the step times. A step with an
empty batch returns at once and is counted by neither.

The two never read each other, and they compute the same averages in different ways: the engine divides its
totals, the meter divides its own, and the running statistics move a mean along. Since the last reset of both
they agree (`Measured.engine_profiler_agree`). The arithmetic is that of an ordered field instead of
`double`, and the counters have no upper limit. -/

namespace CacheFlow

open Accumulator

/-- `1000.0`. -/
def msPerSec (K : Type) [Field K] : K := (1000 : Nat)

structure EngineStats (K : Type) [Field K] where
  totalSteps : Nat := 0
  totalTokens : Nat := 0
  totalPrefillTokens : Nat := 0
  totalDecodeTokens : Nat := 0
  totalTimeMs : K := 0
  avgStepTimeMs : K := 0
  tokensPerSec : K := 0

structure ThroughputMeter (K : Type) [Field K] where
  totalTokens : Nat := 0
  totalTimeMs : K := 0
  intervals : Nat := 0

/-- What the profiler keeps of the steps. -/
structure StepMetrics (K : Type) [Field K] where
  stepLatency : RunningStats K := {}
  latencyHist : Histogram K
  throughput : ThroughputMeter K := {}

/-- The engine and its profiler. -/
structure Measured (K : Type) [Field K] where
  engine : EngineStats K := {}
  profiler : StepMetrics K

namespace ThroughputMeter

variable {K : Type} [Field K]

def recordTokens (m : ThroughputMeter K) (count : Nat) : ThroughputMeter K :=
  { m with totalTokens := m.totalTokens + count }

def recordInterval (m : ThroughputMeter K) (ms : K) : ThroughputMeter K :=
  { m with totalTimeMs := m.totalTimeMs + ms, intervals := m.intervals + 1 }

def tokensPerSec [LinearOrder K] (m : ThroughputMeter K) : K :=
  if m.totalTimeMs ≤ 0 then 0 else m.totalTokens / (m.totalTimeMs / msPerSec K)

def avgIntervalMs (m : ThroughputMeter K) : K :=
  if m.intervals = 0 then 0 else m.totalTimeMs / m.intervals

end ThroughputMeter

namespace StepMetrics

variable {K : Type} [Field K] [LinearOrder K] [FloorSemiring K]

def beginStep (p : StepMetrics K) (numTokens : Nat) : StepMetrics K :=
  { p with throughput := p.throughput.recordTokens numTokens }

def endStep (p : StepMetrics K) (stepTimeMs : K) : StepMetrics K :=
  { stepLatency := p.stepLatency.update stepTimeMs,
    latencyHist := p.latencyHist.record stepTimeMs,
    throughput := p.throughput.recordInterval stepTimeMs }

def reset (p : StepMetrics K) : StepMetrics K :=
  { stepLatency := p.stepLatency.reset, latencyHist := p.latencyHist.reset, throughput := {} }

end StepMetrics

/-- The statistics `step` keeps of a batch that is not empty. -/
def EngineStats.record {K : Type} [Field K] (s : EngineStats K) (batch : DecodeBatch)
    (stepTimeMs : K) : EngineStats K :=
  let totalSteps := s.totalSteps + 1
  let totalTokens := s.totalTokens + batch.totalTokens
  let totalTimeMs := s.totalTimeMs + stepTimeMs
  { totalSteps := totalSteps,
    totalTokens := totalTokens,
    totalTimeMs := totalTimeMs,
    avgStepTimeMs := totalTimeMs / (totalSteps : Nat),
    tokensPerSec := (totalTokens : Nat) / (totalTimeMs / msPerSec K),
    totalPrefillTokens := s.totalPrefillTokens + batch.entries.countP (fun e => e.isPrefill),
    totalDecodeTokens := s.totalDecodeTokens + batch.entries.countP (fun e => !e.isPrefill) }

namespace Measured

variable {K : Type} [Field K] [LinearOrder K] [FloorSemiring K]

/-- What `step` counts of a batch that took `stepTimeMs`. -/
def step (m : Measured K) (x : DecodeBatch × K) : Measured K :=
  if x.1.entries = [] then m
  else { engine := m.engine.record x.1 x.2,
         profiler := (m.profiler.beginStep x.1.totalTokens).endStep x.2 }

theorem step_of_ne_nil (m : Measured K) {x : DecodeBatch × K} (hx : x.1.entries ≠ []) :
    m.step x = { engine := m.engine.record x.1 x.2,
                 profiler := (m.profiler.beginStep x.1.totalTokens).endStep x.2 } :=
  if_neg hx

/-- `reset_stats` of the engine and `reset` of the profiler. -/
def reset (m : Measured K) : Measured K := { engine := {}, profiler := m.profiler.reset }

/-- The state after a sequence of calls, for a histogram of `n` bins from `lo` to `hi`. -/
def after (lo hi : K) (n : Nat) (calls : List (Call (DecodeBatch × K))) : Measured K :=
  calls.foldl (Accumulator.step step reset) { profiler := { latencyHist := .new lo hi n } }

/-- The steps that are counted. -/
def counted (steps : List (DecodeBatch × K)) : List (DecodeBatch × K) :=
  steps.filter (fun x => x.1.entries ≠ [])

def times (steps : List (DecodeBatch × K)) : List K := (counted steps).map Prod.snd

def tokens (steps : List (DecodeBatch × K)) : Nat :=
  ((counted steps).map (fun x => x.1.totalTokens)).sum

/-- The tokens of the prefill entries, or of the others. -/
def entriesWith (prefill : Bool) (steps : List (DecodeBatch × K)) : Nat :=
  ((counted steps).map (fun x => x.1.entries.countP (fun e => e.isPrefill == prefill))).sum

/-! ## Closed forms -/

/-- The statistics of a list of steps. -/
def totals (lo hi : K) (n : Nat) (steps : List (DecodeBatch × K)) : Measured K :=
  { engine :=
      { totalSteps := (counted steps).length,
        totalTokens := tokens steps,
        totalPrefillTokens := entriesWith true steps,
        totalDecodeTokens := entriesWith false steps,
        totalTimeMs := (times steps).sum,
        avgStepTimeMs := (times steps).sum / (counted steps).length,
        tokensPerSec := tokens steps / ((times steps).sum / msPerSec K) },
    profiler :=
      { stepLatency := (times steps).foldl RunningStats.update {},
        latencyHist := (times steps).foldl Histogram.record (.new lo hi n),
        throughput :=
          { totalTokens := tokens steps,
            totalTimeMs := (times steps).sum,
            intervals := (counted steps).length } } }

section Counted

omit [Field K] [LinearOrder K] [FloorSemiring K]

theorem counted_concat (steps : List (DecodeBatch × K)) {x : DecodeBatch × K}
    (hx : x.1.entries ≠ []) : counted (steps ++ [x]) = counted steps ++ [x] := by
  rw [counted, List.filter_append, List.filter_singleton]
  simp [hx, counted]

theorem counted_concat_empty (steps : List (DecodeBatch × K)) {x : DecodeBatch × K}
    (hx : x.1.entries = []) : counted (steps ++ [x]) = counted steps := by
  rw [counted, List.filter_append, List.filter_singleton]
  simp [hx, counted]

/-- Every entry is one of the two kinds. -/
theorem entriesWith_add {steps : List (DecodeBatch × K)}
    (hsteps : ∀ x ∈ steps, x.1.totalTokens = x.1.entries.length) :
    entriesWith true steps + entriesWith false steps = tokens steps := by
  have hcount : ∀ l : List BatchEntry, l.countP (fun e => e.isPrefill == true)
      + l.countP (fun e => e.isPrefill == false) = l.length := by
    intro l
    induction l with
    | nil => rfl
    | cons e l ih =>
        rw [List.countP_cons, List.countP_cons, List.length_cons, ← ih]
        cases e.isPrefill <;> simp <;> omega
  rw [entriesWith, entriesWith, tokens, ← List.sum_map_add]
  refine congrArg List.sum (List.map_congr_left (fun x hx => ?_))
  rw [hcount, hsteps x (List.mem_filter.1 hx).1]

end Counted

theorem foldl_step (lo hi : K) (n : Nat) (steps : List (DecodeBatch × K)) :
    steps.foldl step { profiler := { latencyHist := .new lo hi n } } = totals lo hi n steps := by
  induction steps using List.reverseRecOn with
  | nil => simp [totals, counted, times, tokens, entriesWith]
  | append_singleton steps x ih =>
      rw [List.foldl_append, ih, List.foldl_cons, List.foldl_nil, step]
      split
      · next hx => simp only [totals, times, tokens, entriesWith, counted_concat_empty steps hx]
      · next hx =>
          simp [totals, times, tokens, entriesWith, counted_concat steps hx, EngineStats.record,
            StepMetrics.beginStep, StepMetrics.endStep, ThroughputMeter.recordTokens,
            ThroughputMeter.recordInterval]

/-- A value leaves the shape of the histogram, and a reset leaves nothing else. -/
theorem reset_record (h : Histogram K) (x : K) : (h.record x).reset = h.reset := by
  unfold Histogram.record
  split
  · rfl
  · split
    · rfl
    · simp [Histogram.reset]

theorem after_eq (lo hi : K) (n : Nat) (calls : List (Call (DecodeBatch × K))) :
    after lo hi n calls = totals lo hi n (since calls) := by
  rw [after, ← foldl_step]
  refine foldl_since step reset (fun m => m.profiler.latencyHist.reset = .new lo hi n) ?_ ?_ ?_ calls
  · simp [Histogram.reset, Histogram.new]
  · intro m x hm
    rw [step]
    split
    · exact hm
    · exact (reset_record m.profiler.latencyHist x.2).trans hm
  · intro m hm
    simp only [reset, StepMetrics.reset, hm, RunningStats.reset]

/-- What two records of the same steps have in common. -/
structure Agree (steps : List (DecodeBatch × K)) (m : Measured K) : Prop where
  steps : m.engine.totalSteps = (counted steps).length
  latencies : m.profiler.stepLatency.count = m.engine.totalSteps
  intervals : m.profiler.throughput.intervals = m.engine.totalSteps
  histogram : m.profiler.latencyHist.underflow + m.profiler.latencyHist.overflow
    + m.profiler.latencyHist.total = m.engine.totalSteps
  tokens : m.profiler.throughput.totalTokens = m.engine.totalTokens
  entries : m.engine.totalPrefillTokens + m.engine.totalDecodeTokens = m.engine.totalTokens
  time : m.profiler.throughput.totalTimeMs = m.engine.totalTimeMs
  mean : 1 ≤ m.engine.totalSteps → m.profiler.stepLatency.mean = m.engine.avgStepTimeMs ∧
    m.profiler.throughput.avgIntervalMs = m.engine.avgStepTimeMs
  rate : 0 < m.engine.totalTimeMs → m.profiler.throughput.tokensPerSec = m.engine.tokensPerSec

/-- **The engine and the profiler agree** on the steps since the last reset of both, whatever batches were
    run and however long they took. -/
theorem engine_profiler_agree [IsStrictOrderedRing K] (lo hi : K) (hlt : lo < hi) (n : Nat)
    (hn : 1 ≤ n) (calls : List (Call (DecodeBatch × K)))
    (hcalls : ∀ x ∈ since calls, x.1.totalTokens = x.1.entries.length) :
    Agree (since calls) (after lo hi n calls) := by
  have hlen : (times (since calls)).length = (counted (since calls)).length := List.length_map ..
  rw [after_eq]
  refine ⟨rfl, ?_, rfl, ?_, rfl, entriesWith_add hcalls, rfl, ?_, ?_⟩
  · show ((times (since calls)).foldl RunningStats.update {}).count = (counted (since calls)).length
    rw [RunningStats.foldl_update, hlen]
  · show ((times (since calls)).foldl Histogram.record (.new lo hi n)).underflow
      + ((times (since calls)).foldl Histogram.record (.new lo hi n)).overflow
      + ((times (since calls)).foldl Histogram.record (.new lo hi n)).total
      = (counted (since calls)).length
    rw [Histogram.foldl_record hlt hn, Histogram.total_add hlt, hlen]
  · intro hpos
    constructor
    · show ((times (since calls)).foldl RunningStats.update {}).mean
        = (times (since calls)).sum / (counted (since calls)).length
      rw [RunningStats.foldl_update, ← hlen]
      rfl
    · exact if_neg (Nat.pos_iff_ne_zero.1 hpos)
  · intro hpos
    exact if_neg (not_le.2 hpos)

/-- A prefill of two tokens, an empty batch and a decode step after a reset. -/
def threeSteps : List (Call (DecodeBatch × ℚ)) :=
  let entry (position : Nat) (prefill : Bool) : BatchEntry :=
    { seqId := 1, token := 7, position := position, blockTable := [0], isPrefill := prefill }
  [.feed ({ entries := [entry 5 false], totalTokens := 1 }, 3), .reset,
    .feed ({ entries := [entry 0 true, entry 1 true], totalTokens := 2 }, 30), .feed ({}, 5),
    .feed ({ entries := [entry 2 false], totalTokens := 1 }, 10)]

theorem threeSteps_agree :
    ((after 0 500 500 threeSteps).engine.totalSteps = 2 ∧
      (after 0 500 500 threeSteps).engine.totalTokens = 3 ∧
      (after 0 500 500 threeSteps).engine.avgStepTimeMs = 20) ∧
      Agree (since threeSteps) (after 0 500 500 threeSteps) := by
  refine ⟨?_, engine_profiler_agree 0 500 (by decide) 500 (by decide) threeSteps (by decide)⟩
  rw [after_eq]
  refine ⟨rfl, rfl, ?_⟩
  show ([30, 10] : List ℚ).sum / (2 : Nat) = 20
  norm_num

end Measured

end CacheFlow
