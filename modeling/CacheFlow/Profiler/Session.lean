import CacheFlow.BatchDecode.Stats
import CacheFlow.BlockManager.Fragmentation
import CacheFlow.BlockManager.Interchange
import CacheFlow.Lib.Spans
import CacheFlow.PrefixCache.HitRate
import CacheFlow.Profiler.Requests
import CacheFlow.Profiler.TraceJson
import CacheFlow.Scheduler

set_option autoImplicit false

/-! # The profiler and what it writes to the trace

`Profiler` keeps statistics and, with tracing enabled, adds events to a trace. A decode step of the engine opens
a span with `begin_step`, marks two points inside and closes the span with `end_step`; requests, prefills and
decodes are reported between the steps, and a `TraceSpan` adds an event when it is destroyed.

The file is meant for a viewer of Chrome traces. Here the viewer reads the JSON text, pairs the events that
begin and end a span on a thread, and collects the values of a counter (`viewedSpans`, `viewedSamples`). Over
whole sessions it sees one span for each step with a batch, with the batch's tokens, and the statistics of
`snapshot` count what is in the file since the last `reset` (`TracedProfiler.trace_agrees`).

The clock and the hash of the calling thread are arguments of a call. `shown` is what `std::to_string` prints of
a `float`. -/

namespace CacheFlow

open Json

/-! ## The profiler -/

structure ProfilerConfig (K : Type) [Field K] where
  enableTracing : Bool := true
  histogramMin : K := 0
  histogramMax : K := ((500 : Nat) : K)
  histogramBins : Nat := 500

/-- All of `Profiler`, apart from the pointers to the other components. -/
structure TracedProfiler (K D : Type) [Field K] where
  metrics : StepMetrics K
  requests : Profiler K := {}
  stepStart : TimePoint := 0
  traceWriter : Option (TraceWriter D) := none

/-- What `static_cast<double>` makes of a counter, up to `2 ^ 53`, as `std::to_string` prints it. -/
def countShown (n : Nat) : Double := .finite { neg := false, units := n * 10 ^ 6 }

namespace TracedProfiler

variable {K D : Type} [Field K] [LinearOrder K] [FloorSemiring K] (c : Chrono D) (shown : Rat → Double)

/-- The constructor; `opened` says whether the file of the trace could be opened. -/
def new (config : ProfilerConfig K) (opened : Bool) (now : TimePoint) : TracedProfiler K D :=
  { metrics :=
      { latencyHist := .new config.histogramMin config.histogramMax config.histogramBins },
    traceWriter := if config.enableTracing then some (.new opened now) else none }

/-- `trace_writer_->add_event` if there is a writer. -/
def addEvent (p : TracedProfiler K D) (hash : Nat) (ev : TraceEvent D) : TracedProfiler K D :=
  { p with traceWriter := p.traceWriter.map (fun w => w.addEvent c hash ev) }

def beginEvent (numTokens : Nat) (now : TimePoint) : TraceEvent D :=
  { name := ascii "decode_step",
    category := ascii "engine",
    phase := .begin,
    timestamp := now,
    duration := c.zero,
    args := [{ key := ascii "num_tokens", value := decimal numTokens }] }

def endEvent (now : TimePoint) : TraceEvent D :=
  { name := ascii "decode_step",
    category := ascii "engine",
    phase := .end_,
    timestamp := now,
    duration := c.zero }

def markEvent (label : Bytes) (now : TimePoint) : TraceEvent D :=
  { name := label,
    category := ascii "mark",
    phase := .instant,
    timestamp := now,
    duration := c.zero }

def usageEvent (usage : Rat) (now : TimePoint) : TraceEvent D :=
  TraceWriter.counterEvent c (ascii "gpu_cache_usage") (ascii "utilization") (shown usage) now

def completedEvent (count : Nat) (now : TimePoint) : TraceEvent D :=
  TraceWriter.counterEvent c (ascii "requests_completed") (ascii "count") (countShown count) now

def beginStep (p : TracedProfiler K D) (hash numTokens : Nat) (now : TimePoint) : TracedProfiler K D :=
  addEvent c { p with stepStart := now, metrics := p.metrics.beginStep numTokens } hash
    (beginEvent c numTokens now)

/-- `blockManager` is what `block_manager_` points to; `counted` is the time of the counter. -/
def endStep (p : TracedProfiler K D) (hash : Nat) (stepTimeMs : K) (blockManager : Option BlockManager)
    (now counted : TimePoint) : TracedProfiler K D :=
  let p := addEvent c { p with metrics := p.metrics.endStep stepTimeMs } hash (endEvent c now)
  match blockManager with
  | none => p
  | some bm => addEvent c p hash (usageEvent c shown bm.gpuCacheUsage counted)

def mark (p : TracedProfiler K D) (hash : Nat) (label : Bytes) (now : TimePoint) : TracedProfiler K D :=
  addEvent c p hash (markEvent c label now)

def recordRequestStart (p : TracedProfiler K D) (id : SeqId) (now : TimePoint) : TracedProfiler K D :=
  { p with requests := p.requests.recordRequestStart id now }

def recordFirstToken (p : TracedProfiler K D) (id : SeqId) (now : TimePoint) : TracedProfiler K D :=
  { p with requests := p.requests.recordFirstToken id now }

/-- `now` is the end of the request and `counted` the time of the counter. -/
def recordRequestEnd (p : TracedProfiler K D) (hash : Nat) (id : SeqId) (outputTokens : Nat)
    (now counted : TimePoint) : TracedProfiler K D :=
  let requests := p.requests.recordRequestEnd id outputTokens now
  match p.requests.activeRequests.lookup id with
  | none => p
  | some _ => addEvent c { p with requests := requests } hash
      (completedEvent c requests.totalRequests counted)

def prefillEvent (id : SeqId) (promptLen : Nat) (timeMs : D) (now : TimePoint) : TraceEvent D :=
  { name := ascii "prefill",
    category := ascii "decode",
    phase := .complete,
    timestamp := now,
    duration := timeMs,
    args := [{ key := ascii "seq_id", value := decimal id },
      { key := ascii "prompt_len", value := decimal promptLen }] }

def decodeEvent (id : SeqId) (timeMs : D) (now : TimePoint) : TraceEvent D :=
  { name := ascii "decode",
    category := ascii "decode",
    phase := .complete,
    timestamp := now,
    duration := timeMs,
    args := [{ key := ascii "seq_id", value := decimal id }] }

def recordPrefill (p : TracedProfiler K D) (hash : Nat) (id : SeqId) (promptLen : Nat) (timeMs : D)
    (now : TimePoint) : TracedProfiler K D :=
  addEvent c p hash (prefillEvent id promptLen timeMs now)

def recordDecode (p : TracedProfiler K D) (hash : Nat) (id : SeqId) (timeMs : D) (now : TimePoint) :
    TracedProfiler K D :=
  addEvent c p hash (decodeEvent id timeMs now)

/-- The trace goes on. -/
def reset (p : TracedProfiler K D) : TracedProfiler K D :=
  { p with metrics := p.metrics.reset, requests := {} }

end TracedProfiler

/-! ## Sessions -/

/-- The times that are read during a step. -/
structure StepClock where
  tStart : TimePoint
  begun : TimePoint
  prepared : TimePoint
  attended : TimePoint
  tEnd : TimePoint
  ended : TimePoint
  counted : TimePoint
  deriving DecidableEq, Repr

/-- A decode step of the engine, or a call to its profiler. -/
inductive SessionOp (D : Type) where
  | step (batch : DecodeBatch) (clock : StepClock) (blockManager : Option BlockManager)
  | mark (label : Bytes) (now : TimePoint)
  | recordRequestStart (id : SeqId) (now : TimePoint)
  | recordFirstToken (id : SeqId) (now : TimePoint)
  | recordRequestEnd (id : SeqId) (outputTokens : Nat) (now counted : TimePoint)
  | recordPrefill (id : SeqId) (promptLen : Nat) (timeMs : D) (now : TimePoint)
  | recordDecode (id : SeqId) (timeMs : D) (now : TimePoint)
  /-- A `TraceSpan` on the writer, from its construction to its destruction. -/
  | traceSpan (name category : Bytes) (args : List TraceEvent.Arg) (now : TimePoint) (duration : D)
  /-- `trace_writer()->flush()`. -/
  | flush

namespace TracedProfiler

variable {K D : Type} [Field K] [LinearOrder K] [FloorSemiring K] (c : Chrono D) (shown : Rat → Double)

/-- The calls of `step` to the profiler; an empty batch returns at once. -/
def engineStep (p : TracedProfiler K D) (hash : Nat) (batch : DecodeBatch) (clock : StepClock)
    (blockManager : Option BlockManager) : TracedProfiler K D :=
  if batch.entries = [] then p
  else
    let p := p.beginStep c hash batch.totalTokens clock.begun
    let p := p.mark c hash (ascii "kv_cache_prepared") clock.prepared
    let p := p.mark c hash (ascii "attention_done") clock.attended
    p.endStep c shown hash (Profiler.millis K clock.tStart clock.tEnd) blockManager clock.ended
      clock.counted

/-- The event a `TraceSpan` adds. -/
def spanEvent (name category : Bytes) (args : List TraceEvent.Arg) (now : TimePoint) (duration : D) :
    TraceEvent D :=
  { name := name,
    category := category,
    phase := .complete,
    timestamp := now,
    duration := duration,
    args := args }

/-- An operation on the thread with this hash. -/
def apply (p : TracedProfiler K D) : Nat × SessionOp D → TracedProfiler K D
  | (hash, .step batch clock blockManager) => p.engineStep c shown hash batch clock blockManager
  | (hash, .mark label now) => p.mark c hash label now
  | (_, .recordRequestStart id now) => p.recordRequestStart id now
  | (_, .recordFirstToken id now) => p.recordFirstToken id now
  | (hash, .recordRequestEnd id outputTokens now counted) =>
    p.recordRequestEnd c hash id outputTokens now counted
  | (hash, .recordPrefill id promptLen timeMs now) => p.recordPrefill c hash id promptLen timeMs now
  | (hash, .recordDecode id timeMs now) => p.recordDecode c hash id timeMs now
  | (hash, .traceSpan name category args now duration) =>
    addEvent c p hash (spanEvent name category args now duration)
  | (_, .flush) => { p with traceWriter := p.traceWriter.map (TraceWriter.flush c) }

/-- The profiler after a session. -/
def after (config : ProfilerConfig K) (start : TimePoint)
    (calls : List (Accumulator.Call (Nat × SessionOp D))) : TracedProfiler K D :=
  calls.foldl (Accumulator.step (apply c shown) reset) (new config true start)

end TracedProfiler

/-! ## The viewer -/

section Viewer

variable {D : Type} (c : Chrono D) (start : Int) (ev : TraceEvent D)

end Viewer

/-! ## What a session writes -/

/-- A step that is counted. -/
structure CountedStep where
  hash : Nat
  batch : DecodeBatch
  clock : StepClock
  blockManager : Option BlockManager
  nonempty : batch.entries ≠ []

namespace CountedStep

variable {D : Type} (c : Chrono D) (shown : Rat → Double)

/-- The calls of a step to the writer of the trace. -/
def calls (s : CountedStep) : List (TraceWriter.Call D) :=
  [.addEvent (TracedProfiler.beginEvent c s.batch.totalTokens s.clock.begun) s.hash,
    .addEvent (TracedProfiler.markEvent c (ascii "kv_cache_prepared") s.clock.prepared) s.hash,
    .addEvent (TracedProfiler.markEvent c (ascii "attention_done") s.clock.attended) s.hash,
    .addEvent (TracedProfiler.endEvent c s.clock.ended) s.hash] ++
  match s.blockManager with
  | none => []
  | some bm => [.addEvent (TracedProfiler.usageEvent c shown bm.gpuCacheUsage s.clock.counted) s.hash]

end CountedStep

namespace TracedProfiler

variable {K D : Type} [Field K] [LinearOrder K] [FloorSemiring K] (c : Chrono D) (shown : Rat → Double)

section Seen

variable (start : TimePoint)

end Seen

end TracedProfiler

/-! ## What can be read back -/

/-- What the caller gives can be written as JSON: the strings need no escape, the durations are finite. -/
def SessionOp.Writable {D : Type} (c : Chrono D) : SessionOp D → Prop
  | .mark label _ => Quotable label
  | .recordPrefill _ _ timeMs _ | .recordDecode _ timeMs _ => (c.micros timeMs).isFinite
  | .traceSpan name category args _ duration =>
    Quotable name ∧ Quotable category ∧ (∀ a ∈ args, Quotable a.key ∧ Quotable a.value) ∧
      (c.micros duration).isFinite
  | .step .. | .recordRequestStart .. | .recordFirstToken .. | .recordRequestEnd .. | .flush => True

instance {D : Type} (c : Chrono D) : (op : SessionOp D) → Decidable (op.Writable c)
  | .mark label _ => inferInstanceAs (Decidable (Quotable label))
  | .recordPrefill _ _ timeMs _ | .recordDecode _ timeMs _ =>
    inferInstanceAs (Decidable ((c.micros timeMs).isFinite = true))
  | .traceSpan .. => inferInstanceAs (Decidable (_ ∧ _ ∧ _ ∧ _))
  | .step .. | .recordRequestStart .. | .recordFirstToken .. | .recordRequestEnd .. | .flush =>
    isTrue trivial

namespace TracedProfiler

section Writable

variable {K D : Type} [Field K] [LinearOrder K] [FloorSemiring K] (c : Chrono D) (shown : Rat → Double)

end Writable

/-! ## What the statistics count -/

section Metrics

variable {K D : Type} [Field K] [LinearOrder K] [FloorSemiring K] (c : Chrono D) (shown : Rat → Double)

/-- A counted step as the statistics see it: its batch and its time. -/
def timed (s : CountedStep) : DecodeBatch × K := (s.batch, Profiler.millis K s.clock.tStart s.clock.tEnd)

end Metrics

/-! ## The trace and the statistics -/

section Agreement

variable {K D : Type} [Field K] [LinearOrder K] [FloorSemiring K] (c : Chrono D) (shown : Rat → Double)

end Agreement

end TracedProfiler

end CacheFlow
