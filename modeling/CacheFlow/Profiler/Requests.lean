import CacheFlow.Common
import CacheFlow.Profiler.RunningStats
import Mathlib.Data.List.AList

set_option autoImplicit false

/-! # The life of a request in the profiler

The profiler keeps a record for every request that has started and not ended, and two statistics: the time
to the first token and the time per output token. Its methods trust the caller. `record_first_token` takes a
sample at every call for an active request; it sets `got_first_token` but does not look at it. -/

namespace CacheFlow

structure RequestRecord where
  start : TimePoint
  firstToken : TimePoint := 0
  gotFirstToken : Bool := false
  deriving DecidableEq, Repr

/-- The requests of `Profiler` and the statistics about them. -/
structure Profiler (K : Type) [Field K] where
  activeRequests : AList (fun _ : SeqId => RequestRecord) := ∅
  ttftStats : RunningStats K := {}
  tpotStats : RunningStats K := {}
  totalRequests : Nat := 0

namespace Profiler

variable {K : Type} [Field K] [LinearOrder K]

/-- `Duration(b - a).count()`: milliseconds, for a clock that counts nanoseconds. -/
def millis (K : Type) [Field K] (a b : TimePoint) : K := ((b : Int) - (a : Int) : Int) / ((10 ^ 6 : Nat) : K)

def recordRequestStart (pr : Profiler K) (id : SeqId) (now : TimePoint) : Profiler K :=
  { pr with activeRequests := pr.activeRequests.insert id { start := now } }

def recordFirstToken (pr : Profiler K) (id : SeqId) (now : TimePoint) : Profiler K :=
  match pr.activeRequests.lookup id with
  | none => pr
  | some rec =>
    { pr with
      activeRequests := pr.activeRequests.insert id
        { rec with firstToken := now, gotFirstToken := true },
      ttftStats := pr.ttftStats.update (millis K rec.start now) }

def recordRequestEnd (pr : Profiler K) (id : SeqId) (outputTokens : Nat) (now : TimePoint) :
    Profiler K :=
  match pr.activeRequests.lookup id with
  | none => pr
  | some rec =>
    { pr with
      tpotStats :=
        if rec.gotFirstToken = true ∧ 1 < outputTokens then
          pr.tpotStats.update (millis K rec.firstToken now / ((outputTokens - 1 : Nat) : K))
        else pr.tpotStats,
      totalRequests := pr.totalRequests + 1,
      activeRequests := pr.activeRequests.erase id }

/-! ## What the calls change -/

omit [LinearOrder K] in
theorem lookup_recordRequestStart (pr : Profiler K) (id id' : SeqId) (now : TimePoint) :
    (pr.recordRequestStart id now).activeRequests.lookup id'
      = if id' = id then some { start := now } else pr.activeRequests.lookup id' := by
  unfold recordRequestStart
  by_cases hid : id' = id
  · subst hid
    simp
  · simp [hid, AList.lookup_insert_ne hid]

theorem lookup_recordFirstToken (pr : Profiler K) (id id' : SeqId) (now : TimePoint) :
    (pr.recordFirstToken id now).activeRequests.lookup id'
      = if id' = id then (pr.activeRequests.lookup id).map (fun rec =>
          { rec with firstToken := now, gotFirstToken := true })
        else pr.activeRequests.lookup id' := by
  unfold recordFirstToken
  cases hrec : pr.activeRequests.lookup id with
  | none =>
      by_cases hid : id' = id
      · subst hid
        simp [hrec]
      · simp [hid]
  | some rec =>
      by_cases hid : id' = id
      · subst hid
        simp
      · simp [hid, AList.lookup_insert_ne hid]

/-- A call takes one sample at most. -/
theorem count_recordFirstToken_le (pr : Profiler K) (id : SeqId) (now : TimePoint) :
    (pr.recordFirstToken id now).ttftStats.count ≤ pr.ttftStats.count + 1 := by
  unfold recordFirstToken
  split
  · exact Nat.le_succ _
  · exact Nat.le_refl _

/-- The end of a request drops its record and leaves the others. -/
theorem lookup_recordRequestEnd (pr : Profiler K) (id id' : SeqId) (n : Nat) (now : TimePoint) :
    (pr.recordRequestEnd id n now).activeRequests.lookup id'
      = if id' = id then none else pr.activeRequests.lookup id' := by
  unfold recordRequestEnd
  cases hrec : pr.activeRequests.lookup id with
  | none =>
      by_cases hid : id' = id
      · subst hid
        simp [hrec]
      · simp [hid]
  | some rec =>
      by_cases hid : id' = id
      · subst hid
        simp
      · simp [hid, AList.lookup_erase_ne hid]

@[simp] theorem ttftStats_recordRequestEnd (pr : Profiler K) (id : SeqId) (n : Nat) (now : TimePoint) :
    (pr.recordRequestEnd id n now).ttftStats = pr.ttftStats := by
  unfold recordRequestEnd
  split <;> rfl

/-! ## A series of first tokens -/

/-- `record_first_token` for one request after the other. -/
def recordFirstTokens (pr : Profiler K) (ids : List SeqId) (clock : SeqId → TimePoint) : Profiler K :=
  ids.foldl (fun pr id => pr.recordFirstToken id (clock id)) pr

theorem lookup_recordFirstTokens (pr : Profiler K) (ids : List SeqId) (clock : SeqId → TimePoint)
    (id : SeqId) :
    (pr.recordFirstTokens ids clock).activeRequests.lookup id
      = if id ∈ ids then (pr.activeRequests.lookup id).map (fun rec =>
          { rec with firstToken := clock id, gotFirstToken := true })
        else pr.activeRequests.lookup id := by
  induction ids generalizing pr with
  | nil => simp [recordFirstTokens]
  | cons a ids ih =>
      rw [recordFirstTokens, List.foldl_cons]
      have hrest := ih (pr.recordFirstToken a (clock a))
      rw [recordFirstTokens, lookup_recordFirstToken] at hrest
      rw [hrest]
      by_cases ha : id = a
      · subst ha
        -- a second report of the same request writes the same record
        by_cases hmem : id ∈ ids
        · simp [hmem, Function.comp_def]
        · simp [hmem]
      · by_cases hmem : id ∈ ids
        · simp [hmem, ha]
        · simp [hmem, ha]

theorem count_recordFirstTokens_le (pr : Profiler K) (ids : List SeqId) (clock : SeqId → TimePoint) :
    (pr.recordFirstTokens ids clock).ttftStats.count ≤ pr.ttftStats.count + ids.length := by
  induction ids generalizing pr with
  | nil => exact Nat.le_refl _
  | cons a ids ih =>
      have hfirst := pr.count_recordFirstToken_le a (clock a)
      have hrest := ih (pr.recordFirstToken a (clock a))
      rw [recordFirstTokens, List.foldl_cons, List.length_cons]
      rw [recordFirstTokens] at hrest
      omega

end Profiler

end CacheFlow
