import CacheFlow.Lib.Accumulator
import CacheFlow.Lib.Moments
import Mathlib.Algebra.Order.Field.Basic
import Mathlib.Data.List.Induction
import Mathlib.Algebra.Order.Ring.Rat

set_option autoImplicit false

/-! # Running statistics

`RunningStats` of the profiler: count, mean, squared deviations and range of the values seen since the last
reset, updated one value at a time. The arithmetic is that of an ordered field instead of `double`, and the
counter has no upper limit.

The least and the greatest value start from `1e30` and `-1e30`, so they are right for values in between. -/

namespace CacheFlow

open Accumulator

variable {K : Type*} [Field K] [LinearOrder K]

/-- `1e30`. -/
def statsBound (K : Type*) [Field K] : K := (10 ^ 30 : Nat)

structure RunningStats (K : Type*) [Field K] where
  count : Nat := 0
  mean : K := 0
  m2 : K := 0
  protected min : K := statsBound K
  protected max : K := -statsBound K
  deriving DecidableEq, Repr

namespace RunningStats

def update (s : RunningStats K) (x : K) : RunningStats K :=
  let count := s.count + 1
  let delta := x - s.mean
  let mean := s.mean + delta / (count : Nat)
  let delta2 := x - mean
  { count := count,
    mean := mean,
    m2 := s.m2 + delta * delta2,
    min := min s.min x,
    max := max s.max x }

def variance (s : RunningStats K) : K := if 1 < s.count then s.m2 / (s.count - 1 : Nat) else 0

def reset (s : RunningStats K) : RunningStats K :=
  { s with count := 0, mean := 0, m2 := 0, min := statsBound K, max := -statsBound K }

/-- The state after a sequence of calls. -/
def after (calls : List (Call K)) : RunningStats K :=
  calls.foldl (step update reset) {}

/-- The results by the formulas for the whole list. -/
structure Batch (xs : List K) (s : RunningStats K) : Prop where
  count : s.count = xs.length
  mean : s.mean = xs.sum / xs.length
  m2 : s.m2 = (xs.map (fun x => (x - s.mean) ^ 2)).sum
  variance : s.variance = if 1 < xs.length then s.m2 / (xs.length - 1 : Nat) else 0
  min : IsLeast {x | x ∈ xs} s.min
  max : IsGreatest {x | x ∈ xs} s.max

theorem after_eq (calls : List (Call K)) : after calls = (since calls).foldl update {} :=
  foldl_since update reset (fun _ => True) trivial (fun _ _ _ => trivial) (fun _ _ => rfl) calls

/-- The invariant of the updates. -/
theorem foldl_update [IsStrictOrderedRing K] (xs : List K) :
    xs.foldl update ({} : RunningStats K) =
      { count := xs.length,
        mean := Moments.mean xs,
        m2 := Moments.sqDev xs,
        min := xs.foldl min (statsBound K),
        max := xs.foldl max (-statsBound K) } := by
  induction xs using List.reverseRecOn with
  | nil => simp [Moments.mean, Moments.sqDev]
  | append_singleton xs x ih =>
      rw [List.foldl_append, ih]
      simp [update, Moments.mean_concat, Moments.sqDev_concat]

theorem Batch.eq_of_perm {xs ys : List K} {s t : RunningStats K} (hs : Batch xs s) (ht : Batch ys t)
    (h : xs.Perm ys) : s = t := by
  have hset : {x | x ∈ xs} = {x | x ∈ ys} := Set.ext (fun _ => h.mem_iff)
  have hcount : s.count = t.count := by rw [hs.count, ht.count, h.length_eq]
  have hmean : s.mean = t.mean := by rw [hs.mean, ht.mean, h.sum_eq, h.length_eq]
  have hm2 : s.m2 = t.m2 := by
    rw [hs.m2, ht.m2, hmean]
    exact (h.map _).sum_eq
  have hmin : s.min = t.min := hs.min.unique (hset ▸ ht.min)
  have hmax : s.max = t.max := hs.max.unique (hset ▸ ht.max)
  cases s
  cases t
  simp_all

theorem batch_foldl_update [IsStrictOrderedRing K] {xs : List K} (hne : xs ≠ [])
    (h : ∀ x ∈ xs, -10 ^ 30 ≤ x ∧ x ≤ 10 ^ 30) : Batch xs (xs.foldl update {}) := by
  have hbound : statsBound K = 10 ^ 30 := by
    rw [statsBound, Nat.cast_pow, Nat.cast_ofNat]
  rw [← hbound] at h
  rw [foldl_update]
  exact ⟨rfl, rfl, rfl, rfl, Moments.foldl_min_isLeast xs hne (fun x hx => (h x hx).2),
    Moments.foldl_max_isGreatest xs hne (fun x hx => (h x hx).1)⟩

/-- **The running statistics are those of the list.** After any calls, for the values fed since the last
    reset, if there are some and they lie between `-1e30` and `1e30`; values in another order lead to the same
    state. -/
theorem after_batch [IsStrictOrderedRing K] (calls : List (Call K)) (hne : since calls ≠ [])
    (h : ∀ x ∈ since calls, -10 ^ 30 ≤ x ∧ x ≤ 10 ^ 30) :
    Batch (since calls) (after calls) ∧
      ∀ calls' : List (Call K), (since calls').Perm (since calls) → after calls' = after calls := by
  have hbatch : Batch (since calls) (after calls) := by
    rw [after_eq]
    exact batch_foldl_update hne h
  refine ⟨hbatch, ?_⟩
  intro calls' hperm
  have hbatch' : Batch (since calls') (after calls') := by
    rw [after_eq]
    refine batch_foldl_update ?_ (fun x hx => h x (hperm.subset hx))
    intro hnil
    rw [hnil] at hperm
    exact hne (hperm.symm.eq_nil)
  exact hbatch'.eq_of_perm hbatch hperm

/-- Three values after a reset. -/
theorem three_batch : Batch [10, 20, 30]
    (after [.feed (5 : Rat), .reset, .feed 10, .feed 20, .feed 30]) :=
  (after_batch [.feed (5 : Rat), .reset, .feed 10, .feed 20, .feed 30] (by decide) (by decide)).1

end RunningStats

end CacheFlow
