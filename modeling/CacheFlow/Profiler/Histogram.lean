import CacheFlow.Lib.Accumulator
import CacheFlow.Lib.Ranks
import Mathlib.Algebra.Order.Field.Basic
import Mathlib.Algebra.Order.Floor.Semiring
import Mathlib.Data.List.Induction
import Mathlib.Data.Rat.Floor
import Mathlib.Tactic.Linarith

set_option autoImplicit false

/-! # The latency histogram

`Histogram` of the profiler, over an ordered field with a floor instead of `double`; the counters have no
upper limit. `foldl_record` gives the state after any values in closed form: every bin counts the values of a
half-open interval.

`percentile` scans for the bin at which the cumulative counts reach `p` percent of the total, rounded down. The
bin it finds is the one of the value of that rank; the nearest rank would be rounded up. -/

namespace CacheFlow

open Accumulator Ranks

structure Histogram (K : Type*) where
  minVal : K
  maxVal : K
  binWidth : K
  bins : List Nat
  underflow : Nat := 0
  overflow : Nat := 0
  total : Nat := 0
  deriving DecidableEq, Repr

variable {K : Type*} [Field K] [LinearOrder K]

namespace Histogram

def new (minVal maxVal : K) (numBins : Nat) : Histogram K :=
  { minVal := minVal,
    maxVal := maxVal,
    binWidth := (maxVal - minVal) / numBins,
    bins := List.replicate numBins 0 }

def record [FloorSemiring K] (h : Histogram K) (val : K) : Histogram K :=
  if val < h.minVal then { h with underflow := h.underflow + 1 }
  else if h.maxVal ≤ val then { h with overflow := h.overflow + 1 }
  else
    let idx := ⌊(val - h.minVal) / h.binWidth⌋₊
    let idx := if h.bins.length ≤ idx then h.bins.length - 1 else idx
    { h with bins := h.bins.modify idx (· + 1), total := h.total + 1 }

/-- The middle of a bin. -/
def midpoint (h : Histogram K) (i : Nat) : K := h.minVal + (i + 1 / 2) * h.binWidth

def percentile [FloorSemiring K] (h : Histogram K) (p : K) : K :=
  if h.total = 0 then 0
  else
    let target := ⌊p * h.total / 100⌋₊
    match first target h.bins with
    | some i => h.midpoint i
    | none => h.maxVal

def reset (h : Histogram K) : Histogram K :=
  { h with bins := List.replicate h.bins.length 0, underflow := 0, overflow := 0, total := 0 }

/-- The state after a sequence of calls. -/
def after [FloorSemiring K] (lo hi : K) (n : Nat) (calls : List (Call K)) : Histogram K :=
  calls.foldl (step record reset) (new lo hi n)

/-! ## What the results should be -/

/-- What a histogram reports about the values `xs`. -/
structure Exact (lo hi : K) (n : Nat) (xs : List K) [FloorSemiring K] (h : Histogram K) : Prop where
  binWidth : h.binWidth = (hi - lo) / n
  length : h.bins.length = n
  bins : ∀ i < n, h.bins[i]? =
    some (xs.countP (fun x => lo + i * h.binWidth ≤ x ∧ x < lo + (i + 1) * h.binWidth))
  total : h.total = h.bins.sum
  calls : h.underflow + h.overflow + h.total = xs.length
  mono : ∀ p q : K, 0 ≤ p → p ≤ q → q ≤ 100 → h.percentile p ≤ h.percentile q
  range : 0 < h.total → ∀ p : K, 0 ≤ p → p ≤ 100 → h.percentile p ∈ Set.Icc lo hi

/-- The result is the middle of a bin with a value in it, and within one bin width of the value of the nearest
    rank. -/
structure Accurate [FloorSemiring K] (xs : List K) (p : K) (h : Histogram K) : Prop where
  near : |h.percentile p - ranked xs ⌈p * xs.length / 100⌉₊| ≤ h.binWidth
  midpoint : ∃ i, (∃ c, h.bins[i]? = some c ∧ 0 < c) ∧ h.percentile p = h.midpoint i

/-- That the rank is rounded down does no harm: it is rounded to 0 and the smallest value is in the first bin,
    or it is whole, or the next value lies at most one width above the middle of the bin of the value found. -/
def RankSafe [FloorSemiring K] (lo w : K) (xs : List K) (p : K) : Prop :=
  let rank := ⌊p * xs.length / 100⌋₊
  if rank = 0 then ranked xs 1 < lo + w
  else p * xs.length / 100 = rank ∨
    ranked xs (rank + 1) ≤ lo + (⌊(ranked xs rank - lo) / w⌋₊ + 3 / 2) * w

instance [FloorSemiring K] (lo w : K) (xs : List K) (p : K) : Decidable (RankSafe lo w xs p) :=
  inferInstanceAs (Decidable (ite _ _ _))

/-! ## Counts -/

/-- The values in bin `i`. -/
def binCount (lo w : K) (xs : List K) (i : Nat) : Nat :=
  xs.countP (fun x => lo + i * w ≤ x ∧ x < lo + (i + 1) * w)

/-- The state that counts the values `xs`. -/
def counted (lo hi : K) (n : Nat) (xs : List K) : Histogram K :=
  { minVal := lo,
    maxVal := hi,
    binWidth := (hi - lo) / n,
    bins := (List.range n).map (binCount lo ((hi - lo) / n) xs),
    underflow := xs.countP (fun x => x < lo),
    overflow := xs.countP (fun x => hi ≤ x),
    total := xs.countP (fun x => lo ≤ x ∧ x < hi) }

section Counts

variable {lo hi w x : K} {n i : Nat}

theorem binCount_concat (xs : List K) :
    binCount lo w (xs ++ [x]) i
      = binCount lo w xs i + if lo + i * w ≤ x ∧ x < lo + (i + 1) * w then 1 else 0 := by
  simp [binCount, List.countP_append, List.countP_singleton]

theorem modify_map_range (f : Nat → Nat) {idx : Nat} :
    ((List.range n).map f).modify idx (· + 1)
      = (List.range n).map (fun i => f i + if idx = i then 1 else 0) := by
  refine List.ext_getElem (by simp) ?_
  intro i hi hi'
  simp only [List.getElem_modify, List.getElem_map, List.getElem_range]
  split <;> rfl

/-- Every value is below, above or in the range. -/
theorem total_add (hlt : lo < hi) (xs : List K) :
    (counted lo hi n xs).underflow + (counted lo hi n xs).overflow + (counted lo hi n xs).total
      = xs.length := by
  simp only [counted]
  induction xs with
  | nil => rfl
  | cons x xs ih =>
      simp only [List.countP_cons, List.length_cons, ← ih, decide_eq_true_eq]
      rcases lt_or_ge x lo with hx | hx
      · simp [hx, not_le.2 hx, not_le.2 (hx.trans hlt)]
        omega
      · rcases lt_or_ge x hi with hx' | hx'
        · simp [hx, hx', not_lt.2 hx, not_le.2 hx']
          omega
        · simp [hx', not_lt.2 hx, not_lt.2 hx']
          omega

variable [IsStrictOrderedRing K]

theorem width_pos (hlt : lo < hi) (hn : 1 ≤ n) : 0 < (hi - lo) / n :=
  div_pos (sub_pos.2 hlt) (by exact_mod_cast hn)

theorem lo_add_width (lo hi : K) (hn : 1 ≤ n) : lo + n * ((hi - lo) / n) = hi := by
  have hpos : (0 : K) < n := by exact_mod_cast hn
  rw [mul_div_cancel₀ _ hpos.ne', add_sub_cancel]

/-- A bin lies within the range of the histogram. -/
theorem bin_subset (hlt : lo < hi) (hi' : i < n) :
    lo ≤ lo + i * ((hi - lo) / n) ∧ lo + (i + 1) * ((hi - lo) / n) ≤ hi := by
  have hn : 1 ≤ n := Nat.one_le_of_lt hi'
  have hw := width_pos hlt hn
  have hle : ((i : K) + 1) * ((hi - lo) / n) ≤ n * ((hi - lo) / n) :=
    mul_le_mul_of_nonneg_right (by exact_mod_cast hi') hw.le
  have hend := lo_add_width lo hi hn
  constructor
  · exact le_add_of_nonneg_right (by positivity)
  · linarith

theorem map_binCount_outside (hlt : lo < hi) (xs : List K) (hx : x < lo ∨ hi ≤ x) :
    (List.range n).map (binCount lo ((hi - lo) / n) (xs ++ [x]))
      = (List.range n).map (binCount lo ((hi - lo) / n) xs) := by
  refine List.map_congr_left (fun i hmem => ?_)
  obtain ⟨hlow, hhigh⟩ := bin_subset hlt (List.mem_range.1 hmem)
  have hout : ¬ (lo + i * ((hi - lo) / n) ≤ x ∧ x < lo + (i + 1) * ((hi - lo) / n)) := by
    rintro ⟨hle, hlt'⟩
    rcases hx with hx | hx
    · exact absurd (hlow.trans hle) (not_le.2 hx)
    · exact absurd (hlt'.trans_le hhigh) (not_lt.2 hx)
  rw [binCount_concat, if_neg hout, Nat.add_zero]

variable [FloorSemiring K]

/-- The index that `record` computes, as an interval. -/
theorem floor_eq_iff (hw : 0 < w) (hx : lo ≤ x) :
    ⌊(x - lo) / w⌋₊ = i ↔ lo + i * w ≤ x ∧ x < lo + (i + 1) * w := by
  rw [Nat.floor_eq_iff (div_nonneg (sub_nonneg.2 hx) hw.le), le_div_iff₀ hw, div_lt_iff₀ hw,
    le_sub_iff_add_le', sub_lt_iff_lt_add']

/-- The clamp of `record` is never needed. -/
theorem floor_lt (hlt : lo < hi) (hn : 1 ≤ n) (hx : x < hi) : ⌊(x - lo) / ((hi - lo) / n)⌋₊ < n := by
  refine Nat.floor_lt' (Nat.one_le_iff_ne_zero.1 hn) |>.2 ?_
  rw [div_lt_iff₀ (width_pos hlt hn), sub_lt_iff_lt_add', lo_add_width lo hi hn]
  exact hx

/-- One value more. -/
theorem record_counted (hlt : lo < hi) (hn : 1 ≤ n) (xs : List K) (x : K) :
    (counted lo hi n xs).record x = counted lo hi n (xs ++ [x]) := by
  by_cases hlow : x < lo
  · have hbins := map_binCount_outside (n := n) hlt xs (Or.inl hlow)
    simp [record, counted, hbins, hlow, not_le.2 hlow, not_le.2 (hlow.trans hlt)]
  · have hge := not_lt.1 hlow
    by_cases hhigh : hi ≤ x
    · have hbins := map_binCount_outside (n := n) hlt xs (Or.inr hhigh)
      simp [record, counted, hbins, hlow, hhigh, not_lt.2 hhigh]
    · -- one bin has the value: the bin of the computed index
      have hidx := floor_lt (n := n) hlt hn (not_le.1 hhigh)
      have hbins : ((List.range n).map (binCount lo ((hi - lo) / n) xs)).modify
          ⌊(x - lo) / ((hi - lo) / n)⌋₊ (· + 1)
            = (List.range n).map (binCount lo ((hi - lo) / n) (xs ++ [x])) := by
        rw [modify_map_range]
        refine List.map_congr_left (fun i _ => ?_)
        simp only [binCount_concat, floor_eq_iff (width_pos hlt hn) hge]
      simp [record, counted, hlow, hhigh, hge, not_le.1 hhigh, not_le.2 hidx, hbins]

theorem foldl_record (hlt : lo < hi) (hn : 1 ≤ n) (xs : List K) :
    xs.foldl record (new lo hi n) = counted lo hi n xs := by
  induction xs using List.reverseRecOn with
  | nil =>
      have hbins : (List.range n).map (binCount lo ((hi - lo) / n) []) = List.replicate n 0 := by
        simp [List.eq_replicate_iff, binCount]
      simp [new, counted, hbins]
  | append_singleton xs x ih =>
      rw [List.foldl_append, ih, List.foldl_cons, List.foldl_nil]
      exact record_counted hlt hn xs x

theorem after_eq (hlt : lo < hi) (hn : 1 ≤ n) (calls : List (Call K)) :
    after lo hi n calls = counted lo hi n (since calls) := by
  rw [← foldl_record hlt hn]
  -- `reset` keeps the range and the number of bins, and no value changes them
  refine foldl_since record reset (fun h => h.minVal = lo ∧ h.maxVal = hi ∧
    h.binWidth = (hi - lo) / n ∧ h.bins.length = n) ?_ ?_ ?_ calls
  · exact ⟨rfl, rfl, rfl, List.length_replicate⟩
  · intro h x hparams
    unfold record
    split
    · exact hparams
    · split
      · exact hparams
      · simpa using hparams
  · rintro h ⟨hlo, hhi, hwidth, hlen⟩
    rw [reset, hlen, new, hlo, hhi, hwidth]

end Counts

/-! ## Percentiles -/

section Percentiles

variable {lo hi w p : K} {n : Nat} [IsStrictOrderedRing K]

/-- The first `k` bins count the values below the end of the last one. -/
theorem sum_map_binCount (hw : 0 < w) (xs : List K) (k : Nat) :
    ((List.range k).map (binCount lo w xs)).sum = xs.countP (fun x => lo ≤ x ∧ x < lo + k * w) := by
  induction k with
  | zero =>
      rw [List.range_zero, List.map_nil, List.sum_nil, eq_comm, List.countP_eq_zero]
      intro x _
      simp
  | succ k ih =>
      rw [List.range_succ, List.map_append, List.sum_append, ih, List.map_singleton, List.sum_singleton,
        binCount, countP_Ico_add xs (le_add_of_nonneg_right (by positivity))]
      · push_cast
        rfl
      · have hle : (k : K) * w ≤ (k + 1) * w := by linarith
        exact add_le_add_right hle lo

theorem sum_take_bins (hlt : lo < hi) (hn : 1 ≤ n) (xs : List K) {k : Nat} (hk : k ≤ n) :
    ((counted lo hi n xs).bins.take k).sum
      = xs.countP (fun x => lo ≤ x ∧ x < lo + k * ((hi - lo) / n)) := by
  rw [counted, ← List.map_take, List.take_range, Nat.min_eq_left hk,
    sum_map_binCount (width_pos hlt hn)]

theorem total_eq_sum (hlt : lo < hi) (hn : 1 ≤ n) (xs : List K) :
    (counted lo hi n xs).total = (counted lo hi n xs).bins.sum := by
  have hsum := sum_take_bins hlt hn xs (Nat.le_refl n)
  rw [lo_add_width lo hi hn, List.take_of_length_le (by simp [counted])] at hsum
  exact hsum.symm

variable [FloorSemiring K]

/-- The bin that the scan finds. -/
theorem percentile_eq (hlt : lo < hi) (hn : 1 ≤ n) (xs : List K)
    (htotal : (counted lo hi n xs).total ≠ 0) (hp : p ≤ 100) :
    ∃ i < n, first ⌊p * (counted lo hi n xs).total / 100⌋₊ (counted lo hi n xs).bins = some i ∧
      (counted lo hi n xs).percentile p = (counted lo hi n xs).midpoint i := by
  have hlen : (counted lo hi n xs).bins.length = n := by simp [counted]
  have htarget : ⌊p * (counted lo hi n xs).total / 100⌋₊ ≤ (counted lo hi n xs).bins.sum := by
    rw [← total_eq_sum hlt hn]
    refine Nat.floor_le_of_le ?_
    have hle : p * (counted lo hi n xs).total ≤ 100 * (counted lo hi n xs).total :=
      mul_le_mul_of_nonneg_right hp (Nat.cast_nonneg _)
    linarith
  have hne : (counted lo hi n xs).bins ≠ [] := by
    intro hnil
    rw [hnil, List.length_nil] at hlen
    omega
  obtain ⟨i, hfirst⟩ := exists_first hne htarget
  refine ⟨i, hlen ▸ (first_spec hfirst).1, hfirst, ?_⟩
  simp only [percentile, if_neg htotal, hfirst]

theorem midpoint_mono (hlt : lo < hi) (hn : 1 ≤ n) (xs : List K) {i j : Nat} (hij : i ≤ j) :
    (counted lo hi n xs).midpoint i ≤ (counted lo hi n xs).midpoint j := by
  have hw := width_pos hlt hn
  have hcast : ((i : K) + 1 / 2) ≤ j + 1 / 2 := by
    have hle : (i : K) ≤ j := by exact_mod_cast hij
    linarith
  exact add_le_add_right (mul_le_mul_of_nonneg_right hcast hw.le) lo

theorem midpoint_injective (hlt : lo < hi) (hn : 1 ≤ n) (xs : List K) :
    Function.Injective (counted lo hi n xs).midpoint := by
  intro i j hij
  have hw := width_pos hlt hn
  have hcast := mul_right_cancel₀ hw.ne' (add_left_cancel hij)
  exact_mod_cast add_right_cancel hcast

theorem percentile_mono (hlt : lo < hi) (hn : 1 ≤ n) (xs : List K) {q : K} (hpq : p ≤ q) (hq : q ≤ 100) :
    (counted lo hi n xs).percentile p ≤ (counted lo hi n xs).percentile q := by
  by_cases htotal : (counted lo hi n xs).total = 0
  · simp [percentile, htotal]
  · obtain ⟨i, -, hfirst, heq⟩ := percentile_eq hlt hn xs htotal (hpq.trans hq)
    obtain ⟨j, -, hfirst', heq'⟩ := percentile_eq hlt hn xs htotal hq
    rw [heq, heq']
    refine midpoint_mono hlt hn xs (first_mono (Nat.floor_mono ?_) hfirst hfirst')
    have hle : p * (counted lo hi n xs).total ≤ q * (counted lo hi n xs).total :=
      mul_le_mul_of_nonneg_right hpq (Nat.cast_nonneg _)
    linarith

theorem percentile_mem (hlt : lo < hi) (hn : 1 ≤ n) (xs : List K)
    (htotal : (counted lo hi n xs).total ≠ 0) (hp : p ≤ 100) :
    (counted lo hi n xs).percentile p ∈ Set.Icc lo hi := by
  obtain ⟨i, hlen, -, heq⟩ := percentile_eq hlt hn xs htotal hp
  obtain ⟨hlow, hhigh⟩ := bin_subset hlt hlen
  have hw := width_pos hlt hn
  have hmid : (counted lo hi n xs).midpoint i = lo + (i + 1 / 2) * ((hi - lo) / n) := rfl
  rw [heq, hmid]
  constructor <;> linarith

end Percentiles

/-- **Counts are exact and percentiles monotone**, after any calls, for the values recorded since the last
    reset. -/
theorem after_exact [IsStrictOrderedRing K] [FloorSemiring K] (lo hi : K) (hlt : lo < hi) (n : Nat)
    (hn : 1 ≤ n) (calls : List (Call K)) : Exact lo hi n (since calls) (after lo hi n calls) := by
  rw [after_eq hlt hn]
  refine ⟨rfl, by simp [counted], ?_, total_eq_sum hlt hn _, total_add hlt _, ?_, ?_⟩
  · intro i hi
    simp [counted, hi, binCount]
  · intro p q _ hpq hq
    exact percentile_mono hlt hn _ hpq hq
  · intro htotal p _ hp
    exact percentile_mem hlt hn _ htotal.ne' hp

/-- Five values, one of them below and one above the range. -/
theorem five_exact : Exact (0 : Rat) 10 5 [2, 3, 10, -1, 9]
    (after 0 10 5 [.feed 7, .reset, .feed 2, .feed 3, .feed 10, .feed (-1), .feed 9]) :=
  after_exact (0 : Rat) 10 (by decide) 5 (by decide)
    [.feed 7, .reset, .feed 2, .feed 3, .feed 10, .feed (-1), .feed 9]

end Histogram

end CacheFlow
