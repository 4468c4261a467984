import CacheFlow.Profiler.Histogram

set_option autoImplicit false

/-! # How accurate the percentiles are

The scan of `percentile` looks for the value of rank `p * total / 100`, rounded down. For a rank of at least 1
it finds the bin of that value (`floor_ranked`); rank 0 is reached in the first bin, empty or not.

The nearest rank is rounded up. It is the next one unless `p * total / 100` is a whole number, and the value of
that rank can lie anywhere above. `accurate_iff` says when the result is within one bin width. -/

namespace CacheFlow.Histogram

open Accumulator Ranks

variable {K : Type*} [Field K] [LinearOrder K]

variable {lo hi p : K} {n : Nat} {xs : List K}

theorem ceil_of_floor [FloorSemiring K] {a : K} {t : Nat} (hfloor : ⌊a⌋₊ = t) (ha : 0 ≤ a) (hne : a ≠ t) :
    ⌈a⌉₊ = t + 1 := by
  obtain ⟨hle, hlt⟩ := (Nat.floor_eq_iff ha).1 hfloor
  rw [Nat.ceil_eq_iff (by omega), Nat.add_sub_cancel]
  refine ⟨lt_of_le_of_ne hle (Ne.symm hne), ?_⟩
  push_cast
  exact hlt.le

/-- A bin is not empty if it has a value. -/
theorem bin_pos_iff {i : Nat} :
    (∃ c, (counted lo hi n xs).bins[i]? = some c ∧ 0 < c) ↔ i < n ∧
      ∃ x ∈ xs, lo + i * ((hi - lo) / n) ≤ x ∧ x < lo + (i + 1) * ((hi - lo) / n) := by
  by_cases hi' : i < n
  · simp [counted, hi', binCount, List.countP_pos_iff]
  · simp [counted, hi']

theorem total_eq_length (hxs : ∀ x ∈ xs, lo ≤ x ∧ x < hi) : (counted lo hi n xs).total = xs.length := by
  rw [counted, List.countP_eq_length]
  intro x hx
  simpa using hxs x hx

variable [IsStrictOrderedRing K] (hlt : lo < hi) (hn : 1 ≤ n) (hxs : ∀ x ∈ xs, lo ≤ x ∧ x < hi)

include hlt hn hxs

theorem sum_take_eq {k : Nat} (hk : k ≤ n) :
    ((counted lo hi n xs).bins.take k).sum = xs.countP (fun x => x < lo + k * ((hi - lo) / n)) := by
  rw [sum_take_bins hlt hn xs hk]
  refine List.countP_congr (fun x hx => ?_)
  simp [(hxs x hx).1]

variable [FloorSemiring K]

/-- **The bin found is the one of the value of the rank.** -/
theorem floor_ranked {t i : Nat} (hpos : 1 ≤ t) (hle : t ≤ xs.length)
    (hfirst : first t (counted lo hi n xs).bins = some i) :
    ⌊(ranked xs t - lo) / ((hi - lo) / n)⌋₊ = i := by
  obtain ⟨hlen, hreach, hbefore⟩ := first_spec hfirst
  have hi' : i < n := by simpa [counted] using hlen
  have hlow := (hxs _ (ranked_mem hpos hle)).1
  rw [floor_eq_iff (width_pos hlt hn) hlow]
  constructor
  · cases i with
    | zero => simpa using hlow
    | succ j =>
        have hj := hbefore j (Nat.lt_succ_self j)
        rw [sum_take_eq hlt hn hxs (by omega)] at hj
        rw [← not_lt, ranked_lt_iff hpos hle]
        exact not_le.2 hj
  · rw [sum_take_eq hlt hn hxs (by omega)] at hreach
    have hranked := (ranked_lt_iff hpos hle _).2 hreach
    push_cast at hranked
    exact hranked

variable (hne : xs ≠ []) (hp0 : 0 < p) (hp : p ≤ 100)

include hne hp

theorem percentile_eq_midpoint :
    ∃ i < n, first ⌊p * xs.length / 100⌋₊ (counted lo hi n xs).bins = some i ∧
      (counted lo hi n xs).percentile p = (counted lo hi n xs).midpoint i := by
  have htotal := total_eq_length (n := n) hxs
  have hpos : (counted lo hi n xs).total ≠ 0 := by
    rw [htotal]
    exact fun hzero => hne (List.length_eq_zero_iff.1 hzero)
  obtain ⟨i, hi', hfirst, heq⟩ := percentile_eq hlt hn xs hpos hp
  rw [htotal] at hfirst
  exact ⟨i, hi', hfirst, heq⟩

include hp0

/-- Rank 0: the first bin is taken, whatever it holds. -/
theorem accurate_iff_of_rank_zero (hrank : ⌊p * xs.length / 100⌋₊ = 0) :
    Accurate xs p (counted lo hi n xs) ↔ ranked xs 1 < lo + (hi - lo) / n := by
  have hw := width_pos hlt hn
  have hlen : 1 ≤ xs.length := List.length_pos_iff.2 hne
  have hpos : 0 < p * xs.length / 100 := by
    have hlen' : (0 : K) < xs.length := by exact_mod_cast hlen
    positivity
  have hceil : ⌈p * xs.length / 100⌉₊ = 1 := ceil_of_floor hrank hpos.le (by simpa using hpos.ne')
  obtain ⟨i, hi', hfirst, heq⟩ := percentile_eq_midpoint hlt hn hxs hne hp
  have hzero : i = 0 := by
    obtain ⟨-, -, hbefore⟩ := first_spec hfirst
    by_contra hpos'
    have hearly := hbefore 0 (by omega)
    omega
  subst hzero
  have hmid : (counted lo hi n xs).midpoint 0 = lo + 1 / 2 * ((hi - lo) / n) := by
    simp [midpoint, counted]
  constructor
  · -- the middles differ, so the bin with a value in it is the first one
    rintro ⟨-, j, hbin, hmid'⟩
    obtain ⟨-, x, hx, -, hend⟩ := bin_pos_iff.1 hbin
    have hj : j = 0 := midpoint_injective hlt hn xs (hmid'.symm.trans heq)
    subst hj
    rw [ranked_lt_iff (le_refl 1) hlen, Nat.one_le_iff_ne_zero, ← Nat.pos_iff_ne_zero, List.countP_pos_iff]
    exact ⟨x, hx, by simpa using hend⟩
  · intro hfirst'
    have hmem := ranked_mem (le_refl 1) hlen
    have hlow := (hxs _ hmem).1
    refine ⟨?_, 0, ?_, heq⟩
    · rw [hceil, heq, hmid, abs_le]
      show -((hi - lo) / n) ≤ _ ∧ _ ≤ (hi - lo) / n
      constructor <;> linarith
    · exact bin_pos_iff.2 ⟨hi', _, hmem, by simpa using hlow, by simpa using hfirst'⟩

/-- A positive rank: the middle of the bin of its value is compared with the value of this rank, if it is
    whole, else with the next one. -/
theorem accurate_iff_of_rank_pos {t : Nat} (hpos : 1 ≤ t) (hrank : ⌊p * xs.length / 100⌋₊ = t) :
    Accurate xs p (counted lo hi n xs) ↔ p * xs.length / 100 = t ∨
      ranked xs (t + 1) ≤ lo + (⌊(ranked xs t - lo) / ((hi - lo) / n)⌋₊ + 3 / 2) * ((hi - lo) / n) := by
  have hw := width_pos hlt hn
  have hnonneg : 0 ≤ p * xs.length / 100 := by positivity
  have hle : p * xs.length / 100 ≤ xs.length := by
    have hmul : p * xs.length ≤ 100 * xs.length := mul_le_mul_of_nonneg_right hp (Nat.cast_nonneg _)
    linarith
  have hle' : t ≤ xs.length := by
    rw [← hrank]
    exact Nat.floor_le_of_le hle
  obtain ⟨i, hi', hfirst, heq⟩ := percentile_eq_midpoint hlt hn hxs hne hp
  rw [hrank] at hfirst
  have hfloor := floor_ranked hlt hn hxs hpos hle' hfirst
  have hmem := ranked_mem hpos hle'
  obtain ⟨hlow, hhigh⟩ := (floor_eq_iff hw (hxs _ hmem).1).1 hfloor
  have hmid : (counted lo hi n xs).midpoint i = lo + (i + 1 / 2) * ((hi - lo) / n) := rfl
  have hwidth : (counted lo hi n xs).binWidth = (hi - lo) / n := rfl
  have hbin := bin_pos_iff.2 ⟨hi', _, hmem, hlow, hhigh⟩
  rw [hfloor]
  constructor
  · rintro ⟨hnear, -⟩
    by_cases hwhole : p * xs.length / 100 = t
    · exact Or.inl hwhole
    · refine Or.inr ?_
      rw [ceil_of_floor hrank hnonneg hwhole, heq, hmid, hwidth, abs_le] at hnear
      linarith [hnear.1]
  · intro hsafe
    refine ⟨?_, i, hbin, heq⟩
    rw [heq, hmid, hwidth, abs_le]
    by_cases hwhole : p * xs.length / 100 = t
    · -- both roundings agree, and the value lies in the bin
      rw [hwhole, Nat.ceil_natCast]
      constructor <;> linarith
    · -- the next value is not below the one found, so only its distance from above counts
      have hnext := hsafe.resolve_left hwhole
      have hlt' : t < xs.length := by
        have hstrict : (t : K) < xs.length :=
          lt_of_lt_of_le (lt_of_le_of_ne ((Nat.floor_eq_iff hnonneg).1 hrank).1 (Ne.symm hwhole)) hle
        exact_mod_cast hstrict
      have hmono : ranked xs t ≤ ranked xs (t + 1) := ranked_mono hpos (Nat.le_succ t) hlt'
      rw [ceil_of_floor hrank hnonneg hwhole]
      constructor <;> linarith

omit hlt hn hxs hne hp hp0

/-- **When a percentile is accurate.** After any calls, if values have been recorded since the last reset and
    all of them lie in the range: exactly if `RankSafe` holds of them. -/
theorem percentile_accurate_iff (lo hi : K) (hlt : lo < hi) (n : Nat) (hn : 1 ≤ n) (calls : List (Call K))
    (hne : since calls ≠ []) (hxs : ∀ x ∈ since calls, lo ≤ x ∧ x < hi) (p : K) (hp0 : 0 < p)
    (hp : p ≤ 100) :
    Accurate (since calls) p (after lo hi n calls) ↔ RankSafe lo ((hi - lo) / n) (since calls) p := by
  rw [after_eq hlt hn, RankSafe]
  by_cases hrank : ⌊p * (since calls).length / 100⌋₊ = 0
  · rw [if_pos hrank]
    exact accurate_iff_of_rank_zero hlt hn hxs hne hp0 hp hrank
  · rw [if_neg hrank]
    exact accurate_iff_of_rank_pos hlt hn hxs hne hp0 hp (Nat.one_le_iff_ne_zero.2 hrank) rfl

/-- The median of four values. -/
theorem four_accurate : Accurate [3, 1, 2, 9] (50 : Rat)
    (after 0 10 10 [.feed 3, .feed 1, .feed 2, .feed 9]) :=
  (percentile_accurate_iff (0 : Rat) 10 (by decide) 10 (by decide) [.feed 3, .feed 1, .feed 2, .feed 9]
    (by decide) (by decide) 50 (by decide) (by decide)).2 (by decide +kernel)

/-- A single value of 250 ms, in the histogram of the profiler: the median is reported as 0.5 ms. -/
theorem single_not_accurate : ¬ Accurate [250] (50 : Rat) (after 0 500 500 [.feed 250]) := by
  intro h
  exact absurd h.near (by decide +kernel)

end CacheFlow.Histogram
