import Mathlib.Data.Int.ConditionallyCompleteOrder
import Mathlib.Data.Int.Interval
import Mathlib.Data.Int.SuccPred
import Mathlib.Order.Bounds.Basic

set_option autoImplicit false

/-! # Runs

A run is a stretch of consecutive numbers with a property. `longestRun` finds the length of the longest one
in a single pass that counts the current run and starts anew where the property fails
(`longestRun_isGreatest`). For a finite set of integers a run is an interval inside it: it is no longer than
the set is large, and as long exactly if the set is an interval (`eq_card_iff`). -/

namespace Runs

variable (p : Nat → Bool)

/-- One number: the longest run so far and the run that ends here. -/
def runStep (r : Nat × Nat) (i : Nat) : Nat × Nat :=
  if p i = true then (max r.1 (r.2 + 1), r.2 + 1) else (r.1, 0)

/-- The pass over the numbers below `n`. -/
def scan (n : Nat) : Nat × Nat := (List.range n).foldl (runStep p) (0, 0)

def longestRun (n : Nat) : Nat := (scan p n).1

/-- `len` numbers from `start` on, all below `n`, have the property. -/
def IsRun (n start len : Nat) : Prop := start + len ≤ n ∧ ∀ i < len, p (start + i) = true

theorem scan_succ (n : Nat) : scan p (n + 1) = runStep p (scan p n) n := by
  rw [scan, List.range_succ, List.foldl_append]
  rfl

variable {p}

/-- What the pass knows at `n`. -/
structure Scanned (p : Nat → Bool) (n : Nat) (r : Nat × Nat) : Prop where
  current : ∃ start, start + r.2 = n ∧ IsRun p n start r.2
  ending : ∀ start len, start + len = n → IsRun p n start len → len ≤ r.2
  longest : ∃ start, IsRun p n start r.1
  greatest : ∀ start len, IsRun p n start len → len ≤ r.1

theorem IsRun.mono {n n' start len : Nat} (h : IsRun p n start len) (hn : n ≤ n') :
    IsRun p n' start len := ⟨h.1.trans hn, h.2⟩

/-- A run that ends before `n + 1` ends before `n`, or at `n`. -/
theorem IsRun.cases {n start len : Nat} (h : IsRun p (n + 1) start len) :
    IsRun p n start len ∨ (start + len = n + 1 ∧ len = 0) ∨
      ∃ len', len = len' + 1 ∧ start + len' = n ∧ p n = true ∧ IsRun p n start len' := by
  rcases Nat.lt_or_eq_of_le h.1 with hlt | heq
  · exact Or.inl ⟨by omega, h.2⟩
  · cases len with
    | zero => exact Or.inr (Or.inl ⟨heq, rfl⟩)
    | succ len =>
        have hend : start + len = n := by omega
        refine Or.inr (Or.inr ⟨len, rfl, hend, ?_, by omega, fun i hi => h.2 i (by omega)⟩)
        have hlast := h.2 len (by omega)
        rwa [hend] at hlast

theorem IsRun.empty {n start : Nat} (h : start ≤ n) : IsRun p n start 0 :=
  ⟨h, fun i hi => absurd hi (Nat.not_lt_zero i)⟩

section Step

variable {n : Nat} {r : Nat × Nat} (h : Scanned p n r)

include h

/-- A number with the property extends the current run. -/
theorem Scanned.extend (hp : p n = true) : Scanned p (n + 1) (max r.1 (r.2 + 1), r.2 + 1) := by
  obtain ⟨cur, hcur, hrun⟩ := h.current
  have hlonger : IsRun p (n + 1) cur (r.2 + 1) := by
    refine ⟨by omega, fun i hi => ?_⟩
    rcases Nat.lt_or_eq_of_le (Nat.le_of_lt_succ hi) with hlt | rfl
    · exact hrun.2 i hlt
    · rw [hcur]
      exact hp
  refine ⟨⟨cur, by simp only; omega, hlonger⟩, ?_, ?_, ?_⟩
  · intro start len hend hrun'
    rcases hrun'.cases with hrun' | ⟨-, rfl⟩ | ⟨len', rfl, hend', -, hrun'⟩
    · have := hrun'.1
      omega
    · exact Nat.zero_le _
    · exact Nat.succ_le_succ (h.ending start len' hend' hrun')
  · rcases Nat.le_total r.1 (r.2 + 1) with hle | hle
    · rw [max_eq_right hle]
      exact ⟨cur, hlonger⟩
    · rw [max_eq_left hle]
      obtain ⟨best, hbest⟩ := h.longest
      exact ⟨best, hbest.mono (Nat.le_succ n)⟩
  · intro start len hrun'
    rcases hrun'.cases with hrun' | ⟨-, rfl⟩ | ⟨len', rfl, hend', -, hrun'⟩
    · exact (h.greatest start len hrun').trans (le_max_left _ _)
    · exact Nat.zero_le _
    · exact (Nat.succ_le_succ (h.ending start len' hend' hrun')).trans (le_max_right _ _)

/-- One without it ends the current run. -/
theorem Scanned.restart (hp : ¬ p n = true) : Scanned p (n + 1) (r.1, 0) := by
  obtain ⟨best, hbest⟩ := h.longest
  refine ⟨⟨n + 1, rfl, IsRun.empty (Nat.le_refl _)⟩, ?_, ⟨best, hbest.mono (Nat.le_succ n)⟩, ?_⟩
  · intro start len hend hrun
    rcases hrun.cases with hrun | ⟨-, rfl⟩ | ⟨len', rfl, hend', hp', -⟩
    · have := hrun.1
      omega
    · exact Nat.zero_le _
    · exact absurd hp' hp
  · intro start len hrun
    rcases hrun.cases with hrun | ⟨-, rfl⟩ | ⟨len', rfl, hend', hp', -⟩
    · exact h.greatest start len hrun
    · exact Nat.zero_le _
    · exact absurd hp' hp

end Step

theorem scanned (p : Nat → Bool) (n : Nat) : Scanned p n (scan p n) := by
  induction n with
  | zero =>
      refine ⟨⟨0, rfl, IsRun.empty (Nat.le_refl _)⟩, ?_, ⟨0, IsRun.empty (Nat.le_refl _)⟩, ?_⟩
      · intro start len hend _
        omega
      · intro start len hrun
        have := hrun.1
        omega
  | succ n ih =>
      rw [scan_succ, runStep]
      split
      · next hp => exact ih.extend hp
      · next hp => exact ih.restart hp

/-- **The pass finds the longest run.** -/
theorem longestRun_isGreatest (p : Nat → Bool) (n : Nat) :
    IsGreatest {len | ∃ start, IsRun p n start len} (longestRun p n) := by
  refine ⟨(scanned p n).longest, ?_⟩
  rintro len ⟨start, hrun⟩
  exact (scanned p n).greatest start len hrun

/-! ## Intervals inside a finite set -/

/-- The lengths of the intervals inside a set of integers. -/
def lengths (s : Set Int) : Set Nat := {len | ∃ a : Int, Set.Ico a (a + len) ⊆ s}

variable {s : Finset Int} {m : Nat}

theorem le_card (h : m ∈ lengths s) : m ≤ s.card := by
  obtain ⟨a, hsub⟩ := h
  have hle := Finset.card_le_card (s := Finset.Ico a (a + m)) (t := s) (by
    intro b hb
    exact hsub (by simpa using hb))
  rw [Int.card_Ico] at hle
  omega

/-- **The longest run is as long as the set is large** exactly if the set is an interval. -/
theorem eq_card_iff (h : IsGreatest (lengths s) m) :
    m = s.card ↔ ∃ (a : Int) (len : Nat), s = Finset.Ico a (a + len) := by
  constructor
  · intro heq
    -- an interval inside the set with as many elements is the set
    obtain ⟨a, hsub⟩ := h.1
    refine ⟨a, m, (Finset.eq_of_subset_of_card_le (s := Finset.Ico a (a + m)) ?_ ?_).symm⟩
    · intro b hb
      exact hsub (by simpa using hb)
    · rw [Int.card_Ico]
      omega
  · rintro ⟨a, len, rfl⟩
    refine Nat.le_antisymm (le_card h.1) (h.2 ⟨a, ?_⟩)
    rw [Int.card_Ico, Finset.coe_Ico]
    have hlen : (((a + len - a).toNat : Nat) : Int) = len := by omega
    rw [hlen]

end Runs
