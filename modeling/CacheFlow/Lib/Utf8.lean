import Mathlib.Tactic.Common

set_option autoImplicit false

/-! # Well-formed UTF-8

A byte sequence is read from left to right with the ranges that the next bytes have to lie in. An ASCII byte
is a character of its own and is never part of another one, so it splits a sequence into two that are
well-formed or not independently of each other (`valid_append_cons`). -/

namespace Utf8

/-- The ranges of the bytes that have to follow a first byte; `none` if no character starts with it. -/
def ranges (b : UInt8) : Option (List (UInt8 × UInt8)) :=
  if b < 0x80 then some []
  else if b < 0xC2 then none
  else if b < 0xE0 then some [(0x80, 0xBF)]
  else if b = 0xE0 then some [(0xA0, 0xBF), (0x80, 0xBF)]
  else if b = 0xED then some [(0x80, 0x9F), (0x80, 0xBF)]
  else if b < 0xF0 then some [(0x80, 0xBF), (0x80, 0xBF)]
  else if b = 0xF0 then some [(0x90, 0xBF), (0x80, 0xBF), (0x80, 0xBF)]
  else if b < 0xF4 then some [(0x80, 0xBF), (0x80, 0xBF), (0x80, 0xBF)]
  else if b = 0xF4 then some [(0x80, 0x8F), (0x80, 0xBF), (0x80, 0xBF)]
  else none

/-- The bytes first complete a character and then are whole characters. -/
def accepts : List (UInt8 × UInt8) → List UInt8 → Bool
  | pending, [] => pending.isEmpty
  | [], b :: bs =>
    match ranges b with
    | some pending => accepts pending bs
    | none => false
  | (lo, hi) :: pending, b :: bs => decide (lo ≤ b ∧ b ≤ hi) && accepts pending bs

def valid (bs : List UInt8) : Bool := accepts [] bs

theorem ranges_ascii {b : UInt8} (h : b < 0x80) : ranges b = some [] := by
  rw [ranges, if_pos h]

/-- No byte after the first one is ASCII. -/
theorem le_of_mem_ranges {b : UInt8} {pending : List (UInt8 × UInt8)} (h : ranges b = some pending) :
    pending.all (fun range => 0x80 ≤ range.1) := by
  unfold ranges at h
  split_ifs at h <;> cases h <;> decide

theorem accepts_append_cons {c : UInt8} (hc : c < 0x80) (a b : List UInt8) {pending : List (UInt8 × UInt8)}
    (h : pending.all (fun range => 0x80 ≤ range.1)) :
    accepts pending (a ++ c :: b) = (accepts pending a && valid b) := by
  induction a generalizing pending with
  | nil =>
      cases pending with
      | nil => simp [accepts, ranges_ascii hc, valid]
      | cons range pending =>
          obtain ⟨lo, hi⟩ := range
          rw [List.all_cons, Bool.and_eq_true, decide_eq_true_eq] at h
          have hlow : ¬ lo ≤ c := by
            have hle : (0x80 : UInt8) ≤ lo := h.1
            rw [UInt8.le_iff_toNat_le] at hle ⊢
            rw [UInt8.lt_iff_toNat_lt] at hc
            omega
          simp [accepts, hlow]
  | cons x a ih =>
      rw [List.cons_append]
      cases pending with
      | nil =>
          rw [accepts, accepts]
          cases hx : ranges x with
          | none => rfl
          | some pending => exact ih (le_of_mem_ranges hx)
      | cons range pending =>
          obtain ⟨lo, hi⟩ := range
          rw [List.all_cons, Bool.and_eq_true] at h
          rw [accepts, accepts, ih h.2, Bool.and_assoc]

/-- **An ASCII byte separates.** -/
theorem valid_append_cons {c : UInt8} (hc : c < 0x80) (a b : List UInt8) :
    valid (a ++ c :: b) = (valid a && valid b) :=
  accepts_append_cons hc a b rfl

theorem valid_cons {c : UInt8} (hc : c < 0x80) (b : List UInt8) : valid (c :: b) = valid b := by
  rw [valid, accepts, ranges_ascii hc, valid]

theorem valid_ascii_append {a : List UInt8} (ha : ∀ c ∈ a, c < 0x80) (b : List UInt8) :
    valid (a ++ b) = valid b := by
  induction a with
  | nil => rfl
  | cons c a ih =>
      rw [List.cons_append, valid_cons (ha c (List.mem_cons_self ..)),
        ih (fun x hx => ha x (List.mem_cons_of_mem _ hx))]

end Utf8
