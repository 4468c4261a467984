import Mathlib.Tactic.Common

set_option autoImplicit false

/-! # Expressions over machine integers

An expression over non-negative integers, the value it has and the value a machine computes, which takes
the result of every operation to its own range by `cast`. `All P` says that a property holds of the
operands and of the result of every operation; if all of them are in the range, the machine computes the
value (`run_eq_value`). -/

namespace MachineInt

inductive Expr where
  | val (n : Nat)
  | add (a b : Expr)
  | mul (a b : Expr)
  | div (a b : Expr)
  | mod (a b : Expr)
  deriving DecidableEq, Repr

namespace Expr

def value : Expr → Nat
  | val n => n
  | add a b => a.value + b.value
  | mul a b => a.value * b.value
  | div a b => a.value / b.value
  | mod a b => a.value % b.value

/-- What a machine computes. Division truncates. -/
def run (cast : Int → Int) : Expr → Int
  | val n => cast n
  | add a b => cast (a.run cast + b.run cast)
  | mul a b => cast (a.run cast * b.run cast)
  | div a b => cast ((a.run cast).tdiv (b.run cast))
  | mod a b => cast ((a.run cast).tmod (b.run cast))

/-- The property holds of every operand and of every result. -/
def All (P : Nat → Prop) : Expr → Prop
  | val n => P n
  | add a b => a.All P ∧ b.All P ∧ P (a.value + b.value)
  | mul a b => a.All P ∧ b.All P ∧ P (a.value * b.value)
  | div a b => a.All P ∧ b.All P ∧ P (a.value / b.value)
  | mod a b => a.All P ∧ b.All P ∧ P (a.value % b.value)

variable {cast : Int → Int} {e : Expr}

/-- **In the range of the machine nothing is lost.** -/
theorem run_eq_value (h : e.All (fun n => cast n = n)) : e.run cast = e.value := by
  induction e with
  | val n => exact h
  | add a b iha ihb => rw [run, value, iha h.1, ihb h.2.1, ← Int.natCast_add, h.2.2]
  | mul a b iha ihb => rw [run, value, iha h.1, ihb h.2.1, ← Int.natCast_mul, h.2.2]
  | div a b iha ihb =>
      rw [run, value, iha h.1, ihb h.2.1]
      exact h.2.2
  | mod a b iha ihb =>
      rw [run, value, iha h.1, ihb h.2.1]
      exact h.2.2

theorem All.imp {P Q : Nat → Prop} (hPQ : ∀ n, P n → Q n) (h : e.All P) : e.All Q := by
  induction e with
  | val n => exact hPQ n h
  | add a b iha ihb | mul a b iha ihb | div a b iha ihb | mod a b iha ihb =>
      exact ⟨iha h.1, ihb h.2.1, hPQ _ h.2.2⟩

/-- The value is the result of the last operation. -/
theorem All.value {P : Nat → Prop} (h : e.All P) : P e.value := by
  cases e with
  | val n => exact h
  | add a b | mul a b | div a b | mod a b => exact h.2.2

end Expr

end MachineInt
