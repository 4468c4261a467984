import Mathlib.Data.List.Basic

set_option autoImplicit false

/-! # Accumulators that can be reset

An accumulator takes values one after the other until it is reset. If a reset leads back to the start from
every state with some invariant, a sequence of calls leaves the accumulator in the state that the values fed
since the last reset lead to (`foldl_since`). -/

namespace Accumulator

variable {σ α : Type*}

inductive Call (α : Type*) where
  | feed (x : α)
  | reset
  deriving DecidableEq, Repr

/-- The values fed since the last reset, with those of `xs` fed before. -/
def sinceFrom (xs : List α) : List (Call α) → List α
  | [] => xs
  | .feed x :: calls => sinceFrom (xs ++ [x]) calls
  | .reset :: calls => sinceFrom [] calls

/-- The values fed since the last reset. -/
def since (calls : List (Call α)) : List α := sinceFrom [] calls

/-- All values fed. -/
def fed : List (Call α) → List α
  | [] => []
  | .feed x :: calls => x :: fed calls
  | .reset :: calls => fed calls

variable (feed : σ → α → σ) (reset : σ → σ)

def step (s : σ) : Call α → σ
  | .feed x => feed s x
  | .reset => reset s

theorem foldl_since {start : σ} (P : σ → Prop) (hstart : P start) (hfeed : ∀ s x, P s → P (feed s x))
    (hreset : ∀ s, P s → reset s = start) (calls : List (Call α)) :
    calls.foldl (step feed reset) start = (since calls).foldl feed start := by
  have hloop : ∀ (calls : List (Call α)) (xs : List α), P (xs.foldl feed start) →
      calls.foldl (step feed reset) (xs.foldl feed start)
        = (sinceFrom xs calls).foldl feed start := by
    intro calls
    induction calls with
    | nil =>
        intro xs _
        rfl
    | cons call calls ih =>
        intro xs hxs
        cases call with
        | feed x =>
            have happend : (xs ++ [x]).foldl feed start = feed (xs.foldl feed start) x := by
              rw [List.foldl_append, List.foldl_cons, List.foldl_nil]
            have hnext := ih (xs ++ [x]) (by
              rw [happend]
              exact hfeed _ _ hxs)
            rw [happend] at hnext
            exact hnext
        | reset =>
            rw [List.foldl_cons, step, hreset _ hxs]
            exact ih [] hstart
  exact hloop calls [] hstart

end Accumulator
