import Mathlib.Data.List.Basic

set_option autoImplicit false

/-! # Spans on tracks

A log has marks on tracks. One kind opens a span, one kind closes the span that was opened last on its track,
and all others stand between. `run` reads a log and keeps the spans that are open; `spans` reads a whole log
and wants nothing left open and nothing closed that was not open.

A part of a log is `Balanced` if it leaves the open spans as they are, whatever these are. Then it can stand
anywhere in a log, also inside a span. -/

namespace Spans

inductive Mark (T L : Type*) where
  | opens (track : T) (label : L)
  | closes (track : T) (label : L)
  | other
  deriving DecidableEq, Repr

variable {T L : Type*} [BEq T]

/-- The spans that are closed, in this order, with both labels, and the spans left open, the last one first. -/
def run : List (T × L) → List (Mark T L) → Option (List (L × L) × List (T × L))
  | st, [] => some ([], st)
  | st, .opens t a :: ms => run ((t, a) :: st) ms
  | st, .closes t b :: ms =>
    match st.lookup t with
    | none => none
    | some a => (run (st.eraseP (fun p => t == p.1)) ms).map (fun p => ((a, b) :: p.1, p.2))
  | st, .other :: ms => run st ms

theorem run_append (st : List (T × L)) (ms ms' : List (Mark T L)) :
    run st (ms ++ ms')
      = (run st ms).bind (fun p => (run p.2 ms').map (fun q => (p.1 ++ q.1, q.2))) := by
  induction ms generalizing st with
  | nil => simp [run]
  | cons m ms ih =>
      cases m with
      | opens t a => simp only [List.cons_append, run, ih]
      | closes t b =>
          rw [List.cons_append, run, run]
          cases st.lookup t with
          | none => rfl
          | some a =>
              simp only [ih]
              cases run (st.eraseP (fun p => t == p.1)) ms with
              | none => rfl
              | some p => simp [Function.comp_def]
      | other => simp only [List.cons_append, run, ih]

/-! ## Parts that leave nothing open -/

def Balanced (ms : List (Mark T L)) (out : List (L × L)) : Prop := ∀ st, run st ms = some (out, st)

theorem Balanced.append {ms ms' : List (Mark T L)} {out out' : List (L × L)} (h : Balanced ms out)
    (h' : Balanced ms' out') : Balanced (ms ++ ms') (out ++ out') := by
  intro st
  rw [run_append, h st]
  simp [h' st]

end Spans
