import CacheFlow.Lib.Run

set_option autoImplicit false

/-! # What the answers of a machine tell apart

A machine that answers every operation, `step : σ → α → ω × σ`, with a condition `ok` on the operations its
environment may issue. Two states cannot be told apart if the same sequences of operations are permitted
from both and have the same answers. A relation that permitted operations respect proves it
(`Bisimulation.indistinguishable`). -/

namespace Observation

variable {σ α ω : Type*} (step : σ → α → ω × σ)

/-- The state after an operation. -/
def next (s : σ) (a : α) : σ := (step s a).2

/-- The answers to a sequence of operations. -/
def answers : σ → List α → List ω
  | _, [] => []
  | s, a :: as => (step s a).1 :: answers (next step s a) as

/-- No sequence of permitted operations tells the two states apart. -/
def Indistinguishable (ok : σ → α → Prop) (s t : σ) : Prop :=
  ∀ as, (Run.AllOk (next step) ok s as ↔ Run.AllOk (next step) ok t as) ∧
    (Run.AllOk (next step) ok s as → answers step s as = answers step t as)

/-- Related states permit the same operations, answer them alike and stay related. -/
structure Bisimulation (ok : σ → α → Prop) (R : σ → σ → Prop) : Prop where
  ok_iff : ∀ {s t}, R s t → ∀ a, ok s a ↔ ok t a
  answer : ∀ {s t}, R s t → ∀ a, ok s a → (step s a).1 = (step t a).1
  next : ∀ {s t}, R s t → ∀ a, ok s a → R (next step s a) (next step t a)

variable {step} {ok : σ → α → Prop} {R : σ → σ → Prop} {s t : σ}

theorem Bisimulation.indistinguishable (h : Bisimulation step ok R) (hst : R s t) :
    Indistinguishable step ok s t := by
  intro as
  induction as generalizing s t with
  | nil => exact ⟨Iff.rfl, fun _ => rfl⟩
  | cons a as ih =>
      constructor
      · -- the rest is compared in related states, as the operation is permitted in both
        rw [Run.AllOk, Run.AllOk, ← h.ok_iff hst a]
        exact and_congr_right (fun ha => (ih (h.next hst a ha)).1)
      · rintro ⟨ha, has⟩
        rw [answers, answers, h.answer hst a ha, (ih (h.next hst a ha)).2 has]

end Observation
