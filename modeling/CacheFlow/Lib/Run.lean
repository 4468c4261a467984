import Mathlib.Logic.Relation

set_option autoImplicit false

/-! # Runs of a deterministic machine under an enabling condition

A machine is a function `step : σ → α → σ` together with a condition `ok : σ → α → Prop` saying which
operations its environment may issue in which state. `Reach step ok s t` relates two states when
some sequence of permitted operations leads from `s` to `t`; it is the reflexive-transitive closure
of `Step`, so Mathlib's closure lemmas apply to it.

`Reach.invariant` is the induction every safety result goes through, `Reach.of_allOk` builds a
concrete run from a list of operations, so that a run can be evaluated. -/

namespace Run

variable {σ α : Type*}

/-- One permitted operation leads from `s` to `t`. -/
def Step (step : σ → α → σ) (ok : σ → α → Prop) (s t : σ) : Prop :=
  ∃ a, ok s a ∧ t = step s a

/-- Some sequence of permitted operations leads from `s` to `t`. -/
def Reach (step : σ → α → σ) (ok : σ → α → Prop) : σ → σ → Prop :=
  Relation.ReflTransGen (Step step ok)

variable {step : σ → α → σ} {ok : σ → α → Prop} {s t : σ}

theorem Reach.refl (s : σ) : Reach step ok s s :=
  Relation.ReflTransGen.refl

/-- A property of the first state that every permitted operation preserves holds of every state
    reached. -/
theorem Reach.invariant {P : σ → Prop} (h : Reach step ok s t) (h0 : P s)
    (hstep : ∀ s a, P s → ok s a → P (step s a)) : P t := by
  induction h with
  | refl => exact h0
  | tail _ hst ih =>
      obtain ⟨a, ha, rfl⟩ := hst
      exact hstep _ a ih ha

/-- A preorder that relates the two ends of every permitted operation relates the two ends of every
    run. -/
theorem Reach.preorder {R : σ → σ → Prop} (h : Reach step ok s t) (hrefl : ∀ s, R s s)
    (htrans : ∀ s t u, R s t → R t u → R s u) (hstep : ∀ s a, ok s a → R s (step s a)) : R s t := by
  induction h with
  | refl => exact hrefl _
  | tail _ hst ih =>
      obtain ⟨a, ha, rfl⟩ := hst
      exact htrans _ _ _ ih (hstep _ a ha)

/-- Every operation of the list is permitted in the state it meets. -/
def AllOk (step : σ → α → σ) (ok : σ → α → Prop) : σ → List α → Prop
  | _, [] => True
  | s, a :: as => ok s a ∧ AllOk step ok (step s a) as

instance [inst : ∀ s a, Decidable (ok s a)] : ∀ s as, Decidable (AllOk step ok s as)
  | _, [] => isTrue trivial
  | s, a :: as =>
    have : Decidable (AllOk step ok (step s a) as) := instDecidableAllOk (step s a) as
    inferInstanceAs (Decidable (ok s a ∧ AllOk step ok (step s a) as))

/-- A list of permitted operations is a run to the state it computes. -/
theorem Reach.of_allOk (as : List α) (h : AllOk step ok s as) :
    Reach step ok s (as.foldl step s) := by
  induction as generalizing s with
  | nil => exact Reach.refl s
  | cons a as ih =>
      obtain ⟨ha, has⟩ := h
      exact Relation.ReflTransGen.head ⟨a, ha, rfl⟩ (ih has)

theorem allOk_append {as bs : List α} :
    AllOk step ok s (as ++ bs) ↔ AllOk step ok s as ∧ AllOk step ok (as.foldl step s) bs := by
  induction as generalizing s with
  | nil => simp [AllOk]
  | cons a as ih =>
      rw [List.cons_append, AllOk, AllOk, ih, List.foldl_cons, and_assoc]

theorem allOk_and {ok' : σ → α → Prop} {as : List α} :
    AllOk step (fun s a => ok s a ∧ ok' s a) s as ↔ AllOk step ok s as ∧ AllOk step ok' s as := by
  induction as generalizing s with
  | nil => simp [AllOk]
  | cons a as ih =>
      rw [AllOk, AllOk, AllOk, ih]
      exact and_and_and_comm

/-- A condition that holds wherever the list is split holds along the list. -/
theorem allOk_of_split {as : List α}
    (h : ∀ pre a post, as = pre ++ a :: post → ok (pre.foldl step s) a) : AllOk step ok s as := by
  induction as generalizing s with
  | nil => trivial
  | cons a as ih =>
      refine ⟨h [] a as rfl, ih ?_⟩
      intro pre a' post hsplit
      exact h (a :: pre) a' post (by rw [hsplit, List.cons_append])

/-- Along a list that does not have `x`, no operation is `x`. -/
theorem AllOk.ne_of_notMem {as : List α} {x : α} (h : AllOk step ok s as) (hx : x ∉ as) :
    AllOk step (fun s a => ok s a ∧ a ≠ x) s as := by
  refine allOk_and.2 ⟨h, allOk_of_split ?_⟩
  rintro pre a post rfl hax
  subst hax
  exact hx (List.mem_append_right _ (List.mem_cons_self ..))

/-- A property of the first state that every permitted operation preserves holds at the end of the
    list. -/
theorem AllOk.invariant {P : σ → Prop} {as : List α} (h : AllOk step ok s as) (h0 : P s)
    (hstep : ∀ s a, P s → ok s a → P (step s a)) : P (as.foldl step s) :=
  (Reach.of_allOk as h).invariant h0 hstep

theorem AllOk.take {as : List α} (h : AllOk step ok s as) (n : Nat) : AllOk step ok s (as.take n) :=
  (allOk_append.1 ((List.take_append_drop n as).symm ▸ h)).1

end Run
