import Mathlib.Data.List.Nodup
import Mathlib.Data.List.Sort
import Mathlib.Order.Basic

set_option autoImplicit false

/-! # The oldest keys

Some keys have a time, given by `time : κ → Option τ`. `Oldest time m ks` says that `ks` are the `m` keys
with the least times, in increasing order. There is at most one such list (`Oldest.unique`), and the start
of a sorted list of all keys with a time is one (`Oldest.of_sorted`). -/

variable {κ τ : Type*} [LinearOrder τ] {time : κ → Option τ}

/-- The first key has an earlier time than the second. -/
def Earlier (time : κ → Option τ) (k k' : κ) : Prop := ∀ x ∈ time k, ∀ x' ∈ time k', x < x'

/-- The `m` keys with the least times, in increasing order. -/
structure Oldest (time : κ → Option τ) (m : Nat) (ks : List κ) : Prop where
  length : ks.length = m
  timed : ∀ k ∈ ks, (time k).isSome
  ordered : ks.Pairwise (Earlier time)
  rest : ∀ k ∈ ks, ∀ k' ∉ ks, Earlier time k k'

theorem Earlier.asymm {k k' : κ} (h : Earlier time k k') (hk : (time k).isSome)
    (hk' : (time k').isSome) : ¬ Earlier time k' k := by
  obtain ⟨x, hx⟩ := Option.isSome_iff_exists.1 hk
  obtain ⟨x', hx'⟩ := Option.isSome_iff_exists.1 hk'
  intro h'
  exact lt_asymm (h x hx x' hx') (h' x' hx' x hx)

namespace Oldest

variable {m : Nat} {ks ks' : List κ}

theorem nodup (h : Oldest time m ks) : ks.Nodup := by
  refine List.Pairwise.imp_of_mem ?_ h.ordered
  rintro k k' hk hk' hlt rfl
  exact hlt.asymm (h.timed k hk) (h.timed k hk) hlt

/-- A key of one list that the other lacks would leave no room for all keys of the other. -/
theorem subset (h : Oldest time m ks) (h' : Oldest time m ks') : ks ⊆ ks' := by
  intro k hk
  by_contra hnot
  have hall : k :: ks' ⊆ ks := by
    intro k' hmem
    rcases List.mem_cons.1 hmem with rfl | hk'
    · exact hk
    · by_contra hmissing
      exact (h.rest k hk k' hmissing).asymm (h.timed k hk) (h'.timed k' hk') (h'.rest k' hk' k hnot)
  have hlen := (List.subperm_of_subset (List.nodup_cons.2 ⟨hnot, h'.nodup⟩) hall).length_le
  rw [List.length_cons, h.length, h'.length] at hlen
  omega

/-- **The oldest keys are determined by the times.** -/
theorem unique (h : Oldest time m ks) (h' : Oldest time m ks') : ks = ks' := by
  have hperm : ks.Perm ks' := (List.perm_ext_iff_of_nodup h.nodup h'.nodup).2
    (fun k => ⟨fun hk => h.subset h' hk, fun hk => h'.subset h hk⟩)
  refine hperm.eq_of_pairwise ?_ h.ordered h'.ordered
  intro k k' hk hk' hlt hlt'
  exact absurd hlt' (hlt.asymm (h.timed k hk) (h'.timed k' hk'))

/-- The start of a sorted list of all keys with a time. -/
theorem of_sorted {all : List κ} (hmem : ∀ k, k ∈ all ↔ (time k).isSome)
    (hsorted : all.Pairwise (Earlier time)) (n : Nat) :
    Oldest time (min n all.length) (all.take n) := by
  have hsplit : all.take n ++ all.drop n = all := List.take_append_drop n all
  refine ⟨List.length_take, ?_, ?_, ?_⟩
  · intro k hk
    exact (hmem k).1 (List.mem_of_mem_take hk)
  · exact hsorted.sublist (List.take_sublist n all)
  · intro k hk k' hk' x hx x' hx'
    have hall : k' ∈ all := (hmem k').2 (Option.isSome_iff_exists.2 ⟨x', hx'⟩)
    rw [← hsplit, List.mem_append] at hall
    rw [← hsplit, List.pairwise_append] at hsorted
    exact hsorted.2.2 k hk k' (hall.resolve_left hk') x hx x' hx'

end Oldest
