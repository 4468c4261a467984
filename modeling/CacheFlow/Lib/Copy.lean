import Mathlib.Logic.Function.Basic
import Mathlib.Data.List.Nodup
import Mathlib.Data.Set.Basic

set_option autoImplicit false

/-! # Copying cells between two memories

A memory is a function from addresses to contents. `copyAll src ops dst` is the memory `dst` after the
pairs `ops` of a source and a destination address have been copied from `src`, in order. Copies with
distinct destinations do not disturb each other: every destination ends with the content of its
source.

`moveAll ops mem` copies within one memory. Where no destination is a source, it copies what the memory
had at the start (`moveAll_eq_copyAll`). -/

namespace Copy

variable {α β C : Type*} [DecidableEq β]

/-- Copy from `src` to `dst`, one pair of addresses after the other. -/
def copyAll (src : α → C) (ops : List (α × β)) (dst : β → C) : β → C :=
  ops.foldl (fun mem op => Function.update mem op.2 (src op.1)) dst

variable {src : α → C} {dst : β → C}

theorem copyAll_of_notMem {ops : List (α × β)} {b : β} (h : b ∉ ops.map Prod.snd) :
    copyAll src ops dst b = dst b := by
  induction ops generalizing dst with
  | nil => rfl
  | cons op ops ih =>
      rw [List.map_cons, List.mem_cons, not_or] at h
      have hrest : copyAll src ops (Function.update dst op.2 (src op.1)) b
          = Function.update dst op.2 (src op.1) b := ih h.2
      rw [Function.update_of_ne h.1] at hrest
      exact hrest

/-- Cells that are no destination keep their contents. -/
theorem map_copyAll_of_disjoint {ops : List (α × β)} {l : List β}
    (h : List.Disjoint l (ops.map Prod.snd)) : l.map (copyAll src ops dst) = l.map dst :=
  List.map_congr_left (fun _ hb => copyAll_of_notMem (fun hop => h hb hop))

/-- Distinct destinations end with the contents of their sources. -/
theorem map_copyAll_zip {srcs : List α} {dsts : List β} (hlen : srcs.length = dsts.length)
    (hnodup : dsts.Nodup) : dsts.map (copyAll src (srcs.zip dsts) dst) = srcs.map src := by
  induction dsts generalizing srcs dst with
  | nil =>
      rw [List.length_nil, List.length_eq_zero_iff] at hlen
      rw [hlen]
      rfl
  | cons b dsts ih =>
      obtain ⟨hb, hrest⟩ := List.nodup_cons.1 hnodup
      cases srcs with
      | nil => cases hlen
      | cons a srcs =>
          have hlen' : srcs.length = dsts.length := by simpa using hlen
          have hsnd : (srcs.zip dsts).map Prod.snd = dsts := List.map_snd_zip (Nat.le_of_eq hlen'.symm)
          have hstep : copyAll src ((a :: srcs).zip (b :: dsts)) dst
              = copyAll src (srcs.zip dsts) (Function.update dst b (src a)) := rfl
          have hkept : copyAll src (srcs.zip dsts) (Function.update dst b (src a)) b
              = Function.update dst b (src a) b := copyAll_of_notMem (by rw [hsnd]; exact hb)
          rw [hstep, List.map_cons, List.map_cons, hkept, ih hlen' hrest, Function.update_self]

/-- A destination ends with the content of its source, if all copies to it have the same source. -/
theorem copyAll_of_mem {ops : List (α × β)} {op : α × β} (hmem : op ∈ ops)
    (hsame : ∀ op' ∈ ops, op'.2 = op.2 → op'.1 = op.1) : copyAll src ops dst op.2 = src op.1 := by
  induction ops generalizing dst with
  | nil => exact absurd hmem List.not_mem_nil
  | cons o ops ih =>
      have hstep : copyAll src (o :: ops) dst = copyAll src ops (Function.update dst o.2 (src o.1)) := rfl
      rw [hstep]
      by_cases hlater : op.2 ∈ ops.map Prod.snd
      · obtain ⟨op', hop', heq⟩ := List.mem_map.1 hlater
        have hsrc := hsame op' (List.mem_cons_of_mem _ hop') heq
        obtain rfl : op' = op := Prod.ext hsrc heq
        exact ih hop' (fun o' ho' => hsame o' (List.mem_cons_of_mem _ ho'))
      · -- the first copy is the last one to this destination
        have hfirst : op = o := by
          rcases List.mem_cons.1 hmem with heq | hrest
          · exact heq
          · exact absurd (List.mem_map_of_mem hrest) hlater
        rw [copyAll_of_notMem hlater, ← hfirst, Function.update_self]

/-! ## Copies within one memory -/

section Moves

variable {mem : β → C} {ops : List (β × β)}

/-- Copy within `mem`, one pair of addresses after the other. -/
def moveAll (ops : List (β × β)) (mem : β → C) : β → C :=
  ops.foldl (fun mem op => Function.update mem op.2 (mem op.1)) mem

theorem moveAll_append (ops ops' : List (β × β)) (mem : β → C) :
    moveAll (ops ++ ops') mem = moveAll ops' (moveAll ops mem) :=
  List.foldl_append

/-- **Where no destination is a source**, the copies read the memory as it was. -/
theorem moveAll_eq_copyAll (h : ∀ op ∈ ops, ∀ op' ∈ ops, op.2 ≠ op'.1) :
    moveAll ops mem = copyAll mem ops mem := by
  have hagree : ∀ (l : List (β × β)) (mem' : β → C), (∀ op ∈ l, ∀ op' ∈ l, op.2 ≠ op'.1) →
      (∀ op ∈ l, mem' op.1 = mem op.1) → moveAll l mem' = copyAll mem l mem' := by
    intro l
    induction l with
    | nil => exact fun _ _ _ => rfl
    | cons o l ih =>
        intro mem' hapart hsame
        have ho : mem' o.1 = mem o.1 := hsame o (List.mem_cons_self ..)
        have hmove : moveAll (o :: l) mem' = moveAll l (Function.update mem' o.2 (mem' o.1)) := rfl
        have hcopy : copyAll mem (o :: l) mem' = copyAll mem l (Function.update mem' o.2 (mem o.1)) := rfl
        rw [hmove, hcopy, ho]
        refine ih _ (fun op hop op' hop' => ?_) (fun op hop => ?_)
        · exact hapart op (List.mem_cons_of_mem _ hop) op' (List.mem_cons_of_mem _ hop')
        · have hne := hapart o (List.mem_cons_self ..) op (List.mem_cons_of_mem _ hop)
          rw [Function.update_of_ne hne.symm]
          exact hsame op (List.mem_cons_of_mem _ hop)
  exact hagree ops mem h (fun _ _ => rfl)

/-- What is nowhere in the cells that are read does not appear in them. -/
theorem moveAll_eq_on {S : Set β} {x : C} (hread : ∀ op ∈ ops, op.1 ∈ S) (hmem : ∀ a ∈ S, mem a = x) :
    ∀ a ∈ S, moveAll ops mem a = x := by
  induction ops generalizing mem with
  | nil => exact hmem
  | cons o ops ih =>
      have hstep : moveAll (o :: ops) mem = moveAll ops (Function.update mem o.2 (mem o.1)) := rfl
      rw [hstep]
      refine ih (fun op hop => hread op (List.mem_cons_of_mem _ hop)) (fun a ha => ?_)
      by_cases hao : a = o.2
      · rw [hao, Function.update_self]
        exact hmem _ (hread o (List.mem_cons_self ..))
      · rw [Function.update_of_ne hao]
        exact hmem a ha

theorem moveAll_const (ops : List (β × β)) (x : C) : moveAll ops (fun _ => x) = fun _ => x := by
  funext a
  exact moveAll_eq_on (S := Set.univ) (fun _ _ => Set.mem_univ _) (fun _ _ => rfl) a (Set.mem_univ a)

end Moves

end Copy
