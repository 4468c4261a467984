import Mathlib.Algebra.GroupWithZero.Nat
import Mathlib.Algebra.Order.BigOperators.Group.List
import Mathlib.Algebra.Order.Group.Nat
import Mathlib.Data.List.Perm.Basic

set_option autoImplicit false

/-! # Tries

A node of a `Trie κ α` carries data and has children, each reached by a key. The children are an
association list: `child` reads the first entry of a key and `setChild` writes it, so that the list
behaves as a map.

`descend` follows a path of keys, `toList` lists the data of all nodes; while no node has two children
under one key (`KeysNodup`) the two see the same nodes. `walk` is the loop that goes
down a path and rewrites the nodes it meets while it threads a state. Its rules say what a walk leaves
alone along every path (`descend_walk_map`), what holds of its state (`walk_invariant`), that stamps
from a clock stay different (`Stamped.walk`) and how a sum over all nodes grows (`total_walk`). -/

inductive Trie (κ α : Type) where
  | node (data : α) (children : List (κ × Trie κ α))

namespace Trie

variable {κ α : Type}

def data : Trie κ α → α
  | node a _ => a

def children : Trie κ α → List (κ × Trie κ α)
  | node _ cs => cs

/-- A node without children. -/
def leaf (a : α) : Trie κ α := node a []

/-- Rewrite the data of the root. -/
def modify (f : α → α) (t : Trie κ α) : Trie κ α := node (f t.data) t.children

/-- Write the first entry of a key, at the end if there is none. -/
def setEntry {β : Type} [DecidableEq κ] (k : κ) (b : β) : List (κ × β) → List (κ × β)
  | [] => [(k, b)]
  | e :: rest => if e.1 = k then (k, b) :: rest else e :: setEntry k b rest

/-- The first entry of a key. -/
def entry {β : Type} [DecidableEq κ] (k : κ) : List (κ × β) → Option β
  | [] => none
  | e :: rest => if e.1 = k then some e.2 else entry k rest

section Paths

variable [DecidableEq κ]

def child (t : Trie κ α) (k : κ) : Option (Trie κ α) := entry k t.children

def setChild (t : Trie κ α) (k : κ) (c : Trie κ α) : Trie κ α :=
  node t.data (setEntry k c t.children)

/-- The node at the end of a path. -/
def descend : Trie κ α → List κ → Option (Trie κ α)
  | t, [] => some t
  | t, k :: ks =>
    match t.child k with
    | none => none
    | some c => c.descend ks

/-- Go down a path of keys from a node reached after `i` keys. The walk ends when `more` says so or at
    a missing child that `fresh` does not supply; each node it reaches is rewritten by `visit`, which
    is told how many keys precede the one that leads to the node. -/
def walk {σ : Type} (fresh : Option α) (more : σ → Bool) (visit : Nat → σ → α → σ × α) :
    List κ → Nat → σ → Trie κ α → σ × Trie κ α
  | [], _, s, t => (s, t)
  | k :: ks, i, s, t =>
    if more s then
      match (t.child k).or (fresh.map leaf) with
      | none => (s, t)
      | some c =>
        let v := visit i s c.data
        let r := walk fresh more visit ks (i + 1) v.1 (c.modify (fun _ => v.2))
        (r.1, t.setChild k r.2)
    else (s, t)

end Paths

mutual

/-- The data of all nodes, a node before its children. -/
def toList : Trie κ α → List α
  | node a cs => a :: toListChildren cs

def toListChildren : List (κ × Trie κ α) → List α
  | [] => []
  | (_, t) :: rest => toList t ++ toListChildren rest

end

mutual

/-- No node has two children under one key. -/
def KeysNodup : Trie κ α → Prop
  | node _ cs => (cs.map Prod.fst).Nodup ∧ KeysNodupChildren cs

def KeysNodupChildren : List (κ × Trie κ α) → Prop
  | [] => True
  | (_, t) :: rest => t.KeysNodup ∧ KeysNodupChildren rest

end

/-- The sum of a weight over all nodes. -/
def total (w : α → Nat) (t : Trie κ α) : Nat := (t.toList.map w).sum

/-! ## Reading and writing a child -/

@[simp] theorem data_modify (f : α → α) (t : Trie κ α) : (t.modify f).data = f t.data := rfl

variable [DecidableEq κ]

@[simp] theorem data_setChild (t : Trie κ α) (k : κ) (c : Trie κ α) :
    (t.setChild k c).data = t.data := rfl

@[simp] theorem child_modify (f : α → α) (t : Trie κ α) (k : κ) :
    (t.modify f).child k = t.child k := rfl

theorem entry_setEntry {β : Type} (k k' : κ) (b : β) (l : List (κ × β)) :
    entry k' (setEntry k b l) = if k' = k then some b else entry k' l := by
  induction l with
  | nil =>
      by_cases hk : k' = k
      · simp [setEntry, entry, hk]
      · simp [setEntry, entry, hk, Ne.symm hk]
  | cons e rest ih =>
      rw [setEntry]
      by_cases he : e.1 = k
      · rw [if_pos he]
        by_cases hk : k' = k
        · simp [entry, hk]
        · simp [entry, hk, Ne.symm hk, he]
      · rw [if_neg he, entry, entry, ih]
        by_cases hk : k' = k
        · simp [hk, he]
        · simp [hk]

theorem child_setChild (t : Trie κ α) (k k' : κ) (c : Trie κ α) :
    (t.setChild k c).child k' = if k' = k then some c else t.child k' :=
  entry_setEntry k k' c t.children

@[simp] theorem descend_nil (t : Trie κ α) : t.descend [] = some t := by
  rw [descend]

theorem descend_cons (t : Trie κ α) (k : κ) (ks : List κ) :
    t.descend (k :: ks) = (t.child k).bind (fun c => c.descend ks) := by
  rw [descend]
  cases t.child k <;> rfl

theorem descend_modify_cons (f : α → α) (t : Trie κ α) (k : κ) (ks : List κ) :
    (t.modify f).descend (k :: ks) = t.descend (k :: ks) := by
  rw [descend_cons, descend_cons, child_modify]

theorem descend_setChild_cons (t : Trie κ α) (k k' : κ) (c : Trie κ α) (ks : List κ) :
    (t.setChild k c).descend (k' :: ks)
      = if k' = k then c.descend ks else t.descend (k' :: ks) := by
  rw [descend_cons, child_setChild]
  split
  · rfl
  · rw [descend_cons]

theorem descend_leaf_cons (a : α) (k : κ) (ks : List κ) :
    (leaf a : Trie κ α).descend (k :: ks) = none := rfl

/-- A node that a walk reaches is a child, or a fresh leaf where there is none. -/
theorem reached_cases {t c : Trie κ α} {k : κ} {fresh : Option α}
    (h : (t.child k).or (fresh.map leaf) = some c) :
    t.child k = some c ∨ (t.child k = none ∧ ∃ a ∈ fresh, c = leaf a) := by
  cases hchild : t.child k with
  | some c₀ =>
      rw [hchild, Option.some_or] at h
      exact Or.inl h
  | none =>
      rw [hchild, Option.none_or] at h
      obtain ⟨a, ha, hc⟩ := Option.map_eq_some_iff.1 h
      exact Or.inr ⟨rfl, a, ha, hc.symm⟩

/-! ## All nodes -/

omit [DecidableEq κ] in
theorem toList_eq (t : Trie κ α) : t.toList = t.data :: toListChildren t.children := by
  cases t
  rw [toList]
  rfl

omit [DecidableEq κ] in
theorem toList_modify (f : α → α) (t : Trie κ α) :
    (t.modify f).toList = f t.data :: toListChildren t.children := toList_eq _

omit [DecidableEq κ] in
@[simp] theorem toList_leaf (a : α) : (leaf a : Trie κ α).toList = [a] := by
  rw [toList_eq]
  rfl

theorem toListChildren_setEntry_none {k : κ} {l : List (κ × Trie κ α)} (h : entry k l = none)
    (c : Trie κ α) : toListChildren (setEntry k c l) = toListChildren l ++ c.toList := by
  induction l with
  | nil => simp [setEntry, toListChildren]
  | cons e rest ih =>
      obtain ⟨k', t⟩ := e
      rw [entry] at h
      split at h
      · cases h
      · next hk =>
          rw [setEntry, if_neg hk, toListChildren, toListChildren, ih h, List.append_assoc]

theorem toListChildren_setEntry_some {k : κ} {l : List (κ × Trie κ α)} {c₀ : Trie κ α}
    (h : entry k l = some c₀) (c : Trie κ α) :
    (toListChildren (setEntry k c l) ++ c₀.toList).Perm (toListChildren l ++ c.toList) := by
  induction l with
  | nil => cases h
  | cons e rest ih =>
      obtain ⟨k', t⟩ := e
      rw [entry] at h
      split at h
      · next hk =>
          have ht : t = c₀ := Option.some.inj h
          subst ht
          rw [setEntry, if_pos hk, toListChildren, toListChildren, List.append_assoc,
            List.append_assoc]
          refine List.perm_append_comm.trans ?_
          rw [List.append_assoc]
          refine List.perm_append_comm.trans ?_
          rw [List.append_assoc]
          exact List.perm_append_comm.append_left _
      · next hk =>
          rw [setEntry, if_neg hk, toListChildren, toListChildren, List.append_assoc,
            List.append_assoc]
          exact (ih h).append_left _

/-- A new child adds its nodes. -/
theorem toList_setChild_none {t : Trie κ α} {k : κ} (h : t.child k = none) (c : Trie κ α) :
    (t.setChild k c).toList = t.toList ++ c.toList := by
  rw [toList_eq, toList_eq t, List.cons_append]
  exact congrArg (t.data :: ·) (toListChildren_setEntry_none h c)

/-- Replacing a child exchanges its nodes for the new ones. -/
theorem toList_setChild_some {t c₀ : Trie κ α} {k : κ} (h : t.child k = some c₀) (c : Trie κ α) :
    ((t.setChild k c).toList ++ c₀.toList).Perm (t.toList ++ c.toList) := by
  rw [toList_eq, toList_eq t, List.cons_append, List.cons_append]
  exact (toListChildren_setEntry_some h c).cons t.data

theorem toList_subset_of_child {t c : Trie κ α} {k : κ} (h : t.child k = some c) :
    c.toList ⊆ t.toList := by
  have hsub : ∀ l : List (κ × Trie κ α), entry k l = some c → c.toList ⊆ toListChildren l := by
    intro l hl
    induction l with
    | nil => cases hl
    | cons e rest ih =>
        obtain ⟨k', u⟩ := e
        rw [entry] at hl
        rw [toListChildren]
        split at hl
        · have hu : u = c := Option.some.inj hl
          subst hu
          exact List.subset_append_left _ _
        · exact List.Subset.trans (ih hl) (List.subset_append_right _ _)
  rw [toList_eq t]
  exact List.Subset.trans (hsub t.children h) (List.subset_cons_self _ _)

/-- Following a path leads to a node of the trie. -/
theorem data_mem_toList_of_descend {t u : Trie κ α} {ks : List κ} (h : t.descend ks = some u) :
    u.data ∈ t.toList := by
  induction ks generalizing t with
  | nil =>
      have htu : t = u := by simpa using h
      subst htu
      rw [toList_eq]
      exact List.mem_cons_self ..
  | cons k ks ih =>
      rw [descend_cons] at h
      obtain ⟨c, hc, hu⟩ := Option.bind_eq_some_iff.1 h
      exact toList_subset_of_child hc (ih hu)

/-! ## One child per key -/

omit [DecidableEq κ] in
theorem keysNodup_iff (t : Trie κ α) :
    t.KeysNodup ↔ (t.children.map Prod.fst).Nodup ∧ ∀ e ∈ t.children, e.2.KeysNodup := by
  have hall : ∀ l : List (κ × Trie κ α), KeysNodupChildren l ↔ ∀ e ∈ l, e.2.KeysNodup := by
    intro l
    induction l with
    | nil => simp [KeysNodupChildren]
    | cons e rest ih =>
        obtain ⟨k, u⟩ := e
        rw [KeysNodupChildren, ih, List.forall_mem_cons]
  cases t with
  | node a cs =>
      rw [KeysNodup, hall]
      rfl

omit [DecidableEq κ] in
theorem keysNodup_leaf (a : α) : (leaf a : Trie κ α).KeysNodup := by
  rw [keysNodup_iff]
  exact ⟨List.nodup_nil, fun e he => absurd he List.not_mem_nil⟩

omit [DecidableEq κ] in
theorem KeysNodup.modify {t : Trie κ α} (h : t.KeysNodup) (f : α → α) : (t.modify f).KeysNodup := by
  rw [keysNodup_iff] at h ⊢
  exact h

theorem mem_of_entry {β : Type} {k : κ} {b : β} {l : List (κ × β)} (h : entry k l = some b) :
    (k, b) ∈ l := by
  induction l with
  | nil => cases h
  | cons e rest ih =>
      rw [entry] at h
      split at h
      · next hk =>
          have hb : e.2 = b := Option.some.inj h
          rw [← hk, ← hb]
          exact List.mem_cons_self ..
      · exact List.mem_cons_of_mem _ (ih h)

theorem mem_setEntry {β : Type} {k : κ} {b : β} {l : List (κ × β)} {e : κ × β}
    (h : e ∈ setEntry k b l) : e = (k, b) ∨ e ∈ l := by
  induction l with
  | nil => exact Or.inl (List.mem_singleton.1 h)
  | cons x rest ih =>
      rw [setEntry] at h
      split at h
      · rcases List.mem_cons.1 h with h | h
        · exact Or.inl h
        · exact Or.inr (List.mem_cons_of_mem _ h)
      · rcases List.mem_cons.1 h with h | h
        · exact Or.inr (h ▸ List.mem_cons_self ..)
        · exact (ih h).imp_right (List.mem_cons_of_mem _)

theorem nodup_keys_setEntry {β : Type} (k : κ) (b : β) {l : List (κ × β)}
    (h : (l.map Prod.fst).Nodup) : ((setEntry k b l).map Prod.fst).Nodup := by
  induction l with
  | nil => simp [setEntry]
  | cons e rest ih =>
      rw [List.map_cons, List.nodup_cons] at h
      rw [setEntry]
      split
      · next hk =>
          rw [List.map_cons, List.nodup_cons]
          exact hk ▸ h
      · next hk =>
          rw [List.map_cons, List.nodup_cons]
          refine ⟨?_, ih h.2⟩
          intro hmem
          obtain ⟨x, hx, heq⟩ := List.mem_map.1 hmem
          rcases mem_setEntry hx with rfl | hx
          · exact hk heq.symm
          · exact h.1 (heq ▸ List.mem_map_of_mem hx)

theorem KeysNodup.child {t c : Trie κ α} {k : κ} (h : t.KeysNodup) (hc : t.child k = some c) :
    c.KeysNodup :=
  ((keysNodup_iff t).1 h).2 _ (mem_of_entry hc)

theorem KeysNodup.setChild {t c : Trie κ α} (h : t.KeysNodup) (k : κ) (hc : c.KeysNodup) :
    (t.setChild k c).KeysNodup := by
  obtain ⟨hkeys, hall⟩ := (keysNodup_iff t).1 h
  refine (keysNodup_iff _).2 ⟨nodup_keys_setEntry k c hkeys, ?_⟩
  intro e he
  rcases mem_setEntry he with rfl | he
  · exact hc
  · exact hall e he

/-! ## Sums over all nodes -/

section Total

variable (w : α → Nat)

omit [DecidableEq κ] in
@[simp] theorem total_leaf (a : α) : (leaf a : Trie κ α).total w = w a := by
  simp [total]

omit [DecidableEq κ] in
theorem le_total_of_mem {a : α} {t : Trie κ α} (h : a ∈ t.toList) : w a ≤ t.total w :=
  List.single_le_sum (fun x _ => Nat.zero_le x) _ (List.mem_map_of_mem h)

omit [DecidableEq κ] in
theorem total_modify (f : α → α) (t : Trie κ α) :
    (t.modify f).total w + w t.data = t.total w + w (f t.data) := by
  rw [total, total, toList_modify, toList_eq t]
  simp only [List.map_cons, List.sum_cons]
  omega

theorem total_setChild_none {t : Trie κ α} {k : κ} (h : t.child k = none) (c : Trie κ α) :
    (t.setChild k c).total w = t.total w + c.total w := by
  rw [total, toList_setChild_none h, List.map_append, List.sum_append]
  rfl

theorem total_setChild_some {t c₀ : Trie κ α} {k : κ} (h : t.child k = some c₀) (c : Trie κ α) :
    (t.setChild k c).total w + c₀.total w = t.total w + c.total w := by
  have hsum := ((toList_setChild_some h c).map w).sum_eq
  rw [List.map_append, List.map_append, List.sum_append, List.sum_append] at hsum
  exact hsum

/-- Writing a child in place of the old one, or of a weightless leaf that stands for a missing one. -/
theorem total_setChild {t c₀ : Trie κ α} {k : κ} {fresh : Option α}
    (hfresh : ∀ a ∈ fresh, w a = 0) (h : (t.child k).or (fresh.map leaf) = some c₀)
    (c : Trie κ α) : (t.setChild k c).total w + c₀.total w = t.total w + c.total w := by
  rcases reached_cases h with hc | ⟨hnone, a, ha, rfl⟩
  · exact total_setChild_some w hc c
  · rw [total_setChild_none w hnone, total_leaf, hfresh a ha, Nat.add_zero]

end Total

/-! ## Walks -/

section Walk

variable {σ : Type} {fresh : Option α} {more : σ → Bool} {visit : Nat → σ → α → σ × α}

theorem walk_nil (i : Nat) (s : σ) (t : Trie κ α) : walk fresh more visit [] i s t = (s, t) := rfl

/-- A step of a walk: the child reached, visited and walked on from takes the place of the old one. -/
theorem walk_step {s : σ} {t c : Trie κ α} {k : κ} (hmore : more s = true)
    (hc : (t.child k).or (fresh.map leaf) = some c) (ks : List κ) (i : Nat) :
    walk fresh more visit (k :: ks) i s t
      = ((walk fresh more visit ks (i + 1) (visit i s c.data).1
            (c.modify (fun _ => (visit i s c.data).2))).1,
          t.setChild k (walk fresh more visit ks (i + 1) (visit i s c.data).1
            (c.modify (fun _ => (visit i s c.data).2))).2) := by
  rw [walk, if_pos hmore, hc]

theorem walk_stop {s : σ} {t : Trie κ α} {k : κ}
    (h : more s = true → (t.child k).or (fresh.map leaf) = none) (ks : List κ) (i : Nat) :
    walk fresh more visit (k :: ks) i s t = (s, t) := by
  rw [walk]
  split
  · next hmore => rw [h hmore]
  · rfl

/-- A walk goes one step on or stops. -/
theorem walk_cases (fresh : Option α) (more : σ → Bool) (s : σ) (t : Trie κ α) (k : κ) :
    (more s = true ∧ ∃ c, (t.child k).or (fresh.map leaf) = some c) ∨
      (more s = true → (t.child k).or (fresh.map leaf) = none) := by
  by_cases hmore : more s = true
  · cases hc : (t.child k).or (fresh.map leaf) with
    | none => exact Or.inr (fun _ => rfl)
    | some c => exact Or.inl ⟨hmore, c, rfl⟩
  · exact Or.inr (fun h => absurd h hmore)

@[simp] theorem data_walk (ks : List κ) (i : Nat) (s : σ) (t : Trie κ α) :
    (walk fresh more visit ks i s t).2.data = t.data := by
  cases ks with
  | nil => rfl
  | cons k ks =>
      rcases walk_cases fresh more s t k with ⟨hmore, c, hc⟩ | hstop
      · rw [walk_step hmore hc, data_setChild]
      · rw [walk_stop hstop]

/-- A property of the state that every visit preserves holds at the end of the walk. -/
theorem walk_invariant {P : σ → Prop} (hvisit : ∀ i s a, more s = true → P s → P (visit i s a).1)
    (ks : List κ) (i : Nat) {s : σ} (t : Trie κ α) (hs : P s) :
    P (walk fresh more visit ks i s t).1 := by
  induction ks generalizing i s t with
  | nil => exact hs
  | cons k ks ih =>
      rcases walk_cases fresh more s t k with ⟨hmore, c, hc⟩ | hstop
      · rw [walk_step hmore hc]
        exact ih _ _ (hvisit i s c.data hmore hs)
      · rw [walk_stop hstop]
        exact hs

theorem KeysNodup.walk {t : Trie κ α} (h : t.KeysNodup) (ks : List κ) (i : Nat) (s : σ) :
    (walk fresh more visit ks i s t).2.KeysNodup := by
  induction ks generalizing i s t with
  | nil => exact h
  | cons k ks ih =>
      rcases walk_cases fresh more s t k with ⟨hmore, c, hc⟩ | hstop
      · have hcKeys : c.KeysNodup := by
          rcases reached_cases hc with hchild | ⟨-, a, -, rfl⟩
          · exact h.child hchild
          · exact keysNodup_leaf a
        rw [walk_step hmore hc]
        exact h.setChild k (ih (hcKeys.modify _) _ _)
      · rw [walk_stop hstop]
        exact h

/-- What every visit leaves of a node's data is the same along every path after a walk that creates
    nothing. -/
theorem descend_walk_map {β : Type} (f : α → β) (hvisit : ∀ i s a, f (visit i s a).2 = f a)
    (ks : List κ) (i : Nat) (s : σ) (t : Trie κ α) (q : List κ) :
    ((walk none more visit ks i s t).2.descend q).map (fun u => f u.data)
      = (t.descend q).map (fun u => f u.data) := by
  induction ks generalizing i s t q with
  | nil => rfl
  | cons k ks ih =>
      rcases walk_cases none more s t k with ⟨hmore, c, hc⟩ | hstop
      · have hchild : t.child k = some c := by simpa using hc
        rw [walk_step hmore hc]
        cases q with
        | nil => simp
        | cons k' q =>
            rw [descend_setChild_cons]
            split
            · next hk =>
                subst hk
                rw [ih, descend_cons, hchild, Option.bind_some]
                cases q with
                | nil => simp [hvisit]
                | cons k₂ q => rw [descend_modify_cons]
            · rfl
      · rw [walk_stop hstop]

/-- What can be read at the end of a path. -/
def readAt {β : Type} (read : α → Option β) (t : Trie κ α) (q : List κ) : Option β :=
  (t.descend q).bind (fun u => read u.data)

section ReadAt

variable {β : Type} {read : α → Option β} {t c : Trie κ α} {k : κ}

theorem readAt_nil (t : Trie κ α) : readAt read t [] = read t.data := by
  simp [readAt]

theorem readAt_setChild (t c : Trie κ α) (k k' : κ) (q : List κ) :
    readAt read (t.setChild k c) (k' :: q)
      = if k' = k then readAt read c q else readAt read t (k' :: q) := by
  rw [readAt, descend_setChild_cons]
  split <;> rfl

theorem readAt_modify (t : Trie κ α) (f : α → α) {q : List κ} (hq : q ≠ []) :
    readAt read (t.modify f) q = readAt read t q := by
  cases q with
  | nil => exact absurd rfl hq
  | cons k q => rw [readAt, descend_modify_cons, ← readAt]

/-- Below a child, or below the blank node that stands for a missing child. -/
theorem readAt_child (hfresh : ∀ a ∈ fresh, read a = none)
    (hc : (t.child k).or (fresh.map leaf) = some c) (q : List κ) :
    readAt read t (k :: q) = readAt read c q := by
  rw [readAt, descend_cons]
  rcases reached_cases hc with hchild | ⟨hnone, a, ha, rfl⟩
  · rw [hchild, Option.bind_some, readAt]
  · rw [hnone]
    cases q with
    | nil =>
        rw [readAt_nil]
        exact (hfresh a ha).symm
    | cons k' q => rw [readAt, descend_leaf_cons]; rfl

/-- A walk that fills in values where nothing could be read: after it, the nodes of the walk read as
    before or else as the value of their depth. `I` is what the state satisfies at each depth. -/
theorem readAt_walk_fill {a₀ : α} (value : Nat → Option β) (I : Nat → σ → Prop)
    (hfresh : read a₀ = none)
    (hnext : ∀ i s a, more s = true → I i s → I (i + 1) (visit i s a).1)
    (hvisit : ∀ i s a, more s = true → I i s →
      read (visit i s a).2 = (read a).or (value (i + 1)))
    (hend : ∀ i s n, more s = false → I i s → 0 < n → value (i + n) = none)
    (ks : List κ) (i : Nat) (s : σ) (t : Trie κ α) (hI : I i s) {q : List κ} (hq : q ≠ []) :
    readAt read (walk (some a₀) more visit ks i s t).2 q
      = (readAt read t q).or (if q <+: ks then value (i + q.length) else none) := by
  induction ks generalizing i s t q with
  | nil => rw [walk_nil, if_neg (fun h => hq (List.prefix_nil.1 h)), Option.or_none]
  | cons k ks ih =>
      rcases walk_cases (some a₀) more s t k with ⟨hmore, c, hc⟩ | hstop
      · rw [walk_step hmore hc]
        cases q with
        | nil => exact absurd rfl hq
        | cons k' q =>
            rw [readAt_setChild]
            by_cases hk : k' = k
            · subst hk
              rw [if_pos rfl, readAt_child (by simpa using hfresh) hc]
              cases q with
              | nil =>
                  rw [readAt_nil, data_walk, data_modify, hvisit i s c.data hmore hI, readAt_nil]
                  simp
              | cons k₂ q =>
                  have hne : k₂ :: q ≠ [] := List.cons_ne_nil _ _
                  rw [ih (i + 1) _ _ (hnext i s c.data hmore hI) hne, readAt_modify _ _ hne]
                  simp only [List.cons_prefix_cons, true_and, List.length_cons]
                  rw [show i + 1 + (q.length + 1) = i + (q.length + 1 + 1) by omega]
            · rw [if_neg hk, if_neg (fun h => hk (List.cons_prefix_cons.1 h).1), Option.or_none]
      · -- the walk has a node for every key, so it is the state that stops it
        have hless : more s = false := by
          by_contra hmore
          have hnone := hstop (Bool.eq_true_of_not_eq_false hmore)
          simp at hnone
        rw [walk_stop hstop, hend i s q.length hless hI (List.length_pos_iff.2 hq), ite_self,
          Option.or_none]

/-- A walk over the whole path that creates nothing and rewrites what it passes: after it, the nodes of
    the path read as before up to the rewriting of their depth. -/
theorem readAt_walk_rewrite (rewrite : Nat → β → β)
    (hvisit : ∀ i s a, read (visit i s a).2 = (read a).map (rewrite (i + 1)))
    (ks : List κ) (i : Nat) (s : σ) (t : Trie κ α) {q : List κ} (hq : q ≠ []) :
    readAt read (walk none (fun _ => true) visit ks i s t).2 q
      = (readAt read t q).map (fun b => if q <+: ks then rewrite (i + q.length) b else b) := by
  induction ks generalizing i s t q with
  | nil => simp [walk_nil, hq]
  | cons k ks ih =>
      rcases walk_cases none (fun _ : σ => true) s t k with ⟨hmore, c, hc⟩ | hstop
      · rw [walk_step hmore hc]
        cases q with
        | nil => exact absurd rfl hq
        | cons k' q =>
            rw [readAt_setChild]
            by_cases hk : k' = k
            · subst hk
              rw [if_pos rfl, readAt_child (by simp) hc]
              cases q with
              | nil =>
                  rw [readAt_nil, data_walk, data_modify, hvisit i s c.data, readAt_nil]
                  simp
              | cons k₂ q =>
                  have hne : k₂ :: q ≠ [] := List.cons_ne_nil _ _
                  rw [ih (i + 1) _ _ hne, readAt_modify _ _ hne]
                  simp only [List.cons_prefix_cons, true_and, List.length_cons]
                  rw [show i + 1 + (q.length + 1) = i + (q.length + 1 + 1) by omega]
            · simp [hk, List.cons_prefix_cons]
      · -- nothing lies below a missing child
        rw [walk_stop hstop]
        cases q with
        | nil => exact absurd rfl hq
        | cons k' q =>
            by_cases hk : k' = k
            · subst hk
              have hchild : t.child k' = none := by simpa using hstop rfl
              simp [readAt, descend_cons, hchild]
            · simp [hk, List.cons_prefix_cons]

end ReadAt

/-! ### Stamps -/

/-- The nodes of a trie, its root apart, are stamped with different times up to `n`. -/
structure Stamped (read : α → Option Nat) (n : Nat) (t : Trie κ α) : Prop where
  le : ∀ {q x}, q ≠ [] → readAt read t q = some x → x ≤ n
  inj : ∀ {q q' x}, q ≠ [] → q' ≠ [] → readAt read t q = some x → readAt read t q' = some x → q = q'

section Stamped

variable {read : α → Option Nat} {t c : Trie κ α} {k : κ} {n : Nat}

theorem Stamped.mono (h : Stamped read n t) {n' : Nat} (hn : n ≤ n') : Stamped read n' t :=
  ⟨fun hq hx => (h.le hq hx).trans hn, h.inj⟩

theorem Stamped.modify (h : Stamped read n t) (f : α → α) : Stamped read n (t.modify f) := by
  refine ⟨?_, ?_⟩
  · intro q x hq hx
    rw [readAt_modify t f hq] at hx
    exact h.le hq hx
  · intro q q' x hq hq' hx hx'
    rw [readAt_modify t f hq] at hx
    rw [readAt_modify t f hq'] at hx'
    exact h.inj hq hq' hx hx'

/-- The trie below a child. -/
theorem Stamped.child (h : Stamped read n t) (hfresh : ∀ a ∈ fresh, read a = none)
    (hc : (t.child k).or (fresh.map leaf) = some c) : Stamped read n c := by
  refine ⟨?_, ?_⟩
  · intro q x _ hx
    rw [← readAt_child hfresh hc] at hx
    exact h.le (List.cons_ne_nil k q) hx
  · intro q q' x _ _ hx hx'
    rw [← readAt_child hfresh hc] at hx hx'
    exact (List.cons.inj (h.inj (List.cons_ne_nil k q) (List.cons_ne_nil k q') hx hx')).2

/-- What a walk may do to the stamps: those it leaves are old, or were handed out by its clock. -/
structure Ticks (read : α → Option Nat) (clock : σ → Nat) (more : σ → Bool)
    (visit : Nat → σ → α → σ × α) : Prop where
  le : ∀ i s a, more s = true → clock s ≤ clock (visit i s a).1
  stamp : ∀ i s a x, more s = true → read (visit i s a).2 = some x →
    read a = some x ∨ (clock s < x ∧ x ≤ clock (visit i s a).1)

variable {clock : σ → Nat}

theorem Ticks.walk_le (h : Ticks read clock more visit) (fresh : Option α) (ks : List κ) (i : Nat)
    (s : σ) (t : Trie κ α) : clock s ≤ clock (walk fresh more visit ks i s t).1 := by
  refine walk_invariant (P := fun s' => clock s ≤ clock s') ?_ ks i t (Nat.le_refl _)
  intro i s' a hmore hs
  exact hs.trans (h.le i s' a hmore)

/-- A stamp found after a walk is old or was handed out on the way. -/
theorem Ticks.walk_cases (h : Ticks read clock more visit) (hfresh : ∀ a ∈ fresh, read a = none)
    (ks : List κ) (i : Nat) (s : σ) (t : Trie κ α) {q : List κ} (hq : q ≠ []) {x : Nat}
    (hx : readAt read (walk fresh more visit ks i s t).2 q = some x) :
    readAt read t q = some x ∨ (clock s < x ∧ x ≤ clock (walk fresh more visit ks i s t).1) := by
  induction ks generalizing i s t q with
  | nil => exact Or.inl hx
  | cons k ks ih =>
      rcases Trie.walk_cases fresh more s t k with ⟨hmore, c, hc⟩ | hstop
      · rw [walk_step hmore hc] at hx ⊢
        have hle := h.le i s c.data hmore
        cases q with
        | nil => exact absurd rfl hq
        | cons k' q =>
            rw [readAt_setChild] at hx
            by_cases hk : k' = k
            · subst hk
              rw [if_pos rfl] at hx
              rw [readAt_child hfresh hc]
              have hrest := h.walk_le fresh ks (i + 1) (visit i s c.data).1
                (c.modify (fun _ => (visit i s c.data).2))
              cases q with
              | nil =>
                  rw [readAt_nil, data_walk, data_modify] at hx
                  rw [readAt_nil]
                  rcases h.stamp i s c.data x hmore hx with hold | ⟨hlt, hle'⟩
                  · exact Or.inl hold
                  · exact Or.inr ⟨hlt, hle'.trans hrest⟩
              | cons k₂ q =>
                  have hne : k₂ :: q ≠ [] := List.cons_ne_nil _ _
                  rcases ih (i + 1) _ _ hne hx with hold | ⟨hlt, hle'⟩
                  · rw [readAt_modify _ _ hne] at hold
                    exact Or.inl hold
                  · exact Or.inr ⟨Nat.lt_of_le_of_lt hle hlt, hle'⟩
            · rw [if_neg hk] at hx
              exact Or.inl hx
      · rw [walk_stop hstop] at hx
        exact Or.inl hx

/-- Writing a child whose stamps are different, and are old or late. -/
theorem Stamped.setChild (h : Stamped read n t) {n' : Nat} (hn : n ≤ n')
    (hinj : ∀ {q q' x}, readAt read c q = some x → readAt read c q' = some x → q = q')
    (hcases : ∀ {q x}, readAt read c q = some x →
      readAt read t (k :: q) = some x ∨ (n < x ∧ x ≤ n')) : Stamped read n' (t.setChild k c) := by
  -- a path of the new trie leads below the child, or the old stamp is found there
  have hread : ∀ {q x}, q ≠ [] → readAt read (t.setChild k c) q = some x →
      (∃ q₁, q = k :: q₁ ∧ readAt read c q₁ = some x) ∨ readAt read t q = some x := by
    intro q x hq hx
    cases q with
    | nil => exact absurd rfl hq
    | cons k' q =>
        rw [readAt_setChild] at hx
        by_cases hk : k' = k
        · subst hk
          rw [if_pos rfl] at hx
          exact Or.inl ⟨q, rfl, hx⟩
        · rw [if_neg hk] at hx
          exact Or.inr hx
  -- an old stamp below the child and one elsewhere are those of one path
  have hmix : ∀ {q q' x}, q' ≠ [] → readAt read c q = some x → readAt read t q' = some x →
      k :: q = q' := by
    intro q q' x hq' hx hx'
    rcases hcases hx with hold | ⟨hlt, -⟩
    · exact h.inj (List.cons_ne_nil k q) hq' hold hx'
    · exact absurd (h.le hq' hx') (Nat.not_le.2 hlt)
  refine ⟨?_, ?_⟩
  · intro q x hq hx
    rcases hread hq hx with ⟨q₁, rfl, hx₁⟩ | hold
    · rcases hcases hx₁ with hold | ⟨-, hle⟩
      · exact (h.le (List.cons_ne_nil k q₁) hold).trans hn
      · exact hle
    · exact (h.le hq hold).trans hn
  · intro q q' x hq hq' hx hx'
    rcases hread hq hx with ⟨q₁, rfl, hx₁⟩ | hold <;>
      rcases hread hq' hx' with ⟨q₂, rfl, hx₂⟩ | hold'
    · rw [hinj hx₁ hx₂]
    · exact hmix hq' hx₁ hold'
    · exact (hmix hq hx₂ hold).symm
    · exact h.inj hq hq' hold hold'

/-- Stamps that differ below the root, and from that of the root, differ everywhere. -/
theorem Stamped.inj_of_root (h : Stamped read n t)
    (hroot : ∀ {q x}, q ≠ [] → readAt read t [] = some x → readAt read t q ≠ some x) {q q' : List κ}
    {x : Nat} (hx : readAt read t q = some x) (hx' : readAt read t q' = some x) : q = q' := by
  by_cases hq : q = []
  · subst hq
    by_contra hne
    exact hroot (Ne.symm hne) hx hx'
  · by_cases hq' : q' = []
    · subst hq'
      exact absurd hx (hroot hq hx')
    · exact h.inj hq hq' hx hx'

/-- The stamps at a child that a walk visits and walks on from are old or from the clock; the child has its
    stamp before what lies below it. -/
theorem Ticks.child_cases (h : Ticks read clock more visit) (hfresh : ∀ a ∈ fresh, read a = none)
    {s : σ} (hmore : more s = true) (hc : (t.child k).or (fresh.map leaf) = some c) (ks : List κ) (i : Nat)
    {q : List κ} {x : Nat}
    (hx : readAt read (walk fresh more visit ks (i + 1) (visit i s c.data).1
      (c.modify (fun _ => (visit i s c.data).2))).2 q = some x) :
    readAt read t (k :: q) = some x ∨
      (clock s < x ∧ x ≤ clock (walk fresh more visit ks (i + 1) (visit i s c.data).1
          (c.modify (fun _ => (visit i s c.data).2))).1 ∧
        (q = [] ↔ x ≤ clock (visit i s c.data).1)) := by
  have hle := h.le i s c.data hmore
  have hrest := h.walk_le fresh ks (i + 1) (visit i s c.data).1
    (c.modify (fun _ => (visit i s c.data).2))
  rw [readAt_child hfresh hc]
  by_cases hq : q = []
  · subst hq
    rw [readAt_nil, data_walk, data_modify] at hx
    rw [readAt_nil]
    refine (h.stamp i s c.data x hmore hx).imp_right ?_
    rintro ⟨hlt, hvisit⟩
    exact ⟨hlt, hvisit.trans hrest, iff_of_true rfl hvisit⟩
  · rcases h.walk_cases hfresh ks (i + 1) _ _ hq hx with hold | ⟨hlt, hend⟩
    · rw [readAt_modify _ _ hq] at hold
      exact Or.inl hold
    · exact Or.inr ⟨Nat.lt_of_le_of_lt hle hlt, hend, iff_of_false hq (Nat.not_le.2 hlt)⟩

/-- A walk keeps the stamps different. -/
theorem Stamped.walk (h : Ticks read clock more visit) (hfresh : ∀ a ∈ fresh, read a = none)
    (ks : List κ) (i : Nat) (s : σ) {t : Trie κ α} (ht : Stamped read (clock s) t) :
    Stamped read (clock (Trie.walk fresh more visit ks i s t).1)
      (Trie.walk fresh more visit ks i s t).2 := by
  induction ks generalizing i s t with
  | nil => exact ht
  | cons k ks ih =>
      rcases Trie.walk_cases fresh more s t k with ⟨hmore, c, hc⟩ | hstop
      · rw [walk_step hmore hc]
        have hle := h.le i s c.data hmore
        have hbelow := ih (i + 1) (visit i s c.data).1
          (((ht.child hfresh hc).modify (fun _ => (visit i s c.data).2)).mono hle)
        have hrest := h.walk_le fresh ks (i + 1) (visit i s c.data).1
          (c.modify (fun _ => (visit i s c.data).2))
        refine ht.setChild (hle.trans hrest) ?_ ?_
        · refine hbelow.inj_of_root ?_
          intro q x hq hx hx'
          -- two old stamps are those of one path, and the clock gives none twice
          rcases h.child_cases hfresh hmore hc ks i hx with hold | ⟨hlt, -, hroot⟩ <;>
            rcases h.child_cases hfresh hmore hc ks i hx' with hold' | ⟨hlt', -, hroot'⟩
          · have heq := ht.inj (List.cons_ne_nil k []) (List.cons_ne_nil k q) hold hold'
            exact hq (List.cons.inj heq).2.symm
          · exact absurd (ht.le (List.cons_ne_nil k []) hold) (Nat.not_le.2 hlt')
          · exact absurd (ht.le (List.cons_ne_nil k q) hold') (Nat.not_le.2 hlt)
          · exact hq (hroot'.2 (hroot.1 rfl))
        · intro q x hx
          refine (h.child_cases hfresh hmore hc ks i hx).imp_right ?_
          rintro ⟨hlt, hend, -⟩
          exact ⟨hlt, hend⟩
      · rw [walk_stop hstop]
        exact ht

end Stamped

/-- A sum over all nodes that grows at each visit as `g` of the state does, grows over the whole walk
    as `g` does. -/
theorem total_walk (w : α → Nat) (g : σ → Nat) (hfresh : ∀ a ∈ fresh, w a = 0)
    (hvisit : ∀ i s a, more s = true → w (visit i s a).2 + g s = w a + g (visit i s a).1)
    (ks : List κ) (i : Nat) (s : σ) (t : Trie κ α) :
    (walk fresh more visit ks i s t).2.total w + g s
      = t.total w + g (walk fresh more visit ks i s t).1 := by
  induction ks generalizing i s t with
  | nil => rfl
  | cons k ks ih =>
      rcases walk_cases fresh more s t k with ⟨hmore, c, hc⟩ | hstop
      · rw [walk_step hmore hc]
        have hset := total_setChild w hfresh hc (walk fresh more visit ks (i + 1)
          (visit i s c.data).1 (c.modify (fun _ => (visit i s c.data).2))).2
        have hrest := ih (i + 1) (visit i s c.data).1 (c.modify (fun _ => (visit i s c.data).2))
        have hmod := total_modify w (fun _ => (visit i s c.data).2) c
        have hv := hvisit i s c.data hmore
        simp only at hset hrest ⊢
        omega
      · rw [walk_stop hstop]

end Walk

end Trie
