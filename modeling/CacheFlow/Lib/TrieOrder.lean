import CacheFlow.Lib.Trie
import Mathlib.Data.List.Nodup

set_option autoImplicit false

/-! # The nodes of a trie, with their paths and in any order

`entries` lists the nodes with the paths that lead to them. `Visits t l` says that a recursion which takes
the children of every node in some order of its own meets the nodes in the order `l`: a trie whose children
are kept in a hash map is visited so. All these orders have the same nodes (`Visits.perm`). -/

namespace Trie

variable {κ α : Type}

mutual

/-- The nodes with their paths. -/
def entries : Trie κ α → List (List κ × α)
  | node a cs => ([], a) :: entriesChildren cs

def entriesChildren : List (κ × Trie κ α) → List (List κ × α)
  | [] => []
  | (k, t) :: rest => (entries t).map (Prod.map (List.cons k) id) ++ entriesChildren rest

end

mutual

theorem map_snd_entries : ∀ t : Trie κ α, t.entries.map Prod.snd = t.toList
  | node a cs => by
      rw [entries, toList, List.map_cons, map_snd_entriesChildren cs]

theorem map_snd_entriesChildren : ∀ l : List (κ × Trie κ α),
    (entriesChildren l).map Prod.snd = toListChildren l
  | [] => by
      rw [entriesChildren, toListChildren]
      rfl
  | (k, t) :: rest => by
      have hcons : Prod.snd ∘ Prod.map (List.cons k) id = (Prod.snd : List κ × α → α) := rfl
      rw [entriesChildren, toListChildren, List.map_append, List.map_map, hcons, map_snd_entries t,
        map_snd_entriesChildren rest]

end

/-- A path among those of the children starts with a key. -/
theorem exists_cons_of_mem_entriesChildren {l : List (κ × Trie κ α)} {e : List κ × α}
    (h : e ∈ entriesChildren l) : ∃ k ks, e.1 = k :: ks ∧ k ∈ l.map Prod.fst := by
  induction l with
  | nil =>
      rw [entriesChildren] at h
      cases h
  | cons c rest ih =>
      obtain ⟨k, t⟩ := c
      rw [entriesChildren, List.mem_append] at h
      rcases h with h | h
      · obtain ⟨e', -, rfl⟩ := List.mem_map.1 h
        exact ⟨k, e'.1, rfl, List.mem_cons_self ..⟩
      · obtain ⟨k', ks, heq, hk⟩ := ih h
        exact ⟨k', ks, heq, List.mem_cons_of_mem _ hk⟩

mutual

/-- Different nodes have different paths. -/
theorem nodup_map_fst_entries : ∀ t : Trie κ α, t.KeysNodup → (t.entries.map Prod.fst).Nodup
  | node a cs, h => by
      rw [KeysNodup] at h
      rw [entries, List.map_cons, List.nodup_cons]
      refine ⟨?_, nodup_map_fst_entriesChildren cs h.1 h.2⟩
      intro hmem
      obtain ⟨e, he, hnil⟩ := List.mem_map.1 hmem
      obtain ⟨k, ks, hcons, -⟩ := exists_cons_of_mem_entriesChildren he
      rw [hnil] at hcons
      cases hcons

theorem nodup_map_fst_entriesChildren : ∀ l : List (κ × Trie κ α), (l.map Prod.fst).Nodup →
    KeysNodupChildren l → ((entriesChildren l).map Prod.fst).Nodup
  | [], _, _ => by
      rw [entriesChildren]
      exact List.nodup_nil
  | (k, t) :: rest, hkeys, hall => by
      rw [KeysNodupChildren] at hall
      rw [List.map_cons, List.nodup_cons] at hkeys
      have hcons : Prod.fst ∘ Prod.map (List.cons k) id
          = List.cons k ∘ (Prod.fst : List κ × α → List κ) := rfl
      rw [entriesChildren, List.map_append, List.map_map, hcons, ← List.map_map, List.nodup_append]
      refine ⟨?_, nodup_map_fst_entriesChildren rest hkeys.2 hall.2, ?_⟩
      · exact List.Nodup.map List.cons_injective (nodup_map_fst_entries t hall.1)
      · -- the first key tells the two parts from each other
        intro q hq q' hq' heq
        obtain ⟨ks, -, rfl⟩ := List.mem_map.1 hq
        obtain ⟨e, he, rfl⟩ := List.mem_map.1 hq'
        obtain ⟨k', ks', hcons', hk'⟩ := exists_cons_of_mem_entriesChildren he
        rw [hcons', List.cons.injEq] at heq
        rw [← heq.1] at hk'
        exact hkeys.1 hk'

end

section Paths

variable [DecidableEq κ]

mutual

/-- The entries are the nodes at the ends of the paths. -/
theorem mem_entries_iff : ∀ (t : Trie κ α), t.KeysNodup → ∀ (q : List κ) (a : α),
    (q, a) ∈ t.entries ↔ (t.descend q).map data = some a
  | node b cs, h, [], a => by
      rw [entries, List.mem_cons, descend_nil]
      constructor
      · rintro (heq | hmem)
        · cases heq
          rfl
        · obtain ⟨k, ks, hcons, -⟩ := exists_cons_of_mem_entriesChildren hmem
          cases hcons
      · intro hdata
        cases hdata
        exact Or.inl rfl
  | node b cs, h, k :: q, a => by
      rw [KeysNodup] at h
      rw [entries, List.mem_cons, descend_cons, Option.map_bind]
      have hchildren := mem_entriesChildren_iff cs h.1 h.2 k q a
      constructor
      · rintro (heq | hmem)
        · cases heq
        · exact hchildren.1 hmem
      · intro hdata
        exact Or.inr (hchildren.2 hdata)

theorem mem_entriesChildren_iff : ∀ (l : List (κ × Trie κ α)), (l.map Prod.fst).Nodup →
    KeysNodupChildren l → ∀ (k : κ) (q : List κ) (a : α),
    (k :: q, a) ∈ entriesChildren l ↔ (entry k l).bind (fun c => (c.descend q).map data) = some a
  | [], _, _, k, q, a => by
      rw [entriesChildren, entry]
      constructor
      · intro hmem
        cases hmem
      · intro hdata
        cases hdata
  | (k', t) :: rest, hkeys, hall, k, q, a => by
      rw [KeysNodupChildren] at hall
      rw [List.map_cons, List.nodup_cons] at hkeys
      have hrest := mem_entriesChildren_iff rest hkeys.2 hall.2 k q a
      have hfirst := mem_entries_iff t hall.1 q a
      rw [entriesChildren, List.mem_append, entry]
      by_cases hk : k' = k
      · subst hk
        have hnone : (k' :: q, a) ∉ entriesChildren rest := by
          intro hmem
          obtain ⟨k, ks, hcons, hk⟩ := exists_cons_of_mem_entriesChildren hmem
          cases hcons
          exact hkeys.1 hk
        rw [if_pos rfl, Option.bind_some, ← hfirst]
        constructor
        · rintro (hmem | hmem)
          · obtain ⟨e, he, heq⟩ := List.mem_map.1 hmem
            obtain ⟨q', a'⟩ := e
            cases heq
            exact he
          · exact absurd hmem hnone
        · intro hmem
          exact Or.inl (List.mem_map.2 ⟨(q, a), hmem, rfl⟩)
      · rw [if_neg hk, ← hrest]
        constructor
        · rintro (hmem | hmem)
          · obtain ⟨e, -, heq⟩ := List.mem_map.1 hmem
            exact absurd (List.cons.inj (Prod.mk.inj heq).1).1 hk
          · exact hmem
        · exact Or.inr

end

/-- Every node is the end of a path. -/
theorem exists_descend_of_mem {t : Trie κ α} (h : t.KeysNodup) {a : α} (ha : a ∈ t.toList) :
    ∃ q u, t.descend q = some u ∧ u.data = a := by
  rw [← map_snd_entries] at ha
  obtain ⟨⟨q, b⟩, he, rfl⟩ := List.mem_map.1 ha
  obtain ⟨u, hu, hdata⟩ := Option.map_eq_some_iff.1 ((mem_entries_iff t h q b).1 he)
  exact ⟨q, u, hu, hdata⟩

end Paths

/-! ## Orders of visits -/

mutual

/-- The nodes of a trie in an order in which a recursion can meet them. -/
inductive Visits : Trie κ α → List α → Prop
  | node {a : α} {cs order : List (κ × Trie κ α)} {l : List α} (horder : order.Perm cs)
      (hl : VisitsChildren order l) : Visits (.node a cs) (a :: l)

/-- The same for the children of a node, once their order is fixed. -/
inductive VisitsChildren : List (κ × Trie κ α) → List α → Prop
  | nil : VisitsChildren [] []
  | cons {k : κ} {t : Trie κ α} {rest : List (κ × Trie κ α)} {l l' : List α} (hl : Visits t l)
      (hl' : VisitsChildren rest l') : VisitsChildren ((k, t) :: rest) (l ++ l')

end

mutual

/-- The order of `toList` is one of them. -/
theorem visits_toList : ∀ t : Trie κ α, Visits t t.toList
  | node a cs => by
      rw [toList]
      exact .node (List.Perm.refl _) (visitsChildren_toListChildren cs)

theorem visitsChildren_toListChildren : ∀ l : List (κ × Trie κ α),
    VisitsChildren l (toListChildren l)
  | [] => by
      rw [toListChildren]
      exact .nil
  | (k, t) :: rest => by
      rw [toListChildren]
      exact .cons (visits_toList t) (visitsChildren_toListChildren rest)

end

theorem toListChildren_eq_flatMap (l : List (κ × Trie κ α)) :
    toListChildren l = l.flatMap (fun e => e.2.toList) := by
  induction l with
  | nil => rw [toListChildren, List.flatMap_nil]
  | cons e rest ih => rw [toListChildren, List.flatMap_cons, ih]

mutual

/-- **Every order of visits meets the same nodes.** -/
theorem Visits.perm {t : Trie κ α} {l : List α} : Visits t l → l.Perm t.toList
  | .node horder hl => by
      rw [toList, toListChildren_eq_flatMap]
      have hmet := VisitsChildren.perm hl
      rw [toListChildren_eq_flatMap] at hmet
      exact (hmet.trans (horder.flatMap_right _)).cons _

theorem VisitsChildren.perm {cs : List (κ × Trie κ α)} {l : List α} :
    VisitsChildren cs l → l.Perm (toListChildren cs)
  | .nil => by
      rw [toListChildren]
  | .cons hl hl' => by
      rw [toListChildren]
      exact (Visits.perm hl).append (VisitsChildren.perm hl')

end

end Trie
