import CacheFlow.PrefixCache.System
import Mathlib.Data.List.Induction

set_option autoImplicit false

/-! # Which prefixes an eviction leaves cached

A cached prefix is of use only while the shorter prefixes on its path are cached too: `lookup` counts
every token up to the last block it finds as matched. So an eviction is to take a prefix no earlier
than the longer ones that depend on it.

`evict_lru` goes by access times alone. A walk stamps the nodes of its path in passing, so a prefix is
older than the longer ones accessed with it and is taken first. The times of two nodes are never the
same (`times_stamped`), which makes the order of the evictions the order of the times. An eviction of
any size then leaves no orphan exactly if every evictable node was accessed later than all nodes below
it that are still cached, and these are evictable too.

The cache keeps no record of the references it has given back, so what is still cached is read off the
run: a node that records a block and was not the victim of an eviction. -/

namespace CacheFlow.PrefixCache

/-! ## Victims -/

/-- `evict_lru(n)` drops the reference on the block of the node for `q`. -/
def Drops (pc : PrefixCache) (n : Nat) (q : List TokenId) : Prop :=
  ∃ u, pc.root.descend q = some u ∧ evictable u.data = true ∧
    (u.data.lastAccess, u.data.blockId) ∈ pc.evictionVictims n

instance (pc : PrefixCache) (n : Nat) (q : List TokenId) : Decidable (pc.Drops n q) :=
  inferInstanceAs (Decidable (∃ u ∈ pc.root.descend q, evictable u.data = true ∧
    (u.data.lastAccess, u.data.blockId) ∈ pc.evictionVictims n))

/-- The order of `std::pair`. -/
def pairLe (a b : Nat × BlockId) : Prop := a.1 < b.1 ∨ (a.1 = b.1 ∧ a.2 ≤ b.2)

instance : DecidableRel pairLe := fun a b =>
  inferInstanceAs (Decidable (a.1 < b.1 ∨ (a.1 = b.1 ∧ a.2 ≤ b.2)))

instance : Std.Total pairLe where
  total a b := by
    rcases Nat.lt_trichotomy a.1 b.1 with h | h | h
    · exact Or.inl (Or.inl h)
    · exact (Int.le_total a.2 b.2).imp (fun h' => Or.inr ⟨h, h'⟩) (fun h' => Or.inr ⟨h.symm, h'⟩)
    · exact Or.inr (Or.inl h)

instance : IsTrans (Nat × BlockId) pairLe where
  trans a b c hab hbc := by
    rcases hab with h | ⟨h, hle⟩ <;> rcases hbc with h' | ⟨h', hle'⟩
    · exact Or.inl (h.trans h')
    · exact Or.inl (h' ▸ h)
    · exact Or.inl (h ▸ h')
    · exact Or.inr ⟨h.trans h', hle.trans hle'⟩

/-- The candidates in the order in which they are dropped. -/
def sortedCandidates (pc : PrefixCache) : List (Nat × BlockId) :=
  (collectEvictionCandidates pc.root).insertionSort pairLe

theorem evictionVictims_eq (pc : PrefixCache) (n : Nat) :
    pc.evictionVictims n = pc.sortedCandidates.take n := rfl

theorem sortedCandidates_pairwise (pc : PrefixCache) : pc.sortedCandidates.Pairwise pairLe :=
  List.pairwise_insertionSort _ _

/-- An evictable node is a candidate. -/
theorem mem_sortedCandidates (pc : PrefixCache) {q : List TokenId}
    {u : Trie TokenId PrefixTrieNode} (hu : pc.root.descend q = some u)
    (hev : evictable u.data = true) :
    (u.data.lastAccess, u.data.blockId) ∈ pc.sortedCandidates := by
  rw [sortedCandidates, List.mem_insertionSort, collectEvictionCandidates, List.mem_map]
  exact ⟨u.data, List.mem_filter.2 ⟨Trie.data_mem_toList_of_descend hu, hev⟩, rfl⟩

/-- An older candidate is dropped before a younger one. -/
theorem mem_evictionVictims_of_lt (pc : PrefixCache) {n : Nat} {x y : Nat × BlockId}
    (hx : x ∈ pc.evictionVictims n) (hy : y ∈ pc.sortedCandidates) (hlt : y.1 < x.1) :
    y ∈ pc.evictionVictims n := by
  rw [evictionVictims_eq] at hx ⊢
  have hsplit := List.take_append_drop n pc.sortedCandidates
  rw [← hsplit, List.mem_append] at hy
  refine hy.resolve_right (fun hdrop => ?_)
  have hsorted := pc.sortedCandidates_pairwise
  rw [← hsplit] at hsorted
  have hle := (List.pairwise_append.1 hsorted).2.2 x hx y hdrop
  rcases hle with h | ⟨h, -⟩ <;> omega

/-- Some eviction drops a candidate last. -/
theorem exists_last_victim (pc : PrefixCache) {x : Nat × BlockId} (hx : x ∈ pc.sortedCandidates) :
    ∃ n, x ∈ pc.evictionVictims n ∧ ∀ y ∈ pc.evictionVictims n, y.1 ≤ x.1 := by
  obtain ⟨older, younger, hsplit⟩ := List.append_of_mem hx
  have htake : pc.evictionVictims (older.length + 1) = older ++ [x] := by
    rw [evictionVictims_eq, hsplit]
    simp [List.take_append]
  have hsorted := pc.sortedCandidates_pairwise
  rw [hsplit] at hsorted
  refine ⟨older.length + 1, by rw [htake]; simp, ?_⟩
  intro y hy
  rw [htake, List.mem_append, List.mem_singleton] at hy
  rcases hy with hy | rfl
  · have hle := (List.pairwise_append.1 hsorted).2.2 y hy x (List.mem_cons_self ..)
    rcases hle with h | ⟨h, -⟩ <;> omega
  · exact Nat.le_refl _

/-! ## Access times -/

/-- The access time of a node that records a block. -/
def accessTime (n : PrefixTrieNode) : Option Nat :=
  if n.blockId = invalidBlock then none else some n.lastAccess

theorem accessTime_eq_some {n : PrefixTrieNode} {x : Nat} :
    accessTime n = some x ↔ n.blockId ≠ invalidBlock ∧ n.lastAccess = x := by
  unfold accessTime
  split
  · next h => simp [h]
  · next h => simp [h]

theorem lookup_ticks (bs : Nat) : Trie.Ticks accessTime LookupState.accessClock (fun _ => true)
    (lookupVisit bs) := by
  refine ⟨?_, ?_⟩
  · intro i s n _
    unfold lookupVisit
    split
    · exact Nat.le_succ _
    · exact Nat.le_refl _
  · intro i s n x _ hx
    unfold lookupVisit at hx ⊢
    split at hx
    · next hcond =>
        rw [if_pos hcond]
        obtain ⟨-, rfl⟩ := accessTime_eq_some.1 hx
        exact Or.inr ⟨Nat.lt_succ_self _, Nat.le_refl _⟩
    · exact Or.inl hx

theorem insert_ticks (bs : Nat) (blocks : List BlockId) :
    Trie.Ticks accessTime InsertState.accessClock (blocksLeft blocks) (insertVisit bs blocks) := by
  refine ⟨?_, ?_⟩
  · intro i s n _
    unfold insertVisit
    split
    · split
      · exact Nat.le_succ _
      · exact Nat.le_succ _
    · exact Nat.le_refl _
  · intro i s n x _ hx
    unfold insertVisit at hx ⊢
    split at hx
    · next hcond =>
        rw [if_pos hcond]
        split at hx
        · next hempty =>
            rw [if_pos hempty]
            obtain ⟨-, rfl⟩ := accessTime_eq_some.1 hx
            exact Or.inr ⟨Nat.lt_succ_self _, Nat.le_refl _⟩
        · next hempty =>
            rw [if_neg hempty]
            obtain ⟨-, rfl⟩ := accessTime_eq_some.1 hx
            exact Or.inr ⟨Nat.lt_succ_self _, Nat.le_refl _⟩
    · exact Or.inl hx

/-- A release reads no clock. -/
theorem release_ticks (bs n : Nat) : Trie.Ticks accessTime (fun _ : Unit => n) (fun _ => true)
    (releaseVisit bs) := by
  refine ⟨fun _ _ _ _ => Nat.le_refl _, ?_⟩
  intro i s node x _ hx
  unfold releaseVisit at hx
  split at hx
  · exact Or.inl hx
  · exact Or.inl hx

namespace System

/-- No two nodes were accessed at the same time, and the root records no block. -/
structure TimesDiffer (st : System) : Prop where
  keys : st.cache.root.KeysNodup
  root : st.cache.root.data.blockId = invalidBlock
  stamped : Trie.Stamped accessTime st.cache.accessClock st.cache.root

theorem init_timesDiffer (config : CacheConfig) : TimesDiffer (init config) := by
  refine ⟨Trie.keysNodup_leaf _, rfl, ?_, ?_⟩
  · intro q x hq hx
    cases q with
    | nil => exact absurd rfl hq
    | cons k q => cases hx
  · intro q q' x hq _ hx _
    cases q with
    | nil => exact absurd rfl hq
    | cons k q => cases hx

theorem step_timesDiffer {st : System} (op : Op) (h : TimesDiffer st) :
    TimesDiffer (st.step op) := by
  cases op with
  | allocateBlock s d => exact ⟨h.keys, h.root, h.stamped⟩
  | freeBlocks s => exact ⟨h.keys, h.root, h.stamped⟩
  | insert tokens blocks =>
      have hfresh : ∀ n ∈ some ({} : PrefixTrieNode), accessTime n = none := by simp [accessTime]
      refine ⟨h.keys.walk tokens 0 _, ?_, ?_⟩
      · exact (congrArg PrefixTrieNode.blockId (Trie.data_walk tokens 0 _ st.cache.root)).trans h.root
      · exact Trie.Stamped.walk (insert_ticks st.cache.config.blockSize blocks) hfresh tokens 0
          { accessClock := st.cache.accessClock } h.stamped
  | lookup query =>
      have hfresh : ∀ n ∈ (none : Option PrefixTrieNode), accessTime n = none := by simp
      refine ⟨h.keys.walk query 0 _, ?_, ?_⟩
      · exact (congrArg PrefixTrieNode.blockId (Trie.data_walk query 0 _ st.cache.root)).trans h.root
      · exact Trie.Stamped.walk (lookup_ticks st.cache.config.blockSize) hfresh query 0
          { accessClock := st.cache.accessClock } h.stamped
  | release query =>
      have hfresh : ∀ n ∈ (none : Option PrefixTrieNode), accessTime n = none := by simp
      refine ⟨h.keys.walk query 0 _, ?_, ?_⟩
      · exact (congrArg PrefixTrieNode.blockId (Trie.data_walk query 0 _ st.cache.root)).trans h.root
      · exact Trie.Stamped.walk (release_ticks st.cache.config.blockSize st.cache.accessClock)
          hfresh query 0 () h.stamped
  | evictLru n => exact ⟨h.keys, h.root, h.stamped⟩
  | resetStats => exact ⟨h.keys, h.root, h.stamped⟩

theorem run_timesDiffer (config : CacheConfig) (ops : List Op) :
    TimesDiffer (ops.foldl step (init config)) := by
  induction ops using List.reverseRecOn with
  | nil => exact init_timesDiffer config
  | append_singleton ops op ih =>
      rw [List.foldl_append]
      exact step_timesDiffer op ih

/-- In the run from `st` the reference on the block of the node for `q` was dropped. -/
def DroppedIn (q : List TokenId) : System → List Op → Prop
  | _, [] => False
  | st, op :: ops => (∃ n, op = .evictLru n ∧ st.cache.Drops n q) ∨ DroppedIn q (st.step op) ops

theorem droppedIn_concat {q : List TokenId} {st : System} {ops : List Op} {n : Nat} :
    DroppedIn q st (ops ++ [.evictLru n]) ↔
      DroppedIn q st ops ∨ (ops.foldl step st).cache.Drops n q := by
  induction ops generalizing st with
  | nil =>
      constructor
      · rintro (⟨m, heq, hdrop⟩ | hnone)
        · cases heq
          exact Or.inr hdrop
        · exact absurd hnone id
      · rintro (hnone | hdrop)
        · exact absurd hnone id
        · exact Or.inl ⟨n, rfl, hdrop⟩
  | cons op ops ih =>
      rw [List.cons_append, DroppedIn, DroppedIn, ih, List.foldl_cons, or_assoc]

/-- After the run the node for `q` holds a cached block: it records one and the cache still has its
    reference. -/
def StillCached (config : CacheConfig) (ops : List Op) (q : List TokenId) : Prop :=
  blockAt (ops.foldl step (init config)).cache.root q ≠ none ∧ ¬ DroppedIn q (init config) ops

/-- `q'` is a longer prefix than `q` that ends at a block boundary. -/
def Extends (config : CacheConfig) (q q' : List TokenId) : Prop :=
  q <+: q' ∧ q ≠ q' ∧ config.blockSize ∣ q'.length

/-- After the run an eviction of any size leaves no cached prefix without the shorter ones. -/
def EvictsClosed (config : CacheConfig) (ops : List Op) : Prop :=
  ∀ n q, (ops.foldl step (init config)).cache.Drops n q →
    ∀ q', Extends config q q' → ¬ StillCached config (ops ++ [.evictLru n]) q'

/-- After the run the cached nodes below an evictable one are evictable and were accessed before it. -/
def OlderBelow (config : CacheConfig) (ops : List Op) : Prop :=
  ∀ q q' u u', (ops.foldl step (init config)).cache.root.descend q = some u →
    evictable u.data = true → Extends config q q' → StillCached config ops q' →
    (ops.foldl step (init config)).cache.root.descend q' = some u' →
    evictable u'.data = true ∧ u'.data.lastAccess < u.data.lastAccess

/-- A node that records a block has an access time of its own. -/
theorem TimesDiffer.inj {st : System} (h : TimesDiffer st) {q q' : List TokenId} {x : Nat}
    (hx : Trie.readAt accessTime st.cache.root q = some x)
    (hx' : Trie.readAt accessTime st.cache.root q' = some x) : q = q' := by
  have hroot : Trie.readAt accessTime st.cache.root [] = none := by
    simp [Trie.readAt_nil, accessTime, h.root]
  have hne : ∀ {q}, Trie.readAt accessTime st.cache.root q = some x → q ≠ [] := by
    rintro q hread rfl
    rw [hroot] at hread
    cases hread
  exact h.stamped.inj (hne hx) (hne hx') hx hx'

theorem TimesDiffer.lastAccess_ne {st : System} (h : TimesDiffer st) {q q' : List TokenId}
    {u u' : Trie TokenId PrefixTrieNode} (hu : st.cache.root.descend q = some u)
    (hev : evictable u.data = true) (hu' : st.cache.root.descend q' = some u')
    (hev' : evictable u'.data = true) (hne : q ≠ q') :
    u.data.lastAccess ≠ u'.data.lastAccess := by
  have hread : ∀ {q u}, st.cache.root.descend q = some u → evictable u.data = true →
      Trie.readAt accessTime st.cache.root q = some u.data.lastAccess := by
    intro q u hu hev
    rw [Trie.readAt, hu]
    exact accessTime_eq_some.2 ⟨(of_decide_eq_true hev).1, rfl⟩
  intro heq
  have hx := hread hu hev
  rw [heq] at hx
  exact hne (h.inj hx (hread hu' hev'))

/-- **Evictions leave the cached prefixes closed exactly if longer prefixes are older.** In every state
    a run reaches, an eviction of any size drops a prefix only together with, or after, all longer
    prefixes that are cached, if and only if the cached nodes below every evictable node are
    evictable and were accessed before it. -/
theorem evicts_closed_iff (config : CacheConfig) (ops : List Op) :
    EvictsClosed config ops ↔ OlderBelow config ops := by
  have hdiffer := run_timesDiffer config ops
  constructor
  · intro hclosed q q' u u' hu hev hext hcached hu'
    -- the eviction whose last victim is `q`
    obtain ⟨n, hvictim, hlast⟩ := exists_last_victim _ (mem_sortedCandidates _ hu hev)
    have hgone := hclosed n q ⟨u, hu, hev, hvictim⟩ q' hext
    have hdropped : DroppedIn q' (init config) (ops ++ [.evictLru n]) := by
      by_contra hkept
      refine hgone ⟨?_, hkept⟩
      rw [List.foldl_append]
      exact hcached.1
    obtain ⟨u₁, hu₁, hev', hvictim'⟩ := (droppedIn_concat.1 hdropped).resolve_left hcached.2
    have hsame : u₁ = u' := Option.some.inj (hu₁.symm.trans hu')
    subst hsame
    have hle : u₁.data.lastAccess ≤ u.data.lastAccess := hlast _ hvictim'
    have hne := hdiffer.lastAccess_ne hu' hev' hu hev (Ne.symm hext.2.1)
    exact ⟨hev', by omega⟩
  · rintro holder n q ⟨u, hu, hev, hvictim⟩ q' hext ⟨hblock, hkept⟩
    rw [droppedIn_concat, not_or] at hkept
    rw [List.foldl_append] at hblock
    -- the eviction leaves the trie alone
    have hblock' : blockAt (ops.foldl step (init config)).cache.root q' ≠ none := hblock
    cases hu' : (ops.foldl step (init config)).cache.root.descend q' with
    | none =>
        rw [blockAt, hu'] at hblock'
        exact hblock' rfl
    | some u' =>
        obtain ⟨hev', hlt⟩ := holder q q' u u' hu hev hext ⟨hblock', hkept.1⟩ hu'
        exact hkept.2 ⟨u', hu', hev',
          mem_evictionVictims_of_lt _ hvictim (mem_sortedCandidates _ hu' hev') hlt⟩

/-- A prompt of two blocks, cached by sequence 1 and released. -/
def releasedPrompt : List Op :=
  [.allocateBlock 1 .cuda, .allocateBlock 1 .cuda, .insert [5, 6, 7, 8] [0, 1],
    .release [5, 6, 7, 8], .freeBlocks 1]

/-- Evicting one block takes the first block of the prompt and leaves the second. -/
theorem releasedPrompt_orphan :
    ¬ EvictsClosed { numGpuBlocks := 2, numCpuBlocks := 1, blockSize := 2 } releasedPrompt := by
  intro hclosed
  refine hclosed 1 [5, 6] (by decide) [5, 6, 7, 8] ⟨by decide, by decide, by decide⟩ ⟨by decide, ?_⟩
  rw [droppedIn_concat, not_or]
  exact ⟨by simp [releasedPrompt, DroppedIn], by decide⟩

end System

end CacheFlow.PrefixCache
