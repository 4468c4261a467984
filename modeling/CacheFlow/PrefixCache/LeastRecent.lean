import CacheFlow.Lib.Oldest
import CacheFlow.PrefixCache.Closure

set_option autoImplicit false

/-! # The least recently used blocks

`evict_lru(n)` collects the nodes that have a block and no user, sorts them by access time and block id, and
gives back the references of the first `n`. The nodes are collected in the order of hash maps. Since no two
nodes with a block have the same access time, neither that order nor the block ids matter: the nodes are
the `n` oldest ones, and these are determined by the access times (`Oldest.unique`). -/

namespace CacheFlow.PrefixCache

/-- The access time of an evictable node. -/
def idleSince (n : PrefixTrieNode) : Option Nat := if evictable n = true then some n.lastAccess else none

/-- The access times of the evictable nodes, by their paths. -/
def idleTime (pc : PrefixCache) : List TokenId → Option Nat := Trie.readAt idleSince pc.root

/-- The number of evictable nodes. -/
def numIdle (pc : PrefixCache) : Nat := pc.root.toList.countP evictable

/-- The candidates among the nodes `visited`. -/
def candidatesOf (visited : List PrefixTrieNode) : List (Nat × BlockId) :=
  (visited.filter evictable).map (fun n => (n.lastAccess, n.blockId))

/-- The candidates as `evict_lru` may have them after its sort: collected in any order in which the hash
    maps can be visited, sorted by access time in any way. -/
structure Ranking (pc : PrefixCache) (ranking : List (Nat × BlockId)) : Prop where
  visited : ∃ l, Trie.Visits pc.root l ∧ ranking.Perm (candidatesOf l)
  sorted : ranking.Pairwise (fun a b => a.1 ≤ b.1)

/-- One call of `decrement_ref` for each block, as in the loop of `evict_lru`. -/
def dropBlocks (pc : PrefixCache) (bm : BlockManager) (blocks : List BlockId) :
    PrefixCache × BlockManager :=
  ({ pc with stats := blocks.foldl (fun stats _ => stats.evicted) pc.stats },
   blocks.foldl (fun bm bid => bm.decrementRef bid .cuda) bm)

theorem evictLru_eq (pc : PrefixCache) (bm : BlockManager) (n : Nat) :
    pc.evictLru bm n = pc.dropBlocks bm ((pc.sortedCandidates.take n).map Prod.snd) := by
  rw [evictLru, dropBlocks, List.foldl_map, List.foldl_map, evictionVictims_eq]

/-- The order of the model is one of those possible. -/
theorem ranking_sortedCandidates (pc : PrefixCache) : pc.Ranking pc.sortedCandidates := by
  refine ⟨⟨pc.root.toList, Trie.visits_toList pc.root, List.perm_insertionSort _ _⟩, ?_⟩
  refine pc.sortedCandidates_pairwise.imp ?_
  rintro a b (hlt | ⟨heq, -⟩) <;> omega

/-! ## Evictable nodes and their paths -/

/-- The evictable nodes with their paths. -/
def idleEntries (pc : PrefixCache) : List (List TokenId × PrefixTrieNode) :=
  pc.root.entries.filter (fun e => evictable e.2)

/-- What `evict_lru` collects of a node. -/
def candidate (e : List TokenId × PrefixTrieNode) : Nat × BlockId := (e.2.lastAccess, e.2.blockId)

theorem map_candidate_idleEntries (pc : PrefixCache) :
    pc.idleEntries.map candidate = candidatesOf pc.root.toList := by
  rw [candidatesOf, ← Trie.map_snd_entries, List.filter_map, List.map_map]
  rfl

theorem length_idleEntries (pc : PrefixCache) : pc.idleEntries.length = pc.numIdle := by
  rw [numIdle, ← Trie.map_snd_entries, List.countP_map, List.countP_eq_length_filter]
  rfl

theorem nodup_map_fst_idleEntries {pc : PrefixCache} (h : pc.root.KeysNodup) :
    (pc.idleEntries.map Prod.fst).Nodup :=
  (Trie.nodup_map_fst_entries pc.root h).sublist (List.filter_sublist.map Prod.fst)

theorem mem_idleEntries {pc : PrefixCache} (h : pc.root.KeysNodup) {e : List TokenId × PrefixTrieNode} :
    e ∈ pc.idleEntries ↔ (pc.root.descend e.1).map Trie.data = some e.2 ∧ evictable e.2 = true := by
  rw [idleEntries, List.mem_filter, ← Trie.mem_entries_iff pc.root h]

/-- What is known of the path of an evictable node. -/
theorem readAt_of_mem_idleEntries {pc : PrefixCache} (h : pc.root.KeysNodup)
    {e : List TokenId × PrefixTrieNode} (he : e ∈ pc.idleEntries) :
    pc.idleTime e.1 = some e.2.lastAccess ∧
      Trie.readAt accessTime pc.root e.1 = some e.2.lastAccess ∧
      blockAt pc.root e.1 = some e.2.blockId := by
  obtain ⟨hdescend, hev⟩ := (mem_idleEntries h).1 he
  obtain ⟨u, hu, hdata⟩ := Option.map_eq_some_iff.1 hdescend
  have hvalid : e.2.blockId ≠ invalidBlock := (of_decide_eq_true hev).1
  refine ⟨?_, ?_, ?_⟩
  · rw [idleTime, Trie.readAt, hu, Option.bind_some, hdata, idleSince, if_pos hev]
  · rw [Trie.readAt, hu, Option.bind_some, hdata]
    exact accessTime_eq_some.2 ⟨hvalid, rfl⟩
  · rw [blockAt, hu, Option.map_some, Option.bind_some, hdata]
    exact recorded_eq_some.2 ⟨rfl, hvalid⟩

theorem mem_map_fst_idleEntries {pc : PrefixCache} (h : pc.root.KeysNodup) (q : List TokenId) :
    q ∈ pc.idleEntries.map Prod.fst ↔ (pc.idleTime q).isSome := by
  constructor
  · intro hq
    obtain ⟨e, he, rfl⟩ := List.mem_map.1 hq
    rw [(readAt_of_mem_idleEntries h he).1]
    rfl
  · intro hq
    rw [idleTime, Trie.readAt] at hq
    cases hu : pc.root.descend q with
    | none =>
        rw [hu] at hq
        cases hq
    | some u =>
        rw [hu, Option.bind_some, idleSince] at hq
        split at hq
        · next hev =>
            have he : (q, u.data) ∈ pc.idleEntries := by
              rw [mem_idleEntries h, hu]
              exact ⟨rfl, hev⟩
            exact List.mem_map_of_mem (f := Prod.fst) he
        · cases hq

/-- The evictable nodes are counted by their paths. -/
theorem numIdle_congr {pc pc' : PrefixCache} (h : pc.root.KeysNodup) (h' : pc'.root.KeysNodup)
    (htimes : pc'.idleTime = pc.idleTime) : pc'.numIdle = pc.numIdle := by
  have hperm : (pc'.idleEntries.map Prod.fst).Perm (pc.idleEntries.map Prod.fst) := by
    rw [List.perm_ext_iff_of_nodup (nodup_map_fst_idleEntries h') (nodup_map_fst_idleEntries h)]
    intro q
    rw [mem_map_fst_idleEntries h', mem_map_fst_idleEntries h, htimes]
  have hlen := hperm.length_eq
  rw [List.length_map, List.length_map, length_idleEntries, length_idleEntries] at hlen
  exact hlen

/-- The evictable nodes in the order of their access times. -/
def idleByAge (pc : PrefixCache) : List (List TokenId × PrefixTrieNode) :=
  pc.idleEntries.insertionSort (fun e e' => e.2.lastAccess ≤ e'.2.lastAccess)

theorem idleByAge_perm (pc : PrefixCache) : pc.idleByAge.Perm pc.idleEntries :=
  List.perm_insertionSort _ _

theorem idleByAge_pairwise (pc : PrefixCache) :
    pc.idleByAge.Pairwise (fun e e' => e.2.lastAccess ≤ e'.2.lastAccess) := by
  have htotal : Std.Total (fun e e' : List TokenId × PrefixTrieNode =>
      e.2.lastAccess ≤ e'.2.lastAccess) := ⟨fun _ _ => Nat.le_total _ _⟩
  have htrans : IsTrans (List TokenId × PrefixTrieNode) (fun e e' =>
      e.2.lastAccess ≤ e'.2.lastAccess) := ⟨fun _ _ _ => Nat.le_trans⟩
  exact List.pairwise_insertionSort _ _

namespace System

/-! ## Evictions along a run -/

section TimesDiffer

variable {st : System} (h : TimesDiffer st)

include h

/-- An evictable node is determined by its access time. -/
theorem TimesDiffer.idle_inj {e e' : List TokenId × PrefixTrieNode} (he : e ∈ st.cache.idleEntries)
    (he' : e' ∈ st.cache.idleEntries) (heq : e.2.lastAccess = e'.2.lastAccess) : e = e' := by
  have hread := (readAt_of_mem_idleEntries h.keys he).2.1
  rw [heq] at hread
  have hpath : e.1 = e'.1 := h.inj hread (readAt_of_mem_idleEntries h.keys he').2.1
  exact List.inj_on_of_nodup_map (nodup_map_fst_idleEntries h.keys) he he' hpath

/-- Every order of visits and every sort by access time give the same ranking. -/
theorem TimesDiffer.ranking_eq {ranking : List (Nat × BlockId)} (hranking : st.cache.Ranking ranking) :
    ranking = st.cache.idleByAge.map candidate := by
  obtain ⟨l, hl, hperm⟩ := hranking.visited
  have hcollected : (candidatesOf l).Perm (candidatesOf st.cache.root.toList) :=
    (hl.perm.filter evictable).map _
  rw [← map_candidate_idleEntries] at hcollected
  have hall : ranking.Perm (st.cache.idleByAge.map candidate) :=
    hperm.trans (hcollected.trans ((st.cache.idleByAge_perm.map candidate).symm))
  refine hall.eq_of_pairwise ?_ hranking.sorted (List.pairwise_map.2 st.cache.idleByAge_pairwise)
  intro a b ha hb hle hge
  rw [hall.mem_iff] at ha
  obtain ⟨e, he, rfl⟩ := List.mem_map.1 ha
  obtain ⟨e', he', rfl⟩ := List.mem_map.1 hb
  rw [st.cache.idleByAge_perm.mem_iff] at he he'
  rw [h.idle_inj he he' (Nat.le_antisymm hle hge)]

theorem TimesDiffer.idleByAge_earlier :
    (st.cache.idleByAge.map Prod.fst).Pairwise (Earlier st.cache.idleTime) := by
  rw [List.pairwise_map]
  have hnodup : st.cache.idleByAge.Nodup :=
    st.cache.idleByAge_perm.nodup_iff.2 (List.Nodup.of_map Prod.fst (nodup_map_fst_idleEntries h.keys))
  refine (st.cache.idleByAge_pairwise.and hnodup).imp_of_mem ?_
  rintro e e' he he' ⟨hle, hne⟩ x hx x' hx'
  rw [st.cache.idleByAge_perm.mem_iff] at he he'
  rw [(readAt_of_mem_idleEntries h.keys he).1, Option.mem_some_iff] at hx
  rw [(readAt_of_mem_idleEntries h.keys he').1, Option.mem_some_iff] at hx'
  have htimes : e.2.lastAccess ≠ e'.2.lastAccess := fun heq => hne (h.idle_inj he he' heq)
  omega

end TimesDiffer

/-- `evict_lru(n)` gives back the references for the nodes at the ends of the paths `qs`: these are the
    least recently used ones, and the calls of `decrement_ref` are for their blocks, in this order, whatever
    the order of the hash maps. -/
structure EvictsAt (st : System) (n : Nat) (qs : List (List TokenId)) : Prop where
  oldest : Oldest st.cache.idleTime (min n st.cache.numIdle) qs
  calls : ∃ blocks : List BlockId, qs.map (blockAt st.cache.root) = blocks.map some ∧
    st.cache.evictLru st.bm n = st.cache.dropBlocks st.bm blocks ∧
    ∀ ranking, st.cache.Ranking ranking → (ranking.take n).map Prod.snd = blocks

theorem TimesDiffer.evictsAt {st : System} (h : TimesDiffer st) (n : Nat) :
    EvictsAt st n ((st.cache.idleByAge.map Prod.fst).take n) := by
  have hmem : ∀ q, q ∈ st.cache.idleByAge.map Prod.fst ↔ (st.cache.idleTime q).isSome := by
    intro q
    rw [(st.cache.idleByAge_perm.map Prod.fst).mem_iff, mem_map_fst_idleEntries h.keys]
  have hlen : (st.cache.idleByAge.map Prod.fst).length = st.cache.numIdle := by
    rw [List.length_map, st.cache.idleByAge_perm.length_eq, length_idleEntries]
  refine ⟨?_, (st.cache.idleByAge.take n).map (fun e => e.2.blockId), ?_, ?_, ?_⟩
  · rw [← hlen]
    exact Oldest.of_sorted hmem h.idleByAge_earlier n
  · rw [← List.map_take, List.map_map, List.map_map]
    apply List.map_congr_left
    intro e he
    have hidle := st.cache.idleByAge_perm.mem_iff.1 (List.mem_of_mem_take he)
    exact (readAt_of_mem_idleEntries h.keys hidle).2.2
  · rw [evictLru_eq, h.ranking_eq st.cache.ranking_sortedCandidates, ← List.map_take, List.map_map]
    rfl
  · intro ranking hranking
    rw [h.ranking_eq hranking, ← List.map_take, List.map_map]
    rfl

/-- **`evict_lru` takes the least recently used blocks.** In every state that a run reaches, no two nodes
    with a block have the same access time, and `evict_lru(n)` gives back the references for the `min n c`
    oldest of the `c` evictable nodes, in the order of their access times. Which nodes these are depends
    on the access times of the evictable nodes alone: it is the same in all states that a run reaches
    and that have these times, whatever their blocks. -/
theorem evicts_least_recent (config : CacheConfig) (ops : List Op) (n : Nat) :
    (∀ q q' x, Trie.readAt accessTime (ops.foldl step (init config)).cache.root q = some x →
      Trie.readAt accessTime (ops.foldl step (init config)).cache.root q' = some x → q = q') ∧
    ∃ qs, EvictsAt (ops.foldl step (init config)) n qs ∧
      ∀ (config' : CacheConfig) (ops' : List Op),
        (ops'.foldl step (init config')).cache.idleTime = (ops.foldl step (init config)).cache.idleTime →
        EvictsAt (ops'.foldl step (init config')) n qs := by
  have hdiffer := run_timesDiffer config ops
  refine ⟨fun q q' x hx hx' => hdiffer.inj hx hx', _, hdiffer.evictsAt n, ?_⟩
  intro config' ops' htimes
  have hdiffer' := run_timesDiffer config' ops'
  have hnum := numIdle_congr hdiffer.keys hdiffer'.keys htimes
  -- the oldest paths of both states are the same
  have hsame := (hdiffer'.evictsAt n).oldest
  rw [htimes, hnum] at hsame
  rw [(hdiffer.evictsAt n).oldest.unique hsame]
  exact hdiffer'.evictsAt n

/-- Two prompts of one block, both released; the older one has the larger block id. -/
example :
    ([Op.insert [5] [1], .insert [6] [0], .release [5], .release [6]].foldl step
      (init { numGpuBlocks := 2, numCpuBlocks := 1, blockSize := 1 })).cache.evictionVictims 2
      = [(1, 1), (2, 0)] := by
  decide

end System

end CacheFlow.PrefixCache
