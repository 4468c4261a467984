import CacheFlow.PrefixCache
import Mathlib.Data.List.GetD

set_option autoImplicit false

/-! # The blocks recorded in the trie

What the three walks of the prefix cache do to the recorded blocks, seen in two ways. Along a path:
`blockAt` reads the block at the end of a token path; `lookup` and `release` leave it alone everywhere,
`insert` fills it where it is still empty. Over all nodes: `recording` counts the nodes that record a
block; it grows by exactly the references `insert` takes.

The result of `lookup` is a list of `hits`, the block boundaries of the query at which a block is
recorded. -/

namespace CacheFlow.PrefixCache

/-- A block id as a node stores it, `INVALID_BLOCK` standing for none. -/
def recorded (b : BlockId) : Option BlockId := if b = invalidBlock then none else some b

/-- The block recorded at the end of a path. -/
def blockAt (t : Trie TokenId PrefixTrieNode) (q : List TokenId) : Option BlockId :=
  ((t.descend q).map (fun u => u.data.blockId)).bind recorded

/-- The number of nodes that record a block. -/
def recording (t : Trie TokenId PrefixTrieNode) (b : BlockId) : Nat :=
  t.total (fun n => if n.blockId = b then 1 else 0)

theorem recorded_eq_some {b b' : BlockId} : recorded b = some b' ↔ b = b' ∧ b ≠ invalidBlock := by
  unfold recorded
  split
  · next h => simp [h]
  · next h => simp [h]

section Paths

variable {t : Trie TokenId PrefixTrieNode} {k : TokenId}

theorem blockAt_nil (t : Trie TokenId PrefixTrieNode) : blockAt t [] = recorded t.data.blockId := by
  simp [blockAt]

theorem blockAt_eq_readAt (t : Trie TokenId PrefixTrieNode) (q : List TokenId) :
    blockAt t q = Trie.readAt (fun n => recorded n.blockId) t q := by
  rw [blockAt, Trie.readAt]
  cases t.descend q <;> rfl

theorem blockAt_modify (t : Trie TokenId PrefixTrieNode) (f : PrefixTrieNode → PrefixTrieNode)
    {q : List TokenId} (hq : q ≠ []) : blockAt (t.modify f) q = blockAt t q := by
  rw [blockAt_eq_readAt, blockAt_eq_readAt, Trie.readAt_modify t f hq]

theorem blockAt_of_child_none (h : t.child k = none) (q : List TokenId) :
    blockAt t (k :: q) = none := by
  rw [blockAt, Trie.descend_cons, h]
  rfl

end Paths

/-! ## Lookup and release -/

theorem lookupVisit_blockId (bs i : Nat) (s : LookupState) (n : PrefixTrieNode) :
    (lookupVisit bs i s n).2.blockId = n.blockId := by
  unfold lookupVisit
  split <;> rfl

theorem releaseVisit_blockId (bs i : Nat) (n : PrefixTrieNode) :
    (releaseVisit bs i () n).2.blockId = n.blockId := by
  unfold releaseVisit
  split <;> rfl

/-- A walk that creates no node and keeps the block of every node it visits keeps all blocks. -/
theorem blockAt_walk {σ : Type} {more : σ → Bool}
    {visit : Nat → σ → PrefixTrieNode → σ × PrefixTrieNode}
    (hvisit : ∀ i s n, (visit i s n).2.blockId = n.blockId) (ks : List TokenId) (i : Nat) (s : σ)
    (t : Trie TokenId PrefixTrieNode) (q : List TokenId) :
    blockAt (Trie.walk none more visit ks i s t).2 q = blockAt t q := by
  rw [blockAt, Trie.descend_walk_map PrefixTrieNode.blockId hvisit, blockAt]

theorem recording_walk {σ : Type} {more : σ → Bool}
    {visit : Nat → σ → PrefixTrieNode → σ × PrefixTrieNode}
    (hvisit : ∀ i s n, (visit i s n).2.blockId = n.blockId) (ks : List TokenId) (i : Nat) (s : σ)
    (t : Trie TokenId PrefixTrieNode) (b : BlockId) :
    recording (Trie.walk none more visit ks i s t).2 b = recording t b := by
  refine Trie.total_walk _ (fun _ => 0) (by simp) (fun i s n _ => ?_) ks i s t
  rw [hvisit]

variable (pc : PrefixCache)

theorem blockAt_lookup (query q : List TokenId) :
    blockAt (pc.lookup query).2.root q = blockAt pc.root q :=
  blockAt_walk (lookupVisit_blockId _) query 0 _ pc.root q

theorem blockAt_release (query q : List TokenId) :
    blockAt (pc.release query).root q = blockAt pc.root q :=
  blockAt_walk (fun i _ n => releaseVisit_blockId _ i n) query 0 _ pc.root q

theorem recording_lookup (query : List TokenId) (b : BlockId) :
    recording (pc.lookup query).2.root b = recording pc.root b :=
  recording_walk (lookupVisit_blockId _) query 0 _ pc.root b

theorem recording_release (query : List TokenId) (b : BlockId) :
    recording (pc.release query).root b = recording pc.root b :=
  recording_walk (fun i _ n => releaseVisit_blockId _ i n) query 0 _ pc.root b

/-! ## The result of a lookup -/

/-- The boundaries of a query at which the trie records a block, each with its block; the query starts
    at a node reached after `i` tokens. -/
def hits (bs : Nat) (t : Trie TokenId PrefixTrieNode) (i : Nat) (query : List TokenId) :
    List (Nat × BlockId) :=
  (List.range query.length).filterMap (fun j =>
    if bs ∣ i + (j + 1) then (blockAt t (query.take (j + 1))).map (Prod.mk (i + (j + 1))) else none)

theorem hits_cons (bs : Nat) {t c : Trie TokenId PrefixTrieNode} {k : TokenId}
    (hc : t.child k = some c) (i : Nat) (query : List TokenId) :
    hits bs t i (k :: query)
      = (if bs ∣ i + 1 then (recorded c.data.blockId).map (Prod.mk (i + 1)) else none).toList
        ++ hits bs c (i + 1) query := by
  have hbelow : ∀ q, blockAt t (k :: q) = blockAt c q := by
    intro q
    rw [blockAt, Trie.descend_cons, hc, Option.bind_some, blockAt]
  have hshift : ∀ j, i + (j + 1 + 1) = i + 1 + (j + 1) := fun j => by omega
  rw [hits, List.length_cons, List.range_succ_eq_map, List.filterMap_cons, List.filterMap_map]
  simp only [Function.comp_def, List.take_succ_cons, hbelow, List.take_zero, blockAt_nil, hshift,
    Nat.zero_add]
  rw [← hits]
  generalize (if bs ∣ i + 1 then (recorded c.data.blockId).map (Prod.mk (i + 1)) else none) = o
  cases o <;> rfl

theorem hits_congr (bs : Nat) {t t' : Trie TokenId PrefixTrieNode} {i : Nat}
    (h : ∀ q, q ≠ [] → bs ∣ i + q.length → blockAt t' q = blockAt t q) (query : List TokenId) :
    hits bs t' i query = hits bs t i query := by
  refine List.filterMap_congr ?_
  intro j hj
  have hlen : (query.take (j + 1)).length = j + 1 := by
    rw [List.length_take, Nat.min_eq_left (List.mem_range.1 hj)]
  split
  · next hdvd =>
      rw [h _ (List.ne_nil_of_length_eq_add_one hlen) (by rw [hlen]; exact hdvd)]
  · rfl

/-- A lookup collects the hits and matches up to the last one. -/
theorem lookupWalk_result (bs : Nat) (query : List TokenId) (i : Nat) (s : LookupState)
    (t : Trie TokenId PrefixTrieNode) :
    (Trie.walk none (fun _ => true) (lookupVisit bs) query i s t).1.result
      = { cachedBlocks := s.result.cachedBlocks ++ (hits bs t i query).map Prod.snd,
          matchedTokens :=
            ((hits bs t i query).getLast?.map Prod.fst).getD s.result.matchedTokens } := by
  induction query generalizing i s t with
  | nil => simp [Trie.walk_nil, hits]
  | cons k query ih =>
      rcases Trie.walk_cases none (fun _ : LookupState => true) s t k with ⟨hmore, c, hc⟩ | hstop
      · have hchild : t.child k = some c := by simpa using hc
        rw [Trie.walk_step hmore hc, ih, hits_cons bs hchild,
          hits_congr bs (fun q hq _ => blockAt_modify c _ hq)]
        unfold lookupVisit
        by_cases hhit : (i + 1) % bs = 0 ∧ c.data.blockId ≠ invalidBlock
        · rw [if_pos hhit, if_pos (Nat.dvd_of_mod_eq_zero hhit.1), recorded, if_neg hhit.2]
          cases hits bs c (i + 1) query with
          | nil => simp
          | cons e es => simp [List.getLast?_cons]
        · rw [if_neg hhit]
          have hnone : (if bs ∣ i + 1 then (recorded c.data.blockId).map (Prod.mk (i + 1))
              else none) = none := by
            split
            · next hdvd =>
                have hempty : c.data.blockId = invalidBlock := by
                  by_contra hne
                  exact hhit ⟨Nat.mod_eq_zero_of_dvd hdvd, hne⟩
                rw [recorded, if_pos hempty]
                rfl
            · rfl
          rw [hnone]
          simp
      · have hchild : t.child k = none := by simpa using hstop rfl
        have hnil : hits bs t i (k :: query) = [] := by
          refine List.filterMap_eq_nil_iff.2 ?_
          intro j _
          rw [List.take_succ_cons, blockAt_of_child_none hchild]
          split <;> rfl
        rw [Trie.walk_stop hstop, hnil]
        simp

/-- **The result of a lookup** are the blocks recorded along the query and the last boundary that has
    one. -/
theorem lookup_result (query : List TokenId) :
    (pc.lookup query).1
      = { cachedBlocks := (hits pc.config.blockSize pc.root 0 query).map Prod.snd,
          matchedTokens :=
            ((hits pc.config.blockSize pc.root 0 query).getLast?.map Prod.fst).getD 0 } :=
  lookupWalk_result pc.config.blockSize query 0 _ pc.root

/-- The blocks recorded at block boundaries decide what a lookup returns. -/
theorem lookup_congr {pc pc' : PrefixCache} (hconf : pc'.config.blockSize = pc.config.blockSize)
    (h : ∀ q, q ≠ [] → pc.config.blockSize ∣ q.length → blockAt pc'.root q = blockAt pc.root q)
    (query : List TokenId) : (pc'.lookup query).1 = (pc.lookup query).1 := by
  rw [lookup_result, lookup_result, hconf,
    hits_congr _ (fun q hq hdvd => h q hq (by rwa [Nat.zero_add] at hdvd)) query]

theorem mem_hits_of_blockAt {q query : List TokenId} {b : BlockId} (hq : q ≠ [])
    (hdvd : pc.config.blockSize ∣ q.length) (hpre : q <+: query) (h : blockAt pc.root q = some b) :
    (q.length, b) ∈ hits pc.config.blockSize pc.root 0 query := by
  have hpos : 0 < q.length := List.length_pos_iff.2 hq
  have hlen : q.length ≤ query.length := hpre.length_le
  refine List.mem_filterMap.2 ⟨q.length - 1, List.mem_range.2 (by omega), ?_⟩
  have hlast : 0 + (q.length - 1 + 1) = q.length := by omega
  have hall : q.length - 1 + 1 = q.length := by omega
  rw [hlast, hall, if_pos hdvd, ← List.prefix_iff_eq_take.1 hpre, h]
  rfl

/-- A lookup returns the block recorded at the end of a path it goes along. -/
theorem mem_lookup_of_blockAt {q query : List TokenId} {b : BlockId} (hq : q ≠ [])
    (hdvd : pc.config.blockSize ∣ q.length) (hpre : q <+: query) (h : blockAt pc.root q = some b) :
    b ∈ (pc.lookup query).1.cachedBlocks := by
  rw [lookup_result]
  exact List.mem_map.2 ⟨(q.length, b), mem_hits_of_blockAt pc hq hdvd hpre h, rfl⟩

theorem hits_pairwise (bs : Nat) (t : Trie TokenId PrefixTrieNode) (i : Nat) (query : List TokenId) :
    (hits bs t i query).Pairwise (fun x y => x.1 < y.1) := by
  refine List.Pairwise.filterMap _ ?_ (List.pairwise_lt_range (n := query.length))
  intro j j' hlt x hx y hy
  split at hx
  · split at hy
    · obtain ⟨b, -, rfl⟩ := Option.map_eq_some_iff.1 hx
      obtain ⟨b', -, rfl⟩ := Option.map_eq_some_iff.1 hy
      show i + (j + 1) < i + (j' + 1)
      omega
    · cases hy
  · cases hx

/-- A lookup matches at least up to every boundary it finds recorded. -/
theorem le_matchedTokens_of_blockAt {q query : List TokenId} {b : BlockId} (hq : q ≠ [])
    (hdvd : pc.config.blockSize ∣ q.length) (hpre : q <+: query) (h : blockAt pc.root q = some b) :
    q.length ≤ (pc.lookup query).1.matchedTokens := by
  have hmem := mem_hits_of_blockAt pc hq hdvd hpre h
  have hsorted := hits_pairwise pc.config.blockSize pc.root 0 query
  rw [lookup_result]
  obtain ⟨es, e, heq⟩ := (List.eq_nil_or_concat _).resolve_left (List.ne_nil_of_mem hmem)
  simp only [heq, List.concat_eq_append, List.getLast?_append, List.getLast?_singleton,
    Option.some_or, Option.map_some, Option.getD_some] at hmem hsorted ⊢
  rcases List.mem_append.1 hmem with hin | hin
  · exact Nat.le_of_lt ((List.pairwise_append.1 hsorted).2.2 _ hin e (List.mem_singleton_self e))
  · exact Nat.le_of_eq (congrArg Prod.fst (List.mem_singleton.1 hin))

/-- A block that a lookup returns is recorded in the trie. -/
theorem recording_pos_of_lookup {query : List TokenId} {b : BlockId}
    (h : b ∈ (pc.lookup query).1.cachedBlocks) : b ≠ invalidBlock ∧ 0 < recording pc.root b := by
  rw [lookup_result] at h
  obtain ⟨⟨m, b'⟩, hmem, rfl⟩ := List.mem_map.1 h
  obtain ⟨j, -, hj⟩ := List.mem_filterMap.1 hmem
  split at hj
  · obtain ⟨b₁, hb₁, heq⟩ := Option.map_eq_some_iff.1 hj
    obtain ⟨-, rfl⟩ := Prod.mk.inj heq
    obtain ⟨b₂, hb₂, hrec⟩ := Option.bind_eq_some_iff.1 hb₁
    obtain ⟨rfl, hvalid⟩ := recorded_eq_some.1 hrec
    obtain ⟨u, hu, rfl⟩ := Option.map_eq_some_iff.1 hb₂
    refine ⟨hvalid, ?_⟩
    have hle := Trie.le_total_of_mem
      (fun n : PrefixTrieNode => if n.blockId = u.data.blockId then 1 else 0)
      (Trie.data_mem_toList_of_descend hu)
    simp only [if_true] at hle
    exact hle
  · cases hj

/-! ## Insertion -/

section Insert

variable {bs : Nat} {blocks : List BlockId}

/-- A visit at a block boundary moves on to the next block. -/
theorem insertVisit_blockIdx (blocks : List BlockId) (i : Nat) (s : InsertState) (n : PrefixTrieNode)
    (hidx : s.blockIdx = i / bs) : (insertVisit bs blocks i s n).1.blockIdx = (i + 1) / bs := by
  unfold insertVisit
  rw [Nat.succ_div]
  by_cases hdvd : bs ∣ i + 1
  · rw [if_pos (Nat.mod_eq_zero_of_dvd hdvd), if_pos hdvd]
    split <;> simp [hidx]
  · rw [if_neg (fun hmod => hdvd (Nat.dvd_of_mod_eq_zero hmod)), if_neg hdvd]
    exact hidx

/-- A visit at a block boundary fills an empty node. -/
theorem insertVisit_recorded (hblocks : invalidBlock ∉ blocks) (i : Nat) (s : InsertState)
    (n : PrefixTrieNode) (hidx : s.blockIdx = i / bs) (hlt : s.blockIdx < blocks.length) :
    recorded (insertVisit bs blocks i s n).2.blockId
      = (recorded n.blockId).or
          (if bs ∣ i + 1 then blocks[(i + 1) / bs - 1]? else none) := by
  unfold insertVisit
  by_cases hdvd : bs ∣ i + 1
  · have hdiv : (i + 1) / bs - 1 = s.blockIdx := by
      rw [Nat.succ_div, if_pos hdvd, hidx]
      rfl
    rw [if_pos (Nat.mod_eq_zero_of_dvd hdvd), if_pos hdvd, hdiv]
    by_cases hempty : n.blockId = invalidBlock
    · have hvalid : blocks[s.blockIdx] ≠ invalidBlock :=
        fun he => hblocks (he ▸ List.getElem_mem hlt)
      rw [if_pos hempty]
      show recorded (blocks.getD s.blockIdx invalidBlock) = _
      rw [List.getD_eq_getElem _ _ hlt, recorded, if_neg hvalid, recorded, if_pos hempty,
        List.getElem?_eq_getElem hlt]
      rfl
    · rw [if_neg hempty]
      show recorded n.blockId = _
      rw [recorded, if_neg hempty]
      rfl
  · rw [if_neg (fun hmod => hdvd (Nat.dvd_of_mod_eq_zero hmod)), if_neg hdvd, Option.or_none]

/-- The boundaries that follow the last block belong to later blocks. -/
theorem block_past_end {i n m : Nat} (hn : 0 < n) (hdvd : bs ∣ i + n) (hend : m ≤ i / bs) :
    m ≤ (i + n) / bs - 1 := by
  have hbs : 0 < bs := Nat.pos_of_dvd_of_pos hdvd (by omega)
  obtain ⟨k, hk⟩ := hdvd
  have hlt : i / bs < k := by
    rw [Nat.div_lt_iff_lt_mul hbs, Nat.mul_comm]
    omega
  rw [hk, Nat.mul_div_cancel_left _ hbs]
  omega

/-- An insertion as a walk that fills in, at the boundary of each block, a value of that block. -/
theorem insertWalk_fill {β : Type} {read : PrefixTrieNode → Option β} (blocks : List BlockId)
    (value : Nat → Option β) (hfresh : read {} = none)
    (hvisit : ∀ i s n, s.blockIdx = i / pc.config.blockSize → s.blockIdx < blocks.length →
      read (insertVisit pc.config.blockSize blocks i s n).2
        = (read n).or (if pc.config.blockSize ∣ i + 1
            then value ((i + 1) / pc.config.blockSize - 1) else none))
    (hvalue : ∀ j, blocks.length ≤ j → value j = none)
    (tokens : List TokenId) {q : List TokenId} (hq : q ≠ []) :
    Trie.readAt read (pc.insertWalk tokens blocks).2 q
      = (Trie.readAt read pc.root q).or (if q <+: tokens ∧ pc.config.blockSize ∣ q.length
          then value (q.length / pc.config.blockSize - 1) else none) := by
  have hend : ∀ i (s : InsertState) n, blocksLeft blocks s = false →
      s.blockIdx = i / pc.config.blockSize → 0 < n →
      (if pc.config.blockSize ∣ i + n then value ((i + n) / pc.config.blockSize - 1) else none)
        = none := by
    intro i s n hless hidx hn
    have hlen : blocks.length ≤ i / pc.config.blockSize := by
      rw [← hidx]
      exact Nat.le_of_not_lt (of_decide_eq_false hless)
    split
    · next hdvd => exact hvalue _ (block_past_end hn hdvd hlen)
    · rfl
  have hwalk := Trie.readAt_walk_fill
    (fun n => if pc.config.blockSize ∣ n then value (n / pc.config.blockSize - 1) else none)
    (fun i (s : InsertState) => s.blockIdx = i / pc.config.blockSize) hfresh
    (fun i s n _ hidx => insertVisit_blockIdx blocks i s n hidx)
    (fun i s n hmore hidx => hvisit i s n hidx (of_decide_eq_true hmore)) hend tokens 0
    { accessClock := pc.accessClock } pc.root (Nat.zero_div _).symm hq
  rw [Nat.zero_add, ← ite_and] at hwalk
  exact hwalk

/-- **What an insertion records.** A path gets the block of its boundary if it is part of the inserted
    tokens and had none. -/
theorem blockAt_insert (bm : BlockManager) (hblocks : invalidBlock ∉ blocks)
    (tokens : List TokenId) {q : List TokenId} (hq : q ≠ []) :
    blockAt (pc.insert bm tokens blocks).1.root q
      = (blockAt pc.root q).or (if q <+: tokens ∧ pc.config.blockSize ∣ q.length
          then blocks[q.length / pc.config.blockSize - 1]? else none) := by
  rw [blockAt_eq_readAt, blockAt_eq_readAt]
  exact insertWalk_fill pc blocks (fun j => blocks[j]?) rfl
    (fun i s n hidx hlt => insertVisit_recorded hblocks i s n hidx hlt)
    (fun j hj => List.getElem?_eq_none hj) tokens hq

/-- A visit that records a block takes a reference on it. -/
theorem insertVisit_taken (blocks : List BlockId) (i : Nat) (s : InsertState) (n : PrefixTrieNode)
    {b : BlockId} (hb : b ≠ invalidBlock) :
    (if (insertVisit bs blocks i s n).2.blockId = b then 1 else 0) + s.taken.count b
      = (if n.blockId = b then 1 else 0) + (insertVisit bs blocks i s n).1.taken.count b := by
  unfold insertVisit
  split
  · split
    · next hempty =>
        have hne : n.blockId ≠ b := fun he => hb (he ▸ hempty)
        rw [if_neg hne, List.count_append, List.count_singleton]
        simp only [beq_iff_eq]
        omega
    · rfl
  · rfl

/-- **The references an insertion takes.** The nodes that record a block grow by the references taken
    on it. -/
theorem recording_insert (bm : BlockManager) (tokens : List TokenId) (blocks : List BlockId)
    {b : BlockId} (hb : b ≠ invalidBlock) :
    recording (pc.insert bm tokens blocks).1.root b
      = recording pc.root b + (pc.insertWalk tokens blocks).1.taken.count b := by
  have hwalk : (pc.insertWalk tokens blocks).2.total
        (fun n : PrefixTrieNode => if n.blockId = b then 1 else 0) + List.count b []
      = recording pc.root b + (pc.insertWalk tokens blocks).1.taken.count b :=
    Trie.total_walk _ (fun s : InsertState => s.taken.count b) (by simp [hb.symm])
      (fun i s n _ => insertVisit_taken blocks i s n hb) tokens 0 _ pc.root
  rw [List.count_nil, Nat.add_zero] at hwalk
  exact hwalk

/-- Every reference taken is on a block of the list. -/
theorem insertWalk_taken_subset (tokens : List TokenId) (blocks : List BlockId) :
    (pc.insertWalk tokens blocks).1.taken ⊆ blocks := by
  refine Trie.walk_invariant (P := fun s : InsertState => s.taken ⊆ blocks) ?_ tokens 0 pc.root
    (List.nil_subset _)
  intro i s n hmore hs
  have hlt : s.blockIdx < blocks.length := of_decide_eq_true hmore
  unfold insertVisit
  split
  · split
    · refine List.append_subset.2 ⟨hs, ?_⟩
      intro b hb
      rw [List.mem_singleton.1 hb, List.getD_eq_getElem _ _ hlt]
      exact List.getElem_mem hlt
    · exact hs
  · exact hs

end Insert

end CacheFlow.PrefixCache
