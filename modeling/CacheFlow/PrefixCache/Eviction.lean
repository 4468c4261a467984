import CacheFlow.PrefixCache.System

set_option autoImplicit false

/-! # What the cache serves after an eviction

`evict_lru` gives the cache's reference on a block back but leaves the block in its node, so a later
lookup still returns it although the block manager may have handed it to somebody else. As long as
every `evict_lru` finds nothing to drop, the books of the trie and of the block manager agree: each
node that records a block is backed by one reference of the cache (`Backed`), and a lookup returns held
blocks only. -/

namespace CacheFlow.PrefixCache

open BlockManager

namespace System

/-- An `evict_lru` that drops no reference: it is asked for no block, or no node is evictable. -/
def DropsNothing (st : System) : Op → Prop
  | .evictLru n => n = 0 ∨ ∀ node ∈ st.cache.root.toList, evictable node = false
  | _ => True

instance (st : System) : ∀ op, Decidable (st.DropsNothing op)
  | .evictLru n =>
    inferInstanceAs (Decidable (n = 0 ∨ ∀ node ∈ st.cache.root.toList, evictable node = false))
  | .insert _ _ | .allocateBlock _ _ | .freeBlocks _ | .lookup _ | .release _ | .resetStats =>
    isTrue trivial

/-- Every block a lookup returns has a positive reference count and is not on the free list, and for
    each node that records it the cache holds the reference it took when it recorded it. -/
def ServesHeld (st : System) : Prop :=
  ∀ query, ∀ b ∈ (st.cache.lookup query).1.cachedBlocks,
    0 < st.bm.refCount .cuda b ∧ b ∉ st.bm.freeList .cuda ∧
      recording st.cache.root b ≤ st.held.count b

/-- The two books agree: the reference counts are those of the ledger, and the cache holds one
    reference for each node that records a block. -/
structure Backed (st : System) : Prop where
  counts : Counts st.bm st.ledger.holders
  held : ∀ b, b ≠ invalidBlock → recording st.cache.root b = st.held.count b

theorem init_backed (config : CacheConfig) : Backed (init config) := by
  refine ⟨counts_new config, ?_⟩
  intro b hb
  simp [recording, init, PrefixCache.new, Ne.symm hb]

/-- Operations that leave the block manager and the cache's references alone keep the books if they
    keep the recorded blocks. -/
theorem Backed.of_recording {st st' : System} (h : Backed st) (hbm : st'.bm = st.bm)
    (hheld : st'.held = st.held)
    (hrec : ∀ b, recording st'.cache.root b = recording st.cache.root b) : Backed st' := by
  refine ⟨?_, ?_⟩
  · have hledger : st'.ledger = st.ledger := by rw [ledger, ledger, hbm, hheld]
    rw [hbm, hledger]
    exact h.counts
  · intro b hb
    rw [hrec, hheld]
    exact h.held b hb

theorem incrementRefs_seqBlockMap (bids : List BlockId) (bm : BlockManager) :
    (bids.foldl (fun bm b => bm.incrementRef b .cuda) bm).seqBlockMap = bm.seqBlockMap := by
  induction bids generalizing bm with
  | nil => rfl
  | cons b bids ih => rw [List.foldl_cons, ih, incrementRef_seqBlockMap]

/-- An insertion takes one reference for each node it makes record a block. -/
theorem backed_insert {st : System} (h : Backed st) (tokens : List TokenId) {blocks : List BlockId}
    (hblocks : ∀ b ∈ blocks, 0 < st.bm.refCount .cuda b) :
    Backed (st.step (.insert tokens blocks)) := by
  have htaken : ∀ b ∈ (st.cache.insertWalk tokens blocks).1.taken, 0 < st.ledger.holders (.cuda, b) := by
    intro b hb
    have hpos := hblocks b (insertWalk_taken_subset st.cache tokens blocks hb)
    rw [h.counts.refCount] at hpos
    omega
  refine ⟨?_, ?_⟩
  · have hcounts := h.counts.incrementRefs (st.cache.insertWalk tokens blocks).1.taken htaken
    have htable : (st.step (.insert tokens blocks)).ledger.holders
        = fun x => st.ledger.holders x
            + ((st.cache.insertWalk tokens blocks).1.taken.map (Prod.mk .cuda)).count x := by
      funext ⟨d, b⟩
      have hocc : (st.step (.insert tokens blocks)).bm.occurrences (d, b)
          = st.bm.occurrences (d, b) :=
        st.bm.occurrences_congr (incrementRefs_seqBlockMap _ _) (d, b)
      simp only [LedgerState.holders, ledger_holdsOn, count_map_mk]
      show (st.step (.insert tokens blocks)).bm.occurrences (d, b)
          + (if d = .cuda then
              (st.held ++ (st.cache.insertWalk tokens blocks).1.taken).count b else 0)
        = st.bm.occurrences (d, b) + (if d = .cuda then st.held.count b else 0) + _
      rw [hocc, List.count_append]
      split <;> omega
    rw [htable]
    exact hcounts
  · intro b hb
    show recording (st.cache.insert st.bm tokens blocks).1.root b
      = (st.held ++ (st.cache.insertWalk tokens blocks).1.taken).count b
    rw [recording_insert st.cache st.bm tokens blocks hb, h.held b hb, List.count_append]

/-- With nothing to drop there are no victims. -/
theorem evictionVictims_eq_nil {st : System} {n : Nat} (h : st.DropsNothing (.evictLru n)) :
    st.cache.evictionVictims n = [] := by
  rcases h with rfl | hnone
  · simp [evictionVictims]
  · have hnil : collectEvictionCandidates st.cache.root = [] := by
      rw [collectEvictionCandidates, List.map_eq_nil_iff, List.filter_eq_nil_iff]
      intro node hnode
      simp [hnone node hnode]
    simp [evictionVictims, hnil]

theorem dropsNothing_of_evictionVictims {st : System} {n : Nat}
    (h : st.cache.evictionVictims n = []) : st.DropsNothing (.evictLru n) := by
  rcases List.take_eq_nil_iff.1 h with hzero | hnil
  · exact Or.inl hzero
  · refine Or.inr ?_
    have hperm := List.perm_insertionSort
      (fun a b : Nat × BlockId => a.1 < b.1 ∨ (a.1 = b.1 ∧ a.2 ≤ b.2))
      (collectEvictionCandidates st.cache.root)
    rw [hnil] at hperm
    have hcand := List.nil_perm.1 hperm
    rw [collectEvictionCandidates, List.map_eq_nil_iff, List.filter_eq_nil_iff] at hcand
    intro node hnode
    exact Bool.eq_false_iff.2 (hcand node hnode)

/-- Every step whose eviction drops nothing keeps the books. -/
theorem step_backed {st : System} (op : Op) (h : Backed st) (hop : st.Permitted op)
    (hdrop : st.DropsNothing op) : Backed (st.step op) := by
  have hcounts : Counts st.ledger.bm st.ledger.holders := h.counts
  cases op with
  | allocateBlock s d => exact ⟨LedgerState.counts_allocateBlock hcounts s d, h.held⟩
  | freeBlocks s => exact ⟨LedgerState.counts_freeBlocks hcounts s, h.held⟩
  | insert tokens blocks => exact backed_insert h tokens hop
  | lookup query => exact h.of_recording rfl rfl (recording_lookup st.cache query)
  | release query => exact h.of_recording rfl rfl (recording_release st.cache query)
  | evictLru n =>
      have hnil := evictionVictims_eq_nil hdrop
      refine h.of_recording ?_ ?_ (fun _ => rfl)
      · simp [step, evictLru, hnil]
      · simp [step, hnil]
  | resetStats => exact h.of_recording rfl rfl (fun _ => rfl)

theorem Backed.servesHeld {st : System} (h : Backed st) : st.ServesHeld := by
  intro query b hb
  obtain ⟨hvalid, hrec⟩ := recording_pos_of_lookup st.cache hb
  have hheld := h.held b hvalid
  have hpos : 0 < st.ledger.holders (.cuda, b) := by
    show 0 < st.bm.occurrences (.cuda, b) + st.ledger.holdsOn (.cuda, b)
    rw [ledger_holdsOn, if_pos rfl]
    omega
  refine ⟨?_, ?_, Nat.le_of_eq hheld⟩
  · rw [h.counts.refCount]
    exact Int.natCast_pos.2 hpos
  · intro hfree
    have hzero := ((h.counts.free .cuda b).1 hfree).2
    omega

/-- **Without an eviction that drops a reference the cache serves held blocks only.** In every run that
    inserts allocated GPU blocks and whose calls of `evict_lru` find nothing to drop, whatever else it
    does in whatever order, every lookup in every state reached returns blocks that are referenced,
    not free, and still held by the cache for each of their nodes. -/
theorem lookup_serves_held (config : CacheConfig) (st : System)
    (h : Run.Reach step (fun st op => st.Permitted op ∧ st.DropsNothing op) (init config) st) :
    st.ServesHeld := by
  have hbacked : Backed st :=
    h.invariant (init_backed config) (fun _ op hst hop => step_backed op hst hop.1 hop.2)
  exact hbacked.servesHeld

/-- Sequence 1 caches the block of its one-block prompt and ends; an `evict_lru` follows while the
    prompt is still in use. -/
def keptPrompt : List Op :=
  [.allocateBlock 1 .cuda, .insert [7, 8] [0], .freeBlocks 1, .evictLru 4, .lookup [7, 8, 9]]

/-- The block outlives its sequence, by the reference of the cache. -/
theorem keptPrompt_served :
    let st := keptPrompt.foldl step (init { numGpuBlocks := 2, numCpuBlocks := 1, blockSize := 2 })
    (st.cache.lookup [7, 8, 9]).1.cachedBlocks = [0] ∧ st.bm.refCount .cuda 0 = 1 ∧ st.ServesHeld :=
  ⟨by decide, by decide, lookup_serves_held _ _ (Run.Reach.of_allOk _ (by decide))⟩

/-- The same with the prompt released before the eviction; the block then goes to sequence 2. -/
def evictedPrompt : List Op :=
  [.allocateBlock 1 .cuda, .insert [7, 8] [0], .freeBlocks 1, .release [7, 8], .evictLru 1]

/-- The lookup returns the evicted block: nobody references it, it is on the free list and the next
    allocation hands it to another sequence. -/
theorem evictedPrompt_served :
    let st := evictedPrompt.foldl step (init { numGpuBlocks := 2, numCpuBlocks := 1, blockSize := 2 })
    Run.Reach step Permitted (init { numGpuBlocks := 2, numCpuBlocks := 1, blockSize := 2 }) st ∧
      (st.cache.lookup [7, 8, 9]).1.cachedBlocks = [0] ∧ st.bm.refCount .cuda 0 = 0 ∧
      0 ∈ st.bm.freeList .cuda ∧ (st.bm.allocateBlock 2 .cuda).1 = 0 ∧ ¬ st.ServesHeld := by
  intro st
  have hserved : (st.cache.lookup [7, 8, 9]).1.cachedBlocks = [0] := by decide
  have hfree : (0 : BlockId) ∈ st.bm.freeList .cuda := by decide
  refine ⟨Run.Reach.of_allOk _ (by decide), hserved, by decide, hfree, by decide, ?_⟩
  intro hserves
  exact (hserves [7, 8, 9] 0 (by rw [hserved]; exact List.mem_singleton_self 0)).2.1 hfree

end System

end CacheFlow.PrefixCache
