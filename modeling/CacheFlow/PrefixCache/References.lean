import CacheFlow.PrefixCache.Eviction

set_option autoImplicit false

/-! # The references of the cache

Three books are kept on the blocks a prefix cache holds: the nodes of its trie that record a block, the
references it has taken in the block manager, and the gauge `num_cached_blocks()`. `insert` writes all
three alike, so without an eviction a cached block has, besides the entries of the sequences, one
reference for each node that records it, and no later allocation hands it out.

`evict_lru` gives a reference back and lowers the gauge but leaves the node, and `reset_stats` clears
the gauge alone. The books agree exactly in the runs where neither has anything to do. -/

namespace CacheFlow.PrefixCache

open BlockManager

namespace System

/-! ## Cached blocks outlive the sequences that created them -/

/-- Any operation but an eviction. -/
def KeepsReferences : Op → Prop
  | .evictLru _ => False
  | _ => True

instance : ∀ op, Decidable (KeepsReferences op)
  | .evictLru _ => isFalse (fun h => h)
  | .insert _ _ | .allocateBlock _ _ | .freeBlocks _ | .lookup _ | .release _ | .resetStats =>
    isTrue trivial

theorem KeepsReferences.dropsNothing {op : Op} (h : KeepsReferences op) (st : System) :
    st.DropsNothing op := by
  cases op with
  | evictLru n => exact absurd h (fun hf => hf)
  | _ => trivial

/-- The references on a GPU block are the entries of the sequences and the nodes that record it. -/
theorem Backed.refCount {st : System} (h : Backed st) {b : BlockId} (hb : b ≠ invalidBlock) :
    st.bm.refCount .cuda b
      = (st.bm.occurrences (.cuda, b) + recording st.cache.root b : Nat) := by
  rw [h.counts.refCount, h.held b hb]
  show ((st.bm.occurrences (.cuda, b) + st.ledger.holdsOn (.cuda, b) : Nat) : Int) = _
  rw [ledger_holdsOn, if_pos rfl]

/-- No operation removes a block from a node. -/
theorem recording_le_step (st : System) (op : Op) {b : BlockId} (hb : b ≠ invalidBlock) :
    recording st.cache.root b ≤ recording (st.step op).cache.root b := by
  cases op with
  | insert tokens blocks =>
      have hins := recording_insert st.cache st.bm tokens blocks hb
      show _ ≤ recording (st.cache.insert st.bm tokens blocks).1.root b
      omega
  | lookup query => exact Nat.le_of_eq (recording_lookup st.cache query b).symm
  | release query => exact Nat.le_of_eq (recording_release st.cache query b).symm
  | allocateBlock s d => exact Nat.le_refl _
  | freeBlocks s => exact Nat.le_refl _
  | evictLru n => exact Nat.le_refl _
  | resetStats => exact Nat.le_refl _

/-- A recorded block is not on top of the free list. -/
theorem Backed.allocateBlock_ne {st : System} (h : Backed st) {b : BlockId} (hb : b ≠ invalidBlock)
    (hrec : 0 < recording st.cache.root b) (s : SeqId) : (st.bm.allocateBlock s .cuda).1 ≠ b := by
  cases hfl : st.bm.freeList .cuda with
  | nil =>
      rw [allocateBlock_nil st.bm hfl]
      exact Ne.symm hb
  | cons top rest =>
      have hfree := (h.counts.free .cuda top).1 (by rw [hfl]; exact List.mem_cons_self ..)
      rw [(allocateBlock_cons st.bm (s := s) hfl hfree.1).1]
      rintro rfl
      have href := h.refCount hb
      rw [h.counts.refCount, hfree.2] at href
      omega

/-- **Cached prefixes outlive their creators.** In every state `st` of a run without evictions that
    inserts allocated GPU blocks, the references on a GPU block are its entries in the sequence map and
    the nodes that record it. A block that a lookup returns is referenced and not free, and in no later
    state `st'` does an allocation return it. -/
theorem cached_prefix_outlives (config : CacheConfig) (st st' : System)
    (h : Run.Reach step (fun st op => st.Permitted op ∧ KeepsReferences op) (init config) st)
    (h' : Run.Reach step (fun st op => st.Permitted op ∧ KeepsReferences op) st st') :
    (∀ b, st.bm.InRange .cuda b → st.bm.refCount .cuda b
      = (st.bm.occurrences (.cuda, b) + recording st.cache.root b : Nat)) ∧
    ∀ query, ∀ b ∈ (st.cache.lookup query).1.cachedBlocks,
      0 < st.bm.refCount .cuda b ∧ b ∉ st.bm.freeList .cuda ∧
        ∀ s, (st'.bm.allocateBlock s .cuda).1 ≠ b := by
  have hstep : ∀ st op, Backed st → (st.Permitted op ∧ KeepsReferences op) → Backed (st.step op) :=
    fun st op hst hop => step_backed op hst hop.1 (hop.2.dropsNothing st)
  have hbacked : Backed st := h.invariant (init_backed config) hstep
  refine ⟨fun b hb => hbacked.refCount hb.ne_invalidBlock, ?_⟩
  intro query b hb
  obtain ⟨hpos, hfree, -⟩ := hbacked.servesHeld query b hb
  refine ⟨hpos, hfree, ?_⟩
  intro s
  obtain ⟨hvalid, hrec⟩ := recording_pos_of_lookup st.cache hb
  have hlater : Backed st' ∧ 0 < recording st'.cache.root b :=
    h'.invariant (P := fun st => Backed st ∧ 0 < recording st.cache.root b) ⟨hbacked, hrec⟩
      (fun st op hst hop =>
        ⟨hstep st op hst.1 hop, Nat.lt_of_lt_of_le hst.2 (recording_le_step st op hvalid)⟩)
  exact hlater.1.allocateBlock_ne hvalid hlater.2 s

/-- A prompt is cached twice, by two sequences with blocks of their own, and the first ends. -/
def cachedTwice : List Op :=
  [.allocateBlock 1 .cuda, .insert [7, 8] [0], .allocateBlock 2 .cuda, .insert [7, 8] [1],
    .release [7, 8], .freeBlocks 1]

theorem cachedTwice_outlives :
    let st := cachedTwice.foldl step (init { numGpuBlocks := 2, numCpuBlocks := 1, blockSize := 2 })
    let st' := [Op.freeBlocks 2].foldl step st
    (st.cache.lookup [7, 8, 9]).1.cachedBlocks = [0] ∧ 0 < st.bm.refCount .cuda 0 ∧
      (0 : BlockId) ∉ st.bm.freeList .cuda ∧ ∀ s, (st'.bm.allocateBlock s .cuda).1 ≠ 0 := by
  intro st st'
  have hserved : (st.cache.lookup [7, 8, 9]).1.cachedBlocks = [0] := by decide
  have hall := cached_prefix_outlives _ st st' (Run.Reach.of_allOk _ (by decide))
    (Run.Reach.of_allOk _ (by decide))
  exact ⟨hserved, hall.2 [7, 8, 9] 0 (by rw [hserved]; exact List.mem_singleton_self 0)⟩

/-! ## The three books -/

/-- The number of nodes that record a block: those from which a lookup can return one. -/
def cachedNodes (t : Trie TokenId PrefixTrieNode) : Nat :=
  t.total (fun n => if n.blockId = invalidBlock then 0 else 1)

/-- Along a run every node that records a block can be looked up: `cachedNodes` counts the nodes that
    still serve one. -/
theorem exists_lookup_of_run (config : CacheConfig) (ops : List Op)
    (hops : Run.AllOk step (fun st op => st.GivesBlocks op) (init config) ops) {n : PrefixTrieNode}
    (hn : n ∈ (ops.foldl step (init config)).cache.root.toList) (hvalid : n.blockId ≠ invalidBlock) :
    ∃ query, n.blockId ∈ ((ops.foldl step (init config)).cache.lookup query).1.cachedBlocks := by
  have hindexed : Indexed (ops.foldl step (init config)) :=
    hops.invariant (init_indexed config) (fun _ op hst hop => step_indexed op hst hop)
  exact hindexed.exists_lookup hn hvalid

/-- The references an operation takes, less those it gives back: the calls of `increment_ref` in
    `insert` and of `decrement_ref` in `evict_lru`. -/
def referencesOf (st : System) : Op → Int
  | .insert tokens blocks => (st.cache.insertWalk tokens blocks).1.taken.length
  | .evictLru n => -((st.cache.evictionVictims n).length : Int)
  | _ => 0

/-- The references the cache has taken along a run, less those it has given back. -/
def balance (st : System) : List Op → Int
  | [] => 0
  | op :: ops => st.referencesOf op + balance (st.step op) ops

/-- The three books agree after a run. -/
structure Balanced (st₀ : System) (ops : List Op) : Prop where
  references : balance st₀ ops = cachedNodes (ops.foldl step st₀).cache.root
  gauge : (ops.foldl step st₀).cache.numCachedBlocks
    = UInt64.ofNat (cachedNodes (ops.foldl step st₀).cache.root)

/-- No reference to drop for `evict_lru`, nothing on the gauge for `reset_stats`. -/
def LosesNothing (st : System) : Op → Prop
  | .evictLru n => st.DropsNothing (.evictLru n)
  | .resetStats => st.cache.numCachedBlocks = 0
  | _ => True

instance (st : System) : ∀ op, Decidable (st.LosesNothing op)
  | .evictLru n => inferInstanceAs (Decidable (st.DropsNothing (.evictLru n)))
  | .resetStats => inferInstanceAs (Decidable (st.cache.numCachedBlocks = 0))
  | .insert _ _ | .allocateBlock _ _ | .freeBlocks _ | .lookup _ | .release _ => isTrue trivial

theorem balance_append (st : System) (ops ops' : List Op) :
    balance st (ops ++ ops') = balance st ops + balance (ops.foldl step st) ops' := by
  induction ops generalizing st with
  | nil => simp [balance]
  | cons op ops ih =>
      rw [List.cons_append, balance, balance, ih, List.foldl_cons, Int.add_assoc]

theorem insertVisit_cached {bs : Nat} {blocks : List BlockId} (hblocks : invalidBlock ∉ blocks)
    (i : Nat) (s : InsertState) (n : PrefixTrieNode) (hmore : blocksLeft blocks s = true) :
    (if (insertVisit bs blocks i s n).2.blockId = invalidBlock then 0 else 1) + s.taken.length
      = (if n.blockId = invalidBlock then 0 else 1)
        + (insertVisit bs blocks i s n).1.taken.length := by
  have hlt : s.blockIdx < blocks.length := of_decide_eq_true hmore
  unfold insertVisit
  split
  · split
    · have hvalid : blocks.getD s.blockIdx invalidBlock ≠ invalidBlock := by
        rw [List.getD_eq_getElem _ _ hlt]
        exact fun he => hblocks (he ▸ List.getElem_mem hlt)
      show (if blocks.getD s.blockIdx invalidBlock = invalidBlock then 0 else 1) + s.taken.length
        = 0 + (s.taken ++ [blocks.getD s.blockIdx invalidBlock]).length
      rw [if_neg hvalid, List.length_append, List.length_singleton]
      omega
    · rfl
  · rfl

/-- An insertion takes one reference for each node it makes record a block. -/
theorem cachedNodes_insert (pc : PrefixCache) (bm : BlockManager) (tokens : List TokenId)
    {blocks : List BlockId} (hblocks : invalidBlock ∉ blocks) :
    cachedNodes (pc.insert bm tokens blocks).1.root
      = cachedNodes pc.root + (pc.insertWalk tokens blocks).1.taken.length := by
  have hwalk : (pc.insertWalk tokens blocks).2.total
        (fun n : PrefixTrieNode => if n.blockId = invalidBlock then 0 else 1) + 0
      = cachedNodes pc.root + (pc.insertWalk tokens blocks).1.taken.length :=
    Trie.total_walk _ (fun s : InsertState => s.taken.length) (by simp)
      (fun i s n hmore => insertVisit_cached hblocks i s n hmore) tokens 0 _ pc.root
  exact hwalk

/-- A walk that keeps the block of every node it visits keeps the nodes that record one. -/
theorem cachedNodes_walk {σ : Type} {more : σ → Bool}
    {visit : Nat → σ → PrefixTrieNode → σ × PrefixTrieNode}
    (hvisit : ∀ i s n, (visit i s n).2.blockId = n.blockId) (ks : List TokenId) (i : Nat) (s : σ)
    (t : Trie TokenId PrefixTrieNode) :
    cachedNodes (Trie.walk none more visit ks i s t).2 = cachedNodes t := by
  refine Trie.total_walk _ (fun _ => 0) (by simp) (fun i s n _ => ?_) ks i s t
  rw [hvisit]

theorem foldl_inserted_cachedBlocks {α : Type} (taken : List α) (stats : Stats) :
    (taken.foldl (fun stats _ => stats.inserted) stats).cachedBlocks
      = stats.cachedBlocks + UInt64.ofNat taken.length := by
  induction taken generalizing stats with
  | nil => simp
  | cons b taken ih =>
      rw [List.foldl_cons, ih, List.length_cons, Nat.add_comm, UInt64.ofNat_add, ← UInt64.add_assoc]
      rfl

/-- One step from a state where gauge and trie agree: the trie grows by the references taken, and the
    gauge still agrees, unless something is lost. -/
theorem step_balanced {st : System} (op : Op)
    (hgauge : st.cache.numCachedBlocks = UInt64.ofNat (cachedNodes st.cache.root))
    (hop : st.GivesBlocks op) (hloses : st.LosesNothing op) :
    (cachedNodes (st.step op).cache.root : Int) = cachedNodes st.cache.root + st.referencesOf op ∧
      (st.step op).cache.numCachedBlocks = UInt64.ofNat (cachedNodes (st.step op).cache.root) := by
  cases op with
  | insert tokens blocks =>
      have hnodes := cachedNodes_insert st.cache st.bm tokens (GivesBlocks.valid hop)
      refine ⟨?_, ?_⟩
      · show (cachedNodes (st.cache.insert st.bm tokens blocks).1.root : Int) = _
        rw [hnodes, Int.natCast_add]
        rfl
      · show (st.cache.insert st.bm tokens blocks).1.stats.cachedBlocks
          = UInt64.ofNat (cachedNodes (st.cache.insert st.bm tokens blocks).1.root)
        rw [hnodes, UInt64.ofNat_add, ← hgauge]
        exact foldl_inserted_cachedBlocks _ _
  | lookup query =>
      have hnodes : cachedNodes (st.step (.lookup query)).cache.root = cachedNodes st.cache.root :=
        cachedNodes_walk (lookupVisit_blockId _) query 0 _ st.cache.root
      have hstats : (st.step (.lookup query)).cache.numCachedBlocks = st.cache.numCachedBlocks := by
        simp only [step, lookup, numCachedBlocks, Stats.looked]
        split <;> rfl
      rw [hnodes, hstats]
      exact ⟨(Int.add_zero _).symm, hgauge⟩
  | release query =>
      have hnodes : cachedNodes (st.step (.release query)).cache.root = cachedNodes st.cache.root :=
        cachedNodes_walk (fun i _ n => releaseVisit_blockId _ i n) query 0 _ st.cache.root
      rw [hnodes]
      exact ⟨(Int.add_zero _).symm, hgauge⟩
  | evictLru n =>
      have hnil := evictionVictims_eq_nil hloses
      have hstats : (st.step (.evictLru n)).cache.numCachedBlocks = st.cache.numCachedBlocks := by
        simp [step, evictLru, numCachedBlocks, hnil]
      rw [hstats, referencesOf, hnil]
      exact ⟨(Int.add_zero _).symm, hgauge⟩
  | resetStats => exact ⟨(Int.add_zero _).symm, hloses.symm.trans hgauge⟩
  | allocateBlock s d => exact ⟨(Int.add_zero _).symm, hgauge⟩
  | freeBlocks s => exact ⟨(Int.add_zero _).symm, hgauge⟩

/-- A run that loses nothing keeps the books of a state in which they agree. -/
theorem run_balanced (ops : List Op) {st : System}
    (hgauge : st.cache.numCachedBlocks = UInt64.ofNat (cachedNodes st.cache.root))
    (hops : Run.AllOk step (fun st op => st.GivesBlocks op ∧ st.LosesNothing op) st ops) :
    (cachedNodes (ops.foldl step st).cache.root : Int) = cachedNodes st.cache.root + balance st ops ∧
      (ops.foldl step st).cache.numCachedBlocks
        = UInt64.ofNat (cachedNodes (ops.foldl step st).cache.root) := by
  induction ops generalizing st with
  | nil => exact ⟨(Int.add_zero _).symm, hgauge⟩
  | cons op ops ih =>
      obtain ⟨hnodes, hgauge'⟩ := step_balanced op hgauge hops.1.1 hops.1.2
      obtain ⟨hrest, hend⟩ := ih hgauge' hops.2
      refine ⟨?_, hend⟩
      rw [List.foldl_cons, balance]
      omega

/-- Where something is lost the books stop agreeing. -/
theorem losesNothing_of_balanced {st₀ : System} {pre : List Op} {op : Op}
    (hbefore : Balanced st₀ pre) (hafter : Balanced st₀ (pre ++ [op])) :
    (pre.foldl step st₀).LosesNothing op := by
  obtain ⟨href, hgauge⟩ := hbefore
  obtain ⟨href', hgauge'⟩ := hafter
  rw [balance_append] at href'
  rw [List.foldl_append] at href' hgauge'
  cases op with
  | evictLru n =>
      -- the nodes stay, so no reference was given back
      have hsum : balance st₀ pre + (-(((pre.foldl step st₀).cache.evictionVictims n).length : Int) + 0)
          = cachedNodes (pre.foldl step st₀).cache.root := href'
      have hlen : ((pre.foldl step st₀).cache.evictionVictims n).length = 0 := by omega
      exact dropsNothing_of_evictionVictims (List.length_eq_zero_iff.1 hlen)
  | resetStats => exact hgauge.trans hgauge'.symm
  | _ => trivial

/-- **The books of the cache agree exactly as long as nothing is lost.** In a run that inserts blocks of
    the pool, the references taken, the nodes that record a block and the gauge are equal in every state
    if and only if every `evict_lru` of the run finds nothing to drop and every `reset_stats` finds the
    gauge at zero. -/
theorem references_balance_iff (config : CacheConfig) (ops : List Op)
    (hops : Run.AllOk step (fun st op => st.GivesBlocks op) (init config) ops) :
    (∀ n ≤ ops.length, Balanced (init config) (ops.take n)) ↔
      Run.AllOk step (fun st op => st.LosesNothing op) (init config) ops := by
  constructor
  · intro hall
    refine Run.allOk_of_split ?_
    intro pre op post hsplit
    subst hsplit
    have hpre := hall pre.length (by simp)
    have hpost := hall (pre.length + 1) (by simp)
    rw [List.take_left] at hpre
    rw [List.take_length_add_append, List.take_succ_cons, List.take_zero] at hpost
    exact losesNothing_of_balanced hpre hpost
  · intro hloses n _
    have hboth := (Run.allOk_and.2 ⟨hops, hloses⟩).take n
    have hempty : (init config).cache.numCachedBlocks
        = UInt64.ofNat (cachedNodes (init config).cache.root) := rfl
    obtain ⟨hnodes, hgauge⟩ := run_balanced (ops.take n) hempty hboth
    refine ⟨?_, hgauge⟩
    rw [hnodes]
    exact (Int.zero_add _).symm

/-- The statistics are reset before the first insertion, and the eviction meets a prompt in use. -/
def balancedRun : List Op :=
  [.resetStats, .allocateBlock 1 .cuda, .insert [7, 8] [0], .evictLru 1, .lookup [7, 8]]

theorem balancedRun_balanced :
    let st₀ := init { numGpuBlocks := 2, numCpuBlocks := 1, blockSize := 2 }
    ∀ n ≤ balancedRun.length, Balanced st₀ (balancedRun.take n) :=
  (references_balance_iff _ balancedRun (by decide)).2 (by decide)

/-- A released prompt is evicted twice. -/
def evictedTwice : List Op :=
  [.allocateBlock 1 .cuda, .insert [7, 8] [0], .release [7, 8], .evictLru 1, .evictLru 1]

/-- The reference of the one node is dropped twice, the gauge wraps below zero, and a lookup still
    returns the block. A reset of the statistics alone is enough to part the gauge from the trie. -/
theorem evictedTwice_not_balanced :
    let st₀ := init { numGpuBlocks := 2, numCpuBlocks := 1, blockSize := 2 }
    let st := evictedTwice.foldl step st₀
    let reset := [Op.insert [7, 8] [0], .resetStats]
    Run.AllOk step (fun st op => st.GivesBlocks op) st₀ evictedTwice ∧
      balance st₀ evictedTwice = -1 ∧ cachedNodes st.cache.root = 1 ∧
      st.cache.numCachedBlocks = 18446744073709551615 ∧
      (st.cache.lookup [7, 8]).1.cachedBlocks = [0] ∧
      ¬ (∀ n ≤ evictedTwice.length, Balanced st₀ (evictedTwice.take n)) ∧
      Run.AllOk step (fun st op => st.GivesBlocks op) st₀ reset ∧ ¬ Balanced st₀ reset := by
  intro st₀ st reset
  have hbalance : balance st₀ evictedTwice = -1 := by decide
  have hnodes : cachedNodes st.cache.root = 1 := by decide
  refine ⟨by decide, hbalance, hnodes, by decide, by decide, ?_, by decide, ?_⟩
  · intro hall
    have href := (hall 5 (by decide)).references
    rw [show evictedTwice.take 5 = evictedTwice from rfl, hbalance] at href
    exact absurd (href.trans (congrArg Int.ofNat hnodes)) (by decide)
  · intro hbal
    exact absurd hbal.gauge (by decide)

end System

end CacheFlow.PrefixCache
