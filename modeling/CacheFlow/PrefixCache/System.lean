import CacheFlow.BlockManager.Ledger
import CacheFlow.Lib.TrieOrder
import CacheFlow.PrefixCache.Recorded

set_option autoImplicit false

/-! # The prefix cache on its block manager

The prefix cache shares the block manager with the sequences it serves. A `System` is the two together;
its operations are those of the cache and the allocation and release of sequences, in any order.

`held` is ghost state: the references the cache holds, one entry for each `increment_ref` of an
`insert` that no `decrement_ref` of an `evict_lru` has taken back. With it a system is a client of the
reference ledger: `ledger` is the state of `BlockManager/Ledger` it refines. -/

namespace CacheFlow.PrefixCache

structure System where
  cache : PrefixCache
  bm : BlockManager
  held : List BlockId := []

namespace System

inductive Op
  | allocateBlock (s : SeqId) (d : DeviceType)
  | freeBlocks (s : SeqId)
  | insert (tokens : List TokenId) (blocks : List BlockId)
  | lookup (query : List TokenId)
  | release (query : List TokenId)
  | evictLru (numBlocksToFree : Nat)
  | resetStats

/-- An empty cache on a fresh pool. -/
def init (config : CacheConfig) : System :=
  { cache := PrefixCache.new config, bm := BlockManager.new config }

def step (st : System) : Op → System
  | .allocateBlock s d => { st with bm := (st.bm.allocateBlock s d).2 }
  | .freeBlocks s => { st with bm := st.bm.freeBlocks s }
  | .insert tokens blocks =>
    { cache := (st.cache.insert st.bm tokens blocks).1,
      bm := (st.cache.insert st.bm tokens blocks).2,
      held := st.held ++ (st.cache.insertWalk tokens blocks).1.taken }
  | .lookup query => { st with cache := (st.cache.lookup query).2 }
  | .release query => { st with cache := st.cache.release query }
  | .evictLru n =>
    { cache := (st.cache.evictLru st.bm n).1,
      bm := (st.cache.evictLru st.bm n).2,
      held := (st.cache.evictionVictims n).foldl (fun held v => held.erase v.2) st.held }
  | .resetStats => { st with cache := st.cache.resetStats }

@[simp] theorem step_config (st : System) (op : Op) :
    (st.step op).cache.config = st.cache.config := by
  cases op <;> rfl

theorem run_config (st : System) (ops : List Op) :
    (ops.foldl step st).cache.config = st.cache.config := by
  induction ops generalizing st with
  | nil => rfl
  | cons op ops ih => rw [List.foldl_cons, ih, step_config]

/-- The system as a client of the reference ledger: the cache's references are holds of one owner. -/
def ledger (st : System) : BlockManager.LedgerState :=
  { bm := st.bm, holds := st.held.map (fun b => (0, .cuda, b)) }

theorem ledger_holdsOn (st : System) (d : DeviceType) (b : BlockId) :
    st.ledger.holdsOn (d, b) = if d = .cuda then st.held.count b else 0 := by
  rw [BlockManager.LedgerState.holdsOn, ledger, List.countP_map]
  by_cases hd : d = .cuda
  · subst hd
    rw [if_pos rfl]
    refine List.countP_congr ?_
    intro b' _
    simp
  · rw [if_neg hd, List.countP_eq_zero]
    intro b' _
    simp [Ne.symm hd]

/-- The contract of the callers: `insert` is given allocated GPU blocks. -/
def Permitted (st : System) : Op → Prop
  | .insert _ blocks => ∀ b ∈ blocks, 0 < st.bm.refCount .cuda b
  | _ => True

instance (st : System) : ∀ op, Decidable (st.Permitted op)
  | .insert _ blocks => inferInstanceAs (Decidable (∀ b ∈ blocks, 0 < st.bm.refCount .cuda b))
  | .allocateBlock _ _ | .freeBlocks _ | .lookup _ | .release _ | .evictLru _ | .resetStats =>
    isTrue trivial

/-- Blocks given to `insert` are blocks of the GPU pool. -/
def GivesBlocks (st : System) : Op → Prop
  | .insert _ blocks => ∀ b ∈ blocks, st.bm.InRange .cuda b
  | _ => True

instance (st : System) : ∀ op, Decidable (st.GivesBlocks op)
  | .insert _ blocks => inferInstanceAs (Decidable (∀ b ∈ blocks, 0 ≤ b ∧ b.toNat < _))
  | .allocateBlock _ _ | .freeBlocks _ | .lookup _ | .release _ | .evictLru _ | .resetStats =>
    isTrue trivial

theorem GivesBlocks.valid {st : System} {tokens : List TokenId} {blocks : List BlockId}
    (h : st.GivesBlocks (.insert tokens blocks)) : invalidBlock ∉ blocks :=
  fun hmem => (h _ hmem).ne_invalidBlock rfl

/-! ## The trie along a run -/

/-- The trie is indexed by token paths: each node ends one path, and blocks are recorded at block
    boundaries only. -/
structure Indexed (st : System) : Prop where
  keys : st.cache.root.KeysNodup
  aligned : ∀ q b, blockAt st.cache.root q = some b → q ≠ [] ∧ st.cache.config.blockSize ∣ q.length

theorem init_indexed (config : CacheConfig) : Indexed (init config) := by
  refine ⟨Trie.keysNodup_leaf _, ?_⟩
  intro q b hb
  cases q with
  | nil => cases hb
  | cons k q => cases hb

theorem step_indexed {st : System} (op : Op) (h : Indexed st) (hop : st.GivesBlocks op) :
    Indexed (st.step op) := by
  cases op with
  | insert tokens blocks =>
      refine ⟨h.keys.walk tokens 0 _, ?_⟩
      intro q b hb
      have hroot : (st.cache.insert st.bm tokens blocks).1.root.data = st.cache.root.data :=
        Trie.data_walk tokens 0 _ st.cache.root
      have hq : q ≠ [] := by
        rintro rfl
        have hb' : recorded (st.cache.insert st.bm tokens blocks).1.root.data.blockId = some b := by
          rw [← blockAt_nil]
          exact hb
        rw [hroot, ← blockAt_nil] at hb'
        exact (h.aligned [] b hb').1 rfl
      refine ⟨hq, ?_⟩
      have hins := (blockAt_insert st.cache st.bm hop.valid tokens hq).symm.trans hb
      rcases Option.or_eq_some_iff.1 hins with hold | ⟨-, hnew⟩
      · exact (h.aligned q b hold).2
      · split at hnew
        · next hcond => exact hcond.2
        · cases hnew
  | lookup query =>
      refine ⟨h.keys.walk query 0 _, ?_⟩
      intro q b hb
      exact h.aligned q b ((blockAt_lookup st.cache query q).symm.trans hb)
  | release query =>
      refine ⟨h.keys.walk query 0 _, ?_⟩
      intro q b hb
      exact h.aligned q b ((blockAt_release st.cache query q).symm.trans hb)
  | allocateBlock s d => exact ⟨h.keys, h.aligned⟩
  | freeBlocks s => exact ⟨h.keys, h.aligned⟩
  | evictLru n => exact ⟨h.keys, h.aligned⟩
  | resetStats => exact ⟨h.keys, h.aligned⟩

/-- Every node that records a block can be looked up. -/
theorem Indexed.exists_lookup {st : System} (h : Indexed st) {n : PrefixTrieNode}
    (hn : n ∈ st.cache.root.toList) (hvalid : n.blockId ≠ invalidBlock) :
    ∃ query, n.blockId ∈ (st.cache.lookup query).1.cachedBlocks := by
  obtain ⟨q, u, hu, rfl⟩ := Trie.exists_descend_of_mem h.keys hn
  have hblock : blockAt st.cache.root q = some u.data.blockId := by
    rw [blockAt, hu]
    exact recorded_eq_some.2 ⟨rfl, hvalid⟩
  obtain ⟨hq, hdvd⟩ := h.aligned q _ hblock
  exact ⟨q, mem_lookup_of_blockAt st.cache hq hdvd (List.prefix_refl q) hblock⟩

end System

end CacheFlow.PrefixCache
