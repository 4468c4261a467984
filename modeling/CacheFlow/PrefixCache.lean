import CacheFlow.BlockManager
import CacheFlow.Lib.Trie
import Mathlib.Data.List.Sort
import Mathlib.Data.Prod.Lex

set_option autoImplicit false

/-! # The prefix cache

`PrefixCache` keeps the blocks of prompts that share a prefix. Its trie has one node per token prefix;
a node whose depth is a multiple of the block size may record the block that holds the last
`block_size` tokens of its prefix. `insert` takes a reference on every block it records, `evict_lru`
gives references back.

The model is the trie of `Lib/Trie` with the fields of `PrefixTrieNode` as its data. The loops of
`lookup`, `insert` and `release` are walks of that trie, each given by the body of its loop. Access
times are `Nat` (fewer than `2^64` accesses), the counters of `Stats` wrap as `uint64_t` and `size_t`
do. The trie does not read the block manager, so a walk only records which references it takes and
`insert` performs the calls in that order. -/

namespace CacheFlow

/-- `PrefixTrieNode` without its children. -/
structure PrefixTrieNode where
  blockId : BlockId := invalidBlock
  tokensInBlock : Nat := 0
  lastAccess : Nat := 0
  refCount : Int := 0
  deriving DecidableEq, Repr

namespace PrefixCache

structure LookupResult where
  cachedBlocks : List BlockId := []
  matchedTokens : Nat := 0
  deriving DecidableEq, Repr

structure Stats where
  lookups : UInt64 := 0
  hits : UInt64 := 0
  misses : UInt64 := 0
  insertions : UInt64 := 0
  evictions : UInt64 := 0
  cachedBlocks : UInt64 := 0
  deriving DecidableEq, Repr

end PrefixCache

structure PrefixCache where
  config : CacheConfig
  root : Trie TokenId PrefixTrieNode := Trie.leaf {}
  stats : PrefixCache.Stats := {}
  accessClock : Nat := 0

namespace PrefixCache

def new (config : CacheConfig) : PrefixCache := { config := config }

/-! ## Lookup -/

/-- What the loop of `lookup` carries from token to token. -/
structure LookupState where
  result : LookupResult := {}
  accessClock : Nat

/-- The body of the loop of `lookup`, at the node that token `i` leads to. -/
def lookupVisit (blockSize : Nat) (i : Nat) (s : LookupState) (node : PrefixTrieNode) :
    LookupState × PrefixTrieNode :=
  if (i + 1) % blockSize = 0 ∧ node.blockId ≠ invalidBlock then
    ({ result :=
        { cachedBlocks := s.result.cachedBlocks ++ [node.blockId], matchedTokens := i + 1 },
       accessClock := s.accessClock + 1 },
     { node with lastAccess := s.accessClock + 1 })
  else (s, node)

def lookupWalk (pc : PrefixCache) (query : List TokenId) :
    LookupState × Trie TokenId PrefixTrieNode :=
  Trie.walk none (fun _ => true) (lookupVisit pc.config.blockSize) query 0
    { accessClock := pc.accessClock } pc.root

/-- The statistics of a lookup that returned `result`. -/
def Stats.looked (stats : Stats) (result : LookupResult) : Stats :=
  if result.cachedBlocks ≠ [] then
    { stats with lookups := stats.lookups + 1, hits := stats.hits + 1 }
  else { stats with lookups := stats.lookups + 1, misses := stats.misses + 1 }

/-- `lookup` is declared `const` but writes access times, the clock and the statistics. -/
def lookup (pc : PrefixCache) (query : List TokenId) : LookupResult × PrefixCache :=
  let r := pc.lookupWalk query
  (r.1.result,
    { pc with
      root := r.2, accessClock := r.1.accessClock, stats := pc.stats.looked r.1.result })

/-! ## Insertion -/

/-- What the loop of `insert` carries from token to token; `taken` lists the blocks on which
    `increment_ref` was called. -/
structure InsertState where
  blockIdx : Nat := 0
  accessClock : Nat
  taken : List BlockId := []

/-- The second condition of the loop of `insert`. -/
def blocksLeft (blocks : List BlockId) (s : InsertState) : Bool :=
  decide (s.blockIdx < blocks.length)

/-- The body of the loop of `insert`, at the node that token `i` leads to. A node that already records
    a block keeps it, and the block given for it is passed over. -/
def insertVisit (blockSize : Nat) (blocks : List BlockId) (i : Nat) (s : InsertState)
    (node : PrefixTrieNode) : InsertState × PrefixTrieNode :=
  if (i + 1) % blockSize = 0 then
    if node.blockId = invalidBlock then
      let bid := blocks.getD s.blockIdx invalidBlock
      ({ blockIdx := s.blockIdx + 1, accessClock := s.accessClock + 1, taken := s.taken ++ [bid] },
       { blockId := bid, tokensInBlock := blockSize, refCount := 1,
         lastAccess := s.accessClock + 1 })
    else
      ({ s with blockIdx := s.blockIdx + 1, accessClock := s.accessClock + 1 },
       { node with lastAccess := s.accessClock + 1 })
  else (s, node)

def insertWalk (pc : PrefixCache) (tokens : List TokenId) (blocks : List BlockId) :
    InsertState × Trie TokenId PrefixTrieNode :=
  Trie.walk (some {}) (blocksLeft blocks) (insertVisit pc.config.blockSize blocks) tokens 0
    { accessClock := pc.accessClock } pc.root

/-- The statistics of one block recorded. -/
def Stats.inserted (stats : Stats) : Stats :=
  { stats with insertions := stats.insertions + 1, cachedBlocks := stats.cachedBlocks + 1 }

def insert (pc : PrefixCache) (bm : BlockManager) (tokens : List TokenId)
    (blocks : List BlockId) : PrefixCache × BlockManager :=
  let r := pc.insertWalk tokens blocks
  ({ pc with
      root := r.2, accessClock := r.1.accessClock,
      stats := r.1.taken.foldl (fun stats _ => stats.inserted) pc.stats },
   r.1.taken.foldl (fun bm bid => bm.incrementRef bid .cuda) bm)

/-! ## Release -/

/-- The body of the loop of `release`, at the node that token `i` leads to. -/
def releaseVisit (blockSize : Nat) (i : Nat) (_ : Unit) (node : PrefixTrieNode) :
    Unit × PrefixTrieNode :=
  if (i + 1) % blockSize = 0 ∧ node.blockId ≠ invalidBlock then
    ((), { node with refCount := node.refCount - 1 })
  else ((), node)

def release (pc : PrefixCache) (query : List TokenId) : PrefixCache :=
  { pc with
    root := (Trie.walk none (fun _ => true) (releaseVisit pc.config.blockSize) query 0 ()
      pc.root).2 }

/-! ## Eviction -/

/-- The test of `collect_eviction_candidates` at one node. -/
def evictable (node : PrefixTrieNode) : Bool :=
  decide (node.blockId ≠ invalidBlock ∧ node.refCount ≤ 0)

/-- Access time and block of every evictable node. The source visits the children of a node in the
    order of a hash map; the sort that follows makes the order immaterial. -/
def collectEvictionCandidates (node : Trie TokenId PrefixTrieNode) : List (Nat × BlockId) :=
  (node.toList.filter evictable).map (fun n => (n.lastAccess, n.blockId))

/-- The candidates `evict_lru(n)` drops: the first `n` in the order of `std::pair`. -/
def evictionVictims (pc : PrefixCache) (n : Nat) : List (Nat × BlockId) :=
  ((collectEvictionCandidates pc.root).insertionSort
    (fun a b => a.1 < b.1 ∨ (a.1 = b.1 ∧ a.2 ≤ b.2))).take n

/-- The statistics of one reference dropped. -/
def Stats.evicted (stats : Stats) : Stats :=
  { stats with evictions := stats.evictions + 1, cachedBlocks := stats.cachedBlocks - 1 }

/-- `evict_lru` gives the reference back and counts the eviction; the node keeps its block. -/
def evictLru (pc : PrefixCache) (bm : BlockManager) (numBlocksToFree : Nat) :
    PrefixCache × BlockManager :=
  let victims := pc.evictionVictims numBlocksToFree
  ({ pc with stats := victims.foldl (fun stats _ => stats.evicted) pc.stats },
   victims.foldl (fun bm v => bm.decrementRef v.2 .cuda) bm)

/-! ## Statistics -/

def numCachedBlocks (pc : PrefixCache) : UInt64 := pc.stats.cachedBlocks

def numCachedPrefixes (pc : PrefixCache) : UInt64 := pc.stats.insertions

def resetStats (pc : PrefixCache) : PrefixCache := { pc with stats := {} }

end PrefixCache

end CacheFlow
