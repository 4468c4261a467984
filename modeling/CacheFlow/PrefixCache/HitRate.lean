import CacheFlow.PrefixCache.Refinement
import CacheFlow.Scheduler.Groups
import Mathlib.Algebra.Field.Rat

set_option autoImplicit false

/-! # What the hit rate measures

`lookup` counts a hit when it returns a block, and `hit_rate()` is the part of the lookups that were hits. Since
an insertion covers the boundaries of its prompt without a hole, a lookup returns a block exactly when it
returns the first one. So the hit rate depends on the first blocks of tokens only: it is the part of the lookups
whose first block of tokens is the one of an earlier insertion (`tally_run`). How many tokens are shared beyond
that does not matter, neither do evictions, which leave the trie as it is, nor releases.

`run_prefix_cache_bench` looks up prompts that share a prefix of a given length. The rate it reports is 1 or 0:
1 when the shared prefix fills a block (`hitRate_bench`). -/

namespace CacheFlow.PrefixCache

/-- `hit_rate()`, in exact arithmetic. -/
def hitRate (K : Type) [Field K] (pc : PrefixCache) : K :=
  if pc.stats.lookups = 0 then 0 else (pc.stats.hits.toNat : K) / (pc.stats.lookups.toNat : K)

/-! ## The count without a trie -/

/-- The first block of tokens of `query` is the one of an insertion with a block for it. -/
def firstBlockInserted (bs : Nat) (inserts : List (List TokenId × List BlockId))
    (query : List TokenId) : Bool :=
  decide (bs ≤ query.length) && inserts.any (covers bs query 1)

/-- The insertions so far, and the lookups since the statistics were reset. -/
structure Tally where
  inserts : List (List TokenId × List BlockId) := []
  lookups : Nat := 0
  hits : Nat := 0

namespace Tally

/-- One operation of the system. -/
def step (bs : Nat) (t : Tally) : System.Op → Tally
  | .insert tokens blocks => { t with inserts := t.inserts ++ [(tokens, blocks)] }
  | .lookup query =>
    { t with
      lookups := t.lookups + 1,
      hits := if firstBlockInserted bs t.inserts query then t.hits + 1 else t.hits }
  | .resetStats => { t with lookups := 0, hits := 0 }
  | .allocateBlock .. | .freeBlocks _ | .release _ | .evictLru _ => t

def of (bs : Nat) (ops : List System.Op) : Tally := ops.foldl (step bs) {}

theorem of_append (bs : Nat) (ops : List System.Op) (op : System.Op) :
    of bs (ops ++ [op]) = (of bs ops).step bs op := by
  rw [of, List.foldl_append]
  rfl

theorem inserts_of (bs : Nat) (ops : List System.Op) : (of bs ops).inserts = System.insertsOf ops := by
  induction ops using List.reverseRecOn with
  | nil => rfl
  | append_singleton ops op ih =>
      rw [of_append, System.insertsOf_append, ← ih]
      cases op with
      | insert tokens blocks => rfl
      | lookup query => exact (List.append_nil _).symm
      | resetStats => exact (List.append_nil _).symm
      | allocateBlock s d => exact (List.append_nil _).symm
      | freeBlocks s => exact (List.append_nil _).symm
      | release query => exact (List.append_nil _).symm
      | evictLru n => exact (List.append_nil _).symm

theorem hits_le (bs : Nat) (ops : List System.Op) : (of bs ops).hits ≤ (of bs ops).lookups := by
  induction ops using List.reverseRecOn with
  | nil => exact Nat.le_refl 0
  | append_singleton ops op ih =>
      rw [of_append]
      cases op with
      | lookup query =>
          simp only [step]
          split
          · exact Nat.succ_le_succ ih
          · exact Nat.le_succ_of_le ih
      | resetStats => exact Nat.le_refl 0
      | insert tokens blocks => exact ih
      | allocateBlock s d => exact ih
      | freeBlocks s => exact ih
      | release query => exact ih
      | evictLru n => exact ih

end Tally

/-! ## A lookup hits when it finds the first block -/

theorem firstBlockInserted_iff {bs : Nat} {inserts : List (List TokenId × List BlockId)}
    {query : List TokenId} : firstBlockInserted bs inserts query = true ↔
      bs ≤ query.length ∧ (firstWriter bs inserts query 1).isSome := by
  rw [firstBlockInserted, Bool.and_eq_true, decide_eq_true_iff, List.any_eq_true,
    firstWriter_isSome (Nat.le_refl 1)]

namespace System

variable {config : CacheConfig} {ops : List Op}

/-- **A hit**: after any run a lookup returns a block exactly when the first block of the query was
    inserted. -/
theorem lookup_hit_iff (hbs : 1 ≤ config.blockSize)
    (hops : ∀ ins ∈ insertsOf ops, invalidBlock ∉ ins.2) (query : List TokenId) :
    ((ops.foldl step (init config)).cache.lookup query).1.cachedBlocks ≠ [] ↔
      firstBlockInserted config.blockSize (insertsOf ops) query = true := by
  have hconf : (ops.foldl step (init config)).cache.config = config := run_config (init config) ops
  obtain ⟨k, hk, hsome, hnone⟩ := exists_last_boundary config.blockSize (insertsOf ops) query
  have hblock : ∀ m, 1 ≤ m → m ≤ query.length / config.blockSize →
      blockAt (ops.foldl step (init config)).cache.root (query.take (m * config.blockSize))
        = firstWriter config.blockSize (insertsOf ops) query m :=
    fun m hm hle => blockAt_run config hbs ops hops query hm
      ((Nat.mul_le_mul_right _ hle).trans (Nat.div_mul_le_self _ _))
  have hresult := lookup_of_boundaries (ops.foldl step (init config)).cache query
    (B := firstWriter config.blockSize (insertsOf ops) query) (k := k)
  rw [hconf] at hresult
  have hlen := congrArg List.length (hresult hk hblock hsome hnone).1
  rw [List.length_map, List.length_map, List.length_range] at hlen
  rw [← List.length_pos_iff, hlen, firstBlockInserted_iff]
  constructor
  · intro hpos
    have hone := (Nat.le_div_iff_mul_le hbs).1 (Nat.le_trans hpos hk)
    exact ⟨by omega, hsome 1 (Nat.le_refl 1) hpos⟩
  · rintro ⟨hle, hfirst⟩
    by_contra hzero
    have hone : 1 ≤ query.length / config.blockSize := (Nat.le_div_iff_mul_le hbs).2 (by omega)
    rw [hnone 1 (by omega) hone] at hfirst
    cases hfirst

/-- The counters of the statistics, modulo their width. -/
structure Counted (t : Tally) (stats : Stats) : Prop where
  lookups : stats.lookups = UInt64.ofNat t.lookups
  hits : stats.hits = UInt64.ofNat t.hits
  misses : stats.misses = UInt64.ofNat (t.lookups - t.hits)

/-- Blocks that are recorded or given back do not count as lookups. -/
theorem foldl_stats_same {α : Type} {f : Stats → Stats}
    (hf : ∀ s, (f s).lookups = s.lookups ∧ (f s).hits = s.hits ∧ (f s).misses = s.misses) (l : List α)
    (stats : Stats) : (l.foldl (fun s _ => f s) stats).lookups = stats.lookups ∧
      (l.foldl (fun s _ => f s) stats).hits = stats.hits ∧
      (l.foldl (fun s _ => f s) stats).misses = stats.misses := by
  induction l generalizing stats with
  | nil => exact ⟨rfl, rfl, rfl⟩
  | cons a l ih =>
      obtain ⟨hlookups, hhits, hmisses⟩ := ih (f stats)
      obtain ⟨hlookups', hhits', hmisses'⟩ := hf stats
      exact ⟨hlookups.trans hlookups', hhits.trans hhits', hmisses.trans hmisses'⟩

theorem Counted.looked {t : Tally} {stats : Stats} {result : LookupResult} {bs : Nat}
    {query : List TokenId} (h : Counted t stats) (hle : t.hits ≤ t.lookups)
    (hhit : result.cachedBlocks ≠ [] ↔ firstBlockInserted bs t.inserts query = true) :
    Counted (t.step bs (.lookup query)) (stats.looked result) := by
  by_cases hknown : firstBlockInserted bs t.inserts query = true
  · rw [Stats.looked, if_pos (hhit.2 hknown)]
    have hstep : t.step bs (.lookup query)
        = { t with lookups := t.lookups + 1, hits := t.hits + 1 } := by
      simp [Tally.step, hknown]
    rw [hstep]
    refine ⟨?_, ?_, ?_⟩
    · rw [h.lookups, UInt64.ofNat_add]
      rfl
    · rw [h.hits, UInt64.ofNat_add]
      rfl
    · rw [h.misses, Nat.add_sub_add_right]
  · rw [Stats.looked, if_neg (fun hne => hknown (hhit.1 hne))]
    have hstep : t.step bs (.lookup query) = { t with lookups := t.lookups + 1 } := by
      simp [Tally.step, hknown]
    rw [hstep]
    refine ⟨?_, h.hits, ?_⟩
    · rw [h.lookups, UInt64.ofNat_add]
      rfl
    · rw [h.misses, Nat.sub_add_comm hle, UInt64.ofNat_add]
      rfl

/-- **The statistics refine the count.** In every run, whatever is evicted, released, allocated or freed in
    between, the counters of lookups are those of the tally. -/
theorem tally_run (config : CacheConfig) (hbs : 1 ≤ config.blockSize) (ops : List Op)
    (hops : ∀ tokens blocks, Op.insert tokens blocks ∈ ops → invalidBlock ∉ blocks) :
    Counted (Tally.of config.blockSize ops) (ops.foldl step (init config)).cache.stats := by
  induction ops using List.reverseRecOn with
  | nil => exact ⟨rfl, rfl, rfl⟩
  | append_singleton ops op ih =>
      have hold := ih (fun tokens blocks hmem => hops tokens blocks (List.mem_append_left _ hmem))
      rw [Tally.of_append, List.foldl_append, List.foldl_cons, List.foldl_nil]
      cases op with
      | lookup query =>
          have hins : ∀ ins ∈ insertsOf ops, invalidBlock ∉ ins.2 := fun ins hmem =>
            hops _ _ (List.mem_append_left _ (mem_insertsOf hmem))
          refine hold.looked (Tally.hits_le config.blockSize ops) ?_
          rw [Tally.inserts_of]
          exact lookup_hit_iff hbs hins query
      | insert tokens blocks =>
          obtain ⟨hlookups, hhits, hmisses⟩ := foldl_stats_same (f := Stats.inserted)
            (fun _ => ⟨rfl, rfl, rfl⟩)
            ((ops.foldl step (init config)).cache.insertWalk tokens blocks).1.taken
            (ops.foldl step (init config)).cache.stats
          exact ⟨hlookups.trans hold.lookups, hhits.trans hold.hits, hmisses.trans hold.misses⟩
      | evictLru n =>
          obtain ⟨hlookups, hhits, hmisses⟩ := foldl_stats_same (f := Stats.evicted)
            (fun _ => ⟨rfl, rfl, rfl⟩) ((ops.foldl step (init config)).cache.evictionVictims n)
            (ops.foldl step (init config)).cache.stats
          exact ⟨hlookups.trans hold.lookups, hhits.trans hold.hits, hmisses.trans hold.misses⟩
      | resetStats => exact ⟨rfl, rfl, rfl⟩
      | allocateBlock s d => exact hold
      | freeBlocks s => exact hold
      | release query => exact hold

theorem Counted.toNat {t : Tally} {stats : Stats} (h : Counted t stats) (hle : t.hits ≤ t.lookups)
    (hlt : t.lookups < 2 ^ 64) : stats.lookups.toNat = t.lookups ∧ stats.hits.toNat = t.hits ∧
      stats.misses.toNat = t.lookups - t.hits := by
  rw [h.lookups, h.hits, h.misses]
  exact ⟨UInt64.toNat_ofNat_of_lt hlt, UInt64.toNat_ofNat_of_lt (Nat.lt_of_le_of_lt hle hlt),
    UInt64.toNat_ofNat_of_lt (Nat.lt_of_le_of_lt (Nat.sub_le _ _) hlt)⟩

theorem Counted.hitRate {K : Type} [Field K] {t : Tally} {pc : PrefixCache} (h : Counted t pc.stats)
    (hle : t.hits ≤ t.lookups) (hlt : t.lookups < 2 ^ 64) :
    pc.hitRate K = (t.hits : K) / (t.lookups : K) := by
  obtain ⟨hlookups, hhits, -⟩ := h.toNat hle hlt
  rw [PrefixCache.hitRate, hlookups, hhits]
  split
  · next hzero =>
      rw [hzero] at hlookups
      have hnone : t.lookups = 0 := hlookups.symm
      rw [hnone, Nat.cast_zero, div_zero]
  · rfl

/-- **What the hit rate measures.** In every run of insertions of valid blocks, lookups, releases, evictions,
    allocations and resets with fewer than `2 ^ 64` lookups, the lookups since the last reset are hits and
    misses, and the hits are those whose first block of tokens had been the first block of an insertion. -/
theorem hit_rate_first_blocks (K : Type) [Field K] (config : CacheConfig) (hbs : 1 ≤ config.blockSize)
    (ops : List Op)
    (hops : ∀ tokens blocks, Op.insert tokens blocks ∈ ops → invalidBlock ∉ blocks)
    (hlt : (Tally.of config.blockSize ops).lookups < 2 ^ 64) :
    let t := Tally.of config.blockSize ops
    let pc := (ops.foldl step (init config)).cache
    pc.stats.lookups.toNat = t.lookups ∧ pc.stats.hits.toNat = t.hits ∧
      pc.stats.misses.toNat = t.lookups - t.hits ∧ pc.hitRate K = (t.hits : K) / (t.lookups : K) := by
  have hcounted := tally_run config hbs ops hops
  have hle := Tally.hits_le config.blockSize ops
  obtain ⟨hlookups, hhits, hmisses⟩ := hcounted.toNat hle hlt
  exact ⟨hlookups, hhits, hmisses, hcounted.hitRate hle hlt⟩

/-- Three prompts that share two, one and no blocks with what was inserted, and an eviction in between. -/
def threeLookups : List Op :=
  [.lookup [1, 2], .resetStats, .insert [1, 2, 3, 4] [10, 11], .lookup [1, 2, 3, 4, 5], .release [1, 2],
    .evictLru 1, .lookup [1, 2, 9], .lookup [3, 4]]

theorem threeLookups_hitRate :
    let pc := (threeLookups.foldl step (init { blockSize := 2 })).cache
    pc.stats.lookups.toNat = 3 ∧ pc.stats.hits.toNat = 2 ∧ pc.hitRate ℚ = 2 / 3 := by
  have hvalid : ∀ tokens blocks, Op.insert tokens blocks ∈ threeLookups → invalidBlock ∉ blocks := by
    intro tokens blocks hmem
    simp only [threeLookups, List.mem_cons, List.not_mem_nil, Op.insert.injEq, reduceCtorEq, false_or,
      or_false] at hmem
    rw [hmem.2]
    decide
  obtain ⟨hlookups, hhits, -, hrate⟩ :=
    hit_rate_first_blocks ℚ { blockSize := 2 } (by decide) threeLookups hvalid (by decide)
  exact ⟨hlookups, hhits, hrate⟩

end System

/-! ## The prefix benchmark -/

/-- The cache at the end of `run_prefix_cache_bench`, for a shared prefix and what follows it in the
    prompts that are looked up. -/
def runPrefixCacheBench (cache : CacheConfig) (sharedPrefix : List TokenId)
    (suffixes : List (List TokenId)) : PrefixCache :=
  let numBlocks := sharedPrefix.length / cache.blockSize
  let allocated := (BlockManager.new cache).allocateSeries .cuda (List.replicate numBlocks 0)
  let pc := ((new cache).insert allocated.2 sharedPrefix allocated.1).1
  suffixes.foldl (fun pc suffix => (pc.lookup (sharedPrefix ++ suffix)).2) pc

/-- The benchmark as a run of the system. -/
def benchOps (cache : CacheConfig) (sharedPrefix : List TokenId)
    (suffixes : List (List TokenId)) : List System.Op :=
  .insert sharedPrefix ((BlockManager.new cache).allocateSeries .cuda
      (List.replicate (sharedPrefix.length / cache.blockSize) 0)).1
    :: suffixes.map (fun suffix => .lookup (sharedPrefix ++ suffix))

theorem runPrefixCacheBench_eq (cache : CacheConfig) (sharedPrefix : List TokenId)
    (suffixes : List (List TokenId)) :
    runPrefixCacheBench cache sharedPrefix suffixes
      = ((benchOps cache sharedPrefix suffixes).foldl System.step (System.init cache)).cache := by
  have hlookups : ∀ (l : List (List TokenId)) (st : System),
      ((l.map (fun suffix => System.Op.lookup (sharedPrefix ++ suffix))).foldl System.step st).cache
        = l.foldl (fun pc suffix => (pc.lookup (sharedPrefix ++ suffix)).2) st.cache := by
    intro l
    induction l with
    | nil => exact fun _ => rfl
    | cons suffix l ih => exact fun st => ih (st.step (.lookup (sharedPrefix ++ suffix)))
  rw [benchOps, List.foldl_cons, hlookups]
  rfl

section Bench

variable {cache : CacheConfig} {sharedPrefix : List TokenId}

/-- The blocks of the shared prefix. -/
theorem bench_blocks (hroom : sharedPrefix.length / cache.blockSize ≤ cache.numGpuBlocks) :
    invalidBlock ∉ ((BlockManager.new cache).allocateSeries .cuda
        (List.replicate (sharedPrefix.length / cache.blockSize) 0)).1 ∧
      ((BlockManager.new cache).allocateSeries .cuda
        (List.replicate (sharedPrefix.length / cache.blockSize) 0)).1.length
        = sharedPrefix.length / cache.blockSize := by
  have hfree : ((BlockManager.new cache).freeList .cuda).length = cache.numGpuBlocks := by
    simp [BlockManager.new, BlockManager.countFor, BlockManager.initFreeList]
  have hseries : ((BlockManager.new cache).allocateSeries .cuda
      (List.replicate (sharedPrefix.length / cache.blockSize) 0)).1
      = ((BlockManager.new cache).freeList .cuda).take
        (List.replicate (sharedPrefix.length / cache.blockSize) (0 : SeqId)).length :=
    BlockManager.allocateSeries_fst _ _ (by rw [List.length_replicate, hfree]; exact hroom)
      (BlockManager.freeInRange_new cache .cuda)
  rw [hseries, List.length_replicate, List.length_take, hfree]
  refine ⟨fun hmem => ?_, Nat.min_eq_left hroom⟩
  exact (BlockManager.freeInRange_new cache .cuda _ (List.mem_of_mem_take hmem)).ne_invalidBlock rfl

theorem bench_firstBlockInserted {bids : List BlockId} (hbs : 1 ≤ cache.blockSize)
    (hlen : bids.length = sharedPrefix.length / cache.blockSize) (suffix : List TokenId) :
    firstBlockInserted cache.blockSize [(sharedPrefix, bids)] (sharedPrefix ++ suffix)
      = decide (cache.blockSize ≤ sharedPrefix.length) := by
  have hone : 1 ≤ bids.length ↔ cache.blockSize ≤ sharedPrefix.length := by
    rw [hlen, Nat.le_div_iff_mul_le hbs, Nat.one_mul]
  have hcover : covers cache.blockSize (sharedPrefix ++ suffix) 1 (sharedPrefix, bids)
      = decide (cache.blockSize ≤ sharedPrefix.length) := by
    rw [covers, decide_eq_decide, hone, Nat.one_mul]
    refine ⟨fun h => h.2, fun hle => ⟨?_, hle⟩⟩
    rw [List.take_append_of_le_length hle]
    exact List.take_prefix _ _
  rw [firstBlockInserted, List.any_cons, List.any_nil, Bool.or_false, hcover]
  by_cases hle : cache.blockSize ≤ sharedPrefix.length
  · have hle' : cache.blockSize ≤ sharedPrefix.length + suffix.length := Nat.le_add_right_of_le hle
    simp [hle, hle']
  · simp [hle]

/-- Every lookup of the benchmark is a hit, or none is. -/
theorem bench_tally (hbs : 1 ≤ cache.blockSize)
    (hroom : sharedPrefix.length / cache.blockSize ≤ cache.numGpuBlocks)
    (suffixes : List (List TokenId)) :
    (Tally.of cache.blockSize (benchOps cache sharedPrefix suffixes)).lookups = suffixes.length ∧
      (Tally.of cache.blockSize (benchOps cache sharedPrefix suffixes)).hits
        = if cache.blockSize ≤ sharedPrefix.length then suffixes.length else 0 := by
  obtain ⟨-, hlen⟩ := bench_blocks hroom
  have hrun : ∀ (l : List (List TokenId)) (t : Tally),
      t.inserts = [(sharedPrefix, ((BlockManager.new cache).allocateSeries .cuda
        (List.replicate (sharedPrefix.length / cache.blockSize) 0)).1)] →
      ((l.map (fun suffix => System.Op.lookup (sharedPrefix ++ suffix))).foldl
          (Tally.step cache.blockSize) t).lookups = t.lookups + l.length ∧
        ((l.map (fun suffix => System.Op.lookup (sharedPrefix ++ suffix))).foldl
          (Tally.step cache.blockSize) t).hits
          = t.hits + if cache.blockSize ≤ sharedPrefix.length then l.length else 0 := by
    intro l
    induction l with
    | nil => intro t _; simp
    | cons suffix l ih =>
        intro t hins
        obtain ⟨hlookups, hhits⟩ := ih (t.step cache.blockSize (.lookup (sharedPrefix ++ suffix))) hins
        have hknown := bench_firstBlockInserted hbs hlen suffix
        rw [← hins] at hknown
        simp only [Tally.step, hknown, decide_eq_true_eq] at hlookups hhits
        rw [List.map_cons, List.foldl_cons, List.length_cons]
        simp only [Tally.step, hknown, decide_eq_true_eq, hlookups, hhits]
        refine ⟨by omega, ?_⟩
        split
        · omega
        · rfl
  obtain ⟨hlookups, hhits⟩ := hrun suffixes
    { inserts := [(sharedPrefix, ((BlockManager.new cache).allocateSeries .cuda
      (List.replicate (sharedPrefix.length / cache.blockSize) 0)).1)] } rfl
  rw [Nat.zero_add] at hlookups hhits
  exact ⟨hlookups, hhits⟩

/-- **The prefix benchmark reports 1 or 0.** With blocks for the shared prefix, the hit rate is 1 when the
    prefix fills a block and something was looked up, and 0 otherwise, however long the prompts are. -/
theorem hitRate_bench (K : Type) [Field K] [CharZero K] (cache : CacheConfig)
    (hbs : 1 ≤ cache.blockSize) (sharedPrefix : List TokenId)
    (hroom : sharedPrefix.length / cache.blockSize ≤ cache.numGpuBlocks)
    (suffixes : List (List TokenId)) (hlt : suffixes.length < 2 ^ 64) :
    (runPrefixCacheBench cache sharedPrefix suffixes).hitRate K
      = if suffixes ≠ [] ∧ cache.blockSize ≤ sharedPrefix.length then 1 else 0 := by
  obtain ⟨hvalid, -⟩ := bench_blocks hroom
  obtain ⟨hlookups, hhits⟩ := bench_tally hbs hroom suffixes
  have hops : ∀ tokens blocks, System.Op.insert tokens blocks ∈ benchOps cache sharedPrefix suffixes →
      invalidBlock ∉ blocks := by
    intro tokens blocks hmem
    simp only [benchOps, List.mem_cons, System.Op.insert.injEq, List.mem_map, reduceCtorEq, and_false,
      exists_false, or_false] at hmem
    rw [hmem.2]
    exact hvalid
  have hcounted := System.tally_run cache hbs (benchOps cache sharedPrefix suffixes) hops
  rw [runPrefixCacheBench_eq, hcounted.hitRate (Tally.hits_le _ _) (by rw [hlookups]; exact hlt), hlookups,
    hhits]
  by_cases hnil : suffixes = []
  · simp [hnil]
  · have hpos : (suffixes.length : K) ≠ 0 := by
      rw [Nat.cast_ne_zero]
      exact fun hzero => hnil (List.length_eq_zero_iff.1 hzero)
    by_cases hle : cache.blockSize ≤ sharedPrefix.length
    · rw [if_pos hle, if_pos ⟨hnil, hle⟩, div_self hpos]
    · rw [if_neg hle, if_neg (fun h => hle h.2), Nat.cast_zero, zero_div]

/-- Half of each prompt is shared, and every lookup is a hit. -/
theorem halfShared_hitRate :
    (runPrefixCacheBench { numGpuBlocks := 4, numCpuBlocks := 0, blockSize := 2 } [1, 2]
      [[3, 4], [5, 6]]).hitRate ℚ = 1 :=
  hitRate_bench ℚ { numGpuBlocks := 4, numCpuBlocks := 0, blockSize := 2 } (by decide) [1, 2]
    (by decide) [[3, 4], [5, 6]] (by decide)

end Bench

end CacheFlow.PrefixCache
