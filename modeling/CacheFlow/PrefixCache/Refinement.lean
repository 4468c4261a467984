import CacheFlow.PrefixCache.System
import Mathlib.Data.List.Induction
import Mathlib.Data.Nat.Find

set_option autoImplicit false

/-! # The trie as a first-writer-wins map

What the prefix cache is for, said without a trie: the block of the `m`-th boundary of a query is the
`m`-th block of the first insertion that covers that boundary. `firstWriter` computes it from the
history of insertions alone. The trie refines this map along every run (`blockAt_run`), and since an
insertion that covers a boundary covers the earlier ones too, a lookup returns the map's blocks without
a hole. -/

namespace CacheFlow.PrefixCache

/-! ## The abstract map -/

/-- The insertion covers boundary `m` of `p`: its tokens start with the first `m` blocks of tokens of
    `p`, and it has `m` blocks. -/
def covers (bs : Nat) (p : List TokenId) (m : Nat) (ins : List TokenId × List BlockId) : Bool :=
  decide (p.take (m * bs) <+: ins.1 ∧ m ≤ ins.2.length)

/-- The block of boundary `m` of `p`: the `m`-th block of the earliest insertion that covers it. -/
def firstWriter (bs : Nat) (inserts : List (List TokenId × List BlockId)) (p : List TokenId)
    (m : Nat) : Option BlockId :=
  (inserts.find? (covers bs p m)).bind (fun ins => ins.2[m - 1]?)

section FirstWriter

variable {bs m : Nat} {inserts : List (List TokenId × List BlockId)} {p : List TokenId}

theorem covers_iff {ins : List TokenId × List BlockId} :
    covers bs p m ins = true ↔ p.take (m * bs) <+: ins.1 ∧ m ≤ ins.2.length :=
  decide_eq_true_iff

/-- A boundary has a block exactly when some insertion covers it. -/
theorem firstWriter_isSome (hm : 1 ≤ m) :
    (firstWriter bs inserts p m).isSome ↔ ∃ ins ∈ inserts, covers bs p m ins = true := by
  unfold firstWriter
  constructor
  · intro h
    obtain ⟨b, hb⟩ := Option.isSome_iff_exists.1 h
    obtain ⟨ins, hfind, -⟩ := Option.bind_eq_some_iff.1 hb
    exact ⟨ins, List.mem_of_find?_eq_some hfind, List.find?_some hfind⟩
  · intro h
    obtain ⟨ins, hfind⟩ := Option.isSome_iff_exists.1 (List.find?_isSome.2 h)
    have hlen := (covers_iff.1 (List.find?_some hfind)).2
    rw [hfind, Option.bind_some, List.getElem?_eq_getElem (by omega)]
    rfl

/-- No holes: with a boundary every earlier one has a block. -/
theorem firstWriter_isSome_mono {m' : Nat} (hm' : 1 ≤ m') (hle : m' ≤ m)
    (h : (firstWriter bs inserts p m).isSome) : (firstWriter bs inserts p m').isSome := by
  obtain ⟨ins, hmem, hcover⟩ := (firstWriter_isSome (by omega)).1 h
  obtain ⟨hpre, hlen⟩ := covers_iff.1 hcover
  refine (firstWriter_isSome hm').2 ⟨ins, hmem, covers_iff.2 ⟨?_, by omega⟩⟩
  exact (List.take_prefix_take_left (Nat.mul_le_mul_right bs hle)).trans hpre

/-- A later insertion counts only where no earlier one has written. -/
theorem firstWriter_append (hm : 1 ≤ m) (ins : List TokenId × List BlockId) :
    firstWriter bs (inserts ++ [ins]) p m
      = (firstWriter bs inserts p m).or
          (if p.take (m * bs) <+: ins.1 then ins.2[m - 1]? else none) := by
  cases h : firstWriter bs inserts p m with
  | some b =>
      obtain ⟨ins', hfind, hb⟩ := Option.bind_eq_some_iff.1 h
      rw [firstWriter, List.find?_append, hfind, Option.some_or, Option.bind_some, hb]
      rfl
  | none =>
      have hnone : inserts.find? (covers bs p m) = none := by
        refine List.find?_eq_none.2 ?_
        intro ins' hmem hcover
        have hsome := (firstWriter_isSome hm).2 ⟨ins', hmem, hcover⟩
        rw [h] at hsome
        cases hsome
      rw [firstWriter, List.find?_append, hnone, Option.none_or, Option.none_or, List.find?_singleton]
      by_cases hcover : covers bs p m ins = true
      · rw [if_pos hcover, if_pos (covers_iff.1 hcover).1]
        rfl
      · rw [if_neg hcover]
        split
        · next hpre =>
            have hlen : ¬ m ≤ ins.2.length := fun hlen => hcover (covers_iff.2 ⟨hpre, hlen⟩)
            rw [List.getElem?_eq_none (by omega)]
            rfl
        · rfl

/-- The covered boundaries of a query are those up to a last one. -/
theorem exists_last_boundary (bs : Nat) (inserts : List (List TokenId × List BlockId))
    (p : List TokenId) :
    ∃ k ≤ p.length / bs, (∀ m, 1 ≤ m → m ≤ k → (firstWriter bs inserts p m).isSome) ∧
      ∀ m, k < m → m ≤ p.length / bs → firstWriter bs inserts p m = none := by
  let covered : Nat → Prop := fun m => (firstWriter bs inserts p m).isSome = true
  refine ⟨Nat.findGreatest covered (p.length / bs), Nat.findGreatest_le _, ?_, ?_⟩
  · intro m hm hle
    have hlast : covered (Nat.findGreatest covered (p.length / bs)) :=
      Nat.findGreatest_of_ne_zero rfl (by omega)
    exact firstWriter_isSome_mono hm hle hlast
  · intro m hlt hle
    have hnot : ¬ covered m := Nat.findGreatest_is_greatest hlt hle
    simpa [covered] using hnot

end FirstWriter

/-! ## Hits at block boundaries -/

/-- Of the positions of a query only the multiples of the block size count. -/
theorem filterMap_range_boundaries {γ : Type} (bs : Nat) (f : Nat → Option γ) (n : Nat) :
    (List.range n).filterMap (fun j => if bs ∣ j + 1 then f (j + 1) else none)
      = (List.range (n / bs)).filterMap (fun j => f ((j + 1) * bs)) := by
  induction n with
  | zero => simp
  | succ n ih =>
      rw [List.range_succ, List.filterMap_append, ih, Nat.succ_div]
      by_cases hdvd : bs ∣ n + 1
      · have hlast : (n / bs + 1) * bs = n + 1 := by
          have hdiv : (n + 1) / bs = n / bs + 1 := by rw [Nat.succ_div, if_pos hdvd]
          rw [← hdiv]
          exact Nat.div_mul_cancel hdvd
        rw [if_pos hdvd, List.range_succ, List.filterMap_append]
        simp only [List.filterMap_cons, List.filterMap_nil, if_pos hdvd, hlast]
      · rw [if_neg hdvd]
        simp [hdvd]

/-- The hits of a query from the root, when its boundaries have blocks without a hole up to `k`. -/
theorem hits_of_boundaries (bs : Nat) (t : Trie TokenId PrefixTrieNode)
    (query : List TokenId) {k : Nat} (hk : k ≤ query.length / bs)
    (hsome : ∀ m, 1 ≤ m → m ≤ k → (blockAt t (query.take (m * bs))).isSome)
    (hnone : ∀ m, k < m → m ≤ query.length / bs → blockAt t (query.take (m * bs)) = none) :
    hits bs t 0 query = (List.range k).map (fun j =>
      ((j + 1) * bs, (blockAt t (query.take ((j + 1) * bs))).getD invalidBlock)) := by
  have hpos : ∀ j, 0 + (j + 1) = j + 1 := fun j => Nat.zero_add _
  rw [hits]
  simp only [hpos]
  rw [filterMap_range_boundaries bs (fun m => (blockAt t (query.take m)).map (Prod.mk m)),
    ← Nat.add_sub_cancel' hk, List.range_add, List.filterMap_append]
  have htail : ((List.range (query.length / bs - k)).map (k + ·)).filterMap
      (fun j => (blockAt t (query.take ((j + 1) * bs))).map (Prod.mk ((j + 1) * bs))) = [] := by
    refine List.filterMap_eq_nil_iff.2 ?_
    intro j hj
    obtain ⟨d, hd, rfl⟩ := List.mem_map.1 hj
    have hd' := List.mem_range.1 hd
    rw [hnone (k + d + 1) (by omega) (by omega)]
    rfl
  rw [htail, List.append_nil]
  refine List.filterMap_eq_map_iff_forall_eq_some.2 ?_
  intro j hj
  have hj' := List.mem_range.1 hj
  obtain ⟨b, hb⟩ := Option.isSome_iff_exists.1 (hsome (j + 1) (by omega) (by omega))
  rw [hb]
  rfl

/-- The result of a lookup whose boundaries have the blocks `B` without a hole up to `k`. -/
theorem lookup_of_boundaries (pc : PrefixCache) (query : List TokenId) {B : Nat → Option BlockId}
    {k : Nat} (hk : k ≤ query.length / pc.config.blockSize)
    (hblock : ∀ m, 1 ≤ m → m ≤ query.length / pc.config.blockSize →
      blockAt pc.root (query.take (m * pc.config.blockSize)) = B m)
    (hsome : ∀ m, 1 ≤ m → m ≤ k → (B m).isSome)
    (hnone : ∀ m, k < m → m ≤ query.length / pc.config.blockSize → B m = none) :
    (pc.lookup query).1.cachedBlocks.map some = (List.range k).map (fun j => B (j + 1)) ∧
      (pc.lookup query).1.matchedTokens = k * pc.config.blockSize := by
  have hhits := hits_of_boundaries pc.config.blockSize pc.root query hk
    (fun m hm hle => by rw [hblock m hm (hle.trans hk)]; exact hsome m hm hle)
    (fun m hlt hle => by rw [hblock m (by omega) hle]; exact hnone m hlt hle)
  rw [lookup_result, hhits]
  constructor
  · simp only [List.map_map]
    refine List.map_congr_left ?_
    intro j hj
    have hj' := List.mem_range.1 hj
    obtain ⟨b, hb⟩ := Option.isSome_iff_exists.1 (hsome (j + 1) (by omega) (by omega))
    simp only [Function.comp_apply]
    rw [hblock (j + 1) (by omega) (by omega), hb]
    rfl
  · cases k with
    | zero => simp
    | succ k => simp [List.range_succ]

namespace System

/-! ## Runs -/

/-- The arguments of an insertion. -/
def Op.insertion? : Op → Option (List TokenId × List BlockId)
  | .insert tokens blocks => some (tokens, blocks)
  | _ => none

def Op.isInsert (op : Op) : Bool := op.insertion?.isSome

/-- The insertions of a run, in order. -/
def insertsOf (ops : List Op) : List (List TokenId × List BlockId) := ops.filterMap Op.insertion?

theorem insertsOf_append (ops : List Op) (op : Op) :
    insertsOf (ops ++ [op]) = insertsOf ops ++ op.insertion?.toList := by
  rw [insertsOf, List.filterMap_append]
  cases h : op.insertion? <;> simp [h, insertsOf]

theorem insertsOf_filter (ops : List Op) : insertsOf (ops.filter Op.isInsert) = insertsOf ops := by
  rw [insertsOf, List.filterMap_filter]
  refine List.filterMap_congr ?_
  intro op _
  unfold Op.isInsert
  cases op.insertion? <;> rfl

theorem mem_insertsOf {ops : List Op} {ins : List TokenId × List BlockId}
    (h : ins ∈ insertsOf ops) : Op.insert ins.1 ins.2 ∈ ops := by
  obtain ⟨op, hmem, hop⟩ := List.mem_filterMap.1 h
  cases op with
  | insert tokens blocks =>
      have hins : (tokens, blocks) = ins := Option.some.inj hop
      subst hins
      exact hmem
  | allocateBlock s d => cases hop
  | freeBlocks s => cases hop
  | lookup query => cases hop
  | release query => cases hop
  | evictLru n => cases hop
  | resetStats => cases hop

/-- An insertion writes the blocks it brings where none is recorded, no other operation changes a
    recorded block. -/
theorem step_blockAt (st : System) (op : Op) (hbs : 1 ≤ st.cache.config.blockSize)
    (hop : ∀ ins ∈ op.insertion?, invalidBlock ∉ ins.2) {q : List TokenId} (hq : q ≠ [])
    {m : Nat} (hlen : q.length = m * st.cache.config.blockSize) :
    blockAt (st.step op).cache.root q
      = (blockAt st.cache.root q).or
          (op.insertion?.bind (fun ins => if q <+: ins.1 then ins.2[m - 1]? else none)) := by
  cases op with
  | insert tokens blocks =>
      have hins := blockAt_insert st.cache st.bm (hop (tokens, blocks) rfl) tokens hq
      rw [hlen, Nat.mul_div_cancel m hbs] at hins
      simp only [Nat.dvd_mul_left, and_true] at hins
      exact hins
  | lookup query => exact (blockAt_lookup st.cache query q).trans (Option.or_none).symm
  | release query => exact (blockAt_release st.cache query q).trans (Option.or_none).symm
  | allocateBlock s d => exact (Option.or_none).symm
  | freeBlocks s => exact (Option.or_none).symm
  | evictLru n => exact (Option.or_none).symm
  | resetStats => exact (Option.or_none).symm

/-- **The trie refines the map.** After any run the node at a block boundary of `p` records what the
    first writer of that boundary put there. -/
theorem blockAt_run (config : CacheConfig) (hbs : 1 ≤ config.blockSize) (ops : List Op)
    (hops : ∀ ins ∈ insertsOf ops, invalidBlock ∉ ins.2)
    (p : List TokenId) {m : Nat} (hm : 1 ≤ m) (hmp : m * config.blockSize ≤ p.length) :
    blockAt (ops.foldl step (init config)).cache.root (p.take (m * config.blockSize))
      = firstWriter config.blockSize (insertsOf ops) p m := by
  have hlen : (p.take (m * config.blockSize)).length = m * config.blockSize := by
    rw [List.length_take, Nat.min_eq_left hmp]
  have hne : p.take (m * config.blockSize) ≠ [] := by
    refine List.ne_nil_of_length_pos ?_
    rw [hlen]
    exact Nat.mul_pos hm hbs
  induction ops using List.reverseRecOn with
  | nil =>
      obtain ⟨k, q, hq⟩ := List.exists_cons_of_ne_nil hne
      rw [hq]
      rfl
  | append_singleton ops op ih =>
      have hconf := run_config (init config) ops
      rw [insertsOf_append] at hops ⊢
      have hstep := step_blockAt (ops.foldl step (init config)) op (by rw [hconf]; exact hbs)
        (fun ins hins => hops ins (List.mem_append_right _ (by simpa using hins))) hne
        (by rw [hconf]; exact hlen)
      rw [List.foldl_append, List.foldl_cons, List.foldl_nil, hstep,
        ih (fun ins hins => hops ins (List.mem_append_left _ hins))]
      cases hop : op.insertion? with
      | none => simp
      | some ins =>
          rw [Option.bind_some, Option.toList_some, firstWriter_append hm]

/-- Runs with the same insertions serve the same. -/
theorem lookup_eq_of_insertsOf (config : CacheConfig) (hbs : 1 ≤ config.blockSize)
    {ops ops' : List Op} (hsame : insertsOf ops' = insertsOf ops)
    (hops : ∀ ins ∈ insertsOf ops, invalidBlock ∉ ins.2) (p : List TokenId) :
    ((ops'.foldl step (init config)).cache.lookup p).1
      = ((ops.foldl step (init config)).cache.lookup p).1 := by
  have hconf : ∀ ops : List Op, (ops.foldl step (init config)).cache.config = config :=
    run_config (init config)
  refine lookup_congr (by rw [hconf, hconf]) ?_ p
  intro q hq hdvd
  -- both tries agree with the same map at the boundary where `q` ends
  rw [hconf] at hdvd
  obtain ⟨m, hm⟩ := hdvd
  rw [Nat.mul_comm] at hm
  have hpos : 1 ≤ m := by
    rcases Nat.eq_zero_or_pos m with rfl | hpos
    · rw [Nat.zero_mul] at hm
      exact absurd (List.length_eq_zero_iff.1 hm) hq
    · exact hpos
  have hle := Nat.le_of_eq hm.symm
  have hwhole : q.take (m * config.blockSize) = q := List.take_of_length_le (Nat.le_of_eq hm)
  have hrun := blockAt_run config hbs ops hops q hpos hle
  have hrun' := blockAt_run config hbs ops' (by rw [hsame]; exact hops) q hpos hle
  rw [hwhole] at hrun hrun'
  rw [hrun, hrun', hsame]

/-- **The prefix cache serves the first writers.** After any run of insertions of valid blocks, lookups
    and releases (and of allocations and evictions, which do not touch the trie either), a lookup of
    `p` returns the blocks that the first-writer-wins map gives to the boundaries `1, …, k` of `p`,
    where `k` is the last boundary the map covers and no earlier one is missing, and it matches `k`
    blocks of tokens. The same lookup after the insertions alone returns the same. -/
theorem lookup_first_writer (config : CacheConfig) (hbs : 1 ≤ config.blockSize) (ops : List Op)
    (hops : ∀ tokens blocks, Op.insert tokens blocks ∈ ops → invalidBlock ∉ blocks)
    (p : List TokenId) :
    let result := ((ops.foldl step (init config)).cache.lookup p).1
    let B := firstWriter config.blockSize (insertsOf ops) p
    (∃ k, k * config.blockSize ≤ p.length ∧
      (∀ m, 1 ≤ m → m ≤ k → (B m).isSome) ∧
      (∀ m, 1 ≤ m → m * config.blockSize ≤ p.length → (B m).isSome → m ≤ k) ∧
      result.cachedBlocks.map some = (List.range k).map (fun j => B (j + 1)) ∧
      result.matchedTokens = k * config.blockSize) ∧
    result = (((ops.filter Op.isInsert).foldl step (init config)).cache.lookup p).1 := by
  intro result B
  have hins : ∀ ins ∈ insertsOf ops, invalidBlock ∉ ins.2 :=
    fun ins hmem => hops _ _ (mem_insertsOf hmem)
  have hconf : (ops.foldl step (init config)).cache.config = config := run_config (init config) ops
  refine ⟨?_, (lookup_eq_of_insertsOf config hbs (insertsOf_filter ops) hins p).symm⟩
  obtain ⟨k, hk, hsome, hnone⟩ := exists_last_boundary config.blockSize (insertsOf ops) p
  have hblock : ∀ m, 1 ≤ m → m ≤ p.length / config.blockSize →
      blockAt (ops.foldl step (init config)).cache.root (p.take (m * config.blockSize)) = B m :=
    fun m hm hle => blockAt_run config hbs ops hins p hm
      ((Nat.mul_le_mul_right _ hle).trans (Nat.div_mul_le_self _ _))
  have hresult := lookup_of_boundaries (ops.foldl step (init config)).cache p (B := B) (k := k)
  rw [hconf] at hresult
  refine ⟨k, (Nat.mul_le_mul_right _ hk).trans (Nat.div_mul_le_self _ _), hsome, ?_,
    hresult hk hblock hsome hnone⟩
  intro m _ hmp hm
  by_contra hlt
  have hB : B m = none := hnone m (by omega) ((Nat.le_div_iff_mul_le hbs).2 hmp)
  rw [hB] at hm
  cases hm

/-- Two prompts that share their first block of two tokens; the second brings its own block for it. -/
def sharedPrompt : List Op :=
  [.insert [1, 2, 3, 4] [10, 11], .lookup [1, 2, 3, 4], .release [1, 2],
    .insert [1, 2, 5, 6, 7] [20, 21]]

/-- The second prompt finds the first one's block and then its own. -/
theorem sharedPrompt_lookup :
    let config : CacheConfig := { blockSize := 2 }
    let result := ((sharedPrompt.foldl step (init config)).cache.lookup [1, 2, 5, 6, 8]).1
    result.cachedBlocks = [10, 21] ∧ result.matchedTokens = 4 ∧
      result = (((sharedPrompt.filter Op.isInsert).foldl step (init config)).cache.lookup
        [1, 2, 5, 6, 8]).1 := by
  refine ⟨by decide, by decide, (lookup_first_writer _ (by decide) _ ?_ _).2⟩
  intro tokens blocks hmem
  simp only [sharedPrompt, List.mem_cons, Op.insert.injEq, reduceCtorEq, false_or, List.not_mem_nil,
    or_false] at hmem
  rcases hmem with ⟨-, rfl⟩ | ⟨-, rfl⟩
  · decide
  · decide

end System

end CacheFlow.PrefixCache
