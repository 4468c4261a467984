import CacheFlow.PrefixCache.Eviction
import Mathlib.Data.List.Infix

set_option autoImplicit false

/-! # The users of a cached prefix

A request that caches a prompt with `insert`, or finds a prefix of it with `lookup`, uses the nodes on
the way until it calls `release` on the same tokens. `ref_count` of a node is to be the number of its
users, and `evict_lru` takes a count of zero or less as "unused".

`release` lowers the count of every recorded node on its way, but only the insertion that fills a node
sets it: an insertion that finds the node filled and a lookup that hits it leave the count alone. So
the counts are right in a run exactly as long as no two requests share a node.

The users are ghost state: the token prefixes acquired and not yet released. -/

namespace CacheFlow.PrefixCache

/-! ## The use count at the end of a path -/

/-- The use count of a node that records a block. -/
def useCount (n : PrefixTrieNode) : Option Int :=
  if n.blockId = invalidBlock then none else some n.refCount

/-- The use count at the end of a path, if a block is recorded there. -/
def useAt (t : Trie TokenId PrefixTrieNode) (q : List TokenId) : Option Int :=
  Trie.readAt useCount t q

variable (pc : PrefixCache)

theorem useAt_eq_none_iff {t : Trie TokenId PrefixTrieNode} {q : List TokenId} :
    useAt t q = none ↔ blockAt t q = none := by
  rw [blockAt_eq_readAt, useAt, Trie.readAt, Trie.readAt]
  cases t.descend q with
  | none => exact Iff.rfl
  | some u =>
      simp only [Option.bind_some, useCount, recorded]
      split <;> simp

theorem useAt_eq_some_iff {t : Trie TokenId PrefixTrieNode} {q : List TokenId} {n : Int} :
    useAt t q = some n ↔
      ∃ u, t.descend q = some u ∧ u.data.blockId ≠ invalidBlock ∧ u.data.refCount = n := by
  rw [useAt, Trie.readAt, Option.bind_eq_some_iff]
  refine exists_congr (fun u => and_congr_right (fun _ => ?_))
  unfold useCount
  split
  · next h => simp [h]
  · next h => simp [h]

/-- An insertion leaves the counts it finds and starts the others at 1. -/
theorem useAt_insert (bm : BlockManager) {blocks : List BlockId} (hblocks : invalidBlock ∉ blocks)
    (tokens : List TokenId) {q : List TokenId} (hq : q ≠ []) :
    useAt (pc.insert bm tokens blocks).1.root q
      = (useAt pc.root q).or (if q <+: tokens ∧ pc.config.blockSize ∣ q.length
          then blocks[q.length / pc.config.blockSize - 1]?.map (fun _ => 1) else none) := by
  refine insertWalk_fill pc blocks (fun j => blocks[j]?.map (fun _ => 1)) rfl ?_ ?_ tokens hq
  · intro i s n hidx hlt
    unfold insertVisit
    by_cases hdvd : pc.config.blockSize ∣ i + 1
    · have hdiv : (i + 1) / pc.config.blockSize - 1 = s.blockIdx := by
        rw [Nat.succ_div, if_pos hdvd, hidx]
        rfl
      rw [if_pos (Nat.mod_eq_zero_of_dvd hdvd), if_pos hdvd, hdiv, List.getElem?_eq_getElem hlt]
      by_cases hempty : n.blockId = invalidBlock
      · have hvalid : blocks.getD s.blockIdx invalidBlock ≠ invalidBlock := by
          rw [List.getD_eq_getElem _ _ hlt]
          exact fun he => hblocks (he ▸ List.getElem_mem hlt)
        rw [if_pos hempty]
        show (if blocks.getD s.blockIdx invalidBlock = invalidBlock then none else some (1 : Int)) = _
        rw [if_neg hvalid, useCount, if_pos hempty]
        rfl
      · rw [if_neg hempty]
        show (if n.blockId = invalidBlock then none else some n.refCount) = _
        rw [if_neg hempty, useCount, if_neg hempty]
        rfl
    · rw [if_neg (fun hmod => hdvd (Nat.dvd_of_mod_eq_zero hmod)), if_neg hdvd, Option.or_none]
  · intro j hj
    rw [List.getElem?_eq_none hj]
    rfl

theorem useAt_lookup (query : List TokenId) {q : List TokenId} (hq : q ≠ []) :
    useAt (pc.lookup query).2.root q = useAt pc.root q := by
  have hvisit : ∀ i s n, useCount (lookupVisit pc.config.blockSize i s n).2
      = (useCount n).map (fun m => m) := by
    intro i s n
    unfold lookupVisit
    split <;> simp [useCount]
  have hwalk := Trie.readAt_walk_rewrite (fun _ m => m) hvisit query 0
    { accessClock := pc.accessClock } pc.root hq
  simp only [ite_self, Option.map_id'] at hwalk
  exact hwalk

/-- A release lowers the counts at the block boundaries of its tokens. -/
theorem useAt_release (tokens : List TokenId) {q : List TokenId} (hq : q ≠ []) :
    useAt (pc.release tokens).root q
      = (useAt pc.root q).map (fun n =>
          if q <+: tokens then (if pc.config.blockSize ∣ q.length then n - 1 else n) else n) := by
  have hvisit : ∀ i s n, useCount (releaseVisit pc.config.blockSize i s n).2
      = (useCount n).map (fun m => if pc.config.blockSize ∣ i + 1 then m - 1 else m) := by
    intro i s n
    unfold releaseVisit useCount
    by_cases hempty : n.blockId = invalidBlock
    · simp [hempty]
    · by_cases hdvd : pc.config.blockSize ∣ i + 1
      · simp [hempty, hdvd, Nat.mod_eq_zero_of_dvd hdvd]
      · have hmod : (i + 1) % pc.config.blockSize ≠ 0 := fun h => hdvd (Nat.dvd_of_mod_eq_zero h)
        simp [hempty, hdvd, hmod]
  have hwalk := Trie.readAt_walk_rewrite
    (fun i m => if pc.config.blockSize ∣ i then m - 1 else m) hvisit tokens 0 () pc.root hq
  rw [Nat.zero_add] at hwalk
  exact hwalk

/-! ## Acquisitions -/

/-- A cache with the token prefixes its users have acquired and not yet released. -/
structure Users where
  sys : System
  users : List (List TokenId) := []

namespace Users

/-- The block-aligned prefix that an insertion acquires: as many blocks of tokens as it has blocks. -/
def inserted (bs : Nat) (tokens : List TokenId) (blocks : List BlockId) : List TokenId :=
  tokens.take (min blocks.length (tokens.length / bs) * bs)

def init (config : CacheConfig) : Users := { sys := System.init config }

/-- `insert` and a `lookup` that hits acquire a prefix, `release` gives one up. -/
def step (st : Users) (op : System.Op) : Users where
  sys := st.sys.step op
  users := match op with
    | .insert tokens blocks => inserted st.sys.cache.config.blockSize tokens blocks :: st.users
    | .lookup query =>
      if (st.sys.cache.lookup query).1.cachedBlocks = [] then st.users
      else query.take (st.sys.cache.lookup query).1.matchedTokens :: st.users
    | .release tokens => st.users.erase tokens
    | _ => st.users

/-- The contract of the users: they insert blocks of the pool and release what they acquired. -/
def Permitted (st : Users) (op : System.Op) : Prop :=
  st.sys.GivesBlocks op ∧ ∀ tokens, op = .release tokens → tokens ∈ st.users

/-- No block is recorded yet on the way of an insertion or a lookup. -/
def Unshared (st : Users) : System.Op → Prop
  | .insert tokens blocks => ∀ q ∈ (inserted st.sys.cache.config.blockSize tokens blocks).inits,
      blockAt st.sys.cache.root q = none
  | .lookup query => ∀ q ∈ query.inits, blockAt st.sys.cache.root q = none
  | _ => True

/-- The number of users of the node at the end of a path. -/
def usersOf (st : Users) (q : List TokenId) : Nat := st.users.countP (fun p => q <+: p)

/-- What the use counts are to guarantee: they are the numbers of users, and an eviction drops
    references of unused nodes only. -/
structure UseCounted (st : Users) : Prop where
  counted : ∀ q u, st.sys.cache.root.descend q = some u → u.data.blockId ≠ invalidBlock →
    u.data.refCount = st.usersOf q
  evicts : ∀ n, ∀ v ∈ st.sys.cache.evictionVictims n, ∃ q u,
    st.sys.cache.root.descend q = some u ∧ (u.data.lastAccess, u.data.blockId) = v ∧
      u.data.blockId ≠ invalidBlock ∧ st.usersOf q = 0

/-- The invariant behind it: every block boundary of an acquired prefix is recorded. -/
structure Counted (st : Users) : Prop where
  indexed : st.sys.Indexed
  uses : ∀ q n, useAt st.sys.cache.root q = some n → n = st.usersOf q
  acquired : ∀ p ∈ st.users, ∀ q, q ≠ [] → q <+: p → st.sys.cache.config.blockSize ∣ q.length →
    blockAt st.sys.cache.root q ≠ none

/-! ## The counts decide what is evicted -/

theorem Counted.useCounted {st : Users} (h : Counted st) : UseCounted st := by
  have hcounted : ∀ q u, st.sys.cache.root.descend q = some u → u.data.blockId ≠ invalidBlock →
      u.data.refCount = st.usersOf q := by
    intro q u hu hvalid
    exact h.uses q _ (useAt_eq_some_iff.2 ⟨u, hu, hvalid, rfl⟩)
  refine ⟨hcounted, ?_⟩
  intro n v hv
  have hcand : v ∈ collectEvictionCandidates st.sys.cache.root :=
    (List.mem_insertionSort _).1 (List.mem_of_mem_take hv)
  obtain ⟨node, hnode, rfl⟩ := List.mem_map.1 hcand
  obtain ⟨hmem, hev⟩ := List.mem_filter.1 hnode
  obtain ⟨hvalid, hle⟩ := of_decide_eq_true hev
  obtain ⟨q, u, hu, rfl⟩ := Trie.exists_descend_of_mem h.indexed.keys hmem
  refine ⟨q, u, hu, rfl, hvalid, ?_⟩
  have hcount := hcounted q u hu hvalid
  omega

theorem init_counted (config : CacheConfig) : Counted (init config) := by
  have hindexed := System.init_indexed config
  refine ⟨hindexed, ?_, ?_⟩
  · intro q n hn
    cases q with
    | nil => cases hn
    | cons k q => cases hn
  · intro p hp
    cases hp

/-! ## What one operation keeps -/

theorem usersOf_cons (st : Users) (sys : System) (p q : List TokenId) :
    usersOf { sys := sys, users := p :: st.users } q
      = st.usersOf q + if q <+: p then 1 else 0 := by
  simp [usersOf, List.countP_cons]

/-- The block boundaries of the acquired prefix are those that have a block. -/
theorem prefix_inserted_iff {bs : Nat} {tokens : List TokenId} {blocks : List BlockId}
    {q : List TokenId} (hq : q ≠ []) (hdvd : bs ∣ q.length) :
    q <+: inserted bs tokens blocks ↔ q <+: tokens ∧ q.length / bs - 1 < blocks.length := by
  have hpos : 0 < q.length := List.length_pos_iff.2 hq
  have hbs : 0 < bs := Nat.pos_of_dvd_of_pos hdvd hpos
  obtain ⟨k, hk⟩ := hdvd
  have hkpos : 0 < k := Nat.pos_of_mul_pos_left (hk ▸ hpos)
  rw [inserted, List.prefix_take_iff, hk, Nat.mul_div_cancel_left _ hbs, Nat.mul_comm bs k]
  refine and_congr_right (fun hpre => ?_)
  have hlen : k ≤ tokens.length / bs := by
    rw [Nat.le_div_iff_mul_le hbs, Nat.mul_comm, ← hk]
    exact hpre.length_le
  rw [Nat.mul_le_mul_right_iff hbs, Nat.le_min]
  omega

theorem Counted.usersOf_eq_zero {st : Users} (h : Counted st) {q : List TokenId} (hq : q ≠ [])
    (hdvd : st.sys.cache.config.blockSize ∣ q.length) (hnone : blockAt st.sys.cache.root q = none) :
    st.usersOf q = 0 := by
  refine List.countP_eq_zero.2 ?_
  intro p hp hpre
  exact h.acquired p hp q hq (of_decide_eq_true hpre) hdvd hnone

theorem counted_insert {st : Users} (h : Counted st) {tokens : List TokenId} {blocks : List BlockId}
    (hop : st.sys.GivesBlocks (.insert tokens blocks))
    (hun : st.Unshared (.insert tokens blocks)) : Counted (st.step (.insert tokens blocks)) := by
  have hindexed := System.step_indexed (.insert tokens blocks) h.indexed hop
  have hblock := fun {q : List TokenId} (hq : q ≠ []) =>
    blockAt_insert st.sys.cache st.sys.bm hop.valid tokens hq
  refine ⟨hindexed, ?_, ?_⟩
  · intro q n hn
    have hsome : blockAt (st.sys.step (.insert tokens blocks)).cache.root q ≠ none := fun hnone => by
      have hnone' := useAt_eq_none_iff.2 hnone
      exact absurd (hnone'.symm.trans hn) (by simp)
    obtain ⟨b, hb⟩ := Option.ne_none_iff_exists'.1 hsome
    obtain ⟨hq, hdvd⟩ := hindexed.aligned q b hb
    rw [System.step_config] at hdvd
    have hfill := (useAt_insert st.sys.cache st.sys.bm hop.valid tokens hq).symm.trans hn
    have husers : (st.step (.insert tokens blocks)).usersOf q = st.usersOf q
        + if q <+: inserted st.sys.cache.config.blockSize tokens blocks then 1 else 0 :=
      usersOf_cons st _ _ q
    rw [husers]
    rcases Option.or_eq_some_iff.1 hfill with hold | ⟨hnone, hnew⟩
    · -- a recorded node is not on the way of an unshared insertion
      have hout : ¬ q <+: inserted st.sys.cache.config.blockSize tokens blocks := fun hpre => by
        have hnone := useAt_eq_none_iff.2 (hun q (List.mem_inits _ _ |>.2 hpre))
        exact absurd (hnone.symm.trans hold) (by simp)
      rw [if_neg hout, Nat.add_zero]
      exact h.uses q n hold
    · -- a node that is filled has the insertion as its first user
      have hzero := h.usersOf_eq_zero hq hdvd (useAt_eq_none_iff.1 hnone)
      split at hnew
      · next hcond =>
          obtain ⟨b', hb', hone⟩ := Option.map_eq_some_iff.1 hnew
          have hlt := (List.getElem?_eq_some_iff.1 hb').1
          rw [if_pos ((prefix_inserted_iff hq hdvd).2 ⟨hcond.1, hlt⟩), hzero, ← hone]
          rfl
      · cases hnew
  · intro p hp q hq hpre hdvd
    have hdvd' : st.sys.cache.config.blockSize ∣ q.length := hdvd
    show blockAt (st.sys.cache.insert st.sys.bm tokens blocks).1.root q ≠ none
    rw [hblock hq]
    rcases List.mem_cons.1 hp with rfl | hp
    · obtain ⟨htok, hlt⟩ := (prefix_inserted_iff hq hdvd').1 hpre
      rw [if_pos ⟨htok, hdvd'⟩, List.getElem?_eq_getElem hlt]
      cases blockAt st.sys.cache.root q <;> simp
    · have hold := h.acquired p hp q hq hpre hdvd
      cases hb : blockAt st.sys.cache.root q with
      | none => exact absurd hb hold
      | some b => simp

/-- A lookup on whose way nothing is recorded misses. -/
theorem lookup_misses {st : Users} {query : List TokenId} (hun : st.Unshared (.lookup query)) :
    (st.sys.cache.lookup query).1.cachedBlocks = [] := by
  rw [lookup_result]
  refine List.map_eq_nil_iff.2 (List.filterMap_eq_nil_iff.2 ?_)
  intro j _
  rw [hun _ ((List.mem_inits _ _).2 (List.take_prefix _ _))]
  split <;> rfl

theorem counted_lookup {st : Users} (h : Counted st) {query : List TokenId}
    (hun : st.Unshared (.lookup query)) : Counted (st.step (.lookup query)) := by
  have hindexed := System.step_indexed (.lookup query) h.indexed trivial
  have husers : (st.step (.lookup query)).users = st.users := if_pos (lookup_misses hun)
  refine ⟨hindexed, ?_, ?_⟩
  · intro q n hn
    obtain ⟨u, hu, hvalid, -⟩ := useAt_eq_some_iff.1 hn
    rw [usersOf, husers]
    refine h.uses q n ?_
    rw [← hn]
    cases q with
    | nil =>
        rw [useAt, useAt, Trie.readAt_nil, Trie.readAt_nil]
        exact congrArg useCount (Trie.data_walk query 0 _ st.sys.cache.root).symm
    | cons k q => exact (useAt_lookup st.sys.cache query (List.cons_ne_nil k q)).symm
  · intro p hp q hq hpre hdvd
    rw [husers] at hp
    show blockAt (st.sys.cache.lookup query).2.root q ≠ none
    rw [blockAt_lookup]
    exact h.acquired p hp q hq hpre hdvd

theorem counted_release {st : Users} (h : Counted st) {tokens : List TokenId}
    (hmem : tokens ∈ st.users) : Counted (st.step (.release tokens)) := by
  have hindexed := System.step_indexed (.release tokens) h.indexed trivial
  refine ⟨hindexed, ?_, ?_⟩
  · intro q n hn
    have hsome : blockAt (st.sys.step (.release tokens)).cache.root q ≠ none := fun hnone => by
      have hnone' := useAt_eq_none_iff.2 hnone
      exact absurd (hnone'.symm.trans hn) (by simp)
    obtain ⟨b, hb⟩ := Option.ne_none_iff_exists'.1 hsome
    obtain ⟨hq, hdvd⟩ := hindexed.aligned q b hb
    rw [System.step_config] at hdvd
    have hmap := (useAt_release st.sys.cache tokens hq).symm.trans hn
    obtain ⟨m, hm, hnm⟩ := Option.map_eq_some_iff.1 hmap
    have huses := h.uses q m hm
    have husers : st.usersOf q
        = (st.step (.release tokens)).usersOf q + if q <+: tokens then 1 else 0 := by
      rw [usersOf, (List.perm_cons_erase hmem).countP_eq, List.countP_cons]
      simp [usersOf, step]
    rw [if_pos hdvd] at hnm
    by_cases hpre : q <+: tokens
    · rw [if_pos hpre] at hnm husers
      omega
    · rw [if_neg hpre] at hnm husers
      omega
  · intro p hp q hq hpre hdvd
    show blockAt (st.sys.cache.release tokens).root q ≠ none
    rw [blockAt_release]
    exact h.acquired p (List.mem_of_mem_erase hp) q hq hpre hdvd

theorem step_counted {st : Users} (op : System.Op) (h : Counted st) (hop : st.Permitted op)
    (hun : st.Unshared op) : Counted (st.step op) := by
  cases op with
  | insert tokens blocks => exact counted_insert h hop.1 hun
  | lookup query => exact counted_lookup h hun
  | release tokens => exact counted_release h (hop.2 tokens rfl)
  | allocateBlock s d => exact ⟨System.step_indexed _ h.indexed hop.1, h.uses, h.acquired⟩
  | freeBlocks s => exact ⟨System.step_indexed _ h.indexed hop.1, h.uses, h.acquired⟩
  | evictLru n => exact ⟨System.step_indexed _ h.indexed hop.1, h.uses, h.acquired⟩
  | resetStats => exact ⟨System.step_indexed _ h.indexed hop.1, h.uses, h.acquired⟩

/-! ## Runs -/

theorem run_sys_indexed (ops : List System.Op) {st : Users} (h : st.sys.Indexed)
    (hops : Run.AllOk step (fun st op => st.Permitted op) st ops) :
    (ops.foldl step st).sys.Indexed :=
  hops.invariant (P := fun st => st.sys.Indexed) h
    (fun _ op hst hop => System.step_indexed op hst hop.1)

/-- A node that gains a user in a step that leaves its count alone breaks the law. -/
theorem UseCounted.not_shared {st st' : Users} (h : UseCounted st) (h' : UseCounted st')
    {q : List TokenId} {n : Int} (hn : useAt st.sys.cache.root q = some n)
    (hn' : useAt st'.sys.cache.root q = some n) (husers : st'.usersOf q = st.usersOf q + 1) :
    False := by
  obtain ⟨u, hu, hvalid, rfl⟩ := useAt_eq_some_iff.1 hn
  obtain ⟨u', hu', hvalid', heq⟩ := useAt_eq_some_iff.1 hn'
  have hcount := h.counted q u hu hvalid
  have hcount' := h'.counted q u' hu' hvalid'
  omega

theorem unshared_of_useCounted {st : Users} (op : System.Op) (hindexed : st.sys.Indexed)
    (hop : st.Permitted op) (h : UseCounted st) (h' : UseCounted (st.step op)) : st.Unshared op := by
  cases op with
  | insert tokens blocks =>
      intro q hq
      by_contra hb
      obtain ⟨b, hb⟩ := Option.ne_none_iff_exists'.1 hb
      obtain ⟨n, hn⟩ := Option.ne_none_iff_exists'.1
        (fun hnone => absurd ((useAt_eq_none_iff.1 hnone).symm.trans hb) (by simp))
      have hfill := useAt_insert st.sys.cache st.sys.bm hop.1.valid tokens (hindexed.aligned q b hb).1
      rw [hn, Option.some_or] at hfill
      refine h.not_shared h' hn hfill ?_
      exact (usersOf_cons st _ _ q).trans (by rw [if_pos ((List.mem_inits _ _).1 hq)])
  | lookup query =>
      intro q hq
      by_contra hb
      obtain ⟨b, hb⟩ := Option.ne_none_iff_exists'.1 hb
      obtain ⟨n, hn⟩ := Option.ne_none_iff_exists'.1
        (fun hnone => absurd ((useAt_eq_none_iff.1 hnone).symm.trans hb) (by simp))
      obtain ⟨hne, hdvd⟩ := hindexed.aligned q b hb
      have hpre := (List.mem_inits _ _).1 hq
      have hhit : (st.sys.cache.lookup query).1.cachedBlocks ≠ [] :=
        List.ne_nil_of_mem (mem_lookup_of_blockAt st.sys.cache hne hdvd hpre hb)
      have hmatched := le_matchedTokens_of_blockAt st.sys.cache hne hdvd hpre hb
      refine h.not_shared h' hn ((useAt_lookup st.sys.cache query hne).trans hn) ?_
      have husers : (st.step (.lookup query)).users
          = query.take (st.sys.cache.lookup query).1.matchedTokens :: st.users := if_neg hhit
      rw [usersOf, husers]
      refine (usersOf_cons st st.sys _ q).trans ?_
      rw [if_pos (List.prefix_take_iff.2 ⟨hpre, hmatched⟩)]
  | _ => trivial

/-- **The use counts are right exactly as long as nothing is shared.** In a run whose users insert
    blocks of the pool and release prefixes they acquired, every state has the numbers of users as use
    counts and evicts unused nodes only, if and only if no insertion and no lookup of the run comes
    upon a node that records a block. -/
theorem use_counts_iff (config : CacheConfig) (ops : List System.Op)
    (hops : Run.AllOk step (fun st op => st.Permitted op) (init config) ops) :
    (∀ n ≤ ops.length, UseCounted ((ops.take n).foldl step (init config))) ↔
      Run.AllOk step (fun st op => st.Unshared op) (init config) ops := by
  constructor
  · intro hall
    refine Run.allOk_of_split ?_
    intro pre op post hsplit
    subst hsplit
    have hpre := hall pre.length (by simp)
    have hpost := hall (pre.length + 1) (by simp)
    rw [List.take_left] at hpre
    rw [List.take_length_add_append, List.take_succ_cons, List.take_zero, List.foldl_append] at hpost
    obtain ⟨hbefore, hop, -⟩ := Run.allOk_append.1 hops
    exact unshared_of_useCounted op (run_sys_indexed pre (System.init_indexed config) hbefore) hop
      hpre hpost
  · intro hun n _
    have hcounted : Counted ((ops.take n).foldl step (init config)) :=
      ((Run.allOk_and.2 ⟨hops, hun⟩).take n).invariant (init_counted config)
        (fun _ op hst hop => step_counted op hst hop.1 hop.2)
    exact hcounted.useCounted

instance (st : Users) (op : System.Op) : Decidable (st.Permitted op) :=
  match op with
  | .release tokens => decidable_of_iff (st.sys.GivesBlocks (.release tokens) ∧ tokens ∈ st.users)
      (and_congr_right fun _ => by simp)
  | .insert tokens blocks => decidable_of_iff (st.sys.GivesBlocks (.insert tokens blocks))
      (by simp [Permitted])
  | .lookup _ | .allocateBlock _ _ | .freeBlocks _ | .evictLru _ | .resetStats =>
    isTrue ⟨trivial, by simp⟩

instance (st : Users) : ∀ op, Decidable (st.Unshared op)
  | .insert tokens blocks => inferInstanceAs (Decidable
      (∀ q ∈ (inserted st.sys.cache.config.blockSize tokens blocks).inits,
        blockAt st.sys.cache.root q = none))
  | .lookup query => inferInstanceAs (Decidable
      (∀ q ∈ query.inits, blockAt st.sys.cache.root q = none))
  | .release _ | .allocateBlock _ _ | .freeBlocks _ | .evictLru _ | .resetStats => isTrue trivial

/-- Two requests with different prompts; the one that ends is evicted. -/
def separatePrompts : List System.Op :=
  [.insert [7, 8] [0], .insert [5, 6, 9] [1], .release [7, 8], .evictLru 1]

theorem separatePrompts_counted :
    let st₀ := init { numGpuBlocks := 2, numCpuBlocks := 1, blockSize := 2 }
    ∀ n ≤ separatePrompts.length, UseCounted ((separatePrompts.take n).foldl step st₀) :=
  (use_counts_iff _ separatePrompts (by decide)).2 (by decide)

/-- A second request finds the prompt of the first, which then ends. -/
def sharedPrompt : List System.Op :=
  [.insert [7, 8] [0], .lookup [7, 8, 9], .release [7, 8]]

/-- The node has a user but a use count of zero, and an eviction drops its reference. -/
theorem sharedPrompt_not_counted :
    let st₀ := init { numGpuBlocks := 2, numCpuBlocks := 1, blockSize := 2 }
    let st := sharedPrompt.foldl step st₀
    Run.AllOk step (fun st op => st.Permitted op) st₀ sharedPrompt ∧ st.users = [[7, 8]] ∧
      useAt st.sys.cache.root [7, 8] = some 0 ∧ st.sys.cache.evictionVictims 1 = [(2, 0)] ∧
      ¬ (∀ n ≤ sharedPrompt.length, UseCounted ((sharedPrompt.take n).foldl step st₀)) := by
  intro st₀ st
  have huse : useAt st.sys.cache.root [7, 8] = some 0 := by decide
  refine ⟨by decide, by decide, huse, by decide, ?_⟩
  intro hall
  obtain ⟨u, hu, hvalid, hzero⟩ := useAt_eq_some_iff.1 huse
  have hcount : u.data.refCount = (st.usersOf [7, 8] : Int) :=
    (hall 3 (by decide)).counted [7, 8] u hu hvalid
  rw [hzero] at hcount
  exact absurd hcount (by decide)

end Users

end CacheFlow.PrefixCache
