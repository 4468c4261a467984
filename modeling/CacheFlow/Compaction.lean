import CacheFlow.Lib.Copy
import CacheFlow.Lib.Simt
import CacheFlow.BatchDecode

set_option autoImplicit false

/-! # Compacting the cache

`compact_kv_cache_kernel` moves blocks to lower block ids, one pair of ids for each column of its grid,
within the key cache and within the value cache. Thread blocks run in any order, so a block that is
another pair's source may be overwritten before it has been read.

An element is one copy in both caches; its offsets are computed in `int`, as is the number of elements of a
block. `compact_correct_iff` is about the orders in which the pairs can be copied, one pair after the other,
and about all interleavings of the elements. -/

namespace CacheFlow

open Copy Simt

/-- The sizes the kernel is launched with. -/
structure BlockShape where
  numKvHeads : Nat
  headDim : Nat
  blockSize : Nat
  deriving DecidableEq, Repr

/-- A plan: pairs of a source and a destination, both increasing, no destination behind its source. -/
structure CompactionPlan where
  pairs : List (Nat × Nat)
  src_sorted : (pairs.map Prod.fst).Pairwise (· < ·)
  dst_sorted : (pairs.map Prod.snd).Pairwise (· < ·)
  dst_le : ∀ p ∈ pairs, p.2 ≤ p.1

/-- The two caches. -/
structure KvCaches (C : Type) where
  key : Int → C
  value : Int → C

namespace BlockShape

variable (s : BlockShape)

/-- The elements of a block. -/
def elems : Nat := s.numKvHeads * s.blockSize * s.headDim

/-- Where the element `i` of a block is. -/
def cell (block i : Nat) : Int := (block * s.elems + i : Nat)

/-- `elems_per_block`. -/
def elemsPerBlock : Int := toInt (toInt (s.numKvHeads * s.blockSize) * s.headDim)

/-- `blocks_y`, for 256 threads each. -/
def blocksY : Int := (toInt (toInt (s.elemsPerBlock + 256) - 1)).tdiv 256

/-- The elements that the threads of one column of the grid visit. A thread is
    `threadIdx.x + blockIdx.y * blockDim.x`. -/
def visited : List Nat :=
  (List.range (256 * s.blocksY.toNat)).flatMap (fun tid =>
    strided tid s.elemsPerBlock.toNat (256 * s.blocksY.toNat))

/-- `src_off` or `dst_off`. -/
def offset (block i : Nat) : Int := toInt (toInt (block * s.elemsPerBlock) + i)

/-- The copies for one pair. -/
def pairCopies (p : Nat × Nat) : List (Int × Int) :=
  if p.1 = p.2 then [] else s.visited.map (fun i => (s.offset p.1 i, s.offset p.2 i))

end BlockShape

/-- One element. -/
def KvCaches.copyElem {C : Type} (caches : KvCaches C) (op : Int × Int) : KvCaches C where
  key := Function.update caches.key op.2 (caches.key op.1)
  value := Function.update caches.value op.2 (caches.value op.1)

/-- `compact_kv_cache_kernel` for one pair after the other. -/
def KvCaches.compact {C : Type} (s : BlockShape) (order : List (Nat × Nat)) (caches : KvCaches C) :
    KvCaches C :=
  order.foldl (fun caches p => (s.pairCopies p).foldl KvCaches.copyElem caches) caches

/-- Every destination has the content its source had. -/
def Compacted {C : Type} (s : BlockShape) (plan : CompactionPlan) (before after : Int → C) : Prop :=
  ∀ p ∈ plan.pairs, ∀ i < s.elems,
    after (s.cell p.2 i) = before (s.cell p.1 i)

/-- The plan is carried out, whatever the order of the pairs and the contents of the caches. -/
def PairOrdersCorrect (C : Type) (s : BlockShape) (plan : CompactionPlan) : Prop :=
  ∀ order : List (Nat × Nat), order.Perm plan.pairs → ∀ caches : KvCaches C,
    Compacted s plan caches.key (caches.compact s order).key ∧
    Compacted s plan caches.value (caches.compact s order).value

/-- The plan is carried out, in whatever order the elements of all pairs are copied. -/
def InterleavingsCorrect (C : Type) (s : BlockShape) (plan : CompactionPlan) : Prop :=
  ∀ ops : List (Int × Int), ops.Perm (plan.pairs.flatMap s.pairCopies) → ∀ caches : KvCaches C,
    Compacted s plan caches.key (ops.foldl KvCaches.copyElem caches).key ∧
    Compacted s plan caches.value (ops.foldl KvCaches.copyElem caches).value

/-- No destination is the source of another pair, and the cells of what is moved can be addressed in
    `int`. -/
structure Orderless (s : BlockShape) (plan : CompactionPlan) : Prop where
  apart : s.elems = 0 ∨ ∀ p ∈ plan.pairs, ∀ q ∈ plan.pairs, p.2 = q.1 → p = q
  int : ∀ p ∈ plan.pairs, p.1 ≠ p.2 → (p.1 + 1) * s.elems ≤ 2 ^ 31

/-! ## Offsets -/

namespace BlockShape

variable {s : BlockShape}

theorem elemsPerBlock_eq (h : s.elems < 2 ^ 31) : s.elemsPerBlock = s.elems := by
  have hcast : s.elemsPerBlock = toInt (s.elems : Int) := by
    rw [elemsPerBlock, toInt, toInt, toInt, Int.bmod_mul_bmod, elems]
    push_cast
    rfl
  rw [hcast]
  exact toInt_of_lt (by omega) (by exact_mod_cast h)

theorem offset_lt (s : BlockShape) (block i : Nat) : s.offset block i < 2 ^ 31 := toInt_lt _

/-- A cell that can be addressed is addressed. -/
theorem offset_eq {block i : Nat} (helems : s.elems < 2 ^ 31) (h : block * s.elems + i < 2 ^ 31) :
    s.offset block i = s.cell block i := by
  have hcast : s.offset block i = toInt (s.cell block i) := by
    rw [offset, elemsPerBlock_eq helems, toInt, toInt, toInt, Int.bmod_add_bmod, cell]
    push_cast
    rfl
  rw [hcast]
  exact toInt_of_lt (Int.natCast_nonneg _) (by rw [cell]; exact_mod_cast h)

theorem blocksY_eq (helems : s.elems ≤ 2 ^ 30) : s.blocksY = ((s.elems + 255) / 256 : Nat) := by
  have hsum : toInt (s.elemsPerBlock + 256) = (s.elems : Int) + 256 := by
    rw [elemsPerBlock_eq (by omega)]
    exact toInt_of_lt (by omega) (by omega)
  have hpred : toInt ((s.elems : Int) + 256 - 1) = (s.elems + 255 : Nat) := by
    rw [toInt_of_lt (by omega) (by omega)]
    omega
  rw [blocksY, hsum, hpred]
  rfl

/-- The threads visit all elements of a block. -/
theorem mem_visited (helems : s.elems ≤ 2 ^ 30) {i : Nat} : i ∈ s.visited ↔ i < s.elems := by
  have hper : s.elemsPerBlock.toNat = s.elems := by
    rw [elemsPerBlock_eq (by omega), Int.toNat_natCast]
  have hblocks : s.blocksY.toNat = (s.elems + 255) / 256 := by
    rw [blocksY_eq helems, Int.toNat_natCast]
  rw [visited, hper, hblocks]
  by_cases hzero : s.elems = 0
  · simp [hzero]
  · have htiles := strided_tiles 0 s.elems (n := 256 * ((s.elems + 255) / 256)) (by omega)
    simp only [Nat.zero_add, Nat.sub_zero, ← List.range_eq_range'] at htiles
    rw [htiles.mem_iff, List.mem_range]

end BlockShape

/-! ## The copies of a plan -/

section Copies

variable {s : BlockShape} {plan : CompactionPlan}

theorem CompactionPlan.eq_of_src (plan : CompactionPlan) {p q : Nat × Nat} (hp : p ∈ plan.pairs)
    (hq : q ∈ plan.pairs) (h : p.1 = q.1) : p = q :=
  List.inj_on_of_nodup_map (plan.src_sorted.imp Nat.ne_of_lt) hp hq h

theorem CompactionPlan.eq_of_dst (plan : CompactionPlan) {p q : Nat × Nat} (hp : p ∈ plan.pairs)
    (hq : q ∈ plan.pairs) (h : p.2 = q.2) : p = q :=
  List.inj_on_of_nodup_map (plan.dst_sorted.imp Nat.ne_of_lt) hp hq h

/-- The copies for a pair whose cells can be addressed. -/
theorem mem_pairCopies {p : Nat × Nat} (hle : p.2 ≤ p.1) (hint : p.1 ≠ p.2 → (p.1 + 1) * s.elems ≤ 2 ^ 31)
    {op : Int × Int} :
    op ∈ s.pairCopies p ↔ p.1 ≠ p.2 ∧ ∃ i < s.elems,
      op = (s.cell p.1 i, s.cell p.2 i) := by
  by_cases hmove : p.1 = p.2
  · simp [BlockShape.pairCopies, hmove]
  · have hlast := hint hmove
    rw [Nat.succ_mul] at hlast
    have hsrc : s.elems ≤ p.1 * s.elems := Nat.le_mul_of_pos_left _ (by omega)
    have hdst : p.2 * s.elems ≤ p.1 * s.elems := Nat.mul_le_mul_right _ hle
    have hpair : ∀ i < s.elems, (s.offset p.1 i, s.offset p.2 i)
        = (s.cell p.1 i, s.cell p.2 i) := by
      intro i hi
      rw [BlockShape.offset_eq (by omega) (by omega), BlockShape.offset_eq (by omega) (by omega)]
    rw [BlockShape.pairCopies, if_neg hmove, List.mem_map]
    constructor
    · rintro ⟨i, hi, rfl⟩
      have hi' := (BlockShape.mem_visited (by omega)).1 hi
      exact ⟨hmove, i, hi', hpair i hi'⟩
    · rintro ⟨-, i, hi, rfl⟩
      exact ⟨i, (BlockShape.mem_visited (by omega)).2 hi, hpair i hi⟩

/-- A cell belongs to one block. -/
theorem cell_inj {b b' i i' : Nat} (hi : i < s.elems) (hi' : i' < s.elems)
    (h : s.cell b i = s.cell b' i') : b = b' ∧ i = i' := by
  have hcell : (b, i).1 * s.elems + (b, i).2 = (b', i').1 * s.elems + (b', i').2 := Int.natCast_inj.1 h
  exact Prod.mk.inj (block_offset_inj hi hi' hcell)

theorem copyElem_foldl {C : Type} (ops : List (Int × Int)) (caches : KvCaches C) :
    (ops.foldl KvCaches.copyElem caches).key = moveAll ops caches.key ∧
    (ops.foldl KvCaches.copyElem caches).value = moveAll ops caches.value := by
  induction ops generalizing caches with
  | nil => exact ⟨rfl, rfl⟩
  | cons op ops ih => exact ih (caches.copyElem op)

theorem compact_eq {C : Type} (s : BlockShape) (order : List (Nat × Nat)) (caches : KvCaches C) :
    caches.compact s order = (order.flatMap s.pairCopies).foldl KvCaches.copyElem caches := by
  rw [KvCaches.compact, List.foldl_flatMap]

/-- **The condition is enough**, for every interleaving. -/
theorem Orderless.compacted {C : Type} (h : Orderless s plan) {ops : List (Int × Int)}
    (hops : ops.Perm (plan.pairs.flatMap s.pairCopies)) (mem : Int → C) :
    Compacted s plan mem (moveAll ops mem) := by
  intro p hp i hi
  have hapart := h.apart.resolve_left (by omega)
  have hmem : ∀ {op}, op ∈ ops ↔ ∃ q ∈ plan.pairs, q.1 ≠ q.2 ∧ ∃ j < s.elems,
      op = (s.cell q.1 j, s.cell q.2 j) := by
    intro op
    rw [hops.mem_iff, List.mem_flatMap]
    refine exists_congr (fun q => and_congr_right (fun hq => ?_))
    exact mem_pairCopies (plan.dst_le q hq) (h.int q hq)
  have hread : ∀ op ∈ ops, ∀ op' ∈ ops, op.2 ≠ op'.1 := by
    rintro _ hop _ hop' heq
    obtain ⟨q, hq, hmove, j, hj, rfl⟩ := hmem.1 hop
    obtain ⟨q', hq', -, j', hj', rfl⟩ := hmem.1 hop'
    obtain rfl := hapart q hq q' hq' (cell_inj hj hj' heq).1
    exact hmove (cell_inj hj hj' heq).1.symm
  rw [moveAll_eq_copyAll hread]
  by_cases hmove : p.1 = p.2
  · -- nobody writes to a block that stays where it is
    rw [copyAll_of_notMem, hmove]
    intro hdst
    obtain ⟨op, hop, heq⟩ := List.mem_map.1 hdst
    obtain ⟨q, hq, hmove', j, hj, rfl⟩ := hmem.1 hop
    have hblock : q.2 = p.1 := (cell_inj hj hi heq).1.trans hmove.symm
    rw [hapart q hq p hp hblock] at hmove'
    exact hmove' hmove
  · refine copyAll_of_mem (hmem.2 ⟨p, hp, hmove, i, hi, rfl⟩) ?_
    intro op' hop' heq
    obtain ⟨q, hq, -, j, hj, rfl⟩ := hmem.1 hop'
    obtain ⟨hblock, rfl⟩ := cell_inj hj hi heq
    rw [plan.eq_of_dst hq hp hblock]

/-! ## When the order matters -/

variable {C : Type}

/-- The caches with the content `x₁` in one cell and `x₀` in all others. -/
def markedCell (x₀ x₁ : C) (a : Int) : KvCaches C where
  key := Function.update (fun _ => x₀) a x₁
  value := Function.update (fun _ => x₀) a x₁

theorem markedCell_self (x₀ x₁ : C) (a : Int) : (markedCell x₀ x₁ a).key a = x₁ := by
  simp [markedCell]

theorem markedCell_of_ne (x₀ x₁ : C) {a b : Int} (h : b ≠ a) : (markedCell x₀ x₁ a).key b = x₀ := by
  simp [markedCell, h]

/-- A content that is not read stays in its cell. -/
theorem moveAll_markedCell {ops : List (Int × Int)} {x₀ x₁ : C} {a b : Int}
    (hread : ∀ op ∈ ops, op.1 ≠ a) (hb : b ≠ a) : moveAll ops (markedCell x₀ x₁ a).key b = x₀ := by
  exact moveAll_eq_on (S := {a}ᶜ) hread (fun c hc => markedCell_of_ne x₀ x₁ hc) b hb

/-- A source cell that cannot be addressed is not read. -/
theorem PairOrdersCorrect.int [Nontrivial C] (h : PairOrdersCorrect C s plan) {p : Nat × Nat}
    (hp : p ∈ plan.pairs) (hmove : p.1 ≠ p.2) : (p.1 + 1) * s.elems ≤ 2 ^ 31 := by
  obtain ⟨x₀, x₁, hne⟩ := exists_pair_ne C
  by_contra hover
  have hpos : 0 < s.elems := Nat.pos_of_ne_zero (fun hzero => hover (by simp [hzero]))
  have hbig : 2 ^ 31 ≤ s.cell p.1 (s.elems - 1) := by
    rw [Nat.succ_mul] at hover
    simp only [BlockShape.cell]
    omega
  have hread : ∀ op ∈ plan.pairs.flatMap s.pairCopies, op.1 ≠ s.cell p.1 (s.elems - 1) := by
    intro op hop
    obtain ⟨q, -, hop⟩ := List.mem_flatMap.1 hop
    rw [BlockShape.pairCopies] at hop
    split at hop
    · exact absurd hop List.not_mem_nil
    · obtain ⟨i, -, rfl⟩ := List.mem_map.1 hop
      have hoff := s.offset_lt q.1 i
      dsimp only
      omega
  have hlast : s.elems - 1 < s.elems := Nat.sub_one_lt_of_lt hpos
  have hdst : s.cell p.2 (s.elems - 1) ≠ s.cell p.1 (s.elems - 1) :=
    fun heq => hmove (cell_inj hlast hlast heq).1.symm
  have hmoved := (h plan.pairs (List.Perm.refl _)
    (markedCell x₀ x₁ (s.cell p.1 (s.elems - 1)))).1 p hp (s.elems - 1) hlast
  rw [compact_eq, (copyElem_foldl _ _).1, moveAll_markedCell hread hdst] at hmoved
  rw [markedCell_self] at hmoved
  exact hne hmoved

/-- If a destination is the source of another pair, what was there is lost when that pair comes later. -/
theorem PairOrdersCorrect.apart [Nontrivial C] (h : PairOrdersCorrect C s plan) (hpos : 0 < s.elems)
    {p q : Nat × Nat} (hp : p ∈ plan.pairs) (hq : q ∈ plan.pairs) (hpq : p.2 = q.1) : p = q := by
  obtain ⟨x₀, x₁, hne⟩ := exists_pair_ne C
  by_contra hdiff
  have hsrc : p.1 ≠ q.1 := fun heq => hdiff (plan.eq_of_src hp hq heq)
  have hmove : p.1 ≠ p.2 := fun heq => hsrc (heq.trans hpq)
  have hcopies : ∀ {op}, op ∈ s.pairCopies p ↔ p.1 ≠ p.2 ∧ ∃ i < s.elems,
      op = (s.cell p.1 i, s.cell p.2 i) :=
    mem_pairCopies (plan.dst_le p hp) (fun hmove => h.int hp hmove)
  have happart : ∀ op ∈ s.pairCopies p, ∀ op' ∈ s.pairCopies p, op.2 ≠ op'.1 := by
    intro op hop op' hop' heq
    obtain ⟨-, i, hi, rfl⟩ := hcopies.1 hop
    obtain ⟨-, j, hj, rfl⟩ := hcopies.1 hop'
    exact hmove (cell_inj hi hj heq).1.symm
  have hmem : (s.cell p.1 0, s.cell p.2 0) ∈ s.pairCopies p := hcopies.2 ⟨hmove, 0, hpos, rfl⟩
  -- after the copies for `p` the marked content is nowhere
  have hlost : moveAll (s.pairCopies p) (markedCell x₀ x₁ (s.cell p.2 0)).key = fun _ => x₀ := by
    funext a
    by_cases ha : a = s.cell p.2 0
    · have hwritten : copyAll (markedCell x₀ x₁ (s.cell p.2 0)).key (s.pairCopies p)
          (markedCell x₀ x₁ (s.cell p.2 0)).key (s.cell p.2 0)
          = (markedCell x₀ x₁ (s.cell p.2 0)).key (s.cell p.1 0) := by
        apply copyAll_of_mem hmem
        intro op hop heq
        obtain ⟨-, j, hj, rfl⟩ := hcopies.1 hop
        rw [(cell_inj hj hpos heq).2]
      rw [ha, moveAll_eq_copyAll happart, hwritten]
      exact markedCell_of_ne x₀ x₁ (happart _ hmem _ hmem).symm
    · exact moveAll_markedCell (fun op hop => (happart _ hmem op hop).symm) ha
  have horder : (p :: plan.pairs.erase p).Perm plan.pairs := (List.perm_cons_erase hp).symm
  have hmoved := (h _ horder (markedCell x₀ x₁ (s.cell p.2 0))).1 q hq 0 hpos
  rw [compact_eq, (copyElem_foldl _ _).1, List.flatMap_cons, moveAll_append, hlost, moveAll_const,
    ← hpq, markedCell_self] at hmoved
  exact hne hmoved

/-- **Compaction and the order of the copies.** A plan is carried out in every order of its pairs, for all
    contents of both caches, exactly if it is `Orderless`; and then it is so in every interleaving of the
    elements. -/
theorem compact_correct_iff (C : Type) [Nontrivial C] (s : BlockShape) (plan : CompactionPlan) :
    (PairOrdersCorrect C s plan ↔ Orderless s plan) ∧
      (InterleavingsCorrect C s plan ↔ Orderless s plan) := by
  have hall : Orderless s plan → InterleavingsCorrect C s plan := by
    intro h ops hops caches
    rw [(copyElem_foldl ops caches).1, (copyElem_foldl ops caches).2]
    exact ⟨h.compacted hops caches.key, h.compacted hops caches.value⟩
  have hpairs : InterleavingsCorrect C s plan → PairOrdersCorrect C s plan := by
    intro h order horder caches
    rw [compact_eq]
    exact h _ (horder.flatMap_right s.pairCopies) caches
  have hcond : PairOrdersCorrect C s plan → Orderless s plan := by
    intro h
    refine ⟨?_, fun p hp hmove => h.int hp hmove⟩
    rcases Nat.eq_zero_or_pos s.elems with hzero | hpos
    · exact Or.inl hzero
    · exact Or.inr (fun p hp q hq hpq => h.apart hpos hp hq hpq)
  exact ⟨⟨hcond, fun h => hpairs (hall h)⟩, ⟨fun h => hcond (hpairs h), hall⟩⟩

/-- Blocks of one element. -/
def unitShape : BlockShape where
  numKvHeads := 1
  headDim := 1
  blockSize := 1

/-- Two blocks are moved to a gap in front of both. -/
def gapPlan : CompactionPlan where
  pairs := [(0, 0), (3, 1), (5, 2)]
  src_sorted := by decide
  dst_sorted := by decide
  dst_le := by decide

theorem gapPlan_correct : PairOrdersCorrect Nat unitShape gapPlan :=
  (compact_correct_iff Nat unitShape gapPlan).1.2 ⟨Or.inr (by decide), by decide⟩

/-- Two blocks are moved down by one. -/
def shiftPlan : CompactionPlan where
  pairs := [(1, 0), (2, 1)]
  src_sorted := by decide
  dst_sorted := by decide
  dst_le := by decide

/-- If the second pair comes first, block 0 gets what was in block 2. -/
theorem shiftPlan_not_correct : ¬ PairOrdersCorrect Nat unitShape shiftPlan := by
  intro h
  have hmoved := (h [(2, 1), (1, 0)] (by decide) { key := Int.toNat, value := Int.toNat }).1 (1, 0)
    (by decide) 0 (by decide)
  exact absurd hmoved (by decide +kernel)

end Copies

end CacheFlow
