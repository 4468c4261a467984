import CacheFlow.BlockManager
import Mathlib.Data.List.Count

set_option autoImplicit false

/-! # The block manager as a table of counts

What a block manager is for, seen from outside: every block has a number of holders, and a block may
be handed out exactly when nobody holds it. `Counts bm c` says that `bm` implements the table `c` of
holders: the stored reference counts are `c`, and each free list enumerates the blocks `c` maps to 0.

Every operation refines a change of one entry of the table. Who the holders are is left open: the
ledger of the whole interface, the scheduler's sequences and the prefix cache each instantiate `c`
with their own notion of a holder. -/

namespace CacheFlow.BlockManager

/-- A table of holders: how many there are of each block of each device. -/
abbrev HolderTable := DeviceType × BlockId → Nat

/-- The table with one more holder of `x`. -/
def HolderTable.inc (c : HolderTable) (x : DeviceType × BlockId) : HolderTable :=
  fun y => if y = x then c y + 1 else c y

/-- The table with one holder of `x` less. -/
def HolderTable.dec (c : HolderTable) (x : DeviceType × BlockId) : HolderTable :=
  fun y => if y = x then c y - 1 else c y

/-- `bm` implements the table `c`. -/
structure Counts (bm : BlockManager) (c : HolderTable) : Prop where
  /-- The stored reference count is the number of holders. -/
  refCount : ∀ d b, bm.refCount d b = c (d, b)
  /-- A free list holds exactly the blocks without holder. -/
  free : ∀ d b, b ∈ bm.freeList d ↔ bm.InRange d b ∧ c (d, b) = 0
  /-- A free list holds no block twice. -/
  nodup : ∀ d, (bm.freeList d).Nodup

variable {bm bm' : BlockManager} {c : HolderTable} {d : DeviceType} {b : BlockId} {s : SeqId}

theorem inRange_of_getBlock {blk : PhysicalBlock} (h : bm.getBlock b d = some blk) :
    bm.InRange d b := by
  unfold getBlock at h
  split at h
  · cases h
  · next hneg =>
      exact ⟨Int.not_lt.1 hneg, (List.getElem?_eq_some_iff.1 h).1⟩

theorem refCount_eq_zero_of_not_inRange (h : ¬ bm.InRange d b) : bm.refCount d b = 0 := by
  unfold refCount getBlock
  by_cases hneg : b < 0
  · simp [hneg]
  · have hlen : (bm.blocks d).length ≤ b.toNat := by
      by_contra hlt
      exact h ⟨Int.not_lt.1 hneg, Nat.lt_of_not_le hlt⟩
    simp [hneg, List.getElem?_eq_none hlen]

/-- A block with a holder is a block of the pool. -/
theorem Counts.inRange (h : Counts bm c) (hpos : 0 < c (d, b)) : bm.InRange d b := by
  by_contra hout
  have hzero := refCount_eq_zero_of_not_inRange hout
  rw [h.refCount] at hzero
  omega

/-- Two managers with the same counts, free lists and pool sizes implement the same tables. -/
theorem Counts.congr (h : Counts bm c) (href : ∀ d b, bm'.refCount d b = bm.refCount d b)
    (hfree : bm'.freeList = bm.freeList)
    (hlen : ∀ d, (bm'.blocks d).length = (bm.blocks d).length) : Counts bm' c := by
  refine ⟨fun d b => ?_, fun d b => ?_, fun d => ?_⟩
  · rw [href, h.refCount]
  · rw [hfree, h.free, InRange, InRange, hlen]
  · rw [hfree]; exact h.nodup d

/-- The pool right after construction: nobody holds anything. -/
theorem counts_new (config : CacheConfig) : Counts (BlockManager.new config) (fun _ => 0) := by
  have hget : ∀ d (i : Nat), (initBlocks (countFor config d) d)[i]?
      = if i < countFor config d then some { blockId := (i : BlockId), device := d } else none := by
    intro d i
    by_cases hi : i < countFor config d
    · simp [initBlocks, hi]
    · simp [initBlocks, hi]
  refine ⟨fun d b => ?_, fun d b => ?_, fun d => ?_⟩
  · simp only [refCount, getBlock, BlockManager.new, hget]
    split
    · rfl
    · next blk hblk =>
        split_ifs at hblk
        · cases hblk; rfl
  · simp only [BlockManager.new, initFreeList, InRange, initBlocks, List.mem_map, List.mem_range,
      List.length_map, List.length_range, and_true]
    constructor
    · rintro ⟨i, hi, rfl⟩
      exact ⟨Int.natCast_nonneg i, by simpa using hi⟩
    · rintro ⟨hpos, hlt⟩
      exact ⟨b.toNat, hlt, Int.toNat_of_nonneg hpos⟩
  · exact List.nodup_range.map (fun _ _ h => Int.ofNat_inj.1 h)

/-! ## The operations as changes of the table -/

/-- Any write that takes a block off its free list with count 1 makes one holder of a block nobody
    held. -/
theorem Counts.taken {rest : List BlockId} (h : Counts bm c) (hfl : bm.freeList d = b :: rest)
    (href : ∀ d₁ b₁, bm'.refCount d₁ b₁ = if d₁ = d ∧ b₁ = b then 1 else bm.refCount d₁ b₁)
    (hfree : bm'.freeList = Function.update bm.freeList d rest)
    (hlen : ∀ d₁, (bm'.blocks d₁).length = (bm.blocks d₁).length) :
    Counts bm' (c.inc (d, b)) := by
  have hzero : c (d, b) = 0 := ((h.free d b).1 (by rw [hfl]; exact List.mem_cons_self ..)).2
  have hnodup := h.nodup d
  rw [hfl, List.nodup_cons] at hnodup
  refine ⟨fun d₁ b₁ => ?_, fun d₁ b₁ => ?_, fun d₁ => ?_⟩
  · rw [href, HolderTable.inc]
    by_cases hx : d₁ = d ∧ b₁ = b
    · obtain ⟨rfl, rfl⟩ := hx; simp [hzero]
    · have hne : (d₁, b₁) ≠ (d, b) := fun he => hx (Prod.mk.inj he)
      rw [if_neg hx, if_neg hne, h.refCount]
  · have hrange : bm'.InRange d₁ b₁ ↔ bm.InRange d₁ b₁ := by rw [InRange, InRange, hlen]
    rw [hfree, hrange, HolderTable.inc]
    by_cases hd : d₁ = d
    · subst hd
      rw [Function.update_self]
      by_cases hb : b₁ = b
      · subst hb; simp [hnodup.1]
      · have hmem := h.free d₁ b₁
        rw [hfl, List.mem_cons] at hmem
        simp only [hb, false_or] at hmem
        simp [hb, hmem]
    · have hne : (d₁, b₁) ≠ (d, b) := fun he => hd (Prod.mk.inj he).1
      rw [Function.update_of_ne hd, if_neg hne]
      exact h.free d₁ b₁
  · rw [hfree]
    by_cases hd : d₁ = d
    · subst hd; rw [Function.update_self]; exact hnodup.2
    · rw [Function.update_of_ne hd]; exact h.nodup d₁

/-- A successful allocation makes its caller the only holder of the block. -/
theorem Counts.allocated {rest : List BlockId} (h : Counts bm c)
    (hfl : bm.freeList d = b :: rest) (ha : Allocated bm bm' s d b rest) :
    Counts bm' (c.inc (d, b)) :=
  h.taken hfl ha.refCount ha.freeList ha.length

theorem count_map_mk (bids : List BlockId) (d d₁ : DeviceType) (b : BlockId) :
    (bids.map (Prod.mk d)).count (d₁, b) = if d₁ = d then bids.count b else 0 := by
  by_cases hd : d₁ = d
  · subst hd
    rw [if_pos rfl]
    exact List.count_map_of_injective _ _ (fun _ _ heq => (Prod.mk.inj heq).2) _
  · rw [if_neg hd, List.count_eq_zero]
    intro hmem
    obtain ⟨b', -, heq⟩ := List.mem_map.1 hmem
    exact hd (Prod.mk.inj heq).1.symm

/-- A series of allocations makes one holder of each block taken, and nobody held these blocks. -/
theorem Counts.handed {bids : List BlockId} (h : Counts bm c) (hh : Handed bm bm' s d bids) :
    Counts bm' (fun x => c x + (bids.map (Prod.mk d)).count x) := by
  have hnodup := h.nodup d
  rw [hh.freeList] at hnodup
  have hbids : bids.Nodup := (List.nodup_append.1 hnodup).1
  have hzero : ∀ b ∈ bids, c (d, b) = 0 := fun b hb =>
    ((h.free d b).1 (by rw [hh.freeList]; exact List.mem_append_left _ hb)).2
  refine ⟨fun d₁ b => ?_, fun d₁ b => ?_, fun d₁ => ?_⟩
  · rw [hh.refCount, h.refCount, count_map_mk]
    by_cases hx : d₁ = d ∧ b ∈ bids
    · obtain ⟨rfl, hb⟩ := hx
      simp [hb, hzero b hb, List.count_eq_one_of_mem hbids hb]
    · rw [if_neg hx]
      by_cases hd : d₁ = d
      · have hcount : bids.count b = 0 := List.count_eq_zero.2 (fun hb => hx ⟨hd, hb⟩)
        simp [hd, hcount]
      · simp [hd]
  · rw [hh.inRange, count_map_mk]
    by_cases hd : d₁ = d
    · subst hd
      have hfree := h.free d₁ b
      rw [hh.freeList, List.mem_append] at hfree
      rw [if_pos rfl, Nat.add_eq_zero_iff, List.count_eq_zero]
      constructor
      · intro hb
        obtain ⟨hin, hc⟩ := hfree.1 (Or.inr hb)
        exact ⟨hin, hc, fun hb' => (List.nodup_append.1 hnodup).2.2 b hb' b hb rfl⟩
      · rintro ⟨hin, hc, hb⟩
        exact (hfree.2 ⟨hin, hc⟩).resolve_left hb
    · rw [hh.freeList_ne d₁ hd, if_neg hd, Nat.add_zero]
      exact h.free d₁ b
  · by_cases hd : d₁ = d
    · subst hd
      exact (List.nodup_append.1 hnodup).2.1
    · rw [hh.freeList_ne d₁ hd]
      exact h.nodup d₁

/-- Any write that lowers the count of one held block by one, and lists the block as free when that
    was its last holder, drops one holder. -/
theorem Counts.released (h : Counts bm c) (hpos : 0 < c (d, b))
    (href : ∀ d₁ b₁, bm'.refCount d₁ b₁
      = if d₁ = d ∧ b₁ = b then max (bm.refCount d b - 1) 0 else bm.refCount d₁ b₁)
    (hfree : ∀ d₁, bm'.freeList d₁
      = if d₁ = d ∧ bm.refCount d b ≤ 1 then b :: bm.freeList d₁ else bm.freeList d₁)
    (hlen : ∀ d₁, (bm'.blocks d₁).length = (bm.blocks d₁).length) :
    Counts bm' (c.dec (d, b)) := by
  have hnotfree : b ∉ bm.freeList d := fun hmem => by
    have := ((h.free d b).1 hmem).2
    omega
  have hrange : ∀ d₁ b₁, bm'.InRange d₁ b₁ ↔ bm.InRange d₁ b₁ := fun d₁ b₁ => by
    rw [InRange, InRange, hlen]
  refine ⟨fun d₁ b₁ => ?_, fun d₁ b₁ => ?_, fun d₁ => ?_⟩
  · rw [href, HolderTable.dec, h.refCount, h.refCount]
    by_cases hx : d₁ = d ∧ b₁ = b
    · obtain ⟨rfl, rfl⟩ := hx
      simp only [and_self, if_true]
      omega
    · have hne : (d₁, b₁) ≠ (d, b) := fun he => hx (Prod.mk.inj he)
      rw [if_neg hx, if_neg hne]
  · rw [hfree, hrange, HolderTable.dec, h.refCount]
    by_cases hd : d₁ = d
    · subst hd
      by_cases hb : b₁ = b
      · subst hb
        by_cases hlast : c (d₁, b₁) ≤ 1
        · have hone : c (d₁, b₁) = 1 := by omega
          simp [hone, h.inRange hpos]
        · have hmany : ¬ (c (d₁, b₁) : Int) ≤ 1 := by omega
          simp only [hmany, and_false, if_false, if_true, hnotfree, false_iff]
          omega
      · have hne : (d₁, b₁) ≠ (d₁, b) := fun he => hb (Prod.mk.inj he).2
        rw [if_neg hne, ← h.free]
        split <;> simp [hb]
    · have hne : (d₁, b₁) ≠ (d, b) := fun he => hd (Prod.mk.inj he).1
      rw [if_neg (fun hc => hd hc.1), if_neg hne]
      exact h.free d₁ b₁
  · rw [hfree]
    split
    · next hc =>
        obtain ⟨rfl, -⟩ := hc
        exact List.nodup_cons.2 ⟨hnotfree, h.nodup d₁⟩
    · exact h.nodup d₁

theorem Counts.freeBlock (h : Counts bm c) (hpos : 0 < c (d, b)) :
    Counts (bm.freeBlock b d) (c.dec (d, b)) :=
  h.released hpos (fun _ _ => bm.freeBlock_refCount (h.inRange hpos))
    (fun _ => bm.freeBlock_freeList (h.inRange hpos)) (fun _ => bm.freeBlock_length)

theorem Counts.decrementRef (h : Counts bm c) (hpos : 0 < c (d, b)) :
    Counts (bm.decrementRef b d) (c.dec (d, b)) := by
  have hin := h.inRange hpos
  obtain ⟨blk, hget, href⟩ := bm.getBlock_of_inRange hin
  refine h.released hpos (fun d₁ b₁ => ?_) (fun d₁ => ?_) (fun d₁ => ?_)
  · simp only [BlockManager.decrementRef, hget, ← href]
    split
    · next hle =>
        rw [pushFree_refCount, refCount_setBlock bm _ hin, show max (blk.refCount - 1) 0 = 0 by omega]
    · next hgt =>
        rw [refCount_setBlock bm _ hin,
          show max (blk.refCount - 1) 0 = blk.refCount - 1 by omega]
  · simp only [BlockManager.decrementRef, hget, ← href]
    by_cases hle : blk.refCount ≤ 1
    · rw [if_pos (by omega)]
      by_cases hd : d₁ = d <;> simp [hd, hle]
    · rw [if_neg (by omega)]
      simp [hle]
  · simp only [BlockManager.decrementRef, hget]
    split <;> simp

theorem Counts.incrementRef (h : Counts bm c) (hpos : 0 < c (d, b)) :
    Counts (bm.incrementRef b d) (c.inc (d, b)) := by
  have hin := h.inRange hpos
  obtain ⟨blk, hget, href⟩ := bm.getBlock_of_inRange hin
  simp only [BlockManager.incrementRef, hget]
  refine ⟨fun d₁ b₁ => ?_, fun d₁ b₁ => ?_, fun d₁ => ?_⟩
  · rw [refCount_setBlock bm _ hin, HolderTable.inc]
    by_cases hx : d₁ = d ∧ b₁ = b
    · obtain ⟨rfl, rfl⟩ := hx
      simp [href, h.refCount]
    · have hne : (d₁, b₁) ≠ (d, b) := fun he => hx (Prod.mk.inj he)
      rw [if_neg hx, if_neg hne, h.refCount]
  · rw [setBlock_freeList, h.free, InRange, InRange, setBlock_length, HolderTable.inc]
    by_cases hx : (d₁, b₁) = (d, b)
    · rw [if_pos hx, hx]; simp; omega
    · rw [if_neg hx]
  · rw [setBlock_freeList]; exact h.nodup d₁

/-- Taking a list of references on held blocks makes one holder for each occurrence in the list. -/
theorem Counts.incrementRefs (bids : List BlockId) (h : Counts bm c)
    (hpos : ∀ b ∈ bids, 0 < c (d, b)) :
    Counts (bids.foldl (fun bm b => bm.incrementRef b d) bm)
      (fun x => c x + (bids.map (Prod.mk d)).count x) := by
  induction bids generalizing bm c with
  | nil => simpa using h
  | cons b bids ih =>
      have hpos' : ∀ b' ∈ bids, 0 < c.inc (d, b) (d, b') := by
        intro b' hb'
        have hheld := hpos b' (List.mem_cons_of_mem _ hb')
        unfold HolderTable.inc
        split <;> omega
      have hrest := ih (h.incrementRef (hpos b (List.mem_cons_self ..))) hpos'
      rw [List.foldl_cons]
      convert hrest using 2 with x
      simp only [HolderTable.inc, List.map_cons, List.count_cons, beq_iff_eq]
      by_cases hx : x = (d, b)
      · simp only [hx, if_true]
        omega
      · simp only [hx, if_false, if_neg (Ne.symm hx), Nat.add_zero]

/-- What is left to release after the first entry is still covered by the table. -/
theorem HolderTable.count_le_dec {x : DeviceType × BlockId} {es : List (DeviceType × BlockId)}
    (hle : ∀ y, (x :: es).count y ≤ c y) (y : DeviceType × BlockId) : es.count y ≤ c.dec x y := by
  have hcount := hle y
  rw [HolderTable.dec]
  by_cases hy : y = x
  · subst hy
    rw [List.count_cons_self] at hcount
    rw [if_pos rfl]
    omega
  · rw [List.count_cons_of_ne (Ne.symm hy)] at hcount
    rw [if_neg hy]
    exact hcount

theorem HolderTable.dec_sub_count (x : DeviceType × BlockId) (es : List (DeviceType × BlockId)) :
    (fun y => c.dec x y - es.count y) = fun y => c y - (x :: es).count y := by
  funext y
  rw [HolderTable.dec]
  by_cases hy : y = x
  · subst hy
    rw [List.count_cons_self, if_pos rfl]
    omega
  · rw [List.count_cons_of_ne (Ne.symm hy), if_neg hy]

/-- Releasing a list of entries drops one holder for each occurrence in the list. -/
theorem Counts.freeEntries (es : List (DeviceType × BlockId)) (h : Counts bm c)
    (hle : ∀ x, es.count x ≤ c x) :
    Counts (bm.freeEntries es) (fun x => c x - es.count x) := by
  induction es generalizing bm c with
  | nil => simpa [BlockManager.freeEntries] using h
  | cons e es ih =>
      have hpos : 0 < c (e.1, e.2) :=
        Nat.lt_of_lt_of_le (List.count_pos_iff.2 (List.mem_cons_self ..)) (hle e)
      rw [← HolderTable.dec_sub_count]
      exact ih (h.freeBlock hpos) (HolderTable.count_le_dec hle)

theorem Counts.freeBlocks (h : Counts bm c) (hle : ∀ x, (bm.seqBlocks s).count x ≤ c x) :
    Counts (bm.freeBlocks s) (fun x => c x - (bm.seqBlocks s).count x) := by
  refine (h.freeEntries (bm.seqBlocks s) hle).congr (fun d b => freeBlocks_refCount bm)
    (freeBlocks_freeList bm) (fun d => ?_)
  rw [freeBlocks_length, freeEntries_length]

end CacheFlow.BlockManager
