import CacheFlow.BlockManager.Ledger

set_option autoImplicit false

/-! # Releasing blocks one by one and by sequence

`free_block` drops a reference of one block, `free_blocks` drops one for every entry a sequence has in
`seq_block_map_`. `free_block` does not touch the map, so the entry of a block it has released goes
stale, and a later `free_blocks` of that sequence drops a reference that is not there any more: the
block is put on its free list a second time.

The two paths agree in a run exactly as long as every `free_blocks` finds a reference for each entry of
the sequence. -/

namespace CacheFlow.BlockManager

inductive ReleaseOp
  | allocateBlock (s : SeqId) (d : DeviceType)
  | freeBlock (b : BlockId) (d : DeviceType)
  | freeBlocks (s : SeqId)

namespace ReleaseOp

def apply (bm : BlockManager) : ReleaseOp → BlockManager
  | allocateBlock s d => (bm.allocateBlock s d).2
  | freeBlock b d => bm.freeBlock b d
  | freeBlocks s => bm.freeBlocks s

/-- The contract of the callers: `free_block` is called on a block with references. -/
def Permitted (bm : BlockManager) : ReleaseOp → Prop
  | freeBlock b d => 0 < bm.refCount d b
  | _ => True

/-- A `free_blocks` that finds a reference for every entry of the sequence. -/
def Referenced (bm : BlockManager) : ReleaseOp → Prop
  | freeBlocks s => ∀ e ∈ bm.seqBlocks s, ((bm.seqBlocks s).count e : Int) ≤ bm.refCount e.1 e.2
  | _ => True

/-- The operation frees the block: by its id, or with a sequence that lists it. -/
def Frees (d : DeviceType) (b : BlockId) (bm : BlockManager) : ReleaseOp → Prop
  | freeBlock b' d' => d' = d ∧ b' = b
  | freeBlocks s => (d, b) ∈ bm.seqBlocks s
  | allocateBlock _ _ => False

instance (bm : BlockManager) : ∀ op, Decidable (Permitted bm op)
  | freeBlock b d => inferInstanceAs (Decidable (0 < bm.refCount d b))
  | allocateBlock _ _ | freeBlocks _ => isTrue trivial

instance (bm : BlockManager) : ∀ op, Decidable (Referenced bm op)
  | freeBlocks s => inferInstanceAs (Decidable
      (∀ e ∈ bm.seqBlocks s, ((bm.seqBlocks s).count e : Int) ≤ bm.refCount e.1 e.2))
  | allocateBlock _ _ | freeBlock _ _ => isTrue trivial

end ReleaseOp

/-- The free lists are the blocks without references, each once, and together with the referenced
    blocks they make up the pools. -/
structure Consistent (bm : BlockManager) : Prop where
  nodup : ∀ d, (bm.freeList d).Nodup
  free : ∀ d b, b ∈ bm.freeList d ↔ bm.InRange d b ∧ bm.refCount d b = 0
  total : ∀ d, (bm.freeList d).length + (bm.blocks d).countP (fun blk => 0 < blk.refCount)
    = (bm.blocks d).length
  le_total : bm.numFreeGpuBlocks ≤ bm.numTotalGpuBlocks

/-! ## The reference counts as a table -/

/-- The reference counts as the table of holders they stand for. -/
def refTable (bm : BlockManager) : HolderTable := fun x => (bm.refCount x.1 x.2).toNat

variable {bm : BlockManager} {c : HolderTable} {d : DeviceType} {b : BlockId} {s : SeqId}

theorem Counts.refTable_eq (h : Counts bm c) : bm.refTable = c := by
  funext ⟨d, b⟩
  rw [refTable, h.refCount]
  exact Int.toNat_natCast _

/-- The stored counts in the order of the pool. -/
theorem Counts.map_refCount (h : Counts bm c) (d : DeviceType) :
    (bm.blocks d).map PhysicalBlock.refCount
      = (List.range (bm.blocks d).length).map (fun i : Nat => (c (d, (i : BlockId)) : Int)) := by
  refine List.ext_getElem (by simp) ?_
  intro i hi _
  rw [List.length_map] at hi
  have href := h.refCount d (i : BlockId)
  have hneg : ¬ (i : Int) < 0 := by omega
  rw [BlockManager.refCount, getBlock, if_neg hneg, Int.toNat_natCast,
    List.getElem?_eq_getElem hi] at href
  simp only [List.getElem_map, List.getElem_range]
  exact href

/-- The free list is the list of the pool's blocks without holder, in some order. -/
theorem Counts.freeList_perm (h : Counts bm c) (d : DeviceType) :
    (bm.freeList d).Perm (((List.range (bm.blocks d).length).filter
      (fun i : Nat => decide (c (d, (i : BlockId)) = 0))).map (fun i : Nat => (i : BlockId))) := by
  have hids := (List.nodup_range (n := (bm.blocks d).length)).filter
    (fun i : Nat => decide (c (d, (i : BlockId)) = 0))
  refine (List.perm_ext_iff_of_nodup (h.nodup d)
    (hids.map (fun _ _ heq => Int.ofNat_inj.1 heq))).2 ?_
  intro b
  rw [h.free]
  simp only [List.mem_map, List.mem_filter, List.mem_range, decide_eq_true_eq, InRange]
  constructor
  · rintro ⟨⟨hpos, hlt⟩, hzero⟩
    exact ⟨b.toNat, ⟨hlt, by rwa [Int.toNat_of_nonneg hpos]⟩, Int.toNat_of_nonneg hpos⟩
  · rintro ⟨i, ⟨hlt, hzero⟩, rfl⟩
    exact ⟨⟨Int.natCast_nonneg i, by simpa using hlt⟩, hzero⟩

/-- The free blocks and the referenced ones make up the pool. -/
theorem Counts.length_add_countP (h : Counts bm c) (d : DeviceType) :
    (bm.freeList d).length + (bm.blocks d).countP (fun blk => 0 < blk.refCount)
      = (bm.blocks d).length := by
  have hcount : (bm.blocks d).countP (fun blk => 0 < blk.refCount)
      = (List.range (bm.blocks d).length).countP
          (fun i : Nat => ¬ decide (c (d, (i : BlockId)) = 0) = true) := by
    have hpos : (bm.blocks d).countP (fun blk => 0 < blk.refCount)
        = ((bm.blocks d).map PhysicalBlock.refCount).countP (fun n => 0 < n) := by
      rw [List.countP_map]
      rfl
    rw [hpos, h.map_refCount d, List.countP_map]
    refine List.countP_congr ?_
    intro i _
    simp only [Function.comp_apply, decide_eq_true_eq]
    omega
  have hsum := List.length_eq_countP_add_countP
    (fun i : Nat => decide (c (d, (i : BlockId)) = 0)) (l := List.range (bm.blocks d).length)
  rw [List.length_range] at hsum
  rw [(h.freeList_perm d).length_eq, hcount, List.length_map, ← List.countP_eq_length_filter]
  exact hsum.symm

theorem Counts.consistent (h : Counts bm c) : Consistent bm := by
  refine ⟨h.nodup, ?_, h.length_add_countP, ?_⟩
  · intro d b
    rw [h.free, h.refCount]
    simp
  · have htotal := h.length_add_countP .cuda
    rw [numFreeGpuBlocks, numTotalGpuBlocks]
    omega

/-! ## What one operation keeps -/

/-- The counts are exact and the map lists blocks of the pools. -/
structure Kept (bm : BlockManager) : Prop where
  counts : Counts bm bm.refTable
  entries : ∀ s, ∀ e ∈ bm.seqBlocks s, bm.InRange e.1 e.2

theorem Counts.self (h : Counts bm c) : Counts bm bm.refTable := by
  rw [h.refTable_eq]
  exact h

theorem new_kept (config : CacheConfig) : Kept (BlockManager.new config) := by
  refine ⟨(counts_new config).self, ?_⟩
  intro s e he
  cases he

/-- An allocation takes nothing, or one block without references. -/
theorem Kept.allocateBlock (h : Kept bm) (s : SeqId) (d : DeviceType) :
    ((bm.allocateBlock s d).1 = invalidBlock ∧ (bm.allocateBlock s d).2 = bm) ∨
    ∃ b, (bm.allocateBlock s d).1 = b ∧ b ∈ bm.freeList d ∧ Kept (bm.allocateBlock s d).2 ∧
      (bm.allocateBlock s d).2.refTable = bm.refTable.inc (d, b) := by
  cases hfl : bm.freeList d with
  | nil =>
      rw [allocateBlock_nil bm hfl]
      exact Or.inl ⟨rfl, rfl⟩
  | cons b rest =>
      have hmem : b ∈ bm.freeList d := by rw [hfl]; exact List.mem_cons_self ..
      have hb : bm.InRange d b := ((h.counts.free d b).1 hmem).1
      obtain ⟨hbid, ha⟩ := bm.allocateBlock_cons (s := s) hfl hb
      have hcounts := h.counts.allocated hfl ha
      refine Or.inr ⟨b, hbid, List.mem_cons_self .., ⟨hcounts.self, ?_⟩, hcounts.refTable_eq⟩
      intro s' e he
      rw [ha.inRange]
      rw [ha.seqBlocks] at he
      split at he
      · rcases List.mem_append.1 he with he | he
        · exact h.entries s e he
        · rw [List.mem_singleton.1 he]
          exact hb
      · exact h.entries s' e he

theorem Kept.freeBlock (h : Kept bm) (hpos : 0 < bm.refCount d b) :
    Kept (bm.freeBlock b d) ∧ (bm.freeBlock b d).refTable = bm.refTable.dec (d, b) := by
  have hheld : 0 < bm.refTable (d, b) := Int.lt_toNat.2 hpos
  have hcounts := h.counts.freeBlock hheld
  refine ⟨⟨hcounts.self, ?_⟩, hcounts.refTable_eq⟩
  intro s e he
  rw [freeBlock_seqBlocks] at he
  rw [InRange, freeBlock_length]
  exact h.entries s e he

theorem count_le_refTable (h : ReleaseOp.Referenced bm (.freeBlocks s)) (x : DeviceType × BlockId) :
    (bm.seqBlocks s).count x ≤ bm.refTable x := by
  by_cases hx : x ∈ bm.seqBlocks s
  · have hle := h x hx
    rw [refTable]
    omega
  · rw [List.count_eq_zero.2 hx]
    exact Nat.zero_le _

theorem Kept.freeBlocks (h : Kept bm) (hs : ReleaseOp.Referenced bm (.freeBlocks s)) :
    Kept (bm.freeBlocks s) ∧
      (bm.freeBlocks s).refTable = fun x => bm.refTable x - (bm.seqBlocks s).count x := by
  have hcounts := h.counts.freeBlocks (count_le_refTable hs)
  refine ⟨⟨hcounts.self, ?_⟩, hcounts.refTable_eq⟩
  intro s' e he
  rw [freeBlocks_seqBlocks] at he
  rw [InRange, freeBlocks_length]
  split at he
  · cases he
  · exact h.entries s' e he

theorem Kept.apply (h : Kept bm) (op : ReleaseOp) (hop : op.Permitted bm ∧ op.Referenced bm) :
    Kept (ReleaseOp.apply bm op) := by
  cases op with
  | allocateBlock s d =>
      rcases h.allocateBlock s d with ⟨-, hsame⟩ | ⟨b, -, -, hkept, -⟩
      · rw [ReleaseOp.apply, hsame]
        exact h
      · exact hkept
  | freeBlock b d => exact (h.freeBlock hop.1).1
  | freeBlocks s => exact (h.freeBlocks hop.2).1

/-- An operation that does not free a block keeps its references. -/
theorem Kept.refTable_le (h : Kept bm) (op : ReleaseOp) (hop : op.Permitted bm ∧ op.Referenced bm)
    (hnot : ¬ op.Frees d b bm) : bm.refTable (d, b) ≤ (ReleaseOp.apply bm op).refTable (d, b) := by
  cases op with
  | allocateBlock s d' =>
      rcases h.allocateBlock s d' with ⟨-, hsame⟩ | ⟨b', -, -, -, htable⟩
      · rw [ReleaseOp.apply, hsame]
      · rw [ReleaseOp.apply, htable, HolderTable.inc]
        split <;> omega
  | freeBlock b' d' =>
      have hne : (d, b) ≠ (d', b') := by
        intro heq
        obtain ⟨rfl, rfl⟩ := Prod.mk.inj heq
        exact hnot ⟨rfl, rfl⟩
      rw [ReleaseOp.apply, (h.freeBlock hop.1).2, HolderTable.dec, if_neg hne]
  | freeBlocks s =>
      have hzero : (bm.seqBlocks s).count (d, b) = 0 := List.count_eq_zero.2 hnot
      rw [ReleaseOp.apply, (h.freeBlocks hop.2).2]
      simp only [hzero]
      omega

/-! ## What a stale entry does -/

theorem freeList_sublist_freeBlock (bm : BlockManager) (b : BlockId) (d d' : DeviceType) :
    (bm.freeList d').Sublist ((bm.freeBlock b d).freeList d') := by
  unfold BlockManager.freeBlock
  split
  · exact List.Sublist.refl _
  · split
    · rw [pushFree_freeList, setBlock_freeList]
      split
      · exact List.sublist_cons_self ..
      · exact List.Sublist.refl _
    · rw [setBlock_freeList]

theorem freeList_sublist_freeEntries (es : List (DeviceType × BlockId)) (bm : BlockManager)
    (d : DeviceType) : (bm.freeList d).Sublist ((bm.freeEntries es).freeList d) := by
  induction es generalizing bm with
  | nil => exact List.Sublist.refl _
  | cons e es ih => exact (freeList_sublist_freeBlock bm e.2 e.1 d).trans (ih _)

/-- Releasing entries leaves the free lists without repetition only if every entry had a reference:
    one without is listed as free already. -/
theorem Counts.count_le_of_nodup (es : List (DeviceType × BlockId)) (h : Counts bm c)
    (hin : ∀ e ∈ es, bm.InRange e.1 e.2) (hnodup : ∀ d, ((bm.freeEntries es).freeList d).Nodup)
    (x : DeviceType × BlockId) : es.count x ≤ c x := by
  induction es generalizing bm c with
  | nil => exact Nat.zero_le _
  | cons e es ih =>
      obtain ⟨d, b⟩ := e
      have hb : bm.InRange d b := hin _ (List.mem_cons_self ..)
      have hpos : 0 < c (d, b) := by
        by_contra hzero
        have hc : c (d, b) = 0 := by omega
        have hmem : b ∈ bm.freeList d := (h.free d b).2 ⟨hb, hc⟩
        have hpush : (bm.freeBlock b d).freeList d = b :: bm.freeList d := by
          rw [bm.freeBlock_freeList hb, if_pos ⟨rfl, by rw [h.refCount, hc]; decide⟩]
        have hsub := freeList_sublist_freeEntries es (bm.freeBlock b d) d
        rw [hpush] at hsub
        exact (List.nodup_cons.1 (hsub.nodup (hnodup d))).1 hmem
      have hrest := ih (h.freeBlock hpos) (fun e he => by
        rw [InRange, freeBlock_length]
        exact hin e (List.mem_cons_of_mem _ he)) hnodup
      rw [HolderTable.dec] at hrest
      by_cases hx : x = (d, b)
      · subst hx
        rw [List.count_cons_self]
        simp only [if_true] at hrest
        omega
      · rw [List.count_cons_of_ne (Ne.symm hx)]
        simp only [hx, if_false] at hrest
        exact hrest

/-- If the free lists have no repetition after a `free_blocks`, it found its references. -/
theorem Kept.referenced (h : Kept bm) (hcons : Consistent (bm.freeBlocks s)) :
    ReleaseOp.Referenced bm (.freeBlocks s) := by
  intro e he
  have hnodup : ∀ d, ((bm.freeEntries (bm.seqBlocks s)).freeList d).Nodup := by
    intro d
    rw [← freeBlocks_freeList]
    exact hcons.nodup d
  have hle := h.counts.count_le_of_nodup (bm.seqBlocks s) (h.entries s) hnodup e
  rw [h.counts.refCount]
  exact Int.ofNat_le.2 hle

/-! ## Runs -/

namespace ReleaseOp

/-- What the two ways of freeing blocks are to guarantee along a run: every state is consistent, and
    two allocations return the same block only if it was freed in between. -/
def Composes (bm₀ : BlockManager) (ops : List ReleaseOp) : Prop :=
  (∀ n ≤ ops.length, Consistent ((ops.take n).foldl apply bm₀)) ∧
  ∀ pre s d mid s' post, ops = pre ++ allocateBlock s d :: (mid ++ allocateBlock s' d :: post) →
    let bm := pre.foldl apply bm₀
    let b := (bm.allocateBlock s d).1
    b ≠ invalidBlock →
    Run.AllOk apply (fun bm op => ¬ op.Frees d b bm) (bm.allocateBlock s d).2 mid →
    ((mid.foldl apply (bm.allocateBlock s d).2).allocateBlock s' d).1 ≠ b

theorem referenced_of_consistent (ops : List ReleaseOp) {bm : BlockManager} (h : Kept bm)
    (hops : Run.AllOk apply (fun bm op => Permitted bm op) bm ops)
    (hcons : ∀ n ≤ ops.length, Consistent ((ops.take n).foldl apply bm)) :
    Run.AllOk apply (fun bm op => Referenced bm op) bm ops := by
  induction ops generalizing bm with
  | nil => trivial
  | cons op ops ih =>
      obtain ⟨hop, hops⟩ := hops
      have href : Referenced bm op := by
        cases op with
        | allocateBlock s d => trivial
        | freeBlock b d => trivial
        | freeBlocks s => exact h.referenced (hcons 1 (by simp))
      refine ⟨href, ih (h.apply op ⟨hop, href⟩) hops ?_⟩
      intro n hn
      exact hcons (n + 1) (by simpa using hn)

/-- A referenced block is not handed out again while nobody frees it. -/
theorem allocateBlock_ne {bm : BlockManager} (h : Kept bm) (mid : List ReleaseOp)
    (hops : Run.AllOk apply (fun bm op => Permitted bm op ∧ Referenced bm op) bm mid)
    (hkeep : Run.AllOk apply (fun bm op => ¬ op.Frees d b bm) bm mid)
    (hpos : 0 < bm.refTable (d, b)) (hb : b ≠ invalidBlock) (s' : SeqId) :
    ((mid.foldl apply bm).allocateBlock s' d).1 ≠ b := by
  have hrun := Run.AllOk.invariant (P := fun bm => Kept bm ∧ 0 < bm.refTable (d, b))
    (Run.allOk_and.2 ⟨hops, hkeep⟩) ⟨h, hpos⟩ (fun bm op hbm hop =>
      ⟨hbm.1.apply op hop.1, Nat.lt_of_lt_of_le hbm.2 (hbm.1.refTable_le op hop.1 hop.2)⟩)
  rcases hrun.1.allocateBlock s' d with ⟨hfail, -⟩ | ⟨b', hb', hfree, -, -⟩
  · rw [hfail]
    exact Ne.symm hb
  · rw [hb']
    rintro rfl
    have hzero := ((hrun.1.counts.free d b').1 hfree).2
    omega

/-- **The two ways of freeing compose exactly as far as the references reach.** In a run whose
    `free_block` calls meet referenced blocks, the free lists stay the lists of unreferenced blocks,
    without repetition, and no block is handed out twice without being freed, if and only if every
    `free_blocks` finds, for each block the sequence lists, as many references as it has entries. -/
theorem free_paths_compose_iff (config : CacheConfig) (ops : List ReleaseOp)
    (hops : Run.AllOk apply (fun bm op => Permitted bm op) (BlockManager.new config) ops) :
    Composes (BlockManager.new config) ops ↔
      Run.AllOk apply (fun bm op => Referenced bm op) (BlockManager.new config) ops := by
  constructor
  · rintro ⟨hcons, -⟩
    exact referenced_of_consistent ops (new_kept config) hops hcons
  · intro href
    have hboth := Run.allOk_and.2 ⟨hops, href⟩
    refine ⟨?_, ?_⟩
    · intro n _
      have hkept : Kept ((ops.take n).foldl apply (BlockManager.new config)) :=
        (hboth.take n).invariant (new_kept config) (fun _ op hbm hop => hbm.apply op hop)
      exact hkept.counts.consistent
    · intro pre s d mid s' post hsplit bm b hb hkeep
      rw [hsplit, Run.allOk_append] at hboth
      obtain ⟨hpre, hop, hrest⟩ := hboth
      have hkept : Kept bm := hpre.invariant (new_kept config) (fun _ op hbm hop => hbm.apply op hop)
      rcases hkept.allocateBlock s d with ⟨hfail, -⟩ | ⟨b', hb', -, hkept', htable⟩
      · exact absurd hfail hb
      · have hpos : 0 < (bm.allocateBlock s d).2.refTable (d, b) := by
          rw [htable, show b = b' from hb', HolderTable.inc, if_pos rfl]
          omega
        exact allocateBlock_ne hkept' mid (Run.allOk_append.1 hrest).1 hkeep hpos hb s'

/-- Two sequences that are freed, one of them with a block that was returned before and given to the
    other. -/
def reallocatedBlock : List ReleaseOp :=
  [allocateBlock 1 .cuda, freeBlock 0 .cuda, allocateBlock 2 .cuda, freeBlocks 1]

/-- The entry of sequence 1 is stale but its block has a reference, the one of sequence 2. -/
theorem reallocatedBlock_composes :
    Composes (BlockManager.new { numGpuBlocks := 2, numCpuBlocks := 1, blockSize := 4 })
      reallocatedBlock :=
  (free_paths_compose_iff _ _ (by decide)).2 (by decide)

/-- A block freed on its own and then with its sequence. -/
def freedTwice : List ReleaseOp :=
  [allocateBlock 1 .cuda, allocateBlock 1 .cuda, freeBlock 0 .cuda, freeBlocks 1]

/-- The free list then has the block twice: more free blocks than the pool has. -/
theorem freedTwice_not_composes :
    let bm₀ := BlockManager.new { numGpuBlocks := 2, numCpuBlocks := 1, blockSize := 4 }
    Run.AllOk apply (fun bm op => Permitted bm op) bm₀ freedTwice ∧
      ((freedTwice.foldl apply bm₀).freeList .cuda) = [1, 0, 0] ∧
      (freedTwice.foldl apply bm₀).numFreeGpuBlocks = 3 ∧
      (freedTwice.foldl apply bm₀).numTotalGpuBlocks = 2 ∧ ¬ Composes bm₀ freedTwice := by
  intro bm₀
  have hlist : ((freedTwice.foldl apply bm₀).freeList .cuda) = [1, 0, 0] := by decide
  refine ⟨by decide, hlist, by decide, by decide, ?_⟩
  rintro ⟨hcons, -⟩
  have hnodup := (hcons 4 (by decide)).nodup .cuda
  rw [show freedTwice.take 4 = freedTwice from rfl, hlist] at hnodup
  exact absurd hnodup (by decide)

end ReleaseOp

end CacheFlow.BlockManager
