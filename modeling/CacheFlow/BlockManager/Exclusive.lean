import CacheFlow.BlockManager.Counts

set_option autoImplicit false

/-! # Exclusive ownership

The scheduler never shares a block: it allocates for one sequence and releases all blocks of a
sequence at once. Seen that way the GPU pool is a function from sequences to lists of blocks with
disjoint values, and the free list is what is left. `Owned bm own` says that `bm` implements such a
function; `seq_block_map_` is then the function itself. -/

namespace CacheFlow.BlockManager

/-- Which GPU blocks each sequence owns. -/
abbrev Owners := SeqId → List BlockId

/-- The table of holders: one for a block somebody owns, none for the others. -/
noncomputable def Owners.table (own : Owners) : HolderTable :=
  open Classical in fun x => if x.1 = .cuda ∧ ∃ s, x.2 ∈ own s then 1 else 0

/-- `bm` implements the ownership function `own`. -/
structure Owned (bm : BlockManager) (own : Owners) : Prop where
  counts : Counts bm own.table
  seqBlocks : ∀ s, bm.seqBlocks s = (own s).map (Prod.mk .cuda)
  nodup : ∀ s, (own s).Nodup
  disjoint : ∀ s s', s ≠ s' → List.Disjoint (own s) (own s')

variable {bm bm' : BlockManager} {own : Owners} {s : SeqId} {b : BlockId}

theorem Owners.table_of_mem (h : b ∈ own s) : own.table (.cuda, b) = 1 :=
  if_pos ⟨rfl, s, h⟩

theorem Owners.table_of_forall (h : ∀ s, b ∉ own s) : own.table (.cuda, b) = 0 :=
  if_neg (fun ⟨_, s, hs⟩ => h s hs)

theorem Owners.table_cpu : own.table (.cpu, b) = 0 :=
  if_neg (fun ⟨hd, _⟩ => by cases hd)

theorem Owners.table_eq_zero : own.table (.cuda, b) = 0 ↔ ∀ s, b ∉ own s := by
  refine ⟨fun h s hs => ?_, Owners.table_of_forall⟩
  rw [Owners.table_of_mem hs] at h
  cases h

/-- Changing what `s` owns does not matter for a block that stays or stays out. -/
theorem Owners.table_update {l : List BlockId} (h : b ∈ l ↔ b ∈ own s) :
    Owners.table (Function.update own s l) (.cuda, b) = own.table (.cuda, b) := by
  have howners : ∀ s', b ∈ Function.update own s l s' ↔ b ∈ own s' := by
    intro s'
    by_cases hs : s' = s
    · subst hs; rw [Function.update_self]; exact h
    · rw [Function.update_of_ne hs]
  by_cases hex : ∃ s', b ∈ own s'
  · obtain ⟨s', hs'⟩ := hex
    rw [Owners.table_of_mem hs', Owners.table_of_mem ((howners s').2 hs')]
  · rw [Owners.table_of_forall (fun s' hs' => hex ⟨s', hs'⟩),
      Owners.table_of_forall (fun s' hs' => hex ⟨s', (howners s').1 hs'⟩)]

theorem owned_new (config : CacheConfig) : Owned (BlockManager.new config) (fun _ => []) := by
  refine ⟨?_, fun s => rfl, fun _ => List.nodup_nil, fun _ _ _ => List.disjoint_nil_left _⟩
  have htable : (Owners.table fun _ => []) = fun _ => 0 := by
    funext ⟨d, b⟩
    cases d with
    | cpu => exact Owners.table_cpu
    | cuda => exact Owners.table_of_forall (fun _ => List.not_mem_nil)
  rw [htable]
  exact counts_new config

namespace Owned

theorem free_inRange (h : Owned bm own) : ∀ b ∈ bm.freeList .cuda, bm.InRange .cuda b :=
  fun b hb => ((h.counts.free .cuda b).1 hb).1

theorem inRange (h : Owned bm own) (hb : b ∈ own s) : bm.InRange .cuda b :=
  h.counts.inRange (by rw [Owners.table_of_mem hb]; exact Nat.one_pos)

/-- A block is on the free list when it is in the pool and nobody owns it. -/
theorem mem_free (h : Owned bm own) :
    b ∈ bm.freeList .cuda ↔ bm.InRange .cuda b ∧ ∀ s, b ∉ own s := by
  rw [h.counts.free, Owners.table_eq_zero]

theorem refCount_owned (h : Owned bm own) (hb : b ∈ own s) : bm.refCount .cuda b = 1 := by
  rw [h.counts.refCount, Owners.table_of_mem hb]
  rfl

theorem refCount_free (h : Owned bm own) (hb : b ∈ bm.freeList .cuda) :
    bm.refCount .cuda b = 0 := by
  rw [h.counts.refCount, ((h.counts.free .cuda b).1 hb).2]
  rfl

/-- Allocation: the sequence owns the blocks handed out, besides what it owned. -/
theorem handed (h : Owned bm own) {bids : List BlockId} (hh : Handed bm bm' s .cuda bids) :
    Owned bm' (Function.update own s (own s ++ bids)) := by
  have hfree := h.counts.nodup .cuda
  rw [hh.freeList] at hfree
  have hbids : bids.Nodup := (List.nodup_append.1 hfree).1
  have hnew : ∀ b ∈ bids, ∀ s', b ∉ own s' := fun b hb =>
    (h.mem_free.1 (by rw [hh.freeList]; exact List.mem_append_left _ hb)).2
  refine ⟨?_, fun s' => ?_, fun s' => ?_, ?_⟩
  · have hcounts := h.counts.handed hh
    convert hcounts using 1
    funext ⟨d, b⟩
    rw [count_map_mk]
    cases d with
    | cpu => simp [Owners.table_cpu]
    | cuda =>
        rw [if_pos rfl]
        by_cases hb : b ∈ bids
        · rw [Owners.table_of_forall (hnew b hb), List.count_eq_one_of_mem hbids hb]
          exact Owners.table_of_mem (s := s)
            (by rw [Function.update_self]; exact List.mem_append_right _ hb)
        · rw [List.count_eq_zero.2 hb, Nat.add_zero]
          exact Owners.table_update (by simp [hb])
  · rw [hh.seqBlocks]
    by_cases hs : s' = s
    · subst hs
      rw [if_pos rfl, Function.update_self, h.seqBlocks, List.map_append]
    · rw [if_neg hs, Function.update_of_ne hs, h.seqBlocks]
  · by_cases hs : s' = s
    · subst hs
      rw [Function.update_self]
      exact List.nodup_append.2 ⟨h.nodup s', hbids, fun a ha b hb hab => hnew b hb s' (hab ▸ ha)⟩
    · rw [Function.update_of_ne hs]
      exact h.nodup s'
  · intro s₁ s₂ hne b hb₁ hb₂
    by_cases h₁ : s₁ = s
    · subst h₁
      rw [Function.update_self] at hb₁
      rw [Function.update_of_ne (Ne.symm hne)] at hb₂
      rcases List.mem_append.1 hb₁ with hb₁ | hb₁
      · exact h.disjoint s₁ s₂ hne hb₁ hb₂
      · exact hnew b hb₁ s₂ hb₂
    · rw [Function.update_of_ne h₁] at hb₁
      by_cases h₂ : s₂ = s
      · subst h₂
        rw [Function.update_self] at hb₂
        rcases List.mem_append.1 hb₂ with hb₂ | hb₂
        · exact h.disjoint s₁ s₂ hne hb₁ hb₂
        · exact hnew b hb₂ s₁ hb₁
      · rw [Function.update_of_ne h₂] at hb₂
        exact h.disjoint s₁ s₂ hne hb₁ hb₂

/-- Release: the sequence owns nothing any more. -/
theorem freeBlocks (h : Owned bm own) (s : SeqId) :
    Owned (bm.freeBlocks s) (Function.update own s []) := by
  have hle : ∀ x, (bm.seqBlocks s).count x ≤ own.table x := by
    rintro ⟨d, b⟩
    rw [h.seqBlocks, count_map_mk]
    split
    · next hd =>
        subst hd
        by_cases hb : b ∈ own s
        · rw [List.count_eq_one_of_mem (h.nodup s) hb, Owners.table_of_mem hb]
        · rw [List.count_eq_zero.2 hb]
          exact Nat.zero_le _
    · exact Nat.zero_le _
  refine ⟨?_, fun s' => ?_, fun s' => ?_, ?_⟩
  · have hcounts := h.counts.freeBlocks hle
    convert hcounts using 1
    funext ⟨d, b⟩
    rw [h.seqBlocks, count_map_mk]
    cases d with
    | cpu => simp [Owners.table_cpu]
    | cuda =>
        rw [if_pos rfl]
        by_cases hb : b ∈ own s
        · rw [Owners.table_of_mem hb, List.count_eq_one_of_mem (h.nodup s) hb]
          refine Owners.table_of_forall (fun s' hs' => ?_)
          by_cases hs : s' = s
          · subst hs; simp at hs'
          · rw [Function.update_of_ne hs] at hs'
            exact h.disjoint s' s hs hs' hb
        · rw [List.count_eq_zero.2 hb, Nat.sub_zero]
          exact Owners.table_update (by simp [hb])
  · rw [freeBlocks_seqBlocks]
    by_cases hs : s' = s
    · subst hs; simp
    · simp [hs, h.seqBlocks]
  · by_cases hs : s' = s
    · subst hs; simp
    · rw [Function.update_of_ne hs]; exact h.nodup s'
  · intro s₁ s₂ hne
    by_cases h₁ : s₁ = s
    · subst h₁; simp
    · by_cases h₂ : s₂ = s
      · subst h₂; simp
      · rw [Function.update_of_ne h₁, Function.update_of_ne h₂]
        exact h.disjoint s₁ s₂ hne

/-- The blocks owned by the sequences of a list that has all owners, together with the free list, are
    the pool. -/
theorem perm_pool (h : Owned bm own) {ids : List SeqId} (hids : ids.Nodup)
    (hall : ∀ s, s ∉ ids → own s = []) :
    (bm.freeList .cuda ++ ids.flatMap own).Perm
      ((List.range (bm.blocks .cuda).length).map (fun i : Nat => (i : BlockId))) := by
  have howned : (ids.flatMap own).Nodup := by
    rw [List.nodup_flatMap]
    refine ⟨fun s _ => h.nodup s, ?_⟩
    exact hids.imp (fun hne => h.disjoint _ _ hne)
  have hnodup : (bm.freeList .cuda ++ ids.flatMap own).Nodup := by
    refine List.nodup_append.2 ⟨h.counts.nodup .cuda, howned, fun a ha b hb hab => ?_⟩
    obtain ⟨s, -, hs⟩ := List.mem_flatMap.1 hb
    exact (h.mem_free.1 ha).2 s (hab ▸ hs)
  have hpool : ((List.range (bm.blocks .cuda).length).map (fun i : Nat => (i : BlockId))).Nodup :=
    List.nodup_range.map (fun _ _ heq => Int.ofNat_inj.1 heq)
  refine (List.perm_ext_iff_of_nodup hnodup hpool).2 (fun b => ?_)
  -- both sides list the ids in range
  have hrange : b ∈ (List.range (bm.blocks .cuda).length).map (fun i : Nat => (i : BlockId)) ↔
      bm.InRange .cuda b := by
    simp only [List.mem_map, List.mem_range, InRange]
    constructor
    · rintro ⟨i, hi, rfl⟩
      exact ⟨Int.natCast_nonneg i, by simpa using hi⟩
    · rintro ⟨hpos, hlt⟩
      exact ⟨b.toNat, hlt, Int.toNat_of_nonneg hpos⟩
  rw [hrange, List.mem_append, h.mem_free, List.mem_flatMap]
  constructor
  · rintro (⟨hin, -⟩ | ⟨s, -, hs⟩)
    · exact hin
    · exact h.inRange hs
  · intro hin
    by_cases hown : ∃ s, b ∈ own s
    · obtain ⟨s, hs⟩ := hown
      have hmem : s ∈ ids := by
        by_contra hnot
        rw [hall s hnot] at hs
        exact List.not_mem_nil hs
      exact Or.inr ⟨s, hmem, hs⟩
    · exact Or.inl ⟨hin, fun s hs => hown ⟨s, hs⟩⟩

end Owned

end CacheFlow.BlockManager
