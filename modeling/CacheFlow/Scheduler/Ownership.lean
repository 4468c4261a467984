import CacheFlow.Scheduler.Accounting
import Mathlib.Data.List.Perm.Subperm

set_option autoImplicit false

/-! # Ownership when groups are swapped

`preempt` in swap mode releases the GPU blocks of its victim one by one through `free_block`, and
leaves their entries in `seq_block_map_`. From then on the map overstates what the sequence holds: its
next `free_blocks` releases every GPU block it ever had a second time, whoever holds it by then.

A sequence that has been swapped out since its admission is recognised by a CPU entry in the map
(`SwappedBefore`). As long as no such sequence is released, the running sequences own their blocks
exclusively. What a queued sequence has a claim on is read off the map while the map can be trusted,
and off `logical_blocks` afterwards (`claimed`); the invariant `Separated` is that free list and claims
have no block in common. -/

namespace CacheFlow

namespace BlockManager

/-! ## Free lists when counts are not tracked

Whatever the reference counts are, releasing a block puts it on the free list at most once. -/

/-- The free lists name blocks of the pool. -/
def FreeInRange (bm : BlockManager) : Prop := ∀ d, ∀ b ∈ bm.freeList d, bm.InRange d b

/-- `s` has been swapped out since its last `free_blocks`: the map has a CPU entry for it. -/
def SwappedBefore (bm : BlockManager) (s : SeqId) : Prop := ∃ e ∈ bm.seqBlocks s, e.1 = .cpu

instance (bm : BlockManager) (s : SeqId) : Decidable (bm.SwappedBefore s) :=
  inferInstanceAs (Decidable (∃ e ∈ bm.seqBlocks s, e.1 = .cpu))

variable {bm bm' : BlockManager} {s : SeqId} {d : DeviceType} {b : BlockId}

/-- `free_block` leaves the free lists alone or pushes its argument, which is then in the pool. -/
theorem freeBlock_cases (bm : BlockManager) (b : BlockId) (d : DeviceType) :
    (bm.freeBlock b d).freeList = bm.freeList ∨
    (bm.InRange d b ∧
      (bm.freeBlock b d).freeList = Function.update bm.freeList d (b :: bm.freeList d)) := by
  unfold freeBlock
  split
  · exact Or.inl rfl
  · next blk hget =>
      split
      · refine Or.inr ⟨inRange_of_getBlock hget, ?_⟩
        simp [pushFree]
      · exact Or.inl (by simp)

theorem FreeInRange.of_length (h : bm.FreeInRange)
    (hlen : ∀ d, (bm'.blocks d).length = (bm.blocks d).length)
    (hfree : ∀ d, ∀ b ∈ bm'.freeList d, b ∈ bm.freeList d ∨ bm.InRange d b) : bm'.FreeInRange := by
  intro d b hb
  have hin : bm.InRange d b := (hfree d b hb).elim (h d b) id
  rw [InRange, hlen]
  exact hin

theorem FreeInRange.freeBlock (h : bm.FreeInRange) (b : BlockId) (d : DeviceType) :
    (bm.freeBlock b d).FreeInRange := by
  refine h.of_length (fun _ => freeBlock_length bm) (fun d' b' hb' => ?_)
  rcases bm.freeBlock_cases b d with hsame | ⟨hin, hpush⟩
  · exact Or.inl (hsame ▸ hb')
  · rw [hpush] at hb'
    by_cases hd : d' = d
    · subst hd
      rw [Function.update_self] at hb'
      rcases List.mem_cons.1 hb' with rfl | hb'
      · exact Or.inr hin
      · exact Or.inl hb'
    · rw [Function.update_of_ne hd] at hb'
      exact Or.inl hb'

theorem freeBlock_subperm (bm : BlockManager) (b : BlockId) :
    ((bm.freeBlock b .cuda).freeList .cuda).Subperm (b :: bm.freeList .cuda) := by
  rcases bm.freeBlock_cases b .cuda with hsame | ⟨-, hpush⟩
  · rw [hsame]
    exact List.Subperm.cons_self
  · rw [hpush, Function.update_self]

theorem FreeInRange.freeEntries (h : bm.FreeInRange) (es : List (DeviceType × BlockId)) :
    (bm.freeEntries es).FreeInRange := by
  induction es generalizing bm with
  | nil => exact h
  | cons e es ih => exact ih (h.freeBlock e.2 e.1)

/-- The blocks of device `d` among the entries of a sequence. -/
def entriesOn (d : DeviceType) (es : List (DeviceType × BlockId)) : List BlockId :=
  (es.filter (fun e => e.1 = d)).map Prod.snd

@[simp] theorem entriesOn_append (d : DeviceType) (es es' : List (DeviceType × BlockId)) :
    entriesOn d (es ++ es') = entriesOn d es ++ entriesOn d es' := by
  simp [entriesOn]

@[simp] theorem entriesOn_singleton (d d' : DeviceType) (b : BlockId) :
    entriesOn d [(d', b)] = if d' = d then [b] else [] := by
  by_cases hd : d' = d <;> simp [entriesOn, hd]

/-- Releasing entries puts each of them on its free list at most once. -/
theorem freeEntries_subperm (d : DeviceType) (es : List (DeviceType × BlockId))
    (bm : BlockManager) :
    ((bm.freeEntries es).freeList d).Subperm (entriesOn d es ++ bm.freeList d) := by
  induction es generalizing bm with
  | nil => exact List.Subperm.refl _
  | cons e es ih =>
      refine (ih (bm.freeBlock e.2 e.1)).trans ?_
      have hsplit : entriesOn d (e :: es) = entriesOn d [e] ++ entriesOn d es :=
        entriesOn_append d [e] es
      have hone : ((bm.freeBlock e.2 e.1).freeList d).Subperm
          (entriesOn d [e] ++ bm.freeList d) := by
        rcases bm.freeBlock_cases e.2 e.1 with hsame | ⟨-, hpush⟩
        · rw [hsame]
          exact (List.sublist_append_right _ _).subperm
        · rw [hpush]
          by_cases hd : e.1 = d
          · subst hd
            rw [Function.update_self, entriesOn_singleton, if_pos rfl]
            exact List.Subperm.refl _
          · rw [Function.update_of_ne (Ne.symm hd)]
            exact (List.sublist_append_right _ _).subperm
      refine ((List.subperm_append_left _).2 hone).trans (List.Perm.subperm ?_)
      rw [hsplit, ← List.append_assoc]
      exact List.Perm.append_right _ List.perm_append_comm

/-- Where no block has more than one reference, releasing a block pushes it. -/
theorem freeBlock_pushed {d' : DeviceType} (hcount : ∀ b, bm.refCount d b ≤ 1)
    (hb : bm.InRange d' b) :
    (∀ b', (bm.freeBlock b d').refCount d b' ≤ 1) ∧
      ((bm.freeBlock b d').freeList d).length
        = (bm.freeList d).length + if d' = d then 1 else 0 := by
  refine ⟨?_, ?_⟩
  · intro b'
    rw [freeBlock_refCount bm hb]
    have hle := hcount b'
    split
    · next heq =>
        obtain ⟨rfl, rfl⟩ := heq
        omega
    · exact hle
  · rw [freeBlock_freeList bm hb]
    by_cases hd : d' = d
    · subst hd
      simp [hcount b]
    · simp [hd, Ne.symm hd]

theorem freeEntries_pushed (es : List (DeviceType × BlockId)) (hcount : ∀ b, bm.refCount d b ≤ 1)
    (hes : ∀ e ∈ es, bm.InRange e.1 e.2) :
    (∀ b, (bm.freeEntries es).refCount d b ≤ 1) ∧
      ((bm.freeEntries es).freeList d).length
        = (bm.freeList d).length + es.countP (fun e => e.1 = d) := by
  induction es generalizing bm with
  | nil => exact ⟨hcount, rfl⟩
  | cons e es ih =>
      obtain ⟨hcount', hlen⟩ := freeBlock_pushed hcount (hes e (List.mem_cons_self ..))
      obtain ⟨hend, hlen'⟩ := ih hcount' (fun e' he' => by
        rw [InRange, freeBlock_length]
        exact hes e' (List.mem_cons_of_mem _ he'))
      refine ⟨hend, ?_⟩
      show ((freeEntries (bm.freeBlock e.2 e.1) es).freeList d).length = _
      rw [hlen', hlen, List.countP_cons, Nat.add_assoc, Nat.add_comm (List.countP _ es)]
      simp

theorem FreeInRange.freeBlocks (h : bm.FreeInRange) (s : SeqId) : (bm.freeBlocks s).FreeInRange := by
  intro d b hb
  rw [freeBlocks_freeList] at hb
  have hin := h.freeEntries (bm.seqBlocks s) d b hb
  rw [InRange, freeEntries_length] at hin
  rw [InRange, freeBlocks_length]
  exact hin

theorem freeBlocks_subperm (hs : ¬ bm.SwappedBefore s) :
    ((bm.freeBlocks s).freeList .cuda).Subperm
      ((bm.seqBlocks s).map Prod.snd ++ bm.freeList .cuda) := by
  have hall : (bm.seqBlocks s).filter (fun e => e.1 = .cuda) = bm.seqBlocks s := by
    refine List.filter_eq_self.2 (fun e he => ?_)
    cases hd : e.1 with
    | cpu => exact absurd ⟨e, he, hd⟩ hs
    | cuda => rfl
  have hsub := freeEntries_subperm .cuda (bm.seqBlocks s) bm
  rw [entriesOn, hall] at hsub
  rw [freeBlocks_freeList]
  exact hsub

theorem Handed.freeInRange {bids : List BlockId} (hh : Handed bm bm' s d bids)
    (h : bm.FreeInRange) : bm'.FreeInRange := by
  refine h.of_length hh.length (fun d' b hb => Or.inl ?_)
  by_cases hd : d' = d
  · subst hd
    rw [hh.freeList]
    exact List.mem_append_right _ hb
  · rwa [hh.freeList_ne d' hd] at hb

/-! ## Entries and counts of one device -/

/-- The map names blocks of the pool. -/
def EntriesInRange (bm : BlockManager) : Prop := ∀ s, ∀ e ∈ bm.seqBlocks s, bm.InRange e.1 e.2

theorem Handed.entriesInRange {bids : List BlockId} (hh : Handed bm bm' s d bids)
    (hfree : bm.FreeInRange) (h : bm.EntriesInRange) : bm'.EntriesInRange := by
  intro s' e he
  rw [hh.inRange]
  rw [hh.seqBlocks] at he
  split at he
  · rcases List.mem_append.1 he with he | he
    · exact h s e he
    · obtain ⟨b, hb, rfl⟩ := List.mem_map.1 he
      exact hfree d b (by rw [hh.freeList]; exact List.mem_append_left _ hb)
  · exact h s' e he

theorem EntriesInRange.freeBlock (h : bm.EntriesInRange) (b : BlockId) (d : DeviceType) :
    (bm.freeBlock b d).EntriesInRange := by
  intro s e he
  rw [freeBlock_seqBlocks] at he
  rw [InRange, freeBlock_length]
  exact h s e he

theorem EntriesInRange.freeBlocks (h : bm.EntriesInRange) (s : SeqId) :
    (bm.freeBlocks s).EntriesInRange := by
  intro s' e he
  rw [freeBlocks_seqBlocks] at he
  rw [InRange, freeBlocks_length]
  split at he
  · exact absurd he List.not_mem_nil
  · exact h s' e he

theorem Handed.refCount_le {bids : List BlockId} {d' : DeviceType} (hh : Handed bm bm' s d' bids)
    (h : ∀ b, bm.refCount d b ≤ 1) (b : BlockId) : bm'.refCount d b ≤ 1 := by
  rw [hh.refCount]
  split
  · decide
  · exact h b

/-- Where no block has more than one reference, releasing a sequence pushes all its blocks. -/
theorem freeBlocks_pushed (hcount : ∀ b, bm.refCount d b ≤ 1) (h : bm.EntriesInRange) (s : SeqId) :
    (∀ b, (bm.freeBlocks s).refCount d b ≤ 1) ∧
      ((bm.freeBlocks s).freeList d).length
        = (bm.freeList d).length + (bm.seqBlocks s).countP (fun e => e.1 = d) := by
  obtain ⟨hcount', hlen⟩ := freeEntries_pushed (bm.seqBlocks s) hcount (h s)
  refine ⟨?_, ?_⟩
  · intro b
    rw [freeBlocks_refCount]
    exact hcount' b
  · rw [freeBlocks_freeList]
    exact hlen

end BlockManager

/-! ## The swap-out loop -/

open BlockManager

/-- What the loop of `preempt` leaves behind when the CPU has a block for each block of the victim: as
    many CPU entries in the map, and at most the victim's blocks more on the GPU free list. -/
theorem swapOutBlocks_spec (s : SeqId) (bids : List BlockId) (st : BlockManager × List BlockOp)
    (hn : bids.length ≤ (st.1.freeList .cpu).length) (hin : st.1.FreeInRange) :
    (∀ s', (swapOutBlocks s bids st).2.1.seqBlocks s' = if s' = s then
        st.1.seqBlocks s ++ (swapOutBlocks s bids st).1.map (Prod.mk .cpu) else st.1.seqBlocks s') ∧
    ((swapOutBlocks s bids st).2.1.freeList .cuda).Subperm (bids ++ st.1.freeList .cuda) ∧
    (swapOutBlocks s bids st).2.1.FreeInRange := by
  induction bids generalizing st with
  | nil =>
      refine ⟨fun s' => ?_, List.Subperm.refl _, hin⟩
      by_cases hs : s' = s
      · subst hs; simp [swapOutBlocks]
      · simp [swapOutBlocks, hs]
  | cons bid bids ih =>
      obtain ⟨bm, ops⟩ := st
      cases hfl : bm.freeList .cpu with
      | nil => simp [hfl] at hn
      | cons b rest =>
          have hb : bm.InRange .cpu b := hin .cpu b (by rw [hfl]; exact List.mem_cons_self ..)
          obtain ⟨hbid, ha⟩ := bm.allocateBlock_cons (s := s) hfl hb
          have hhand := (Handed.nil (bm.allocateBlock s .cpu).2 s .cpu).cons hfl ha
          have hcpu : ((bm.allocateBlock s .cpu).2.freeBlock bid .cuda).freeList .cpu = rest := by
            rcases (bm.allocateBlock s .cpu).2.freeBlock_cases bid .cuda with hsame | ⟨-, hpush⟩
            · rw [hsame, ha.freeList, Function.update_self]
            · rw [hpush, Function.update_of_ne (by decide), ha.freeList, Function.update_self]
          obtain ⟨hblocks, hfree, hrange⟩ := ih
            ((bm.allocateBlock s .cpu).2.freeBlock bid .cuda,
              ops ++ [⟨s, bid, (bm.allocateBlock s .cpu).1⟩])
            (by simp only [hcpu]; simp only [hfl] at hn; simpa using hn)
            ((hhand.freeInRange hin).freeBlock bid .cuda)
          rw [swapOutBlocks]
          refine ⟨fun s' => ?_, ?_, hrange⟩
          · refine (hblocks s').trans ?_
            simp only [freeBlock_seqBlocks, ha.seqBlocks, hbid]
            by_cases hs : s' = s
            · simp [hs]
            · simp [hs]
          · refine hfree.trans ?_
            have hcuda : (bm.allocateBlock s .cpu).2.freeList .cuda = bm.freeList .cuda := by
              rw [ha.freeList, Function.update_of_ne (by decide)]
            have hone := freeBlock_subperm (bm.allocateBlock s .cpu).2 bid
            rw [hcuda] at hone
            exact ((List.subperm_append_left bids).2 hone).trans List.perm_middle.subperm

namespace Scheduler

/-! ## The invariant -/

/-- The GPU blocks a queued sequence has a claim on. Once it has been swapped out, the map is no
    guide: it holds its logical blocks while it runs and nothing otherwise. -/
def claimed (bm : BlockManager) (seq : SequenceData) : List BlockId :=
  if bm.SwappedBefore seq.seqId then if seq.status = .running then seq.logicalBlocks else []
  else (bm.seqBlocks seq.seqId).map Prod.snd

/-- The free list and all claims. -/
def pooled (st : Scheduler) : List BlockId :=
  st.blockManager.freeList .cuda ++
    st.queued.flatMap (fun p => claimed st.blockManager (st.seq p))

/-- No block is free and claimed, or claimed twice; the queues and the map agree on who has blocks. -/
structure Separated (st : Scheduler) : Prop where
  pooled : st.pooled.Nodup
  inRange : st.blockManager.FreeInRange
  running : ∀ p ∈ st.running, (st.seq p).status = .running ∨ (st.seq p).isFinished = true
  waiting : ∀ p ∈ st.waiting, st.blockManager.seqBlocks (st.seq p).seqId = [] ∧
    (st.seq p).logicalBlocks = []
  swapped : ∀ p ∈ st.swapped, (st.seq p).isFinished = false →
    (st.seq p).status = .swapped ∧ (st.blockManager.SwappedBefore (st.seq p).seqId ∨
      (st.blockManager.seqBlocks (st.seq p).seqId = [] ∧ (st.seq p).logicalBlocks = []))
  agree : ∀ p ∈ st.queued, (st.seq p).status = .running →
    ¬ st.blockManager.SwappedBefore (st.seq p).seqId →
    (st.seq p).logicalBlocks = (st.blockManager.seqBlocks (st.seq p).seqId).map Prod.snd
  other : ∀ id, (∀ p ∈ st.queued, (st.seq p).seqId ≠ id) → st.blockManager.seqBlocks id = []

theorem nodup_of_subperm {l l' : List BlockId} (h : l.Subperm l') (hl' : l'.Nodup) : l.Nodup := by
  obtain ⟨l₁, hperm, hsub⟩ := h
  exact hperm.nodup_iff.1 (hsub.nodup hl')

theorem not_swappedBefore_of_nil {bm : BlockManager} {s : SeqId} (h : bm.seqBlocks s = []) :
    ¬ bm.SwappedBefore s := by
  rintro ⟨e, he, -⟩
  rw [h] at he
  exact List.not_mem_nil he

theorem claimed_of_nil {bm : BlockManager} {seq : SequenceData}
    (h : bm.seqBlocks seq.seqId = []) : claimed bm seq = [] := by
  rw [claimed, if_neg (not_swappedBefore_of_nil h), h]
  rfl

/-- A sequence that has left the GPU has no claim there. -/
theorem claimed_of_swappedOut {bm : BlockManager} {seq : SequenceData} (hs : seq.status ≠ .running)
    (h : bm.SwappedBefore seq.seqId ∨ bm.seqBlocks seq.seqId = []) : claimed bm seq = [] := by
  rcases h with hsw | hnil
  · rw [claimed, if_pos hsw, if_neg hs]
  · exact claimed_of_nil hnil

variable {st : Scheduler} {p : GroupPtr}

/-- A running sequence has a claim on exactly its logical blocks. -/
theorem Separated.claimed_running (h : st.Separated) (hp : p ∈ st.queued)
    (hs : (st.seq p).status = .running) :
    claimed st.blockManager (st.seq p) = (st.seq p).logicalBlocks := by
  by_cases hsw : st.blockManager.SwappedBefore (st.seq p).seqId
  · rw [claimed, if_pos hsw, if_pos hs]
  · rw [claimed, if_neg hsw]
    exact (h.agree p hp hs hsw).symm

/-- Only the map entry of the sequence itself matters for its claim. -/
theorem claimed_congr {bm bm' : BlockManager} {seq : SequenceData}
    (h : bm'.seqBlocks seq.seqId = bm.seqBlocks seq.seqId) : claimed bm' seq = claimed bm seq := by
  have hiff : bm'.SwappedBefore seq.seqId ↔ bm.SwappedBefore seq.seqId := by
    rw [SwappedBefore, SwappedBefore, h]
  by_cases hsw : bm.SwappedBefore seq.seqId
  · rw [claimed, claimed, if_pos hsw, if_pos (hiff.2 hsw)]
  · rw [claimed, claimed, if_neg hsw, if_neg (fun h' => hsw (hiff.1 h')), h]

/-- When only the claim of `p` changes, the pool changes as the free list and that claim do. -/
theorem pooled_move (hwf : st.WellFormed) (hp : p ∈ st.queued) {x : SequenceData}
    {bm : BlockManager} {queues : List GroupPtr} (hq : queues.Perm st.queued)
    (hsame : ∀ q ∈ st.queued, q ≠ p →
      bm.seqBlocks (st.seq q).seqId = st.blockManager.seqBlocks (st.seq q).seqId)
    (hsub : (bm.freeList .cuda ++ claimed bm x).Subperm
      (st.blockManager.freeList .cuda ++ claimed st.blockManager (st.seq p))) :
    (bm.freeList .cuda ++
      queues.flatMap (fun q => claimed bm (if q = p then x else st.seq q))).Subperm
      (st.blockManager.freeList .cuda ++
        st.queued.flatMap (fun q => claimed st.blockManager (st.seq q))) := by
  -- split the claim of `p` off on both sides; the other claims are the same
  have hold : (st.queued.flatMap (fun q => claimed st.blockManager (st.seq q))).Perm
      (claimed st.blockManager (st.seq p) ++
        (st.queued.erase p).flatMap (fun q => claimed st.blockManager (st.seq q))) :=
    (List.perm_cons_erase hp).flatMap_right _
  have hnew : (queues.flatMap (fun q => claimed bm (if q = p then x else st.seq q))).Perm
      (claimed bm x ++
        (st.queued.erase p).flatMap (fun q => claimed st.blockManager (st.seq q))) := by
    refine ((hq.trans (List.perm_cons_erase hp)).flatMap_right _).trans ?_
    rw [List.flatMap_cons, if_pos rfl]
    refine List.Perm.append_left _ (List.Perm.of_eq (List.flatMap_congr ?_))
    intro q hq'
    have hqp : q ≠ p := fun heq =>
      (List.Nodup.mem_erase_iff hwf.nodup).1 (heq ▸ hq') |>.1 heq
    rw [if_neg hqp]
    exact claimed_congr (hsame q (List.mem_of_mem_erase hq') hqp)
  refine (List.Perm.append_left _ hnew).subperm.trans ?_
  rw [← List.append_assoc]
  refine ((List.subperm_append_right _).2 hsub).trans ?_
  rw [List.append_assoc]
  exact (List.Perm.append_left _ hold.symm).subperm

/-- **Moving one group.** Sequence `x` replaces the one of `p`, whose map entry is the only one to
    change, and `p` changes queues. What is left to check is about `x` and the free list. -/
theorem Separated.move (h : st.Separated) (hwf : st.WellFormed) (hp : p ∈ st.queued)
    {x : SequenceData} {bm : BlockManager} {running waiting swapped : List GroupPtr}
    (hx : x.seqId = (st.seq p).seqId) (hin : bm.FreeInRange)
    (hother : ∀ id, id ≠ (st.seq p).seqId → bm.seqBlocks id = st.blockManager.seqBlocks id)
    (hsub : (bm.freeList .cuda ++ claimed bm x).Subperm
      (st.blockManager.freeList .cuda ++ claimed st.blockManager (st.seq p)))
    (hq : (running ++ (waiting ++ swapped)).Perm st.queued)
    (hrun : ∀ q ∈ running, q ≠ p → q ∈ st.running)
    (hwait : ∀ q ∈ waiting, q ≠ p → q ∈ st.waiting)
    (hswap : ∀ q ∈ swapped, q ≠ p → q ∈ st.swapped)
    (hpr : p ∈ running → x.status = .running ∨ x.isFinished = true)
    (hpw : p ∈ waiting → bm.seqBlocks x.seqId = [] ∧ x.logicalBlocks = [])
    (hps : p ∈ swapped → x.isFinished = false → x.status = .swapped ∧
      (bm.SwappedBefore x.seqId ∨ (bm.seqBlocks x.seqId = [] ∧ x.logicalBlocks = [])))
    (hag : x.status = .running → ¬ bm.SwappedBefore x.seqId →
      x.logicalBlocks = (bm.seqBlocks x.seqId).map Prod.snd) :
    Separated { st.putSequences p [x] bm with
      running := running, waiting := waiting, swapped := swapped } := by
  have hseq : ∀ q, { st.putSequences p [x] bm with
      running := running, waiting := waiting, swapped := swapped }.seq q
      = if q = p then x else st.seq q := fun q => seq_of_groups rfl q
  have hne : ∀ q ∈ st.queued, q ≠ p → (st.seq q).seqId ≠ (st.seq p).seqId :=
    fun q hq hqp heq => hqp (hwf.eq_of_seqId hq hp heq)
  have hsame : ∀ q ∈ st.queued, q ≠ p →
      bm.seqBlocks (st.seq q).seqId = st.blockManager.seqBlocks (st.seq q).seqId :=
    fun q hq hqp => hother _ (hne q hq hqp)
  refine ⟨?_, hin, fun q hqr => ?_, fun q hqw => ?_, fun q hqs hfin => ?_,
    fun q hqq hs hno => ?_, fun id hid => ?_⟩
  · refine nodup_of_subperm ?_ h.pooled
    simp only [Scheduler.pooled, queued, hseq]
    exact pooled_move hwf hp hq hsame hsub
  · rw [hseq]
    by_cases hqp : q = p
    · subst hqp
      rw [if_pos rfl]
      exact hpr hqr
    · rw [if_neg hqp]
      exact h.running q (hrun q hqr hqp)
  · rw [hseq]
    by_cases hqp : q = p
    · subst hqp
      rw [if_pos rfl]
      exact hpw hqw
    · rw [if_neg hqp]
      have hq' := hwait q hqw hqp
      have := h.waiting q hq'
      rw [← hsame q (WellFormed.mem_waiting hq') hqp] at this
      exact this
  · rw [hseq] at hfin ⊢
    by_cases hqp : q = p
    · subst hqp
      rw [if_pos rfl] at hfin ⊢
      exact hps hqs hfin
    · rw [if_neg hqp] at hfin ⊢
      have hq' := hswap q hqs hqp
      have := h.swapped q hq' hfin
      simp only [SwappedBefore, ← hsame q (WellFormed.mem_swapped hq') hqp] at this
      exact this
  · rw [hseq] at hs hno ⊢
    by_cases hqp : q = p
    · subst hqp
      rw [if_pos rfl] at hs hno ⊢
      exact hag hs hno
    · rw [if_neg hqp] at hs hno ⊢
      have hq' : q ∈ st.queued := hq.mem_iff.1 hqq
      simp only [putSequences, SwappedBefore, hsame q hq' hqp] at hno ⊢
      exact h.agree q hq' hs hno
  · simp only [hseq] at hid
    have hidp : id ≠ (st.seq p).seqId := fun heq =>
      hid p (hq.mem_iff.2 hp) (by rw [if_pos rfl, hx, heq])
    refine (hother id hidp).trans (h.other id (fun q hq' heq => ?_))
    have hqp : q ≠ p := fun heq' => hidp (by rw [← heq, heq'])
    exact hid q (hq.mem_iff.2 hq') (by rw [if_neg hqp]; exact heq)

/-! ## The moves of a scheduling step -/

theorem swappedBefore_handed {bm bm' : BlockManager} {s : SeqId} {bids : List BlockId}
    (hh : Handed bm bm' s .cuda bids) (s' : SeqId) :
    bm'.SwappedBefore s' ↔ bm.SwappedBefore s' := by
  rw [SwappedBefore, SwappedBefore, hh.seqBlocks]
  by_cases hs : s' = s
  · subst hs
    rw [if_pos rfl]
    constructor
    · rintro ⟨e, he, hd⟩
      rcases List.mem_append.1 he with he | he
      · exact ⟨e, he, hd⟩
      · obtain ⟨b, -, rfl⟩ := List.mem_map.1 he
        cases hd
    · rintro ⟨e, he, hd⟩
      exact ⟨e, List.mem_append_left _ he, hd⟩
  · rw [if_neg hs]

/-- What is taken off the free list is what the claim grows by. -/
theorem subperm_handed {bm bm' : BlockManager} {s : SeqId} {bids l : List BlockId}
    (hh : Handed bm bm' s .cuda bids) :
    (bm'.freeList .cuda ++ (l ++ bids)).Subperm (bm.freeList .cuda ++ l) := by
  rw [hh.freeList, List.append_assoc, ← List.append_assoc _ l bids]
  exact List.perm_append_comm.subperm

/-- A sequence that is handed blocks and adds them to what it has a claim on: while the map can be trusted, it
    says the same. -/
theorem logicalBlocks_handed {bm bm' : BlockManager} {x y : SequenceData} {bids : List BlockId}
    (hh : Handed bm bm' y.seqId .cuda bids) (hlogical : x.logicalBlocks = claimed bm y ++ bids)
    (hno : ¬ bm'.SwappedBefore y.seqId) :
    x.logicalBlocks = (bm'.seqBlocks y.seqId).map Prod.snd := by
  have hno' : ¬ bm.SwappedBefore y.seqId := fun h => hno ((swappedBefore_handed hh _).2 h)
  rw [hlogical, claimed, if_neg hno', hh.seqBlocks, if_pos rfl, List.map_append]
  simp

/-- **Moving a group that gets blocks.** The sequence runs afterwards, with the blocks it has been handed. -/
theorem Separated.moveHanded (h : st.Separated) (hwf : st.WellFormed) (hp : p ∈ st.queued)
    {x : SequenceData} {bm : BlockManager} {bids : List BlockId}
    {running waiting swapped : List GroupPtr} (hx : x.seqId = (st.seq p).seqId)
    (hh : Handed st.blockManager bm (st.seq p).seqId .cuda bids) (hstatus : x.status = .running)
    (hlogical : x.logicalBlocks = claimed st.blockManager (st.seq p) ++ bids)
    (hq : (running ++ (waiting ++ swapped)).Perm st.queued)
    (hrun : ∀ q ∈ running, q ≠ p → q ∈ st.running)
    (hwait : ∀ q ∈ waiting, q ≠ p → q ∈ st.waiting)
    (hswap : ∀ q ∈ swapped, q ≠ p → q ∈ st.swapped) (hpw : p ∉ waiting) (hps : p ∉ swapped) :
    Separated { st.putSequences p [x] bm with
      running := running, waiting := waiting, swapped := swapped } := by
  have hag : ¬ bm.SwappedBefore x.seqId → x.logicalBlocks = (bm.seqBlocks x.seqId).map Prod.snd := by
    rw [hx]
    exact logicalBlocks_handed hh hlogical
  have hclaimed : claimed bm x = x.logicalBlocks := by
    by_cases hsw : bm.SwappedBefore x.seqId
    · rw [claimed, if_pos hsw, if_pos hstatus]
    · rw [claimed, if_neg hsw, hag hsw]
  refine h.move hwf hp hx (hh.freeInRange h.inRange)
    (fun id hid => (hh.seqBlocks id).trans (if_neg hid)) ?_ hq hrun hwait hswap
    (fun _ => Or.inl hstatus) (fun hw => absurd hw hpw) (fun hs => absurd hs hps) (fun _ => hag)
  rw [hclaimed, hlogical]
  exact subperm_handed hh

theorem Separated.decodeGroup {s : ScheduleState} (h : s.sched.Separated)
    (hwf : s.sched.WellFormed) (hp : p ∈ s.sched.running)
    (hfin : (s.sched.seq p).isFinished = false)
    (hfits : missingBlocks s.sched.blockManager (s.sched.seq p)
      ≤ (s.sched.blockManager.freeList .cuda).length) :
    (s.decodeGroup p).sched.Separated := by
  have hmem : p ∈ s.sched.queued := WellFormed.mem_running hp
  have hstatus : (s.sched.seq p).status = .running := by
    rcases h.running p hp with hs | hs
    · exact hs
    · rw [hfin] at hs
      cases hs
  obtain ⟨bids, -, hseq, hhand⟩ := allocateFor_handed s.sched.blockManager (s.sched.seq p)
    (missingBlocks s.sched.blockManager (s.sched.seq p)) hfits (h.inRange .cuda)
  rw [ScheduleState.decodeGroup_sched (hwf.single_of_mem hmem), appendBlocks_of_unfinished hfin,
    hseq]
  refine h.moveHanded hwf hmem rfl hhand hstatus ?_ (List.Perm.refl _)
    (fun _ hq _ => hq) (fun _ hq _ => hq) (fun _ hq _ => hq)
    (hwf.queues.disjoint_running_waiting hp) (hwf.queues.disjoint_running_swapped hp)
  rw [h.claimed_running hmem hstatus]

theorem Separated.admitGroup {s : ScheduleState} {rest : List GroupPtr} (h : s.sched.Separated)
    (hwf : s.sched.WellFormed) (hwait : s.sched.waiting = p :: rest)
    (hfits : (s.sched.seq p).numBlocksNeeded s.sched.blockManager.blockSize
      ≤ (s.sched.blockManager.freeList .cuda).length) :
    (s.admitGroup p rest).sched.Separated := by
  have hpw : p ∈ s.sched.waiting := by rw [hwait]; exact List.mem_cons_self ..
  have hmem : p ∈ s.sched.queued := WellFormed.mem_waiting hpw
  obtain ⟨hnil, hlogical⟩ := h.waiting p hpw
  obtain ⟨bids, hlen, hseq, hhand⟩ := prefillSequence_handed s.sched.blockManager (s.sched.seq p) _
    hfits (h.inRange .cuda)
  have hprest : p ∉ rest := hwf.queues.not_mem_rest_waiting hwait
  rw [ScheduleState.admitGroup_sched (hwf.single_of_mem hmem), hseq]
  refine h.moveHanded hwf hmem rfl hhand rfl ?_ (List.Perm.of_eq ?_) (fun q hq hqp => ?_)
    (fun q hq _ => ?_) (fun _ hq _ => hq) hprest (hwf.queues.disjoint_waiting_swapped hpw)
  · simp [claimed_of_nil hnil, hlogical]
  · rw [queued, hwait]
    simp [putSequences]
  · exact mem_of_mem_concat hq hqp
  · rw [hwait]
    exact List.mem_cons_of_mem _ hq

/-- Swapping in: an unfinished sequence without GPU claims gets new blocks. -/
theorem Separated.swapInGroup {s : ScheduleState} {rest : List GroupPtr} (h : s.sched.Separated)
    (hwf : s.sched.WellFormed) (hswap : s.sched.swapped = p :: rest)
    (hfits : (s.sched.seq p).isFinished = false →
      (s.sched.seq p).logicalBlocks.length ≤ (s.sched.blockManager.freeList .cuda).length) :
    (s.swapInGroup p rest).sched.Separated := by
  have hps : p ∈ s.sched.swapped := by rw [hswap]; exact List.mem_cons_self ..
  have hmem : p ∈ s.sched.queued := WellFormed.mem_swapped hps
  have hprest : p ∉ rest := hwf.queues.not_mem_rest_swapped hswap
  have hpw : p ∉ s.sched.waiting := fun hw => hwf.queues.disjoint_waiting_swapped hw hps
  have hperm : ((s.sched.running ++ [p]) ++ (s.sched.waiting ++ rest)).Perm s.sched.queued := by
    rw [queued, hswap]
    exact perm_swapIn _ _ _ _
  have hrun : ∀ q ∈ s.sched.running ++ [p], q ≠ p → q ∈ s.sched.running := by
    intro q hq hqp
    exact mem_of_mem_concat hq hqp
  have hrest : ∀ q ∈ rest, q ≠ p → q ∈ s.sched.swapped := by
    intro q hq _
    rw [hswap]
    exact List.mem_cons_of_mem _ hq
  rw [ScheduleState.swapInGroup_sched (hwf.single_of_mem hmem)]
  by_cases hfin : (s.sched.seq p).isFinished = true
  · -- a finished sequence only changes queues
    rw [swapInSequence, if_pos hfin]
    exact h.move hwf hmem rfl h.inRange (fun _ _ => rfl) (List.Subperm.refl _) hperm hrun
      (fun _ hq _ => hq) hrest (fun _ => Or.inr hfin) (fun hw => absurd hw hpw)
      (fun hs => absurd hs hprest) (h.agree p hmem)
  · have hunfin : (s.sched.seq p).isFinished = false := by simpa using hfin
    obtain ⟨hstatus, hclaims⟩ := h.swapped p hps hunfin
    have hhand := swapInBlocks_handed (s.sched.seq p).seqId (s.sched.seq p).logicalBlocks
      (s.sched.blockManager, s.output.blockSwapsIn) (hfits hunfin) (h.inRange .cuda)
    have hbefore : claimed s.sched.blockManager (s.sched.seq p) = [] :=
      claimed_of_swappedOut (by rw [hstatus]; decide) (hclaims.imp_right And.left)
    rw [swapInSequence_of_unfinished hunfin]
    refine h.moveHanded hwf hmem rfl hhand rfl ?_ hperm hrun (fun _ hq _ => hq) hrest hpw hprest
    rw [hbefore]
    rfl

/-- A running sequence that is swapped out has a CPU entry afterwards, unless it never had a block. -/
theorem Separated.swappedBefore_swapOut (h : st.Separated) (hmem : p ∈ st.queued)
    (hstatus : (st.seq p).status = .running) (ops : List BlockOp)
    (hcpu : (st.seq p).logicalBlocks.length ≤ (st.blockManager.freeList .cpu).length) :
    (swapOutBlocks (st.seq p).seqId (st.seq p).logicalBlocks (st.blockManager, ops)).2.1.SwappedBefore
      (st.seq p).seqId ∨
    ((swapOutBlocks (st.seq p).seqId (st.seq p).logicalBlocks (st.blockManager, ops)).2.1.seqBlocks
      (st.seq p).seqId = [] ∧
    (swapOutBlocks (st.seq p).seqId (st.seq p).logicalBlocks (st.blockManager, ops)).1 = []) := by
  obtain ⟨hblocks, -, -⟩ := swapOutBlocks_spec (st.seq p).seqId (st.seq p).logicalBlocks
    (st.blockManager, ops) hcpu h.inRange
  have hlen := swapOutBlocks_length (st.seq p).seqId (st.seq p).logicalBlocks (st.blockManager, ops)
  have hmap := hblocks (st.seq p).seqId
  rw [if_pos rfl] at hmap
  rw [SwappedBefore, hmap]
  cases hids : (swapOutBlocks (st.seq p).seqId (st.seq p).logicalBlocks (st.blockManager, ops)).1 with
  | cons b rest => exact Or.inl ⟨(.cpu, b), by simp, rfl⟩
  | nil =>
      have hlogical : (st.seq p).logicalBlocks = [] := by
        rw [hids] at hlen
        exact List.length_eq_zero_iff.1 hlen.symm
      by_cases hsw : st.blockManager.SwappedBefore (st.seq p).seqId
      · obtain ⟨e, he, hd⟩ := hsw
        exact Or.inl ⟨e, List.mem_append_left _ he, hd⟩
      · have hnil := h.agree p hmem hstatus hsw
        rw [hlogical] at hnil
        have hnil' := List.map_eq_nil_iff.1 hnil.symm
        exact Or.inr ⟨by simp [hnil'], rfl⟩

/-- Swapping out: the claim of the victim goes back to the free list, where it is put at most once. -/
theorem Separated.swapOutGroup {s : ScheduleState} {init : List GroupPtr} (h : s.sched.Separated)
    (hwf : s.sched.WellFormed) (hrun : s.sched.running = init ++ [p])
    (hcpu : (s.sched.seq p).isFinished = false →
      (s.sched.seq p).logicalBlocks.length ≤ (s.sched.blockManager.freeList .cpu).length) :
    (s.swapOutGroup p init).sched.Separated := by
  have hpr : p ∈ s.sched.running := by rw [hrun]; simp
  have hmem : p ∈ s.sched.queued := WellFormed.mem_running hpr
  have hpinit : p ∉ init := hwf.queues.not_mem_init hrun
  have hperm : (init ++ (s.sched.waiting ++ (s.sched.swapped ++ [p]))).Perm s.sched.queued := by
    rw [queued, hrun]
    exact perm_swapOut _ _ _ _
  have hinit : ∀ q ∈ init, q ≠ p → q ∈ s.sched.running := by
    intro q hq _
    rw [hrun]
    exact List.mem_append_left _ hq
  have hswap : ∀ q ∈ s.sched.swapped ++ [p], q ≠ p → q ∈ s.sched.swapped := by
    intro q hq hqp
    exact mem_of_mem_concat hq hqp
  have hpw : p ∉ s.sched.waiting := hwf.queues.disjoint_running_waiting hpr
  rw [ScheduleState.swapOutGroup_sched (hwf.single_of_mem hmem)]
  by_cases hfin : (s.sched.seq p).isFinished = true
  · rw [swapOutSequence, if_pos hfin]
    exact h.move hwf hmem rfl h.inRange (fun _ _ => rfl) (List.Subperm.refl _) hperm hinit
      (fun _ hq _ => hq) hswap (fun hp => absurd hp hpinit) (fun hw => absurd hw hpw)
      (fun _ hun => by rw [hfin] at hun; cases hun) (h.agree p hmem)
  · have hunfin : (s.sched.seq p).isFinished = false := by simpa using hfin
    have hstatus : (s.sched.seq p).status = .running := (h.running p hpr).resolve_right hfin
    obtain ⟨hblocks, hfree, hrange⟩ := swapOutBlocks_spec (s.sched.seq p).seqId
      (s.sched.seq p).logicalBlocks (s.sched.blockManager, s.output.blockSwapsOut) (hcpu hunfin)
      h.inRange
    rw [swapOutSequence_of_unfinished hunfin]
    have hafter := h.swappedBefore_swapOut hmem hstatus s.output.blockSwapsOut (hcpu hunfin)
    refine h.move hwf hmem rfl hrange (fun id hid => (hblocks id).trans (if_neg hid)) ?_ hperm hinit
      (fun _ hq _ => hq) hswap (fun hp => absurd hp hpinit) (fun hw => absurd hw hpw)
      (fun _ _ => ⟨rfl, hafter⟩) (fun hrun' => by cases hrun')
    · have hnone : claimed (swapOutBlocks (s.sched.seq p).seqId (s.sched.seq p).logicalBlocks
          (s.sched.blockManager, s.output.blockSwapsOut)).2.1
          { s.sched.seq p with
            status := .swapped,
            logicalBlocks := (swapOutBlocks (s.sched.seq p).seqId (s.sched.seq p).logicalBlocks
              (s.sched.blockManager, s.output.blockSwapsOut)).1 } = [] :=
        claimed_of_swappedOut (by simp) (hafter.imp_right And.left)
      rw [hnone, List.append_nil, h.claimed_running hmem hstatus]
      exact hfree.trans List.perm_append_comm.subperm

/-! ## The other operations -/

theorem Separated.addRequest (h : st.Separated) (hwf : st.WellFormed) {group : SequenceGroup}
    (hfresh : st.FreshRequest group) : (st.addRequest group).Separated := by
  have hold := hwf.seq_addRequest group
  have hnew := hfresh.seq_next
  have hnil : st.blockManager.seqBlocks group.requestId = [] := by
    refine h.other _ (fun q hq => ?_)
    rw [hwf.seqId hq]
    exact hfresh.2 q hq
  have hmem : ∀ q, q ∈ (st.addRequest group).queued ↔ q = st.next ∨ q ∈ st.queued := fun q => by
    rw [(st.addRequest_queued group).mem_iff, List.mem_cons]
  refine ⟨?_, h.inRange, fun q hq => ?_, fun q hq => ?_, fun q hq => ?_, fun q hq hs => ?_,
    fun id hid => ?_⟩
  · refine nodup_of_subperm (List.Perm.subperm (List.Perm.append_left _ ?_)) h.pooled
    refine ((st.addRequest_queued group).flatMap_right _).trans (List.Perm.of_eq ?_)
    rw [List.flatMap_cons, hnew, claimed_of_nil hnil, List.nil_append]
    exact List.flatMap_congr (fun q hq => congrArg (claimed _) (hold q hq))
  · rw [hold q (WellFormed.mem_running hq)]
    exact h.running q hq
  · rcases List.mem_append.1 hq with hq | hq
    · rw [hold q (WellFormed.mem_waiting hq)]
      exact h.waiting q hq
    · obtain rfl := List.mem_singleton.1 hq
      rw [hnew]
      exact ⟨hnil, rfl⟩
  · rw [hold q (WellFormed.mem_swapped hq)]
    exact h.swapped q hq
  · rcases (hmem q).1 hq with rfl | hq
    · rw [hnew] at hs
      cases hs
    · rw [hold q hq] at hs ⊢
      exact h.agree q hq hs
  · refine h.other id (fun q hq => ?_)
    have := hid q ((hmem q).2 (Or.inr hq))
    rwa [hold q hq] at this

/-- Aborting is safe for a sequence that has not been swapped out. -/
theorem Separated.abortRequest (h : st.Separated) (hwf : st.WellFormed) {id : SeqId}
    (hclean : ∀ p, st.requestMap.lookup id = some p → (st.seq p).isFinished = false →
      ¬ st.blockManager.SwappedBefore (st.seq p).seqId) : (st.abortRequest id).Separated := by
  cases hp : st.requestMap.lookup id with
  | none =>
      simp only [Scheduler.abortRequest, hp]
      exact h
  | some p =>
      have hmem := (hwf.named id p hp).1
      rw [abortRequest_eq hwf hp]
      suffices hput : Separated { st.putSequences p [(abortSequence st.blockManager (st.seq p)).1]
          (abortSequence st.blockManager (st.seq p)).2 with
            running := st.running, waiting := st.waiting, swapped := st.swapped } from
        ⟨hput.pooled, hput.inRange, hput.running, hput.waiting, hput.swapped, hput.agree, hput.other⟩
      by_cases hfin : (st.seq p).isFinished = true
      · rw [abortSequence, if_pos hfin]
        exact h.move hwf hmem rfl h.inRange (fun _ _ => rfl) (List.Subperm.refl _)
          (List.Perm.refl _) (fun _ hq _ => hq) (fun _ hq _ => hq) (fun _ hq _ => hq) (h.running p)
          (h.waiting p) (h.swapped p) (h.agree p hmem)
      · have hno := hclean p hp (by simpa using hfin)
        have hnil : (st.blockManager.freeBlocks (st.seq p).seqId).seqBlocks (st.seq p).seqId = [] := by
          rw [freeBlocks_seqBlocks, if_pos rfl]
        rw [abortSequence, if_neg hfin]
        refine h.move hwf hmem rfl (h.inRange.freeBlocks _)
          (fun id' hid => (freeBlocks_seqBlocks _).trans (if_neg hid)) ?_
          (List.Perm.refl _) (fun _ hq _ => hq) (fun _ hq _ => hq) (fun _ hq _ => hq)
          (fun _ => Or.inr rfl) (fun hw => ⟨hnil, (h.waiting p hw).2⟩) (fun _ hun => by cases hun)
          (fun hs => by cases hs)
        have hnone : claimed (st.blockManager.freeBlocks (st.seq p).seqId)
            { st.seq p with status := .finishedAbort } = [] := claimed_of_nil hnil
        rw [hnone, List.append_nil, claimed, if_neg hno]
        exact (freeBlocks_subperm hno).trans List.perm_append_comm.subperm

theorem flatMap_sublist {f g : GroupPtr → List BlockId} {ps : List GroupPtr}
    (h : ∀ p ∈ ps, (f p).Sublist (g p)) : (ps.flatMap f).Sublist (ps.flatMap g) := by
  induction ps with
  | nil => exact List.Sublist.refl _
  | cons p rest ih =>
      rw [List.flatMap_cons, List.flatMap_cons]
      exact (h p (List.mem_cons_self ..)).append (ih (fun q hq => h q (List.mem_cons_of_mem _ hq)))

theorem Separated.updateAfterDecode (h : st.Separated) (hwf : st.WellFormed)
    (out : SchedulerOutput) (toks : List TokenId) (now : TimePoint) :
    (st.updateAfterDecode out toks now).Separated := by
  have hext := hwf.extends_updateAfterDecode out toks now
  have hfinished : ∀ p ∈ st.queued, (st.seq p).isFinished = true →
      ((st.updateAfterDecode out toks now).seq p).isFinished = true := by
    intro p hp hfin
    rcases (hext p hp).status with hs | ⟨hun, -⟩
    · rw [SequenceData.isFinished, hs]
      exact hfin
    · rw [hfin] at hun
      cases hun
  refine ⟨?_, h.inRange, fun p hp => ?_, fun p hp => ?_, fun p hp hun => ?_, fun p hp hs => ?_,
    fun id hid => ?_⟩
  · refine List.Sublist.nodup ((List.Sublist.refl _).append (flatMap_sublist (fun p hp => ?_))) h.pooled
    -- a sequence that finishes may give up a claim, nothing else changes
    have he := hext p hp
    show (claimed st.blockManager _).Sublist _
    simp only [claimed, he.seqId, he.logicalBlocks]
    by_cases hsw : st.blockManager.SwappedBefore (st.seq p).seqId
    · rw [if_pos hsw, if_pos hsw]
      rcases he.status with hs | ⟨-, hs⟩
      · rw [hs]
      · rw [hs, if_neg (by decide)]
        exact List.nil_sublist _
    · rw [if_neg hsw, if_neg hsw]
  · have hq := WellFormed.mem_running hp
    rcases (hext p hq).status with hs | ⟨-, hs⟩
    · rw [hs]
      exact (h.running p hp).imp id (hfinished p hq)
    · exact Or.inr (by rw [SequenceData.isFinished, hs]; rfl)
  · have he := hext p (WellFormed.mem_waiting hp)
    rw [he.seqId, he.logicalBlocks]
    exact h.waiting p hp
  · have he := hext p (WellFormed.mem_swapped hp)
    have hstatus := he.status_of_unfinished hun
    have hun' : (st.seq p).isFinished = false := by
      rwa [SequenceData.isFinished, hstatus] at hun
    rw [hstatus, he.seqId, he.logicalBlocks]
    exact h.swapped p hp hun'
  · have he := hext p hp
    have hrunning : (st.seq p).status = .running := by
      rcases he.status with hs' | ⟨-, hs'⟩
      · rw [← hs']
        exact hs
      · rw [hs'] at hs
        cases hs
    rw [he.seqId, he.logicalBlocks]
    exact h.agree p hp hrunning
  · refine h.other id (fun p hp => ?_)
    have := hid p hp
    rwa [(hext p hp).seqId] at this

/-! ## Releasing finished groups -/

theorem releaseGroups_seqBlocks {groups : GroupPtr → SequenceGroup} (ps : List GroupPtr)
    (bm : BlockManager) (hps : ∀ p ∈ ps, (groups p).Single) (id : SeqId) :
    (releaseGroups groups bm ps).seqBlocks id
      = if ∃ p ∈ ps, (groups p).seq.seqId = id then [] else bm.seqBlocks id := by
  induction ps generalizing bm with
  | nil => simp [releaseGroups]
  | cons p rest ih =>
      rw [releaseGroups_cons (hps p (List.mem_cons_self ..)),
        ih _ (fun q hq => hps q (List.mem_cons_of_mem _ hq)), freeBlocks_seqBlocks]
      by_cases hrest : ∃ q ∈ rest, (groups q).seq.seqId = id
      · obtain ⟨q, hq, hid⟩ := hrest
        rw [if_pos ⟨q, hq, hid⟩, if_pos ⟨q, List.mem_cons_of_mem _ hq, hid⟩]
      · rw [if_neg hrest]
        by_cases hp : id = (groups p).seq.seqId
        · rw [if_pos hp, if_pos ⟨p, List.mem_cons_self .., hp.symm⟩]
        · rw [if_neg hp, if_neg]
          rintro ⟨q, hq, hid⟩
          rcases List.mem_cons.1 hq with rfl | hq
          · exact hp hid.symm
          · exact hrest ⟨q, hq, hid⟩

/-- Releasing groups that have not been swapped out adds at most the blocks of their map entries to the
    free list. -/
theorem releaseGroups_subperm {groups : GroupPtr → SequenceGroup} (ps : List GroupPtr)
    (bm : BlockManager) (hps : ∀ p ∈ ps, (groups p).Single)
    (hids : (ps.map (fun p => (groups p).seq.seqId)).Nodup)
    (hno : ∀ p ∈ ps, ¬ bm.SwappedBefore (groups p).seq.seqId) (hin : bm.FreeInRange) :
    ((releaseGroups groups bm ps).freeList .cuda).Subperm
      (ps.flatMap (fun p => (bm.seqBlocks (groups p).seq.seqId).map Prod.snd) ++
        bm.freeList .cuda) ∧
    (releaseGroups groups bm ps).FreeInRange := by
  induction ps generalizing bm with
  | nil => exact ⟨List.Subperm.refl _, hin⟩
  | cons p rest ih =>
      rw [List.map_cons, List.nodup_cons] at hids
      rw [releaseGroups_cons (hps p (List.mem_cons_self ..))]
      -- the entries of the later groups are not touched by the first release
      have hsame : ∀ q ∈ rest, (bm.freeBlocks (groups p).seq.seqId).seqBlocks (groups q).seq.seqId
          = bm.seqBlocks (groups q).seq.seqId := by
        intro q hq
        rw [freeBlocks_seqBlocks, if_neg]
        exact fun heq => hids.1 (List.mem_map.2 ⟨q, hq, heq⟩)
      obtain ⟨hsub, hrange⟩ := ih (bm.freeBlocks (groups p).seq.seqId)
        (fun q hq => hps q (List.mem_cons_of_mem _ hq)) hids.2
        (fun q hq => by
          rw [SwappedBefore, hsame q hq]
          exact hno q (List.mem_cons_of_mem _ hq))
        (hin.freeBlocks _)
      refine ⟨hsub.trans ?_, hrange⟩
      rw [List.flatMap_congr (fun q hq => congrArg (List.map Prod.snd) (hsame q hq)),
        List.flatMap_cons]
      refine ((List.subperm_append_left _).2
        (freeBlocks_subperm (hno p (List.mem_cons_self ..)))).trans ?_
      refine List.Perm.subperm ?_
      rw [← List.append_assoc]
      exact List.Perm.append_right _ List.perm_append_comm

/-- Claims that move to the free list. -/
theorem subperm_released {free free' released rest all : List BlockId}
    (hsub : free'.Subperm (released ++ free)) (hall : all.Perm (released ++ rest)) :
    (free' ++ rest).Subperm (free ++ all) := by
  refine ((List.subperm_append_right rest).2 hsub).trans (List.Perm.subperm ?_)
  refine (List.Perm.append_right rest List.perm_append_comm).trans ?_
  rw [List.append_assoc]
  exact List.Perm.append_left free hall.symm

/-- The entries of the groups that stay are not touched. -/
theorem released_seqBlocks (hwf : st.WellFormed) {p : GroupPtr}
    (hp : p ∈ st.unfinishedIn st.running ++ (st.unfinishedIn st.waiting ++ st.swapped)) :
    (releaseGroups st.groups st.blockManager
        (st.finishedIn st.running ++ st.finishedIn st.waiting)).seqBlocks (st.seq p).seqId
      = st.blockManager.seqBlocks (st.seq p).seqId := by
  rw [releaseGroups_seqBlocks _ st.blockManager (fun p hp => released_single hwf hp),
    if_neg (not_released_seqId hwf hp)]

/-- The claims of the groups that go become free blocks. -/
theorem pooled_released (hwf : st.WellFormed)
    (hclean : ∀ p ∈ st.finishedIn st.running ++ st.finishedIn st.waiting,
      ¬ st.blockManager.SwappedBefore (st.seq p).seqId)
    (hsub : ((releaseGroups st.groups st.blockManager
        (st.finishedIn st.running ++ st.finishedIn st.waiting)).freeList .cuda).Subperm
      ((st.finishedIn st.running ++ st.finishedIn st.waiting).flatMap
          (fun p => (st.blockManager.seqBlocks (st.groups p).seq.seqId).map Prod.snd)
        ++ st.blockManager.freeList .cuda)) :
    ((releaseGroups st.groups st.blockManager
        (st.finishedIn st.running ++ st.finishedIn st.waiting)).freeList .cuda
      ++ (st.unfinishedIn st.running ++ (st.unfinishedIn st.waiting ++ st.swapped)).flatMap
        (fun p => claimed (releaseGroups st.groups st.blockManager
          (st.finishedIn st.running ++ st.finishedIn st.waiting)) (st.seq p))).Subperm st.pooled := by
  have hclaims : (st.unfinishedIn st.running ++ (st.unfinishedIn st.waiting ++ st.swapped)).flatMap
      (fun p => claimed (releaseGroups st.groups st.blockManager
        (st.finishedIn st.running ++ st.finishedIn st.waiting)) (st.seq p))
      = (st.unfinishedIn st.running ++ (st.unfinishedIn st.waiting ++ st.swapped)).flatMap
        (fun p => claimed st.blockManager (st.seq p)) :=
    List.flatMap_congr (fun p hp => claimed_congr (released_seqBlocks hwf hp))
  have hreleased : (st.finishedIn st.running ++ st.finishedIn st.waiting).flatMap
      (fun p => claimed st.blockManager (st.seq p))
      = (st.finishedIn st.running ++ st.finishedIn st.waiting).flatMap
        (fun p => (st.blockManager.seqBlocks (st.groups p).seq.seqId).map Prod.snd) :=
    List.flatMap_congr (fun p hp => by rw [claimed, if_neg (hclean p hp)]; rfl)
  have hall := (queued_perm_released st).flatMap_right (fun p => claimed st.blockManager (st.seq p))
  rw [List.flatMap_append, hreleased] at hall
  rw [hclaims]
  exact subperm_released hsub hall

theorem Separated.freeFinishedRequests (h : st.Separated) (hwf : st.WellFormed)
    (hclean : ∀ p ∈ st.finishedIn st.running ++ st.finishedIn st.waiting,
      ¬ st.blockManager.SwappedBefore (st.seq p).seqId) :
    st.freeFinishedRequests.Separated := by
  have hsplit := queued_perm_released st
  have hstay : ∀ p ∈ st.unfinishedIn st.running ++ (st.unfinishedIn st.waiting ++ st.swapped),
      p ∈ st.queued := fun p hp => hsplit.mem_iff.2 (List.mem_append_right _ hp)
  have hsingle := fun p hp => released_single (p := p) hwf hp
  obtain ⟨hsub, hrange⟩ := releaseGroups_subperm _ st.blockManager hsingle
    (released_ids_nodup hwf) hclean h.inRange
  have hsame := fun p hp => released_seqBlocks (p := p) hwf hp
  rw [freeFinishedRequests_eq]
  refine ⟨nodup_of_subperm (pooled_released hwf hclean hsub) h.pooled, hrange,
    fun p hp => h.running p (List.mem_filter.1 hp).1, fun p hp => ?_, fun p hp hun => ?_,
    fun p hp hs hno => ?_, fun id hid => ?_⟩
  · have hp' := List.mem_append_right (st.unfinishedIn st.running)
      (List.mem_append_left st.swapped hp)
    have := h.waiting p (List.mem_filter.1 hp).1
    rw [← hsame p hp'] at this
    exact this
  · have hp' := List.mem_append_right (st.unfinishedIn st.running)
      (List.mem_append_right (st.unfinishedIn st.waiting) hp)
    have := h.swapped p hp hun
    rw [SwappedBefore, ← hsame p hp'] at this
    exact this
  · have := h.agree p (hstay p hp) hs (fun hsw => hno (by rwa [SwappedBefore, ← hsame p hp] at hsw))
    rw [← hsame p hp] at this
    exact this
  · show (releaseGroups _ _ _).seqBlocks id = []
    rw [releaseGroups_seqBlocks _ st.blockManager hsingle]
    split
    · rfl
    · next hnot =>
        refine h.other id (fun p hp heq => ?_)
        rcases List.mem_append.1 (hsplit.mem_iff.1 hp) with hgo | hst
        · exact hnot ⟨p, hgo, heq⟩
        · exact hid p hst heq

/-! ## Runs in swap mode -/

open ScheduleState in
/-- If the call starting in `st` preempts, the CPU has a free block for every block of the victim. -/
def CpuSuffices (st : Scheduler) : Prop :=
  (decodeLoop st.running st.beginSchedule).2 = true →
    ∀ v ∈ (decodeLoop st.running st.beginSchedule).1.sched.running.getLast?,
      swapInBlockCount ((decodeLoop st.running st.beginSchedule).1.sched.groups v)
        ≤ (decodeLoop st.running st.beginSchedule).1.sched.blockManager.numFreeCpuBlocks

instance (st : Scheduler) : Decidable st.CpuSuffices := by
  unfold CpuSuffices
  infer_instance

/-- What the preemption of such a call finds. -/
theorem CpuSuffices.room (hcpu : st.CpuSuffices) {s : ScheduleState} {init : List GroupPtr}
    {v : GroupPtr} (hat : st.PreemptsAt s) (hv : s.sched.running = init ++ [v]) :
    swapInBlockCount (s.sched.groups v) ≤ (s.sched.blockManager.freeList .cpu).length := by
  rw [CpuSuffices, hat] at hcpu
  exact hcpu rfl v (by rw [hv]; simp)

/-- Requests have one sequence and distinct live ids, and a preemption finds enough CPU blocks. -/
def SwapOp (st : Scheduler) : Op → Prop
  | .addRequest group => st.FreshRequest group
  | .schedule => st.CpuSuffices
  | _ => True

/-- No sequence that the operation releases has been swapped out since its admission. -/
def ReleasesUnswapped (st : Scheduler) : Op → Prop
  | .abortRequest id => ∀ p ∈ st.requestMap.lookup id, ∀ seq ∈ (st.groups p).sequences,
      seq.isFinished = false → ¬ st.blockManager.SwappedBefore seq.seqId
  | .freeFinishedRequests => ∀ p ∈ st.finishedIn st.running ++ st.finishedIn st.waiting,
      ∀ seq ∈ (st.groups p).sequences, ¬ st.blockManager.SwappedBefore seq.seqId
  | _ => True

instance (st : Scheduler) : (op : Op) → Decidable (st.SwapOp op)
  | .addRequest group => inferInstanceAs (Decidable (st.FreshRequest group))
  | .schedule => inferInstanceAs (Decidable st.CpuSuffices)
  | .abortRequest _ | .updateAfterDecode .. | .freeFinishedRequests => isTrue trivial

instance (st : Scheduler) : (op : Op) → Decidable (st.ReleasesUnswapped op)
  | .abortRequest id => inferInstanceAs (Decidable (∀ p ∈ st.requestMap.lookup id,
      ∀ seq ∈ (st.groups p).sequences, seq.isFinished = false →
        ¬ st.blockManager.SwappedBefore seq.seqId))
  | .freeFinishedRequests => inferInstanceAs (Decidable (∀ p ∈ st.finishedIn st.running ++
      st.finishedIn st.waiting, ∀ seq ∈ (st.groups p).sequences,
        ¬ st.blockManager.SwappedBefore seq.seqId))
  | .addRequest _ | .schedule | .updateAfterDecode .. => isTrue trivial

/-- The unfinished running sequences own their GPU blocks exclusively. -/
structure ExclusiveBlocks (st : Scheduler) : Prop where
  disjoint : ∀ p ∈ st.queued, ∀ q ∈ st.queued, p ≠ q → ∀ x ∈ (st.groups p).sequences,
    ∀ y ∈ (st.groups q).sequences, x.status = .running → y.status = .running →
    List.Disjoint x.logicalBlocks y.logicalBlocks
  notFree : ∀ p ∈ st.queued, ∀ x ∈ (st.groups p).sequences, x.status = .running →
    List.Disjoint x.logicalBlocks (st.blockManager.freeList .cuda)
  free : (st.blockManager.freeList .cuda).Nodup

theorem schedule_separated (hwf : st.WellFormed) (hmode : st.config.preemptionMode = .swap)
    (h : st.Separated) (hcpu : st.CpuSuffices) : st.schedule.2.Separated := by
  refine (afterSwapIn_wellFormed (P := fun s => s.sched.Separated) hwf h ?_ ?_ ?_ ?_ ?_ ?_).2
  · intro s p rest hs h hat hfin hfits
    have hsingle := hs.wf.single_of_mem (WellFormed.mem_running hat.mem_running)
    exact h.decodeGroup hs.wf hat.mem_running hfin ((hsingle.canAppend _ hfin).1 hfits.2.2)
  · intro s init v _ hs h hat hrun
    refine h.swapOutGroup hs.wf hrun (fun hfin => ?_)
    have hsingle := hs.wf.single_of_mem (WellFormed.mem_running (p := v) (by rw [hrun]; simp))
    rw [Scheduler.seq, ← hsingle.swapInBlockCount hfin]
    exact hcpu.room hat hrun
  · intro s init v hrec
    rw [hmode] at hrec
    cases hrec
  · intro s w hs h hperm
    have hq : (s.sched.running ++ (w ++ s.sched.swapped)).Perm s.sched.queued :=
      List.Perm.append_left _ (List.Perm.append_right _ hperm)
    refine ⟨?_, h.inRange, h.running, fun p hp => h.waiting p (hperm.mem_iff.1 hp), h.swapped,
      fun p hp => h.agree p (hq.mem_iff.1 hp), fun id hid => h.other id (fun p hp => hid p (hq.mem_iff.2 hp))⟩
    exact (List.Perm.append_left _ (hq.flatMap_right _)).nodup_iff.2 h.pooled
  · intro s p rest hs h _ hwait hfits
    have hsingle := hs.wf.single_of_mem (WellFormed.mem_waiting (p := p) (by rw [hwait]; simp))
    exact h.admitGroup hs.wf hwait (hfits.room hsingle)
  · intro s p rest hs h hswap hfits
    have hsingle := hs.wf.single_of_mem (WellFormed.mem_swapped (p := p) (by rw [hswap]; simp))
    refine h.swapInGroup hs.wf hswap (fun hfin => ?_)
    have hcan := hfits.2.2
    rw [hsingle.swapInBlockCount hfin] at hcan
    exact of_decide_eq_true hcan

theorem new_separated (config : SchedulerConfig) (cache : CacheConfig) :
    (Scheduler.new config (BlockManager.new cache)).Separated := by
  have hcounts := counts_new cache
  refine ⟨?_, fun d b hb => ((hcounts.free d b).1 hb).1, ?_, ?_, ?_, ?_, fun _ _ => rfl⟩
  · simpa [Scheduler.pooled, queued, Scheduler.new] using hcounts.nodup .cuda
  · exact fun p hp => absurd hp List.not_mem_nil
  · exact fun p hp => absurd hp List.not_mem_nil
  · exact fun p hp => absurd hp List.not_mem_nil
  · exact fun p hp => absurd hp List.not_mem_nil

/-- The invariant of runs in swap mode. -/
def Swaps (st : Scheduler) : Prop :=
  st.WellFormed ∧ st.config.preemptionMode = .swap ∧ st.Separated

theorem step_swaps (st : Scheduler) (op : Op) (h : st.Swaps)
    (hok : st.SwapOp op ∧ st.ReleasesUnswapped op) : (st.step op).Swaps := by
  obtain ⟨hwf, hmode, hsep⟩ := h
  obtain ⟨hok, hclean⟩ := hok
  cases op with
  | addRequest group =>
      exact ⟨addRequest_wellFormed hwf hok, hmode, hsep.addRequest hwf hok⟩
  | abortRequest id =>
      refine ⟨abortRequest_wellFormed hwf id, ?_, hsep.abortRequest hwf (fun p hp hfin => ?_)⟩
      · simp only [step, Scheduler.abortRequest]
        split <;> exact hmode
      · have hsingle := hwf.single_of_mem (hwf.named id p hp).1
        exact hclean p hp (st.seq p) (by rw [hsingle.sequences]; exact List.mem_singleton_self _) hfin
  | schedule =>
      have hmid := schedule_midStep hwf
      exact ⟨hmid.wf, (congrArg SchedulerConfig.preemptionMode hmid.config).trans hmode,
        schedule_separated hwf hmode hsep hok⟩
  | updateAfterDecode out toks now =>
      exact ⟨updateAfterDecode_wellFormed hwf out toks now, hmode,
        hsep.updateAfterDecode hwf out toks now⟩
  | freeFinishedRequests =>
      refine ⟨freeFinishedRequests_wellFormed hwf, ?_, hsep.freeFinishedRequests hwf (fun p hp => ?_)⟩
      · simp only [step, freeFinishedRequests_eq]
        exact hmode
      · have hmem : p ∈ st.queued := by
          rcases List.mem_append.1 hp with hp | hp
          · exact WellFormed.mem_running (List.mem_filter.1 hp).1
          · exact WellFormed.mem_waiting (List.mem_filter.1 hp).1
        have hsingle := hwf.single_of_mem hmem
        exact hclean p hp (st.seq p) (by rw [hsingle.sequences]; exact List.mem_singleton_self _)

theorem Swaps.exclusive (h : st.Swaps) : st.ExclusiveBlocks := by
  obtain ⟨hwf, -, hsep⟩ := h
  have hone : ∀ p ∈ st.queued, ∀ x ∈ (st.groups p).sequences, x = st.seq p := by
    intro p hp x hx
    rw [(hwf.single_of_mem hp).sequences] at hx
    exact List.mem_singleton.1 hx
  obtain ⟨hfree, hclaims, hdisj⟩ := List.nodup_append.1 hsep.pooled
  have hmem : ∀ p ∈ st.queued, (st.seq p).status = .running → ∀ b ∈ (st.seq p).logicalBlocks,
      b ∈ st.queued.flatMap (fun p => claimed st.blockManager (st.seq p)) := by
    intro p hp hs b hb
    exact List.mem_flatMap.2 ⟨p, hp, by rw [hsep.claimed_running hp hs]; exact hb⟩
  refine ⟨fun p hp q hq hpq x hx y hy hsx hsy => ?_, fun p hp x hx hs b hb hbfree => ?_, hfree⟩
  · obtain rfl := hone p hp x hx
    obtain rfl := hone q hq y hy
    have hpair := (List.nodup_flatMap.1 hclaims).2
    have hsymm : Std.Symm (Function.onFun List.Disjoint
        (fun p => claimed st.blockManager (st.seq p))) := ⟨fun _ _ h => h.symm⟩
    rw [← hsep.claimed_running hp hsx, ← hsep.claimed_running hq hsy]
    exact hpair.forall hp hq hpq
  · obtain rfl := hone p hp x hx
    exact hdisj b hbfree b (hmem p hp hs b hb) rfl

/-- **Exclusive ownership in swap mode.** In a run that never releases a sequence that has been swapped
    out since its admission, the running sequences own their GPU blocks exclusively and no block is on
    the free list twice. -/
theorem swap_exclusive {config : SchedulerConfig} {cache : CacheConfig}
    (hmode : config.preemptionMode = .swap)
    (h : Run.Reach step (fun st op => st.SwapOp op ∧ st.ReleasesUnswapped op)
      (Scheduler.new config (BlockManager.new cache)) st) : st.ExclusiveBlocks :=
  (h.invariant (P := Swaps) ⟨new_wellFormed config _, hmode, new_separated config cache⟩
    step_swaps).exclusive

/-- One request on a GPU with one block of one token. The second `schedule()` swaps it out, because it
    cannot grow, and in again with the same block; then it is aborted. -/
def swappedThenAborted : List Op :=
  [.addRequest (.new 1 [7] {}), .freeFinishedRequests, .schedule,
    .updateAfterDecode { scheduledGroups := [0] } [9] 0, .freeFinishedRequests, .schedule,
    .abortRequest 1]

def swappedThenAbortedEnd : Client :=
  swappedThenAborted.foldl Client.step
    (Client.init {} { numGpuBlocks := 1, numCpuBlocks := 4, blockSize := 1 })

/-- The run obeys the protocol of the interface, and releases its only GPU block twice. -/
theorem swapped_then_aborted_double_release :
    Run.Reach Client.step (fun c op => c.Permitted op ∧ c.sched.SwapOp op)
      (Client.init {} { numGpuBlocks := 1, numCpuBlocks := 4, blockSize := 1 })
      swappedThenAbortedEnd ∧
    swappedThenAbortedEnd.sched.blockManager.freeList .cuda = [0, 0] ∧
    ¬ swappedThenAbortedEnd.sched.ExclusiveBlocks := by
  have hfree : swappedThenAbortedEnd.sched.blockManager.freeList .cuda = [0, 0] := by decide
  refine ⟨Run.Reach.of_allOk swappedThenAborted (by decide), hfree, fun h => ?_⟩
  have hnodup := h.free
  rw [hfree] at hnodup
  exact absurd hnodup (by decide)

/-- The same run up to the abort, which is the first operation to release a swapped sequence. -/
theorem swapped_running_exclusive :
    ((swappedThenAborted.take 6).foldl step
      (Scheduler.new {} (BlockManager.new
        { numGpuBlocks := 1, numCpuBlocks := 4, blockSize := 1 }))).ExclusiveBlocks :=
  swap_exclusive rfl (Run.Reach.of_allOk (swappedThenAborted.take 6) (by decide))

end Scheduler

end CacheFlow
