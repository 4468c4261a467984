import CacheFlow.Scheduler.Ownership

set_option autoImplicit false

/-! # Groups of several sequences

A group of several sequences needs blocks for all of them. Both checks of `schedule()` look at less: the
decode phase tests each sequence against the same free list, the prefill phase tests the first sequence
and then takes as many blocks for every other one. A group can pass and still run into the end of the
free list, where `allocate_block` returns `INVALID_BLOCK`, which is stored like any other id.

Where the blocks suffice for all sequences of every group that passes (`Suffices`), the tables stay valid
through the call (`afterSwapIn_midCall`): the sequences of a scheduled group have the blocks they need, and
none of them is invalid. -/

namespace CacheFlow

open BlockManager

namespace BlockManager

variable {bm bm' : BlockManager} {s : SeqId} {d : DeviceType}

theorem FreeInRange.allocateBlock (h : bm.FreeInRange) (s : SeqId) (d : DeviceType) :
    (bm.allocateBlock s d).2.FreeInRange := by
  cases hfl : bm.freeList d with
  | nil =>
      rw [allocateBlock_nil bm hfl]
      exact h
  | cons b rest =>
      have hb : bm.InRange d b := h d b (by rw [hfl]; exact List.mem_cons_self ..)
      have ha := (bm.allocateBlock_cons (s := s) hfl hb).2
      exact ((Handed.nil (bm.allocateBlock s d).2 s d).cons hfl ha).freeInRange h

theorem freeInRange_new (cache : CacheConfig) : (BlockManager.new cache).FreeInRange :=
  fun d b hb => (((counts_new cache).free d b).1 hb).1

/-- Blocks taken from a free list of the pool are not `INVALID_BLOCK`. -/
theorem Handed.valid {bids : List BlockId} (hh : Handed bm bm' s d bids) (h : bm.FreeInRange) :
    invalidBlock ∉ bids := by
  intro hmem
  have hin := h d invalidBlock (by rw [hh.freeList]; exact List.mem_append_left _ hmem)
  exact hin.ne_invalidBlock rfl

theorem Handed.length_freeList {bids : List BlockId} (hh : Handed bm bm' s d bids) :
    (bm.freeList d).length = bids.length + (bm'.freeList d).length := by
  rw [hh.freeList, List.length_append]

/-- The three calls through which the scheduler changes the block manager keep `P`. -/
structure Stable (P : BlockManager → Prop) : Prop where
  allocateBlock : ∀ bm s d, P bm → P (bm.allocateBlock s d).2
  freeBlock : ∀ bm b, P bm → P (bm.freeBlock b .cuda)
  freeBlocks : ∀ bm s, P bm → P (bm.freeBlocks s)

theorem freeInRange_stable : Stable FreeInRange :=
  ⟨fun _ s d h => h.allocateBlock s d, fun _ b h => h.freeBlock b .cuda, fun _ s h => h.freeBlocks s⟩

/-- No call changes the cache configuration. -/
theorem config_stable (cache : CacheConfig) : Stable (fun bm => bm.config = cache) where
  allocateBlock := fun _ _ _ h => by simpa using h
  freeBlock := fun _ _ h => by simpa using h
  freeBlocks := fun _ _ h => by simpa using h

end BlockManager

/-! ## The loops over the sequences of a group -/

/-- A loop over the sequences relates each of them to its successor, as long as the invariant of the
    state covers the sequences still to come. -/
theorem threadSequences_forall {σ : Type} {f : σ → SequenceData → SequenceData × σ}
    {I : List SequenceData → σ → Prop} {R : SequenceData → SequenceData → Prop}
    (hstep : ∀ st x xs, I (x :: xs) st → R x (f st x).1 ∧ I xs (f st x).2)
    (seqs : List SequenceData) (st : σ) (h : I seqs st) :
    (∀ y ∈ (threadSequences f st seqs).1, ∃ x ∈ seqs, R x y) ∧ I [] (threadSequences f st seqs).2 := by
  induction seqs generalizing st with
  | nil => exact ⟨fun y hy => absurd hy List.not_mem_nil, h⟩
  | cons x xs ih =>
      obtain ⟨hx, hxs⟩ := hstep st x xs h
      obtain ⟨hrest, hend⟩ := ih _ hxs
      refine ⟨?_, hend⟩
      intro y hy
      rcases List.mem_cons.1 hy with rfl | hy
      · exact ⟨x, List.mem_cons_self .., hx⟩
      · obtain ⟨x', hx', hrel⟩ := hrest y hy
        exact ⟨x', List.mem_cons_of_mem _ hx', hrel⟩

/-- A loop whose body keeps part of the state keeps it. -/
theorem threadSequences_keeps {σ τ : Type} {f : σ → SequenceData → SequenceData × σ} (g : σ → τ)
    (hf : ∀ st x, g (f st x).2 = g st) (seqs : List SequenceData) (st : σ) :
    g (threadSequences f st seqs).2 = g st := by
  induction seqs generalizing st with
  | nil => rfl
  | cons x xs ih =>
      rw [threadSequences]
      exact (ih _).trans (hf st x)

/-! ### The loops keep what is stable -/

section Loops

variable {P : BlockManager → Prop} (hP : Stable P)
include hP

theorem allocateFor_stable (bm : BlockManager) (x : SequenceData) (n : Nat) (h : P bm) :
    P (allocateFor bm x n).2 := by
  induction n generalizing bm x with
  | zero => exact h
  | succ n ih => exact ih _ _ (hP.allocateBlock bm _ _ h)

theorem swapInBlocks_stable (s : SeqId) (bids : List BlockId) (st : BlockManager × List BlockOp)
    (h : P st.1) : P (swapInBlocks s bids st).2.1 := by
  induction bids generalizing st with
  | nil => exact h
  | cons bid rest ih => exact ih _ (hP.allocateBlock st.1 _ _ h)

theorem swapOutBlocks_stable (s : SeqId) (bids : List BlockId) (st : BlockManager × List BlockOp)
    (h : P st.1) : P (swapOutBlocks s bids st).2.1 := by
  induction bids generalizing st with
  | nil => exact h
  | cons bid rest ih => exact ih _ (hP.freeBlock _ _ (hP.allocateBlock st.1 _ _ h))

omit hP in
/-- A loop over the sequences keeps what its body keeps. -/
theorem threadSequences_invariant {σ : Type} {f : σ → SequenceData → SequenceData × σ}
    {I : σ → Prop} (hf : ∀ st x, I st → I (f st x).2) (seqs : List SequenceData) (st : σ)
    (h : I st) : I (threadSequences f st seqs).2 := by
  induction seqs generalizing st with
  | nil => exact h
  | cons x xs ih => exact ih _ (hf st x h)

theorem appendBlocks_stable (bm : BlockManager) (seqs : List SequenceData) (h : P bm) :
    P (threadSequences appendBlocks bm seqs).2 := by
  refine threadSequences_invariant ?_ seqs bm h
  intro bm x hbm
  unfold appendBlocks
  split
  · exact hbm
  · exact allocateFor_stable hP bm x _ hbm

theorem prefillSequence_stable (n : Nat) (bm : BlockManager) (seqs : List SequenceData) (h : P bm) :
    P (threadSequences (prefillSequence n) bm seqs).2 :=
  threadSequences_invariant (fun bm _ hbm => allocateFor_stable hP bm _ n hbm) seqs bm h

theorem swapInSequence_stable (st : BlockManager × List BlockOp) (seqs : List SequenceData)
    (h : P st.1) : P (threadSequences swapInSequence st seqs).2.1 := by
  refine threadSequences_invariant (I := fun st => P st.1) ?_ seqs st h
  intro st x hst
  unfold swapInSequence
  split
  · exact hst
  · exact swapInBlocks_stable hP _ _ st hst

theorem swapOutSequence_stable (st : BlockManager × List BlockOp) (seqs : List SequenceData)
    (h : P st.1) : P (threadSequences swapOutSequence st seqs).2.1 := by
  refine threadSequences_invariant (I := fun st => P st.1) ?_ seqs st h
  intro st x hst
  unfold swapOutSequence
  split
  · exact hst
  · exact swapOutBlocks_stable hP _ _ st hst

theorem recomputeSequence_stable (bm : BlockManager) (seqs : List SequenceData) (h : P bm) :
    P (threadSequences recomputeSequence bm seqs).2 := by
  refine threadSequences_invariant ?_ seqs bm h
  intro bm x hbm
  unfold recomputeSequence
  split
  · exact hbm
  · exact hP.freeBlocks bm _ hbm

theorem abortSequence_stable (bm : BlockManager) (seqs : List SequenceData) (h : P bm) :
    P (threadSequences abortSequence bm seqs).2 := by
  refine threadSequences_invariant ?_ seqs bm h
  intro bm x hbm
  unfold abortSequence
  split
  · exact hbm
  · exact hP.freeBlocks bm _ hbm

theorem releaseGroups_stable (groups : GroupPtr → SequenceGroup) (ps : List GroupPtr)
    (bm : BlockManager) (h : P bm) : P (Scheduler.releaseGroups groups bm ps) := by
  have hseqs : ∀ (seqs : List SequenceData) (bm : BlockManager), P bm →
      P (seqs.foldl (fun bm x => bm.freeBlocks x.seqId) bm) := by
    intro seqs
    induction seqs with
    | nil => exact fun bm hbm => hbm
    | cons x xs ih => exact fun bm hbm => ih _ (hP.freeBlocks bm x.seqId hbm)
  induction ps generalizing bm with
  | nil => exact h
  | cons p rest ih => exact ih _ (hseqs _ bm h)

/-- The decode phase keeps what is stable. -/
theorem afterDecodes_stable (st : Scheduler) (h : P st.blockManager) :
    P st.afterDecodes.sched.blockManager := by
  refine st.afterDecodes_invariant (P := fun s => P s.sched.blockManager) h ?_ ?_
  · intro s p rest hs _ _ _
    exact appendBlocks_stable hP _ _ hs
  · intro s init v hs _ hrun
    rw [ScheduleState.preempt_eq hrun]
    split
    · exact swapOutSequence_stable hP _ _ hs
    · exact recomputeSequence_stable hP _ _ hs

/-- A call of `schedule()` keeps what is stable. -/
theorem afterSwapIn_stable (st : Scheduler) (h : P st.blockManager) :
    P st.afterSwapIn.sched.blockManager := by
  refine st.afterSwapIn_invariant_of (P := fun s => P s.sched.blockManager) ?_ ?_ ?_
  · obtain ⟨w, -, hw⟩ := st.afterDecodes.sched.sortWaitingQueue_eq
    rw [Scheduler.beforePrefills, hw]
    exact afterDecodes_stable hP st h
  · intro s p rest hs _ _ _
    exact prefillSequence_stable hP _ _ _ hs
  · intro s p rest hs _ _
    exact swapInSequence_stable hP _ _ hs

end Loops

/-! ### The loops where the blocks suffice -/

/-- No block of the sequence is `INVALID_BLOCK`. -/
def SequenceData.Valid (x : SequenceData) : Prop := invalidBlock ∉ x.logicalBlocks

instance (x : SequenceData) : Decidable x.Valid := inferInstanceAs (Decidable (_ ∉ _))

/-- The sequence `y` is `x` with valid blocks appended. -/
def Grown (n : Nat) (x y : SequenceData) : Prop :=
  ∃ bids : List BlockId, bids.length = n ∧ invalidBlock ∉ bids ∧
    y = { x with logicalBlocks := x.logicalBlocks ++ bids }

theorem Grown.valid {n : Nat} {x y : SequenceData} (h : Grown n x y) (hx : x.Valid) : y.Valid := by
  obtain ⟨bids, -, hbids, rfl⟩ := h
  intro hmem
  rcases List.mem_append.1 hmem with hmem | hmem
  · exact hx hmem
  · exact hbids hmem

/-- The blocks the unfinished sequences of a group are short of. -/
def groupMissing (bm : BlockManager) (seqs : List SequenceData) : Nat :=
  ((seqs.filter (fun x => !x.isFinished)).map (missingBlocks bm)).sum

theorem groupMissing_cons_unfinished {bm : BlockManager} {x : SequenceData}
    (h : x.isFinished = false) (xs : List SequenceData) :
    groupMissing bm (x :: xs) = missingBlocks bm x + groupMissing bm xs := by
  simp [groupMissing, h]

theorem groupMissing_cons_finished {bm : BlockManager} {x : SequenceData}
    (h : x.isFinished = true) (xs : List SequenceData) :
    groupMissing bm (x :: xs) = groupMissing bm xs := by
  simp [groupMissing, h]

/-- With enough blocks for all, every unfinished sequence of a running group gets what it misses. -/
theorem appendBlocks_group {bm : BlockManager} {seqs : List SequenceData} (hfree : bm.FreeInRange)
    (hle : groupMissing bm seqs ≤ (bm.freeList .cuda).length) :
    (∀ y ∈ (threadSequences appendBlocks bm seqs).1, ∃ x ∈ seqs,
      (x.isFinished = true ∧ y = x) ∨
        (x.isFinished = false ∧ Grown (missingBlocks bm x) x y)) ∧
    (threadSequences appendBlocks bm seqs).2.FreeInRange := by
  have hloop := threadSequences_forall (f := appendBlocks)
    (I := fun xs bm' => bm'.FreeInRange ∧ bm'.config = bm.config ∧
      groupMissing bm xs ≤ (bm'.freeList .cuda).length)
    (R := fun x y => (x.isFinished = true ∧ y = x) ∨
      (x.isFinished = false ∧ Grown (missingBlocks bm x) x y)) ?_ seqs bm ⟨hfree, rfl, hle⟩
  · exact ⟨hloop.1, hloop.2.1⟩
  · rintro bm' x xs ⟨hfree', hconf, hle'⟩
    by_cases hfin : x.isFinished = true
    · rw [groupMissing_cons_finished hfin] at hle'
      rw [appendBlocks, if_pos hfin]
      exact ⟨Or.inl ⟨hfin, rfl⟩, hfree', hconf, hle'⟩
    · have hfin' : x.isFinished = false := by simpa using hfin
      have hmiss : missingBlocks bm' x = missingBlocks bm x := by
        simp only [missingBlocks, blockSize, hconf]
      rw [groupMissing_cons_unfinished hfin'] at hle'
      rw [appendBlocks, if_neg hfin, hmiss]
      obtain ⟨bids, hlen, hseq, hhand⟩ := allocateFor_handed bm' x (missingBlocks bm x)
        (by omega) (hfree' .cuda)
      have hcount := hhand.length_freeList
      refine ⟨Or.inr ⟨hfin', bids, hlen, hhand.valid hfree', hseq⟩, hhand.freeInRange hfree',
        hhand.config.trans hconf, ?_⟩
      omega

/-- With enough blocks for all, every sequence of an admitted group gets `n`. -/
theorem prefillSequence_group {bm : BlockManager} {seqs : List SequenceData} {n : Nat}
    (hfree : bm.FreeInRange) (hle : n * seqs.length ≤ (bm.freeList .cuda).length) :
    (∀ y ∈ (threadSequences (prefillSequence n) bm seqs).1, ∃ x ∈ seqs,
      Grown n { x with status := .running } y) ∧
    (threadSequences (prefillSequence n) bm seqs).2.FreeInRange := by
  have hloop := threadSequences_forall (f := prefillSequence n)
    (I := fun xs bm' => bm'.FreeInRange ∧ n * xs.length ≤ (bm'.freeList .cuda).length)
    (R := fun x y => Grown n { x with status := .running } y) ?_ seqs bm ⟨hfree, hle⟩
  · exact ⟨hloop.1, hloop.2.1⟩
  · rintro bm' x xs ⟨hfree', hle'⟩
    rw [List.length_cons, Nat.mul_succ] at hle'
    obtain ⟨bids, hlen, hseq, hhand⟩ := prefillSequence_handed bm' x n (by omega) (hfree' .cuda)
    have hcount := hhand.length_freeList
    refine ⟨⟨bids, hlen, hhand.valid hfree', hseq⟩, hhand.freeInRange hfree', ?_⟩
    omega

/-- The blocks the unfinished sequences of a group list. -/
def listedIn (seqs : List SequenceData) : Nat :=
  ((seqs.filter (fun x => !x.isFinished)).map (fun x => x.logicalBlocks.length)).sum

theorem listedIn_cons_unfinished {x : SequenceData} (h : x.isFinished = false)
    (xs : List SequenceData) : listedIn (x :: xs) = x.logicalBlocks.length + listedIn xs := by
  simp [listedIn, h]

theorem listedIn_cons_finished {x : SequenceData} (h : x.isFinished = true)
    (xs : List SequenceData) : listedIn (x :: xs) = listedIn xs := by
  simp [listedIn, h]

/-- Swapping in gives every unfinished sequence as many valid blocks as it lists. -/
theorem swapInSequence_group (st : BlockManager × List BlockOp) {seqs : List SequenceData}
    (hfree : st.1.FreeInRange) (hle : listedIn seqs ≤ (st.1.freeList .cuda).length) :
    (∀ y ∈ (threadSequences swapInSequence st seqs).1, ∃ x ∈ seqs,
      (x.isFinished = true ∧ y = x) ∨ (x.isFinished = false ∧ y.Valid)) ∧
    (threadSequences swapInSequence st seqs).2.1.FreeInRange := by
  have hloop := threadSequences_forall (f := swapInSequence)
    (I := fun xs st' => st'.1.FreeInRange ∧ listedIn xs ≤ (st'.1.freeList .cuda).length)
    (R := fun x y => (x.isFinished = true ∧ y = x) ∨ (x.isFinished = false ∧ y.Valid))
    ?_ seqs st ⟨hfree, hle⟩
  · exact ⟨hloop.1, hloop.2.1⟩
  · rintro st' x xs ⟨hfree', hle'⟩
    by_cases hfin : x.isFinished = true
    · rw [listedIn_cons_finished hfin] at hle'
      rw [swapInSequence, if_pos hfin]
      exact ⟨Or.inl ⟨hfin, rfl⟩, hfree', hle'⟩
    · have hfin' : x.isFinished = false := by simpa using hfin
      rw [listedIn_cons_unfinished hfin'] at hle'
      have hhand := swapInBlocks_handed x.seqId x.logicalBlocks st' (by omega) (hfree' .cuda)
      have hcount := hhand.length_freeList
      rw [swapInBlocks_length] at hcount
      rw [swapInSequence_of_unfinished hfin']
      refine ⟨Or.inr ⟨hfin', hhand.valid hfree'⟩, hhand.freeInRange hfree', ?_⟩
      simp only
      omega

/-- Recomputation leaves the finished sequences and clears the others. -/
theorem recomputeSequence_group (bm : BlockManager) (seqs : List SequenceData) (h : bm.FreeInRange) :
    (∀ y ∈ (threadSequences recomputeSequence bm seqs).1, ∃ x ∈ seqs,
      y = x ∨ y.logicalBlocks = []) ∧
    (threadSequences recomputeSequence bm seqs).2.FreeInRange := by
  refine threadSequences_forall (f := recomputeSequence) (I := fun _ bm' => bm'.FreeInRange)
    (R := fun x y => y = x ∨ y.logicalBlocks = []) ?_ seqs bm h
  intro bm' x _ hbm'
  unfold recomputeSequence
  split
  · exact ⟨Or.inl rfl, hbm'⟩
  · exact ⟨Or.inr rfl, hbm'.freeBlocks _⟩

/-- An abort keeps the blocks of every sequence and leaves none unfinished. -/
theorem abortSequence_group (bm : BlockManager) (seqs : List SequenceData) (h : bm.FreeInRange) :
    (∀ y ∈ (threadSequences abortSequence bm seqs).1, ∃ x ∈ seqs,
      y.isFinished = true ∧ y.logicalBlocks = x.logicalBlocks) ∧
    (threadSequences abortSequence bm seqs).2.FreeInRange := by
  refine threadSequences_forall (f := abortSequence) (I := fun _ bm' => bm'.FreeInRange)
    (R := fun x y => y.isFinished = true ∧ y.logicalBlocks = x.logicalBlocks) ?_ seqs bm h
  intro bm' x _ hbm'
  unfold abortSequence
  split
  · next hfin => exact ⟨⟨hfin, rfl⟩, hbm'⟩
  · exact ⟨⟨rfl, rfl⟩, hbm'.freeBlocks _⟩

/-! ## Checks and visits -/

namespace Scheduler

open ScheduleState

/-- The groups the decode loop checks, each with the state it is checked in. -/
def decodeVisits : List GroupPtr → ScheduleState → List (ScheduleState × GroupPtr)
  | [], _ => []
  | p :: rest, s =>
    if (s.sched.groups p).allFinished then decodeVisits rest s
    else (s, p) :: if s.decodeFits p then decodeVisits rest (s.decodeGroup p) else []

/-- The groups the prefill loop checks, each with the state it is checked in. -/
def prefillVisits : List GroupPtr → ScheduleState → List (ScheduleState × GroupPtr)
  | [], _ => []
  | p :: rest, s =>
    (s, p) :: if s.prefillFits p then prefillVisits rest (s.admitGroup p rest) else []

/-- The free blocks suffice for all unfinished sequences of a running group. -/
def DecodeSuffices (s : ScheduleState) (p : GroupPtr) : Prop :=
  groupMissing s.sched.blockManager (s.sched.groups p).sequences
    ≤ (s.sched.blockManager.freeList .cuda).length

/-- The free blocks suffice for all sequences of a waiting group. -/
def PrefillSuffices (s : ScheduleState) (p : GroupPtr) : Prop :=
  (((s.sched.groups p).sequences.map
      (fun x => x.numBlocksNeeded s.sched.blockManager.blockSize)).sum)
    ≤ (s.sched.blockManager.freeList .cuda).length

/-- The blocks of the first sequence, taken once for each sequence, are enough for each of them and
    are there. -/
def FirstSuffices (s : ScheduleState) (p : GroupPtr) : Prop :=
  prefillBlocks s.sched.blockManager (s.sched.groups p) * (s.sched.groups p).sequences.length
      ≤ (s.sched.blockManager.freeList .cuda).length ∧
  ∀ x ∈ (s.sched.groups p).sequences, x.numBlocksNeeded s.sched.blockManager.blockSize
    ≤ x.logicalBlocks.length + prefillBlocks s.sched.blockManager (s.sched.groups p)

/-- Every group that passes its check in the call starting in `st` finds enough blocks for all its
    sequences, and an admitted one gets enough by what its first sequence needs. -/
structure Suffices (st : Scheduler) : Prop where
  decodes : ∀ v ∈ decodeVisits st.running st.beginSchedule, v.1.decodeFits v.2 →
    DecodeSuffices v.1 v.2
  prefills : ∀ v ∈ st.admissions, PrefillSuffices v.1 v.2 ∧ FirstSuffices v.1 v.2

/-- Every unfinished sequence of the group has the blocks it needs, and no invalid one. -/
def Provided (st : Scheduler) (p : GroupPtr) : Prop :=
  ∀ x ∈ (st.groups p).sequences, x.isFinished = false →
    x.numBlocksNeeded st.blockManager.blockSize ≤ x.logicalBlocks.length ∧ x.Valid

/-! ## The invariant -/

/-- No group is queued twice, and the tables of the groups that run or wait are valid. While a group is
    swapped its table may be anything: it is rewritten when the group comes back. -/
structure Tables (st : Scheduler) : Prop where
  nodup : st.queued.Nodup
  stored : ∀ p ∈ st.queued, p < st.next
  free : st.blockManager.FreeInRange
  running : ∀ p ∈ st.running, ∀ x ∈ (st.groups p).sequences, x.isFinished = false → x.Valid
  waiting : ∀ p ∈ st.waiting, ∀ x ∈ (st.groups p).sequences, x.Valid
  recompute : st.config.preemptionMode = .recompute →
    st.swapped = [] ∧ ∀ p ∈ st.running, ∀ x ∈ (st.groups p).sequences, x.Valid

namespace Tables

variable {st : Scheduler} {p q : GroupPtr}

theorem queues (h : st.Tables) : st.QueuesDisjoint := h.nodup

/-- **Moving one group.** The sequences of `p` are rewritten and `p` changes queues. -/
theorem put (h : st.Tables) {xs : List SequenceData} {bm : BlockManager}
    {running waiting swapped : List GroupPtr}
    (hq : (running ++ (waiting ++ swapped)).Perm st.queued) (hfree : bm.FreeInRange)
    (hrun : ∀ q ∈ running, q ≠ p → q ∈ st.running) (hwait : ∀ q ∈ waiting, q ≠ p → q ∈ st.waiting)
    (hpr : p ∈ running → ∀ x ∈ xs, x.isFinished = false → x.Valid)
    (hpw : p ∈ waiting → ∀ x ∈ xs, x.Valid)
    (hrec : st.config.preemptionMode = .recompute →
      swapped = [] ∧ (p ∈ running → ∀ x ∈ xs, x.Valid)) :
    { st.putSequences p xs bm with
      running := running, waiting := waiting, swapped := swapped }.Tables := by
  have hother : ∀ q, q ≠ p → (st.putSequences p xs bm).groups q = st.groups q := fun q hqp => by
    simp [putSequences, hqp]
  have hself : ((st.putSequences p xs bm).groups p).sequences = xs := by simp [putSequences]
  refine ⟨hq.nodup_iff.2 h.nodup, fun q hmem => h.stored q (hq.mem_iff.1 hmem), hfree, ?_, ?_, ?_⟩
  · intro q hqr x hx hfin
    by_cases hqp : q = p
    · subst hqp
      exact hpr hqr x (hself ▸ hx) hfin
    · exact h.running q (hrun q hqr hqp) x (hother q hqp ▸ hx) hfin
  · intro q hqw x hx
    by_cases hqp : q = p
    · subst hqp
      exact hpw hqw x (hself ▸ hx)
    · exact h.waiting q (hwait q hqw hqp) x (hother q hqp ▸ hx)
  · intro hmode
    refine ⟨(hrec hmode).1, ?_⟩
    intro q hqr x hx
    by_cases hqp : q = p
    · subst hqp
      exact (hrec hmode).2 hqr x (hself ▸ hx)
    · exact (h.recompute hmode).2 q (hrun q hqr hqp) x (hother q hqp ▸ hx)

end Tables

/-! ## The moves of a scheduling step -/

theorem Provided.of_groups {st st' : Scheduler} {p : GroupPtr} (h : st.Provided p)
    (hg : st'.groups p = st.groups p)
    (hconf : st'.blockManager.config = st.blockManager.config) : st'.Provided p := by
  intro x hx hfin
  rw [hg] at hx
  rw [blockSize, hconf]
  exact h x hx hfin

/-- What holds at every point of a call starting in `st`. -/
structure MidCall (st : Scheduler) (s : ScheduleState) : Prop where
  tables : s.sched.Tables
  cache : s.sched.blockManager.config = st.blockManager.config
  mode : s.sched.config = st.config
  scheduled : ∀ q ∈ s.output.scheduledGroups, q ∈ s.sched.running ∧ s.sched.Provided q

namespace MidCall

variable {st : Scheduler} {s : ScheduleState} {p : GroupPtr} {rest : List GroupPtr}

/-- A move of `p` that leaves the other scheduled groups in the running queue. -/
theorem scheduled_of_move {s' : ScheduleState} (h : st.MidCall s)
    (hconf : s'.sched.blockManager.config = s.sched.blockManager.config)
    (hother : ∀ q, q ≠ p → s'.sched.groups q = s.sched.groups q)
    (hout : ∀ q ∈ s'.output.scheduledGroups, q ≠ p → q ∈ s.output.scheduledGroups)
    (hrun : ∀ q ∈ s.output.scheduledGroups, q ≠ p → q ∈ s'.sched.running)
    (hp : p ∈ s'.output.scheduledGroups → p ∈ s'.sched.running ∧ s'.sched.Provided p) :
    ∀ q ∈ s'.output.scheduledGroups, q ∈ s'.sched.running ∧ s'.sched.Provided q := by
  intro q hq
  by_cases hqp : q = p
  · subst hqp
    exact hp hq
  · have hold := hout q hq hqp
    exact ⟨hrun q hold hqp, (h.scheduled q hold).2.of_groups (hother q hqp) hconf⟩

theorem decodeGroup (h : st.MidCall s) (hp : p ∈ s.sched.running) (hsuff : DecodeSuffices s p) :
    st.MidCall (s.decodeGroup p) := by
  obtain ⟨hgrown, hfree⟩ := appendBlocks_group h.tables.free hsuff
  have hconf : (threadSequences appendBlocks s.sched.blockManager
      (s.sched.groups p).sequences).2.config = s.sched.blockManager.config :=
    threadSequences_keeps BlockManager.config (fun bm x => appendBlocks_config bm x) _ _
  have hvalid : ∀ y ∈ (threadSequences appendBlocks s.sched.blockManager
      (s.sched.groups p).sequences).1, y.isFinished = false → y.Valid := by
    intro y hy hfin
    obtain ⟨x, hx, ⟨hxfin, rfl⟩ | ⟨hxfin, hgrow⟩⟩ := hgrown y hy
    · rw [hxfin] at hfin
      cases hfin
    · exact hgrow.valid (h.tables.running p hp x hx hxfin)
  refine ⟨?_, hconf.trans h.cache, h.mode, ?_⟩
  · refine h.tables.put (List.Perm.refl _) hfree (fun q hq _ => hq) (fun q hq _ => hq)
      (fun _ => hvalid) (fun hpw => absurd hpw (h.tables.queues.disjoint_running_waiting hp)) ?_
    intro hmode
    obtain ⟨hnil, hall⟩ := h.tables.recompute hmode
    refine ⟨hnil, ?_⟩
    intro _ y hy
    obtain ⟨x, hx, ⟨-, rfl⟩ | ⟨-, hgrow⟩⟩ := hgrown y hy
    · exact hall p hp y hx
    · exact hgrow.valid (hall p hp x hx)
  · refine h.scheduled_of_move (p := p) hconf (fun q hqp => ?_) (fun q hq hqp => ?_)
      (fun q hq _ => (h.scheduled q hq).1) (fun _ => ⟨hp, ?_⟩)
    · simp [ScheduleState.decodeGroup, charge, putSequences, hqp]
    · exact mem_of_mem_concat hq hqp
    · intro y hy hfin
      have hy' : y ∈ (threadSequences appendBlocks s.sched.blockManager
          (s.sched.groups p).sequences).1 := by
        simpa [ScheduleState.decodeGroup, charge, putSequences] using hy
      refine ⟨?_, hvalid y hy' hfin⟩
      have hbs : (s.decodeGroup p).sched.blockManager.blockSize = s.sched.blockManager.blockSize :=
        congrArg CacheConfig.blockSize hconf
      obtain ⟨x, -, ⟨hxfin, rfl⟩ | ⟨-, bids, hlen, -, rfl⟩⟩ := hgrown y hy'
      · rw [hxfin] at hfin
        cases hfin
      · rw [hbs]
        show x.numBlocksNeeded _ ≤ (x.logicalBlocks ++ bids).length
        rw [List.length_append, hlen, missingBlocks]
        omega

/-- Preemption of the last running group, which has not been scheduled. -/
theorem preempt (h : st.MidCall s) {init : List GroupPtr} {v : GroupPtr}
    (hv : s.sched.running = init ++ [v]) (hnot : v ∉ s.output.scheduledGroups) :
    st.MidCall s.preempt ∧ s.preempt.sched.running = init ∧
      ∀ q, q ≠ v → s.preempt.sched.groups q = s.sched.groups q := by
  have hpinit : v ∉ init := h.tables.queues.not_mem_init hv
  have hmem : ∀ q ∈ init, q ∈ s.sched.running := fun q hq => by
    rw [hv]
    exact List.mem_append_left _ hq
  have hsched : ∀ q ∈ s.output.scheduledGroups, q ≠ v → q ∈ init := fun q hq hqv => by
    have hr := (h.scheduled q hq).1
    rw [hv] at hr
    exact mem_of_mem_concat hr hqv
  rw [preempt_eq hv]
  cases hmode : s.sched.config.preemptionMode with
  | swap =>
      have hfree := swapOutSequence_stable freeInRange_stable
        (s.sched.blockManager, s.output.blockSwapsOut) (s.sched.groups v).sequences h.tables.free
      have hconf : (threadSequences swapOutSequence (s.sched.blockManager, s.output.blockSwapsOut)
          (s.sched.groups v).sequences).2.1.config = s.sched.blockManager.config :=
        threadSequences_keeps (fun st => st.1.config) (fun st x => swapOutSequence_config st x) _ _
      have hother : ∀ q, q ≠ v → (s.swapOutGroup v init).sched.groups q = s.sched.groups q :=
        fun q hqv => by simp [swapOutGroup, putSequences, hqv]
      refine ⟨⟨?_, hconf.trans h.cache, h.mode, ?_⟩, rfl, hother⟩
      · refine h.tables.put (p := v) ?_ hfree (fun q hq _ => hmem q hq) (fun q hq _ => hq)
          (fun hin => absurd hin hpinit) (fun hpw => ?_) (fun hrec => ?_)
        · rw [queued, hv]
          exact perm_swapOut _ _ _ _
        · exact absurd hpw (h.tables.queues.disjoint_running_waiting (by rw [hv]; simp))
        · rw [hmode] at hrec
          cases hrec
      · exact h.scheduled_of_move (p := v) hconf hother (fun q hq _ => hq) hsched
          (fun hin => absurd hin hnot)
  | recompute =>
      obtain ⟨hcleared, hfree⟩ := recomputeSequence_group s.sched.blockManager
        (s.sched.groups v).sequences h.tables.free
      have hconf : (threadSequences recomputeSequence s.sched.blockManager
          (s.sched.groups v).sequences).2.config = s.sched.blockManager.config :=
        threadSequences_keeps BlockManager.config (fun bm x => recomputeSequence_config bm x) _ _
      have hother : ∀ q, q ≠ v → (s.recomputeGroup v init).sched.groups q = s.sched.groups q :=
        fun q hqv => by simp [recomputeGroup, putSequences, hqv]
      obtain ⟨hnil, hall⟩ := h.tables.recompute hmode
      refine ⟨⟨?_, hconf.trans h.cache, h.mode, ?_⟩, rfl, hother⟩
      · refine h.tables.put (p := v) (List.Perm.of_eq ?_) hfree (fun q hq _ => hmem q hq)
          (fun q hq hqv => ?_) (fun hin => absurd hin hpinit) (fun _ y hy => ?_)
          (fun _ => ⟨hnil, fun hin => absurd hin hpinit⟩)
        · rw [queued, hv]
          simp [putSequences]
        · exact (List.mem_cons.1 hq).resolve_left hqv
        · obtain ⟨x, hx, rfl | hempty⟩ := hcleared y hy
          · exact hall v (by rw [hv]; simp) y hx
          · rw [SequenceData.Valid, hempty]
            exact List.not_mem_nil
      · exact h.scheduled_of_move (p := v) hconf hother (fun q hq _ => hq) hsched
          (fun hin => absurd hin hnot)

theorem admitGroup (h : st.MidCall s) (hwait : s.sched.waiting = p :: rest)
    (hsuff : FirstSuffices s p) : st.MidCall (s.admitGroup p rest) := by
  have hpw : p ∈ s.sched.waiting := by rw [hwait]; exact List.mem_cons_self ..
  obtain ⟨hgrown, hfree⟩ := prefillSequence_group h.tables.free hsuff.1
  have hconf : (threadSequences (prefillSequence (prefillBlocks s.sched.blockManager
      (s.sched.groups p))) s.sched.blockManager (s.sched.groups p).sequences).2.config
      = s.sched.blockManager.config :=
    threadSequences_keeps BlockManager.config (fun bm x => prefillSequence_config _ bm x) _ _
  have hvalid : ∀ y ∈ (threadSequences (prefillSequence (prefillBlocks s.sched.blockManager
      (s.sched.groups p))) s.sched.blockManager (s.sched.groups p).sequences).1, y.Valid := by
    intro y hy
    obtain ⟨x, hx, hgrow⟩ := hgrown y hy
    exact hgrow.valid (h.tables.waiting p hpw x hx)
  have hother : ∀ q, q ≠ p → (s.admitGroup p rest).sched.groups q = s.sched.groups q :=
    fun q hqp => by simp [ScheduleState.admitGroup, charge, putSequences, hqp]
  refine ⟨?_, hconf.trans h.cache, h.mode, ?_⟩
  · refine h.tables.put (List.Perm.of_eq ?_) hfree (fun q hq hqp => mem_of_mem_concat hq hqp)
      (fun q hq _ => ?_) (fun _ y hy _ => hvalid y hy) (fun _ => hvalid) (fun hmode => ?_)
    · rw [queued, hwait]
      simp [putSequences]
    · rw [hwait]
      exact List.mem_cons_of_mem _ hq
    · exact ⟨(h.tables.recompute hmode).1, fun _ => hvalid⟩
  · refine h.scheduled_of_move (p := p) hconf hother (fun q hq hqp => mem_of_mem_concat hq hqp)
      (fun q hq _ => List.mem_append_left _ (h.scheduled q hq).1)
      (fun _ => ⟨List.mem_append_right _ (List.mem_singleton_self p), ?_⟩)
    intro y hy hfin
    have hy' : y ∈ (threadSequences (prefillSequence (prefillBlocks s.sched.blockManager
        (s.sched.groups p))) s.sched.blockManager (s.sched.groups p).sequences).1 := by
      simpa [ScheduleState.admitGroup, charge, putSequences] using hy
    refine ⟨?_, hvalid y hy'⟩
    have hbs : (s.admitGroup p rest).sched.blockManager.blockSize
        = s.sched.blockManager.blockSize := congrArg CacheConfig.blockSize hconf
    obtain ⟨x, hx, bids, hlen, -, rfl⟩ := hgrown y hy'
    rw [hbs]
    show x.numBlocksNeeded _ ≤ (x.logicalBlocks ++ bids).length
    rw [List.length_append, hlen]
    exact hsuff.2 x hx

theorem swapInGroup (h : st.MidCall s) (hswap : s.sched.swapped = p :: rest)
    (hfits : s.swapInFits p) : st.MidCall (s.swapInGroup p rest) := by
  have hps : p ∈ s.sched.swapped := by rw [hswap]; exact List.mem_cons_self ..
  have hpr : p ∉ s.sched.running := fun hr => h.tables.queues.disjoint_running_swapped hr hps
  obtain ⟨hback, hfree⟩ := swapInSequence_group (s.sched.blockManager, s.output.blockSwapsIn)
    h.tables.free (of_decide_eq_true hfits.2.2)
  have hconf : (threadSequences swapInSequence (s.sched.blockManager, s.output.blockSwapsIn)
      (s.sched.groups p).sequences).2.1.config = s.sched.blockManager.config :=
    threadSequences_keeps (fun st => st.1.config) (fun st x => swapInSequence_config st x) _ _
  have hother : ∀ q, q ≠ p → (s.swapInGroup p rest).sched.groups q = s.sched.groups q :=
    fun q hqp => by simp [ScheduleState.swapInGroup, charge, putSequences, hqp]
  refine ⟨?_, hconf.trans h.cache, h.mode, ?_⟩
  · refine h.tables.put (p := p) ?_ hfree (fun q hq hqp => mem_of_mem_concat hq hqp)
      (fun q hq _ => hq) (fun _ y hy hfin => ?_)
      (fun hpw => absurd hps (h.tables.queues.disjoint_waiting_swapped hpw)) (fun hmode => ?_)
    · rw [queued, hswap]
      exact perm_swapIn _ _ _ _
    · obtain ⟨x, -, ⟨hxfin, rfl⟩ | ⟨-, hvalid⟩⟩ := hback y hy
      · rw [hxfin] at hfin
        cases hfin
      · exact hvalid
    · rw [(h.tables.recompute hmode).1] at hswap
      cases hswap
  · exact h.scheduled_of_move (p := p) hconf hother (fun q hq _ => hq)
      (fun q hq _ => List.mem_append_left _ (h.scheduled q hq).1)
      (fun hin => absurd (h.scheduled p hin).1 hpr)

theorem sorted (h : st.MidCall s) {w : List GroupPtr} (hperm : w.Perm s.sched.waiting) :
    st.MidCall { s with sched := { s.sched with waiting := w } } := by
  have hqueued : (s.sched.running ++ (w ++ s.sched.swapped)).Perm s.sched.queued :=
    List.Perm.append_left _ (List.Perm.append_right _ hperm)
  refine ⟨⟨hqueued.nodup_iff.2 h.tables.nodup, fun q hq => h.tables.stored q (hqueued.mem_iff.1 hq),
    h.tables.free, h.tables.running, fun q hq => h.tables.waiting q (hperm.mem_iff.1 hq),
    h.tables.recompute⟩, h.cache, h.mode, h.scheduled⟩

end MidCall

/-! ## The phases -/

/-- A check that fails ends the decode loop. -/
theorem decodeLoop_of_visit {v : ScheduleState × GroupPtr} (l : List GroupPtr) (s : ScheduleState)
    (hv : v ∈ decodeVisits l s) (hfits : ¬ v.1.decodeFits v.2) : decodeLoop l s = (v.1, true) := by
  induction l generalizing s with
  | nil => exact absurd hv List.not_mem_nil
  | cons p rest ih =>
      rw [decodeVisits] at hv
      rw [decodeLoop]
      split
      · next hfin =>
          rw [if_pos hfin] at hv
          exact ih s hv
      · next hfin =>
          rw [if_neg hfin] at hv
          rcases List.mem_cons.1 hv with rfl | hv
          · rw [if_neg hfits]
          · split
            · next hp =>
                rw [if_pos hp] at hv
                exact ih _ hv
            · next hp =>
                rw [if_neg hp] at hv
                exact absurd hv List.not_mem_nil

/-- A group is checked in the decode phase as the call found it. -/
theorem groups_of_visit {v : ScheduleState × GroupPtr} (l : List GroupPtr) (s : ScheduleState)
    (hnodup : l.Nodup) (hv : v ∈ decodeVisits l s) :
    v.2 ∈ l ∧ v.1.sched.groups v.2 = s.sched.groups v.2 := by
  induction l generalizing s with
  | nil => exact absurd hv List.not_mem_nil
  | cons p rest ih =>
      obtain ⟨hp, hrest⟩ := List.nodup_cons.1 hnodup
      rw [decodeVisits] at hv
      split at hv
      · obtain ⟨hmem, hgroup⟩ := ih s hrest hv
        exact ⟨List.mem_cons_of_mem _ hmem, hgroup⟩
      · rcases List.mem_cons.1 hv with rfl | hv
        · exact ⟨List.mem_cons_self .., rfl⟩
        · split at hv
          · obtain ⟨hmem, hgroup⟩ := ih _ hrest hv
            have hne : v.2 ≠ p := fun heq => hp (heq ▸ hmem)
            refine ⟨List.mem_cons_of_mem _ hmem, hgroup.trans ?_⟩
            simp [ScheduleState.decodeGroup, charge, putSequences, hne]
          · exact absurd hv List.not_mem_nil

/-- A check that fails ends the prefill loop. -/
theorem prefillLoop_of_visit {v : ScheduleState × GroupPtr} (l : List GroupPtr) (s : ScheduleState)
    (hs : s.sched.waiting = l) (hv : v ∈ prefillVisits l s) (hfits : ¬ v.1.prefillFits v.2) :
    prefillLoop l s = v.1 ∧ v.2 ∈ v.1.sched.waiting := by
  induction l generalizing s with
  | nil => exact absurd hv List.not_mem_nil
  | cons p rest ih =>
      rw [prefillVisits] at hv
      rw [prefillLoop]
      rcases List.mem_cons.1 hv with rfl | hv
      · rw [if_neg hfits]
        exact ⟨rfl, by rw [hs]; exact List.mem_cons_self ..⟩
      · split
        · next hp =>
            rw [if_pos hp] at hv
            exact ih _ rfl hv
        · next hp =>
            rw [if_neg hp] at hv
            exact absurd hv List.not_mem_nil

theorem mem_admissions_of_visit {v : ScheduleState × GroupPtr} (l : List GroupPtr)
    (s : ScheduleState) (hv : v ∈ prefillVisits l s) (hfits : v.1.prefillFits v.2) :
    v ∈ prefillAdmissions l s := by
  induction l generalizing s with
  | nil => exact absurd hv List.not_mem_nil
  | cons p rest ih =>
      rw [prefillVisits] at hv
      rw [prefillAdmissions]
      rcases List.mem_cons.1 hv with rfl | hv
      · rw [if_pos hfits]
        exact List.mem_cons_self ..
      · split
        · next hp =>
            rw [if_pos hp] at hv
            exact List.mem_cons_of_mem _ (ih _ hv)
        · next hp =>
            rw [if_neg hp] at hv
            exact absurd hv List.not_mem_nil

theorem Tables.begin_midCall {st : Scheduler} (h : st.Tables) : st.MidCall st.beginSchedule :=
  ⟨h, rfl, rfl, fun _ hq => absurd hq List.not_mem_nil⟩

/-- **Rule for the decode loop.** A property that growing a group preserves, in the state the group is
    checked in, holds when the loop ends. -/
theorem decodeLoop_visits {P : ScheduleState → Prop} (st : Scheduler) (hbegin : P st.beginSchedule)
    (hdecode : ∀ s p, P s → (s, p) ∈ decodeVisits st.running st.beginSchedule →
      p ∈ s.sched.running → s.decodeFits p → P (s.decodeGroup p)) :
    P (decodeLoop st.running st.beginSchedule).1 := by
  have hrule := decodeLoop_induct
    (P := fun l s => P s ∧ st.DecodesAt l s ∧
      ∀ v ∈ decodeVisits l s, v ∈ decodeVisits st.running st.beginSchedule) ?_ ?_
    st.running st.beginSchedule ⟨hbegin, DecodesAt.begin st, fun _ hv => hv⟩
  · rcases hrule with ⟨-, hend⟩ | ⟨-, p, rest, hend, -⟩
    · exact hend.1
    · exact hend.1
  · rintro p rest s hfin ⟨hs, hat, hvisits⟩
    rw [decodeVisits, if_pos hfin] at hvisits
    exact ⟨hs, hat.skip, hvisits⟩
  · rintro p rest s hfin hfits ⟨hs, hat, hvisits⟩
    rw [decodeVisits, if_neg (by simp [hfin]), if_pos hfits] at hvisits
    refine ⟨hdecode s p hs (hvisits (s, p) (List.mem_cons_self ..)) hat.mem_running hfits,
      hat.decode, ?_⟩
    intro v hv
    exact hvisits v (List.mem_cons_of_mem _ hv)

/-- The decode loop of a call whose groups find enough blocks. -/
theorem decodeLoop_midCall {st : Scheduler} (h : st.Tables) (hsuff : st.Suffices) :
    st.MidCall (decodeLoop st.running st.beginSchedule).1 := by
  refine st.decodeLoop_visits (P := st.MidCall) h.begin_midCall ?_
  intro s p hs hvisit hp hfits
  exact hs.decodeGroup hp (hsuff.decodes (s, p) hvisit hfits)

theorem beforePrefills_midCall {st : Scheduler} (h : st.Tables) (hsuff : st.Suffices) :
    st.MidCall st.beforePrefills := by
  have hdecodes : st.MidCall st.afterDecodes := st.afterDecodes_of_loop (decodeLoop_midCall h hsuff)
    (fun s init v hs hat hv => (hs.preempt hv (hat.victim_not_scheduled h.queues.nodup_running hv)).1)
  obtain ⟨w, hperm, hw⟩ := st.afterDecodes.sched.sortWaitingQueue_eq
  rw [beforePrefills, hw]
  exact hdecodes.sorted hperm

theorem afterPrefills_midCall {st : Scheduler} (h : st.Tables) (hsuff : st.Suffices) :
    st.MidCall st.afterPrefills :=
  st.afterPrefills_invariant (beforePrefills_midCall h hsuff)
    (fun _ _ _ hs hadm hwait _ => hs.admitGroup hwait (hsuff.prefills _ hadm).2)

theorem afterSwapIn_midCall {st : Scheduler} (h : st.Tables) (hsuff : st.Suffices) :
    st.MidCall st.afterSwapIn :=
  st.afterSwapIn_of_prefills (afterPrefills_midCall h hsuff)
    (fun _ _ _ hs hswap hfits => hs.swapInGroup hswap hfits)

/-- A group that runs when the prefill phase starts is not touched any more. -/
theorem running_kept {st : Scheduler} (h : st.Tables) (hsuff : st.Suffices) {q : GroupPtr}
    (hq : q ∈ st.beforePrefills.sched.running) :
    st.afterSwapIn.sched.groups q = st.beforePrefills.sched.groups q := by
  refine (st.afterSwapIn_invariant_of (P := fun s => st.MidCall s ∧ q ∈ s.sched.running ∧
    s.sched.groups q = st.beforePrefills.sched.groups q)
    ⟨beforePrefills_midCall h hsuff, hq, rfl⟩ ?_ ?_).2.2
  · rintro s p rest ⟨hs, hrun, hgroup⟩ hadm hwait _
    have hqp : q ≠ p := by
      rintro rfl
      exact hs.tables.queues.disjoint_running_waiting hrun (by rw [hwait]; exact List.mem_cons_self ..)
    refine ⟨hs.admitGroup hwait (hsuff.prefills _ hadm).2, List.mem_append_left _ hrun, ?_⟩
    rw [← hgroup]
    simp [ScheduleState.admitGroup, charge, putSequences, hqp]
  · rintro s p rest ⟨hs, hrun, hgroup⟩ hswap hfits
    have hqp : q ≠ p := by
      rintro rfl
      exact hs.tables.queues.disjoint_running_swapped hrun (by rw [hswap]; exact List.mem_cons_self ..)
    refine ⟨hs.swapInGroup hswap hfits, List.mem_append_left _ hrun, ?_⟩
    rw [← hgroup]
    simp [ScheduleState.swapInGroup, charge, putSequences, hqp]

/-- A group that waits when the prefill phase ends is not touched any more. -/
theorem waiting_kept {st : Scheduler} (h : st.Tables) (hsuff : st.Suffices) {q : GroupPtr}
    (hq : q ∈ st.afterPrefills.sched.waiting) :
    q ∈ st.afterSwapIn.sched.waiting ∧
      st.afterSwapIn.sched.groups q = st.afterPrefills.sched.groups q := by
  refine (st.afterSwapIn_of_prefills (P := fun s => st.MidCall s ∧ q ∈ s.sched.waiting ∧
    s.sched.groups q = st.afterPrefills.sched.groups q)
    ⟨afterPrefills_midCall h hsuff, hq, rfl⟩ ?_).2
  rintro s p rest ⟨hs, hwait, hgroup⟩ hswap hfits
  have hqp : q ≠ p := by
    rintro rfl
    exact hs.tables.queues.disjoint_waiting_swapped hwait (by rw [hswap]; exact List.mem_cons_self ..)
  refine ⟨hs.swapInGroup hswap hfits, hwait, ?_⟩
  rw [← hgroup]
  simp [ScheduleState.swapInGroup, charge, putSequences, hqp]

/-! ## The other operations -/

/-- Rewriting groups so that tables stay and nothing finished becomes unfinished. -/
theorem Tables.of_groups {st st' : Scheduler} (h : st.Tables) (hqueues : st'.running = st.running ∧
      st'.waiting = st.waiting ∧ st'.swapped = st.swapped) (hnext : st'.next = st.next)
    (hconf : st'.config = st.config) (hfree : st'.blockManager.FreeInRange)
    (hgroups : ∀ p, ∀ y ∈ (st'.groups p).sequences, ∃ x ∈ (st.groups p).sequences,
      y.logicalBlocks = x.logicalBlocks ∧ (x.isFinished = true → y.isFinished = true)) :
    st'.Tables := by
  obtain ⟨hrun, hwait, hswap⟩ := hqueues
  have hvalid : ∀ {x y : SequenceData}, y.logicalBlocks = x.logicalBlocks → x.Valid → y.Valid :=
    fun {x y} heq hx => by
      rw [SequenceData.Valid, heq]
      exact hx
  refine ⟨?_, ?_, hfree, ?_, ?_, ?_⟩
  · rw [queued, hrun, hwait, hswap]
    exact h.nodup
  · rw [queued, hrun, hwait, hswap, hnext]
    exact h.stored
  · intro p hp y hy hfin
    obtain ⟨x, hx, hblocks, hkeep⟩ := hgroups p y hy
    have hxfin : x.isFinished = false := by
      by_contra hxfin
      rw [hkeep (by simpa using hxfin)] at hfin
      cases hfin
    exact hvalid hblocks (h.running p (hrun ▸ hp) x hx hxfin)
  · intro p hp y hy
    obtain ⟨x, hx, hblocks, -⟩ := hgroups p y hy
    exact hvalid hblocks (h.waiting p (hwait ▸ hp) x hx)
  · intro hmode
    obtain ⟨hnil, hall⟩ := h.recompute (hconf ▸ hmode)
    refine ⟨hswap.trans hnil, ?_⟩
    intro p hp y hy
    obtain ⟨x, hx, hblocks, -⟩ := hgroups p y hy
    exact hvalid hblocks (hall p (hrun ▸ hp) x hx)

/-- A request as its client builds it: at least one sequence, none of them started. -/
def Unstarted (group : SequenceGroup) : Prop :=
  group.sequences ≠ [] ∧ ∀ x ∈ group.sequences,
    x.outputTokens = [] ∧ x.logicalBlocks = [] ∧ x.status = .waiting

instance (group : SequenceGroup) : Decidable (Unstarted group) :=
  inferInstanceAs (Decidable (_ ∧ _))

theorem Tables.addRequest {st : Scheduler} (h : st.Tables) {group : SequenceGroup}
    (hgroup : Unstarted group) : (st.addRequest group).Tables := by
  have hperm := st.addRequest_queued group
  have hold : ∀ p ∈ st.queued, (st.addRequest group).groups p = st.groups p :=
    fun p hp => st.groups_addRequest_of_lt group (h.stored p hp)
  refine ⟨?_, ?_, h.free, ?_, ?_, ?_⟩
  · refine hperm.nodup_iff.2 (List.nodup_cons.2 ⟨?_, h.nodup⟩)
    exact fun hmem => Nat.lt_irrefl _ (h.stored _ hmem)
  · intro p hp
    rcases List.mem_cons.1 (hperm.mem_iff.1 hp) with rfl | hp
    · exact Nat.lt_succ_self _
    · exact Nat.lt_succ_of_lt (h.stored p hp)
  · intro p hp
    rw [hold p (WellFormed.mem_running hp)]
    exact h.running p hp
  · intro p hp x hx
    rcases List.mem_append.1 hp with hp | hp
    · rw [hold p (WellFormed.mem_waiting hp)] at hx
      exact h.waiting p hp x hx
    · rw [List.mem_singleton.1 hp, groups_addRequest_self] at hx
      rw [SequenceData.Valid, (hgroup.2 x hx).2.1]
      exact List.not_mem_nil
  · intro hmode
    refine ⟨(h.recompute hmode).1, ?_⟩
    intro p hp
    rw [hold p (WellFormed.mem_running hp)]
    exact (h.recompute hmode).2 p hp

theorem Tables.abortRequest {st : Scheduler} (h : st.Tables) (id : SeqId) :
    (st.abortRequest id).Tables := by
  unfold Scheduler.abortRequest
  split
  · exact h
  · next p _ =>
      obtain ⟨habort, hfree⟩ := abortSequence_group st.blockManager (st.groups p).sequences h.free
      refine h.of_groups ⟨rfl, rfl, rfl⟩ rfl rfl hfree ?_
      intro q y hy
      by_cases hqp : q = p
      · subst hqp
        obtain ⟨x, hx, hfin, hblocks⟩ := habort y (by simpa [putSequences] using hy)
        exact ⟨x, hx, hblocks, fun _ => hfin⟩
      · exact ⟨y, by simpa [putSequences, hqp] using hy, rfl, fun hfin => hfin⟩

theorem updateSequences_extends (maxTokens : Int) (now : TimePoint) (seqs : List SequenceData)
    (first : Option TimePoint) (toks : List TokenId) :
    ∀ y ∈ (BatchManager.updateSequences maxTokens now seqs first toks).1, ∃ x ∈ seqs, Extends x y := by
  induction seqs generalizing first toks with
  | nil => exact fun y hy => absurd hy List.not_mem_nil
  | cons x xs ih =>
      intro y hy
      by_cases hfin : x.isFinished = true
      · simp only [BatchManager.updateSequences, hfin, if_true] at hy
        rcases List.mem_cons.1 hy with rfl | hy
        · exact ⟨y, List.mem_cons_self .., Extends.refl y⟩
        · obtain ⟨x', hx', hext⟩ := ih first toks y hy
          exact ⟨x', List.mem_cons_of_mem _ hx', hext⟩
      · have hfin' : x.isFinished = false := by simpa using hfin
        cases toks with
        | nil =>
            simp only [BatchManager.updateSequences, hfin'] at hy
            exact ⟨y, hy, Extends.refl y⟩
        | cons tok toks =>
            simp only [BatchManager.updateSequences, hfin'] at hy
            rcases List.mem_cons.1 hy with rfl | hy
            · exact ⟨x, List.mem_cons_self .., Extends.acceptToken maxTokens x tok hfin'⟩
            · obtain ⟨x', hx', hext⟩ := ih _ toks y hy
              exact ⟨x', List.mem_cons_of_mem _ hx', hext⟩

theorem updateGroups_extends (now : TimePoint) (ps : List GroupPtr)
    (groups : GroupPtr → SequenceGroup) (toks : List TokenId) (p : GroupPtr) :
    ∀ y ∈ (BatchManager.updateGroups now ps groups toks p).sequences,
      ∃ x ∈ (groups p).sequences, Extends x y := by
  induction ps generalizing groups toks with
  | nil => exact fun y hy => ⟨y, hy, Extends.refl y⟩
  | cons q rest ih =>
      intro y hy
      rw [BatchManager.updateGroups] at hy
      obtain ⟨x, hx, hext⟩ := ih _ _ y hy
      by_cases hpq : p = q
      · subst hpq
        rw [Function.update_self] at hx
        obtain ⟨x', hx', hext'⟩ := updateSequences_extends _ now _ _ _ x hx
        exact ⟨x', hx', hext'.trans hext⟩
      · rw [Function.update_of_ne hpq] at hx
        exact ⟨x, hx, hext⟩

theorem Tables.updateAfterDecode {st : Scheduler} (h : st.Tables) (out : SchedulerOutput)
    (toks : List TokenId) (now : TimePoint) : (st.updateAfterDecode out toks now).Tables := by
  refine h.of_groups ⟨rfl, rfl, rfl⟩ rfl rfl h.free ?_
  intro p y hy
  obtain ⟨x, hx, hext⟩ := updateGroups_extends now out.scheduledGroups st.groups toks p y hy
  refine ⟨x, hx, hext.logicalBlocks, ?_⟩
  intro hfin
  rcases hext.status with hs | ⟨hunfin, -⟩
  · rw [SequenceData.isFinished, hs]
    exact hfin
  · rw [hunfin] at hfin
    cases hfin

theorem Tables.freeFinishedRequests {st : Scheduler} (h : st.Tables) :
    st.freeFinishedRequests.Tables := by
  have hsub : (st.unfinishedIn st.running ++ (st.unfinishedIn st.waiting ++ st.swapped)).Sublist
      st.queued :=
    List.filter_sublist.append (List.filter_sublist.append (List.Sublist.refl _))
  rw [freeFinishedRequests_eq]
  refine ⟨h.nodup.sublist hsub, fun p hp => h.stored p (hsub.subset hp),
    releaseGroups_stable freeInRange_stable _ _ _ h.free, ?_, ?_, ?_⟩
  · intro p hp
    exact h.running p (List.mem_filter.1 hp).1
  · intro p hp
    exact h.waiting p (List.mem_filter.1 hp).1
  · intro hmode
    exact ⟨(h.recompute hmode).1, fun p hp => (h.recompute hmode).2 p (List.mem_filter.1 hp).1⟩

/-! ## Runs -/

/-- Clients add requests that have not started. -/
def UnstartedOp (_ : Scheduler) : Op → Prop
  | .addRequest group => Unstarted group
  | _ => True

theorem new_tables (config : SchedulerConfig) (cache : CacheConfig) :
    (Scheduler.new config (BlockManager.new cache)).Tables :=
  ⟨List.nodup_nil, fun _ hp => absurd hp List.not_mem_nil, freeInRange_new cache,
    fun _ hp => absurd hp List.not_mem_nil, fun _ hp => absurd hp List.not_mem_nil,
    fun _ => ⟨rfl, fun _ hp => absurd hp List.not_mem_nil⟩⟩

instance (s : ScheduleState) (p : GroupPtr) : Decidable (DecodeSuffices s p) :=
  inferInstanceAs (Decidable (_ ≤ _))

instance (s : ScheduleState) (p : GroupPtr) : Decidable (PrefillSuffices s p) :=
  inferInstanceAs (Decidable (_ ≤ _))

instance (s : ScheduleState) (p : GroupPtr) : Decidable (FirstSuffices s p) :=
  inferInstanceAs (Decidable (_ ∧ _))

instance (st : Scheduler) : (op : Op) → Decidable (st.UnstartedOp op)
  | .addRequest group => inferInstanceAs (Decidable (Unstarted group))
  | .abortRequest _ | .schedule | .updateAfterDecode .. | .freeFinishedRequests => isTrue trivial

end Scheduler

end CacheFlow
