import CacheFlow.Scheduler.Groups

set_option autoImplicit false

/-! # Swapping out a group

`preempt` in swap mode takes a CPU block for every block of its victim and does not look whether there
is one: out of CPU memory `allocate_block` returns `INVALID_BLOCK`, which is recorded as the destination
of the copy and stored in `logical_blocks`, while the GPU block is released all the same. Swapping the
group in again then copies from `INVALID_BLOCK`.

As long as every block a call asks for is there (`Roomy`), on the GPU as on the CPU, a preemption moves
the victim whole: every block of its unfinished sequences has a destination, no two the same, and no
block id of the scheduler or its output is ever invalid.

Nothing has to be assumed of the requests for this. That no CPU block is handed out twice holds in every
run (`CpuKept`): CPU blocks are released by `free_blocks` alone, which forgets what it releases. -/

namespace CacheFlow

open BlockManager

namespace BlockManager

variable {bm bm' : BlockManager} {s s' : SeqId} {d : DeviceType} {b : BlockId}

/-! ## CPU blocks are handed out once -/

/-- No CPU block is free twice, recorded twice, or both. -/
structure CpuKept (bm : BlockManager) : Prop where
  range : bm.FreeInRange
  free : (bm.freeList .cpu).Nodup
  recorded : ∀ s, (entriesOn .cpu (bm.seqBlocks s)).Nodup
  notFree : ∀ s, List.Disjoint (entriesOn .cpu (bm.seqBlocks s)) (bm.freeList .cpu)
  disjoint : ∀ s s', s ≠ s' →
    List.Disjoint (entriesOn .cpu (bm.seqBlocks s)) (entriesOn .cpu (bm.seqBlocks s'))

theorem cpuKept_new (cache : CacheConfig) : (BlockManager.new cache).CpuKept :=
  ⟨freeInRange_new cache, (counts_new cache).nodup .cpu, fun _ => List.nodup_nil,
    fun _ => List.disjoint_nil_left _, fun _ _ _ => List.disjoint_nil_left _⟩

/-- An operation that leaves the CPU free list and the CPU entries leaves the rest. -/
theorem CpuKept.congr (h : bm.CpuKept) (hrange : bm'.FreeInRange)
    (hfree : bm'.freeList .cpu = bm.freeList .cpu)
    (hentries : ∀ s, entriesOn .cpu (bm'.seqBlocks s) = entriesOn .cpu (bm.seqBlocks s)) :
    bm'.CpuKept := by
  refine ⟨hrange, ?_, ?_, ?_, ?_⟩
  · rw [hfree]
    exact h.free
  · intro s
    rw [hentries]
    exact h.recorded s
  · intro s
    rw [hentries, hfree]
    exact h.notFree s
  · intro s s' hs
    rw [hentries, hentries]
    exact h.disjoint s s' hs

/-- Taking a CPU block moves it from the free list to the entries of one sequence. -/
theorem CpuKept.allocated_cpu {rest : List BlockId} (h : bm.CpuKept)
    (hfl : bm.freeList .cpu = b :: rest) (hrange : bm'.FreeInRange)
    (ha : Allocated bm bm' s .cpu b rest) : bm'.CpuKept := by
  have hnodup := h.free
  rw [hfl] at hnodup
  obtain ⟨hb, hrest⟩ := List.nodup_cons.1 hnodup
  have hfree : bm'.freeList .cpu = rest := by rw [ha.freeList, Function.update_self]
  have hnew : ∀ s', b ∉ entriesOn .cpu (bm.seqBlocks s') := fun s' hmem =>
    h.notFree s' hmem (by rw [hfl]; exact List.mem_cons_self ..)
  have hentries : ∀ s', entriesOn .cpu (bm'.seqBlocks s')
      = if s' = s then entriesOn .cpu (bm.seqBlocks s) ++ [b]
        else entriesOn .cpu (bm.seqBlocks s') := by
    intro s'
    rw [ha.seqBlocks]
    split
    · simp
    · rfl
  -- a recorded block is `b` or was recorded before
  have hmem : ∀ {s' b'}, b' ∈ entriesOn .cpu (bm'.seqBlocks s') →
      b' ∈ entriesOn .cpu (bm.seqBlocks s') ∨ (s' = s ∧ b' = b) := by
    intro s' b' hb'
    rw [hentries] at hb'
    split at hb'
    · next hs =>
        subst hs
        rcases List.mem_append.1 hb' with hb' | hb'
        · exact Or.inl hb'
        · exact Or.inr ⟨rfl, List.mem_singleton.1 hb'⟩
    · exact Or.inl hb'
  refine ⟨hrange, by rw [hfree]; exact hrest, ?_, ?_, ?_⟩
  · intro s'
    rw [hentries]
    split
    · refine List.nodup_append.2 ⟨h.recorded s, List.nodup_singleton b, ?_⟩
      intro a ha b' hb' hab
      rw [List.mem_singleton.1 hb'] at hab
      exact hnew s (hab ▸ ha)
    · exact h.recorded s'
  · intro s' b' hb' hbfree
    rw [hfree] at hbfree
    rcases hmem hb' with hold | ⟨-, rfl⟩
    · exact h.notFree s' hold (by rw [hfl]; exact List.mem_cons_of_mem _ hbfree)
    · exact hb hbfree
  · intro s₁ s₂ hne b' h₁ h₂
    rcases hmem h₁ with hold₁ | ⟨rfl, rfl⟩
    · rcases hmem h₂ with hold₂ | ⟨-, rfl⟩
      · exact h.disjoint s₁ s₂ hne hold₁ hold₂
      · exact hnew s₁ hold₁
    · rcases hmem h₂ with hold₂ | ⟨rfl, -⟩
      · exact hnew s₂ hold₂
      · exact hne rfl

theorem CpuKept.allocateBlock (h : bm.CpuKept) (s : SeqId) (d : DeviceType) :
    (bm.allocateBlock s d).2.CpuKept := by
  have hrange := h.range.allocateBlock s d
  cases hfl : bm.freeList d with
  | nil =>
      rw [allocateBlock_nil bm hfl]
      exact h
  | cons b rest =>
      have hb : bm.InRange d b := h.range d b (by rw [hfl]; exact List.mem_cons_self ..)
      have ha := (bm.allocateBlock_cons (s := s) hfl hb).2
      cases d with
      | cpu => exact h.allocated_cpu hfl hrange ha
      | cuda =>
          refine h.congr hrange ?_ ?_
          · rw [ha.freeList, Function.update_of_ne (by decide)]
          · intro s'
            rw [ha.seqBlocks]
            split
            · next hs =>
                subst hs
                simp
            · rfl

theorem freeBlock_freeList_of_ne (bm : BlockManager) (b : BlockId) {d d' : DeviceType}
    (hd : d' ≠ d) : (bm.freeBlock b d).freeList d' = bm.freeList d' := by
  rcases bm.freeBlock_cases b d with hsame | ⟨-, hpush⟩
  · rw [hsame]
  · rw [hpush, Function.update_of_ne hd]

theorem CpuKept.freeBlock (h : bm.CpuKept) (b : BlockId) : (bm.freeBlock b .cuda).CpuKept := by
  refine h.congr (h.range.freeBlock b .cuda) (freeBlock_freeList_of_ne bm b (by decide)) ?_
  intro s
  rw [freeBlock_seqBlocks]

theorem CpuKept.freeBlocks (h : bm.CpuKept) (s : SeqId) : (bm.freeBlocks s).CpuKept := by
  have hsub := freeEntries_subperm .cpu (bm.seqBlocks s) bm
  rw [← freeBlocks_freeList] at hsub
  have hall : (entriesOn .cpu (bm.seqBlocks s) ++ bm.freeList .cpu).Nodup :=
    List.nodup_append.2 ⟨h.recorded s, h.free, fun a ha b hb hab => h.notFree s ha (hab ▸ hb)⟩
  have hother : ∀ s', entriesOn .cpu ((bm.freeBlocks s).seqBlocks s')
      = if s' = s then [] else entriesOn .cpu (bm.seqBlocks s') := by
    intro s'
    rw [freeBlocks_seqBlocks]
    split <;> rfl
  refine ⟨h.range.freeBlocks s, Scheduler.nodup_of_subperm hsub hall, ?_, ?_, ?_⟩
  · intro s'
    rw [hother]
    split
    · exact List.nodup_nil
    · exact h.recorded s'
  · intro s' b hb hfree
    rw [hother] at hb
    split at hb
    · exact List.not_mem_nil hb
    · next hs =>
        rcases List.mem_append.1 (hsub.subset hfree) with hfree | hfree
        · exact h.disjoint s' s hs hb hfree
        · exact h.notFree s' hb hfree
  · intro s₁ s₂ hne b h₁ h₂
    rw [hother] at h₁ h₂
    split at h₁
    · exact List.not_mem_nil h₁
    · split at h₂
      · exact List.not_mem_nil h₂
      · exact h.disjoint s₁ s₂ hne h₁ h₂

theorem cpuKept_stable : Stable CpuKept :=
  ⟨fun _ s d h => h.allocateBlock s d, fun _ b h => h.freeBlock b, fun _ s h => h.freeBlocks s⟩

end BlockManager

/-! ## The copies of a preemption -/

/-- The blocks of the unfinished sequences, in order. -/
def unfinishedBlocks (seqs : List SequenceData) : List BlockId :=
  (seqs.filter (fun x => !x.isFinished)).flatMap SequenceData.logicalBlocks

theorem unfinishedBlocks_cons_unfinished {x : SequenceData} (h : x.isFinished = false)
    (xs : List SequenceData) : unfinishedBlocks (x :: xs) = x.logicalBlocks ++ unfinishedBlocks xs := by
  simp [unfinishedBlocks, h]

theorem unfinishedBlocks_cons_finished {x : SequenceData} (h : x.isFinished = true)
    (xs : List SequenceData) : unfinishedBlocks (x :: xs) = unfinishedBlocks xs := by
  simp [unfinishedBlocks, h]

/-- The copies that `preempt` and `try_swap_in` record for one sequence. -/
def copies (s : SeqId) (srcs dsts : List BlockId) : List BlockOp :=
  (srcs.zip dsts).map (fun c => ⟨s, c.1, c.2⟩)

theorem copies_src {s : SeqId} {srcs dsts : List BlockId} (h : srcs.length = dsts.length) :
    (copies s srcs dsts).map BlockOp.src = srcs := by
  rw [copies, List.map_map]
  exact List.map_fst_zip h.le

theorem copies_dst {s : SeqId} {srcs dsts : List BlockId} (h : srcs.length = dsts.length) :
    (copies s srcs dsts).map BlockOp.dst = dsts := by
  rw [copies, List.map_map]
  exact List.map_snd_zip h.ge

theorem swapOutBlocks_copies (s : SeqId) (bids : List BlockId) (st : BlockManager × List BlockOp) :
    (swapOutBlocks s bids st).2.2 = st.2 ++ copies s bids (swapOutBlocks s bids st).1 := by
  induction bids generalizing st with
  | nil => simp [swapOutBlocks, copies]
  | cons bid rest ih =>
      simp only [swapOutBlocks]
      rw [ih]
      simp [copies]

theorem swapInBlocks_copies (s : SeqId) (bids : List BlockId) (st : BlockManager × List BlockOp) :
    (swapInBlocks s bids st).2.2 = st.2 ++ copies s bids (swapInBlocks s bids st).1 := by
  induction bids generalizing st with
  | nil => simp [swapInBlocks, copies]
  | cons bid rest ih =>
      simp only [swapInBlocks]
      rw [ih]
      simp [copies]

/-- With a free CPU block for each, the destinations are the top of the CPU free list. -/
theorem swapOutBlocks_cpu (s : SeqId) (bids : List BlockId) (st : BlockManager × List BlockOp)
    (hn : bids.length ≤ (st.1.freeList .cpu).length) (hin : st.1.FreeInRange) :
    st.1.freeList .cpu
      = (swapOutBlocks s bids st).1 ++ (swapOutBlocks s bids st).2.1.freeList .cpu := by
  induction bids generalizing st with
  | nil => rfl
  | cons bid rest ih =>
      obtain ⟨bm, ops⟩ := st
      cases hfl : bm.freeList .cpu with
      | nil => simp [hfl] at hn
      | cons b bs =>
          have hb : bm.InRange .cpu b := hin .cpu b (by rw [hfl]; exact List.mem_cons_self ..)
          obtain ⟨hbid, ha⟩ := bm.allocateBlock_cons (s := s) hfl hb
          have hcpu : ((bm.allocateBlock s .cpu).2.freeBlock bid .cuda).freeList .cpu = bs := by
            rw [freeBlock_freeList_of_ne _ _ (by decide), ha.freeList, Function.update_self]
          have hrest := ih ((bm.allocateBlock s .cpu).2.freeBlock bid .cuda,
            ops ++ [⟨s, bid, (bm.allocateBlock s .cpu).1⟩])
            (by simp only [hcpu]; simp only [hfl] at hn; simpa using hn)
            ((FreeInRange.allocateBlock hin s .cpu).freeBlock bid .cuda)
          simp only [hcpu] at hrest
          simp only [swapOutBlocks, hbid, hrest, List.cons_append]

/-- Swapping out with room on the CPU: the copies recorded take every block of the unfinished sequences
    to a CPU block of its own, and the tables name these. -/
theorem swapOutSequence_whole {bm : BlockManager} {seqs : List SequenceData} (hfree : bm.FreeInRange)
    (hle : listedIn seqs ≤ (bm.freeList .cpu).length) :
    (∀ y ∈ (threadSequences swapOutSequence (bm, []) seqs).1, ∃ x ∈ seqs,
      (x.isFinished = true ∧ y = x) ∨ (x.isFinished = false ∧ y.Valid)) ∧
    (threadSequences swapOutSequence (bm, []) seqs).2.2.map BlockOp.src = unfinishedBlocks seqs ∧
    bm.freeList .cpu = (threadSequences swapOutSequence (bm, []) seqs).2.2.map BlockOp.dst
      ++ (threadSequences swapOutSequence (bm, []) seqs).2.1.freeList .cpu := by
  have hloop := threadSequences_forall (f := swapOutSequence)
    (I := fun xs st => st.1.FreeInRange ∧ listedIn xs ≤ (st.1.freeList .cpu).length ∧
      st.2.map BlockOp.src ++ unfinishedBlocks xs = unfinishedBlocks seqs ∧
      bm.freeList .cpu = st.2.map BlockOp.dst ++ st.1.freeList .cpu)
    (R := fun x y => (x.isFinished = true ∧ y = x) ∨ (x.isFinished = false ∧ y.Valid))
    ?_ seqs (bm, []) ⟨hfree, hle, rfl, rfl⟩
  · obtain ⟨hrel, -, -, hsrc, hdst⟩ := hloop
    refine ⟨hrel, ?_, hdst⟩
    simpa [unfinishedBlocks] using hsrc
  · rintro st x xs ⟨hfree', hle', hsrc, hdst⟩
    by_cases hfin : x.isFinished = true
    · rw [listedIn_cons_finished hfin] at hle'
      rw [unfinishedBlocks_cons_finished hfin] at hsrc
      rw [swapOutSequence, if_pos hfin]
      exact ⟨Or.inl ⟨hfin, rfl⟩, hfree', hle', hsrc, hdst⟩
    · have hfin' : x.isFinished = false := by simpa using hfin
      rw [listedIn_cons_unfinished hfin'] at hle'
      rw [unfinishedBlocks_cons_unfinished hfin'] at hsrc
      have hcpu := swapOutBlocks_cpu x.seqId x.logicalBlocks st (by omega) hfree'
      have hlen := swapOutBlocks_length x.seqId x.logicalBlocks st
      have hcount := congrArg List.length hcpu
      rw [List.length_append, hlen] at hcount
      rw [swapOutSequence_of_unfinished hfin']
      simp only [swapOutBlocks_copies, List.map_append, copies_src hlen.symm, copies_dst hlen.symm]
      refine ⟨Or.inr ⟨hfin', ?_⟩, swapOutBlocks_stable freeInRange_stable _ _ st hfree', by omega, ?_, ?_⟩
      · intro hmem
        have hin := hfree' .cpu invalidBlock (by rw [hcpu]; exact List.mem_append_left _ hmem)
        exact hin.ne_invalidBlock rfl
      · rw [List.append_assoc]
        exact hsrc
      · rw [List.append_assoc, ← hcpu]
        exact hdst

/-- The copies name no invalid block. -/
def CopiesValid (ops : List BlockOp) : Prop :=
  ∀ op ∈ ops, op.src ≠ invalidBlock ∧ op.dst ≠ invalidBlock

instance (ops : List BlockOp) : Decidable (CopiesValid ops) :=
  inferInstanceAs (Decidable (∀ op ∈ ops, _))

theorem copiesValid_iff {ops : List BlockOp} : CopiesValid ops ↔
    invalidBlock ∉ ops.map BlockOp.src ∧ invalidBlock ∉ ops.map BlockOp.dst := by
  constructor
  · intro h
    refine ⟨fun hmem => ?_, fun hmem => ?_⟩
    · obtain ⟨op, hop, heq⟩ := List.mem_map.1 hmem
      exact (h op hop).1 heq
    · obtain ⟨op, hop, heq⟩ := List.mem_map.1 hmem
      exact (h op hop).2 heq
  · rintro ⟨hsrc, hdst⟩ op hop
    exact ⟨fun heq => hsrc (List.mem_map.2 ⟨op, hop, heq⟩),
      fun heq => hdst (List.mem_map.2 ⟨op, hop, heq⟩)⟩

theorem CopiesValid.append {ops : List BlockOp} {s : SeqId} {srcs dsts : List BlockId}
    (h : CopiesValid ops) (hlen : srcs.length = dsts.length) (hsrcs : invalidBlock ∉ srcs)
    (hdsts : invalidBlock ∉ dsts) : CopiesValid (ops ++ copies s srcs dsts) := by
  intro op hop
  rcases List.mem_append.1 hop with hop | hop
  · exact h op hop
  · exact copiesValid_iff.2 ⟨by rwa [copies_src hlen], by rwa [copies_dst hlen]⟩ op hop

/-- Swapping in valid tables records valid copies. -/
theorem swapInSequence_copies (st : BlockManager × List BlockOp) {seqs : List SequenceData}
    (hfree : st.1.FreeInRange) (hle : listedIn seqs ≤ (st.1.freeList .cuda).length)
    (hvalid : ∀ x ∈ seqs, x.Valid) (hops : CopiesValid st.2) :
    CopiesValid (threadSequences swapInSequence st seqs).2.2 := by
  refine (threadSequences_forall (f := swapInSequence)
    (I := fun xs st' => st'.1.FreeInRange ∧ listedIn xs ≤ (st'.1.freeList .cuda).length ∧
      (∀ x ∈ xs, x.Valid) ∧ CopiesValid st'.2)
    (R := fun _ _ => True) ?_ seqs st ⟨hfree, hle, hvalid, hops⟩).2.2.2.2
  rintro st' x xs ⟨hfree', hle', hvalid', hops'⟩
  have hx := hvalid' x (List.mem_cons_self ..)
  have hxs : ∀ y ∈ xs, y.Valid := fun y hy => hvalid' y (List.mem_cons_of_mem _ hy)
  by_cases hfin : x.isFinished = true
  · rw [listedIn_cons_finished hfin] at hle'
    rw [swapInSequence, if_pos hfin]
    exact ⟨trivial, hfree', hle', hxs, hops'⟩
  · have hfin' : x.isFinished = false := by simpa using hfin
    rw [listedIn_cons_unfinished hfin'] at hle'
    have hhand := swapInBlocks_handed x.seqId x.logicalBlocks st' (by omega) (hfree' .cuda)
    have hlen := swapInBlocks_length x.seqId x.logicalBlocks st'
    have hcount := hhand.length_freeList
    rw [hlen] at hcount
    rw [swapInSequence_of_unfinished hfin']
    simp only [swapInBlocks_copies]
    exact ⟨trivial, hhand.freeInRange hfree', by omega, hxs,
      hops'.append hlen.symm hx (hhand.valid hfree')⟩

namespace Scheduler

open ScheduleState

/-! ## What a preemption is to do -/

/-- A call of `preempt` in the state `s` moves its victim `v` whole. -/
structure MovedWhole (s : ScheduleState) (v : GroupPtr) : Prop where
  valid : CopiesValid s.preempt.output.blockSwapsOut
  distinct : (s.preempt.output.blockSwapsOut.map BlockOp.dst).Nodup
  every : s.preempt.output.blockSwapsOut.map BlockOp.src
    = unfinishedBlocks (s.sched.groups v).sequences

/-- A call of `preempt` in the state `s` touches neither the tables of `v` nor the GPU blocks. -/
structure LeftAlone (s : ScheduleState) (v : GroupPtr) : Prop where
  tables : (s.preempt.sched.groups v).sequences.map SequenceData.logicalBlocks
    = (s.sched.groups v).sequences.map SequenceData.logicalBlocks
  blocks : s.preempt.sched.blockManager.blocks .cuda = s.sched.blockManager.blocks .cuda
  free : s.preempt.sched.blockManager.freeList .cuda = s.sched.blockManager.freeList .cuda

/-- No sequence of a queued group lists an invalid block. -/
def ValidTables (st : Scheduler) : Prop :=
  ∀ p ∈ st.queued, ∀ x ∈ (st.groups p).sequences, x.Valid

/-- The call of `schedule()` starting in `st` loses no block. -/
structure NoLoss (st : Scheduler) : Prop where
  preempts : ∀ s, st.PreemptsAt s → ∀ v ∈ s.sched.running.getLast?, MovedWhole s v ∨ LeftAlone s v
  swapsOut : CopiesValid st.schedule.1.blockSwapsOut
  swapsIn : CopiesValid st.schedule.1.blockSwapsIn
  tables : st.schedule.2.ValidTables

/-- Every block the call starting in `st` asks for is there: for all sequences of a group that is grown
    or admitted, and on the CPU for all blocks of a group that is preempted. -/
structure Roomy (st : Scheduler) : Prop where
  decodes : ∀ v ∈ decodeVisits st.running st.beginSchedule, v.1.decodeFits v.2 →
    DecodeSuffices v.1 v.2
  prefills : ∀ v ∈ st.admissions,
    prefillBlocks v.1.sched.blockManager (v.1.sched.groups v.2)
        * (v.1.sched.groups v.2).sequences.length
      ≤ (v.1.sched.blockManager.freeList .cuda).length
  preempts : st.CpuSuffices

/-! ## The invariant -/

/-- No group stored lists an invalid block, and no CPU block is handed out twice. -/
structure Sound (st : Scheduler) : Prop where
  kept : st.blockManager.CpuKept
  valid : ∀ p, ∀ x ∈ (st.groups p).sequences, x.Valid

/-- What holds at every point of a call. -/
structure SoundCall (s : ScheduleState) : Prop where
  sound : s.sched.Sound
  swapsOut : CopiesValid s.output.blockSwapsOut
  swapsIn : CopiesValid s.output.blockSwapsIn

theorem Sound.put {st st' : Scheduler} {p : GroupPtr} {xs : List SequenceData} (h : st.Sound)
    (hgroups : st'.groups = Function.update st.groups p { st.groups p with sequences := xs })
    (hkept : st'.blockManager.CpuKept) (hxs : ∀ x ∈ xs, x.Valid) : st'.Sound := by
  refine ⟨hkept, ?_⟩
  intro q x hx
  rw [hgroups] at hx
  by_cases hqp : q = p
  · subst hqp
    rw [Function.update_self] at hx
    exact hxs x hx
  · rw [Function.update_of_ne hqp] at hx
    exact h.valid q x hx

namespace SoundCall

variable {s : ScheduleState} {p : GroupPtr} {rest : List GroupPtr}

theorem decodeGroup (h : SoundCall s) (hsuff : DecodeSuffices s p) :
    SoundCall (s.decodeGroup p) := by
  have hgrown := (appendBlocks_group h.sound.kept.range hsuff).1
  refine ⟨h.sound.put rfl (appendBlocks_stable cpuKept_stable _ _ h.sound.kept) ?_, h.swapsOut,
    h.swapsIn⟩
  intro y hy
  obtain ⟨x, hx, ⟨-, rfl⟩ | ⟨-, hgrow⟩⟩ := hgrown y hy
  · exact h.sound.valid p y hx
  · exact hgrow.valid (h.sound.valid p x hx)

theorem admitGroup (h : SoundCall s)
    (hsuff : prefillBlocks s.sched.blockManager (s.sched.groups p)
        * (s.sched.groups p).sequences.length ≤ (s.sched.blockManager.freeList .cuda).length) :
    SoundCall (s.admitGroup p rest) := by
  have hgrown := (prefillSequence_group h.sound.kept.range hsuff).1
  refine ⟨h.sound.put (p := p) rfl (prefillSequence_stable cpuKept_stable _ _ _ h.sound.kept) ?_,
    h.swapsOut, h.swapsIn⟩
  intro y hy
  obtain ⟨x, hx, hgrow⟩ := hgrown y hy
  exact hgrow.valid (h.sound.valid p x hx)

theorem swapInGroup (h : SoundCall s) (hfits : s.swapInFits p) :
    SoundCall (s.swapInGroup p rest) := by
  have hle : listedIn (s.sched.groups p).sequences ≤ (s.sched.blockManager.freeList .cuda).length :=
    of_decide_eq_true hfits.2.2
  have hback := (swapInSequence_group (s.sched.blockManager, s.output.blockSwapsIn)
    h.sound.kept.range hle).1
  refine ⟨h.sound.put (p := p) rfl
    (swapInSequence_stable cpuKept_stable (s.sched.blockManager, s.output.blockSwapsIn) _ h.sound.kept)
    ?_, h.swapsOut, ?_⟩
  · intro y hy
    obtain ⟨x, hx, ⟨-, rfl⟩ | ⟨-, hvalid⟩⟩ := hback y hy
    · exact h.sound.valid p y hx
    · exact hvalid
  · exact swapInSequence_copies (s.sched.blockManager, s.output.blockSwapsIn) h.sound.kept.range hle
      (h.sound.valid p) h.swapsIn

/-- A preemption with enough CPU blocks moves its victim whole. -/
theorem preempt (h : SoundCall s) {init : List GroupPtr} {v : GroupPtr}
    (hmode : s.sched.config.preemptionMode = .swap) (hv : s.sched.running = init ++ [v])
    (hout : s.output.blockSwapsOut = [])
    (hcpu : swapInBlockCount (s.sched.groups v) ≤ s.sched.blockManager.numFreeCpuBlocks) :
    SoundCall s.preempt ∧ MovedWhole s v := by
  obtain ⟨hmoved, hsrc, hdst⟩ := swapOutSequence_whole h.sound.kept.range hcpu
  have heq : s.preempt = s.swapOutGroup v init := by
    rw [preempt_eq hv, hmode]
  have hops : s.preempt.output.blockSwapsOut = (threadSequences swapOutSequence
      (s.sched.blockManager, []) (s.sched.groups v).sequences).2.2 := by
    rw [heq, swapOutGroup, hout]
  have hvalid : CopiesValid s.preempt.output.blockSwapsOut := by
    rw [hops, copiesValid_iff, hsrc]
    refine ⟨?_, ?_⟩
    · intro hmem
      obtain ⟨x, hx, hinv⟩ := List.mem_flatMap.1 hmem
      exact h.sound.valid v x (List.mem_filter.1 hx).1 hinv
    · intro hmem
      have hin := h.sound.kept.range .cpu invalidBlock
        (by rw [hdst]; exact List.mem_append_left _ hmem)
      exact hin.ne_invalidBlock rfl
  refine ⟨⟨?_, hvalid, ?_⟩, hvalid, ?_, ?_⟩
  · rw [heq, swapOutGroup, hout]
    refine h.sound.put (p := v) rfl
      (swapOutSequence_stable cpuKept_stable (s.sched.blockManager, []) _ h.sound.kept) ?_
    intro y hy
    obtain ⟨x, hx, ⟨-, rfl⟩ | ⟨-, hy⟩⟩ := hmoved y hy
    · exact h.sound.valid v y hx
    · exact hy
  · rw [heq]
    exact h.swapsIn
  · have hfree := h.sound.kept.free
    rw [hdst] at hfree
    rw [hops]
    exact (List.nodup_append.1 hfree).1
  · rw [hops]
    exact hsrc

end SoundCall

/-! ## One call -/

/-- The state the decode loop ends in, before anything has been swapped. -/
theorem Sound.decodeLoop {st : Scheduler} (h : st.Sound) (hroom : st.Roomy) :
    SoundCall (decodeLoop st.running st.beginSchedule).1 ∧
      (decodeLoop st.running st.beginSchedule).1.output.blockSwapsOut = [] ∧
      (decodeLoop st.running st.beginSchedule).1.sched.config = st.config := by
  refine st.decodeLoop_visits (P := fun s => SoundCall s ∧ s.output.blockSwapsOut = [] ∧
    s.sched.config = st.config) ?_ ?_
  · exact ⟨⟨h, fun _ hop => absurd hop List.not_mem_nil, fun _ hop => absurd hop List.not_mem_nil⟩,
      rfl, rfl⟩
  · rintro s p ⟨hs, hout, hconf⟩ hvisit - hfits
    exact ⟨hs.decodeGroup (hroom.decodes (s, p) hvisit hfits), hout, hconf⟩

/-- The state a preemption is called in. -/
theorem Sound.preempt {st : Scheduler} (h : st.Sound) (hmode : st.config.preemptionMode = .swap)
    (hroom : st.Roomy) {s : ScheduleState} (hat : st.PreemptsAt s) {init : List GroupPtr}
    {v : GroupPtr} (hv : s.sched.running = init ++ [v]) : SoundCall s.preempt ∧ MovedWhole s v := by
  have hloop := h.decodeLoop hroom
  rw [hat] at hloop
  obtain ⟨hs, hout, hconf⟩ := hloop
  exact hs.preempt (by rw [hconf]; exact hmode) hv hout (hroom.preempts.room hat hv)

theorem Sound.schedule {st : Scheduler} (h : st.Sound) (hmode : st.config.preemptionMode = .swap)
    (hroom : st.Roomy) : SoundCall st.afterSwapIn := by
  refine st.afterSwapIn_invariant_of (P := SoundCall) ?_ ?_ ?_
  · have hdecodes : SoundCall st.afterDecodes := st.afterDecodes_of_loop (h.decodeLoop hroom).1
      (fun _ _ _ _ hat hv => (h.preempt hmode hroom hat hv).1)
    obtain ⟨w, -, hw⟩ := st.afterDecodes.sched.sortWaitingQueue_eq
    rw [beforePrefills, hw]
    exact ⟨⟨hdecodes.sound.kept, hdecodes.sound.valid⟩, hdecodes.swapsOut, hdecodes.swapsIn⟩
  · intro s p rest hs hadm _ _
    exact hs.admitGroup (hroom.prefills (s, p) hadm)
  · intro s p rest hs _ hfits
    exact hs.swapInGroup hfits

theorem Sound.noLoss {st : Scheduler} (h : st.Sound) (hmode : st.config.preemptionMode = .swap)
    (hroom : st.Roomy) : st.NoLoss := by
  have hcall := h.schedule hmode hroom
  refine ⟨?_, hcall.swapsOut, hcall.swapsIn, fun p _ x hx => hcall.sound.valid p x hx⟩
  intro s hat v hv
  obtain ⟨init, hinit⟩ := List.getLast?_eq_some_iff.1 hv
  exact Or.inl (h.preempt hmode hroom hat hinit).2

/-! ## Runs -/

/-- Requests come without invalid blocks, and every call of `schedule()` finds the blocks it asks
    for. -/
def RoomyOp (st : Scheduler) : Op → Prop
  | .addRequest group => ∀ x ∈ group.sequences, x.Valid
  | .schedule => st.Roomy
  | _ => True

theorem new_sound (config : SchedulerConfig) (cache : CacheConfig) :
    (Scheduler.new config (BlockManager.new cache)).Sound :=
  ⟨cpuKept_new cache, fun _ _ hx => absurd hx List.not_mem_nil⟩

/-- Rewriting groups without touching their tables. -/
theorem Sound.of_groups {st st' : Scheduler} (h : st.Sound) (hkept : st'.blockManager.CpuKept)
    (hgroups : ∀ p, ∀ y ∈ (st'.groups p).sequences, ∃ x ∈ (st.groups p).sequences,
      y.logicalBlocks = x.logicalBlocks) : st'.Sound := by
  refine ⟨hkept, ?_⟩
  intro p y hy
  obtain ⟨x, hx, heq⟩ := hgroups p y hy
  rw [SequenceData.Valid, heq]
  exact h.valid p x hx

theorem Sound.abortRequest {st : Scheduler} (h : st.Sound) (id : SeqId) :
    (st.abortRequest id).Sound := by
  unfold Scheduler.abortRequest
  split
  · exact h
  · next p _ =>
      have habort := (abortSequence_group st.blockManager (st.groups p).sequences h.kept.range).1
      refine h.put (p := p) rfl
        (abortSequence_stable cpuKept_stable st.blockManager (st.groups p).sequences h.kept) ?_
      intro y hy
      obtain ⟨x, hx, -, heq⟩ := habort y hy
      rw [SequenceData.Valid, heq]
      exact h.valid p x hx

theorem step_sound {st : Scheduler} (op : Op) (hmode : st.config.preemptionMode = .swap)
    (h : st.Sound) (hop : st.RoomyOp op) : (st.step op).Sound := by
  cases op with
  | addRequest group =>
      refine ⟨h.kept, ?_⟩
      intro p x hx
      by_cases hp : p = st.next
      · rw [hp, step, groups_addRequest_self] at hx
        exact hop x hx
      · have hold : (st.addRequest group).groups p = st.groups p := Function.update_of_ne hp _ _
        rw [step, hold] at hx
        exact h.valid p x hx
  | abortRequest id => exact h.abortRequest id
  | schedule => exact (h.schedule hmode hop).sound
  | updateAfterDecode out toks now =>
      refine h.of_groups h.kept ?_
      intro p y hy
      obtain ⟨x, hx, hext⟩ := updateGroups_extends now out.scheduledGroups st.groups toks p y hy
      exact ⟨x, hx, hext.logicalBlocks⟩
  | freeFinishedRequests =>
      rw [step, freeFinishedRequests_eq]
      exact ⟨releaseGroups_stable cpuKept_stable _ _ _ h.kept, h.valid⟩

theorem step_config (st : Scheduler) (op : Op) : (st.step op).config = st.config := by
  cases op with
  | addRequest group => rfl
  | abortRequest id =>
      simp only [step, Scheduler.abortRequest]
      split <;> rfl
  | schedule => exact st.schedule_frame.2.2
  | updateAfterDecode out toks now => rfl
  | freeFinishedRequests =>
      rw [step, freeFinishedRequests_eq]

/-- **Swapping out loses nothing while there is room.** In every run of the scheduler in swap mode whose
    calls find the blocks they ask for, no sequence lists an invalid block, and every further call that
    finds its blocks moves the victim of a preemption whole. -/
theorem swap_out_whole (config : SchedulerConfig) (cache : CacheConfig)
    (hmode : config.preemptionMode = .swap) (st : Scheduler)
    (h : Run.Reach step RoomyOp (Scheduler.new config (BlockManager.new cache)) st) :
    st.ValidTables ∧ (st.Roomy → st.NoLoss) := by
  have hsound := h.invariant (P := fun st => st.config.preemptionMode = .swap ∧ st.Sound)
    ⟨hmode, new_sound config cache⟩
    (fun st op hst hop => ⟨by rw [step_config]; exact hst.1, step_sound op hst.1 hst.2 hop⟩)
  exact ⟨fun p _ x hx => hsound.2.valid p x hx, hsound.2.noLoss hsound.1⟩

instance (st : Scheduler) : Decidable st.Roomy :=
  decidable_of_iff
    ((∀ v ∈ decodeVisits st.running st.beginSchedule, v.1.decodeFits v.2 → DecodeSuffices v.1 v.2) ∧
      (∀ v ∈ st.admissions, prefillBlocks v.1.sched.blockManager (v.1.sched.groups v.2)
          * (v.1.sched.groups v.2).sequences.length
        ≤ (v.1.sched.blockManager.freeList .cuda).length) ∧ st.CpuSuffices)
    ⟨fun h => ⟨h.1, h.2.1, h.2.2⟩, fun h => ⟨h.decodes, h.prefills, h.preempts⟩⟩

instance (st : Scheduler) : (op : Op) → Decidable (st.RoomyOp op)
  | .addRequest group => inferInstanceAs (Decidable (∀ x ∈ group.sequences, x.Valid))
  | .schedule => inferInstanceAs (Decidable st.Roomy)
  | .abortRequest _ | .updateAfterDecode .. | .freeFinishedRequests => isTrue trivial

/-- One request on a GPU with two blocks of one token: it is admitted and gets a token. -/
def outgrown : List Op :=
  [.addRequest (.new 1 [7, 8] {}), .schedule, .updateAfterDecode { scheduledGroups := [0] } [9] 0]

/-- The scheduler after `outgrown`, with `n` blocks on the CPU. The next call finds no block for the
    token and preempts the request, which holds two blocks. -/
def outgrownEnd (n : Nat) : Scheduler :=
  outgrown.foldl step
    (Scheduler.new {} (BlockManager.new { numGpuBlocks := 2, numCpuBlocks := n, blockSize := 1 }))

/-- With two CPU blocks the request is moved. -/
theorem outgrown_moved :
    (outgrownEnd 2).schedule.1.blockSwapsOut = [⟨1, 0, 0⟩, ⟨1, 1, 1⟩] ∧ (outgrownEnd 2).NoLoss :=
  ⟨by decide, (swap_out_whole _ _ rfl _ (Run.Reach.of_allOk _ (by decide))).2 (by decide)⟩

/-- With one CPU block the second block of the request is lost. -/
theorem outgrown_lost :
    Run.Reach step UnstartedOp (Scheduler.new {}
        (BlockManager.new { numGpuBlocks := 2, numCpuBlocks := 1, blockSize := 1 }))
        (outgrownEnd 1) ∧
      (outgrownEnd 1).schedule.1.preemptedGroups = [0] ∧
      (outgrownEnd 1).schedule.1.blockSwapsOut = [⟨1, 0, 0⟩, ⟨1, 1, -1⟩] ∧
      (outgrownEnd 1).schedule.1.blockSwapsIn = [⟨1, 0, 1⟩, ⟨1, -1, 0⟩] ∧
      ¬ (outgrownEnd 1).NoLoss := by
  refine ⟨Run.Reach.of_allOk _ (by decide), by decide, by decide, by decide, ?_⟩
  intro h
  have hat : (outgrownEnd 1).PreemptsAt
      (decodeLoop (outgrownEnd 1).running (outgrownEnd 1).beginSchedule).1 :=
    Prod.ext rfl (by decide)
  rcases h.preempts _ hat 0 (by decide) with hmoved | hleft
  · exact absurd hmoved.valid (by decide)
  · exact absurd hleft.tables (by decide)

end Scheduler

end CacheFlow
