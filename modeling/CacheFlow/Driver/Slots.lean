import CacheFlow.BatchDecode
import CacheFlow.Driver.Positions
import CacheFlow.Scheduler.Census

set_option autoImplicit false

/-! # Key and value slots are private and stable

The slot of a token is where its keys and values are written once and read in every later step. In
recompute mode two things make that safe. In one batch no two entries share a slot: the running
sequences own disjoint blocks, and the positions of one sequence are different. Over time the slot of a
position does not move: `logical_blocks` of a running sequence only grows at its end until the
sequence is preempted, aborted or freed, and until then nobody else owns its blocks.

The loop is the one of `Driver`, with aborts between two iterations. That every position of a batch has a
slot at all needs `num_blocks_needed` to be right, so the sum in it must not wrap. -/

namespace CacheFlow

open Scheduler BatchManager

namespace Driver

/-! ## The loop with aborts -/

inductive SessionOp
  | loop (op : DriverOp)
  | abortRequest (requestId : SeqId)

/-- After an abort `free_finished_requests` comes next. -/
def sessionStep (d : Driver) : SessionOp → Driver
  | .loop op => d.step op
  | .abortRequest requestId =>
    { d with sched := d.sched.abortRequest requestId, phase := .updated }

/-- An abort may come between two iterations, or after another abort. -/
def SessionEnabled (d : Driver) : SessionOp → Prop
  | .loop op => d.Enabled op
  | .abortRequest _ =>
    match d.phase with
    | .ready | .updated => True
    | .scheduled _ | .batched _ _ | .decoded _ _ => False

instance : (d : Driver) → (op : SessionOp) → Decidable (d.SessionEnabled op)
  | d, .loop op => inferInstanceAs (Decidable (d.Enabled op))
  | ⟨_, phase, _⟩, .abortRequest _ =>
    match phase with
    | .ready | .updated => isTrue trivial
    | .scheduled _ | .batched _ _ | .decoded _ _ => isFalse id

/-- The next call is enabled and, if it is `schedule()`, no sum in `num_blocks_needed` wraps. -/
def SessionNoWrap (d : Driver) : SessionOp → Prop
  | .loop op => d.EnabledNoWrap op
  | .abortRequest requestId => d.SessionEnabled (.abortRequest requestId)

instance (d : Driver) : (op : SessionOp) → Decidable (d.SessionNoWrap op)
  | .loop op => inferInstanceAs (Decidable (d.EnabledNoWrap op))
  | .abortRequest requestId => inferInstanceAs (Decidable (d.SessionEnabled (.abortRequest requestId)))

theorem SessionNoWrap.enabled {d : Driver} {op : SessionOp} (h : d.SessionNoWrap op) :
    d.SessionEnabled op := by
  cases op with
  | loop op => exact h.1
  | abortRequest => exact h

/-- The operation preempts, frees or aborts the sequence `s`. -/
def Releases (d : Driver) (s : SeqId) : SessionOp → Prop
  | .loop .schedule => ∃ p ∈ d.sched.schedule.1.preemptedGroups, (d.sched.seq p).seqId = s
  | .loop .freeFinishedRequests =>
    ∃ p ∈ d.sched.finishedIn d.sched.running ++ d.sched.finishedIn d.sched.waiting,
      (d.sched.seq p).seqId = s
  | .loop (.addRequest _) | .loop .buildBatch | .loop (.step _) | .loop (.updateAfterDecode _) =>
    False
  | .abortRequest requestId => requestId = s

instance (d : Driver) (s : SeqId) : (op : SessionOp) → Decidable (d.Releases s op)
  | .loop .schedule => inferInstanceAs (Decidable (∃ p ∈ _, _))
  | .loop .freeFinishedRequests => inferInstanceAs (Decidable (∃ p ∈ _, _))
  | .loop (.addRequest _) | .loop .buildBatch | .loop (.step _) | .loop (.updateAfterDecode _) =>
    isFalse id
  | .abortRequest _ => inferInstanceAs (Decidable (_ = _))

/-! ## The entries of one sequence -/

section Entries

variable {seq : SequenceData} {e : BatchEntry}

theorem seqEntries_blockTable (he : e ∈ seqEntries seq) : e.blockTable = seq.logicalBlocks := by
  unfold seqEntries at he
  split at he
  · exact absurd he List.not_mem_nil
  · split at he
    · obtain ⟨i, hi, rfl⟩ := List.mem_mapIdx.1 he
      rfl
    · rw [List.mem_singleton.1 he]
      rfl

theorem seqEntries_position_lt (he : e ∈ seqEntries seq) : e.position < seq.totalLen := by
  unfold seqEntries at he
  split at he
  · exact absurd he List.not_mem_nil
  · split at he
    · obtain ⟨i, hi, rfl⟩ := List.mem_mapIdx.1 he
      exact Nat.lt_of_lt_of_le hi (Nat.le_add_right _ _)
    · next hout =>
        rw [List.mem_singleton.1 he]
        show seq.totalLen - 1 < seq.totalLen
        rw [SequenceData.totalLen]
        omega

theorem seqEntries_positions (seq : SequenceData) :
    ((seqEntries seq).map (fun e => (e.seqId, e.position))).Nodup := by
  unfold seqEntries
  split
  · exact List.nodup_nil
  · split
    · have hpos : (seq.promptTokens.mapIdx (prefillEntry seq)).map (fun e => (e.seqId, e.position))
          = (List.range seq.promptTokens.length).map (fun i => (seq.seqId, i)) := by
        apply List.ext_getElem
        · simp
        · intro i h₁ h₂
          simp [prefillEntry]
      rw [hpos]
      exact List.nodup_range.map (fun i j hij => (Prod.mk.inj hij).2)
    · exact List.nodup_singleton _

end Entries

/-! ## What an abort changes -/

section Abort

variable {st : Scheduler} {requestId : SeqId} {q : GroupPtr}

theorem abortRequest_outputTokens (hwf : st.WellFormed) :
    ((st.abortRequest requestId).seq q).outputTokens = (st.seq q).outputTokens := by
  cases hp : st.requestMap.lookup requestId with
  | none => simp only [Scheduler.abortRequest, hp]
  | some p =>
      rw [abortRequest_eq hwf hp, seq_of_groups rfl q]
      split
      · next heq =>
          rw [heq, abortSequence]
          split
          · rfl
          · rfl
      · rfl

/-- The sequences of other requests stay as they are. -/
theorem abortRequest_seq_of_ne (hwf : st.WellFormed) (hq : q ∈ st.queued)
    (hne : requestId ≠ (st.seq q).seqId) : (st.abortRequest requestId).seq q = st.seq q := by
  cases hp : st.requestMap.lookup requestId with
  | none => simp only [Scheduler.abortRequest, hp]
  | some p =>
      obtain ⟨-, hid⟩ := hwf.named requestId p hp
      rw [abortRequest_eq hwf hp, seq_of_groups rfl q, if_neg]
      intro heq
      rw [heq] at hq hne
      exact hne (hid.symm.trans (hwf.seqId hq).symm)

end Abort

/-! ## What the loop preserves -/

/-- Between the calls of the loop in recompute mode. Everything that has been scheduled and not yet
    updated is running with the blocks `num_blocks_needed` asks for, and a batch is made of these
    sequences as they are. -/
structure Slotted (cache : CacheConfig) (d : Driver) : Prop where
  wf : d.sched.WellFormed
  mode : d.sched.config.preemptionMode = .recompute
  accounted : ∃ own, Accounted cache d.sched own
  waiting : ∀ p ∈ d.sched.waiting, (d.sched.seq p).outputTokens = []
  unfinished : d.phase ≠ .updated → d.sched.AllUnfinished
  pending : ∀ p ∈ d.phase.pending, p ∈ d.sched.running ∧
    (d.sched.seq p).numBlocksNeeded cache.blockSize ≤ (d.sched.seq p).logicalBlocks.length
  nodup : d.phase.pending.Nodup
  batched : ∀ out batch, d.phase = .batched out batch →
    batch.totalTokens = batch.entries.length ∧
      batch.entries = out.scheduledGroups.flatMap (fun p => seqEntries (d.sched.seq p))

/-- In no sequence that has been scheduled and not yet updated does the sum of `num_blocks_needed`
    wrap. -/
def PendingNoWrap (d : Driver) (blockSize : Nat) : Prop :=
  ∀ p ∈ d.phase.pending, (d.sched.seq p).NoWrap blockSize

namespace Slotted

variable {cache : CacheConfig} {d : Driver}

theorem addRequest (h : Slotted cache d) {group : SequenceGroup}
    (hfresh : d.sched.FreshRequest group) :
    Slotted cache { d with sched := d.sched.addRequest group } := by
  obtain ⟨own, hacc⟩ := h.accounted
  have hold := h.wf.seq_addRequest group
  have hnew := hfresh.seq_next
  have hpend : ∀ q ∈ d.phase.pending, (d.sched.addRequest group).seq q = d.sched.seq q :=
    fun q hq => hold q (WellFormed.mem_running (h.pending q hq).1)
  refine ⟨addRequest_wellFormed h.wf hfresh, h.mode, ⟨own, hacc.addRequest h.wf hfresh⟩, ?_, ?_, ?_,
    h.nodup, ?_⟩
  · intro q hq
    rcases List.mem_append.1 hq with hq | hq
    · rw [hold q (WellFormed.mem_waiting hq)]
      exact h.waiting q hq
    · rw [List.mem_singleton.1 hq, hnew]
  · intro hphase q hq
    rcases List.mem_cons.1 ((d.sched.addRequest_queued group).mem_iff.1 hq) with rfl | hq
    · rw [hnew]
      rfl
    · rw [hold q hq]
      exact h.unfinished hphase q hq
  · intro q hq
    rw [hpend q hq]
    exact h.pending q hq
  · intro out batch hphase
    obtain ⟨htotal, hentries⟩ := h.batched out batch hphase
    refine ⟨htotal, hentries.trans (List.flatMap_congr (fun p hp => ?_))⟩
    rw [hpend p (by rw [hphase]; exact hp)]

theorem schedule (h : Slotted cache d) (hphase : d.phase = .ready)
    (fed : GroupPtr → List (BatchEntry × SequenceData)) :
    Slotted cache { sched := d.sched.schedule.2, phase := .scheduled d.sched.schedule.1,
                    fed := fed } := by
  obtain ⟨own, hacc⟩ := h.accounted
  have hunfin := h.unfinished (by rw [hphase]; simp)
  have hmid := schedule_accounted h.wf h.mode hunfin hacc
  obtain ⟨hs, hloop⟩ := schedule_midLoop h.wf hunfin
    (fun p hp => ⟨h.waiting p hp, hacc.waiting p hp⟩)
  refine ⟨hs.wf, (congrArg SchedulerConfig.preemptionMode hs.config).trans h.mode, hmid.accounted,
    fun p hp => (hloop.waiting p hp).1, ?_, hmid.filled, hloop.nodup, ?_⟩
  · intro _ p hp
    exact hmid.unfinished p (hs.queued.mem_iff.1 hp)
  · intro out batch hout
    cases hout

theorem updateAfterDecode (h : Slotted cache d) {out : SchedulerOutput} {toks : List TokenId}
    (hphase : d.phase = .decoded out toks) (now : TimePoint) :
    Slotted cache { d with sched := d.sched.updateAfterDecode out toks now, phase := .updated } := by
  obtain ⟨own, hacc⟩ := h.accounted
  refine ⟨updateAfterDecode_wellFormed h.wf out toks now, h.mode,
    ⟨own, hacc.updateAfterDecode h.wf out toks now⟩, ?_, fun hne => absurd rfl hne, ?_,
    List.nodup_nil, ?_⟩
  · intro p hp
    have hnot : p ∉ out.scheduledGroups := by
      intro hs
      have hrun := (h.pending p (by rw [hphase]; exact hs)).1
      exact h.wf.queues.disjoint_running_waiting hrun hp
    rw [updateAfterDecode_seq_of_not_mem toks now hnot]
    exact h.waiting p hp
  · intro p hp
    exact absurd hp List.not_mem_nil
  · intro out' batch hout
    cases hout

theorem freeFinishedRequests (h : Slotted cache d) :
    Slotted cache { d with sched := d.sched.freeFinishedRequests, phase := .ready } := by
  obtain ⟨own, hacc⟩ := h.accounted
  have hwf := freeFinishedRequests_wellFormed h.wf
  have hacc' := hacc.freeFinishedRequests h.wf
  rw [freeFinishedRequests_eq] at hwf hacc' ⊢
  refine ⟨hwf, h.mode, hacc', ?_, ?_, ?_, List.nodup_nil, ?_⟩
  · intro p hp
    exact h.waiting p (List.mem_filter.1 hp).1
  · intro _ p hp
    exact ((hacc.mem_unfinished_iff h.wf).1 hp).2
  · intro p hp
    exact absurd hp List.not_mem_nil
  · intro out batch hout
    cases hout

theorem abortRequest (h : Slotted cache d) (requestId : SeqId) :
    Slotted cache { d with sched := d.sched.abortRequest requestId, phase := .updated } := by
  obtain ⟨own, hacc⟩ := h.accounted
  have hsame := abortRequest_sameQueues d.sched requestId
  refine ⟨abortRequest_wellFormed h.wf requestId, ?_, hacc.abortRequest h.wf requestId, ?_,
    fun hne => absurd rfl hne, ?_, List.nodup_nil, ?_⟩
  · show (d.sched.abortRequest requestId).config.preemptionMode = .recompute
    rw [hsame.config]
    exact h.mode
  · intro p hp
    have hpw : p ∈ (d.sched.abortRequest requestId).waiting := hp
    rw [hsame.waiting] at hpw
    rw [abortRequest_outputTokens h.wf]
    exact h.waiting p hpw
  · intro p hp
    exact absurd hp List.not_mem_nil
  · intro out batch hout
    cases hout

theorem init_slotted {config : SchedulerConfig} (cache : CacheConfig)
    (hmode : config.preemptionMode = .recompute) : Slotted cache (init config cache) := by
  refine ⟨new_wellFormed config _, hmode, new_accounted config cache, ?_, ?_, ?_, List.nodup_nil, ?_⟩
  · exact fun p hp => absurd hp List.not_mem_nil
  · exact fun _ p hp => absurd hp List.not_mem_nil
  · exact fun p hp => absurd hp List.not_mem_nil
  · intro out batch hout
    cases hout

theorem sessionStep_slotted (cache : CacheConfig) (d : Driver) (op : SessionOp)
    (h : Slotted cache d) (hok : d.SessionEnabled op) : Slotted cache (d.sessionStep op) := by
  cases op with
  | abortRequest requestId => exact h.abortRequest requestId
  | loop op =>
      show Slotted cache (d.step op)
      rcases step_cases hok with ⟨group, -, hfresh, -, heq⟩ | ⟨-, hphase, heq⟩ |
        ⟨out, -, hphase, heq⟩ | ⟨out, batch, toks, -, hphase, -, heq⟩ |
        ⟨out, toks, now, -, hphase, heq⟩ | ⟨-, -, heq⟩
      · rw [heq]
        exact h.addRequest hfresh
      · rw [heq]
        exact h.schedule hphase _
      · have hpending := h.pending
        have hnodup := h.nodup
        rw [hphase] at hpending hnodup
        rw [heq]
        refine ⟨h.wf, h.mode, h.accounted, h.waiting, fun _ => h.unfinished (by rw [hphase]; simp),
          hpending, hnodup, ?_⟩
        intro out' batch hout
        cases hout
        exact ⟨buildBatch_totalTokens _ _, buildBatch_entries_single h.wf
          (fun p hp => WellFormed.mem_running (hpending p hp).1)⟩
      · have hpending := h.pending
        have hnodup := h.nodup
        rw [hphase] at hpending hnodup
        rw [heq]
        refine ⟨h.wf, h.mode, h.accounted, h.waiting, fun _ => h.unfinished (by rw [hphase]; simp),
          hpending, hnodup, ?_⟩
        intro out' batch' hout
        cases hout
      · rw [heq]
        exact h.updateAfterDecode hphase now
      · rw [heq]
        exact h.freeFinishedRequests

theorem sessionStep_noWrap {op : SessionOp} (h : Slotted cache d)
    (hsum : d.PendingNoWrap cache.blockSize) (hok : d.SessionNoWrap op) :
    (d.sessionStep op).PendingNoWrap cache.blockSize := by
  cases op with
  | abortRequest requestId => exact fun p hp => absurd hp List.not_mem_nil
  | loop op =>
      show (d.step op).PendingNoWrap cache.blockSize
      rcases step_cases hok.1 with ⟨group, -, -, -, heq⟩ | ⟨rfl, hphase, heq⟩ |
        ⟨out, -, hphase, heq⟩ | ⟨out, batch, toks, -, hphase, -, heq⟩ |
        ⟨out, toks, now, -, -, heq⟩ | ⟨-, -, heq⟩
      · rw [heq]
        intro p hp
        show ((d.sched.addRequest group).seq p).NoWrap cache.blockSize
        rw [h.wf.seq_addRequest group p (WellFormed.mem_running (h.pending p hp).1)]
        exact hsum p hp
      · obtain ⟨own, hacc⟩ := h.accounted
        have hunfin := h.unfinished (by rw [hphase]; simp)
        rw [heq]
        intro p hp
        have hrun := ((schedule_accounted h.wf h.mode hunfin hacc).filled p hp).1
        rw [← hacc.blockSize]
        exact (schedule_midStep h.wf).noWrap h.wf hok.2 (WellFormed.mem_running hrun)
      · rw [heq]
        rw [PendingNoWrap, hphase] at hsum
        exact hsum
      · rw [heq]
        rw [PendingNoWrap, hphase] at hsum
        exact hsum
      · rw [heq]
        exact fun p hp => absurd hp List.not_mem_nil
      · rw [heq]
        exact fun p hp => absurd hp List.not_mem_nil

theorem init_noWrap (config : SchedulerConfig) (cache : CacheConfig) :
    (init config cache).PendingNoWrap cache.blockSize :=
  fun _ hp => absurd hp List.not_mem_nil

/-! ## The tables of the running sequences -/

theorem tableIn (h : Slotted cache d) (hphase : d.phase ≠ .updated) {p : GroupPtr}
    (hp : p ∈ d.sched.running) : TableIn cache.numGpuBlocks (d.sched.seq p).logicalBlocks := by
  obtain ⟨own, hacc⟩ := h.accounted
  have hown := hacc.running p hp
  rw [held_of_unfinished (h.unfinished hphase p (WellFormed.mem_running hp))] at hown
  rw [← hown]
  refine ⟨hacc.owned.nodup _, ?_⟩
  intro b hb
  obtain ⟨hpos, hlt⟩ := hacc.owned.inRange hb
  rw [hacc.pool] at hlt
  exact ⟨hpos, (Int.toNat_lt hpos).1 hlt⟩

theorem disjoint (h : Slotted cache d) (hphase : d.phase ≠ .updated) {p q : GroupPtr}
    (hp : p ∈ d.sched.running) (hq : q ∈ d.sched.running)
    (hne : (d.sched.seq p).seqId ≠ (d.sched.seq q).seqId) :
    List.Disjoint (d.sched.seq p).logicalBlocks (d.sched.seq q).logicalBlocks := by
  obtain ⟨own, hacc⟩ := h.accounted
  have hown := hacc.running p hp
  have hown' := hacc.running q hq
  rw [held_of_unfinished (h.unfinished hphase p (WellFormed.mem_running hp))] at hown
  rw [held_of_unfinished (h.unfinished hphase q (WellFormed.mem_running hq))] at hown'
  rw [← hown, ← hown']
  exact hacc.owned.disjoint _ _ hne

/-- The group an entry of the batch comes from. -/
theorem entry_group (h : Slotted cache d) {out : SchedulerOutput} {batch : DecodeBatch}
    (hphase : d.phase = .batched out batch) {e : BatchEntry} (he : e ∈ batch.entries) :
    ∃ p ∈ d.sched.running, e.seqId = (d.sched.seq p).seqId ∧
      e.blockTable = (d.sched.seq p).logicalBlocks ∧ e.position < (d.sched.seq p).totalLen ∧
      p ∈ d.phase.pending := by
  rw [(h.batched out batch hphase).2] at he
  obtain ⟨p, hp, he⟩ := List.mem_flatMap.1 he
  have hpend : p ∈ d.phase.pending := by rw [hphase]; exact hp
  exact ⟨p, (h.pending p hpend).1, seqEntries_seqId he, seqEntries_blockTable he,
    seqEntries_position_lt he, hpend⟩

/-- The table of a scheduled sequence covers its tokens, where the sum does not wrap. -/
theorem table_length (h : Slotted cache d) (hsum : d.PendingNoWrap cache.blockSize)
    (hphase : d.phase ≠ .updated) {p : GroupPtr} (hp : p ∈ d.phase.pending) :
    (d.sched.seq p).logicalBlocks.length = (d.sched.seq p).totalLen ⌈/⌉ cache.blockSize := by
  obtain ⟨own, hacc⟩ := h.accounted
  obtain ⟨hrun, hneeded⟩ := h.pending p hp
  exact (hsum p hp).length_eq hneeded
    (hacc.grown p hrun (h.unfinished hphase p (WellFormed.mem_running hrun)))

/-- **The tables of every batch are apart.** -/
theorem batch_apart (h : Slotted cache d) (hsum : d.PendingNoWrap cache.blockSize)
    (hbs : 1 ≤ cache.blockSize) {out : SchedulerOutput} {batch : DecodeBatch}
    (hphase : d.phase = .batched out batch) :
    batch.Apart cache.numGpuBlocks cache.blockSize := by
  have hne : d.phase ≠ .updated := by rw [hphase]; simp
  refine ⟨(h.batched out batch hphase).1, ?_, ?_, ?_, ?_, ?_⟩
  · intro e he
    obtain ⟨p, hp, -, htable, -, -⟩ := h.entry_group hphase he
    rw [htable]
    exact h.tableIn hne hp
  · intro e he
    obtain ⟨p, -, -, htable, hpos, hpend⟩ := h.entry_group hphase he
    rw [htable, h.table_length hsum hne hpend]
    exact index_lt hbs hpos
  · intro e he e' he' hid
    obtain ⟨p, hp, hidp, htable, -, -⟩ := h.entry_group hphase he
    obtain ⟨q, hq, hidq, htable', -, -⟩ := h.entry_group hphase he'
    have hpq : p = q := h.wf.eq_of_seqId (WellFormed.mem_running hp) (WellFormed.mem_running hq)
      (by rw [← hidp, ← hidq, hid])
    rw [htable, htable', hpq]
  · intro e he e' he' hid
    obtain ⟨p, hp, hidp, htable, -, -⟩ := h.entry_group hphase he
    obtain ⟨q, hq, hidq, htable', -, -⟩ := h.entry_group hphase he'
    rw [htable, htable']
    exact h.disjoint hne hp hq (by rw [← hidp, ← hidq]; exact hid)
  · have hnodup := h.nodup
    have hpending := h.pending
    rw [hphase] at hnodup hpending
    rw [(h.batched out batch hphase).2, List.map_flatMap, List.nodup_flatMap]
    refine ⟨fun p _ => seqEntries_positions _, hnodup.pairwise_of_forall_ne ?_⟩
    intro p hp q hq hpq x hx hx'
    -- two groups have different sequence ids
    obtain ⟨e, he, rfl⟩ := List.mem_map.1 hx
    obtain ⟨e', he', heq⟩ := List.mem_map.1 hx'
    refine hpq (h.wf.eq_of_seqId (WellFormed.mem_running (hpending p hp).1)
      (WellFormed.mem_running (hpending q hq).1) ?_)
    rw [← seqEntries_seqId he, ← seqEntries_seqId he']
    exact (Prod.mk.inj heq).1.symm

end Slotted

/-! ## A table only grows -/

/-- Between the moves of a step: a running group that has not been preempted is still running, and its
    table has only grown at its end. -/
def MidGrowth (st : Scheduler) (s : ScheduleState) : Prop :=
  ∀ q ∈ st.running, q ∉ s.output.preemptedGroups →
    q ∈ s.sched.running ∧ (s.sched.seq q).seqId = (st.seq q).seqId ∧
      (st.seq q).logicalBlocks <+: (s.sched.seq q).logicalBlocks

theorem schedule_grows {st : Scheduler} (hwf : st.WellFormed)
    (hmode : st.config.preemptionMode = .recompute) (hunfin : st.AllUnfinished)
    {cache : CacheConfig} {own : BlockManager.Owners} (hacc : Accounted cache st own) :
    MidGrowth st st.afterSwapIn := by
  refine (afterSwapIn_recompute (P := MidGrowth st) hwf hmode hunfin hacc ?_ ?_ ?_ ?_ ?_).2
  · exact fun q hq _ => ⟨hq, rfl, List.prefix_rfl⟩
  · intro s p rest hs _ h hat hfin _ q hq hnot
    obtain ⟨hrun, hid, hpre⟩ := h q hq hnot
    have hsingle := hs.wf.single_of_mem (WellFormed.mem_running hat.mem_running)
    obtain ⟨bids, -, hseq⟩ := ScheduleState.decodeGroup_seq hsingle hfin
    refine ⟨hrun, ?_⟩
    rw [hseq]
    split
    · next heq =>
        subst heq
        exact ⟨hid, hpre.trans (List.prefix_append _ _)⟩
    · exact ⟨hid, hpre⟩
  · intro s init v hs hmid h hat hrun q hq hnot
    -- the victim is recorded as preempted, so `q` is another group
    have hnot' : q ∉ s.output.preemptedGroups ++ [v] := hnot
    obtain ⟨hqrun, hid, hpre⟩ := h q hq (fun hmem => hnot' (List.mem_append_left _ hmem))
    have hqv : q ≠ v := fun heq => hnot' (by rw [heq]; simp)
    have hmem : v ∈ s.sched.queued := WellFormed.mem_running (by rw [hrun]; simp)
    have hfin := hmid.unfinished v (hs.queued.mem_iff.1 hmem)
    rw [ScheduleState.recomputeGroup_seq (hs.wf.single_of_mem hmem) init hfin, if_neg hqv]
    rw [hrun] at hqrun
    exact ⟨mem_of_mem_concat hqrun hqv, hid, hpre⟩
  · intro s w h _
    exact h
  · intro s p rest hs _ h hwait _ q hq hnot
    obtain ⟨hrun, hid, hpre⟩ := h q hq hnot
    have hpw : p ∈ s.sched.waiting := by rw [hwait]; exact List.mem_cons_self ..
    have hqp : q ≠ p := fun heq => hs.wf.queues.disjoint_running_waiting hrun (heq ▸ hpw)
    obtain ⟨bids, -, hseq⟩ :=
      ScheduleState.admitGroup_seq (hs.wf.single_of_mem (WellFormed.mem_waiting hpw)) rest
    rw [hseq, if_neg hqp]
    exact ⟨List.mem_append_left _ hrun, hid, hpre⟩

/-- The sequence `s` is running, and its table starts with `table`. -/
def Keeps (s : SeqId) (table : List BlockId) (d : Driver) : Prop :=
  ∃ p ∈ d.sched.running, (d.sched.seq p).seqId = s ∧ table <+: (d.sched.seq p).logicalBlocks

/-- **Until it is released a sequence keeps its table.** -/
theorem sessionStep_keeps {cache : CacheConfig} {d : Driver} {s : SeqId} {table : List BlockId}
    {op : SessionOp} (h : Slotted cache d) (hkeeps : d.Keeps s table) (hok : d.SessionEnabled op)
    (hrel : ¬ d.Releases s op) : (d.sessionStep op).Keeps s table := by
  obtain ⟨p, hp, hid, hpre⟩ := hkeeps
  have hpq : p ∈ d.sched.queued := WellFormed.mem_running hp
  cases op with
  | abortRequest requestId =>
      have hne : requestId ≠ (d.sched.seq p).seqId := by rw [hid]; exact hrel
      refine ⟨p, ?_, ?_⟩
      · show p ∈ (d.sched.abortRequest requestId).running
        rw [(abortRequest_sameQueues d.sched requestId).running]
        exact hp
      · show ((d.sched.abortRequest requestId).seq p).seqId = s ∧
          table <+: ((d.sched.abortRequest requestId).seq p).logicalBlocks
        rw [abortRequest_seq_of_ne h.wf hpq hne]
        exact ⟨hid, hpre⟩
  | loop op =>
      show (d.step op).Keeps s table
      rcases step_cases hok with ⟨group, -, hfresh, -, heq⟩ | ⟨rfl, hphase, heq⟩ |
        ⟨out, -, hphase, heq⟩ | ⟨out, batch, toks, -, hphase, -, heq⟩ |
        ⟨out, toks, now, -, hphase, heq⟩ | ⟨rfl, -, heq⟩
      · have hseq := h.wf.seq_addRequest group p hpq
        rw [heq]
        refine ⟨p, hp, ?_⟩
        show ((d.sched.addRequest group).seq p).seqId = s ∧
          table <+: ((d.sched.addRequest group).seq p).logicalBlocks
        rw [hseq]
        exact ⟨hid, hpre⟩
      · obtain ⟨own, hacc⟩ := h.accounted
        have hgrow := schedule_grows h.wf h.mode (h.unfinished (by rw [hphase]; simp)) hacc
        obtain ⟨hrun, hid', hpre'⟩ := hgrow p hp (fun hpre => hrel ⟨p, hpre, hid⟩)
        rw [heq]
        exact ⟨p, hrun, hid'.trans hid, hpre.trans hpre'⟩
      · rw [heq]
        exact ⟨p, hp, hid, hpre⟩
      · rw [heq]
        exact ⟨p, hp, hid, hpre⟩
      · have hext := h.wf.extends_updateAfterDecode out toks now p hpq
        have hblocks : ((d.sched.updateAfterDecode out toks now).seq p).logicalBlocks
            = (d.sched.seq p).logicalBlocks := hext.logicalBlocks
        rw [heq]
        refine ⟨p, hp, hext.seqId.trans hid, ?_⟩
        show table <+: ((d.sched.updateAfterDecode out toks now).seq p).logicalBlocks
        rw [hblocks]
        exact hpre
      · have hstay : (d.sched.seq p).isFinished = false := by
          by_contra hfin
          refine hrel ⟨p, List.mem_append_left _ ?_, hid⟩
          exact (finishedIn_single h.wf (fun _ => WellFormed.mem_running)).2 ⟨hp, by simpa using hfin⟩
        rw [heq, freeFinishedRequests_eq]
        exact ⟨p, (unfinishedIn_single h.wf (fun _ => WellFormed.mem_running)).2 ⟨hp, hstay⟩, hid, hpre⟩

/-- In a later batch, a slot of the sequence is where it was and belongs to nobody else. -/
theorem Slotted.stable_slot {cache : CacheConfig} {d : Driver} (h : Slotted cache d)
    (hsum : d.PendingNoWrap cache.blockSize) (hbs : 1 ≤ cache.blockSize) (hsize : cache.numGpuBlocks * cache.blockSize < 2 ^ 31)
    {out : SchedulerOutput} {batch : DecodeBatch} (hphase : d.phase = .batched out batch)
    {s : SeqId} {table : List BlockId} {position : Nat} {x : Int} (hkeeps : d.Keeps s table)
    (hidx : position / cache.blockSize < table.length)
    (hslot : slotAt cache.blockSize table position = some x) :
    (∀ e ∈ batch.entries, e.seqId = s → slotAt cache.blockSize e.blockTable position = some x) ∧
      ∀ e, batch.Assigns cache.blockSize e x → e.seqId = s ∧ e.position = position := by
  obtain ⟨p, hp, hid, hpre⟩ := hkeeps
  have hne : d.phase ≠ .updated := by rw [hphase]; simp
  have htable := h.tableIn hne hp
  have hidx' := Nat.lt_of_lt_of_le hidx hpre.length_le
  have hslot' : slotAt cache.blockSize (d.sched.seq p).logicalBlocks position = some x :=
    (htable.slotAt_of_prefix hpre hbs hsize hidx).trans hslot
  have hapart := h.batch_apart hsum hbs hphase
  have hown : ∀ e ∈ batch.entries, e.seqId = s → e.blockTable = (d.sched.seq p).logicalBlocks := by
    intro e he heid
    obtain ⟨q, hq, hidq, htq, -, -⟩ := h.entry_group hphase he
    have hqp : q = p := h.wf.eq_of_seqId (WellFormed.mem_running hq) (WellFormed.mem_running hp)
      (by rw [← hidq, heid, hid])
    rw [htq, hqp]
  constructor
  · intro e he heid
    rw [hown e he heid]
    exact hslot'
  · intro e hassigns
    obtain ⟨he, hx⟩ := DecodeBatch.assigns_iff.1 hassigns
    have hcov := hapart.covered e he
    by_cases heid : e.seqId = s
    · rw [hown e he heid] at hx hcov
      exact ⟨heid, htable.position_eq hbs hsize hcov hidx' (hx.trans hslot'.symm)⟩
    · obtain ⟨q, hq, hidq, htq, -, -⟩ := h.entry_group hphase he
      rw [htq] at hx hcov
      obtain ⟨hblock, -⟩ := (h.tableIn hne hq).eq_of_slotAt htable hbs hsize hcov hidx'
        (hx.trans hslot'.symm)
      have hdisj := h.disjoint hne hq hp (by rw [← hidq, hid]; exact heid)
      exact absurd (hblock ▸ List.getElem_mem hidx') (hdisj (List.getElem_mem hcov))

/-! ## The result -/

/-- The slot `x` of the entry `e` stays with it: in every batch built before the sequence of `e` is
    preempted, aborted or freed, its table still maps the position to `x`, and `x` is assigned
    to no other position or sequence. -/
def StableFrom (blockSize : Nat) (d : Driver) (e : BatchEntry) (x : Int) : Prop :=
  ∀ d', Run.Reach sessionStep (fun d op => d.SessionNoWrap op ∧ ¬ d.Releases e.seqId op) d d' →
    ∀ out batch, d'.phase = .batched out batch →
      (∀ e' ∈ batch.entries, e'.seqId = e.seqId →
        slotAt blockSize e'.blockTable e.position = some x) ∧
      ∀ e', batch.Assigns blockSize e' x → e'.seqId = e.seqId ∧ e'.position = e.position

/-- **Slots are private and stable.** In every batch of every run in recompute mode in which no sum wraps,
    all slots are written, distinct and in the pool, and each of them stays with its position until
    the sequence is preempted, aborted or freed. -/
theorem slots_private_and_stable (config : SchedulerConfig) (cache : CacheConfig)
    (hmode : config.preemptionMode = .recompute) (hbs : 1 ≤ cache.blockSize)
    (hsize : cache.numGpuBlocks * cache.blockSize < 2 ^ 31) (d : Driver)
    (hreach : Run.Reach sessionStep SessionNoWrap (init config cache) d) (out : SchedulerOutput)
    (batch : DecodeBatch) (hphase : d.phase = .batched out batch) :
    PrivateSlots (cache.numGpuBlocks * cache.blockSize) batch
        (prepareKvCacheInputs cache.blockSize batch).slotMapping ∧
      ∀ e x, batch.Assigns cache.blockSize e x → StableFrom cache.blockSize d e x := by
  have hstep : ∀ d op, Slotted cache d ∧ d.PendingNoWrap cache.blockSize → d.SessionNoWrap op →
      Slotted cache (d.sessionStep op) ∧ (d.sessionStep op).PendingNoWrap cache.blockSize :=
    fun d op hd hok => ⟨Slotted.sessionStep_slotted cache d op hd.1 hok.enabled,
      hd.1.sessionStep_noWrap hd.2 hok⟩
  obtain ⟨h, hsum⟩ : Slotted cache d ∧ d.PendingNoWrap cache.blockSize :=
    hreach.invariant (P := fun d => Slotted cache d ∧ d.PendingNoWrap cache.blockSize)
      ⟨Slotted.init_slotted cache hmode, Slotted.init_noWrap config cache⟩ hstep
  have hapart := h.batch_apart hsum hbs hphase
  refine ⟨hapart.privateSlots hbs hsize, ?_⟩
  intro e x hassigns d' hreach' out' batch' hphase'
  obtain ⟨he, hx⟩ := DecodeBatch.assigns_iff.1 hassigns
  obtain ⟨p, hp, hid, htable, -, -⟩ := h.entry_group hphase he
  have hkeeps : d.Keeps e.seqId e.blockTable := ⟨p, hp, hid.symm, by rw [htable]⟩
  obtain ⟨hinv, hkeeps'⟩ : (Slotted cache d' ∧ d'.PendingNoWrap cache.blockSize) ∧
      d'.Keeps e.seqId e.blockTable := by
    refine hreach'.invariant (P := fun d => (Slotted cache d ∧ d.PendingNoWrap cache.blockSize) ∧
      d.Keeps e.seqId e.blockTable) ⟨⟨h, hsum⟩, hkeeps⟩ ?_
    rintro d op ⟨hd, hk⟩ ⟨hok, hrel⟩
    exact ⟨hstep d op hd hok, sessionStep_keeps hd.1 hk hok.enabled hrel⟩
  exact hinv.1.stable_slot hinv.2 hbs hsize hphase' hkeeps' (hapart.covered e he) hx

/-- Two requests on a pool of three blocks of two tokens. -/
def untilFirstBatch : List SessionOp :=
  [.loop (.addRequest (.new 1 [7, 8] {})), .loop (.addRequest (.new 2 [9] {})), .loop .schedule,
    .loop .buildBatch]

/-- The second request is aborted and the first one takes its block; a third request arrives. -/
def abortSecond : List SessionOp :=
  [.loop (.step [5, 5, 5]), .loop (.updateAfterDecode 0), .loop .freeFinishedRequests,
    .abortRequest 2, .loop .freeFinishedRequests, .loop (.addRequest (.new 3 [6] {})),
    .loop .schedule, .loop .buildBatch]

def twoBatched : Driver :=
  untilFirstBatch.foldl sessionStep (init { preemptionMode := .recompute }
    { numGpuBlocks := 3, numCpuBlocks := 0, blockSize := 2 })

def secondAborted : Driver := abortSecond.foldl sessionStep twoBatched

/-- The batch that has been built, if one has. -/
def builtBatch (d : Driver) : DecodeBatch :=
  match d.phase with
  | .batched _ batch => batch
  | .ready | .scheduled _ | .decoded _ _ | .updated => {}

/-- One request of two tokens on an empty pool: with a block size of `2^64 - 1` the sum wraps to 0. -/
def emptyPoolBatched : Driver :=
  [SessionOp.loop (.addRequest (.new 1 [7, 8] {})), .loop .schedule, .loop .buildBatch].foldl
    sessionStep (init { preemptionMode := .recompute }
      { numGpuBlocks := 0, numCpuBlocks := 0, blockSize := 2 ^ 64 - 1 })

/-- The batch has two entries, and the first one gets no slot. -/
theorem emptyPoolBatched_unwritten :
    Run.Reach sessionStep SessionEnabled (init { preemptionMode := .recompute }
      { numGpuBlocks := 0, numCpuBlocks := 0, blockSize := 2 ^ 64 - 1 }) emptyPoolBatched ∧
    0 * (2 ^ 64 - 1) < 2 ^ 31 ∧ emptyPoolBatched.builtBatch.entries.length = 2 ∧
    (prepareKvCacheInputs (2 ^ 64 - 1) emptyPoolBatched.builtBatch).slotMapping[0]? = some none ∧
    ¬ PrivateSlots 0 emptyPoolBatched.builtBatch
      (prepareKvCacheInputs (2 ^ 64 - 1) emptyPoolBatched.builtBatch).slotMapping := by
  have hslot : (prepareKvCacheInputs (2 ^ 64 - 1) emptyPoolBatched.builtBatch).slotMapping[0]?
      = some none := by decide
  refine ⟨Run.Reach.of_allOk _ (by decide), by decide, by decide, hslot, fun h => ?_⟩
  obtain ⟨x, hx, -⟩ := h.written none (List.mem_of_getElem? hslot)
  cases hx

theorem twoBatched_slots :
    (prepareKvCacheInputs 2 twoBatched.builtBatch).slotMapping = [some 0, some 1, some 2] ∧
      (prepareKvCacheInputs 2 secondAborted.builtBatch).slotMapping = [some 2, some 4] ∧
      PrivateSlots 6 twoBatched.builtBatch [some 0, some 1, some 2] ∧
      ∀ e ∈ secondAborted.builtBatch.entries, e.seqId = 1 → slotAt 2 e.blockTable 1 = some 1 := by
  have hslots : (prepareKvCacheInputs 2 twoBatched.builtBatch).slotMapping
      = [some 0, some 1, some 2] := by decide
  obtain ⟨out, hout⟩ : ∃ out, twoBatched.phase = .batched out twoBatched.builtBatch := ⟨_, rfl⟩
  obtain ⟨out', hout'⟩ : ∃ out, secondAborted.phase = .batched out secondAborted.builtBatch :=
    ⟨_, rfl⟩
  obtain ⟨hprivate, hstable⟩ := slots_private_and_stable { preemptionMode := .recompute }
    { numGpuBlocks := 3, numCpuBlocks := 0, blockSize := 2 } rfl (by decide) (by decide) twoBatched
    (Run.Reach.of_allOk untilFirstBatch (by decide)) out twoBatched.builtBatch hout
  refine ⟨hslots, by decide, hslots ▸ hprivate, ?_⟩
  have hassigns : twoBatched.builtBatch.Assigns 2
      { seqId := 1, token := 8, position := 1, blockTable := [0], isPrefill := true } 1 := by
    decide
  exact (hstable _ _ hassigns secondAborted (Run.Reach.of_allOk abortSecond (by decide)) out'
    secondAborted.builtBatch hout').1

end Driver

end CacheFlow
