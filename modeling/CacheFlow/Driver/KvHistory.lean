import CacheFlow.Driver.Slots
import CacheFlow.PagedAttention.Store

set_option autoImplicit false

/-! # What attention reads is what was computed for the sequence

The loop of `Driver` in recompute mode with the caches: in each step the keys and values of the batch are
stored with `launch_reshape_and_cache` at the slots `prepare_kv_cache_inputs` has computed, and then
attention reads the caches through the block tables. `KvDriver` has that loop, with aborts between two
iterations, where no `schedule()` call meets a sequence that wraps the sum in `num_blocks_needed`; `keys`
and `values` record the vector last computed for each sequence and position, as if every sequence had a
memory of its own.

The pool is shared, blocks are freed and handed out again, and nothing is ever erased. Still every cell
that attention reads for an entry has what was recorded for that sequence and position
(`KvDriver.reads_recorded`), so `paged_attention_v1_kernel` computes attention over the sequence's own
vectors (`KvDriver.attention_own_history`). -/

namespace CacheFlow

open Scheduler BatchManager PagedAttention

/-- The loop with the caches. -/
structure KvDriver (K : Type) where
  driver : Driver
  caches : KvCaches K
  keys : Vectors K
  values : Vectors K

inductive KvOp (K : Type)
  /-- A call that leaves the caches alone. -/
  | session (op : Driver.SessionOp)
  /-- `step`, with the keys and values of the batch and the order in which the threads store them. -/
  | decode (newTokens : List TokenId) (new : NewVectors K) (order : List (Nat × Int))

/-- The call is `step`. -/
def Driver.SessionOp.IsStep : Driver.SessionOp → Prop
  | .loop (.step _) => True
  | .loop (.addRequest _) | .loop .schedule | .loop .buildBatch | .loop (.updateAfterDecode _)
  | .loop .freeFinishedRequests | .abortRequest _ => False

instance : (op : Driver.SessionOp) → Decidable op.IsStep
  | .loop (.step _) => isTrue trivial
  | .loop (.addRequest _) | .loop .schedule | .loop .buildBatch | .loop (.updateAfterDecode _)
  | .loop .freeFinishedRequests | .abortRequest _ => isFalse id

namespace KvDriver

variable {K : Type}

def init (config : SchedulerConfig) (cache : CacheConfig) (caches : KvCaches K)
    (keys values : Vectors K) : KvDriver K where
  driver := Driver.init config cache
  caches := caches
  keys := keys
  values := values

def step (sh : Shape) (numKvHeads : Nat) (s : KvDriver K) : KvOp K → KvDriver K
  | .session op => { s with driver := s.driver.sessionStep op }
  | .decode newTokens new order =>
    { driver := s.driver.sessionStep (.loop (.step newTokens)),
      caches := reshapeAndCache new order s.caches,
      keys := remember sh numKvHeads s.driver.builtBatch new.key s.keys,
      values := remember sh numKvHeads s.driver.builtBatch new.value s.values }

/-- What may happen next. The threads of a launch run in any order. -/
def Enabled (sh : Shape) (numKvHeads : Nat) (s : KvDriver K) : KvOp K → Prop
  | .session op => ¬ op.IsStep ∧ s.driver.SessionNoWrap op
  | .decode newTokens _ order => s.driver.SessionEnabled (.loop (.step newTokens)) ∧
      order.Perm (cacheWrites sh numKvHeads s.driver.builtBatch)

instance (sh : Shape) (numKvHeads : Nat) (s : KvDriver K) :
    (op : KvOp K) → Decidable (s.Enabled sh numKvHeads op)
  | .session op => inferInstanceAs (Decidable (¬ op.IsStep ∧ s.driver.SessionNoWrap op))
  | .decode newTokens _ order =>
    inferInstanceAs (Decidable (s.driver.SessionEnabled (.loop (.step newTokens)) ∧
      order.Perm (cacheWrites sh numKvHeads s.driver.builtBatch)))

end KvDriver

namespace Driver

/-! ## How much of a sequence is stored -/

/-- Before a step everything but the last token is stored, and nothing before the prefill. -/
def storedLen (seq : SequenceData) : Nat := if seq.outputTokens = [] then 0 else seq.totalLen - 1

theorem storedLen_le_of_totalLen_le {seq : SequenceData} {n : Nat} (h : seq.totalLen ≤ n + 1) :
    storedLen seq ≤ n := by
  unfold storedLen
  split
  · exact Nat.zero_le n
  · omega

/-- How many positions of the group are stored: after `step` all of a scheduled one. -/
def residentLen (d : Driver) (p : GroupPtr) : Nat :=
  match d.phase with
  | .decoded out _ =>
    if p ∈ out.scheduledGroups then (d.sched.seq p).totalLen else storedLen (d.sched.seq p)
  | .ready | .scheduled _ | .batched _ _ | .updated => storedLen (d.sched.seq p)

theorem residentLen_eq_storedLen {d : Driver} {p : GroupPtr}
    (hphase : ∀ out toks, d.phase ≠ .decoded out toks) : d.residentLen p = storedLen (d.sched.seq p) := by
  unfold residentLen
  split
  · next out toks hdec => exact absurd hdec (hphase out toks)
  · rfl
  · rfl
  · rfl
  · rfl

/-- The running sequences are stored as far as `residentLen` says. -/
def Resident {K : Type} (sh : Shape) (numKvHeads : Nat) (mem : Int → K) (record : Vectors K)
    (d : Driver) : Prop :=
  ∀ p ∈ d.sched.running, (d.sched.seq p).isFinished = false → ∀ pos < d.residentLen p,
    Stored sh numKvHeads mem record (d.sched.seq p).logicalBlocks (d.sched.seq p).seqId pos

/-- What of a group's sequence is as before: its table has only grown. -/
structure StillHeld (d d' : Driver) (p : GroupPtr) : Prop where
  running : p ∈ d.sched.running
  unfinished : (d.sched.seq p).isFinished = false
  seqId : (d'.sched.seq p).seqId = (d.sched.seq p).seqId
  table : (d.sched.seq p).logicalBlocks <+: (d'.sched.seq p).logicalBlocks
  resident : d'.residentLen p ≤ d.residentLen p

/-- **Without a write** what is stored stays stored. -/
theorem Resident.of_stillHeld {K : Type} {sh : Shape} {numKvHeads : Nat} {mem : Int → K}
    {record : Vectors K} {d d' : Driver} (h : d.Resident sh numKvHeads mem record)
    (hheld : ∀ p ∈ d'.sched.running, (d'.sched.seq p).isFinished = false → 0 < d'.residentLen p →
      StillHeld d d' p) : d'.Resident sh numKvHeads mem record := by
  intro p hp hfin pos hpos
  have hp' := hheld p hp hfin (Nat.zero_lt_of_lt hpos)
  obtain ⟨b, hb, hcells⟩ := h p hp'.running hp'.unfinished pos (Nat.lt_of_lt_of_le hpos hp'.resident)
  obtain ⟨hlt, rfl⟩ := List.getElem?_eq_some_iff.1 hb
  rw [hp'.seqId]
  exact ⟨_, List.prefix_iff_getElem?.1 hp'.table _ hlt, hcells⟩

/-! ## The calls that write nothing -/

/-- Between the moves of a step in recompute mode: a running group with output ran before, with the same
    tokens, and its table has only grown. -/
def MidHeld (st : Scheduler) (s : ScheduleState) : Prop :=
  ∀ q ∈ s.sched.running, (s.sched.seq q).outputTokens = [] ∨
    (q ∈ st.running ∧ (s.sched.seq q).seqId = (st.seq q).seqId ∧
      (st.seq q).logicalBlocks <+: (s.sched.seq q).logicalBlocks ∧
      storedLen (s.sched.seq q) = storedLen (st.seq q))

theorem schedule_held {st : Scheduler} (hwf : st.WellFormed)
    (hmode : st.config.preemptionMode = .recompute) (hunfin : st.AllUnfinished)
    (hwait : ∀ q ∈ st.waiting, (st.seq q).outputTokens = []) {cache : CacheConfig}
    {own : BlockManager.Owners} (hacc : Accounted cache st own) : MidHeld st st.afterSwapIn := by
  -- the waiting groups have no output at any point of the call
  refine (afterSwapIn_recompute (P := fun s => MidHeld st s ∧
    ∀ q ∈ s.sched.waiting, (s.sched.seq q).outputTokens = []) hwf hmode hunfin hacc ?_ ?_ ?_ ?_ ?_).2.1
  · exact ⟨fun q hq => .inr ⟨hq, rfl, List.prefix_rfl, rfl⟩, hwait⟩
  · rintro s p rest hs - ⟨h, hw⟩ hat hfin -
    have hsingle := hs.wf.single_of_mem (WellFormed.mem_running hat.mem_running)
    obtain ⟨bids, -, hseq⟩ := ScheduleState.decodeGroup_seq hsingle hfin
    constructor
    · intro q hq
      rw [hseq]
      split
      · next heq =>
          subst heq
          rcases h q hq with hnil | ⟨hrun, hid, hpre, hlen⟩
          · exact .inl hnil
          · exact .inr ⟨hrun, hid, hpre.trans (List.prefix_append _ _), hlen⟩
      · exact h q hq
    · intro q hq
      rw [hseq]
      split
      · next heq =>
          subst heq
          exact hw q hq
      · exact hw q hq
  · rintro s init v hs hmid ⟨h, hw⟩ - hrun
    have hmem : v ∈ s.sched.queued := WellFormed.mem_running (by rw [hrun]; simp)
    have hfin := hmid.unfinished v (hs.queued.mem_iff.1 hmem)
    have hseq := ScheduleState.recomputeGroup_seq (hs.wf.single_of_mem hmem) init hfin
    constructor
    · intro q hq
      have hnodup := hs.wf.queues.nodup_running
      rw [hrun] at hnodup
      have hqv : q ≠ v := fun heq =>
        (List.nodup_append.1 hnodup).2.2 q hq v (List.mem_singleton_self v) heq
      rw [hseq, if_neg hqv]
      exact h q (by rw [hrun]; exact List.mem_append_left _ hq)
    · intro q hq
      rw [hseq]
      split
      · rfl
      · next hqv =>
          rcases List.mem_cons.1 hq with heq | hq
          · exact absurd heq hqv
          · exact hw q hq
  · rintro s w ⟨h, hw⟩ hperm
    exact ⟨h, fun q hq => hw q (hperm.mem_iff.1 hq)⟩
  · rintro s p rest hs - ⟨h, hw⟩ hwaiting -
    have hpw : p ∈ s.sched.waiting := by rw [hwaiting]; exact List.mem_cons_self ..
    obtain ⟨bids, -, hseq⟩ :=
      ScheduleState.admitGroup_seq (hs.wf.single_of_mem (WellFormed.mem_waiting hpw)) rest
    constructor
    · intro q hq
      rw [hseq]
      split
      · exact .inl (hw p hpw)
      · next hqp =>
          rcases List.mem_append.1 hq with hq | hq
          · exact h q hq
          · exact absurd (List.mem_singleton.1 hq) hqp
    · intro q hq
      rw [hseq]
      split
      · exact hw p hpw
      · exact hw q (by rw [hwaiting]; exact List.mem_cons_of_mem _ hq)

/-- One visit hands a sequence one token at most. -/
theorem updateSequences_totalLen_le (maxTokens : Int) (now : TimePoint) (x : SequenceData)
    (first : Option TimePoint) (toks : List TokenId) :
    ∃ y first' toks', updateSequences maxTokens now [x] first toks = ([y], first', toks') ∧
      y.totalLen ≤ x.totalLen + 1 := by
  by_cases hfin : x.isFinished = true
  · exact ⟨x, first, toks, by simp [updateSequences, hfin], Nat.le_succ _⟩
  · cases toks with
    | nil => exact ⟨x, first, [], by simp [updateSequences, hfin], Nat.le_succ _⟩
    | cons tok toks =>
        exact ⟨acceptToken maxTokens x tok,
          if first = none ∧ (x.appendToken tok).outputLen = 1 then some now else first, toks,
          by simp [updateSequences, hfin], Nat.le_of_eq (acceptToken_totalLen maxTokens x tok)⟩

/-- A call of `update_after_decode` hands a sequence one token at most. -/
theorem updateGroups_totalLen_le (now : TimePoint) (ps : List GroupPtr)
    (groups : GroupPtr → SequenceGroup) (toks : List TokenId) (hnodup : ps.Nodup) {p : GroupPtr}
    (hp : (groups p).Single) :
    (updateGroups now ps groups toks p).seq.totalLen ≤ (groups p).seq.totalLen + 1 := by
  induction ps generalizing groups toks with
  | nil => exact Nat.le_succ _
  | cons q rest ih =>
      obtain ⟨hq, hrest⟩ := List.nodup_cons.1 hnodup
      rw [updateGroups]
      by_cases hpq : p = q
      · subst hpq
        obtain ⟨y, first, toks', hupd, hle⟩ := updateSequences_totalLen_le
          (groups p).sampling.maxTokens now (groups p).seq (groups p).firstTokenTime toks
        rw [hp.sequences, hupd, updateGroups_of_not_mem now rest _ _ hq, Function.update_self]
        exact hle
      · have hkeep := fun (g : SequenceGroup) (toks : List TokenId) =>
          ih (Function.update groups q g) toks hrest (by rw [Function.update_of_ne hpq]; exact hp)
        simp only [Function.update_of_ne hpq] at hkeep
        exact hkeep _ _

/-- An abort leaves no sequence changed and unfinished. -/
theorem abortRequest_seq_of_unfinished {st : Scheduler} {requestId : SeqId} {q : GroupPtr}
    (hwf : st.WellFormed) (hfin : ((st.abortRequest requestId).seq q).isFinished = false) :
    (st.abortRequest requestId).seq q = st.seq q := by
  cases hp : st.requestMap.lookup requestId with
  | none => simp only [Scheduler.abortRequest, hp]
  | some p =>
      rw [abortRequest_eq hwf hp, seq_of_groups rfl q] at hfin ⊢
      split at hfin
      · next heq =>
          rw [abortSequence] at hfin
          split at hfin
          · next hdone =>
              rw [heq, abortSequence, if_pos rfl, if_pos hdone]
          · exact absurd hfin (by simp [SequenceData.isFinished, RequestStatus.isFinished])
      · next hne => exact if_neg hne

namespace Slotted

variable {cache : CacheConfig} {d : Driver}

theorem stillHeld_addRequest (h : Slotted cache d) (group : SequenceGroup) {p : GroupPtr}
    (hp : p ∈ d.sched.running) (hfin : ((d.sched.addRequest group).seq p).isFinished = false) :
    StillHeld d { d with sched := d.sched.addRequest group } p := by
  have hseq := h.wf.seq_addRequest group p (WellFormed.mem_running hp)
  refine ⟨hp, hseq ▸ hfin, congrArg _ hseq, ?_, ?_⟩
  · show (d.sched.seq p).logicalBlocks <+: ((d.sched.addRequest group).seq p).logicalBlocks
    rw [hseq]
  · simp only [residentLen, hseq, Nat.le_refl]

theorem stillHeld_schedule (h : Slotted cache d) (hphase : d.phase = .ready)
    {fed : GroupPtr → List (BatchEntry × SequenceData)} {p : GroupPtr}
    (hp : p ∈ d.sched.schedule.2.running)
    (hpos : 0 < residentLen { sched := d.sched.schedule.2, phase := .scheduled d.sched.schedule.1,
                              fed := fed } p) :
    StillHeld d { sched := d.sched.schedule.2, phase := .scheduled d.sched.schedule.1, fed := fed }
      p := by
  obtain ⟨own, hacc⟩ := h.accounted
  have hunfin := h.unfinished (by rw [hphase]; simp)
  -- what is admitted in this call has no output, so nothing of it is stored
  rcases schedule_held h.wf h.mode hunfin h.waiting hacc p hp with hnil | ⟨hrun, hid, hpre, hlen⟩
  · have hzero : storedLen (d.sched.schedule.2.seq p) = 0 := if_pos hnil
    exact absurd (Nat.lt_of_lt_of_eq hpos hzero) (Nat.lt_irrefl 0)
  · refine ⟨hrun, hunfin p (WellFormed.mem_running hrun), hid, hpre, ?_⟩
    show storedLen (d.sched.schedule.2.seq p) ≤ d.residentLen p
    rw [residentLen_eq_storedLen (by rw [hphase]; simp)]
    exact Nat.le_of_eq hlen

theorem stillHeld_updateAfterDecode (h : Slotted cache d) {out : SchedulerOutput}
    {toks : List TokenId} (hphase : d.phase = .decoded out toks) (now : TimePoint) {p : GroupPtr}
    (hp : p ∈ d.sched.running) :
    StillHeld d { d with sched := d.sched.updateAfterDecode out toks now, phase := .updated } p := by
  have hpq := WellFormed.mem_running hp
  have hext := h.wf.extends_updateAfterDecode out toks now p hpq
  have hnodup := h.nodup
  rw [hphase] at hnodup
  refine ⟨hp, h.unfinished (by rw [hphase]; simp) p hpq, hext.seqId, ?_, ?_⟩
  · show (d.sched.seq p).logicalBlocks
      <+: ((d.sched.updateAfterDecode out toks now).seq p).logicalBlocks
    rw [hext.logicalBlocks]
  · show storedLen ((d.sched.updateAfterDecode out toks now).seq p) ≤ d.residentLen p
    rw [residentLen, hphase]
    by_cases hs : p ∈ out.scheduledGroups
    · have hle := updateGroups_totalLen_le now out.scheduledGroups d.sched.groups toks hnodup
        (h.wf.single_of_mem hpq)
      simp only [if_pos hs]
      exact storedLen_le_of_totalLen_le hle
    · simp only [if_neg hs, updateAfterDecode_seq_of_not_mem toks now hs, Nat.le_refl]

end Slotted

/-- **A call that is no step stores nothing**, and what it leaves of a running sequence was stored
    before. -/
theorem Slotted.stillHeld {cache : CacheConfig} {d : Driver} {op : SessionOp} (h : Slotted cache d)
    (hok : d.SessionEnabled op) (hstep : ¬ op.IsStep) :
    ∀ p ∈ (d.sessionStep op).sched.running, ((d.sessionStep op).sched.seq p).isFinished = false →
      0 < (d.sessionStep op).residentLen p → StillHeld d (d.sessionStep op) p := by
  cases op with
  | abortRequest requestId =>
      intro p hp hfin hpos
      have hrun : p ∈ d.sched.running := by
        rw [← (abortRequest_sameQueues d.sched requestId).running]
        exact hp
      -- an aborted sequence is finished
      have hseq : (d.sched.abortRequest requestId).seq p = d.sched.seq p :=
        abortRequest_seq_of_unfinished h.wf hfin
      have hphase : ∀ out toks, d.phase ≠ .decoded out toks := by
        intro out toks hdec
        simp only [SessionEnabled, hdec] at hok
      refine ⟨hrun, hseq ▸ hfin, congrArg _ hseq, ?_, ?_⟩
      · show (d.sched.seq p).logicalBlocks <+: ((d.sched.abortRequest requestId).seq p).logicalBlocks
        rw [hseq]
      · show storedLen ((d.sched.abortRequest requestId).seq p) ≤ d.residentLen p
        rw [hseq, residentLen_eq_storedLen hphase]
  | loop op =>
      show ∀ p ∈ (d.step op).sched.running, ((d.step op).sched.seq p).isFinished = false →
        0 < (d.step op).residentLen p → StillHeld d (d.step op) p
      rcases step_cases hok with ⟨group, -, hfresh, -, heq⟩ | ⟨rfl, hphase, heq⟩ |
        ⟨out, -, hphase, heq⟩ | ⟨out, batch, toks, rfl, -, -, -⟩ |
        ⟨out, toks, now, -, hphase, heq⟩ | ⟨rfl, hphase, heq⟩
      · rw [heq]
        intro p hp hfin _
        exact h.stillHeld_addRequest group hp hfin
      · rw [heq]
        intro p hp hfin hpos
        exact h.stillHeld_schedule hphase hp hpos
      · rw [heq]
        intro p hp hfin _
        refine ⟨hp, hfin, rfl, List.prefix_rfl, ?_⟩
        show storedLen (d.sched.seq p) ≤ d.residentLen p
        rw [residentLen_eq_storedLen (by rw [hphase]; simp)]
      · exact absurd trivial hstep
      · rw [heq]
        intro p hp hfin _
        exact h.stillHeld_updateAfterDecode hphase now hp
      · rw [heq]
        intro p hp hfin _
        rw [freeFinishedRequests_eq] at hp hfin ⊢
        obtain ⟨hrun, hunfin⟩ := (unfinishedIn_single h.wf (fun _ => WellFormed.mem_running)).1 hp
        refine ⟨hrun, hunfin, rfl, List.prefix_rfl, ?_⟩
        show storedLen (d.sched.seq p) ≤ d.residentLen p
        rw [residentLen_eq_storedLen (by rw [hphase]; simp)]

/-! ## A step -/

section Decode

variable {K : Type} {sh : Shape} {numKvHeads : Nat} {cache : CacheConfig} {d : Driver}
  {out : SchedulerOutput} {batch : DecodeBatch}

/-- The batch has an entry for each position of a scheduled sequence that is not stored yet. -/
theorem Slotted.entry_of_scheduled (h : Slotted cache d) (hphase : d.phase = .batched out batch)
    {p : GroupPtr} (hp : p ∈ out.scheduledGroups) {pos : Nat} (hle : storedLen (d.sched.seq p) ≤ pos)
    (hlt : pos < (d.sched.seq p).totalLen) :
    ∃ e ∈ batch.entries, e.seqId = (d.sched.seq p).seqId ∧ e.position = pos := by
  have hrun := (h.pending p (by rw [hphase]; exact hp)).1
  have hfin := h.unfinished (by rw [hphase]; simp) p (WellFormed.mem_running hrun)
  suffices hseq : ∃ e ∈ seqEntries (d.sched.seq p), e.seqId = (d.sched.seq p).seqId ∧
      e.position = pos by
    obtain ⟨e, he, hid, hpos⟩ := hseq
    refine ⟨e, ?_, hid, hpos⟩
    rw [(h.batched out batch hphase).2]
    exact List.mem_flatMap.2 ⟨p, hp, he⟩
  by_cases hnil : (d.sched.seq p).outputTokens = []
  · -- prefill: an entry for each token of the prompt
    have hzero : (d.sched.seq p).outputLen = 0 := by rw [SequenceData.outputLen, hnil, List.length_nil]
    have hlen : pos < (d.sched.seq p).promptTokens.length := by
      rw [SequenceData.totalLen, hzero] at hlt
      exact hlt
    refine ⟨prefillEntry (d.sched.seq p) pos (d.sched.seq p).promptTokens[pos], ?_, rfl, rfl⟩
    rw [seqEntries, hfin, if_neg (by simp), if_pos hzero]
    exact List.mem_mapIdx.2 ⟨pos, hlen, rfl⟩
  · -- decode: the last token is all that is missing
    have hlast : pos = (d.sched.seq p).totalLen - 1 := by
      rw [storedLen, if_neg hnil] at hle
      omega
    refine ⟨decodeEntry (d.sched.seq p), ?_, rfl, hlast.symm⟩
    simp [seqEntries, hfin, SequenceData.outputLen, hnil]

/-- The blocks of a running sequence, as the batch has them. -/
theorem Slotted.tableOf (h : Slotted cache d) (hphase : d.phase = .batched out batch) {p : GroupPtr}
    (hp : p ∈ d.sched.running) :
    TableOf batch (d.sched.seq p).seqId (d.sched.seq p).logicalBlocks := by
  have hne : d.phase ≠ .updated := by rw [hphase]; simp
  constructor
  · intro e he hid
    obtain ⟨q, hq, hidq, htable, -, -⟩ := h.entry_group hphase he
    have hqp : q = p := h.wf.eq_of_seqId (WellFormed.mem_running hq) (WellFormed.mem_running hp)
      (by rw [← hidq, hid])
    rw [htable, hqp]
  · intro e he hid
    obtain ⟨q, hq, hidq, htable, -, -⟩ := h.entry_group hphase he
    rw [htable]
    exact h.disjoint hne hq hp (by rw [← hidq]; exact hid)

/-- **After the launch** every running sequence is stored up to where it was, and the scheduled ones to
    their end. -/
theorem Resident.launch {mem : Int → K} {record : Vectors K} (h : Slotted cache d)
    (hsum : d.PendingNoWrap cache.blockSize) (hres : d.Resident sh numKvHeads mem record) (hbs : sh.blockSize = cache.blockSize)
    (hsize : cache.numGpuBlocks * cache.blockSize < 2 ^ 31) (hphase : d.phase = .batched out batch)
    (new : Nat → K) {order : List (Nat × Int)} (horder : order.Perm (cacheWrites sh numKvHeads batch))
    {p : GroupPtr} (hp : p ∈ d.sched.running) {pos : Nat}
    (hpos : p ∈ out.scheduledGroups ∧ pos < (d.sched.seq p).totalLen ∨
      pos < storedLen (d.sched.seq p)) :
    Stored sh numKvHeads (Copy.copyAll new order mem) (remember sh numKvHeads batch new record)
      (d.sched.seq p).logicalBlocks (d.sched.seq p).seqId pos := by
  have hne : d.phase ≠ .updated := by rw [hphase]; simp
  have hapart : batch.Apart cache.numGpuBlocks sh.blockSize :=
    hbs ▸ h.batch_apart hsum (hbs ▸ sh.blockSize_pos) hphase
  refine Stored.reshapeAndCache hapart (hbs ▸ hsize) (h.tableOf hphase hp) (h.tableIn hne hp) ?_ new
    horder
  by_cases hold : pos < storedLen (d.sched.seq p)
  · refine .inr (hres p hp (h.unfinished hne p (WellFormed.mem_running hp)) pos ?_)
    rw [residentLen_eq_storedLen (by rw [hphase]; simp)]
    exact hold
  · obtain ⟨hs, hlt⟩ := hpos.resolve_right hold
    exact .inl (h.entry_of_scheduled hphase hs (Nat.le_of_not_lt hold) hlt)

/-- **A step** stores what it has computed and disturbs nothing. -/
theorem Resident.decode {mem : Int → K} {record : Vectors K} (h : Slotted cache d)
    (hsum : d.PendingNoWrap cache.blockSize) (hres : d.Resident sh numKvHeads mem record) (hbs : sh.blockSize = cache.blockSize)
    (hsize : cache.numGpuBlocks * cache.blockSize < 2 ^ 31) (hphase : d.phase = .batched out batch)
    (new : Nat → K) {order : List (Nat × Int)} (horder : order.Perm (cacheWrites sh numKvHeads batch))
    (toks : List TokenId) :
    Resident sh numKvHeads (Copy.copyAll new order mem) (remember sh numKvHeads batch new record)
      { d with phase := .decoded out toks } := by
  intro p hp _ pos hpos
  refine hres.launch h hsum hbs hsize hphase new horder hp ?_
  have hlt : pos < if p ∈ out.scheduledGroups then (d.sched.seq p).totalLen
      else storedLen (d.sched.seq p) := hpos
  split at hlt
  · next hs => exact .inl ⟨hs, hlt⟩
  · exact .inr hlt

end Decode

end Driver

namespace KvDriver

/-! ## The whole run -/

section Reads

variable {K : Type} {sh : Shape} {numKvHeads : Nat} {cache : CacheConfig}

/-- Between the calls: the blocks are accounted for and cover what is scheduled, and both caches have what
    is resident. -/
structure Sound (sh : Shape) (numKvHeads : Nat) (cache : CacheConfig) (s : KvDriver K) : Prop where
  slotted : Driver.Slotted cache s.driver
  sums : s.driver.PendingNoWrap cache.blockSize
  keys : s.driver.Resident sh numKvHeads s.caches.key s.keys
  values : s.driver.Resident sh numKvHeads s.caches.value s.values

theorem init_sound {config : SchedulerConfig} (hmode : config.preemptionMode = .recompute)
    (caches : KvCaches K) (keys values : Vectors K) :
    Sound sh numKvHeads cache (init config cache caches keys values) where
  slotted := Driver.Slotted.init_slotted cache hmode
  sums := Driver.Slotted.init_noWrap config cache
  keys _ hp := absurd hp List.not_mem_nil
  values _ hp := absurd hp List.not_mem_nil

theorem builtBatch_eq {d : Driver} {out : SchedulerOutput} {batch : DecodeBatch}
    (hphase : d.phase = .batched out batch) : d.builtBatch = batch := by
  rw [Driver.builtBatch, hphase]

/-- A step needs a batch. -/
theorem batched_of_enabled {d : Driver} {newTokens : List TokenId}
    (hok : d.SessionEnabled (.loop (.step newTokens))) :
    ∃ out batch, d.phase = .batched out batch ∧
      d.sessionStep (.loop (.step newTokens)) = { d with phase := .decoded out newTokens } := by
  rcases Driver.step_cases hok with ⟨_, hop, -⟩ | ⟨hop, -⟩ | ⟨_, hop, -⟩ |
    ⟨out, batch, toks, hop, hphase, -, heq⟩ | ⟨_, _, _, hop, -⟩ | ⟨hop, -⟩
  · cases hop
  · cases hop
  · cases hop
  · cases hop
    exact ⟨out, batch, hphase, heq⟩
  · cases hop
  · cases hop

theorem Sound.step (hbs : sh.blockSize = cache.blockSize)
    (hsize : cache.numGpuBlocks * cache.blockSize < 2 ^ 31) (s : KvDriver K) (op : KvOp K)
    (h : Sound sh numKvHeads cache s) (hok : s.Enabled sh numKvHeads op) :
    Sound sh numKvHeads cache (s.step sh numKvHeads op) := by
  cases op with
  | session op =>
      have hheld := h.slotted.stillHeld hok.2.enabled hok.1
      exact ⟨Driver.Slotted.sessionStep_slotted cache _ op h.slotted hok.2.enabled,
        h.slotted.sessionStep_noWrap h.sums hok.2, h.keys.of_stillHeld hheld, h.values.of_stillHeld hheld⟩
  | decode newTokens new order =>
      obtain ⟨hstep, horder⟩ := hok
      have hslotted := Driver.Slotted.sessionStep_slotted cache _ _ h.slotted hstep
      have hsums := h.slotted.sessionStep_noWrap h.sums
        (show s.driver.SessionNoWrap (.loop (.step newTokens)) from ⟨hstep, trivial⟩)
      obtain ⟨out, batch, hphase, heq⟩ := batched_of_enabled hstep
      rw [builtBatch_eq hphase] at horder
      have hkeys := h.keys.decode h.slotted h.sums hbs hsize hphase new.key horder newTokens
      have hvalues := h.values.decode h.slotted h.sums hbs hsize hphase new.value horder newTokens
      rw [← heq] at hkeys hvalues
      simp only [KvDriver.step, builtBatch_eq hphase]
      exact ⟨hslotted, hsums, hkeys, hvalues⟩

/-- **After a step** the table of an entry leads to what is recorded for its sequence. -/
theorem Sound.stored_upto {s : KvDriver K} (h : Sound sh numKvHeads cache s)
    (hbs : sh.blockSize = cache.blockSize) (hsize : cache.numGpuBlocks * cache.blockSize < 2 ^ 31)
    {newTokens : List TokenId} {new : NewVectors K} {order : List (Nat × Int)}
    (hok : s.Enabled sh numKvHeads (.decode newTokens new order)) {e : BatchEntry}
    (he : e ∈ s.driver.builtBatch.entries) {pos : Nat} (hpos : pos ≤ e.position) :
    Stored sh numKvHeads (s.step sh numKvHeads (.decode newTokens new order)).caches.key
        (s.step sh numKvHeads (.decode newTokens new order)).keys e.blockTable e.seqId pos ∧
      Stored sh numKvHeads (s.step sh numKvHeads (.decode newTokens new order)).caches.value
        (s.step sh numKvHeads (.decode newTokens new order)).values e.blockTable e.seqId pos := by
  obtain ⟨hstep, horder⟩ := hok
  obtain ⟨out, batch, hphase, -⟩ := batched_of_enabled hstep
  simp only [KvDriver.step]
  rw [builtBatch_eq hphase] at he horder ⊢
  rw [(h.slotted.batched out batch hphase).2] at he
  obtain ⟨p, hp, he⟩ := List.mem_flatMap.1 he
  have hrun := (h.slotted.pending p (by rw [hphase]; exact hp)).1
  have hlt := Nat.lt_of_le_of_lt hpos (Driver.seqEntries_position_lt he)
  rw [Driver.seqEntries_blockTable he, seqEntries_seqId he]
  exact ⟨h.keys.launch h.slotted h.sums hbs hsize hphase new.key horder hrun (.inl ⟨hp, hlt⟩),
    h.values.launch h.slotted h.sums hbs hsize hphase new.value horder hrun (.inl ⟨hp, hlt⟩)⟩

/-- The entry `i` reads, in the state after the step, the recorded vectors of its sequence: of every
    position up to its own and of no other, and for the KV head of its head. -/
def ReadsRecorded (sh : Shape) (path : AttentionPath) (batch : DecodeBatch) (inputs : LaunchInputs K)
    (i head : Nat) (e : BatchEntry) (s : KvDriver K) : Prop :=
  (∀ pos ≤ e.position, ∀ d < sh.headDim, ∃ x, (pos, d, x) ∈ path.reads sh batch inputs i head) ∧
  ∀ pos d x, (pos, d, x) ∈ path.reads sh batch inputs i head → pos ≤ e.position ∧ d < sh.headDim ∧
    s.caches.key x = s.keys e.seqId pos (kvHead inputs.nHeads inputs.nKvHeads head) d ∧
    s.caches.value x = s.values e.seqId pos (kvHead inputs.nHeads inputs.nKvHeads head) d

/-- **Attention reads the sequence's own vectors.** In every run in recompute mode, with requests that
    arrive at any time and are aborted between two iterations, with preemptions and with blocks that are
    used again, and in whatever order the threads of the launches run: each implementation of attention
    finds in the shared caches, for every entry of every batch, what was last computed for each position
    of that sequence. -/
theorem reads_recorded (config : SchedulerConfig) (cache : CacheConfig) (sh : Shape)
    (hmode : config.preemptionMode = .recompute) (hbs : sh.blockSize = cache.blockSize)
    (hsize : cache.numGpuBlocks * cache.blockSize < 2 ^ 31) (inputs : LaunchInputs K)
    (hkv : 1 ≤ inputs.nKvHeads) (hdvd : inputs.nKvHeads ∣ inputs.nHeads) (caches : KvCaches K)
    (keys values : Vectors K) (s : KvDriver K)
    (hreach : Run.Reach (step sh inputs.nKvHeads) (Enabled sh inputs.nKvHeads)
      (init config cache caches keys values) s)
    (newTokens : List TokenId) (new : NewVectors K) (order : List (Nat × Int))
    (hok : s.Enabled sh inputs.nKvHeads (.decode newTokens new order)) (path : AttentionPath)
    (i : Nat) (e : BatchEntry) (he : s.driver.builtBatch.entries[i]? = some e) (head : Nat)
    (hhead : head < inputs.nHeads) :
    ReadsRecorded sh path s.driver.builtBatch inputs i head e
      (s.step sh inputs.nKvHeads (.decode newTokens new order)) := by
  have h : Sound sh inputs.nKvHeads cache s :=
    hreach.invariant (init_sound hmode caches keys values) (Sound.step hbs hsize)
  have hlt := kvHead_lt hkv hdvd hhead
  have hmem := List.mem_of_getElem? he
  constructor
  · intro pos hpos d hd
    obtain ⟨b, hb, -⟩ := (h.stored_upto hbs hsize hok hmem hpos).1
    exact ⟨_, (path.mem_reads he hb).2 ⟨hpos, hd, rfl⟩⟩
  · intro pos d x hx
    obtain ⟨hpos, hd⟩ := path.le_of_mem_reads he hx
    obtain ⟨⟨b, hb, hkey⟩, ⟨b', hb', hvalue⟩⟩ := h.stored_upto hbs hsize hok hmem hpos
    obtain ⟨-, -, rfl⟩ := (path.mem_reads he hb).1 hx
    rw [hb] at hb'
    rw [← Option.some.inj hb'] at hvalue
    exact ⟨hpos, hd, hkey _ hlt d hd, hvalue _ hlt d hd⟩

/-- What attention is launched with in the state `s`. -/
def launchInputs (s : KvDriver K) (query : Nat → K) (scale : K) (nHeads nKvHeads : Nat) :
    LaunchInputs K where
  query := query
  keyCache := s.caches.key
  valueCache := s.caches.value
  scale := scale
  nHeads := nHeads
  nKvHeads := nKvHeads

theorem one_le_warpSize : 1 ≤ warpSize := by decide

/-- One head of one dimension, two tokens a block. -/
def oneByTwo : Shape where
  headDim := 1
  blockSize := 2
  numWarps := 1
  headDim_pos := Nat.one_pos
  blockSize_pos := Nat.two_pos
  numWarps_pos := Nat.one_pos
  numWarps_le := one_le_warpSize

/-- The keys count up from `n`, the values are all 1. -/
def countFrom (K : Type) [NatCast K] (n : Nat) : NewVectors K where
  key j := (n + j : Nat)
  value _ := (1 : Nat)

def zeroed (K : Type) [NatCast K] : KvDriver K :=
  init { preemptionMode := .recompute } { numGpuBlocks := 3, numCpuBlocks := 0, blockSize := 2 }
    { key := fun _ => (0 : Nat), value := fun _ => (0 : Nat) } (fun _ _ _ _ => (0 : Nat))
    (fun _ _ _ _ => (0 : Nat))

/-- Two requests; the second one is aborted after a step, and the first one takes over its block. -/
def takeOver (K : Type) [NatCast K] : List (KvOp K) :=
  [.session (.loop (.addRequest (.new 1 [7, 8] {}))), .session (.loop (.addRequest (.new 2 [9] {}))),
    .session (.loop .schedule), .session (.loop .buildBatch),
    .decode [5, 5, 5] (countFrom K 10) [(2, 2), (0, 0), (1, 1)],
    .session (.loop (.updateAfterDecode 0)), .session (.loop .freeFinishedRequests),
    .session (.abortRequest 2), .session (.loop .freeFinishedRequests),
    .session (.loop .schedule), .session (.loop .buildBatch)]

def takenOver (K : Type) [NatCast K] : KvDriver K := (takeOver K).foldl (step oneByTwo 1) (zeroed K)

theorem reads_recorded_takenOver :
    let s := (takenOver Nat).step oneByTwo 1 (.decode [6] (countFrom Nat 20) [(0, 2)])
    [s.keys 1 0 0 0, s.keys 1 1 0 0, s.keys 1 2 0 0] = [10, 11, 20] ∧
      [s.caches.key 0, s.caches.key 1, s.caches.key 2] = [10, 11, 20] ∧
      ReadsRecorded oneByTwo .pagedV2 (takenOver Nat).driver.builtBatch
        (s.launchInputs (fun _ => 1) 1 2 1) 0 1
        { seqId := 1, token := 5, position := 2, blockTable := [0, 1], isPrefill := false } s := by
  refine ⟨by decide, by decide, ?_⟩
  exact reads_recorded { preemptionMode := .recompute }
    { numGpuBlocks := 3, numCpuBlocks := 0, blockSize := 2 } oneByTwo rfl rfl (by decide)
    (launchInputs _ (fun _ => 1) 1 2 1) (by decide) (by decide) _ _ _ (takenOver Nat)
    (Run.Reach.of_allOk (takeOver Nat) (by decide)) [6] (countFrom Nat 20) [(0, 2)] (by decide) .pagedV2
    0 _ (by decide) 1 (by decide)

/-- **Paged attention is attention over the sequence's own vectors.** In every such run what
    `paged_attention_v1_kernel` computes for an entry is attention over the vectors last computed for
    that sequence, position by position, as if it had a memory of its own. The kernel is the one of
    `pagedAttentionV1`: without the `1e-8f` of `inv_sum`, and with a `smem_qk` as long as the context. -/
theorem attention_own_history {K : Type} [Field K] [LinearOrder K] (exp : Exponential K)
    (config : SchedulerConfig) (cache : CacheConfig) (sh : Shape)
    (hmode : config.preemptionMode = .recompute) (hbs : sh.blockSize = cache.blockSize)
    (hsize : cache.numGpuBlocks * cache.blockSize < 2 ^ 31) (nHeads nKvHeads : Nat)
    (hkv : 1 ≤ nKvHeads) (hdvd : nKvHeads ∣ nHeads) (caches : KvCaches K)
    (keys values : Vectors K) (s : KvDriver K)
    (hreach : Run.Reach (step sh nKvHeads) (Enabled sh nKvHeads)
      (init config cache caches keys values) s)
    (newTokens : List TokenId) (new : NewVectors K) (order : List (Nat × Int))
    (hok : s.Enabled sh nKvHeads (.decode newTokens new order)) (query : Nat → K) (scale : K)
    (i : Nat) (e : BatchEntry) (he : s.driver.builtBatch.entries[i]? = some e) (head : Nat)
    (hhead : head < nHeads) (d : Nat) (hd : d < sh.headDim) :
    let s' := s.step sh nKvHeads (.decode newTokens new order)
    pagedAttentionV1 exp sh (launchParams sh.blockSize s.driver.builtBatch
        (s'.launchInputs query scale nHeads nKvHeads)) i head d
      = denseAttention exp sh.headDim scale
          (fun d => query ((i * nHeads + head) * sh.headDim + d))
          (fun pos => s'.keys e.seqId pos (kvHead nHeads nKvHeads head))
          (fun pos => s'.values e.seqId pos (kvHead nHeads nKvHeads head)) (e.position + 1) d := by
  intro s'
  have h : Sound sh nKvHeads cache s :=
    hreach.invariant (init_sound hmode caches keys values) (Sound.step hbs hsize)
  have hstored := fun pos (hpos : pos ≤ e.position) =>
    h.stored_upto hbs hsize hok (List.mem_of_getElem? he) hpos
  have hkeys := fun pos (hpos : pos ≤ e.position) => (hstored pos hpos).1
  have hvalues := fun pos (hpos : pos ≤ e.position) => (hstored pos hpos).2
  have hattn : 1 ≤ (s'.launchInputs query scale nHeads nKvHeads).nKvHeads := hkv
  exact pagedAttentionV1_stored exp hattn hdvd he hkeys hvalues hhead hd

theorem attention_own_history_takenOver :
    let s := (takenOver ℝ).step oneByTwo 1 (.decode [6] (countFrom ℝ 20) [(0, 2)])
    [s.keys 1 0 0 0, s.keys 1 1 0 0, s.keys 1 2 0 0] = [10, 11, 20].map ((↑) : Nat → ℝ) ∧
      pagedAttentionV1 realExp oneByTwo (launchParams 2 (takenOver ℝ).driver.builtBatch
          (s.launchInputs (fun _ => 1) 1 2 1)) 0 1 0
        = denseAttention realExp 1 1 (fun _ => 1) (fun pos => s.keys 1 pos 0)
            (fun pos => s.values 1 pos 0) 3 0 := by
  refine ⟨rfl, ?_⟩
  exact attention_own_history realExp { preemptionMode := .recompute }
    { numGpuBlocks := 3, numCpuBlocks := 0, blockSize := 2 } oneByTwo rfl rfl (by decide) 2 1
    (by decide) (by decide) _ _ _ (takenOver ℝ)
    (Run.Reach.of_allOk (takeOver ℝ) (by decide)) [6] (countFrom ℝ 20) [(0, 2)] (by decide)
    (fun _ => 1) 1 0
    { seqId := 1, token := 5, position := 2, blockTable := [0, 1], isPrefill := false }
    (by decide) 1 (by decide) 0 (by decide)

end Reads

end KvDriver

end CacheFlow
