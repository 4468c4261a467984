import CacheFlow.Driver
import CacheFlow.Scheduler.Accounting
import Mathlib.Algebra.BigOperators.Group.List.Basic

set_option autoImplicit false

/-! # Every position is fed once

The engine writes the keys and values of an entry at the entry's position, so the entries a sequence
gets since it was admitted must have the positions 0, 1, 2, … . No function stores the position: it is
the loop index during a prefill and `total_len - 1` in a decode step. `Driver.Feed` relates it to
the record of what was fed: before a decode step everything but the last token has been fed, after
`build_batch` everything has.

The block table of an entry covers its position only if `num_blocks_needed` gave the scheduler the right
number, so the runs are those in which no `schedule()` call meets a sequence that wraps the sum in it. -/

namespace CacheFlow

open Scheduler BatchManager

/-! ## What a batch must contain -/

/-- The entry `e` is right for the sequence as it was when the batch was built. -/
structure FedEntry (blockSize : Nat) (e : BatchEntry) (seq : SequenceData) : Prop where
  seqId : e.seqId = seq.seqId
  token : (seq.promptTokens ++ seq.outputTokens)[e.position]? = some e.token
  isPrefill : e.isPrefill = true ↔ e.position < seq.promptLen
  blockTable : e.blockTable.length = seq.totalLen ⌈/⌉ blockSize
  index : e.position / blockSize < e.blockTable.length

/-- The positions are 0, 1, 2, … in order, and every entry is right. -/
def FedInOrder (blockSize : Nat) (log : List (BatchEntry × SequenceData)) : Prop :=
  log.map (fun x => x.1.position) = List.range log.length ∧ ∀ x ∈ log, FedEntry blockSize x.1 x.2

theorem FedInOrder.nil (blockSize : Nat) : FedInOrder blockSize [] :=
  ⟨rfl, fun _ hx => absurd hx List.not_mem_nil⟩

theorem FedInOrder.append {bs : Nat} {log new : List (BatchEntry × SequenceData)}
    (h : FedInOrder bs log)
    (hpos : new.map (fun x => x.1.position) = (List.range new.length).map (log.length + ·))
    (hnew : ∀ x ∈ new, FedEntry bs x.1 x.2) : FedInOrder bs (log ++ new) := by
  refine ⟨?_, ?_⟩
  · rw [List.map_append, h.1, hpos, List.length_append, List.range_add]
  · intro x hx
    rcases List.mem_append.1 hx with hx | hx
    · exact h.2 x hx
    · exact hnew x hx

/-- What has been fed to a sequence that is about to be put into a batch: nothing before its prefill,
    and all but the last token in a decode step. -/
def Unfed (seq : SequenceData) (log : List (BatchEntry × SequenceData)) : Prop :=
  (seq.outputTokens = [] ∧ log = []) ∨ (seq.outputTokens ≠ [] ∧ log.length + 1 = seq.totalLen)

theorem index_lt {bs pos n : Nat} (hbs : 1 ≤ bs) (hpos : pos < n) : pos / bs < n ⌈/⌉ bs := by
  rw [Nat.ceilDiv_eq_add_pred_div, Nat.div_lt_iff_lt_mul hbs]
  have hdiv := Nat.div_add_mod (n + bs - 1) bs
  have hmod := Nat.mod_lt (n + bs - 1) hbs
  rw [Nat.mul_comm]
  omega

section Entries

variable {seq : SequenceData} {bs : Nat}

theorem prefillEntry_fed (hbs : 1 ≤ bs) (hlen : seq.logicalBlocks.length = seq.totalLen ⌈/⌉ bs)
    {i : Nat} (hi : i < seq.promptTokens.length) :
    FedEntry bs (prefillEntry seq i seq.promptTokens[i]) seq := by
  refine ⟨rfl, ?_, ?_, hlen, ?_⟩
  · show (seq.promptTokens ++ seq.outputTokens)[i]? = some seq.promptTokens[i]
    rw [List.getElem?_append_left hi, List.getElem?_eq_getElem hi]
  · exact ⟨fun _ => hi, fun _ => rfl⟩
  · show i / bs < seq.logicalBlocks.length
    rw [hlen]
    exact index_lt hbs (Nat.lt_of_lt_of_le hi (Nat.le_add_right _ _))

theorem decodeEntry_fed (hbs : 1 ≤ bs) (hlen : seq.logicalBlocks.length = seq.totalLen ⌈/⌉ bs)
    (hout : seq.outputTokens ≠ []) : FedEntry bs (decodeEntry seq) seq := by
  have hpos : 0 < seq.outputTokens.length := List.length_pos_iff.2 hout
  have htotal : seq.totalLen = seq.promptTokens.length + seq.outputTokens.length := rfl
  have hempty : seq.outputTokens.isEmpty = false := by simpa using hout
  refine ⟨rfl, ?_, ?_, hlen, ?_⟩
  · show (seq.promptTokens ++ seq.outputTokens)[seq.totalLen - 1]? = some (decodeEntry seq).token
    have hidx : seq.totalLen - 1 - seq.promptTokens.length = seq.outputTokens.length - 1 := by omega
    rw [List.getElem?_append_right (by omega), hidx, ← List.getLast?_eq_getElem?,
      List.getLast?_eq_some_getLast hout]
    simp [decodeEntry, hempty, List.getLast?_eq_some_getLast hout]
  · show false = true ↔ seq.totalLen - 1 < seq.promptTokens.length
    constructor
    · intro h
      cases h
    · intro h
      omega
  · show (seq.totalLen - 1) / bs < seq.logicalBlocks.length
    rw [hlen]
    exact index_lt hbs (by omega)

/-- **Feeding one sequence**: the entries `build_batch` emits for it continue the record, and then
    everything has been fed. -/
theorem Unfed.feed {log : List (BatchEntry × SequenceData)} (h : Unfed seq log)
    (horder : FedInOrder bs log) (hbs : 1 ≤ bs) (hfin : seq.isFinished = false)
    (hblocks : seq.logicalBlocks.length = seq.totalLen ⌈/⌉ bs) :
    FedInOrder bs (log ++ (seqEntries seq).map (fun e => (e, seq))) ∧
      (log ++ (seqEntries seq).map (fun e => (e, seq))).length = seq.totalLen := by
  rcases h with ⟨hout, rfl⟩ | ⟨hout, hlen⟩
  · have hentries : seqEntries seq = seq.promptTokens.mapIdx (prefillEntry seq) := by
      simp [seqEntries, hfin, SequenceData.outputLen, hout]
    rw [hentries]
    refine ⟨horder.append ?_ ?_, ?_⟩
    · apply List.ext_getElem
      · simp
      · intro i h₁ h₂
        simp [prefillEntry]
    · intro x hx
      obtain ⟨e, he, rfl⟩ := List.mem_map.1 hx
      obtain ⟨i, hi, rfl⟩ := List.mem_mapIdx.1 he
      exact prefillEntry_fed hbs hblocks hi
    · simp [SequenceData.totalLen, SequenceData.promptLen, SequenceData.outputLen, hout]
  · have hne : seq.outputLen ≠ 0 := by
      simpa [SequenceData.outputLen] using hout
    have hentries : seqEntries seq = [decodeEntry seq] := by
      simp [seqEntries, hfin, hne]
    rw [hentries]
    refine ⟨horder.append ?_ ?_, ?_⟩
    · have hposition : seq.totalLen - 1 = log.length := by omega
      simp [decodeEntry, hposition]
    · intro x hx
      obtain rfl := List.mem_singleton.1 hx
      exact decodeEntry_fed hbs hblocks hout
    · simpa using hlen

theorem seqEntries_seqId {e : BatchEntry} (he : e ∈ seqEntries seq) : e.seqId = seq.seqId := by
  unfold seqEntries at he
  split at he
  · exact absurd he List.not_mem_nil
  · split at he
    · obtain ⟨i, hi, rfl⟩ := List.mem_mapIdx.1 he
      rfl
    · rw [List.mem_singleton.1 he]
      rfl

end Entries

/-! ## The entries of one group in a batch -/

section Batch

variable {st : Scheduler} {out : SchedulerOutput}

theorem buildBatch_entries_single (hwf : st.WellFormed)
    (hsub : ∀ p ∈ out.scheduledGroups, p ∈ st.queued) :
    (buildBatch st.groups out).1.entries
      = out.scheduledGroups.flatMap (fun p => seqEntries (st.seq p)) := by
  rw [buildBatch_entries]
  refine List.flatMap_congr (fun p hp => ?_)
  rw [(hwf.single_of_mem (hsub p hp)).sequences]
  simp [Scheduler.seq]

/-- The entries of a group that has not been scheduled are none, those of one that has been are the
    entries of its sequence. -/
theorem entriesFor_buildBatch (hwf : st.WellFormed)
    (hsub : ∀ p ∈ out.scheduledGroups, p ∈ st.queued) (hnodup : out.scheduledGroups.Nodup)
    {p : GroupPtr} (hp : p ∈ st.queued) :
    Driver.entriesFor (buildBatch st.groups out).1 (st.seq p)
      = if p ∈ out.scheduledGroups then (seqEntries (st.seq p)).map (fun e => (e, st.seq p))
        else [] := by
  have hfilter : ∀ ps : List GroupPtr, (∀ q ∈ ps, q ∈ st.queued) → ps.Nodup →
      (ps.flatMap (fun q => seqEntries (st.seq q))).filter (fun e => e.seqId = (st.seq p).seqId)
        = if p ∈ ps then seqEntries (st.seq p) else [] := by
    intro ps hps hnodup
    induction ps with
    | nil => rfl
    | cons q rest ih =>
        obtain ⟨hq, hrest⟩ := List.nodup_cons.1 hnodup
        have ih' := ih (fun r hr => hps r (List.mem_cons_of_mem _ hr)) hrest
        rw [List.flatMap_cons, List.filter_append, ih']
        by_cases hqp : q = p
        · subst hqp
          have hall : (seqEntries (st.seq q)).filter (fun e => e.seqId = (st.seq q).seqId)
              = seqEntries (st.seq q) :=
            List.filter_eq_self.2 (fun e he => by simpa using seqEntries_seqId he)
          rw [hall, if_neg hq, if_pos (List.mem_cons_self ..), List.append_nil]
        · have hnone : (seqEntries (st.seq q)).filter (fun e => e.seqId = (st.seq p).seqId) = [] := by
            refine List.filter_eq_nil_iff.2 (fun e he heq => hqp ?_)
            have hid := seqEntries_seqId he
            exact hwf.eq_of_seqId (hps q (List.mem_cons_self ..)) hp
              (hid.symm.trans (of_decide_eq_true heq))
          rw [hnone, List.nil_append]
          simp only [List.mem_cons, Ne.symm hqp, false_or]
  rw [Driver.entriesFor, buildBatch_entries_single hwf hsub, hfilter _ hsub hnodup]
  split
  · rfl
  · rfl

/-- The batch has an entry for every scheduled group. -/
theorem length_le_buildBatch (hwf : st.WellFormed)
    (hsub : ∀ p ∈ out.scheduledGroups, p ∈ st.queued)
    (hfin : ∀ p ∈ out.scheduledGroups, (st.seq p).isFinished = false)
    (hprompt : ∀ p ∈ out.scheduledGroups, (st.seq p).promptTokens ≠ []) :
    out.scheduledGroups.length ≤ (buildBatch st.groups out).1.entries.length := by
  rw [buildBatch_entries_single hwf hsub, List.length_flatMap]
  have hsum := List.length_le_sum_of_one_le
    (out.scheduledGroups.map (fun p => (seqEntries (st.seq p)).length)) (by
      intro n hn
      obtain ⟨p, hp, rfl⟩ := List.mem_map.1 hn
      exact seqEntries_length_pos (hfin p hp) (hprompt p hp))
  rwa [List.length_map] at hsum

end Batch

namespace Driver

/-! ## A scheduling step -/

theorem mem_waiting_of_admitted {st : Scheduler} {p : GroupPtr} (h : p ∈ admitted st) :
    p ∈ st.beforePrefills.sched.waiting := by
  obtain ⟨⟨s, q⟩, hmem, rfl⟩ := List.mem_map.1 h
  exact ScheduleState.mem_of_prefillAdmissions hmem

/-- Between the moves of a step: the groups `ps`, those that are admitted, start without output; the
    others keep the output they had. No sequence has more blocks than its tokens fill, and the
    scheduled ones have those that `num_blocks_needed` asks for. -/
structure MidFeed (st : Scheduler) (ps : List GroupPtr) (s : ScheduleState) : Prop where
  kept : ∀ q ∈ s.sched.running ++ s.sched.swapped, q ∉ ps →
    q ∈ st.running ++ st.swapped ∧ (s.sched.seq q).outputTokens = (st.seq q).outputTokens
  fresh : ∀ q ∈ s.sched.running ++ s.sched.swapped, q ∈ ps →
    q ∈ s.output.scheduledGroups ∧ (s.sched.seq q).outputTokens = []
  grown : ∀ q ∈ s.sched.running ++ s.sched.swapped, (s.sched.seq q).logicalBlocks.length
    ≤ (s.sched.seq q).totalLen ⌈/⌉ st.blockManager.blockSize
  filled : ∀ q ∈ s.output.scheduledGroups, (s.sched.seq q).numBlocksNeeded st.blockManager.blockSize
    ≤ (s.sched.seq q).logicalBlocks.length

variable {st : Scheduler} {ps : List GroupPtr} {s s' : ScheduleState} {p : GroupPtr}

/-- Rewriting the sequence of one group and moving the group. -/
theorem MidFeed.move (h : MidFeed st ps s) {x : SequenceData}
    (hseq : ∀ q, s'.sched.seq q = if q = p then x else s.sched.seq q)
    (hmem : ∀ q ∈ s'.sched.running ++ s'.sched.swapped, q ≠ p →
      q ∈ s.sched.running ++ s.sched.swapped)
    (hsub : ∀ q ∈ s.output.scheduledGroups, q ∈ s'.output.scheduledGroups)
    (hsched : ∀ q ∈ s'.output.scheduledGroups, q ≠ p → q ∈ s.output.scheduledGroups)
    (hkept : p ∈ s'.sched.running ++ s'.sched.swapped → p ∉ ps →
      p ∈ st.running ++ st.swapped ∧ x.outputTokens = (st.seq p).outputTokens)
    (hfresh : p ∈ s'.sched.running ++ s'.sched.swapped → p ∈ ps →
      p ∈ s'.output.scheduledGroups ∧ x.outputTokens = [])
    (hgrown : p ∈ s'.sched.running ++ s'.sched.swapped →
      x.logicalBlocks.length ≤ x.totalLen ⌈/⌉ st.blockManager.blockSize)
    (hfilled : p ∈ s'.output.scheduledGroups →
      x.numBlocksNeeded st.blockManager.blockSize ≤ x.logicalBlocks.length) :
    MidFeed st ps s' := by
  refine ⟨?_, ?_, ?_, ?_⟩
  · intro q hq hps
    rw [hseq]
    split
    · next hqp =>
        subst hqp
        exact hkept hq hps
    · next hqp => exact h.kept q (hmem q hq hqp) hps
  · intro q hq hps
    rw [hseq]
    split
    · next hqp =>
        subst hqp
        exact hfresh hq hps
    · next hqp =>
        obtain ⟨hmem', hout⟩ := h.fresh q (hmem q hq hqp) hps
        exact ⟨hsub q hmem', hout⟩
  · intro q hq
    rw [hseq]
    split
    · next hqp =>
        subst hqp
        exact hgrown hq
    · next hqp => exact h.grown q (hmem q hq hqp)
  · intro q hq
    rw [hseq]
    split
    · next hqp =>
        subst hqp
        exact hfilled hq
    · next hqp => exact h.filled q (hsched q hq hqp)

theorem blockSize_of_midStep (hs : st.MidStep s) :
    s.sched.blockManager.blockSize = st.blockManager.blockSize :=
  congrArg CacheConfig.blockSize hs.cache

theorem MidFeed.decodeGroup {rest : List GroupPtr} (h : MidFeed st [] s) (hs : st.MidStep s)
    (hat : st.DecodesAt (p :: rest) s) (hfin : (s.sched.seq p).isFinished = false) :
    MidFeed st [] (s.decodeGroup p) := by
  have hp : p ∈ s.sched.running ++ s.sched.swapped := List.mem_append_left _ hat.mem_running
  have hsingle := hs.wf.single_of_mem (WellFormed.mem_running hat.mem_running)
  obtain ⟨bids, hlen, hseq⟩ := ScheduleState.decodeGroup_seq hsingle hfin
  have hle := h.grown p hp
  have hneeded := (s.sched.seq p).numBlocksNeeded_le_ceilDiv st.blockManager.blockSize
  -- the sequence gets exactly the blocks it is short of
  have hfill : ((s.sched.seq p).logicalBlocks ++ bids).length
      = max (s.sched.seq p).logicalBlocks.length
          ((s.sched.seq p).numBlocksNeeded st.blockManager.blockSize) := by
    rw [List.length_append, hlen, missingBlocks, blockSize_of_midStep hs]
    omega
  exact h.move hseq (fun q hq _ => hq) (fun q hq => List.mem_append_left _ hq)
    (fun q hq hqp => mem_of_mem_concat hq hqp) (fun _ hps => h.kept p hp hps)
    (fun _ hps => absurd hps List.not_mem_nil) (fun _ => hfill.trans_le (Nat.max_le.2 ⟨hle, hneeded⟩))
    (fun _ => (Nat.le_max_right _ _).trans_eq hfill.symm)

theorem MidFeed.swapOutGroup {init : List GroupPtr} (h : MidFeed st [] s) (hwf : st.WellFormed)
    (hs : st.MidStep s) (hmid : MidLoop st s) (hat : st.PreemptsAt s)
    (hrun : s.sched.running = init ++ [p]) : MidFeed st [] (s.swapOutGroup p init) := by
  have hp : p ∈ s.sched.running := by rw [hrun]; simp
  have hp' : p ∈ s.sched.running ++ s.sched.swapped := List.mem_append_left _ hp
  have hmem : p ∈ s.sched.queued := WellFormed.mem_running hp
  have hfin := hmid.unfinished p (hs.queued.mem_iff.1 hmem)
  obtain ⟨bids, hlen, hseq⟩ := ScheduleState.swapOutGroup_seq (hs.wf.single_of_mem hmem) init hfin
  have hnot := hat.victim_not_scheduled hwf.queues.nodup_running hrun
  refine h.move hseq ?_ (fun _ hq => hq) (fun _ hq _ => hq) (fun _ hps => h.kept p hp' hps)
    (fun _ hps => absurd hps List.not_mem_nil) (fun _ => ?_) (fun hq => absurd hq hnot)
  · intro q hq hqp
    rw [hrun]
    rcases List.mem_append.1 hq with hq | hq
    · exact List.mem_append_left _ (List.mem_append_left _ hq)
    · exact List.mem_append_right _ (mem_of_mem_concat hq hqp)
  · show bids.length ≤ _
    rw [hlen]
    exact h.grown p hp'

theorem MidFeed.recomputeGroup {init : List GroupPtr} (h : MidFeed st [] s) (hwf : st.WellFormed)
    (hs : st.MidStep s) (hmid : MidLoop st s) (hat : st.PreemptsAt s)
    (hrun : s.sched.running = init ++ [p]) : MidFeed st [] (s.recomputeGroup p init) := by
  have hp : p ∈ s.sched.running := by rw [hrun]; simp
  have hmem : p ∈ s.sched.queued := WellFormed.mem_running hp
  have hfin := hmid.unfinished p (hs.queued.mem_iff.1 hmem)
  have hseq := ScheduleState.recomputeGroup_seq (hs.wf.single_of_mem hmem) init hfin
  have hnot := hat.victim_not_scheduled hwf.queues.nodup_running hrun
  -- the victim leaves the running queue and does not enter the swapped one
  have hgone : p ∉ init ++ s.sched.swapped := by
    intro hin
    rcases List.mem_append.1 hin with hin | hin
    · exact hs.wf.queues.not_mem_init hrun hin
    · exact hs.wf.queues.disjoint_running_swapped hp hin
  refine h.move hseq ?_ (fun _ hq => hq) (fun _ hq _ => hq) (fun hin => absurd hin hgone)
    (fun hin => absurd hin hgone) (fun hin => absurd hin hgone) (fun hq => absurd hq hnot)
  intro q hq _
  rw [hrun]
  rcases List.mem_append.1 hq with hq | hq
  · exact List.mem_append_left _ (List.mem_append_left _ hq)
  · exact List.mem_append_right _ hq

/-- The waiting queue is sorted: what will be admitted is neither running nor swapped out. -/
theorem MidFeed.sorted {w : List GroupPtr} (h : MidFeed st [] st.afterDecodes)
    (hs : st.MidStep st.afterDecodes) (hperm : w.Perm st.afterDecodes.sched.waiting)
    (heq : st.beforePrefills = { st.afterDecodes with
      sched := { st.afterDecodes.sched with waiting := w } }) :
    MidFeed st (admitted st) st.beforePrefills := by
  have hdisj : ∀ q ∈ st.afterDecodes.sched.running ++ st.afterDecodes.sched.swapped,
      q ∉ admitted st := by
    intro q hq hadm
    have hw := mem_waiting_of_admitted hadm
    rw [heq] at hw
    have hw' := hperm.mem_iff.1 hw
    rcases List.mem_append.1 hq with hq | hq
    · exact hs.wf.queues.disjoint_running_waiting hq hw'
    · exact hs.wf.queues.disjoint_waiting_swapped hw' hq
  rw [heq]
  exact ⟨fun q hq _ => h.kept q hq List.not_mem_nil,
    fun q hq hadm => absurd hadm (hdisj q hq), h.grown, h.filled⟩

theorem MidFeed.admitGroup {rest : List GroupPtr} (h : MidFeed st (admitted st) s)
    (hs : st.MidStep s) (hmid : MidLoop st s) (hadm : (s, p) ∈ st.admissions)
    (hwaiting : s.sched.waiting = p :: rest) :
    MidFeed st (admitted st) (s.admitGroup p rest) := by
  have hpw : p ∈ s.sched.waiting := by rw [hwaiting]; exact List.mem_cons_self ..
  have hsingle := hs.wf.single_of_mem (WellFormed.mem_waiting hpw)
  obtain ⟨hout, hblocks⟩ := hmid.waiting p hpw
  obtain ⟨bids, hlen, hseq⟩ := ScheduleState.admitGroup_seq hsingle rest
  have hin : p ∈ admitted st := List.mem_map.2 ⟨_, hadm, rfl⟩
  have hfill : ((s.sched.seq p).logicalBlocks ++ bids).length
      = (s.sched.seq p).numBlocksNeeded st.blockManager.blockSize := by
    rw [hblocks, List.nil_append, hlen, blockSize_of_midStep hs]
  refine h.move hseq ?_ (fun q hq => List.mem_append_left _ hq)
    (fun q hq hqp => mem_of_mem_concat hq hqp) (fun _ hnot => absurd hin hnot)
    (fun _ _ => ⟨?_, hout⟩) (fun _ => hfill.trans_le (SequenceData.numBlocksNeeded_le_ceilDiv _ _))
    (fun _ => Nat.le_of_eq hfill.symm)
  · intro q hq hqp
    rcases List.mem_append.1 hq with hq | hq
    · exact List.mem_append_left _ (mem_of_mem_concat hq hqp)
    · exact List.mem_append_right _ hq
  · exact List.mem_append_right _ (List.mem_singleton_self p)

theorem MidFeed.swapInGroup {rest : List GroupPtr} (h : MidFeed st ps s) (hs : st.MidStep s)
    (hmid : MidLoop st s) (hswap : s.sched.swapped = p :: rest) :
    MidFeed st ps (s.swapInGroup p rest) := by
  have hps : p ∈ s.sched.swapped := by rw [hswap]; exact List.mem_cons_self ..
  have hp : p ∈ s.sched.running ++ s.sched.swapped := List.mem_append_right _ hps
  have hmem : p ∈ s.sched.queued := WellFormed.mem_swapped hps
  have hfin := hmid.unfinished p (hs.queued.mem_iff.1 hmem)
  obtain ⟨bids, hlen, hseq⟩ := ScheduleState.swapInGroup_seq (hs.wf.single_of_mem hmem) rest hfin
  refine h.move hseq ?_ (fun _ hq => hq) (fun _ hq _ => hq) (fun _ hnot => h.kept p hp hnot)
    (fun _ hadm => h.fresh p hp hadm) (fun _ => ?_) (fun hq => ?_)
  · intro q hq hqp
    rcases List.mem_append.1 hq with hq | hq
    · exact List.mem_append_left _ (mem_of_mem_concat hq hqp)
    · refine List.mem_append_right _ ?_
      rw [hswap]
      exact List.mem_cons_of_mem _ hq
  · show bids.length ≤ _
    rw [hlen]
    exact h.grown p hp
  · exact absurd hps (hs.wf.queues.disjoint_running_swapped (hmid.scheduled p hq))

/-- The decode phase keeps every output, except that of a group sent back to the waiting queue. -/
theorem afterDecodes_midFeed (hwf : st.WellFormed) (hbegin : MidLoop st st.beginSchedule)
    (hgrown : ∀ q ∈ st.running ++ st.swapped, (st.seq q).logicalBlocks.length
      ≤ (st.seq q).totalLen ⌈/⌉ st.blockManager.blockSize) :
    st.MidStep st.afterDecodes ∧ MidLoop st st.afterDecodes ∧ MidFeed st [] st.afterDecodes := by
  refine afterDecodes_midLoop (P := MidFeed st []) hwf
    ⟨hbegin, fun q hq _ => ⟨hq, rfl⟩, fun _ _ hq => absurd hq List.not_mem_nil, hgrown,
      fun _ hq => absurd hq List.not_mem_nil⟩ ?_ ?_ ?_
  · intro s p rest hs _ h hat hfin _
    exact h.decodeGroup hs hat hfin
  · intro s init v _ hs hmid h hat hrun
    exact h.swapOutGroup hwf hs hmid hat hrun
  · intro s init v _ hs hmid h hat hrun
    exact h.recomputeGroup hwf hs hmid hat hrun

/-- **A step and the record**: an admitted group starts again, any other one goes on. -/
theorem schedule_midFeed (hwf : st.WellFormed) (hbegin : MidLoop st st.beginSchedule)
    (hgrown : ∀ q ∈ st.running ++ st.swapped, (st.seq q).logicalBlocks.length
      ≤ (st.seq q).totalLen ⌈/⌉ st.blockManager.blockSize) :
    st.MidStep st.afterSwapIn ∧ MidLoop st st.afterSwapIn ∧
      MidFeed st (admitted st) st.afterSwapIn := by
  obtain ⟨hs₁, hmid₁, h₁⟩ := afterDecodes_midFeed hwf hbegin hgrown
  refine afterSwapIn_midLoop (P := MidFeed st (admitted st)) ⟨hs₁, hmid₁⟩ ?_ ?_ ?_
  · intro w hperm heq
    exact h₁.sorted hs₁ hperm heq
  · intro s p rest hs hmid h hadm hwaiting _
    exact h.admitGroup hs hmid hadm hwaiting
  · intro s p rest hs hmid h hswap _
    exact h.swapInGroup hs hmid hswap

/-! ## The record along a run -/

theorem acceptToken_totalLen (maxTokens : Int) (seq : SequenceData) (tok : TokenId) :
    (acceptToken maxTokens seq tok).totalLen = seq.totalLen + 1 := by
  have hprompt : (acceptToken maxTokens seq tok).promptTokens = seq.promptTokens := by
    simp only [acceptToken]
    split <;> rfl
  simp [SequenceData.totalLen, SequenceData.promptLen, SequenceData.outputLen, hprompt,
    acceptToken_outputTokens, Nat.add_assoc]

/-- The record of what was fed, between the calls of the loop. A group that is not in the current
    batch has all but its last token fed. -/
structure Feed (cache : CacheConfig) (d : Driver) : Prop where
  loop : d.Loop
  config : d.sched.blockManager.config = cache
  order : ∀ p, FedInOrder cache.blockSize (d.fed p)
  grown : ∀ p ∈ d.sched.running ++ d.sched.swapped, (d.sched.seq p).logicalBlocks.length
    ≤ (d.sched.seq p).totalLen ⌈/⌉ cache.blockSize
  settled : ∀ p ∈ d.sched.running ++ d.sched.swapped, p ∉ d.phase.pending →
    (d.sched.seq p).outputTokens ≠ [] ∧ (d.fed p).length + 1 = (d.sched.seq p).totalLen
  scheduled : ∀ out, d.phase = .scheduled out → ∀ p ∈ out.scheduledGroups,
    (d.sched.seq p).logicalBlocks.length = (d.sched.seq p).totalLen ⌈/⌉ cache.blockSize ∧
      Unfed (d.sched.seq p) (d.fed p)
  batched : ∀ out batch, d.phase = .batched out batch →
    out.scheduledGroups.length ≤ batch.entries.length ∧
      ∀ p ∈ out.scheduledGroups, (d.fed p).length = (d.sched.seq p).totalLen
  decoded : ∀ out toks, d.phase = .decoded out toks →
    out.scheduledGroups.length ≤ toks.length ∧
      ∀ p ∈ out.scheduledGroups, (d.fed p).length = (d.sched.seq p).totalLen

namespace Feed

variable {cache : CacheConfig} {d : Driver}

theorem mem_queued {st : Scheduler} {p : GroupPtr} (hp : p ∈ st.running ++ st.swapped) :
    p ∈ st.queued := by
  rcases List.mem_append.1 hp with hp | hp
  · exact WellFormed.mem_running hp
  · exact WellFormed.mem_swapped hp

theorem blockSize (h : Feed cache d) : d.sched.blockManager.blockSize = cache.blockSize :=
  congrArg CacheConfig.blockSize h.config

theorem addRequest (h : Feed cache d) {group : SequenceGroup}
    (hfresh : d.sched.FreshRequest group) (hprompt : group.seq.promptTokens ≠ []) :
    Feed cache { d with sched := d.sched.addRequest group } := by
  have hold := h.loop.wf.seq_addRequest group
  have hpend : ∀ q ∈ d.phase.pending, (d.sched.addRequest group).seq q = d.sched.seq q :=
    fun q hq => hold q (WellFormed.mem_running (h.loop.pending q hq))
  refine ⟨h.loop.addRequest hfresh hprompt, h.config, h.order, ?_, ?_, ?_, ?_, ?_⟩
  · intro q hq
    rw [hold q (mem_queued hq)]
    exact h.grown q hq
  · intro q hq hnot
    rw [hold q (mem_queued hq)]
    exact h.settled q hq hnot
  · intro out hphase q hq
    rw [hpend q (by rw [hphase]; exact hq)]
    exact h.scheduled out hphase q hq
  · intro out batch hphase
    refine ⟨(h.batched out batch hphase).1, fun q hq => ?_⟩
    rw [hpend q (by rw [hphase]; exact hq)]
    exact (h.batched out batch hphase).2 q hq
  · intro out toks hphase
    refine ⟨(h.decoded out toks hphase).1, fun q hq => ?_⟩
    rw [hpend q (by rw [hphase]; exact hq)]
    exact (h.decoded out toks hphase).2 q hq

theorem schedule (h : Feed cache d) (hphase : d.phase = .ready) (hsum : d.sched.NoWrap) :
    Feed cache { sched := d.sched.schedule.2, phase := .scheduled d.sched.schedule.1,
                 fed := fun p => if p ∈ admitted d.sched then [] else d.fed p } := by
  have hgrown : ∀ q ∈ d.sched.running ++ d.sched.swapped, (d.sched.seq q).logicalBlocks.length
      ≤ (d.sched.seq q).totalLen ⌈/⌉ d.sched.blockManager.blockSize := by
    rw [h.blockSize]
    exact h.grown
  obtain ⟨hs, hmid, hfeed⟩ := schedule_midFeed h.loop.wf
    (MidLoop.begin (h.loop.unfinished (by rw [hphase]; simp))
      (fun p hp => (h.loop.waiting p hp).2)) hgrown
  -- a group that was not admitted has the tokens and the record it had
  have hkept : ∀ q ∈ d.sched.afterSwapIn.sched.running ++ d.sched.afterSwapIn.sched.swapped,
      q ∉ admitted d.sched → (d.sched.afterSwapIn.sched.seq q).outputTokens ≠ [] ∧
        (d.fed q).length + 1 = (d.sched.afterSwapIn.sched.seq q).totalLen := by
    intro q hq hnot
    obtain ⟨hmem, hout⟩ := hfeed.kept q hq hnot
    have hprompt := hmid.prompts q (mem_queued hmem)
    have hsettled := h.settled q hmem (by rw [hphase]; exact List.not_mem_nil)
    simp only [SequenceData.totalLen, SequenceData.promptLen, SequenceData.outputLen, hout,
      hprompt] at hsettled ⊢
    exact hsettled
  refine ⟨h.loop.schedule hphase _, hs.cache.trans h.config, ?_, ?_, ?_, ?_, ?_, ?_⟩
  · intro q
    show FedInOrder _ (if q ∈ admitted d.sched then [] else d.fed q)
    split
    · exact FedInOrder.nil _
    · exact h.order q
  · intro q hq
    rw [← h.blockSize]
    exact hfeed.grown q hq
  · intro q hq hpend
    have hnot : q ∉ admitted d.sched := fun hadm => hpend (hfeed.fresh q hq hadm).1
    show _ ∧ (if q ∈ admitted d.sched then [] else d.fed q).length + 1 = _
    rw [if_neg hnot]
    exact hkept q hq hnot
  · intro out hout q hq
    cases hout
    have hrun := List.mem_append_left d.sched.afterSwapIn.sched.swapped (hmid.scheduled q hq)
    refine ⟨?_, ?_⟩
    · rw [← h.blockSize]
      exact (hs.noWrap h.loop.wf hsum (mem_queued hrun)).length_eq (hfeed.filled q hq)
        (hfeed.grown q hrun)
    · show Unfed _ (if q ∈ admitted d.sched then [] else d.fed q)
      split
      · next hadm => exact Or.inl ⟨(hfeed.fresh q hrun hadm).2, rfl⟩
      · next hadm => exact Or.inr (hkept q hrun hadm)
  · intro out batch hout
    cases hout
  · intro out toks hout
    cases hout

theorem buildBatch (h : Feed cache d) (hbs : 1 ≤ cache.blockSize) {out : SchedulerOutput}
    (hphase : d.phase = .scheduled out)
    (hloop : Loop { d with
      phase := .batched out (BatchManager.buildBatch d.sched.groups out).1,
      fed := fun p => if p ∈ d.sched.queued then
        d.fed p ++ entriesFor (BatchManager.buildBatch d.sched.groups out).1 (d.sched.seq p)
        else d.fed p }) :
    Feed cache { d with
      phase := .batched out (BatchManager.buildBatch d.sched.groups out).1,
      fed := fun p => if p ∈ d.sched.queued then
        d.fed p ++ entriesFor (BatchManager.buildBatch d.sched.groups out).1 (d.sched.seq p)
        else d.fed p } := by
  have hfin := h.loop.unfinished (by rw [hphase]; simp)
  have hqueued : ∀ p ∈ out.scheduledGroups, p ∈ d.sched.queued := fun p hp =>
    WellFormed.mem_running (hloop.pending p hp)
  have hfed : ∀ p ∈ d.sched.queued, d.fed p
      ++ entriesFor (BatchManager.buildBatch d.sched.groups out).1 (d.sched.seq p)
      = d.fed p ++ if p ∈ out.scheduledGroups then
          (seqEntries (d.sched.seq p)).map (fun e => (e, d.sched.seq p)) else [] :=
    fun p hp => by rw [entriesFor_buildBatch h.loop.wf hqueued hloop.nodup hp]
  have hnew : ∀ p ∈ out.scheduledGroups,
      FedInOrder cache.blockSize
        (d.fed p ++ (seqEntries (d.sched.seq p)).map (fun e => (e, d.sched.seq p))) ∧
      (d.fed p ++ (seqEntries (d.sched.seq p)).map (fun e => (e, d.sched.seq p))).length
        = (d.sched.seq p).totalLen := by
    intro p hp
    obtain ⟨hblocks, hunfed⟩ := h.scheduled out hphase p hp
    exact hunfed.feed (h.order p) hbs (hfin p (hqueued p hp)) hblocks
  refine ⟨hloop, h.config, ?_, h.grown, ?_, ?_, ?_, ?_⟩
  · intro p
    show FedInOrder _ (if p ∈ d.sched.queued then _ else _)
    split
    · next hp =>
        rw [hfed p hp]
        split
        · next hs => exact (hnew p hs).1
        · rw [List.append_nil]
          exact h.order p
    · exact h.order p
  · intro p hp hnot
    have hnot' : p ∉ out.scheduledGroups := hnot
    show _ ∧ (if p ∈ d.sched.queued then _ else _ : List (BatchEntry × SequenceData)).length + 1 = _
    rw [if_pos (mem_queued hp), hfed p (mem_queued hp), if_neg hnot', List.append_nil]
    exact h.settled p hp (by rw [hphase]; exact hnot)
  · intro out' hout'
    cases hout'
  · intro out' batch hout'
    cases hout'
    refine ⟨length_le_buildBatch h.loop.wf hqueued (fun p hp => hfin p (hqueued p hp))
      (fun p hp => h.loop.prompts p (hqueued p hp)), fun p hp => ?_⟩
    show (if p ∈ d.sched.queued then _ else _ : List (BatchEntry × SequenceData)).length = _
    rw [if_pos (hqueued p hp), hfed p (hqueued p hp), if_pos hp]
    exact (hnew p hp).2
  · intro out' toks hout'
    cases hout'

theorem updateAfterDecode (h : Feed cache d) {out : SchedulerOutput} {toks : List TokenId}
    (hphase : d.phase = .decoded out toks) (now : TimePoint) :
    Feed cache { d with sched := d.sched.updateAfterDecode out toks now, phase := .updated } := by
  obtain ⟨hlen, hfed⟩ := h.decoded out toks hphase
  have hpend : ∀ p ∈ out.scheduledGroups, p ∈ d.sched.running := by
    have := h.loop.pending
    rwa [hphase] at this
  have hnodup : out.scheduledGroups.Nodup := by
    have := h.loop.nodup
    rwa [hphase] at this
  have hfin := h.loop.unfinished (by rw [hphase]; simp)
  refine ⟨h.loop.updateAfterDecode hphase now, h.config, h.order, ?_, ?_, ?_, ?_, ?_⟩
  · intro p hp
    have hext := h.loop.wf.extends_updateAfterDecode out toks now p (mem_queued hp)
    calc ((d.sched.updateAfterDecode out toks now).seq p).logicalBlocks.length
        = (d.sched.seq p).logicalBlocks.length := congrArg List.length hext.logicalBlocks
      _ ≤ (d.sched.seq p).totalLen ⌈/⌉ cache.blockSize := h.grown p hp
      _ ≤ _ := ceilDiv_mono hext.totalLen_le _
  · intro p hp _
    by_cases hs : p ∈ out.scheduledGroups
    · obtain ⟨tok, htok⟩ := updateGroups_accepts now out.scheduledGroups d.sched.groups toks hnodup
        (fun q hq => ⟨h.loop.wf.single_of_mem (WellFormed.mem_running (hpend q hq)),
          hfin q (WellFormed.mem_running (hpend q hq))⟩) hlen hs
      have hseq : (d.sched.updateAfterDecode out toks now).seq p
          = acceptToken (d.sched.groups p).sampling.maxTokens (d.sched.seq p) tok := htok
      rw [hseq, acceptToken_totalLen, acceptToken_outputTokens]
      exact ⟨by simp, congrArg (· + 1) (hfed p hs)⟩
    · rw [updateAfterDecode_seq_of_not_mem toks now hs]
      exact h.settled p hp (by rw [hphase]; exact hs)
  · intro out' hout'
    cases hout'
  · intro out' batch hout'
    cases hout'
  · intro out' toks' hout'
    cases hout'

theorem freeFinishedRequests (h : Feed cache d) (hphase : d.phase = .updated) :
    Feed cache { d with sched := d.sched.freeFinishedRequests, phase := .ready } := by
  have hloop := h.loop.freeFinishedRequests
  have hconf := (freeFinishedRequests_cache h.loop.wf).trans h.config
  rw [freeFinishedRequests_eq] at hloop hconf ⊢
  have hsub : ∀ p ∈ d.sched.unfinishedIn d.sched.running ++ d.sched.swapped,
      p ∈ d.sched.running ++ d.sched.swapped := by
    intro p hp
    rcases List.mem_append.1 hp with hp | hp
    · exact List.mem_append_left _ (List.mem_filter.1 hp).1
    · exact List.mem_append_right _ hp
  refine ⟨hloop, hconf, h.order, ?_, ?_, ?_, ?_, ?_⟩
  · intro p hp
    exact h.grown p (hsub p hp)
  · intro p hp _
    exact h.settled p (hsub p hp) (by rw [hphase]; exact List.not_mem_nil)
  · intro out hout
    cases hout
  · intro out batch hout
    cases hout
  · intro out toks hout
    cases hout

end Feed

theorem init_feed (config : SchedulerConfig) (cache : CacheConfig) :
    Feed cache (init config cache) := by
  refine ⟨init_loop config cache, rfl, fun _ => FedInOrder.nil _, ?_, ?_, ?_, ?_, ?_⟩
  · intro p hp
    exact absurd hp List.not_mem_nil
  · intro p hp
    exact absurd hp List.not_mem_nil
  · intro out hout
    cases hout
  · intro out batch hout
    cases hout
  · intro out toks hout
    cases hout

/-- The next call is enabled and, if it is `schedule()`, no sum in `num_blocks_needed` wraps. -/
def EnabledNoWrap (d : Driver) (op : DriverOp) : Prop :=
  d.Enabled op ∧ match op with | .schedule => d.sched.NoWrap | _ => True

instance (d : Driver) : (op : DriverOp) → Decidable (d.EnabledNoWrap op)
  | .schedule => inferInstanceAs (Decidable (d.Enabled .schedule ∧ d.sched.NoWrap))
  | .addRequest group => inferInstanceAs (Decidable (d.Enabled (.addRequest group) ∧ True))
  | .buildBatch => inferInstanceAs (Decidable (d.Enabled .buildBatch ∧ True))
  | .step newTokens => inferInstanceAs (Decidable (d.Enabled (.step newTokens) ∧ True))
  | .updateAfterDecode now => inferInstanceAs (Decidable (d.Enabled (.updateAfterDecode now) ∧ True))
  | .freeFinishedRequests => inferInstanceAs (Decidable (d.Enabled .freeFinishedRequests ∧ True))

theorem step_feed {cache : CacheConfig} (hbs : 1 ≤ cache.blockSize) (d : Driver) (op : DriverOp)
    (h : Feed cache d) (hok : d.EnabledNoWrap op) : Feed cache (d.step op) := by
  have hloop := step_loop d op h.loop hok.1
  rcases step_cases hok.1 with ⟨group, -, hfresh, hprompt, heq⟩ | ⟨rfl, hphase, heq⟩ |
    ⟨out, -, hphase, heq⟩ | ⟨out, batch, toks, -, hphase, hlen, heq⟩ |
    ⟨out, toks, now, -, hphase, heq⟩ | ⟨-, hphase, heq⟩
  · rw [heq]
    exact h.addRequest hfresh hprompt
  · rw [heq]
    exact h.schedule hphase hok.2
  · rw [heq] at hloop ⊢
    exact h.buildBatch hbs hphase hloop
  · rw [heq] at hloop ⊢
    obtain ⟨hle, hfed⟩ := h.batched out batch hphase
    refine ⟨hloop, h.config, h.order, h.grown, ?_, ?_, ?_, ?_⟩
    · intro p hp hnot
      exact h.settled p hp (by rw [hphase]; exact hnot)
    · intro out' hout'
      cases hout'
    · intro out' batch' hout'
      cases hout'
    · intro out' toks' hout'
      cases hout'
      exact ⟨by rw [hlen]; exact hle, hfed⟩
  · rw [heq]
    exact h.updateAfterDecode hphase now
  · rw [heq]
    exact h.freeFinishedRequests hphase

/-- **Continuous batching feeds every position once.** In every run of the loop in which no sum wraps,
    the entries of a group since its last admission have the positions 0, 1, 2, … and are right for the
    sequence as it was; when a batch has been built, those of a scheduled group go up to its last
    token. -/
theorem positions_fed_once (config : SchedulerConfig) (cache : CacheConfig)
    (hbs : 1 ≤ cache.blockSize) (d : Driver)
    (hreach : Run.Reach Driver.step Driver.EnabledNoWrap (Driver.init config cache) d) :
    (∀ p, FedInOrder cache.blockSize (d.fed p)) ∧
      ∀ out batch, d.phase = .batched out batch →
        ∀ p ∈ out.scheduledGroups, (d.fed p).length = (d.sched.seq p).totalLen := by
  have h : Feed cache d := hreach.invariant (init_feed config cache) (step_feed hbs)
  exact ⟨h.order, fun out batch hphase => (h.batched out batch hphase).2⟩

/-- One request of two tokens: with a block size of `2^64 - 1` the sum wraps to 0. -/
def wrappedEnd : Driver :=
  [.addRequest (.new 1 [7, 8] {}), .schedule, .buildBatch].foldl step
    (init {} Scheduler.Client.wrappingCache)

/-- Both positions are fed, and the block table of the entries is empty. -/
theorem wrappedEnd_not_fed :
    Run.Reach Driver.step Driver.Enabled (init {} Scheduler.Client.wrappingCache) wrappedEnd ∧
    (wrappedEnd.fed 0).map (fun x => (x.1.position, x.1.blockTable)) = [(0, []), (1, [])] ∧
    ¬ FedInOrder (2 ^ 64 - 1) (wrappedEnd.fed 0) := by
  have htables : (wrappedEnd.fed 0).map (fun x => (x.1.position, x.1.blockTable))
      = [(0, []), (1, [])] := by decide
  refine ⟨Run.Reach.of_allOk _ (by decide), htables, fun h => ?_⟩
  obtain ⟨x, hx, hnil⟩ := List.mem_map.1
    (htables ▸ List.mem_cons_self .. : ((0, []) : Nat × List BlockId) ∈ _)
  have hindex := (h.2 x hx).index
  rw [(Prod.mk.inj hnil).2] at hindex
  exact absurd hindex (Nat.not_lt_zero _)

/-- Two requests on a pool of three blocks of one token. In the second step the first request decodes;
    the other one is preempted and admitted again, so its prompt is fed a second time. -/
def refedRun : List DriverOp :=
  [.addRequest (.new 1 [7] {}), .addRequest (.new 2 [8] {}), .schedule, .buildBatch, .step [9, 9],
    .updateAfterDecode 0, .freeFinishedRequests, .schedule, .buildBatch]

def refedEnd : Driver :=
  refedRun.foldl step (init { preemptionMode := .recompute }
    { numGpuBlocks := 3, numCpuBlocks := 0, blockSize := 1 })

theorem refedRun_positions :
    (refedEnd.fed 0).map (fun x => x.1.position) = [0, 1] ∧
    (refedEnd.fed 1).map (fun x => x.1.position) = [0] ∧
    ∀ p, FedInOrder 1 (refedEnd.fed p) := by
  refine ⟨by decide, by decide, ?_⟩
  exact (positions_fed_once _ _ (by decide) refedEnd
    (Run.Reach.of_allOk refedRun (by decide))).1

end Driver

end CacheFlow
