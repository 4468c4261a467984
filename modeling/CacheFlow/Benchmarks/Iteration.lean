import CacheFlow.Driver.Service
import CacheFlow.Scheduler.Room
import Mathlib.Algebra.BigOperators.Ring.Finset

set_option autoImplicit false

/-! # One iteration with sufficient memory

What the benchmarks build on. When the pool can hold all groups present at their full length, an iteration of
the loop schedules groups, hands each of them one token and removes the ones that are finished. `Iterated`
says what becomes of every request, in terms of the state before the iteration. -/

namespace CacheFlow

open Scheduler BatchManager

/-- The entries a sequence has in a batch. -/
def SequenceData.batchTokens (seq : SequenceData) : Nat :=
  if seq.outputLen = 0 then seq.promptLen else 1

theorem seqEntries_length_eq {seq : SequenceData} (hfin : seq.isFinished = false) :
    (seqEntries seq).length = seq.batchTokens := by
  rw [seqEntries, if_neg (by rw [hfin]; simp), SequenceData.batchTokens]
  split
  · exact List.length_mapIdx
  · rfl

namespace Scheduler

/-- An iteration from `st` with the batch `batch` for the groups `ps`, up to the state `st'` in which the
    finished groups are still present. -/
structure Iterated (cache : CacheConfig) (st st' : Scheduler) (ps : List GroupPtr) (batch : DecodeBatch) :
    Prop where
  nodup : ps.Nodup
  mem : ∀ p ∈ ps, p ∈ st.queued
  wf : st'.WellFormed
  config : st'.config = st.config
  next : st'.next = st.next
  queued : st'.queued.Perm st.queued
  same : ∀ p < st.next, SamePrompt (st.groups p) (st'.groups p)
  grown : ∀ p ∈ ps, (st'.seq p).outputLen = (st.seq p).outputLen + 1
  kept : ∀ p, p ∉ ps → (st'.seq p).outputLen = (st.seq p).outputLen
  unfinished : ∀ p ∈ st.queued, p ∉ ps → (st'.seq p).isFinished = false
  finished : ∀ p ∈ ps, (st'.seq p).isFinished = true → Served (st'.groups p)
  tokens : batch.entries.length = (ps.map (fun p => (st.seq p).batchTokens)).sum
  service : Service cache st'.freeFinishedRequests
  present : ∀ p, p ∈ st'.freeFinishedRequests.queued ↔ p ∈ st.queued ∧ (st'.seq p).isFinished = false
  count : st'.freeFinishedRequests.queued.length
    + (ps.filter (fun p => (st'.groups p).allFinished)).length = st.queued.length

variable {cache : CacheConfig} {st : Scheduler}

/-- **One iteration.** -/
theorem Service.iterated (h : Service cache st)
    (hres : st.reserved cache.blockSize ≤ cache.numGpuBlocks) {toks : List TokenId}
    (htoks : toks.length = (buildBatch st.schedule.2.groups st.schedule.1).1.entries.length)
    (now : TimePoint) :
    Iterated cache st (st.schedule.2.updateAfterDecode st.schedule.1 toks now)
      st.schedule.1.scheduledGroups (buildBatch st.schedule.2.groups st.schedule.1).1 := by
  have hS := h.schedule hres
  have hqueued : ∀ p ∈ st.schedule.1.scheduledGroups, p ∈ st.schedule.2.queued :=
    fun p hp => WellFormed.mem_running (hS.loop.scheduled p hp)
  have hold : ∀ p ∈ st.schedule.1.scheduledGroups, p ∈ st.queued :=
    fun p hp => hS.step.queued.mem_iff.1 (hqueued p hp)
  have hunfin : ∀ p ∈ st.schedule.1.scheduledGroups, (st.schedule.2.seq p).isFinished = false :=
    fun p hp => hS.loop.unfinished p (hold p hp)
  have hprompt : ∀ p ∈ st.schedule.1.scheduledGroups, (st.schedule.2.seq p).promptTokens ≠ [] := by
    intro p hp
    have heq : (st.schedule.2.seq p).promptTokens = (st.seq p).promptTokens :=
      hS.loop.prompts p (hold p hp)
    rw [heq]
    exact List.length_pos_iff.1 (h.prompts p (hold p hp)).1
  have hlen : st.schedule.1.scheduledGroups.length ≤ toks.length := by
    rw [htoks]
    exact length_le_buildBatch hS.step.wf hqueued hunfin hprompt
  have hrun : st.schedule.1.scheduledGroups = st.schedule.2.running := hS.scheduled
  have hU : Updated st.schedule.2 (st.schedule.2.updateAfterDecode st.schedule.1 toks now)
      st.schedule.1.scheduledGroups := by
    rw [hrun]
    exact hS.update h hS.scheduled hlen now
  have hcounted : Scheduler.Counted cache (st.schedule.2.updateAfterDecode st.schedule.1 toks now) :=
    hS.counted h hS.scheduled hlen now
  have houtput : ∀ p, (st.schedule.2.groups p).seq.outputLen = (st.seq p).outputLen :=
    fun p => (hS.service.same p).outputLen
  have hall : ∀ p ∈ st.schedule.1.scheduledGroups,
      ((st.schedule.2.updateAfterDecode st.schedule.1 toks now).groups p).allFinished
        = ((st.schedule.2.updateAfterDecode st.schedule.1 toks now).seq p).isFinished :=
    fun p hp => (hcounted.wf.single_of_mem (hqueued p hp)).allFinished
  obtain ⟨own, hacc⟩ := hcounted.accounted
  have hother : ∀ p ∈ st.queued, p ∉ st.schedule.1.scheduledGroups →
      ((st.schedule.2.updateAfterDecode st.schedule.1 toks now).seq p).isFinished = false := by
    intro p hp hnot
    rw [Scheduler.seq, hU.other p hnot]
    exact hS.loop.unfinished p hp
  have hpresent : ∀ p, p ∈ (st.schedule.2.updateAfterDecode st.schedule.1 toks now).freeFinishedRequests.queued
      ↔ p ∈ st.queued ∧
        ((st.schedule.2.updateAfterDecode st.schedule.1 toks now).seq p).isFinished = false := by
    intro p
    rw [freeFinishedRequests_eq]
    exact (hacc.mem_unfinished_iff hcounted.wf).trans
      (and_congr_left' (hS.step.queued.mem_iff (a := p)))
  refine ⟨hS.loop.nodup, hold, hcounted.wf, hS.step.config, hS.step.next, hS.step.queued, ?_, ?_, ?_,
    hother, ?_, ?_, hcounted.freeFinishedRequests, hpresent, ?_⟩
  · intro p hp
    exact (hS.service.same p).toSamePrompt.trans (hU.same p (Nat.lt_of_lt_of_eq hp hS.step.next.symm))
  · intro p hp
    rw [Scheduler.seq, (hU.accepted p hp).1, houtput]
  · intro p hp
    rw [Scheduler.seq, hU.other p hp, houtput]
  · intro p hp hfin
    rcases (hU.accepted p hp).2 with ⟨hunfin, -⟩ | hserved
    · rw [Scheduler.seq, hunfin] at hfin
      cases hfin
    · exact hserved
  · have hentries : (buildBatch st.schedule.2.groups st.schedule.1).1.entries
        = st.schedule.1.scheduledGroups.flatMap (fun p => seqEntries (st.schedule.2.seq p)) :=
      buildBatch_entries_single hS.step.wf hqueued
    rw [hentries, List.length_flatMap]
    refine congrArg List.sum (List.map_congr_left (fun p hp => ?_))
    have hplen : (st.schedule.2.seq p).promptLen = (st.seq p).promptLen :=
      congrArg List.length (hS.loop.prompts p (hold p hp))
    have holen : (st.schedule.2.seq p).outputLen = (st.seq p).outputLen := houtput p
    rw [seqEntries_length_eq (hunfin p hp), SequenceData.batchTokens, SequenceData.batchTokens, hplen,
      holen]
  · rw [← List.length_append]
    refine List.Perm.length_eq ((List.perm_ext_iff_of_nodup ?_ ?_).2 ?_)
    · refine List.nodup_append.2 ⟨hcounted.freeFinishedRequests.wf.queues, hS.loop.nodup.filter _, ?_⟩
      intro p hp q hq hpq
      subst hpq
      have hfin := (List.mem_filter.1 hq).2
      rw [hall p (List.mem_filter.1 hq).1, ((hpresent p).1 hp).2] at hfin
      cases hfin
    · exact h.wf.queues
    · intro p
      rw [List.mem_append, hpresent, List.mem_filter]
      constructor
      · rintro (⟨hp, -⟩ | ⟨hp, -⟩)
        · exact hp
        · exact hold p hp
      · intro hp
        by_cases hfin : ((st.schedule.2.updateAfterDecode st.schedule.1 toks now).seq p).isFinished = false
        · exact .inl ⟨hp, hfin⟩
        · have hps : p ∈ st.schedule.1.scheduledGroups := by
            by_contra hnot
            exact hfin (hother p hp hnot)
          refine .inr ⟨hps, ?_⟩
          rw [hall p hps]
          simpa using hfin

/-- Every sequence that is scheduled has an entry. -/
theorem Iterated.entries_ne_nil {st' : Scheduler} {ps : List GroupPtr} {batch : DecodeBatch}
    (it : Iterated cache st st' ps batch) (h : Service cache st) (hne : ps ≠ []) :
    batch.entries ≠ [] := by
  intro hnil
  obtain ⟨p, hp⟩ := List.exists_mem_of_ne_nil _ hne
  have htokens := it.tokens
  rw [hnil, List.length_nil] at htokens
  have hzero := List.sum_eq_zero_iff.1 htokens.symm _ (List.mem_map.2 ⟨p, hp, rfl⟩)
  have hprompt := (h.prompts p (it.mem p hp)).1
  rw [SequenceData.batchTokens] at hzero
  split at hzero
  · omega
  · cases hzero

/-! ## When everything is scheduled -/

/-- The prefill loop ends with an empty queue or in front of a group that fails a check. -/
theorem prefillLoop_stops {l rest : List GroupPtr} {s : ScheduleState} {p : GroupPtr}
    (hl : s.sched.waiting = l)
    (hrest : (ScheduleState.prefillLoop l s).sched.waiting = p :: rest) :
    ¬ (ScheduleState.prefillLoop l s).prefillFits p := by
  induction l generalizing s with
  | nil =>
      rw [ScheduleState.prefillLoop, hl] at hrest
      cases hrest
  | cons q l ih =>
      rw [ScheduleState.prefillLoop] at hrest ⊢
      by_cases hfits : s.prefillFits q
      · rw [if_pos hfits] at hrest ⊢
        exact ih rfl hrest
      · rw [if_neg hfits, hl] at hrest
        rw [if_neg hfits, ← (List.cons.inj hrest).1]
        exact hfits

/-- The blocks that are free leave a waiting group its reserve. -/
theorem Service.room_waiting (h : Service cache st)
    (hres : st.reserved cache.blockSize ≤ cache.numGpuBlocks) {s : ScheduleState}
    (hS : StepService cache st s) {p : GroupPtr} (hp : p ∈ s.sched.waiting) :
    blocksFor (st.seq p).promptLen cache.blockSize ≤ (s.sched.blockManager.freeList .cuda).length := by
  obtain ⟨own, hacc⟩ := hS.service.accounted
  have hpool := hacc.free_add_held hS.step.wf
  have hheld : (s.sched.running.map (fun q => (held (s.sched.seq q)).length)).sum
      ≤ (s.sched.running.map (fun q => reserve cache.blockSize (st.groups q))).sum := by
    refine List.sum_le_sum (fun q hq => ?_)
    have hmem : q ∈ st.queued := hS.step.queued.mem_iff.1 (WellFormed.mem_running hq)
    have hfin := hS.loop.unfinished q hmem
    rw [held_of_unfinished hfin]
    exact Nat.le_trans (hacc.grown q hq hfin) (h.needed_le hS.service hmem)
  have hsplit : (s.sched.running.map (fun q => reserve cache.blockSize (st.groups q))).sum
      + (s.sched.waiting.map (fun q => reserve cache.blockSize (st.groups q))).sum
      = st.reserved cache.blockSize := by
    rw [Scheduler.reserved, ← (hS.step.queued.map _).sum_eq, queued, hacc.swapped, List.append_nil,
      List.map_append, List.sum_append]
  have hone : reserve cache.blockSize (st.groups p)
      ≤ (s.sched.waiting.map (fun q => reserve cache.blockSize (st.groups q))).sum :=
    List.single_le_sum (fun _ _ => Nat.zero_le _) _ (List.mem_map.2 ⟨p, hp, rfl⟩)
  have hprompt := prompt_le_reserve cache.blockSize (st.groups p)
  show blocksFor (st.groups p).seq.promptLen cache.blockSize ≤ _
  omega

/-- The decode phase leaves the waiting queue as it is. -/
theorem MidDecode.waiting_perm {s : ScheduleState} (hmid : MidDecode cache st [] s)
    (h : Service cache st) : s.sched.waiting.Perm st.waiting := by
  obtain ⟨own, hacc⟩ := h.accounted
  obtain ⟨own', hacc'⟩ := hmid.service.accounted
  have hperm := hmid.step.queued
  rw [queued, queued, hmid.visits.1, hacc.swapped, hacc'.swapped, List.append_nil, List.append_nil] at hperm
  exact (List.perm_append_left_iff _).1 hperm

/-- With budgets for all groups present, nothing waits after the step. -/
theorem Service.waiting_nil (h : Service cache st)
    (hres : st.reserved cache.blockSize ≤ cache.numGpuBlocks)
    (hseqs : st.queued.length ≤ st.config.maxNumSeqs)
    (htokens : st.running.length + (st.waiting.map (fun p => (st.seq p).promptLen)).sum
      ≤ st.config.maxNumBatchedTokens) : st.afterSwapIn.sched.waiting = [] := by
  have hS := h.schedule hres
  obtain ⟨own, hacc⟩ := hS.service.accounted
  have hmid := (h.decodes hres).2
  -- the prompts that wait are covered by the budget that is left
  have hbudget : (st.afterSwapIn.sched.waiting.map (fun p => (st.seq p).promptLen)).sum
      ≤ st.afterSwapIn.budgetTokens := by
    refine (Driver.afterSwapIn_midLoop
      (P := fun s => s.sched.swapped = [] ∧
        (s.sched.waiting.map (fun p => (st.seq p).promptLen)).sum ≤ s.budgetTokens)
      ⟨hmid.step, hmid.loop⟩ ?_ ?_ ?_).2.2.2
    · intro w hperm heq
      obtain ⟨own, hacc⟩ := hmid.service.accounted
      have hleft := hmid.tokens
      have hrun := congrArg List.length hmid.scheduled
      have hwaiting := hmid.waiting_perm h
      rw [List.append_nil] at hrun
      rw [heq]
      refine ⟨hacc.swapped, ?_⟩
      show (w.map (fun p => (st.seq p).promptLen)).sum ≤ st.afterDecodes.budgetTokens
      rw [((hperm.trans hwaiting).map _).sum_eq]
      omega
    · rintro s p rest hs hloop ⟨hswap, hle⟩ - hwaiting -
      have hmem : p ∈ s.sched.queued := WellFormed.mem_waiting
        (by rw [hwaiting]; exact List.mem_cons_self ..)
      have hlen : (s.sched.seq p).promptLen = (st.seq p).promptLen :=
        congrArg List.length (hloop.prompts p (hs.queued.mem_iff.1 hmem))
      have hest : estimateTokens (s.sched.groups p) true = (st.seq p).promptLen :=
        (hs.wf.single_of_mem hmem).estimateTokens_prefill.trans hlen
      refine ⟨hswap, ?_⟩
      rw [hwaiting, List.map_cons, List.sum_cons] at hle
      show (rest.map (fun p => (st.seq p).promptLen)).sum
        ≤ s.budgetTokens - estimateTokens (s.sched.groups p) true
      omega
    · rintro s p rest - - ⟨hnil, -⟩ hswap
      rw [hnil] at hswap
      cases hswap
  cases hwaiting : st.afterSwapIn.sched.waiting with
  | nil => rfl
  | cons p rest =>
      exfalso
      have hp : p ∈ st.afterSwapIn.sched.waiting := by rw [hwaiting]; exact List.mem_cons_self ..
      have hend : st.afterSwapIn
          = ScheduleState.prefillLoop st.beforePrefills.sched.waiting st.beforePrefills := by
        have hnil : st.afterPrefills.sched.swapped = [] := by
          obtain ⟨own, hacc⟩ := hmid.service.accounted
          obtain ⟨w, -, hw⟩ := st.afterDecodes.sched.sortWaitingQueue_eq
          rw [afterPrefills_eq, (ScheduleState.prefillLoop_running _ _).2.2.1, beforePrefills, hw]
          exact hacc.swapped
        rw [← afterPrefills_eq, afterSwapIn, if_neg (fun hswap => hswap.1 hnil)]
      have hstops := prefillLoop_stops rfl (by rw [← hend]; exact hwaiting)
      rw [← hend] at hstops
      refine hstops ((Driver.prefillFits_iff hS.step hS.loop hp).2 ⟨?_, ?_, ?_⟩)
      · have hcount := hS.service.seqs
        have hlen := hS.step.queued.length_eq
        rw [queued, hwaiting, List.length_append, List.cons_append, List.length_cons] at hlen
        rw [hS.scheduled] at hcount
        omega
      · rw [hwaiting, List.map_cons, List.sum_cons] at hbudget
        omega
      · obtain ⟨own, hacc⟩ := h.accounted
        rw [hacc.blockSize]
        exact h.room_waiting hres hS hp

/-- **Everything is scheduled** when the budgets suffice for all groups present. -/
theorem Service.schedules_all (h : Service cache st)
    (hres : st.reserved cache.blockSize ≤ cache.numGpuBlocks)
    (hseqs : st.queued.length ≤ st.config.maxNumSeqs)
    (htokens : st.running.length + (st.waiting.map (fun p => (st.seq p).promptLen)).sum
      ≤ st.config.maxNumBatchedTokens) : st.schedule.1.scheduledGroups.Perm st.queued := by
  have hS := h.schedule hres
  obtain ⟨own, hacc⟩ := hS.service.accounted
  have hperm := hS.step.queued
  rw [queued, h.waiting_nil hres hseqs htokens, hacc.swapped, List.append_nil, List.append_nil,
    ← hS.scheduled] at hperm
  exact hperm

end Scheduler

end CacheFlow
