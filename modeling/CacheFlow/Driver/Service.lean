import CacheFlow.Driver.Positions
import CacheFlow.Driver.Progress

set_option autoImplicit false

/-! # Complete service

When the pool can hold every group at its full length, no group is ever preempted and the loop serves
every request to its limit. `Service` is the invariant between the iterations of the loop. It bounds the
running queue by both budgets and every sequence by its limit, so the blocks a running group holds
never exceed its reserve and the decode phase never fails a check. The number of tokens still to
produce decreases with every iteration that has something pending. -/

namespace CacheFlow

open Scheduler BatchManager

/-! ## The loop -/

namespace Driver

/-- What the loop is run on: the requests handed in at each iteration, and the tokens the engine samples,
    one for each entry of the batch. -/
structure Workload where
  arrivals : List (List SequenceGroup)
  sample : Nat → DecodeBatch → List TokenId
  clock : Nat → TimePoint
  sample_length : ∀ i batch, (sample i batch).length = batch.entries.length

/-- The requests handed in at iteration `i`. -/
def Workload.arriving (w : Workload) (i : Nat) : List SequenceGroup := w.arrivals.getD i []

def submit (d : Driver) (groups : List SequenceGroup) : Driver :=
  groups.foldl (fun d group => d.step (.addRequest group)) d

/-- One iteration after the requests have been handed in. -/
def iteration (sample : DecodeBatch → List TokenId) (now : TimePoint) (d : Driver) : Driver :=
  let d₁ := (d.step .schedule).step .buildBatch
  let d₂ := match d₁.phase with
    | .batched _ batch => d₁.step (.step (sample batch))
    | _ => d₁
  (d₂.step (.updateAfterDecode now)).step .freeFinishedRequests

/-- The state after `n` iterations. -/
def loop (w : Workload) (config : SchedulerConfig) (cache : CacheConfig) : Nat → Driver
  | 0 => init config cache
  | n + 1 => ((loop w config cache n).submit (w.arriving n)).iteration (w.sample n) (w.clock n)

/-- The state in which iteration `n` calls `schedule()`. -/
def submitted (w : Workload) (config : SchedulerConfig) (cache : CacheConfig) (n : Nat) : Driver :=
  (loop w config cache n).submit (w.arriving n)

theorem iteration_sched (sample : DecodeBatch → List TokenId) (now : TimePoint) (d : Driver) :
    (iteration sample now d).sched
      = (d.sched.schedule.2.updateAfterDecode d.sched.schedule.1
          (sample (buildBatch d.sched.schedule.2.groups d.sched.schedule.1).1)
          now).freeFinishedRequests := rfl

theorem submit_sched (d : Driver) (groups : List SequenceGroup) :
    (d.submit groups).sched = groups.foldl Scheduler.addRequest d.sched := by
  induction groups generalizing d with
  | nil => rfl
  | cons group rest ih => exact ih (d.step (.addRequest group))

end Driver

namespace Scheduler

/-! ## The invariant -/

/-- The blocks a group needs at its full length. -/
def reserve (blockSize : Nat) (g : SequenceGroup) : Nat :=
  (g.seq.promptLen + g.outputLimit) ⌈/⌉ blockSize

theorem prompt_le_reserve (blockSize : Nat) (g : SequenceGroup) :
    blocksFor g.seq.promptLen blockSize ≤ reserve blockSize g :=
  (blocksFor_le_ceilDiv _ _).trans (ceilDiv_mono (Nat.le_add_right _ _) _)

/-- A sequence never fills more than its reserve. -/
theorem needed_le_reserve (blockSize : Nat) {g : SequenceGroup}
    (h : g.seq.outputLen < g.outputLimit) : g.seq.totalLen ⌈/⌉ blockSize ≤ reserve blockSize g := by
  rw [reserve, SequenceData.totalLen]
  exact ceilDiv_mono (Nat.add_le_add_left h.le _) _

/-- The reserves of all groups present. -/
def reserved (blockSize : Nat) (st : Scheduler) : Nat :=
  (st.queued.map (fun p => reserve blockSize (st.groups p))).sum

/-- The sequence of the group ended at its limit. -/
def Served (g : SequenceGroup) : Prop :=
  g.seq.status = .finishedLength ∧ g.seq.outputLen = g.outputLimit

/-- Between two iterations. -/
structure Service (cache : CacheConfig) (st : Scheduler) : Prop where
  wf : st.WellFormed
  accounted : ∃ own, Accounted cache st own
  prompts : ∀ p ∈ st.queued, 1 ≤ (st.seq p).promptLen ∧
    (st.seq p).promptLen ≤ st.config.maxNumBatchedTokens
  waiting : ∀ p ∈ st.waiting, (st.seq p).outputTokens = []
  short : ∀ p ∈ st.queued, (st.seq p).isFinished = false ∧
    (st.seq p).outputLen < (st.groups p).outputLimit
  seqs : st.running.length ≤ st.config.maxNumSeqs
  tokens : st.running.length ≤ st.config.maxNumBatchedTokens
  served : ∀ p < st.next, p ∉ st.queued → Served (st.groups p)

/-- What no step changes in a group. -/
structure SamePrompt (g g' : SequenceGroup) : Prop extends SameName g g' where
  promptTokens : g'.seq.promptTokens = g.seq.promptTokens

/-- What no move of a step without preemption changes in a group. -/
structure SameTokens (g g' : SequenceGroup) : Prop extends SamePrompt g g' where
  outputTokens : g'.seq.outputTokens = g.seq.outputTokens

section Same

variable {g g' g'' : SequenceGroup}

theorem SamePrompt.promptLen (h : SamePrompt g g') : g'.seq.promptLen = g.seq.promptLen :=
  congrArg List.length h.promptTokens

theorem SamePrompt.trans (h : SamePrompt g g') (h' : SamePrompt g' g'') : SamePrompt g g'' :=
  ⟨⟨h'.requestId.trans h.requestId, h'.sampling.trans h.sampling⟩, h'.promptTokens.trans h.promptTokens⟩

theorem SamePrompt.with_sequence (h : SamePrompt g g') {x : SequenceData}
    (hx : x.promptTokens = g'.seq.promptTokens) : SamePrompt g { g' with sequences := [x] } :=
  ⟨⟨h.requestId, h.sampling⟩, hx.trans h.promptTokens⟩

theorem SameTokens.outputLen (h : SameTokens g g') : g'.seq.outputLen = g.seq.outputLen :=
  congrArg List.length h.outputTokens

end Same

/-- Between the moves of a step: nothing has been preempted, and the budgets are charged for what has
    been scheduled. -/
structure MidService (cache : CacheConfig) (st : Scheduler) (s : ScheduleState) : Prop where
  accounted : ∃ own, Accounted cache s.sched own
  same : ∀ q, SameTokens (st.groups q) (s.sched.groups q)
  frame : ∀ q, q ∉ st.queued → s.sched.groups q = st.groups q
  seqs : s.budgetSeqs + s.output.scheduledGroups.length = st.config.maxNumSeqs
  tokens : s.budgetTokens + s.output.scheduledGroups.length ≤ st.config.maxNumBatchedTokens

variable {cache : CacheConfig} {st : Scheduler} {s s' : ScheduleState} {p : GroupPtr}

/-- Scheduling one more group, with its tokens kept. -/
theorem MidService.move (h : MidService cache st s) (hp : p ∈ st.queued) {x : SequenceData}
    (hgroups : s'.sched.groups
      = Function.update s.sched.groups p { s.sched.groups p with sequences := [x] })
    (hprompt : x.promptTokens = (s.sched.seq p).promptTokens)
    (hout : x.outputTokens = (s.sched.seq p).outputTokens)
    (hacc : ∃ own, Accounted cache s'.sched own)
    (hsched : s'.output.scheduledGroups.length = s.output.scheduledGroups.length + 1)
    (hseqs : s.budgetSeqs = s'.budgetSeqs + 1) {n : Nat} (hn : 1 ≤ n)
    (htokens : s.budgetTokens = s'.budgetTokens + n) : MidService cache st s' := by
  have hseqs' := h.seqs
  have htokens' := h.tokens
  refine ⟨hacc, ?_, ?_, by omega, by omega⟩
  · intro q
    rw [hgroups]
    by_cases hq : q = p
    · subst hq
      rw [Function.update_self]
      have hsame := h.same q
      exact ⟨hsame.toSamePrompt.with_sequence hprompt, hout.trans hsame.outputTokens⟩
    · rw [Function.update_of_ne hq]
      exact h.same q
  · intro q hq
    have hqp : q ≠ p := by
      rintro rfl
      exact hq hp
    rw [hgroups, Function.update_of_ne hqp]
    exact h.frame q hq

/-! ## The decode phase never fails a check -/

theorem sum_reserves_running_le (bs : Nat) (st : Scheduler) :
    (st.running.map (fun q => reserve bs (st.groups q))).sum ≤ st.reserved bs := by
  rw [reserved, queued, List.map_append, List.sum_append]
  exact Nat.le_add_right _ _

theorem Service.needed_le (h : Service cache st) (hmid : MidService cache st s)
    (hp : p ∈ st.queued) :
    (s.sched.seq p).totalLen ⌈/⌉ cache.blockSize ≤ reserve cache.blockSize (st.groups p) := by
  have hsame := hmid.same p
  have htotal : (s.sched.seq p).totalLen = (st.seq p).totalLen :=
    congrArg₂ (· + ·) (congrArg List.length hsame.promptTokens) hsame.outputLen
  rw [htotal]
  exact needed_le_reserve cache.blockSize (h.short p hp).2

/-- **Room to grow.** What the other running groups hold leaves a running group its reserve. -/
theorem Service.room (h : Service cache st)
    (hres : st.reserved cache.blockSize ≤ cache.numGpuBlocks) (hmid : MidService cache st s)
    (hs : st.MidStep s) (hunfin : ∀ q ∈ st.queued, (s.sched.seq q).isFinished = false)
    (hrun : s.sched.running = st.running) (hp : p ∈ st.running) :
    missingBlocks s.sched.blockManager (s.sched.seq p)
      ≤ (s.sched.blockManager.freeList .cuda).length := by
  obtain ⟨own, hacc⟩ := hmid.accounted
  have hpool := hacc.free_add_held hs.wf
  have hsum := Nat.le_trans (sum_reserves_running_le cache.blockSize st) hres
  have hneeded := ((s.sched.seq p).numBlocksNeeded_le_ceilDiv cache.blockSize).trans
    (h.needed_le hmid (WellFormed.mem_running hp))
  have hheld : held (s.sched.seq p) = (s.sched.seq p).logicalBlocks :=
    held_of_unfinished (hunfin p (WellFormed.mem_running hp))
  -- set `p` apart on both sides
  have hperm := List.perm_cons_erase hp
  have hrest : ((st.running.erase p).map (fun q => (held (s.sched.seq q)).length)).sum
      ≤ ((st.running.erase p).map (fun q => reserve cache.blockSize (st.groups q))).sum := by
    refine List.sum_le_sum (fun q hq => ?_)
    have hq' := List.mem_of_mem_erase hq
    have hfin := hunfin q (WellFormed.mem_running hq')
    have hgrown := hacc.grown q (by rw [hrun]; exact hq') hfin
    rw [held_of_unfinished hfin]
    exact Nat.le_trans hgrown (h.needed_le hmid (WellFormed.mem_running hq'))
  rw [hrun, (hperm.map _).sum_eq, List.map_cons, List.sum_cons, hheld] at hpool
  rw [(hperm.map _).sum_eq, List.map_cons, List.sum_cons] at hsum
  rw [missingBlocks, hacc.blockSize]
  omega

/-- The state of the decode loop with the groups `l` still to visit. -/
structure MidDecode (cache : CacheConfig) (st : Scheduler) (l : List GroupPtr) (s : ScheduleState) :
    Prop where
  step : st.MidStep s
  loop : Driver.MidLoop st s
  service : MidService cache st s
  visits : st.DecodesAt l s
  scheduled : s.output.scheduledGroups ++ l = st.running
  tokens : s.budgetTokens + s.output.scheduledGroups.length = st.config.maxNumBatchedTokens

theorem MidDecode.fits {rest : List GroupPtr} (h : Service cache st)
    (hres : st.reserved cache.blockSize ≤ cache.numGpuBlocks)
    (hmid : MidDecode cache st (p :: rest) s) : s.decodeFits p := by
  have hp : p ∈ s.sched.running := hmid.visits.mem_running
  have hp' : p ∈ st.running := by rw [← hmid.visits.1]; exact hp
  have hsingle := hmid.step.wf.single_of_mem (WellFormed.mem_running hp)
  have hfin := hmid.loop.unfinished p (WellFormed.mem_running hp')
  have hlen := congrArg List.length hmid.scheduled
  rw [List.length_append, List.length_cons] at hlen
  have hseqs := hmid.service.seqs
  have htokens := hmid.tokens
  have hwidth := h.seqs
  have hwidth' := h.tokens
  refine ⟨?_, by omega, ?_⟩
  · rw [hsingle.estimateTokens_decode hfin]
    omega
  · rw [hsingle.canAppend _ hfin]
    exact h.room hres hmid.service hmid.step hmid.loop.unfinished hmid.visits.1 hp'

theorem MidDecode.decodeGroup {rest : List GroupPtr} (h : Service cache st)
    (hmid : MidDecode cache st (p :: rest) s) (hfits : s.decodeFits p) :
    MidDecode cache st rest (s.decodeGroup p) := by
  have hp : p ∈ s.sched.running := hmid.visits.mem_running
  have hp' : p ∈ st.running := by rw [← hmid.visits.1]; exact hp
  have hsingle := hmid.step.wf.single_of_mem (WellFormed.mem_running hp)
  have hfin := hmid.loop.unfinished p (WellFormed.mem_running hp')
  obtain ⟨hbudget, hseqs, hcan⟩ := hfits
  have hest := hsingle.estimateTokens_decode hfin
  rw [hest] at hbudget
  obtain ⟨own, hacc⟩ := hmid.service.accounted
  obtain ⟨bids, -, hseq⟩ := allocateFor_fst s.sched.blockManager (s.sched.seq p)
    (missingBlocks s.sched.blockManager (s.sched.seq p))
  have hgroups := congrArg Scheduler.groups (ScheduleState.decodeGroup_sched hsingle)
  rw [appendBlocks_of_unfinished hfin, hseq] at hgroups
  have htokens' : (s.decodeGroup p).budgetTokens = s.budgetTokens - 1 := by
    show s.budgetTokens - estimateTokens (s.sched.groups p) false = _
    rw [hest]
  have hseqs' : (s.decodeGroup p).budgetSeqs = s.budgetSeqs - 1 := rfl
  have hsched : (s.decodeGroup p).output.scheduledGroups = s.output.scheduledGroups ++ [p] := rfl
  refine ⟨hmid.step.put (ScheduleState.decodeGroup_sched hsingle) (by simp)
    (appendBlocks_text _ _).totalLen.le (by simp) (List.Perm.refl _), hmid.loop.decodeGroup h.wf hmid.step hmid.visits hfin, ?_, hmid.visits.decode, ?_,
    ?_⟩
  · refine hmid.service.move (WellFormed.mem_running hp') hgroups rfl rfl
      (hacc.decodeGroup hmid.step.wf hp hfin ((hsingle.canAppend _ hfin).1 hcan)) ?_ ?_
      (Nat.le_refl 1) ?_
    · rw [hsched]
      simp
    · omega
    · omega
  · rw [hsched, List.append_assoc]
    exact hmid.scheduled
  · have htokens := hmid.tokens
    rw [hsched, List.length_append, htokens', List.length_singleton]
    omega

theorem Service.beginSchedule (h : Service cache st) :
    MidDecode cache st st.running st.beginSchedule := by
  obtain ⟨own, hacc⟩ := h.accounted
  refine ⟨⟨h.wf, List.Perm.refl _, rfl, rfl, rfl, fun _ => Nat.le_refl _⟩,
    Driver.MidLoop.begin (fun p hp => (h.short p hp).1)
      (fun p hp => ⟨h.waiting p hp, hacc.waiting p hp⟩), ?_, DecodesAt.begin st, rfl, rfl⟩
  exact ⟨⟨own, hacc⟩, fun q => ⟨⟨⟨rfl, rfl⟩, rfl⟩, rfl⟩, fun _ _ => rfl, rfl, Nat.le_refl _⟩

/-- **No preemption**: the decode phase visits every running group and schedules it. -/
theorem Service.decodes (h : Service cache st)
    (hres : st.reserved cache.blockSize ≤ cache.numGpuBlocks) :
    (∀ s, ¬ st.PreemptsAt s) ∧ MidDecode cache st [] st.afterDecodes := by
  have hrule := ScheduleState.decodeLoop_induct (P := MidDecode cache st)
    (fun p rest s hfin hmid => by
      -- no running group is finished
      have hp : p ∈ s.sched.running := hmid.visits.mem_running
      have hp' : p ∈ st.queued := hmid.step.queued.mem_iff.1 (WellFormed.mem_running hp)
      rw [(hmid.step.wf.single_of_mem (WellFormed.mem_running hp)).allFinished] at hfin
      have hunfin := hmid.loop.unfinished p hp'
      rw [Scheduler.seq, hfin] at hunfin
      cases hunfin)
    (fun p rest s _ hfits hmid => hmid.decodeGroup h hfits) st.running st.beginSchedule
    h.beginSchedule
  rcases hrule with ⟨hflag, hmid⟩ | ⟨-, p, rest, hmid, -, hfits⟩
  · refine ⟨?_, ?_⟩
    · intro s hat
      rw [PreemptsAt] at hat
      rw [hat] at hflag
      cases hflag
    · have hafter : st.afterDecodes = (ScheduleState.decodeLoop st.running st.beginSchedule).1 := by
        show (if (ScheduleState.decodeLoop st.running st.beginSchedule).2 then _ else _) = _
        rw [hflag]
        rfl
      rw [hafter]
      exact hmid
  · exact absurd (hmid.fits h hres) hfits

/-! ## A whole step -/

theorem MidService.admitGroup {rest : List GroupPtr} (h : MidService cache st s)
    (hs : st.MidStep s) (hwaiting : s.sched.waiting = p :: rest)
    (hprompt : 1 ≤ (s.sched.seq p).promptLen) (hfits : s.prefillFits p) :
    MidService cache st (s.admitGroup p rest) := by
  have hpw : p ∈ s.sched.waiting := by rw [hwaiting]; exact List.mem_cons_self ..
  have hmem : p ∈ s.sched.queued := WellFormed.mem_waiting hpw
  have hsingle := hs.wf.single_of_mem hmem
  obtain ⟨hseqs, hbudget, hcan⟩ := hfits
  have hest := hsingle.estimateTokens_prefill
  rw [hest] at hbudget
  rw [hsingle.prefillBlocks, BlockManager.canAllocate, decide_eq_true_iff] at hcan
  obtain ⟨own, hacc⟩ := h.accounted
  obtain ⟨bids, -, hseq⟩ := allocateFor_fst s.sched.blockManager
    { s.sched.seq p with status := .running }
    ((s.sched.seq p).numBlocksNeeded s.sched.blockManager.blockSize)
  have hgroups := congrArg Scheduler.groups (ScheduleState.admitGroup_sched hsingle rest)
  rw [prefillSequence, hseq] at hgroups
  have htokens' : (s.admitGroup p rest).budgetTokens
      = s.budgetTokens - (s.sched.seq p).promptLen := by
    show s.budgetTokens - estimateTokens (s.sched.groups p) true = _
    rw [hest]
    rfl
  have hseqs' : (s.admitGroup p rest).budgetSeqs = s.budgetSeqs - 1 := rfl
  refine h.move (hs.queued.mem_iff.1 hmem) hgroups rfl rfl (hacc.admitGroup hs.wf hwaiting hcan)
    ?_ (by omega) hprompt ?_
  · show (s.output.scheduledGroups ++ [p]).length = _
    simp
  · have hbudget' : (s.sched.seq p).promptLen ≤ s.budgetTokens := hbudget
    omega

/-- What a step without preemption leaves: everything that runs is scheduled. -/
structure StepService (cache : CacheConfig) (st : Scheduler) (s : ScheduleState) : Prop where
  step : st.MidStep s
  loop : Driver.MidLoop st s
  service : MidService cache st s
  scheduled : s.output.scheduledGroups = s.sched.running

theorem Service.schedule (h : Service cache st)
    (hres : st.reserved cache.blockSize ≤ cache.numGpuBlocks) :
    StepService cache st st.afterSwapIn := by
  have hmid := (h.decodes hres).2
  have hrunning : st.afterDecodes.sched.running = st.running := hmid.visits.1
  have hscheduled : st.afterDecodes.output.scheduledGroups = st.running := by
    rw [← hmid.scheduled, List.append_nil]
  obtain ⟨hs, hloop, hservice, hsched⟩ := Driver.afterSwapIn_midLoop
    (P := fun s => MidService cache st s ∧ s.output.scheduledGroups = s.sched.running)
    ⟨hmid.step, hmid.loop⟩
    (fun w hperm heq => by
      rw [heq]
      obtain ⟨own, hacc⟩ := hmid.service.accounted
      refine ⟨⟨⟨own, hacc.sorted hperm⟩, hmid.service.same, hmid.service.frame, hmid.service.seqs,
        hmid.service.tokens⟩, ?_⟩
      exact hscheduled.trans hrunning.symm)
    (fun s p rest hs hloop hP _ hwaiting hfits => by
      have hmem : p ∈ s.sched.queued := WellFormed.mem_waiting
        (by rw [hwaiting]; exact List.mem_cons_self ..)
      have hlen : (s.sched.seq p).promptLen = (st.seq p).promptLen :=
        congrArg List.length (hloop.prompts p (hs.queued.mem_iff.1 hmem))
      have hpos := (h.prompts p (hs.queued.mem_iff.1 hmem)).1
      refine ⟨hP.1.admitGroup hs hwaiting (by rw [hlen]; exact hpos) hfits, ?_⟩
      exact congrArg (· ++ [p]) hP.2)
    (fun s p rest _ _ hP hswap => by
      -- nothing has been swapped out
      obtain ⟨own, hacc⟩ := hP.1.accounted
      rw [hacc.swapped] at hswap
      cases hswap)
  exact ⟨hs, hloop, hservice, hsched⟩

theorem Service.ready (h : Service cache st) (hseqs : 1 ≤ st.config.maxNumSeqs) :
    Driver.Ready st := by
  obtain ⟨own, hacc⟩ := h.accounted
  exact ⟨h.wf, fun p hp => (h.short p hp).1,
    fun p hp => ⟨h.waiting p hp, hacc.waiting p hp⟩, hseqs, h.prompts⟩

/-- With something queued, a step schedules something. -/
theorem Service.scheduled_ne_nil (h : Service cache st)
    (hres : st.reserved cache.blockSize ≤ cache.numGpuBlocks) (hseqs : 1 ≤ st.config.maxNumSeqs)
    (hne : st.queued ≠ []) : st.afterSwapIn.output.scheduledGroups ≠ [] := by
  obtain ⟨own, hacc⟩ := h.accounted
  by_cases hrun : st.running = []
  · have hwaiting : st.waiting ≠ [] := by
      intro hnil
      exact hne (by rw [queued, hrun, hnil, hacc.swapped]; rfl)
    refine ((h.ready hseqs).scheduled_iff_of_idle hrun ?_).2 hwaiting
    intro p hp
    have hpool := hacc.free_add_held h.wf
    rw [hrun, List.map_nil, List.sum_nil, Nat.add_zero] at hpool
    have hmem : p ∈ st.queued := WellFormed.mem_waiting hp
    have hreserve : reserve cache.blockSize (st.groups p) ≤ st.reserved cache.blockSize :=
      List.single_le_sum (fun _ _ => Nat.zero_le _) _ (List.mem_map.2 ⟨p, hmem, rfl⟩)
    rw [hacc.blockSize, hpool]
    exact (prompt_le_reserve _ _).trans (hreserve.trans hres)
  · have hmid := (h.decodes hres).2
    rw [afterSwapIn_scheduled, ← List.append_nil st.afterDecodes.output.scheduledGroups,
      hmid.scheduled]
    exact List.append_ne_nil_of_left_ne_nil hrun _

/-! ## The rest of an iteration -/

/-- A token more: the sequence is still short of its limit, or ends there. -/
theorem acceptToken_limit {g : SequenceGroup} (hfin : g.seq.isFinished = false)
    (hshort : g.seq.outputLen < g.outputLimit) (tok : TokenId) :
    (acceptToken g.sampling.maxTokens g.seq tok).outputLen = g.seq.outputLen + 1 ∧
    (((acceptToken g.sampling.maxTokens g.seq tok).isFinished = false ∧
        g.seq.outputLen + 1 < g.outputLimit) ∨
      ((acceptToken g.sampling.maxTokens g.seq tok).status = .finishedLength ∧
        g.seq.outputLen + 1 = g.outputLimit)) := by
  have hlen : (g.seq.appendToken tok).outputLen = g.seq.outputLen + 1 := by
    simp [SequenceData.outputLen, SequenceData.appendToken]
  rw [SequenceGroup.outputLimit] at hshort ⊢
  simp only [acceptToken]
  split
  · next hle =>
      rw [hlen] at hle
      exact ⟨hlen, Or.inr ⟨rfl, by omega⟩⟩
  · next hgt =>
      rw [hlen] at hgt
      exact ⟨hlen, Or.inl ⟨hfin, by omega⟩⟩

/-- What `update_after_decode` leaves of a group: a request with the same name and prompt. -/
theorem update_same (hwf : st.WellFormed) (out : SchedulerOutput) (toks : List TokenId)
    (now : TimePoint) (hp : p < st.next) :
    SamePrompt (st.groups p) ((st.updateAfterDecode out toks now).groups p) := by
  have hupd := updateAfterDecode_updates hwf out toks now hp
  exact ⟨⟨hupd.requestId, hupd.sampling⟩, hupd.seq.promptTokens⟩

/-- The groups after the tokens have been handed back to the groups `ps`. -/
structure Updated (st st' : Scheduler) (ps : List GroupPtr) : Prop where
  accepted : ∀ p ∈ ps, (st'.groups p).seq.outputLen = (st.groups p).seq.outputLen + 1 ∧
    (((st'.groups p).seq.isFinished = false ∧
        (st'.groups p).seq.outputLen < (st'.groups p).outputLimit) ∨ Served (st'.groups p))
  other : ∀ p, p ∉ ps → st'.groups p = st.groups p
  same : ∀ p < st.next, SamePrompt (st.groups p) (st'.groups p)

/-- With a token for each scheduled group, every one of them goes one token on. -/
theorem updateAfterDecode_updated (hwf : st.WellFormed) {out : SchedulerOutput}
    (hnodup : out.scheduledGroups.Nodup)
    (hsched : ∀ p ∈ out.scheduledGroups, p ∈ st.queued ∧ (st.seq p).isFinished = false ∧
      (st.seq p).outputLen < (st.groups p).outputLimit)
    {toks : List TokenId} (hlen : out.scheduledGroups.length ≤ toks.length) (now : TimePoint) :
    Updated st (st.updateAfterDecode out toks now) out.scheduledGroups := by
  refine ⟨?_, ?_, fun p hp => update_same hwf out toks now hp⟩
  · intro p hp
    obtain ⟨hmem, hfin, hshort⟩ := hsched p hp
    obtain ⟨tok, htok⟩ := Driver.updateGroups_accepts now out.scheduledGroups st.groups toks hnodup
      (fun q hq => ⟨hwf.single_of_mem (hsched q hq).1, (hsched q hq).2.1⟩) hlen hp
    have hseq : ((st.updateAfterDecode out toks now).groups p).seq
        = acceptToken (st.groups p).sampling.maxTokens (st.groups p).seq tok := htok
    have hlimit : ((st.updateAfterDecode out toks now).groups p).outputLimit
        = (st.groups p).outputLimit := (update_same hwf out toks now (hwf.stored p hmem)).outputLimit
    obtain ⟨hnext, hcases⟩ := acceptToken_limit hfin hshort tok
    rw [Served, hlimit, hseq]
    refine ⟨hnext, ?_⟩
    rcases hcases with ⟨hfin, hlt⟩ | ⟨hstatus, heq⟩
    · exact Or.inl ⟨hfin, by rw [hnext]; exact hlt⟩
    · exact Or.inr ⟨hstatus, hnext.trans heq⟩
  · intro p hp
    exact updateGroups_of_not_mem now _ _ _ hp

theorem StepService.update (hS : StepService cache st s) (h : Service cache st)
    {out : SchedulerOutput} (hout : out.scheduledGroups = s.sched.running) {toks : List TokenId}
    (hlen : out.scheduledGroups.length ≤ toks.length) (now : TimePoint) :
    Updated s.sched (s.sched.updateAfterDecode out toks now) s.sched.running := by
  rw [← hout]
  refine updateAfterDecode_updated hS.step.wf (by rw [hout]; exact hS.step.wf.queues.nodup_running) ?_ hlen
    now
  intro p hp
  rw [hout] at hp
  have hmem : p ∈ st.queued := hS.step.queued.mem_iff.1 (WellFormed.mem_running hp)
  have hsame := hS.service.same p
  refine ⟨WellFormed.mem_running hp, hS.loop.unfinished p hmem, ?_⟩
  show (s.sched.groups p).seq.outputLen < (s.sched.groups p).outputLimit
  rw [hsame.outputLen, hsame.outputLimit]
  exact (h.short p hmem).2

/-- The invariant before the finished groups have been released. -/
structure Counted (cache : CacheConfig) (st : Scheduler) : Prop where
  wf : st.WellFormed
  accounted : ∃ own, Accounted cache st own
  prompts : ∀ p ∈ st.queued, 1 ≤ (st.seq p).promptLen ∧
    (st.seq p).promptLen ≤ st.config.maxNumBatchedTokens
  waiting : ∀ p ∈ st.waiting, (st.seq p).outputTokens = []
  counts : ∀ p < st.next, (p ∈ st.queued ∧ (st.seq p).isFinished = false ∧
    (st.seq p).outputLen < (st.groups p).outputLimit) ∨ Served (st.groups p)
  seqs : st.running.length ≤ st.config.maxNumSeqs
  tokens : st.running.length ≤ st.config.maxNumBatchedTokens

theorem Served.finished {g : SequenceGroup} (h : Served g) : g.seq.isFinished = true := by
  rw [SequenceData.isFinished, h.1]
  rfl

theorem Counted.freeFinishedRequests (h : Counted cache st) :
    Service cache st.freeFinishedRequests := by
  obtain ⟨own, hacc⟩ := h.accounted
  have hacc' := hacc.freeFinishedRequests h.wf
  have hwf' := freeFinishedRequests_wellFormed h.wf
  rw [freeFinishedRequests_eq] at hacc' hwf' ⊢
  have hstay := fun p => hacc.mem_unfinished_iff (p := p) h.wf
  refine ⟨hwf', hacc', ?_, ?_, ?_, ?_, ?_, ?_⟩
  · intro p hp
    exact h.prompts p ((hstay p).1 hp).1
  · intro p hp
    exact h.waiting p (List.mem_filter.1 hp).1
  · intro p hp
    obtain ⟨hmem, hfin⟩ := (hstay p).1 hp
    refine ⟨hfin, ?_⟩
    rcases h.counts p (h.wf.stored p hmem) with ⟨-, -, hlt⟩ | hserved
    · exact hlt
    · rw [Scheduler.seq, hserved.finished] at hfin
      cases hfin
  · exact Nat.le_trans (List.length_filter_le _ _) h.seqs
  · exact Nat.le_trans (List.length_filter_le _ _) h.tokens
  · intro p hp hnot
    rcases h.counts p hp with ⟨hmem, hfin, -⟩ | hserved
    · exact absurd ((hstay p).2 ⟨hmem, hfin⟩) hnot
    · exact hserved

/-- After the tokens have been handed back. -/
theorem StepService.counted (hS : StepService cache st s) (h : Service cache st)
    {out : SchedulerOutput} (hout : out.scheduledGroups = s.sched.running) {toks : List TokenId}
    (hlen : out.scheduledGroups.length ≤ toks.length) (now : TimePoint) :
    Counted cache (s.sched.updateAfterDecode out toks now) := by
  have hU := hS.update h hout hlen now
  obtain ⟨own, hacc⟩ := hS.service.accounted
  have hsched : s.output.scheduledGroups.length = s.sched.running.length :=
    congrArg List.length hS.scheduled
  have hseqs := hS.service.seqs
  have htokens := hS.service.tokens
  refine ⟨updateAfterDecode_wellFormed hS.step.wf out toks now,
    ⟨own, hacc.updateAfterDecode hS.step.wf out toks now⟩, ?_, ?_, ?_, ?_, ?_⟩
  · intro p hp
    have hmem : p ∈ st.queued := hS.step.queued.mem_iff.1 hp
    have hprompt : ((s.sched.updateAfterDecode out toks now).seq p).promptLen
        = (st.seq p).promptLen :=
      ((hS.service.same p).toSamePrompt.trans (hU.same p (hS.step.wf.stored p hp))).promptLen
    rw [hprompt]
    show 1 ≤ _ ∧ _ ≤ s.sched.config.maxNumBatchedTokens
    rw [hS.step.config]
    exact h.prompts p hmem
  · intro p hp
    have hnot : p ∉ s.sched.running := fun hr => hS.step.wf.queues.disjoint_running_waiting hr hp
    rw [Scheduler.seq, hU.other p hnot]
    exact (hS.loop.waiting p hp).1
  · intro p hp
    by_cases hrun : p ∈ s.sched.running
    · rcases (hU.accepted p hrun).2 with ⟨hfin, hlt⟩ | hserved
      · exact Or.inl ⟨WellFormed.mem_running hrun, hfin, hlt⟩
      · exact Or.inr hserved
    · rw [Scheduler.seq, hU.other p hrun]
      by_cases hmem : p ∈ st.queued
      · have hsame := hS.service.same p
        refine Or.inl ⟨hS.step.queued.mem_iff.2 hmem, hS.loop.unfinished p hmem, ?_⟩
        rw [hsame.outputLen, hsame.outputLimit]
        exact (h.short p hmem).2
      · rw [hS.service.frame p hmem]
        have hp' : p < st.next := by
          rw [← hS.step.next]
          exact hp
        exact Or.inr (h.served p hp' hmem)
  · show s.sched.running.length ≤ s.sched.config.maxNumSeqs
    rw [hS.step.config]
    omega
  · show s.sched.running.length ≤ s.sched.config.maxNumBatchedTokens
    rw [hS.step.config]
    omega

/-! ## The measure -/

/-- The number of tokens still to produce for the groups present. -/
def remaining (st : Scheduler) : Nat :=
  (st.queued.map (fun p => (st.groups p).outputLimit - (st.seq p).outputLen)).sum

theorem sum_add_length {f g : GroupPtr → Nat} {l : List GroupPtr}
    (h : ∀ p ∈ l, g p + 1 = f p) : (l.map g).sum + l.length = (l.map f).sum := by
  induction l with
  | nil => rfl
  | cons p rest ih =>
      have hp := h p (List.mem_cons_self ..)
      have hrest := ih (fun q hq => h q (List.mem_cons_of_mem _ hq))
      simp only [List.map_cons, List.sum_cons, List.length_cons]
      omega

/-- The tokens handed back are accounted for: one for each group that runs. -/
theorem StepService.remaining (hS : StepService cache st s) (h : Service cache st)
    {out : SchedulerOutput} (hout : out.scheduledGroups = s.sched.running) {toks : List TokenId}
    (hlen : out.scheduledGroups.length ≤ toks.length) (now : TimePoint) :
    (s.sched.updateAfterDecode out toks now).freeFinishedRequests.remaining
      + s.sched.running.length ≤ st.remaining := by
  have hU := hS.update h hout hlen now
  have hbefore : st.remaining = (s.sched.queued.map
      (fun p => (st.groups p).outputLimit - (st.seq p).outputLen)).sum :=
    ((hS.step.queued.map _).sum_eq).symm
  have hrunning : (s.sched.running.map (fun p =>
        ((s.sched.updateAfterDecode out toks now).groups p).outputLimit
          - ((s.sched.updateAfterDecode out toks now).seq p).outputLen)).sum
      + s.sched.running.length
      = (s.sched.running.map (fun p => (st.groups p).outputLimit - (st.seq p).outputLen)).sum := by
    refine sum_add_length (fun p hp => ?_)
    have hmem : p ∈ st.queued := hS.step.queued.mem_iff.1 (WellFormed.mem_running hp)
    have hsame := hS.service.same p
    have hupdated := hU.same p (hS.step.wf.stored p (WellFormed.mem_running hp))
    have hlimit : ((s.sched.updateAfterDecode out toks now).groups p).outputLimit
        = (st.groups p).outputLimit := by
      rw [hupdated.outputLimit, hsame.outputLimit]
    have haccepted := (hU.accepted p hp).1
    rw [hsame.outputLen] at haccepted
    have hshort := (h.short p hmem).2
    rw [hlimit, Scheduler.seq, haccepted]
    rw [Scheduler.seq] at hshort ⊢
    omega
  have hother : ((s.sched.waiting ++ s.sched.swapped).map (fun p =>
        ((s.sched.updateAfterDecode out toks now).groups p).outputLimit
          - ((s.sched.updateAfterDecode out toks now).seq p).outputLen)).sum
      = ((s.sched.waiting ++ s.sched.swapped).map
          (fun p => (st.groups p).outputLimit - (st.seq p).outputLen)).sum := by
    refine congrArg List.sum (List.map_congr_left (fun p hp => ?_))
    have hnot : p ∉ s.sched.running := by
      intro hr
      rcases List.mem_append.1 hp with hp | hp
      · exact hS.step.wf.queues.disjoint_running_waiting hr hp
      · exact hS.step.wf.queues.disjoint_running_swapped hr hp
    have hsame := hS.service.same p
    rw [Scheduler.seq, hU.other p hnot, hsame.outputLimit, hsame.outputLen, Scheduler.seq]
  -- the released groups have nothing left to produce
  have hsub : (s.sched.updateAfterDecode out toks now).freeFinishedRequests.remaining
      ≤ (s.sched.queued.map (fun p =>
        ((s.sched.updateAfterDecode out toks now).groups p).outputLimit
          - ((s.sched.updateAfterDecode out toks now).seq p).outputLen)).sum := by
    rw [freeFinishedRequests_eq]
    refine List.Sublist.sum_le_sum (List.Sublist.map _ ?_) (fun _ _ => Nat.zero_le _)
    exact List.filter_sublist.append (List.filter_sublist.append (List.Sublist.refl _))
  rw [queued, List.map_append, List.sum_append, hother] at hsub
  rw [queued, List.map_append, List.sum_append, ← hrunning] at hbefore
  omega

/-! ## Arrivals -/

theorem outputLimit_pos (g : SequenceGroup) : 0 < g.outputLimit := by
  rw [SequenceGroup.outputLimit]
  omega

theorem Service.addRequest (h : Service cache st) {group : SequenceGroup}
    (hfresh : st.FreshRequest group) (hprompt : group.seq.promptTokens ≠ [])
    (htokens : group.seq.promptLen ≤ st.config.maxNumBatchedTokens) :
    Service cache (st.addRequest group) := by
  obtain ⟨own, hacc⟩ := h.accounted
  have hperm := st.addRequest_queued group
  have hold : ∀ q < st.next, (st.addRequest group).groups q = st.groups q :=
    fun q hq => st.groups_addRequest_of_lt group hq
  have hnew := st.groups_addRequest_self group
  have hseq := hfresh.1.seq_eq
  refine ⟨addRequest_wellFormed h.wf hfresh, ⟨own, hacc.addRequest h.wf hfresh⟩, ?_, ?_, ?_, h.seqs,
    h.tokens, ?_⟩
  · intro q hq
    rw [Scheduler.seq]
    rcases List.mem_cons.1 (hperm.mem_iff.1 hq) with rfl | hq
    · rw [hnew]
      exact ⟨List.length_pos_iff.2 hprompt, htokens⟩
    · rw [hold q (h.wf.stored q hq)]
      exact h.prompts q hq
  · intro q hq
    rw [Scheduler.seq]
    rcases List.mem_append.1 hq with hq | hq
    · rw [hold q (h.wf.stored q (WellFormed.mem_waiting hq))]
      exact h.waiting q hq
    · rw [List.mem_singleton.1 hq, hnew, hseq]
  · intro q hq
    rw [Scheduler.seq]
    rcases List.mem_cons.1 (hperm.mem_iff.1 hq) with rfl | hq
    · rw [hnew]
      refine ⟨by rw [hseq]; rfl, ?_⟩
      have hlen : group.seq.outputLen = 0 := by rw [hseq]; rfl
      rw [hlen]
      exact outputLimit_pos group
    · rw [hold q (h.wf.stored q hq)]
      exact h.short q hq
  · intro q hq hnot
    have hne : q ≠ st.next := by
      rintro rfl
      exact hnot (hperm.mem_iff.2 (List.mem_cons_self ..))
    have hlt : q < st.next := Nat.lt_of_le_of_ne (Nat.le_of_lt_succ hq) hne
    rw [hold q hlt]
    exact h.served q hlt (fun hmem => hnot (hperm.mem_iff.2 (List.mem_cons_of_mem _ hmem)))

/-- The groups stored are the requests handed in so far. -/
structure Recorded (gs : List SequenceGroup) (st : Scheduler) : Prop where
  stored : ∀ g ∈ gs, ∃ p < st.next, SamePrompt g (st.groups p)
  named : ∀ p < st.next, ∃ g ∈ gs, (st.groups p).requestId = g.requestId

theorem Recorded.addRequest {gs : List SequenceGroup} (h : Recorded gs st) (group : SequenceGroup) :
    Recorded (gs ++ [group]) (st.addRequest group) := by
  have hnew := st.groups_addRequest_self group
  refine ⟨?_, ?_⟩
  · intro g hg
    rcases List.mem_append.1 hg with hg | hg
    · obtain ⟨p, hp, hsame⟩ := h.stored g hg
      refine ⟨p, Nat.lt_succ_of_lt hp, ?_⟩
      rw [st.groups_addRequest_of_lt group hp]
      exact hsame
    · rw [List.mem_singleton.1 hg]
      exact ⟨st.next, Nat.lt_succ_self _, by rw [hnew]; exact ⟨⟨rfl, rfl⟩, rfl⟩⟩
  · intro p hp
    rcases Nat.lt_succ_iff_lt_or_eq.1 hp with hlt | rfl
    · obtain ⟨g, hg, hid⟩ := h.named p hlt
      refine ⟨g, List.mem_append_left _ hg, ?_⟩
      rw [st.groups_addRequest_of_lt group hlt]
      exact hid
    · exact ⟨group, List.mem_append_right _ (List.mem_singleton_self _), by rw [hnew]⟩

theorem Recorded.of_same {gs : List SequenceGroup} {st' : Scheduler} (h : Recorded gs st)
    (hnext : st'.next = st.next)
    (hsame : ∀ p < st.next, SamePrompt (st.groups p) (st'.groups p)) : Recorded gs st' := by
  refine ⟨?_, ?_⟩
  · intro g hg
    obtain ⟨p, hp, hstored⟩ := h.stored g hg
    exact ⟨p, by rw [hnext]; exact hp, hstored.trans (hsame p hp)⟩
  · intro p hp
    rw [hnext] at hp
    obtain ⟨g, hg, hid⟩ := h.named p hp
    exact ⟨g, hg, (hsame p hp).requestId.trans hid⟩

/-- The ids in the queues are those of earlier requests. -/
theorem Recorded.fresh {gs rest : List SequenceGroup} {group : SequenceGroup} (h : Recorded gs st)
    (hwf : st.WellFormed) (hnew : group.IsNew)
    (hids : ((gs ++ group :: rest).map SequenceGroup.requestId).Nodup) : st.FreshRequest group := by
  refine ⟨hnew, fun p hp heq => ?_⟩
  obtain ⟨g, hg, hid⟩ := h.named p (hwf.stored p hp)
  rw [List.map_append, List.nodup_append] at hids
  exact hids.2.2 g.requestId (List.mem_map.2 ⟨g, hg, rfl⟩) group.requestId
    (List.mem_map.2 ⟨group, List.mem_cons_self .., rfl⟩) (hid.symm.trans heq)

theorem new_service (config : SchedulerConfig) (cache : CacheConfig) :
    Service cache (Scheduler.new config (BlockManager.new cache)) := by
  refine ⟨new_wellFormed config _, new_accounted config cache, ?_, ?_, ?_, Nat.zero_le _,
    Nat.zero_le _, ?_⟩
  · intro p hp
    exact absurd hp List.not_mem_nil
  · intro p hp
    exact absurd hp List.not_mem_nil
  · intro p hp
    exact absurd hp List.not_mem_nil
  · intro p hp
    exact absurd hp (Nat.not_lt_zero p)

/-- With the queues empty everything has been given back. -/
theorem Service.idle (h : Service cache st) (hidle : st.queued = []) :
    st.running = [] ∧ st.waiting = [] ∧ st.swapped = [] ∧ st.requestMap = ∅ ∧
      st.blockManager.numFreeGpuBlocks = cache.numGpuBlocks := by
  obtain ⟨own, hacc⟩ := h.accounted
  obtain ⟨hrun, hrest⟩ := List.append_eq_nil_iff.1 hidle
  obtain ⟨hwait, hswap⟩ := List.append_eq_nil_iff.1 hrest
  refine ⟨hrun, hwait, hswap, ?_, ?_⟩
  · have hnone : ∀ id, id ∉ st.requestMap := by
      intro id hid
      obtain ⟨p, hp⟩ := Option.isSome_iff_exists.1 (AList.lookup_isSome.2 hid)
      have hmem := (h.wf.named id p hp).1
      rw [hidle] at hmem
      exact List.not_mem_nil hmem
    apply AList.ext
    refine List.eq_nil_iff_forall_not_mem.2 (fun e he => hnone e.1 ?_)
    exact List.mem_keys_of_mem he
  · have hpool := hacc.free_add_held h.wf
    rw [hrun, List.map_nil, List.sum_nil, Nat.add_zero] at hpool
    exact hpool

end Scheduler

namespace Driver

/-! ## The loop to its end -/

/-- What holds between two iterations, with the requests `gs` handed in. -/
structure Serving (config : SchedulerConfig) (cache : CacheConfig) (gs : List SequenceGroup)
    (st : Scheduler) : Prop where
  service : Service cache st
  recorded : Recorded gs st
  configured : st.config = config

variable {config : SchedulerConfig} {cache : CacheConfig} {gs : List SequenceGroup} {st : Scheduler}

/-- A request of the workload: one sequence as its constructor leaves it, with a prompt that fits into a
    batch. -/
def Acceptable (config : SchedulerConfig) (group : SequenceGroup) : Prop :=
  group.IsNew ∧ group.seq.promptTokens ≠ [] ∧ group.seq.promptLen ≤ config.maxNumBatchedTokens

instance (config : SchedulerConfig) (group : SequenceGroup) : Decidable (Acceptable config group) :=
  inferInstanceAs (Decidable (_ ∧ _ ∧ _))

theorem Serving.submit (h : Serving config cache gs st) (new : List SequenceGroup)
    (hids : ((gs ++ new).map SequenceGroup.requestId).Nodup)
    (hnew : ∀ g ∈ new, Acceptable config g) :
    Serving config cache (gs ++ new) (new.foldl Scheduler.addRequest st) := by
  induction new generalizing gs st with
  | nil =>
      rw [List.append_nil]
      exact h
  | cons group rest ih =>
      obtain ⟨hisNew, hprompt, htokens⟩ := hnew group (List.mem_cons_self ..)
      have hfresh := h.recorded.fresh h.service.wf hisNew hids
      have hnext : Serving config cache (gs ++ [group]) (st.addRequest group) :=
        ⟨h.service.addRequest hfresh hprompt (by rw [h.configured]; exact htokens),
          h.recorded.addRequest group, h.configured⟩
      have hrest := ih hnext (by rw [List.append_assoc]; exact hids)
        (fun g hg => hnew g (List.mem_cons_of_mem _ hg))
      rw [List.append_assoc] at hrest
      exact hrest

/-- **One iteration** of the loop. -/
theorem Serving.iteration {d : Driver} (h : Serving config cache gs d.sched)
    (hres : d.sched.reserved cache.blockSize ≤ cache.numGpuBlocks)
    {sample : DecodeBatch → List TokenId}
    (hsample : ∀ batch, (sample batch).length = batch.entries.length) (now : TimePoint) :
    Serving config cache gs (d.iteration sample now).sched ∧
      (d.iteration sample now).sched.remaining + d.sched.schedule.1.scheduledGroups.length
        ≤ d.sched.remaining := by
  have hS := h.service.schedule hres
  have hqueued : ∀ p ∈ d.sched.schedule.1.scheduledGroups, p ∈ d.sched.schedule.2.queued :=
    fun p hp => WellFormed.mem_running (hS.loop.scheduled p hp)
  have hold : ∀ p ∈ d.sched.schedule.1.scheduledGroups, p ∈ d.sched.queued :=
    fun p hp => hS.step.queued.mem_iff.1 (hqueued p hp)
  have hlen : d.sched.schedule.1.scheduledGroups.length ≤
      (sample (buildBatch d.sched.schedule.2.groups d.sched.schedule.1).1).length := by
    rw [hsample]
    refine length_le_buildBatch hS.step.wf hqueued
      (fun p hp => hS.loop.unfinished p (hold p hp)) (fun p hp => ?_)
    have hprompt : (d.sched.schedule.2.seq p).promptTokens = (d.sched.seq p).promptTokens :=
      hS.loop.prompts p (hold p hp)
    rw [hprompt]
    exact List.length_pos_iff.1 (h.service.prompts p (hold p hp)).1
  have hscheduled : d.sched.schedule.1.scheduledGroups.length
      = d.sched.afterSwapIn.sched.running.length := congrArg List.length hS.scheduled
  have hU : Updated d.sched.schedule.2 (d.sched.schedule.2.updateAfterDecode d.sched.schedule.1
      (sample (buildBatch d.sched.schedule.2.groups d.sched.schedule.1).1) now)
      d.sched.schedule.2.running :=
    hS.update h.service hS.scheduled hlen now
  rw [iteration_sched, hscheduled]
  refine ⟨⟨(hS.counted h.service hS.scheduled hlen now).freeFinishedRequests, ?_, ?_⟩,
    hS.remaining h.service hS.scheduled hlen now⟩
  · rw [freeFinishedRequests_eq]
    refine h.recorded.of_same hS.step.next (fun p hp => ?_)
    exact (hS.service.same p).toSamePrompt.trans (hU.same p (Nat.lt_of_lt_of_eq hp hS.step.next.symm))
  · rw [freeFinishedRequests_eq]
    exact hS.step.config.trans h.configured

theorem Workload.take_flatten_succ (w : Workload) (i : Nat) :
    (w.arrivals.take i).flatten ++ w.arriving i = (w.arrivals.take (i + 1)).flatten := by
  rw [Workload.arriving, List.take_add_one, List.flatten_append, List.getD_eq_getElem?_getD]
  cases w.arrivals[i]? with
  | none => simp
  | some l => simp

theorem Workload.take_flatten_sublist (w : Workload) (i : Nat) :
    ((w.arrivals.take i).flatten).Sublist w.arrivals.flatten := by
  conv_rhs => rw [← List.take_append_drop i w.arrivals, List.flatten_append]
  exact List.sublist_append_left _ _

theorem Workload.arriving_of_le (w : Workload) {i : Nat} (hi : w.arrivals.length ≤ i) :
    w.arriving i = [] := by
  rw [Workload.arriving, List.getD_eq_getElem?_getD, List.getElem?_eq_none hi]
  rfl

section Loop

variable {w : Workload}
  (hids : (w.arrivals.flatten.map SequenceGroup.requestId).Nodup)
  (hreq : ∀ g ∈ w.arrivals.flatten, Acceptable config g)
  (hres : ∀ i, (submitted w config cache i).sched.reserved cache.blockSize ≤ cache.numGpuBlocks)
include hids hreq

theorem serving_submitted {i : Nat}
    (h : Serving config cache (w.arrivals.take i).flatten (loop w config cache i).sched) :
    Serving config cache (w.arrivals.take (i + 1)).flatten (submitted w config cache i).sched := by
  have hsub := w.take_flatten_sublist (i + 1)
  rw [← w.take_flatten_succ] at hsub ⊢
  rw [submitted, submit_sched]
  refine h.submit (w.arriving i) ((hsub.map _).nodup hids) (fun g hg => hreq g ?_)
  exact hsub.subset (List.mem_append_right _ hg)

include hres

theorem serving_loop (i : Nat) :
    Serving config cache (w.arrivals.take i).flatten (loop w config cache i).sched := by
  induction i with
  | zero =>
      refine ⟨new_service config cache, ⟨?_, ?_⟩, rfl⟩
      · intro g hg
        exact absurd hg List.not_mem_nil
      · intro p hp
        exact absurd hp (Nat.not_lt_zero p)
  | succ i ih =>
      exact ((serving_submitted hids hreq ih).iteration (hres i) (w.sample_length i) (w.clock i)).1

theorem serving_at (i : Nat) :
    Serving config cache (w.arrivals.take (i + 1)).flatten (submitted w config cache i).sched :=
  serving_submitted hids hreq (serving_loop hids hreq hres i)

/-- Once all requests have been handed in, the queues run empty. -/
theorem loop_drains (hseqs : 1 ≤ config.maxNumSeqs) (r : Nat) {n : Nat}
    (hn : w.arrivals.length ≤ n) (hr : (loop w config cache n).sched.remaining ≤ r) :
    ∃ m, n ≤ m ∧ (loop w config cache m).sched.queued = [] := by
  induction r generalizing n with
  | zero =>
      refine ⟨n, Nat.le_refl n, List.eq_nil_iff_forall_not_mem.2 (fun p hp => ?_)⟩
      -- a group that is present has a token to produce
      have hshort := ((serving_loop hids hreq hres n).service.short p hp).2
      have hle := List.single_le_sum (fun _ _ => Nat.zero_le _) _ (List.mem_map.2 ⟨p, hp, rfl⟩)
        |>.trans hr
      omega
  | succ r ih =>
      by_cases hidle : (loop w config cache n).sched.queued = []
      · exact ⟨n, Nat.le_refl n, hidle⟩
      · have hsame : submitted w config cache n = loop w config cache n := by
          rw [submitted, w.arriving_of_le hn]
          rfl
        have hserving := serving_at hids hreq hres n
        have hne := hserving.service.scheduled_ne_nil (hres n)
          (by rw [hserving.configured]; exact hseqs) (by rw [hsame]; exact hidle)
        have hpos : 1 ≤ (submitted w config cache n).sched.schedule.1.scheduledGroups.length :=
          List.length_pos_iff.2 hne
        have hstep := (hserving.iteration (hres n) (w.sample_length n) (w.clock n)).2
        rw [hsame] at hstep hpos
        have hnext : (loop w config cache (n + 1)).sched.remaining ≤ r := by
          show (((loop w config cache n).submit (w.arriving n)).iteration (w.sample n)
            (w.clock n)).sched.remaining ≤ r
          rw [w.arriving_of_le hn]
          show ((loop w config cache n).iteration (w.sample n) (w.clock n)).sched.remaining ≤ r
          omega
        obtain ⟨m, hm, hdone⟩ := ih (Nat.le_succ_of_le hn) hnext
        exact ⟨m, Nat.le_trans (Nat.le_succ n) hm, hdone⟩

end Loop

theorem freeFinishedRequests_idle (hrun : st.running = []) (hwait : st.waiting = []) :
    st.freeFinishedRequests = st := by
  obtain ⟨config, bm, waiting, running, swapped, requestMap, groups, next⟩ := st
  obtain rfl : running = [] := hrun
  obtain rfl : waiting = [] := hwait
  rfl

/-- An iteration with nothing pending changes nothing. -/
theorem iteration_idle {d : Driver} (hrun : d.sched.running = []) (hwait : d.sched.waiting = [])
    (hswap : d.sched.swapped = []) (sample : DecodeBatch → List TokenId) (now : TimePoint) :
    (d.iteration sample now).sched = d.sched := by
  have hafter : d.sched.afterSwapIn = d.sched.beginSchedule := by
    have hprefills : d.sched.afterPrefills = d.sched.beginSchedule := by
      rw [afterPrefills, afterDecodes_idle hrun]
      exact if_pos hwait
    simp only [afterSwapIn, hprefills]
    exact if_neg (fun h => h.1 hswap)
  have hsched : d.sched.schedule.2 = d.sched := congrArg ScheduleState.sched hafter
  have hout : d.sched.schedule.1.scheduledGroups = [] :=
    congrArg (fun s => s.output.scheduledGroups) hafter
  have hupdate : d.sched.updateAfterDecode d.sched.schedule.1
      (sample (buildBatch d.sched.groups d.sched.schedule.1).1) now = d.sched := by
    rw [Scheduler.updateAfterDecode, BatchManager.updateAfterDecode, hout]
    rfl
  rw [iteration_sched, hsched, hupdate, freeFinishedRequests_idle hrun hwait]

/-- **Complete service.** If the reserves of the groups present never exceed the pool, the loop never
    preempts, schedules something whenever something is pending, and ends: all requests have been
    served to their limit, the queues and `request_map_` are empty and the pool is free. -/
theorem complete_service (config : SchedulerConfig) (cache : CacheConfig) (w : Workload)
    (hseqs : 1 ≤ config.maxNumSeqs)
    (hids : (w.arrivals.flatten.map SequenceGroup.requestId).Nodup)
    (hreq : ∀ g ∈ w.arrivals.flatten, Acceptable config g)
    (hres : ∀ i, (submitted w config cache i).sched.reserved cache.blockSize
      ≤ cache.numGpuBlocks) :
    (∀ i, (∀ s, ¬ (submitted w config cache i).sched.PreemptsAt s) ∧
      ((submitted w config cache i).sched.hasPending = true →
        (submitted w config cache i).sched.schedule.1.isEmpty = false)) ∧
    ∃ n, w.arrivals.length ≤ n ∧ (loop w config cache n).sched.hasPending = false ∧
      (loop w config cache n).sched.requestMap = ∅ ∧
      (loop w config cache n).sched.blockManager.numFreeGpuBlocks = cache.numGpuBlocks ∧
      ∀ g ∈ w.arrivals.flatten, ∃ p < (loop w config cache n).sched.next,
        ((loop w config cache n).sched.groups p).requestId = g.requestId ∧
        ((loop w config cache n).sched.seq p).promptTokens = g.seq.promptTokens ∧
        ((loop w config cache n).sched.seq p).status = .finishedLength ∧
        ((loop w config cache n).sched.seq p).outputLen = g.outputLimit := by
  refine ⟨?_, ?_⟩
  · intro i
    have hserving := serving_at hids hreq hres i
    refine ⟨(hserving.service.decodes (hres i)).1, fun hpending => ?_⟩
    have hne : (submitted w config cache i).sched.queued ≠ [] := by
      intro hnil
      obtain ⟨hrun, hrest⟩ := List.append_eq_nil_iff.1 hnil
      obtain ⟨hwait, hswap⟩ := List.append_eq_nil_iff.1 hrest
      simp [hasPending, hrun, hwait, hswap] at hpending
    have hsched := hserving.service.scheduled_ne_nil (hres i)
      (by rw [hserving.configured]; exact hseqs) hne
    rw [SchedulerOutput.isEmpty, List.isEmpty_eq_false_iff]
    exact hsched
  · obtain ⟨n, hn, hidle⟩ := loop_drains hids hreq hres hseqs _ (Nat.le_refl w.arrivals.length)
      (Nat.le_refl _)
    have hserving := serving_loop hids hreq hres n
    obtain ⟨hrun, hwait, hswap, hmap, hfree⟩ := hserving.service.idle hidle
    refine ⟨n, hn, by simp [hasPending, hrun, hwait, hswap], hmap, hfree, fun g hg => ?_⟩
    obtain ⟨p, hp, hsame⟩ := hserving.recorded.stored g
      (by rw [List.take_of_length_le hn]; exact hg)
    obtain ⟨hstatus, hlen⟩ := hserving.service.served p hp
      (by rw [hidle]; exact List.not_mem_nil)
    exact ⟨p, hp, hsame.requestId, hsame.promptTokens, hstatus, hlen.trans hsame.outputLimit⟩

/-- Two requests; the second one, whose limit is 0, arrives in the second iteration. -/
def twoRequests : Workload where
  arrivals := [[.new 1 [7, 7] { maxTokens := 2 }], [.new 2 [8] { maxTokens := 0 }]]
  sample _ batch := batch.entries.map (fun e => e.token)
  clock i := i
  sample_length _ _ := List.length_map ..

/-- Three blocks of two tokens, just the reserves of the two requests. -/
def exactPool : CacheConfig := { numGpuBlocks := 3, numCpuBlocks := 0, blockSize := 2 }

theorem twoRequests_served :
    (submitted twoRequests {} exactPool 1).sched.reserved 2 = 3 ∧
    ∃ n, (loop twoRequests {} exactPool n).sched.hasPending = false ∧
      (loop twoRequests {} exactPool n).sched.blockManager.numFreeGpuBlocks = 3 := by
  -- from the second iteration on nothing is pending
  have hidle : ∀ i, (loop twoRequests {} exactPool (i + 2)).sched
      = (loop twoRequests {} exactPool 2).sched := by
    intro i
    induction i with
    | zero => rfl
    | succ i ih =>
        refine Eq.trans ?_ ih
        exact iteration_idle (d := loop twoRequests {} exactPool (i + 2))
          (by rw [ih]; rfl) (by rw [ih]; rfl) (by rw [ih]; rfl) _ _
  have hres : ∀ i, (submitted twoRequests {} exactPool i).sched.reserved 2 ≤ 3 := by
    intro i
    match i with
    | 0 => decide
    | 1 => decide
    | i + 2 =>
        show ((loop twoRequests {} exactPool (i + 2)).sched).reserved 2 ≤ 3
        rw [hidle]
        decide
  obtain ⟨-, n, -, hdone, -, hfree, -⟩ := complete_service {} exactPool twoRequests (by decide)
    (by decide) (by decide) hres
  exact ⟨by decide, n, hdone, hfree⟩

end Driver

end CacheFlow
