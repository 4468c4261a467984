import CacheFlow.Driver
import CacheFlow.Scheduler.Coverage

set_option autoImplicit false

/-! # When a step schedules nothing

All drivers stop at the first step that schedules nothing, even if requests are pending. This file says
exactly when that happens to requests that could each be served alone.

The decode loop starts with the first running group. If that group cannot grow, the loop preempts the
last running group and ends without having scheduled anything; the step is saved only if the front of
the waiting queue fits into what is free by then. Groups that are swapped in are not scheduled in the
same step. -/

namespace CacheFlow

open Scheduler BatchManager

namespace Scheduler

/-! ## The condition -/

/-- The waiting queue, sorted, after the group `v` has been preempted. -/
def queueAfterPreempting (st : Scheduler) (v : GroupPtr) : List GroupPtr :=
  match st.config.preemptionMode with
  | .swap => st.sortWaitingQueue.waiting
  | .recompute => { st with waiting := v :: st.waiting }.sortWaitingQueue.waiting

/-- The first running group can grow; or the front of the waiting queue fits into what is free after the
    last running group has been preempted. When nothing runs, something waits. -/
def KeepsWorking (st : Scheduler) : Prop :=
  match st.running with
  | [] => st.waiting ≠ []
  | g :: rest =>
    missingBlocks st.blockManager (st.seq g) ≤ (st.blockManager.freeList .cuda).length ∨
    ∃ p ∈ (st.queueAfterPreempting ((g :: rest).getLast (List.cons_ne_nil g rest))).head?,
      blocksFor (st.seq p).promptLen st.blockManager.blockSize
        ≤ (st.blockManager.freeList .cuda).length
          + (st.seq ((g :: rest).getLast (List.cons_ne_nil g rest))).logicalBlocks.length

/-! ## Memory in both modes -/

/-- The blocks are accounted for exactly in recompute mode; none is lost in swap mode. -/
structure Memory (cache : CacheConfig) (st : Scheduler) : Prop where
  recompute : st.config.preemptionMode = .recompute → ∃ own, Accounted cache st own
  swap : st.config.preemptionMode = .swap → Covered cache st

namespace Memory

variable {cache : CacheConfig} {st : Scheduler}

theorem blockSize (h : Memory cache st) : st.blockManager.blockSize = cache.blockSize := by
  cases hmode : st.config.preemptionMode with
  | recompute =>
      obtain ⟨own, hacc⟩ := h.recompute hmode
      exact hacc.blockSize
  | swap => exact congrArg CacheConfig.blockSize (h.swap hmode).config

/-- With nothing running the whole pool is free. -/
theorem free_of_idle (h : Memory cache st) (hwf : st.WellFormed) (hidle : st.running = []) :
    cache.numGpuBlocks ≤ (st.blockManager.freeList .cuda).length := by
  cases hmode : st.config.preemptionMode with
  | recompute =>
      obtain ⟨own, hacc⟩ := h.recompute hmode
      have hlen := hacc.free_add_held hwf
      simp only [hidle, List.map_nil, List.sum_nil, Nat.add_zero] at hlen
      exact Nat.le_of_eq hlen.symm
  | swap =>
      have hcov := (h.swap hmode).covers
      simpa only [listedBlocks, hidle, List.map_nil, List.sum_nil, Nat.add_zero] using hcov

/-- Preempting the last running group frees as many blocks as it lists. -/
theorem preempt_free {s : ScheduleState} (h : Memory cache s.sched) (hwf : s.sched.WellFormed)
    (hwf' : s.preempt.sched.WellFormed) {init : List GroupPtr} {v : GroupPtr}
    (hrun : s.sched.running = init ++ [v])
    (hunfin : ∀ q ∈ s.sched.running, (s.sched.seq q).isFinished = false) :
    (s.preempt.sched.blockManager.freeList .cuda).length
      = (s.sched.blockManager.freeList .cuda).length + (s.sched.seq v).logicalBlocks.length := by
  have hv : v ∈ s.sched.running := by rw [hrun]; simp
  have hsingle := hwf.single_of_mem (WellFormed.mem_running hv)
  rw [ScheduleState.preempt_eq hrun] at hwf' ⊢
  cases hmode : s.sched.config.preemptionMode with
  | swap => exact ((h.swap hmode).swapOutGroup hwf hrun (hunfin v hv)).2
  | recompute =>
      simp only [hmode] at hwf'
      obtain ⟨own, hacc⟩ := h.recompute hmode
      obtain ⟨own', hacc'⟩ := hacc.recomputeGroup hwf hrun (hunfin v hv)
      have hseq := ScheduleState.recomputeGroup_seq hsingle init (hunfin v hv)
      have hlen := hacc.free_add_held hwf
      have hlen' := hacc'.free_add_held hwf'
      -- the groups that stay hold what they held
      have hsame : init.map (fun q => (held ((s.recomputeGroup v init).sched.seq q)).length)
          = init.map (fun q => (held (s.sched.seq q)).length) := by
        refine List.map_congr_left (fun q hq => ?_)
        rw [hseq q, if_neg]
        rintro rfl
        exact hwf.queues.not_mem_init hrun hq
      have hrun' : (s.recomputeGroup v init).sched.running = init := rfl
      rw [hrun', hsame] at hlen'
      rw [hrun, List.map_append, List.sum_append, List.map_singleton, List.sum_singleton,
        held_of_unfinished (hunfin v hv)] at hlen
      show ((s.recomputeGroup v init).sched.blockManager.freeList .cuda).length = _
      omega

end Memory

end Scheduler

namespace Driver

variable {st : Scheduler} {cache : CacheConfig}

/-! ## What a step schedules -/

theorem admissions_ne_nil_iff (st : Scheduler) :
    st.admissions ≠ [] ↔
      ∃ p ∈ st.beforePrefills.sched.waiting.head?, st.beforePrefills.prefillFits p := by
  rw [admissions]
  cases st.beforePrefills.sched.waiting with
  | nil => simp [ScheduleState.prefillAdmissions]
  | cons p rest => simp [ScheduleState.prefillAdmissions]

/-- What the decode loop has scheduled stays scheduled. -/
theorem mem_decodeLoop_scheduled {l : List GroupPtr} {s : ScheduleState} {g : GroupPtr}
    (h : g ∈ s.output.scheduledGroups) :
    g ∈ (ScheduleState.decodeLoop l s).1.output.scheduledGroups := by
  have hrule := ScheduleState.decodeLoop_induct
    (P := fun _ s => g ∈ s.output.scheduledGroups) (fun _ _ _ _ h => h)
    (fun _ _ _ _ _ h => List.mem_append_left _ h) l s h
  rcases hrule with ⟨-, h⟩ | ⟨-, p, rest, h, -⟩
  · exact h
  · exact h

/-- The checks of the prefill phase on a waiting group, in terms of the state before the step. -/
theorem prefillFits_iff {s : ScheduleState} {p : GroupPtr} (hs : st.MidStep s) (h : MidLoop st s)
    (hp : p ∈ s.sched.waiting) :
    s.prefillFits p ↔ s.budgetSeqs ≠ 0 ∧ (st.seq p).promptLen ≤ s.budgetTokens ∧
      blocksFor (st.seq p).promptLen st.blockManager.blockSize
        ≤ (s.sched.blockManager.freeList .cuda).length := by
  have hmem : p ∈ s.sched.queued := WellFormed.mem_waiting hp
  have hsingle := hs.wf.single_of_mem hmem
  have hprompt : (s.sched.seq p).promptLen = (st.seq p).promptLen :=
    congrArg List.length (h.prompts p (hs.queued.mem_iff.1 hmem))
  have htotal : (s.sched.seq p).totalLen = (st.seq p).promptLen := by
    rw [SequenceData.totalLen, hprompt, SequenceData.outputLen, (h.waiting p hp).1]
    rfl
  have hsize : s.sched.blockManager.blockSize = st.blockManager.blockSize :=
    congrArg CacheConfig.blockSize hs.cache
  have hneeded : prefillBlocks s.sched.blockManager (s.sched.groups p)
      = blocksFor (st.seq p).promptLen st.blockManager.blockSize := by
    rw [hsingle.prefillBlocks, hsize]
    exact congrArg (blocksFor · st.blockManager.blockSize) htotal
  have htokens : estimateTokens (s.sched.groups p) true = (st.seq p).promptLen := by
    rw [hsingle.estimateTokens_prefill]
    exact hprompt
  rw [ScheduleState.prefillFits, hneeded, htokens, BlockManager.canAllocate, decide_eq_true_iff]

/-- The checks of the decode phase on the first running group. -/
theorem decodeFits_begin_iff {g : GroupPtr} (hsingle : (st.groups g).Single)
    (hfin : (st.seq g).isFinished = false) (hseqs : 1 ≤ st.config.maxNumSeqs)
    (htokens : 1 ≤ st.config.maxNumBatchedTokens) :
    st.beginSchedule.decodeFits g ↔
      missingBlocks st.blockManager (st.seq g) ≤ (st.blockManager.freeList .cuda).length := by
  have hcan := hsingle.canAppend st.blockManager hfin
  have hest := hsingle.estimateTokens_decode hfin
  rw [ScheduleState.decodeFits]
  show estimateTokens (st.groups g) false ≤ st.config.maxNumBatchedTokens ∧
    st.config.maxNumSeqs ≠ 0 ∧ canAppend st.blockManager (st.groups g) = true ↔ _
  rw [hest, hcan]
  constructor
  · rintro ⟨-, -, h⟩
    exact h
  · intro h
    exact ⟨htokens, by omega, h⟩

/-! ### The decode phase by its first group -/

theorem afterDecodes_idle (hrun : st.running = []) : st.afterDecodes = st.beginSchedule := by
  simp [afterDecodes, ScheduleState.scheduleDecodes, beginSchedule, hrun, ScheduleState.decodeLoop]

theorem afterDecodes_blocked {g : GroupPtr} {rest : List GroupPtr} (hrun : st.running = g :: rest)
    (hfin : (st.groups g).allFinished = false) (hfits : ¬ st.beginSchedule.decodeFits g) :
    st.afterDecodes = st.beginSchedule.preempt := by
  have hat : st.PreemptsAt st.beginSchedule := by
    rw [PreemptsAt, hrun, ScheduleState.decodeLoop, if_neg, if_neg hfits]
    show ¬ (st.groups g).allFinished = true
    simp [hfin]
  exact hat.afterDecodes

/-- The decode loop schedules the first running group, if that can grow. -/
theorem decodeLoop_front {g : GroupPtr} {rest : List GroupPtr} (hrun : st.running = g :: rest)
    (hfin : (st.groups g).allFinished = false) (hfits : st.beginSchedule.decodeFits g) :
    g ∈ (ScheduleState.decodeLoop st.running st.beginSchedule).1.output.scheduledGroups := by
  have hfirst : ScheduleState.decodeLoop st.running st.beginSchedule
      = ScheduleState.decodeLoop rest (st.beginSchedule.decodeGroup g) := by
    rw [hrun, ScheduleState.decodeLoop, if_neg, if_pos hfits]
    show ¬ (st.groups g).allFinished = true
    simp [hfin]
  rw [hfirst]
  exact mem_decodeLoop_scheduled (List.mem_cons_self ..)

theorem afterDecodes_front {g : GroupPtr} {rest : List GroupPtr} (hrun : st.running = g :: rest)
    (hfin : (st.groups g).allFinished = false) (hfits : st.beginSchedule.decodeFits g) :
    g ∈ st.afterDecodes.output.scheduledGroups := by
  refine st.afterDecodes_of_loop (P := fun s => g ∈ s.output.scheduledGroups)
    (decodeLoop_front hrun hfin hfits) ?_
  intro s init v hmem _ _
  rw [ScheduleState.preempt_scheduledGroups]
  exact hmem

theorem beforePrefills_waiting_blocked {init : List GroupPtr} {v : GroupPtr}
    (hrun : st.running = init ++ [v]) (hblocked : st.afterDecodes = st.beginSchedule.preempt) :
    st.beforePrefills.sched.waiting = st.queueAfterPreempting v := by
  have hput : ∀ (q : GroupPtr) (seqs : List SequenceData),
      (Function.update st.groups v { st.groups v with sequences := seqs } q).sampling
        = (st.groups q).sampling ∧
      (Function.update st.groups v { st.groups v with sequences := seqs } q).priority
        = (st.groups q).priority := by
    intro q seqs
    by_cases hq : q = v
    · subst hq
      simp
    · simp [hq]
  rw [beforePrefills, hblocked, ScheduleState.preempt_eq (s := st.beginSchedule) hrun,
    queueAfterPreempting]
  show (sortWaitingQueue (ScheduleState.sched (match st.config.preemptionMode with
    | .swap => st.beginSchedule.swapOutGroup v init
    | .recompute => st.beginSchedule.recomputeGroup v init))).waiting = _
  cases st.config.preemptionMode with
  | swap => exact sortWaitingQueue_congr rfl rfl (fun q => (hput q _).1) (fun q => (hput q _).2)
  | recompute =>
      exact sortWaitingQueue_congr rfl rfl (fun q => (hput q _).1) (fun q => (hput q _).2)

/-- The queues of a scheduler whose loop calls `schedule()`, and the budgets of the call. -/
structure Ready (st : Scheduler) : Prop where
  wf : st.WellFormed
  unfinished : ∀ p ∈ st.queued, (st.seq p).isFinished = false
  waiting : ∀ p ∈ st.waiting, (st.seq p).outputTokens = [] ∧ (st.seq p).logicalBlocks = []
  seqs : 1 ≤ st.config.maxNumSeqs
  prompts : ∀ p ∈ st.queued, 1 ≤ (st.seq p).promptLen ∧
    (st.seq p).promptLen ≤ st.config.maxNumBatchedTokens

namespace Ready

/-- At the end of the decode phase, and when the waiting queue has been sorted. -/
theorem beforePrefills (h : Ready st) :
    st.MidStep st.beforePrefills ∧ MidLoop st st.beforePrefills ∧
      st.beforePrefills.sched.waiting.Perm st.afterDecodes.sched.waiting ∧
      st.afterDecodes.sched.WellFormed := by
  obtain ⟨hs, hmid, -⟩ := afterDecodes_midLoop (P := fun _ => True) h.wf
    ⟨MidLoop.begin h.unfinished h.waiting, trivial⟩ (fun _ _ _ _ _ _ _ _ _ => trivial)
    (fun _ _ _ _ _ _ _ _ _ => trivial) (fun _ _ _ _ _ _ _ _ _ => trivial)
  obtain ⟨w, hperm, hw⟩ := st.afterDecodes.sched.sortWaitingQueue_eq
  rw [Scheduler.beforePrefills, hw]
  exact ⟨hs.sorted hperm, hmid.sorted hperm, hperm, hs.wf⟩

/-- With nothing running and room for the prompts, whatever waits is admitted. -/
theorem scheduled_iff_of_idle (h : Ready st) (hrun : st.running = [])
    (hroom : ∀ p ∈ st.waiting, blocksFor (st.seq p).promptLen st.blockManager.blockSize
      ≤ (st.blockManager.freeList .cuda).length) :
    st.afterSwapIn.output.scheduledGroups ≠ [] ↔ st.waiting ≠ [] := by
  obtain ⟨hs, hmid, hperm, -⟩ := h.beforePrefills
  have hidle := afterDecodes_idle hrun
  have hbegin : st.beginSchedule.output.scheduledGroups = [] := rfl
  rw [hidle] at hperm
  rw [afterSwapIn_scheduled, hidle, hbegin, List.nil_append, ne_eq, List.map_eq_nil_iff,
    ← ne_eq, admissions_ne_nil_iff]
  constructor
  · rintro ⟨p, hp, -⟩ hnil
    have hmem := hperm.mem_iff.1 (List.mem_of_mem_head? hp)
    exact absurd (show p ∈ st.waiting from hmem) (by rw [hnil]; exact List.not_mem_nil)
  · intro hne
    have hne' : st.beforePrefills.sched.waiting ≠ [] := fun hnil => by
      rw [hnil] at hperm
      exact hne hperm.symm.eq_nil
    obtain ⟨p, rest, hfront⟩ := List.exists_cons_of_ne_nil hne'
    have hp : p ∈ st.beforePrefills.sched.waiting := by rw [hfront]; exact List.mem_cons_self ..
    have hpw : p ∈ st.waiting := hperm.mem_iff.1 hp
    obtain ⟨-, htokens⟩ := h.prompts p (WellFormed.mem_waiting hpw)
    refine ⟨p, by rw [hfront]; rfl, (prefillFits_iff hs hmid hp).2 ?_⟩
    have hseqs := h.seqs
    rw [Scheduler.beforePrefills, hidle]
    obtain ⟨w, -, hw⟩ := st.sortWaitingQueue_eq
    show st.config.maxNumSeqs ≠ 0 ∧ _ ≤ st.config.maxNumBatchedTokens ∧
      _ ≤ (st.sortWaitingQueue.blockManager.freeList .cuda).length
    rw [hw]
    exact ⟨by omega, htokens, hroom p hpw⟩

/-- With a running group that cannot grow, the step depends on the front of the waiting queue. -/
theorem scheduled_iff_of_blocked (h : Ready st) (hmem : Memory cache st) {g v : GroupPtr} {rest init : List GroupPtr}
    (hrun : st.running = g :: rest) (hlast : st.running = init ++ [v])
    (hfits : ¬ st.beginSchedule.decodeFits g) :
    st.afterSwapIn.output.scheduledGroups ≠ [] ↔
      ∃ p ∈ (st.queueAfterPreempting v).head?,
        blocksFor (st.seq p).promptLen st.blockManager.blockSize
          ≤ (st.blockManager.freeList .cuda).length + (st.seq v).logicalBlocks.length := by
  obtain ⟨hs, hmid, -, hwf⟩ := h.beforePrefills
  have hg : g ∈ st.queued := WellFormed.mem_running (by rw [hrun]; exact List.mem_cons_self ..)
  have hfin : (st.groups g).allFinished = false :=
    (h.wf.single_of_mem hg).allFinished.trans (h.unfinished g hg)
  have hblocked := afterDecodes_blocked hrun hfin hfits
  have hnone : st.afterDecodes.output.scheduledGroups = [] := by
    rw [hblocked, ScheduleState.preempt_scheduledGroups]
    rfl
  have hfree : (st.beforePrefills.sched.blockManager.freeList .cuda).length
      = (st.blockManager.freeList .cuda).length + (st.seq v).logicalBlocks.length := by
    obtain ⟨w, -, hw⟩ := st.afterDecodes.sched.sortWaitingQueue_eq
    rw [Scheduler.beforePrefills, hw, hblocked]
    rw [hblocked] at hwf
    exact Memory.preempt_free (s := st.beginSchedule) hmem h.wf hwf hlast
      (fun q hq => h.unfinished q (WellFormed.mem_running hq))
  have hbudgets : st.beforePrefills.budgetSeqs = st.config.maxNumSeqs ∧
      st.beforePrefills.budgetTokens = st.config.maxNumBatchedTokens := by
    rw [Scheduler.beforePrefills, hblocked]
    exact ⟨(ScheduleState.preempt_budgets _).2, (ScheduleState.preempt_budgets _).1⟩
  have hseqs := h.seqs
  rw [afterSwapIn_scheduled, hnone, List.nil_append, ne_eq, List.map_eq_nil_iff, ← ne_eq,
    admissions_ne_nil_iff, ← beforePrefills_waiting_blocked hlast hblocked]
  refine exists_congr (fun p => and_congr_right (fun hp => ?_))
  have hpw := List.mem_of_mem_head? hp
  obtain ⟨-, htokens⟩ := h.prompts p (hs.queued.mem_iff.1 (WellFormed.mem_waiting hpw))
  rw [prefillFits_iff hs hmid hpw, hfree, hbudgets.1, hbudgets.2]
  constructor
  · rintro ⟨-, -, hle⟩
    exact hle
  · intro hle
    exact ⟨by omega, htokens, hle⟩

/-- **One step** schedules something exactly under the condition. -/
theorem scheduled_iff (h : Ready st) (hmem : Memory cache st)
    (hsmall : ∀ p ∈ st.queued,
      (st.seq p).promptLen ⌈/⌉ cache.blockSize ≤ cache.numGpuBlocks) :
    st.afterSwapIn.output.scheduledGroups ≠ [] ↔ st.KeepsWorking := by
  cases hrun : st.running with
  | nil =>
      have hfree := hmem.free_of_idle h.wf hrun
      rw [h.scheduled_iff_of_idle hrun, KeepsWorking, hrun]
      intro p hp
      rw [hmem.blockSize]
      exact (blocksFor_le_ceilDiv _ _).trans
        (Nat.le_trans (hsmall p (WellFormed.mem_waiting hp)) hfree)
  | cons g rest =>
      have hg : g ∈ st.queued := WellFormed.mem_running (by rw [hrun]; exact List.mem_cons_self ..)
      have hsingle := h.wf.single_of_mem hg
      have hfin := h.unfinished g hg
      obtain ⟨hpos, htokens⟩ := h.prompts g hg
      have hdecode := decodeFits_begin_iff hsingle hfin h.seqs (Nat.le_trans hpos htokens)
      have hlast : st.running = (g :: rest).dropLast
          ++ [(g :: rest).getLast (List.cons_ne_nil g rest)] := by
        rw [hrun]
        exact (List.dropLast_concat_getLast _).symm
      simp only [KeepsWorking, hrun]
      by_cases hfits : st.beginSchedule.decodeFits g
      · have hne := List.ne_nil_of_mem
          (afterDecodes_front hrun (hsingle.allFinished.trans hfin) hfits)
        rw [afterSwapIn_scheduled]
        exact ⟨fun _ => Or.inl (hdecode.1 hfits), fun _ => List.append_ne_nil_of_left_ne_nil hne _⟩
      · rw [h.scheduled_iff_of_blocked hmem hrun hlast hfits]
        constructor
        · exact Or.inr
        · rintro (hgrow | hfront)
          · exact absurd (hdecode.2 hgrow) hfits
          · exact hfront

end Ready

/-! ## Memory along a run -/

/-- A step in swap mode loses no block. -/
theorem schedule_covered (hwf : st.WellFormed) (hbegin : MidLoop st st.beginSchedule)
    (hmode : st.config.preemptionMode = .swap) (hcov : Covered cache st) :
    Covered cache st.afterSwapIn.sched := by
  obtain ⟨hs₁, hmid₁, hcov₁⟩ := afterDecodes_midLoop (P := fun s => Covered cache s.sched) hwf
    ⟨hbegin, hcov⟩
    (fun s p rest hs _ h hat hfin hfits => by
      have hsingle := hs.wf.single_of_mem (WellFormed.mem_running hat.mem_running)
      exact h.decodeGroup hs.wf hat.mem_running hfin ((hsingle.canAppend _ hfin).1 hfits.2.2))
    (fun s init v _ hs hmid h _ hrun => by
      have hv : v ∈ s.sched.queued := WellFormed.mem_running (by rw [hrun]; simp)
      exact (h.swapOutGroup hs.wf hrun (hmid.unfinished v (hs.queued.mem_iff.1 hv))).1)
    (fun s init v hmode' => by
      rw [hmode] at hmode'
      cases hmode')
  refine (afterSwapIn_midLoop (P := fun s => Covered cache s.sched) ⟨hs₁, hmid₁⟩ ?_ ?_ ?_).2.2
  · intro w _ heq
    rw [heq]
    exact ⟨hcov₁.config, hcov₁.loose, hcov₁.blocks, hcov₁.entries, hcov₁.covers⟩
  · intro s p rest hs hmid h _ hwaiting hfits
    have hpw : p ∈ s.sched.waiting := by rw [hwaiting]; exact List.mem_cons_self ..
    have hsingle := hs.wf.single_of_mem (WellFormed.mem_waiting hpw)
    have hcan := hfits.2.2
    rw [hsingle.prefillBlocks, BlockManager.canAllocate, decide_eq_true_iff] at hcan
    exact h.admitGroup hs.wf hwaiting (hmid.waiting p hpw).2 hcan
  · intro s p rest hs hmid h hswap hfits
    have hps : p ∈ s.sched.swapped := by rw [hswap]; exact List.mem_cons_self ..
    have hmem : p ∈ s.sched.queued := WellFormed.mem_swapped hps
    have hfin := hmid.unfinished p (hs.queued.mem_iff.1 hmem)
    have hcan := hfits.2.2
    rw [(hs.wf.single_of_mem hmem).swapInBlockCount hfin, BlockManager.canAllocate,
      decide_eq_true_iff] at hcan
    exact h.swapInGroup hs.wf hswap hfin hcan

/-- The request could be served alone: its prompt fits into a batch, and what it may grow to fits into
    the pool. -/
def Satisfiable (config : SchedulerConfig) (cache : CacheConfig) (group : SequenceGroup) : Prop :=
  group.seq.promptLen ≤ config.maxNumBatchedTokens ∧
    (group.seq.promptLen + group.outputLimit) ⌈/⌉ cache.blockSize ≤ cache.numGpuBlocks

instance (config : SchedulerConfig) (cache : CacheConfig) (group : SequenceGroup) :
    Decidable (Satisfiable config cache group) :=
  inferInstanceAs (Decidable (_ ∧ _))

/-- An enabled operation; arriving requests are satisfiable. -/
def EnabledSatisfiable (config : SchedulerConfig) (cache : CacheConfig) (d : Driver)
    (op : DriverOp) : Prop :=
  d.Enabled op ∧ match op with
    | .addRequest group => Satisfiable config cache group
    | _ => True

instance (config : SchedulerConfig) (cache : CacheConfig) (d : Driver) :
    (op : DriverOp) → Decidable (EnabledSatisfiable config cache d op)
  | .addRequest _ => inferInstanceAs (Decidable (_ ∧ Satisfiable config cache _))
  | .schedule | .buildBatch | .step _ | .updateAfterDecode _ | .freeFinishedRequests =>
    inferInstanceAs (Decidable (_ ∧ True))

/-- What runs with satisfiable requests keep. -/
structure Serves (config : SchedulerConfig) (cache : CacheConfig) (d : Driver) : Prop where
  loop : d.Loop
  configured : d.sched.config = config
  memory : Memory cache d.sched
  prompts : ∀ p ∈ d.sched.queued, (d.sched.seq p).promptLen ≤ config.maxNumBatchedTokens ∧
    (d.sched.seq p).promptLen ⌈/⌉ cache.blockSize ≤ cache.numGpuBlocks

namespace Serves

variable {config : SchedulerConfig} {d : Driver}

theorem addRequest (h : Serves config cache d) {group : SequenceGroup}
    (hfresh : d.sched.FreshRequest group) (hprompt : group.seq.promptTokens ≠ [])
    (hsat : Satisfiable config cache group) :
    Serves config cache { d with sched := d.sched.addRequest group } := by
  refine ⟨h.loop.addRequest hfresh hprompt, h.configured, ⟨?_, ?_⟩, ?_⟩
  · intro hmode
    obtain ⟨own, hacc⟩ := h.memory.recompute hmode
    exact ⟨own, hacc.addRequest h.loop.wf hfresh⟩
  · intro hmode
    exact (h.memory.swap hmode).addRequest h.loop.wf group
  · intro q hq
    rcases List.mem_cons.1 ((d.sched.addRequest_queued group).mem_iff.1 hq) with rfl | hq
    · have hseq : (d.sched.addRequest group).seq d.sched.next = group.seq :=
        congrArg SequenceGroup.seq (groups_addRequest_self d.sched group)
      rw [hseq]
      obtain ⟨htokens, hblocks⟩ := hsat
      exact ⟨htokens, (ceilDiv_mono (Nat.le_add_right _ _) _).trans hblocks⟩
    · rw [h.loop.wf.seq_addRequest group q hq]
      exact h.prompts q hq

theorem ready (h : Serves config cache d) (hphase : d.phase = .ready)
    (hseqs : 1 ≤ config.maxNumSeqs) : Ready d.sched := by
  refine ⟨h.loop.wf, h.loop.unfinished (by rw [hphase]; simp),
    fun p hp => (h.loop.waiting p hp).2, by rw [h.configured]; exact hseqs, ?_⟩
  intro p hp
  rw [h.configured]
  exact ⟨List.length_pos_iff.2 (h.loop.prompts p hp), (h.prompts p hp).1⟩

theorem schedule (h : Serves config cache d) (hphase : d.phase = .ready)
    (fed : GroupPtr → List (BatchEntry × SequenceData)) :
    Serves config cache
      { sched := d.sched.schedule.2, phase := .scheduled d.sched.schedule.1, fed := fed } := by
  obtain ⟨hs, hmid⟩ := h.loop.midLoop hphase
  have hunfin := h.loop.unfinished (by rw [hphase]; simp)
  refine ⟨h.loop.schedule hphase fed, hs.config.trans h.configured, ⟨?_, ?_⟩, ?_⟩
  · intro hmode
    have hmode' : d.sched.config.preemptionMode = .recompute := by
      rw [← hs.config]
      exact hmode
    obtain ⟨own, hacc⟩ := h.memory.recompute hmode'
    exact (schedule_accounted h.loop.wf hmode' hunfin hacc).accounted
  · intro hmode
    have hmode' : d.sched.config.preemptionMode = .swap := by
      rw [← hs.config]
      exact hmode
    exact schedule_covered h.loop.wf
      (MidLoop.begin hunfin (fun p hp => (h.loop.waiting p hp).2)) hmode' (h.memory.swap hmode')
  · intro p hp
    have hp' := hs.queued.mem_iff.1 hp
    have hlen : (d.sched.schedule.2.seq p).promptLen = (d.sched.seq p).promptLen :=
      congrArg List.length (hmid.prompts p hp')
    rw [hlen]
    exact h.prompts p hp'

theorem updateAfterDecode (h : Serves config cache d) {out : SchedulerOutput}
    {toks : List TokenId} (hphase : d.phase = .decoded out toks) (now : TimePoint) :
    Serves config cache
      { d with sched := d.sched.updateAfterDecode out toks now, phase := .updated } := by
  refine ⟨h.loop.updateAfterDecode hphase now, h.configured, ⟨?_, ?_⟩, ?_⟩
  · intro hmode
    obtain ⟨own, hacc⟩ := h.memory.recompute hmode
    exact ⟨own, hacc.updateAfterDecode h.loop.wf out toks now⟩
  · intro hmode
    exact (h.memory.swap hmode).updateAfterDecode h.loop.wf out toks now
  · intro p hp
    have hext := h.loop.wf.extends_updateAfterDecode out toks now p hp
    have hlen : ((d.sched.updateAfterDecode out toks now).seq p).promptLen
        = (d.sched.seq p).promptLen := congrArg List.length hext.promptTokens
    rw [hlen]
    exact h.prompts p hp

theorem freeFinishedRequests (h : Serves config cache d) :
    Serves config cache { d with sched := d.sched.freeFinishedRequests, phase := .ready } := by
  have hloop := h.loop.freeFinishedRequests
  have hmemory : Memory cache d.sched.freeFinishedRequests := by
    have hconf : d.sched.freeFinishedRequests.config = d.sched.config := by
      rw [freeFinishedRequests_eq]
    refine ⟨?_, ?_⟩
    · intro hmode
      obtain ⟨own, hacc⟩ := h.memory.recompute (by rw [← hconf]; exact hmode)
      exact hacc.freeFinishedRequests h.loop.wf
    · intro hmode
      exact (h.memory.swap (by rw [← hconf]; exact hmode)).freeFinishedRequests h.loop.wf
  rw [freeFinishedRequests_eq] at hloop hmemory ⊢
  refine ⟨hloop, h.configured, hmemory, ?_⟩
  intro p hp
  have hsub : (d.sched.unfinishedIn d.sched.running
      ++ (d.sched.unfinishedIn d.sched.waiting ++ d.sched.swapped)).Sublist d.sched.queued :=
    List.filter_sublist.append (List.filter_sublist.append (List.Sublist.refl _))
  exact h.prompts p (hsub.subset hp)

end Serves

theorem init_serves (config : SchedulerConfig) (cache : CacheConfig) :
    Serves config cache (init config cache) := by
  refine ⟨init_loop config cache, rfl, ⟨?_, ?_⟩, ?_⟩
  · intro _
    exact new_accounted config cache
  · intro _
    exact new_covered config cache
  · intro p hp
    exact absurd hp List.not_mem_nil

theorem step_serves {config : SchedulerConfig} (d : Driver) (op : DriverOp)
    (h : Serves config cache d) (hok : EnabledSatisfiable config cache d op) :
    Serves config cache (d.step op) := by
  obtain ⟨hok, hsat⟩ := hok
  have hloop := step_loop d op h.loop hok
  rcases step_cases hok with ⟨group, rfl, hfresh, hprompt, heq⟩ | ⟨-, hphase, heq⟩ |
    ⟨out, -, hphase, heq⟩ | ⟨out, batch, toks, -, hphase, -, heq⟩ |
    ⟨out, toks, now, -, hphase, heq⟩ | ⟨-, hphase, heq⟩
  · rw [heq]
    exact h.addRequest hfresh hprompt hsat
  · rw [heq]
    exact h.schedule hphase _
  · rw [heq] at hloop ⊢
    exact ⟨hloop, h.configured, h.memory, h.prompts⟩
  · rw [heq] at hloop ⊢
    exact ⟨hloop, h.configured, h.memory, h.prompts⟩
  · rw [heq]
    exact h.updateAfterDecode hphase now
  · rw [heq]
    exact h.freeFinishedRequests

/-- **When pending requests are served.** In every state of a run in which the loop calls `schedule()`
    with pending requests, the call schedules something exactly if the first running group can grow or
    the front of the waiting queue fits after a preemption. -/
theorem pending_scheduled_iff (config : SchedulerConfig) (cache : CacheConfig)
    (hseqs : 1 ≤ config.maxNumSeqs) (d : Driver)
    (hreach : Run.Reach Driver.step (EnabledSatisfiable config cache) (Driver.init config cache) d)
    (hready : d.phase = .ready) :
    (d.sched.hasPending = true → d.sched.schedule.1.isEmpty = false) ↔
      (d.sched.hasPending = true → d.sched.KeepsWorking) := by
  have h : Serves config cache d := hreach.invariant (init_serves config cache) step_serves
  refine imp_congr_right (fun _ => ?_)
  rw [← (h.ready hready hseqs).scheduled_iff h.memory (fun p hp => (h.prompts p hp).2),
    SchedulerOutput.isEmpty, List.isEmpty_eq_false_iff]
  rfl

/-- Two requests with prompts of two tokens, in blocks of two tokens, after their first step. -/
def twoPrefilled : List DriverOp :=
  [.addRequest (.new 1 [7, 7] { maxTokens := 2 }), .addRequest (.new 2 [8, 8] { maxTokens := 2 }),
    .schedule, .buildBatch, .step [9, 9, 9, 9], .updateAfterDecode 0, .freeFinishedRequests]

/-- With a pool of two blocks either request could be served alone. -/
def tightPool : CacheConfig := { numGpuBlocks := 2, numCpuBlocks := 2, blockSize := 2 }

def tightEnd : Driver := twoPrefilled.foldl step (init {} tightPool)

/-- Neither request can grow. The call swaps the second one out and in again and schedules nothing, with
    two requests pending and a CPU block to spare. -/
theorem tightPool_nothing_scheduled :
    Run.Reach Driver.step (EnabledSatisfiable {} tightPool) (init {} tightPool) tightEnd ∧
    tightEnd.phase = .ready ∧ tightEnd.sched.hasPending = true ∧
    tightEnd.sched.schedule.1.isEmpty = true ∧
    tightEnd.sched.schedule.1.swappedInGroups = [1] ∧
    tightEnd.sched.schedule.2.blockManager.numFreeCpuBlocks = 1 := by
  refine ⟨Run.Reach.of_allOk twoPrefilled (by decide), rfl, ?_, ?_, ?_, ?_⟩
  all_goals decide

/-- The same requests with two blocks more. -/
def roomyPool : CacheConfig := { numGpuBlocks := 4, numCpuBlocks := 2, blockSize := 2 }

def roomyEnd : Driver := twoPrefilled.foldl step (init {} roomyPool)

theorem roomyPool_scheduled :
    roomyEnd.sched.hasPending = true ∧ roomyEnd.sched.KeepsWorking ∧
      roomyEnd.sched.schedule.1.isEmpty = false := by
  have hworks : roomyEnd.sched.KeepsWorking := by
    show missingBlocks _ _ ≤ _ ∨ _
    exact Or.inl (by decide)
  refine ⟨by decide, hworks, ?_⟩
  exact (pending_scheduled_iff {} roomyPool (by decide) roomyEnd
    (Run.Reach.of_allOk twoPrefilled (by decide)) rfl).2 (fun _ => hworks) (by decide)

end Driver

end CacheFlow
