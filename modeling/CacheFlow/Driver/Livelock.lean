import CacheFlow.Driver.Service
import Mathlib.Data.Prod.Lex

set_option autoImplicit false

/-! # Preemption without progress

With more demand than memory the loop preempts, and what it preempts it admits again in the same call.
In recompute mode under the FCFS policy the first running group is never the victim, since it could be
served alone. When it needs a block and none is free, the last running group is preempted and goes
back into the blocks of its prompt at once. If it held no more than those, nothing has been gained: the
next call finds the same queues, and so does every call after it.

`Scheduler.Stuck` is that situation. The result is that nothing else can go wrong. As long as no
call meets it, the first running group gets a token at least in every second iteration, so the requests
pending become fewer (`rank` decreases); once a call meets it, the first running group never gets
another token. -/

namespace CacheFlow

open Scheduler BatchManager

namespace Scheduler

/-! ## The situation -/

/-- The first running group needs more blocks than are free. -/
def Starved (st : Scheduler) : Prop :=
  ∃ g ∈ st.running.head?,
    (st.blockManager.freeList .cuda).length < missingBlocks st.blockManager (st.seq g)

/-- The first running group needs more blocks than are free, and the last one holds no more than
    `num_blocks_needed` of its prompt. -/
def Stuck (st : Scheduler) : Prop :=
  st.Starved ∧ ∃ v ∈ st.running.getLast?,
    (st.seq v).logicalBlocks.length ≤ blocksFor (st.seq v).promptLen st.blockManager.blockSize

instance (st : Scheduler) : Decidable st.Starved :=
  inferInstanceAs (Decidable (∃ g ∈ st.running.head?, _))

instance (st : Scheduler) : Decidable st.Stuck :=
  inferInstanceAs (Decidable (_ ∧ ∃ v ∈ st.running.getLast?, _))

/-! ## The invariant -/

/-- Between the calls of the loop in recompute mode, whatever the demand. Every running group has got a
    token and still has the blocks of its prompt; every group that has left the queues was served. -/
structure Contended (cache : CacheConfig) (st : Scheduler) : Prop where
  wf : st.WellFormed
  accounted : ∃ own, Accounted cache st own
  mode : st.config.preemptionMode = .recompute
  policy : st.config.policy = .fcfs
  seqs : 1 ≤ st.config.maxNumSeqs
  prompts : ∀ p ∈ st.queued, 1 ≤ (st.seq p).promptLen ∧
    (st.seq p).promptLen ≤ st.config.maxNumBatchedTokens
  alone : ∀ p ∈ st.queued, reserve cache.blockSize (st.groups p) ≤ cache.numGpuBlocks
  waiting : ∀ p ∈ st.waiting, (st.seq p).outputTokens = []
  started : ∀ p ∈ st.running, 1 ≤ (st.seq p).outputLen
  prefilled : ∀ p ∈ st.running,
    blocksFor (st.seq p).promptLen cache.blockSize ≤ (st.seq p).logicalBlocks.length
  counts : ∀ p < st.next, (p ∈ st.queued ∧ (st.seq p).isFinished = false ∧
    (st.seq p).outputLen < (st.groups p).outputLimit) ∨ Served (st.groups p)

variable {cache : CacheConfig} {st : Scheduler} {s s' : ScheduleState} {p : GroupPtr}

namespace Contended

theorem short (h : Contended cache st) (hp : p ∈ st.queued)
    (hfin : (st.seq p).isFinished = false) :
    (st.seq p).outputLen < (st.groups p).outputLimit := by
  rcases h.counts p (h.wf.stored p hp) with ⟨-, -, hlt⟩ | hserved
  · exact hlt
  · rw [Scheduler.seq, hserved.finished] at hfin
    cases hfin

theorem ready (h : Contended cache st) (hunfin : st.AllUnfinished) : Driver.Ready st := by
  obtain ⟨own, hacc⟩ := h.accounted
  exact ⟨h.wf, hunfin, fun p hp => ⟨h.waiting p hp, hacc.waiting p hp⟩, h.seqs, h.prompts⟩

theorem memory (h : Contended cache st) : Memory cache st := by
  refine ⟨fun _ => h.accounted, fun hswap => ?_⟩
  rw [h.mode] at hswap
  cases hswap

theorem addRequest (h : Contended cache st) {group : SequenceGroup}
    (hfresh : st.FreshRequest group) (hprompt : group.seq.promptTokens ≠ [])
    (hsat : Driver.Satisfiable st.config cache group) : Contended cache (st.addRequest group) := by
  obtain ⟨own, hacc⟩ := h.accounted
  have hperm := st.addRequest_queued group
  have hold : ∀ q < st.next, (st.addRequest group).groups q = st.groups q :=
    fun q hq => st.groups_addRequest_of_lt group hq
  have hrun : ∀ q ∈ st.running, (st.addRequest group).groups q = st.groups q :=
    fun q hq => hold q (h.wf.stored q (WellFormed.mem_running hq))
  have hnew := st.groups_addRequest_self group
  have hseq := hfresh.1.seq_eq
  refine ⟨addRequest_wellFormed h.wf hfresh, ⟨own, hacc.addRequest h.wf hfresh⟩, h.mode, h.policy,
    h.seqs, ?_, ?_, ?_, ?_, ?_, ?_⟩
  · intro q hq
    rw [Scheduler.seq]
    rcases List.mem_cons.1 (hperm.mem_iff.1 hq) with rfl | hq
    · rw [hnew]
      exact ⟨List.length_pos_iff.2 hprompt, hsat.1⟩
    · rw [hold q (h.wf.stored q hq)]
      exact h.prompts q hq
  · intro q hq
    rcases List.mem_cons.1 (hperm.mem_iff.1 hq) with rfl | hq
    · rw [hnew]
      exact hsat.2
    · rw [hold q (h.wf.stored q hq)]
      exact h.alone q hq
  · intro q hq
    rw [Scheduler.seq]
    rcases List.mem_append.1 hq with hq | hq
    · rw [hold q (h.wf.stored q (WellFormed.mem_waiting hq))]
      exact h.waiting q hq
    · rw [List.mem_singleton.1 hq, hnew, hseq]
  · intro q hq
    rw [Scheduler.seq, hrun q hq]
    exact h.started q hq
  · intro q hq
    rw [Scheduler.seq, hrun q hq]
    exact h.prefilled q hq
  · intro q hq
    rw [Scheduler.seq]
    rcases Nat.lt_succ_iff_lt_or_eq.1 hq with hlt | rfl
    · rw [hold q hlt]
      rcases h.counts q hlt with ⟨hmem, hrest⟩ | hserved
      · exact Or.inl ⟨hperm.mem_iff.2 (List.mem_cons_of_mem _ hmem), hrest⟩
      · exact Or.inr hserved
    · rw [hnew]
      refine Or.inl ⟨hperm.mem_iff.2 (List.mem_cons_self ..), by rw [hseq]; rfl, ?_⟩
      have hlen : group.seq.outputLen = 0 := by rw [hseq]; rfl
      rw [hlen]
      exact outputLimit_pos group

theorem freeFinishedRequests (h : Contended cache st) :
    Contended cache st.freeFinishedRequests ∧ st.freeFinishedRequests.AllUnfinished := by
  obtain ⟨own, hacc⟩ := h.accounted
  have hacc' := hacc.freeFinishedRequests h.wf
  have hwf' := freeFinishedRequests_wellFormed h.wf
  rw [freeFinishedRequests_eq] at hacc' hwf' ⊢
  have hstay := fun p => hacc.mem_unfinished_iff (p := p) h.wf
  refine ⟨⟨hwf', hacc', h.mode, h.policy, h.seqs, ?_, ?_, ?_, ?_, ?_, ?_⟩, ?_⟩
  · intro p hp
    exact h.prompts p ((hstay p).1 hp).1
  · intro p hp
    exact h.alone p ((hstay p).1 hp).1
  · intro p hp
    exact h.waiting p (List.mem_filter.1 hp).1
  · intro p hp
    exact h.started p (List.mem_filter.1 hp).1
  · intro p hp
    exact h.prefilled p (List.mem_filter.1 hp).1
  · intro p hp
    rcases h.counts p hp with ⟨hmem, hfin, hlt⟩ | hserved
    · exact Or.inl ⟨(hstay p).2 ⟨hmem, hfin⟩, hfin, hlt⟩
    · exact Or.inr hserved
  · intro p hp
    exact ((hstay p).1 hp).2

end Contended

/-! ## Between the moves of a call -/

structure MidContended (cache : CacheConfig) (st : Scheduler) (s : ScheduleState) : Prop where
  recompute : MidRecompute cache st s
  same : ∀ q, SamePrompt (st.groups q) (s.sched.groups q)
  frame : ∀ q, q ∉ st.queued → s.sched.groups q = st.groups q
  output : ∀ q, (s.sched.seq q).outputLen ≤ (st.seq q).outputLen
  settled : ∀ q ∈ s.sched.running, q ∉ s.output.scheduledGroups → 1 ≤ (s.sched.seq q).outputLen
  prefilled : ∀ q ∈ s.sched.running,
    blocksFor (s.sched.seq q).promptLen cache.blockSize ≤ (s.sched.seq q).logicalBlocks.length

namespace MidContended

/-- Rewriting the sequence of one group and moving the group. -/
theorem move (h : MidContended cache st s) (hp : p ∈ st.queued) {x : SequenceData}
    (hgroups : s'.sched.groups
      = Function.update s.sched.groups p { s.sched.groups p with sequences := [x] })
    (hrec : MidRecompute cache st s') (hprompt : x.promptTokens = (s.sched.seq p).promptTokens)
    (hout : x.outputLen ≤ (s.sched.seq p).outputLen)
    (hrun : ∀ q ∈ s'.sched.running, q ≠ p → q ∈ s.sched.running)
    (hsched : ∀ q ∈ s.output.scheduledGroups, q ∈ s'.output.scheduledGroups)
    (hsettled : p ∈ s'.sched.running → p ∈ s'.output.scheduledGroups)
    (hprefilled : p ∈ s'.sched.running →
      blocksFor (s.sched.seq p).promptLen cache.blockSize ≤ x.logicalBlocks.length) :
    MidContended cache st s' := by
  have hseq : ∀ q, s'.sched.seq q = if q = p then x else s.sched.seq q :=
    fun q => seq_of_groups hgroups q
  have hlen : x.promptLen = (s.sched.seq p).promptLen := congrArg List.length hprompt
  refine ⟨hrec, ?_, ?_, ?_, ?_, ?_⟩
  · intro q
    rw [hgroups]
    by_cases hq : q = p
    · subst hq
      rw [Function.update_self]
      exact (h.same q).with_sequence hprompt
    · rw [Function.update_of_ne hq]
      exact h.same q
  · intro q hq
    have hqp : q ≠ p := by
      rintro rfl
      exact hq hp
    rw [hgroups, Function.update_of_ne hqp]
    exact h.frame q hq
  · intro q
    rw [hseq]
    split
    · next heq => exact heq ▸ hout.trans (h.output p)
    · exact h.output q
  · intro q hq hnot
    rw [hseq]
    split
    · next heq =>
        subst heq
        exact absurd (hsettled hq) hnot
    · next hne => exact h.settled q (hrun q hq hne) (fun hmem => hnot (hsched q hmem))
  · intro q hq
    rw [hseq]
    split
    · next heq =>
        subst heq
        rw [hlen]
        exact hprefilled hq
    · next hne => exact h.prefilled q (hrun q hq hne)

theorem decodeGroup (h : MidContended cache st s) (hs : st.MidStep s) (hp : p ∈ s.sched.running)
    (hfits : s.decodeFits p) : MidContended cache st (s.decodeGroup p) := by
  have hmem : p ∈ s.sched.queued := WellFormed.mem_running hp
  have hsingle := hs.wf.single_of_mem hmem
  have hfin := h.recompute.unfinished p (hs.queued.mem_iff.1 hmem)
  obtain ⟨bids, -, hseq⟩ := allocateFor_fst s.sched.blockManager (s.sched.seq p)
    (missingBlocks s.sched.blockManager (s.sched.seq p))
  have hgroups := congrArg Scheduler.groups (ScheduleState.decodeGroup_sched hsingle)
  rw [appendBlocks_of_unfinished hfin, hseq] at hgroups
  refine h.move (hs.queued.mem_iff.1 hmem) hgroups (h.recompute.decodeGroup hs hp hfits) rfl
    (Nat.le_refl _) (fun q hq _ => hq) (fun q hq => List.mem_append_left _ hq)
    (fun _ => List.mem_append_right _ (List.mem_singleton_self p)) ?_
  intro _
  show _ ≤ ((s.sched.seq p).logicalBlocks ++ bids).length
  rw [List.length_append]
  exact Nat.le_add_right_of_le (h.prefilled p hp)

theorem recomputeGroup {init : List GroupPtr} (h : MidContended cache st s) (hs : st.MidStep s)
    (hrun : s.sched.running = init ++ [p]) (hvictim : p ∉ s.output.scheduledGroups) :
    MidContended cache st (s.recomputeGroup p init) := by
  have hmem : p ∈ s.sched.queued := WellFormed.mem_running (by rw [hrun]; simp)
  have hsingle := hs.wf.single_of_mem hmem
  have hfin := h.recompute.unfinished p (hs.queued.mem_iff.1 hmem)
  have hnot : p ∉ (s.recomputeGroup p init).sched.running := hs.wf.queues.not_mem_init hrun
  have hgroups := congrArg Scheduler.groups (ScheduleState.recomputeGroup_sched hsingle init)
  rw [recomputeSequence_of_unfinished hfin] at hgroups
  refine h.move (hs.queued.mem_iff.1 hmem) hgroups (h.recompute.recomputeGroup hs hrun hvictim) rfl
    (Nat.zero_le _) ?_ (fun q hq => hq) (fun hp => absurd hp hnot) (fun hp => absurd hp hnot)
  intro q hq _
  rw [hrun]
  exact List.mem_append_left _ hq

theorem admitGroup {rest : List GroupPtr} (h : MidContended cache st s) (hs : st.MidStep s)
    (hout : (s.sched.seq p).outputTokens = []) (hwait : s.sched.waiting = p :: rest)
    (hfits : s.prefillFits p) : MidContended cache st (s.admitGroup p rest) := by
  have hpw : p ∈ s.sched.waiting := by rw [hwait]; exact List.mem_cons_self ..
  have hmem : p ∈ s.sched.queued := WellFormed.mem_waiting hpw
  have hsingle := hs.wf.single_of_mem hmem
  obtain ⟨own, hacc⟩ := h.recompute.accounted
  obtain ⟨bids, hlen, hseq⟩ := allocateFor_fst s.sched.blockManager
    { s.sched.seq p with status := .running }
    ((s.sched.seq p).numBlocksNeeded s.sched.blockManager.blockSize)
  have hgroups := congrArg Scheduler.groups (ScheduleState.admitGroup_sched hsingle rest)
  rw [prefillSequence, hseq] at hgroups
  refine h.move (hs.queued.mem_iff.1 hmem) hgroups (h.recompute.admitGroup hs hwait hfits) rfl
    (Nat.le_refl _) (fun q hq hqp => mem_of_mem_concat hq hqp)
    (fun q hq => List.mem_append_left _ hq)
    (fun _ => List.mem_append_right _ (List.mem_singleton_self p)) ?_
  intro _
  show _ ≤ ((s.sched.seq p).logicalBlocks ++ bids).length
  rw [List.length_append, hlen, SequenceData.numBlocksNeeded, hacc.blockSize,
    SequenceData.totalLen, SequenceData.outputLen, hout]
  exact Nat.le_add_left _ _

end MidContended

namespace Contended

theorem beginSchedule (h : Contended cache st) (hunfin : st.AllUnfinished) :
    MidContended cache st st.beginSchedule := by
  refine ⟨⟨h.accounted, hunfin, fun q hq => absurd hq List.not_mem_nil⟩, fun q => ⟨⟨rfl, rfl⟩, rfl⟩,
    fun _ _ => rfl, fun _ => Nat.le_refl _, fun q hq _ => h.started q hq, h.prefilled⟩

theorem afterDecodes (h : Contended cache st) (hunfin : st.AllUnfinished) :
    st.MidStep st.afterDecodes ∧ Driver.MidLoop st st.afterDecodes ∧
      MidContended cache st st.afterDecodes := by
  have hready := h.ready hunfin
  refine Driver.afterDecodes_midLoop (P := MidContended cache st) h.wf
    ⟨Driver.MidLoop.begin hunfin hready.waiting, h.beginSchedule hunfin⟩ ?_ ?_ ?_
  · intro s p rest hs _ hmid hat _ hfits
    exact hmid.decodeGroup hs hat.mem_running hfits
  · intro s init v hswap
    rw [h.mode] at hswap
    cases hswap
  · intro s init v _ hs _ hmid hat hrun
    exact hmid.recomputeGroup hs hrun (hat.victim_not_scheduled h.wf.queues.nodup_running hrun)

/-- Under FCFS the waiting queue is not sorted. -/
theorem beforePrefills_eq (h : Contended cache st) (hunfin : st.AllUnfinished) :
    st.beforePrefills = st.afterDecodes := by
  have hpolicy : st.afterDecodes.sched.config.policy = .fcfs := by
    rw [(h.afterDecodes hunfin).1.config]
    exact h.policy
  rw [beforePrefills, sortWaitingQueue, hpolicy]

/-- **Rule for the prefill phase**: what holds after the decode phase and is preserved by admitting holds
    when the call returns. -/
theorem afterSwapIn {P : ScheduleState → Prop} (h : Contended cache st)
    (hunfin : st.AllUnfinished) (hdecodes : P st.afterDecodes)
    (hfront : ∀ s p rest, st.MidStep s → Driver.MidLoop st s → MidContended cache st s → P s →
      s.sched.waiting = p :: rest → s.prefillFits p → P (s.admitGroup p rest)) :
    st.MidStep st.afterSwapIn ∧ Driver.MidLoop st st.afterSwapIn ∧
      MidContended cache st st.afterSwapIn ∧ P st.afterSwapIn := by
  obtain ⟨hs, hloop, hmid⟩ := h.afterDecodes hunfin
  refine Driver.afterSwapIn_midLoop (P := fun s => MidContended cache st s ∧ P s) ⟨hs, hloop⟩ ?_ ?_ ?_
  · intro w _ _
    rw [h.beforePrefills_eq hunfin]
    exact ⟨hmid, hdecodes⟩
  · rintro s p rest hs hloop ⟨hmid, hP⟩ - hwait hfits
    have hpw : p ∈ s.sched.waiting := by rw [hwait]; exact List.mem_cons_self ..
    exact ⟨hmid.admitGroup hs (hloop.waiting p hpw).1 hwait hfits,
      hfront s p rest hs hloop hmid hP hwait hfits⟩
  · rintro s p rest - - ⟨hmid, -⟩ hswap
    obtain ⟨own, hacc⟩ := hmid.recompute.accounted
    rw [hacc.swapped] at hswap
    cases hswap

theorem schedule (h : Contended cache st) (hunfin : st.AllUnfinished) :
    st.MidStep st.afterSwapIn ∧ Driver.MidLoop st st.afterSwapIn ∧
      MidContended cache st st.afterSwapIn := by
  obtain ⟨hs, hloop, hmid, -⟩ := h.afterSwapIn (P := fun _ => True) hunfin trivial
    (fun _ _ _ _ _ _ _ _ _ => trivial)
  exact ⟨hs, hloop, hmid⟩

end Contended

/-! ## The first running group -/

section Front

variable {g : GroupPtr} {rest : List GroupPtr}

theorem starved_iff (hrun : st.running = g :: rest) :
    st.Starved ↔
      (st.blockManager.freeList .cuda).length < missingBlocks st.blockManager (st.seq g) := by
  rw [Starved, hrun]
  simp

/-- Alone, a running group can always grow. -/
theorem Contended.rest_ne_nil (h : Contended cache st) (hunfin : st.AllUnfinished)
    (hrun : st.running = g :: rest) (hstarved : st.Starved) : rest ≠ [] := by
  rintro rfl
  obtain ⟨own, hacc⟩ := h.accounted
  have hg : g ∈ st.queued := WellFormed.mem_running (by rw [hrun]; exact List.mem_cons_self ..)
  have hpool := hacc.free_add_held h.wf
  have hneeded : (st.seq g).numBlocksNeeded cache.blockSize
      ≤ reserve cache.blockSize (st.groups g) :=
    ((st.seq g).numBlocksNeeded_le_ceilDiv _).trans
      (needed_le_reserve cache.blockSize (h.short hg (hunfin g hg)))
  have halone := h.alone g hg
  rw [starved_iff hrun, missingBlocks, hacc.blockSize] at hstarved
  rw [hrun, List.map_singleton, List.sum_singleton, held_of_unfinished (hunfin g hg)] at hpool
  omega

theorem Contended.decodeFits_iff (h : Contended cache st) (hunfin : st.AllUnfinished)
    (hrun : st.running = g :: rest) : st.beginSchedule.decodeFits g ↔ ¬ st.Starved := by
  have hg : g ∈ st.queued := WellFormed.mem_running (by rw [hrun]; exact List.mem_cons_self ..)
  obtain ⟨hpos, htokens⟩ := h.prompts g hg
  rw [Driver.decodeFits_begin_iff (h.wf.single_of_mem hg) (hunfin g hg) h.seqs
    (Nat.le_trans hpos htokens), starved_iff hrun, Nat.not_lt]

theorem Contended.allFinished_front (h : Contended cache st) (hunfin : st.AllUnfinished)
    (hrun : st.running = g :: rest) : (st.groups g).allFinished = false := by
  have hg : g ∈ st.queued := WellFormed.mem_running (by rw [hrun]; exact List.mem_cons_self ..)
  exact (h.wf.single_of_mem hg).allFinished.trans (hunfin g hg)

/-- The first running group stays first. -/
structure FrontKept (st : Scheduler) (g : GroupPtr) (s : ScheduleState) : Prop where
  head : s.sched.running.head? = some g
  output : (s.sched.seq g).outputTokens = (st.seq g).outputTokens
  scheduled : g ∈ s.output.scheduledGroups

/-- Admitting others does not concern a running group. -/
theorem FrontKept.admitGroup {q : GroupPtr} {rest : List GroupPtr} (h : FrontKept st g s)
    (hs : st.MidStep s) (hwait : s.sched.waiting = q :: rest) :
    FrontKept st g (s.admitGroup q rest) := by
  have hqw : q ∈ s.sched.waiting := by rw [hwait]; exact List.mem_cons_self ..
  have hgr : g ∈ s.sched.running := List.mem_of_mem_head? h.head
  have hne : g ≠ q := fun heq => hs.wf.queues.disjoint_running_waiting hgr (heq ▸ hqw)
  obtain ⟨bids, -, hseq⟩ :=
    ScheduleState.admitGroup_seq (hs.wf.single_of_mem (WellFormed.mem_waiting hqw)) rest
  refine ⟨?_, ?_, List.mem_append_left _ h.scheduled⟩
  · show (s.sched.running ++ [q]).head? = some g
    rw [List.head?_append, h.head]
    rfl
  · rw [hseq, if_neg hne]
    exact h.output

/-- The decode phase leaves the first running group first, if that can grow: what has been scheduled is
    not preempted. -/
theorem Contended.afterDecodes_front (h : Contended cache st) (hunfin : st.AllUnfinished)
    (hrun : st.running = g :: rest) (hfits : ¬ st.Starved) : FrontKept st g st.afterDecodes := by
  have hfin := h.allFinished_front hunfin hrun
  have hdecode := (h.decodeFits_iff hunfin hrun).2 hfits
  have hsched := Driver.decodeLoop_front hrun hfin hdecode
  have hready := h.ready hunfin
  obtain ⟨-, -, hhead, hout⟩ := Driver.afterDecodes_midLoop
    (P := fun s => s.sched.running.head? = some g ∧
      (s.sched.seq g).outputTokens = (st.seq g).outputTokens)
    h.wf ⟨Driver.MidLoop.begin hunfin hready.waiting, by
      show st.running.head? = some g
      rw [hrun]
      rfl, rfl⟩
    (fun s p rest hs _ hP hat hfin _ => by
      have hsingle := hs.wf.single_of_mem (WellFormed.mem_running hat.mem_running)
      obtain ⟨bids, -, hseq⟩ := ScheduleState.decodeGroup_seq hsingle hfin
      refine ⟨hP.1, ?_⟩
      rw [hseq]
      split
      · next heq =>
          rw [← heq]
          exact hP.2
      · exact hP.2)
    (fun s init v hswap => by
      rw [h.mode] at hswap
      cases hswap)
    (fun s init v _ hs hloop hP hat hlast => by
      have hvictim := hat.victim_not_scheduled h.wf.queues.nodup_running hlast
      rw [hat] at hsched
      have hne : g ≠ v := fun heq => hvictim (heq ▸ hsched)
      have hv : v ∈ s.sched.queued := WellFormed.mem_running (by rw [hlast]; simp)
      have hfin := hloop.unfinished v (hs.queued.mem_iff.1 hv)
      rw [ScheduleState.recomputeGroup_seq (hs.wf.single_of_mem hv) init hfin, if_neg hne]
      refine ⟨?_, hP.2⟩
      show init.head? = some g
      have hhead := hP.1
      rw [hlast] at hhead
      cases init with
      | nil => exact absurd (Option.some.inj hhead).symm hne
      | cons q init => exact hhead)
  exact ⟨hhead, hout, Driver.afterDecodes_front hrun hfin hdecode⟩

/-- **A call that can grow the first running group** schedules it and leaves it first. -/
theorem Contended.front_grows (h : Contended cache st) (hunfin : st.AllUnfinished)
    (hrun : st.running = g :: rest) (hfits : ¬ st.Starved) : FrontKept st g st.afterSwapIn := by
  refine (h.afterSwapIn (P := FrontKept st g) hunfin (h.afterDecodes_front hunfin hrun hfits)
    ?_).2.2.2
  intro s p rest hs _ _ hP hwait _
  exact hP.admitGroup hs hwait

/-! ## A starved call -/

/-- The groups `init` wait for a block, everything behind them has been admitted in this call. -/
structure Readmitted (cache : CacheConfig) (st : Scheduler) (init : List GroupPtr)
    (s : ScheduleState) : Prop where
  running : s.sched.running = init ++ s.output.scheduledGroups
  kept : ∀ q ∈ init, s.sched.seq q = st.seq q
  fresh : ∀ q ∈ s.output.scheduledGroups, (s.sched.seq q).outputTokens = [] ∧
    (s.sched.seq q).logicalBlocks.length ≤ blocksFor (s.sched.seq q).promptLen cache.blockSize

theorem Readmitted.admitGroup {q : GroupPtr} {init rest : List GroupPtr}
    (h : Readmitted cache st init s) (hs : st.MidStep s) (hloop : Driver.MidLoop st s)
    (hmid : MidContended cache st s) (hwait : s.sched.waiting = q :: rest) :
    Readmitted cache st init (s.admitGroup q rest) := by
  have hqw : q ∈ s.sched.waiting := by rw [hwait]; exact List.mem_cons_self ..
  have hnot : ∀ p ∈ s.sched.running, p ≠ q :=
    fun p hp heq => hs.wf.queues.disjoint_running_waiting hp (heq ▸ hqw)
  obtain ⟨own, hacc⟩ := hmid.recompute.accounted
  obtain ⟨hout, hblocks⟩ := hloop.waiting q hqw
  obtain ⟨bids, hlen, hseq⟩ :=
    ScheduleState.admitGroup_seq (hs.wf.single_of_mem (WellFormed.mem_waiting hqw)) rest
  have hrun : ∀ p ∈ s.sched.running, (s.admitGroup q rest).sched.seq p = s.sched.seq p := by
    intro p hp
    rw [hseq, if_neg (hnot p hp)]
  refine ⟨?_, ?_, ?_⟩
  · show s.sched.running ++ [q] = init ++ (s.output.scheduledGroups ++ [q])
    rw [h.running, List.append_assoc]
  · intro p hp
    rw [hrun p (by rw [h.running]; exact List.mem_append_left _ hp)]
    exact h.kept p hp
  · intro p hp
    rcases List.mem_append.1 hp with hp | hp
    · rw [hrun p (by rw [h.running]; exact List.mem_append_right _ hp)]
      exact h.fresh p hp
    · rw [List.mem_singleton.1 hp, hseq, if_pos rfl]
      refine ⟨hout, ?_⟩
      show ((s.sched.seq q).logicalBlocks ++ bids).length
        ≤ blocksFor (s.sched.seq q).promptLen cache.blockSize
      rw [hblocks, List.nil_append, hlen, SequenceData.numBlocksNeeded, hacc.blockSize,
        SequenceData.totalLen, SequenceData.outputLen, hout]
      exact Nat.le_refl _

section Starved

variable {init : List GroupPtr} {v : GroupPtr}

theorem Contended.afterDecodes_starved (h : Contended cache st) (hunfin : st.AllUnfinished)
    (hlast : st.running = init ++ [v]) (hstarved : st.Starved) :
    st.afterDecodes = st.beginSchedule.preempt ∧
      st.beginSchedule.preempt = st.beginSchedule.recomputeGroup v init := by
  obtain ⟨g, rest, hrun⟩ : ∃ g rest, st.running = g :: rest :=
    List.exists_cons_of_ne_nil (by rw [hlast]; simp)
  constructor
  · refine Driver.afterDecodes_blocked hrun (h.allFinished_front hunfin hrun) ?_
    rw [h.decodeFits_iff hunfin hrun]
    exact fun hnot => hnot hstarved
  · have hmode : st.beginSchedule.sched.config.preemptionMode = .recompute := h.mode
    rw [ScheduleState.preempt_eq (s := st.beginSchedule) hlast, hmode]

/-- The victim fits into the blocks it has just lost. -/
theorem Contended.victim_fits (h : Contended cache st) (hunfin : st.AllUnfinished)
    (hlast : st.running = init ++ [v]) (hstarved : st.Starved) :
    st.afterDecodes.prefillFits v := by
  obtain ⟨hs, hloop, -⟩ := h.afterDecodes hunfin
  obtain ⟨hblocked, hvictim⟩ := h.afterDecodes_starved hunfin hlast hstarved
  have hv : v ∈ st.running := by rw [hlast]; simp
  have hvw : v ∈ st.afterDecodes.sched.waiting := by
    rw [hblocked, hvictim]
    exact List.mem_cons_self ..
  have hfree : (st.afterDecodes.sched.blockManager.freeList .cuda).length
      = (st.blockManager.freeList .cuda).length + (st.seq v).logicalBlocks.length := by
    rw [hblocked]
    have hwf' := hs.wf
    rw [hblocked] at hwf'
    exact Memory.preempt_free (s := st.beginSchedule) h.memory h.wf hwf' hlast
      (fun q hq => hunfin q (WellFormed.mem_running hq))
  have hprefilled := h.prefilled v hv
  have hseqs := h.seqs
  rw [Driver.prefillFits_iff hs hloop hvw, hfree, h.memory.blockSize, hblocked]
  obtain ⟨htokens, hbudget⟩ := ScheduleState.preempt_budgets st.beginSchedule
  rw [htokens, hbudget]
  refine ⟨?_, (h.prompts v (WellFormed.mem_running hv)).2, by omega⟩
  show st.config.maxNumSeqs ≠ 0
  omega

/-- **A starved call** preempts the last running group and admits it again, before anything else. -/
theorem Contended.starved_call (h : Contended cache st) (hunfin : st.AllUnfinished)
    (hlast : st.running = init ++ [v]) (hstarved : st.Starved) :
    Readmitted cache st init st.afterSwapIn ∧
      ∃ others, st.afterSwapIn.output.scheduledGroups = v :: others := by
  obtain ⟨hblocked, hvictim⟩ := h.afterDecodes_starved hunfin hlast hstarved
  have hv : v ∈ st.queued := WellFormed.mem_running (by rw [hlast]; simp)
  constructor
  · refine (h.afterSwapIn (P := Readmitted cache st init) hunfin ?_ ?_).2.2.2
    · rw [hblocked, hvictim]
      refine ⟨(List.append_nil init).symm, ?_, fun q hq => absurd hq List.not_mem_nil⟩
      intro q hq
      have hne : q ≠ v := fun heq => h.wf.queues.not_mem_init hlast (heq ▸ hq)
      rw [ScheduleState.recomputeGroup_seq (s := st.beginSchedule) (h.wf.single_of_mem hv) init
        (hunfin v hv), if_neg hne]
      rfl
    · intro s p rest hs hloop hmid hP hwait _
      exact hP.admitGroup hs hloop hmid hwait
  · have hwait : st.beforePrefills.sched.waiting = v :: st.waiting := by
      rw [h.beforePrefills_eq hunfin, hblocked, hvictim]
      rfl
    have hfits : st.beforePrefills.prefillFits v := by
      rw [h.beforePrefills_eq hunfin]
      exact h.victim_fits hunfin hlast hstarved
    have hnone : st.afterDecodes.output.scheduledGroups = [] := by
      rw [hblocked, ScheduleState.preempt_scheduledGroups]
      rfl
    rw [afterSwapIn_scheduled, hnone, admissions, hwait, ScheduleState.prefillAdmissions,
      if_pos hfits]
    exact ⟨_, rfl⟩

end Starved

end Front

/-! ## One iteration -/

/-- One iteration of the loop, seen from the scheduler. -/
def advance (st : Scheduler) (toks : List TokenId) (now : TimePoint) : Scheduler :=
  (st.schedule.2.updateAfterDecode st.schedule.1 toks now).freeFinishedRequests

section Iteration

variable {toks : List TokenId}

theorem Contended.updated (h : Contended cache st) (hunfin : st.AllUnfinished)
    (hlen : st.schedule.1.scheduledGroups.length ≤ toks.length) (now : TimePoint) :
    Updated st.schedule.2 (st.schedule.2.updateAfterDecode st.schedule.1 toks now)
      st.schedule.1.scheduledGroups := by
  obtain ⟨hs, hloop, hmid⟩ := h.schedule hunfin
  refine updateAfterDecode_updated hs.wf hloop.nodup ?_ hlen now
  intro p hp
  have hq : p ∈ st.afterSwapIn.sched.queued := WellFormed.mem_running (hloop.scheduled p hp)
  have hmem : p ∈ st.queued := hs.queued.mem_iff.1 hq
  refine ⟨hq, hloop.unfinished p hmem, ?_⟩
  have hshort := h.short hmem (hunfin p hmem)
  have hlimit := (hmid.same p).outputLimit
  exact Nat.lt_of_le_of_lt (hmid.output p) (Nat.lt_of_lt_of_eq hshort hlimit.symm)

theorem Contended.updated_same (h : Contended cache st) (hunfin : st.AllUnfinished)
    (hlen : st.schedule.1.scheduledGroups.length ≤ toks.length) (now : TimePoint)
    (hp : p ∈ st.queued) : SamePrompt (st.groups p)
      ((st.schedule.2.updateAfterDecode st.schedule.1 toks now).groups p) := by
  obtain ⟨hs, -, hmid⟩ := h.schedule hunfin
  have hmem := hs.queued.mem_iff.2 hp
  exact (hmid.same p).trans ((h.updated hunfin hlen now).same p (hs.wf.stored p hmem))

theorem Contended.updateAfterDecode (h : Contended cache st) (hunfin : st.AllUnfinished)
    (hlen : st.schedule.1.scheduledGroups.length ≤ toks.length) (now : TimePoint) :
    Contended cache (st.schedule.2.updateAfterDecode st.schedule.1 toks now) := by
  obtain ⟨hs, hloop, hmid⟩ := h.schedule hunfin
  have hU := h.updated hunfin hlen now
  obtain ⟨own, hacc⟩ := hmid.recompute.accounted
  have hsame := fun p hp => h.updated_same hunfin hlen now (p := p) (hs.queued.mem_iff.1 hp)
  have hext : ∀ p ∈ st.afterSwapIn.sched.queued, Extends (st.afterSwapIn.sched.seq p)
      ((st.schedule.2.updateAfterDecode st.schedule.1 toks now).seq p) :=
    hs.wf.extends_updateAfterDecode st.schedule.1 toks now
  have hconfig : (st.schedule.2.updateAfterDecode st.schedule.1 toks now).config = st.config :=
    hs.config
  refine ⟨updateAfterDecode_wellFormed hs.wf _ toks now,
    ⟨own, hacc.updateAfterDecode hs.wf _ toks now⟩, ?_, ?_, ?_, ?_, ?_, ?_, ?_, ?_, ?_⟩
  · rw [hconfig]
    exact h.mode
  · rw [hconfig]
    exact h.policy
  · rw [hconfig]
    exact h.seqs
  · intro p hp
    rw [hconfig, Scheduler.seq, (hsame p hp).promptLen]
    exact h.prompts p (hs.queued.mem_iff.1 hp)
  · intro p hp
    rw [reserve, (hsame p hp).promptLen, (hsame p hp).outputLimit]
    exact h.alone p (hs.queued.mem_iff.1 hp)
  · intro p hp
    have hnot : p ∉ st.schedule.1.scheduledGroups := fun hsched =>
      hs.wf.queues.disjoint_running_waiting (hloop.scheduled p hsched) hp
    rw [Scheduler.seq, hU.other p hnot]
    exact (hloop.waiting p hp).1
  · intro p hp
    by_cases hsched : p ∈ st.schedule.1.scheduledGroups
    · rw [Scheduler.seq, (hU.accepted p hsched).1]
      exact Nat.le_add_left _ _
    · rw [Scheduler.seq, hU.other p hsched]
      exact hmid.settled p hp hsched
  · intro p hp
    have hq := WellFormed.mem_running hp
    have hlen' : ((st.schedule.2.updateAfterDecode st.schedule.1 toks now).seq p).promptLen
        = (st.afterSwapIn.sched.seq p).promptLen := congrArg List.length (hext p hq).promptTokens
    rw [(hext p hq).logicalBlocks, hlen']
    exact hmid.prefilled p hp
  · intro p hp
    by_cases hsched : p ∈ st.schedule.1.scheduledGroups
    · rcases (hU.accepted p hsched).2 with hshort | hserved
      · exact Or.inl ⟨WellFormed.mem_running (hloop.scheduled p hsched), hshort⟩
      · exact Or.inr hserved
    · rw [Scheduler.seq, hU.other p hsched]
      have hp' : p < st.next := Nat.lt_of_lt_of_eq hp hs.next
      by_cases hmem : p ∈ st.queued
      · refine Or.inl ⟨hs.queued.mem_iff.2 hmem, hloop.unfinished p hmem, ?_⟩
        have hshort := h.short hmem (hunfin p hmem)
        have hlimit := (hmid.same p).outputLimit
        exact Nat.lt_of_le_of_lt (hmid.output p) (Nat.lt_of_lt_of_eq hshort hlimit.symm)
      · have hframe : st.schedule.2.groups p = st.groups p := hmid.frame p hmem
        rw [hframe]
        rcases h.counts p hp' with ⟨hq, -⟩ | hserved
        · exact absurd hq hmem
        · exact Or.inr hserved

theorem Contended.advance (h : Contended cache st) (hunfin : st.AllUnfinished)
    (hlen : st.schedule.1.scheduledGroups.length ≤ toks.length) (now : TimePoint) :
    Contended cache (st.advance toks now) ∧ (st.advance toks now).AllUnfinished :=
  (h.updateAfterDecode hunfin hlen now).freeFinishedRequests

/-! ### What is left of the queues -/

theorem advance_groups (st : Scheduler) (toks : List TokenId) (now : TimePoint) :
    (st.advance toks now).groups
      = (st.schedule.2.updateAfterDecode st.schedule.1 toks now).groups := by
  rw [Scheduler.advance, freeFinishedRequests_eq]

theorem Contended.advance_same (h : Contended cache st) (hunfin : st.AllUnfinished)
    (hlen : st.schedule.1.scheduledGroups.length ≤ toks.length) (now : TimePoint)
    (hp : p ∈ st.queued) : SamePrompt (st.groups p) ((st.advance toks now).groups p) := by
  rw [advance_groups]
  exact h.updated_same hunfin hlen now hp

/-- What leaves the queues is what has been released. -/
theorem Contended.advance_length (h : Contended cache st) (hunfin : st.AllUnfinished)
    (toks : List TokenId) (now : TimePoint) :
    ((st.schedule.2.updateAfterDecode st.schedule.1 toks now).finishedIn
        st.schedule.2.running).length + (st.advance toks now).queued.length ≤ st.queued.length := by
  obtain ⟨hs, -, -⟩ := h.schedule hunfin
  have hperm := (queued_perm_released
    (st.schedule.2.updateAfterDecode st.schedule.1 toks now)).length_eq
  have hqueued : (st.schedule.2.updateAfterDecode st.schedule.1 toks now).queued.length
      = st.queued.length := hs.queued.length_eq
  rw [hqueued, List.length_append, List.length_append] at hperm
  have hadvance : (st.advance toks now).queued
      = (st.schedule.2.updateAfterDecode st.schedule.1 toks now).unfinishedIn
          (st.schedule.2.updateAfterDecode st.schedule.1 toks now).running
        ++ ((st.schedule.2.updateAfterDecode st.schedule.1 toks now).unfinishedIn
          (st.schedule.2.updateAfterDecode st.schedule.1 toks now).waiting
        ++ (st.schedule.2.updateAfterDecode st.schedule.1 toks now).swapped) := by
    rw [Scheduler.advance, freeFinishedRequests_eq]
    rfl
  have hrun : (st.schedule.2.updateAfterDecode st.schedule.1 toks now).running
      = st.schedule.2.running := rfl
  rw [hrun] at hperm hadvance
  rw [hadvance]
  omega

/-- What is unfinished after an iteration goes on running. -/
theorem Contended.advance_running (h : Contended cache st) (hunfin : st.AllUnfinished)
    (toks : List TokenId) (now : TimePoint) :
    (st.advance toks now).running
      = st.schedule.2.running.filter (fun q => !((st.advance toks now).seq q).isFinished) := by
  have hwf₁ : st.schedule.2.WellFormed := (h.schedule hunfin).1.wf
  have hwf := updateAfterDecode_wellFormed hwf₁ st.schedule.1 toks now
  have hrun : (st.advance toks now).running
      = (st.schedule.2.updateAfterDecode st.schedule.1 toks now).unfinishedIn
          st.schedule.2.running := by
    rw [Scheduler.advance, freeFinishedRequests_eq]
    rfl
  rw [hrun]
  refine List.filter_congr (fun q hq => ?_)
  rw [(hwf.single_of_mem (WellFormed.mem_running hq)).allFinished, Scheduler.seq, advance_groups]

/-! ### After a starved call -/

section Starved

variable {init : List GroupPtr} {v : GroupPtr}

/-- The groups that were not preempted are untouched. -/
theorem Contended.starved_kept (h : Contended cache st) (hunfin : st.AllUnfinished)
    (hlen : st.schedule.1.scheduledGroups.length ≤ toks.length) (now : TimePoint)
    (hlast : st.running = init ++ [v]) (hstarved : st.Starved) (hp : p ∈ init) :
    (st.advance toks now).seq p = st.seq p := by
  obtain ⟨hs, -, -⟩ := h.schedule hunfin
  obtain ⟨hre, -⟩ := h.starved_call hunfin hlast hstarved
  have hnot : p ∉ st.schedule.1.scheduledGroups := by
    intro hmem
    have hnodup := hs.wf.queues.nodup_running
    rw [hre.running, List.nodup_append] at hnodup
    exact hnodup.2.2 p hp p hmem rfl
  rw [Scheduler.seq, advance_groups, (h.updated hunfin hlen now).other p hnot]
  exact hre.kept p hp

/-- The victim had got a token before it was preempted, so one token does not finish it. -/
theorem Contended.victim_unfinished (h : Contended cache st) (hunfin : st.AllUnfinished)
    (hlen : st.schedule.1.scheduledGroups.length ≤ toks.length) (now : TimePoint)
    (hlast : st.running = init ++ [v]) (hstarved : st.Starved) :
    ((st.advance toks now).seq v).isFinished = false := by
  obtain ⟨hre, others, hsched⟩ := h.starved_call hunfin hlast hstarved
  have hv : v ∈ st.running := by rw [hlast]; simp
  have hmem : v ∈ st.queued := WellFormed.mem_running hv
  have hvsched : v ∈ st.schedule.1.scheduledGroups := by
    show v ∈ st.afterSwapIn.output.scheduledGroups
    rw [hsched]
    exact List.mem_cons_self ..
  obtain ⟨hnext, hcases⟩ := (h.updated hunfin hlen now).accepted v hvsched
  rw [Scheduler.seq, advance_groups]
  rcases hcases with ⟨hfin, -⟩ | ⟨-, hlimit⟩
  · exact hfin
  · have hzero : (st.schedule.2.groups v).seq.outputLen = 0 :=
      congrArg List.length (hre.fresh v hvsched).1
    have hstarted := h.started v hv
    have hshort := h.short hmem (hunfin v hmem)
    rw [(h.updated_same hunfin hlen now hmem).outputLimit, hnext, hzero] at hlimit
    omega

/-- **After a starved iteration** the queue starts as before; what runs from the victim on holds the
    blocks of its prompt and no more. -/
theorem Contended.starved_advance (h : Contended cache st) (hunfin : st.AllUnfinished)
    (hlen : st.schedule.1.scheduledGroups.length ≤ toks.length) (now : TimePoint)
    (hlast : st.running = init ++ [v]) (hstarved : st.Starved) :
    ∃ others, (st.advance toks now).running = init ++ v :: others ∧
      ∀ q ∈ v :: others, ((st.advance toks now).seq q).logicalBlocks.length
        ≤ blocksFor ((st.advance toks now).seq q).promptLen cache.blockSize := by
  obtain ⟨hs, hloop, -⟩ := h.schedule hunfin
  obtain ⟨hre, others, hsched⟩ := h.starved_call hunfin hlast hstarved
  have hrun : st.schedule.2.running = init ++ v :: others := by
    rw [← hsched]
    exact hre.running
  have hvictim := h.victim_unfinished hunfin hlen now hlast hstarved
  have hkeep : init.filter (fun q => !((st.advance toks now).seq q).isFinished) = init := by
    refine List.filter_eq_self.2 (fun q hq => ?_)
    rw [h.starved_kept hunfin hlen now hlast hstarved hq,
      hunfin q (WellFormed.mem_running (by rw [hlast]; exact List.mem_append_left _ hq))]
    rfl
  refine ⟨others.filter (fun q => !((st.advance toks now).seq q).isFinished), ?_, ?_⟩
  · rw [h.advance_running hunfin, hrun, List.filter_append, hkeep, List.filter_cons, hvictim]
    rfl
  · intro q hq
    have hqsched : q ∈ st.afterSwapIn.output.scheduledGroups := by
      rw [hsched]
      rcases List.mem_cons.1 hq with rfl | hq
      · exact List.mem_cons_self ..
      · exact List.mem_cons_of_mem _ (List.mem_filter.1 hq).1
    have hq₁ : q < st.schedule.2.next :=
      hs.wf.stored q (WellFormed.mem_running (hloop.scheduled q hqsched))
    have hwf₁ : st.schedule.2.WellFormed := hs.wf
    have hext := (updateAfterDecode_updates hwf₁ st.schedule.1 toks now hq₁).seq
    have hlen' : ((st.schedule.2.updateAfterDecode st.schedule.1 toks now).groups q).seq.promptLen
        = (st.schedule.2.groups q).seq.promptLen := congrArg List.length hext.promptTokens
    rw [Scheduler.seq, advance_groups, hlen', hext.logicalBlocks]
    exact (hre.fresh q hqsched).2

/-- A starved iteration that leaves the first group starved leads into the situation. -/
theorem Contended.stuck_of_starved_twice (h : Contended cache st) (hunfin : st.AllUnfinished)
    (hlen : st.schedule.1.scheduledGroups.length ≤ toks.length) (now : TimePoint)
    (hstarved : st.Starved) (hagain : (st.advance toks now).Starved) :
    (st.advance toks now).Stuck := by
  have hne : st.running ≠ [] := by
    obtain ⟨g, hg, -⟩ := hstarved
    intro hnil
    rw [hnil] at hg
    cases hg
  have hlast := (List.dropLast_concat_getLast hne).symm
  obtain ⟨others, hrun, hfresh⟩ := h.starved_advance hunfin hlen now hlast hstarved
  have hblockSize := (h.advance hunfin hlen now).1.memory.blockSize
  refine ⟨hagain, (st.running.getLast hne :: others).getLast (List.cons_ne_nil _ _), ?_, ?_⟩
  · rw [hrun, List.getLast?_append_of_ne_nil _ (List.cons_ne_nil _ _)]
    exact List.getLast?_eq_some_getLast _
  · rw [hblockSize]
    exact hfresh _ (List.getLast_mem _)

/-- A starved group stays first, as it is: it is not the victim. -/
theorem Contended.front_starved {g : GroupPtr} {rest : List GroupPtr} (h : Contended cache st)
    (hunfin : st.AllUnfinished) (hlen : st.schedule.1.scheduledGroups.length ≤ toks.length)
    (now : TimePoint) (hrun : st.running = g :: rest) (hstarved : st.Starved) :
    ∃ rest', (st.advance toks now).running = g :: rest' ∧ (st.advance toks now).seq g = st.seq g := by
  have hne := h.rest_ne_nil hunfin hrun hstarved
  have hlast : st.running = (g :: rest.dropLast) ++ [rest.getLast hne] := by
    rw [hrun, List.cons_append, List.dropLast_concat_getLast]
  obtain ⟨others, hrun', -⟩ := h.starved_advance hunfin hlen now hlast hstarved
  exact ⟨_, hrun', h.starved_kept hunfin hlen now hlast hstarved (List.mem_cons_self ..)⟩

/-- **The situation persists.** -/
theorem Contended.stuck_advance (h : Contended cache st) (hunfin : st.AllUnfinished)
    (hlen : st.schedule.1.scheduledGroups.length ≤ toks.length) (now : TimePoint)
    (hstuck : st.Stuck) : (st.advance toks now).Stuck := by
  obtain ⟨hstarved, v, hv, hblocks⟩ := hstuck
  refine h.stuck_of_starved_twice hunfin hlen now hstarved ?_
  obtain ⟨init, hlast⟩ := List.getLast?_eq_some_iff.1 hv
  obtain ⟨others, hrun, -⟩ := h.starved_advance hunfin hlen now hlast hstarved
  obtain ⟨hnext, hunfin'⟩ := h.advance hunfin hlen now
  have hkept := fun q => h.starved_kept hunfin hlen now (p := q) hlast hstarved
  obtain ⟨own, hacc⟩ := h.accounted
  obtain ⟨own', hacc'⟩ := hnext.accounted
  have hvr : v ∈ st.running := by rw [hlast]; simp
  have hvr' : v ∈ (st.advance toks now).running := by rw [hrun]; simp
  -- the victim is back in as many blocks as it held
  have hvictim : (st.seq v).logicalBlocks.length
      ≤ ((st.advance toks now).seq v).logicalBlocks.length := by
    have hsame : ((st.advance toks now).seq v).promptLen = (st.seq v).promptLen :=
      (h.advance_same hunfin hlen now (WellFormed.mem_running hvr)).promptLen
    have hprefilled := hnext.prefilled v hvr'
    rw [hsame] at hprefilled
    rw [hacc.blockSize] at hblocks
    exact Nat.le_trans hblocks hprefilled
  -- so no block has become free
  have hfree : ((st.advance toks now).blockManager.freeList .cuda).length
      ≤ (st.blockManager.freeList .cuda).length := by
    have hpool := hacc.free_add_held h.wf
    have hpool' := hacc'.free_add_held hnext.wf
    have hsum : (init.map (fun q => (held ((st.advance toks now).seq q)).length))
        = init.map (fun q => (held (st.seq q)).length) :=
      List.map_congr_left (fun q hq => by rw [hkept q hq])
    rw [hlast, List.map_append, List.sum_append, List.map_singleton, List.sum_singleton,
      held_of_unfinished (hunfin v (WellFormed.mem_running hvr))] at hpool
    rw [hrun, List.map_append, List.sum_append, List.map_cons, List.sum_cons, hsum,
      held_of_unfinished (hunfin' v (WellFormed.mem_running hvr'))] at hpool'
    omega
  -- and the first group needs what it needed
  obtain ⟨g, rest, hfirst⟩ : ∃ g rest, st.running = g :: rest :=
    List.exists_cons_of_ne_nil (List.ne_nil_of_mem hvr)
  obtain ⟨rest', hfirst', hsame⟩ := h.front_starved hunfin hlen now hfirst hstarved
  rw [starved_iff hfirst, missingBlocks, hacc.blockSize] at hstarved
  rw [starved_iff hfirst', missingBlocks, hacc'.blockSize, hsame]
  omega

end Starved

/-! ### The measure -/

/-- The tokens the first running group has still to get. -/
def frontRemaining (st : Scheduler) : Nat :=
  match st.running with
  | [] => 0
  | g :: _ => (st.groups g).outputLimit - (st.seq g).outputLen

theorem frontRemaining_cons {g : GroupPtr} {rest : List GroupPtr} (hrun : st.running = g :: rest) :
    st.frontRemaining = (st.groups g).outputLimit - (st.seq g).outputLen := by
  rw [frontRemaining, hrun]

/-- What decreases: first the number of requests, then what the first running group has still to get. An
    empty running queue and a starved group cost half a unit. -/
def rank (st : Scheduler) : ℕ ×ₗ ℕ :=
  toLex (2 * st.queued.length + if st.running = [] then 1 else 0,
    2 * st.frontRemaining + if st.Starved then 1 else 0)

/-- With nothing running, something is admitted; it stays or is finished at once. -/
theorem Contended.rank_idle (h : Contended cache st) (hunfin : st.AllUnfinished)
    (toks : List TokenId) (now : TimePoint) (hrun : st.running = []) (hne : st.queued ≠ []) :
    2 * (st.advance toks now).queued.length + (if (st.advance toks now).running = [] then 1 else 0)
      < 2 * st.queued.length + 1 := by
  obtain ⟨-, hloop, -⟩ := h.schedule hunfin
  obtain ⟨own, hacc⟩ := h.accounted
  have hwaiting : st.waiting ≠ [] := by
    intro hnil
    exact hne (by rw [queued, hrun, hnil, hacc.swapped]; rfl)
  have hsched : st.afterSwapIn.output.scheduledGroups ≠ [] := by
    refine ((h.ready hunfin).scheduled_iff_of_idle hrun ?_).2 hwaiting
    intro p hp
    have hfree := h.memory.free_of_idle h.wf hrun
    rw [h.memory.blockSize]
    exact (prompt_le_reserve _ _).trans ((h.alone p (WellFormed.mem_waiting hp)).trans hfree)
  have hcount := h.advance_length hunfin toks now
  split
  · next hempty =>
      -- everything that was admitted has been released
      obtain ⟨p, hp⟩ := List.exists_mem_of_ne_nil _ hsched
      have hprun : p ∈ st.schedule.2.running := hloop.scheduled p hp
      have hfinished : p ∈ (st.schedule.2.updateAfterDecode st.schedule.1 toks now).finishedIn
          st.schedule.2.running := by
        by_contra hnot
        have hstay : p ∈ (st.advance toks now).running := by
          rw [Scheduler.advance, freeFinishedRequests_eq]
          refine List.mem_filter.2 ⟨hprun, ?_⟩
          rw [finishedIn, List.mem_filter] at hnot
          simpa [hprun] using hnot
        rw [hempty] at hstay
        exact List.not_mem_nil hstay
      have hpos := List.length_pos_of_mem hfinished
      omega
  · omega

/-- A call that can grow the first running group gives it a token; the group stays first or is
    released. -/
theorem Contended.front_advance {g : GroupPtr} {rest : List GroupPtr} (h : Contended cache st)
    (hunfin : st.AllUnfinished) (hlen : st.schedule.1.scheduledGroups.length ≤ toks.length)
    (now : TimePoint) (hrun : st.running = g :: rest) (hfits : ¬ st.Starved) :
    (st.advance toks now).queued.length < st.queued.length ∨
      ∃ rest', (st.advance toks now).running = g :: rest' ∧
        ((st.advance toks now).seq g).outputLen = (st.seq g).outputLen + 1 := by
  have hfront := h.front_grows hunfin hrun hfits
  obtain ⟨r, hrun₁⟩ : ∃ r, st.schedule.2.running = g :: r := List.head?_eq_some_iff.1 hfront.head
  have hnext : ((st.advance toks now).seq g).outputLen = (st.seq g).outputLen + 1 := by
    have haccepted := ((h.updated hunfin hlen now).accepted g hfront.scheduled).1
    have hsame : (st.schedule.2.groups g).seq.outputLen = (st.seq g).outputLen :=
      congrArg List.length hfront.output
    rw [Scheduler.seq, advance_groups, haccepted, hsame]
  have hadvance := h.advance_running hunfin toks now
  rw [hrun₁, List.filter_cons] at hadvance
  by_cases hfin : ((st.advance toks now).seq g).isFinished = false
  · rw [if_pos (by rw [hfin]; rfl)] at hadvance
    exact Or.inr ⟨_, hadvance, hnext⟩
  · left
    have hcount := h.advance_length hunfin toks now
    have hwf₁ : st.schedule.2.WellFormed := (h.schedule hunfin).1.wf
    have hwf := updateAfterDecode_wellFormed hwf₁ st.schedule.1 toks now
    have hg : g ∈ st.schedule.2.running := by rw [hrun₁]; exact List.mem_cons_self ..
    have hfinished : g ∈ (st.schedule.2.updateAfterDecode st.schedule.1 toks now).finishedIn
        st.schedule.2.running := by
      refine (finishedIn_single hwf (fun _ => WellFormed.mem_running)).2 ⟨hg, ?_⟩
      rw [Scheduler.seq, advance_groups, Bool.not_eq_false] at hfin
      exact hfin
    have hpos := List.length_pos_of_mem hfinished
    omega

/-- **Progress.** An iteration with something pending, after which the loop is not stuck, decreases the
    rank. -/
theorem Contended.rank_advance_lt (h : Contended cache st) (hunfin : st.AllUnfinished)
    (hlen : st.schedule.1.scheduledGroups.length ≤ toks.length) (now : TimePoint)
    (hne : st.queued ≠ []) (hok : ¬ (st.advance toks now).Stuck) :
    (st.advance toks now).rank < st.rank := by
  have hcount := h.advance_length hunfin toks now
  rw [rank, rank, Prod.Lex.toLex_lt_toLex]
  cases hrun : st.running with
  | nil =>
      left
      have hidle := h.rank_idle hunfin toks now hrun hne
      simpa using hidle
  | cons g rest =>
      have hg : g ∈ st.queued := WellFormed.mem_running (by rw [hrun]; exact List.mem_cons_self ..)
      have hlimit := (h.advance_same hunfin hlen now hg).outputLimit
      have hshort := h.short hg (hunfin g hg)
      have hremaining := frontRemaining_cons hrun
      have hremaining' : ∀ rest', (st.advance toks now).running = g :: rest' →
          (st.advance toks now).frontRemaining
            = (st.groups g).outputLimit - ((st.advance toks now).seq g).outputLen := by
        intro rest' hrun'
        rw [frontRemaining_cons hrun', hlimit]
      by_cases hstarved : st.Starved
      · -- the first group keeps what it has, and is not starved again
        have hagain : ¬ (st.advance toks now).Starved := fun hagain =>
          hok (h.stuck_of_starved_twice hunfin hlen now hstarved hagain)
        obtain ⟨rest', hrun', hsame⟩ := h.front_starved hunfin hlen now hrun hstarved
        have hfront := hremaining' rest' hrun'
        rw [hsame] at hfront
        simp only [hrun', reduceCtorEq, if_false, if_pos hstarved, if_neg hagain]
        omega
      · rcases h.front_advance hunfin hlen now hrun hstarved with hless | ⟨rest', hrun', hnext⟩
        · left
          simp only [reduceCtorEq, if_false]
          split
          · omega
          · omega
        · have hfront := hremaining' rest' hrun'
          rw [hnext] at hfront
          simp only [hrun', reduceCtorEq, if_false, if_neg hstarved]
          split
          · omega
          · omega

end Iteration

/-! ## Arrivals -/

/-- Requests that arrive change nothing that is there. -/
theorem foldl_addRequest_frame (groups : List SequenceGroup) (st : Scheduler) :
    (groups.foldl Scheduler.addRequest st).running = st.running ∧
      (groups.foldl Scheduler.addRequest st).blockManager = st.blockManager ∧
      st.next ≤ (groups.foldl Scheduler.addRequest st).next ∧
      ∀ q < st.next, (groups.foldl Scheduler.addRequest st).groups q = st.groups q := by
  induction groups generalizing st with
  | nil => exact ⟨rfl, rfl, Nat.le_refl _, fun _ _ => rfl⟩
  | cons group rest ih =>
      obtain ⟨hrun, hbm, hnext, hgroups⟩ := ih (st.addRequest group)
      have hsucc : st.next ≤ (st.addRequest group).next := Nat.le_succ _
      refine ⟨hrun, hbm, Nat.le_trans hsucc hnext, ?_⟩
      intro q hq
      rw [List.foldl_cons, hgroups q (Nat.lt_of_lt_of_le hq hsucc)]
      exact st.groups_addRequest_of_lt group hq

/-- Requests that arrive do not help. -/
theorem Stuck.submit (h : st.Stuck) (hwf : st.WellFormed) (groups : List SequenceGroup) :
    (groups.foldl Scheduler.addRequest st).Stuck := by
  obtain ⟨hrun, hbm, -, hgroups⟩ := foldl_addRequest_frame groups st
  have hseq : ∀ q ∈ st.running, (groups.foldl Scheduler.addRequest st).seq q = st.seq q := fun q hq =>
    congrArg SequenceGroup.seq (hgroups q (hwf.stored q (WellFormed.mem_running hq)))
  obtain ⟨⟨g, hg, hstarved⟩, v, hv, hblocks⟩ := h
  refine ⟨⟨g, by rw [hrun]; exact hg, ?_⟩, v, by rw [hrun]; exact hv, ?_⟩
  · rw [hbm, hseq g (List.mem_of_mem_head? hg)]
    exact hstarved
  · rw [hbm, hseq v (List.mem_of_getLast? hv)]
    exact hblocks

theorem hasPending_eq_false_iff (st : Scheduler) : st.hasPending = false ↔ st.queued = [] := by
  simp only [hasPending, queued, Bool.or_eq_false_iff, Bool.not_eq_false', List.isEmpty_iff,
    List.append_eq_nil_iff]
  constructor
  · rintro ⟨⟨hwait, hrun⟩, hswap⟩
    exact ⟨hrun, hwait, hswap⟩
  · rintro ⟨hrun, hwait, hswap⟩
    exact ⟨⟨hwait, hrun⟩, hswap⟩

theorem new_contended {config : SchedulerConfig} (cache : CacheConfig)
    (hmode : config.preemptionMode = .recompute) (hpolicy : config.policy = .fcfs)
    (hseqs : 1 ≤ config.maxNumSeqs) :
    Contended cache (Scheduler.new config (BlockManager.new cache)) := by
  refine ⟨new_wellFormed config _, new_accounted config cache, hmode, hpolicy, hseqs, ?_, ?_, ?_, ?_,
    ?_, ?_⟩
  · exact fun p hp => absurd hp List.not_mem_nil
  · exact fun p hp => absurd hp List.not_mem_nil
  · exact fun p hp => absurd hp List.not_mem_nil
  · exact fun p hp => absurd hp List.not_mem_nil
  · exact fun p hp => absurd hp List.not_mem_nil
  · exact fun p hp => absurd hp (Nat.not_lt_zero p)

end Scheduler

namespace Driver

/-! ## The loop -/

/-- A request with one sequence as its constructor leaves it and a non-empty prompt, which could be served
    alone. -/
def Servable (config : SchedulerConfig) (cache : CacheConfig) (group : SequenceGroup) : Prop :=
  group.IsNew ∧ group.seq.promptTokens ≠ [] ∧ Satisfiable config cache group

instance (config : SchedulerConfig) (cache : CacheConfig) (group : SequenceGroup) :
    Decidable (Servable config cache group) :=
  inferInstanceAs (Decidable (_ ∧ _ ∧ _))

/-- What holds between two iterations, with the requests `gs` handed in. -/
structure Contending (config : SchedulerConfig) (cache : CacheConfig) (gs : List SequenceGroup)
    (st : Scheduler) : Prop where
  contended : Contended cache st
  unfinished : st.AllUnfinished
  recorded : Recorded gs st
  configured : st.config = config

variable {config : SchedulerConfig} {cache : CacheConfig} {gs : List SequenceGroup} {st : Scheduler}

theorem Contending.submit (h : Contending config cache gs st) (new : List SequenceGroup)
    (hids : ((gs ++ new).map SequenceGroup.requestId).Nodup)
    (hnew : ∀ g ∈ new, Servable config cache g) :
    Contending config cache (gs ++ new) (new.foldl Scheduler.addRequest st) := by
  induction new generalizing gs st with
  | nil =>
      rw [List.append_nil]
      exact h
  | cons group rest ih =>
      obtain ⟨hisNew, hprompt, hsat⟩ := hnew group (List.mem_cons_self ..)
      have hfresh := h.recorded.fresh h.contended.wf hisNew hids
      have hunfin : (st.addRequest group).AllUnfinished := by
        intro q hq
        rw [Scheduler.seq]
        rcases List.mem_cons.1 ((st.addRequest_queued group).mem_iff.1 hq) with rfl | hq
        · rw [st.groups_addRequest_self group, hisNew.seq_eq]
          rfl
        · rw [st.groups_addRequest_of_lt group (h.contended.wf.stored q hq)]
          exact h.unfinished q hq
      have hnext : Contending config cache (gs ++ [group]) (st.addRequest group) :=
        ⟨h.contended.addRequest hfresh hprompt (by rw [h.configured]; exact hsat), hunfin,
          h.recorded.addRequest group, h.configured⟩
      have hrest := ih hnext (by rw [List.append_assoc]; exact hids)
        (fun g hg => hnew g (List.mem_cons_of_mem _ hg))
      rw [List.append_assoc] at hrest
      exact hrest

/-- The engine returns a token at least for each scheduled group. -/
theorem Contending.sample_length (h : Contending config cache gs st)
    {sample : DecodeBatch → List TokenId}
    (hsample : ∀ batch, (sample batch).length = batch.entries.length) :
    st.schedule.1.scheduledGroups.length
      ≤ (sample (buildBatch st.schedule.2.groups st.schedule.1).1).length := by
  obtain ⟨hs, hloop, -⟩ := h.contended.schedule h.unfinished
  have hqueued : ∀ p ∈ st.schedule.1.scheduledGroups, p ∈ st.schedule.2.queued :=
    fun p hp => WellFormed.mem_running (hloop.scheduled p hp)
  have hold : ∀ p ∈ st.schedule.1.scheduledGroups, p ∈ st.queued :=
    fun p hp => hs.queued.mem_iff.1 (hqueued p hp)
  rw [hsample]
  refine length_le_buildBatch hs.wf hqueued (fun p hp => hloop.unfinished p (hold p hp)) ?_
  intro p hp
  have hprompt : (st.schedule.2.seq p).promptTokens = (st.seq p).promptTokens :=
    hloop.prompts p (hold p hp)
  rw [hprompt]
  exact List.length_pos_iff.1 (h.contended.prompts p (hold p hp)).1

theorem Contending.advance (h : Contending config cache gs st) {toks : List TokenId}
    (hlen : st.schedule.1.scheduledGroups.length ≤ toks.length) (now : TimePoint) :
    Contending config cache gs (st.advance toks now) := by
  obtain ⟨hs, -, hmid⟩ := h.contended.schedule h.unfinished
  obtain ⟨hnext, hunfin⟩ := h.contended.advance h.unfinished hlen now
  have hU := h.contended.updated h.unfinished hlen now
  refine ⟨hnext, hunfin, ?_, ?_⟩
  · rw [Scheduler.advance, freeFinishedRequests_eq]
    refine h.recorded.of_same hs.next (fun p hp => ?_)
    exact (hmid.same p).trans (hU.same p (Nat.lt_of_lt_of_eq hp hs.next.symm))
  · rw [Scheduler.advance, freeFinishedRequests_eq]
    exact hs.config.trans h.configured

/-- The tokens the engine returns in iteration `i`. -/
def sampled (w : Workload) (config : SchedulerConfig) (cache : CacheConfig) (i : Nat) :
    List TokenId :=
  w.sample i (buildBatch (submitted w config cache i).sched.schedule.2.groups
    (submitted w config cache i).sched.schedule.1).1

theorem loop_succ_sched (w : Workload) (config : SchedulerConfig) (cache : CacheConfig) (i : Nat) :
    (loop w config cache (i + 1)).sched
      = (submitted w config cache i).sched.advance (sampled w config cache i) (w.clock i) := rfl

theorem submitted_of_le (w : Workload) (config : SchedulerConfig) (cache : CacheConfig) {i : Nat}
    (hi : w.arrivals.length ≤ i) : submitted w config cache i = loop w config cache i := by
  rw [submitted, w.arriving_of_le hi]
  rfl

/-- With nothing pending and nothing arriving, nothing happens. -/
theorem submitted_succ_idle {w : Workload} {i : Nat} (hi : w.arrivals.length ≤ i + 1)
    (hidle : (submitted w config cache i).sched.queued = []) :
    (submitted w config cache (i + 1)).sched = (submitted w config cache i).sched := by
  obtain ⟨hrun, hrest⟩ := List.append_eq_nil_iff.1 hidle
  obtain ⟨hwait, hswap⟩ := List.append_eq_nil_iff.1 hrest
  rw [submitted_of_le w config cache hi]
  exact iteration_idle hrun hwait hswap (w.sample i) (w.clock i)

/-- **The loop serves every request**: after finitely many iterations nothing is pending and every request
    has ended with `max(1, max_tokens)` tokens; and once all requests are there, no state of the
    scheduler with something pending recurs. -/
def Drains (w : Workload) (config : SchedulerConfig) (cache : CacheConfig) : Prop :=
  (∃ n, w.arrivals.length ≤ n ∧ (loop w config cache n).sched.hasPending = false ∧
    ∀ g ∈ w.arrivals.flatten, ∃ p < (loop w config cache n).sched.next,
      ((loop w config cache n).sched.groups p).requestId = g.requestId ∧
      ((loop w config cache n).sched.seq p).promptTokens = g.seq.promptTokens ∧
      ((loop w config cache n).sched.seq p).status = .finishedLength ∧
      ((loop w config cache n).sched.seq p).outputLen = g.outputLimit) ∧
  ∀ i j, w.arrivals.length ≤ i + 1 → i < j →
    (submitted w config cache i).sched.hasPending = true →
    (submitted w config cache j).sched ≠ (submitted w config cache i).sched

section Loop

variable {w : Workload} (hmode : config.preemptionMode = .recompute)
  (hpolicy : config.policy = .fcfs) (hseqs : 1 ≤ config.maxNumSeqs)
  (hids : (w.arrivals.flatten.map SequenceGroup.requestId).Nodup)
  (hreq : ∀ g ∈ w.arrivals.flatten, Servable config cache g)
include hids hreq

theorem contending_submitted {i : Nat}
    (h : Contending config cache (w.arrivals.take i).flatten (loop w config cache i).sched) :
    Contending config cache (w.arrivals.take (i + 1)).flatten
      (submitted w config cache i).sched := by
  have hsub := w.take_flatten_sublist (i + 1)
  rw [← w.take_flatten_succ] at hsub ⊢
  rw [submitted, submit_sched]
  refine h.submit (w.arriving i) ((hsub.map _).nodup hids) (fun g hg => hreq g ?_)
  exact hsub.subset (List.mem_append_right _ hg)

include hmode hpolicy hseqs

theorem contending_loop (i : Nat) :
    Contending config cache (w.arrivals.take i).flatten (loop w config cache i).sched := by
  induction i with
  | zero =>
      refine ⟨new_contended cache hmode hpolicy hseqs, ?_, ⟨?_, ?_⟩, rfl⟩
      · intro p hp
        exact absurd hp List.not_mem_nil
      · intro g hg
        exact absurd hg List.not_mem_nil
      · intro p hp
        exact absurd hp (Nat.not_lt_zero p)
  | succ i ih =>
      have hat := contending_submitted hids hreq ih
      rw [loop_succ_sched]
      exact hat.advance (hat.sample_length (w.sample_length i)) (w.clock i)

theorem contending_at (i : Nat) :
    Contending config cache (w.arrivals.take (i + 1)).flatten (submitted w config cache i).sched :=
  contending_submitted hids hreq (contending_loop hmode hpolicy hseqs hids hreq i)

/-! ### Stuck for ever -/

theorem stuck_from {i j : Nat} (hij : i ≤ j) (hstuck : (submitted w config cache i).sched.Stuck) :
    (submitted w config cache j).sched.Stuck := by
  induction j, hij using Nat.le_induction with
  | base => exact hstuck
  | succ j _ ih =>
      have hat := contending_at hmode hpolicy hseqs hids hreq j
      have hnext := hat.contended.stuck_advance hat.unfinished
        (hat.sample_length (w.sample_length j)) (w.clock j) ih
      rw [submitted, submit_sched, loop_succ_sched]
      exact hnext.submit
        (hat.advance (hat.sample_length (w.sample_length j)) (w.clock j)).contended.wf _

/-- **A stuck loop never ends**, and had not ended before. -/
theorem not_drains_of_stuck {i : Nat} (hstuck : (submitted w config cache i).sched.Stuck) :
    ¬ Drains w config cache := by
  rintro ⟨⟨n, hn, hidle, -⟩, -⟩
  rw [hasPending_eq_false_iff, ← submitted_of_le w config cache hn] at hidle
  have hrunning : ∀ {k : Nat}, (submitted w config cache k).sched.Stuck →
      (submitted w config cache k).sched.queued ≠ [] := by
    intro k hk hnil
    obtain ⟨⟨g, hg, -⟩, -⟩ := hk
    have hmem : g ∈ (submitted w config cache k).sched.queued :=
      WellFormed.mem_running (List.mem_of_mem_head? hg)
    rw [hnil] at hmem
    exact List.not_mem_nil hmem
  rcases Nat.le_total i n with hin | hni
  · exact hrunning (stuck_from hmode hpolicy hseqs hids hreq hin hstuck) hidle
  · -- with nothing pending the loop would have stayed as it was
    have hsame : (submitted w config cache i).sched = (submitted w config cache n).sched := by
      clear hstuck
      induction i, hni using Nat.le_induction with
      | base => rfl
      | succ i hni ih =>
          rw [← ih]
          exact submitted_succ_idle (by omega) (by rw [ih]; exact hidle)
    exact hrunning hstuck (by rw [hsame]; exact hidle)

/-! ### Otherwise it ends -/

variable (hok : ∀ i, ¬ (submitted w config cache i).sched.Stuck)
include hok

theorem rank_succ_lt {i : Nat} (hi : w.arrivals.length ≤ i + 1)
    (hne : (submitted w config cache i).sched.queued ≠ []) :
    (submitted w config cache (i + 1)).sched.rank < (submitted w config cache i).sched.rank := by
  have hat := contending_at hmode hpolicy hseqs hids hreq i
  have hstuck := hok (i + 1)
  rw [submitted_of_le w config cache hi, loop_succ_sched] at hstuck ⊢
  exact hat.contended.rank_advance_lt hat.unfinished (hat.sample_length (w.sample_length i))
    (w.clock i) hne hstuck

theorem rank_lt_of_lt {i j : Nat} (hi : w.arrivals.length ≤ i + 1) (hij : i < j)
    (hne : (submitted w config cache i).sched.queued ≠ []) :
    (submitted w config cache j).sched.rank < (submitted w config cache i).sched.rank := by
  induction j, hij using Nat.le_induction with
  | base => exact rank_succ_lt hmode hpolicy hseqs hids hreq hok hi hne
  | succ j hij ih =>
      have hj : w.arrivals.length ≤ j + 1 := by omega
      by_cases hidle : (submitted w config cache j).sched.queued = []
      · rw [submitted_succ_idle hj hidle]
        exact ih
      · exact (rank_succ_lt hmode hpolicy hseqs hids hreq hok hj hidle).trans ih

/-- The queues run empty: the rank cannot decrease for ever. -/
theorem exists_idle (r : ℕ ×ₗ ℕ) {i : Nat} (hi : w.arrivals.length ≤ i)
    (hr : (submitted w config cache i).sched.rank = r) :
    ∃ n, i ≤ n ∧ (submitted w config cache n).sched.queued = [] := by
  induction r using WellFoundedLT.induction generalizing i with
  | ind r ih =>
      by_cases hidle : (submitted w config cache i).sched.queued = []
      · exact ⟨i, Nat.le_refl i, hidle⟩
      · have hlt := rank_succ_lt hmode hpolicy hseqs hids hreq hok (Nat.le_succ_of_le hi) hidle
        rw [hr] at hlt
        obtain ⟨n, hn, hdone⟩ := ih _ hlt (Nat.le_succ_of_le hi) rfl
        exact ⟨n, Nat.le_trans (Nat.le_succ i) hn, hdone⟩

theorem drains_of_not_stuck : Drains w config cache := by
  constructor
  · obtain ⟨n, hn, hidle⟩ := exists_idle hmode hpolicy hseqs hids hreq hok _
      (Nat.le_refl w.arrivals.length) rfl
    have hat := contending_loop hmode hpolicy hseqs hids hreq n
    rw [submitted_of_le w config cache hn] at hidle
    refine ⟨n, hn, (hasPending_eq_false_iff _).2 hidle, ?_⟩
    intro g hg
    obtain ⟨p, hp, hsame⟩ := hat.recorded.stored g
      (by rw [List.take_of_length_le hn]; exact hg)
    rcases hat.contended.counts p hp with ⟨hmem, -⟩ | ⟨hstatus, hlen⟩
    · rw [hidle] at hmem
      exact absurd hmem List.not_mem_nil
    · exact ⟨p, hp, hsame.requestId, hsame.promptTokens, hstatus, hlen.trans hsame.outputLimit⟩
  · intro i j hi hij hpending heq
    have hne : (submitted w config cache i).sched.queued ≠ [] := by
      intro hnil
      rw [(hasPending_eq_false_iff _).2 hnil] at hpending
      cases hpending
    have hlt := rank_lt_of_lt hmode hpolicy hseqs hids hreq hok hi hij hne
    rw [heq] at hlt
    exact lt_irrefl _ hlt

end Loop

/-- **When the loop ends.** With requests that could each be served alone, the loop in recompute mode
    under FCFS serves all of them if and only if no call of `schedule()` finds the first running group
    short of blocks while the last one holds no more than the blocks of its prompt. -/
theorem drains_iff_never_stuck (config : SchedulerConfig) (cache : CacheConfig) (w : Workload)
    (hmode : config.preemptionMode = .recompute) (hpolicy : config.policy = .fcfs)
    (hseqs : 1 ≤ config.maxNumSeqs)
    (hids : (w.arrivals.flatten.map SequenceGroup.requestId).Nodup)
    (hreq : ∀ g ∈ w.arrivals.flatten, Servable config cache g) :
    Drains w config cache ↔ ∀ i, ¬ (submitted w config cache i).sched.Stuck := by
  constructor
  · intro hdrains i hstuck
    exact not_drains_of_stuck hmode hpolicy hseqs hids hreq hstuck hdrains
  · exact drains_of_not_stuck hmode hpolicy hseqs hids hreq

/-- An engine that samples the tokens it is fed. -/
def echo (_ : Nat) (batch : DecodeBatch) : List TokenId := batch.entries.map (fun e => e.token)

theorem echo_length (i : Nat) (batch : DecodeBatch) :
    (echo i batch).length = batch.entries.length :=
  List.length_map ..

/-- Two requests with prompts and limits of two tokens, handed in together. -/
def twoEqual : Workload where
  arrivals := [[.new 1 [7, 7] { maxTokens := 2 }, .new 2 [8, 8] { maxTokens := 2 }]]
  sample := echo
  clock i := i
  sample_length := echo_length

/-- In a pool that holds one of them at its full length, neither is ever served. -/
theorem twoEqual_livelock :
    (∀ g ∈ twoEqual.arrivals.flatten, Servable { preemptionMode := .recompute } tightPool g) ∧
      ¬ Drains twoEqual { preemptionMode := .recompute } tightPool := by
  refine ⟨by decide, ?_⟩
  exact not_drains_of_stuck (i := 1) rfl rfl (by decide) (by decide) (by decide) (by decide)

/-- Two requests with prompts of one token, which share four blocks of one token. -/
def twoSharing : Workload where
  arrivals := [[.new 1 [7] { maxTokens := 3 }, .new 2 [8] { maxTokens := 3 }]]
  sample := echo
  clock i := i
  sample_length := echo_length

def sharedPool : CacheConfig := { numGpuBlocks := 4, numCpuBlocks := 0, blockSize := 1 }

/-- In the third iteration the first request finds no block, but the second one then holds two blocks
    and goes back into one of them. -/
theorem twoSharing_served :
    (submitted twoSharing { preemptionMode := .recompute } sharedPool 2).sched.Starved ∧
      Drains twoSharing { preemptionMode := .recompute } sharedPool := by
  -- from the seventh iteration on nothing is pending
  have hidle : ∀ i, (submitted twoSharing { preemptionMode := .recompute } sharedPool (i + 6)).sched
      = (submitted twoSharing { preemptionMode := .recompute } sharedPool 6).sched := by
    intro i
    induction i with
    | zero => rfl
    | succ i ih =>
        refine Eq.trans ?_ ih
        exact submitted_succ_idle (by show 1 ≤ i + 6 + 1; omega) (by rw [ih]; decide +kernel)
  have hok : ∀ i, ¬ (submitted twoSharing { preemptionMode := .recompute } sharedPool i).sched.Stuck := by
    intro i
    match i with
    | 0 => decide +kernel
    | 1 => decide +kernel
    | 2 => decide +kernel
    | 3 => decide +kernel
    | 4 => decide +kernel
    | 5 => decide +kernel
    | i + 6 =>
        rw [hidle]
        decide +kernel
  exact ⟨by decide +kernel, (drains_iff_never_stuck { preemptionMode := .recompute } sharedPool twoSharing rfl
    rfl (by decide) (by decide) (by decide)).2 hok⟩

end Driver

end CacheFlow
