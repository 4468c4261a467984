import CacheFlow.Lib.Run
import CacheFlow.BatchManager

set_option autoImplicit false

/-! # Rules for the phases of `schedule()`

A scheduling step is a sequence of five kinds of moves: grow a running group, preempt the last
running group, sort the waiting queue, admit the front of the waiting queue, swap in the front of the
swapped queue. The rules below reduce a property of a whole step to one obligation per move, with
the checks the code has made at that point as hypotheses.

The last section is the state machine of the public interface, over which the runs of the other
modules are taken. -/

namespace CacheFlow

open Scheduler ScheduleState

/-- A group put at the end of a queue is the only new one there. -/
theorem mem_of_mem_concat {l : List GroupPtr} {p q : GroupPtr} (h : q ∈ l ++ [p]) (hqp : q ≠ p) :
    q ∈ l := by
  rcases List.mem_append.1 h with h | h
  · exact h
  · exact absurd (List.mem_singleton.1 h) hqp

namespace ScheduleState

/-! ## Loop rules -/

/-- The decode loop ends with every group visited, or in front of one that fails its checks. -/
theorem decodeLoop_induct {P : List GroupPtr → ScheduleState → Prop}
    (hskip : ∀ p rest s, (s.sched.groups p).allFinished = true → P (p :: rest) s → P rest s)
    (hdecode : ∀ p rest s, (s.sched.groups p).allFinished = false → s.decodeFits p →
      P (p :: rest) s → P rest (s.decodeGroup p))
    (l : List GroupPtr) (s : ScheduleState) (h : P l s) :
    ((decodeLoop l s).2 = false ∧ P [] (decodeLoop l s).1) ∨
    ((decodeLoop l s).2 = true ∧ ∃ p rest, P (p :: rest) (decodeLoop l s).1 ∧
      ((decodeLoop l s).1.sched.groups p).allFinished = false ∧
      ¬ (decodeLoop l s).1.decodeFits p) := by
  induction l generalizing s with
  | nil => exact Or.inl ⟨rfl, h⟩
  | cons p rest ih =>
      rw [decodeLoop]
      by_cases hfin : (s.sched.groups p).allFinished = true
      · rw [if_pos hfin]
        exact ih s (hskip p rest s hfin h)
      · rw [if_neg hfin]
        have hfin' : (s.sched.groups p).allFinished = false := by simpa using hfin
        by_cases hfits : s.decodeFits p
        · rw [if_pos hfits]
          exact ih _ (hdecode p rest s hfin' hfits h)
        · rw [if_neg hfits]
          exact Or.inr ⟨rfl, p, rest, h, hfin', hfits⟩

/-- The groups the prefill loop admits, each with the state it is admitted in. -/
def prefillAdmissions : List GroupPtr → ScheduleState → List (ScheduleState × GroupPtr)
  | [], _ => []
  | p :: rest, s =>
    if s.prefillFits p then (s, p) :: prefillAdmissions rest (s.admitGroup p rest) else []

/-- The prefill loop stops in front of the first group that fails its checks. -/
theorem prefillLoop_induct {P : List GroupPtr → ScheduleState → Prop} (l : List GroupPtr)
    (s : ScheduleState)
    (hfront : ∀ p rest s', (s', p) ∈ prefillAdmissions l s → s'.prefillFits p → P (p :: rest) s' →
      P rest (s'.admitGroup p rest))
    (h : P l s) : ∃ rest, P rest (prefillLoop l s) := by
  induction l generalizing s with
  | nil => exact ⟨[], h⟩
  | cons p rest ih =>
      rw [prefillLoop]
      by_cases hfits : s.prefillFits p
      · have hadm : prefillAdmissions (p :: rest) s
            = (s, p) :: prefillAdmissions rest (s.admitGroup p rest) := if_pos hfits
        rw [if_pos hfits]
        refine ih _ (fun q rest' s' hmem => ?_) ?_
        · exact hfront q rest' s' (by rw [hadm]; exact List.mem_cons_of_mem _ hmem)
        · exact hfront p rest s (by rw [hadm]; exact List.mem_cons_self ..) hfits h
      · rw [if_neg hfits]
        exact ⟨p :: rest, h⟩

/-- What the loop preserves holds at every admission, of the queue the admitted group is the front
    of. -/
theorem prefillAdmissions_induct {P : List GroupPtr → ScheduleState → Prop} (l : List GroupPtr)
    (s : ScheduleState)
    (hfront : ∀ p rest s', (s', p) ∈ prefillAdmissions l s → s'.prefillFits p → P (p :: rest) s' →
      P rest (s'.admitGroup p rest))
    (h : P l s) {p : GroupPtr} {s' : ScheduleState} (hmem : (s', p) ∈ prefillAdmissions l s) :
    ∃ rest, P (p :: rest) s' := by
  induction l generalizing s with
  | nil => exact absurd hmem List.not_mem_nil
  | cons q rest ih =>
      by_cases hfits : s.prefillFits q
      · have hadm : prefillAdmissions (q :: rest) s
            = (s, q) :: prefillAdmissions rest (s.admitGroup q rest) := if_pos hfits
        rw [hadm] at hmem hfront
        rcases List.mem_cons.1 hmem with heq | hmem
        · obtain ⟨rfl, rfl⟩ := Prod.mk.inj heq
          exact ⟨rest, h⟩
        · exact ih _ (fun r rest' s' hr => hfront r rest' s' (List.mem_cons_of_mem _ hr))
            (hfront q rest s (List.mem_cons_self ..) hfits h) hmem
      · have hadm : prefillAdmissions (q :: rest) s = [] := if_neg hfits
        rw [hadm] at hmem
        exact absurd hmem List.not_mem_nil

/-- The swap-in loop stops in front of the first group that fails its checks. -/
theorem swapInLoop_induct {P : List GroupPtr → ScheduleState → Prop}
    (hswap : ∀ p rest s, s.swapInFits p → P (p :: rest) s → P rest (s.swapInGroup p rest))
    (l : List GroupPtr) (s : ScheduleState) (h : P l s) : ∃ rest, P rest (swapInLoop l s) := by
  induction l generalizing s with
  | nil => exact ⟨[], h⟩
  | cons p rest ih =>
      rw [swapInLoop]
      by_cases hfits : s.swapInFits p
      · rw [if_pos hfits]
        exact ih _ (hswap p rest s hfits h)
      · rw [if_neg hfits]
        exact ⟨p :: rest, h⟩

/-- The prefill loop schedules what it admits. -/
theorem prefillLoop_scheduled (l : List GroupPtr) (s : ScheduleState) :
    (prefillLoop l s).output.scheduledGroups
      = s.output.scheduledGroups ++ (prefillAdmissions l s).map Prod.snd := by
  induction l generalizing s with
  | nil => simp [prefillLoop, prefillAdmissions]
  | cons p rest ih =>
      rw [prefillLoop, prefillAdmissions]
      split
      · rw [ih]
        simp [admitGroup, charge]
      · simp

theorem mem_of_prefillAdmissions {l : List GroupPtr} {s s' : ScheduleState} {p : GroupPtr}
    (h : (s', p) ∈ prefillAdmissions l s) : p ∈ l := by
  induction l generalizing s with
  | nil => exact absurd h List.not_mem_nil
  | cons q rest ih =>
      rw [prefillAdmissions] at h
      split at h
      · rcases List.mem_cons.1 h with heq | h
        · rw [(Prod.mk.inj heq).2]
          exact List.mem_cons_self ..
        · exact List.mem_cons_of_mem _ (ih h)
      · exact absurd h List.not_mem_nil

/-- The groups admitted are a first part of the queue. -/
theorem prefillAdmissions_prefix (l : List GroupPtr) (s : ScheduleState) :
    ((prefillAdmissions l s).map Prod.snd) <+: l := by
  induction l generalizing s with
  | nil => exact List.prefix_refl _
  | cons p rest ih =>
      rw [prefillAdmissions]
      split
      · exact (List.prefix_cons_inj p).2 (ih _)
      · exact List.nil_prefix

/-! ## Preemption -/

/-- `preempt` on a non-empty running queue takes its last group, in one of the two modes. -/
theorem preempt_eq {s : ScheduleState} {init : List GroupPtr} {v : GroupPtr}
    (h : s.sched.running = init ++ [v]) :
    s.preempt = match s.sched.config.preemptionMode with
      | .swap => s.swapOutGroup v init
      | .recompute => s.recomputeGroup v init := by
  cases hmode : s.sched.config.preemptionMode <;> simp [preempt, h, hmode]

/-- Preempting schedules nothing and charges nothing. -/
@[simp] theorem preempt_scheduledGroups (s : ScheduleState) :
    s.preempt.output.scheduledGroups = s.output.scheduledGroups := by
  unfold preempt
  split
  · rfl
  · split <;> rfl

@[simp] theorem preempt_budgets (s : ScheduleState) :
    s.preempt.budgetTokens = s.budgetTokens ∧ s.preempt.budgetSeqs = s.budgetSeqs := by
  unfold preempt
  split
  · exact ⟨rfl, rfl⟩
  · split <;> exact ⟨rfl, rfl⟩

end ScheduleState

namespace Scheduler

/-- The decode phase of a call starting in `st` calls `preempt` in the state `s`. -/
def PreemptsAt (st : Scheduler) (s : ScheduleState) : Prop :=
  decodeLoop st.running st.beginSchedule = (s, true)

/-- The admissions of the call starting in `st`. -/
def admissions (st : Scheduler) : List (ScheduleState × GroupPtr) :=
  prefillAdmissions st.beforePrefills.sched.waiting st.beforePrefills

/-! ## Sorting -/

/-- Sorting permutes the waiting queue and changes nothing else. -/
theorem sortWaitingQueue_eq (st : Scheduler) :
    ∃ w, w.Perm st.waiting ∧ st.sortWaitingQueue = { st with waiting := w } := by
  unfold sortWaitingQueue
  split
  · exact ⟨st.waiting, List.Perm.refl _, rfl⟩
  · exact ⟨_, List.perm_insertionSort _ _, rfl⟩
  · exact ⟨_, List.perm_insertionSort _ _, rfl⟩

theorem sortWaitingQueue_nil {st : Scheduler} (h : st.waiting = []) :
    st.sortWaitingQueue = st := by
  obtain ⟨w, hperm, heq⟩ := st.sortWaitingQueue_eq
  rw [h] at hperm
  rw [heq, hperm.eq_nil, ← h]

/-- The order of the waiting queue depends on the policy, the limits and the priorities alone. -/
theorem sortWaitingQueue_congr {st st' : Scheduler} (hpolicy : st'.config.policy = st.config.policy)
    (hwaiting : st'.waiting = st.waiting)
    (hsampling : ∀ p, (st'.groups p).sampling = (st.groups p).sampling)
    (hpriority : ∀ p, (st'.groups p).priority = (st.groups p).priority) :
    st'.sortWaitingQueue.waiting = st.sortWaitingQueue.waiting := by
  simp only [sortWaitingQueue, hpolicy]
  cases st.config.policy with
  | fcfs => exact hwaiting
  | shortestRemaining => simp only [hwaiting, hsampling]
  | priority => simp only [hwaiting, hpriority]

/-! ## The decode loop -/

/-- The decode loop of the call starting in `st` is in the state `s` with the groups `l` still to
    visit; the groups scheduled so far stand before them. -/
def DecodesAt (st : Scheduler) (l : List GroupPtr) (s : ScheduleState) : Prop :=
  s.sched.running = st.running ∧
    ∃ pre, st.running = pre ++ l ∧ s.output.scheduledGroups.Sublist pre

namespace DecodesAt

variable {st : Scheduler} {s : ScheduleState} {p : GroupPtr} {rest : List GroupPtr}

theorem begin (st : Scheduler) : st.DecodesAt st.running st.beginSchedule :=
  ⟨rfl, [], rfl, List.Sublist.refl _⟩

theorem skip (h : st.DecodesAt (p :: rest) s) : st.DecodesAt rest s := by
  obtain ⟨hrun, pre, hsplit, hsub⟩ := h
  exact ⟨hrun, pre ++ [p], by simpa using hsplit, hsub.trans (List.sublist_append_left _ _)⟩

theorem decode (h : st.DecodesAt (p :: rest) s) : st.DecodesAt rest (s.decodeGroup p) := by
  obtain ⟨hrun, pre, hsplit, hsub⟩ := h
  exact ⟨hrun, pre ++ [p], by simpa using hsplit, hsub.append (List.Sublist.refl [p])⟩

theorem mem_running (h : st.DecodesAt (p :: rest) s) : p ∈ s.sched.running := by
  obtain ⟨hrun, pre, hsplit, -⟩ := h
  rw [hrun, hsplit]
  exact List.mem_append_right _ (List.mem_cons_self ..)

/-- A group still to visit has not been scheduled. -/
theorem not_scheduled {l : List GroupPtr} {q : GroupPtr} (h : st.DecodesAt l s)
    (hnodup : st.running.Nodup) (hq : q ∈ l) : q ∉ s.output.scheduledGroups := by
  obtain ⟨-, pre, hsplit, hsub⟩ := h
  intro hmem
  rw [hsplit] at hnodup
  exact (List.nodup_append.1 hnodup).2.2 q (hsub.subset hmem) q hq rfl

end DecodesAt

/-- The decode loop ends with every group visited, or in front of one that fails its checks. -/
theorem decodeLoop_invariant {P : ScheduleState → Prop} (st : Scheduler)
    (hbegin : P st.beginSchedule)
    (hdecode : ∀ s p rest, P s → st.DecodesAt (p :: rest) s →
      (s.sched.groups p).allFinished = false → s.decodeFits p → P (s.decodeGroup p)) :
    P (decodeLoop st.running st.beginSchedule).1 ∧
    (((decodeLoop st.running st.beginSchedule).2 = false ∧
        st.DecodesAt [] (decodeLoop st.running st.beginSchedule).1) ∨
      ∃ p rest, st.DecodesAt (p :: rest) (decodeLoop st.running st.beginSchedule).1 ∧
        ((decodeLoop st.running st.beginSchedule).1.sched.groups p).allFinished = false ∧
        ¬ (decodeLoop st.running st.beginSchedule).1.decodeFits p) := by
  have hrule := decodeLoop_induct (P := fun l s => P s ∧ st.DecodesAt l s)
    (fun p rest s _ h => ⟨h.1, h.2.skip⟩)
    (fun p rest s hfin hfits h => ⟨hdecode s p rest h.1 h.2 hfin hfits, h.2.decode⟩)
    st.running st.beginSchedule ⟨hbegin, DecodesAt.begin st⟩
  rcases hrule with ⟨hflag, h, hat⟩ | ⟨-, p, rest, ⟨h, hat⟩, hfin, hfits⟩
  · exact ⟨h, Or.inl ⟨hflag, hat⟩⟩
  · exact ⟨h, Or.inr ⟨p, rest, hat, hfin, hfits⟩⟩

/-- A preemption happens in front of an unfinished group that fails its checks. -/
theorem PreemptsAt.split {st : Scheduler} {s : ScheduleState} (h : st.PreemptsAt s) :
    ∃ p rest, st.DecodesAt (p :: rest) s ∧ (s.sched.groups p).allFinished = false ∧
      ¬ s.decodeFits p := by
  have hrule := st.decodeLoop_invariant (P := fun _ => True) trivial (fun _ _ _ _ _ _ _ => trivial)
  rw [h] at hrule
  rcases hrule.2 with ⟨hflag, -⟩ | hfail
  · cases hflag
  · exact hfail

/-- The victim of a preemption has not been scheduled in the same call: it is the group whose checks
    failed or stands behind it. -/
theorem PreemptsAt.victim_not_scheduled {st : Scheduler} {s : ScheduleState} (h : st.PreemptsAt s)
    (hnodup : st.running.Nodup) {init : List GroupPtr} {v : GroupPtr}
    (hv : s.sched.running = init ++ [v]) : v ∉ s.output.scheduledGroups := by
  obtain ⟨p, rest, hat, -⟩ := h.split
  refine hat.not_scheduled hnodup ?_
  obtain ⟨hrun, pre, hsplit, -⟩ := hat
  have hlast : (pre ++ p :: rest).getLast? = some v := by
    rw [← hsplit, ← hrun, hv, List.getLast?_concat]
  rw [List.getLast?_append_of_ne_nil _ (List.cons_ne_nil p rest)] at hlast
  exact List.mem_of_getLast? hlast

/-- The phase ends with the preemption. -/
theorem PreemptsAt.afterDecodes {st : Scheduler} {s : ScheduleState} (hat : st.PreemptsAt s) :
    st.afterDecodes = s.preempt := by
  have hloop : decodeLoop st.beginSchedule.sched.running st.beginSchedule = (s, true) := hat
  rw [Scheduler.afterDecodes, scheduleDecodes, hloop]
  rfl

/-! ## The rule for a whole step -/

/-- A property of the state the decode loop ends in, which a preemption there preserves, holds after the
    phase. -/
theorem afterDecodes_of_loop {P : ScheduleState → Prop} (st : Scheduler)
    (hloop : P (decodeLoop st.running st.beginSchedule).1)
    (hpreempt : ∀ s init v, P s → st.PreemptsAt s → s.sched.running = init ++ [v] → P s.preempt) :
    P st.afterDecodes := by
  simp only [afterDecodes, scheduleDecodes]
  split
  · next hflag =>
      have hat : st.PreemptsAt (decodeLoop st.running st.beginSchedule).1 :=
        Prod.ext rfl hflag
      obtain ⟨p, rest, ⟨hrun, pre, hsplit, -⟩, -⟩ := hat.split
      have hne : st.running ≠ [] := by rw [hsplit]; simp
      refine hpreempt _ st.running.dropLast (st.running.getLast hne) hloop hat ?_
      exact hrun.trans (List.dropLast_concat_getLast hne).symm
  · exact hloop

/-- **Rule for the decode phase.** A property that holds when `schedule()` starts, and that growing a
    group and preempting preserve, holds after the phase. -/
theorem afterDecodes_invariant {P : ScheduleState → Prop} (st : Scheduler)
    (hbegin : P st.beginSchedule)
    (hdecode : ∀ s p rest, P s → st.DecodesAt (p :: rest) s →
      (s.sched.groups p).allFinished = false → s.decodeFits p → P (s.decodeGroup p))
    (hpreempt : ∀ s init v, P s → st.PreemptsAt s → s.sched.running = init ++ [v] → P s.preempt) :
    P st.afterDecodes :=
  st.afterDecodes_of_loop (st.decodeLoop_invariant hbegin hdecode).1 hpreempt

/-- **Rule for the prefill phase.** A property that holds when the waiting queue has been sorted, and
    that admitting preserves, holds after the phase. -/
theorem afterPrefills_invariant {P : ScheduleState → Prop} (st : Scheduler)
    (hsorted : P st.beforePrefills)
    (hfront : ∀ s p rest, P s → (s, p) ∈ st.admissions → s.sched.waiting = p :: rest →
      s.prefillFits p → P (s.admitGroup p rest)) :
    P st.afterPrefills := by
  unfold afterPrefills
  split
  · next hnil =>
      -- nothing to sort
      have hsame : st.beforePrefills = st.afterDecodes := by
        rw [beforePrefills, sortWaitingQueue_nil hnil]
      rwa [hsame] at hsorted
  · obtain ⟨rest, h, -⟩ := prefillLoop_induct
      (P := fun l s => P s ∧ s.sched.waiting = l)
      st.beforePrefills.sched.waiting st.beforePrefills
      (fun p rest s hmem hfits h => ⟨hfront s p rest h.1 hmem h.2 hfits, rfl⟩)
      ⟨hsorted, rfl⟩
    exact h

/-- **Rule for the admissions.** A property that holds when the waiting queue has been sorted, and that
    admitting preserves, holds at every admission, and the group admitted is the front of the queue. -/
theorem admissions_invariant {P : ScheduleState → Prop} (st : Scheduler)
    (hsorted : P st.beforePrefills)
    (hfront : ∀ s p rest, P s → (s, p) ∈ st.admissions → s.sched.waiting = p :: rest →
      s.prefillFits p → P (s.admitGroup p rest)) {s : ScheduleState} {p : GroupPtr}
    (hmem : (s, p) ∈ st.admissions) : P s ∧ ∃ rest, s.sched.waiting = p :: rest := by
  obtain ⟨rest, hP, hwait⟩ := prefillAdmissions_induct
    (P := fun l s => P s ∧ s.sched.waiting = l)
    st.beforePrefills.sched.waiting st.beforePrefills
    (fun p rest s hmem hfits h => ⟨hfront s p rest h.1 hmem h.2 hfits, rfl⟩)
    ⟨hsorted, rfl⟩ hmem
  exact ⟨hP, rest, hwait⟩

/-- **Rule for the swap-in phase.** A property that holds after the prefill phase, and that swapping in
    preserves, holds when the phases end. -/
theorem afterSwapIn_of_prefills {P : ScheduleState → Prop} (st : Scheduler)
    (hprefills : P st.afterPrefills)
    (hswap : ∀ s p rest, P s → s.sched.swapped = p :: rest → s.swapInFits p →
      P (s.swapInGroup p rest)) :
    P st.afterSwapIn := by
  simp only [afterSwapIn]
  split
  · obtain ⟨rest, h, -⟩ := swapInLoop_induct
      (P := fun l s => P s ∧ s.sched.swapped = l)
      (fun p rest s hfits h => ⟨hswap s p rest h.1 h.2 hfits, rfl⟩)
      st.afterPrefills.sched.swapped st.afterPrefills ⟨hprefills, rfl⟩
    exact h
  · exact hprefills

/-- **Rule for the other phases.** A property that holds when the waiting queue has been sorted, and
    that admitting and swapping in preserve, holds when the phases end. -/
theorem afterSwapIn_invariant_of {P : ScheduleState → Prop} (st : Scheduler)
    (hsorted : P st.beforePrefills)
    (hfront : ∀ s p rest, P s → (s, p) ∈ st.admissions → s.sched.waiting = p :: rest →
      s.prefillFits p → P (s.admitGroup p rest))
    (hswap : ∀ s p rest, P s → s.sched.swapped = p :: rest → s.swapInFits p →
      P (s.swapInGroup p rest)) :
    P st.afterSwapIn :=
  st.afterSwapIn_of_prefills (st.afterPrefills_invariant hsorted hfront) hswap

/-- **Rule for one step.** A property of the state that holds when `schedule()` starts its phases and
    that every move preserves, given what the code has checked, holds when the phases end. -/
theorem afterSwapIn_invariant {P : ScheduleState → Prop} (st : Scheduler)
    (hbegin : P st.beginSchedule)
    (hdecode : ∀ s p rest, P s → st.DecodesAt (p :: rest) s →
      (s.sched.groups p).allFinished = false → s.decodeFits p → P (s.decodeGroup p))
    (hpreempt : ∀ s init v, P s → st.PreemptsAt s → s.sched.running = init ++ [v] → P s.preempt)
    (hsort : ∀ s, P s → P { s with sched := s.sched.sortWaitingQueue })
    (hfront : ∀ s p rest, P s → (s, p) ∈ st.admissions → s.sched.waiting = p :: rest →
      s.prefillFits p → P (s.admitGroup p rest))
    (hswap : ∀ s p rest, P s → s.sched.swapped = p :: rest → s.swapInFits p →
      P (s.swapInGroup p rest)) :
    P st.afterSwapIn :=
  st.afterSwapIn_invariant_of (hsort _ (st.afterDecodes_invariant hbegin hdecode hpreempt)) hfront
    hswap

/-- A call schedules what the decode phase grows, then what the prefill phase admits; what is swapped in
    is not scheduled. -/
theorem afterSwapIn_scheduled (st : Scheduler) :
    st.afterSwapIn.output.scheduledGroups
      = st.afterDecodes.output.scheduledGroups ++ st.admissions.map Prod.snd := by
  have hprefills : st.afterPrefills.output.scheduledGroups
      = st.afterDecodes.output.scheduledGroups ++ st.admissions.map Prod.snd := by
    unfold afterPrefills
    split
    · next hnil =>
        have hwaiting : st.beforePrefills.sched.waiting = [] := by
          rw [beforePrefills, sortWaitingQueue_nil hnil]
          exact hnil
        simp [admissions, hwaiting, prefillAdmissions]
    · exact prefillLoop_scheduled st.beforePrefills.sched.waiting st.beforePrefills
  simp only [afterSwapIn]
  split
  · obtain ⟨-, h⟩ := swapInLoop_induct
      (P := fun _ s => s.output.scheduledGroups = st.afterPrefills.output.scheduledGroups)
      (fun _ _ _ _ h => h) st.afterPrefills.sched.swapped st.afterPrefills rfl
    exact h.trans hprefills
  · exact hprefills

/-- The groups a call schedules are running when it ends. -/
theorem schedule_scheduled_running {st : Scheduler} (hnodup : st.running.Nodup) :
    ∀ q ∈ st.schedule.1.scheduledGroups, q ∈ st.schedule.2.running := by
  refine st.afterSwapIn_invariant
    (P := fun s => ∀ q ∈ s.output.scheduledGroups, q ∈ s.sched.running) ?_ ?_ ?_ ?_ ?_ ?_
  · exact fun _ hq => absurd hq List.not_mem_nil
  · intro s p rest hs hat _ _ q hq
    rcases List.mem_append.1 hq with hq | hq
    · exact hs q hq
    · rw [List.mem_singleton.1 hq]
      exact hat.mem_running
  · intro s init v hs hat hv
    have hinit : ∀ q ∈ s.output.scheduledGroups, q ∈ init := by
      intro q hq
      have hrun := hs q hq
      rw [hv] at hrun
      refine mem_of_mem_concat hrun ?_
      rintro rfl
      exact hat.victim_not_scheduled hnodup hv hq
    rw [preempt_eq hv]
    cases s.sched.config.preemptionMode with
    | swap => exact hinit
    | recompute => exact hinit
  · intro s hs
    obtain ⟨w, -, hw⟩ := s.sched.sortWaitingQueue_eq
    rw [hw]
    exact hs
  · intro s p rest hs _ _ _ q hq
    rcases List.mem_append.1 hq with hq | hq
    · exact List.mem_append_left _ (hs q hq)
    · exact List.mem_append_right _ hq
  · intro s p rest hs _ _ q hq
    exact List.mem_append_left _ (hs q hq)

/-- No phase touches `request_map_`, the configuration or the memory beyond the groups stored. -/
theorem schedule_frame (st : Scheduler) :
    st.schedule.2.requestMap = st.requestMap ∧ st.schedule.2.next = st.next ∧
      st.schedule.2.config = st.config := by
  refine st.afterSwapIn_invariant (P := fun s => s.sched.requestMap = st.requestMap ∧
    s.sched.next = st.next ∧ s.sched.config = st.config) ⟨rfl, rfl, rfl⟩ ?_ ?_ ?_ ?_ ?_
  · intro s p rest h _ _ _
    exact h
  · intro s init v h _ hv
    rw [preempt_eq hv]
    cases s.sched.config.preemptionMode <;> exact h
  · intro s h
    obtain ⟨w, -, hw⟩ := s.sched.sortWaitingQueue_eq
    rw [hw]
    exact h
  · intro s p rest h _ _ _
    exact h
  · intro s p rest h _ _
    exact h

/-! ## Releasing finished groups -/

/-- The groups of a queue that `free_finished_requests` destroys. -/
def finishedIn (st : Scheduler) (q : List GroupPtr) : List GroupPtr :=
  q.filter (fun p => (st.groups p).allFinished)

/-- The groups of a queue that stay. -/
def unfinishedIn (st : Scheduler) (q : List GroupPtr) : List GroupPtr :=
  q.filter (fun p => !(st.groups p).allFinished)

/-- The block manager after every sequence of the groups `ps` has been released. -/
def releaseGroups (groups : GroupPtr → SequenceGroup) (bm : BlockManager) (ps : List GroupPtr) :
    BlockManager :=
  ps.foldl (fun bm p => (groups p).sequences.foldl (fun bm seq => bm.freeBlocks seq.seqId) bm) bm

/-- `request_map_` without the ids of the groups `ps`. -/
def eraseRequests (groups : GroupPtr → SequenceGroup) (m : AList (fun _ : SeqId => GroupPtr))
    (ps : List GroupPtr) : AList (fun _ : SeqId => GroupPtr) :=
  ps.foldl (fun m p => m.erase (groups p).requestId) m

theorem removeFinished_eq (st : Scheduler) (q : List GroupPtr) :
    st.removeFinished q = (st.unfinishedIn q,
      { st with
        blockManager := releaseGroups st.groups st.blockManager (st.finishedIn q),
        requestMap := eraseRequests st.groups st.requestMap (st.finishedIn q) }) := by
  induction q generalizing st with
  | nil => rfl
  | cons p rest ih =>
      by_cases hfin : (st.groups p).allFinished = true
      · simp [removeFinished, hfin, ih, unfinishedIn, finishedIn, releaseGroups, eraseRequests]
      · simp [removeFinished, hfin, ih, unfinishedIn, finishedIn]

/-- `free_finished_requests` as one update: it releases the finished groups of the running queue,
    then those of the waiting queue, and does not look at the swapped queue. -/
theorem freeFinishedRequests_eq (st : Scheduler) :
    st.freeFinishedRequests =
      { st with
        running := st.unfinishedIn st.running,
        waiting := st.unfinishedIn st.waiting,
        blockManager := releaseGroups st.groups st.blockManager
          (st.finishedIn st.running ++ st.finishedIn st.waiting),
        requestMap := eraseRequests st.groups st.requestMap
          (st.finishedIn st.running ++ st.finishedIn st.waiting) } := by
  simp only [freeFinishedRequests, removeFinished_eq, releaseGroups, eraseRequests,
    List.foldl_append]
  rfl

theorem lookup_eraseRequests (groups : GroupPtr → SequenceGroup) (ps : List GroupPtr)
    (m : AList (fun _ : SeqId => GroupPtr)) (id : SeqId) :
    (eraseRequests groups m ps).lookup id
      = if ∃ p ∈ ps, (groups p).requestId = id then none else m.lookup id := by
  induction ps generalizing m with
  | nil => simp [eraseRequests]
  | cons p rest ih =>
      have hstep : eraseRequests groups m (p :: rest)
          = eraseRequests groups (m.erase (groups p).requestId) rest := rfl
      rw [hstep, ih]
      by_cases hrest : ∃ q ∈ rest, (groups q).requestId = id
      · obtain ⟨q, hq, hid⟩ := hrest
        rw [if_pos ⟨q, hq, hid⟩, if_pos ⟨q, List.mem_cons_of_mem _ hq, hid⟩]
      · rw [if_neg hrest]
        by_cases hp : (groups p).requestId = id
        · subst hp
          rw [if_pos ⟨p, List.mem_cons_self .., rfl⟩, AList.lookup_erase]
        · have hnone : ¬ ∃ q ∈ p :: rest, (groups q).requestId = id := by
            rintro ⟨q, hq, hid⟩
            rcases List.mem_cons.1 hq with rfl | hq
            · exact hp hid
            · exact hrest ⟨q, hq, hid⟩
          rw [if_neg hnone, AList.lookup_erase_ne (Ne.symm hp)]

/-! ## The state machine of the public interface -/

inductive Op
  | addRequest (group : SequenceGroup)
  | abortRequest (requestId : SeqId)
  | schedule
  | updateAfterDecode (out : SchedulerOutput) (newTokens : List TokenId) (now : TimePoint)
  | freeFinishedRequests

/-- `update_after_decode` works on the scheduler's groups. -/
def updateAfterDecode (st : Scheduler) (out : SchedulerOutput) (newTokens : List TokenId)
    (now : TimePoint) : Scheduler :=
  { st with groups := BatchManager.updateAfterDecode st.groups out newTokens now }

def step (st : Scheduler) : Op → Scheduler
  | .addRequest group => st.addRequest group
  | .abortRequest requestId => st.abortRequest requestId
  | .schedule => st.schedule.2
  | .updateAfterDecode out newTokens now => st.updateAfterDecode out newTokens now
  | .freeFinishedRequests => st.freeFinishedRequests

end Scheduler

end CacheFlow
