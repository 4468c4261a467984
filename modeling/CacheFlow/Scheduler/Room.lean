import CacheFlow.Lib.Queue
import CacheFlow.Scheduler.Census
import CacheFlow.Scheduler.Groups

set_option autoImplicit false

/-! # The room a call has for its queues

After the decode phase a `schedule()` call serves two queues from the front: the sorted waiting queue,
then the swapped queue. Both loops compare what a group asks for with the same three numbers, the two
budgets and the length of the GPU free list, and subtract it. This file says so: `Room` is the three
numbers, `Demand` what a group asks for, and the groups that enter the running queue in a call are
those `Queue.Rule.served` counts (`admissions_eq_admits`, `swappedIn_eq_resumes`). Which groups enter is
thereby a computation on the sizes of the requests, for groups with any number of sequences.

The last section asks what becomes of the victim of a preemption. It is put into one of the two queues,
and nothing keeps the same call from serving it. -/

namespace CacheFlow

open Scheduler ScheduleState

/-- The two budgets and the free GPU blocks. -/
structure Room where
  seqs : Nat
  tokens : Nat
  blocks : Nat
  deriving DecidableEq, Repr

/-- What serving a group asks for: tokens of the budget, blocks that must be free and blocks taken. -/
structure Demand where
  tokens : Nat
  blocks : Nat
  taken : Nat
  deriving DecidableEq, Repr

namespace Room

def Fits (r : Room) (d : Demand) : Prop :=
  r.seqs ≠ 0 ∧ d.tokens ≤ r.tokens ∧ d.blocks ≤ r.blocks

instance (r : Room) (d : Demand) : Decidable (r.Fits d) := inferInstanceAs (Decidable (_ ∧ _ ∧ _))

def spend (r : Room) (d : Demand) : Room :=
  { seqs := r.seqs - 1, tokens := r.tokens - d.tokens, blocks := r.blocks - d.taken }

/-- How both loops serve their queue. -/
def rule : Queue.Rule Room Demand where
  Fits := Fits
  spend := spend

/-- Every group served takes one place of the sequence budget. -/
theorem served_add_seqs (r : Room) (ds : List Demand) :
    rule.served r ds + (rule.left r ds).seqs = r.seqs := by
  have hsum := Queue.Rule.sum_served_add_left (R := rule) (m := Room.seqs) (w := fun _ => 1)
    (fun r d hfits => Nat.sub_add_cancel (Nat.pos_of_ne_zero hfits.1)) r ds
  have hle : rule.served r ds ≤ ds.length := Queue.Rule.served_le_length r ds
  simpa [Nat.min_eq_left hle] using hsum

/-- What the groups served ask for is taken from the token budget. -/
theorem tokens_add_left (r : Room) (ds : List Demand) :
    ((ds.take (rule.served r ds)).map Demand.tokens).sum + (rule.left r ds).tokens = r.tokens :=
  Queue.Rule.sum_served_add_left (R := rule) (m := Room.tokens)
    (fun _ _ hfits => Nat.sub_add_cancel hfits.2.1) r ds

end Room

/-! ## Demands -/

/-- What `schedule_prefills` asks for a group: the prompt and the blocks of its first sequence; it takes
    as many blocks for every sequence. -/
def Scheduler.prefillDemand (bm : BlockManager) (g : SequenceGroup) : Demand :=
  { tokens := g.promptLen,
    blocks := prefillBlocks bm g,
    taken := prefillBlocks bm g * g.sequences.length }

/-- What `try_swap_in` asks for a group: a token for each unfinished sequence and all their blocks. -/
def Scheduler.swapInDemand (g : SequenceGroup) : Demand :=
  { tokens := g.numUnfinished, blocks := swapInBlockCount g, taken := swapInBlockCount g }

namespace ScheduleState

/-- What the call has left. -/
def room (s : ScheduleState) : Room :=
  { seqs := s.budgetSeqs,
    tokens := s.budgetTokens,
    blocks := s.sched.blockManager.numFreeGpuBlocks }

/-- The waiting queue as the prefill phase finds it. -/
def sortedWaiting (s : ScheduleState) : List GroupPtr := s.sched.sortWaitingQueue.waiting

/-- What the groups of a queue ask `schedule_prefills` for. -/
def prefillDemands (s : ScheduleState) (q : List GroupPtr) : List Demand :=
  q.map (fun p => prefillDemand s.sched.blockManager (s.sched.groups p))

/-- What the groups of a queue ask `try_swap_in` for. -/
def swapInDemands (s : ScheduleState) (q : List GroupPtr) : List Demand :=
  q.map (fun p => swapInDemand (s.sched.groups p))

/-- The groups of the waiting queue that find room when the decode phase ends in `s`. -/
def admits (s : ScheduleState) : List GroupPtr :=
  s.sortedWaiting.take (Room.rule.served s.room (s.prefillDemands s.sortedWaiting))

/-- What they leave. -/
def roomAfterPrefills (s : ScheduleState) : Room :=
  Room.rule.left s.room (s.prefillDemands s.sortedWaiting)

/-- How many groups of the swapped queue find room in what is left. Without a token left none of them is
    looked at. -/
def numResumed (s : ScheduleState) : Nat :=
  if 0 < s.roomAfterPrefills.tokens then
    Room.rule.served s.roomAfterPrefills (s.swapInDemands s.sched.swapped)
  else 0

/-- What is left when the call ends. -/
def roomAfterSwapIn (s : ScheduleState) : Room :=
  if 0 < s.roomAfterPrefills.tokens then
    Room.rule.left s.roomAfterPrefills (s.swapInDemands s.sched.swapped)
  else s.roomAfterPrefills

/-- The groups of the swapped queue that find room. -/
def resumes (s : ScheduleState) : List GroupPtr := s.sched.swapped.take s.numResumed

end ScheduleState

/-! ## Free blocks -/

namespace BlockManager

/-- Whatever `allocate_block` returns, it takes the top of the free list. -/
theorem allocateBlock_numFree (bm : BlockManager) (s : SeqId) :
    (bm.allocateBlock s .cuda).2.numFreeGpuBlocks = bm.numFreeGpuBlocks - 1 := by
  cases hfl : bm.freeList .cuda with
  | nil =>
      rw [allocateBlock_nil bm hfl]
      simp [numFreeGpuBlocks, hfl]
  | cons b rest =>
      simp only [allocateBlock, popFree, hfl, numFreeGpuBlocks]
      split <;> simp

end BlockManager

/-- The GPU blocks taken by a loop over sequences add up. -/
theorem threadSequences_numFree {σ : Type} {f : σ → SequenceData → SequenceData × σ}
    (free : σ → Nat) (taken : SequenceData → Nat) (hf : ∀ st x, free (f st x).2 = free st - taken x)
    (seqs : List SequenceData) (st : σ) :
    free (threadSequences f st seqs).2 = free st - (seqs.map taken).sum := by
  induction seqs generalizing st with
  | nil => simp [threadSequences]
  | cons x xs ih =>
      rw [threadSequences]
      simp only [List.map_cons, List.sum_cons, ih, hf]
      rw [Nat.sub_sub]

theorem allocateFor_numFree (bm : BlockManager) (x : SequenceData) (n : Nat) :
    (allocateFor bm x n).2.numFreeGpuBlocks = bm.numFreeGpuBlocks - n := by
  induction n generalizing bm x with
  | zero => rfl
  | succ n ih =>
      rw [allocateFor, ih, BlockManager.allocateBlock_numFree, Nat.sub_sub, Nat.add_comm 1 n]

theorem swapInBlocks_numFree (s : SeqId) (bids : List BlockId) (st : BlockManager × List BlockOp) :
    (swapInBlocks s bids st).2.1.numFreeGpuBlocks = st.1.numFreeGpuBlocks - bids.length := by
  induction bids generalizing st with
  | nil => rfl
  | cons bid rest ih =>
      rw [swapInBlocks]
      simp only [ih, BlockManager.allocateBlock_numFree, List.length_cons]
      rw [Nat.sub_sub, Nat.add_comm 1 _]

theorem prefillSequences_numFree (n : Nat) (bm : BlockManager) (seqs : List SequenceData) :
    (threadSequences (prefillSequence n) bm seqs).2.numFreeGpuBlocks
      = bm.numFreeGpuBlocks - n * seqs.length := by
  have hseq : ∀ bm x, (prefillSequence n bm x).2.numFreeGpuBlocks = bm.numFreeGpuBlocks - n :=
    fun bm x => allocateFor_numFree bm _ n
  rw [threadSequences_numFree BlockManager.numFreeGpuBlocks (fun _ => n) hseq]
  simp [Nat.mul_comm]

theorem swapInSequences_numFree (st : BlockManager × List BlockOp) (g : SequenceGroup) :
    (threadSequences swapInSequence st g.sequences).2.1.numFreeGpuBlocks
      = st.1.numFreeGpuBlocks - swapInBlockCount g := by
  have hsum : ∀ seqs : List SequenceData,
      (seqs.map (fun x => if x.isFinished then 0 else x.logicalBlocks.length)).sum
        = ((seqs.filter (fun x => !x.isFinished)).map (fun x => x.logicalBlocks.length)).sum := by
    intro seqs
    induction seqs with
    | nil => rfl
    | cons x xs ih => cases hx : x.isFinished <;> simp [hx, ih]
  rw [threadSequences_numFree (fun st : BlockManager × List BlockOp => st.1.numFreeGpuBlocks)
    (fun x => if x.isFinished then 0 else x.logicalBlocks.length), hsum]
  · rfl
  · intro st x
    unfold swapInSequence
    split
    · rfl
    · exact swapInBlocks_numFree _ _ st

/-! ## The loops serve their queues -/

namespace ScheduleState

variable {s : ScheduleState} {p : GroupPtr} {rest : List GroupPtr}

theorem prefillFits_iff :
    s.prefillFits p ↔ s.room.Fits (prefillDemand s.sched.blockManager (s.sched.groups p)) := by
  simp [prefillFits, Room.Fits, room, prefillDemand, estimateTokens, BlockManager.canAllocate,
    BlockManager.numFreeGpuBlocks]

theorem swapInFits_iff : s.swapInFits p ↔ s.room.Fits (swapInDemand (s.sched.groups p)) := by
  simp [swapInFits, Room.Fits, room, swapInDemand, estimateTokens, BlockManager.canAllocate,
    BlockManager.numFreeGpuBlocks]

theorem admitGroup_room : (s.admitGroup p rest).room
    = s.room.spend (prefillDemand s.sched.blockManager (s.sched.groups p)) := by
  simp [room, admitGroup, charge, putSequences, Room.spend, prefillDemand, estimateTokens,
    prefillSequences_numFree]

theorem swapInGroup_room : (s.swapInGroup p rest).room
    = s.room.spend (swapInDemand (s.sched.groups p)) := by
  simp [room, swapInGroup, charge, putSequences, Room.spend, swapInDemand, estimateTokens,
    swapInSequences_numFree]

theorem groups_admitGroup_of_ne {q : GroupPtr} (hq : q ≠ p) :
    (s.admitGroup p rest).sched.groups q = s.sched.groups q := by
  simp [admitGroup, charge, putSequences, hq]

theorem groups_swapInGroup_of_ne {q : GroupPtr} (hq : q ≠ p) :
    (s.swapInGroup p rest).sched.groups q = s.sched.groups q := by
  simp [swapInGroup, charge, putSequences, hq]

theorem admitGroup_blockManager_config :
    (s.admitGroup p rest).sched.blockManager.config = s.sched.blockManager.config :=
  threadSequences_keeps BlockManager.config (fun bm x => prefillSequence_config _ bm x) _ _

/-- What a group asks for depends on the group and the block size. -/
theorem prefillDemand_congr {bm bm' : BlockManager} (h : bm'.config = bm.config)
    (g : SequenceGroup) : prefillDemand bm' g = prefillDemand bm g := by
  have hblocks : prefillBlocks bm' g = prefillBlocks bm g := by
    cases hseqs : g.sequences with
    | nil => simp [prefillBlocks, hseqs]
    | cons x xs => simp [prefillBlocks, hseqs, BlockManager.blockSize, h]
  simp [prefillDemand, hblocks]

/-- **The prefill loop serves the queue.** It admits who finds room and leaves the room that is left; the
    groups it does not admit stay as they were. -/
theorem prefillLoop_serves (l : List GroupPtr) (s : ScheduleState) (hl : l.Nodup) :
    (prefillAdmissions l s).map Prod.snd
      = l.take (Room.rule.served s.room (s.prefillDemands l)) ∧
    (prefillLoop l s).room = Room.rule.left s.room (s.prefillDemands l) ∧
    ∀ q, q ∉ (prefillAdmissions l s).map Prod.snd →
      (prefillLoop l s).sched.groups q = s.sched.groups q := by
  induction l generalizing s with
  | nil => exact ⟨rfl, rfl, fun _ _ => rfl⟩
  | cons p rest ih =>
      obtain ⟨hp, hrest⟩ := List.nodup_cons.1 hl
      have hcons : s.prefillDemands (p :: rest)
          = prefillDemand s.sched.blockManager (s.sched.groups p) :: s.prefillDemands rest := rfl
      rw [prefillAdmissions, prefillLoop, hcons]
      by_cases hfits : s.prefillFits p
      · -- the demands behind the front are not touched by its admission
        have hdemands : (s.admitGroup p rest).prefillDemands rest = s.prefillDemands rest := by
          refine List.map_congr_left (fun q hq => ?_)
          have hqp : q ≠ p := fun heq => hp (heq ▸ hq)
          rw [groups_admitGroup_of_ne hqp, prefillDemand_congr admitGroup_blockManager_config]
        have hroom : Room.rule.Fits s.room _ := prefillFits_iff.1 hfits
        obtain ⟨hadm, hleft, hframe⟩ := ih (s.admitGroup p rest) hrest
        rw [hdemands, admitGroup_room] at hadm hleft
        rw [if_pos hfits, if_pos hfits]
        refine ⟨?_, ?_, ?_⟩
        · rw [Queue.Rule.served_cons_of_fits hroom, List.take_succ_cons, List.map_cons, hadm]
          rfl
        · rw [Queue.Rule.left_cons_of_fits hroom, hleft]
          rfl
        · intro q hq
          rw [List.map_cons, List.mem_cons, not_or] at hq
          rw [hframe q hq.2, groups_admitGroup_of_ne hq.1]
      · have hroom : ¬ Room.rule.Fits s.room _ := fun h => hfits (prefillFits_iff.2 h)
        rw [if_neg hfits, if_neg hfits, Queue.Rule.served_cons_of_not_fits hroom,
          Queue.Rule.left_cons_of_not_fits hroom]
        exact ⟨rfl, rfl, fun _ _ => rfl⟩

/-- Who is admitted leaves the waiting queue for the running queue; the loop does nothing else to the
    queues and the output. -/
theorem prefillLoop_running (l : List GroupPtr) (s : ScheduleState) :
    (prefillLoop l s).sched.running
      = s.sched.running ++ (prefillAdmissions l s).map Prod.snd ∧
    (s.sched.waiting = l →
      (prefillLoop l s).sched.waiting = l.drop (prefillAdmissions l s).length) ∧
    (prefillLoop l s).sched.swapped = s.sched.swapped ∧
    (prefillLoop l s).output.swappedInGroups = s.output.swappedInGroups ∧
    (prefillLoop l s).output.preemptedGroups = s.output.preemptedGroups := by
  induction l generalizing s with
  | nil => simp [prefillLoop, prefillAdmissions]
  | cons p rest ih =>
      rw [prefillLoop, prefillAdmissions]
      split
      · obtain ⟨hrun, hwait, hswapped, hin, hpre⟩ := ih (s.admitGroup p rest)
        refine ⟨?_, fun _ => hwait rfl, hswapped, hin, hpre⟩
        rw [hrun]
        simp [admitGroup, charge]
      · simp

/-- **The swap-in loop serves the queue.** Who finds room joins the running queue and the output, the
    others stay. -/
theorem swapInLoop_serves (l : List GroupPtr) (s : ScheduleState) (hl : l.Nodup)
    (hswapped : s.sched.swapped = l) :
    (swapInLoop l s).output.swappedInGroups = s.output.swappedInGroups ++
      l.take (Room.rule.served s.room (s.swapInDemands l)) ∧
    (swapInLoop l s).sched.running = s.sched.running ++
      l.take (Room.rule.served s.room (s.swapInDemands l)) ∧
    (swapInLoop l s).sched.swapped = l.drop (Room.rule.served s.room (s.swapInDemands l)) ∧
    (swapInLoop l s).room = Room.rule.left s.room (s.swapInDemands l) ∧
    (swapInLoop l s).sched.waiting = s.sched.waiting ∧
    (swapInLoop l s).output.preemptedGroups = s.output.preemptedGroups := by
  induction l generalizing s with
  | nil => simp [swapInLoop, hswapped, swapInDemands, Queue.Rule.left]
  | cons p rest ih =>
      obtain ⟨hp, hrest⟩ := List.nodup_cons.1 hl
      have hcons : s.swapInDemands (p :: rest)
          = swapInDemand (s.sched.groups p) :: s.swapInDemands rest := rfl
      rw [swapInLoop, hcons]
      by_cases hfits : s.swapInFits p
      · have hdemands : (s.swapInGroup p rest).swapInDemands rest = s.swapInDemands rest := by
          refine List.map_congr_left (fun q hq => ?_)
          have hqp : q ≠ p := fun heq => hp (heq ▸ hq)
          rw [groups_swapInGroup_of_ne hqp]
        have hroom : Room.rule.Fits s.room _ := swapInFits_iff.1 hfits
        obtain ⟨hin, hrun, hswapped', hleft, hkeep⟩ := ih (s.swapInGroup p rest) hrest rfl
        rw [hdemands, swapInGroup_room] at hin hrun hswapped' hleft
        rw [if_pos hfits, Queue.Rule.served_cons_of_fits hroom, Queue.Rule.left_cons_of_fits hroom,
          List.take_succ_cons, List.drop_succ_cons]
        refine ⟨?_, ?_, hswapped', hleft, hkeep⟩
        · rw [hin]
          simp [swapInGroup, charge, Room.rule]
        · rw [hrun]
          simp [swapInGroup, charge, Room.rule]
      · have hroom : ¬ Room.rule.Fits s.room _ := fun h => hfits (swapInFits_iff.2 h)
        rw [if_neg hfits, Queue.Rule.served_cons_of_not_fits hroom,
          Queue.Rule.left_cons_of_not_fits hroom]
        simp [hswapped]

/-- Where `try_swap_in` is not called, no group of the swapped queue would have found room. -/
theorem resumes_of_closed (h : ¬ (s.sched.swapped ≠ [] ∧ 0 < s.roomAfterPrefills.tokens ∧
    0 < s.roomAfterPrefills.seqs)) :
    s.resumes = [] ∧ s.sched.swapped.drop s.numResumed = s.sched.swapped ∧
      s.roomAfterSwapIn = s.roomAfterPrefills := by
  by_cases hne : s.sched.swapped = []
  · simp [resumes, roomAfterSwapIn, swapInDemands, hne, Queue.Rule.left]
  · by_cases htokens : 0 < s.roomAfterPrefills.tokens
    · have hserved := Room.served_add_seqs s.roomAfterPrefills (s.swapInDemands s.sched.swapped)
      have hseqs : ¬ 0 < s.roomAfterPrefills.seqs := fun hseqs => h ⟨hne, htokens, hseqs⟩
      have hzero : Room.rule.served s.roomAfterPrefills (s.swapInDemands s.sched.swapped) = 0 := by
        omega
      simp [resumes, numResumed, roomAfterSwapIn, htokens, hzero,
        Queue.Rule.left_of_served_eq_zero hzero]
    · simp [resumes, numResumed, roomAfterSwapIn, htokens]

/-- Whoever joins the running queue has taken a place of the sequence budget. -/
theorem admits_add_resumes_le (s : ScheduleState) :
    s.admits.length + s.resumes.length ≤ s.budgetSeqs := by
  have hadmits := Room.served_add_seqs s.room (s.prefillDemands s.sortedWaiting)
  have hresumes := Room.served_add_seqs s.roomAfterPrefills (s.swapInDemands s.sched.swapped)
  have hseqs : s.room.seqs = s.budgetSeqs := rfl
  have hnum : s.numResumed ≤ s.roomAfterPrefills.seqs := by
    unfold numResumed
    split <;> omega
  rw [admits, resumes, List.length_take, List.length_take]
  simp only [roomAfterPrefills] at hnum hresumes
  omega

end ScheduleState

/-! ## One call -/

namespace Scheduler

variable {st : Scheduler}

/-- Sorting an empty queue does nothing, so the prefill phase is its loop in every case. -/
theorem afterPrefills_eq (st : Scheduler) :
    st.afterPrefills = prefillLoop st.beforePrefills.sched.waiting st.beforePrefills := by
  unfold afterPrefills
  split
  · next hnil =>
      have hsame : st.beforePrefills = st.afterDecodes := by
        rw [beforePrefills, sortWaitingQueue_nil hnil]
      rw [hsame, hnil, prefillLoop]
  · rfl

theorem afterDecodes_shuffles (st : Scheduler) : st.Shuffles st.afterDecodes :=
  st.afterDecodes_invariant (Shuffles.begin st) (fun _ _ _ h hat _ _ => h.decode hat.mem_running)
    (fun _ _ _ h _ hv => h.preempt hv)

/-- The sort changes the order of the waiting queue and nothing that is asked for. -/
theorem beforePrefills_eq (st : Scheduler) :
    st.beforePrefills.room = st.afterDecodes.room ∧
    st.beforePrefills.sched.groups = st.afterDecodes.sched.groups ∧
    st.beforePrefills.sched.blockManager = st.afterDecodes.sched.blockManager ∧
    st.beforePrefills.sched.running = st.afterDecodes.sched.running ∧
    st.beforePrefills.sched.swapped = st.afterDecodes.sched.swapped ∧
    st.beforePrefills.sched.waiting = st.afterDecodes.sortedWaiting := by
  obtain ⟨w, -, hw⟩ := st.afterDecodes.sched.sortWaitingQueue_eq
  simp [beforePrefills, sortedWaiting, room, hw]

variable (hst : st.QueuesDisjoint)
include hst

theorem beforePrefills_nodup :
    st.afterDecodes.sortedWaiting.Nodup ∧ st.afterDecodes.sched.swapped.Nodup ∧
      ∀ q ∈ st.afterDecodes.sched.swapped, q ∉ st.afterDecodes.sortedWaiting := by
  have hq := st.afterDecodes_shuffles.sort.queues hst
  obtain ⟨-, -, -, -, hswapped, hwaiting⟩ := st.beforePrefills_eq
  rw [← hswapped, ← hwaiting]
  have hws := List.nodup_append.1 (List.nodup_append.1 hq).2.1
  exact ⟨hws.1, hws.2.1, fun q hs hw => hws.2.2 q hw q hs rfl⟩

/-- **The groups a call admits** are those of the sorted waiting queue that find room. -/
theorem admissions_eq_admits :
    st.admissions.map Prod.snd = st.afterDecodes.admits ∧
    st.afterPrefills.room = st.afterDecodes.roomAfterPrefills ∧
    ∀ q, q ∉ st.afterDecodes.admits →
      st.afterPrefills.sched.groups q = st.afterDecodes.sched.groups q := by
  obtain ⟨hroom, hgroups, hbm, -, -, hwaiting⟩ := st.beforePrefills_eq
  have hserves := prefillLoop_serves st.beforePrefills.sched.waiting st.beforePrefills
    (hwaiting ▸ (beforePrefills_nodup hst).1)
  rw [← afterPrefills_eq] at hserves
  have hdemands : st.beforePrefills.prefillDemands st.beforePrefills.sched.waiting
      = st.afterDecodes.prefillDemands st.afterDecodes.sortedWaiting := by
    rw [prefillDemands, prefillDemands, hgroups, hbm, hwaiting]
  rw [hdemands, hroom, hgroups] at hserves
  obtain ⟨hadm, hleft, hframe⟩ := hserves
  have hadmits : st.admissions.map Prod.snd = st.afterDecodes.admits := by
    rw [admissions, hadm, hwaiting, admits]
  refine ⟨hadmits, hleft, ?_⟩
  intro q hq
  exact hframe q (fun hmem => hq (hadmits ▸ hmem))

omit hst in
/-- The decode loop touches neither the queues nor the lists of groups preempted and swapped in. -/
theorem decodeLoop_frame (st : Scheduler) :
    (decodeLoop st.running st.beginSchedule).1.sched.running = st.running ∧
    (decodeLoop st.running st.beginSchedule).1.sched.waiting = st.waiting ∧
    (decodeLoop st.running st.beginSchedule).1.sched.swapped = st.swapped ∧
    (decodeLoop st.running st.beginSchedule).1.sched.config = st.config ∧
    (decodeLoop st.running st.beginSchedule).1.output.preemptedGroups = [] ∧
    (decodeLoop st.running st.beginSchedule).1.output.swappedInGroups = [] :=
  (st.decodeLoop_invariant (P := fun s => s.sched.running = st.running ∧
    s.sched.waiting = st.waiting ∧ s.sched.swapped = st.swapped ∧ s.sched.config = st.config ∧
    s.output.preemptedGroups = [] ∧ s.output.swappedInGroups = [])
    ⟨rfl, rfl, rfl, rfl, rfl, rfl⟩ (fun _ _ _ h _ _ _ => h)).1

/-- The group the call preempts: the last running one, if an unfinished group fails its checks. -/
def victim (st : Scheduler) : Option GroupPtr :=
  if (decodeLoop st.running st.beginSchedule).2 then st.running.getLast? else none

omit hst in
/-- The group that is preempted is the victim. -/
theorem PreemptsAt.victim {s : ScheduleState} {init : List GroupPtr} {v : GroupPtr}
    (hat : st.PreemptsAt s) (hrun : s.sched.running = init ++ [v]) : st.victim = some v := by
  have hrunning : s.sched.running = st.running := by
    have hframe := st.decodeLoop_frame.1
    rwa [hat] at hframe
  have hflag : (decodeLoop st.running st.beginSchedule).2 = true := by rw [hat]
  rw [Scheduler.victim, if_pos hflag, ← hrunning, hrun, List.getLast?_concat]

omit hst in
/-- What the decode phase leaves of the queues: the victim, if there is one, has changed its queue. -/
theorem afterDecodes_victim (st : Scheduler) :
    st.afterDecodes.output.swappedInGroups = [] ∧
    ((st.victim = none ∧ st.afterDecodes.output.preemptedGroups = [] ∧
        st.afterDecodes.sched.running = st.running ∧ st.afterDecodes.sched.waiting = st.waiting ∧
        st.afterDecodes.sched.swapped = st.swapped) ∨
      ∃ v init, st.victim = some v ∧ st.afterDecodes.output.preemptedGroups = [v] ∧
        st.running = init ++ [v] ∧ st.afterDecodes.sched.running = init ∧
        (st.config.preemptionMode = .recompute → st.afterDecodes.sched.waiting = v :: st.waiting ∧
          st.afterDecodes.sched.swapped = st.swapped) ∧
        (st.config.preemptionMode = .swap → st.afterDecodes.sched.waiting = st.waiting ∧
          st.afterDecodes.sched.swapped = st.swapped ++ [v])) := by
  obtain ⟨hrun, hwait, hswapped, hconfig, hpre, hin⟩ := st.decodeLoop_frame
  by_cases hflag : (decodeLoop st.running st.beginSchedule).2 = true
  · have hat : st.PreemptsAt (decodeLoop st.running st.beginSchedule).1 := Prod.ext rfl hflag
    obtain ⟨p, rest, ⟨-, pre, hsplit, -⟩, -⟩ := hat.split
    have hne : st.running ≠ [] := by rw [hsplit]; simp
    obtain ⟨init, v, hlast⟩ : ∃ init v, st.running = init ++ [v] :=
      ⟨_, _, (List.dropLast_concat_getLast hne).symm⟩
    have hvictim := hat.victim (hrun.trans hlast)
    rw [hat.afterDecodes, preempt_eq (hrun.trans hlast), hconfig]
    cases st.config.preemptionMode with
    | swap =>
        refine ⟨hin, Or.inr ⟨v, init, hvictim, ?_, hlast, rfl, ?_, ?_⟩⟩
        · simp [swapOutGroup, hpre]
        · exact fun h => by cases h
        · exact fun _ => ⟨hwait, by simp [swapOutGroup, hswapped]⟩
    | recompute =>
        refine ⟨hin, Or.inr ⟨v, init, hvictim, ?_, hlast, rfl, ?_, ?_⟩⟩
        · simp [recomputeGroup, hpre]
        · exact fun _ => ⟨by simp [recomputeGroup, hwait], hswapped⟩
        · exact fun h => by cases h
  · have hafter : st.afterDecodes = (decodeLoop st.running st.beginSchedule).1 := by
      simp only [afterDecodes, scheduleDecodes]
      exact if_neg hflag
    rw [hafter]
    exact ⟨hin, Or.inl ⟨if_neg hflag, hpre, hrun, hwait, hswapped⟩⟩

/-- What the prefill phase leaves to the swapped queue. -/
theorem afterPrefills_serves :
    st.afterPrefills.sched.running
      = st.afterDecodes.sched.running ++ st.afterDecodes.admits ∧
    st.afterPrefills.sched.waiting
      = st.afterDecodes.sortedWaiting.drop st.afterDecodes.admits.length ∧
    st.afterPrefills.sched.swapped = st.afterDecodes.sched.swapped ∧
    st.afterPrefills.output.swappedInGroups = [] ∧
    st.afterPrefills.output.preemptedGroups = st.afterDecodes.output.preemptedGroups ∧
    st.afterPrefills.swapInDemands st.afterDecodes.sched.swapped
      = st.afterDecodes.swapInDemands st.afterDecodes.sched.swapped := by
  obtain ⟨hadm, -, hframe⟩ := admissions_eq_admits hst
  obtain ⟨-, -, hdisj⟩ := beforePrefills_nodup hst
  obtain ⟨-, -, -, hrunB, hswappedB, hwaitB⟩ := st.beforePrefills_eq
  obtain ⟨hrunP, hwaitP, hswappedP, hinP, hpreP⟩ :=
    prefillLoop_running st.beforePrefills.sched.waiting st.beforePrefills
  rw [← afterPrefills_eq] at hrunP hwaitP hswappedP hinP hpreP
  refine ⟨?_, ?_, hswappedP.trans hswappedB, hinP.trans st.afterDecodes_victim.1, hpreP, ?_⟩
  · rw [hrunP, hrunB, ← hadm]
    rfl
  · rw [hwaitP rfl, hwaitB, ← hadm, List.length_map]
    rfl
  · apply List.map_congr_left
    intro q hq
    rw [hframe q (fun hmem => hdisj q hq (List.mem_of_mem_take hmem))]

/-- **What a call does to the queues.** After the decode phase the groups of the waiting queue that find
    room join the running queue, then those of the swapped queue. -/
theorem schedule_serves :
    st.schedule.1.scheduledGroups
      = st.afterDecodes.output.scheduledGroups ++ st.afterDecodes.admits ∧
    st.schedule.1.swappedInGroups = st.afterDecodes.resumes ∧
    st.schedule.1.preemptedGroups = st.afterDecodes.output.preemptedGroups ∧
    st.schedule.2.running
      = st.afterDecodes.sched.running ++ (st.afterDecodes.admits ++ st.afterDecodes.resumes) ∧
    st.schedule.2.waiting
      = st.afterDecodes.sortedWaiting.drop st.afterDecodes.admits.length ∧
    st.schedule.2.swapped = st.afterDecodes.sched.swapped.drop st.afterDecodes.numResumed ∧
    st.afterSwapIn.room = st.afterDecodes.roomAfterSwapIn := by
  obtain ⟨hadm, hroom, -⟩ := admissions_eq_admits hst
  obtain ⟨-, hnodup, -⟩ := beforePrefills_nodup hst
  obtain ⟨hrun, hwait, hswapped, hin0, hpre0, hdemands⟩ := afterPrefills_serves hst
  have hsched : st.schedule.1.scheduledGroups
      = st.afterDecodes.output.scheduledGroups ++ st.afterDecodes.admits :=
    st.afterSwapIn_scheduled.trans (by rw [hadm])
  refine ⟨hsched, ?_⟩
  simp only [schedule, afterSwapIn]
  split
  · next hgate =>
      have htokens : 0 < st.afterDecodes.roomAfterPrefills.tokens := hroom ▸ hgate.2.1
      have hserves := swapInLoop_serves st.afterDecodes.sched.swapped st.afterPrefills hnodup hswapped
      have hnum : Room.rule.served st.afterPrefills.room
          (st.afterPrefills.swapInDemands st.afterDecodes.sched.swapped)
            = st.afterDecodes.numResumed := by
        rw [numResumed, if_pos htokens, hdemands, hroom]
      rw [hnum, hin0, hpre0, hrun, hdemands, hroom] at hserves
      obtain ⟨hin, hrunS, hswappedS, hleft, hwaitS, hpre⟩ := hserves
      rw [trySwapIn, hswapped]
      refine ⟨hin, hpre, ?_, hwaitS.trans hwait, hswappedS, ?_⟩
      · rw [hrunS, List.append_assoc]
        rfl
      · rw [hleft, roomAfterSwapIn, if_pos htokens]
  · next hgate =>
      have hnone := resumes_of_closed (s := st.afterDecodes) (by
        rintro ⟨hne, htokens, hseqs⟩
        rw [← hroom] at htokens hseqs
        exact hgate ⟨hswapped ▸ hne, htokens, hseqs⟩)
      refine ⟨?_, hpre0, ?_, hwait, ?_, ?_⟩
      · rw [hnone.1]
        exact hin0
      · rw [hnone.1, List.append_nil]
        exact hrun
      · rw [hnone.2.1]
        exact hswapped
      · rw [hnone.2.2]
        exact hroom

/-! ## The victim of a preemption -/

omit hst in
theorem mem_sortedWaiting {s : ScheduleState} {p : GroupPtr} :
    p ∈ s.sortedWaiting ↔ p ∈ s.sched.waiting := by
  obtain ⟨w, hperm, hw⟩ := s.sched.sortWaitingQueue_eq
  rw [sortedWaiting, hw]
  exact hperm.mem_iff

/-- The group `v`, preempted by the call that starts in `st`, finds room in the same call. Preempted for
    recomputation it is served if its place in the sorted waiting queue is; swapped out it is the last
    of its queue, so all of the queue must find room. -/
def FindsRoom (st : Scheduler) (v : GroupPtr) : Prop :=
  (st.config.preemptionMode = .recompute ∧ st.afterDecodes.sortedWaiting.idxOf v
    < Room.rule.served st.afterDecodes.room
        (st.afterDecodes.prefillDemands st.afterDecodes.sortedWaiting)) ∨
  (st.config.preemptionMode = .swap ∧
    st.afterDecodes.sched.swapped.length ≤ st.afterDecodes.numResumed)

instance (st : Scheduler) (v : GroupPtr) : Decidable (st.FindsRoom v) :=
  inferInstanceAs (Decidable (_ ∧ _ ∨ _ ∧ _))

/-- The victim stands behind all groups the decode loop has scheduled. -/
theorem victim_not_decoded {v : GroupPtr} (hv : st.victim = some v) :
    v ∉ st.afterDecodes.output.scheduledGroups := by
  by_cases hflag : (decodeLoop st.running st.beginSchedule).2 = true
  · have hat : st.PreemptsAt (decodeLoop st.running st.beginSchedule).1 := Prod.ext rfl hflag
    rw [victim, if_pos hflag] at hv
    obtain ⟨init, hlast⟩ := List.getLast?_eq_some_iff.1 hv
    rw [hat.afterDecodes, preempt_scheduledGroups]
    exact hat.victim_not_scheduled hst.nodup_running (st.decodeLoop_frame.1.trans hlast)
  · rw [victim, if_neg hflag] at hv
    cases hv

/-- The victim runs again after the call that preempts it when it finds room there. -/
theorem victim_resumed_iff {v : GroupPtr} (hv : st.victim = some v) :
    (v ∈ st.afterDecodes.admits ∨ v ∈ st.afterDecodes.resumes) ↔ st.FindsRoom v := by
  obtain ⟨-, hnodup, hdisj⟩ := beforePrefills_nodup hst
  rcases st.afterDecodes_victim.2 with ⟨hnone, -⟩ | ⟨v', init, hv', -, -, -, hrec, hswap⟩
  · rw [hv] at hnone
    cases hnone
  obtain rfl : v = v' := Option.some.inj (hv.symm.trans hv')
  cases hmode : st.config.preemptionMode with
  | recompute =>
      have hmem : v ∈ st.afterDecodes.sortedWaiting :=
        mem_sortedWaiting.2 (by rw [(hrec hmode).1]; exact List.mem_cons_self ..)
      have hnot : v ∉ st.afterDecodes.resumes :=
        fun h => hdisj v (List.mem_of_mem_take h) hmem
      simp only [FindsRoom, hmode, true_and, reduceCtorEq, false_and, or_false]
      rw [or_iff_left hnot]
      exact List.mem_take_iff_idxOf_lt hmem
  | swap =>
      have hsw := (hswap hmode).2
      have hmem : v ∈ st.afterDecodes.sched.swapped := by rw [hsw]; simp
      have hnot : v ∉ st.afterDecodes.admits :=
        fun h => hdisj v hmem (List.mem_of_mem_take h)
      have hlast : st.afterDecodes.sched.swapped.idxOf v + 1
          = st.afterDecodes.sched.swapped.length := by
        rw [hsw] at hnodup ⊢
        have hv : v ∉ st.swapped := fun h => (List.nodup_append.1 hnodup).2.2 v h v (by simp) rfl
        rw [List.idxOf_append_of_notMem hv]
        simp
      simp only [FindsRoom, hmode, true_and, reduceCtorEq, false_and, false_or]
      rw [or_iff_right hnot, resumes, List.mem_take_iff_idxOf_lt hmem]
      omega

end Scheduler

namespace Census

variable {config : SchedulerConfig} {bm : BlockManager} {c : Census}

/-- **A call does not take back a preemption.** In every state reached, under every policy and in both
    modes, no group preempted by the next call is scheduled or swapped in by the same call, exactly when
    the victim, if there is one, does not find room behind the groups that stand in front of it. -/
theorem victim_stays_out_iff (h : Run.Reach step Permitted (init config bm) c) :
    (∀ p ∈ c.sched.schedule.1.preemptedGroups,
      p ∉ c.sched.schedule.1.scheduledGroups ∧ p ∉ c.sched.schedule.1.swappedInGroups) ↔
    ∀ v, c.sched.victim = some v → ¬ c.sched.FindsRoom v := by
  have hq := (balanced_of_reach h).queues
  obtain ⟨hsched, hin, hpre, -⟩ := Scheduler.schedule_serves hq
  rw [hsched, hin, hpre]
  rcases c.sched.afterDecodes_victim.2 with ⟨hnone, hnil, -⟩ | ⟨v, init, hv, hone, hlast, -⟩
  · simp [hnone, hnil]
  · have hdecoded := Scheduler.victim_not_decoded hq hv
    have hroom := Scheduler.victim_resumed_iff hq hv
    rw [hone, hv]
    simp only [List.mem_singleton, forall_eq, List.mem_append, Option.some.injEq, forall_eq']
    tauto

/-- Two requests fill the pool, and the first outgrows its block. -/
def outgrowing : List CensusOp :=
  let grown : SequenceData :=
    { seqId := 0, promptTokens := [1, 2], outputTokens := [5], logicalBlocks := [0],
      status := .running }
  [.addRequest (SequenceGroup.new 0 [1, 2] {}), .addRequest (SequenceGroup.new 1 [1, 2] {}),
    .schedule, .rewrite 0 [grown]]

def twoBlocks (mode : PreemptionMode) : Census :=
  init { preemptionMode := mode }
    (BlockManager.new { numGpuBlocks := 2, numCpuBlocks := 2, blockSize := 2 })

/-- A newcomer takes the block of the victim, which stays out. -/
theorem newcomer_keeps_victim_out :
    let c := (outgrowing ++ [CensusOp.addRequest (SequenceGroup.new 2 [1] {})]).foldl step
      (twoBlocks .swap)
    c.sched.schedule.1.preemptedGroups = [1] ∧ c.sched.schedule.1.scheduledGroups = [2] ∧
      ∀ p ∈ c.sched.schedule.1.preemptedGroups,
        p ∉ c.sched.schedule.1.scheduledGroups ∧ p ∉ c.sched.schedule.1.swappedInGroups :=
  ⟨by decide, by decide,
    (victim_stays_out_iff (Run.Reach.of_allOk _ (by decide))).2 (by decide)⟩

/-- Without a newcomer the victim takes its block back at once, in both modes. -/
theorem victim_taken_back :
    (Run.Reach step Permitted (twoBlocks .swap) (outgrowing.foldl step (twoBlocks .swap)) ∧
      ¬ ∀ p ∈ (outgrowing.foldl step (twoBlocks .swap)).sched.schedule.1.preemptedGroups,
        p ∉ (outgrowing.foldl step (twoBlocks .swap)).sched.schedule.1.swappedInGroups) ∧
    (Run.Reach step Permitted (twoBlocks .recompute)
        (outgrowing.foldl step (twoBlocks .recompute)) ∧
      ¬ ∀ p ∈ (outgrowing.foldl step (twoBlocks .recompute)).sched.schedule.1.preemptedGroups,
        p ∉ (outgrowing.foldl step (twoBlocks .recompute)).sched.schedule.1.scheduledGroups) :=
  ⟨⟨Run.Reach.of_allOk _ (by decide), by decide⟩, ⟨Run.Reach.of_allOk _ (by decide), by decide⟩⟩

end Census

end CacheFlow
