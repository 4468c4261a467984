import CacheFlow.BlockManager
import Mathlib.Data.List.Sort

set_option autoImplicit false

/-! # The scheduler

`Scheduler` keeps three queues of requests and decides at every step which of them run. The queues
own their groups through `unique_ptr`; `request_map_` and the scheduler's output point to the same
groups. The model makes the addresses explicit: a queue is a list of `GroupPtr`, and `groups` is the
memory they point into. A group that `free_finished_requests` destroys leaves the queues, its record
stays in `groups` as it was.

One `schedule()` call threads its output and the two budgets through three phases. They are part of
`ScheduleState`, and every phase is a loop over one queue whose body is a function of its own:
`decodeGroup`, `admitGroup` and `swapInGroup`. -/

namespace CacheFlow

/-- The address of a `SequenceGroup`. -/
abbrev GroupPtr := Nat

structure BlockOp where
  seqId : SeqId
  src : BlockId
  dst : BlockId
  deriving DecidableEq, Repr

/-- What the decode engine should execute this step. -/
structure SchedulerOutput where
  scheduledGroups : List GroupPtr := []
  preemptedGroups : List GroupPtr := []
  swappedInGroups : List GroupPtr := []
  numBatchedTokens : Nat := 0
  blockSwapsIn : List BlockOp := []
  blockSwapsOut : List BlockOp := []
  deriving DecidableEq, Repr

def SchedulerOutput.isEmpty (out : SchedulerOutput) : Bool := out.scheduledGroups.isEmpty

structure Scheduler where
  config : SchedulerConfig
  blockManager : BlockManager
  waiting : List GroupPtr
  running : List GroupPtr
  swapped : List GroupPtr
  requestMap : AList (fun _ : SeqId => GroupPtr)
  groups : GroupPtr → SequenceGroup
  /-- The address the next group is stored at. -/
  next : GroupPtr

/-- The state one `schedule()` call threads through its phases. -/
structure ScheduleState where
  sched : Scheduler
  output : SchedulerOutput
  budgetTokens : Nat
  budgetSeqs : Nat

/-! ## Loops over the sequences of a group -/

/-- Run `f` over the sequences of a group in order, threading a state. -/
def threadSequences {σ : Type} (f : σ → SequenceData → SequenceData × σ) (st : σ) :
    List SequenceData → List SequenceData × σ
  | [] => ([], st)
  | seq :: rest =>
    let r := f st seq
    let rs := threadSequences f r.2 rest
    (r.1 :: rs.1, rs.2)

/-- `n` times `logical_blocks.push_back(allocate_block(seq_id, CUDA))`. -/
def allocateFor (bm : BlockManager) (seq : SequenceData) : Nat → SequenceData × BlockManager
  | 0 => (seq, bm)
  | n + 1 =>
    let r := bm.allocateBlock seq.seqId .cuda
    allocateFor r.2 { seq with logicalBlocks := seq.logicalBlocks ++ [r.1] } n

/-- The blocks a sequence is short of, 0 when it has enough. -/
def missingBlocks (bm : BlockManager) (seq : SequenceData) : Nat :=
  seq.numBlocksNeeded bm.blockSize - seq.logicalBlocks.length

/-- Decode phase: the `while` loop that grows one sequence. -/
def appendBlocks (bm : BlockManager) (seq : SequenceData) : SequenceData × BlockManager :=
  if seq.isFinished then (seq, bm) else allocateFor bm seq (missingBlocks bm seq)

/-- Prefill phase: the status is set whatever it was before. -/
def prefillSequence (blocksNeeded : Nat) (bm : BlockManager) (seq : SequenceData) :
    SequenceData × BlockManager :=
  allocateFor bm { seq with status := .running } blocksNeeded

/-- The block loop of `try_swap_in`: one new GPU block per logical block. -/
def swapInBlocks (seqId : SeqId) :
    List BlockId → BlockManager × List BlockOp → List BlockId × (BlockManager × List BlockOp)
  | [], st => ([], st)
  | bid :: rest, st =>
    let r := st.1.allocateBlock seqId .cuda
    let rs := swapInBlocks seqId rest (r.2, st.2 ++ [⟨seqId, bid, r.1⟩])
    (r.1 :: rs.1, rs.2)

def swapInSequence (st : BlockManager × List BlockOp) (seq : SequenceData) :
    SequenceData × (BlockManager × List BlockOp) :=
  if seq.isFinished then (seq, st)
  else
    let r := swapInBlocks seq.seqId seq.logicalBlocks st
    ({ seq with status := .running, logicalBlocks := r.1 }, r.2)

/-- The block loop of `preempt`: take a CPU block, release the GPU block. -/
def swapOutBlocks (seqId : SeqId) :
    List BlockId → BlockManager × List BlockOp → List BlockId × (BlockManager × List BlockOp)
  | [], st => ([], st)
  | bid :: rest, st =>
    let r := st.1.allocateBlock seqId .cpu
    let rs := swapOutBlocks seqId rest (r.2.freeBlock bid .cuda, st.2 ++ [⟨seqId, bid, r.1⟩])
    (r.1 :: rs.1, rs.2)

def swapOutSequence (st : BlockManager × List BlockOp) (seq : SequenceData) :
    SequenceData × (BlockManager × List BlockOp) :=
  if seq.isFinished then (seq, st)
  else
    let r := swapOutBlocks seq.seqId seq.logicalBlocks st
    ({ seq with status := .swapped, logicalBlocks := r.1 }, r.2)

def recomputeSequence (bm : BlockManager) (seq : SequenceData) : SequenceData × BlockManager :=
  if seq.isFinished then (seq, bm)
  else
    ({ seq with status := .preempted, logicalBlocks := [], outputTokens := [] },
      bm.freeBlocks seq.seqId)

def abortSequence (bm : BlockManager) (seq : SequenceData) : SequenceData × BlockManager :=
  if seq.isFinished then (seq, bm)
  else ({ seq with status := .finishedAbort }, bm.freeBlocks seq.seqId)

namespace Scheduler

def new (config : SchedulerConfig) (bm : BlockManager) : Scheduler where
  config := config
  blockManager := bm
  waiting := []
  running := []
  swapped := []
  requestMap := ∅
  groups _ := { requestId := 0, sequences := [] }
  next := 0

/-- Store the sequences a loop over group `p` leaves, with the block manager it leaves. -/
def putSequences (st : Scheduler) (p : GroupPtr) (seqs : List SequenceData) (bm : BlockManager) :
    Scheduler :=
  { st with
    blockManager := bm,
    groups := Function.update st.groups p { st.groups p with sequences := seqs } }

/-! ## Public interface -/

def addRequest (st : Scheduler) (group : SequenceGroup) : Scheduler :=
  { st with
    requestMap := st.requestMap.insert group.requestId st.next,
    waiting := st.waiting ++ [st.next],
    groups := Function.update st.groups st.next group,
    next := st.next + 1 }

def abortRequest (st : Scheduler) (requestId : SeqId) : Scheduler :=
  match st.requestMap.lookup requestId with
  | none => st
  | some p =>
    let r := threadSequences abortSequence st.blockManager (st.groups p).sequences
    { st.putSequences p r.1 r.2 with requestMap := st.requestMap.erase requestId }

/-- `remove_finished` on one queue: the groups that stay, and the scheduler after the others have
    been released. -/
def removeFinished (st : Scheduler) : List GroupPtr → List GroupPtr × Scheduler
  | [] => ([], st)
  | p :: rest =>
    if (st.groups p).allFinished then
      removeFinished
        { st with
          blockManager :=
            (st.groups p).sequences.foldl (fun bm seq => bm.freeBlocks seq.seqId) st.blockManager,
          requestMap := st.requestMap.erase (st.groups p).requestId } rest
    else
      let r := removeFinished st rest
      (p :: r.1, r.2)

def freeFinishedRequests (st : Scheduler) : Scheduler :=
  let r := st.removeFinished st.running
  let st' := { r.2 with running := r.1 }
  let r' := st'.removeFinished st'.waiting
  { r'.2 with waiting := r'.1 }

def hasPending (st : Scheduler) : Bool :=
  !st.waiting.isEmpty || !st.running.isEmpty || !st.swapped.isEmpty

/-! ## Helpers -/

def estimateTokens (group : SequenceGroup) (isPrefill : Bool) : Nat :=
  if isPrefill then group.promptLen else group.numUnfinished

/-- `stable_sort` of the waiting queue under the configured policy. -/
def sortWaitingQueue (st : Scheduler) : Scheduler :=
  match st.config.policy with
  | .fcfs => st
  | .shortestRemaining =>
    { st with
      waiting := st.waiting.insertionSort (fun a b =>
        (st.groups a).sampling.maxTokens ≤ (st.groups b).sampling.maxTokens) }
  | .priority =>
    { st with
      waiting := st.waiting.insertionSort (fun a b =>
        (st.groups b).priority ≤ (st.groups a).priority) }

/-- The first loop of the decode phase: every unfinished sequence that needs blocks finds as many on
    the free list. Each sequence is tested against the whole list. -/
def canAppend (bm : BlockManager) (group : SequenceGroup) : Bool :=
  group.sequences.all (fun seq => seq.isFinished || bm.canAllocate (missingBlocks bm seq))

/-- The blocks `schedule_prefills` asks for: those of the first sequence. -/
def prefillBlocks (bm : BlockManager) (group : SequenceGroup) : Nat :=
  match group.sequences with
  | [] => 0
  | seq :: _ => seq.numBlocksNeeded bm.blockSize

/-- The blocks `try_swap_in` asks for: those of all unfinished sequences. -/
def swapInBlockCount (group : SequenceGroup) : Nat :=
  ((group.sequences.filter (fun s => !s.isFinished)).map (fun s => s.logicalBlocks.length)).sum

end Scheduler

namespace ScheduleState

/-- The bookkeeping all three phases end with: charge the budgets for one group. -/
def charge (s : ScheduleState) (tokens : Nat) (sched : Scheduler) (output : SchedulerOutput) :
    ScheduleState :=
  { sched := sched,
    output := output,
    budgetTokens := s.budgetTokens - tokens,
    budgetSeqs := s.budgetSeqs - 1 }

/-! ## Preemption -/

/-- Preemption by swapping: the victim's blocks move to the CPU and it joins the swapped queue;
    `running` is the queue without the victim. -/
def swapOutGroup (s : ScheduleState) (victim : GroupPtr) (running : List GroupPtr) :
    ScheduleState :=
  let r := threadSequences swapOutSequence
    (s.sched.blockManager, s.output.blockSwapsOut) (s.sched.groups victim).sequences
  { s with
    sched := { s.sched.putSequences victim r.1 r.2.1 with
      swapped := s.sched.swapped ++ [victim], running := running },
    output := { s.output with
      blockSwapsOut := r.2.2, preemptedGroups := s.output.preemptedGroups ++ [victim] } }

/-- Preemption by recomputation: the victim loses its blocks and its output and goes back to the
    front of the waiting queue. -/
def recomputeGroup (s : ScheduleState) (victim : GroupPtr) (running : List GroupPtr) :
    ScheduleState :=
  let r := threadSequences recomputeSequence s.sched.blockManager (s.sched.groups victim).sequences
  { s with
    sched := { s.sched.putSequences victim r.1 r.2 with
      waiting := victim :: s.sched.waiting, running := running },
    output := { s.output with preemptedGroups := s.output.preemptedGroups ++ [victim] } }

/-- Preempt the last running group. -/
def preempt (s : ScheduleState) : ScheduleState :=
  match s.sched.running.getLast? with
  | none => s
  | some victim =>
    match s.sched.config.preemptionMode with
    | .swap => s.swapOutGroup victim s.sched.running.dropLast
    | .recompute => s.recomputeGroup victim s.sched.running.dropLast

/-! ## Decode phase -/

/-- The checks of one decode iteration on an unfinished group. -/
def decodeFits (s : ScheduleState) (p : GroupPtr) : Prop :=
  Scheduler.estimateTokens (s.sched.groups p) false ≤ s.budgetTokens ∧ s.budgetSeqs ≠ 0 ∧
    Scheduler.canAppend s.sched.blockManager (s.sched.groups p) = true

instance (s : ScheduleState) (p : GroupPtr) : Decidable (s.decodeFits p) :=
  inferInstanceAs (Decidable (_ ∧ _ ∧ _))

/-- Grow the sequences of a running group and schedule it. -/
def decodeGroup (s : ScheduleState) (p : GroupPtr) : ScheduleState :=
  let grp := s.sched.groups p
  let r := threadSequences appendBlocks s.sched.blockManager grp.sequences
  s.charge (Scheduler.estimateTokens grp false) (s.sched.putSequences p r.1 r.2)
    { s.output with scheduledGroups := s.output.scheduledGroups ++ [p] }

/-- The loop over `running_`. It ends at the end of the queue or at the first unfinished group that
    fails a check; the flag says which, since `preempt` is called there. -/
def decodeLoop : List GroupPtr → ScheduleState → ScheduleState × Bool
  | [], s => (s, false)
  | p :: rest, s =>
    if (s.sched.groups p).allFinished then decodeLoop rest s
    else if s.decodeFits p then decodeLoop rest (s.decodeGroup p)
    else (s, true)

def scheduleDecodes (s : ScheduleState) : ScheduleState :=
  let r := decodeLoop s.sched.running s
  if r.2 then r.1.preempt else r.1

/-! ## Prefill phase -/

/-- The checks of one prefill iteration on the group at the front. -/
def prefillFits (s : ScheduleState) (p : GroupPtr) : Prop :=
  s.budgetSeqs ≠ 0 ∧ Scheduler.estimateTokens (s.sched.groups p) true ≤ s.budgetTokens ∧
    s.sched.blockManager.canAllocate
      (Scheduler.prefillBlocks s.sched.blockManager (s.sched.groups p)) = true

instance (s : ScheduleState) (p : GroupPtr) : Decidable (s.prefillFits p) :=
  inferInstanceAs (Decidable (_ ∧ _ ∧ _))

/-- Admit the group `p` at the front of the waiting queue; `rest` is the queue behind it. -/
def admitGroup (s : ScheduleState) (p : GroupPtr) (rest : List GroupPtr) : ScheduleState :=
  let grp := s.sched.groups p
  let r := threadSequences
    (prefillSequence (Scheduler.prefillBlocks s.sched.blockManager grp))
    s.sched.blockManager grp.sequences
  s.charge (Scheduler.estimateTokens grp true)
    { s.sched.putSequences p r.1 r.2 with
      running := s.sched.running ++ [p], waiting := rest }
    { s.output with scheduledGroups := s.output.scheduledGroups ++ [p] }

def prefillLoop : List GroupPtr → ScheduleState → ScheduleState
  | [], s => s
  | p :: rest, s => if s.prefillFits p then prefillLoop rest (s.admitGroup p rest) else s

def schedulePrefills (s : ScheduleState) : ScheduleState := prefillLoop s.sched.waiting s

/-! ## Swap-in phase -/

/-- The checks of one swap-in iteration on the group at the front. -/
def swapInFits (s : ScheduleState) (p : GroupPtr) : Prop :=
  s.budgetSeqs ≠ 0 ∧ Scheduler.estimateTokens (s.sched.groups p) false ≤ s.budgetTokens ∧
    s.sched.blockManager.canAllocate (Scheduler.swapInBlockCount (s.sched.groups p)) = true

instance (s : ScheduleState) (p : GroupPtr) : Decidable (s.swapInFits p) :=
  inferInstanceAs (Decidable (_ ∧ _ ∧ _))

/-- Bring back the group `p` at the front of the swapped queue; it runs from the next step on. -/
def swapInGroup (s : ScheduleState) (p : GroupPtr) (rest : List GroupPtr) : ScheduleState :=
  let grp := s.sched.groups p
  let r := threadSequences swapInSequence
    (s.sched.blockManager, s.output.blockSwapsIn) grp.sequences
  s.charge (Scheduler.estimateTokens grp false)
    { s.sched.putSequences p r.1 r.2.1 with
      running := s.sched.running ++ [p], swapped := rest }
    { s.output with
      blockSwapsIn := r.2.2, swappedInGroups := s.output.swappedInGroups ++ [p] }

def swapInLoop : List GroupPtr → ScheduleState → ScheduleState
  | [], s => s
  | p :: rest, s => if s.swapInFits p then swapInLoop rest (s.swapInGroup p rest) else s

def trySwapIn (s : ScheduleState) : ScheduleState := swapInLoop s.sched.swapped s

end ScheduleState

/-! ## One scheduling step -/

namespace Scheduler

/-- The state `schedule()` starts its phases in. -/
def beginSchedule (st : Scheduler) : ScheduleState :=
  { sched := st,
    output := {},
    budgetTokens := st.config.maxNumBatchedTokens,
    budgetSeqs := st.config.maxNumSeqs }

def afterDecodes (st : Scheduler) : ScheduleState := st.beginSchedule.scheduleDecodes

/-- The state in which the prefill phase starts, the waiting queue sorted. -/
def beforePrefills (st : Scheduler) : ScheduleState :=
  { st.afterDecodes with sched := st.afterDecodes.sched.sortWaitingQueue }

def afterPrefills (st : Scheduler) : ScheduleState :=
  if st.afterDecodes.sched.waiting = [] then st.afterDecodes
  else st.beforePrefills.schedulePrefills

def afterSwapIn (st : Scheduler) : ScheduleState :=
  let s := st.afterPrefills
  if s.sched.swapped ≠ [] ∧ 0 < s.budgetTokens ∧ 0 < s.budgetSeqs then s.trySwapIn else s

def schedule (st : Scheduler) : SchedulerOutput × Scheduler :=
  let s := st.afterSwapIn
  ({ s.output with numBatchedTokens := st.config.maxNumBatchedTokens - s.budgetTokens }, s.sched)

end Scheduler

end CacheFlow
