import Mathlib.Algebra.Group.Int.Defs
import Mathlib.Algebra.GroupWithZero.Nat
import Mathlib.Data.List.Basic

set_option autoImplicit false

/-! # Shared types and request records

The types of `common.h` and `request.h` that the modelled functions read or write. `size_t` counters
are `Nat`, 32-bit tokens, priorities and block ids are `Int`. Counts of tokens, blocks and groups are
lengths of vectors and stay below their width, and pools have at most `2^31` blocks, so the cast of a
block index to `BlockId` is exact. The block size is any `size_t`: where it enters a sum, the sum is
taken modulo `2^64`. -/

namespace CacheFlow

abbrev TokenId := Int
abbrev SeqId := Nat
abbrev BlockId := Int
abbrev TimePoint := Nat

/-- `INVALID_BLOCK`. -/
abbrev invalidBlock : BlockId := -1

/-! ## Enumerations -/

inductive RequestStatus
  | waiting
  | running
  | preempted
  | swapped
  | finishedStopped
  | finishedLength
  | finishedEos
  | finishedAbort
  deriving DecidableEq, Repr

/-- `is_finished`: the enumerators from `FINISHED_STOPPED` on. -/
def RequestStatus.isFinished : RequestStatus → Bool
  | .waiting | .running | .preempted | .swapped => false
  | .finishedStopped | .finishedLength | .finishedEos | .finishedAbort => true

inductive SchedulePolicy
  | fcfs
  | shortestRemaining
  | priority
  deriving DecidableEq, Repr

inductive PreemptionMode
  | recompute
  | swap
  deriving DecidableEq, Repr

inductive DeviceType
  | cpu
  | cuda
  deriving DecidableEq, Repr

/-! ## Configuration -/

/-- The fields of `ModelConfig` that the cache and the sampler read. -/
structure ModelConfig where
  nLayers : Nat := 32
  nKvHeads : Nat := 32
  headDim : Nat := 128
  vocabSize : Nat := 32000
  deriving DecidableEq, Repr

structure SchedulerConfig where
  maxNumSeqs : Nat := 256
  maxNumBatchedTokens : Nat := 4096
  policy : SchedulePolicy := .fcfs
  preemptionMode : PreemptionMode := .swap
  deriving DecidableEq, Repr

structure CacheConfig where
  numGpuBlocks : Nat := 8192
  numCpuBlocks : Nat := 16384
  blockSize : Nat := 16
  deriving DecidableEq, Repr

/-! ## Requests -/

/-- The sampling parameters of a request; `maxTokens` is the one the scheduler side reads. -/
structure SamplingParams where
  maxTokens : Int := 512
  deriving DecidableEq, Repr

/-- `(n + block_size - 1) / block_size` in `size_t`: the blocks for `n` tokens, unless the sum wraps. -/
def blocksFor (n blockSize : Nat) : Nat := (n + blockSize - 1) % 2 ^ 64 / blockSize

/-- One sequence: its tokens and the physical blocks that hold its keys and values. -/
structure SequenceData where
  seqId : SeqId
  promptTokens : List TokenId
  outputTokens : List TokenId := []
  logicalBlocks : List BlockId := []
  status : RequestStatus := .waiting
  deriving DecidableEq, Repr

namespace SequenceData

def promptLen (seq : SequenceData) : Nat := seq.promptTokens.length

def outputLen (seq : SequenceData) : Nat := seq.outputTokens.length

def totalLen (seq : SequenceData) : Nat := seq.promptLen + seq.outputLen

def numBlocksNeeded (seq : SequenceData) (blockSize : Nat) : Nat := blocksFor seq.totalLen blockSize

/-- The sum in `num_blocks_needed` stays within `size_t`. -/
def NoWrap (seq : SequenceData) (blockSize : Nat) : Prop := seq.totalLen + blockSize ≤ 2 ^ 64

instance (seq : SequenceData) (blockSize : Nat) : Decidable (seq.NoWrap blockSize) :=
  inferInstanceAs (Decidable (_ ≤ _))

def appendToken (seq : SequenceData) (tok : TokenId) : SequenceData :=
  { seq with outputTokens := seq.outputTokens ++ [tok] }

def isFinished (seq : SequenceData) : Bool := seq.status.isFinished

end SequenceData

/-- A request: one sequence, or several for beam search. -/
structure SequenceGroup where
  requestId : SeqId
  sequences : List SequenceData
  sampling : SamplingParams := {}
  priority : Int := 0
  firstTokenTime : Option TimePoint := none
  deriving DecidableEq, Repr

namespace SequenceGroup

/-- The constructor `SequenceGroup(rid, prompt, sp, prio)`: one waiting sequence named like the
    request. -/
def new (rid : SeqId) (prompt : List TokenId) (sp : SamplingParams) (prio : Int := 0) :
    SequenceGroup :=
  { requestId := rid,
    sequences := [{ seqId := rid, promptTokens := prompt, status := .waiting }],
    sampling := sp,
    priority := prio }

def allFinished (g : SequenceGroup) : Bool := g.sequences.all SequenceData.isFinished

def numUnfinished (g : SequenceGroup) : Nat := g.sequences.countP (fun s => !s.isFinished)

/-- The prompt length of the first sequence, 0 for an empty group. -/
def promptLen (g : SequenceGroup) : Nat :=
  match g.sequences with
  | [] => 0
  | seq :: _ => seq.promptLen

end SequenceGroup

end CacheFlow
