import CacheFlow.Scheduler

set_option autoImplicit false

/-! # The batch manager

`build_batch` turns the scheduled groups into the token positions of one forward pass: every
position of the prompt for a sequence without output, the last token for one that is decoding.
`update_after_decode` hands the sampled tokens back.

Both read the groups through the addresses in the scheduler's output, so they work on the memory
`GroupPtr → SequenceGroup` of the scheduler. -/

namespace CacheFlow

/-- One token position of a batch. -/
structure BatchEntry where
  seqId : SeqId
  token : TokenId
  position : Nat
  blockTable : List BlockId
  isPrefill : Bool
  deriving DecidableEq, Repr

structure DecodeBatch where
  entries : List BatchEntry := []
  totalTokens : Nat := 0
  deriving DecidableEq, Repr

def DecodeBatch.add (batch : DecodeBatch) (e : BatchEntry) : DecodeBatch :=
  { entries := batch.entries ++ [e], totalTokens := batch.totalTokens + 1 }

structure BatchStats where
  numPrefillTokens : Nat := 0
  numDecodeTokens : Nat := 0
  numSequences : Nat := 0
  paddingTokens : Nat := 0
  deriving DecidableEq, Repr

namespace BatchManager

/-! ## Building a batch -/

def prefillEntry (seq : SequenceData) (i : Nat) (tok : TokenId) : BatchEntry :=
  { seqId := seq.seqId, token := tok, position := i, blockTable := seq.logicalBlocks,
    isPrefill := true }

/-- The entry of a decoding sequence: its last token, at the position it takes. -/
def decodeEntry (seq : SequenceData) : BatchEntry :=
  { seqId := seq.seqId,
    token := if seq.outputTokens.isEmpty then seq.promptTokens.getLast?.getD 0
      else seq.outputTokens.getLast?.getD 0,
    position := seq.totalLen - 1,
    blockTable := seq.logicalBlocks,
    isPrefill := false }

/-- The loop over the prompt, from position `i` on. -/
def addPrompt (seq : SequenceData) :
    Nat → List TokenId → DecodeBatch × BatchStats → DecodeBatch × BatchStats
  | _, [], acc => acc
  | i, tok :: rest, (batch, stats) =>
    addPrompt seq (i + 1) rest (batch.add (prefillEntry seq i tok),
      { stats with numPrefillTokens := stats.numPrefillTokens + 1 })

/-- The body of the loop over sequences. -/
def addSequence (acc : DecodeBatch × BatchStats) (seq : SequenceData) : DecodeBatch × BatchStats :=
  if seq.isFinished then acc
  else
    let acc' :=
      if seq.outputLen = 0 then addPrompt seq 0 seq.promptTokens acc
      else (acc.1.add (decodeEntry seq),
        { acc.2 with numDecodeTokens := acc.2.numDecodeTokens + 1 })
    (acc'.1, { acc'.2 with numSequences := acc'.2.numSequences + 1 })

def addGroup (groups : GroupPtr → SequenceGroup) (acc : DecodeBatch × BatchStats) (p : GroupPtr) :
    DecodeBatch × BatchStats :=
  (groups p).sequences.foldl addSequence acc

def computePadding (batch : DecodeBatch) (stats : BatchStats) : BatchStats :=
  if batch.entries = [] then stats
  else
    let maxPos := batch.entries.foldl (fun m e => max m e.position) 0
    { stats with paddingTokens := stats.numSequences * (maxPos + 1) - batch.entries.length }

/-- `build_batch`, with the statistics `last_stats()` returns afterwards. -/
def buildBatch (groups : GroupPtr → SequenceGroup) (out : SchedulerOutput) :
    DecodeBatch × BatchStats :=
  let acc := out.scheduledGroups.foldl (addGroup groups) ({}, {})
  (acc.1, computePadding acc.1 acc.2)

/-! ## Handing the tokens back -/

/-- Append a sampled token and finish the sequence when it is long enough. -/
def acceptToken (maxTokens : Int) (seq : SequenceData) (tok : TokenId) : SequenceData :=
  let seq' := seq.appendToken tok
  if maxTokens ≤ (seq'.outputLen : Int) then { seq' with status := .finishedLength } else seq'

/-- The loop over the sequences of one group. It consumes one token per unfinished sequence, and
    leaves the group when no token is left. The middle component is `first_token_time`. -/
def updateSequences (maxTokens : Int) (now : TimePoint) :
    List SequenceData → Option TimePoint → List TokenId →
      List SequenceData × Option TimePoint × List TokenId
  | [], first, toks => ([], first, toks)
  | seq :: rest, first, toks =>
    if seq.isFinished then
      let r := updateSequences maxTokens now rest first toks
      (seq :: r.1, r.2)
    else match toks with
      | [] => (seq :: rest, first, [])
      | tok :: toks =>
        let first' := if first.isNone ∧ (seq.appendToken tok).outputLen = 1 then some now else first
        let r := updateSequences maxTokens now rest first' toks
        (acceptToken maxTokens seq tok :: r.1, r.2)

/-- The loop over the scheduled groups. -/
def updateGroups (now : TimePoint) :
    List GroupPtr → (GroupPtr → SequenceGroup) → List TokenId → GroupPtr → SequenceGroup
  | [], groups, _ => groups
  | p :: rest, groups, toks =>
    let grp := groups p
    let r := updateSequences grp.sampling.maxTokens now grp.sequences grp.firstTokenTime toks
    updateGroups now rest
      (Function.update groups p { grp with sequences := r.1, firstTokenTime := r.2.1 }) r.2.2

def updateAfterDecode (groups : GroupPtr → SequenceGroup) (out : SchedulerOutput)
    (newTokens : List TokenId) (now : TimePoint) : GroupPtr → SequenceGroup :=
  updateGroups now out.scheduledGroups groups newTokens

/-! ## The batch as one list -/

/-- The entries `build_batch` emits for one sequence. -/
def seqEntries (seq : SequenceData) : List BatchEntry :=
  if seq.isFinished then []
  else if seq.outputLen = 0 then seq.promptTokens.mapIdx (prefillEntry seq)
  else [decodeEntry seq]

theorem addPrompt_entries (seq : SequenceData) (toks : List TokenId) (i : Nat)
    (acc : DecodeBatch × BatchStats) :
    (addPrompt seq i toks acc).1.entries
      = acc.1.entries ++ toks.mapIdx (fun j tok => prefillEntry seq (i + j) tok) := by
  induction toks generalizing i acc with
  | nil => simp [addPrompt]
  | cons tok rest ih =>
      rw [addPrompt, ih]
      simp only [DecodeBatch.add, List.append_assoc, List.singleton_append, List.mapIdx_cons]
      congr 3
      funext j t
      rw [Nat.add_assoc, Nat.add_comm 1 j]

theorem addSequence_entries (acc : DecodeBatch × BatchStats) (seq : SequenceData) :
    (addSequence acc seq).1.entries = acc.1.entries ++ seqEntries seq := by
  unfold addSequence seqEntries
  by_cases hfin : seq.isFinished
  · simp [hfin]
  · by_cases hout : seq.outputLen = 0
    · simp [hfin, hout, addPrompt_entries]
    · simp [hfin, hout, DecodeBatch.add]

theorem foldl_addSequence_entries (seqs : List SequenceData) (acc : DecodeBatch × BatchStats) :
    (seqs.foldl addSequence acc).1.entries = acc.1.entries ++ seqs.flatMap seqEntries := by
  induction seqs generalizing acc with
  | nil => simp
  | cons seq rest ih => simp [ih, addSequence_entries]

theorem foldl_addGroup_entries (groups : GroupPtr → SequenceGroup) (ps : List GroupPtr)
    (acc : DecodeBatch × BatchStats) :
    (ps.foldl (addGroup groups) acc).1.entries
      = acc.1.entries ++ ps.flatMap (fun p => (groups p).sequences.flatMap seqEntries) := by
  induction ps generalizing acc with
  | nil => simp
  | cons p rest ih => simp [ih, addGroup, foldl_addSequence_entries]

/-- The batch lists the entries of the scheduled groups' sequences in order. -/
theorem buildBatch_entries (groups : GroupPtr → SequenceGroup) (out : SchedulerOutput) :
    (buildBatch groups out).1.entries
      = out.scheduledGroups.flatMap (fun p => (groups p).sequences.flatMap seqEntries) := by
  simp [buildBatch, foldl_addGroup_entries]

/-! ## `total_tokens` -/

theorem addPrompt_totalTokens (seq : SequenceData) (toks : List TokenId) (i : Nat)
    {acc : DecodeBatch × BatchStats} (h : acc.1.totalTokens = acc.1.entries.length) :
    (addPrompt seq i toks acc).1.totalTokens = (addPrompt seq i toks acc).1.entries.length := by
  induction toks generalizing i acc with
  | nil => exact h
  | cons tok rest ih =>
      rw [addPrompt]
      apply ih
      simp [DecodeBatch.add, h]

theorem addSequence_totalTokens {acc : DecodeBatch × BatchStats} (seq : SequenceData)
    (h : acc.1.totalTokens = acc.1.entries.length) :
    (addSequence acc seq).1.totalTokens = (addSequence acc seq).1.entries.length := by
  unfold addSequence
  split
  · exact h
  · split
    · exact addPrompt_totalTokens seq _ 0 h
    · simp [DecodeBatch.add, h]

theorem buildBatch_totalTokens (groups : GroupPtr → SequenceGroup) (out : SchedulerOutput) :
    (buildBatch groups out).1.totalTokens = (buildBatch groups out).1.entries.length := by
  have hseqs : ∀ (seqs : List SequenceData) (acc : DecodeBatch × BatchStats),
      acc.1.totalTokens = acc.1.entries.length →
      (seqs.foldl addSequence acc).1.totalTokens
        = (seqs.foldl addSequence acc).1.entries.length := by
    intro seqs
    induction seqs with
    | nil => exact fun _ h => h
    | cons seq rest ih => exact fun acc h => ih _ (addSequence_totalTokens seq h)
  have hgroups : ∀ (ps : List GroupPtr) (acc : DecodeBatch × BatchStats),
      acc.1.totalTokens = acc.1.entries.length →
      (ps.foldl (addGroup groups) acc).1.totalTokens
        = (ps.foldl (addGroup groups) acc).1.entries.length := by
    intro ps
    induction ps with
    | nil => exact fun _ h => h
    | cons p rest ih => exact fun acc h => ih _ (hseqs _ _ h)
  exact hgroups out.scheduledGroups ({}, {}) rfl

end BatchManager

end CacheFlow
