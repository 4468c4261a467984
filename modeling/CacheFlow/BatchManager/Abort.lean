import CacheFlow.BatchManager.Delivery
import CacheFlow.Scheduler.Census

set_option autoImplicit false

/-! # Aborts between building a batch and handing its tokens back

`abort_request` takes the scheduler's lock, `build_batch`, `step` and `update_after_decode` do not, so a
client may abort a scheduled group at any point between them. An abort before `build_batch` only leaves
the group out of the batch. One after it does not take the group's entry out of the batch again, but
`update_after_decode` skips the group: every token behind it goes to the sequence one place further on.

`delivered_despite_aborts_iff` says which aborts do no harm: those with no unfinished group behind. -/

namespace CacheFlow

/-- What `abort_request` leaves of a sequence. -/
def SequenceData.aborted (seq : SequenceData) : SequenceData :=
  if seq.isFinished then seq else { seq with status := .finishedAbort }

def SequenceGroup.aborted (grp : SequenceGroup) : SequenceGroup :=
  { grp with sequences := grp.sequences.map SequenceData.aborted }

@[simp] theorem SequenceData.isFinished_aborted (seq : SequenceData) : seq.aborted.isFinished = true := by
  unfold SequenceData.aborted
  split
  · assumption
  · rfl

theorem SequenceData.aborted_of_finished {seq : SequenceData} (h : seq.isFinished = true) :
    seq.aborted = seq :=
  if_pos h

@[simp] theorem SequenceGroup.aborted_aborted (grp : SequenceGroup) :
    grp.aborted.aborted = grp.aborted := by
  simp [SequenceGroup.aborted, SequenceData.aborted_of_finished]

theorem threadSequences_abortSequence (bm : BlockManager) (seqs : List SequenceData) :
    (threadSequences abortSequence bm seqs).1 = seqs.map SequenceData.aborted := by
  induction seqs generalizing bm with
  | nil => rfl
  | cons seq rest ih =>
      have hseq : (abortSequence bm seq).1 = seq.aborted := by
        unfold abortSequence SequenceData.aborted
        split <;> rfl
      simp only [threadSequences, hseq, ih, List.map_cons]

namespace Scheduler

/-- Calls of `abort_request`, one after the other. -/
def abortRequests (st : Scheduler) (ids : List SeqId) : Scheduler := ids.foldl abortRequest st

/-- One of the ids is the one the group `p` is registered under. -/
def Found (st : Scheduler) (ids : List SeqId) (p : GroupPtr) : Prop :=
  ∃ id ∈ ids, st.requestMap.lookup id = some p

instance (st : Scheduler) (ids : List SeqId) (p : GroupPtr) : Decidable (st.Found ids p) :=
  inferInstanceAs (Decidable (∃ id ∈ ids, _))

theorem abortRequest_lookup {st : Scheduler} {id : SeqId} {q : GroupPtr}
    (hq : st.requestMap.lookup id = some q) {id' : SeqId} (hne : id' ≠ id) :
    (st.abortRequest id).requestMap.lookup id' = st.requestMap.lookup id' := by
  simp only [abortRequest, hq]
  exact AList.lookup_erase_ne hne

theorem abortRequest_groups {st : Scheduler} {id : SeqId} {q : GroupPtr}
    (hq : st.requestMap.lookup id = some q) (p : GroupPtr) :
    (st.abortRequest id).groups p = if p = q then (st.groups p).aborted else st.groups p := by
  simp only [abortRequest, hq, putSequences, threadSequences_abortSequence]
  by_cases hp : p = q
  · subst hp
    rw [Function.update_self, if_pos rfl]
    rfl
  · rw [Function.update_of_ne hp, if_neg hp]

/-- **A series of aborts** finishes the groups it finds and touches no other group. -/
theorem abortRequests_groups (st : Scheduler) (ids : List SeqId) (p : GroupPtr) :
    (st.abortRequests ids).groups p
      = if st.Found ids p then (st.groups p).aborted else st.groups p := by
  induction ids generalizing st with
  | nil => simp [abortRequests, Found]
  | cons id ids ih =>
      have hrun : st.abortRequests (id :: ids) = (st.abortRequest id).abortRequests ids := rfl
      rw [hrun, ih]
      cases hq : st.requestMap.lookup id with
      | none =>
          have hsame : st.abortRequest id = st := by simp [abortRequest, hq]
          have hfound : st.Found (id :: ids) p ↔ st.Found ids p := by simp [Found, hq]
          simp only [hsame, hfound]
      | some q =>
          rw [abortRequest_groups hq]
          by_cases hp : p = q
          · have hfound : st.Found (id :: ids) p := ⟨id, List.mem_cons_self .., hp ▸ hq⟩
            rw [if_pos hp, if_pos hfound, SequenceGroup.aborted_aborted, ite_self]
          · have hfound : (st.abortRequest id).Found ids p ↔ st.Found (id :: ids) p := by
              constructor
              · rintro ⟨id', hmem, hlookup⟩
                exact ⟨id', List.mem_cons_of_mem _ hmem, lookup_abortRequest hlookup⟩
              · rintro ⟨id', hmem, hlookup⟩
                -- the id of the call itself belongs to the group `q`
                have hne : id' ≠ id := by
                  rintro rfl
                  exact hp (Option.some.inj (hlookup.symm.trans hq))
                rw [← abortRequest_lookup hq hne] at hlookup
                exact ⟨id', List.mem_of_ne_of_mem hne hmem, hlookup⟩
            simp only [if_neg hp, hfound]

end Scheduler

namespace BatchManager

/-- The request ids that are aborted between `schedule()` and `build_batch`, between `build_batch` and
    `step`, and between `step` and `update_after_decode`. -/
structure AbortWindows where
  beforeBuild : List SeqId
  beforeStep : List SeqId
  beforeUpdate : List SeqId
  deriving DecidableEq, Repr

section Windows

variable (st : Scheduler) (out : SchedulerOutput) (aborts : AbortWindows)

/-- The scheduler when `build_batch` reads the groups. -/
def atBuild : Scheduler := st.abortRequests aborts.beforeBuild

/-- The scheduler when `update_after_decode` reads the groups. -/
def atUpdate : Scheduler :=
  ((atBuild st aborts).abortRequests aborts.beforeStep).abortRequests aborts.beforeUpdate

/-- Every sequence still unfinished at `update_after_decode` gets the token sampled for its own entry of
    the batch, and the others get nothing. -/
def DeliveredDespite (toks : List TokenId) (now : TimePoint) : Prop :=
  ∀ p ∈ out.scheduledGroups, ∀ (i : Nat) (seq : SequenceData),
    ((atUpdate st aborts).groups p).sequences[i]? = some seq →
    if seq.isFinished then
      (updateAfterDecode (atUpdate st aborts).groups out toks now p).sequences[i]? = some seq
    else ∃ (j : Nat) (tok : TokenId) (seq' : SequenceData),
      LastIndex (entryOwners (atBuild st aborts).groups out) (p, i) j ∧ toks[j]? = some tok ∧
      (updateAfterDecode (atUpdate st aborts).groups out toks now p).sequences[i]? = some seq' ∧
      seq'.outputTokens = seq.outputTokens ++ [tok]

/-- The group has an entry in the batch and is aborted before the tokens are handed back. -/
def Withdrawn (p : GroupPtr) : Prop :=
  (atBuild st aborts).Found (aborts.beforeStep ++ aborts.beforeUpdate) p ∧
    ∃ seq ∈ ((atBuild st aborts).groups p).sequences, seq.isFinished = false

/-- The group takes no token: it is aborted as well, or was finished before. -/
def Settled (p : GroupPtr) : Prop :=
  (atBuild st aborts).Found (aborts.beforeStep ++ aborts.beforeUpdate) p ∨
    ∀ seq ∈ ((atBuild st aborts).groups p).sequences, seq.isFinished = true

instance (p : GroupPtr) : Decidable (Withdrawn st aborts p) := inferInstanceAs (Decidable (_ ∧ _))

instance (p : GroupPtr) : Decidable (Settled st aborts p) := inferInstanceAs (Decidable (_ ∨ _))

end Windows

section Ranks

variable {st : Scheduler} {out : SchedulerOutput} {aborts : AbortWindows}

/-- The windows before and after `step` have the same effect. -/
theorem atUpdate_groups (p : GroupPtr) :
    (atUpdate st aborts).groups p
      = if (atBuild st aborts).Found (aborts.beforeStep ++ aborts.beforeUpdate) p
        then ((atBuild st aborts).groups p).aborted else (atBuild st aborts).groups p := by
  rw [← Scheduler.abortRequests_groups, atUpdate, Scheduler.abortRequests, Scheduler.abortRequests,
    Scheduler.abortRequests, List.foldl_append]

theorem activeCount_aborted (grp : SequenceGroup) : activeCount grp.aborted.sequences = 0 := by
  simp [activeCount, SequenceGroup.aborted]

/-- A group that is not settled is the same at `update_after_decode`. -/
theorem atUpdate_of_unfinished {p : GroupPtr} {seq : SequenceData}
    (hseq : seq ∈ ((atUpdate st aborts).groups p).sequences) (hfin : seq.isFinished = false) :
    (atUpdate st aborts).groups p = (atBuild st aborts).groups p ∧ ¬ Settled st aborts p := by
  rw [atUpdate_groups] at hseq ⊢
  split at hseq
  · next hfound =>
      obtain ⟨seq₀, -, rfl⟩ := List.mem_map.1 hseq
      rw [SequenceData.isFinished_aborted] at hfin
      exact absurd hfin (by simp)
  · next hfound =>
      refine ⟨if_neg hfound, ?_⟩
      rintro (h | h)
      · exact hfound h
      · exact absurd (h seq hseq) (by simp [hfin])

variable (st aborts) in
/-- A group takes as many tokens as it has entries, unless it has been withdrawn. -/
theorem activeCount_atUpdate (p : GroupPtr) :
    activeCount ((atUpdate st aborts).groups p).sequences
        ≤ activeCount ((atBuild st aborts).groups p).sequences ∧
      (activeCount ((atUpdate st aborts).groups p).sequences
          = activeCount ((atBuild st aborts).groups p).sequences ↔ ¬ Withdrawn st aborts p) := by
  rw [atUpdate_groups]
  split
  · next hfound =>
      rw [activeCount_aborted]
      refine ⟨Nat.zero_le _, ?_⟩
      rw [eq_comm, activeCount, List.countP_eq_zero]
      constructor
      · rintro hall ⟨-, seq, hseq, hfin⟩
        exact hall seq hseq (by simp [hfin])
      · intro hnone seq hseq hfin
        exact hnone ⟨hfound, seq, hseq, by simpa using hfin⟩
  · next hfound => exact ⟨Nat.le_refl _, iff_of_true rfl (fun h => hfound h.1)⟩

variable (st aborts) in
/-- The ranks at `update_after_decode` are those at `build_batch` if nothing before was withdrawn. -/
theorem activeIn_atUpdate (ps : List GroupPtr) :
    activeIn (atUpdate st aborts).groups ps ≤ activeIn (atBuild st aborts).groups ps ∧
      (activeIn (atUpdate st aborts).groups ps = activeIn (atBuild st aborts).groups ps ↔
        ∀ p ∈ ps, ¬ Withdrawn st aborts p) := by
  induction ps with
  | nil => simp [activeIn]
  | cons p ps ih =>
      obtain ⟨hle, hiff⟩ := activeCount_atUpdate st aborts p
      obtain ⟨hle', hiff'⟩ := ih
      rw [List.forall_mem_cons, ← hiff, ← hiff']
      simp only [activeIn, List.map_cons, List.sum_cons] at hle' ⊢
      omega

variable (aborts) in
/-- Decoding sequences have one entry each, also after aborts. -/
theorem singleEntry_atBuild
    (hdecode : ∀ p ∈ out.scheduledGroups, ∀ seq ∈ (st.groups p).sequences,
      seq.isFinished = false → 1 ≤ seq.outputLen) :
    ∀ p ∈ out.scheduledGroups, ∀ seq ∈ ((atBuild st aborts).groups p).sequences, SingleEntry seq := by
  intro p hp seq hseq hfin hout
  rw [atBuild, Scheduler.abortRequests_groups] at hseq
  split at hseq
  · obtain ⟨seq₀, -, rfl⟩ := List.mem_map.1 hseq
    exact absurd hfin (by simp)
  · have hlen := hdecode p hp seq hseq hfin
    omega

section OneSequence

variable {pre post : List GroupPtr} {p : GroupPtr} {i : Nat} {seq : SequenceData}

/-- The entry of a sequence still unfinished stands at its rank among the sequences unfinished at
    `build_batch`. -/
theorem lastIndex_atBuild (hnodup : out.scheduledGroups.Nodup)
    (hsingle : ∀ p ∈ out.scheduledGroups, ∀ seq ∈ ((atBuild st aborts).groups p).sequences,
      SingleEntry seq)
    (hsplit : out.scheduledGroups = pre ++ p :: post)
    (hseq : ((atUpdate st aborts).groups p).sequences[i]? = some seq)
    (hfin : seq.isFinished = false) :
    (∀ j, LastIndex (entryOwners (atBuild st aborts).groups out) (p, i) j ↔
      j = activeIn (atBuild st aborts).groups pre
        + activeCount (((atUpdate st aborts).groups p).sequences.take i)) ∧
    activeIn (atBuild st aborts).groups pre
        + activeCount (((atUpdate st aborts).groups p).sequences.take i)
      < (buildBatch (atBuild st aborts).groups out).1.entries.length := by
  obtain ⟨hgroup, -⟩ := atUpdate_of_unfinished (List.mem_of_getElem? hseq) hfin
  rw [hgroup] at hseq ⊢
  have hp : p ∈ out.scheduledGroups := by
    rw [hsplit]
    exact List.mem_append_right _ (List.mem_cons_self ..)
  have hpre : ∀ q ∈ pre, q ∈ out.scheduledGroups := by
    intro q hq
    rw [hsplit]
    exact List.mem_append_left _ hq
  have hone := seqEntries_length_of_single (hsingle p hp seq (List.mem_of_getElem? hseq)) hfin
  have hrank := activeIn_eq_entriesIn (atBuild st aborts).groups pre
    (fun q hq => hsingle q (hpre q hq))
  have hrank' := activeCount_eq_entryCount (((atBuild st aborts).groups p).sequences.take i)
    (fun s hs => hsingle p hp s (List.mem_of_mem_take hs))
  have hbound := entriesIn_split hsplit hseq
  refine ⟨fun j => ?_, ?_⟩
  · rw [lastIndex_entryOwners hsplit hnodup hseq (by omega)]
    omega
  · omega

/-- The token it is handed is the one at its rank among the sequences still unfinished. -/
theorem updateAfterDecode_atUpdate (now : TimePoint) (hnodup : out.scheduledGroups.Nodup)
    (hsplit : out.scheduledGroups = pre ++ p :: post)
    (hseq : ((atUpdate st aborts).groups p).sequences[i]? = some seq) (hfin : seq.isFinished = false)
    {toks : List TokenId} {tok : TokenId}
    (htok : toks[activeIn (atUpdate st aborts).groups pre
      + activeCount (((atUpdate st aborts).groups p).sequences.take i)]? = some tok) :
    ∃ seq', (updateAfterDecode (atUpdate st aborts).groups out toks now p).sequences[i]? = some seq' ∧
      seq'.outputTokens = seq.outputTokens ++ [tok] := by
  refine ⟨_, ?_, acceptToken_outputTokens ((atUpdate st aborts).groups p).sampling.maxTokens seq tok⟩
  rw [updateAfterDecode_getElem? hsplit hnodup toks now i hseq, htok]
  simp [hfin]

end OneSequence

end Ranks

section Directions

variable {st : Scheduler} {out : SchedulerOutput} {aborts : AbortWindows} {now : TimePoint}

/-- Without a withdrawn group before it, a sequence is handed the token of its entry. -/
theorem deliveredDespite_of_pairwise (hnodup : out.scheduledGroups.Nodup)
    (hsingle : ∀ p ∈ out.scheduledGroups, ∀ seq ∈ ((atBuild st aborts).groups p).sequences,
      SingleEntry seq)
    (hpair : out.scheduledGroups.Pairwise (fun p q => Withdrawn st aborts p → Settled st aborts q))
    {toks : List TokenId}
    (hlen : toks.length = (buildBatch (atBuild st aborts).groups out).1.entries.length) :
    DeliveredDespite st out aborts toks now := by
  intro p hp i seq hseq
  obtain ⟨pre, post, hsplit⟩ := List.append_of_mem hp
  by_cases hfin : seq.isFinished = true
  · rw [if_pos hfin, updateAfterDecode_getElem? hsplit hnodup toks now i hseq, if_pos hfin]
  · have hfin' : seq.isFinished = false := by simpa using hfin
    obtain ⟨-, hunsettled⟩ := atUpdate_of_unfinished (List.mem_of_getElem? hseq) hfin'
    rw [hsplit, List.pairwise_append] at hpair
    have hkept : ∀ q ∈ pre, ¬ Withdrawn st aborts q := fun q hq hw =>
      hunsettled (hpair.2.2 q hq p (List.mem_cons_self ..) hw)
    obtain ⟨hlast, hlt⟩ := lastIndex_atBuild hnodup hsingle hsplit hseq hfin'
    rw [← (activeIn_atUpdate st aborts pre).2.2 hkept] at hlast hlt
    rw [← hlen] at hlt
    have htok := List.getElem?_eq_getElem hlt
    obtain ⟨seq', hupd, happ⟩ := updateAfterDecode_atUpdate now hnodup hsplit hseq hfin' htok
    rw [if_neg hfin]
    exact ⟨_, _, seq', (hlast _).2 rfl, htok, hupd, happ⟩

/-- The tokens that are their own indices tell which entry a sequence is handed the token of. -/
theorem not_withdrawn_of_delivered (hnodup : out.scheduledGroups.Nodup)
    (hsingle : ∀ p ∈ out.scheduledGroups, ∀ seq ∈ ((atBuild st aborts).groups p).sequences,
      SingleEntry seq)
    (hall : ∀ toks : List TokenId,
      toks.length = (buildBatch (atBuild st aborts).groups out).1.entries.length →
      DeliveredDespite st out aborts toks now)
    {pre post : List GroupPtr} {q : GroupPtr} (hsplit : out.scheduledGroups = pre ++ q :: post)
    (hunsettled : ¬ Settled st aborts q) : ∀ p ∈ pre, ¬ Withdrawn st aborts p := by
  have hq : q ∈ out.scheduledGroups := by
    rw [hsplit]
    exact List.mem_append_right _ (List.mem_cons_self ..)
  obtain ⟨hfound, hsome⟩ := not_or.1 hunsettled
  push Not at hsome
  obtain ⟨seq, hmem, hfin⟩ := hsome
  have hfin' : seq.isFinished = false := by simpa using hfin
  have hgroup : (atUpdate st aborts).groups q = (atBuild st aborts).groups q := by
    rw [atUpdate_groups, if_neg hfound]
  obtain ⟨i, hseq⟩ := List.mem_iff_getElem?.1 (hgroup ▸ hmem)
  obtain ⟨hlast, hlt⟩ := lastIndex_atBuild hnodup hsingle hsplit hseq hfin'
  obtain ⟨hle, hiff⟩ := activeIn_atUpdate st aborts pre
  generalize hlen : (buildBatch (atBuild st aborts).groups out).1.entries.length = n at hall hlt
  have htok : ∀ k < n, ((List.range n).map (fun k : Nat => (k : Int)))[k]? = some (k : Int) := by
    intro k hk
    simp [hk]
  have hdel := hall ((List.range n).map (fun k : Nat => (k : Int))) (by simp) q hq i seq hseq
  rw [if_neg hfin] at hdel
  obtain ⟨j, tok, seq', hj, hown, hupd, happ⟩ := hdel
  obtain ⟨seq'', hupd', happ'⟩ := updateAfterDecode_atUpdate now hnodup hsplit hseq hfin'
    (htok (activeIn (atUpdate st aborts).groups pre
      + activeCount (((atUpdate st aborts).groups q).sequences.take i)) (by omega))
  rw [(hlast j).1 hj, htok _ hlt] at hown
  obtain rfl : seq' = seq'' := Option.some.inj (hupd.symm.trans hupd')
  rw [happ, ← Option.some.inj hown] at happ'
  have hrank := Int.natCast_inj.1 (List.cons.inj (List.append_cancel_left happ')).1
  rw [← hiff]
  omega

end Directions

/-- **Which aborts misdeliver no token.** When every unfinished scheduled sequence is decoding, the
    aborts between `schedule()` and `update_after_decode` leave every token with the sequence it was
    sampled for, whatever the tokens are, exactly if no group that is withdrawn after `build_batch` stands
    before one that still takes a token. -/
theorem delivered_despite_aborts_iff (st : Scheduler) (out : SchedulerOutput) (aborts : AbortWindows)
    (now : TimePoint) (hnodup : out.scheduledGroups.Nodup)
    (hdecode : ∀ p ∈ out.scheduledGroups, ∀ seq ∈ (st.groups p).sequences,
      seq.isFinished = false → 1 ≤ seq.outputLen) :
    (∀ toks : List TokenId,
      toks.length = (buildBatch (atBuild st aborts).groups out).1.entries.length →
      DeliveredDespite st out aborts toks now) ↔
    out.scheduledGroups.Pairwise (fun p q => Withdrawn st aborts p → Settled st aborts q) := by
  have hsingle := singleEntry_atBuild aborts hdecode
  constructor
  · intro hall
    rw [List.pairwise_iff_getElem]
    intro a b ha hb hab hw
    by_contra hunsettled
    have hsplit : out.scheduledGroups = out.scheduledGroups.take b
        ++ out.scheduledGroups[b] :: out.scheduledGroups.drop (b + 1) := by
      rw [← List.drop_eq_getElem_cons hb, List.take_append_drop]
    have hmem : out.scheduledGroups[a] ∈ out.scheduledGroups.take b :=
      List.mem_take_iff_getElem.2 ⟨a, by omega, rfl⟩
    exact not_withdrawn_of_delivered hnodup hsingle hall hsplit hunsettled _ hmem hw
  · intro hpair toks hlen
    exact deliveredDespite_of_pairwise hnodup hsingle hpair hlen

/-- Two requests after their first step, scheduled again: each decodes one token. -/
def twoDecoding : SchedulerOutput × Scheduler :=
  let bm := BlockManager.new { numGpuBlocks := 4, numCpuBlocks := 0, blockSize := 4 }
  let first := (((Scheduler.new {} bm).addRequest (.new 1 [5] {})).addRequest (.new 2 [7] {})).schedule
  { first.2 with groups := updateAfterDecode first.2.groups first.1 [10, 20] 0 }.schedule

/-- The first request is aborted while its token is being computed. -/
def firstAborted : AbortWindows := { beforeBuild := [], beforeStep := [], beforeUpdate := [1] }

/-- The tokens 30 and 40 are sampled for the two requests; the second is handed the first's. -/
theorem firstAborted_misdelivered :
    twoDecoding.1.scheduledGroups.Nodup ∧
    (∀ p ∈ twoDecoding.1.scheduledGroups, ∀ seq ∈ (twoDecoding.2.groups p).sequences,
      seq.isFinished = false → 1 ≤ seq.outputLen) ∧
    ([30, 40] : List TokenId).length
      = (buildBatch (atBuild twoDecoding.2 firstAborted).groups twoDecoding.1).1.entries.length ∧
    (updateAfterDecode (atUpdate twoDecoding.2 firstAborted).groups twoDecoding.1 [30, 40] 0 1).sequences.map
      SequenceData.outputTokens = [[20, 30]] ∧
    ¬ DeliveredDespite twoDecoding.2 twoDecoding.1 firstAborted [30, 40] 0 := by
  refine ⟨by decide, by decide, by decide, by decide, fun h => ?_⟩
  have hsplit : twoDecoding.1.scheduledGroups = [0] ++ 1 :: [] := by decide
  have hseq : ((atUpdate twoDecoding.2 firstAborted).groups 1).sequences[0]?
      = some { seqId := 2, promptTokens := [7], outputTokens := [20], logicalBlocks := [1],
               status := .running } := by
    decide
  obtain ⟨j, tok, seq', hlast, htok, hupd, happ⟩ := h 1 (by decide) 0 _ hseq
  have hsingle : ∀ p ∈ twoDecoding.1.scheduledGroups,
      ∀ seq ∈ ((atBuild twoDecoding.2 firstAborted).groups p).sequences, SingleEntry seq :=
    singleEntry_atBuild firstAborted (by decide)
  obtain ⟨hown, -⟩ := lastIndex_atBuild (by decide) hsingle hsplit hseq rfl
  obtain rfl : j = 1 := ((hown j).1 hlast).trans (by decide)
  have hgot : (updateAfterDecode (atUpdate twoDecoding.2 firstAborted).groups twoDecoding.1 [30, 40] 0
      1).sequences[0]?.map SequenceData.outputTokens = some [20, 30] := by
    decide
  rw [hupd, Option.map_some, happ] at hgot
  simp only [List.cons_append, List.nil_append, Option.some.injEq, List.cons.injEq, and_true,
    true_and] at hgot
  rw [hgot] at htok
  exact absurd htok (by decide)

/-- The last request is aborted at the same point, and the others get their own tokens. -/
theorem lastAborted_delivered :
    DeliveredDespite twoDecoding.2 twoDecoding.1 { firstAborted with beforeUpdate := [2] } [30, 40] 0 :=
  (delivered_despite_aborts_iff _ _ _ 0 (by decide) (by decide)).2 (by decide) [30, 40] (by decide)

end BatchManager

end CacheFlow
