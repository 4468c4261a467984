import CacheFlow.BatchManager

set_option autoImplicit false

/-! # Where the sampled tokens go

The decode engine returns one token per entry of the batch, `update_after_decode` takes one token per
unfinished sequence. The two readings of the same list agree exactly when every unfinished sequence
has a single entry: as soon as a prompt of two or more tokens is prefilled, that sequence and every
later one receive a token sampled for another position.

A sequence is named by its group and its index in the group; `entryOwners` lists, in batch order, the
sequence each entry was emitted for. -/

namespace CacheFlow.BatchManager

/-- The sequence each entry of the batch belongs to, parallel to `buildBatch_entries`. -/
def entryOwners (groups : GroupPtr → SequenceGroup) (out : SchedulerOutput) :
    List (GroupPtr × Nat) :=
  out.scheduledGroups.flatMap (fun p =>
    (groups p).sequences.zipIdx.flatMap (fun x => (seqEntries x.1).map (fun _ => (p, x.2))))

/-- `j` is the last index at which `x` stands in `l`. -/
def LastIndex {α : Type} (l : List α) (x : α) (j : Nat) : Prop :=
  l[j]? = some x ∧ ∀ k, j < k → l[k]? ≠ some x

/-- Every unfinished scheduled sequence gets the token of its last entry, and nothing else changes
    hands: finished sequences and unscheduled groups stay as they are. -/
def Delivered (groups : GroupPtr → SequenceGroup) (out : SchedulerOutput) (toks : List TokenId)
    (now : TimePoint) : Prop :=
  (∀ p ∈ out.scheduledGroups, ∀ (i : Nat) (seq : SequenceData), (groups p).sequences[i]? = some seq →
    if seq.isFinished then (updateAfterDecode groups out toks now p).sequences[i]? = some seq
    else ∃ (j : Nat) (tok : TokenId) (seq' : SequenceData),
      LastIndex (entryOwners groups out) (p, i) j ∧ toks[j]? = some tok ∧
      (updateAfterDecode groups out toks now p).sequences[i]? = some seq' ∧
      seq'.outputTokens = seq.outputTokens ++ [tok]) ∧
  (∀ p, p ∉ out.scheduledGroups → updateAfterDecode groups out toks now p = groups p)

/-! ## What `update_after_decode` hands to each sequence -/

/-- The number of unfinished sequences, each of which consumes one token. -/
def activeCount (seqs : List SequenceData) : Nat := seqs.countP (fun s => !s.isFinished)

theorem updateSequences_snd (maxTokens : Int) (now : TimePoint) (seqs : List SequenceData)
    (first : Option TimePoint) (toks : List TokenId) :
    (updateSequences maxTokens now seqs first toks).2.2 = toks.drop (activeCount seqs) := by
  induction seqs generalizing first toks with
  | nil => simp [updateSequences, activeCount]
  | cons seq rest ih =>
      by_cases hfin : seq.isFinished
      · simp [updateSequences, hfin, ih, activeCount]
      · cases toks with
        | nil => simp [updateSequences, hfin]
        | cons tok toks => simp [updateSequences, hfin, ih, activeCount]

/-- The sequence at index `i` consumes the token whose index is its rank among the unfinished ones. -/
theorem updateSequences_getElem? (maxTokens : Int) (now : TimePoint) (seqs : List SequenceData)
    (first : Option TimePoint) (toks : List TokenId) (i : Nat) {seq : SequenceData}
    (hseq : seqs[i]? = some seq) :
    (updateSequences maxTokens now seqs first toks).1[i]?
      = some (if seq.isFinished then seq
          else match toks[activeCount (seqs.take i)]? with
            | none => seq
            | some tok => acceptToken maxTokens seq tok) := by
  induction seqs generalizing first toks i with
  | nil => simp at hseq
  | cons s rest ih =>
      by_cases hfin : s.isFinished
      · cases i with
        | zero => simp_all [updateSequences]
        | succ i =>
            have hseq' : rest[i]? = some seq := by simpa using hseq
            simpa [updateSequences, hfin, activeCount] using ih first toks i hseq'
      · cases toks with
        | nil => simp [updateSequences, hfin, hseq]
        | cons tok toks =>
            cases i with
            | zero => simp_all [updateSequences, activeCount]
            | succ i =>
                have hseq' : rest[i]? = some seq := by simpa using hseq
                simpa [updateSequences, hfin, activeCount] using ih _ toks i hseq'

theorem updateGroups_of_not_mem (now : TimePoint) (ps : List GroupPtr)
    (groups : GroupPtr → SequenceGroup) (toks : List TokenId) {p : GroupPtr} (hp : p ∉ ps) :
    updateGroups now ps groups toks p = groups p := by
  induction ps generalizing groups toks with
  | nil => rfl
  | cons q rest ih =>
      obtain ⟨hne, hrest⟩ := not_or.1 (fun h => hp (List.mem_cons.2 h))
      rw [updateGroups, ih _ _ hrest, Function.update_of_ne hne]

/-- The tokens consumed by a list of groups. -/
def activeIn (groups : GroupPtr → SequenceGroup) (ps : List GroupPtr) : Nat :=
  (ps.map (fun p => activeCount (groups p).sequences)).sum

theorem updateGroups_append (now : TimePoint) (pre ps : List GroupPtr)
    (groups : GroupPtr → SequenceGroup) (toks : List TokenId) (hnodup : pre.Nodup) :
    updateGroups now (pre ++ ps) groups toks
      = updateGroups now ps (updateGroups now pre groups toks)
          (toks.drop (activeIn groups pre)) := by
  induction pre generalizing groups toks with
  | nil => simp [updateGroups, activeIn]
  | cons q rest ih =>
      obtain ⟨hq, hrest⟩ := List.nodup_cons.1 hnodup
      rw [List.cons_append, updateGroups, ih _ _ hrest, updateGroups, updateSequences_snd,
        List.drop_drop]
      congr 2
      simp only [activeIn, List.map_cons, List.sum_cons]
      congr 2
      refine List.map_congr_left (fun p hp => ?_)
      have hne : p ≠ q := fun he => hq (he ▸ hp)
      rw [Function.update_of_ne hne]

/-- The token of a scheduled sequence: the one whose index is its rank among all unfinished
    scheduled sequences. -/
theorem updateAfterDecode_getElem? {groups : GroupPtr → SequenceGroup} {out : SchedulerOutput}
    {pre post : List GroupPtr} {p : GroupPtr} (hsplit : out.scheduledGroups = pre ++ p :: post)
    (hnodup : out.scheduledGroups.Nodup) (toks : List TokenId) (now : TimePoint) (i : Nat)
    {seq : SequenceData} (hseq : (groups p).sequences[i]? = some seq) :
    (updateAfterDecode groups out toks now p).sequences[i]?
      = some (if seq.isFinished then seq
          else match toks[activeIn groups pre + activeCount ((groups p).sequences.take i)]? with
            | none => seq
            | some tok => acceptToken (groups p).sampling.maxTokens seq tok) := by
  rw [hsplit] at hnodup
  have hpre : pre.Nodup := (List.nodup_append.1 hnodup).1
  have hpost : p ∉ post := (List.nodup_cons.1 (List.nodup_append.1 hnodup).2.1).1
  have hp : p ∉ pre := fun hmem =>
    (List.nodup_append.1 hnodup).2.2 p hmem p (List.mem_cons_self ..) rfl
  rw [updateAfterDecode, hsplit, updateGroups_append now pre _ groups toks hpre, updateGroups,
    updateGroups_of_not_mem now post _ _ hpost, Function.update_self,
    updateGroups_of_not_mem now pre groups toks hp]
  simp only
  rw [updateSequences_getElem? _ _ _ _ _ _ hseq, List.getElem?_drop]

/-! ## Where the last entry of each sequence stands -/

theorem lastIndex_append_replicate {α : Type} {before after : List α} {x : α} {n j : Nat}
    (hn : 0 < n) (hafter : x ∉ after) :
    LastIndex (before ++ List.replicate n x ++ after) x j ↔ j = before.length + n - 1 := by
  have hlast : (before ++ List.replicate n x ++ after)[before.length + n - 1]? = some x := by
    rw [List.getElem?_append_left (by simp; omega), List.getElem?_append_right (by omega),
      List.getElem?_replicate, if_pos (by omega)]
  have hbeyond : ∀ k, before.length + n - 1 < k →
      (before ++ List.replicate n x ++ after)[k]? ≠ some x := by
    intro k hk
    rw [List.getElem?_append_right (by simp; omega)]
    intro hget
    exact hafter (List.mem_of_getElem? hget)
  constructor
  · rintro ⟨hget, hmax⟩
    rcases Nat.lt_trichotomy j (before.length + n - 1) with hlt | heq | hgt
    · exact absurd hlast (hmax _ hlt)
    · exact heq
    · exact absurd hget (hbeyond j hgt)
  · rintro rfl
    exact ⟨hlast, hbeyond⟩

/-- The number of entries emitted for a list of sequences. -/
def entryCount (seqs : List SequenceData) : Nat := (seqs.flatMap seqEntries).length

def entriesIn (groups : GroupPtr → SequenceGroup) (ps : List GroupPtr) : Nat :=
  (ps.map (fun p => entryCount (groups p).sequences)).sum

/-- The owners of the entries of one group. -/
def groupOwners (p : GroupPtr) (seqs : List (SequenceData × Nat)) : List (GroupPtr × Nat) :=
  seqs.flatMap (fun x => (seqEntries x.1).map (fun _ => (p, x.2)))

theorem groupOwners_length (p : GroupPtr) (seqs : List SequenceData) (n : Nat) :
    (groupOwners p (seqs.zipIdx n)).length = entryCount seqs := by
  induction seqs generalizing n with
  | nil => simp [groupOwners, entryCount]
  | cons seq rest ih =>
      have hrest := ih (n + 1)
      simp only [groupOwners, entryCount, List.zipIdx_cons, List.flatMap_cons, List.length_append,
        List.length_map] at hrest ⊢
      omega

theorem flatMap_groupOwners_length (groups : GroupPtr → SequenceGroup) (ps : List GroupPtr) :
    (ps.flatMap (fun p => groupOwners p (groups p).sequences.zipIdx)).length
      = entriesIn groups ps := by
  induction ps with
  | nil => simp [entriesIn]
  | cons p rest ih =>
      simp only [entriesIn, List.flatMap_cons, List.length_append, List.map_cons, List.sum_cons,
        groupOwners_length] at ih ⊢
      omega

theorem mem_groupOwners {p q : GroupPtr} {seqs : List (SequenceData × Nat)} {i : Nat}
    (h : (p, i) ∈ groupOwners q seqs) : p = q ∧ ∃ seq, (seq, i) ∈ seqs := by
  simp only [groupOwners, List.mem_flatMap, List.mem_map, Prod.mk.injEq] at h
  obtain ⟨⟨seq, k⟩, hmem, -, -, rfl, rfl⟩ := h
  exact ⟨rfl, seq, hmem⟩

/-- The last entry of the sequence at `(p, i)` comes after all entries of the sequences before it and
    closes its own run of entries. -/
theorem lastIndex_entryOwners {groups : GroupPtr → SequenceGroup} {out : SchedulerOutput}
    {pre post : List GroupPtr} {p : GroupPtr} (hsplit : out.scheduledGroups = pre ++ p :: post)
    (hnodup : out.scheduledGroups.Nodup) {i j : Nat} {seq : SequenceData}
    (hseq : (groups p).sequences[i]? = some seq) (hpos : 0 < (seqEntries seq).length) :
    LastIndex (entryOwners groups out) (p, i) j ↔
      j = entriesIn groups pre + entryCount ((groups p).sequences.take i)
        + (seqEntries seq).length - 1 := by
  rw [hsplit] at hnodup
  have hpost : p ∉ post := (List.nodup_cons.1 (List.nodup_append.1 hnodup).2.1).1
  obtain ⟨hi, hget⟩ := List.getElem?_eq_some_iff.1 hseq
  have hseqs : (groups p).sequences.zipIdx
      = ((groups p).sequences.take i).zipIdx ++ (seq, i) ::
          ((groups p).sequences.drop (i + 1)).zipIdx (i + 1) := by
    conv_lhs => rw [← List.take_append_drop i (groups p).sequences, List.drop_eq_getElem_cons hi, hget]
    rw [List.zipIdx_append, List.length_take, Nat.min_eq_left (Nat.le_of_lt hi), Nat.zero_add,
      List.zipIdx_cons]
  have howners : entryOwners groups out
      = (pre.flatMap (fun p => groupOwners p (groups p).sequences.zipIdx)
          ++ groupOwners p ((groups p).sequences.take i).zipIdx)
        ++ List.replicate (seqEntries seq).length (p, i)
        ++ (groupOwners p (((groups p).sequences.drop (i + 1)).zipIdx (i + 1))
          ++ post.flatMap (fun p => groupOwners p (groups p).sequences.zipIdx)) := by
    have hown : entryOwners groups out
        = out.scheduledGroups.flatMap (fun p => groupOwners p (groups p).sequences.zipIdx) := rfl
    rw [hown, hsplit, List.flatMap_append, List.flatMap_cons, hseqs]
    simp [groupOwners, List.append_assoc, List.map_const']
  have hafter : (p, i) ∉ groupOwners p (((groups p).sequences.drop (i + 1)).zipIdx (i + 1))
      ++ post.flatMap (fun p => groupOwners p (groups p).sequences.zipIdx) := by
    intro hmem
    rcases List.mem_append.1 hmem with h | h
    · obtain ⟨-, seq', hin⟩ := mem_groupOwners h
      have hle : i + 1 ≤ i := List.le_snd_of_mem_zipIdx hin
      omega
    · obtain ⟨q, hq, hin⟩ := List.mem_flatMap.1 h
      obtain ⟨rfl, -⟩ := mem_groupOwners hin
      exact hpost hq
  rw [howners, lastIndex_append_replicate hpos hafter, List.length_append,
    flatMap_groupOwners_length, groupOwners_length]

/-! ## When the two readings agree -/

theorem seqEntries_length_pos {seq : SequenceData} (hfin : seq.isFinished = false)
    (hprompt : seq.promptTokens ≠ []) : 0 < (seqEntries seq).length := by
  by_cases hout : seq.outputLen = 0
  · simpa [seqEntries, hfin, hout] using List.length_pos_iff.2 hprompt
  · simp [seqEntries, hfin, hout]

theorem activeCount_cons (seq : SequenceData) (rest : List SequenceData) :
    activeCount (seq :: rest) = activeCount rest + if seq.isFinished then 0 else 1 := by
  cases hfin : seq.isFinished <;> simp [activeCount, hfin]

theorem entryCount_cons (seq : SequenceData) (rest : List SequenceData) :
    entryCount (seq :: rest) = (seqEntries seq).length + entryCount rest := by
  simp only [entryCount, List.flatMap_cons, List.length_append]

/-- Every unfinished sequence emits at least one entry, if prompts are not empty. -/
theorem activeCount_le_entryCount (seqs : List SequenceData)
    (hprompt : ∀ seq ∈ seqs, seq.promptTokens ≠ []) : activeCount seqs ≤ entryCount seqs := by
  induction seqs with
  | nil => simp [activeCount, entryCount]
  | cons seq rest ih =>
      have hrest := ih (fun s hs => hprompt s (List.mem_cons_of_mem _ hs))
      rw [activeCount_cons, entryCount_cons]
      cases hfin : seq.isFinished with
      | true => simp only [if_true]; omega
      | false =>
          have hpos := seqEntries_length_pos hfin (hprompt seq (List.mem_cons_self ..))
          simp only [Bool.false_eq_true, if_false]
          omega

theorem activeIn_le_entriesIn (groups : GroupPtr → SequenceGroup) (ps : List GroupPtr)
    (hprompt : ∀ p ∈ ps, ∀ seq ∈ (groups p).sequences, seq.promptTokens ≠ []) :
    activeIn groups ps ≤ entriesIn groups ps := by
  induction ps with
  | nil => exact Nat.le_refl _
  | cons p rest ih =>
      have hrest := ih (fun q hq => hprompt q (List.mem_cons_of_mem _ hq))
      have hp := activeCount_le_entryCount _ (hprompt p (List.mem_cons_self ..))
      simp only [activeIn, entriesIn, List.map_cons, List.sum_cons] at hrest ⊢
      omega

/-- The sequence has one entry in the batch: it decodes, or its prompt has one token. -/
def SingleEntry (seq : SequenceData) : Prop :=
  seq.isFinished = false → seq.outputLen = 0 → seq.promptLen = 1

theorem seqEntries_length_of_single {seq : SequenceData} (h : SingleEntry seq)
    (hfin : seq.isFinished = false) : (seqEntries seq).length = 1 := by
  by_cases hout : seq.outputLen = 0
  · have hone := h hfin hout
    simp only [SequenceData.promptLen] at hone
    simp [seqEntries, hfin, hout, hone]
  · simp [seqEntries, hfin, hout]

theorem activeCount_eq_entryCount (seqs : List SequenceData) (h : ∀ seq ∈ seqs, SingleEntry seq) :
    activeCount seqs = entryCount seqs := by
  induction seqs with
  | nil => simp [activeCount, entryCount]
  | cons seq rest ih =>
      have hrest := ih (fun s hs => h s (List.mem_cons_of_mem _ hs))
      rw [activeCount_cons, entryCount_cons]
      cases hfin : seq.isFinished with
      | true => simp [seqEntries, hfin, hrest]
      | false =>
          have hone := seqEntries_length_of_single (h seq (List.mem_cons_self ..)) hfin
          simp only [Bool.false_eq_true, if_false]
          omega

theorem activeIn_eq_entriesIn (groups : GroupPtr → SequenceGroup) (ps : List GroupPtr)
    (h : ∀ p ∈ ps, ∀ seq ∈ (groups p).sequences, SingleEntry seq) :
    activeIn groups ps = entriesIn groups ps := by
  unfold activeIn entriesIn
  congr 1
  exact List.map_congr_left (fun p hp => activeCount_eq_entryCount _ (h p hp))

theorem acceptToken_outputTokens (maxTokens : Int) (seq : SequenceData) (tok : TokenId) :
    (acceptToken maxTokens seq tok).outputTokens = seq.outputTokens ++ [tok] := by
  simp only [acceptToken]
  split <;> rfl

theorem entriesIn_split {groups : GroupPtr → SequenceGroup} {out : SchedulerOutput}
    {pre post : List GroupPtr} {p : GroupPtr} (hsplit : out.scheduledGroups = pre ++ p :: post)
    {i : Nat} {seq : SequenceData} (hseq : (groups p).sequences[i]? = some seq) :
    entriesIn groups pre + entryCount ((groups p).sequences.take i) + (seqEntries seq).length
      ≤ (buildBatch groups out).1.entries.length := by
  obtain ⟨hi, hget⟩ := List.getElem?_eq_some_iff.1 hseq
  have hsum : ∀ ps, (ps.flatMap (fun p => (groups p).sequences.flatMap seqEntries)).length
      = entriesIn groups ps := by
    intro ps
    rw [List.length_flatMap]
    rfl
  have hgroup : ((groups p).sequences.flatMap seqEntries).length
      = entryCount ((groups p).sequences.take i)
        + ((seqEntries seq).length + entryCount ((groups p).sequences.drop (i + 1))) := by
    conv_lhs => rw [← List.take_append_drop i (groups p).sequences, List.drop_eq_getElem_cons hi, hget]
    simp [entryCount]
  rw [buildBatch_entries, hsplit, List.flatMap_append, List.length_append, List.flatMap_cons,
    List.length_append, hsum, hsum, hgroup]
  omega

section Directions

variable {groups : GroupPtr → SequenceGroup} {out : SchedulerOutput} {now : TimePoint}

/-- The tokens that are their own indices tell which entry a sequence is handed: it is the sequence's
    last one only if every sequence before it has a single entry, and it too. -/
theorem singleEntry_of_delivered (hnodup : out.scheduledGroups.Nodup)
    (hprompt : ∀ p ∈ out.scheduledGroups, ∀ seq ∈ (groups p).sequences, seq.promptTokens ≠ [])
    (hall : ∀ toks : List TokenId, toks.length = (buildBatch groups out).1.entries.length →
      Delivered groups out toks now) :
    ∀ p ∈ out.scheduledGroups, ∀ seq ∈ (groups p).sequences, SingleEntry seq := by
  intro p hp seq hseq hfin hout
  obtain ⟨pre, post, hsplit⟩ := List.append_of_mem hp
  obtain ⟨i, hi⟩ := List.mem_iff_getElem?.1 hseq
  -- feed the indices themselves as tokens: the one received shows which entry it came from
  let toks : List TokenId :=
    (List.range (buildBatch groups out).1.entries.length).map (fun k : Nat => (k : Int))
  have hdel := (hall toks (by simp [toks])).1 p hp i seq hi
  rw [if_neg (by simp [hfin])] at hdel
  obtain ⟨j, tok, seq', hlast, htok, hupd, happ⟩ := hdel
  have hpos := seqEntries_length_pos hfin (hprompt p hp seq hseq)
  rw [lastIndex_entryOwners hsplit hnodup hi hpos] at hlast
  have hrank : activeIn groups pre + activeCount ((groups p).sequences.take i)
      ≤ entriesIn groups pre + entryCount ((groups p).sequences.take i) := by
    refine Nat.add_le_add (activeIn_le_entriesIn groups pre (fun q hq => ?_))
      (activeCount_le_entryCount _ (fun s hs => ?_))
    · exact hprompt q (by rw [hsplit]; exact List.mem_append_left _ hq)
    · exact hprompt p hp s (List.mem_of_mem_take hs)
  have hbound := entriesIn_split hsplit hi
  have hget : toks[activeIn groups pre + activeCount ((groups p).sequences.take i)]?
      = some ((activeIn groups pre + activeCount ((groups p).sequences.take i) : Nat) : Int) := by
    simp only [toks, List.getElem?_map]
    rw [List.getElem?_range (by omega)]
    rfl
  rw [updateAfterDecode_getElem? hsplit hnodup toks now i hi, hget] at hupd
  simp only [hfin, Bool.false_eq_true, if_false, Option.some.injEq] at hupd
  rw [← hupd, acceptToken_outputTokens] at happ
  have htok' : tok = ((activeIn groups pre + activeCount ((groups p).sequences.take i) : Nat) : Int) := by
    simpa using happ.symm
  have hj : tok = (j : Int) := by
    have hjlt : j < (buildBatch groups out).1.entries.length := by omega
    simp only [toks, List.getElem?_map, List.getElem?_range hjlt, Option.map_some,
      Option.some.injEq] at htok
    exact htok.symm
  have hone : (seqEntries seq).length = 1 := by
    unfold TokenId at *
    omega
  simpa [seqEntries, hfin, hout, SequenceData.promptLen] using hone

/-- With one entry for each unfinished sequence, the rank of a sequence among the unfinished ones is
    the index of its entry. -/
theorem delivered_of_singleEntry (hnodup : out.scheduledGroups.Nodup)
    (hsingle : ∀ p ∈ out.scheduledGroups, ∀ seq ∈ (groups p).sequences, SingleEntry seq)
    {toks : List TokenId} (hlen : toks.length = (buildBatch groups out).1.entries.length) :
    Delivered groups out toks now := by
  refine ⟨fun p hp i seq hi => ?_, fun p hp => updateGroups_of_not_mem now _ groups toks hp⟩
  obtain ⟨pre, post, hsplit⟩ := List.append_of_mem hp
  have hseq : seq ∈ (groups p).sequences := List.mem_of_getElem? hi
  have hupd := updateAfterDecode_getElem? hsplit hnodup toks now i hi
  by_cases hfin : seq.isFinished
  · rw [if_pos hfin] at hupd ⊢
    exact hupd
  · have hfin' : seq.isFinished = false := by simpa using hfin
    rw [if_neg hfin] at hupd ⊢
    have hone := seqEntries_length_of_single (hsingle p hp seq hseq) hfin'
    have hrank : activeIn groups pre + activeCount ((groups p).sequences.take i)
        = entriesIn groups pre + entryCount ((groups p).sequences.take i) := by
      rw [activeIn_eq_entriesIn groups pre (fun q hq => hsingle q
          (by rw [hsplit]; exact List.mem_append_left _ hq)),
        activeCount_eq_entryCount _ (fun s hs => hsingle p hp s (List.mem_of_mem_take hs))]
    have hbound := entriesIn_split hsplit hi
    have hlt : activeIn groups pre + activeCount ((groups p).sequences.take i) < toks.length := by
      omega
    rw [List.getElem?_eq_getElem hlt] at hupd
    refine ⟨_, _, _, ?_, List.getElem?_eq_getElem hlt, hupd, acceptToken_outputTokens _ _ _⟩
    rw [lastIndex_entryOwners hsplit hnodup hi (by omega)]
    omega

end Directions

/-- **Delivery.** For every output with distinct scheduled groups and non-empty prompts, the sampled
    tokens reach the sequences they were sampled for, whatever their values, if and only if no
    unfinished scheduled sequence prefills a prompt of two or more tokens. -/
theorem delivered_iff_single_entry (groups : GroupPtr → SequenceGroup) (out : SchedulerOutput)
    (now : TimePoint) (hnodup : out.scheduledGroups.Nodup)
    (hprompt : ∀ p ∈ out.scheduledGroups, ∀ seq ∈ (groups p).sequences, seq.promptTokens ≠ []) :
    (∀ toks : List TokenId, toks.length = (buildBatch groups out).1.entries.length →
      Delivered groups out toks now) ↔
    ∀ p ∈ out.scheduledGroups, ∀ seq ∈ (groups p).sequences, SingleEntry seq := by
  constructor
  · intro hall
    exact singleEntry_of_delivered hnodup hprompt hall
  · intro hsingle toks hlen
    exact delivered_of_singleEntry hnodup hsingle hlen

/-- Two requests that the scheduler admits in one step, with prompts of two tokens and of one. -/
def twoPrompts : SchedulerOutput × Scheduler :=
  let bm := BlockManager.new { numGpuBlocks := 4, numCpuBlocks := 0, blockSize := 4 }
  (((Scheduler.new {} bm).addRequest (.new 1 [5, 6] {})).addRequest (.new 2 [7] {})).schedule

/-- The batch of `twoPrompts` has three entries, so three tokens are sampled; the second request is
    handed the token sampled for the last position of the first. -/
theorem twoPrompts_misdelivered :
    twoPrompts.1.scheduledGroups.Nodup ∧
    (∀ p ∈ twoPrompts.1.scheduledGroups, ∀ seq ∈ (twoPrompts.2.groups p).sequences,
      seq.promptTokens ≠ []) ∧
    ([10, 20, 30] : List TokenId).length
      = (buildBatch twoPrompts.2.groups twoPrompts.1).1.entries.length ∧
    (updateAfterDecode twoPrompts.2.groups twoPrompts.1 [10, 20, 30] 0 1).sequences.map
      SequenceData.outputTokens = [[20]] ∧
    ¬ Delivered twoPrompts.2.groups twoPrompts.1 [10, 20, 30] 0 := by
  refine ⟨by decide, by decide, by decide, by decide, fun h => ?_⟩
  have hsplit : twoPrompts.1.scheduledGroups = [0] ++ 1 :: [] := by decide
  have hseq : (twoPrompts.2.groups 1).sequences[0]?
      = some { seqId := 2, promptTokens := [7], logicalBlocks := [1], status := .running } := by
    decide
  obtain ⟨j, tok, seq', hlast, htok, hupd, happ⟩ := h.1 1 (by decide) 0 _ hseq
  have hj := (lastIndex_entryOwners hsplit (by decide) hseq (by decide)).1 hlast
  have hj2 : j = 2 := hj.trans (by decide)
  subst hj2
  have hgot : (updateAfterDecode twoPrompts.2.groups twoPrompts.1 [10, 20, 30] 0 1).sequences[0]?.map
      SequenceData.outputTokens = some [20] := by decide
  rw [hupd, Option.map_some, happ] at hgot
  simp at htok hgot
  exact absurd (htok.trans hgot) (by decide)

/-- At `twoPrompts` neither side of the equivalence holds. -/
theorem twoPrompts_delivered_iff :
    (∀ toks : List TokenId,
      toks.length = (buildBatch twoPrompts.2.groups twoPrompts.1).1.entries.length →
      Delivered twoPrompts.2.groups twoPrompts.1 toks 0) ↔
    ∀ p ∈ twoPrompts.1.scheduledGroups, ∀ seq ∈ (twoPrompts.2.groups p).sequences,
      SingleEntry seq :=
  delivered_iff_single_entry _ _ 0 (by decide) (by decide)

end CacheFlow.BatchManager
