import CacheFlow.Lib.Draws
import CacheFlow.BatchDecode.Nucleus
import CacheFlow.Driver

set_option autoImplicit false

/-! # The distribution of the sampled tokens

All requests share one generator, and a row of logits takes a value of it or none, by its temperature. The
seed is a constant in the code; here the values are independent and uniform, as those of the generator are
meant to be. The tokens of a call of `sample` are then independent, and each has the softmax probability of
its own row: the temperature divides the logits, `top_k` and `top_p` restrict the tokens, and the shift of the
exponentials cancels (`sample_distribution`).

The calls of a run are not independent, since what has been sampled decides which entries come next. The
probability of a run is the product of the probabilities of its tokens, whatever requests arrive and
whatever the scheduler does with them (`Driver.run_distribution`). -/

namespace CacheFlow

open Weighted MeasureTheory

/-! ## One row -/

section Kept

variable {K : Type} [Field K] [LinearOrder K] (ops : SamplerOps K) (m : ModelConfig) (sp : SamplerParams K)
  (logits : Nat → K)

/-- The arg-max is taken, and no value of the generator. -/
def SamplerParams.Greedy (sp : SamplerParams K) : Prop := sp.temperature < 1 / ((10 ^ 6 : Nat) : K)

instance : Decidable sp.Greedy := inferInstanceAs (Decidable (_ < _))

theorem SamplerParams.greedy_iff (sp : SamplerParams K) : sp.Greedy ↔ sp.temperature < 1 / 10 ^ 6 := by
  rw [Greedy, Nat.cast_pow, Nat.cast_ofNat]

/-- The tokens that `top_k` and `top_p` leave. -/
def keptIds : List TokenId := (keptTokens ops.exp ops.sorting m sp logits).map Prod.snd

/-- The exponential of the scaled logit of a token. -/
def tokenWeight (tok : TokenId) : K := ops.exp (logits tok.toNat / sp.temperature)

theorem keptTokens_sublist (exp : K → K) (sorting : Sorting K TokenId) :
    ∃ l, l.Perm (probabilities exp (topKCandidates sorting m sp logits)) ∧
      (keptTokens exp sorting m sp logits).Sublist l := by
  unfold keptTokens
  split
  · exact ⟨_, sorting.sort_perm _, List.take_sublist _ _⟩
  · exact ⟨_, List.Perm.refl _, List.Sublist.refl _⟩

theorem keptIds_nodup : (keptIds ops m sp logits).Nodup := by
  obtain ⟨l, hperm, hsub⟩ := keptTokens_sublist m sp logits ops.exp ops.sorting
  have hall : (l.map Prod.snd).Nodup := by
    rw [(hperm.map Prod.snd).nodup_iff, probabilities, List.map_map]
    exact topKCandidates_nodup
  exact hall.sublist (hsub.map Prod.snd)

theorem keptTokens_ne_nil (exp : K → K) (sorting : Sorting K TokenId) (hvocab : 1 ≤ m.vocabSize) :
    keptTokens exp sorting m sp logits ≠ [] := by
  have hprobs : probabilities exp (topKCandidates sorting m sp logits) ≠ [] := by
    simpa [probabilities] using topKCandidates_ne_nil sorting sp logits hvocab
  unfold keptTokens
  split
  · intro hnil
    have hhead := head?_nucleus sp.topP
      (sorting.sort (probabilities exp (topKCandidates sorting m sp logits)))
    rw [hnil] at hhead
    have hperm := sorting.sort_perm (probabilities exp (topKCandidates sorting m sp logits))
    rw [List.head?_eq_none_iff.1 hhead.symm] at hperm
    exact hprobs hperm.nil_eq.symm
  · exact hprobs

variable [IsStrictOrderedRing K]

/-- The probabilities are the weights of the tokens times a factor, which the shift and the candidates that
    were dropped go into. -/
theorem exists_keptTokens_eq (hvocab : 1 ≤ m.vocabSize) :
    ∃ factor, 0 < factor ∧ ∀ x ∈ keptTokens ops.exp ops.sorting m sp logits,
      x.1 = tokenWeight ops sp logits x.2 * factor := by
  have hne := topKCandidates_ne_nil ops.sorting sp logits hvocab
  refine ⟨ops.exp (-maxLogit (topKCandidates ops.sorting m sp logits))
    / sumExp ops.exp (topKCandidates ops.sorting m sp logits),
    div_pos (ops.exp.pos _) (sumExp_pos_of_pos ops.exp.pos hne), fun x hx => ?_⟩
  obtain ⟨l, hperm, hsub⟩ := keptTokens_sublist m sp logits ops.exp ops.sorting
  obtain ⟨c, hc, rfl⟩ := List.mem_map.1 (hperm.mem_iff.1 (hsub.subset hx))
  obtain ⟨v, -, rfl⟩ := mem_scored.1 (topKCandidates_subset hc)
  rw [probability, sub_eq_add_neg, ops.exp.map_add, mul_div_assoc, tokenWeight, Int.toNat_natCast]

theorem keptTokens_pos (hvocab : 1 ≤ m.vocabSize) :
    ∀ x ∈ keptTokens ops.exp ops.sorting m sp logits, 0 < x.1 := by
  intro x hx
  obtain ⟨factor, hfactor, hall⟩ := exists_keptTokens_eq ops m sp logits hvocab
  rw [hall x hx]
  exact mul_pos (ops.exp.pos _) hfactor

end Kept

section Row

variable (ops : SamplerOps ℝ) (m : ModelConfig) (sp : SamplerParams ℝ) (logits : Nat → ℝ)

/-- The probability of a token for one row of logits. -/
noncomputable def chance (tok : TokenId) : ENNReal :=
  if sp.Greedy then
    if maxElement m logits = tok then 1 else 0
  else if tok ∈ keptIds ops m sp logits then
    ENNReal.ofReal (tokenWeight ops sp logits tok
      / ((keptIds ops m sp logits).map (tokenWeight ops sp logits)).sum)
  else 0

theorem weightOf_of_factor {l : List (ℝ × TokenId)} {w : TokenId → ℝ} {factor : ℝ}
    (hall : ∀ x ∈ l, x.1 = w x.2 * factor) (hnodup : (l.map Prod.snd).Nodup) (tok : TokenId) :
    weightOf tok l = (if tok ∈ l.map Prod.snd then w tok else 0) * factor := by
  induction l with
  | nil => simp [weightOf]
  | cons c l ih =>
      have hrest : ∀ x ∈ l, x.1 = w x.2 * factor := fun x hx => hall x (List.mem_cons_of_mem _ hx)
      rw [List.map_cons, List.nodup_cons] at hnodup
      have ih := ih hrest hnodup.2
      by_cases hc : c.2 = tok
      · subst hc
        rw [if_neg hnodup.1, zero_mul, weightOf] at ih
        rw [weightOf, List.filter_cons_of_pos (by simp), total_cons, ih, add_zero,
          hall c (List.mem_cons_self ..), if_pos (by simp)]
      · have hmem : tok ∈ (c :: l).map Prod.snd ↔ tok ∈ l.map Prod.snd := by
          rw [List.map_cons, List.mem_cons]
          exact or_iff_right (fun h => hc h.symm)
        rw [weightOf, List.filter_cons_of_neg (by simpa using hc), ← weightOf, ih]
        simp only [hmem]

theorem total_of_factor {l : List (ℝ × TokenId)} {w : TokenId → ℝ} {factor : ℝ}
    (hall : ∀ x ∈ l, x.1 = w x.2 * factor) : total l = ((l.map Prod.snd).map w).sum * factor := by
  rw [total, List.map_congr_left hall, ← List.sum_map_mul_right, List.map_map]
  rfl

/-- **One row** that takes a value of the generator. -/
theorem uniform_sampleRow (hvocab : 1 ≤ m.vocabSize) (htemp : ¬ sp.Greedy)
    (tok : TokenId) :
    uniform {u | sampleRow ops m sp logits u = tok} = chance ops m sp logits tok := by
  obtain ⟨factor, hfactor, hall⟩ := exists_keptTokens_eq ops m sp logits hvocab
  have hne := keptTokens_ne_nil m sp logits ops.exp ops.sorting hvocab
  have hset : {u | sampleRow ops m sp logits u = tok}
      = {u | (pick (u * total (keptTokens ops.exp ops.sorting m sp logits)) 0
          (keptTokens ops.exp ops.sorting m sp logits)).getD
            (((keptTokens ops.exp ops.sorting m sp logits).head?.map Prod.snd).getD 0) = tok} := by
    ext u
    rw [Set.mem_ofPred_eq, sampleRow]
    rfl
  rw [hset, uniform_pick (keptTokens_pos ops m sp logits hvocab) hne,
    weightOf_of_factor hall (keptIds_nodup ops m sp logits), total_of_factor hall,
    mul_div_mul_right _ _ hfactor.ne', chance, if_neg htemp]
  unfold keptIds
  split
  · rfl
  · rw [zero_div, ENNReal.ofReal_zero]

end Row

/-! ## One call -/

section Call

variable (ops : SamplerOps ℝ) (m : ModelConfig) (params : List (SamplerParams ℝ))

/-- The probability of a list of tokens for the rows from `i` on. -/
noncomputable def chances : Nat → List (Nat → ℝ) → List TokenId → ENNReal
  | _, [], [] => 1
  | i, row :: rows, tok :: toks =>
    chance ops m (params.getD i (SamplerParams.default ℝ)) row tok * chances (i + 1) rows toks
  | _, _, _ => 0

/-- How many values the rows from `i` on take. -/
noncomputable def drawsUsed : Nat → List (Nat → ℝ) → Nat
  | _, [] => 0
  | i, _ :: rows =>
    drawsUsed (i + 1) rows
      + if (params.getD i (SamplerParams.default ℝ)).Greedy then 0 else 1

/-- **The tokens of a call, and what is done with the rest of the stream.** -/
theorem uniformDraws_sample (hvocab : 1 ≤ m.vocabSize) (i : Nat) (rows : List (Nat → ℝ))
    (toks : List TokenId) (E : Set (Nat → ℝ)) :
    uniformDraws {draws | sample ops m params i rows draws = toks ∧
        (fun n => draws (n + drawsUsed params i rows)) ∈ E}
      = chances ops m params i rows toks * uniformDraws E := by
  induction rows generalizing i toks with
  | nil =>
      cases toks with
      | nil =>
          simp only [sample, drawsUsed, chances, Nat.add_zero, true_and, one_mul]
          rfl
      | cons tok toks => simp [sample, chances]
  | cons row rows ih =>
      cases toks with
      | nil =>
          have hne : ∀ draws, sample ops m params i (row :: rows) draws ≠ [] := by
            intro draws
            rw [sample]
            split
            · exact List.cons_ne_nil _ _
            · exact List.cons_ne_nil _ _
          simp [hne, chances]
      | cons tok toks =>
          rw [chances, mul_assoc, ← ih (i + 1) toks]
          have hsample : ∀ draws, sample ops m params i (row :: rows) draws
              = if (params.getD i (SamplerParams.default ℝ)).Greedy then
                  maxElement m row :: sample ops m params (i + 1) rows draws
                else sampleRow ops m (params.getD i (SamplerParams.default ℝ)) row (draws 0)
                  :: sample ops m params (i + 1) rows (fun n => draws (n + 1)) :=
            fun _ => if_congr (SamplerParams.greedy_iff _).symm rfl rfl
          by_cases htemp : (params.getD i (SamplerParams.default ℝ)).Greedy
          · -- no value is taken
            simp only [hsample, htemp, if_true, drawsUsed, Nat.add_zero, List.cons.injEq, chance]
            by_cases hmax : maxElement m row = tok
            · simp [hmax]
            · simp [hmax]
          · rw [← uniform_sampleRow ops m _ row hvocab htemp, ← uniformDraws_cons]
            simp only [hsample, htemp, if_false, drawsUsed, List.cons.injEq, and_assoc]
            rfl

/-- **The distribution of a call.** For every row of logits and parameters of each, greedy ones among them,
    and independent uniform values of the generator: the tokens that `sample` returns are independent, and
    each has the softmax probability of its row among the tokens that are kept. -/
theorem sample_distribution (ops : SamplerOps ℝ) (m : ModelConfig) (hvocab : 1 ≤ m.vocabSize)
    (params : List (SamplerParams ℝ)) (rows : List (Nat → ℝ)) (toks : List TokenId) :
    uniformDraws {draws | sample ops m params 0 rows draws = toks} = chances ops m params 0 rows toks := by
  have hall := uniformDraws_sample ops m params hvocab 0 rows toks Set.univ
  rw [measure_univ, mul_one] at hall
  simpa using hall

/-- A greedy row, and one that takes a value. -/
def greedyFirst : List (SamplerParams ℝ) :=
  [{ temperature := 0, topP := 1, topK := 0 }, { temperature := 1, topP := 1, topK := 0 }]

theorem greedyFirst_distribution :
    uniformDraws {draws | sample realOps { vocabSize := 2 } greedyFirst 0 [fun v => v, fun v => v] draws
        = [1, 1]}
      = ENNReal.ofReal (Real.exp 1 / (1 + Real.exp 1)) := by
  have hgreedy : chance realOps { vocabSize := 2 } (greedyFirst.getD 0 (.default ℝ)) (fun v => v) 1 = 1 := by
    simp [chance, SamplerParams.greedy_iff, greedyFirst, maxElement, List.range_succ]
  have hids : keptIds realOps { vocabSize := 2 } (greedyFirst.getD 1 (.default ℝ)) (fun v => v) = [0, 1] := by
    simp [keptIds, keptTokens, greedyFirst, probabilities, topKCandidates, scored, List.range_succ]
  have hdrawn : chance realOps { vocabSize := 2 } (greedyFirst.getD 1 (.default ℝ)) (fun v => v) 1
      = ENNReal.ofReal (Real.exp 1 / (1 + Real.exp 1)) := by
    rw [chance, hids]
    norm_num [SamplerParams.greedy_iff, greedyFirst, tokenWeight, realOps]
  rw [sample_distribution realOps { vocabSize := 2 } (by decide), chances, chances, chances, hgreedy, hdrawn,
    one_mul, mul_one]

end Call

/-! ## A run -/

/-- The probability of one token for each entry of a batch. -/
noncomputable def batchChance (ops : SamplerOps ℝ) (m : ModelConfig) (logits : BatchEntry → Nat → ℝ)
    (batch : DecodeBatch) (toks : List TokenId) : ENNReal :=
  (List.zipWith (fun e tok => chance ops m (.default ℝ) (logits e) tok) batch.entries toks).prod

section Default

variable (ops : SamplerOps ℝ) (m : ModelConfig)

theorem getD_default (n i : Nat) :
    (List.replicate n (SamplerParams.default ℝ)).getD i (.default ℝ) = .default ℝ := by
  rw [List.getD_eq_getElem?_getD, List.getElem?_replicate]
  split
  · rfl
  · rfl

/-- With default parameters every row takes one value. -/
theorem drawsUsed_default (n i : Nat) (rows : List (Nat → ℝ)) :
    drawsUsed (List.replicate n (.default ℝ)) i rows = rows.length := by
  have htemp : ¬ (SamplerParams.default ℝ).Greedy := by
    norm_num [SamplerParams.greedy_iff, SamplerParams.default]
  induction rows generalizing i with
  | nil => rfl
  | cons row rows ih => rw [drawsUsed, ih, getD_default, if_neg htemp, List.length_cons]

theorem chances_default (n i : Nat) (logits : BatchEntry → Nat → ℝ) (entries : List BatchEntry)
    (toks : List TokenId) (hlen : toks.length = entries.length) :
    chances ops m (List.replicate n (.default ℝ)) i (entries.map logits) toks
      = (List.zipWith (fun e tok => chance ops m (.default ℝ) (logits e) tok) entries toks).prod := by
  induction entries generalizing i toks with
  | nil =>
      rw [List.eq_nil_of_length_eq_zero hlen]
      rfl
  | cons e entries ih =>
      cases toks with
      | nil => cases hlen
      | cons tok toks =>
          rw [List.map_cons, chances, ih (i + 1) toks (Nat.succ.inj hlen), getD_default,
            List.zipWith_cons_cons, List.prod_cons]

/-- **The tokens of a step**, and what is done with the rest of the stream. -/
theorem uniformDraws_stepTokens (hvocab : 1 ≤ m.vocabSize) (logits : BatchEntry → Nat → ℝ)
    (batch : DecodeBatch) {toks : List TokenId} (hlen : toks.length = batch.entries.length)
    (E : Set (Nat → ℝ)) :
    uniformDraws {draws | stepTokens ops m logits batch draws = toks ∧
        (fun n => draws (n + batch.entries.length)) ∈ E}
      = batchChance ops m logits batch toks * uniformDraws E := by
  have hsample := uniformDraws_sample ops m
    (List.replicate batch.entries.length (SamplerParams.default ℝ)) hvocab 0 (batch.entries.map logits) toks E
  rw [drawsUsed_default, List.length_map, chances_default ops m _ _ logits _ _ hlen] at hsample
  exact hsample

end Default

namespace Driver

variable (ops : SamplerOps ℝ) (m : ModelConfig) (logits : Driver → BatchEntry → Nat → ℝ)

/-- Every `step` of the run returns what is sampled with the values that come next. The logits of an entry
    may depend on everything so far. -/
def Sampled : Driver → List DriverOp → (Nat → ℝ) → Prop
  | _, [], _ => True
  | d, op :: rest, draws =>
    match op, d.phase with
    | .step newTokens, .batched _ batch =>
      stepTokens ops m (logits d) batch draws = newTokens ∧
        Sampled (d.step op) rest (fun n => draws (n + batch.entries.length))
    | _, _ => Sampled (d.step op) rest draws

/-- The product of the probabilities of all tokens, each with the logits it was sampled from. -/
noncomputable def runChance : Driver → List DriverOp → ENNReal
  | _, [] => 1
  | d, op :: rest =>
    match op, d.phase with
    | .step newTokens, .batched _ batch =>
      batchChance ops m (logits d) batch newTokens * runChance (d.step op) rest
    | _, _ => runChance (d.step op) rest

/-- The run from any state. -/
theorem uniformDraws_sampled (hvocab : 1 ≤ m.vocabSize) (d : Driver) (calls : List DriverOp)
    (hcalls : Run.AllOk step Enabled d calls) :
    uniformDraws {draws | Sampled ops m logits d calls draws} = runChance ops m logits d calls := by
  induction calls generalizing d with
  | nil => simp [Sampled, runChance]
  | cons op rest ih =>
      obtain ⟨hok, hrest⟩ := hcalls
      have ih := ih (d.step op) hrest
      rcases step_cases hok with ⟨group, rfl, -, -, -⟩ | ⟨rfl, hphase, -⟩ | ⟨out, rfl, hphase, -⟩ |
        ⟨out, batch, toks, rfl, hphase, hlen, -⟩ | ⟨out, toks, now, rfl, hphase, -⟩ | ⟨rfl, hphase, -⟩
      · exact ih
      · exact ih
      · exact ih
      · simp only [Sampled, runChance, hphase]
        rw [← ih]
        exact uniformDraws_stepTokens ops m hvocab (logits d) batch hlen _
      · exact ih
      · exact ih

/-- **The distribution of a run.** For every run of the loop, with requests arriving at any time, and with
    logits that may depend on everything so far: the probability that the generator leads to the tokens of
    the run is the product of the probabilities of the tokens, each for the logits of its own entry. Neither
    the other entries of the batch nor the place of a request in the stream matter to it. -/
theorem run_distribution (ops : SamplerOps ℝ) (m : ModelConfig) (hvocab : 1 ≤ m.vocabSize)
    (logits : Driver → BatchEntry → Nat → ℝ) (config : SchedulerConfig) (cache : CacheConfig)
    (calls : List DriverOp) (hcalls : Run.AllOk step Enabled (init config cache) calls) :
    uniformDraws {draws | Sampled ops m logits (init config cache) calls draws}
      = runChance ops m logits (init config cache) calls :=
  uniformDraws_sampled ops m logits hvocab (init config cache) calls hcalls

/-- A request of two tokens, and one of one token that arrives before the second iteration. -/
def lateArrival : List DriverOp :=
  [.addRequest (.new 1 [1] { maxTokens := 2 }),
    .schedule, .buildBatch, .step [0], .updateAfterDecode 0, .freeFinishedRequests,
    .addRequest (.new 2 [0] { maxTokens := 1 }),
    .schedule, .buildBatch, .step [1, 0], .updateAfterDecode 1, .freeFinishedRequests]

/-- Three tokens of two that are equally likely. -/
theorem lateArrival_distribution :
    uniformDraws {draws | Sampled realOps { vocabSize := 2 } (fun _ _ _ => 0)
        (init {} { numGpuBlocks := 4, numCpuBlocks := 0, blockSize := 2 }) lateArrival draws}
      = ENNReal.ofReal (1 / 8) := by
  have hsort : (Sorting.merge ℝ TokenId).sort [(1 / 2, 0), (1 / 2, 1)] = [(1 / 2, 0), (1 / 2, 1)] := by
    simp [Sorting.merge, List.mergeSort]
  have hids : keptIds realOps { vocabSize := 2 } (.default ℝ) (fun _ => 0) = [0, 1] := by
    norm_num [keptIds, keptTokens, SamplerParams.default, probabilities, topKCandidates, scored,
      List.range_succ, probability, sumExp, realOps, maxLogit]
    rw [hsort]
    norm_num [nucleus, cutoff]
  have hhalf : ∀ tok ∈ [0, 1], chance realOps { vocabSize := 2 } (.default ℝ) (fun _ => 0) tok
      = ENNReal.ofReal (1 / 2) := by
    intro tok htok
    rw [chance, hids, if_pos htok]
    norm_num [SamplerParams.greedy_iff, SamplerParams.default, tokenWeight, realOps]
  rw [run_distribution realOps { vocabSize := 2 } (by decide) _ _ _ _ (by decide)]
  show chance realOps _ (.default ℝ) (fun _ => 0) 0 * 1
    * (chance realOps _ (.default ℝ) (fun _ => 0) 1 * (chance realOps _ (.default ℝ) (fun _ => 0) 0 * 1) * 1)
      = _
  rw [hhalf 0 (by simp), hhalf 1 (by simp), mul_one, mul_one, ← ENNReal.ofReal_mul (by norm_num),
    ← ENNReal.ofReal_mul (by norm_num)]
  norm_num

end Driver

end CacheFlow
