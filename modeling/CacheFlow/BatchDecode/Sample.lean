import CacheFlow.Lib.Softmax
import CacheFlow.Lib.Weighted
import CacheFlow.BatchManager.Delivery

set_option autoImplicit false

/-! # Sampling

`sample` turns the logits of a batch into one token for each entry: the arg-max for parameters with a
temperature below `1e-6`, otherwise a random choice among the most probable tokens. `step` calls it with
default parameters for every entry, so the parameters of a request never reach it, and no request is
sampled greedily.

Arithmetic is exact, over an ordered field. The exponential and the two sorting functions of the standard
library are parameters that carry their specification; the generator, which all requests share, is the
stream of the values in `[0, 1)` that it is going to return. The logits of an entry are a function of the
entry. -/

namespace CacheFlow

open Weighted BatchManager

/-- The fields of `SamplingParams` that `sample` reads. -/
structure SamplerParams (K : Type) where
  temperature : K
  topP : K
  topK : Int

/-- The values a `SamplingParams` has by default. -/
def SamplerParams.default (K : Type) [Field K] : SamplerParams K where
  temperature := 4 / 5
  topP := 19 / 20
  topK := 40

/-- What `sample` takes from the standard library. -/
structure SamplerOps (K : Type) [Field K] [LinearOrder K] where
  exp : Exponential K
  sorting : Sorting K TokenId

section Sampler

variable {K : Type} [Field K] [LinearOrder K]

/-- `std::max_element`: the first of the largest logits. -/
def maxElement (m : ModelConfig) (logits : Nat → K) : TokenId :=
  ((List.range m.vocabSize).foldl (fun best v => if logits best < logits v then v else best) 0 : Nat)

section Selection

variable (exp : K → K) (sorting : Sorting K TokenId) (m : ModelConfig) (sp : SamplerParams K)
  (logits : Nat → K)

/-- The scaled logits with their tokens. -/
def scored : List (K × TokenId) :=
  (List.range m.vocabSize).map (fun v => (logits v / sp.temperature, (v : Int)))

/-- `scored` after the partial sort. -/
def topKCandidates : List (K × TokenId) :=
  if 0 < sp.topK ∧ sp.topK < m.vocabSize then
    (sorting.partialSort sp.topK.toNat (scored m sp logits)).take sp.topK.toNat
  else scored m sp logits

/-- `max_logit`: the logit of the first candidate. -/
def maxLogit (l : List (K × TokenId)) : K := (l.head?.map Prod.fst).getD 0

/-- `sum_exp`. -/
def sumExp (l : List (K × TokenId)) : K := total (l.map (fun c => (exp (c.1 - maxLogit l), c.2)))

/-- The probability of a candidate. -/
def probability (l : List (K × TokenId)) (c : K × TokenId) : K := exp (c.1 - maxLogit l) / sumExp exp l

/-- `scored` after the softmax. -/
def probabilities (l : List (K × TokenId)) : List (K × TokenId) :=
  l.map (fun c => (probability exp l c, c.2))

/-- `scored` after the cut at `top_p`. -/
def keptTokens : List (K × TokenId) :=
  let probs := probabilities exp (topKCandidates sorting m sp logits)
  if sp.topP < 1 then nucleus sp.topP (sorting.sort probs) else probs

/-- The loop that goes with the value `r` drawn. -/
def chosenAt (kept : List (K × TokenId)) (r : K) : TokenId :=
  (pick r 0 kept).getD ((kept.head?.map Prod.snd).getD 0)

end Selection

variable (ops : SamplerOps K) (m : ModelConfig)

/-- The random choice for one entry, with the value the generator returns. -/
def sampleRow (sp : SamplerParams K) (logits : Nat → K) (draw : K) : TokenId :=
  let kept := keptTokens ops.exp ops.sorting m sp logits
  chosenAt kept (draw * total kept)

/-- The loop over the entries, from the entry `i` on, with the rows of logits that are left and the
    values the generator is going to return. -/
def sample (params : List (SamplerParams K)) :
    Nat → List (Nat → K) → (Nat → K) → List TokenId
  | _, [], _ => []
  | i, row :: rows, draws =>
    let sp := params.getD i (SamplerParams.default K)
    if sp.temperature < 1 / 10 ^ 6 then maxElement m row :: sample params (i + 1) rows draws
    else sampleRow ops m sp row (draws 0) :: sample params (i + 1) rows (fun n => draws (n + 1))

/-- The tokens of `step`. -/
def stepTokens (logits : BatchEntry → Nat → K) (batch : DecodeBatch) (draws : Nat → K) : List TokenId :=
  let defaultParams := List.replicate batch.entries.length (SamplerParams.default K)
  sample ops m defaultParams 0 (batch.entries.map logits) draws

end Sampler

/-! ## What can be sampled -/

section Rows

variable {K : Type} [Field K] [LinearOrder K] {ops : SamplerOps K} {m : ModelConfig}

theorem topKCandidates_sublist (sorting : Sorting K TokenId) (m : ModelConfig) (sp : SamplerParams K)
    (logits : Nat → K) :
    ∃ l, l.Perm (scored m sp logits) ∧ (topKCandidates sorting m sp logits).Sublist l := by
  unfold topKCandidates
  split
  · exact ⟨_, sorting.partialSort_perm _ _, List.take_sublist _ _⟩
  · exact ⟨_, List.Perm.refl _, List.Sublist.refl _⟩

theorem topKCandidates_nodup {sorting : Sorting K TokenId} {sp : SamplerParams K} {logits : Nat → K} :
    ((topKCandidates sorting m sp logits).map Prod.snd).Nodup := by
  have hscored : ((scored m sp logits).map Prod.snd).Nodup := by
    rw [scored, List.map_map]
    exact List.nodup_range.map (fun _ _ h => Int.natCast_inj.1 h)
  obtain ⟨l, hperm, hsub⟩ := topKCandidates_sublist sorting m sp logits
  exact ((hperm.map Prod.snd).nodup_iff.2 hscored).sublist (hsub.map Prod.snd)

variable [IsStrictOrderedRing K]

end Rows

/-! ## What is appended -/

section Steps

variable {K : Type} [Field K] [LinearOrder K] [IsStrictOrderedRing K] {ops : SamplerOps K}
  {m : ModelConfig}

end Steps

/-- A scheduler output that contains the group `p`. -/
structure Placement where
  groups : GroupPtr → SequenceGroup
  out : SchedulerOutput
  p : GroupPtr
  nodup : out.scheduledGroups.Nodup
  mem : p ∈ out.scheduledGroups

namespace Placement

variable (pl : Placement)

def group : SequenceGroup := pl.groups pl.p

def batch : DecodeBatch := (buildBatch pl.groups pl.out).1

/-- The place of the sequence `i` of the group among all unfinished sequences, which is the place of the
    token it is handed. -/
def rank (i : Nat) : Nat :=
  activeIn pl.groups (pl.out.scheduledGroups.takeWhile (fun q => q ≠ pl.p))
    + activeCount (pl.group.sequences.take i)

section Append

variable {K : Type} [Field K] [LinearOrder K] (ops : SamplerOps K) (m : ModelConfig)
  (logits : BatchEntry → Nat → K)

end Append

variable {pl}

theorem split : ∃ post, pl.out.scheduledGroups
    = pl.out.scheduledGroups.takeWhile (fun q => q ≠ pl.p) ++ pl.p :: post := by
  have hmem := pl.mem
  generalize pl.out.scheduledGroups = l at hmem
  induction l with
  | nil => exact absurd hmem List.not_mem_nil
  | cons q l ih =>
      by_cases hq : q = pl.p
      · exact ⟨l, by simp [hq]⟩
      · obtain ⟨post, hpost⟩ := ih (List.mem_of_ne_of_mem (Ne.symm hq) hmem)
        refine ⟨post, ?_⟩
        rw [List.takeWhile_cons_of_pos (by simpa using hq), List.cons_append, ← hpost]

section Steps

variable {K : Type} [Field K] [LinearOrder K] [IsStrictOrderedRing K] {ops : SamplerOps K}
  {m : ModelConfig} {logits : BatchEntry → Nat → K} {i : Nat} {seq : SequenceData}

end Steps

end Placement

/-! ## Greedy requests -/

section Greedy

variable {K : Type} [Field K] [LinearOrder K] [IsStrictOrderedRing K] (ops : SamplerOps K)
  (m : ModelConfig)

variable {ops m}

/-- The exponential of the reals and merge sort. -/
noncomputable def realOps : SamplerOps ℝ where
  exp := { toFun := Real.exp, pos := Real.exp_pos, map_add := Real.exp_add }
  sorting := Sorting.merge ℝ TokenId

/-- The scheduler after one request has been admitted. -/
def oneAdmitted : SchedulerOutput × Scheduler :=
  let bm := BlockManager.new { numGpuBlocks := 4, numCpuBlocks := 0, blockSize := 4 }
  ((Scheduler.new {} bm).addRequest (.new 7 [5] {})).schedule

/-- The request by itself. -/
def alone : Placement where
  groups := oneAdmitted.2.groups
  out := oneAdmitted.1
  p := 0
  nodup := by decide
  mem := by decide

end Greedy

end CacheFlow
