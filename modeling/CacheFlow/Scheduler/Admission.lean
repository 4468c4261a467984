import CacheFlow.Scheduler.Room

set_option autoImplicit false

/-! # Admission is all or nothing

What the checks of `schedule()` miss for groups of several sequences (`Groups`) is a matter of sizes: what
a group asks for and takes (`Demand`) against the room there is (`Room`). `BlocksCover` walks through
the queues as the call will, from the state before the call, and asks that every group that finds room
finds all the blocks it takes, and that a running group with too few of them is not the last one, which
`preempt` would take.

In every run whose calls meet it, a scheduled group has the blocks all its sequences need, and a group
that finds too few is left as it was (`admission_all_or_nothing`). -/

namespace CacheFlow

open Scheduler ScheduleState

/-! ## The condition -/

/-- Walking the queue with room `r`, every group that is served finds `Enough` free blocks. -/
def Room.ServesWith {α : Type} (demand : α → Demand) (Enough : α → Nat → Prop) : Room → List α → Prop
  | _, [] => True
  | r, g :: gs =>
    r.Fits (demand g) → Enough g r.blocks ∧ ServesWith demand Enough (r.spend (demand g)) gs

namespace Scheduler

/-- What `schedule_decodes` asks for a group: a token for each unfinished sequence, and as many free
    blocks as each of them is short of; it takes what all of them are short of. -/
def decodeDemand (bm : BlockManager) (g : SequenceGroup) : Demand :=
  { tokens := g.numUnfinished,
    blocks := ((g.sequences.filter (fun x => !x.isFinished)).map (missingBlocks bm)).foldr max 0,
    taken := groupMissing bm g.sequences }

/-- Walking the running queue with room `r`: every group that finds room finds all the blocks it takes.
    The first group that finds none finds as many all the same, or is not the last one. -/
def DecodesCover (bm : BlockManager) : Room → List SequenceGroup → Prop
  | _, [] => True
  | r, g :: gs =>
    if g.allFinished then DecodesCover bm r gs
    else if r.Fits (decodeDemand bm g) then
      (decodeDemand bm g).taken ≤ r.blocks ∧ DecodesCover bm (r.spend (decodeDemand bm g)) gs
    else (decodeDemand bm g).taken ≤ r.blocks ∨ gs ≠ []

/-- Of `n` free blocks there are enough for what all sequences of a waiting group need and for what is
    taken, and each sequence is given what it needs. -/
def PrefillCovers (bm : BlockManager) (g : SequenceGroup) (n : Nat) : Prop :=
  (g.sequences.map (fun x => x.numBlocksNeeded bm.blockSize)).sum ≤ n ∧
    prefillBlocks bm g * g.sequences.length ≤ n ∧
    ∀ x ∈ g.sequences, x.numBlocksNeeded bm.blockSize ≤ x.logicalBlocks.length + prefillBlocks bm g

/-- The blocks cover the groups that a call starting in `st` serves, in the running queue and then, with
    the room the decode phase leaves, in the sorted waiting queue. -/
structure BlocksCover (st : Scheduler) : Prop where
  decodes : DecodesCover st.blockManager st.beginSchedule.room (st.running.map st.groups)
  prefills : st.afterDecodes.room.ServesWith (prefillDemand st.blockManager)
    (PrefillCovers st.blockManager)
    (st.afterDecodes.sortedWaiting.map st.afterDecodes.sched.groups)

end Scheduler

/-! ## The walks are those of the call -/

namespace ScheduleState

variable {s : ScheduleState} {p : GroupPtr} {rest : List GroupPtr}

theorem foldr_max_le_iff {l : List Nat} {n : Nat} : l.foldr max 0 ≤ n ↔ ∀ m ∈ l, m ≤ n := by
  induction l with
  | nil => simp
  | cons m l ih => simp [ih]

theorem decodeFits_iff :
    s.decodeFits p ↔ s.room.Fits (decodeDemand s.sched.blockManager (s.sched.groups p)) := by
  have hcan : canAppend s.sched.blockManager (s.sched.groups p) = true ↔
      (decodeDemand s.sched.blockManager (s.sched.groups p)).blocks
        ≤ s.sched.blockManager.numFreeGpuBlocks := by
    rw [decodeDemand, foldr_max_le_iff, canAppend, List.all_eq_true]
    simp only [BlockManager.canAllocate, BlockManager.numFreeGpuBlocks, Bool.or_eq_true,
      decide_eq_true_eq, List.mem_map, List.mem_filter, Bool.not_eq_true', or_iff_not_imp_left,
      Bool.not_eq_true]
    constructor
    · rintro h _ ⟨x, ⟨hx, hfin⟩, rfl⟩
      exact h x hx hfin
    · exact fun h x hx hfin => h _ ⟨x, ⟨hx, hfin⟩, rfl⟩
  rw [decodeFits, hcan]
  exact and_left_comm

/-- The loop that grows the sequences of a group takes what they are short of. -/
theorem appendBlocks_numFree (bm : BlockManager) (seqs : List SequenceData) :
    (threadSequences appendBlocks bm seqs).2.numFreeGpuBlocks
      = bm.numFreeGpuBlocks - groupMissing bm seqs := by
  induction seqs generalizing bm with
  | nil => rfl
  | cons x xs ih =>
      have hmissing : groupMissing (appendBlocks bm x).2 xs = groupMissing bm xs := by
        have hblocks : missingBlocks (appendBlocks bm x).2 = missingBlocks bm := by
          funext y
          simp [missingBlocks, BlockManager.blockSize]
        rw [groupMissing, hblocks, groupMissing]
      rw [threadSequences]
      simp only [ih, hmissing]
      by_cases hfin : x.isFinished = true
      · rw [groupMissing_cons_finished hfin, appendBlocks, if_pos hfin]
      · rw [groupMissing_cons_unfinished (by simpa using hfin), appendBlocks, if_neg hfin,
          allocateFor_numFree, Nat.sub_sub]

theorem decodeGroup_room : (s.decodeGroup p).room
    = s.room.spend (decodeDemand s.sched.blockManager (s.sched.groups p)) := by
  simp [room, decodeGroup, charge, putSequences, Room.spend, decodeDemand, estimateTokens,
    appendBlocks_numFree]

theorem groups_decodeGroup_of_ne {q : GroupPtr} (hq : q ≠ p) :
    (s.decodeGroup p).sched.groups q = s.sched.groups q := by
  simp [decodeGroup, charge, putSequences, hq]

theorem decodeGroup_blockManager_config :
    (s.decodeGroup p).sched.blockManager.config = s.sched.blockManager.config :=
  threadSequences_keeps BlockManager.config (fun bm x => appendBlocks_config bm x) _ _

end ScheduleState

namespace Scheduler

variable {bm bm' : BlockManager} {st : Scheduler}

/-- What a walk computes depends on the block size alone. -/
theorem DecodesCover.congr (h : bm'.config = bm.config) {r : Room} {gs : List SequenceGroup}
    (hcov : DecodesCover bm r gs) : DecodesCover bm' r gs := by
  have hmissing : missingBlocks bm' = missingBlocks bm := by
    funext x
    simp [missingBlocks, BlockManager.blockSize, h]
  have hdemand : decodeDemand bm' = decodeDemand bm := by
    funext g
    simp [decodeDemand, groupMissing, hmissing]
  induction gs generalizing r with
  | nil => trivial
  | cons g gs ih =>
      rw [DecodesCover] at hcov ⊢
      rw [hdemand]
      split_ifs at hcov ⊢ with hfin hfits
      · exact ih hcov
      · exact ⟨hcov.1, ih hcov.2⟩
      · exact hcov

theorem prefillCovers_congr (h : bm'.config = bm.config) : PrefillCovers bm' = PrefillCovers bm := by
  funext g n
  have hblocks := congrArg Demand.blocks (prefillDemand_congr h g)
  have hblocks' : prefillBlocks bm' g = prefillBlocks bm g := hblocks
  simp [PrefillCovers, hblocks', BlockManager.blockSize, h]

/-- **The decode phase makes this walk**: a group that passes its check finds the blocks of all its
    sequences, and one that finds too few is not the last one. -/
theorem DecodesCover.visits {l : List GroupPtr} {s : ScheduleState} (hl : l.Nodup)
    (h : DecodesCover s.sched.blockManager s.room (l.map s.sched.groups)) :
    ∀ v ∈ decodeVisits l s, (v.1.decodeFits v.2 → DecodeSuffices v.1 v.2) ∧
      (¬ DecodeSuffices v.1 v.2 → l.getLast? ≠ some v.2) := by
  induction l generalizing s with
  | nil => exact fun v hv => absurd hv List.not_mem_nil
  | cons p rest ih =>
      obtain ⟨hp, hrest⟩ := List.nodup_cons.1 hl
      intro v hv
      -- the last group of `rest` is the last one
      have hlast : ∀ {s'}, v ∈ decodeVisits rest s' → (¬ DecodeSuffices v.1 v.2 →
          rest.getLast? ≠ some v.2) → ¬ DecodeSuffices v.1 v.2 →
          (p :: rest).getLast? ≠ some v.2 := by
        intro s' hv' hnot hless
        rw [List.getLast?_cons_of_ne_nil (List.ne_nil_of_mem (groups_of_visit rest s' hrest hv').1)]
        exact hnot hless
      rw [List.map_cons, DecodesCover] at h
      rw [decodeVisits] at hv
      by_cases hfin : (s.sched.groups p).allFinished = true
      · rw [if_pos hfin] at h hv
        obtain ⟨hsuff, hnot⟩ := ih hrest h v hv
        exact ⟨hsuff, hlast hv hnot⟩
      · rw [if_neg hfin] at h hv
        by_cases hfits : s.decodeFits p
        · rw [if_pos (decodeFits_iff.1 hfits)] at h
          rw [if_pos hfits] at hv
          rcases List.mem_cons.1 hv with rfl | hv
          · exact ⟨fun _ => h.1, fun hless => absurd h.1 hless⟩
          · have hgroups : rest.map (s.decodeGroup p).sched.groups = rest.map s.sched.groups := by
              refine List.map_congr_left (fun q hq => ?_)
              exact groups_decodeGroup_of_ne (fun heq => hp (heq ▸ hq))
            have hwalk : DecodesCover (s.decodeGroup p).sched.blockManager (s.decodeGroup p).room
                (rest.map (s.decodeGroup p).sched.groups) := by
              rw [hgroups, decodeGroup_room]
              exact h.2.congr decodeGroup_blockManager_config
            obtain ⟨hsuff, hnot⟩ := ih hrest hwalk v hv
            exact ⟨hsuff, hlast hv hnot⟩
        · rw [if_neg (fun hroom => hfits (decodeFits_iff.2 hroom))] at h
          rw [if_neg hfits] at hv
          -- the loop ends here
          obtain rfl := List.mem_singleton.1 hv
          refine ⟨fun hyes => absurd hyes hfits, fun hless hlast => ?_⟩
          have hne : rest ≠ [] := by
            have := h.resolve_left hless
            simpa using this
          rw [List.getLast?_cons_of_ne_nil hne] at hlast
          exact hp (List.mem_of_getLast? hlast)

/-- **The prefill phase makes this walk.** -/
theorem admissions_of_servesWith {l : List GroupPtr} {s : ScheduleState} (hl : l.Nodup)
    (h : s.room.ServesWith (prefillDemand s.sched.blockManager) (PrefillCovers s.sched.blockManager)
      (l.map s.sched.groups)) :
    ∀ v ∈ prefillAdmissions l s, PrefillSuffices v.1 v.2 ∧ FirstSuffices v.1 v.2 := by
  induction l generalizing s with
  | nil => exact fun v hv => absurd hv List.not_mem_nil
  | cons p rest ih =>
      obtain ⟨hp, hrest⟩ := List.nodup_cons.1 hl
      intro v hv
      rw [prefillAdmissions] at hv
      by_cases hfits : s.prefillFits p
      · rw [if_pos hfits] at hv
        obtain ⟨henough, hwalk⟩ := h (ScheduleState.prefillFits_iff.1 hfits)
        rcases List.mem_cons.1 hv with rfl | hv
        · exact henough
        · have hconf : (s.admitGroup p rest).sched.blockManager.config
              = s.sched.blockManager.config := admitGroup_blockManager_config
          have hgroups : rest.map (s.admitGroup p rest).sched.groups = rest.map s.sched.groups := by
            refine List.map_congr_left (fun q hq => ?_)
            exact groups_admitGroup_of_ne (fun heq => hp (heq ▸ hq))
          refine ih hrest ?_ v hv
          rw [hgroups, admitGroup_room, prefillCovers_congr hconf,
            funext (prefillDemand_congr hconf)]
          exact hwalk
      · rw [if_neg hfits] at hv
        exact absurd hv List.not_mem_nil

/-- Where the blocks cover what is served, every check that passes is right. -/
theorem BlocksCover.suffices (h : st.BlocksCover) (hq : st.QueuesDisjoint) : st.Suffices := by
  obtain ⟨hroom, hgroups, hbm, -, -, hwaiting⟩ := st.beforePrefills_eq
  refine ⟨fun v hv => (h.decodes.visits hq.nodup_running v hv).1, ?_⟩
  refine admissions_of_servesWith (hwaiting ▸ (beforePrefills_nodup hq).1) ?_
  rw [hroom, hgroups, hbm, hwaiting]
  have hconf : st.afterDecodes.sched.blockManager.config = st.blockManager.config :=
    afterDecodes_stable (BlockManager.config_stable st.blockManager.config) st rfl
  rw [prefillCovers_congr hconf, funext (prefillDemand_congr hconf)]
  exact h.prefills

/-! ## The result -/

/-- What a `schedule()` call starting in `st` is to guarantee: scheduled groups are provided for, a
    group that finds too few blocks in the decode phase causes a preemption and keeps its tables, and one
    that finds too few in the prefill phase stays waiting. -/
structure AllOrNothing (st : Scheduler) : Prop where
  scheduled : ∀ p ∈ st.schedule.1.scheduledGroups, st.schedule.2.Provided p
  decodes : ∀ v ∈ decodeVisits st.running st.beginSchedule, ¬ DecodeSuffices v.1 v.2 →
    st.PreemptsAt v.1 ∧ st.schedule.2.groups v.2 = st.groups v.2
  prefills : ∀ v ∈ prefillVisits st.beforePrefills.sched.waiting st.beforePrefills,
    ¬ PrefillSuffices v.1 v.2 →
      v.2 ∈ st.schedule.2.waiting ∧ st.schedule.2.groups v.2 = v.1.sched.groups v.2

/-- A running group that finds too few blocks keeps its tables, as another one is preempted. -/
theorem decodes_allOrNothing {st : Scheduler} (h : st.Tables) (hsuff : st.Suffices)
    {v : ScheduleState × GroupPtr} (hv : v ∈ decodeVisits st.running st.beginSchedule)
    (hless : ¬ DecodeSuffices v.1 v.2) (hlast : st.running.getLast? ≠ some v.2) :
    st.PreemptsAt v.1 ∧ st.schedule.2.groups v.2 = st.groups v.2 := by
  have hat : st.PreemptsAt v.1 :=
    decodeLoop_of_visit st.running st.beginSchedule hv (fun hfits => hless (hsuff.decodes v hv hfits))
  obtain ⟨hmem, hgroup⟩ := groups_of_visit st.running st.beginSchedule h.queues.nodup_running hv
  have hrunning : v.1.sched.running = st.running := by
    have hframe := st.decodeLoop_frame.1
    rwa [hat] at hframe
  refine ⟨hat, ?_⟩
  have hloop : st.MidCall v.1 := by
    have hmid := decodeLoop_midCall h hsuff
    rwa [hat] at hmid
  have hrun : v.2 ∈ v.1.sched.running := by rwa [hrunning]
  obtain ⟨init, w, hinit⟩ : ∃ init w, v.1.sched.running = init ++ [w] :=
    ⟨_, _, (List.dropLast_concat_getLast (List.ne_nil_of_mem hrun)).symm⟩
  -- `preempt` takes the last group `w`, and this one is not the last
  have hne : v.2 ≠ w := by
    rintro rfl
    exact hlast (by rw [← hrunning, hinit, List.getLast?_concat])
  obtain ⟨-, hrest, hother⟩ := hloop.preempt hinit (hat.victim_not_scheduled h.queues.nodup_running hinit)
  obtain ⟨ws, -, hsort⟩ := st.afterDecodes.sched.sortWaitingQueue_eq
  have hbefore : st.beforePrefills.sched.running = init ∧
      st.beforePrefills.sched.groups = v.1.preempt.sched.groups := by
    rw [beforePrefills, hsort, hat.afterDecodes]
    exact ⟨hrest, rfl⟩
  have hinit' : v.2 ∈ init := by
    rw [hinit] at hrun
    exact mem_of_mem_concat hrun hne
  -- the phases behind leave a running group alone
  have hkept := running_kept h hsuff (q := v.2) (by rw [hbefore.1]; exact hinit')
  show st.afterSwapIn.sched.groups v.2 = st.groups v.2
  rw [hkept, hbefore.2, hother v.2 hne]
  exact hgroup

/-- A waiting group that finds too few blocks stays waiting. -/
theorem prefills_allOrNothing {st : Scheduler} (h : st.Tables) (hsuff : st.Suffices)
    {v : ScheduleState × GroupPtr}
    (hv : v ∈ prefillVisits st.beforePrefills.sched.waiting st.beforePrefills)
    (hless : ¬ PrefillSuffices v.1 v.2) :
    v.2 ∈ st.schedule.2.waiting ∧ st.schedule.2.groups v.2 = v.1.sched.groups v.2 := by
  have hfits : ¬ v.1.prefillFits v.2 := fun hfits =>
    hless (hsuff.prefills v (mem_admissions_of_visit _ _ hv hfits)).1
  obtain ⟨hend, hwait⟩ := prefillLoop_of_visit _ st.beforePrefills rfl hv hfits
  have hafter : st.afterPrefills = v.1 := by
    unfold afterPrefills
    split
    · next hnil =>
        have hempty : st.beforePrefills.sched.waiting = [] := by
          rw [beforePrefills, sortWaitingQueue_nil hnil]
          exact hnil
        rw [hempty] at hv
        exact absurd hv List.not_mem_nil
    · exact hend
  have hkept := waiting_kept h hsuff (q := v.2) (by rw [hafter]; exact hwait)
  rw [hafter] at hkept
  exact hkept

theorem BlocksCover.allOrNothing (hcov : st.BlocksCover) (h : st.Tables) : st.AllOrNothing := by
  have hsuff := hcov.suffices h.queues
  refine ⟨fun p hp => ((afterSwapIn_midCall h hsuff).scheduled p hp).2, ?_,
    fun v hv hless => prefills_allOrNothing h hsuff hv hless⟩
  intro v hv hless
  exact decodes_allOrNothing h hsuff hv hless
    ((hcov.decodes.visits h.queues.nodup_running v hv).2 hless)

/-! ## Runs -/

/-- Clients add requests that have not started, and the blocks cover what a call serves. -/
def CoveringOp (st : Scheduler) : Op → Prop
  | .addRequest group => Unstarted group
  | .schedule => st.BlocksCover
  | _ => True

theorem step_tables (op : Op) (h : st.Tables) (hop : st.CoveringOp op) : (st.step op).Tables := by
  cases op with
  | addRequest group => exact h.addRequest hop
  | abortRequest id => exact h.abortRequest id
  | schedule => exact (afterSwapIn_midCall h (hop.suffices h.queues)).tables
  | updateAfterDecode out toks now => exact h.updateAfterDecode out toks now
  | freeFinishedRequests => exact h.freeFinishedRequests

/-- **Admission is all or nothing where the blocks cover what is served.** In every run of the scheduler,
    with any policy and groups of any number of sequences, whose calls meet the condition, every call of
    `schedule()` that meets it provides for the groups it schedules and leaves those it finds too few
    blocks for. -/
theorem admission_all_or_nothing (config : SchedulerConfig) (cache : CacheConfig) (st : Scheduler)
    (h : Run.Reach step CoveringOp (Scheduler.new config (BlockManager.new cache)) st)
    (hcov : st.BlocksCover) : st.AllOrNothing :=
  hcov.allOrNothing
    (h.invariant (new_tables config cache) (fun _ op hst hop => step_tables op hst hop))

instance decodesCoverDecidable (bm : BlockManager) :
    ∀ (r : Room) (gs : List SequenceGroup), Decidable (DecodesCover bm r gs)
  | _, [] => isTrue trivial
  | r, g :: gs =>
    have := decodesCoverDecidable bm r gs
    have := decodesCoverDecidable bm (r.spend (decodeDemand bm g)) gs
    inferInstanceAs (Decidable (if g.allFinished then DecodesCover bm r gs
      else if r.Fits (decodeDemand bm g) then
        (decodeDemand bm g).taken ≤ r.blocks ∧ DecodesCover bm (r.spend (decodeDemand bm g)) gs
      else (decodeDemand bm g).taken ≤ r.blocks ∨ gs ≠ []))

instance (bm : BlockManager) (g : SequenceGroup) (n : Nat) : Decidable (PrefillCovers bm g n) :=
  inferInstanceAs (Decidable (_ ∧ _ ∧ _))

instance servesWithDecidable {α : Type} (demand : α → Demand) (Enough : α → Nat → Prop)
    [∀ g n, Decidable (Enough g n)] :
    ∀ (r : Room) (gs : List α), Decidable (r.ServesWith demand Enough gs)
  | _, [] => isTrue trivial
  | r, g :: gs =>
    have := servesWithDecidable demand Enough (r.spend (demand g)) gs
    inferInstanceAs (Decidable (r.Fits (demand g) →
      Enough g r.blocks ∧ (r.spend (demand g)).ServesWith demand Enough gs))

instance (st : Scheduler) : Decidable st.BlocksCover :=
  decidable_of_iff
    (DecodesCover st.blockManager st.beginSchedule.room (st.running.map st.groups) ∧
      st.afterDecodes.room.ServesWith (prefillDemand st.blockManager) (PrefillCovers st.blockManager)
        (st.afterDecodes.sortedWaiting.map st.afterDecodes.sched.groups))
    ⟨fun h => ⟨h.1, h.2⟩, fun h => ⟨h.decodes, h.prefills⟩⟩

instance (st : Scheduler) : (op : Op) → Decidable (st.CoveringOp op)
  | .addRequest group => inferInstanceAs (Decidable (Unstarted group))
  | .schedule => inferInstanceAs (Decidable st.BlocksCover)
  | .abortRequest _ | .updateAfterDecode .. | .freeFinishedRequests => isTrue trivial

/-- Two beams with prompts of two tokens, which are admitted and get a token each. -/
def twoBeams : List Op :=
  [.addRequest
      { requestId := 1,
        sequences :=
          [{ seqId := 1, promptTokens := [1, 2] }, { seqId := 2, promptTokens := [3, 4] }] },
    .schedule, .updateAfterDecode { scheduledGroups := [0] } [5, 6] 0]

/-- The scheduler after `twoBeams` on a pool of `n` blocks of two tokens. -/
def twoBeamsEnd (n : Nat) : Scheduler :=
  twoBeams.foldl step
    (Scheduler.new {} (BlockManager.new { numGpuBlocks := n, numCpuBlocks := 1, blockSize := 2 }))

/-- With four blocks both beams grow. -/
theorem twoBeams_provided :
    (twoBeamsEnd 4).schedule.1.scheduledGroups = [0] ∧ (twoBeamsEnd 4).AllOrNothing :=
  ⟨by decide, admission_all_or_nothing _ _ _ (Run.Reach.of_allOk _ (by decide)) (by decide)⟩

/-- With three blocks each beam passes the check on its own, and the second one is given
    `INVALID_BLOCK`. -/
theorem twoBeams_not_provided :
    Run.Reach step UnstartedOp (Scheduler.new {}
        (BlockManager.new { numGpuBlocks := 3, numCpuBlocks := 1, blockSize := 2 }))
        (twoBeamsEnd 3) ∧
      (twoBeamsEnd 3).schedule.1.scheduledGroups = [0] ∧
      (((twoBeamsEnd 3).schedule.2.groups 0).sequences.map SequenceData.logicalBlocks)
        = [[0, 2], [1, -1]] ∧
      ¬ (twoBeamsEnd 3).AllOrNothing := by
  have hsched : (twoBeamsEnd 3).schedule.1.scheduledGroups = [0] := by decide
  refine ⟨Run.Reach.of_allOk _ (by decide), hsched, by decide, ?_⟩
  intro hall
  have hprov := hall.scheduled 0 (by rw [hsched]; exact List.mem_singleton_self 0)
  exact absurd hprov (by unfold Provided; decide)

/-- A request outgrows the only block, and a more important one arrives. -/
def outgrownAlone : List Op :=
  [.addRequest (SequenceGroup.new 0 [1, 2] {}), .schedule,
    .updateAfterDecode { scheduledGroups := [0] } [5] 0,
    .addRequest (SequenceGroup.new 1 [3] {} 1)]

/-- The group that finds too few blocks is the last one here: `preempt` takes it and its table. -/
example :
    let st := outgrownAlone.foldl step
      (Scheduler.new { policy := .priority, preemptionMode := .recompute }
        (BlockManager.new { numGpuBlocks := 1, numCpuBlocks := 1, blockSize := 2 }))
    ¬ st.BlocksCover ∧ ((st.groups 0).sequences.map SequenceData.logicalBlocks) = [[0]] ∧
      ((st.schedule.2.groups 0).sequences.map SequenceData.logicalBlocks) = [[]] := by
  decide

end Scheduler

end CacheFlow
