import CacheFlow.Lib.Simt
import CacheFlow.Scheduler.Episodes

set_option autoImplicit false

/-! # Swapping with the kernel

The executor of `Episodes` copies one block after the other. The repository has a kernel for it,
`swap_blocks_kernel`: one thread block for each pair of `block_mapping`, whose 256 threads copy the elements of
the pair's blocks with a stride of 256. Threads run in any order, across all pairs of a launch.

The order does not matter where no block is the destination of two pairs. The scheduler guarantees that in
each of its two lists (`Apart.swaps_nodup`), so a launch copies whole blocks in whatever order its threads run
(`view_launch`), and an episode brings back every element (`CellExecutor.episode_restores_cells`).

Offsets are computed in 64-bit integers. They are exact for block ids of type `int32_t` and block sizes of
type `int32_t`. -/

namespace CacheFlow

open BlockManager Copy Simt

/-! ## The kernel -/

/-- Signed 64-bit arithmetic. -/
def toInt64 (x : Int) : Int := x.bmod (2 ^ 64)

theorem toInt64_of_lt {x : Int} (hlo : -2 ^ 63 ≤ x) (hhi : x < 2 ^ 63) : toInt64 x = x :=
  Int.bmod_eq_of_le (by omega) (by omega)

namespace SwapKernel

/-- `block_size_elems`: `sizeof(float)` is 4. -/
def blockSizeElems (blockSizeBytes : Nat) : Nat := blockSizeBytes / 4

/-- The elements that the threads of a thread block visit. -/
def visited (n : Nat) : List Nat := (List.range 256).flatMap (fun tid => strided tid n 256)

/-- Where the element `i` of a block is, in blocks of `n` elements. -/
def offset (n : Nat) (block : Int) (i : Nat) : Int := toInt64 (toInt64 (block * n) + i)

/-- The copies of all threads of a launch. -/
def threadCopies (mapping : List Int) (numPairs n : Nat) : List (Int × Int) :=
  (List.range numPairs).flatMap (fun pairIdx =>
    let srcBlock := mapping.getD (pairIdx * 2) 0
    let dstBlock := mapping.getD (pairIdx * 2 + 1) 0
    (visited n).map (fun i => (offset n srcBlock i, offset n dstBlock i)))

/-- The pairs of a list of copies, as `launch_swap_blocks` takes them. -/
def blockMapping (ops : List BlockOp) : List Int := ops.flatMap (fun op => [op.src, op.dst])

/-- The copies of a launch for `ops`, with blocks of `blockSizeBytes` bytes. -/
def launchCopies (blockSizeBytes : Nat) (ops : List BlockOp) : List (Int × Int) :=
  threadCopies (blockMapping ops) ops.length (blockSizeElems blockSizeBytes)

/-- The block ids are of type `int32_t`. -/
def Int32Ids (ops : List BlockOp) : Prop :=
  ∀ op ∈ ops, (-2 ^ 31 ≤ op.src ∧ op.src < 2 ^ 31) ∧ -2 ^ 31 ≤ op.dst ∧ op.dst < 2 ^ 31

instance (ops : List BlockOp) : Decidable (Int32Ids ops) :=
  inferInstanceAs (Decidable (∀ op ∈ ops, _))

/-! ## What a launch copies -/

theorem mem_visited {n i : Nat} : i ∈ visited n ↔ i < n := by
  have htiles := strided_tiles 0 n (n := 256) (by omega)
  simp only [Nat.zero_add, Nat.sub_zero, ← List.range_eq_range'] at htiles
  rw [visited, htiles.mem_iff, List.mem_range]

/-- No offset overflows. -/
theorem offset_eq {n i : Nat} {block : Int} (hn : n ≤ 2 ^ 31) (hi : i < n) (hlo : -2 ^ 31 ≤ block)
    (hhi : block < 2 ^ 31) : offset n block i = block * n + i := by
  have hmul : -2 ^ 62 ≤ block * n ∧ block * n ≤ 2 ^ 62 := by
    have hnat : (n : Int) ≤ 2 ^ 31 := by exact_mod_cast hn
    have hpos : (0 : Int) ≤ n := Int.natCast_nonneg n
    constructor
    · nlinarith
    · nlinarith
  have hi' : (i : Int) < 2 ^ 31 := by
    have hlt : i < 2 ^ 31 := Nat.lt_of_lt_of_le hi hn
    exact_mod_cast hlt
  have hmul' : toInt64 (block * n) = block * n := toInt64_of_lt (by omega) (by omega)
  rw [offset, hmul']
  exact toInt64_of_lt (by omega) (by omega)

theorem getD_blockMapping (ops : List BlockOp) {k : Nat} (hk : k < ops.length) :
    (blockMapping ops).getD (k * 2) 0 = ops[k].src ∧
      (blockMapping ops).getD (k * 2 + 1) 0 = ops[k].dst := by
  induction ops generalizing k with
  | nil => exact absurd hk (Nat.not_lt_zero k)
  | cons op ops ih =>
      cases k with
      | zero => exact ⟨rfl, rfl⟩
      | succ k =>
          have hrest := ih (Nat.lt_of_succ_lt_succ hk)
          have hidx : (k + 1) * 2 = k * 2 + 1 + 1 := by omega
          rw [blockMapping, List.flatMap_cons, hidx]
          exact hrest

/-- Every element of every pair is copied. -/
theorem mem_launchCopies {bytes : Nat} {ops : List BlockOp} (hbytes : bytes < 2 ^ 31)
    (hids : Int32Ids ops) {c : Int × Int} :
    c ∈ launchCopies bytes ops ↔ ∃ op ∈ ops, ∃ i < blockSizeElems bytes,
      c = (op.src * blockSizeElems bytes + i, op.dst * blockSizeElems bytes + i) := by
  have hn : blockSizeElems bytes ≤ 2 ^ 31 := by
    rw [blockSizeElems]
    omega
  have hcell : ∀ op ∈ ops, ∀ i < blockSizeElems bytes,
      (offset (blockSizeElems bytes) op.src i, offset (blockSizeElems bytes) op.dst i)
        = (op.src * blockSizeElems bytes + i, op.dst * blockSizeElems bytes + i) := by
    intro op hop i hi
    obtain ⟨⟨hslo, hshi⟩, hdlo, hdhi⟩ := hids op hop
    rw [offset_eq hn hi hslo hshi, offset_eq hn hi hdlo hdhi]
  simp only [launchCopies, threadCopies, List.mem_flatMap, List.mem_range, List.mem_map, mem_visited]
  constructor
  · rintro ⟨k, hk, i, hi, rfl⟩
    obtain ⟨hsrc, hdst⟩ := getD_blockMapping ops hk
    refine ⟨ops[k], List.getElem_mem hk, i, hi, ?_⟩
    rw [hsrc, hdst]
    exact hcell _ (List.getElem_mem hk) i hi
  · rintro ⟨op, hop, i, hi, rfl⟩
    obtain ⟨k, hk, rfl⟩ := List.mem_iff_getElem.1 hop
    obtain ⟨hsrc, hdst⟩ := getD_blockMapping ops hk
    refine ⟨k, hk, i, hi, ?_⟩
    rw [hsrc, hdst]
    exact hcell _ hop i hi

/-! ## Blocks of cells -/

section View

variable {E : Type}

/-- The content of a block of `n` cells. -/
def view (n : Nat) (mem : Int → E) (b : BlockId) : Fin n → E := fun i => mem (b * n + (i : Nat))

/-- A cell belongs to one block. -/
theorem block_cell_inj {n i j : Nat} {b b' : Int} (hi : i < n) (hj : j < n)
    (h : b * n + i = b' * n + j) : b = b' ∧ i = j := by
  have hdiv : ∀ (b : Int) (i : Nat), i < n → (b * n + i) / n = b := by
    intro b i hi
    rw [Int.add_comm, Int.add_mul_ediv_right _ _ (by omega),
      Int.ediv_eq_zero_of_lt (by omega) (by omega), Int.zero_add]
  have hb : b = b' := by
    rw [← hdiv b i hi, ← hdiv b' j hj, h]
  subst hb
  exact ⟨rfl, by omega⟩

/-- Where every element of every pair is copied, once or more often and in any order, whole blocks are
    copied, if no block is the destination of two pairs. -/
theorem view_copyAll {n : Nat} {ops : List BlockOp} (hnodup : (ops.map BlockOp.dst).Nodup)
    {order : List (Int × Int)} (hmem : ∀ {c}, c ∈ order ↔ ∃ op ∈ ops, ∃ i < n,
      c = (op.src * n + (i : Int), op.dst * n + (i : Int))) (src dst : Int → E) :
    view n (copyAll src order dst)
      = copyAll (view n src) (ops.map (fun op => (op.src, op.dst))) (view n dst) := by
  have hsame : ∀ op ∈ ops, ∀ op' ∈ ops, op'.dst = op.dst → op' = op :=
    fun op hop op' hop' heq => List.inj_on_of_nodup_map hnodup hop' hop heq
  funext b i
  by_cases hb : b ∈ ops.map BlockOp.dst
  · obtain ⟨op, hop, rfl⟩ := List.mem_map.1 hb
    have hpair : (op.src, op.dst) ∈ ops.map (fun op => (op.src, op.dst)) :=
      List.mem_map.2 ⟨op, hop, rfl⟩
    have hblock : copyAll (view n src) (ops.map (fun op => (op.src, op.dst))) (view n dst) op.dst
        = view n src op.src := by
      refine copyAll_of_mem hpair (fun c hc heq => ?_)
      obtain ⟨op', hop', rfl⟩ := List.mem_map.1 hc
      rw [hsame op hop op' hop' heq]
    have hcell : copyAll src order dst (op.dst * n + (i : Nat)) = src (op.src * n + (i : Nat)) := by
      refine copyAll_of_mem (hmem.2 ⟨op, hop, i.1, i.2, rfl⟩) (fun c hc heq => ?_)
      obtain ⟨op', hop', j, hj, rfl⟩ := hmem.1 hc
      obtain ⟨hdst, rfl⟩ := block_cell_inj hj i.2 heq
      rw [hsame op hop op' hop' hdst]
    rw [hblock]
    exact hcell
  · rw [copyAll_of_notMem (b := b) (by simpa [List.map_map] using hb)]
    refine copyAll_of_notMem (fun hc => ?_)
    obtain ⟨c, hc, heq⟩ := List.mem_map.1 hc
    obtain ⟨op, hop, j, hj, rfl⟩ := hmem.1 hc
    obtain ⟨rfl, -⟩ := block_cell_inj hj i.2 heq
    exact hb (List.mem_map.2 ⟨op, hop, rfl⟩)

/-- **A launch copies whole blocks**, in whatever order its threads run, if no block is the destination of
    two pairs. -/
theorem view_launch {bytes : Nat} {ops : List BlockOp} (hbytes : bytes < 2 ^ 31)
    (hids : Int32Ids ops) (hnodup : (ops.map BlockOp.dst).Nodup) {order : List (Int × Int)}
    (horder : order.Perm (launchCopies bytes ops)) (src dst : Int → E) :
    view (blockSizeElems bytes) (copyAll src order dst)
      = copyAll (view (blockSizeElems bytes) src) (ops.map (fun op => (op.src, op.dst)))
        (view (blockSizeElems bytes) dst) :=
  view_copyAll hnodup (fun {_} => horder.mem_iff.trans (mem_launchCopies hbytes hids)) src dst

end View

end SwapKernel

/-! ## No block is the destination of two copies -/

namespace Scheduler

open ScheduleState

variable {st : Scheduler}

/-- The destinations a call has written down are different blocks, and those on the GPU are not free. -/
structure SwapsApart (s : ScheduleState) : Prop where
  apart : s.sched.Apart
  swapsOut : (s.output.blockSwapsOut.map BlockOp.dst).Nodup
  swapsIn : (s.output.blockSwapsIn.map BlockOp.dst ++ s.sched.blockManager.freeList .cuda).Nodup

theorem SwapsApart.admitGroup {s : ScheduleState} {p : GroupPtr} {rest : List GroupPtr}
    (h : SwapsApart s) (hwait : s.sched.waiting = p :: rest) (hfits : s.prefillFits p) :
    SwapsApart (s.admitGroup p rest) := by
  have hsingle := h.apart.single p (WellFormed.mem_waiting (by rw [hwait]; simp))
  have hroom := hfits.room hsingle
  obtain ⟨bids, -, -, hhand⟩ := prefillSequence_handed s.sched.blockManager (s.sched.seq p) _
    hroom (h.apart.range .cuda)
  refine ⟨h.apart.admitGroup hwait hroom, h.swapsOut, ?_⟩
  have hin := h.swapsIn
  rw [hhand.freeList] at hin
  rw [admitGroup_sched hsingle]
  exact hin.sublist (List.Sublist.append_left (List.sublist_append_right _ _) _)

theorem SwapsApart.swapInGroup {s : ScheduleState} {p : GroupPtr} {rest : List GroupPtr}
    (h : SwapsApart s) (hswap : s.sched.swapped = p :: rest) (hfits : s.swapInFits p) :
    SwapsApart (s.swapInGroup p rest) := by
  have hsingle := h.apart.single p (WellFormed.mem_swapped (by rw [hswap]; simp))
  have hroom := swapIn_room hfits hsingle
  obtain ⟨dsts, -, -, hlen, hops, hhand⟩ := swapInSequence_spec
    (s.sched.blockManager, s.output.blockSwapsIn) (s.sched.seq p) hroom h.apart.range
  have hout : (s.swapInGroup p rest).output.blockSwapsIn
      = s.output.blockSwapsIn ++ copies (s.sched.seq p).seqId (s.sched.seq p).liveBlocks dsts := by
    rw [← hops]
    simp only [ScheduleState.swapInGroup, charge, hsingle.sequences, threadSequences]
    rfl
  refine ⟨(h.apart.swapInGroup hswap hroom).1, h.swapsOut, ?_⟩
  have hin := h.swapsIn
  rw [hhand.freeList] at hin
  rw [hout, List.map_append, copies_dst hlen.symm, swapInGroup_sched hsingle, List.append_assoc]
  exact hin

/-- **The destinations of a call.** When nobody shares a block and the CPU has room, the blocks that are
    copied to are different, on the CPU and on the GPU. -/
theorem Apart.swaps_nodup (h : st.Apart) (hmode : st.config.preemptionMode = .swap)
    (hcpu : st.CpuSuffices) :
    (st.schedule.1.blockSwapsOut.map BlockOp.dst).Nodup ∧
      (st.schedule.1.blockSwapsIn.map BlockOp.dst).Nodup := by
  have hdecodes : SwapsApart st.afterDecodes := by
    refine st.afterDecodes_of_loop (P := SwapsApart) ?_ ?_
    · refine ⟨h.decoding.apart, ?_, ?_⟩
      · rw [h.decoding.swapsOut]
        exact List.nodup_nil
      · rw [h.decoding.swapsIn]
        exact h.decoding.apart.gpu.sublist (List.sublist_append_left _ _)
    · intro s init v _ hat hv
      obtain ⟨hs, heq, hroom⟩ := hat.swapOut h hmode hcpu hv
      obtain ⟨hapart, -, dsts, rest, -, hlen, hfree, hops⟩ := hs.apart.swapOutGroup hv hroom
      rw [heq]
      refine ⟨hapart, ?_, ?_⟩
      · have hnodup := hs.apart.cpu
        rw [hfree, List.append_assoc] at hnodup
        rw [hops, hs.swapsOut, List.nil_append, copies_dst hlen.symm]
        exact (List.nodup_append.1 hnodup).1
      · have hin : (s.swapOutGroup v init).output.blockSwapsIn = [] := hs.swapsIn
        rw [hin]
        exact hapart.gpu.sublist (List.sublist_append_left _ _)
  have hend : SwapsApart st.afterSwapIn := by
    refine st.afterSwapIn_invariant_of (P := SwapsApart) ?_ ?_ ?_
    · obtain ⟨w, hperm, hw⟩ := st.afterDecodes.sched.sortWaitingQueue_eq
      rw [beforePrefills, hw]
      exact ⟨hdecodes.apart.sorted hperm, hdecodes.swapsOut, hdecodes.swapsIn⟩
    · exact fun _ _ _ hs _ hwait hfits => hs.admitGroup hwait hfits
    · exact fun _ _ _ hs hswap hfits => hs.swapInGroup hswap hfits
  exact ⟨hend.swapsOut, (List.nodup_append.1 hend.swapsIn).1⟩

end Scheduler

/-! ## Runs with the kernel -/

/-- The cells of a cache on both devices. -/
structure CellMemory (E : Type) where
  gpu : Int → E
  cpu : Int → E

namespace CellMemory

open SwapKernel

variable {E : Type}

/-- The launches for one output: out, then in. `outOrder` and `inOrder` are the orders in which their
    threads copy. -/
def launch (m : CellMemory E) (outOrder inOrder : List (Int × Int)) : CellMemory E :=
  let cpu := copyAll m.gpu outOrder m.cpu
  { cpu := cpu, gpu := copyAll cpu inOrder m.gpu }

/-- The memories as blocks of `n` cells. -/
def blocks (n : Nat) (m : CellMemory E) : KvMemory (Fin n → E) where
  gpu := view n m.gpu
  cpu := view n m.cpu

end CellMemory

/-- The copies of one output, as copies between the memories. -/
theorem KvMemory.execute_eq {C : Type} (m : KvMemory C) (out : SchedulerOutput) :
    m.execute out =
      { cpu := copyAll m.gpu (out.blockSwapsOut.map (fun op => (op.src, op.dst))) m.cpu,
        gpu := copyAll (copyAll m.gpu (out.blockSwapsOut.map (fun op => (op.src, op.dst))) m.cpu)
          (out.blockSwapsIn.map (fun op => (op.src, op.dst))) m.gpu } := by
  have hout : ∀ (ops : List BlockOp) (m : KvMemory C), ops.foldl swapOut m
      = { m with cpu := copyAll m.gpu (ops.map (fun op => (op.src, op.dst))) m.cpu } := by
    intro ops
    induction ops with
    | nil => exact fun _ => rfl
    | cons op ops ih => exact fun m => ih (m.swapOut op)
  have hin : ∀ (ops : List BlockOp) (m : KvMemory C), ops.foldl swapIn m
      = { m with gpu := copyAll m.cpu (ops.map (fun op => (op.src, op.dst))) m.gpu } := by
    intro ops
    induction ops with
    | nil => exact fun _ => rfl
    | cons op ops ih => exact fun m => ih (m.swapIn op)
  rw [execute, hout, hin]

/-- The scheduler, the output of its latest call and the cells. -/
structure CellExecutor (E : Type) where
  sched : Scheduler
  output : SchedulerOutput
  mem : CellMemory E

namespace CellExecutor

open SwapKernel

variable {E : Type}

/-- A call of `schedule()` whose launches are run at once, `update_after_decode` with the latest output, or a
    write to a GPU cell. -/
inductive Op (E : Type)
  | schedule (outOrder inOrder : List (Int × Int))
  | updateAfterDecode (newTokens : List TokenId) (now : TimePoint)
  | write (cell : Int) (x : E)

def step (e : CellExecutor E) : Op E → CellExecutor E
  | .schedule outOrder inOrder =>
    { sched := e.sched.schedule.2,
      output := e.sched.schedule.1,
      mem := e.mem.launch outOrder inOrder }
  | .updateAfterDecode newTokens now =>
    { e with sched := e.sched.updateAfterDecode e.output newTokens now }
  | .write cell x => { e with mem := { e.mem with gpu := Function.update e.mem.gpu cell x } }

/-- The threads copy what the call has written down, and the preemption finds enough CPU blocks. -/
structure Launches (bytes : Nat) (e : CellExecutor E) (outOrder inOrder : List (Int × Int)) : Prop where
  cpu : e.sched.CpuSuffices
  swapsOut : outOrder.Perm (launchCopies bytes e.sched.schedule.1.blockSwapsOut)
  swapsIn : inOrder.Perm (launchCopies bytes e.sched.schedule.1.blockSwapsIn)
  idsOut : Int32Ids e.sched.schedule.1.blockSwapsOut
  idsIn : Int32Ids e.sched.schedule.1.blockSwapsIn

def Permitted (bytes : Nat) (e : CellExecutor E) : Op E → Prop
  | .schedule outOrder inOrder => e.Launches bytes outOrder inOrder
  | _ => True

/-- The operation is a call that swaps `p` in. -/
def SwapsIn (p : GroupPtr) (e : CellExecutor E) : Op E → Prop
  | .schedule .. => p ∈ e.sched.schedule.1.swappedInGroups
  | _ => False

/-- The executor of blocks that `e` implements. -/
def blocks (n : Nat) (e : CellExecutor E) : Executor (Fin n → E) where
  sched := e.sched
  output := e.output
  mem := e.mem.blocks n

/-! ### The kernel implements the executor -/

variable {bytes : Nat} {e : CellExecutor E}

/-- **A call**: whatever the order of the threads, the launches copy the blocks. -/
theorem blocks_schedule (hbytes : bytes < 2 ^ 31) (h : (e.blocks (blockSizeElems bytes)).Ready)
    {outOrder inOrder : List (Int × Int)} (hl : e.Launches bytes outOrder inOrder) :
    (e.step (.schedule outOrder inOrder)).blocks (blockSizeElems bytes)
      = (e.blocks (blockSizeElems bytes)).step .schedule := by
  obtain ⟨hnodupOut, hnodupIn⟩ := h.apart.swaps_nodup h.mode hl.cpu
  have hmem : (e.mem.launch outOrder inOrder).blocks (blockSizeElems bytes)
      = (e.mem.blocks (blockSizeElems bytes)).execute e.sched.schedule.1 := by
    rw [KvMemory.execute_eq, CellMemory.blocks, CellMemory.launch,
      view_launch hbytes hl.idsOut hnodupOut hl.swapsOut,
      view_launch hbytes hl.idsIn hnodupIn hl.swapsIn, view_launch hbytes hl.idsOut hnodupOut hl.swapsOut]
    rfl
  exact congrArg (fun mem => (⟨e.sched.schedule.2, e.sched.schedule.1, mem⟩ : Executor _)) hmem

/-- A write to a cell is a write to its block. -/
theorem blocks_write {n : Nat} (hn : 0 < n) (cell : Int) (x : E) :
    ∃ b c, (e.step (.write cell x)).blocks n = (e.blocks n).step (.write b c) := by
  refine ⟨cell / n, view n (Function.update e.mem.gpu cell x) (cell / n), ?_⟩
  have hgpu : view n (Function.update e.mem.gpu cell x)
      = Function.update (view n e.mem.gpu) (cell / n)
        (view n (Function.update e.mem.gpu cell x) (cell / n)) := by
    funext b
    by_cases hb : b = cell / n
    · subst hb
      rw [Function.update_self]
    · rw [Function.update_of_ne hb]
      funext i
      refine Function.update_of_ne (fun hcell => hb ?_) _ _
      have hsplit : b * n + (i : Nat) = cell / n * n + (cell % n).toNat := by
        rw [Int.toNat_of_nonneg (Int.emod_nonneg cell (by omega)), Int.ediv_mul_add_emod]
        exact hcell
      have hlt : (cell % n).toNat < n := by
        have hmod := Int.emod_lt_of_pos cell (b := (n : Int)) (by omega)
        omega
      exact (block_cell_inj i.2 hlt hsplit).1
  exact congrArg (fun gpu => (⟨e.sched, e.output, ⟨gpu, view n e.mem.cpu⟩⟩ : Executor _)) hgpu

/-- **Every step of the cells is a step of the blocks.** -/
theorem blocks_step (hbytes : bytes < 2 ^ 31) (hpos : 4 ≤ bytes)
    (h : (e.blocks (blockSizeElems bytes)).Ready) (op : Op E) (hop : e.Permitted bytes op) :
    ∃ op', (e.step op).blocks (blockSizeElems bytes)
        = (e.blocks (blockSizeElems bytes)).step op' ∧
      (e.blocks (blockSizeElems bytes)).Permitted op' ∧
      ∀ p, Executor.SwapsIn p (e.blocks (blockSizeElems bytes)) op' → e.SwapsIn p op := by
  cases op with
  | schedule outOrder inOrder =>
      exact ⟨.schedule, blocks_schedule hbytes h hop, hop.cpu, fun p hp => hp⟩
  | updateAfterDecode newTokens now =>
      exact ⟨.updateAfterDecode newTokens now, rfl, trivial, fun p hp => hp⟩
  | write cell x =>
      obtain ⟨b, c, heq⟩ := blocks_write (e := e) (n := blockSizeElems bytes)
        (by rw [blockSizeElems]; omega) cell x
      exact ⟨.write b c, heq, trivial, fun p hp => hp⟩

/-! ### Episodes -/

/-- The call starting in `a` preempts `p`, and `b` is the state after the next call that swaps `p` in:
    the same call, or a later one with no such call in between. -/
structure Episode (bytes : Nat) (p : GroupPtr) (a b : CellExecutor E) : Prop where
  preempted : p ∈ a.sched.schedule.1.preemptedGroups
  back : ∃ outOrder inOrder, a.Launches bytes outOrder inOrder ∧
    ((p ∈ a.sched.schedule.1.swappedInGroups ∧ b = a.step (.schedule outOrder inOrder)) ∨
     (p ∉ a.sched.schedule.1.swappedInGroups ∧ ∃ c outOrder' inOrder',
      Run.Reach step (fun e op => e.Permitted bytes op ∧ ¬ e.SwapsIn p op)
        (a.step (.schedule outOrder inOrder)) c ∧
      c.Launches bytes outOrder' inOrder' ∧ p ∈ c.sched.schedule.1.swappedInGroups ∧
      b = c.step (.schedule outOrder' inOrder')))

/-- The sequence of `p` is in `b` what it was in `a`, with blocks of `n` cells. -/
structure RestoredCells (n : Nat) (p : GroupPtr) (a b : CellExecutor E) : Prop where
  blocks : (b.sched.seq p).logicalBlocks.length = (a.sched.seq p).logicalBlocks.length
  promptTokens : (b.sched.seq p).promptTokens = (a.sched.seq p).promptTokens
  outputTokens : (b.sched.seq p).outputTokens = (a.sched.seq p).outputTokens
  cells : ∀ k < (a.sched.seq p).logicalBlocks.length, ∀ i < n,
    b.mem.gpu ((b.sched.seq p).logicalBlocks.getD k 0 * n + i)
      = a.mem.gpu ((a.sched.seq p).logicalBlocks.getD k 0 * n + i)

theorem restoredCells_of_blocks {n : Nat} {p : GroupPtr} {a b : CellExecutor E}
    (h : Executor.Restored p (a.blocks n) (b.blocks n)) : RestoredCells n p a b := by
  refine ⟨h.blocks, h.promptTokens, h.outputTokens, ?_⟩
  intro k hk i hi
  have hk' : k < (b.sched.seq p).logicalBlocks.length := by
    rw [show (b.sched.seq p).logicalBlocks.length = _ from h.blocks]
    exact hk
  have hcontents := congrArg (fun l => l[k]?) h.contents
  simp only [List.getElem?_map] at hcontents
  have hb : (b.sched.seq p).logicalBlocks[k]? = some ((b.sched.seq p).logicalBlocks.getD k 0) := by
    rw [List.getD_eq_getElem _ _ hk', List.getElem?_eq_getElem hk']
  have ha : (a.sched.seq p).logicalBlocks[k]? = some ((a.sched.seq p).logicalBlocks.getD k 0) := by
    rw [List.getD_eq_getElem _ _ hk, List.getElem?_eq_getElem hk]
  have hblock : view n b.mem.gpu ((b.sched.seq p).logicalBlocks.getD k 0)
      = view n a.mem.gpu ((a.sched.seq p).logicalBlocks.getD k 0) := by
    have heq : (b.sched.seq p).logicalBlocks[k]?.map (view n b.mem.gpu)
        = (a.sched.seq p).logicalBlocks[k]?.map (view n a.mem.gpu) := hcontents
    rw [hb, ha] at heq
    exact Option.some.inj heq
  exact congrFun hblock ⟨i, hi⟩

/-- **An episode brings back every element.** From any state in swap mode in which nobody shares a block, in
    every run of calls, updates and writes to single cells, whatever the order in which the threads of the
    launches run: a group that is preempted and later swapped in has the same tokens, as many blocks, and in
    each of their cells what was there when it was preempted. -/
theorem episode_restores_cells (hbytes : bytes < 2 ^ 31) (hpos : 4 ≤ bytes)
    {start a b : CellExecutor E} {p : GroupPtr}
    (hstart : (start.blocks (blockSizeElems bytes)).Ready)
    (ha : Run.Reach step (Permitted bytes) start a) (hepisode : Episode bytes p a b)
    (hun : (a.sched.seq p).isFinished = false) :
    RestoredCells (blockSizeElems bytes) p a b := by
  have hready : (a.blocks (blockSizeElems bytes)).Ready := by
    refine ha.invariant (P := fun e => (e.blocks (blockSizeElems bytes)).Ready) hstart ?_
    intro e op h hop
    obtain ⟨op', heq, hop', -⟩ := blocks_step hbytes hpos h op hop
    rw [heq]
    exact h.step op' hop'
  obtain ⟨outOrder, inOrder, hl, hback⟩ := hepisode.back
  have hcall := blocks_schedule hbytes hready hl
  have hafter : ((a.step (.schedule outOrder inOrder)).blocks (blockSizeElems bytes)).Ready := by
    rw [hcall]
    exact hready.step .schedule hl.cpu
  have htrack := hready.apart.preempted_tracked hready.mode hl.cpu hepisode.preempted
    (a.mem.blocks (blockSizeElems bytes))
  apply restoredCells_of_blocks
  rcases hback with ⟨hin, rfl⟩ | ⟨hnot, c, outOrder', inOrder', hc, hl', hin, rfl⟩
  · rw [hcall]
    exact Executor.restored_of_tracked hun htrack hin
  · have hparked : Executor.Parked p (a.sched.seq p)
        ((a.sched.seq p).liveBlocks.map (view (blockSizeElems bytes) a.mem.gpu))
        ((a.step (.schedule outOrder inOrder)).blocks (blockSizeElems bytes)) := by
      rw [hcall] at hafter ⊢
      rcases htrack with ⟨hswapped, -, hsaved⟩ | ⟨-, hin', -⟩
      · exact ⟨hafter, hswapped, hsaved⟩
      · exact absurd hin' hnot
    have hend : Executor.Parked p (a.sched.seq p)
        ((a.sched.seq p).liveBlocks.map (view (blockSizeElems bytes) a.mem.gpu))
        (c.blocks (blockSizeElems bytes)) := by
      refine hc.invariant (P := fun e => Executor.Parked p (a.sched.seq p)
        ((a.sched.seq p).liveBlocks.map (view (blockSizeElems bytes) a.mem.gpu))
        (e.blocks (blockSizeElems bytes))) hparked ?_
      rintro e op h ⟨hop, hnot⟩
      obtain ⟨op', heq, hop', hin⟩ := blocks_step hbytes hpos h.ready op hop
      rw [heq]
      exact h.step op' hop' (fun hs => hnot (hin p hs))
    have htracked := hend.ready.apart.swapped_tracked hend.ready.mode hl'.cpu hend.swapped hend.saved
    rw [blocks_schedule hbytes hend.ready hl']
    exact Executor.restored_of_tracked hun htracked hin

/-- A call in which the threads that copy out run in reverse. -/
def call (e : CellExecutor Nat) : Op Nat :=
  .schedule (launchCopies 8 e.sched.schedule.1.blockSwapsOut).reverse
    (launchCopies 8 e.sched.schedule.1.blockSwapsIn)

theorem launches_call {e : CellExecutor Nat} (hcpu : e.sched.CpuSuffices)
    (hout : Int32Ids e.sched.schedule.1.blockSwapsOut)
    (hin : Int32Ids e.sched.schedule.1.blockSwapsIn) :
    e.Launches 8 (launchCopies 8 e.sched.schedule.1.blockSwapsOut).reverse
      (launchCopies 8 e.sched.schedule.1.blockSwapsIn) :=
  ⟨hcpu, List.reverse_perm _, List.Perm.refl _, hout, hin⟩

/-- The three requests of `Executor.threeWaiting`, with two cells in a block. -/
def threeCells : CellExecutor Nat where
  sched := Executor.threeWaiting.sched
  output := {}
  mem := { gpu := fun _ => 0, cpu := fun _ => 0 }

def firstTokens : CellExecutor Nat :=
  [call threeCells, .updateAfterDecode [11, 21] 0].foldl step threeCells

/-- The first two requests run until the first has finished and the second finds no block. -/
def beforePreemption : CellExecutor Nat :=
  [call firstTokens, .updateAfterDecode [12, 22] 0, .write 2 101, .write 7 103].foldl step firstTokens

def thirdAdmitted : CellExecutor Nat :=
  [.write 2 5, .updateAfterDecode [31] 0].foldl step (beforePreemption.step (call beforePreemption))

/-- The third request has the blocks of the second one, until it finds no block either. -/
def beforeReturn : CellExecutor Nat :=
  [call thirdAdmitted, .updateAfterDecode [32] 0, .write 2 7, .write 7 8].foldl step thirdAdmitted

theorem reach_beforePreemption : Run.Reach step (Permitted 8) threeCells beforePreemption := by
  have hfirst : Run.Reach step (Permitted 8) threeCells firstTokens :=
    Run.Reach.of_allOk _ ⟨launches_call (by decide) (by decide) (by decide), trivial, trivial⟩
  exact hfirst.trans (Run.Reach.of_allOk _
    ⟨launches_call (by decide) (by decide) (by decide), trivial, trivial, trivial, trivial⟩)

theorem reach_beforeReturn : Run.Reach step (fun e op => e.Permitted 8 op ∧ ¬ e.SwapsIn 1 op)
    (beforePreemption.step (call beforePreemption)) beforeReturn := by
  have hadmitted : Run.Reach step (fun e op => e.Permitted 8 op ∧ ¬ e.SwapsIn 1 op)
      (beforePreemption.step (call beforePreemption)) thirdAdmitted :=
    Run.Reach.of_allOk _ ⟨⟨trivial, id⟩, ⟨trivial, id⟩, trivial⟩
  have hnot : ¬ thirdAdmitted.SwapsIn 1 (call thirdAdmitted) :=
    show 1 ∉ thirdAdmitted.sched.schedule.1.swappedInGroups by decide
  exact hadmitted.trans (Run.Reach.of_allOk _
    ⟨⟨launches_call (by decide) (by decide) (by decide), hnot⟩, ⟨trivial, id⟩, ⟨trivial, id⟩,
      ⟨trivial, id⟩, trivial⟩)

theorem episode_beforeReturn :
    Episode 8 1 beforePreemption (beforeReturn.step (call beforeReturn)) :=
  ⟨by decide, _, _, launches_call (by decide) (by decide) (by decide), Or.inr ⟨by decide,
    beforeReturn, _, _, reach_beforeReturn, launches_call (by decide) (by decide) (by decide),
    by decide, rfl⟩⟩

/-- The second request is preempted, the third takes its blocks and is preempted in turn, which brings the
    second back. -/
theorem second_restored_cells :
    (beforePreemption.sched.seq 1).logicalBlocks = [1, 3] ∧
      beforeReturn.sched.schedule.1.preemptedGroups = [2] ∧
      RestoredCells 2 1 beforePreemption (beforeReturn.step (call beforeReturn)) := by
  have hready : (threeCells.blocks (blockSizeElems 8)).Ready :=
    ⟨rfl, ⟨by decide, by decide, freeInRange_new _, by decide, by decide, by decide⟩, by decide⟩
  exact ⟨by decide, by decide, episode_restores_cells (by decide) (by decide) hready
    reach_beforePreemption episode_beforeReturn (by decide)⟩

end CellExecutor

end CacheFlow
