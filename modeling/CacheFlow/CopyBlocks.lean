import CacheFlow.BlockManager.CopyOnWrite
import CacheFlow.Compaction
import CacheFlow.Scheduler.SwapKernel

set_option autoImplicit false

/-! # Copy-on-write over the cache

`copy_on_write` hands a sequence a fresh block in place of a shared one and leaves the copying to
`copy_blocks_kernel`, which copies the keys and the values of a list of pairs of blocks, one thread for each
element of each pair, in any order.

The two together give every sequence a memory of its own. The calls of several sequences may be collected and
carried out by one launch: their destinations were free, their sources are in use, so no thread reads what
another writes (`copyOnWrites_spec`). As long as no source has a single reference, every block that a sequence
lists has what the sequence itself wrote there, on top of what it copied (`CowMemory.reads_private`). Blocks
may be zeroed by `memset_blocks_kernel` on the way, which computes its offsets in `int`. -/

namespace CacheFlow

open BlockManager Copy SwapKernel

/-! ## The kernel -/

namespace CopyKernel

variable (shape : BlockShape)

/-- The threads of one column of the grid that copy an element. A thread is
    `threadIdx.x + blockIdx.y * blockDim.x`. -/
def copying : List Nat :=
  (List.range (256 * shape.blocksY.toNat)).filter (fun tid => (tid : Int) < shape.elemsPerBlock)

/-- Where a thread reads or writes: `block * elems_per_block + tid` in 64-bit integers. -/
def element (block : Int) (tid : Nat) : Int := toInt64 (toInt64 (block * shape.elemsPerBlock) + tid)

/-- The copies of all threads of a launch, in each of the two caches. -/
def pairCopies (mapping : List Int) (numPairs : Nat) : List (Int × Int) :=
  (List.range numPairs).flatMap (fun pairIdx =>
    let srcBlock := mapping.getD (pairIdx * 2) 0
    let dstBlock := mapping.getD (pairIdx * 2 + 1) 0
    (copying shape).map (fun tid => (element shape srcBlock tid, element shape dstBlock tid)))

/-- `launch_copy_blocks` for a list of copies. -/
def launched (ops : List BlockOp) : List (Int × Int) := pairCopies shape (blockMapping ops) ops.length

variable {shape}

theorem mem_copying (hshape : shape.elems ≤ 2 ^ 30) {tid : Nat} :
    tid ∈ copying shape ↔ tid < shape.elems := by
  rw [copying, List.mem_filter, List.mem_range, BlockShape.blocksY_eq hshape, Int.toNat_natCast,
    BlockShape.elemsPerBlock_eq (by omega), decide_eq_true_eq]
  omega

theorem element_eq (hshape : shape.elems ≤ 2 ^ 30) {block : Int} {tid : Nat} (htid : tid < shape.elems)
    (hlo : -2 ^ 31 ≤ block) (hhi : block < 2 ^ 31) :
    element shape block tid = block * shape.elems + tid := by
  rw [element, BlockShape.elemsPerBlock_eq (by omega)]
  exact SwapKernel.offset_eq (by omega) htid hlo hhi

/-- Every element of every pair is copied. -/
theorem mem_launched (hshape : shape.elems ≤ 2 ^ 30) {ops : List BlockOp} (hids : Int32Ids ops)
    {c : Int × Int} :
    c ∈ launched shape ops ↔ ∃ op ∈ ops, ∃ i < shape.elems,
      c = (op.src * shape.elems + (i : Int), op.dst * shape.elems + (i : Int)) := by
  have hcell : ∀ op ∈ ops, ∀ i < shape.elems,
      (element shape op.src i, element shape op.dst i)
        = (op.src * shape.elems + (i : Int), op.dst * shape.elems + (i : Int)) := by
    intro op hop i hi
    obtain ⟨⟨hslo, hshi⟩, hdlo, hdhi⟩ := hids op hop
    rw [element_eq hshape hi hslo hshi, element_eq hshape hi hdlo hdhi]
  simp only [launched, pairCopies, List.mem_flatMap, List.mem_range, List.mem_map, mem_copying hshape]
  constructor
  · rintro ⟨k, hk, i, hi, rfl⟩
    obtain ⟨hsrc, hdst⟩ := getD_blockMapping ops hk
    refine ⟨ops[k], List.getElem_mem hk, i, hi, ?_⟩
    rw [hsrc, hdst]
    exact hcell _ (List.getElem_mem hk) i hi
  · rintro ⟨op, hop, i, hi, rfl⟩
    obtain ⟨k, hk, rfl⟩ := List.mem_iff_getElem.1 hop
    obtain ⟨hsrc, hdst⟩ := getD_blockMapping ops hk
    refine ⟨k, hk, i, hi, ?_⟩
    rw [hsrc, hdst]
    exact hcell _ hop i hi

/-- **A launch copies whole blocks** in whatever order its threads run, if no block is the destination of two
    pairs and no destination is a source. -/
theorem view_launched {C : Type} (hshape : shape.elems ≤ 2 ^ 30) {ops : List BlockOp}
    (hids : Int32Ids ops) (hnodup : (ops.map BlockOp.dst).Nodup)
    (hapart : ∀ op ∈ ops, ∀ op' ∈ ops, op.dst ≠ op'.src) {order : List (Int × Int)}
    (horder : order.Perm (launched shape ops)) (mem : Int → C) :
    view shape.elems (moveAll order mem)
      = copyAll (view shape.elems mem) (ops.map (fun op => (op.src, op.dst))) (view shape.elems mem) := by
  have hmem : ∀ {c}, c ∈ order ↔ ∃ op ∈ ops, ∃ i < shape.elems,
      c = (op.src * shape.elems + (i : Int), op.dst * shape.elems + (i : Int)) :=
    fun {_} => horder.mem_iff.trans (mem_launched hshape hids)
  have hcells : ∀ c ∈ order, ∀ c' ∈ order, c.2 ≠ c'.1 := by
    intro c hc c' hc' heq
    obtain ⟨op, hop, i, hi, rfl⟩ := hmem.1 hc
    obtain ⟨op', hop', j, hj, rfl⟩ := hmem.1 hc'
    exact hapart op hop op' hop' (block_cell_inj hi hj heq).1
  rw [moveAll_eq_copyAll hcells]
  exact view_copyAll hnodup hmem mem mem

end CopyKernel

/-! ## Zeroing -/

namespace MemsetKernel

variable {n : Nat} {ids : List BlockId} {order : List Int}

/-- `cache[base + i]`, with `base = bid * block_size_elems` in `int`. -/
def element (n : Nat) (bid : Int) (i : Nat) : Int := toInt (toInt (bid * n) + i)

/-- The cells that the threads of `launch_memset_blocks` write, with blocks of `blockSizeBytes` bytes. -/
def launched (blockSizeBytes : Nat) (ids : List BlockId) : List Int :=
  ids.flatMap (fun bid => (visited (blockSizeElems blockSizeBytes)).map
    (element (blockSizeElems blockSizeBytes) bid))

/-- The cache after the cells have been set to zero. -/
def memset {C : Type} [Zero C] (cells : List Int) (mem : Int → C) : Int → C :=
  cells.foldl (fun mem cell => Function.update mem cell 0) mem

theorem memset_apply {C : Type} [Zero C] (cells : List Int) (mem : Int → C) (x : Int) :
    memset cells mem x = if x ∈ cells then 0 else mem x := by
  induction cells generalizing mem with
  | nil => rfl
  | cons cell cells ih =>
      have hstep : memset (cell :: cells) mem x = memset cells (Function.update mem cell 0) x := rfl
      rw [hstep, ih, Function.update_apply]
      by_cases hx : x = cell
      · simp [hx]
      · simp [hx]

/-- The offsets of the blocks fit into an `int`. -/
def Fits (n : Nat) (ids : List BlockId) : Prop :=
  4 * n < 2 ^ 31 ∧ ∀ b ∈ ids, 0 ≤ b ∧ (b + 1) * n ≤ 2 ^ 31

instance (n : Nat) (ids : List BlockId) : Decidable (Fits n ids) :=
  inferInstanceAs (Decidable (_ ∧ ∀ b ∈ ids, _))

theorem element_eq {b : Int} {i : Nat} (hlo : 0 ≤ b) (hhi : (b + 1) * n ≤ 2 ^ 31) (hi : i < n) :
    element n b i = b * n + i := by
  have hpos : 0 ≤ b * n := Int.mul_nonneg hlo (Int.natCast_nonneg n)
  rw [add_one_mul] at hhi
  rw [element, toInt_of_lt hpos (by omega), toInt_of_lt (by omega) (by omega)]

theorem mem_launched (hfits : Fits n ids) {c : Int} :
    c ∈ launched (4 * n) ids ↔ ∃ b ∈ ids, ∃ i < n, c = b * n + (i : Int) := by
  have hn : blockSizeElems (4 * n) = n := Nat.mul_div_cancel_left n (by decide)
  have hcell : ∀ b ∈ ids, ∀ i < n, element n b i = b * n + (i : Int) :=
    fun b hb i hi => element_eq (hfits.2 b hb).1 (hfits.2 b hb).2 hi
  simp only [launched, hn, List.mem_flatMap, List.mem_map, mem_visited]
  constructor
  · rintro ⟨b, hb, i, hi, rfl⟩
    exact ⟨b, hb, i, hi, hcell b hb i hi⟩
  · rintro ⟨b, hb, i, hi, rfl⟩
    exact ⟨b, hb, i, hi, hcell b hb i hi⟩

/-- **A launch zeroes the listed blocks** and no other, in whatever order its threads run. -/
theorem view_memset {C : Type} [Zero C] (hfits : Fits n ids) (horder : order.Perm (launched (4 * n) ids))
    (mem : Int → C) (b : BlockId) :
    view n (memset order mem) b = if b ∈ ids then 0 else view n mem b := by
  funext i
  have hcell : b * n + ((i : Nat) : Int) ∈ order ↔ b ∈ ids := by
    rw [horder.mem_iff, mem_launched hfits]
    constructor
    · rintro ⟨b', hb', j, hj, heq⟩
      rw [(block_cell_inj i.2 hj heq).1]
      exact hb'
    · exact fun hb => ⟨b, hb, i, i.2, rfl⟩
  rw [view, memset_apply, if_congr hcell rfl rfl]
  split
  · rfl
  · rfl

end MemsetKernel

/-! ## The calls -/

namespace BlockManager

/-- A call of `copy_on_write` for the sequence `s`, on a block that `owner` lists. -/
structure CowCall where
  owner : SeqId
  src : BlockId
  s : SeqId
  deriving DecidableEq

/-- The source has references besides that of its owner. -/
def CowCall.Ok (bm : BlockManager) (call : CowCall) : Prop :=
  (CowOp.Permitted bm (.copyOnWrite call.src call.s .cuda) ∧
    CowOp.Shared bm (.copyOnWrite call.src call.s .cuda)) ∧
  (.cuda, call.src) ∈ bm.seqBlocks call.owner

instance (bm : BlockManager) (call : CowCall) : Decidable (call.Ok bm) :=
  inferInstanceAs (Decidable ((_ ∧ _) ∧ _))

/-- One call after the other, with the copies that are to be made. -/
def copyOnWrites (bm : BlockManager) : List CowCall → List (CowCall × BlockId) × BlockManager
  | [] => ([], bm)
  | call :: rest =>
    let r := bm.copyOnWrite call.src call.s .cuda
    let rs := copyOnWrites r.2 rest
    (if r.1 = invalidBlock ∨ r.1 = call.src then rs.1 else (call, r.1) :: rs.1, rs.2)

def CallsOk (bm : BlockManager) : List CowCall → Prop
  | [] => True
  | call :: rest => call.Ok bm ∧ CallsOk (bm.copyOnWrite call.src call.s .cuda).2 rest

instance decidableCallsOk : (bm : BlockManager) → (calls : List CowCall) → Decidable (CallsOk bm calls)
  | _, [] => isTrue trivial
  | bm, call :: rest =>
    have := decidableCallsOk (bm.copyOnWrite call.src call.s .cuda).2 rest
    inferInstanceAs (Decidable (call.Ok bm ∧ CallsOk (bm.copyOnWrite call.src call.s .cuda).2 rest))

/-- The pairs of a launch. -/
def cowOps (rs : List (CowCall × BlockId)) : List BlockOp :=
  rs.map (fun r => { seqId := r.1.s, src := r.1.src, dst := r.2 })

theorem pairs_cowOps (rs : List (CowCall × BlockId)) :
    (cowOps rs).map (fun op => (op.src, op.dst)) = rs.map (fun r => (r.1.src, r.2)) :=
  List.map_map

/-- The calls of a list turn `bm` into `bm'` and leave the copies `rs` to be made. -/
structure CopyCalls (bm bm' : BlockManager) (rs : List (CowCall × BlockId)) : Prop where
  listed : ListedOnce bm'
  shared : ∀ r ∈ rs, 2 ≤ bm.refCount .cuda r.1.src
  sources : ∀ r ∈ rs, (.cuda, r.1.src) ∈ bm.seqBlocks r.1.owner
  fresh : ∀ r ∈ rs, r.2 ∈ bm.freeList .cuda
  nodup : (rs.map Prod.snd).Nodup
  seqBlocks : ∀ s b, (.cuda, b) ∈ bm'.seqBlocks s ↔
    (.cuda, b) ∈ bm.seqBlocks s ∨ ∃ r ∈ rs, r.1.s = s ∧ r.2 = b
  length : (bm'.blocks .cuda).length = (bm.blocks .cuda).length

variable {bm bm' bm₁ : BlockManager} {b : BlockId} {rest : List BlockId} {rs : List (CowCall × BlockId)}
  {call : CowCall}

/-- The first call, and those that follow. -/
theorem CopyCalls.cons (h : ListedOnce bm) (hok : call.Ok bm) (hfl : bm.freeList .cuda = b :: rest)
    (hcopy : Copied bm bm₁ call.s .cuda call.src b rest) (hrest : CopyCalls bm₁ bm' rs) :
    CopyCalls bm bm' ((call, b) :: rs) := by
  have htwo : 2 ≤ bm.refCount .cuda call.src := by
    have hpos : 0 < bm.refCount .cuda call.src := hok.1.1.1
    have hone : bm.refCount .cuda call.src ≠ 1 := hok.1.2
    omega
  -- a block that was copied a moment ago has one reference, so it is no source
  have hold : ∀ r ∈ rs, r.1.src ≠ b ∧ 2 ≤ bm.refCount .cuda r.1.src := by
    intro r hr
    have href := hrest.shared r hr
    rw [hcopy.refCount] at href
    split at href
    · omega
    · next hne =>
        refine ⟨fun heq => hne ⟨rfl, heq⟩, ?_⟩
        split at href
        · next hsrc =>
            rw [hsrc.2]
            exact htwo
        · exact href
  have hfree : ∀ r ∈ rs, r.2 ∈ rest := by
    intro r hr
    have hmem := hrest.fresh r hr
    rwa [hcopy.freeList, Function.update_self] at hmem
  have hb : b ∉ rest := by
    have hone := h.once .cuda b
    rw [hfl, List.count_cons_self] at hone
    exact List.count_eq_zero.1 (by omega)
  refine ⟨hrest.listed, ?_, ?_, ?_, ?_, ?_, hrest.length.trans (hcopy.length .cuda)⟩
  · exact List.forall_mem_cons.2 ⟨htwo, fun r hr => (hold r hr).2⟩
  · refine List.forall_mem_cons.2 ⟨hok.2, fun r hr => ?_⟩
    have hmem := hrest.sources r hr
    rw [hcopy.seqBlocks] at hmem
    split at hmem
    · next howner =>
        rw [howner]
        rcases List.mem_append.1 hmem with hmem | hmem
        · exact hmem
        · exact absurd (Prod.mk.inj (List.mem_singleton.1 hmem)).2 (hold r hr).1
    · exact hmem
  · rw [hfl]
    exact List.forall_mem_cons.2
      ⟨List.mem_cons_self .., fun r hr => List.mem_cons_of_mem _ (hfree r hr)⟩
  · rw [List.map_cons, List.nodup_cons]
    refine ⟨fun hmem => ?_, hrest.nodup⟩
    obtain ⟨r, hr, heq⟩ := List.mem_map.1 hmem
    have heq : r.2 = b := heq
    exact hb (heq ▸ hfree r hr)
  · intro s b'
    rw [hrest.seqBlocks, hcopy.seqBlocks, List.exists_mem_cons_iff, ← or_assoc]
    refine or_congr_left ?_
    split
    · next hs =>
        rw [hs, List.mem_append, List.mem_singleton, Prod.mk.injEq]
        simp [eq_comm]
    · next hs =>
        refine (or_iff_left (fun hnew => hs hnew.1.symm)).symm

/-- **The copies that a list of calls leaves**: their sources are in use, and their destinations were free. -/
theorem copyOnWrites_spec (h : ListedOnce bm) (calls : List CowCall) (hok : CallsOk bm calls) :
    CopyCalls bm (copyOnWrites bm calls).2 (copyOnWrites bm calls).1 := by
  induction calls generalizing bm with
  | nil =>
      refine ⟨h, ?_, ?_, ?_, List.nodup_nil, fun s b => ?_, rfl⟩
      · exact fun r hr => absurd hr List.not_mem_nil
      · exact fun r hr => absurd hr List.not_mem_nil
      · exact fun r hr => absurd hr List.not_mem_nil
      · simp [copyOnWrites]
  | cons call calls ih =>
      obtain ⟨hcall, hcalls⟩ := hok
      rcases h.copyOnWrite_cases hcall.1.1 hcall.1.2 with ⟨hfail, hsame⟩ | ⟨b, rest, hfl, hne, hb, hcopy⟩
      · rw [hsame] at hcalls
        simp only [copyOnWrites, hfail, hsame, true_or, if_true]
        exact ih h hcalls
      · have hlisted := h.copied hfl hne hcall.1.1.1 hcall.1.2 hcopy
        have hvalid : b ≠ invalidBlock := (h.inRange_top hfl).ne_invalidBlock
        simp only [copyOnWrites, hb, hvalid, hne.symm, or_self, if_false]
        exact CopyCalls.cons h hcall hfl hcopy (ih hlisted hcalls)

namespace CopyCalls

variable (h : CopyCalls bm bm' rs) (hbm : ListedOnce bm)

include h

theorem nodup_dst : ((cowOps rs).map BlockOp.dst).Nodup := by
  rw [cowOps, List.map_map]
  exact h.nodup

include hbm

/-- No destination is listed. -/
theorem not_listed {r : CowCall × BlockId} (hr : r ∈ rs) (s : SeqId) : (.cuda, r.2) ∉ bm.seqBlocks s :=
  fun hmem => hbm.not_free (occurrences_pos_of_mem hmem) (h.fresh r hr)

theorem dst_ne_src : ∀ op ∈ cowOps rs, ∀ op' ∈ cowOps rs, op.dst ≠ op'.src := by
  intro op hop op' hop' heq
  obtain ⟨r, hr, rfl⟩ := List.mem_map.1 hop
  obtain ⟨r', hr', rfl⟩ := List.mem_map.1 hop'
  have heq : r.2 = r'.1.src := heq
  refine h.not_listed hbm hr r'.1.owner ?_
  rw [heq]
  exact h.sources r' hr'

theorem int32Ids (hlen : (bm.blocks .cuda).length ≤ 2 ^ 31) : Int32Ids (cowOps rs) := by
  have hid : ∀ b : Int, bm.InRange .cuda b → -2 ^ 31 ≤ b ∧ b < 2 ^ 31 := by
    intro b hb
    have hlo : 0 ≤ b := hb.1
    have hhi : b.toNat < (bm.blocks .cuda).length := hb.2
    omega
  intro op hop
  obtain ⟨r, hr, rfl⟩ := List.mem_map.1 hop
  refine ⟨hid _ (inRange_of_refCount_pos (d := .cuda) ?_), hid _ (hbm.inRange .cuda _ (h.fresh r hr))⟩
  have htwo := h.shared r hr
  show 0 < bm.refCount .cuda r.1.src
  omega

/-- A block that is listed after the calls is the destination of one copy, or was listed before. -/
theorem find_cases {s : SeqId} (hmem : (.cuda, b) ∈ bm'.seqBlocks s) :
    (∃ r ∈ rs, rs.find? (fun r => r.1.s = s ∧ r.2 = b) = some r ∧ r.2 = b) ∨
      (rs.find? (fun r => r.1.s = s ∧ r.2 = b) = none ∧ (.cuda, b) ∈ bm.seqBlocks s ∧
        b ∉ (cowOps rs).map BlockOp.dst) := by
  cases hfind : rs.find? (fun r => r.1.s = s ∧ r.2 = b) with
  | some r =>
      have hr := List.find?_some hfind
      simp only [decide_eq_true_eq] at hr
      exact Or.inl ⟨r, List.mem_of_find?_eq_some hfind, rfl, hr.2⟩
  | none =>
      have hnone := List.find?_eq_none.1 hfind
      simp only [decide_eq_true_eq] at hnone
      have hold : (.cuda, b) ∈ bm.seqBlocks s :=
        ((h.seqBlocks s b).1 hmem).resolve_right (fun ⟨r, hr, heq⟩ => hnone r hr heq)
      refine Or.inr ⟨rfl, hold, fun hdst => ?_⟩
      obtain ⟨op, hop, rfl⟩ := List.mem_map.1 hdst
      obtain ⟨r, hr, rfl⟩ := List.mem_map.1 hop
      exact h.not_listed hbm hr s hold

end CopyCalls

/-- A block is listed for one sequence. -/
theorem ListedOnce.eq_of_mem (h : ListedOnce bm) {d : DeviceType} {s s' : SeqId}
    (hs : (d, b) ∈ bm.seqBlocks s) (hs' : (d, b) ∈ bm.seqBlocks s') : s = s' := by
  by_contra hne
  have hone := h.once d b
  have hleft : 0 < (bm.freeBlocks s).occurrences (d, b) := by
    refine occurrences_pos_of_mem (s := s') ?_
    rw [freeBlocks_seqBlocks, if_neg (Ne.symm hne)]
    exact hs'
  have hcount := List.count_pos_iff.2 hs
  rw [occurrences_freeBlocks] at hleft
  omega

end BlockManager

/-! ## The memory -/

/-- The keys and the values of a block. -/
abbrev BlockContents (n : Nat) (C : Type) : Type := (Fin n → C) × (Fin n → C)

/-- The pool with its caches, and a record that the code does not keep: what every block of a sequence has in
    a memory that belongs to the sequence alone. -/
structure CowMemory (shape : BlockShape) (C : Type) where
  bm : BlockManager
  caches : KvCaches C
  own : SeqId → BlockId → BlockContents shape.elems C

inductive CowMemOp (shape : BlockShape) (C : Type)
  | allocateBlock (s : SeqId)
  | incrementRef (b : BlockId)
  | freeBlocks (s : SeqId)
  /-- Calls of `copy_on_write`, and one launch of the kernel, whose threads write to the key cache and to the
      value cache in the given orders. -/
  | copyOnWrites (calls : List CowCall) (keyOrder valueOrder : List (Int × Int))
  /-- One launch of `memset_blocks_kernel` for each cache. -/
  | memsetBlocks (ids : List BlockId) (keyOrder valueOrder : List Int)
  /-- A sequence writes an element of a block it lists. -/
  | write (s : SeqId) (b : BlockId) (i : Fin shape.elems) (key value : C)

namespace CowMemory

variable {shape : BlockShape} {C : Type} [Zero C]

/-- What the caches have in a block. -/
def contents (m : CowMemory shape C) (b : BlockId) : BlockContents shape.elems C :=
  (view shape.elems m.caches.key b, view shape.elems m.caches.value b)

/-- The record after the copies `rs`. -/
def copyOwn (rs : List (CowCall × BlockId)) (own : SeqId → BlockId → BlockContents shape.elems C) (s : SeqId)
    (b : BlockId) : BlockContents shape.elems C :=
  match rs.find? (fun r => r.1.s = s ∧ r.2 = b) with
  | some r => own r.1.owner r.1.src
  | none => own s b

def step (m : CowMemory shape C) : CowMemOp shape C → CowMemory shape C
  | .allocateBlock s =>
    let r := m.bm.allocateBlock s .cuda
    { m with
      bm := r.2,
      own := fun s' b => if s' = s ∧ b = r.1 then m.contents b else m.own s' b }
  | .incrementRef b => { m with bm := m.bm.incrementRef b .cuda }
  | .freeBlocks s => { m with bm := m.bm.freeBlocks s }
  | .copyOnWrites calls keyOrder valueOrder =>
    let rs := m.bm.copyOnWrites calls
    { bm := rs.2,
      caches := { key := moveAll keyOrder m.caches.key, value := moveAll valueOrder m.caches.value },
      own := copyOwn rs.1 m.own }
  | .memsetBlocks ids keyOrder valueOrder =>
    { m with
      caches := { key := MemsetKernel.memset keyOrder m.caches.key,
                  value := MemsetKernel.memset valueOrder m.caches.value },
      own := fun s b => if b ∈ ids then 0 else m.own s b }
  | .write s b i key value =>
    let cell : Int := b * shape.elems + (i : Nat)
    { m with
      caches := { key := Function.update m.caches.key cell key,
                  value := Function.update m.caches.value cell value },
      own := fun s' b' =>
        if s' = s ∧ b' = b then (Function.update (m.own s b).1 i key, Function.update (m.own s b).2 i value)
        else m.own s' b' }

/-- The calls have shared sources, the threads of the launch run in any order, and a sequence writes to
    blocks it lists. -/
def Ok (m : CowMemory shape C) : CowMemOp shape C → Prop
  | .copyOnWrites calls keyOrder valueOrder =>
    CallsOk m.bm calls ∧
      keyOrder.Perm (CopyKernel.launched shape (cowOps (m.bm.copyOnWrites calls).1)) ∧
      valueOrder.Perm (CopyKernel.launched shape (cowOps (m.bm.copyOnWrites calls).1))
  | .memsetBlocks ids keyOrder valueOrder =>
    MemsetKernel.Fits shape.elems ids ∧
      keyOrder.Perm (MemsetKernel.launched (4 * shape.elems) ids) ∧
      valueOrder.Perm (MemsetKernel.launched (4 * shape.elems) ids)
  | .write s b _ _ _ => (.cuda, b) ∈ m.bm.seqBlocks s
  | .allocateBlock _ | .incrementRef _ | .freeBlocks _ => True

instance (m : CowMemory shape C) : (op : CowMemOp shape C) → Decidable (m.Ok op)
  | .copyOnWrites _ _ _ | .memsetBlocks _ _ _ => inferInstanceAs (Decidable (_ ∧ _ ∧ _))
  | .write s b _ _ _ => inferInstanceAs (Decidable ((.cuda, b) ∈ m.bm.seqBlocks s))
  | .allocateBlock _ | .incrementRef _ | .freeBlocks _ => isTrue trivial

/-- Every listed block has what the record says. -/
structure Faithful (m : CowMemory shape C) : Prop where
  listed : ListedOnce m.bm
  length : (m.bm.blocks .cuda).length ≤ 2 ^ 31
  own : ∀ s b, (.cuda, b) ∈ m.bm.seqBlocks s → m.contents b = m.own s b

variable {m : CowMemory shape C}

theorem Faithful.allocateBlock (h : m.Faithful) (s : SeqId) : (m.step (.allocateBlock s)).Faithful := by
  -- what was listed before
  have hold : ∀ s' b', (.cuda, b') ∈ (m.bm.allocateBlock s .cuda).2.seqBlocks s' →
      ¬ (s' = s ∧ b' = (m.bm.allocateBlock s .cuda).1) → (.cuda, b') ∈ m.bm.seqBlocks s' := by
    intro s' b' hmem hne
    cases hfl : m.bm.freeList .cuda with
    | nil => rwa [allocateBlock_nil m.bm hfl] at hmem
    | cons b rest =>
        obtain ⟨hb, ha⟩ := allocateBlock_cons m.bm (s := s) hfl (h.listed.inRange_top hfl)
        rw [hb] at hne
        rw [ha.seqBlocks] at hmem
        split at hmem
        · next hs =>
            rcases List.mem_append.1 hmem with hmem | hmem
            · rwa [hs]
            · exact absurd ⟨hs, (Prod.mk.inj (List.mem_singleton.1 hmem)).2⟩ hne
        · exact hmem
  refine ⟨h.listed.allocateBlock s .cuda, ?_, ?_⟩
  · show ((m.bm.allocateBlock s .cuda).2.blocks .cuda).length ≤ 2 ^ 31
    rw [allocateBlock_length]
    exact h.length
  · intro s' b' hmem
    show m.contents b' = if s' = s ∧ b' = (m.bm.allocateBlock s .cuda).1 then m.contents b' else m.own s' b'
    split
    · rfl
    · next hne => exact h.own s' b' (hold s' b' hmem hne)

omit [Zero C] in
/-- Writing one cell changes one block. -/
theorem view_update {n : Nat} (mem : Int → C) (b b' : BlockId) (i : Fin n) (x : C) :
    view n (Function.update mem (b * n + (i : Nat)) x) b'
      = if b' = b then Function.update (view n mem b) i x else view n mem b' := by
  funext j
  by_cases hb : b' = b
  · rw [if_pos hb, hb]
    by_cases hj : j = i
    · rw [hj, Function.update_self]
      exact Function.update_self ..
    · rw [Function.update_of_ne hj]
      refine Function.update_of_ne (fun heq => hj (Fin.ext ?_)) ..
      exact (block_cell_inj j.2 i.2 heq).2
  · rw [if_neg hb]
    refine Function.update_of_ne (fun heq => hb ?_) ..
    exact (block_cell_inj j.2 i.2 heq).1

theorem Faithful.write (h : m.Faithful) {s : SeqId} {b : BlockId} (hb : (.cuda, b) ∈ m.bm.seqBlocks s)
    (i : Fin shape.elems) (key value : C) : (m.step (.write s b i key value)).Faithful := by
  refine ⟨h.listed, h.length, fun s' b' hmem => ?_⟩
  have hmem : (.cuda, b') ∈ m.bm.seqBlocks s' := hmem
  simp only [step, contents, view_update]
  by_cases hbb : b' = b
  · -- nobody else lists the block
    subst hbb
    obtain rfl := h.listed.eq_of_mem hb hmem
    simp only [and_self, if_true, ← h.own s b' hb]
    rfl
  · simp only [hbb, and_false, if_false]
    exact h.own s' b' hmem

theorem Faithful.copyOnWrites (h : m.Faithful) (hshape : shape.elems ≤ 2 ^ 30) {calls : List CowCall}
    {keyOrder valueOrder : List (Int × Int)} (hok : m.Ok (.copyOnWrites calls keyOrder valueOrder)) :
    (m.step (.copyOnWrites calls keyOrder valueOrder)).Faithful := by
  obtain ⟨hcalls, hkeys, hvalues⟩ := hok
  have hspec := copyOnWrites_spec h.listed calls hcalls
  have hids := hspec.int32Ids h.listed h.length
  have hview : ∀ {order : List (Int × Int)} (mem : Int → C),
      order.Perm (CopyKernel.launched shape (cowOps (m.bm.copyOnWrites calls).1)) →
        view shape.elems (moveAll order mem) = _ := fun {_} mem horder =>
    CopyKernel.view_launched hshape hids hspec.nodup_dst (hspec.dst_ne_src h.listed) horder mem
  refine ⟨hspec.listed, hspec.length.le.trans h.length, fun s b hmem => ?_⟩
  simp only [step, contents, copyOwn, hview _ hkeys, hview _ hvalues, pairs_cowOps]
  rcases hspec.find_cases h.listed hmem with ⟨r, hr, hfind, rfl⟩ | ⟨hfind, hold, hdst⟩
  · have hpair : (r.1.src, r.2) ∈ (m.bm.copyOnWrites calls).1.map (fun r => (r.1.src, r.2)) :=
      List.mem_map.2 ⟨r, hr, rfl⟩
    have hsame : ∀ c ∈ (m.bm.copyOnWrites calls).1.map (fun r => (r.1.src, r.2)), c.2 = r.2 → c.1 = r.1.src := by
      intro c hc heq
      obtain ⟨r', hr', rfl⟩ := List.mem_map.1 hc
      exact congrArg (fun r => r.1.src) (List.inj_on_of_nodup_map hspec.nodup hr' hr heq)
    simp only [hfind, ← h.own _ _ (hspec.sources r hr)]
    exact Prod.ext (copyAll_of_mem hpair hsame) (copyAll_of_mem hpair hsame)
  · have hnone : b ∉ ((m.bm.copyOnWrites calls).1.map (fun r => (r.1.src, r.2))).map Prod.snd := by
      rw [← pairs_cowOps, List.map_map]
      exact hdst
    simp only [hfind, ← h.own _ _ hold]
    exact Prod.ext (copyAll_of_notMem hnone) (copyAll_of_notMem hnone)

theorem Faithful.memsetBlocks (h : m.Faithful) {ids : List BlockId} {keyOrder valueOrder : List Int}
    (hok : m.Ok (.memsetBlocks ids keyOrder valueOrder)) :
    (m.step (.memsetBlocks ids keyOrder valueOrder)).Faithful := by
  obtain ⟨hfits, hkeys, hvalues⟩ := hok
  refine ⟨h.listed, h.length, fun s b hmem => ?_⟩
  simp only [CowMemory.step, contents, MemsetKernel.view_memset hfits hkeys,
    MemsetKernel.view_memset hfits hvalues, ← h.own s b hmem]
  split
  · rfl
  · rfl

/-- **One operation** keeps every sequence's memory as its record has it. -/
theorem Faithful.step (hshape : shape.elems ≤ 2 ^ 30) (m : CowMemory shape C) (op : CowMemOp shape C)
    (h : m.Faithful) (hok : m.Ok op) : (m.step op).Faithful := by
  cases op with
  | allocateBlock s => exact h.allocateBlock s
  | incrementRef b =>
      refine ⟨h.listed.incrementRef b .cuda, ?_, fun s b' hmem => h.own s b' ?_⟩
      · exact (incrementRef_length ..).le.trans h.length
      · have hmem : (.cuda, b') ∈ (m.bm.incrementRef b .cuda).seqBlocks s := hmem
        rwa [BlockManager.seqBlocks, incrementRef_seqBlockMap] at hmem
  | freeBlocks s =>
      refine ⟨h.listed.freeBlocks s, ?_, fun s' b' hmem => h.own s' b' ?_⟩
      · exact (freeBlocks_length ..).le.trans h.length
      · have hmem : (.cuda, b') ∈ (m.bm.freeBlocks s).seqBlocks s' := hmem
        rw [freeBlocks_seqBlocks] at hmem
        split at hmem
        · exact absurd hmem List.not_mem_nil
        · exact hmem
  | copyOnWrites calls keyOrder valueOrder => exact h.copyOnWrites hshape hok
  | memsetBlocks ids keyOrder valueOrder => exact h.memsetBlocks hok
  | write s b i key value => exact h.write hok i key value

/-- **Copy-on-write gives every sequence a memory of its own.** In every run of allocations, further
    references, releases, writes, zeroed blocks and lists of `copy_on_write` calls whose sources are shared,
    each list carried out by one launch of the kernel with its threads in any order: every block that a
    sequence lists has, in both caches, what the sequence's own record has. Only the sequence's own writes and
    the zeroing of the block change that, and a copy starts with what its source had for the owner of the
    source. -/
theorem reads_private (shape : BlockShape) (hshape : shape.elems ≤ 2 ^ 30) (config : CacheConfig)
    (hpool : config.numGpuBlocks ≤ 2 ^ 31) (caches : KvCaches C)
    (own : SeqId → BlockId → BlockContents shape.elems C) (ops : List (CowMemOp shape C))
    (hops : Run.AllOk CowMemory.step Ok ⟨BlockManager.new config, caches, own⟩ ops) (s : SeqId) (b : BlockId)
    (hlisted : (.cuda, b) ∈
      (ops.foldl CowMemory.step ⟨BlockManager.new config, caches, own⟩).bm.seqBlocks s) :
    (ops.foldl CowMemory.step ⟨BlockManager.new config, caches, own⟩).contents b
      = (ops.foldl CowMemory.step ⟨BlockManager.new config, caches, own⟩).own s b := by
  have hinit : Faithful (⟨BlockManager.new config, caches, own⟩ : CowMemory shape C) := by
    refine ⟨new_listedOnce config, ?_, fun s b hmem => ?_⟩
    · show (initBlocks config.numGpuBlocks .cuda).length ≤ 2 ^ 31
      rw [initBlocks, List.length_map, List.length_range]
      exact hpool
    · exact absurd hmem List.not_mem_nil
  exact (hops.invariant hinit (Faithful.step hshape)).own s b hlisted

/-- Blocks of two elements. -/
def twoElements : BlockShape := { numKvHeads := 1, headDim := 1, blockSize := 2 }

/-- The block of the first sequence is zeroed. The sequence writes an element and is forked, then it writes the
    element again. Some of the threads run backwards. -/
def forkedRun : List (CowMemOp twoElements Int) :=
  [.allocateBlock 1,
    .memsetBlocks [0] (MemsetKernel.launched (4 * twoElements.elems) [0])
      (MemsetKernel.launched (4 * twoElements.elems) [0]).reverse,
    .write 1 0 ⟨0, Nat.two_pos⟩ 7 8, .incrementRef 0,
    .copyOnWrites [{ owner := 1, src := 0, s := 2 }]
      (CopyKernel.launched twoElements [{ seqId := 2, src := 0, dst := 1 }]).reverse
      (CopyKernel.launched twoElements [{ seqId := 2, src := 0, dst := 1 }]),
    .write 1 0 ⟨0, Nat.two_pos⟩ 9 9]

/-- The second sequence still reads what was there when it was forked. -/
theorem forkedRun_private :
    let m := forkedRun.foldl CowMemory.step
      ⟨BlockManager.new { numGpuBlocks := 2, numCpuBlocks := 0, blockSize := 2 }, ⟨fun _ => 0, fun _ => 0⟩,
        fun _ _ => (fun _ => 0, fun _ => 0)⟩
    m.contents 1 = m.own 2 1 ∧ (m.own 2 1).1 ⟨0, Nat.two_pos⟩ = 7 ∧ m.caches.key 0 = 9 := by
  intro m
  refine ⟨?_, by decide, by decide⟩
  refine reads_private twoElements (by decide) _ (by decide) _ _ forkedRun ?_ 2 1 (by decide)
  exact ⟨trivial, ⟨by decide, List.Perm.refl _, List.reverse_perm _⟩, by decide, trivial,
    ⟨by decide, List.reverse_perm _, List.Perm.refl _⟩, by decide, trivial⟩

end CowMemory

end CacheFlow
