import CacheFlow.Lib.Run
import CacheFlow.MemoryPool
import Mathlib.Data.List.Perm.Subperm

set_option autoImplicit false

/-! # The free stack of a pool

A `MemoryPool` allocates one region and keeps the addresses of its free blocks on a stack. An address is a
value of `size_t`, 0 is `nullptr`; addresses are computed modulo `2 ^ 64` like sizes.

`Use` adds to the pool the addresses its users hold. In every run in which only held addresses are given
back, free and held addresses together are the blocks of the region (`Exact`). The second half is about the
arithmetic of the constructor and of `reset()` for all sizes, also those whose product wraps. -/

namespace CacheFlow.MemoryPool

/-- `base_` and `free_stack_`, the top of the stack first. -/
structure State extends MemoryPool where
  base : Nat := 0
  freeStack : List Nat := []
  deriving DecidableEq, Repr

/-- What a constructor asks of its environment: a region of so many bytes, and room for so many pointers in
    a vector. A region does not start at `nullptr` and ends within the address space. -/
structure Heap where
  alloc : DeviceType → Nat → Option Nat
  reserve : Nat → Bool
  alloc_ne_null : ∀ d n base, alloc d n = some base → base ≠ 0
  alloc_fits : ∀ d n base, alloc d n = some base → base + n ≤ 2 ^ 64

namespace State

def blockPtr (s : State) (i : Nat) : Nat := toSize (s.base + i * s.blockSizeBytes)

/-- The loop of the constructor and of `reset()`, from block `i - 1` down to block 0. -/
def pushBlocks (s : State) : Nat → List Nat → List Nat
  | 0, stack => stack
  | i + 1, stack => pushBlocks s i (s.blockPtr i :: stack)

/-- `allocate()`; 0 if the stack is empty. -/
def allocate (s : State) : Nat × State :=
  match s.freeStack with
  | [] => (0, s)
  | ptr :: stack => (ptr, { s with freeStack := stack })

def deallocate (s : State) (ptr : Nat) : State :=
  if ptr = 0 then s else { s with freeStack := ptr :: s.freeStack }

/-- `reset()`. That its `reserve` throws is left out: the constructor has reserved the same room, unless it
    returned early. -/
def reset (s : State) : State := { s with freeStack := s.pushBlocks s.numBlocks [] }

def numFree (s : State) : Nat := s.freeStack.length

def numUsed (s : State) : Nat := toSize ((s.numBlocks : Int) - s.numFree)

/-- `ptr_to_block_id()`; a division by 0, undefined in the source, gives 0. -/
def ptrToBlockId (s : State) (ptr : Nat) : BlockId :=
  toInt ((toSize ((ptr : Int) - s.base) / s.blockSizeBytes : Nat))

def blockIdToPtr (s : State) (id : BlockId) : Nat :=
  toSize (s.base + toSize id * s.blockSizeBytes)

end State

/-- The constructor; `none` if it throws. -/
def construct (heap : Heap) (device : DeviceType) (blockSizeBytes numBlocks : Nat) : Option State :=
  let pool : MemoryPool := { blockSizeBytes := blockSizeBytes, numBlocks := numBlocks }
  if pool.totalBytes = 0 then some { toMemoryPool := pool }
  else do
    let base ← heap.alloc device pool.totalBytes
    if heap.reserve numBlocks then
      let s : State := { toMemoryPool := pool, base := base }
      some { s with freeStack := s.pushBlocks numBlocks [] }
    else none

inductive Op where
  | allocate
  | deallocate (ptr : Nat)
  | reset
  deriving DecidableEq, Repr

def State.step (s : State) : Op → State
  | .allocate => s.allocate.2
  | .deallocate ptr => s.deallocate ptr
  | .reset => s.reset

/-! ## Blocks -/

namespace State

theorem pushBlocks_eq (s : State) (n : Nat) (stack : List Nat) :
    s.pushBlocks n stack = (List.range n).map s.blockPtr ++ stack := by
  induction n generalizing stack with
  | zero => rfl
  | succ n ih => rw [pushBlocks, ih, List.range_succ, List.map_append, List.append_assoc]; rfl

theorem reset_freeStack (s : State) :
    s.reset.freeStack = (List.range s.numBlocks).map s.blockPtr := by
  rw [reset, pushBlocks_eq, List.append_nil]

/-- No operation moves the region or changes the sizes. -/
theorem step_sizes (s : State) (op : Op) :
    (s.step op).toMemoryPool = s.toMemoryPool ∧ (s.step op).base = s.base := by
  cases op with
  | allocate =>
      simp only [step, allocate]
      split <;> exact ⟨rfl, rfl⟩
  | deallocate ptr =>
      simp only [step, deallocate]
      split <;> exact ⟨rfl, rfl⟩
  | reset => exact ⟨rfl, rfl⟩

theorem foldl_step_sizes (s : State) (ops : List Op) :
    (ops.foldl step s).toMemoryPool = s.toMemoryPool ∧ (ops.foldl step s).base = s.base := by
  induction ops generalizing s with
  | nil => exact ⟨rfl, rfl⟩
  | cons op ops ih =>
      obtain ⟨hpool, hbase⟩ := s.step_sizes op
      rw [List.foldl_cons, (ih _).1, (ih _).2]
      exact ⟨hpool, hbase⟩

/-- What `reset()` leaves depends on the sizes and the region only. -/
theorem reset_congr {s t : State} (hpool : t.toMemoryPool = s.toMemoryPool) (hbase : t.base = s.base) :
    t.reset = s.reset := by
  obtain ⟨pool, base, stack⟩ := s
  obtain ⟨pool', base', stack'⟩ := t
  dsimp only at hpool hbase
  subst hpool hbase
  simp only [reset, pushBlocks_eq]
  rfl

theorem reset_foldl (s : State) (ops : List Op) : (ops.foldl step s).reset = s.reset :=
  reset_congr (s.foldl_step_sizes ops).1 (s.foldl_step_sizes ops).2

end State

/-- What a constructor that returns has built: nothing if the computed size is 0, else a region with all its
    blocks on the stack. -/
theorem construct_cases {heap : Heap} {device : DeviceType} {bs n : Nat} {s : State}
    (h : construct heap device bs n = some s) :
    (s.blockSizeBytes = bs ∧ s.numBlocks = n) ∧
      ((s.totalBytes = 0 ∧ s.freeStack = []) ∨
        (s.totalBytes ≠ 0 ∧ s.base ≠ 0 ∧ s.base + s.totalBytes ≤ 2 ^ 64 ∧
          s.freeStack = (List.range n).map s.blockPtr)) := by
  unfold construct at h
  dsimp only at h
  split at h
  · next hzero =>
      cases h
      exact ⟨⟨rfl, rfl⟩, Or.inl ⟨hzero, rfl⟩⟩
  · next hpos =>
      obtain ⟨base, halloc, h⟩ := Option.bind_eq_some_iff.1 h
      split at h
      · cases h
        refine ⟨⟨rfl, rfl⟩, Or.inr ⟨hpos, heap.alloc_ne_null _ _ _ halloc,
          heap.alloc_fits _ _ _ halloc, ?_⟩⟩
        rw [State.pushBlocks_eq, List.append_nil]
        rfl
      · cases h

/-! ## Pools whose sizes do not wrap -/

namespace State

/-- The region has room for all blocks. -/
structure Fits (s : State) : Prop where
  pos : 1 ≤ s.blockSizeBytes
  base : s.base ≠ 0
  room : s.base + s.numBlocks * s.blockSizeBytes ≤ 2 ^ 64

/-- The addresses of the blocks. -/
def blockAddrs (s : State) : List Nat :=
  (List.range s.numBlocks).map (fun k => s.base + k * s.blockSizeBytes)

theorem mem_blockAddrs {s : State} {ptr : Nat} :
    ptr ∈ s.blockAddrs ↔ ∃ k < s.numBlocks, s.base + k * s.blockSizeBytes = ptr := by
  simp [blockAddrs]

variable {s : State} (h : s.Fits)

include h

theorem Fits.end_le {k : Nat} (hk : k < s.numBlocks) :
    s.base + k * s.blockSizeBytes + s.blockSizeBytes ≤ 2 ^ 64 := by
  have hle : (k + 1) * s.blockSizeBytes ≤ s.numBlocks * s.blockSizeBytes := Nat.mul_le_mul_right _ hk
  have hroom := h.room
  rw [Nat.succ_mul] at hle
  omega

theorem Fits.blockPtr_eq {k : Nat} (hk : k < s.numBlocks) :
    s.blockPtr k = s.base + k * s.blockSizeBytes := by
  have hend := h.end_le hk
  have hpos := h.pos
  exact toSize_of_lt (n := s.base + k * s.blockSizeBytes) (by omega)

theorem Fits.map_blockPtr : (List.range s.numBlocks).map s.blockPtr = s.blockAddrs :=
  List.map_congr_left (fun _ hk => h.blockPtr_eq (List.mem_range.1 hk))

theorem Fits.nodup_blockAddrs : s.blockAddrs.Nodup := by
  refine List.nodup_range.map ?_
  intro i j hij
  exact Nat.eq_of_mul_eq_mul_right h.pos (Nat.add_left_cancel hij)

theorem Fits.ne_null {ptr : Nat} (hptr : ptr ∈ s.blockAddrs) : ptr ≠ 0 := by
  obtain ⟨k, -, rfl⟩ := mem_blockAddrs.1 hptr
  have hbase := h.base
  omega

/-- Every byte of a block leads to the block. -/
theorem Fits.ptrToBlockId_eq (hn : s.numBlocks ≤ 2 ^ 31) {k j : Nat} (hk : k < s.numBlocks)
    (hj : j < s.blockSizeBytes) : s.ptrToBlockId (s.base + k * s.blockSizeBytes + j) = k := by
  have hend := h.end_le hk
  have hoff : ((s.base + k * s.blockSizeBytes + j : Nat) : Int) - s.base
      = (k * s.blockSizeBytes + j : Nat) := by
    push_cast
    ring
  have hdiv : (k * s.blockSizeBytes + j) / s.blockSizeBytes = k := by
    rw [Nat.add_comm, Nat.add_mul_div_right _ _ h.pos, Nat.div_eq_of_lt hj, Nat.zero_add]
  rw [ptrToBlockId, hoff, toSize_of_lt (by omega), hdiv]
  exact toInt_of_lt (by omega) (by omega)

theorem Fits.ptrToBlockId_start (hn : s.numBlocks ≤ 2 ^ 31) {k : Nat} (hk : k < s.numBlocks) :
    s.ptrToBlockId (s.base + k * s.blockSizeBytes) = k := by
  have hid := h.ptrToBlockId_eq hn hk h.pos
  rwa [Nat.add_zero] at hid

theorem Fits.blockIdToPtr_eq (hn : s.numBlocks ≤ 2 ^ 31) {k : Nat} (hk : k < s.numBlocks) :
    s.blockIdToPtr k = s.base + k * s.blockSizeBytes := by
  have hid : toSize (k : Int) = k := toSize_of_lt (by omega)
  rw [blockIdToPtr, hid]
  exact h.blockPtr_eq hk

/-- **Addresses and ids.** The two conversions are inverse to each other between the blocks and
    `[0, numBlocks)`. -/
theorem Fits.invOn (hn : s.numBlocks ≤ 2 ^ 31) :
    Set.InvOn s.blockIdToPtr s.ptrToBlockId {ptr | ptr ∈ s.blockAddrs}
      (Set.Ico (0 : Int) s.numBlocks) := by
  constructor
  · intro ptr hptr
    obtain ⟨k, hk, rfl⟩ := mem_blockAddrs.1 hptr
    rw [h.ptrToBlockId_start hn hk, h.blockIdToPtr_eq hn hk]
  · rintro id ⟨hlow, hhigh⟩
    obtain ⟨k, rfl⟩ := Int.eq_ofNat_of_zero_le hlow
    have hk : k < s.numBlocks := by exact_mod_cast hhigh
    rw [h.blockIdToPtr_eq hn hk]
    exact h.ptrToBlockId_start hn hk

theorem Fits.mapsTo_ptrToBlockId (hn : s.numBlocks ≤ 2 ^ 31) :
    Set.MapsTo s.ptrToBlockId {ptr | ptr ∈ s.blockAddrs} (Set.Ico (0 : Int) s.numBlocks) := by
  intro ptr hptr
  obtain ⟨k, hk, rfl⟩ := mem_blockAddrs.1 hptr
  rw [h.ptrToBlockId_start hn hk]
  exact ⟨Int.natCast_nonneg k, by exact_mod_cast hk⟩

theorem Fits.mapsTo_blockIdToPtr (hn : s.numBlocks ≤ 2 ^ 31) :
    Set.MapsTo s.blockIdToPtr (Set.Ico (0 : Int) s.numBlocks) {ptr | ptr ∈ s.blockAddrs} := by
  rintro id ⟨hlow, hhigh⟩
  obtain ⟨k, rfl⟩ := Int.eq_ofNat_of_zero_le hlow
  have hk : k < s.numBlocks := by exact_mod_cast hhigh
  rw [h.blockIdToPtr_eq hn hk]
  exact mem_blockAddrs.2 ⟨k, hk, rfl⟩

end State

/-! ## Users of a pool -/

/-- A pool and the addresses its users hold. -/
structure Use where
  pool : State
  outstanding : List Nat := []
  deriving DecidableEq, Repr

namespace Use

def step (u : Use) : Op → Use
  | .allocate =>
    let ptr := u.pool.allocate.1
    { pool := u.pool.allocate.2,
      outstanding := if ptr = 0 then u.outstanding else ptr :: u.outstanding }
  | .deallocate ptr => { pool := u.pool.deallocate ptr, outstanding := u.outstanding.erase ptr }
  | .reset => { pool := u.pool.reset }

/-- Users give back what they hold, or `nullptr`. -/
def Permitted (u : Use) : Op → Prop
  | .deallocate ptr => ptr = 0 ∨ ptr ∈ u.outstanding
  | .allocate | .reset => True

instance (u : Use) : ∀ op, Decidable (u.Permitted op)
  | .deallocate ptr => inferInstanceAs (Decidable (ptr = 0 ∨ ptr ∈ u.outstanding))
  | .allocate | .reset => inferInstanceAs (Decidable True)

/-- Free and held addresses are together the blocks of the pool `s`, each once. -/
structure Exact (s : State) (u : Use) : Prop where
  sizes : u.pool.toMemoryPool = s.toMemoryPool
  base : u.pool.base = s.base
  perm : (u.pool.freeStack ++ u.outstanding).Perm s.blockAddrs

variable {s : State} {u : Use}

theorem step_pool (u : Use) (op : Op) : (u.step op).pool = u.pool.step op := by
  cases op <;> rfl

theorem Exact.mem_blockAddrs (h : Exact s u) {ptr : Nat} (hptr : ptr ∈ u.outstanding) :
    ptr ∈ s.blockAddrs :=
  h.perm.subset (List.mem_append_right _ hptr)

/-- The two cases of an allocation. -/
theorem Exact.allocate_cases (h : Exact s u) (hs : s.Fits) :
    (u.pool.freeStack = [] ∧ u.pool.allocate = (0, u.pool)) ∨
      ∃ ptr stack, u.pool.freeStack = ptr :: stack ∧ ptr ≠ 0 ∧
        u.pool.allocate = (ptr, { u.pool with freeStack := stack }) := by
  cases hstack : u.pool.freeStack with
  | nil => exact Or.inl ⟨rfl, by simp [State.allocate, hstack]⟩
  | cons ptr stack =>
      have hmem : ptr ∈ s.blockAddrs := h.perm.subset (by simp [hstack])
      exact Or.inr ⟨ptr, stack, rfl, hs.ne_null hmem, by simp [State.allocate, hstack]⟩

theorem Exact.step (h : Exact s u) (hs : s.Fits) {op : Op} (hok : u.Permitted op) :
    Exact s (u.step op) := by
  obtain ⟨hpool, hbase⟩ := u.pool.step_sizes op
  rw [← step_pool] at hpool hbase
  refine ⟨hpool.trans h.sizes, hbase.trans h.base, ?_⟩
  cases op with
  | allocate =>
      obtain ⟨-, heq⟩ | ⟨ptr, stack, hstack, hptr, heq⟩ := h.allocate_cases hs
      · simpa [Use.step, heq] using h.perm
      · have hperm := h.perm
        rw [hstack] at hperm
        simp only [Use.step, heq, if_neg hptr]
        exact List.perm_middle.trans hperm
  | deallocate ptr =>
      by_cases hnull : ptr = 0
      · -- nobody holds `nullptr`, so nothing is given back
        have hout : ptr ∉ u.outstanding := fun hptr => hs.ne_null (h.mem_blockAddrs hptr) hnull
        simp only [Use.step, State.deallocate, if_pos hnull, List.erase_of_not_mem hout]
        exact h.perm
      · have hout : ptr ∈ u.outstanding := hok.resolve_left hnull
        have hback : (ptr :: u.pool.freeStack ++ u.outstanding.erase ptr).Perm
            (u.pool.freeStack ++ u.outstanding) :=
          List.perm_middle.symm.trans ((List.perm_cons_erase hout).symm.append_left _)
        simp only [Use.step, State.deallocate, if_neg hnull]
        exact hback.trans h.perm
  | reset =>
      have hstack : u.pool.reset.freeStack = s.blockAddrs := by
        rw [State.reset_congr h.sizes h.base, State.reset_freeStack, hs.map_blockPtr]
      simp only [Use.step, hstack, List.append_nil]
      exact List.Perm.refl _

/-- What the users of the pool `s` rely on: free and held addresses are the blocks; an allocation fails when
    all blocks are held, and never gives an address somebody holds; the conversions between addresses and ids
    are inverse bijections. -/
structure HandsOutOnce (s : State) (u : Use) : Prop where
  perm : (u.pool.freeStack ++ u.outstanding).Perm s.blockAddrs
  null_iff : u.pool.allocate.1 = 0 ↔ u.outstanding.length = s.numBlocks
  fresh : u.pool.allocate.1 ∉ u.outstanding
  numUsed : u.pool.numUsed = u.outstanding.length
  ids : Set.BijOn u.pool.ptrToBlockId {ptr | ptr ∈ s.blockAddrs} (Set.Ico (0 : Int) s.numBlocks)
  ptrs : Set.BijOn u.pool.blockIdToPtr (Set.Ico (0 : Int) s.numBlocks) {ptr | ptr ∈ s.blockAddrs}
  inverse : Set.InvOn u.pool.blockIdToPtr u.pool.ptrToBlockId {ptr | ptr ∈ s.blockAddrs}
    (Set.Ico (0 : Int) s.numBlocks)
  interior : ∀ k < s.numBlocks, ∀ j < s.blockSizeBytes,
    u.pool.ptrToBlockId (s.base + k * s.blockSizeBytes + j) = k

theorem Exact.length (h : Exact s u) : u.pool.freeStack.length + u.outstanding.length = s.numBlocks := by
  have hlen := h.perm.length_eq
  simpa [State.blockAddrs] using hlen

theorem Exact.handsOutOnce (h : Exact s u) (hs : s.Fits) (hn : s.numBlocks ≤ 2 ^ 31) :
    HandsOutOnce s u := by
  have hid : u.pool.ptrToBlockId = s.ptrToBlockId := by
    funext ptr
    rw [State.ptrToBlockId, State.ptrToBlockId, h.sizes, h.base]
  have hptr : u.pool.blockIdToPtr = s.blockIdToPtr := by
    funext id
    rw [State.blockIdToPtr, State.blockIdToPtr, h.sizes, h.base]
  have hlen := h.length
  refine ⟨h.perm, ?_, ?_, ?_, ?_, ?_, ?_, ?_⟩
  · obtain ⟨hstack, heq⟩ | ⟨ptr, stack, hstack, hne, heq⟩ := h.allocate_cases hs
    · rw [hstack, List.length_nil] at hlen
      simp only [heq, true_iff]
      omega
    · rw [hstack, List.length_cons] at hlen
      simp only [heq, hne, false_iff]
      omega
  · obtain ⟨-, heq⟩ | ⟨ptr, stack, hstack, -, heq⟩ := h.allocate_cases hs
    · rw [heq]
      exact fun hzero => hs.ne_null (h.mem_blockAddrs hzero) rfl
    · have hnodup := h.perm.nodup_iff.2 hs.nodup_blockAddrs
      rw [hstack, List.cons_append, List.nodup_cons] at hnodup
      rw [heq]
      exact fun hheld => hnodup.1 (List.mem_append_right _ hheld)
  · have hused : ((s.numBlocks : Nat) : Int) - u.pool.freeStack.length = u.outstanding.length := by omega
    rw [State.numUsed, h.sizes, State.numFree, hused]
    exact toSize_of_lt (by omega)
  · rw [hid]
    exact (hs.invOn hn).bijOn (hs.mapsTo_ptrToBlockId hn) (hs.mapsTo_blockIdToPtr hn)
  · rw [hptr]
    exact (hs.invOn hn).symm.bijOn (hs.mapsTo_blockIdToPtr hn) (hs.mapsTo_ptrToBlockId hn)
  · rw [hid, hptr]
    exact hs.invOn hn
  · intro k hk j hj
    rw [hid]
    exact hs.ptrToBlockId_eq hn hk hj

end Use

/-- A pool whose size does not wrap has room for its blocks, and all of them are free. -/
theorem construct_fits {heap : Heap} {device : DeviceType} {bs n : Nat} {s : State}
    (h : construct heap device bs n = some s) (hbs : 1 ≤ bs) (hn : 1 ≤ n) (hsize : bs * n < 2 ^ 64) :
    s.Fits ∧ s.freeStack = s.blockAddrs := by
  obtain ⟨⟨rfl, rfl⟩, hcases⟩ := construct_cases h
  have htotal : s.totalBytes = s.blockSizeBytes * s.numBlocks := toSize_of_lt hsize
  have hpos : 0 < s.blockSizeBytes * s.numBlocks := Nat.mul_pos hbs hn
  obtain ⟨hzero, -⟩ | ⟨-, hbase, hroom, hstack⟩ := hcases
  · omega
  · rw [htotal, Nat.mul_comm] at hroom
    have hfits : s.Fits := ⟨hbs, hbase, hroom⟩
    exact ⟨hfits, hstack.trans hfits.map_blockPtr⟩

/-- **Every block is handed out at most once.** From the construction of a pool whose size does not wrap, in
    every run of allocations, resets and deallocations of held addresses or `nullptr`. -/
theorem pool_handsOutOnce (heap : Heap) (device : DeviceType) (bs n : Nat) (hbs : 1 ≤ bs) (hn : 1 ≤ n)
    (hid : n ≤ 2 ^ 31) (hsize : bs * n < 2 ^ 64) (s : State)
    (hs : construct heap device bs n = some s) (u : Use)
    (hu : Run.Reach Use.step Use.Permitted { pool := s } u) : Use.HandsOutOnce s u := by
  obtain ⟨hfits, hstack⟩ := construct_fits hs hbs hn hsize
  have hblocks : s.numBlocks = n := (construct_cases hs).1.2
  have hstart : Use.Exact s { pool := s } := ⟨rfl, rfl, by simp [hstack]⟩
  have hexact : Use.Exact s u := hu.invariant hstart (fun _ _ h hok => h.step hfits hok)
  exact hexact.handsOutOnce hfits (by omega)

/-- Every request is given the first cache line above address 0, if it is at most `2 ^ 31` bytes. -/
def lowHeap : Heap where
  alloc := fun _ n => if n ≤ 2 ^ 31 then some 64 else none
  reserve := fun _ => true
  alloc_ne_null := by
    intro d n base h
    split at h
    · cases h
      decide
    · cases h
  alloc_fits := by
    intro d n base h
    split at h
    · cases h
      omega
    · cases h

/-- Three blocks of 16 bytes, two of them held and the first given back. -/
theorem three_handsOutOnce : ∃ s, construct lowHeap .cpu 16 3 = some s ∧
    Use.HandsOutOnce s ([.allocate, .allocate, .deallocate 64].foldl Use.step { pool := s }) :=
  ⟨{ blockSizeBytes := 16, numBlocks := 3, base := 64, freeStack := [64, 80, 96] }, by decide +kernel,
    pool_handsOutOnce lowHeap .cpu 16 3 (by decide) (by decide) (by decide) (by decide) _
      (by decide +kernel) _ (Run.Reach.of_allOk _ (by decide +kernel))⟩

/-! ## Sizes that wrap -/

/-- The blocks on the stack lie in the region of `totalBytes` bytes. -/
def State.Inside (s : State) : Prop :=
  ∀ ptr ∈ s.freeStack, ptr ≠ 0 ∧ s.base ≤ ptr ∧ ptr + s.blockSizeBytes ≤ s.base + s.totalBytes

/-- The arithmetic of a pool that has just been constructed: now, and after a `reset()` that follows any
    operations. -/
structure State.Sound (s : State) : Prop where
  inside : s.Inside
  numUsed : s.numUsed = 0
  reset_inside : ∀ ops : List Op, (ops.foldl State.step s).reset.Inside
  reset_numFree : ∀ ops : List Op, (ops.foldl State.step s).reset.numFree = s.numFree
  reset_numUsed : ∀ ops : List Op, (ops.foldl State.step s).reset.numUsed = 0

theorem totalBytes_lt (pool : MemoryPool) : pool.totalBytes < 2 ^ 64 := by
  have heq : pool.totalBytes = pool.blockSizeBytes * pool.numBlocks % 2 ^ 64 :=
    toSize_natCast (pool.blockSizeBytes * pool.numBlocks)
  omega

/-- A pool with all its blocks on the stack is sound if these lie in the region. -/
theorem State.Inside.sound {s : State} (h : s.Inside)
    (hstack : s.freeStack = (List.range s.numBlocks).map s.blockPtr) : s.Sound := by
  have hreset : s.reset = s := by
    rw [reset, pushBlocks_eq, List.append_nil, ← hstack]
  have hused : s.numUsed = 0 := by
    rw [numUsed, numFree, hstack, List.length_map, List.length_range, Int.sub_self]
    rfl
  refine ⟨h, hused, ?_, ?_, ?_⟩
  · intro ops
    rwa [s.reset_foldl ops, hreset]
  · intro ops
    rw [s.reset_foldl ops, hreset]
  · intro ops
    rwa [s.reset_foldl ops, hreset]

/-- Blocks that lie in the region have been laid out without wrapping: where an address would wrap, the block
    before ends at the end of the address space and the address is null. -/
theorem State.Inside.blockPtr_eq {s : State} (h : s.Inside)
    (hstack : s.freeStack = (List.range s.numBlocks).map s.blockPtr)
    (hend : s.base + s.totalBytes ≤ 2 ^ 64) {k : Nat} (hk : k < s.numBlocks) :
    s.blockPtr k = s.base + k * s.blockSizeBytes ∧
      s.base + (k + 1) * s.blockSizeBytes ≤ s.base + s.totalBytes := by
  have hmem : ∀ {i}, i < s.numBlocks → s.blockPtr i ∈ s.freeStack := by
    intro i hi
    rw [hstack]
    exact List.mem_map_of_mem (List.mem_range.2 hi)
  have hmod : ∀ i, s.blockPtr i = (s.base + i * s.blockSizeBytes) % 2 ^ 64 := fun i =>
    toSize_natCast (s.base + i * s.blockSizeBytes)
  induction k with
  | zero =>
      obtain ⟨hne, hlow, hhigh⟩ := h _ (hmem hk)
      rw [hmod, Nat.zero_mul, Nat.add_zero] at hne hlow hhigh ⊢
      omega
  | succ k ih =>
      obtain ⟨-, hprev⟩ := ih (by omega)
      obtain ⟨hne, -, hhigh⟩ := h _ (hmem hk)
      rw [Nat.succ_mul (k + 1)]
      rw [hmod] at hne hhigh ⊢
      omega

/-- Blocks that lie in the region have a total size that fits into 64 bits: the last one ends in the region. -/
theorem State.Inside.size_lt {s : State} (h : s.Inside)
    (hstack : s.freeStack = (List.range s.numBlocks).map s.blockPtr)
    (hend : s.base + s.totalBytes ≤ 2 ^ 64) : s.blockSizeBytes * s.numBlocks < 2 ^ 64 := by
  have hlt := s.totalBytes_lt
  by_cases hnone : s.numBlocks = 0
  · simp [hnone]
  · obtain ⟨-, hlast⟩ := h.blockPtr_eq hstack hend (k := s.numBlocks - 1) (by omega)
    rw [Nat.sub_add_cancel (by omega), Nat.mul_comm] at hlast
    omega

theorem State.Fits.inside {s : State} (h : s.Fits) (hlt : s.blockSizeBytes * s.numBlocks < 2 ^ 64)
    (hstack : s.freeStack = s.blockAddrs) : s.Inside := by
  intro ptr hptr
  rw [hstack] at hptr
  refine ⟨h.ne_null hptr, ?_⟩
  obtain ⟨k, hk, rfl⟩ := mem_blockAddrs.1 hptr
  have htotal : s.totalBytes = s.blockSizeBytes * s.numBlocks := toSize_of_lt hlt
  have hle : (k + 1) * s.blockSizeBytes ≤ s.numBlocks * s.blockSizeBytes := Nat.mul_le_mul_right _ hk
  rw [htotal, Nat.mul_comm s.blockSizeBytes]
  rw [Nat.succ_mul] at hle
  omega

/-- A pool without blocks is sound, with or without a region. -/
theorem State.sound_of_numBlocks_zero {s : State} (hnone : s.numBlocks = 0) (hstack : s.freeStack = []) :
    s.Sound := by
  refine Inside.sound ?_ ?_
  · intro ptr hptr
    rw [hstack] at hptr
    cases hptr
  · rw [hstack, hnone]
    rfl

/-- **Which sizes are sound.** Whenever the constructor returns, the pool is sound exactly if it has no block,
    or blocks of at least one byte whose total size fits into 64 bits. -/
theorem pool_sound_iff (heap : Heap) (device : DeviceType) (bs n : Nat) (hn : n < 2 ^ 64) (s : State)
    (hs : construct heap device bs n = some s) : s.Sound ↔ n = 0 ∨ (1 ≤ bs ∧ bs * n < 2 ^ 64) := by
  obtain ⟨⟨rfl, rfl⟩, hcases⟩ := construct_cases hs
  constructor
  · intro hsound
    obtain ⟨-, hstack⟩ | ⟨hpos, -, hend, hstack⟩ := hcases
    · -- no region and an empty stack: all blocks count as used
      have hused : s.numUsed = s.numBlocks := by
        rw [State.numUsed, State.numFree, hstack]
        exact toSize_of_lt hn
      exact Or.inl (hused.symm.trans hsound.numUsed)
    · have hbs : s.blockSizeBytes ≠ 0 := by
        intro hzero
        exact hpos (by simp [totalBytes, hzero, toSize])
      exact Or.inr ⟨Nat.one_le_iff_ne_zero.2 hbs, hsound.inside.size_lt hstack hend⟩
  · intro hsize
    by_cases hnone : s.numBlocks = 0
    · refine State.sound_of_numBlocks_zero hnone ?_
      obtain ⟨-, hstack⟩ | ⟨-, -, -, hstack⟩ := hcases
      · exact hstack
      · rw [hstack, hnone]
        rfl
    · obtain ⟨hbs, hlt⟩ := hsize.resolve_left hnone
      obtain ⟨hfits, hstack⟩ := construct_fits hs hbs (by omega) hlt
      exact (hfits.inside hlt hstack).sound (hstack.trans hfits.map_blockPtr.symm)

theorem three_sound : ∃ s, construct lowHeap .cpu 16 3 = some s ∧ s.Sound :=
  ⟨{ blockSizeBytes := 16, numBlocks := 3, base := 64, freeStack := [64, 80, 96] }, by decide +kernel,
    (pool_sound_iff lowHeap .cpu 16 3 (by decide) _ (by decide +kernel)).2 (by decide)⟩

/-- Two blocks of `2 ^ 63 + 64` bytes are given 128 bytes: the first block does not end there, and the second
    one does not start there. -/
theorem wrapped_not_sound : ∃ s, construct lowHeap .cpu (2 ^ 63 + 64) 2 = some s ∧ ¬ s.Sound := by
  refine ⟨⟨⟨2 ^ 63 + 64, 2⟩, 64, [64, 2 ^ 63 + 128]⟩, by decide +kernel, ?_⟩
  intro h
  have hfirst := (h.inside 64 (by decide)).2.2
  exact absurd hfirst (by decide +kernel)

end CacheFlow.MemoryPool
