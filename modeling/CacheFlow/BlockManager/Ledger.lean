import CacheFlow.Lib.Run
import CacheFlow.BlockManager.Counts

set_option autoImplicit false

/-! # The reference ledger of the block manager

`ref_count` has two kinds of holders: an entry of `seq_block_map_`, which `allocate_block` and
`copy_on_write` create and `free_blocks` removes, and a hold that a client takes with `increment_ref`
and gives up with `decrement_ref`, `free_block` or a successful `copy_on_write`. The source records
only the sum. Here the holds are made explicit as ghost state next to the manager, and the sum is
shown to be exact along every run that only gives up holds it took. -/

namespace CacheFlow.BlockManager

/-! ## Entries of the sequence map -/

/-- How often a block occurs in `seq_block_map_`, over all sequences. -/
def occurrences (bm : BlockManager) (x : DeviceType × BlockId) : Nat :=
  (bm.seqBlockMap.entries.map (fun e => e.2.count x)).sum

variable (bm : BlockManager) {s : SeqId} {d : DeviceType} {b : BlockId}

/-- Splitting one key off an association list, for a sum over its values. -/
theorem sum_map_kerase {β : Type} (f : β → Nat) (s : SeqId) (l : List (Σ _ : SeqId, β)) :
    (l.map (fun e => f e.2)).sum
      = ((l.dlookup s).elim 0 f) + ((l.kerase s).map (fun e => f e.2)).sum := by
  induction l with
  | nil => simp
  | cons e rest ih =>
      obtain ⟨s', v⟩ := e
      by_cases hs : s = s'
      · subst hs; simp
      · rw [List.dlookup_cons_ne _ _ hs, List.kerase_cons_ne hs]
        simp only [List.map_cons, List.sum_cons, ih]
        omega

theorem occurrences_eq (x : DeviceType × BlockId) (s : SeqId) :
    bm.occurrences x
      = (bm.seqBlocks s).count x
        + ((bm.seqBlockMap.entries.kerase s).map (fun e => e.2.count x)).sum := by
  rw [occurrences, sum_map_kerase (fun v : List (DeviceType × BlockId) => v.count x) s]
  congr 1
  rw [seqBlocks, AList.lookup]
  cases bm.seqBlockMap.entries.dlookup s <;> simp

theorem occurrences_emplaceBack (x : DeviceType × BlockId) :
    (bm.emplaceBack s d b).occurrences x
      = if x = (d, b) then bm.occurrences x + 1 else bm.occurrences x := by
  have hsplit := bm.occurrences_eq x s
  have hnew : (bm.emplaceBack s d b).occurrences x
      = (bm.seqBlocks s ++ [(d, b)]).count x
        + ((bm.seqBlockMap.entries.kerase s).map (fun e => e.2.count x)).sum := by
    simp [occurrences, emplaceBack, AList.entries_insert]
  rw [hnew, List.count_append]
  by_cases hx : x = (d, b)
  · subst hx; simp; omega
  · rw [if_neg hx, List.count_cons_of_ne (Ne.symm hx)]
    simp [hsplit]

theorem occurrences_freeBlocks (x : DeviceType × BlockId) :
    (bm.freeBlocks s).occurrences x = bm.occurrences x - (bm.seqBlocks s).count x := by
  have hsplit := bm.occurrences_eq x s
  unfold freeBlocks
  cases hs : bm.seqBlockMap.lookup s with
  | none => simp [seqBlocks, hs]
  | some es =>
      have hrest : ({ bm.freeEntries es with
          seqBlockMap := (bm.freeEntries es).seqBlockMap.erase s } : BlockManager).occurrences x
          = ((bm.seqBlockMap.entries.kerase s).map (fun e => e.2.count x)).sum := by
        have hmap : ((bm.freeEntries es).seqBlockMap.erase s).entries
            = bm.seqBlockMap.entries.kerase s := by
          rw [freeEntries_seqBlockMap]
          rfl
        rw [occurrences, hmap]
      rw [hrest, hsplit]
      omega

theorem count_seqBlocks_le_occurrences (x : DeviceType × BlockId) :
    (bm.seqBlocks s).count x ≤ bm.occurrences x := by
  rw [bm.occurrences_eq x s]
  omega

theorem occurrences_congr {bm' : BlockManager} (h : bm'.seqBlockMap = bm.seqBlockMap)
    (x : DeviceType × BlockId) : bm'.occurrences x = bm.occurrences x := by
  simp only [occurrences, h]

theorem decrementRef_seqBlockMap :
    (bm.decrementRef b d).seqBlockMap = bm.seqBlockMap := by
  unfold decrementRef
  split
  · rfl
  · split <;> simp

theorem incrementRef_seqBlockMap :
    (bm.incrementRef b d).seqBlockMap = bm.seqBlockMap := by
  unfold incrementRef
  split
  · rfl
  · simp

theorem allocateBlock_seqBlockMap {rest : List BlockId} (hfl : bm.freeList d = b :: rest)
    (hb : bm.InRange d b) :
    (bm.allocateBlock s d).2.seqBlockMap = (bm.emplaceBack s d b).seqBlockMap := by
  simp [allocateBlock, popFree, hfl, hb.ne_invalidBlock, emplaceBack, seqBlocks]

theorem occurrences_allocateBlock {rest : List BlockId} (hfl : bm.freeList d = b :: rest)
    (hb : bm.InRange d b) (x : DeviceType × BlockId) :
    (bm.allocateBlock s d).2.occurrences x
      = if x = (d, b) then bm.occurrences x + 1 else bm.occurrences x := by
  rw [occurrences_congr _ (bm.allocateBlock_seqBlockMap hfl hb), occurrences_emplaceBack]

/-- A copy fails only for want of a free block, before anything is written. -/
theorem copyOnWrite_fail {src : BlockId} (hin : ∀ b ∈ bm.freeList d, bm.InRange d b)
    (hfail : (bm.copyOnWrite src s d).1 = invalidBlock) : (bm.copyOnWrite src s d).2 = bm := by
  unfold copyOnWrite at hfail ⊢
  by_cases hone : ((bm.getBlock src d).getD {}).refCount = 1
  · -- the fast path returns the source, which has a descriptor
    rw [if_pos hone] at hfail
    have hsrc : src = invalidBlock := hfail
    subst hsrc
    simp [getBlock] at hone
  · rw [if_neg hone] at hfail ⊢
    cases hfl : bm.freeList d with
    | nil => simp [popFree, hfl]
    | cons b rest =>
        have hb : b ≠ invalidBlock :=
          (hin b (by rw [hfl]; exact List.mem_cons_self ..)).ne_invalidBlock
        simp [popFree, hfl, hb] at hfail

/-! ## The pools keep their size -/

theorem allocateBlock_length {d' : DeviceType} :
    ((bm.allocateBlock s d).2.blocks d').length = (bm.blocks d').length := by
  have hpop : ((bm.popFree d).2.blocks d').length = (bm.blocks d').length := by
    unfold popFree
    split <;> rfl
  simp only [allocateBlock]
  split <;> simp [hpop]

theorem incrementRef_length {d' : DeviceType} :
    ((bm.incrementRef b d).blocks d').length = (bm.blocks d').length := by
  unfold incrementRef
  split <;> simp

theorem decrementRef_length {d' : DeviceType} :
    ((bm.decrementRef b d).blocks d').length = (bm.blocks d').length := by
  unfold decrementRef
  split
  · rfl
  · split <;> simp

theorem copyOnWrite_length {src : BlockId} {d' : DeviceType} :
    ((bm.copyOnWrite src s d).2.blocks d').length = (bm.blocks d').length := by
  have hpop : ((bm.popFree d).2.blocks d').length = (bm.blocks d').length := by
    unfold popFree
    split <;> rfl
  simp only [copyOnWrite]
  split
  · simp
  · split <;> simp [hpop]

/-! ## The copying path -/

section CopyingPath

variable {bm bm' : BlockManager} {src : BlockId}

/-- What the copying path of `copy_on_write` leaves behind. -/
structure Copied (bm bm' : BlockManager) (s : SeqId) (d : DeviceType) (src b : BlockId)
    (rest : List BlockId) : Prop where
  freeList : bm'.freeList = Function.update bm.freeList d rest
  refCount : ∀ d₁ b₁, bm'.refCount d₁ b₁ = if d₁ = d ∧ b₁ = b then 1
    else if d₁ = d ∧ b₁ = src then bm.refCount d src - 1 else bm.refCount d₁ b₁
  seqBlockMap : bm'.seqBlockMap = (bm.emplaceBack s d b).seqBlockMap
  length : ∀ d₁, (bm'.blocks d₁).length = (bm.blocks d₁).length

theorem copyOnWrite_copy {rest : List BlockId} (hsrc : bm.InRange d src) (hb : bm.InRange d b)
    (hmany : bm.refCount d src ≠ 1) (hfl : bm.freeList d = b :: rest) (hne : src ≠ b) :
    (bm.copyOnWrite src s d).1 = b ∧ Copied bm (bm.copyOnWrite src s d).2 s d src b rest := by
  obtain ⟨blk, hget, href⟩ := bm.getBlock_of_inRange hsrc
  let popped : BlockManager := { bm with freeList := Function.update bm.freeList d rest }
  let dst : PhysicalBlock := (popped.getBlock b d).getD {}
  let bm₁ := popped.setBlock b d
    { dst with refCount := 1, numFilled := blk.numFilled, hash := blk.hash, isPrefix := false }
  have hb' : popped.InRange d b := hb
  have hget₁ : bm₁.getBlock src d = some blk := by
    rw [getBlock_setBlock popped _ hb', if_neg (fun hc => hne hc.2)]
    exact hget
  have hsrc₁ : bm₁.InRange d src := by
    simpa [bm₁, popped, InRange] using hsrc
  let bm₂ := bm₁.setBlock src d { blk with refCount := blk.refCount - 1 }
  have hcow : bm.copyOnWrite src s d = (b, bm₂.emplaceBack s d b) := by
    have hone : blk.refCount ≠ 1 := by rw [href]; exact hmany
    simp [copyOnWrite, hget, hone, popFree, hfl, hb.ne_invalidBlock, bm₂, bm₁, popped, dst]
      at hget₁ ⊢
    simp [hget₁]
  rw [hcow]
  refine ⟨rfl, ?_, ?_, ?_, ?_⟩
  · simp [bm₂, bm₁, popped]
  · intro d₁ b₁
    rw [emplaceBack_refCount, refCount_setBlock bm₁ _ hsrc₁, refCount_setBlock popped _ hb']
    by_cases hd : d₁ = d
    · by_cases hb₁ : b₁ = b
      · subst hb₁
        simp [hd, Ne.symm hne]
      · simp only [hd, hb₁, and_false, if_false, href]
        rfl
    · simp only [hd, false_and, if_false]
      rfl
  · simp [emplaceBack, seqBlocks, bm₂, bm₁, popped]
  · intro d₁
    simp [bm₂, bm₁, popped]

theorem Copied.occurrences {rest : List BlockId} (h : Copied bm bm' s d src b rest)
    (x : DeviceType × BlockId) :
    bm'.occurrences x = if x = (d, b) then bm.occurrences x + 1 else bm.occurrences x := by
  rw [occurrences_congr _ h.seqBlockMap, occurrences_emplaceBack]

theorem Copied.seqBlocks {rest : List BlockId} (h : Copied bm bm' s d src b rest) (s' : SeqId) :
    bm'.seqBlocks s' = if s' = s then bm.seqBlocks s ++ [(d, b)] else bm.seqBlocks s' := by
  have hmap : bm'.seqBlocks s' = (bm.emplaceBack s d b).seqBlocks s' := by
    rw [BlockManager.seqBlocks, BlockManager.seqBlocks, h.seqBlockMap]
  rw [hmap, emplaceBack_seqBlocks]

/-- The fresh block is taken for the map, the source gives up one of its several references. -/
theorem Copied.counts {c : HolderTable} {rest : List BlockId} (h : Copied bm bm' s d src b rest)
    (hc : Counts bm c) (hfl : bm.freeList d = b :: rest) (hmany : 2 ≤ bm.refCount d src) :
    Counts bm' ((c.inc (d, b)).dec (d, src)) := by
  obtain ⟨hb, hzero⟩ := (hc.free d b).1 (by rw [hfl]; exact List.mem_cons_self ..)
  have hsrc := hc.refCount d src
  have hne : src ≠ b := by
    rintro rfl
    omega
  -- the manager after the fresh block has been taken
  let popped : BlockManager := { bm with freeList := Function.update bm.freeList d rest }
  let taken := popped.setBlock b d { (popped.getBlock b d).getD {} with refCount := 1 }
  have hrefs : ∀ d₁ b₁, taken.refCount d₁ b₁
      = if d₁ = d ∧ b₁ = b then 1 else bm.refCount d₁ b₁ := fun d₁ b₁ => by
    rw [refCount_setBlock popped _ hb]
    rfl
  have hrefsSrc : taken.refCount d src = bm.refCount d src := by
    rw [hrefs, if_neg (fun hx => hne hx.2)]
  have htaken : Counts taken (c.inc (d, b)) :=
    hc.taken hfl hrefs (by simp [taken, popped]) (fun d₁ => by simp [taken, popped])
  have hpos : 0 < c.inc (d, b) (d, src) := by
    simp only [HolderTable.inc]
    split <;> omega
  refine htaken.released hpos (fun d₁ b₁ => ?_) (fun d₁ => ?_) (fun d₁ => ?_)
  · rw [h.refCount, hrefsSrc, hrefs]
    by_cases hx : d₁ = d ∧ b₁ = src
    · obtain ⟨rfl, rfl⟩ := hx
      simp only [hne, and_false, if_false, and_self, if_true]
      omega
    · rw [if_neg hx, if_neg hx]
  · rw [h.freeList, hrefsSrc, if_neg (by omega)]
    simp [taken, popped]
  · rw [h.length]
    simp [taken, popped]

end CopyingPath

/-! ## Runs of the whole interface -/

/-- A hold taken by `increment_ref`: who took it, and on which block. -/
abbrev Hold := SeqId × DeviceType × BlockId

/-- A block manager with the holds its clients have outstanding. -/
structure LedgerState where
  bm : BlockManager
  holds : List Hold

namespace LedgerState

inductive Op
  | allocateBlock (s : SeqId) (d : DeviceType)
  | freeBlocks (s : SeqId)
  | incrementRef (owner : SeqId) (b : BlockId) (d : DeviceType)
  | decrementRef (owner : SeqId) (b : BlockId) (d : DeviceType)
  | freeBlock (owner : SeqId) (b : BlockId) (d : DeviceType)
  | copyOnWrite (src : BlockId) (s : SeqId) (d : DeviceType)

def init (config : CacheConfig) : LedgerState := { bm := BlockManager.new config, holds := [] }

def step (st : LedgerState) : Op → LedgerState
  | .allocateBlock s d => { st with bm := (st.bm.allocateBlock s d).2 }
  | .freeBlocks s => { st with bm := st.bm.freeBlocks s }
  | .incrementRef o b d => { bm := st.bm.incrementRef b d, holds := (o, d, b) :: st.holds }
  | .decrementRef o b d => { bm := st.bm.decrementRef b d, holds := st.holds.erase (o, d, b) }
  | .freeBlock o b d => { bm := st.bm.freeBlock b d, holds := st.holds.erase (o, d, b) }
  | .copyOnWrite src s d =>
    { bm := (st.bm.copyOnWrite src s d).2,
      holds := if (st.bm.copyOnWrite src s d).1 = invalidBlock then st.holds
        else st.holds.erase (s, d, src) }

/-- The client's side of the contract: holds are taken on live blocks (and below the range of the
    counter), and only a hold taken before is given up. -/
def Permitted (st : LedgerState) : Op → Prop
  | .allocateBlock _ _ => True
  | .freeBlocks _ => True
  | .incrementRef _ b d => 0 < st.bm.refCount d b ∧ st.bm.refCount d b < 2 ^ 31 - 1
  | .decrementRef o b d => (o, d, b) ∈ st.holds
  | .freeBlock o b d => (o, d, b) ∈ st.holds
  | .copyOnWrite src s d => (s, d, src) ∈ st.holds

instance (st : LedgerState) : ∀ op, Decidable (st.Permitted op)
  | .allocateBlock _ _ => isTrue trivial
  | .freeBlocks _ => isTrue trivial
  | .incrementRef _ _ _ => inferInstanceAs (Decidable (_ ∧ _))
  | .decrementRef _ _ _ => inferInstanceAs (Decidable (_ ∈ _))
  | .freeBlock _ _ _ => inferInstanceAs (Decidable (_ ∈ _))
  | .copyOnWrite _ _ _ => inferInstanceAs (Decidable (_ ∈ _))

/-- The number of outstanding holds on a block. -/
def holdsOn (st : LedgerState) (x : DeviceType × BlockId) : Nat := st.holds.countP (fun h => h.2 = x)

/-- The holders of a block: its entries in the map and the holds on it. -/
def holders (st : LedgerState) : HolderTable := fun x => st.bm.occurrences x + st.holdsOn x

theorem holdsOn_erase {hs : List Hold} {o : SeqId} {x : DeviceType × BlockId}
    (h : (o, x) ∈ hs) (y : DeviceType × BlockId) :
    (hs.erase (o, x)).countP (fun h => h.2 = y)
      = hs.countP (fun h => h.2 = y) - if y = x then 1 else 0 := by
  have hperm : hs.Perm ((o, x) :: hs.erase (o, x)) := List.perm_cons_erase h
  have hcount := hperm.countP_eq (fun h => decide (h.2 = y))
  rw [List.countP_cons] at hcount
  by_cases hy : y = x
  · subst hy
    simp only [decide_true, if_true] at hcount ⊢
    omega
  · simpa [hy, Ne.symm hy] using hcount.symm

theorem holdsOn_pos {st : LedgerState} {o : SeqId} {x : DeviceType × BlockId}
    (h : (o, x) ∈ st.holds) : 0 < st.holdsOn x :=
  List.countP_pos_iff.2 ⟨(o, x), h, by simp⟩

/-- Giving up a hold without touching the map drops one holder. -/
theorem holders_drop {st : LedgerState} {bm' : BlockManager} {o : SeqId} {x : DeviceType × BlockId}
    (h : (o, x) ∈ st.holds) (hmap : bm'.seqBlockMap = st.bm.seqBlockMap) :
    holders { bm := bm', holds := st.holds.erase (o, x) } = st.holders.dec x := by
  have hpos : 0 < st.holdsOn x := holdsOn_pos h
  funext y
  simp only [holders, holdsOn, HolderTable.dec, holdsOn_erase h, st.bm.occurrences_congr hmap]
  by_cases hy : y = x
  · subst hy
    simp only [holdsOn] at hpos
    simp only [if_true]
    omega
  · simp [hy]

/-! ## The operations keep the ledger -/

/-- Allocation on an empty free list fails, on a non-empty one it adds an entry to the map. -/
theorem counts_allocateBlock {st : LedgerState} (h : Counts st.bm st.holders) (s : SeqId)
    (d : DeviceType) : Counts (st.step (.allocateBlock s d)).bm
      (st.step (.allocateBlock s d)).holders := by
  cases hfl : st.bm.freeList d with
  | nil =>
      have hfail := allocateBlock_nil st.bm (s := s) hfl
      simpa only [step, hfail] using h
  | cons b rest =>
      have hb : st.bm.InRange d b :=
        ((h.free d b).1 (by rw [hfl]; exact List.mem_cons_self ..)).1
      have halloc := (allocateBlock_cons st.bm (s := s) hfl hb).2
      have htable : (st.step (.allocateBlock s d)).holders = st.holders.inc (d, b) := by
        funext x
        have hocc := occurrences_allocateBlock st.bm (s := s) hfl hb x
        simp only [holders, step, HolderTable.inc, hocc, holdsOn]
        split <;> omega
      rw [htable]
      exact h.allocated hfl halloc

theorem counts_freeBlocks {st : LedgerState} (h : Counts st.bm st.holders) (s : SeqId) :
    Counts (st.step (.freeBlocks s)).bm (st.step (.freeBlocks s)).holders := by
  have hle : ∀ x, (st.bm.seqBlocks s).count x ≤ st.holders x := fun x =>
    le_trans (st.bm.count_seqBlocks_le_occurrences x) (Nat.le_add_right _ _)
  have htable : (st.step (.freeBlocks s)).holders
      = fun x => st.holders x - (st.bm.seqBlocks s).count x := by
    funext x
    have := st.bm.count_seqBlocks_le_occurrences (s := s) x
    simp only [holders, step, occurrences_freeBlocks, holdsOn]
    omega
  rw [htable]
  exact h.freeBlocks hle

theorem counts_incrementRef {st : LedgerState} (h : Counts st.bm st.holders) (o : SeqId)
    (hpos : 0 < st.bm.refCount d b) :
    Counts (st.step (.incrementRef o b d)).bm (st.step (.incrementRef o b d)).holders := by
  have hheld : 0 < st.holders (d, b) := by
    rw [h.refCount] at hpos
    omega
  have htable : (st.step (.incrementRef o b d)).holders = st.holders.inc (d, b) := by
    funext x
    simp only [holders, step, HolderTable.inc, holdsOn, List.countP_cons,
      st.bm.occurrences_congr (st.bm.incrementRef_seqBlockMap)]
    by_cases hx : x = (d, b)
    · subst hx; simp; omega
    · simp [hx, Ne.symm hx]
  rw [htable]
  exact h.incrementRef hheld

/-- The copying branch of `copy_on_write`: the fresh block is taken for the map, the source loses the
    caller's hold but keeps another reference. -/
theorem counts_copyOnWrite_copy {st : LedgerState} (h : Counts st.bm st.holders) {src : BlockId}
    {s : SeqId} {rest : List BlockId} (hhold : (s, d, src) ∈ st.holds)
    (hmany : st.bm.refCount d src ≠ 1) (hfl : st.bm.freeList d = b :: rest) :
    Counts (st.step (.copyOnWrite src s d)).bm (st.step (.copyOnWrite src s d)).holders := by
  have hheld := holdsOn_pos hhold
  have hpos : 0 < st.holders (d, src) := Nat.lt_of_lt_of_le hheld (Nat.le_add_left _ _)
  obtain ⟨hb, hzero⟩ := (h.free d b).1 (by rw [hfl]; exact List.mem_cons_self ..)
  have hne : src ≠ b := by
    rintro rfl
    omega
  obtain ⟨hres, hcopy⟩ := copyOnWrite_copy (s := s) (h.inRange hpos) hb hmany hfl hne
  have hrefs := h.refCount d src
  have hstep : st.step (.copyOnWrite src s d)
      = { bm := (st.bm.copyOnWrite src s d).2, holds := st.holds.erase (s, d, src) } := by
    simp [step, hres, hb.ne_invalidBlock]
  have htable : (st.step (.copyOnWrite src s d)).holders
      = (st.holders.inc (d, b)).dec (d, src) := by
    funext x
    simp only [hstep, holders, holdsOn, hcopy.occurrences, holdsOn_erase hhold, HolderTable.inc,
      HolderTable.dec] at hheld ⊢
    by_cases hx : x = (d, src)
    · subst hx
      have hxb : (d, src) ≠ (d, b) := fun he => hne (Prod.mk.inj he).2
      simp only [if_true, if_neg hxb]
      omega
    · simp only [if_neg hx]
      split <;> omega
  rw [htable, hstep]
  exact hcopy.counts h hfl (by omega)

/-- `copy_on_write` moves the caller's hold into the map: onto the source itself when the hold is its
    last reference, onto a fresh copy otherwise. -/
theorem counts_copyOnWrite {st : LedgerState} (h : Counts st.bm st.holders) {src : BlockId}
    {s : SeqId} (hhold : (s, d, src) ∈ st.holds) :
    Counts (st.step (.copyOnWrite src s d)).bm (st.step (.copyOnWrite src s d)).holders := by
  have hpos : 0 < st.holders (d, src) := Nat.lt_of_lt_of_le (holdsOn_pos hhold) (Nat.le_add_left _ _)
  have hsrc : st.bm.InRange d src := h.inRange hpos
  obtain ⟨blk, hget, href⟩ := st.bm.getBlock_of_inRange hsrc
  by_cases hone : blk.refCount = 1
  · have hcow : st.bm.copyOnWrite src s d = (src, st.bm.emplaceBack s d src) := by
      simp [copyOnWrite, hget, hone]
    have hstep : st.step (.copyOnWrite src s d)
        = { bm := st.bm.emplaceBack s d src, holds := st.holds.erase (s, d, src) } := by
      simp [step, hcow, hsrc.ne_invalidBlock]
    have htable : (st.step (.copyOnWrite src s d)).holders = st.holders := by
      have hheld := holdsOn_pos hhold
      funext x
      simp only [hstep, holders, holdsOn, occurrences_emplaceBack, holdsOn_erase hhold] at hheld ⊢
      by_cases hx : x = (d, src)
      · subst hx; simp only [if_true]; omega
      · simp [hx]
    rw [htable, hstep]
    exact h.congr (fun _ _ => rfl) rfl (fun _ => rfl)
  · cases hfl : st.bm.freeList d with
    | nil =>
        have hcow : st.bm.copyOnWrite src s d = (invalidBlock, st.bm) := by
          simp [copyOnWrite, hget, hone, popFree, hfl]
        simpa [step, hcow] using h
    | cons b rest =>
        exact counts_copyOnWrite_copy h hhold (by rw [← href]; exact hone) hfl

theorem step_counts {st : LedgerState} (op : Op) (h : Counts st.bm st.holders)
    (hop : st.Permitted op) : Counts (st.step op).bm (st.step op).holders := by
  cases op with
  | allocateBlock s d => exact counts_allocateBlock h s d
  | freeBlocks s => exact counts_freeBlocks h s
  | incrementRef o b d => exact counts_incrementRef h o hop.1
  | decrementRef o b d =>
      have hpos := Nat.lt_of_lt_of_le (holdsOn_pos hop) (Nat.le_add_left _ (st.bm.occurrences (d, b)))
      simp only [step, holders_drop hop (st.bm.decrementRef_seqBlockMap)]
      exact h.decrementRef hpos
  | freeBlock o b d =>
      have hpos := Nat.lt_of_lt_of_le (holdsOn_pos hop) (Nat.le_add_left _ (st.bm.occurrences (d, b)))
      simp only [step, holders_drop hop (st.bm.freeBlock_seqBlockMap)]
      exact h.freeBlock hpos
  | copyOnWrite src s d => exact counts_copyOnWrite h hop

theorem init_counts (config : CacheConfig) : Counts (init config).bm (init config).holders :=
  counts_new config

theorem step_length (st : LedgerState) (op : Op) (d : DeviceType) :
    ((st.step op).bm.blocks d).length = (st.bm.blocks d).length := by
  cases op with
  | allocateBlock s d => exact st.bm.allocateBlock_length
  | freeBlocks s => exact st.bm.freeBlocks_length
  | incrementRef o b d => exact st.bm.incrementRef_length
  | decrementRef o b d => exact st.bm.decrementRef_length
  | freeBlock o b d => exact st.bm.freeBlock_length
  | copyOnWrite src s d => exact st.bm.copyOnWrite_length

theorem reach_counts {config : CacheConfig} {st : LedgerState}
    (h : Run.Reach step Permitted (init config) st) : Counts st.bm st.holders :=
  h.invariant (P := fun st => Counts st.bm st.holders) (init_counts config)
    (fun _ op hst hop => step_counts op hst hop)

theorem reach_length {config : CacheConfig} {st : LedgerState}
    (h : Run.Reach step Permitted (init config) st) (d : DeviceType) :
    (st.bm.blocks d).length = countFor config d := by
  refine h.invariant (P := fun st => (st.bm.blocks d).length = countFor config d) ?_
    (fun st op hst _ => (st.step_length op d).trans hst)
  simp [init, BlockManager.new, initBlocks]

/-- **The reference ledger.** In every state of every run that gives up only holds it took, the
    reference count of each block is the number of its entries in `seq_block_map_` plus the number of
    outstanding holds, and each free list holds exactly the blocks with count 0, each once. Hence
    `can_allocate(n)` announces `n` distinct blocks nobody holds, and a failing allocation or copy
    changes nothing. -/
theorem ledger_exact (config : CacheConfig) (st : LedgerState)
    (h : Run.Reach step Permitted (init config) st) :
    (∀ d b, st.bm.refCount d b = (st.bm.occurrences (d, b) + st.holdsOn (d, b) : Nat)) ∧
    (∀ d, (st.bm.freeList d).Nodup ∧ ∀ b, b ∈ st.bm.freeList d ↔
      (0 ≤ b ∧ b.toNat < countFor config d) ∧ st.bm.refCount d b = 0) ∧
    (∀ seqs : List SeqId, st.bm.canAllocate seqs.length = true →
      let bids := (st.bm.allocateSeries .cuda seqs).1
      bids.length = seqs.length ∧ bids.Nodup ∧ ∀ b ∈ bids, b ≠ invalidBlock ∧
        st.bm.occurrences (.cuda, b) = 0 ∧ st.holdsOn (.cuda, b) = 0) ∧
    (∀ s d, (st.bm.allocateBlock s d).1 = invalidBlock → (st.bm.allocateBlock s d).2 = st.bm) ∧
    (∀ src s d, (st.bm.copyOnWrite src s d).1 = invalidBlock →
      (st.bm.copyOnWrite src s d).2 = st.bm) := by
  have hc := reach_counts h
  have hin : ∀ d b, b ∈ st.bm.freeList d → st.bm.InRange d b := fun d b hb => ((hc.free d b).1 hb).1
  refine ⟨fun d b => hc.refCount d b, fun d => ⟨hc.nodup d, fun b => ?_⟩, fun seqs hcan => ?_,
    fun s d hfail => ?_, fun src s d hfail => ?_⟩
  · rw [hc.free, hc.refCount, InRange, reach_length h]
    simp
  · have hlen : seqs.length ≤ (st.bm.freeList .cuda).length := by simpa [canAllocate] using hcan
    have hbids := st.bm.allocateSeries_fst seqs hlen (hin .cuda)
    refine ⟨?_, ?_, fun b hb => ?_⟩
    · rw [hbids, List.length_take, Nat.min_eq_left hlen]
    · rw [hbids]; exact (hc.nodup .cuda).sublist (List.take_sublist _ _)
    · have hmem : b ∈ st.bm.freeList .cuda := List.mem_of_mem_take (hbids ▸ hb)
      obtain ⟨hrange, hzero⟩ := (hc.free .cuda b).1 hmem
      exact ⟨hrange.ne_invalidBlock, Nat.add_eq_zero_iff.1 hzero⟩
  · cases hfl : st.bm.freeList d with
    | nil => rw [allocateBlock_nil st.bm hfl]
    | cons b rest =>
        have hb := hin d b (by rw [hfl]; exact List.mem_cons_self ..)
        rw [(allocateBlock_cons st.bm hfl hb).1] at hfail
        exact absurd hfail hb.ne_invalidBlock
  · exact copyOnWrite_fail st.bm (hin d) hfail

/-- A run through the sharing path: sequence 2 takes a hold on a block of sequence 1 and copies it. -/
theorem ledger_exact_shared_block :
    let st := [Op.allocateBlock 1 .cuda, .incrementRef 2 0 .cuda, .copyOnWrite 0 2 .cuda].foldl step
      (init { numGpuBlocks := 2, numCpuBlocks := 1, blockSize := 16 })
    st.bm.refCount .cuda 0 = (st.bm.occurrences (.cuda, 0) + st.holdsOn (.cuda, 0) : Nat) ∧
      st.bm.refCount .cuda 0 = 1 ∧ st.bm.seqBlocks 2 = [(.cuda, 1)] :=
  ⟨(ledger_exact _ _ (Run.Reach.of_allOk _ (by decide))).1 _ _, by decide, by decide⟩

end LedgerState

end CacheFlow.BlockManager
