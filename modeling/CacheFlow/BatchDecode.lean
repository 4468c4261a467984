import CacheFlow.BatchManager
import Mathlib.Data.List.Nodup
import Mathlib.Data.List.Perm.Subperm

set_option autoImplicit false

/-! # Inputs of the attention kernel

`prepare_kv_cache_inputs` flattens a batch into the arrays the attention kernel reads. The keys and values
of an entry go to the slot of its position: the block the position falls into, found in the entry's
block table, and the offset in that block. A position beyond the table leaves its slot unwritten.

The computation is in `int`, where `position`, `block_size` and the size of the table have been cast;
`toInt` is that cast, and `slotAt_eq` says when nothing is lost. -/

namespace CacheFlow

/-- The value as a 32-bit `int`. -/
def toInt (n : Int) : Int := n.bmod (2 ^ 32)

/-- The slot a block table gives to a position, nothing when the table is too short. -/
def slotAt (blockSize : Nat) (blockTable : List BlockId) (position : Nat) : Option Int :=
  let blockIdx := (toInt position).tdiv (toInt blockSize)
  let blockOff := (toInt position).tmod (toInt blockSize)
  if blockIdx < toInt blockTable.length then
    some (toInt (blockTable.getD blockIdx.toNat 0 * toInt blockSize + blockOff))
  else none

/-- The arrays of `DecodeContext` that `prepare_kv_cache_inputs` fills. -/
structure DecodeContext where
  /-- One row of `max_blocks` ids for each entry, filled up with zeros. -/
  blockTables : List Int
  contextLens : List Int
  /-- `none` where nothing has been written. -/
  slotMapping : List (Option Int)
  deriving DecidableEq, Repr

def maxBlocks (batch : DecodeBatch) : Nat :=
  batch.entries.foldl (fun n e => max n e.blockTable.length) 0

/-- The array of slots has room for `total_tokens` of them. -/
def prepareKvCacheInputs (blockSize : Nat) (batch : DecodeBatch) : DecodeContext where
  blockTables := batch.entries.flatMap (fun e =>
    e.blockTable ++ List.replicate (maxBlocks batch - e.blockTable.length) 0)
  contextLens := batch.entries.map (fun e => toInt (e.position + 1))
  slotMapping := batch.entries.map (fun e => slotAt blockSize e.blockTable e.position)
    ++ List.replicate (batch.totalTokens - batch.entries.length) none

/-! ## The arithmetic of slots -/

theorem toInt_of_lt {n : Int} (hpos : 0 ≤ n) (hlt : n < 2 ^ 31) : toInt n = n := by
  refine Int.bmod_eq_of_le ?_ ?_
  · omega
  · omega

theorem toInt_lt (n : Int) : toInt n < 2 ^ 31 := Int.bmod_lt (by decide)

theorem dvd_sub_toInt (n : Int) : (2 ^ 32 : Int) ∣ n - toInt n := Int.dvd_self_sub_bmod

/-- The blocks of a table are distinct blocks of a pool of `n`. -/
structure TableIn (n : Nat) (table : List BlockId) : Prop where
  nodup : table.Nodup
  range : ∀ b ∈ table, 0 ≤ b ∧ b < n

theorem TableIn.length_le {n : Nat} {table : List BlockId} (h : TableIn n table) :
    table.length ≤ n := by
  have hsub : table ⊆ (List.range n).map (fun i : Nat => (i : BlockId)) := by
    intro b hb
    obtain ⟨hpos, hlt⟩ := h.range b hb
    refine List.mem_map.2 ⟨b.toNat, List.mem_range.2 ?_, Int.toNat_of_nonneg hpos⟩
    exact (Int.toNat_lt hpos).2 hlt
  simpa using (List.subperm_of_subset h.nodup hsub).length_le

section Slots

variable {n bs : Nat} {table : List BlockId} {position : Nat}

/-- A position covered by the table lies below the size of the pool in tokens. -/
theorem TableIn.position_lt (h : TableIn n table) (hidx : position / bs < table.length)
    (hbs : 1 ≤ bs) : position < n * bs := by
  have hle : position / bs < n := Nat.lt_of_lt_of_le hidx h.length_le
  exact (Nat.div_lt_iff_lt_mul hbs).1 hle

/-- A slot of a block below `n` is below the size of the pool. -/
theorem slot_range {b : Int} {off : Nat} (hb : 0 ≤ b ∧ b < n) (hoff : off < bs) :
    0 ≤ b * bs + off ∧ b * bs + off < (n * bs : Nat) := by
  have hlow : 0 ≤ b * (bs : Int) := Int.mul_nonneg hb.1 (by omega)
  have hblock : (b + 1) * (bs : Int) ≤ n * bs :=
    Int.mul_le_mul_of_nonneg_right hb.2 (by omega)
  rw [Int.add_mul] at hblock
  rw [Int.natCast_mul]
  constructor
  · omega
  · omega

/-- **No cast loses anything** when the pool has fewer than `2 ^ 31` tokens. -/
theorem TableIn.slotAt_eq (h : TableIn n table) (hbs : 1 ≤ bs) (hsize : n * bs < 2 ^ 31)
    (hidx : position / bs < table.length) :
    slotAt bs table position = some (table[position / bs] * bs + (position % bs : Nat)) := by
  have hpos := h.position_lt hidx hbs
  have hn : 0 < n := Nat.lt_of_lt_of_le (Nat.zero_lt_of_lt hidx) h.length_le
  have hbs' : bs ≤ n * bs := Nat.le_mul_of_pos_left bs hn
  have hlen : table.length ≤ n * bs := h.length_le.trans (Nat.le_mul_of_pos_right n hbs)
  have hcast : ∀ {k : Nat}, k ≤ n * bs → toInt k = k := by
    intro k hk
    exact toInt_of_lt (by omega) (by exact_mod_cast Nat.lt_of_le_of_lt hk hsize)
  have hslot : toInt (table[position / bs] * bs + (position % bs : Nat))
      = table[position / bs] * bs + (position % bs : Nat) := by
    obtain ⟨hlow, hhigh⟩ :=
      slot_range (h.range _ (List.getElem_mem hidx)) (Nat.mod_lt position hbs)
    exact toInt_of_lt hlow (hhigh.trans (by exact_mod_cast hsize))
  have hdiv : (position : Int).tdiv bs = (position / bs : Nat) := rfl
  have hmod : (position : Int).tmod bs = (position % bs : Nat) := rfl
  unfold slotAt
  rw [hcast hpos.le, hcast hbs', hcast hlen, hdiv, hmod]
  simp only [Int.toNat_natCast]
  rw [if_pos (by exact_mod_cast hidx), List.getD_eq_getElem?_getD, List.getElem?_eq_getElem hidx,
    Option.getD_some, hslot]

/-- A slot determines the block and the offset. -/
theorem slot_inj {b b' : Int} {off off' : Nat} (hoff : off < bs) (hoff' : off' < bs)
    (h : b * (bs : Int) + off = b' * bs + off') : b = b' ∧ off = off' := by
  have hblock : ∀ {c : Int} {k : Nat}, k < bs → (c * (bs : Int) + k) / bs = c := by
    intro c k hk
    rw [Int.add_comm, Int.add_mul_ediv_right _ _ (by omega),
      Int.ediv_eq_zero_of_lt (by omega) (by omega), Int.zero_add]
  have hb : b = b' := by
    rw [← hblock (c := b) hoff, h, hblock hoff']
  subst hb
  exact ⟨rfl, by omega⟩

/-- A covered position has a slot of the pool. -/
theorem TableIn.exists_slot (h : TableIn n table) (hbs : 1 ≤ bs) (hsize : n * bs < 2 ^ 31)
    (hidx : position / bs < table.length) :
    ∃ x, slotAt bs table position = some x ∧ 0 ≤ x ∧ x < (n * bs : Nat) :=
  ⟨_, h.slotAt_eq hbs hsize hidx,
    slot_range (h.range _ (List.getElem_mem hidx)) (Nat.mod_lt position hbs)⟩

/-- Equal slots are the same offset of the same block. -/
theorem TableIn.eq_of_slotAt {table' : List BlockId} {position' : Nat} (h : TableIn n table)
    (h' : TableIn n table') (hbs : 1 ≤ bs) (hsize : n * bs < 2 ^ 31)
    (hidx : position / bs < table.length) (hidx' : position' / bs < table'.length)
    (heq : slotAt bs table position = slotAt bs table' position') :
    table[position / bs] = table'[position' / bs] ∧ position % bs = position' % bs := by
  rw [h.slotAt_eq hbs hsize hidx, h'.slotAt_eq hbs hsize hidx'] at heq
  exact slot_inj (Nat.mod_lt _ hbs) (Nat.mod_lt _ hbs) (Option.some.inj heq)

/-- In one table different positions have different slots. -/
theorem TableIn.position_eq {position' : Nat} (h : TableIn n table) (hbs : 1 ≤ bs)
    (hsize : n * bs < 2 ^ 31) (hidx : position / bs < table.length)
    (hidx' : position' / bs < table.length)
    (heq : slotAt bs table position = slotAt bs table position') : position = position' := by
  obtain ⟨hblock, hoff⟩ := h.eq_of_slotAt h hbs hsize hidx hidx' heq
  have hdiv : position / bs = position' / bs := (h.nodup.getElem_inj_iff).1 hblock
  rw [← Nat.div_add_mod position bs, ← Nat.div_add_mod position' bs, hdiv, hoff]

/-- Growing a table at its end changes no slot. -/
theorem TableIn.slotAt_of_prefix {table' : List BlockId} (h : TableIn n table')
    (hpre : table <+: table') (hbs : 1 ≤ bs) (hsize : n * bs < 2 ^ 31)
    (hidx : position / bs < table.length) :
    slotAt bs table' position = slotAt bs table position := by
  have h₀ : TableIn n table :=
    ⟨h.nodup.sublist hpre.sublist, fun b hb => h.range b (hpre.subset hb)⟩
  rw [h.slotAt_eq hbs hsize (Nat.lt_of_lt_of_le hidx hpre.length_le), h₀.slotAt_eq hbs hsize hidx,
    hpre.getElem hidx]

end Slots

/-! ## The slots of a batch -/

/-- The entry `e` of the batch has been assigned the slot `x`. -/
def DecodeBatch.Assigns (blockSize : Nat) (batch : DecodeBatch) (e : BatchEntry) (x : Int) : Prop :=
  (e, some x) ∈ batch.entries.zip (prepareKvCacheInputs blockSize batch).slotMapping

instance (blockSize : Nat) (batch : DecodeBatch) (e : BatchEntry) (x : Int) :
    Decidable (batch.Assigns blockSize e x) :=
  inferInstanceAs (Decidable (_ ∈ _))

theorem DecodeBatch.assigns_iff {bs : Nat} {batch : DecodeBatch} {e : BatchEntry} {x : Int} :
    batch.Assigns bs e x ↔ e ∈ batch.entries ∧ slotAt bs e.blockTable e.position = some x := by
  have hzip : ∀ {es : List BatchEntry} {extra : List (Option Int)},
      es.zip (es.map (fun e => slotAt bs e.blockTable e.position) ++ extra)
        = es.map (fun e => (e, slotAt bs e.blockTable e.position)) := by
    intro es extra
    induction es with
    | nil => rfl
    | cons e es ih =>
        simp only [List.map_cons, List.cons_append, List.zip_cons_cons, ih]
  rw [DecodeBatch.Assigns, prepareKvCacheInputs, hzip, List.mem_map]
  constructor
  · rintro ⟨e', he', heq⟩
    obtain ⟨rfl, hslot⟩ := Prod.mk.inj heq
    exact ⟨he', hslot⟩
  · rintro ⟨he, hslot⟩
    exact ⟨e, he, by rw [hslot]⟩

/-- Every slot is written, with a slot below `size`, and no two are equal. -/
structure PrivateSlots (size : Nat) (batch : DecodeBatch) (slots : List (Option Int)) : Prop where
  length : slots.length = batch.entries.length
  written : ∀ slot ∈ slots, ∃ x, slot = some x ∧ 0 ≤ x ∧ x < (size : Int)
  nodup : slots.Nodup

/-- The block tables of a batch over a pool of `n` blocks: they cover the positions, the entries of
    one sequence share one table, and different sequences share no block. -/
structure DecodeBatch.Apart (n bs : Nat) (batch : DecodeBatch) : Prop where
  total : batch.totalTokens = batch.entries.length
  table : ∀ e ∈ batch.entries, TableIn n e.blockTable
  covered : ∀ e ∈ batch.entries, e.position / bs < e.blockTable.length
  shared : ∀ e ∈ batch.entries, ∀ e' ∈ batch.entries, e.seqId = e'.seqId →
    e.blockTable = e'.blockTable
  disjoint : ∀ e ∈ batch.entries, ∀ e' ∈ batch.entries, e.seqId ≠ e'.seqId →
    List.Disjoint e.blockTable e'.blockTable
  positions : (batch.entries.map (fun e => (e.seqId, e.position))).Nodup

namespace DecodeBatch.Apart

variable {n bs : Nat} {batch : DecodeBatch}

/-- Entries with the same slot are at the same position of the same sequence. -/
theorem key_eq (h : batch.Apart n bs) (hbs : 1 ≤ bs) (hsize : n * bs < 2 ^ 31) {e e' : BatchEntry}
    (he : e ∈ batch.entries) (he' : e' ∈ batch.entries)
    (heq : slotAt bs e.blockTable e.position = slotAt bs e'.blockTable e'.position) :
    (e.seqId, e.position) = (e'.seqId, e'.position) := by
  by_cases hid : e.seqId = e'.seqId
  · have htable := h.shared e he e' he' hid
    have hcov := h.covered e he
    rw [htable] at hcov heq
    rw [hid, (h.table e' he').position_eq hbs hsize hcov (h.covered e' he') heq]
  · obtain ⟨hblock, -⟩ := (h.table e he).eq_of_slotAt (h.table e' he') hbs hsize (h.covered e he)
      (h.covered e' he') heq
    exact absurd (hblock ▸ List.getElem_mem (h.covered e' he'))
      (h.disjoint e he e' he' hid (List.getElem_mem (h.covered e he)))

/-- **The slots of one batch are private.** -/
theorem privateSlots (h : batch.Apart n bs) (hbs : 1 ≤ bs) (hsize : n * bs < 2 ^ 31) :
    PrivateSlots (n * bs) batch (prepareKvCacheInputs bs batch).slotMapping := by
  have hslots : (prepareKvCacheInputs bs batch).slotMapping
      = batch.entries.map (fun e => slotAt bs e.blockTable e.position) := by
    rw [prepareKvCacheInputs, h.total, Nat.sub_self, List.replicate_zero, List.append_nil]
  rw [hslots]
  refine ⟨List.length_map .., ?_, ?_⟩
  · intro slot hslot
    obtain ⟨e, he, rfl⟩ := List.mem_map.1 hslot
    exact (h.table e he).exists_slot hbs hsize (h.covered e he)
  · have hpos := h.positions
    rw [List.Nodup, List.pairwise_map] at hpos ⊢
    refine hpos.imp_of_mem (fun he he' hne heq => hne (h.key_eq hbs hsize he he' heq))

end DecodeBatch.Apart

end CacheFlow
