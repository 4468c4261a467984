import CacheFlow.BlockManager.Ledger

set_option autoImplicit false

/-! # Who owns the result of a copy-on-write

`copy_on_write(src, s)` is to give sequence `s` a block it may write to: one that no other sequence
lists. It copies a source with several references into a fresh block, which is listed for `s` alone.
A source with one reference is handed out itself. Its one reference belongs to the sequence that
already lists it, so the block is then listed twice and goes back to the free list with the first of
the two sequences that is freed.

As long as no source has a single reference, a block is never listed twice and never both free and
listed (`ListedOnce`), and the result of a copy stays with its sequence. -/

namespace CacheFlow.BlockManager

variable {bm bm' : BlockManager} {d : DeviceType} {b src : BlockId} {s s' : SeqId}

/-! ## Operations -/

inductive CowOp
  | allocateBlock (s : SeqId) (d : DeviceType)
  | incrementRef (b : BlockId) (d : DeviceType)
  | copyOnWrite (src : BlockId) (s : SeqId) (d : DeviceType)
  | freeBlocks (s : SeqId)
  deriving DecidableEq

namespace CowOp

def apply (bm : BlockManager) : CowOp → BlockManager
  | allocateBlock s d => (bm.allocateBlock s d).2
  | incrementRef b d => bm.incrementRef b d
  | copyOnWrite src s d => (bm.copyOnWrite src s d).2
  | freeBlocks s => bm.freeBlocks s

/-- The contract of the callers: the source of a copy has references and is listed for another
    sequence. -/
def Permitted (bm : BlockManager) : CowOp → Prop
  | copyOnWrite src s d =>
    0 < bm.refCount d src ∧ ∃ s' ∈ bm.seqBlockMap.keys, s' ≠ s ∧ (d, src) ∈ bm.seqBlocks s'
  | _ => True

/-- The source of a copy has other references than the one its sequence owns. -/
def Shared (bm : BlockManager) : CowOp → Prop
  | copyOnWrite src _ d => bm.refCount d src ≠ 1
  | _ => True

instance (bm : BlockManager) : ∀ op, Decidable (Permitted bm op)
  | copyOnWrite src s d => inferInstanceAs (Decidable (0 < bm.refCount d src ∧
      ∃ s' ∈ bm.seqBlockMap.keys, s' ≠ s ∧ (d, src) ∈ bm.seqBlocks s'))
  | allocateBlock _ _ | incrementRef _ _ | freeBlocks _ => isTrue trivial

instance (bm : BlockManager) : ∀ op, Decidable (Shared bm op)
  | copyOnWrite src _ d => inferInstanceAs (Decidable (bm.refCount d src ≠ 1))
  | allocateBlock _ _ | incrementRef _ _ | freeBlocks _ => isTrue trivial

end CowOp

/-! ## Listed once -/

/-- The table `c` lists every block at most once, none that is free, and only referenced ones. -/
structure Listed (bm : BlockManager) (c : HolderTable) : Prop where
  inRange : ∀ d, ∀ b ∈ bm.freeList d, bm.InRange d b
  once : ∀ d b, (bm.freeList d).count b + c (d, b) ≤ 1
  referenced : ∀ d b, (c (d, b) : Int) ≤ bm.refCount d b

/-- The sequences list every block at most once, none that is free, and only referenced ones. -/
def ListedOnce (bm : BlockManager) : Prop := Listed bm bm.occurrences

variable {c : HolderTable}

theorem Listed.not_free (h : Listed bm c) (hpos : 0 < c (d, b)) : b ∉ bm.freeList d := by
  intro hmem
  have hfree := List.count_pos_iff.2 hmem
  have hone := h.once d b
  omega

theorem Listed.refCount_pos (h : Listed bm c) (hpos : 0 < c (d, b)) : 0 < bm.refCount d b := by
  have href := h.referenced d b
  omega

theorem inRange_of_refCount_pos (hpos : 0 < bm.refCount d b) : bm.InRange d b := by
  by_contra hout
  rw [refCount_eq_zero_of_not_inRange hout] at hpos
  exact absurd hpos (by decide)

theorem Listed.freeBlock (h : Listed bm c) (hpos : 0 < c (d, b)) :
    Listed (bm.freeBlock b d) (c.dec (d, b)) := by
  have href := h.refCount_pos hpos
  have hb : bm.InRange d b := inRange_of_refCount_pos href
  refine ⟨?_, ?_, ?_⟩
  · intro d' b' hmem
    rw [InRange, freeBlock_length]
    rw [bm.freeBlock_freeList hb] at hmem
    split at hmem
    · next hd =>
        rcases List.mem_cons.1 hmem with rfl | hmem
        · rw [hd.1]
          exact hb
        · exact h.inRange d' b' hmem
    · exact h.inRange d' b' hmem
  · intro d' b'
    have hone := h.once d' b'
    rw [bm.freeBlock_freeList hb, HolderTable.dec]
    by_cases hx : (d', b') = (d, b)
    · obtain ⟨rfl, rfl⟩ := Prod.mk.inj hx
      rw [if_pos rfl]
      split
      · rw [List.count_cons_self]
        omega
      · omega
    · rw [if_neg hx]
      split
      · next hd =>
          have hne : b ≠ b' := by
            rintro rfl
            exact hx (by rw [hd.1])
          rw [List.count_cons_of_ne hne]
          exact hone
      · exact hone
  · intro d' b'
    have hle := h.referenced d' b'
    rw [bm.freeBlock_refCount hb, HolderTable.dec]
    by_cases hx : (d', b') = (d, b)
    · obtain ⟨rfl, rfl⟩ := Prod.mk.inj hx
      simp only [and_self, if_true]
      omega
    · rw [if_neg hx, if_neg (fun hc => hx (Prod.ext hc.1 hc.2))]
      exact hle

theorem Listed.freeEntries (es : List (DeviceType × BlockId)) (h : Listed bm c)
    (hle : ∀ x, es.count x ≤ c x) : Listed (bm.freeEntries es) (fun x => c x - es.count x) := by
  induction es generalizing bm c with
  | nil => simpa [BlockManager.freeEntries] using h
  | cons e es ih =>
      have hpos : 0 < c (e.1, e.2) :=
        Nat.lt_of_lt_of_le (List.count_pos_iff.2 (List.mem_cons_self ..)) (hle e)
      rw [← HolderTable.dec_sub_count]
      exact ih (h.freeBlock hpos) (HolderTable.count_le_dec hle)

/-! ## What one operation keeps -/

theorem new_listedOnce (config : CacheConfig) : ListedOnce (BlockManager.new config) := by
  have hcounts := counts_new config
  have hocc : ∀ x, (BlockManager.new config).occurrences x = 0 := fun x => rfl
  refine ⟨fun d b hb => ((hcounts.free d b).1 hb).1, ?_, ?_⟩
  · intro d b
    rw [hocc, Nat.add_zero]
    exact List.nodup_iff_count_le_one.1 (hcounts.nodup d) b
  · intro d b
    refine Int.le_of_eq ?_
    rw [hocc, hcounts.refCount]

theorem ListedOnce.freeBlocks (h : ListedOnce bm) (s : SeqId) : ListedOnce (bm.freeBlocks s) := by
  have hentries := Listed.freeEntries (bm.seqBlocks s) h (bm.count_seqBlocks_le_occurrences)
  refine ⟨?_, ?_, ?_⟩
  · intro d b hb
    rw [freeBlocks_freeList] at hb
    have hin := hentries.inRange d b hb
    rw [InRange, freeEntries_length] at hin
    rw [InRange, freeBlocks_length]
    exact hin
  · intro d b
    rw [freeBlocks_freeList, occurrences_freeBlocks]
    exact hentries.once d b
  · intro d b
    rw [freeBlocks_refCount, occurrences_freeBlocks]
    exact hentries.referenced d b

theorem incrementRef_freeList : (bm.incrementRef b d).freeList = bm.freeList := by
  unfold incrementRef
  split <;> simp

theorem refCount_le_incrementRef (d' : DeviceType) (b' : BlockId) :
    bm.refCount d' b' ≤ (bm.incrementRef b d).refCount d' b' := by
  cases hget : bm.getBlock b d with
  | none => simp [incrementRef, hget]
  | some blk =>
      have href : bm.refCount d b = blk.refCount := by simp [refCount, hget]
      simp only [incrementRef, hget, refCount_setBlock bm _ (inRange_of_getBlock hget)]
      split
      · next hx =>
          rw [hx.1, hx.2, href]
          omega
      · exact Int.le_refl _

theorem ListedOnce.incrementRef (h : ListedOnce bm) (b : BlockId) (d : DeviceType) :
    ListedOnce (bm.incrementRef b d) := by
  have hocc := bm.occurrences_congr (bm.incrementRef_seqBlockMap (d := d) (b := b))
  refine ⟨?_, ?_, ?_⟩
  · intro d' b' hb'
    rw [incrementRef_freeList] at hb'
    rw [InRange, incrementRef_length]
    exact h.inRange d' b' hb'
  · intro d' b'
    rw [incrementRef_freeList, hocc]
    exact h.once d' b'
  · intro d' b'
    rw [hocc]
    exact Int.le_trans (h.referenced d' b') (refCount_le_incrementRef d' b')

/-- A block that leaves its free list for the list of one sequence: what an allocation and the copying
    path share. -/
theorem ListedOnce.taken {rest : List BlockId} (h : ListedOnce bm) (hfl : bm.freeList d = b :: rest)
    (hfree : bm'.freeList = Function.update bm.freeList d rest)
    (hocc : ∀ x, bm'.occurrences x = if x = (d, b) then bm.occurrences x + 1 else bm.occurrences x)
    (href : ∀ d₁ b₁, (bm'.occurrences (d₁, b₁) : Int) ≤ bm'.refCount d₁ b₁)
    (hlen : ∀ d₁, (bm'.blocks d₁).length = (bm.blocks d₁).length) : ListedOnce bm' := by
  refine ⟨?_, ?_, href⟩
  · intro d₁ b₁ hb₁
    rw [InRange, hlen]
    rw [hfree] at hb₁
    by_cases hd : d₁ = d
    · subst hd
      rw [Function.update_self] at hb₁
      exact h.inRange d₁ b₁ (by rw [hfl]; exact List.mem_cons_of_mem _ hb₁)
    · rw [Function.update_of_ne hd] at hb₁
      exact h.inRange d₁ b₁ hb₁
  · intro d₁ b₁
    have hone := h.once d₁ b₁
    rw [hfree, hocc]
    by_cases hd : d₁ = d
    · subst hd
      rw [hfl, List.count_cons] at hone
      rw [Function.update_self]
      by_cases hb : b₁ = b
      · subst hb
        simp only [beq_self_eq_true, if_true] at hone ⊢
        omega
      · rw [if_neg (fun heq => hb (Prod.mk.inj heq).2)]
        omega
    · rw [Function.update_of_ne hd, if_neg (fun heq => hd (Prod.mk.inj heq).1)]
      exact hone

/-- Nobody lists the block on top of a free list. -/
theorem ListedOnce.occurrences_top {rest : List BlockId} (h : ListedOnce bm)
    (hfl : bm.freeList d = b :: rest) : bm.occurrences (d, b) = 0 := by
  have hone := h.once d b
  rw [hfl, List.count_cons_self] at hone
  omega

theorem ListedOnce.inRange_top {rest : List BlockId} (h : ListedOnce bm)
    (hfl : bm.freeList d = b :: rest) : bm.InRange d b :=
  h.inRange d b (by rw [hfl]; exact List.mem_cons_self ..)

theorem ListedOnce.allocateBlock (h : ListedOnce bm) (s : SeqId) (d : DeviceType) :
    ListedOnce (bm.allocateBlock s d).2 := by
  cases hfl : bm.freeList d with
  | nil =>
      rw [allocateBlock_nil bm hfl]
      exact h
  | cons b rest =>
      have hb := h.inRange_top hfl
      have ha := (allocateBlock_cons bm (s := s) hfl hb).2
      have hocc := occurrences_allocateBlock bm (s := s) hfl hb
      refine h.taken hfl ha.freeList hocc ?_ ha.length
      intro d₁ b₁
      rw [hocc, ha.refCount]
      by_cases hx : d₁ = d ∧ b₁ = b
      · rw [if_pos hx, if_pos (Prod.ext hx.1 hx.2), hx.1, hx.2, h.occurrences_top hfl]
        decide
      · rw [if_neg hx, if_neg (fun heq => hx (Prod.mk.inj heq))]
        exact h.referenced d₁ b₁

theorem occurrences_pos_of_mem (hmem : (d, b) ∈ bm.seqBlocks s) : 0 < bm.occurrences (d, b) :=
  Nat.lt_of_lt_of_le (List.count_pos_iff.2 hmem) (bm.count_seqBlocks_le_occurrences _)

/-- The copying path: it fails for want of a free block, or hands out a block nobody lists. -/
theorem ListedOnce.copyOnWrite_cases (h : ListedOnce bm)
    (hop : CowOp.Permitted bm (.copyOnWrite src s d)) (hshared : bm.refCount d src ≠ 1) :
    ((bm.copyOnWrite src s d).1 = invalidBlock ∧ (bm.copyOnWrite src s d).2 = bm) ∨
    ∃ b rest, bm.freeList d = b :: rest ∧ src ≠ b ∧ (bm.copyOnWrite src s d).1 = b ∧
      Copied bm (bm.copyOnWrite src s d).2 s d src b rest := by
  obtain ⟨hpos, s', -, -, hmem⟩ := hop
  cases hfl : bm.freeList d with
  | nil =>
      have hfail : (bm.copyOnWrite src s d).1 = invalidBlock := by
        have hone : ((bm.getBlock src d).getD {}).refCount ≠ 1 := by
          obtain ⟨blk, hget, href⟩ := bm.getBlock_of_inRange (inRange_of_refCount_pos hpos)
          rw [hget, Option.getD_some, href]
          exact hshared
        simp [copyOnWrite, hone, popFree, hfl]
      exact Or.inl ⟨hfail, copyOnWrite_fail bm (h.inRange d) hfail⟩
  | cons b rest =>
      have hne : src ≠ b := by
        rintro rfl
        exact h.not_free (occurrences_pos_of_mem hmem) (by rw [hfl]; exact List.mem_cons_self ..)
      have hcopy := copyOnWrite_copy (s := s) (inRange_of_refCount_pos hpos) (h.inRange_top hfl)
        hshared hfl hne
      exact Or.inr ⟨b, rest, rfl, hne, hcopy⟩

theorem ListedOnce.copied {rest : List BlockId} (h : ListedOnce bm) (hfl : bm.freeList d = b :: rest)
    (hne : src ≠ b) (hpos : 0 < bm.refCount d src) (hshared : bm.refCount d src ≠ 1)
    (hcopy : Copied bm bm' s d src b rest) : ListedOnce bm' := by
  refine h.taken hfl hcopy.freeList hcopy.occurrences ?_ hcopy.length
  intro d₁ b₁
  rw [hcopy.occurrences, hcopy.refCount]
  by_cases hx : d₁ = d ∧ b₁ = b
  · rw [if_pos hx, if_pos (Prod.ext hx.1 hx.2), hx.1, hx.2, h.occurrences_top hfl]
    decide
  · rw [if_neg hx, if_neg (fun heq => hx (Prod.mk.inj heq))]
    split
    · next hsrc =>
        -- the source is listed at most once and had two references
        obtain ⟨rfl, rfl⟩ := hsrc
        have hone := h.once d₁ b₁
        omega
    · exact h.referenced d₁ b₁

theorem ListedOnce.apply (h : ListedOnce bm) (op : CowOp) (hop : op.Permitted bm ∧ op.Shared bm) :
    ListedOnce (CowOp.apply bm op) := by
  cases op with
  | allocateBlock s d => exact h.allocateBlock s d
  | incrementRef b d => exact h.incrementRef b d
  | freeBlocks s => exact h.freeBlocks s
  | copyOnWrite src s d =>
      rcases h.copyOnWrite_cases hop.1 hop.2 with ⟨-, hsame⟩ | ⟨b, rest, hfl, hne, -, hcopy⟩
      · rw [CowOp.apply, hsame]
        exact h
      · exact h.copied hfl hne hop.1.1 hop.2 hcopy

/-! ## Exclusive ownership -/

/-- Sequence `s` lists the block, and no other sequence does. -/
def ListedFor (bm : BlockManager) (s : SeqId) (d : DeviceType) (b : BlockId) : Prop :=
  ∀ s', (d, b) ∈ bm.seqBlocks s' ↔ s' = s

theorem ListedFor.occurrences_pos (h : ListedFor bm s d b) : 0 < bm.occurrences (d, b) :=
  occurrences_pos_of_mem ((h s).2 rfl)

/-- A block taken from the free list for any sequence is another one. -/
theorem ListedFor.taken {d₁ : DeviceType} {b₁ : BlockId} {s₁ : SeqId} {rest : List BlockId}
    (h : ListedFor bm s d b) (hlisted : ListedOnce bm) (hfl : bm.freeList d₁ = b₁ :: rest)
    (hmap : ∀ s', bm'.seqBlocks s'
      = if s' = s₁ then bm.seqBlocks s₁ ++ [(d₁, b₁)] else bm.seqBlocks s') :
    ListedFor bm' s d b := by
  have hne : (d, b) ≠ (d₁, b₁) := by
    intro heq
    obtain ⟨rfl, rfl⟩ := Prod.mk.inj heq
    exact hlisted.not_free h.occurrences_pos (by rw [hfl]; exact List.mem_cons_self ..)
  intro s'
  rw [hmap, ← h s']
  split
  · next hs' =>
      rw [hs', List.mem_append, List.mem_singleton]
      exact or_iff_left hne
  · exact Iff.rfl

theorem ListedFor.apply (h : ListedFor bm s d b) (hlisted : ListedOnce bm) (op : CowOp)
    (hop : op.Permitted bm ∧ op.Shared bm) (hkeep : op ≠ .freeBlocks s) :
    ListedFor (CowOp.apply bm op) s d b := by
  cases op with
  | allocateBlock s₁ d₁ =>
      cases hfl : bm.freeList d₁ with
      | nil =>
          rw [CowOp.apply, allocateBlock_nil bm hfl]
          exact h
      | cons b₁ rest =>
          exact h.taken hlisted hfl
            (allocateBlock_cons bm (s := s₁) hfl (hlisted.inRange_top hfl)).2.seqBlocks
  | incrementRef b₁ d₁ =>
      intro s'
      rw [CowOp.apply, BlockManager.seqBlocks, incrementRef_seqBlockMap]
      exact h s'
  | copyOnWrite src s₁ d₁ =>
      rcases hlisted.copyOnWrite_cases hop.1 hop.2 with ⟨-, hsame⟩ | ⟨b₁, rest, hfl, -, -, hcopy⟩
      · rw [CowOp.apply, hsame]
        exact h
      · exact h.taken hlisted hfl hcopy.seqBlocks
  | freeBlocks s₁ =>
      have hs : s ≠ s₁ := fun heq => hkeep (by rw [heq])
      intro s'
      rw [CowOp.apply, freeBlocks_seqBlocks]
      split
      · next hs' =>
          subst hs'
          exact ⟨fun hmem => absurd hmem List.not_mem_nil, fun heq => absurd heq.symm hs⟩
      · exact h s'

/-! ## Runs -/

namespace CowOp

/-- What copy-on-write is to guarantee along a run: a block it returns is listed for the new sequence
    only and has one reference, and until that sequence is freed it stays so listed and off the free
    list. -/
def YieldsExclusive (bm₀ : BlockManager) (ops : List CowOp) : Prop :=
  ∀ pre src s d mid post, ops = pre ++ copyOnWrite src s d :: (mid ++ post) →
    let r := (pre.foldl apply bm₀).copyOnWrite src s d
    r.1 ≠ invalidBlock →
    ListedFor r.2 s d r.1 ∧ r.2.refCount d r.1 = 1 ∧
      (freeBlocks s ∉ mid →
        ListedFor (mid.foldl apply r.2) s d r.1 ∧ r.1 ∉ (mid.foldl apply r.2).freeList d)

/-- The result of a copy from a shared source. -/
theorem copy_listedFor (h : ListedOnce bm) (hop : Permitted bm (.copyOnWrite src s d))
    (hshared : bm.refCount d src ≠ 1) (hsome : (bm.copyOnWrite src s d).1 ≠ invalidBlock) :
    ListedFor (bm.copyOnWrite src s d).2 s d (bm.copyOnWrite src s d).1 ∧
      (bm.copyOnWrite src s d).2.refCount d (bm.copyOnWrite src s d).1 = 1 := by
  rcases h.copyOnWrite_cases hop hshared with ⟨hfail, -⟩ | ⟨b, rest, hfl, hne, hb, hcopy⟩
  · exact absurd hfail hsome
  · rw [hb]
    refine ⟨?_, ?_⟩
    · intro s'
      have hnone : ∀ s₁, (d, b) ∉ bm.seqBlocks s₁ := fun s₁ hmem => by
        have hpos := occurrences_pos_of_mem hmem
        rw [h.occurrences_top hfl] at hpos
        exact absurd hpos (by decide)
      rw [hcopy.seqBlocks]
      split
      · next hs' => simp [hs']
      · next hs' => exact ⟨fun hmem => absurd hmem (hnone s'), fun heq => absurd heq hs'⟩
    · rw [hcopy.refCount, if_pos ⟨rfl, rfl⟩]

/-- A source with one reference is returned itself and stays listed for its first sequence. -/
theorem unshared_not_listedFor (hop : Permitted bm (.copyOnWrite src s d))
    (hone : bm.refCount d src = 1) :
    (bm.copyOnWrite src s d).1 = src ∧ ¬ ListedFor (bm.copyOnWrite src s d).2 s d src := by
  obtain ⟨hpos, s', -, hs', hmem⟩ := hop
  obtain ⟨blk, hget, href⟩ := bm.getBlock_of_inRange (inRange_of_refCount_pos hpos)
  have hcow : bm.copyOnWrite src s d = (src, bm.emplaceBack s d src) := by
    rw [BlockManager.copyOnWrite, hget, Option.getD_some, href, if_pos hone]
  rw [hcow]
  refine ⟨rfl, ?_⟩
  intro hfor
  refine hs' ((hfor s').1 ?_)
  rw [emplaceBack_seqBlocks, if_neg hs']
  exact hmem

/-- **A copy is exclusive exactly when its source was shared.** In a run whose copies have a source
    with references that another sequence lists, every block that `copy_on_write` returns belongs to
    the new sequence alone until that is freed, if and only if no copy of the run finds a source with
    a single reference. -/
theorem copy_exclusive_iff (config : CacheConfig) (ops : List CowOp)
    (hops : Run.AllOk apply (fun bm op => Permitted bm op) (BlockManager.new config) ops) :
    YieldsExclusive (BlockManager.new config) ops ↔
      Run.AllOk apply (fun bm op => Shared bm op) (BlockManager.new config) ops := by
  constructor
  · intro hyield
    refine Run.allOk_of_split ?_
    intro pre op post hsplit
    rw [hsplit, Run.allOk_append] at hops
    have hop : Permitted (pre.foldl apply (BlockManager.new config)) op := hops.2.1
    cases op with
    | allocateBlock s d => trivial
    | incrementRef b d => trivial
    | freeBlocks s => trivial
    | copyOnWrite src s d =>
        intro hone
        obtain ⟨hres, hnot⟩ := unshared_not_listedFor hop hone
        have hsrc := inRange_of_refCount_pos hop.1
        have hex := hyield pre src s d [] post hsplit
        simp only [hres] at hex
        exact hnot (hex hsrc.ne_invalidBlock).1
  · intro hshared pre src s d mid post hsplit r hsome
    have hboth := Run.allOk_and.2 ⟨hops, hshared⟩
    rw [hsplit, Run.allOk_append] at hboth
    obtain ⟨hpre, hop, hrest⟩ := hboth
    have hlisted : ListedOnce (pre.foldl apply (BlockManager.new config)) :=
      hpre.invariant (new_listedOnce config) (fun _ op hbm hop => hbm.apply op hop)
    obtain ⟨hfor, hone⟩ := copy_listedFor hlisted hop.1 hop.2 hsome
    refine ⟨hfor, hone, ?_⟩
    intro hmid
    have hkeep := (Run.allOk_append.1 hrest).1.ne_of_notMem hmid
    have hend := Run.AllOk.invariant (P := fun bm => ListedOnce bm ∧ ListedFor bm s d r.1) hkeep
      ⟨hlisted.apply _ hop, hfor⟩ (fun bm op hbm hop =>
        ⟨hbm.1.apply op hop.1, hbm.2.apply hbm.1 op hop.1 hop.2⟩)
    exact ⟨hend.2, hend.1.not_free hend.2.occurrences_pos⟩

/-- A block with a second reference is copied, and its first sequence is freed. -/
def copiedBlock : List CowOp :=
  [allocateBlock 1 .cuda, incrementRef 0 .cuda, copyOnWrite 0 2 .cuda, freeBlocks 1]

theorem copiedBlock_exclusive :
    YieldsExclusive (BlockManager.new { numGpuBlocks := 2, numCpuBlocks := 1, blockSize := 4 })
      copiedBlock :=
  (copy_exclusive_iff _ _ (by decide)).2 (by decide)

/-- A block with the one reference of its sequence is copied, and its sequence is freed. -/
def handedOnBlock : List CowOp :=
  [allocateBlock 1 .cuda, copyOnWrite 0 2 .cuda, freeBlocks 1]

/-- The block is then free and listed for the second sequence. -/
theorem handedOnBlock_not_exclusive :
    let bm₀ := BlockManager.new { numGpuBlocks := 2, numCpuBlocks := 1, blockSize := 4 }
    let bm₁ := apply bm₀ (allocateBlock 1 .cuda)
    let bm₂ := handedOnBlock.foldl apply bm₀
    Run.AllOk apply (fun bm op => Permitted bm op) bm₀ handedOnBlock ∧
      (bm₁.copyOnWrite 0 2 .cuda).1 = 0 ∧
      (.cuda, 0) ∈ (bm₁.copyOnWrite 0 2 .cuda).2.seqBlocks 1 ∧
      (.cuda, 0) ∈ bm₂.seqBlocks 2 ∧ 0 ∈ bm₂.freeList .cuda ∧
      ¬ YieldsExclusive bm₀ handedOnBlock := by
  intro bm₀ bm₁ bm₂
  have hfree : 0 ∈ bm₂.freeList .cuda := by decide
  refine ⟨by decide, by decide, by decide, by decide, hfree, ?_⟩
  intro hyield
  have hex := hyield [allocateBlock 1 .cuda] 0 2 .cuda [freeBlocks 1] [] rfl (by decide)
  exact (hex.2.2 (by decide)).2 hfree

end CowOp

end CacheFlow.BlockManager
