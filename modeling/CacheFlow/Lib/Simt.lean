import Mathlib

set_option autoImplicit false

/-! # Loops and reductions of a block of threads

A block of threads runs one program on many lanes. Two patterns recur in such programs: a loop that
starts at the lane's own index and advances by the number of lanes, so that the lanes share the work of
one range; and a reduction in which every lane combines its value with the one of the lane whose index
differs in one bit.

`strided_tiles` says that the strided loops of all lanes visit the range once, `butterfly_eq` that a
butterfly over all bits leaves the combination of all values in every lane. -/

namespace Simt

/-! ## Accumulators -/

section Accumulators

variable {ι κ : Type*}

/-- A loop that adds one term per round. -/
theorem foldl_add {M : Type*} [AddCommMonoid M] (l : List ι) (f : ι → M) (a : M) :
    l.foldl (fun s i => s + f i) a = a + (l.map f).sum := by
  induction l generalizing a with
  | nil => simp
  | cons i l ih => simp [ih, add_assoc]

theorem sum_flatMap {M : Type*} [AddCommMonoid M] (l : List ι) (g : ι → List κ) (f : κ → M) :
    ((l.flatMap g).map f).sum = (l.map (fun i => ((g i).map f).sum)).sum := by
  induction l with
  | nil => simp
  | cons i l ih => simp [ih]

/-- Lanes from `k` on contribute nothing. -/
theorem sum_range_ite {M : Type*} [AddCommMonoid M] (f : Nat → M) {k n : Nat} (h : k ≤ n) :
    ((List.range n).map (fun i => if i < k then f i else 0)).sum = ((List.range k).map f).sum := by
  induction n with
  | zero =>
      obtain rfl : k = 0 := Nat.le_zero.1 h
      simp
  | succ n ih =>
      by_cases hk : k ≤ n
      · simp [List.range_succ, ih hk, Nat.not_lt.2 hk]
      · obtain rfl : k = n + 1 := by omega
        congr 1
        apply List.map_congr_left
        intro i hi
        rw [if_pos (List.mem_range.1 hi)]

variable {α : Type*} [LinearOrder α]

theorem maximum_append (l l' : List α) : (l ++ l').maximum = max l.maximum l'.maximum := by
  induction l with
  | nil => simp
  | cons a l ih => rw [List.cons_append, List.maximum_cons, ih, List.maximum_cons, max_assoc]

/-- A loop that keeps the maximum. -/
theorem foldl_max (l : List ι) (f : ι → α) :
    l.foldl (fun m i => max m (f i : WithBot α)) ⊥ = (l.map f).maximum := by
  induction l using List.reverseRecOn with
  | nil => rfl
  | append_singleton l i ih => simp [ih, List.maximum_concat]

/-- A loop over maxima keeps the maximum of all. -/
theorem foldl_maximum (l : List ι) (g : ι → List α) :
    l.foldl (fun m i => max m (g i).maximum) ⊥ = (l.flatMap g).maximum := by
  induction l using List.reverseRecOn with
  | nil => rfl
  | append_singleton l i ih => simp [ih, maximum_append]

/-- A loop that keeps the maximum reaches every term. -/
theorem le_foldl_max (l : List ι) (f : ι → WithBot α) {i : ι} (hi : i ∈ l) :
    f i ≤ l.foldl (fun m i => max m (f i)) ⊥ := by
  rw [← List.foldl_map, List.foldl_eq_foldr]
  exact List.le_max_of_le (List.mem_map_of_mem hi) le_rfl

end Accumulators

/-! ## Strided loops -/

/-- The values of `for (x = start; x < stop; x += step)`. -/
def strided (start stop step : Nat) : List Nat :=
  List.range' start ((stop - start + step - 1) / step) step

theorem mem_strided {start stop step x : Nat} (hstep : 1 ≤ step) :
    x ∈ strided start stop step ↔ x < stop ∧ ∃ i, x = start + step * i := by
  have hcount : ∀ i, i < (stop - start + step - 1) / step ↔ start + step * i < stop := by
    intro i
    rw [Nat.lt_iff_add_one_le, Nat.le_div_iff_mul_le hstep, Nat.add_mul, Nat.mul_comm i]
    omega
  rw [strided, List.mem_range']
  constructor
  · rintro ⟨i, hi, rfl⟩
    exact ⟨(hcount i).1 hi, i, rfl⟩
  · rintro ⟨hlt, i, rfl⟩
    exact ⟨i, (hcount i).2 hlt, rfl⟩

theorem nodup_strided (start stop : Nat) {step : Nat} (hstep : 1 ≤ step) :
    (strided start stop step).Nodup :=
  List.nodup_range' step hstep

/-- **The strided loops of `n` lanes visit the range once.** -/
theorem strided_tiles (start stop : Nat) {n : Nat} (hn : 1 ≤ n) :
    ((List.range n).flatMap (fun lane => strided (start + lane) stop n)).Perm
      (List.range' start (stop - start)) := by
  have hdisjoint : ∀ lane < n, ∀ lane' < n, ∀ x, x ∈ strided (start + lane) stop n →
      x ∈ strided (start + lane') stop n → lane = lane' := by
    intro lane hlane lane' hlane' x hx hx'
    obtain ⟨-, i, rfl⟩ := (mem_strided hn).1 hx
    obtain ⟨-, i', heq⟩ := (mem_strided hn).1 hx'
    -- the lane is the remainder
    have hmod : ∀ l < n, ∀ k, (l + n * k) % n = l := by
      intro l hl k
      rw [Nat.add_mul_mod_self_left, Nat.mod_eq_of_lt hl]
    rw [← hmod lane hlane i, ← hmod lane' hlane' i']
    congr 1
    omega
  have hnodup : ((List.range n).flatMap (fun lane => strided (start + lane) stop n)).Nodup := by
    refine List.nodup_flatMap.2 ⟨fun lane _ => nodup_strided _ _ hn, ?_⟩
    refine List.nodup_range.imp_of_mem ?_
    intro lane lane' hlane hlane' hne x hx hx'
    exact hne (hdisjoint lane (List.mem_range.1 hlane) lane' (List.mem_range.1 hlane') x hx hx')
  refine (List.perm_ext_iff_of_nodup hnodup List.nodup_range').2 (fun x => ?_)
  rw [List.mem_flatMap, List.mem_range'_1]
  constructor
  · rintro ⟨lane, -, hx⟩
    obtain ⟨hlt, i, rfl⟩ := (mem_strided hn).1 hx
    omega
  · rintro ⟨hle, hlt⟩
    refine ⟨(x - start) % n, List.mem_range.2 (Nat.mod_lt _ hn), (mem_strided hn).2 ⟨?_, ?_⟩⟩
    · omega
    · refine ⟨(x - start) / n, ?_⟩
      have hdiv := Nat.mod_add_div (x - start) n
      omega

/-! ## A range visited block by block -/

/-- The elements of the block `blk` between `start` and `stop`, as block and offset. -/
def blockSlice (size start stop blk : Nat) : List (Nat × Nat) :=
  ((List.range size).filter (fun off =>
    start ≤ blk * size + off ∧ blk * size + off < stop)).map (fun off => (blk, off))

theorem mem_blockSlice {size start stop blk : Nat} {t : Nat × Nat} :
    t ∈ blockSlice size start stop blk ↔
      t.1 = blk ∧ t.2 < size ∧ start ≤ t.1 * size + t.2 ∧ t.1 * size + t.2 < stop := by
  simp only [blockSlice, List.mem_map, List.mem_filter, List.mem_range, decide_eq_true_eq]
  constructor
  · rintro ⟨off, ⟨hoff, hlow, hhigh⟩, rfl⟩
    exact ⟨rfl, hoff, hlow, hhigh⟩
  · rintro ⟨rfl, hoff, hlow, hhigh⟩
    exact ⟨t.2, ⟨hoff, hlow, hhigh⟩, rfl⟩

/-- Stopping a loop at the end of the context visits what skipping the rest visits. -/
theorem takeWhile_eq_filter {α : Type*} (q : α → Bool) (l : List α)
    (h : l.Pairwise (fun a b => q b = true → q a = true)) : l.takeWhile q = l.filter q := by
  induction l with
  | nil => rfl
  | cons a l ih =>
      obtain ⟨ha, hl⟩ := List.pairwise_cons.1 h
      by_cases hqa : q a = true
      · rw [List.takeWhile_cons_of_pos hqa, List.filter_cons_of_pos hqa, ih hl]
      · rw [List.takeWhile_cons_of_neg hqa, List.filter_cons_of_neg hqa, eq_comm,
          List.filter_eq_nil_iff]
        exact fun b hb hqb => hqa (ha b hb hqb)

/-- Block and offset determine the element. -/
theorem block_offset_inj {size : Nat} {t t' : Nat × Nat} (ht : t.2 < size) (ht' : t'.2 < size)
    (h : t.1 * size + t.2 = t'.1 * size + t'.2) : t = t' := by
  have hblock : ∀ u : Nat × Nat, u.2 < size → (u.1 * size + u.2) / size = u.1 := by
    intro u hu
    rw [Nat.add_comm, Nat.add_mul_div_right _ _ (Nat.zero_lt_of_lt hu), Nat.div_eq_of_lt hu,
      Nat.zero_add]
  have hfst : t.1 = t'.1 := by
    rw [← hblock t ht, ← hblock t' ht', h]
  refine Prod.ext hfst ?_
  rw [hfst] at h
  omega

/-- The blocks of a range visit it once. -/
theorem blockSlice_tiles (start stop : Nat) {size : Nat} (hsize : 1 ≤ size) :
    (((List.range' (start / size) ((stop + size - 1) / size - start / size)).flatMap
      (blockSlice size start stop)).map (fun t => t.1 * size + t.2)).Perm
      (List.range' start (stop - start)) := by
  have hnodup : ((List.range' (start / size) ((stop + size - 1) / size - start / size)).flatMap
      (blockSlice size start stop)).Nodup := by
    refine List.nodup_flatMap.2 ⟨fun blk _ => ?_, List.Pairwise.imp ?_ List.nodup_range'⟩
    · exact (List.nodup_range.filter _).map (fun _ _ h => (Prod.mk.inj h).2)
    · intro blk blk' hne t ht ht'
      exact hne ((mem_blockSlice.1 ht).1.symm.trans (mem_blockSlice.1 ht').1)
  have hinj := hnodup.map_on (f := fun t : Nat × Nat => t.1 * size + t.2) (by
    intro t ht t' ht' heq
    obtain ⟨blk, -, ht⟩ := List.mem_flatMap.1 ht
    obtain ⟨blk', -, ht'⟩ := List.mem_flatMap.1 ht'
    exact block_offset_inj (mem_blockSlice.1 ht).2.1 (mem_blockSlice.1 ht').2.1 heq)
  refine (List.perm_ext_iff_of_nodup hinj List.nodup_range').2 (fun x => ?_)
  rw [List.mem_map, List.mem_range'_1]
  constructor
  · rintro ⟨t, ht, rfl⟩
    obtain ⟨blk, -, ht⟩ := List.mem_flatMap.1 ht
    obtain ⟨-, -, hlow, hhigh⟩ := mem_blockSlice.1 ht
    omega
  · rintro ⟨hlow, hhigh⟩
    have hstop : x < stop := by omega
    have hx : x / size * size + x % size = x := Nat.div_add_mod' x size
    refine ⟨(x / size, x % size), List.mem_flatMap.2 ⟨x / size, List.mem_range'_1.2 ?_,
      mem_blockSlice.2 ⟨rfl, Nat.mod_lt x hsize, ?_, ?_⟩⟩, hx⟩
    · have hfirst : start / size ≤ x / size := Nat.div_le_div_right hlow
      have hlast : x / size < (stop + size - 1) / size := by
        rw [Nat.lt_iff_add_one_le, Nat.le_div_iff_mul_le hsize, Nat.add_mul]
        omega
      omega
    · simpa only [hx] using hlow
    · simpa only [hx] using hstop

/-- **The warps of a thread block visit a range once**, when each takes every `n`-th block of it. -/
theorem strided_blocks_tile (start stop : Nat) {size n : Nat} (hsize : 1 ≤ size) (hn : 1 ≤ n) :
    (((List.range n).flatMap (fun warp =>
      (strided (start / size + warp) ((stop + size - 1) / size) n).flatMap
        (blockSlice size start stop))).map (fun t => t.1 * size + t.2)).Perm
      (List.range' start (stop - start)) := by
  have hblocks := (strided_tiles (start / size) ((stop + size - 1) / size) hn).flatMap_right
    (blockSlice size start stop)
  rw [List.flatMap_assoc] at hblocks
  exact (hblocks.map _).trans (blockSlice_tiles start stop hsize)

/-! ## A range cut into parts -/

/-- An element is in the part its quotient names. -/
theorem mem_part {size stop part x : Nat} (hsize : 1 ≤ size) :
    x ∈ List.range' (part * size) (min (part * size + size) stop - part * size) ↔
      x < stop ∧ x / size = part := by
  rw [List.mem_range'_1, Nat.div_eq_iff hsize]
  omega

/-- **The parts of a range make it up**, if there are enough of them. -/
theorem parts_tile (stop : Nat) {size n : Nat} (hsize : 1 ≤ size) (hn : (stop + size - 1) / size ≤ n) :
    ((List.range n).flatMap (fun part =>
      List.range' (part * size) (min (part * size + size) stop - part * size))).Perm
      (List.range stop) := by
  have hnodup : ((List.range n).flatMap (fun part =>
      List.range' (part * size) (min (part * size + size) stop - part * size))).Nodup := by
    refine List.nodup_flatMap.2 ⟨fun part _ => List.nodup_range', List.nodup_range.imp ?_⟩
    intro part part' hne x hx hx'
    exact hne (((mem_part hsize).1 hx).2.symm.trans ((mem_part hsize).1 hx').2)
  refine (List.perm_ext_iff_of_nodup hnodup List.nodup_range).2 (fun x => ?_)
  simp only [List.mem_flatMap, mem_part hsize, List.mem_range]
  constructor
  · rintro ⟨part, -, hx, -⟩
    exact hx
  · intro hx
    have hlast : x / size < (stop + size - 1) / size := by
      rw [Nat.lt_iff_add_one_le, Nat.le_div_iff_mul_le hsize, Nat.add_mul]
      have hdiv := Nat.div_mul_le_self x size
      omega
    exact ⟨x / size, Nat.lt_of_lt_of_le hlast hn, hx, rfl⟩

/-! ## Butterflies -/

section Butterfly

variable {α : Type*} (op : α → α → α)

/-- One round: every lane combines its value with the one of the lane across. -/
def exchange (f : Nat → α) (offset : Nat) : Nat → α := fun lane => op (f lane) (f (lane ^^^ offset))

/-- The rounds of a butterfly, the first offset first. -/
def butterfly (offsets : List Nat) (f : Nat → α) : Nat → α := offsets.foldl (exchange op) f

/-- The lanes whose values a lane has combined after rounds with these offsets, the last one first. -/
def reached : List Nat → Nat → List Nat
  | [], lane => [lane]
  | offset :: rest, lane => reached rest lane ++ reached rest (lane ^^^ offset)

theorem reached_xor (offsets : List Nat) (a lane : Nat) :
    reached offsets (a ^^^ lane) = (reached offsets lane).map (a ^^^ ·) := by
  induction offsets generalizing lane with
  | nil => rfl
  | cons offset rest ih => rw [reached, Nat.xor_assoc, ih, ih, reached, List.map_append]

/-- Rounds that reach every lane from lane 0 do so from every lane. -/
theorem reached_perm {offsets : List Nat} {k lane : Nat}
    (h : (reached offsets 0).Perm (List.range (2 ^ k))) (hlane : lane < 2 ^ k) :
    (reached offsets lane).Perm (List.range (2 ^ k)) := by
  have hmap := h.map (lane ^^^ ·)
  rw [← reached_xor, Nat.xor_zero] at hmap
  refine hmap.trans ?_
  have hnodup : ((List.range (2 ^ k)).map (lane ^^^ ·)).Nodup :=
    List.nodup_range.map (Nat.xor_right_injective)
  refine (List.subperm_of_subset hnodup ?_).perm_of_length_le (by simp)
  intro x hx
  obtain ⟨y, hy, rfl⟩ := List.mem_map.1 hx
  exact List.mem_range.2 (Nat.xor_lt_two_pow hlane (List.mem_range.1 hy))

variable {op} [Std.Associative op]

theorem butterfly_reached {e : α} [hid : Std.LawfulIdentity op e] (offsets : List Nat) (f : Nat → α)
    (lane : Nat) :
    butterfly op offsets f lane
      = ((reached offsets.reverse lane).map f).foldr op e := by
  induction offsets using List.reverseRecOn generalizing lane with
  | nil => simp [butterfly, reached, hid.right_id]
  | append_singleton offsets offset ih =>
      have hround : butterfly op (offsets ++ [offset]) f lane
          = op (butterfly op offsets f lane) (butterfly op offsets f (lane ^^^ offset)) := by
        simp [butterfly, exchange]
      have hfold : ∀ l l' : List α, (l ++ l').foldr op e = op (l.foldr op e) (l'.foldr op e) := by
        intro l l'
        induction l with
        | nil => simp [hid.left_id]
        | cons a l ih' => simp [ih', Std.Associative.assoc]
      rw [hround, ih, ih, List.reverse_concat, reached, List.map_append, hfold]

/-- **A butterfly leaves the combination of all values in every lane**, if its rounds reach every lane
    once. -/
theorem butterfly_eq [Std.Commutative op] {e : α} [hid : Std.LawfulIdentity op e]
    {offsets : List Nat} {n lane : Nat} (f : Nat → α)
    (h : (reached offsets.reverse lane).Perm (List.range n)) :
    butterfly op offsets f lane = ((List.range n).map f).foldr op e := by
  have hassoc : ∀ a b c, op (op a b) c = op a (op b c) := Std.Associative.assoc
  have hcomm : ∀ a b, op a b = op b a := Std.Commutative.comm
  have : LeftCommutative op := ⟨fun a b c => by rw [← hassoc, hcomm a b, hassoc]⟩
  rw [butterfly_reached (e := e) offsets f lane]
  exact (h.map f).foldr_eq e

end Butterfly

end Simt
