import Mathlib

set_option autoImplicit false

/-! # Weighted sums relative to a maximum

A softmax `∑ e(s) v / ∑ e(s)` is computed with every score `s` taken relative to a maximum, so that no
exponential gets large. The maximum may be known beforehand or found on the way, in which case what has
been accumulated is rescaled whenever it grows; partial results with different maxima are brought to a
common one in the same way.

`Shifted e m a total` says that the accumulator `a` stands for the plain sum `total` relative to the
maximum `m`. Every such computation is a combination of the rules for it, and `Shifted.div` reads the
quotient of two plain sums off two accumulators with the same maximum. The maximum of nothing is `⊥`. -/

/-- A positive function that turns sums into products. -/
structure Exponential (K : Type*) [Field K] [LinearOrder K] where
  toFun : K → K
  pos : ∀ x, 0 < toFun x
  map_add : ∀ x y, toFun (x + y) = toFun x * toFun y

namespace Exponential

variable {K : Type*} [Field K] [LinearOrder K]

instance : CoeFun (Exponential K) (fun _ => K → K) := ⟨Exponential.toFun⟩

variable (e : Exponential K)

/-- The weight of a maximum, none for the maximum of nothing. -/
def weight : WithBot K → K
  | ⊥ => 0
  | (x : K) => e x

/-- The exponential of a difference of two maxima, the first at most the second. -/
def ofDiff : WithBot K → WithBot K → K
  | (x : K), (y : K) => e (x - y)
  | _, _ => 0

@[simp] theorem weight_coe (x : K) : e.weight (x : WithBot K) = e x := rfl

@[simp] theorem weight_bot : e.weight ⊥ = 0 := rfl

@[simp] theorem ofDiff_coe (x y : K) : e.ofDiff (x : WithBot K) (y : WithBot K) = e (x - y) := rfl

theorem ne_zero (x : K) : e x ≠ 0 := (e.pos x).ne'

theorem map_zero : e 0 = 1 := by
  have hmul := e.map_add 0 0
  rw [add_zero] at hmul
  exact mul_left_cancel₀ (e.ne_zero 0) (by rw [mul_one, ← hmul])

theorem weight_ne_zero {m : WithBot K} (hm : m ≠ ⊥) : e.weight m ≠ 0 := by
  obtain ⟨x, rfl⟩ := WithBot.ne_bot_iff_exists.1 hm
  exact e.ne_zero x

/-- A difference brings a weight from one maximum to another. -/
theorem ofDiff_mul_weight {m m' : WithBot K} (h : m ≤ m') : e.ofDiff m m' * e.weight m' = e.weight m := by
  cases m with
  | bot => cases m' <;> simp [ofDiff]
  | coe x =>
      cases m' with
      | bot => exact absurd h (WithBot.not_coe_le_bot x)
      | coe y => rw [ofDiff_coe, weight_coe, weight_coe, ← e.map_add, sub_add_cancel]

/-- Two steps to a larger maximum are one. -/
theorem ofDiff_mul_ofDiff {m m' m'' : WithBot K} (h : m ≤ m') (h' : m' ≤ m'') :
    e.ofDiff m m' * e.ofDiff m' m'' = e.ofDiff m m'' := by
  cases m with
  | bot => simp [ofDiff]
  | coe x =>
      obtain ⟨y, rfl⟩ := WithBot.ne_bot_iff_exists.1 (ne_bot_of_le_ne_bot WithBot.coe_ne_bot h)
      obtain ⟨z, rfl⟩ := WithBot.ne_bot_iff_exists.1 (ne_bot_of_le_ne_bot WithBot.coe_ne_bot h')
      rw [ofDiff_coe, ofDiff_coe, ofDiff_coe, ← e.map_add, sub_add_sub_cancel]

end Exponential

/-- The accumulator `a` stands for `total` relative to the maximum `m`. -/
def Shifted {K : Type*} [Field K] [LinearOrder K] (e : Exponential K) (m : WithBot K) (a total : K) :
    Prop :=
  a * e.weight m = total

namespace Shifted

variable {K : Type*} [Field K] [LinearOrder K] {e : Exponential K} {m m' : WithBot K}
  {a b total total' : K}

theorem zero (m : WithBot K) : Shifted e m 0 0 := zero_mul _

/-- One term relative to a maximum it does not exceed. -/
theorem term {s : K} (h : (s : WithBot K) ≤ m) (v : K) : Shifted e m (e.ofDiff s m * v) (e s * v) := by
  rw [Shifted, mul_right_comm, e.ofDiff_mul_weight h, e.weight_coe]

theorem add (ha : Shifted e m a total) (hb : Shifted e m b total') :
    Shifted e m (a + b) (total + total') := by
  rw [Shifted, add_mul, ha, hb]

/-- Bring an accumulator to a larger maximum. -/
theorem rescale (ha : Shifted e m a total) (h : m ≤ m') : Shifted e m' (a * e.ofDiff m m') total := by
  rw [Shifted, mul_assoc, e.ofDiff_mul_weight h, ha]

theorem sum {ι : Type*} (l : List ι) {f g : ι → K} (h : ∀ i ∈ l, Shifted e m (f i) (g i)) :
    Shifted e m (l.map f).sum (l.map g).sum := by
  induction l with
  | nil => exact zero m
  | cons i l ih =>
      have hrest := ih (fun j hj => h j (List.mem_cons_of_mem _ hj))
      simpa using (h i (List.mem_cons_self ..)).add hrest

/-- Two accumulators of one sum are equal, unless the maximum is that of nothing. -/
theorem unique (ha : Shifted e m a total) (hb : Shifted e m b total) (hm : m ≠ ⊥) : a = b :=
  mul_right_cancel₀ (e.weight_ne_zero hm) (ha.trans hb.symm)

/-- The common maximum cancels. -/
theorem div (ha : Shifted e m a total) (hb : Shifted e m b total') (hm : m ≠ ⊥) :
    a / b = total / total' := by
  rw [← ha, ← hb, mul_div_mul_right _ _ (e.weight_ne_zero hm)]

end Shifted
