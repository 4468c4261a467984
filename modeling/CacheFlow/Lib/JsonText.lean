import CacheFlow.Lib.Json
import CacheFlow.Lib.Utf8

set_option autoImplicit false

/-! # JSON texts

From bytes to tokens. A text is well-formed UTF-8; between two tokens there can be white space; a string has
no control characters, quotes or backslashes unless they are escaped; a number has no leading zeros.

A text put together from pieces is read as those pieces exactly if every string can stand between quotes as it
is, and every number is one (`parseText_pieces`). The hard part is that no other string is read back as itself:
an escape sequence is longer than what it stands for, and a quote in the string ends it
(`string_eq_some_iff`). -/

namespace Json

/-! ## Strings -/

def hexDigit (b : UInt8) : Option Nat :=
  if 0x30 ≤ b ∧ b ≤ 0x39 then some (b.toNat - 0x30)
  else if 0x41 ≤ b ∧ b ≤ 0x46 then some (b.toNat - 0x37)
  else if 0x61 ≤ b ∧ b ≤ 0x66 then some (b.toNat - 0x57)
  else none

def hex4 : List UInt8 → Option (Nat × List UInt8)
  | a :: b :: c :: d :: r => do
    let a ← hexDigit a
    let b ← hexDigit b
    let c ← hexDigit c
    let d ← hexDigit d
    some (((a * 16 + b) * 16 + c) * 16 + d, r)
  | _ => none

/-- What follows `\u`: a character, or the two halves of a surrogate pair with another `\u` between them. -/
def unicode (bs : List UInt8) : Option (List UInt8 × List UInt8) := do
  let (u, r) ← hex4 bs
  if 0xD800 ≤ u ∧ u < 0xDC00 then
    if r.take 2 = [0x5C, 0x75] then do
      let (l, r) ← hex4 (r.drop 2)
      if 0xDC00 ≤ l ∧ l < 0xE000 then
        some (String.utf8EncodeChar (Char.ofNat (0x10000 + (u - 0xD800) * 0x400 + (l - 0xDC00))), r)
      else none
    else none
  else if 0xDC00 ≤ u ∧ u < 0xE000 then none
  else some (String.utf8EncodeChar (Char.ofNat u), r)

/-- What follows a backslash. -/
def unescape : List UInt8 → Option (List UInt8 × List UInt8)
  | [] => none
  | b :: r =>
    if b = 0x22 ∨ b = 0x5C ∨ b = 0x2F then some ([b], r)
    else if b = 0x62 then some ([0x08], r)
    else if b = 0x66 then some ([0x0C], r)
    else if b = 0x6E then some ([0x0A], r)
    else if b = 0x72 then some ([0x0D], r)
    else if b = 0x74 then some ([0x09], r)
    else if b = 0x75 then unicode r
    else none

/-- What follows the opening quote. -/
def string : Nat → List UInt8 → Option (List UInt8 × List UInt8)
  | 0, _ => none
  | _ + 1, [] => none
  | n + 1, b :: r =>
    if b = 0x22 then some ([], r)
    else if b = 0x5C then do
      let (x, r) ← unescape r
      let (s, r) ← string n r
      some (x ++ s, r)
    else if b < 0x20 then none
    else do
      let (s, r) ← string n r
      some (b :: s, r)

/-- Bytes that stand for themselves in a string. -/
def Plain (s : List UInt8) : Prop := ∀ b ∈ s, b ≠ 0x22 ∧ b ≠ 0x5C ∧ ¬ b < 0x20

instance (s : List UInt8) : Decidable (Plain s) :=
  decidable_of_iff (s.all (fun b => b ≠ 0x22 ∧ b ≠ 0x5C ∧ ¬ b < 0x20)) (by simp [Plain])

theorem hexDigit_ne_quote {b : UInt8} {n : Nat} (h : hexDigit b = some n) : b ≠ 0x22 := by
  rintro rfl
  cases h

theorem hex4_spec {bs r : List UInt8} {u : Nat} (h : hex4 bs = some (u, r)) :
    ∃ e, bs = e ++ r ∧ e.length = 4 ∧ 0x22 ∉ e := by
  unfold hex4 at h
  split at h
  · next a b c d r' =>
      simp only [Option.bind_eq_bind, Option.bind_eq_some_iff, Option.some.injEq, Prod.mk.injEq] at h
      obtain ⟨a', ha, b', hb, c', hc, d', hd, -, rfl⟩ := h
      refine ⟨[a, b, c, d], rfl, rfl, ?_⟩
      simp [(hexDigit_ne_quote ha).symm, (hexDigit_ne_quote hb).symm, (hexDigit_ne_quote hc).symm,
        (hexDigit_ne_quote hd).symm]
  · cases h

theorem length_utf8EncodeChar_le (c : Char) : (String.utf8EncodeChar c).length ≤ 4 := by
  rw [String.length_utf8EncodeChar]
  exact c.utf8Size_le_four

theorem unicode_spec {bs x r : List UInt8} (h : unicode bs = some (x, r)) :
    ∃ e, bs = e ++ r ∧ x.length ≤ e.length ∧ 0x22 ∉ e := by
  unfold unicode at h
  simp only [Option.bind_eq_bind, Option.bind_eq_some_iff] at h
  obtain ⟨⟨u, mid⟩, hu, h⟩ := h
  obtain ⟨e, rfl, hlen, hquote⟩ := hex4_spec hu
  dsimp only at h
  split_ifs at h with hhigh hsep hlow
  · simp only [Option.bind_eq_some_iff] at h
    obtain ⟨⟨l, mid'⟩, hl, h⟩ := h
    obtain ⟨e', hdrop, hlen', hquote'⟩ := hex4_spec hl
    dsimp only at h
    split_ifs at h
    simp only [Option.some.injEq, Prod.mk.injEq] at h
    obtain ⟨rfl, rfl⟩ := h
    have hmid : mid = [0x5C, 0x75] ++ (e' ++ mid') := by rw [← hsep, ← hdrop, List.take_append_drop]
    refine ⟨e ++ [0x5C, 0x75] ++ e', by simp [hmid], ?_, ?_⟩
    · have hle := length_utf8EncodeChar_le (Char.ofNat (0x10000 + (u - 0xD800) * 0x400 + (l - 0xDC00)))
      simp only [List.length_append]
      omega
    · simp [hquote, hquote']
  · simp only [Option.some.injEq, Prod.mk.injEq] at h
    obtain ⟨rfl, rfl⟩ := h
    have hle := length_utf8EncodeChar_le (Char.ofNat u)
    exact ⟨e, rfl, by omega, hquote⟩

/-- An escape sequence without its backslash is not shorter than what it stands for, and has no quote unless
    it stands for one. -/
theorem unescape_spec {bs x r : List UInt8} (h : unescape bs = some (x, r)) :
    (bs = 0x22 :: r ∧ x = [0x22]) ∨ ∃ e, bs = e ++ r ∧ x.length ≤ e.length ∧ 0x22 ∉ e := by
  cases bs with
  | nil => cases h
  | cons b bs =>
      rw [unescape] at h
      by_cases hquote : b = 0x22
      · subst hquote
        cases h
        exact Or.inl ⟨rfl, rfl⟩
      · refine Or.inr ?_
        have hsingle : ∀ y : UInt8, some ([y], bs) = some (x, r) →
            ∃ e, b :: bs = e ++ r ∧ x.length ≤ e.length ∧ 0x22 ∉ e := by
          intro y hy
          cases hy
          exact ⟨[b], rfl, by simp, by simpa using Ne.symm hquote⟩
        split_ifs at h
        · exact hsingle _ h
        · exact hsingle _ h
        · exact hsingle _ h
        · exact hsingle _ h
        · exact hsingle _ h
        · exact hsingle _ h
        · obtain ⟨e, rfl, hlen, he⟩ := unicode_spec h
          refine ⟨b :: e, rfl, by simp only [List.length_cons]; omega, ?_⟩
          simpa [he] using Ne.symm hquote

/-- What ends before a quote is part of what stands before the quote. -/
theorem append_split {a rest e r : List UInt8} (h : a ++ 0x22 :: rest = e ++ r) (he : 0x22 ∉ e) :
    ∃ c, a = e ++ c ∧ r = c ++ 0x22 :: rest := by
  obtain ⟨c, rfl, hc⟩ | ⟨c, rfl, hc⟩ := List.append_eq_append_iff.1 h
  · cases c with
    | nil => exact ⟨[], by simp, by simpa using hc.symm⟩
    | cons x c =>
        obtain ⟨rfl, -⟩ := List.cons.inj hc
        exact absurd (List.mem_append_right _ (List.mem_cons_self ..)) he
  · exact ⟨c, rfl, hc⟩

/-- The two ways to read on before a quote. -/
theorem string_cons_cases {n : Nat} {b : UInt8} {bs d r : List UInt8} (hb : b ≠ 0x22)
    (h : string (n + 1) (b :: bs) = some (d, r)) :
    (∃ x mid s, unescape bs = some (x, mid) ∧ string n mid = some (s, r) ∧ d = x ++ s) ∨
      ∃ s, b ≠ 0x5C ∧ ¬ b < 0x20 ∧ string n bs = some (s, r) ∧ d = b :: s := by
  rw [string, if_neg hb] at h
  by_cases hback : b = 0x5C
  · rw [if_pos hback] at h
    simp only [Option.bind_eq_bind, Option.bind_eq_some_iff] at h
    obtain ⟨⟨x, mid⟩, hx, ⟨s, mid'⟩, hs, heq⟩ := h
    simp only [Option.some.injEq, Prod.mk.injEq] at heq
    obtain ⟨rfl, rfl⟩ := heq
    exact Or.inl ⟨x, mid, s, hx, hs, rfl⟩
  · rw [if_neg hback] at h
    split_ifs at h with hcontrol
    simp only [Option.bind_eq_bind, Option.bind_eq_some_iff] at h
    obtain ⟨⟨s, mid⟩, hs, heq⟩ := h
    simp only [Option.some.injEq, Prod.mk.injEq] at heq
    obtain ⟨rfl, rfl⟩ := heq
    exact Or.inr ⟨s, hback, hcontrol, hs, rfl⟩

/-- Reading up to the first quote. Either it ends the string: then the result is not longer than what was
    read, and as long only if nothing was escaped. Or it is escaped: then the result has a quote before. -/
theorem string_spec {n : Nat} {a rest d r : List UInt8} (ha : 0x22 ∉ a)
    (h : string n (a ++ 0x22 :: rest) = some (d, r)) :
    (r = rest ∧ d.length ≤ a.length ∧ (d.length = a.length → Plain a ∧ d = a)) ∨
      ∃ i < a.length, d[i]? = some 0x22 := by
  induction n generalizing a rest d r with
  | zero => cases h
  | succ n ih =>
      cases a with
      | nil =>
          cases h
          exact Or.inl ⟨rfl, Nat.le_refl _, fun _ => ⟨List.forall_mem_nil _, rfl⟩⟩
      | cons b a =>
          obtain ⟨hb, ha⟩ := List.ne_and_not_mem_of_not_mem_cons ha
          obtain ⟨x, mid, s, hx, hs, rfl⟩ | ⟨s, hback, hcontrol, hs, rfl⟩ := string_cons_cases (Ne.symm hb) h
          · obtain ⟨hquote, rfl⟩ | ⟨e, he, hlen, hquote⟩ := unescape_spec hx
            · -- the quote after `a` is escaped, since `a` has none
              exact Or.inr ⟨0, Nat.succ_pos _, rfl⟩
            · -- the escape sequence ends before the quote
              obtain ⟨c, rfl, rfl⟩ := append_split he hquote
              obtain ⟨hr, hle, -⟩ | ⟨i, hi, hget⟩ := ih (fun hc => ha (List.mem_append_right _ hc)) hs
              · refine Or.inl ⟨hr, ?_, ?_⟩
                · simp only [List.length_append, List.length_cons]
                  omega
                · -- a backslash and at least the bytes it stands for are longer than these
                  intro hlen'
                  simp only [List.length_append, List.length_cons] at hlen'
                  omega
              · refine Or.inr ⟨x.length + i, ?_, ?_⟩
                · simp only [List.length_append, List.length_cons]
                  omega
                · rw [List.getElem?_append_right (Nat.le_add_right _ _), Nat.add_sub_cancel_left]
                  exact hget
          · obtain ⟨hr, hle, hplain⟩ | ⟨i, hi, hget⟩ := ih ha hs
            · refine Or.inl ⟨hr, by simpa using hle, ?_⟩
              intro hlen
              obtain ⟨hplain, rfl⟩ := hplain (by simpa using hlen)
              refine ⟨?_, rfl⟩
              intro y hy
              rcases List.mem_cons.1 hy with rfl | hy
              · exact ⟨Ne.symm hb, hback, hcontrol⟩
              · exact hplain y hy
            · exact Or.inr ⟨i + 1, by simpa using hi, by simpa using hget⟩

theorem string_plain {n : Nat} {s rest : List UInt8} (hs : Plain s) (hn : s.length < n) :
    string n (s ++ 0x22 :: rest) = some (s, rest) := by
  induction s generalizing n with
  | nil =>
      cases n with
      | zero => cases hn
      | succ n => rfl
  | cons b s ih =>
      cases n with
      | zero => cases hn
      | succ n =>
          obtain ⟨hquote, hback, hcontrol⟩ := hs b (List.mem_cons_self ..)
          rw [List.cons_append, string, if_neg hquote, if_neg hback, if_neg hcontrol,
            ih (fun y hy => hs y (List.mem_cons_of_mem _ hy)) (by simpa using hn)]
          rfl

/-- **A string is read back as itself only if it is plain.** -/
theorem string_eq_some_iff {n : Nat} {s rest r : List UInt8} (hn : s.length < n) :
    string n (s ++ 0x22 :: rest) = some (s, r) ↔ Plain s ∧ r = rest := by
  constructor
  · intro h
    by_cases hquote : 0x22 ∈ s
    · -- the first quote of `s` would have to end the string or be escaped
      obtain ⟨a, b, heq, ha⟩ := List.eq_append_cons_of_mem hquote
      rw [heq, List.append_assoc, List.cons_append] at h
      obtain ⟨-, hle, -⟩ | ⟨i, hi, hget⟩ := string_spec ha h
      · simp only [List.length_append, List.length_cons] at hle
        omega
      · rw [List.getElem?_append_left hi] at hget
        exact absurd (List.mem_of_getElem? hget) ha
    · obtain ⟨hr, -, hplain⟩ | ⟨i, -, hget⟩ := string_spec hquote h
      · exact ⟨(hplain rfl).1, hr⟩
      · exact absurd (List.mem_of_getElem? hget) hquote
  · rintro ⟨hplain, rfl⟩
    exact string_plain hplain hn

/-! ## Numbers -/

def isDigit (b : UInt8) : Bool := 0x30 ≤ b && b ≤ 0x39

def isDigits (ds : List UInt8) : Bool := !ds.isEmpty && ds.all isDigit

/-- Digits without a leading zero. -/
def isInt (ds : List UInt8) : Bool := isDigits ds && (ds = [0x30] || ds.head? ≠ some 0x30)

def isSign (b : UInt8) : Bool := b = 0x2B || b = 0x2D

/-- Nothing, or an exponent. -/
def isExponent : List UInt8 → Bool
  | [] => true
  | b :: r => (b = 0x65 || b = 0x45) && (isDigits r || (r.head?.any isSign && isDigits r.tail))

/-- Nothing, or a fraction, an exponent or both. -/
def isFraction : List UInt8 → Bool
  | [] => true
  | b :: r =>
    if b = 0x2E then isDigits (r.takeWhile isDigit) && isExponent (r.dropWhile isDigit)
    else isExponent (b :: r)

def isUnsigned (t : List UInt8) : Bool := isInt (t.takeWhile isDigit) && isFraction (t.dropWhile isDigit)

def isNumber : List UInt8 → Bool
  | [] => false
  | b :: r => if b = 0x2D then isUnsigned r else isUnsigned (b :: r)

/-- The bytes of numbers. -/
def isNumberByte (b : UInt8) : Bool :=
  isDigit b || isSign b || b = 0x2E || b = 0x65 || b = 0x45

theorem isNumberByte_of_isDigit {b : UInt8} (h : isDigit b) : isNumberByte b := by
  simp [isNumberByte, h]

theorem isNumberByte_of_isDigits {ds : List UInt8} (h : isDigits ds) : ∀ b ∈ ds, isNumberByte b := by
  intro b hb
  simp only [isDigits, Bool.and_eq_true, List.all_eq_true] at h
  exact isNumberByte_of_isDigit (h.2 b hb)

theorem isNumberByte_of_isExponent {t : List UInt8} (h : isExponent t) : ∀ b ∈ t, isNumberByte b := by
  cases t with
  | nil => exact List.forall_mem_nil _
  | cons e r =>
      simp only [isExponent, Bool.and_eq_true, Bool.or_eq_true, decide_eq_true_eq] at h
      obtain ⟨he, hr⟩ := h
      intro b hb
      rcases List.mem_cons.1 hb with rfl | hb
      · rcases he with rfl | rfl <;> decide
      · rcases hr with hr | ⟨hsign, hr⟩
        · exact isNumberByte_of_isDigits hr b hb
        · cases r with
          | nil => cases hb
          | cons y r =>
              rcases List.mem_cons.1 hb with rfl | hb
              · have hy : isSign b := by simpa using hsign
                simp [isNumberByte, hy]
              · exact isNumberByte_of_isDigits hr b hb

theorem isNumberByte_of_isFraction {t : List UInt8} (h : isFraction t) : ∀ b ∈ t, isNumberByte b := by
  cases t with
  | nil => exact List.forall_mem_nil _
  | cons y r =>
      rw [isFraction] at h
      split at h
      · next hdot =>
          rw [Bool.and_eq_true] at h
          intro b hb
          rcases List.mem_cons.1 hb with rfl | hb
          · rw [hdot]
            decide
          · rw [← List.takeWhile_append_dropWhile (p := isDigit) (l := r)] at hb
            rcases List.mem_append.1 hb with hb | hb
            · exact isNumberByte_of_isDigits h.1 b hb
            · exact isNumberByte_of_isExponent h.2 b hb
      · exact isNumberByte_of_isExponent h

/-- A number has bytes of numbers only, and starts with a digit or a minus sign. -/
theorem isNumber_spec {t : List UInt8} (h : isNumber t) :
    (∀ b ∈ t, isNumberByte b) ∧ ∃ b r, t = b :: r ∧ (b = 0x2D ∨ isDigit b) := by
  have hunsigned : ∀ r, isUnsigned r → (∀ b ∈ r, isNumberByte b) ∧ ∃ b r', r = b :: r' ∧ isDigit b := by
    intro r hr
    rw [isUnsigned, isInt, Bool.and_eq_true, Bool.and_eq_true] at hr
    obtain ⟨⟨hds, -⟩, hfrac⟩ := hr
    constructor
    · intro b hb
      rw [← List.takeWhile_append_dropWhile (p := isDigit) (l := r)] at hb
      rcases List.mem_append.1 hb with hb | hb
      · exact isNumberByte_of_isDigits hds b hb
      · exact isNumberByte_of_isFraction hfrac b hb
    · cases r with
      | nil => simp [isDigits] at hds
      | cons b r =>
          refine ⟨b, r, rfl, ?_⟩
          by_contra hb
          simp [isDigits, hb] at hds
  cases t with
  | nil => cases h
  | cons b r =>
      rw [isNumber] at h
      split at h
      · next hminus =>
          refine ⟨?_, b, r, rfl, Or.inl hminus⟩
          intro y hy
          rcases List.mem_cons.1 hy with rfl | hy
          · rw [hminus]
            decide
          · exact (hunsigned r h).1 y hy
      · obtain ⟨hall, b', r', heq, hdigit⟩ := hunsigned _ h
        exact ⟨hall, b', r', heq, Or.inr hdigit⟩

theorem isUnsigned_append {ds r : List UInt8} (hds : isInt ds) (hr : isFraction r)
    (hdigit : ¬ r.head?.any isDigit) : isUnsigned (ds ++ r) := by
  have hall : ∀ b ∈ ds, isDigit b := by
    rw [isInt, isDigits, Bool.and_eq_true, Bool.and_eq_true, List.all_eq_true] at hds
    exact hds.1.2
  have hsplit : r.takeWhile isDigit = [] ∧ r.dropWhile isDigit = r := by
    cases r with
    | nil => exact ⟨rfl, rfl⟩
    | cons b r =>
        have hb : ¬ isDigit b := by simpa using hdigit
        exact ⟨List.takeWhile_cons_of_neg hb, List.dropWhile_cons_of_neg hb⟩
  rw [isUnsigned, List.takeWhile_append_of_pos hall, List.dropWhile_append_of_pos hall, hsplit.1, hsplit.2,
    List.append_nil, hds, hr]
  rfl

theorem isNumber_of_isUnsigned {t : List UInt8} (h : isUnsigned t) :
    isNumber t ∧ isNumber (0x2D :: t) := by
  refine ⟨?_, h⟩
  cases t with
  | nil => cases h
  | cons b r =>
      rw [isNumber, if_neg]
      · exact h
      · rintro rfl
        cases h

/-! ## Tokens -/

inductive Punct where
  | lbracket
  | rbracket
  | lbrace
  | rbrace
  | comma
  | colon
  deriving DecidableEq, Repr

def Punct.token : Punct → Token
  | .lbracket => .lbracket
  | .rbracket => .rbracket
  | .lbrace => .lbrace
  | .rbrace => .rbrace
  | .comma => .comma
  | .colon => .colon

def Punct.byte : Punct → UInt8
  | .lbracket => 0x5B
  | .rbracket => 0x5D
  | .lbrace => 0x7B
  | .rbrace => 0x7D
  | .comma => 0x2C
  | .colon => 0x3A

def punct (b : UInt8) : Option Token :=
  if b = 0x5B then some .lbracket
  else if b = 0x5D then some .rbracket
  else if b = 0x7B then some .lbrace
  else if b = 0x7D then some .rbrace
  else if b = 0x2C then some .comma
  else if b = 0x3A then some .colon
  else none

def isSpace (b : UInt8) : Bool := b = 0x20 || b = 0x09 || b = 0x0A || b = 0x0D

/-- A literal name. -/
def word (w : List UInt8) (t : Token) (bs : List UInt8) : Option (Token × List UInt8) :=
  if bs.take w.length = w then some (t, bs.drop w.length) else none

def number (bs : List UInt8) : Option (Token × List UInt8) :=
  if isNumber (bs.takeWhile isNumberByte) then
    some (.num (bs.takeWhile isNumberByte), bs.dropWhile isNumberByte)
  else none

/-- One token, without white space before it. -/
def token : List UInt8 → Option (Token × List UInt8)
  | [] => none
  | b :: r =>
    match punct b with
    | some t => some (t, r)
    | none =>
      if b = 0x22 then (string (r.length + 1) r).map (fun p => (.str p.1, p.2))
      else if b = 0x6E then word [0x6E, 0x75, 0x6C, 0x6C] .null (b :: r)
      else if b = 0x74 then word [0x74, 0x72, 0x75, 0x65] (.bool true) (b :: r)
      else if b = 0x66 then word [0x66, 0x61, 0x6C, 0x73, 0x65] (.bool false) (b :: r)
      else number (b :: r)

def lexFrom : Nat → List UInt8 → Option (List Token)
  | 0, _ => none
  | _ + 1, [] => some []
  | n + 1, b :: r =>
    if isSpace b then lexFrom n r
    else do
      let (t, r) ← token (b :: r)
      let ts ← lexFrom n r
      some (t :: ts)

/-- The tokens of a text. -/
def lex (bs : List UInt8) : Option (List Token) := lexFrom (bs.length + 1) bs

/-- The value of a text. -/
def parseText (bs : List UInt8) : Option Value :=
  if Utf8.valid bs then (lex bs).bind parse else none

theorem string_length {n : Nat} {bs s r : List UInt8} (h : string n bs = some (s, r)) :
    r.length < bs.length := by
  induction n generalizing bs s r with
  | zero => cases h
  | succ n ih =>
      cases bs with
      | nil => cases h
      | cons b bs =>
          rw [string] at h
          split_ifs at h
          · cases h
            simp
          · simp only [Option.bind_eq_bind, Option.bind_eq_some_iff] at h
            obtain ⟨⟨x, mid⟩, hx, ⟨s', mid'⟩, hs, heq⟩ := h
            simp only [Option.some.injEq, Prod.mk.injEq] at heq
            obtain ⟨-, rfl⟩ := heq
            have hshort : mid'.length < mid.length := ih hs
            have hle : mid.length ≤ bs.length := by
              obtain ⟨rfl, -⟩ | ⟨e, rfl, -, -⟩ := unescape_spec hx <;> simp
            rw [List.length_cons]
            omega
          · simp only [Option.bind_eq_bind, Option.bind_eq_some_iff] at h
            obtain ⟨⟨s', mid⟩, hs, heq⟩ := h
            simp only [Option.some.injEq, Prod.mk.injEq] at heq
            obtain ⟨-, rfl⟩ := heq
            have hshort := ih hs
            rw [List.length_cons]
            omega

theorem word_spec {w bs r : List UInt8} {t t' : Token} (h : word w t bs = some (t', r)) :
    t' = t ∧ r.length + w.length = bs.length := by
  unfold word at h
  split_ifs at h with hw
  simp only [Option.some.injEq, Prod.mk.injEq] at h
  obtain ⟨rfl, rfl⟩ := h
  have hlen := congrArg List.length hw
  rw [List.length_take] at hlen
  rw [List.length_drop]
  exact ⟨rfl, by omega⟩

theorem number_spec {bs r : List UInt8} {t : Token} (h : number bs = some (t, r)) :
    ∃ u, t = .num u ∧ isNumber u ∧ bs = u ++ r := by
  unfold number at h
  split_ifs at h with hnum
  simp only [Option.some.injEq, Prod.mk.injEq] at h
  obtain ⟨rfl, rfl⟩ := h
  exact ⟨_, rfl, hnum, List.takeWhile_append_dropWhile.symm⟩

theorem token_length {bs r : List UInt8} {t : Token} (h : token bs = some (t, r)) :
    r.length < bs.length := by
  cases bs with
  | nil => cases h
  | cons b bs =>
      rw [token] at h
      cases hp : punct b with
      | some t' =>
          rw [hp] at h
          cases h
          simp
      | none =>
          rw [hp] at h
          dsimp only at h
          split_ifs at h
          · obtain ⟨p, hp, heq⟩ := Option.map_eq_some_iff.1 h
            cases heq
            have hlen := string_length hp
            rw [List.length_cons]
            omega
          · have hlen := (word_spec h).2
            rw [← hlen]
            simp
          · have hlen := (word_spec h).2
            rw [← hlen]
            simp
          · have hlen := (word_spec h).2
            rw [← hlen]
            simp
          · obtain ⟨u, -, hnum, heq⟩ := number_spec h
            obtain ⟨-, b', u', rfl, -⟩ := isNumber_spec hnum
            rw [heq, List.length_append, List.length_cons]
            omega

/-- A token that is a number is a number. -/
theorem token_num {bs r u : List UInt8} (h : token bs = some (.num u, r)) :
    isNumber u ∧ bs = u ++ r := by
  cases bs with
  | nil => cases h
  | cons b bs =>
      rw [token] at h
      cases hp : punct b with
      | some t' =>
          rw [hp] at h
          simp only [Option.some.injEq, Prod.mk.injEq] at h
          obtain ⟨rfl, -⟩ := h
          unfold punct at hp
          split_ifs at hp <;> cases hp
      | none =>
          rw [hp] at h
          dsimp only at h
          split_ifs at h
          · obtain ⟨p, -, heq⟩ := Option.map_eq_some_iff.1 h
            cases heq
          · cases (word_spec h).1
          · cases (word_spec h).1
          · cases (word_spec h).1
          · obtain ⟨u', heq, hnum, hbs⟩ := number_spec h
            cases heq
            exact ⟨hnum, hbs⟩

/-! ## Texts -/

theorem lexFrom_eq {n m : Nat} {bs : List UInt8} (hn : bs.length < n) (hm : bs.length < m) :
    lexFrom n bs = lexFrom m bs := by
  induction n generalizing m bs with
  | zero => cases hn
  | succ n ih =>
      cases m with
      | zero => cases hm
      | succ m =>
          cases bs with
          | nil => rfl
          | cons b bs =>
              rw [List.length_cons] at hn hm
              rw [lexFrom, lexFrom]
              split
              · exact ih (by omega) (by omega)
              · cases ht : token (b :: bs) with
                | none => rfl
                | some p =>
                    obtain ⟨t, r⟩ := p
                    have hlen := token_length ht
                    rw [List.length_cons] at hlen
                    have hrest : lexFrom n r = lexFrom m r := ih (by omega) (by omega)
                    simp [hrest]

theorem lex_space {b : UInt8} (hb : isSpace b) (r : List UInt8) : lex (b :: r) = lex r := by
  rw [lex, lexFrom, if_pos hb]
  exact lexFrom_eq (by simp) (by simp)

/-- A text that does not start with white space starts with a token. -/
theorem lex_eq_some_cons_iff {b : UInt8} (hb : ¬ isSpace b) {r : List UInt8} {t : Token} {ts : List Token} :
    lex (b :: r) = some (t :: ts) ↔ ∃ rest, token (b :: r) = some (t, rest) ∧ lex rest = some ts := by
  have hrest : ∀ {t' rest}, token (b :: r) = some (t', rest) →
      lexFrom (r.length + 1) rest = lex rest := by
    intro t' rest ht
    have hlen := token_length ht
    exact lexFrom_eq hlen (Nat.lt_succ_self _)
  rw [lex, lexFrom, if_neg hb]
  constructor
  · intro h
    simp only [Option.bind_eq_bind, Option.bind_eq_some_iff] at h
    obtain ⟨⟨t', rest⟩, ht, ts', hts, heq⟩ := h
    simp only [Option.some.injEq, List.cons.injEq] at heq
    obtain ⟨rfl, rfl⟩ := heq
    exact ⟨rest, ht, by rw [← hrest ht]; exact hts⟩
  · rintro ⟨rest, ht, hts⟩
    rw [← hrest ht] at hts
    simp [ht, hts]

theorem lex_punct_iff (p : Punct) {r : List UInt8} {ts : List Token} :
    lex (p.byte :: r) = some (p.token :: ts) ↔ lex r = some ts := by
  have hb : ¬ isSpace p.byte := by cases p <;> decide
  have ht : token (p.byte :: r) = some (p.token, r) := by cases p <;> rfl
  rw [lex_eq_some_cons_iff hb, ht]
  simp

theorem lex_str_iff {s r : List UInt8} {ts : List Token} :
    lex (0x22 :: s ++ 0x22 :: r) = some (.str s :: ts) ↔ Plain s ∧ lex r = some ts := by
  have ht : ∀ {rest}, token (0x22 :: (s ++ 0x22 :: r)) = some (.str s, rest) ↔ Plain s ∧ rest = r := by
    intro rest
    rw [← string_eq_some_iff (n := (s ++ 0x22 :: r).length + 1) (by rw [List.length_append]; omega)]
    constructor
    · intro h
      obtain ⟨p, hp, heq⟩ := Option.map_eq_some_iff.1 h
      cases heq
      exact hp
    · intro h
      exact Option.map_eq_some_iff.2 ⟨_, h, rfl⟩
  rw [List.cons_append, lex_eq_some_cons_iff (by decide)]
  constructor
  · rintro ⟨rest, htok, hts⟩
    obtain ⟨hplain, rfl⟩ := ht.1 htok
    exact ⟨hplain, hts⟩
  · rintro ⟨hplain, hts⟩
    exact ⟨r, ht.2 ⟨hplain, rfl⟩, hts⟩

/-- A number followed by a byte that no number has. -/
theorem token_number {u r : List UInt8} {b : UInt8} (hu : isNumber u) (hb : ¬ isNumberByte b) :
    token (u ++ b :: r) = some (.num u, b :: r) := by
  obtain ⟨hall, y, u', rfl, hy⟩ := isNumber_spec hu
  have htake : (y :: u' ++ b :: r).takeWhile isNumberByte = y :: u' := by
    rw [List.takeWhile_append_of_pos hall, List.takeWhile_cons_of_neg hb, List.append_nil]
  have hdrop : (y :: u' ++ b :: r).dropWhile isNumberByte = b :: r := by
    rw [List.dropWhile_append_of_pos hall, List.dropWhile_cons_of_neg hb]
  have hnum : number (y :: u' ++ b :: r) = some (.num (y :: u'), b :: r) := by
    rw [number, htake, hdrop, if_pos hu]
  have hother : ∀ z : UInt8, ¬ (z = 0x2D ∨ isDigit z = true) → y ≠ z := by
    rintro z hz rfl
    exact hz hy
  have hpunct : punct y = none := by
    simp [punct, hother 0x5B (by decide), hother 0x5D (by decide), hother 0x7B (by decide),
      hother 0x7D (by decide), hother 0x2C (by decide), hother 0x3A (by decide)]
  rw [List.cons_append] at hnum ⊢
  rw [token, hpunct]
  simp [hother 0x22 (by decide), hother 0x6E (by decide), hother 0x74 (by decide),
    hother 0x66 (by decide), hnum]

/-- Only numbers are read as numbers, after any white space. -/
theorem isNumber_of_lex {bs u : List UInt8} {ts : List Token} (h : lex bs = some (.num u :: ts)) :
    isNumber u := by
  induction bs with
  | nil => cases h
  | cons b bs ih =>
      by_cases hb : isSpace b
      · rw [lex_space hb] at h
        exact ih h
      · obtain ⟨rest, ht, -⟩ := (lex_eq_some_cons_iff hb).1 h
        exact (token_num ht).1

theorem lex_number {u r : List UInt8} {b : UInt8} (hu : isNumber u) (hb : ¬ isNumberByte b)
    {ts : List Token} : lex (u ++ b :: r) = some (.num u :: ts) ↔ lex (b :: r) = some ts := by
  have htok := token_number (r := r) hu hb
  obtain ⟨-, y, u', rfl, hy⟩ := isNumber_spec hu
  have hspace : ¬ isSpace y := by
    intro hs
    simp only [isSpace, Bool.or_eq_true, decide_eq_true_eq] at hs
    rcases hs with ((rfl | rfl) | rfl) | rfl <;> revert hy <;> decide
  rw [List.cons_append] at htok ⊢
  rw [lex_eq_some_cons_iff hspace, htok]
  simp

theorem lex_num_iff {u r : List UInt8} {b : UInt8} (hb : ¬ isNumberByte b) {ts : List Token} :
    lex (u ++ b :: r) = some (.num u :: ts) ↔ isNumber u ∧ lex (b :: r) = some ts := by
  constructor
  · intro h
    have hu := isNumber_of_lex h
    exact ⟨hu, (lex_number hu hb).1 h⟩
  · rintro ⟨hu, hts⟩
    exact (lex_number hu hb).2 hts

/-! ## Pieces -/

/-- What a text is put together from; a number stands before a punctuation mark. -/
inductive Piece where
  | newline
  | blank
  | punct (p : Punct)
  | str (s : List UInt8)
  | num (u : List UInt8) (p : Punct)
  deriving DecidableEq, Repr

namespace Piece

def text : Piece → List UInt8
  | newline => [0x0A]
  | blank => [0x20]
  | punct p => [p.byte]
  | str s => 0x22 :: s ++ [0x22]
  | num u p => u ++ [p.byte]

def tokens : Piece → List Token
  | newline => []
  | blank => []
  | punct p => [p.token]
  | str s => [.str s]
  | num u p => [.num u, p.token]

/-- The piece can be read back. -/
def Readable : Piece → Prop
  | newline | blank | punct _ => True
  | str s => Plain s ∧ Utf8.valid s
  | num u _ => isNumber u

@[simp] theorem readable_newline : newline.Readable := trivial

@[simp] theorem readable_blank : blank.Readable := trivial

@[simp] theorem readable_punct (p : Punct) : (punct p).Readable := trivial

theorem readable_num {u : List UInt8} {p : Punct} : (num u p).Readable ↔ isNumber u := Iff.rfl

end Piece

/-- What the lexer asks of a piece. -/
def Piece.Lexes : Piece → Prop
  | .newline | .blank | .punct _ => True
  | .str s => Plain s
  | .num u _ => isNumber u

theorem lex_pieces_iff (ps : List Piece) :
    lex (ps.flatMap Piece.text) = some (ps.flatMap Piece.tokens) ↔ ∀ p ∈ ps, p.Lexes := by
  induction ps with
  | nil => simp [lex, lexFrom]
  | cons p ps ih =>
      rw [List.flatMap_cons, List.flatMap_cons, List.forall_mem_cons, ← ih]
      cases p with
      | newline =>
          rw [Piece.text, List.singleton_append, lex_space (by decide)]
          simp [Piece.tokens, Piece.Lexes]
      | blank =>
          rw [Piece.text, List.singleton_append, lex_space (by decide)]
          simp [Piece.tokens, Piece.Lexes]
      | punct p =>
          rw [Piece.text, Piece.tokens, List.singleton_append, List.singleton_append, lex_punct_iff]
          simp [Piece.Lexes]
      | str s =>
          rw [Piece.text, Piece.tokens, List.append_assoc, List.singleton_append, List.singleton_append,
            lex_str_iff]
          rfl
      | num u p =>
          rw [Piece.text, Piece.tokens, List.append_assoc, List.singleton_append, List.cons_append,
            List.singleton_append, lex_num_iff (by cases p <;> decide), lex_punct_iff]
          rfl

theorem isNumber_ascii {u : List UInt8} (hu : isNumber u) : ∀ b ∈ u, b < 0x80 := by
  intro b hb
  have hbyte := (isNumber_spec hu).1 b hb
  revert hbyte
  simp only [isNumberByte, isDigit, isSign, Bool.or_eq_true, Bool.and_eq_true, decide_eq_true_eq]
  rintro ((((⟨-, hle⟩ | rfl | rfl) | rfl) | rfl) | rfl)
  · exact UInt8.lt_of_le_of_lt hle (by decide)
  all_goals decide

theorem valid_pieces_iff (ps : List Piece) (h : ∀ p ∈ ps, p.Lexes) :
    Utf8.valid (ps.flatMap Piece.text) ↔ ∀ p ∈ ps, p.Readable := by
  induction ps with
  | nil => simp [Utf8.valid, Utf8.accepts]
  | cons p ps ih =>
      obtain ⟨hp, hps⟩ := List.forall_mem_cons.1 h
      rw [List.flatMap_cons, List.forall_mem_cons, ← ih hps]
      cases p with
      | newline =>
          rw [Piece.text, List.singleton_append, Utf8.valid_cons (by decide)]
          simp [Piece.Readable]
      | blank =>
          rw [Piece.text, List.singleton_append, Utf8.valid_cons (by decide)]
          simp [Piece.Readable]
      | punct p =>
          rw [Piece.text, List.singleton_append, Utf8.valid_cons (by cases p <;> decide)]
          simp [Piece.Readable]
      | str s =>
          have hplain : Plain s := hp
          rw [Piece.text, List.append_assoc, List.cons_append, List.singleton_append,
            Utf8.valid_cons (by decide), Utf8.valid_append_cons (by decide), Bool.and_eq_true]
          simp [Piece.Readable, hplain]
      | num u p =>
          have hnum : isNumber u := hp
          rw [Piece.text, List.append_assoc, Utf8.valid_ascii_append (isNumber_ascii hnum),
            List.singleton_append, Utf8.valid_cons (by cases p <;> decide)]
          simp [Piece.Readable, hnum]

/-- **A text is read as its pieces exactly if each of them can be read back.** -/
theorem parseText_pieces {ps : List Piece} {v : Value} (hv : v.tokens = ps.flatMap Piece.tokens) :
    parseText (ps.flatMap Piece.text) = some v ↔ ∀ p ∈ ps, p.Readable := by
  have hlexes : (∀ p ∈ ps, p.Readable) → ∀ p ∈ ps, p.Lexes := by
    intro h p hp
    have hread := h p hp
    cases p with
    | newline | blank | punct => trivial
    | str s => exact hread.1
    | num u p => exact hread
  rw [parseText]
  constructor
  · intro h
    split_ifs at h with hvalid
    obtain ⟨ts, hts, hparse⟩ := Option.bind_eq_some_iff.1 h
    rw [parse_eq_some_iff, hv] at hparse
    subst hparse
    exact (valid_pieces_iff ps ((lex_pieces_iff ps).1 hts)).1 hvalid
  · intro h
    have hlex := hlexes h
    rw [if_pos ((valid_pieces_iff ps hlex).2 h), (lex_pieces_iff ps).2 hlex, Option.bind_some,
      parse_eq_some_iff]
    exact hv.symm

end Json
