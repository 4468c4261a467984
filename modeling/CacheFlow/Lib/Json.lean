import Mathlib.Data.List.Basic

set_option autoImplicit false

/-! # JSON values and their tokens

Values, the tokens a text consists of, and a parser from tokens to values. An object keeps its members in the
order of the text, also those with the same key, and a number keeps its text. A value then has exactly one
token sequence: the parser reads it back, and reads the value from no other (`parse_eq_some_iff`).

The parser runs on fuel; a token is read at every level, so the number of tokens is enough. -/

namespace Json

inductive Value where
  | null
  | bool (b : Bool)
  | num (text : List UInt8)
  | str (s : List UInt8)
  | arr (vs : List Value)
  | obj (ms : List (List UInt8 × Value))

inductive Token where
  | lbracket
  | rbracket
  | lbrace
  | rbrace
  | comma
  | colon
  | null
  | bool (b : Bool)
  | num (text : List UInt8)
  | str (s : List UInt8)
  deriving DecidableEq, Repr

/-! ## From values to tokens -/

mutual

def Value.tokens : Value → List Token
  | .null => [.null]
  | .bool b => [.bool b]
  | .num text => [.num text]
  | .str s => [.str s]
  | .arr vs => .lbracket :: elemTokens vs
  | .obj ms => .lbrace :: memberTokens ms

/-- The elements of an array, with the closing bracket. -/
def elemTokens : List Value → List Token
  | [] => [.rbracket]
  | v :: vs => v.tokens ++ moreElemTokens vs

def moreElemTokens : List Value → List Token
  | [] => [.rbracket]
  | v :: vs => .comma :: (v.tokens ++ moreElemTokens vs)

/-- The members of an object, with the closing brace. -/
def memberTokens : List (List UInt8 × Value) → List Token
  | [] => [.rbrace]
  | (k, v) :: ms => .str k :: .colon :: (v.tokens ++ moreMemberTokens ms)

def moreMemberTokens : List (List UInt8 × Value) → List Token
  | [] => [.rbrace]
  | (k, v) :: ms => .comma :: .str k :: .colon :: (v.tokens ++ moreMemberTokens ms)

end

/-! ## From tokens to values -/

mutual

def value : Nat → List Token → Option (Value × List Token)
  | 0, _ => none
  | _ + 1, .null :: ts => some (.null, ts)
  | _ + 1, .bool b :: ts => some (.bool b, ts)
  | _ + 1, .num text :: ts => some (.num text, ts)
  | _ + 1, .str s :: ts => some (.str s, ts)
  | n + 1, .lbracket :: ts => (elems n ts).map (fun p => (.arr p.1, p.2))
  | n + 1, .lbrace :: ts => (members n ts).map (fun p => (.obj p.1, p.2))
  | _ + 1, _ => none

def elems : Nat → List Token → Option (List Value × List Token)
  | 0, _ => none
  | n + 1, ts =>
    if ts.head? = some .rbracket then some ([], ts.tail)
    else do
      let (v, r) ← value n ts
      let (vs, r) ← moreElems n r
      some (v :: vs, r)

def moreElems : Nat → List Token → Option (List Value × List Token)
  | 0, _ => none
  | _ + 1, .rbracket :: ts => some ([], ts)
  | n + 1, .comma :: ts => do
    let (v, r) ← value n ts
    let (vs, r) ← moreElems n r
    some (v :: vs, r)
  | _ + 1, _ => none

def members : Nat → List Token → Option (List (List UInt8 × Value) × List Token)
  | 0, _ => none
  | _ + 1, .rbrace :: ts => some ([], ts)
  | n + 1, .str k :: .colon :: ts => do
    let (v, r) ← value n ts
    let (ms, r) ← moreMembers n r
    some ((k, v) :: ms, r)
  | _ + 1, _ => none

def moreMembers : Nat → List Token → Option (List (List UInt8 × Value) × List Token)
  | 0, _ => none
  | _ + 1, .rbrace :: ts => some ([], ts)
  | n + 1, .comma :: .str k :: .colon :: ts => do
    let (v, r) ← value n ts
    let (ms, r) ← moreMembers n r
    some ((k, v) :: ms, r)
  | _ + 1, _ => none

end

/-- A value and nothing after it. -/
def parse (ts : List Token) : Option Value :=
  match value ts.length ts with
  | some (v, []) => some v
  | _ => none

/-! ## Tokens that are read back -/

theorem Value.tokens_head (v : Value) (ts : List Token) :
    (v.tokens ++ ts).head? ≠ some .rbracket ∧ 1 ≤ v.tokens.length := by
  cases v <;> simp [Value.tokens]

/-- What the five functions of the parser read with `n` fuel. -/
structure ReadsBack (n : Nat) : Prop where
  value : ∀ v r, v.tokens.length ≤ n → Json.value n (v.tokens ++ r) = some (v, r)
  elems : ∀ vs r, (elemTokens vs).length ≤ n → Json.elems n (elemTokens vs ++ r) = some (vs, r)
  moreElems : ∀ vs r, (moreElemTokens vs).length ≤ n →
    Json.moreElems n (moreElemTokens vs ++ r) = some (vs, r)
  members : ∀ ms r, (memberTokens ms).length ≤ n → Json.members n (memberTokens ms ++ r) = some (ms, r)
  moreMembers : ∀ ms r, (moreMemberTokens ms).length ≤ n →
    Json.moreMembers n (moreMemberTokens ms ++ r) = some (ms, r)

theorem elemTokens_length (vs : List Value) :
    1 ≤ (elemTokens vs).length ∧ 1 ≤ (moreElemTokens vs).length := by
  cases vs with
  | nil => simp [elemTokens, moreElemTokens]
  | cons v vs =>
      have hpos := (v.tokens_head []).2
      simp only [elemTokens, moreElemTokens, List.length_append, List.length_cons]
      omega

theorem memberTokens_length (ms : List (List UInt8 × Value)) :
    1 ≤ (memberTokens ms).length ∧ 1 ≤ (moreMemberTokens ms).length := by
  cases ms <;> simp [memberTokens, moreMemberTokens]

/-- No tokens can be read without fuel, and there are none that need none. -/
theorem readsBack_zero : ReadsBack 0 := by
  refine ⟨?_, ?_, ?_, ?_, ?_⟩
  · intro v r hle
    have hpos := (v.tokens_head r).2
    omega
  · intro vs r hle
    have hpos := (elemTokens_length vs).1
    omega
  · intro vs r hle
    have hpos := (elemTokens_length vs).2
    omega
  · intro ms r hle
    have hpos := (memberTokens_length ms).1
    omega
  · intro ms r hle
    have hpos := (memberTokens_length ms).2
    omega

namespace ReadsBack

variable {n : Nat} (h : ReadsBack n)

include h

theorem value_succ (v : Value) (r : List Token) (hle : v.tokens.length ≤ n + 1) :
    Json.value (n + 1) (v.tokens ++ r) = some (v, r) := by
  cases v with
  | null | bool b | num text | str s => rfl
  | arr vs =>
      rw [Value.tokens, List.length_cons] at hle
      rw [Value.tokens, List.cons_append, Json.value, h.elems vs r (by omega)]
      rfl
  | obj ms =>
      rw [Value.tokens, List.length_cons] at hle
      rw [Value.tokens, List.cons_append, Json.value, h.members ms r (by omega)]
      rfl

theorem elems_succ (vs : List Value) (r : List Token) (hle : (elemTokens vs).length ≤ n + 1) :
    Json.elems (n + 1) (elemTokens vs ++ r) = some (vs, r) := by
  cases vs with
  | nil => rfl
  | cons v vs =>
      obtain ⟨hhead, hpos⟩ := v.tokens_head (moreElemTokens vs ++ r)
      have hmore := (elemTokens_length vs).2
      rw [elemTokens, List.length_append] at hle
      rw [elemTokens, List.append_assoc, Json.elems, if_neg hhead, h.value v _ (by omega)]
      simp [h.moreElems vs r (by omega)]

theorem moreElems_succ (vs : List Value) (r : List Token) (hle : (moreElemTokens vs).length ≤ n + 1) :
    Json.moreElems (n + 1) (moreElemTokens vs ++ r) = some (vs, r) := by
  cases vs with
  | nil => rfl
  | cons v vs =>
      rw [moreElemTokens, List.length_cons, List.length_append] at hle
      rw [moreElemTokens, List.cons_append, List.append_assoc, Json.moreElems, h.value v _ (by omega)]
      simp [h.moreElems vs r (by omega)]

theorem members_succ (ms : List (List UInt8 × Value)) (r : List Token)
    (hle : (memberTokens ms).length ≤ n + 1) :
    Json.members (n + 1) (memberTokens ms ++ r) = some (ms, r) := by
  cases ms with
  | nil => rfl
  | cons m ms =>
      obtain ⟨k, v⟩ := m
      rw [memberTokens, List.length_cons, List.length_cons, List.length_append] at hle
      rw [memberTokens, List.cons_append, List.cons_append, List.append_assoc, Json.members,
        h.value v _ (by omega)]
      simp [h.moreMembers ms r (by omega)]

theorem moreMembers_succ (ms : List (List UInt8 × Value)) (r : List Token)
    (hle : (moreMemberTokens ms).length ≤ n + 1) :
    Json.moreMembers (n + 1) (moreMemberTokens ms ++ r) = some (ms, r) := by
  cases ms with
  | nil => rfl
  | cons m ms =>
      obtain ⟨k, v⟩ := m
      rw [moreMemberTokens, List.length_cons, List.length_cons, List.length_cons, List.length_append] at hle
      rw [moreMemberTokens, List.cons_append, List.cons_append, List.cons_append, List.append_assoc,
        Json.moreMembers, h.value v _ (by omega)]
      simp [h.moreMembers ms r (by omega)]

end ReadsBack

theorem readsBack (n : Nat) : ReadsBack n := by
  induction n with
  | zero => exact readsBack_zero
  | succ n ih => exact ⟨ih.value_succ, ih.elems_succ, ih.moreElems_succ, ih.members_succ, ih.moreMembers_succ⟩

/-! ## Nothing else is read -/

/-- What the five functions of the parser have read with `n` fuel. -/
structure ReadsOnly (n : Nat) : Prop where
  value : ∀ ts v r, Json.value n ts = some (v, r) → ts = v.tokens ++ r
  elems : ∀ ts vs r, Json.elems n ts = some (vs, r) → ts = elemTokens vs ++ r
  moreElems : ∀ ts vs r, Json.moreElems n ts = some (vs, r) → ts = moreElemTokens vs ++ r
  members : ∀ ts ms r, Json.members n ts = some (ms, r) → ts = memberTokens ms ++ r
  moreMembers : ∀ ts ms r, Json.moreMembers n ts = some (ms, r) → ts = moreMemberTokens ms ++ r

/-- A value, then the rest of a list. -/
theorem bind_eq_some {α : Type} {f : Option (Value × List Token)} {g : List Token → Option (α × List Token)}
    {b : Value → α → α} {a : α} {r : List Token}
    (h : (do let (v, r) ← f; let (vs, r) ← g r; some (b v vs, r)) = some (a, r)) :
    ∃ v mid vs, f = some (v, mid) ∧ g mid = some (vs, r) ∧ a = b v vs := by
  cases hf : f with
  | none => simp [hf] at h
  | some p =>
      obtain ⟨v, mid⟩ := p
      cases hg : g mid with
      | none => simp [hf, hg] at h
      | some q =>
          obtain ⟨vs, rest⟩ := q
          simp only [hf, hg, Option.bind_eq_bind, Option.bind_some, Option.some.injEq, Prod.mk.injEq] at h
          obtain ⟨rfl, rfl⟩ := h
          exact ⟨v, mid, vs, rfl, hg, rfl⟩

theorem members_str {n : Nat} {k : List UInt8} {ts r : List Token} {ms : List (List UInt8 × Value)}
    (h : members (n + 1) (.str k :: ts) = some (ms, r)) :
    ∃ ts', ts = .colon :: ts' ∧
      (do let (v, r) ← value n ts'; let (ms, r) ← moreMembers n r; some ((k, v) :: ms, r)) = some (ms, r) := by
  cases ts with
  | nil => simp [members] at h
  | cons t ts =>
      cases t with
      | colon =>
          rw [members] at h
          exact ⟨ts, rfl, h⟩
      | null | bool b | num text | str s | lbracket | rbracket | lbrace | rbrace | comma =>
          simp [members] at h

theorem moreMembers_comma {n : Nat} {ts r : List Token} {ms : List (List UInt8 × Value)}
    (h : moreMembers (n + 1) (.comma :: ts) = some (ms, r)) :
    ∃ k ts', ts = .str k :: .colon :: ts' ∧
      (do let (v, r) ← value n ts'; let (ms, r) ← moreMembers n r; some ((k, v) :: ms, r)) = some (ms, r) := by
  cases ts with
  | nil => simp [moreMembers] at h
  | cons t ts =>
      cases t with
      | str k =>
          cases ts with
          | nil => simp [moreMembers] at h
          | cons t ts =>
              cases t with
              | colon =>
                  rw [moreMembers] at h
                  exact ⟨k, ts, rfl, h⟩
              | null | bool b | num text | str s | lbracket | rbracket | lbrace | rbrace | comma =>
                  simp [moreMembers] at h
      | null | bool b | num text | lbracket | rbracket | lbrace | rbrace | comma | colon =>
          simp [moreMembers] at h

namespace ReadsOnly

variable {n : Nat} (h : ReadsOnly n)

include h

theorem value_succ (ts : List Token) (v : Value) (r : List Token)
    (hv : Json.value (n + 1) ts = some (v, r)) : ts = v.tokens ++ r := by
  cases ts with
  | nil => simp [Json.value] at hv
  | cons t ts =>
      cases t with
      | null | bool b | num text | str s =>
          rw [Json.value] at hv
          cases hv
          rfl
      | lbracket =>
          rw [Json.value] at hv
          obtain ⟨p, hp, heq⟩ := Option.map_eq_some_iff.1 hv
          cases heq
          rw [h.elems _ _ _ hp]
          rfl
      | lbrace =>
          rw [Json.value] at hv
          obtain ⟨p, hp, heq⟩ := Option.map_eq_some_iff.1 hv
          cases heq
          rw [h.members _ _ _ hp]
          rfl
      | rbracket | rbrace | comma | colon => simp [Json.value] at hv

theorem elems_succ (ts : List Token) (vs : List Value) (r : List Token)
    (hvs : Json.elems (n + 1) ts = some (vs, r)) : ts = elemTokens vs ++ r := by
  rw [Json.elems] at hvs
  split at hvs
  · next hhead =>
      cases hvs
      cases ts with
      | nil => cases hhead
      | cons t ts =>
          cases hhead
          rfl
  · obtain ⟨v, mid, vs', hv, hmore, rfl⟩ := bind_eq_some hvs
    rw [h.value _ _ _ hv, h.moreElems _ _ _ hmore, elemTokens, List.append_assoc]

theorem moreElems_succ (ts : List Token) (vs : List Value) (r : List Token)
    (hvs : Json.moreElems (n + 1) ts = some (vs, r)) : ts = moreElemTokens vs ++ r := by
  cases ts with
  | nil => simp [Json.moreElems] at hvs
  | cons t ts =>
      cases t with
      | rbracket =>
          rw [Json.moreElems] at hvs
          cases hvs
          rfl
      | comma =>
          rw [Json.moreElems] at hvs
          obtain ⟨v, mid, vs', hv, hmore, rfl⟩ := bind_eq_some hvs
          rw [h.value _ _ _ hv, h.moreElems _ _ _ hmore, moreElemTokens, List.cons_append,
            List.append_assoc]
      | null | bool b | num text | str s | lbracket | lbrace | rbrace | colon =>
          simp [Json.moreElems] at hvs

theorem members_succ (ts : List Token) (ms : List (List UInt8 × Value)) (r : List Token)
    (hms : Json.members (n + 1) ts = some (ms, r)) : ts = memberTokens ms ++ r := by
  cases ts with
  | nil => simp [Json.members] at hms
  | cons t ts =>
      cases t with
      | rbrace =>
          rw [Json.members] at hms
          cases hms
          rfl
      | str k =>
          obtain ⟨ts, rfl, hlist⟩ := members_str hms
          obtain ⟨v, mid, ms', hv, hmore, rfl⟩ := bind_eq_some (b := fun v ms => (k, v) :: ms) hlist
          rw [h.value _ _ _ hv, h.moreMembers _ _ _ hmore, memberTokens, List.cons_append,
            List.cons_append, List.append_assoc]
      | null | bool b | num text | lbracket | rbracket | lbrace | comma | colon =>
          simp [Json.members] at hms

theorem moreMembers_succ (ts : List Token) (ms : List (List UInt8 × Value)) (r : List Token)
    (hms : Json.moreMembers (n + 1) ts = some (ms, r)) : ts = moreMemberTokens ms ++ r := by
  cases ts with
  | nil => simp [Json.moreMembers] at hms
  | cons t ts =>
      cases t with
      | rbrace =>
          rw [Json.moreMembers] at hms
          cases hms
          rfl
      | comma =>
          obtain ⟨k, ts, rfl, hlist⟩ := moreMembers_comma hms
          obtain ⟨v, mid, ms', hv, hmore, rfl⟩ := bind_eq_some (b := fun v ms => (k, v) :: ms) hlist
          rw [h.value _ _ _ hv, h.moreMembers _ _ _ hmore, moreMemberTokens, List.cons_append,
            List.cons_append, List.cons_append, List.append_assoc]
      | null | bool b | num text | str s | lbracket | rbracket | lbrace | colon =>
          simp [Json.moreMembers] at hms

end ReadsOnly

theorem readsOnly (n : Nat) : ReadsOnly n := by
  induction n with
  | zero =>
      refine ⟨?_, ?_, ?_, ?_, ?_⟩ <;> intro ts v r h
      · rw [value] at h
        cases h
      · rw [elems] at h
        cases h
      · rw [moreElems] at h
        cases h
      · rw [members] at h
        cases h
      · rw [moreMembers] at h
        cases h
  | succ n ih => exact ⟨ih.value_succ, ih.elems_succ, ih.moreElems_succ, ih.members_succ, ih.moreMembers_succ⟩

/-- **A value has one token sequence.** -/
theorem parse_eq_some_iff {ts : List Token} {v : Value} : parse ts = some v ↔ ts = v.tokens := by
  constructor
  · intro h
    rw [parse] at h
    split at h
    · next hv =>
        cases h
        have heq := (readsOnly _).value _ _ _ hv
        rwa [List.append_nil] at heq
    · cases h
  · rintro rfl
    have hv := (readsBack _).value v [] (Nat.le_refl _)
    rw [List.append_nil] at hv
    rw [parse, hv]

end Json
