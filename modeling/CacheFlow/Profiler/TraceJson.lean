import CacheFlow.Lib.JsonText
import CacheFlow.Profiler.Trace
import Mathlib.Data.Nat.Digits.Lemmas

set_option autoImplicit false

/-! # The trace file as JSON

`write_event()` puts names, categories, argument keys and argument values between quotes as they are. The file
is the text of a list of JSON pieces (`outputPieces`), so it is read back as the events that were added exactly
if each of these strings is plain and well-formed UTF-8, and each duration is finite (`output_parses_iff`).

The other numbers are always well formed, and so is the text of a counter. -/

namespace CacheFlow

open Json

/-! ## Numbers -/

theorem isDigit_digit : ∀ d < 10, isDigit (digit d) := by decide

theorem digit_ne_zero : ∀ d < 10, d ≠ 0 → digit d ≠ 0x30 := by decide

theorem isInt_decimal (n : Nat) : isInt (decimal n) := by
  unfold decimal
  split
  · rfl
  · next hn =>
      have hne : Nat.digits 10 n ≠ [] := Nat.digits_ne_nil_iff_ne_zero.2 hn
      have hlast : (Nat.digits 10 n).getLast hne < 10 :=
        Nat.digits_lt_base (by decide) (List.getLast_mem hne)
      have hhead : ((Nat.digits 10 n).reverse.map digit).head? = some (digit ((Nat.digits 10 n).getLast hne)) := by
        rw [List.head?_map, List.head?_reverse, List.getLast?_eq_some_getLast hne]
        rfl
      have hall : ((Nat.digits 10 n).reverse.map digit).all isDigit := by
        rw [List.all_eq_true]
        intro b hb
        obtain ⟨d, hd, rfl⟩ := List.mem_map.1 hb
        exact isDigit_digit d (Nat.digits_lt_base (by decide) (List.mem_reverse.1 hd))
      have hzero : digit ((Nat.digits 10 n).getLast hne) ≠ 0x30 :=
        digit_ne_zero _ hlast (Nat.getLast_digit_ne_zero 10 hn)
      have hempty : ((Nat.digits 10 n).reverse.map digit).isEmpty = false := by simpa using hne
      rw [isInt, isDigits, hall, hhead, hempty]
      simp [hzero]

theorem isNumber_signText {neg : Bool} {t : Bytes} (h : isUnsigned t) : isNumber (signText neg ++ t) := by
  cases neg with
  | false => exact (isNumber_of_isUnsigned h).1
  | true => exact (isNumber_of_isUnsigned h).2

theorem isNumber_intText (n : Int) : isNumber (intText n) := by
  have hint : isUnsigned (decimal n.natAbs ++ []) := isUnsigned_append (isInt_decimal _) rfl (by simp)
  rw [List.append_nil] at hint
  unfold intText
  split
  · exact (isNumber_of_isUnsigned hint).2
  · exact (isNumber_of_isUnsigned hint).1

theorem isNumber_fixed (x : Fixed) : isNumber (x.text 1) := by
  have hfrac : isFraction (ascii "." ++ decimals 1 x.units) := by
    have hd := isDigit_digit (x.units % 10) (Nat.mod_lt _ (by decide))
    simp [ascii, decimals, isFraction, isDigits, isExponent, hd]
  rw [Fixed.text, List.append_assoc, List.append_assoc]
  exact isNumber_signText (isUnsigned_append (isInt_decimal _) hfrac (by simp [ascii, isDigit]))

def Double.isFinite : Double → Bool
  | .finite _ => true
  | .inf _ | .nan _ => false

/-- A printed `double` is a number if it is finite. -/
theorem isNumber_double (d : Double) : isNumber (d.text 1) = d.isFinite := by
  cases d with
  | finite x => exact isNumber_fixed x
  | inf neg => cases neg <;> decide
  | nan neg => cases neg <;> decide

/-! ## Pieces -/

/-- The JSON value of an event. -/
def eventJson {D : Type} (c : Chrono D) (start : Int) (ev : TraceEvent D) : Value :=
  .obj ([(ascii "name", .str ev.name),
      (ascii "cat", .str ev.category),
      (ascii "ph", .str ev.phase.char),
      (ascii "ts", .num ((c.ticks (ev.timestamp - start)).text 1)),
      (ascii "dur", .num ((c.micros ev.duration).text 1)),
      (ascii "pid", .num (intText ev.processId)),
      (ascii "tid", .num (intText ev.threadId))] ++
    if ev.args.isEmpty then [] else [(ascii "args", .obj (ev.args.map (fun a => (a.key, .str a.value))))])

def argPieces : Nat → List TraceEvent.Arg → List Piece
  | _, [] => []
  | i, a :: args =>
    (if 0 < i then [.punct .comma] else []) ++ [.str a.key, .punct .colon, .str a.value]
      ++ argPieces (i + 1) args

def eventPieces {D : Type} (c : Chrono D) (start : Int) (ev : TraceEvent D) : List Piece :=
  ([.blank, .blank, .punct .lbrace,
    .str (ascii "name"), .punct .colon, .str ev.name, .punct .comma,
    .str (ascii "cat"), .punct .colon, .str ev.category, .punct .comma,
    .str (ascii "ph"), .punct .colon, .str ev.phase.char, .punct .comma,
    .str (ascii "ts"), .punct .colon, .num ((c.ticks (ev.timestamp - start)).text 1) .comma,
    .str (ascii "dur"), .punct .colon, .num ((c.micros ev.duration).text 1) .comma,
    .str (ascii "pid"), .punct .colon, .num (intText ev.processId) .comma,
    .str (ascii "tid"), .punct .colon] : List Piece) ++
  if ev.args.isEmpty then [.num (intText ev.threadId) .rbrace]
  else ([.num (intText ev.threadId) .comma, .str (ascii "args"), .punct .colon, .punct .lbrace] : List Piece)
    ++ argPieces 0 ev.args ++ ([.punct .rbrace, .punct .rbrace] : List Piece)

/-- The events of the file, from event `i`. -/
def fileEvents {D : Type} (c : Chrono D) (start : Int) : Nat → List (TraceEvent D) → List Piece
  | _, [] => []
  | i, ev :: evs =>
    (if 0 < i then [.punct .comma, .newline] else []) ++ eventPieces c start ev
      ++ fileEvents c start (i + 1) evs

def outputPieces {D : Type} (c : Chrono D) (start : Int) (evs : List (TraceEvent D)) : List Piece :=
  ([.punct .lbracket, .newline] : List Piece) ++ fileEvents c start 0 evs
    ++ ([.newline, .punct .rbracket, .newline] : List Piece)

section Pieces

variable {D : Type} (c : Chrono D) (start : Int)

theorem argPieces_text (i : Nat) (args : List TraceEvent.Arg) :
    (argPieces i args).flatMap Piece.text = argsText i args := by
  induction args generalizing i with
  | nil => rfl
  | cons a args ih =>
      by_cases hi : 0 < i <;> simp [argPieces, argsText, ih, hi, Piece.text, Punct.byte, ascii]

theorem eventPieces_text (ev : TraceEvent D) :
    (eventPieces c start ev).flatMap Piece.text = eventText c start ev := by
  by_cases hargs : ev.args.isEmpty
  · simp [eventPieces, eventText, hargs, Piece.text, Punct.byte, ascii]
  · simp [eventPieces, eventText, hargs, argPieces_text, Piece.text, Punct.byte, ascii]

theorem fileEvents_text {i : Nat} (hi : 0 < i) (evs : List (TraceEvent D)) :
    (fileEvents c start i evs).flatMap Piece.text
      = (evs.map (eventText c start)).flatMap (fun t => ascii ",\n" ++ t) := by
  induction evs generalizing i with
  | nil => rfl
  | cons ev evs ih =>
      simp [fileEvents, hi, eventPieces_text, ih (Nat.succ_pos i), Piece.text, Punct.byte, ascii]

theorem outputPieces_text (evs : List (TraceEvent D)) :
    (outputPieces c start evs).flatMap Piece.text
      = ascii "[\n" ++ TraceWriter.separated (ascii ",\n") (evs.map (eventText c start)) ++ ascii "\n]\n" := by
  cases evs with
  | nil => rfl
  | cons ev evs =>
      simp [outputPieces, fileEvents, fileEvents_text c start Nat.one_pos, eventPieces_text,
        TraceWriter.separated, Piece.text, Punct.byte, ascii]

theorem argPieces_tokens (args : List TraceEvent.Arg) :
    memberTokens (args.map (fun a => (a.key, .str a.value)))
      = (argPieces 0 args).flatMap Piece.tokens ++ [Token.rbrace] := by
  have hmore : ∀ (args : List TraceEvent.Arg) (i : Nat), 0 < i →
      moreMemberTokens (args.map (fun a => (a.key, .str a.value)))
        = (argPieces i args).flatMap Piece.tokens ++ [Token.rbrace] := by
    intro args
    induction args with
    | nil =>
        intro i hi
        rfl
    | cons a args ih =>
        intro i hi
        simp [argPieces, moreMemberTokens, Value.tokens, Piece.tokens, Punct.token, hi, ih (i + 1)]
  cases args with
  | nil => rfl
  | cons a args => simp [argPieces, memberTokens, Value.tokens, Piece.tokens, Punct.token, hmore args 1]

theorem eventPieces_tokens (ev : TraceEvent D) :
    (eventJson c start ev).tokens = (eventPieces c start ev).flatMap Piece.tokens := by
  by_cases hargs : ev.args.isEmpty
  · simp [eventJson, eventPieces, hargs, Value.tokens, memberTokens, moreMemberTokens, Piece.tokens,
      Punct.token]
  · simp [eventJson, eventPieces, hargs, argPieces_tokens, Value.tokens, memberTokens, moreMemberTokens,
      Piece.tokens, Punct.token]

theorem outputPieces_tokens (evs : List (TraceEvent D)) :
    (Value.arr (evs.map (eventJson c start))).tokens
      = (outputPieces c start evs).flatMap Piece.tokens := by
  have hmore : ∀ (evs : List (TraceEvent D)) (i : Nat), 0 < i →
      moreElemTokens (evs.map (eventJson c start))
        = (fileEvents c start i evs).flatMap Piece.tokens ++ [Token.rbracket] := by
    intro evs
    induction evs with
    | nil =>
        intro i hi
        rfl
    | cons ev evs ih =>
        intro i hi
        simp [fileEvents, moreElemTokens, eventPieces_tokens, Piece.tokens, Punct.token, hi, ih (i + 1)]
  cases evs with
  | nil => rfl
  | cons ev evs =>
      simp [outputPieces, fileEvents, Value.tokens, elemTokens, eventPieces_tokens, Piece.tokens,
        Punct.token, hmore evs 1]

end Pieces

/-! ## Strings that can be written -/

/-- A string that can stand between quotes as it is. -/
def Quotable (s : Bytes) : Prop := Plain s ∧ Utf8.valid s

instance (s : Bytes) : Decidable (Quotable s) := inferInstanceAs (Decidable (Plain s ∧ Utf8.valid s = true))

structure TraceEvent.Writable {D : Type} (c : Chrono D) (ev : TraceEvent D) : Prop where
  name : Quotable ev.name
  category : Quotable ev.category
  args : ∀ a ∈ ev.args, Quotable a.key ∧ Quotable a.value
  duration : (c.micros ev.duration).isFinite

/-- The strings of a call can be written, and its duration is finite. -/
def TraceWriter.Call.Writable {D : Type} (c : Chrono D) : TraceWriter.Call D → Prop
  | .addEvent ev _ => ev.Writable c
  | .addCounter name series _ _ _ => Quotable name ∧ Quotable series
  | .flush => True

/-- The ASCII characters from `#` on, without the backslash. -/
def isCleanByte (b : UInt8) : Bool := 0x23 ≤ b && b < 0x80 && b ≠ 0x5C

theorem quotable_of_clean {s : Bytes} (h : s.all isCleanByte) : Quotable s := by
  simp only [List.all_eq_true, isCleanByte, Bool.and_eq_true, decide_eq_true_eq] at h
  constructor
  · intro b hb
    obtain ⟨⟨hlow, -⟩, hback⟩ := h b hb
    refine ⟨?_, hback, ?_⟩
    · rintro rfl
      revert hlow
      decide
    · exact fun hlt => absurd (UInt8.lt_of_le_of_lt hlow hlt) (by decide)
  · have hvalid := Utf8.valid_ascii_append (fun b hb => (h b hb).1.2) []
    rwa [List.append_nil] at hvalid

theorem isCleanByte_digit : ∀ d < 10, isCleanByte (digit d) := by decide

theorem isCleanByte_decimal (n : Nat) : (decimal n).all isCleanByte := by
  unfold decimal
  split
  · decide
  · rw [List.all_eq_true]
    intro b hb
    obtain ⟨d, hd, rfl⟩ := List.mem_map.1 hb
    exact isCleanByte_digit d (Nat.digits_lt_base (by decide) (List.mem_reverse.1 hd))

theorem isCleanByte_decimals (prec units : Nat) : (decimals prec units).all isCleanByte := by
  rw [List.all_eq_true]
  intro b hb
  obtain ⟨i, -, rfl⟩ := List.mem_map.1 hb
  exact isCleanByte_digit _ (Nat.mod_lt _ (by decide))

/-- What `std::to_string` makes of a `double`. -/
theorem quotable_text (prec : Nat) (d : Double) : Quotable (d.text prec) := by
  have hsign : ∀ neg, (signText neg).all isCleanByte := by
    intro neg
    cases neg <;> decide
  have hdot : (ascii ".").all isCleanByte := by decide
  have hinf : (ascii "inf").all isCleanByte := by decide
  have hnan : (ascii "nan").all isCleanByte := by decide
  refine quotable_of_clean ?_
  cases d with
  | finite x =>
      rw [Double.text, Fixed.text, List.all_append, List.all_append, List.all_append, hsign,
        isCleanByte_decimal, hdot, isCleanByte_decimals]
      rfl
  | inf neg =>
      rw [Double.text, List.all_append, hsign, hinf]
      rfl
  | nan neg =>
      rw [Double.text, List.all_append, hsign, hnan]
      rfl

section Readable

variable {D : Type} (c : Chrono D) (start : Int)

theorem readable_str {s : Bytes} : (Piece.str s).Readable ↔ Quotable s := Iff.rfl

theorem argPieces_readable (i : Nat) (args : List TraceEvent.Arg) :
    (∀ p ∈ argPieces i args, p.Readable) ↔ ∀ a ∈ args, Quotable a.key ∧ Quotable a.value := by
  induction args generalizing i with
  | nil => simp [argPieces]
  | cons a args ih =>
      rw [argPieces, List.forall_mem_append, ih, List.forall_mem_append, List.forall_mem_cons]
      by_cases hi : 0 < i <;> simp [hi, readable_str]

theorem quotable_literals : ∀ s ∈ [ascii "name", ascii "cat", ascii "ph", ascii "ts", ascii "dur", ascii "pid",
    ascii "tid", ascii "args", ascii "counter"], Quotable s := by decide

theorem quotable_char (ph : TraceEvent.Phase) : Quotable ph.char := by
  cases ph <;> decide

theorem eventPieces_readable (ev : TraceEvent D) :
    (∀ p ∈ eventPieces c start ev, p.Readable) ↔ ev.Writable c := by
  -- all that is not a string of the event or its duration can always be read
  have hlit := quotable_literals
  simp only [List.forall_mem_cons] at hlit
  obtain ⟨hname, hcat, hph, hts, hdur, hpid, htid, hargs, -⟩ := hlit
  have htail : (∀ p ∈ (if ev.args.isEmpty then [.num (intText ev.threadId) .rbrace]
      else [.num (intText ev.threadId) .comma, .str (ascii "args"), .punct .colon, .punct .lbrace]
        ++ argPieces 0 ev.args ++ [.punct .rbrace, .punct .rbrace] : List Piece), p.Readable) ↔
      ∀ a ∈ ev.args, Quotable a.key ∧ Quotable a.value := by
    split
    · next hempty => simp [List.isEmpty_iff.1 hempty, Piece.readable_num, isNumber_intText]
    · rw [List.forall_mem_append, List.forall_mem_append, argPieces_readable]
      simp [readable_str, Piece.readable_num, isNumber_intText, hargs]
  rw [eventPieces, List.forall_mem_append, htail]
  simp only [List.forall_mem_cons, List.not_mem_nil, false_imp_iff, implies_true, readable_str,
    Piece.readable_num, Piece.readable_blank, Piece.readable_punct, isNumber_fixed, isNumber_intText,
    isNumber_double, quotable_char, hname, hcat, hph, hts, hdur, hpid, htid, true_and, and_true]
  constructor
  · rintro ⟨⟨hn, hc, hd⟩, ha⟩
    exact ⟨hn, hc, ha, hd⟩
  · intro h
    exact ⟨⟨h.name, h.category, h.duration⟩, h.args⟩

theorem outputPieces_readable (evs : List (TraceEvent D)) :
    (∀ p ∈ outputPieces c start evs, p.Readable) ↔ ∀ ev ∈ evs, ev.Writable c := by
  have hevents : ∀ i, (∀ p ∈ fileEvents c start i evs, p.Readable) ↔ ∀ ev ∈ evs, ev.Writable c := by
    induction evs with
    | nil => simp [fileEvents]
    | cons ev evs ih =>
        intro i
        rw [fileEvents, List.forall_mem_append, List.forall_mem_append, ih, eventPieces_readable,
          List.forall_mem_cons]
        by_cases hi : 0 < i <;> simp [hi]
  rw [outputPieces, List.forall_mem_append, List.forall_mem_append, hevents]
  simp

/-- The strings a counter adds to those of its call can be written. -/
theorem writable_counterEvent {name series : Bytes} {value : Double} {now : Int} :
    (TraceWriter.counterEvent c name series value now).Writable c ↔ Quotable name ∧ Quotable series := by
  constructor
  · intro h
    exact ⟨h.name, (h.args _ (List.mem_singleton_self _)).1⟩
  · rintro ⟨hname, hseries⟩
    refine ⟨hname, quotable_literals _ (by simp [TraceWriter.counterEvent]), ?_, ?_⟩
    · intro a ha
      obtain rfl := List.mem_singleton.1 ha
      exact ⟨hseries, quotable_text 6 value⟩
    · show (c.micros c.zero).isFinite
      rw [c.micros_zero]
      rfl

theorem writable_withThreadId {hash : Nat} {ev : TraceEvent D} :
    (TraceWriter.withThreadId hash ev).Writable c ↔ ev.Writable c := by
  unfold TraceWriter.withThreadId
  split
  · exact ⟨fun h => ⟨h.name, h.category, h.args, h.duration⟩,
      fun h => ⟨h.name, h.category, h.args, h.duration⟩⟩
  · exact Iff.rfl

theorem added_writable (calls : List (TraceWriter.Call D)) :
    (∀ ev ∈ TraceWriter.added c calls, ev.Writable c) ↔ ∀ call ∈ calls, call.Writable c := by
  induction calls with
  | nil => simp [TraceWriter.added]
  | cons call calls ih =>
      rw [List.forall_mem_cons, ← ih]
      cases call with
      | addEvent ev hash =>
          rw [TraceWriter.added, List.forall_mem_cons, writable_withThreadId]
          rfl
      | addCounter name series value now hash =>
          rw [TraceWriter.added, List.forall_mem_cons, writable_withThreadId, writable_counterEvent]
          rfl
      | flush =>
          rw [TraceWriter.added]
          simp [TraceWriter.Call.Writable]

end Readable

/-- **When the trace is valid JSON.** The file is read as an array of the events that were added, in order and
    with their strings, exactly if the strings of every call can be written and its duration is finite. -/
theorem output_parses_iff {D : Type} (c : Chrono D) (start : Int) (calls : List (TraceWriter.Call D)) :
    parseText (TraceWriter.output c start calls)
        = some (.arr ((TraceWriter.added c calls).map (eventJson c start))) ↔
      ∀ call ∈ calls, call.Writable c := by
  rw [TraceWriter.output_eq, ← outputPieces_text, parseText_pieces (outputPieces_tokens c start _),
    outputPieces_readable, added_writable]

/-- A quote in the name of an event ends the string. -/
theorem quoted_not_parsed :
    parseText (TraceWriter.output TraceWriter.nanoseconds 1000
        [.addEvent (TraceWriter.plainEvent (ascii "say \"hi\"")) 0])
      ≠ some (.arr [eventJson TraceWriter.nanoseconds 1000 (TraceWriter.plainEvent (ascii "say \"hi\""))]) := by
  intro h
  have hnone : (parseText (TraceWriter.output TraceWriter.nanoseconds 1000
      [.addEvent (TraceWriter.plainEvent (ascii "say \"hi\"")) 0])).isNone := by decide +kernel
  rw [h] at hnone
  cases hnone

end CacheFlow
