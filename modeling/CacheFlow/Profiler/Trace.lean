import Mathlib.Data.Nat.Digits.Defs

set_option autoImplicit false

/-! # The trace file

`TraceWriter` buffers events and writes them to a file in the Chrome trace format: when 1000 are buffered, on
`flush()`, and when it is destroyed. A `std::string` is a list of bytes, and so is the file.

`Chrono` stands for the conversions of `std::chrono` to microseconds and for the rounding of a `double` that is
printed with a fixed number of decimals; a printed `double` is a sign and a count of its last decimal, or not
finite. What is not known of it does not matter here.

Whatever is flushed when, the file has the events in the order they were added (`output_eq`). -/

namespace CacheFlow

abbrev Bytes := List UInt8

/-- The bytes of a literal of the source. -/
def ascii (s : String) : Bytes := s.toList.map (fun c => c.toNat.toUInt8)

/-! ## Numbers -/

def digit (n : Nat) : UInt8 := (48 + n).toUInt8

def decimal (n : Nat) : Bytes := if n = 0 then [48] else (Nat.digits 10 n).reverse.map digit

/-- `<<` of an `int32_t`. -/
def intText (n : Int) : Bytes := (if n < 0 then ascii "-" else []) ++ decimal n.natAbs

/-- A finite `double`, rounded to some number of decimals: a sign and a count of the last decimal. -/
structure Fixed where
  neg : Bool
  units : Nat
  deriving DecidableEq, Repr

inductive Double where
  | finite (x : Fixed)
  | inf (neg : Bool)
  | nan (neg : Bool)
  deriving DecidableEq, Repr

/-- The last `prec` digits. -/
def decimals (prec units : Nat) : Bytes :=
  (List.range prec).map (fun i => digit (units / 10 ^ (prec - 1 - i) % 10))

def signText (neg : Bool) : Bytes := if neg then ascii "-" else []

/-- `std::fixed << std::setprecision(prec)`. -/
def Fixed.text (prec : Nat) (x : Fixed) : Bytes :=
  signText x.neg ++ decimal (x.units / 10 ^ prec) ++ ascii "." ++ decimals prec x.units

def Double.text (prec : Nat) : Double → Bytes
  | .finite x => x.text prec
  | .inf neg => signText neg ++ ascii "inf"
  | .nan neg => signText neg ++ ascii "nan"

/-- Microseconds from a number of clock ticks, which is finite, and from a `Duration`, which is a `double`
    itself, both rounded to tenths. -/
structure Chrono (D : Type) where
  ticks : Int → Fixed
  micros : D → Double
  zero : D
  micros_zero : micros zero = .finite { neg := false, units := 0 }

/-! ## Events -/

inductive TraceEvent.Phase
  | begin
  | end_
  | complete
  | instant
  | counter
  deriving DecidableEq, Repr

def TraceEvent.Phase.char : TraceEvent.Phase → Bytes
  | .begin => ascii "B"
  | .end_ => ascii "E"
  | .complete => ascii "X"
  | .instant => ascii "i"
  | .counter => ascii "C"

structure TraceEvent.Arg where
  key : Bytes
  value : Bytes
  deriving DecidableEq, Repr

structure TraceEvent (D : Type) where
  name : Bytes
  category : Bytes
  timestamp : Int
  duration : D
  threadId : Int := 0
  processId : Int := 0
  phase : TraceEvent.Phase := .complete
  args : List TraceEvent.Arg := []
  deriving DecidableEq, Repr

/-- The loop over the arguments, from argument `i`. -/
def argsText : Nat → List TraceEvent.Arg → Bytes
  | _, [] => []
  | i, a :: args =>
    (if 0 < i then ascii "," else []) ++ ascii "\"" ++ a.key ++ ascii "\":\"" ++ a.value ++ ascii "\""
      ++ argsText (i + 1) args

variable {D : Type} (c : Chrono D)

/-- What `write_event()` writes for an event, without the separator. -/
def eventText (startTime : Int) (ev : TraceEvent D) : Bytes :=
  ascii "  \x7b\"name\":\"" ++ ev.name
    ++ ascii "\",\"cat\":\"" ++ ev.category
    ++ ascii "\",\"ph\":\"" ++ ev.phase.char
    ++ ascii "\",\"ts\":" ++ (c.ticks (ev.timestamp - startTime)).text 1
    ++ ascii ",\"dur\":" ++ (c.micros ev.duration).text 1
    ++ ascii ",\"pid\":" ++ intText ev.processId
    ++ ascii ",\"tid\":" ++ intText ev.threadId
    ++ (if ev.args.isEmpty then [] else ascii ",\"args\":\x7b" ++ argsText 0 ev.args ++ ascii "\x7d")
    ++ ascii "\x7d"

/-! ## The writer -/

structure TraceWriter (D : Type) where
  isOpen : Bool
  startTime : Int
  file : Bytes
  events : List (TraceEvent D) := []
  firstEvent : Bool := true
  deriving DecidableEq, Repr

namespace TraceWriter

/-- The constructor; `opened` says whether the file could be opened. -/
def new (opened : Bool) (now : Int) : TraceWriter D :=
  { isOpen := opened,
    startTime := now,
    file := if opened then ascii "[\n" else [] }

def writeEvent (w : TraceWriter D) (ev : TraceEvent D) : TraceWriter D :=
  if w.isOpen then
    { w with
      file := w.file ++ (if w.firstEvent then [] else ascii ",\n") ++ eventText c w.startTime ev,
      firstEvent := false }
  else w

/-- The loop over the buffer, which is then cleared. -/
def writeEvents (w : TraceWriter D) : TraceWriter D :=
  { w.events.foldl (writeEvent c) w with events := [] }

/-- The event as it is buffered: 16 bits of the hash of the calling thread replace a missing thread id. -/
def withThreadId (hash : Nat) (ev : TraceEvent D) : TraceEvent D :=
  if ev.threadId = 0 then { ev with threadId := (hash &&& 0xFFFF : Nat) } else ev

def addEvent (hash : Nat) (w : TraceWriter D) (ev : TraceEvent D) : TraceWriter D :=
  let w := { w with events := w.events ++ [withThreadId hash ev] }
  if 1000 ≤ w.events.length then w.writeEvents c else w

/-- The event of `add_counter()`; `std::to_string` prints six decimals. -/
def counterEvent (name series : Bytes) (value : Double) (now : Int) : TraceEvent D :=
  { name := name,
    category := ascii "counter",
    phase := .counter,
    timestamp := now,
    duration := c.zero,
    args := [{ key := series, value := value.text 6 }] }

def flush (w : TraceWriter D) : TraceWriter D := w.writeEvents c

/-- The destructor. -/
def destroy (w : TraceWriter D) : TraceWriter D :=
  let w := w.flush c
  if w.isOpen then { w with isOpen := false, file := w.file ++ ascii "\n]\n" } else w

/-- The calls to a writer, with the hash of the calling thread and the time. -/
inductive Call (D : Type) where
  | addEvent (ev : TraceEvent D) (hash : Nat)
  | addCounter (name series : Bytes) (value : Double) (now : Int) (hash : Nat)
  | flush
  deriving DecidableEq, Repr

def step (w : TraceWriter D) : Call D → TraceWriter D
  | .addEvent ev hash => w.addEvent c hash ev
  | .addCounter name series value now hash => w.addEvent c hash (counterEvent c name series value now)
  | .flush => w.flush c

/-- The bytes of the file after the calls and the destruction of a writer that could open it. -/
def output (start : Int) (calls : List (Call D)) : Bytes :=
  ((calls.foldl (step c) (new true start)).destroy c).file

/-- The events that the calls add. -/
def added : List (Call D) → List (TraceEvent D)
  | [] => []
  | .addEvent ev hash :: calls => withThreadId hash ev :: added calls
  | .addCounter name series value now hash :: calls =>
    withThreadId hash (counterEvent c name series value now) :: added calls
  | .flush :: calls => added calls

def separated (sep : Bytes) : List Bytes → Bytes
  | [] => []
  | x :: xs => x ++ xs.flatMap (fun y => sep ++ y)

theorem separated_concat (sep : Bytes) (xs : List Bytes) (x : Bytes) :
    separated sep (xs ++ [x]) = separated sep xs ++ (if xs.isEmpty then [] else sep) ++ x := by
  cases xs with
  | nil => simp [separated]
  | cons y ys => simp [separated]

/-- The events `done` are in the file, and nothing else is. -/
structure Wrote (start : Int) (done : List (TraceEvent D)) (w : TraceWriter D) : Prop where
  isOpen : w.isOpen = true
  startTime : w.startTime = start
  file : w.file = ascii "[\n" ++ separated (ascii ",\n") (done.map (eventText c start))
  firstEvent : w.firstEvent = done.isEmpty

variable {c} {start : Int} {done : List (TraceEvent D)} {w : TraceWriter D}

theorem wrote_new : Wrote c start [] (new true start) :=
  ⟨rfl, rfl, by simp [new, separated], rfl⟩

theorem Wrote.writeEvent (h : Wrote c start done w) (ev : TraceEvent D) :
    Wrote c start (done ++ [ev]) (w.writeEvent c ev) := by
  unfold TraceWriter.writeEvent
  rw [if_pos h.isOpen]
  refine ⟨h.isOpen, h.startTime, ?_, by simp⟩
  simp only [h.file, h.firstEvent, h.startTime, List.map_append, List.map_singleton, separated_concat,
    List.isEmpty_map, List.append_assoc]

theorem Wrote.foldl (h : Wrote c start done w) (evs : List (TraceEvent D)) :
    Wrote c start (done ++ evs) (evs.foldl (TraceWriter.writeEvent c) w) := by
  induction evs generalizing done w with
  | nil => simpa using h
  | cons ev evs ih =>
      have hrest := ih (h.writeEvent ev)
      rwa [List.append_assoc] at hrest

theorem Wrote.of_events (h : Wrote c start done w) (evs : List (TraceEvent D)) :
    Wrote c start done { w with events := evs } :=
  ⟨h.isOpen, h.startTime, h.file, h.firstEvent⟩

theorem Wrote.writeEvents (h : Wrote c start done w) :
    Wrote c start (done ++ w.events) (w.writeEvents c) :=
  (h.foldl w.events).of_events []

/-- An event that is added is in the buffer, or written with the buffer. -/
theorem Wrote.addEvent (h : Wrote c start done w) (hash : Nat) (ev : TraceEvent D) :
    ∃ done', Wrote c start done' (w.addEvent c hash ev) ∧
      done' ++ (w.addEvent c hash ev).events = done ++ w.events ++ [withThreadId hash ev] := by
  have hbuffered := h.of_events (w.events ++ [withThreadId hash ev])
  unfold TraceWriter.addEvent
  dsimp only
  split
  · refine ⟨_, hbuffered.writeEvents, ?_⟩
    simp [TraceWriter.writeEvents]
  · exact ⟨done, hbuffered, by simp⟩

/-- **No event is lost, repeated or moved.** The events written and those in the buffer are the events added,
    in order. -/
theorem Wrote.run (h : Wrote c start done w) (calls : List (Call D)) :
    ∃ done', Wrote c start done' (calls.foldl (step c) w) ∧
      done' ++ (calls.foldl (step c) w).events = done ++ w.events ++ added c calls := by
  induction calls generalizing done w with
  | nil => exact ⟨done, h, by simp [added]⟩
  | cons call calls ih =>
      cases call with
      | addEvent ev hash =>
          obtain ⟨mid, hmid, heq⟩ := h.addEvent hash ev
          obtain ⟨done', hdone, heq'⟩ := ih hmid
          refine ⟨done', hdone, ?_⟩
          rw [List.foldl_cons, step, heq', heq, added, List.append_assoc, List.singleton_append]
      | addCounter name series value now hash =>
          obtain ⟨mid, hmid, heq⟩ := h.addEvent hash (counterEvent c name series value now)
          obtain ⟨done', hdone, heq'⟩ := ih hmid
          refine ⟨done', hdone, ?_⟩
          rw [List.foldl_cons, step, heq', heq, added, List.append_assoc, List.singleton_append]
      | flush =>
          obtain ⟨done', hdone, heq'⟩ := ih h.writeEvents
          refine ⟨done', hdone, ?_⟩
          rw [List.foldl_cons, step, flush, heq', added]
          simp [TraceWriter.writeEvents]

theorem output_eq (c : Chrono D) (start : Int) (calls : List (Call D)) :
    output c start calls
      = ascii "[\n" ++ separated (ascii ",\n") ((added c calls).map (eventText c start)) ++ ascii "\n]\n" := by
  have hnew : Wrote c start [] (new true start) := wrote_new
  obtain ⟨done, hdone, heq⟩ := hnew.run calls
  -- the destructor writes what is still in the buffer
  have hall := hdone.writeEvents
  rw [heq] at hall
  unfold output destroy flush
  rw [if_pos hall.isOpen]
  dsimp only
  rw [hall.file]
  rfl

/-- **Buffering does not change the file.** The file has the events that were added, in order, between the
    brackets; calls that add the same events lead to the same file, wherever they flush. -/
theorem output_buffering (c : Chrono D) (start : Int) (calls : List (Call D)) :
    output c start calls = ascii "[\n" ++ separated (ascii ",\n") ((added c calls).map (eventText c start))
        ++ ascii "\n]\n" ∧
      ∀ calls' : List (Call D), added c calls' = added c calls → output c start calls' = output c start calls := by
  refine ⟨output_eq c start calls, ?_⟩
  intro calls' heq
  rw [output_eq, output_eq, heq]

/-- Ticks of a nanosecond, cut off after tenths of a microsecond; durations as they are printed. -/
def nanoseconds : Chrono Double where
  ticks := fun t => { neg := decide (t < 0), units := t.natAbs / 100 }
  micros := id
  zero := .finite { neg := false, units := 0 }
  micros_zero := rfl

/-- An event without arguments that takes no time. -/
def plainEvent (name : Bytes) : TraceEvent Double :=
  { name := name,
    category := ascii "mark",
    timestamp := 2500,
    duration := nanoseconds.zero,
    threadId := 7 }

/-- Two events with and without a flush between them. -/
theorem two_buffering : output nanoseconds 1000
    [.addEvent (plainEvent (ascii "a")) 0, .flush, .addEvent (plainEvent (ascii "b")) 0, .flush]
      = output nanoseconds 1000 [.addEvent (plainEvent (ascii "a")) 0, .addEvent (plainEvent (ascii "b")) 0] :=
  (output_buffering nanoseconds 1000
    [.addEvent (plainEvent (ascii "a")) 0, .addEvent (plainEvent (ascii "b")) 0]).2 _ rfl

end TraceWriter

end CacheFlow
