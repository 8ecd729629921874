import PackedBits.ByteStream

/-!
# Scripted streams

A scripted stream answers as its script says, call by call, until the script is used up.  Every way
in which a reader can portion its bytes and fail in between is the behaviour of some script, and so
is every pattern of short writes and failures of a sink; what holds over all scripts therefore holds
over all streams that fail finitely often.

A `ScriptReader` hands out the chunks of its script.  A chunk may take several reads, and an empty
chunk is a momentary end.  A `ScriptSink` takes a number of bytes for each write; when its script
has ended it takes everything.
-/

namespace PackedBits

/-! ### A scripted reader -/

/-- What a scripted reader does when it needs more bytes. -/
inductive ReadEvent where
  | chunk (bytes : List UInt8)
  | fail (error : IoError)
  deriving DecidableEq, Repr

/-- The rest of the current chunk, and what comes after it. -/
structure ScriptReader where
  chunk : List UInt8 := []
  events : List ReadEvent
  deriving DecidableEq, Repr

namespace ScriptReader

/-- The bytes at hand: the rest of the current chunk, or the next one. -/
def fill (s : ScriptReader) : Except IoError (List UInt8) × ScriptReader :=
  match s.chunk, s.events with
  | [], [] => (.ok [], s)
  | [], .chunk bytes :: events => (.ok bytes, { chunk := bytes, events })
  | [], .fail e :: events => (.error e, { chunk := [], events })
  | b :: bytes, _ => (.ok (b :: bytes), s)

/-- Takes at most `n` of the bytes at hand. -/
def read (s : ScriptReader) (n : Nat) : Except IoError (List UInt8) × ScriptReader :=
  match s.fill with
  | (.ok bytes, s) => (.ok (bytes.take n), { s with chunk := bytes.drop n })
  | (.error e, s) => (.error e, s)

theorem events_lt_of_fill_error {s s' : ScriptReader} {e : IoError}
    (h : s.fill = (.error e, s')) : s'.events.length < s.events.length := by
  obtain ⟨chunk, events⟩ := s
  cases chunk with
  | cons b bytes => simp [fill] at h
  | nil =>
    cases events with
    | nil => simp [fill] at h
    | cons event events =>
      cases event with
      | chunk bytes => simp [fill] at h
      | fail error =>
        simp only [fill, Prod.mk.injEq] at h
        rw [← h.2]
        exact Nat.lt_succ_self _

instance : ByteReader ScriptReader where
  read := read
  interruptions s := s.events.length
  length_le {s s' n bytes} h := by
    unfold read at h
    split at h
    · simp only [Prod.mk.injEq, Except.ok.injEq] at h
      rw [← h.1]
      exact List.length_take_le ..
    · simp at h
  interruptions_lt {s s' n e} h _ := by
    unfold read at h
    split at h
    · simp at h
    · next hfill =>
      simp only [Prod.mk.injEq] at h
      rw [← h.2]
      exact events_lt_of_fill_error hfill

instance : ByteSource ScriptReader where
  readExact := ByteReader.readExact
  atEnd s :=
    match s.fill with
    | (.ok bytes, s) => (.ok bytes.isEmpty, s)
    | (.error e, s) => (.error e, s)

end ScriptReader

/-! ### A scripted sink -/

/-- What a scripted sink does when bytes are written to it. -/
inductive WriteEvent where
  | take (count : Nat)
  | fail (error : IoError)
  deriving DecidableEq, Repr

/-- The bytes taken so far, and what the next writes and flushes do. No error is a flush that
succeeds. -/
structure ScriptSink where
  bytes : Array UInt8 := #[]
  writes : List WriteEvent := []
  flushes : List (Option IoError) := []

namespace ScriptSink

/-- The bytes taken, the writes to come and the outcome when all of `piece` is to be written. A
write is made again after an interruption, and a sink that takes nothing refuses. -/
def offer (bytes : Array UInt8) : List WriteEvent → List UInt8 →
    Outcome IoError Unit × Array UInt8 × List WriteEvent
  | events, [] => (.ok (), bytes, events)
  | [], piece => (.ok (), bytes ++ piece, [])
  | .take 0 :: events, _ => (.error (.refused .shortWrite), bytes, events)
  | .take count :: events, piece => offer (bytes ++ piece.take count) events (piece.drop count)
  | .fail e :: events, piece =>
    if e.kind = .interrupted then offer bytes events piece
    else (.error (.refused e), bytes, events)

/-- Writes all of `piece`. -/
def writeAll (s : ScriptSink) (piece : List UInt8) : Outcome IoError Unit × ScriptSink :=
  let answer := offer s.bytes s.writes piece
  (answer.1, { s with bytes := answer.2.1, writes := answer.2.2 })

/-- Flushes once. -/
def flush (s : ScriptSink) : Outcome IoError Unit × ScriptSink :=
  match s.flushes with
  | [] => (.ok (), s)
  | none :: flushes => (.ok (), { s with flushes })
  | some e :: flushes => (.error (.refused e), { s with flushes })

instance : ByteSink ScriptSink where
  writeAll := writeAll
  flush := flush

end ScriptSink

end PackedBits
