import PackedBits.WordStream

/-!
# Observed streams

Two wrappers make visible how a stream is used.  A `Recorded` sink keeps the calls made on it, in
order, those that fail included; a `Tallied` source counts how many words it has been asked for.
Neither changes what the stream beneath answers.
-/

namespace PackedBits

variable {w : Width}

/-! ### The calls on a sink -/

/-- A call on a sink. -/
inductive SinkCall (w : Width) where
  | write (word : Word w)
  | flush
  deriving DecidableEq

/-- A sink and the calls that were made on it. -/
structure Recorded (w : Width) (κ : Type) where
  sink : κ
  calls : Array (SinkCall w) := #[]

namespace Recorded

variable {κ : Type} [WordSink κ w]

/-- Keeps a call and makes it. -/
def write (r : Recorded w κ) (x : Word w) : Outcome StreamError Unit × Recorded w κ :=
  let answer := WordSink.write r.sink x
  (answer.1, { sink := answer.2, calls := r.calls.push (.write x) })

/-- Keeps a flush and makes it. -/
def flush (r : Recorded w κ) : Outcome StreamError Unit × Recorded w κ :=
  let answer := WordSink.flush r.sink
  (answer.1, { sink := answer.2, calls := r.calls.push .flush })

instance : WordSink (Recorded w κ) w where
  write := write
  flush := flush

end Recorded

/-! ### The reads of a source -/

/-- A source and how often it was read. -/
structure Tallied (σ : Type) where
  source : σ
  reads : Nat := 0

namespace Tallied

variable {σ : Type} [WordSource σ w]

/-- Counts a read and makes it. -/
def read (t : Tallied σ) : Outcome StreamError (Word w) × Tallied σ :=
  let answer := WordSource.read t.source
  (answer.1, { source := answer.2, reads := t.reads + 1 })

/-- Asks for the end, which is not a read. -/
def atEnd (t : Tallied σ) : Outcome StreamError Bool × Tallied σ :=
  let answer := WordSource.atEnd t.source
  (answer.1, { t with source := answer.2 })

instance : WordSource (Tallied σ) w where
  read := read
  atEnd := atEnd

end Tallied

end PackedBits
