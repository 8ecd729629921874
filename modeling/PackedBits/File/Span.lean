import PackedBits.Width

/-!
# Spans of a file

A span asks for the bytes of a file from one offset to another.  Clamped to the size of the file it
lies inside the file, whatever was asked for: first the end is lowered to the size, then the start
to the end.
-/

namespace PackedBits

/-- The bytes from the offset `start` up to the offset `stop`. -/
structure Span where
  start : Nat := 0
  stop : Nat := countLimit - 1
  deriving DecidableEq, Repr

namespace Span

/-- The part of a span that lies inside a file of so many bytes. -/
def clamp (s : Span) (size : Nat) : Span :=
  let stop := min s.stop size
  { start := min s.start stop, stop }

/-- The number of bytes in a span. -/
def length (s : Span) : Nat :=
  s.stop - s.start

/-- The bytes of a span. -/
def slice (s : Span) (bytes : List UInt8) : List UInt8 :=
  (bytes.drop s.start).take s.length

theorem start_clamp_le (s : Span) (size : Nat) : (s.clamp size).start ≤ (s.clamp size).stop := by
  simp only [clamp]
  omega

theorem stop_clamp_le (s : Span) (size : Nat) : (s.clamp size).stop ≤ size := by
  simp only [clamp]
  omega

theorem length_slice_clamp (s : Span) (bytes : List UInt8) :
    ((s.clamp bytes.length).slice bytes).length = (s.clamp bytes.length).length := by
  have := s.stop_clamp_le bytes.length
  simp only [slice, length, List.length_take, List.length_drop]
  omega

end Span

end PackedBits
