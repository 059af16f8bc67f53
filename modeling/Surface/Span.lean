/-!
# Spans

A span is a half-open range of byte offsets into one source text. Offsets are 32-bit numbers
in files and messages; here they are natural numbers, and the two places where the width
shows (`Span.size` and `Span.ofRange`) say so.

* `Span.merge`: the smallest span that covers two spans.
* `Span.ofRange`: the span of a range given by 64-bit offsets, if both fit.
-/

namespace Surface

/-- The half-open byte range from `start` up to `stop`. -/
structure Span where
  start : Nat
  stop : Nat
deriving DecidableEq, Repr, Inhabited

namespace Span

/-- The empty span at `offset`. -/
def point (offset : Nat) : Span := ⟨offset, offset⟩

/-- The number of different offsets; the largest offset is one less. -/
def offsetBound : Nat := 4294967296

/-- The number of bytes covered, as a 32-bit number: that of a reversed span wraps around
(`Span::len`). -/
def size (s : Span) : Nat := (s.stop + offsetBound - s.start) % offsetBound

/-- A span is empty when it ends where it starts. -/
def isEmpty (s : Span) : Bool := s.start == s.stop

/-- The start of a span belongs to it, its end does not. -/
def contains (s : Span) (offset : Nat) : Bool := s.start ≤ offset && offset < s.stop

/-- Containment of spans, both edges included. -/
def containsSpan (outer inner : Span) : Bool :=
  outer.start ≤ inner.start && inner.stop ≤ outer.stop

/-- The smallest span that covers both. -/
def merge (a b : Span) : Span := ⟨min a.start b.start, max a.stop b.stop⟩

/-- Spans are ordered by their starts, then by their ends. -/
def compare (a b : Span) : Ordering :=
  (Ord.compare a.start b.start).then (Ord.compare a.stop b.stop)

/-- The span as `start..stop`. -/
def text (s : Span) : String := toString s.start ++ ".." ++ toString s.stop

/-- Why a range of offsets is no span (`SpanError`). -/
inductive RangeError
  | startTooLarge (offset : Nat)
  | stopTooLarge (offset : Nat)
deriving DecidableEq, Repr

/-- The wording of a range error. -/
def RangeError.message : RangeError → String
  | .startTooLarge offset => "span start " ++ toString offset ++ " exceeds u32::MAX"
  | .stopTooLarge offset => "span end " ++ toString offset ++ " exceeds u32::MAX"

/-- The span from `start` to `stop`, if both are 32-bit offsets; the start is checked first
(`Span::try_from_range`). -/
def ofRange (start stop : Nat) : Except RangeError Span :=
  if offsetBound ≤ start then .error (.startTooLarge start)
  else if offsetBound ≤ stop then .error (.stopTooLarge stop)
  else .ok ⟨start, stop⟩

end Span

end Surface
