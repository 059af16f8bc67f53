/-!
# Spacing

Blanks and comments are no tokens. What is left of them is one byte with every token: which
of them stood before it.
-/

namespace Surface

/-- What stood before a token, one bit for each (`TokenFlags`). -/
structure Spacing where
  bits : UInt8
deriving DecidableEq, Repr

namespace Spacing

/-- Nothing stood before the token. -/
def none : Spacing := ⟨0⟩

/-- Blanks stood before the token. -/
def spaceBefore : UInt8 := 1

/-- A newline stood before the token. -/
def newlineBefore : UInt8 := 2

/-- A comment stood before the token. -/
def triviaBefore : UInt8 := 4

/-- The token is a line break, and a semicolon is part of it. -/
def hasSemicolon : UInt8 := 8

/-- Whether one of the bits of `flag` is set. -/
def contains (s : Spacing) (flag : UInt8) : Bool := s.bits &&& flag != 0

/-- The spacing with all bits of `flag` set as well. -/
def set (s : Spacing) (flag : UInt8) : Spacing := ⟨s.bits ||| flag⟩

/-- The spacing with `flag` set as well, when `b` holds. -/
def setIf (s : Spacing) (b : Bool) (flag : UInt8) : Spacing := if b then s.set flag else s

/-- Nothing at all stood between the token and the one before it. -/
def isAdjacent (s : Spacing) : Bool := !s.contains (spaceBefore ||| newlineBefore ||| triviaBefore)

end Spacing

end Surface
