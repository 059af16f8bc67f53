import Surface.Token.Basic

/-!
# Token streams

The tokens of one text in order. A stream that comes from a text ends in its only token of
kind `eof`; positions behind the end read as such a token.
-/

namespace Surface

/-- A sequence of tokens (`TokenList`). -/
structure Tokens (ν : Type := String) where
  items : Array (Token ν)
deriving DecidableEq, Repr

namespace Tokens

variable {ν : Type}

/-- The stream without tokens. -/
def empty : Tokens ν := ⟨#[]⟩

/-- The number of tokens. -/
def size (ts : Tokens ν) : Nat := ts.items.size

/-- The token at a position. -/
def get? (ts : Tokens ν) (i : Nat) : Option (Token ν) := ts.items[i]?

/-- The last token. -/
def last? (ts : Tokens ν) : Option (Token ν) := ts.items.back?

/-- The token at a position; behind the end it is the last one. -/
def get (ts : Tokens ν) (i : Nat) : Token ν :=
  (ts.get? i).getD (ts.last?.getD Token.endOfNothing)

/-- The tag at a position; behind the end it is that of an end. -/
def tag (ts : Tokens ν) (i : Nat) : Tag := ((ts.get? i).map Token.tag).getD .eof

/-- The stream with one more token. -/
def push (ts : Tokens ν) (t : Token ν) : Tokens ν := ⟨ts.items.push t⟩

/-- The stream whose last token covers `span` as well (`TokenList::last_mut`). -/
def widenLast (ts : Tokens ν) (span : Span) : Tokens ν :=
  match ts.last? with
  | some t => ⟨ts.items.pop.push { t with span := t.span.merge span }⟩
  | none => ts

/-- A position whose tag is not `eof` lies inside the stream. -/
theorem lt_size_of_tag_ne_eof {ts : Tokens ν} {i : Nat} (h : ts.tag i ≠ .eof) : i < ts.size := by
  apply Decidable.byContradiction
  intro hi
  exact h (by simp [tag, get?, Array.getElem?_eq_none (Nat.not_lt.1 hi)])

end Tokens

end Surface
