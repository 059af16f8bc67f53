import Surface.Span
import Surface.Token.Basic

/-!
# Parts of nodes

What the nodes of all sorts are built from: marks, names in their places, paths, literals and
operators.
-/

namespace Surface

/-- The identity of a node: its number among the nodes of its sort, in the order in which they
were finished, and the text it covers. -/
structure Mark where
  number : Nat
  span : Span
deriving DecidableEq, Repr, Inhabited

/-- A name in its place. -/
structure Ident (ν : Type := String) where
  name : ν
  span : Span
deriving DecidableEq, Repr

/-- One or more names joined by dots. -/
structure Path (ν : Type := String) where
  head : Ident ν
  tail : List (Ident ν)
deriving DecidableEq, Repr

namespace Path

variable {ν : Type}

/-- The names of a path in order. -/
def segments (p : Path ν) : List (Ident ν) := p.head :: p.tail

/-- A path covers all its names. -/
def span (p : Path ν) : Span := p.tail.foldl (fun s i => s.merge i.span) p.head.span

/-- The path with one more name. -/
def push (p : Path ν) (i : Ident ν) : Path ν := ⟨p.head, p.tail ++ [i]⟩

end Path

/-- A literal. -/
inductive Literal (ν : Type := String)
  /-- A string with its decoded contents. -/
  | string (contents : ν)
  | char (value : Char)
  | number (value : Number ν)
deriving DecidableEq, Repr

/-- The literal a token spells. -/
def TokenKind.literal? {ν : Type} : TokenKind ν → Option (Literal ν)
  | .string s => some (.string s)
  | .char c => some (.char c)
  | .number n => some (.number n)
  | _ => none

/-- An operator in its place (`OpToken`). -/
structure Operator (ν : Type := String) where
  symbols : ν
  span : Span
deriving DecidableEq, Repr

end Surface
