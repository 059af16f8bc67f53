import Surface.Comment
import Surface.Naming
import Surface.Token.Stream

/-!
# Tokens under other names

The tokens and comments of a stream, with other names in the place of theirs. Names stand in names,
operators, strings, the digits of numbers and comments; everything else is left as it is.

* `TokenKind.map`, `Tokens.map`, `Comments.map`.
* `TokenKind.names`, `Tokens.HeldBy`, `Comments.HeldBy`: the names of tokens, and tokens and
  comments all of whose names a table holds.
-/

namespace Surface

variable {ν μ : Type}

/-- A number under another name for its digits. -/
def Number.map (f : ν → μ) (n : Number ν) : Number μ := { n with digits := f n.digits }

namespace TokenKind

/-- A kind under other names. -/
def map (f : ν → μ) : TokenKind ν → TokenKind μ
  | ident n => ident (f n)
  | symbolIdent n => symbolIdent (f n)
  | operator n => operator (f n)
  | number n => number (n.map f)
  | string n => string (f n)
  | char c => char c
  | keyword k => keyword k
  | reserved r => reserved r
  | punct p => punct p
  | lineBreak => lineBreak
  | error e => error e
  | eof => eof

/-- The names in a kind: one at most. -/
def names : TokenKind ν → List ν
  | ident n | symbolIdent n | operator n | string n => [n]
  | number n => [n.digits]
  | _ => []

end TokenKind

/-- A token under other names. -/
def Token.map (f : ν → μ) (t : Token ν) : Token μ := { t with kind := t.kind.map f }

namespace Tokens

/-- A stream under other names. -/
def map (f : ν → μ) (ts : Tokens ν) : Tokens μ := ⟨ts.items.map (Token.map f)⟩

/-- All names of a stream have been given out by a table. -/
def HeldBy (ts : Tokens Handle) (names : NameTable) : Prop :=
  ∀ t ∈ ts.items, ∀ n ∈ t.kind.names, n.number < names.size

end Tokens

/-- A comment under another name for its content. -/
def Comment.map (f : ν → μ) (c : Comment ν) : Comment μ := { c with content := f c.content }

namespace Comments

/-- Comments under other names. -/
def map (f : ν → μ) (cs : Comments ν) : Comments μ := ⟨cs.items.map (Comment.map f)⟩

/-- All names of comments have been given out by a table. -/
def HeldBy (cs : Comments Handle) (names : NameTable) : Prop :=
  ∀ c ∈ cs.items, c.content.number < names.size

end Comments

end Surface
