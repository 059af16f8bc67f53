import Surface.Span
import Surface.Token.Number
import Surface.Token.Spacing
import Surface.Token.Tag

/-!
# Tokens

A token is a classified piece of text with its span and spacing. Its spelling or decoded
contents are part of its kind.

* `TokenKind`: what a token is and what it spells; `TokenKind.tag` forgets the spelling.
* `TokenKind.ofWord`: the kind of a spelling that stands for itself.
-/

namespace Surface

/-- Why a piece of text is no token (`LexErrorKind`). -/
inductive LexicalError
  /-- Characters that start no token. -/
  | unknownToken
  /-- A string without a closing quote on its line. -/
  | unterminatedString
  /-- A character without a closing quote. -/
  | unterminatedChar
deriving DecidableEq, Repr

/-- The wording of a lexical error (`LexErrorKind::description`). -/
def LexicalError.describe : LexicalError → String
  | .unknownToken => "unknown token"
  | .unterminatedString => "unterminated string literal"
  | .unterminatedChar => "unterminated character literal"

/-- What a token is, with what it spells. -/
inductive TokenKind (ν : Type := String)
  | ident (name : ν)
  /-- A run of symbols used as a name; the backtick before it is not part of the name. -/
  | symbolIdent (name : ν)
  | operator (symbols : ν)
  | number (value : Number ν)
  /-- The decoded contents of a string. -/
  | string (contents : ν)
  | char (value : Char)
  | keyword (k : Keyword)
  | reserved (r : Reserved)
  | punct (p : Punct)
  /-- Newlines and semicolons, one or more of them. -/
  | lineBreak
  | error (e : LexicalError)
  | eof
deriving DecidableEq, Repr

namespace TokenKind

variable {ν : Type}

/-- The sort of a token. -/
def tag : TokenKind ν → Tag
  | ident _ => .ident
  | symbolIdent _ => .symbolIdent
  | operator _ => .operator
  | number _ => .number
  | string _ => .string
  | char _ => .char
  | keyword k => .keyword k
  | reserved r => .reserved r
  | punct p => .punct p
  | lineBreak => .lineBreak
  | error _ => .error
  | eof => .eof

/-- Kinds of different sorts are different. -/
theorem ne_of_tag {k k' : TokenKind ν} (h : k.tag ≠ k'.tag) : k ≠ k' := fun same => h (congrArg tag same)

theorem tag_eq_reserved {k : TokenKind ν} {r : Reserved} : k.tag = .reserved r ↔ k = .reserved r := by
  cases k <;> simp [tag]

/-- The name a token stands for, if it can name things. -/
def name? : TokenKind ν → Option ν
  | ident n | symbolIdent n => some n
  | _ => none

/-- The kind of a spelling: a keyword, else a reserved run, else a name. -/
def ofWord (s : String) : TokenKind :=
  match Keyword.ofText? s with
  | some k => keyword k
  | none =>
    match Reserved.ofText? s with
    | some r => reserved r
    | none => ident s

end TokenKind

/-- A token in its place. -/
structure Token (ν : Type := String) where
  kind : TokenKind ν
  span : Span
  spacing : Spacing
deriving DecidableEq, Repr

namespace Token

variable {ν : Type}

/-- The sort of a token. -/
def tag (t : Token ν) : Tag := t.kind.tag

/-- The end of a text that holds nothing. -/
def endOfNothing : Token ν := ⟨.eof, .point 0, .none⟩

end Token

end Surface
