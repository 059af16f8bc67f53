import Surface.Comment
import Surface.Lexeme.Basic
import Surface.Lexeme.Escape
import Surface.Naming
import Surface.Text.Blank
import Surface.Text.Bytes
import Surface.Token.Stream

/-!
# From lexemes to tokens

Lexemes become tokens one by one. Blanks and comments leave a mark in the spacing of the next
token; newlines and semicolons that follow each other merge into one line break, which is
emitted when the next token is known. Spellings enter the name table in the order of the
lexemes.

* `Lexeme.kind?`: the token a lexeme stands for.
* `TokenKind.enter`: the names of a token enter the name table.
* `Lexing`: the state between two lexemes, and `Lexing.take`, one step.
* `lexCharsAs`, `lex`: tokens, comments and the first line of a text.
-/

namespace Surface

/-- A first line that starts with `#!`. -/
structure Shebang where
  /-- The line without its end. -/
  text : String
  span : Span
deriving DecidableEq, Repr

/-- What a text is made of (`LexOutput`). -/
structure Lexed (ν : Type := String) where
  tokens : Tokens ν
  comments : Comments ν
  shebang : Option Shebang
  names : NameTable

namespace Lexeme

/-! ## Tokens of lexemes -/

/-- A number literal split into base, digits and suffix (`Cooker::number`). -/
def numberOf (base : Base) (isFloat : Bool) (text : List Char) : Number :=
  let body := if base = .decimal then text else text.drop 2
  let isPart c := base.isDigit c || (isFloat && c == '.')
  ⟨base, String.ofList (body.takeWhile isPart), Suffix.ofText? (body.dropWhile isPart), isFloat⟩

/-- The text between the quotes of a literal (`strip_delims`). -/
def unquoted (text : List Char) : List Char := (text.drop 1).dropLast

/-- A word is a keyword or a name (in `Cooker::run`). -/
def wordKind (text : List Char) : TokenKind :=
  let s := String.ofList text
  match Keyword.ofText? s with
  | some k => .keyword k
  | none => .ident s

/-- A run of symbols is reserved or an operator (in `Cooker::run`). -/
def symbolsKind (text : List Char) : TokenKind :=
  let s := String.ofList text
  match Reserved.ofText? s with
  | some r => .reserved r
  | none => .operator s

/-- The token that a lexeme stands for; blanks, separators and comments stand for none
(in `Cooker::run`). -/
def kind? (l : Lexeme) : Option TokenKind :=
  match l.kind with
  | .blanks | .newline | .semicolon | .lineComment | .docComment => none
  | .word => some (wordKind l.text)
  | .quotedSymbols => some (.symbolIdent (String.ofList (l.text.drop 1)))
  | .symbols => some (symbolsKind l.text)
  | .number base isFloat => some (.number (numberOf base isFloat l.text))
  | .string => some (.string (String.ofList (decodeString (unquoted l.text))))
  | .openString => some (.error .unterminatedString)
  | .char =>
    match decodeChar? (unquoted l.text) with
    | some c => some (.char c)
    | none => some (.error .unterminatedChar)
  | .openChar => some (.error .unterminatedChar)
  | .punct p => some (.punct p)
  | .unknown => some (.error .unknownToken)

end Lexeme

/-- The kind whose names have entered a name table, and that table. -/
def TokenKind.enter {ν : Type} [Naming ν] (names : NameTable) : TokenKind → TokenKind ν × NameTable
  | .ident s => let (n, names) := Naming.enter names s; (.ident n, names)
  | .symbolIdent s => let (n, names) := Naming.enter names s; (.symbolIdent n, names)
  | .operator s => let (n, names) := Naming.enter names s; (.operator n, names)
  | .string s => let (n, names) := Naming.enter names s; (.string n, names)
  | .number ⟨base, digits, suffix, isFloat⟩ =>
    let (n, names) := Naming.enter names digits
    (.number ⟨base, n, suffix, isFloat⟩, names)
  | .char c => (.char c, names)
  | .keyword k => (.keyword k, names)
  | .reserved r => (.reserved r, names)
  | .punct p => (.punct p, names)
  | .lineBreak => (.lineBreak, names)
  | .error e => (.error e, names)
  | .eof => (.eof, names)

/-! ## One pass over the lexemes -/

/-- Separators that have been seen but not emitted. -/
structure PendingBreak where
  /-- From the first separator to the last. -/
  span : Span
  hasSemicolon : Bool
  /-- What stood before the first separator. -/
  spacing : Spacing

/-- The state between two lexemes (`Cooker`). -/
structure Lexing (ν : Type := String) where
  /-- The byte offset of the next lexeme. -/
  offset : Nat
  names : NameTable
  tokens : Tokens ν
  comments : Comments ν
  /-- What has been seen since the last token or first separator. -/
  spacing : Spacing
  pending : Option PendingBreak

namespace Lexing

variable {ν : Type}

/-- The line break token of some separators (in `Cooker::emit`). -/
def breakToken (b : PendingBreak) : Token ν :=
  ⟨.lineBreak, b.span, b.spacing.setIf b.hasSemicolon Spacing.hasSemicolon⟩

/-- Emits a token, and before it the line break that is pending. -/
def emit (st : Lexing ν) (kind : TokenKind ν) (span : Span) : Lexing ν :=
  let tokens := match st.pending with
    | some b => st.tokens.push (breakToken b)
    | none => st.tokens
  { st with
    tokens := tokens.push ⟨kind, span, st.spacing⟩
    spacing := .none
    pending := none }

/-- Adds a separator to the pending line break, or starts one (`Cooker::separator`). -/
def separate (st : Lexing ν) (span : Span) (isSemicolon : Bool) : Lexing ν :=
  let (pending, spacing) := match st.pending with
    | some b =>
      ({ b with span := b.span.merge span, hasSemicolon := b.hasSemicolon || isSemicolon },
        st.spacing)
    | none => (⟨span, isSemicolon, st.spacing⟩, .none)
  { st with
    pending := some pending
    spacing := spacing.setIf (!isSemicolon) Spacing.newlineBefore }

/-- Puts a comment aside; `marker` is the number of characters before its text. -/
def comment [Naming ν] (st : Lexing ν) (kind : CommentKind) (marker : Nat) (text : List Char)
    (span : Span) : Lexing ν :=
  let (content, names) := Naming.enter st.names (String.ofList (Text.trim (text.drop marker)))
  { st with
    names
    comments := st.comments.push ⟨content, span, kind⟩
    spacing := st.spacing.set Spacing.triviaBefore }

/-- One lexeme, which spans `span` (in `Cooker::run`). -/
def accept [Naming ν] (st : Lexing ν) (l : Lexeme) (span : Span) : Lexing ν :=
  match l.kind with
  | .blanks => { st with spacing := st.spacing.set Spacing.spaceBefore }
  | .newline => st.separate span false
  | .semicolon => st.separate span true
  | .lineComment => st.comment .line 2 l.text span
  | .docComment => st.comment .doc 3 l.text span
  | _ =>
    match l.kind? with
    | some kind =>
      let (kind, names) := kind.enter st.names
      ({ st with names } : Lexing ν).emit kind span
    | none => st

/-- One step: the next lexeme, which starts at the offset reached so far (in `Cooker::run`). -/
def take [Naming ν] (st : Lexing ν) (l : Lexeme) : Lexing ν :=
  let stop := st.offset + Text.byteLength l.text
  { st.accept l ⟨st.offset, stop⟩ with offset := stop }

/-- The state before the first lexeme. -/
def start (names : NameTable) (offset : Nat) : Lexing ν :=
  ⟨offset, names, .empty, .empty, .none, none⟩

/-- The end of the text is a token of its own. -/
def finish (st : Lexing ν) : Lexing ν := st.emit .eof (.point st.offset)

end Lexing

/-! ## Whole texts -/

/-- The first line of a text, when it starts with `#!` (in `lex`). -/
def shebangOf (cs : List Char) : Option (List Char) :=
  match cs with
  | '#' :: '!' :: _ => some (cs.takeWhile fun c => !Lexeme.endsLine c)
  | _ => none

/-- The tokens and comments of a text given as characters; its names go into `names` (`lex`). -/
def lexCharsAs (ν : Type) [Naming ν] (cs : List Char) (names : NameTable) : Lexed ν :=
  let first := shebangOf cs
  let skipped := first.getD []
  let offset := Text.byteLength skipped
  let st : Lexing ν :=
    (Lexeme.lexemes (cs.drop skipped.length)).foldl Lexing.take (.start names offset)
  let st := st.finish
  ⟨st.tokens, st.comments, first.map fun l => ⟨String.ofList l, ⟨0, offset⟩⟩, st.names⟩

/-- The tokens and comments of a text given as characters, whose names are spellings. -/
def lexChars (cs : List Char) (names : NameTable) : Lexed := lexCharsAs String cs names

/-- The tokens and comments of a text, whose names are spellings. -/
def lex (source : String) (names : NameTable) : Lexed := lexChars source.toList names

end Surface
