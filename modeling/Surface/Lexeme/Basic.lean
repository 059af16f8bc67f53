import Surface.Token.Number
import Surface.Token.Tag

/-!
# Lexemes

A text is cut into lexemes from left to right, and nothing is left over: blanks, newlines and
comments are lexemes like any other. Where a lexeme ends depends on the text from its first
character on and on nothing before it.

* `boundary`: the kind of the lexeme at the start of a text, and how many characters it takes
  behind the first.
* `lexemes`: all lexemes of a text.
* `flatMap_text_lexemes`: the lexemes together are the text.
-/

namespace Surface

/-- The kinds of lexeme (`RawTag`). -/
inductive LexemeKind
  | blanks
  | newline
  | semicolon
  | lineComment
  | docComment
  | word
  /-- A backtick and the symbols behind it. -/
  | quotedSymbols
  | symbols
  | number (base : Base) (isFloat : Bool)
  | string
  | openString
  | char
  | openChar
  | punct (p : Punct)
  /-- Characters that start no lexeme of another kind. -/
  | unknown
deriving DecidableEq, Repr

/-- A piece of text and its kind (`RawToken`). -/
structure Lexeme where
  kind : LexemeKind
  text : List Char
deriving DecidableEq, Repr

namespace Lexeme

/-! ## Character classes -/

/-- Space, tab, vertical tab and form feed. -/
def isHorizontal (c : Char) : Bool := c == ' ' || c == '\t' || c == '\x0b' || c == '\x0c'

/-- The two characters that end a line. -/
def endsLine (c : Char) : Bool := c == '\n' || c == '\r'

/-- The letters `a` to `z` in either case. -/
def isLetter (c : Char) : Bool := ('a' ≤ c && c ≤ 'z') || ('A' ≤ c && c ≤ 'Z')

/-- The digits `0` to `9`. -/
def isDigit (c : Char) : Bool := Base.decimal.isDigit c

/-- The characters that start a word (`is_ident_start`). -/
def startsWord (c : Char) : Bool := isLetter c || c == '_' || c == '\''

/-- The characters that go on with a word (`is_ident_continue`). -/
def continuesWord (c : Char) : Bool :=
  isLetter c || isDigit c || c == '_' || c == '\'' || c == '$'

/-- The characters that operators are made of (`is_symbol`). -/
def isSymbol (c : Char) : Bool :=
  c == '$' || c == '?' || c == '.' || c == '+' || c == '-' || c == '*' || c == '/' || c == '%'
    || c == '^' || c == '&' || c == '|' || c == '!' || c == '~' || c == '=' || c == '<'
    || c == '>'

/-- The backtick. -/
def backtick : Char := '\x60'

/-- The characters that start no lexeme of any other kind (`starts_nothing`). -/
def startsNothing (c : Char) : Bool :=
  !(isLetter c || isDigit c || isSymbol c || isHorizontal c || endsLine c || c == ';'
    || c == '_' || c == '\'' || c == '"' || c == backtick || (Punct.ofChar? c).isSome)

/-! ## Extents

Each function takes the text behind the first character of a lexeme. -/

/-- The number of characters at the start of a text that satisfy `p`. -/
def runLength (p : Char → Bool) (cs : List Char) : Nat := (cs.takeWhile p).length

/-- The number of horizontal blanks at the start of a text (`RawScanner::whitespace`). A carriage
return is one unless a newline follows it. -/
def blankRun (taken : Nat) : List Char → Nat
  | [] => taken
  | c :: cs =>
    if isHorizontal c || (c == '\r' && cs.head? != some '\n') then blankRun (taken + 1) cs
    else taken

/-- The number of symbols at the start of a text, up to the first `//` (`RawScanner::symbols`). -/
def symbolRun (taken : Nat) : List Char → Nat
  | [] => taken
  | c :: cs =>
    if isSymbol c && !(c == '/' && cs.head? == some '/') then symbolRun (taken + 1) cs
    else taken

/-- The number of characters up to the end of the line (`Cursor::eat_until_newline_or_eof`). -/
def lineRest (cs : List Char) : Nat := runLength (fun c => !endsLine c) cs

/-- Behind an opening quote of a string: whether the string is closed on its line, and how many
characters belong to it (`RawScanner::string`). A backslash takes the character behind it, but no
line end. -/
def stringRest (taken : Nat) : List Char → LexemeKind × Nat
  | [] => (.openString, taken)
  | '"' :: _ => (.string, taken + 1)
  | ['\\'] => (.openString, taken + 1)
  | '\\' :: c :: cs => if endsLine c then (.openString, taken + 1) else stringRest (taken + 2) cs
  | c :: cs => if endsLine c then (.openString, taken) else stringRest (taken + 1) cs

/-- Behind a single quote: a character if one stands there, escaped or plain, with a closing
quote that no word goes on behind; an escaped character without a closing quote is left open;
all else is a word (`RawScanner::quote`). -/
def quoteRest (cs : List Char) : LexemeKind × Nat :=
  let asWord := (.word, runLength continuesWord cs)
  match cs with
  | ['\\'] => (.openChar, 1)
  | '\\' :: c :: rest =>
    if endsLine c then (.openChar, 1)
    else if rest.head? == some '\'' then (.char, 3)
    else (.openChar, 2)
  | c :: '\'' :: rest =>
    if c == '\'' || endsLine c || rest.head?.any continuesWord then asWord else (.char, 2)
  | _ => asWord

/-- Which suffixes a run of digits may carry. -/
inductive Mantissa
  /-- Digits behind the mark of a base: integer suffixes. -/
  | marked
  /-- Plain decimal digits: all suffixes. -/
  | integral
  /-- Decimal digits with a fraction: floating-point suffixes. -/
  | fractional
deriving DecidableEq, Repr

/-- The length of the suffix at the start of a text: the longest one spelled there, if it fits
behind the digits (`RawScanner::suffix`). -/
def suffixLength (mantissa : Mantissa) (cs : List Char) : Nat :=
  match Suffix.longestAt? (mantissa != .marked) cs with
  | some s => if mantissa == .fractional && !s.isFloat then 0 else s.text.length
  | none => 0

/-- The base of a number that starts with `c`, when its mark and a digit of the base follow. -/
def markedBase? (c : Char) (cs : List Char) : Option Base :=
  match c, cs with
  | '0', letter :: digit :: _ =>
    (Base.ofLetter? letter).filter fun base => base.isDigit digit
  | _, _ => none

/-- Behind the first digit of a number: its base, whether it has a fraction, and how many
characters belong to it (`RawScanner::number`). -/
def numberRest (c : Char) (cs : List Char) : LexemeKind × Nat :=
  match markedBase? c cs with
  | some base =>
    let n := 1 + runLength base.isDigit (cs.drop 1)
    (.number base false, n + suffixLength .marked (cs.drop n))
  | none =>
    let n := runLength isDigit cs
    match cs.drop n with
    | '.' :: d :: rest =>
      if isDigit d then
        let n := n + 2 + runLength isDigit rest
        (.number .decimal true, n + suffixLength .fractional (cs.drop n))
      else (.number .decimal false, n + suffixLength .integral (cs.drop n))
    | tail => (.number .decimal false, n + suffixLength .integral tail)

/-! ## Cutting -/

/-- The kind of the lexeme that starts with `c`, and how many characters of the text behind it
belong to the lexeme (in `RawScanner::next_token`). -/
def boundary (c : Char) (cs : List Char) : LexemeKind × Nat :=
  if c == '\r' && cs.head? == some '\n' then (.newline, 1)
  else if isHorizontal c || c == '\r' then (.blanks, blankRun 0 cs)
  else if c == '\n' then (.newline, 0)
  else if c == ';' then (.semicolon, 0)
  else if c == '\'' then quoteRest cs
  else if startsWord c then (.word, runLength continuesWord cs)
  else if isDigit c then numberRest c cs
  else if c == '"' then stringRest 0 cs
  else if c == backtick then
    let n := runLength isSymbol cs
    if n == 0 then (.unknown, 0) else (.quotedSymbols, n)
  else if c == '/' && cs.head? == some '/' then
    (if cs.tail.head? == some '!' then .docComment else .lineComment, lineRest cs)
  else if isSymbol c then (.symbols, symbolRun 0 cs)
  else
    match Punct.ofChar? c with
    | some p => (.punct p, 0)
    | none => (.unknown, runLength startsNothing cs)

/-- The lexemes of a text, behind those in `done` (`RawScanner::next_token`). -/
def cut (done : Array Lexeme) : List Char → Array Lexeme
  | [] => done
  | c :: cs =>
    let (kind, n) := boundary c cs
    cut (done.push ⟨kind, c :: cs.take n⟩) (cs.drop n)
termination_by cs => cs.length
decreasing_by simp only [List.length_drop, List.length_cons]; omega

/-- All lexemes of a text, in order. -/
def lexemes (cs : List Char) : List Lexeme := (cut #[] cs).toList

theorem flatMap_text_cut (done : Array Lexeme) (cs : List Char) :
    (cut done cs).toList.flatMap text = done.toList.flatMap text ++ cs := by
  fun_induction cut done cs with
  | case1 done => simp
  | case2 done c cs kind n _ ih => simp [ih]

/-- Nothing is left over and nothing is added: the lexemes of a text together are the text. -/
theorem flatMap_text_lexemes (cs : List Char) : (lexemes cs).flatMap text = cs := by
  simp [lexemes, flatMap_text_cut]

end Lexeme

end Surface
