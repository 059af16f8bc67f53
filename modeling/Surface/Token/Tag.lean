/-!
# Token tags

The sorts of token the grammar tells apart: names and operators, literals, keywords, reserved
symbol runs, punctuation marks, line breaks, unreadable input and the end.

* `Keyword`, `Reserved`, `Punct`: the tokens with one fixed spelling.
* `Tag`: all sorts of token, `Tag.all` in their fixed order.
* `Tag.describe`: the name of a sort in messages.
-/

namespace Surface

/-- The words that are not names. -/
inductive Keyword
  | useKw | classKw | traitKw | dataKw | publicKw | sealedKw | privateKw | internalKw
  | letKw | ifKw | thenKw | elseKw | matchKw | returnKw
deriving DecidableEq, Repr

namespace Keyword

/-- All keywords in their fixed order. -/
def all : List Keyword :=
  [useKw, classKw, traitKw, dataKw, publicKw, sealedKw, privateKw, internalKw,
    letKw, ifKw, thenKw, elseKw, matchKw, returnKw]

/-- The spelling of a keyword. -/
def text : Keyword → String
  | useKw => "use"
  | classKw => "class"
  | traitKw => "trait"
  | dataKw => "data"
  | publicKw => "public"
  | sealedKw => "sealed"
  | privateKw => "private"
  | internalKw => "internal"
  | letKw => "let"
  | ifKw => "if"
  | thenKw => "then"
  | elseKw => "else"
  | matchKw => "match"
  | returnKw => "return"

/-- The position of a keyword in `all`. -/
def index : Keyword → Nat
  | useKw => 0
  | classKw => 1
  | traitKw => 2
  | dataKw => 3
  | publicKw => 4
  | sealedKw => 5
  | privateKw => 6
  | internalKw => 7
  | letKw => 8
  | ifKw => 9
  | thenKw => 10
  | elseKw => 11
  | matchKw => 12
  | returnKw => 13

/-- The keyword with a spelling. -/
def ofText? (s : String) : Option Keyword := all.find? fun k => k.text == s

end Keyword

/-- The runs of symbols that are not operators. -/
inductive Reserved
  | eq | arrow | fatArrow | leftArrow | pipe | dot | dotDot
deriving DecidableEq, Repr

namespace Reserved

/-- All reserved runs in their fixed order. -/
def all : List Reserved := [eq, arrow, fatArrow, leftArrow, pipe, dot, dotDot]

/-- The spelling of a reserved run. -/
def text : Reserved → String
  | eq => "="
  | arrow => "->"
  | fatArrow => "=>"
  | leftArrow => "<-"
  | pipe => "|"
  | dot => "."
  | dotDot => ".."

/-- The position of a reserved run in `all`. -/
def index : Reserved → Nat
  | eq => 0
  | arrow => 1
  | fatArrow => 2
  | leftArrow => 3
  | pipe => 4
  | dot => 5
  | dotDot => 6

/-- The reserved run with a spelling. -/
def ofText? (s : String) : Option Reserved := all.find? fun r => r.text == s

end Reserved

/-- The characters that are a token on their own. -/
inductive Punct
  | openParen | closeParen | openBracket | closeBracket | openBrace | closeBrace
  | comma | colon | atSign | hash
deriving DecidableEq, Repr

namespace Punct

/-- All punctuation marks in their fixed order. -/
def all : List Punct :=
  [openParen, closeParen, openBracket, closeBracket, openBrace, closeBrace,
    comma, colon, atSign, hash]

/-- The character of a punctuation mark. -/
def char : Punct → Char
  | openParen => '('
  | closeParen => ')'
  | openBracket => '['
  | closeBracket => ']'
  | openBrace => '\x7b'
  | closeBrace => '\x7d'
  | comma => ','
  | colon => ':'
  | atSign => '@'
  | hash => '#'

/-- The position of a punctuation mark in `all`. -/
def index : Punct → Nat
  | openParen => 0
  | closeParen => 1
  | openBracket => 2
  | closeBracket => 3
  | openBrace => 4
  | closeBrace => 5
  | comma => 6
  | colon => 7
  | atSign => 8
  | hash => 9

/-- The punctuation mark with a character. -/
def ofChar? (c : Char) : Option Punct := all.find? fun p => p.char == c

/-- The three marks that open a group. -/
def isOpener : Punct → Bool
  | openParen | openBracket | openBrace => true
  | _ => false

/-- The three marks that close a group. -/
def isCloser : Punct → Bool
  | closeParen | closeBracket | closeBrace => true
  | _ => false

end Punct

/-- The sort of a token, without what it spells (`TokenTag`). -/
inductive Tag
  | ident | symbolIdent | operator | number | string | char
  | keyword (k : Keyword)
  | reserved (r : Reserved)
  | punct (p : Punct)
  | lineBreak | error | eof
deriving DecidableEq, Repr

namespace Tag

/-- The number of tags. -/
def count : Nat := 40

/-- All tags in their fixed order. -/
def all : List Tag :=
  [ident, symbolIdent, operator, number, string, char]
    ++ Keyword.all.map keyword ++ Reserved.all.map reserved ++ Punct.all.map punct
    ++ [lineBreak, error, eof]

theorem mem_all (t : Tag) : t ∈ all := by
  cases t with
  | keyword k => cases k <;> decide
  | reserved r => cases r <;> decide
  | punct p => cases p <;> decide
  | _ => decide

/-- What can be decided of a tag can be decided of all tags. -/
instance {p : Tag → Prop} [DecidablePred p] : Decidable (∀ t, p t) :=
  decidable_of_iff (∀ t ∈ all, p t) ⟨fun h t => h t t.mem_all, fun h t _ => h t⟩

/-- The position of a tag in `all`. -/
def index : Tag → Nat
  | ident => 0
  | symbolIdent => 1
  | operator => 2
  | number => 3
  | string => 4
  | char => 5
  | keyword k => 6 + k.index
  | reserved r => 20 + r.index
  | punct p => 27 + p.index
  | lineBreak => 37
  | error => 38
  | eof => 39

/-- The name of a tag in messages: a fixed spelling stands between backticks
(`TokenTag::display_name`). -/
def describe : Tag → String
  | ident => "identifier"
  | symbolIdent => "symbolic identifier"
  | operator => "operator"
  | number => "number"
  | string => "string"
  | char => "character"
  | keyword k => "`" ++ k.text ++ "`"
  | reserved r => "`" ++ r.text ++ "`"
  | punct p => "`" ++ toString p.char ++ "`"
  | lineBreak => "line break"
  | error => "invalid token"
  | eof => "end of input"

/-- The tags that open a group. -/
def isOpener : Tag → Bool
  | punct p => p.isOpener
  | _ => false

/-- The tags that close a group. -/
def isCloser : Tag → Bool
  | punct p => p.isCloser
  | _ => false

end Tag

end Surface
