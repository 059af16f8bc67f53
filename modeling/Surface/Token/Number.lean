/-!
# Number literals

A number literal is kept as it is written: base, digits and suffix. Its value is not computed.

* `Base`: the four bases, with the mark that introduces each and its digits.
* `Suffix`: the suffixes, and `Suffix.longestAt?`, the longest one spelled at the start of a
  text.
-/

namespace Surface

/-- The base of a number literal (`NumBase`). -/
inductive Base
  | decimal | octal | hex | binary
deriving DecidableEq, Repr

namespace Base

/-- All bases in their fixed order. -/
def all : List Base := [decimal, octal, hex, binary]

/-- What introduces a number in a base; decimal numbers have no mark (`NumBase::prefix`). -/
def mark : Base → String
  | decimal => ""
  | octal => "0o"
  | hex => "0x"
  | binary => "0b"

/-- The digits of a base; hexadecimal ones in either case. -/
def isDigit (base : Base) (c : Char) : Bool :=
  match base with
  | decimal => '0' ≤ c && c ≤ '9'
  | octal => '0' ≤ c && c ≤ '7'
  | hex => ('0' ≤ c && c ≤ '9') || ('a' ≤ c && c ≤ 'f') || ('A' ≤ c && c ≤ 'F')
  | binary => c == '0' || c == '1'

/-- The base whose mark is `0` and this letter, in either case. -/
def ofLetter? (c : Char) : Option Base :=
  if c == 'x' || c == 'X' then some hex
  else if c == 'o' || c == 'O' then some octal
  else if c == 'b' || c == 'B' then some binary
  else none

end Base

/-- The type that a suffix gives to a number (`NumSuffix`). -/
inductive Suffix
  | f32 | f64 | u1 | i8 | u8 | i16 | u16 | u32 | i64 | u64 | i128 | u128 | nat
deriving DecidableEq, Repr

namespace Suffix

/-- All suffixes, longer ones before shorter ones. -/
def longestFirst : List Suffix :=
  [i128, u128, f32, f64, i16, u16, u32, i64, u64, u1, i8, u8, nat]

/-- The spelling of a suffix (`NumSuffix::as_str`). -/
def text : Suffix → String
  | f32 => "f32"
  | f64 => "f64"
  | u1 => "u1"
  | i8 => "i8"
  | u8 => "u8"
  | i16 => "i16"
  | u16 => "u16"
  | u32 => "u32"
  | i64 => "i64"
  | u64 => "u64"
  | i128 => "i128"
  | u128 => "u128"
  | nat => "n"

/-- The suffixes of floating-point types. -/
def isFloat : Suffix → Bool
  | f32 | f64 => true
  | _ => false

/-- The longest suffix that satisfies `p` and is spelled at the start of a text
(`NumSuffix::longest_prefix_of`). -/
def longestWhere? (p : Suffix → Bool) (cs : List Char) : Option Suffix :=
  longestFirst.find? fun s => p s && s.text.toList.isPrefixOf cs

/-- The longest suffix spelled at the start of a text; floating-point suffixes count only when
they are allowed. -/
def longestAt? (allowFloat : Bool) (cs : List Char) : Option Suffix :=
  longestWhere? (fun s => allowFloat || !s.isFloat) cs

/-- The suffix with a spelling. -/
def ofText? (cs : List Char) : Option Suffix := longestFirst.find? fun s => s.text.toList == cs

end Suffix

/-- A number literal as written (`NumberLiteral`). -/
structure Number (ν : Type := String) where
  base : Base
  /-- The digits, without the mark of the base and without the suffix. -/
  digits : ν
  suffix : Option Suffix
  /-- The digits have a fractional part. -/
  isFloat : Bool
deriving DecidableEq, Repr

/-- The literal in full: mark, digits and suffix (`TreeBuilder::number_text`). -/
def Number.text (n : Number) : String :=
  n.base.mark ++ n.digits ++ (n.suffix.map Suffix.text).getD ""

end Surface
