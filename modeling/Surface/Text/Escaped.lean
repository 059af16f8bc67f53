import Surface.Text.Extender
import Surface.Text.Ignorable
import Surface.Text.Unprintable

/-!
# Escaped quotations

A text between quotes in which every character that would be lost or misread on a page is
written as an escape. The delimiter and the backslash get a backslash, four control
characters a letter, and a character without a printed form of its own its code point in
hexadecimal.

* `quoted`: a text between double quotes.
* `quotedChar`: a character between single quotes.
-/

namespace Surface.Text

/-- Whether a character is written as itself: it has a printed form, is not ignorable and is not
drawn on the character before it. -/
def isPlain (c : Char) : Bool :=
  let n := c.toNat
  if n < 0x7F then 0x20 ≤ n
  else !unprintableRanges.contains n && !ignorableRanges.contains n && !isCombining n

/-- A code point as `\u`, with its lower-case hexadecimal digits in braces. -/
def codePointEscape (c : Char) : List Char :=
  ['\\', 'u', '\x7b'] ++ Nat.toDigits 16 c.toNat ++ ['\x7d']

/-- A character inside a quotation whose delimiter is `delim`. -/
def escapeChar (delim c : Char) : List Char :=
  if c = '\x00' then ['\\', '0']
  else if c = '\t' then ['\\', 't']
  else if c = '\r' then ['\\', 'r']
  else if c = '\n' then ['\\', 'n']
  else if c = '\\' || c = delim then ['\\', c]
  else if isPlain c then [c]
  else codePointEscape c

/-- A text between double quotes, escaped. -/
def quoted (s : String) : String :=
  String.ofList ('"' :: (s.toList.flatMap (escapeChar '"') ++ ['"']))

/-- A character between single quotes, escaped. -/
def quotedChar (c : Char) : String :=
  String.ofList ('\'' :: (escapeChar '\'' c ++ ['\'']))

end Surface.Text
