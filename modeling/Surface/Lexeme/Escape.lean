/-!
# Escapes in literals

Inside a literal a backslash and the character behind it stand for one character. Four letters
name control characters; every other character stands for itself, quotes and the backslash
among them, so that no escape is wrong.

* `decodeString`, `decodeChar?`: the contents of a string or character literal.
-/

namespace Surface.Lexeme

/-- The character that an escaped one stands for (`resolve_escape`). -/
def decodeEscape (c : Char) : Char :=
  if c = 'n' then '\n' else if c = 't' then '\t' else if c = 'r' then '\r'
  else if c = '0' then '\x00' else c

/-- The decoded contents of a string, behind those in `done`; a backslash at the very end
stands for itself. -/
def decodeOnto (done : Array Char) : List Char → Array Char
  | [] => done
  | ['\\'] => done.push '\\'
  | '\\' :: c :: cs => decodeOnto (done.push (decodeEscape c)) cs
  | c :: cs => decodeOnto (done.push c) cs

/-- The decoded contents of a string literal (`unescape_string`). -/
def decodeString (cs : List Char) : List Char := (decodeOnto #[] cs).toList

/-- The decoded contents of a character literal: the first character there is (`unescape_char`). -/
def decodeChar? : List Char → Option Char
  | [] => none
  | ['\\'] => some '\\'
  | '\\' :: c :: _ => some (decodeEscape c)
  | c :: _ => some c

end Surface.Lexeme
