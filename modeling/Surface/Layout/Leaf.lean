import Surface.Layout.Doc
import Surface.Syntax.Basic

/-!
# Printing names and literals

Names and literals are printed so that they are read back as they were.

* `delimited`: a text between quotes, with the escapes that are decoded when it is read.
* `nameText`: a name; one made of symbols gets its backtick back.
-/

namespace Surface.Layout

/-- A character between quotes `delim`. -/
def delimitedChar (delim c : Char) : List Char :=
  if c = '\n' then ['\\', 'n']
  else if c = '\t' then ['\\', 't']
  else if c = '\r' then ['\\', 'r']
  else if c = '\x00' then ['\\', '0']
  else if c = '\\' || c = delim then ['\\', c]
  else [c]

/-- A text between quotes `delim` (`quote`). -/
def delimited (delim : Char) (cs : List Char) : String :=
  String.ofList (delim :: (cs.flatMap (delimitedChar delim) ++ [delim]))

/-- A literal as it is written. -/
def literalText : Literal → String
  | .string s => delimited '"' s.toList
  | .char c => delimited '\'' [c]
  | .number n => n.text

/-- The characters that a name starts with that is not made of symbols. -/
def startsName (c : Char) : Bool :=
  ('a' ≤ c && c ≤ 'z') || ('A' ≤ c && c ≤ 'Z') || c == '_' || c == '\''

/-- A name as it is written. -/
def nameText (name : String) : String :=
  if name.toList.head?.any startsName then name else "`" ++ name

/-- A path as it is written. -/
def pathText (p : Path) : String := ".".intercalate (p.segments.map fun i => nameText i.name)

/-- A literal (`Printer::literal`). -/
def literal (l : Literal) : Doc := .text (literalText l)

/-- A name (`Printer::name`). -/
def name (n : String) : Doc := .text (nameText n)

/-- A path (`Printer::path`). -/
def path (p : Path) : Doc := .text (pathText p)

end Surface.Layout
