import Surface.Text.Blank

/-!
# Pages

A page is text that is written from left to right. It knows how deep the current line is
indented and whether something has been written on it, so that whoever writes need not.

* `Page.emit`, `Page.space`, `Page.newline`, `Page.indent`, `Page.dedent`.
* `Page.finish`: the text, ending in one newline.
-/

namespace Surface

/-- A page that is being written (`FormatContext`, `StringEmitter`). -/
structure Page where
  text : String
  /-- How many levels the next line is indented. -/
  level : Nat
  /-- Nothing has been written on the current line. -/
  atLineStart : Bool
deriving DecidableEq, Repr

/-- The number of spaces of one level of indentation. -/
def indentWidth : Nat := 4

/-- A text that ends in exactly one newline, unless it is empty
(`StringEmitter::ensure_trailing_newline`). -/
def closeText (s : String) : String :=
  if s.isEmpty then s
  else String.ofList (Text.dropEndWhile (fun c => c = '\n') s.toList) ++ "\n"

namespace Page

/-- A page on which nothing is written. -/
def blank : Page := ⟨"", 0, true⟩

/-- The spaces before the first text on a line. -/
def margin (p : Page) : String :=
  if p.atLineStart then String.ofList (List.replicate (p.level * indentWidth) ' ') else ""

/-- Writes a text, indented if it is the first on its line (`FormatContext::emit`). Nothing is no
text. -/
def emit (text : String) (p : Page) : Page :=
  if text.isEmpty then p
  else { p with text := p.text ++ p.margin ++ text, atLineStart := false }

/-- Writes a space, which does not count as text on the line (`FormatContext::emit_space`). -/
def space (p : Page) : Page := { p with text := p.text ++ " " }

/-- Ends the line (`FormatContext::emit_newline`). -/
def newline (p : Page) : Page := { p with text := p.text ++ "\n", atLineStart := true }

/-- Indents what follows by one level more (`FormatContext::indent`). -/
def indent (p : Page) : Page := { p with level := p.level + 1 }

/-- Indents what follows by one level less (`FormatContext::dedent`). -/
def dedent (p : Page) : Page := { p with level := p.level - 1 }

/-- Makes the text written so far end in exactly one newline, and changes nothing else. -/
def close (p : Page) : Page := { p with text := closeText p.text }

/-- The text of a page (`FormatContext::finalize`). -/
def finish (p : Page) : String := p.close.text

end Page

end Surface
