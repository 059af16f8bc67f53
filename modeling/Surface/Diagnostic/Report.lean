import Surface.Diagnostic.Basic
import Surface.Diagnostic.LineTable

/-!
# Reports

A diagnostic as text for a terminal. When the source is known, every label quotes the line it
starts on and underlines the characters it covers there; otherwise it names its byte offsets.

* `Diagnostic.report`: the text of one diagnostic.
* `reportAll`: that of several.
-/

namespace Surface

/-- A source to quote from (`SourceContext`). -/
structure Quotable where
  name : String
  text : List Char
  lines : LineTable

/-- The source with a name and a text. -/
def Quotable.ofText (name text : String) : Quotable :=
  ⟨name, text.toList, .ofText text⟩

namespace Report

/-- The styles of a report (`ColorMode`). -/
inductive Style
  | error | warning | strong | secondary

/-- What switches a style on. -/
def Style.escape : Style → String
  | error => "\x1b[1;31m"
  | warning => "\x1b[1;33m"
  | strong => "\x1b[1m"
  | secondary => "\x1b[1;34m"

/-- What switches all styles off. -/
def plain : String := "\x1b[0m"

/-- A text in a style, where colours are wanted (`TerminalEmitter::write_colored`). -/
def styled (color : Bool) (style : Style) (text : String) : String :=
  if color then style.escape ++ text ++ plain else text

/-- The style of a severity. -/
def severityStyle : Severity → Style
  | .error => .error
  | .warning => .warning

/-- The style of a label. -/
def labelStyle (isPrimary : Bool) : Style := if isPrimary then .error else .secondary

/-- `n` times the same character. -/
def times (n : Nat) (c : Char) : String := String.ofList (List.replicate n c)

/-- How many characters of a line an underline covers that starts at a column: those of the
span, as far as the line goes, but at least one (`span_width`). -/
def underlineWidth (line : List Char) (column size : Nat) : Nat :=
  max 1 (min size (line.drop (column - 1)).length)

/-- The first line of a report (`TerminalEmitter::write_header`). -/
def header (color : Bool) (d : Diagnostic) : String :=
  styled color (severityStyle d.severity) d.severity.text
    ++ styled color .strong ("[" ++ d.code.text ++ "]") ++ ": " ++ d.message ++ "\n"

/-- A label without a source: an arrow for a primary one, the byte offsets and the message. -/
def bareLabel (color : Bool) (l : Label) : String :=
  "  " ++ (if l.isPrimary then "-->" else "   ") ++ " " ++ l.span.text ++ ": "
    ++ styled color (labelStyle l.isPrimary) l.message ++ "\n"

/-- The marks under the characters a label covers. -/
def underline (line : List Char) (column : Nat) (l : Label) : String :=
  times (column - 1) ' '
    ++ times (underlineWidth line column l.span.size) (if l.isPrimary then '^' else '-')

/-- A label with a source: the place, the line and the marks under it. -/
def quotedLabel (color : Bool) (source : Quotable) (l : Label) : String :=
  let (line, column) := source.lines.lineColumn source.text l.span.start
  let text := (source.lines.lineText? source.text line).getD []
  let number := toString line
  let gutter := times number.length ' '
  gutter ++ "--> " ++ source.name ++ ":" ++ number ++ ":" ++ toString column ++ "\n"
    ++ gutter ++ " |\n"
    ++ number ++ " | " ++ String.ofList text ++ "\n"
    ++ gutter ++ " | "
    ++ styled color (labelStyle l.isPrimary) (underline text column l ++ " " ++ l.message)
    ++ "\n"

/-- A label (`TerminalEmitter::write_label`). -/
def label (color : Bool) (source : Option Quotable) (l : Label) : String :=
  match source with
  | some s => quotedLabel color s l
  | none => bareLabel color l

/-- A note. -/
def note (color : Bool) (text : String) : String :=
  "  = " ++ styled color .strong "note" ++ ": " ++ text ++ "\n"

end Report

/-- The report of a diagnostic: header, labels, notes and an empty line
(`TerminalEmitter::emit`). -/
def Diagnostic.report (color : Bool) (source : Option Quotable) (d : Diagnostic) : String :=
  Report.header color d ++ String.join (d.labels.map (Report.label color source))
    ++ String.join (d.notes.map (Report.note color)) ++ "\n"

/-- The reports of several diagnostics, one after another (`TerminalEmitter::emit_all`). -/
def reportAll (color : Bool) (source : Option Quotable) (ds : List Diagnostic) : String :=
  String.join (ds.map (Diagnostic.report color source))

end Surface
