import Surface.Diagnostic.Code
import Surface.Span

/-!
# Diagnostics

A diagnostic explains a problem: a code, a message, places with explanations, and notes.
-/

namespace Surface

/-- How grave a problem is. -/
inductive Severity
  | error | warning
deriving DecidableEq, Repr

/-- The word for a severity. -/
def Severity.text : Severity → String
  | .error => "error"
  | .warning => "warning"

/-- A place with an explanation. -/
structure Label where
  span : Span
  message : String
  /-- The place of the problem itself. -/
  isPrimary : Bool
deriving DecidableEq, Repr

/-- The explanation of a problem. -/
structure Diagnostic where
  code : Code
  severity : Severity
  message : String
  labels : List Label
  notes : List String
deriving DecidableEq, Repr

namespace Diagnostic

/-- Whether the problem is an error (`Diagnostic::is_error`). -/
def isError (d : Diagnostic) : Bool := d.severity == .error

/-- The place of the problem: that of the first primary label (`Diagnostic::primary_span`). -/
def primarySpan? (d : Diagnostic) : Option Span := (d.labels.find? Label.isPrimary).map Label.span

/-- Severity, code and message on one line (in `Diagnostic::fmt`). -/
def headline (d : Diagnostic) : String :=
  d.severity.text ++ "[" ++ d.code.text ++ "]: " ++ d.message

end Diagnostic

end Surface
