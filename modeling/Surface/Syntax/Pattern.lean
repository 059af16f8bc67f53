import Surface.Syntax.Basic

/-!
# Patterns
-/

namespace Surface

/-- A pattern (`PatternKind`). A single name is a constructor without arguments here; whether it
binds a variable is not decided by its form. -/
inductive Pattern (ν : Type := String)
  /-- A path applied to patterns. -/
  | cons (mark : Mark) (path : Path ν) (args : List (Pattern ν))
  /-- Two dots, which stand for the rest. -/
  | rest (mark : Mark)
  | literal (mark : Mark) (value : Literal ν)

namespace Pattern

variable {ν : Type}

instance : Inhabited (Pattern ν) := ⟨rest default⟩

/-- The mark of a pattern. -/
def mark : Pattern ν → Mark
  | cons m _ _ | rest m | literal m _ => m

/-- The text a pattern covers. -/
def span (p : Pattern ν) : Span := p.mark.span

end Pattern

end Surface
