import Surface.Lexed
import Surface.Syntax.Decl

/-!
# Files and their nodes

A file is a list of items. Next to it stands a log of all nodes that were built while it was
read, in the order in which they were finished: those of items that were given up as well.
-/

namespace Surface

/-- A whole file. -/
structure SourceFile (ν : Type := String) where
  /-- The first line, if it starts with `#!` and the dialect admits that. -/
  shebang : Option Shebang
  items : List (Item ν)
  span : Span

/-- All expressions, patterns and statements that were built (`AstArena`). The mark of each holds
its position here. -/
structure NodeLog (ν : Type := String) where
  exprs : Array (Expr ν)
  patterns : Array (Pattern ν)
  stmts : Array (Stmt ν)

namespace NodeLog

/-- The log without nodes. -/
def empty {ν : Type} : NodeLog ν := ⟨#[], #[], #[]⟩

end NodeLog

end Surface
