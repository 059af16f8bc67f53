import Surface.Syntax.Pattern

/-!
# Expressions and statements

Expressions, statements, blocks, match arms and parameters contain each other and are defined
together. Grouping parentheses are kept as tuples of one element, so that no expression needs
to be regrouped when it is printed.
-/

namespace Surface

mutual

/-- An expression (`ExprKind`). -/
inductive Expr (ν : Type := String)
  | literal (mark : Mark) (value : Literal ν)
  /-- A single name. -/
  | name (mark : Mark) (name : ν)
  /-- Two or more names joined by dots. -/
  | path (mark : Mark) (path : Path ν)
  /-- Expressions between parentheses. -/
  | tuple (mark : Mark) (elements : List (Expr ν)) (trailingComma : Bool)
  /-- Expressions between brackets. -/
  | array (mark : Mark) (elements : List (Expr ν))
  /-- A conditional with both branches. -/
  | conditional (mark : Mark) (condition : Expr ν) (thenBody elseBody : Body ν)
  | matchOn (mark : Mark) (scrutinee : Expr ν) (arms : List (Arm ν))
  | returned (mark : Mark) (value : Option (Expr ν))
  /-- An application, with a block as its last argument or without. -/
  | app (mark : Mark) (callee : Expr ν) (args : List (Expr ν)) (block : Option (Block ν))
  /-- An application in a type. -/
  | typeApp (mark : Mark) (callee : Expr ν) (args : List (Expr ν))
  | lambda (mark : Mark) (params : List (Param ν)) (body : Expr ν)
  /-- A function type whose domain has no name. -/
  | arrow (mark : Mark) (domain codomain : Expr ν)
  /-- A function type with parameters between parentheses. -/
  | pi (mark : Mark) (params : List (Param ν)) (codomain : Expr ν)
  /-- A pair type, with parameters between brackets. -/
  | sigma (mark : Mark) (params : List (Param ν)) (codomain : Expr ν)
  /-- A value with its type. -/
  | ascription (mark : Mark) (value type : Expr ν)
  | binary (mark : Mark) (lhs : Expr ν) (op : Operator ν) (rhs : Expr ν)

/-- A statement (`StmtKind`). -/
inductive Stmt (ν : Type := String)
  | letIn (mark : Mark) (pattern : Pattern ν) (value : Expr ν)
  /-- A conditional whose second branch may be absent. -/
  | conditional (mark : Mark) (condition : Expr ν) (thenBody : Body ν) (elseBody : Option (Body ν))
  /-- A pattern bound to what an action yields. -/
  | ask (mark : Mark) (pattern : Pattern ν) (value : Expr ν)
  | expr (mark : Mark) (value : Expr ν)
  /-- A statement that could not be read; it covers what was skipped. -/
  | error (mark : Mark)

/-- Statements between braces. -/
structure Block (ν : Type := String) where
  stmts : List (Stmt ν)
  span : Span

/-- The body of a branch or arm. -/
inductive Body (ν : Type := String)
  | block (block : Block ν)
  | expr (value : Expr ν)

/-- One case of a match (`MatchArm`). -/
structure Arm (ν : Type := String) where
  pattern : Pattern ν
  body : Body ν
  span : Span

/-- A pattern with a type or without. -/
structure Param (ν : Type := String) where
  pattern : Pattern ν
  type : Option (Expr ν)
  span : Span

end

namespace Expr

variable {ν : Type}

/-- The mark of an expression. -/
def mark : Expr ν → Mark
  | literal m _ | name m _ | path m _ | tuple m _ _ | array m _ | conditional m _ _ _
  | matchOn m _ _ | returned m _ | app m _ _ _ | typeApp m _ _ | lambda m _ _ | arrow m _ _
  | pi m _ _ | sigma m _ _ | ascription m _ _ | binary m _ _ _ => m

/-- The text an expression covers. -/
def span (e : Expr ν) : Span := e.mark.span

instance [Inhabited ν] : Inhabited (Expr ν) := ⟨name default default⟩

end Expr

namespace Stmt

variable {ν : Type}

/-- The mark of a statement. -/
def mark : Stmt ν → Mark
  | letIn m _ _ | conditional m _ _ _ | ask m _ _ | expr m _ | error m => m

/-- The text a statement covers. -/
def span (s : Stmt ν) : Span := s.mark.span

/-- Whether a statement could not be read. -/
def isError : Stmt ν → Bool
  | error _ => true
  | _ => false

instance : Inhabited (Stmt ν) := ⟨error default⟩

end Stmt

end Surface
