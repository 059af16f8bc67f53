import Surface.Grammar.Expr

/-!
# Reading statements and blocks

```text
stmt  := 'let' pattern '=' expr | 'if' expr then [else] | pattern '<-' expr | expr
block := '{' (stmt break)* [stmt] '}'
```

A statement that cannot be read becomes an error statement, and the block goes on with the next
line.

* `Inner.stmt`, `Inner.blockOf`: statements and blocks, given what lies inside.
* `expr`, `block`, `stmt`: the same without bound on what lies inside.
-/

namespace Surface.Grammar

variable {α ν : Type} [Naming ν]

/-! ## Recovery -/

/-- Where a statement that was given up ends: with its line or its block. -/
def stmtBoundary : TagSet := {.lineBreak, .punct .closeBrace, .eof}

/-- From `start` to the last token taken, or nothing at `start` if none was taken
(`skipped_span`). -/
def skippedSpan (start : Span) : ReaderOf ν Span := do
  let stop := (← previousSpan).stop
  return if start.start < stop then ⟨start.start, stop⟩ else .point start.start

/-- Reports an error and passes over tokens up to the boundary; line breaks are passed over as
`skips` says from here on (in `parse_block_stmts`, `parse_item`). Yields the span of what was given
up, which began at `start`. -/
def recover (error : SyntaxError) (start : Span) (skips : Bool) (boundary : TagSet) :
    ReaderOf ν Span := do
  modify fun s => { s with errors := s.errors.push error }
  setSkipsBreaks skips
  moveCursor fun tokens c => c.resume tokens boundary
  skippedSpan start

/-- Reads something, and when that fails, what takes its place. -/
def orElse (reader : ReaderOf ν α) (replace : SyntaxError → ReaderOf ν α) : ReaderOf ν α :=
  fun input s =>
    match reader input s with
    | .ok a s => .ok a s
    | .error e s => replace e input s

namespace Inner

variable (inner : Inner ν)

/-! ## Statements -/

/-- A pattern and its value behind `let` (`parse_let`). -/
def letIn : ReaderOf ν (Mark → Stmt ν) := do
  let _ ← take
  let pattern ← pattern
  let _ ← expect (.reserved .eq)
  let value ← inner.expr
  return fun m => .letIn m pattern value

/-- A conditional whose second branch may be absent (`parse_if_stmt`). -/
def conditionalStmt : ReaderOf ν (Mark → Stmt ν) := do
  let _ ← take
  let condition ← inner.head
  let thenBody ← inner.thenBody
  let elseBody ← inner.elseBody
  return fun m => .conditional m condition thenBody elseBody

/-- A pattern and an action; the action may start on the next line (`parse_ask`). -/
def ask : ReaderOf ν (Mark → Stmt ν) := do
  let pattern ← pattern
  let _ ← expect (.reserved .leftArrow)
  skipBreaks
  let value ← inner.expr
  return fun m => .ask m pattern value

/-- What a statement is, without its mark (in `parse_stmt`). -/
def stmtForm : ReaderOf ν (Mark → Stmt ν) := do
  match ← nextTag with
  | .keyword .letKw => inConstruct .letStatement inner.letIn
  | .keyword .ifKw => inner.conditionalStmt
  | _ =>
    if ← isAhead (.reserved .leftArrow) then inner.ask
    else
      let value ← inner.expr
      return fun m => .expr m value

/-- A statement (`parse_stmt`). -/
def stmt : ReaderOf ν (Stmt ν) := do
  let start ← nextSpan
  let form ← inner.stmtForm
  newStmt (start.merge (← previousSpan)) form

/-! ## Blocks -/

/-- A statement of a block, which must be all of its line (in `parse_block_stmts`). -/
def wholeStmt : ReaderOf ν (Stmt ν) := do
  let stmt ← inner.stmt
  if ← isNextIn stmtBoundary then return stmt else unexpected stmtBoundary

/-- A statement of a block, or an error statement in its place, and the line breaks behind
(in `parse_block_stmts`). -/
def stmtOrError : ReaderOf ν (Stmt ν) := do
  let start ← nextSpan
  let stmt ← orElse inner.wholeStmt fun error => do
    newStmt (← recover error start false stmtBoundary) fun m => .error m
  skipBreaks
  return stmt

/-- Statements between braces (`parse_block`). -/
def blockOf : ReaderOf ν (Block ν) := do
  if ← isNotNext (.punct .openBrace) then unexpected {.punct .openBrace}
  let group ← openBrace
  skipBreaks
  let stmts ← within (fun _ => .none) (collectWhile isInBraces inner.stmtOrError)
  return ⟨stmts, ← closeGroup group⟩

end Inner

/-! ## The knot -/

/-- Expressions and blocks that lie at most `depth` deep inside each other. -/
def innerUpTo : Nat → Inner ν
  | 0 => ⟨absent .expression, absent .expression⟩
  | depth + 1 =>
    ⟨fun input s => (innerUpTo depth).exprOf input s,
      fun input s => (innerUpTo depth).blockOf input s⟩

/-- Expressions and blocks. Whatever lies inside of another starts behind a token of the outer
one, so that the depth is at most the number of tokens. -/
def inner : Inner ν :=
  ⟨fun input s => (innerUpTo (input.tokens.size + 1)).expr input s,
    fun input s => (innerUpTo (input.tokens.size + 1)).block input s⟩

/-- An expression (`parse_expr`). -/
def expr : ReaderOf ν (Expr ν) := inner.expr

/-- A block (`parse_block`). -/
def block : ReaderOf ν (Block ν) := inner.block

/-- A statement (`parse_stmt`). -/
def stmt : ReaderOf ν (Stmt ν) := inner.stmt

end Surface.Grammar
