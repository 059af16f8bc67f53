import Surface.Grammar.Pattern
import Surface.Naming

/-!
# Reading expressions

```text
expr        := '(' params ')' '->' expr | '[' params ']' '->' expr
             | binary '->' expr | binary ':' type | binary
binary      := application (operator application)*
application := primary primary* [block]
primary     := literal | path | '(' exprs ')' | '[' exprs ']' | 'return' [expr]
             | 'if' expr then else | 'match' expr '{' arms '}' | '|' params '|' expr
```

All operators bind alike and group to the left. Expressions and blocks contain each other; what
is read inside of either is given to a reader as `Inner`, and the knot is tied once for all
readers, where statements are read.
-/

namespace Surface.Grammar

/-- How to read the two forms that may lie inside each other without bound. -/
structure Inner (ν : Type := String) where
  expr : ReaderOf ν (Expr ν)
  block : ReaderOf ν (Block ν)

namespace Inner

variable {ν : Type} [Naming ν] (inner : Inner ν)

/-! ## Types and parameters -/

/-- A type: an expression, read as a type (`parse_type`). -/
def type : ReaderOf ν (Expr ν) := within (fun c => c.union .type) inner.expr

/-- A pattern with a type or without (`parse_param`). -/
def param : ReaderOf ν (Param ν) := do
  let pattern ← pattern
  let type ← if ← accept (.punct .colon) then some <$> inner.type else pure none
  return ⟨pattern, type, pattern.span.merge (← previousSpan)⟩

/-- A group of parameters, which must not be empty if `nonEmpty` holds, and its span
(`parse_param_group`). -/
def paramGroup (nonEmpty : Bool) : ReaderOf ν (List (Param ν) × Span) := do
  let group ← openGroup
  if nonEmpty && (← isNext (.punct group.close)) then absent .parameter
  let (params, _) ← nestedList (.punct group.close) inner.param
  return (params, ← closeGroup group)

/-! ## Bodies -/

/-- What follows the condition of a conditional: a block, or an expression behind `then`
(`parse_then_body`). -/
def thenBody : ReaderOf ν (Body ν) := do
  if ← isNext (.punct .openBrace) then return .block (← inner.block)
  if ← accept (.keyword .thenKw) then return .expr (← inner.expr)
  unexpected {.keyword .thenKw, .punct .openBrace}

/-- A block or an expression (in `parse_else_body`, `parse_arms`). -/
def blockOrExpr : ReaderOf ν (Body ν) := do
  if ← isNext (.punct .openBrace) then return .block (← inner.block)
  else return .expr (← inner.expr)

/-- What follows `else`, which may stand on the next line, if there is one (`parse_else_body`). -/
def elseBody : ReaderOf ν (Option (Body ν)) := do
  if ← isNextPastBreak (.keyword .elseKw) then
    skipBreaks
    let _ ← take
    some <$> inner.blockOrExpr
  else return none

/-- The condition of a conditional or the subject of a match: a brace behind it does not belong
to it (`head_context`). -/
def head : ReaderOf ν (Expr ν) := within (fun c => c.nested.union .head) inner.expr

/-! ## Primaries -/

/-- Whether a lambda comes next: it starts with one bar or two (`at_lambda`). -/
def isLambdaNext : ReaderOf ν Bool := do
  match (← nextToken).kind with
  | .reserved .pipe => return true
  | .operator symbols => return Naming.spell (← get).names symbols == "||"
  | _ => return false

/-- Expressions between parentheses (`parse_tuple`). -/
def tuple : ReaderOf ν (Expr ν) := do
  let group ← openGroup
  let (elements, trailing) ← nestedList (.punct .closeParen) inner.expr
  newExpr (← closeGroup group) fun m => .tuple m elements trailing

/-- Expressions between brackets (`parse_array`). -/
def array : ReaderOf ν (Expr ν) := do
  let group ← openGroup
  let (elements, _) ← nestedList (.punct .closeBracket) inner.expr
  newExpr (← closeGroup group) fun m => .array m elements

/-- A conditional with both branches (`parse_if_expr`). -/
def conditional : ReaderOf ν (Expr ν) := do
  let start := (← take).span
  let condition ← inner.head
  let thenBody ← inner.thenBody
  match ← inner.elseBody with
  | some elseBody =>
    newExpr (start.merge (← previousSpan)) fun m => .conditional m condition thenBody elseBody
  | none => throw ⟨.missingElse, start.merge (← previousSpan), some .ifExpression⟩

/-- A match arm, up to the comma or line break behind it (in `parse_arms`). -/
def arm : ReaderOf ν (Arm ν) := do
  let pattern ← pattern
  let _ ← expect (.reserved .fatArrow)
  skipBreaks
  let body ← inner.blockOrExpr
  let span := pattern.span.merge (← previousSpan)
  let comma ← accept (.punct .comma)
  let separated := comma || (← isNext .lineBreak)
  skipBreaks
  if !separated && (← isNotNext (.punct .closeBrace)) then
    unexpected {.punct .comma, .punct .closeBrace, .lineBreak}
  return ⟨pattern, body, span⟩

/-- Whether neither a closing brace nor the end comes next (in `parse_arms`,
`parse_block_stmts`). -/
def isInBraces : ReaderOf ν Bool := do
  return (← isNotNext (.punct .closeBrace)) && (← isNotNext .eof)

/-- A match with its arms (`parse_match`). -/
def matchOn : ReaderOf ν (Expr ν) := do
  let start := (← take).span
  let scrutinee ← inner.head
  if ← isNotNext (.punct .openBrace) then unexpected {.punct .openBrace}
  let group ← openBrace
  skipBreaks
  let arms ← within (fun _ => .none) (collectWhile isInBraces inner.arm)
  let stop ← closeGroup group
  newExpr (start.merge stop) fun m => .matchOn m scrutinee arms

/-- The word `return`, with a value on the same line or without (`parse_return`). -/
def returned : ReaderOf ν (Expr ν) := do
  let start := (← take).span
  if (← isNextIn exprTags) || (← isLambdaNext) then
    let value ← inner.expr
    newExpr (start.merge value.span) fun m => .returned m (some value)
  else newExpr start fun m => .returned m none

/-- The parameters of a lambda and the bar behind them (in `parse_lambda`). -/
def lambdaParams : ReaderOf ν (List (Param ν)) := do
  let (params, _) ← within (fun c => c.union .lambdaParams)
    (commaList (.reserved .pipe) inner.param)
  let _ ← expect (.reserved .pipe)
  return params

/-- A lambda; its body goes on as far as an expression can (`parse_lambda`). -/
def lambda : ReaderOf ν (Expr ν) := do
  let bar ← take
  let params ← if bar.tag = .reserved .pipe then inner.lambdaParams else pure []
  let body ← within (fun c => c.without .lambdaParams) inner.expr
  newExpr (bar.span.merge body.span) fun m => .lambda m params body

/-- A name or path (in `parse_primary`). -/
def reference : ReaderOf ν (Expr ν) := do
  let path ← path
  newExpr path.span fun m => if path.tail.isEmpty then .name m path.head.name else .path m path

/-- An expression that can be an argument, or a lambda (`parse_primary`). -/
def primary : ReaderOf ν (Expr ν) := do
  let token ← nextToken
  match token.kind.literal? with
  | some value =>
    let _ ← take
    newExpr token.span fun m => .literal m value
  | none =>
    match token.tag with
    | .ident | .symbolIdent => reference
    | .punct .openParen => inner.tuple
    | .punct .openBracket => inner.array
    | .keyword .ifKw => inner.conditional
    | .keyword .matchKw => inner.matchOn
    | .keyword .returnKw => inner.returned
    | _ => if ← isLambdaNext then inner.lambda else absent .expression

/-! ## Applications and operators -/

/-- The tags an argument starts with: those of all primaries but lambdas (`at_argument_start`). -/
def argumentTags : TagSet :=
  {.ident, .symbolIdent, .number, .string, .char, .punct .openParen, .punct .openBracket,
    .keyword .ifKw, .keyword .matchKw, .keyword .returnKw}

/-- The block that is the last argument of an application, if one is there
(in `parse_application`). -/
def trailingBlock : ReaderOf ν (Option (Block ν)) := do
  if (← context).allowsTrailingBlock && (← isNext (.punct .openBrace)) then some <$> inner.block
  else return none

/-- An application, or a primary without arguments (`parse_application`). In a type no block is
taken. -/
def application : ReaderOf ν (Expr ν) := do
  let callee ← inner.primary
  let args ← collectWhile (isNextIn argumentTags) inner.primary
  if args.isEmpty then return callee
  else if (← context).inType then
    newExpr (callee.span.merge (← previousSpan)) fun m => .typeApp m callee args
  else
    let block ← inner.trailingBlock
    newExpr (callee.span.merge (← previousSpan)) fun m => .app m callee args block

/-- The name of a spelling, which enters the name table (`StringInterner::intern`). -/
def enterName (s : String) : ReaderOf ν ν :=
  modifyGet fun st =>
    let (name, names) := Naming.enter st.names s
    (name, { st with names })

/-- The operator that comes next, if one does (`binary_operator`). A bar is one unless it separates,
and its spelling enters the name table when it is seen. -/
def operator? : ReaderOf ν (Option (Operator ν)) := do
  let token ← nextToken
  match token.kind with
  | .operator symbols => return some ⟨symbols, token.span⟩
  | .reserved .pipe =>
    if (← context).pipeSeparates then return none
    else return some ⟨← enterName Reserved.pipe.text, token.span⟩
  | _ => return none

/-- Applications joined by operators, grouped to the left (`parse_binary`). -/
def binary : ReaderOf ν (Expr ν) := do
  repeated (← inner.application) fun lhs => do
    match ← operator? with
    | some op =>
      let _ ← take
      skipBreaks
      let rhs ← inner.application
      return .yield (← newExpr (lhs.span.merge rhs.span) fun m => .binary m lhs op rhs)
    | none => return .done lhs

/-! ## Arrows and types -/

/-- What an arrow leads to; it may start on the next line (in `parse_expr_inner`,
`parse_binder`). -/
def codomain : ReaderOf ν (Expr ν) := do
  skipBreaks
  inner.expr

/-- Parameters, an arrow and what it leads to (`parse_binder`). -/
def binder (isSigma : Bool) : ReaderOf ν (Expr ν) := do
  let (params, span) ← inner.paramGroup false
  let _ ← expect (.reserved .arrow)
  let codomain ← inner.codomain
  newExpr (span.merge codomain.span) fun m =>
    if isSigma then .sigma m params codomain else .pi m params codomain

/-- Operators, with an arrow or a type behind them or without (in `parse_expr_inner`). -/
def arrowOrAscription : ReaderOf ν (Expr ν) := do
  let lhs ← inner.binary
  if ← accept (.reserved .arrow) then
    let codomain ← inner.codomain
    newExpr (lhs.span.merge codomain.span) fun m => .arrow m lhs codomain
  else if ← accept (.punct .colon) then
    let type ← inner.type
    newExpr (lhs.span.merge type.span) fun m => .ascription m lhs type
  else return lhs

/-- An expression (`parse_expr_inner`). -/
def exprOf : ReaderOf ν (Expr ν) := do
  if ← isBinderNext then inner.binder (← isNext (.punct .openBracket))
  else inner.arrowOrAscription

end Inner

end Surface.Grammar
