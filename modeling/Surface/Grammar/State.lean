import Surface.Cursor
import Surface.Dialect
import Surface.Grammar.Context
import Surface.Problem
import Surface.Syntax.File

/-!
# Readers

A reader takes tokens from a stream and builds nodes. It has the stream and the dialect at hand
and changes a state: the cursor, the context, the log of nodes, the errors reported and the
name table. A reader that fails keeps the state it has reached, since reading goes on from there.

* `Reader`: the type of readers.
* `take`, `takeIf`, `expect`: tokens.
* `within`: another context, restored afterwards.
* `repeated`: the loop all sequences of the grammar are read with.
* `collect`, `commaList`: sequences.
-/

namespace Surface

namespace Grammar

/-- What does not change while a file is read (in `Parser`). -/
structure Input (ν : Type := String) where
  tokens : Tokens ν
  groups : Groups
  comments : Comments ν
  dialect : Dialect

/-- What changes while a file is read (in `Parser`). -/
structure State (ν : Type := String) where
  cursor : Cursor
  context : Context
  nodes : NodeLog ν
  errors : Array SyntaxError
  names : NameTable

end Grammar

/-- Readers fail with an error in its place and keep the state reached. -/
abbrev ReaderOf (ν : Type) := ReaderT (Grammar.Input ν) (EStateM SyntaxError (Grammar.State ν))

/-- Readers of streams whose names are spellings. -/
abbrev Reader := ReaderOf String

namespace Grammar

variable {α β ν : Type}

/-- The state before anything is read. -/
def State.start (names : NameTable) : State ν := ⟨.start, .none, .empty, #[], names⟩

/-! ## Tokens -/

/-- Changes the cursor. -/
def moveCursor (f : Tokens ν → Cursor → Cursor) : ReaderOf ν Unit := do
  let tokens := (← read).tokens
  modify fun s => { s with cursor := f tokens s.cursor }

/-- The cursor. -/
def cursor : ReaderOf ν Cursor := do return (← get).cursor

/-- The next token (`Cursor::current`). -/
def nextToken : ReaderOf ν (Token ν) := do return (← read).tokens.get (← cursor).position

/-- The span of the next token (`Cursor::current_span`). -/
def nextSpan : ReaderOf ν Span := do return (← nextToken).span

/-- The tag of the next token (`Cursor::current_tag`). -/
def nextTag : ReaderOf ν Tag := do return (← cursor).tag (← read).tokens

/-- The tag of the token behind the next one (`Cursor::peek_tag`). -/
def tagBehind : ReaderOf ν Tag := do return (← read).tokens.tag ((← cursor).position + 1)

/-- The span of the last token taken that is no line break (`Cursor::previous_span`). -/
def previousSpan : ReaderOf ν Span := do return (← cursor).previous

/-- Whether the next token has a tag (`Cursor::check`). -/
def isNext (tag : Tag) : ReaderOf ν Bool := do return (← nextTag) = tag

/-- Whether the tag of the next token is in a set. -/
def isNextIn (tags : TagSet) : ReaderOf ν Bool := do return tags.contains (← nextTag)

/-- Takes the next token (`Cursor::advance`). The end is never taken. -/
def take : ReaderOf ν (Token ν) := do
  let token ← nextToken
  moveCursor fun tokens c => c.step tokens
  return token

/-- Passes over line breaks (`Cursor::skip_line_breaks`). -/
def skipBreaks : ReaderOf ν Unit := moveCursor fun tokens c => c.skipBreaks tokens

/-- Takes the next token if it has a tag (`Cursor::eat`). -/
def takeIf (tag : Tag) : ReaderOf ν (Option Span) := do
  if ← isNext tag then return some (← take).span else return none

/-- Whether the next token has a tag, and takes it if so. -/
def accept (tag : Tag) : ReaderOf ν Bool := do return (← takeIf tag).isSome

/-- Whether the next token that is no line break has a tag (`Cursor::check_past_line_break`). -/
def isNextPastBreak (tag : Tag) : ReaderOf ν Bool := do
  if ← isNext .lineBreak then return (← tagBehind) = tag else isNext tag

/-- Whether a tag occurs outside all groups before the line ends (`Parser::depth0_ahead`). -/
def isAhead (tag : Tag) : ReaderOf ν Bool := do
  let input ← read
  return occursBeforeBreak input.tokens input.groups tag (← cursor).position

/-- Whether a group comes next that is not empty and has an arrow behind it
(`arrow_after_group`). -/
def isBinderNext : ReaderOf ν Bool := do
  let input ← read
  let c ← cursor
  return arrowFollowsGroup input.tokens input.groups c.skipsBreaks c.position

/-! ## Failure -/

/-- Fails at the next token. -/
def failWith (problem : Tag → Problem) : ReaderOf ν α := do
  throw (SyntaxError.atToken (← nextToken) problem)

/-- Fails since the next token is none of those expected (`ParseError::unexpected`). -/
def unexpected (expected : TagSet) : ReaderOf ν α := failWith fun found => .unexpected found expected

/-- Fails since the next token does not start what is asked for (`ParseError::expected`). -/
def absent (what : Wanted) : ReaderOf ν α := failWith fun found => .absent what found

/-- Takes a token that must come next (`Parser::expect`). -/
def expect (tag : Tag) : ReaderOf ν Span := do
  match ← takeIf tag with
  | some span => return span
  | none => unexpected {tag}

/-- Names the form in which an error occurs (`Parser::with_context`). -/
def inConstruct (form : Construct) (reader : ReaderOf ν α) : ReaderOf ν α := fun input s =>
  match reader input s with
  | .ok a s => .ok a s
  | .error e s => .error (e.within form) s

/-! ## Contexts -/

/-- The context. -/
def context : ReaderOf ν Context := do return (← get).context

/-- Reads in another context, which is derived from the present one, and restores the present
one afterwards, whether the reader succeeds or fails (`Parser::with_context`). -/
def within (derive : Context → Context) (reader : ReaderOf ν α) : ReaderOf ν α := fun input s =>
  let saved := s.context
  match reader input { s with context := derive saved } with
  | .ok a s => .ok a { s with context := saved }
  | .error e s => .error e { s with context := saved }

/-! ## Nodes -/

/-- Finishes an expression that covers `span` (`AstArena::alloc_expr`). -/
def newExpr (span : Span) (form : Mark → Expr ν) : ReaderOf ν (Expr ν) :=
  modifyGet fun s =>
    let e := form ⟨s.nodes.exprs.size, span⟩
    (e, { s with nodes := { s.nodes with exprs := s.nodes.exprs.push e } })

/-- Finishes a pattern that covers `span` (`AstArena::alloc_pattern`). -/
def newPattern (span : Span) (form : Mark → Pattern ν) : ReaderOf ν (Pattern ν) :=
  modifyGet fun s =>
    let p := form ⟨s.nodes.patterns.size, span⟩
    (p, { s with nodes := { s.nodes with patterns := s.nodes.patterns.push p } })

/-- Finishes a statement that covers `span` (`AstArena::alloc_stmt`). -/
def newStmt (span : Span) (form : Mark → Stmt ν) : ReaderOf ν (Stmt ν) :=
  modifyGet fun s =>
    let t := form ⟨s.nodes.stmts.size, span⟩
    (t, { s with nodes := { s.nodes with stmts := s.nodes.stmts.push t } })

/-! ## Groups -/

/-- A group that has been opened (`Delimited`). -/
structure Opened where
  close : Punct
  openedAt : Span
  /-- Whether line breaks were passed over outside the group. -/
  skipped : Bool

/-- Passes over line breaks from now on, or no longer (`Cursor::set_skip_breaks`). -/
def setSkipsBreaks (b : Bool) : ReaderOf ν Unit := moveCursor fun _ c => { c with skipsBreaks := b }

/-- Takes an opening parenthesis or bracket (`Parser::open_group`). Inside, line breaks are passed
over. -/
def openGroup : ReaderOf ν Opened := do
  let close := if ← isNext (.punct .openBracket) then .closeBracket else .closeParen
  let skipped := (← cursor).skipsBreaks
  setSkipsBreaks true
  return ⟨close, (← take).span, skipped⟩

/-- Takes an opening brace (`Parser::open_brace`). Inside, line breaks carry meaning again. -/
def openBrace : ReaderOf ν Opened := do
  let skipped := (← cursor).skipsBreaks
  setSkipsBreaks false
  return ⟨.closeBrace, (← take).span, skipped⟩

/-- Takes the closer of a group (`Parser::close`). Yields the span of the whole group. -/
def closeGroup (group : Opened) : ReaderOf ν Span := do
  if group.close = .closeBrace then skipBreaks
  setSkipsBreaks group.skipped
  match ← takeIf (.punct group.close) with
  | some stop => return group.openedAt.merge stop
  | none => failWith fun found => .unclosed group.close found group.openedAt

/-! ## Sequences -/

/-- Repeats a round on its own result until it is done, at most `rounds` times. -/
def repeatUpTo (round : β → ReaderOf ν (ForInStep β)) : Nat → β → ReaderOf ν β
  | 0, b => pure b
  | n + 1, b => do
    match ← round b with
    | .done b => pure b
    | .yield b => repeatUpTo round n b

/-- Repeats a round on its own result until it is done. A round that is not the last takes a
token, so that there are at most as many rounds as tokens left. -/
def repeated (b : β) (round : β → ReaderOf ν (ForInStep β)) : ReaderOf ν β := do
  let left := (← read).tokens.size - (← cursor).position
  repeatUpTo round (left + 1) b

/-- Reads items as long as there are more; an item can say that it is the last. -/
def collect (more : ReaderOf ν Bool) (item : ReaderOf ν (α × Bool)) : ReaderOf ν (List α) := do
  let items ← repeated #[] fun (items : Array α) => do
    if ← more then
      let (a, goOn) ← item
      return if goOn then .yield (items.push a) else .done (items.push a)
    else return .done items
  return items.toList

/-- Reads items as long as there are more. -/
def collectWhile (more : ReaderOf ν Bool) (item : ReaderOf ν α) : ReaderOf ν (List α) :=
  collect more do return (← item, true)

/-- Whether no token with a tag comes next. -/
def isNotNext (tag : Tag) : ReaderOf ν Bool := do return !(← isNext tag)

/-- Reads items with commas between them, up to `close`, which is not taken (`Parser::comma_list`).
Yields whether a comma stood behind the last item as well. -/
def commaList (close : Tag) (item : ReaderOf ν α) : ReaderOf ν (List α × Bool) := do
  let rows ← collectWhile (isNotNext close) do
    let a ← item
    let comma ← accept (.punct .comma)
    if !comma && (← isNotNext close) then unexpected {.punct .comma, close}
    return (a, comma)
  return (rows.map Prod.fst, (rows.getLast?.map Prod.snd).getD false)

/-- Reads items with commas between them in the context of a nested group, up to `close`. -/
def nestedList (close : Tag) (item : ReaderOf ν α) : ReaderOf ν (List α × Bool) :=
  within Context.nested (commaList close item)

end Grammar

end Surface
