import Surface.Grammar.State

/-!
# Reading names and patterns

```text
path           := name ('.' name)*
pattern        := path atomic* | atomic
atomic         := path | literal | '..' | '(' pattern ')'
```

A path takes every name that follows with a dot before it, so a pattern is a constructor
applied to patterns and never a field of a value. Parentheses leave no node behind.
-/

namespace Surface.Grammar

variable {ν : Type}

/-- A name (`parse_ident`). -/
def ident : ReaderOf ν (Ident ν) := do
  let token ← nextToken
  match token.kind.name? with
  | some name =>
    let _ ← take
    return ⟨name, token.span⟩
  | none => absent .name

/-- Whether a name comes next (`check_name`). -/
def isNameNext : ReaderOf ν Bool := isNextIn nameTags

/-- Whether a dot with a name behind it comes next (in `parse_path`). -/
def isSegmentNext : ReaderOf ν Bool := do
  return (← isNext (.reserved .dot)) && nameTags.contains (← tagBehind)

/-- One or more names with dots between them (`parse_path`). -/
def path : ReaderOf ν (Path ν) := do
  let head ← ident
  let tail ← collectWhile isSegmentNext do
    let _ ← take
    ident
  return ⟨head, tail⟩

/-- A pattern that can be an argument, given how to read the pattern between parentheses
(`parse_atomic_pattern`). -/
def atomicPatternOf (inner : ReaderOf ν (Pattern ν)) : ReaderOf ν (Pattern ν) := do
  let token ← nextToken
  match token.kind.literal? with
  | some value =>
    let _ ← take
    newPattern token.span fun m => .literal m value
  | none =>
    match token.tag with
    | .ident | .symbolIdent =>
      let path ← path
      newPattern path.span fun m => .cons m path []
    | .reserved .dotDot =>
      let _ ← take
      newPattern token.span fun m => .rest m
    | .punct .openParen =>
      let group ← openGroup
      let pattern ← within (fun c => c.nested.union .pattern) inner
      let _ ← closeGroup group
      return pattern
    | _ => absent .pattern

/-- A constructor applied to patterns, or a pattern that can be an argument
(`parse_pattern_inner`). -/
def patternOf (inner : ReaderOf ν (Pattern ν)) : ReaderOf ν (Pattern ν) :=
  within (fun c => c.union .pattern) do
    if ← isNameNext then
      let path ← path
      let args ← collectWhile (isNextIn patternTags) (atomicPatternOf inner)
      newPattern (path.span.merge (← previousSpan)) fun m => .cons m path args
    else atomicPatternOf inner

/-- Patterns with at most `depth` pairs of parentheses inside each other. -/
def patternUpTo : Nat → ReaderOf ν (Pattern ν)
  | 0 => absent .pattern
  | depth + 1 => patternOf fun input s => patternUpTo depth input s

/-- A pattern (`parse_pattern`). Every pair of parentheses takes a token, so that there are fewer of
them inside each other than tokens. -/
def pattern : ReaderOf ν (Pattern ν) := fun input s => patternUpTo (input.tokens.size + 1) input s

/-- A pattern that can be an argument (`parse_atomic_pattern`). -/
def atomicPattern : ReaderOf ν (Pattern ν) := atomicPatternOf pattern

end Surface.Grammar
