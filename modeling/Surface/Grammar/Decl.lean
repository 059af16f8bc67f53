import Surface.Grammar.Stmt

/-!
# Reading declarations

```text
decl      := doc* attribute* (use | command | typeDecl | clause | signature)
attribute := '@' path ['(' exprs ')']
use       := 'use' path
command   := '#' path primary*
typeDecl  := [visibility] sort path params* [':' type] ['{' members '}']
signature := path params* [':' type] [block]
clause    := path atomic* '=' [expr]
```

A name is a clause when an equals sign stands outside all groups on its line, and a signature
otherwise.
-/

namespace Surface.Grammar

variable {ν : Type} [Naming ν]

/-! ## Attributes -/

/-- The arguments of an attribute, if it has parentheses (in `parse_attributes`). -/
def attrArgs : ReaderOf ν (Option (List (Expr ν))) := do
  if ← isNext (.punct .openParen) then
    let group ← openGroup
    let (args, _) ← nestedList (.punct .closeParen) expr
    let _ ← closeGroup group
    return some args
  else return none

/-- An attribute and the line breaks behind it (in `parse_attributes`). -/
def attr : ReaderOf ν (Attribute ν) := do
  let start := (← take).span
  let path ← path
  let args ← attrArgs
  let span := start.merge (← previousSpan)
  skipBreaks
  return ⟨path, args, span⟩

/-- All attributes that come next (`parse_attributes`). -/
def attrs : ReaderOf ν (List (Attribute ν)) := collectWhile (isNext (.punct .atSign)) attr

/-! ## Parts -/

/-- The tags that start a list of parameters. -/
def paramListTags : TagSet := {.punct .openParen, .punct .openBracket}

/-- A list of parameters; one between brackets must not be empty (in `parse_arg_lists`). -/
def paramList : ReaderOf ν (ParamList ν) := do
  let implicit ← isNext (.punct .openBracket)
  let (params, span) ← inner.paramGroup implicit
  return ⟨implicit, params, span⟩

/-- All lists of parameters that come next (`parse_arg_lists`). -/
def paramLists : ReaderOf ν (List (ParamList ν)) := collectWhile (isNextIn paramListTags) paramList

/-- A colon and a type, if a colon comes next (`parse_clause_type`). -/
def optionalType : ReaderOf ν (Option (Expr ν)) := do
  if ← accept (.punct .colon) then some <$> inner.type else return none

/-- A block, if a brace comes next (in `parse_signature`). -/
def optionalBlock : ReaderOf ν (Option (Block ν)) := do
  if ← isNext (.punct .openBrace) then some <$> block else return none

/-- A name with parameters, type and definition (`parse_signature`). -/
def signature : ReaderOf ν (Signature ν) := do
  let name ← path
  let params ← paramLists
  let type ← optionalType
  let value ← optionalBlock
  return ⟨name, params, type, value, name.span.merge (← previousSpan)⟩

/-- A name applied to patterns, an equals sign, and a value that starts on the same line, if
there is one (`parse_clause`). -/
def clause : ReaderOf ν (Clause ν) := do
  let name ← path
  let patterns ← collectWhile (isNotNext (.reserved .eq)) atomicPattern
  let _ ← take
  let value ← if (← isNext .lineBreak) || (← isNext .eof) then pure none else some <$> expr
  return ⟨name, patterns, value, name.span.merge (← previousSpan)⟩

/-- The hash, a path and arguments (`parse_command`). -/
def command : ReaderOf ν (DeclForm ν) := do
  let _ ← take
  let name ← path
  let args ← collectWhile (isNextIn Inner.argumentTags) inner.primary
  return .command name args

/-! ## Type declarations -/

/-- A name with its type, or a type, as a parameter of a constructor (`parse_constructor_param`). -/
def ctorParam : ReaderOf ν (CtorParam ν) := do
  if (← isNameNext) && (← tagBehind) = .punct .colon then
    let name ← ident
    let _ ← take
    return .named name (← inner.type)
  else return .positional (← inner.type)

/-- What follows the name of a constructor (in `parse_constructor`). -/
def ctorForm : ReaderOf ν (CtorForm ν) := do
  if ← accept (.punct .colon) then return .typed (← inner.type)
  else if ← isNext (.punct .openParen) then
    let group ← openGroup
    let (params, _) ← nestedList (.punct .closeParen) ctorParam
    let _ ← closeGroup group
    return .applied (some params)
  else return .applied none

/-- A constructor (`parse_constructor`). -/
def ctor : ReaderOf ν (Ctor ν) := do
  let name ← path
  let form ← ctorForm
  return ⟨name, form, name.span.merge (← previousSpan)⟩

/-- Whether a line break with a semicolon in it comes next (`at_semicolon_break`). -/
def isSemicolonNext : ReaderOf ν Bool := do
  let token ← nextToken
  return token.tag = .lineBreak && token.spacing.contains Spacing.hasSemicolon

/-- A constructor, and whether another one may follow: behind a comma without a semicolon
(in `parse_body_members`). A name on the next line without either is a method that lacks its
semicolon. -/
def ctorItem : ReaderOf ν (Ctor ν × Bool) := do
  let ctor ← ctor
  let comma ← accept (.punct .comma)
  if ← isSemicolonNext then return (ctor, false)
  else if comma then
    skipBreaks
    return (ctor, true)
  else if ← isNext .lineBreak then
    let methodNext := nameTags.contains (← tagBehind)
    skipBreaks
    if methodNext then throw ⟨.missingMethodSeparator, ← nextSpan, none⟩
    return (ctor, false)
  else return (ctor, false)

/-- The constructors of a type, if its body does not start with a semicolon
(in `parse_body_members`). -/
def ctors : ReaderOf ν (List (Ctor ν)) := do
  if ← isSemicolonNext then return []
  else
    skipBreaks
    collect Inner.isInBraces ctorItem

/-- A method, and whether another one may follow: on another line (in `parse_methods`). -/
def method : ReaderOf ν (Signature ν × Bool) := do
  let method ← signature
  let separated ← isNext .lineBreak
  skipBreaks
  return (method, separated)

/-- Methods on lines of their own (`parse_methods`). -/
def methods : ReaderOf ν (List (Signature ν)) := collect Inner.isInBraces method

/-- The members of a type: methods only for a trait, else constructors and, behind a semicolon,
methods (`parse_body_members`). -/
def members (sort : TypeSort) : ReaderOf ν (List (Ctor ν) × List (Signature ν)) := do
  if sort = .trait then
    skipBreaks
    return ([], ← methods)
  else
    let ctors ← ctors
    if ← isSemicolonNext then
      skipBreaks
      return (ctors, ← methods)
    else return (ctors, [])

/-- The members of a type between braces (`parse_type_body`). -/
def typeBody (sort : TypeSort) : ReaderOf ν (TypeBody ν) := do
  let group ← openBrace
  let (ctors, methods) ← within (fun _ => .none) (members sort)
  return ⟨ctors, methods, ← closeGroup group⟩

/-- The visibility a tag names (in `parse_type_decl`). -/
def visibilityOf? : Tag → Option Visibility
  | .keyword .publicKw => some .pub
  | .keyword .sealedKw => some .closed
  | .keyword .privateKw => some .priv
  | .keyword .internalKw => some .intern
  | _ => none

/-- The sort of type declaration a tag names (in `parse_type_decl`). -/
def typeSortOf? : Tag → Option TypeSort
  | .keyword .classKw => some .cls
  | .keyword .traitKw => some .trait
  | .keyword .dataKw => some .data
  | _ => none

/-- A visibility and its place, if one comes next (in `parse_type_decl`). -/
def visibility : ReaderOf ν (Option (Visibility × Span)) := do
  match visibilityOf? (← nextTag) with
  | some v => return some (v, (← take).span)
  | none => return none

/-- The keyword of a type declaration (in `parse_type_decl`). -/
def typeSort : ReaderOf ν TypeSort := do
  match typeSortOf? (← nextTag) with
  | some sort =>
    let _ ← take
    return sort
  | none => unexpected {.keyword .classKw, .keyword .traitKw, .keyword .dataKw}

/-- A type declaration (`parse_type_decl`). -/
def typeDecl : ReaderOf ν (TypeDecl ν) := do
  let visibility ← visibility
  let sort ← typeSort
  let name ← path
  let params ← paramLists
  let type ← optionalType
  let body ← if ← isNext (.punct .openBrace) then some <$> typeBody sort else pure none
  return ⟨sort, visibility, name, params, type, body⟩

/-! ## Declarations -/

/-- What a declaration is, behind its attributes (in `parse_decl`). -/
def declForm : ReaderOf ν (DeclForm ν) := do
  match ← nextTag with
  | .keyword .useKw =>
    let _ ← take
    return .uses (← path)
  | .punct .hash => command
  | .keyword .publicKw | .keyword .sealedKw | .keyword .privateKw | .keyword .internalKw
  | .keyword .classKw | .keyword .traitKw | .keyword .dataKw =>
    .type <$> inConstruct .typeDeclaration typeDecl
  | .ident | .symbolIdent =>
    if ← isAhead (.reserved .eq) then .clause <$> inConstruct .clause clause
    else .signature <$> inConstruct .signature signature
  | _ => absent .declaration

/-- The documentation comments between an offset and the next token, where the dialect attaches
them (`doc_comments`). -/
def docStrings (start : Nat) : ReaderOf ν (List (DocString ν)) := do
  let input ← read
  if input.dialect.docs then
    let comments := input.comments.inRange start (← nextSpan).start
    return (comments.toList.filter Comment.isDoc).map fun c => ⟨c.content, c.span⟩
  else return []

/-- A declaration with the documentation that starts behind an offset (`parse_decl`). -/
def decl (docsFrom : Nat) : ReaderOf ν (Decl ν) := do
  let docs ← docStrings docsFrom
  let start := (docs.head?.map DocString.span).getD (← nextSpan)
  let attrs ← attrs
  let form ← declForm
  return ⟨form, docs, attrs, start.merge (← previousSpan)⟩

end Surface.Grammar
