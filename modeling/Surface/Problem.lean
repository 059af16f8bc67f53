import Surface.Diagnostic.Basic
import Surface.Token.Basic
import Surface.Token.TagSet

/-!
# Problems

What can be wrong with a text, kept as causes. Codes and wordings are computed from the causes
in one place each.

* `Wanted`: what the grammar asked for, with the tags it may start with.
* `Problem`: the causes; `Problem.code`, `Problem.message`, `Problem.category`.
* `SyntaxError`: a problem in its place, and `SyntaxError.diagnostic`, its explanation.
-/

namespace Surface

/-! ## What the grammar asks for -/

/-- The tags of names (`NAME_START`). -/
def nameTags : TagSet := {.ident, .symbolIdent}

/-- The tags that can start a pattern (`PATTERN_START`). -/
def patternTags : TagSet :=
  {.ident, .symbolIdent, .number, .string, .char, .reserved .dotDot, .punct .openParen}

/-- The tags that can start an expression (`EXPR_START`). -/
def exprTags : TagSet :=
  {.ident, .symbolIdent, .number, .string, .char, .punct .openParen, .punct .openBracket,
    .keyword .ifKw, .keyword .matchKw, .keyword .returnKw, .reserved .pipe}

/-- The tags that can start a declaration behind its attributes (`DECL_START`). -/
def declTags : TagSet :=
  {.ident, .symbolIdent, .keyword .useKw, .punct .hash, .keyword .classKw, .keyword .traitKw,
    .keyword .dataKw, .keyword .publicKw, .keyword .sealedKw, .keyword .privateKw,
    .keyword .internalKw}

/-- Something the grammar asks for that is more than one token. -/
inductive Wanted
  | name | pattern | parameter | expression | declaration
  /-- An item, in a dialect that admits none. -/
  | item
deriving DecidableEq, Repr

namespace Wanted

/-- What is asked for, in words. -/
def phrase : Wanted → String
  | name => "a name"
  | pattern => "a pattern"
  | parameter => "a parameter"
  | expression => "an expression"
  | declaration | item => "a declaration"

/-- The tags it may start with. -/
def tags : Wanted → TagSet
  | name => nameTags
  | pattern | parameter => patternTags
  | expression => exprTags
  | declaration => declTags
  | item => ∅

/-- The code of its absence. -/
def code : Wanted → Code
  | name => .expectedName
  | pattern | parameter => .expectedPattern
  | expression => .expectedExpression
  | declaration | item => .expectedDeclaration

end Wanted

/-! ## Causes -/

/-- What is wrong. -/
inductive Problem
  /-- A token that is none of those expected. -/
  | unexpected (found : Tag) (expected : TagSet)
  /-- A token that does not start what was asked for. -/
  | absent (what : Wanted) (found : Tag)
  /-- A group that was opened somewhere and is not closed here. -/
  | unclosed (close : Punct) (found : Tag) (openedAt : Span)
  /-- Text that is no token. -/
  | lexical (error : LexicalError)
  /-- A conditional in an expression that has one branch. -/
  | missingElse
  /-- Methods behind constructors without a semicolon between them. -/
  | missingMethodSeparator
  /-- A first line that starts with `#!`, in a dialect that does not admit it. -/
  | shebang
  /-- Bytes that are no text. -/
  | invalidUtf8
deriving DecidableEq, Repr

/-- The categories of problems (`ParseErrorKind`). -/
inductive Category
  | unexpectedToken (found : Tag) (expected : TagSet)
  | unterminatedLiteral
  | missingMandatoryBranch
  | unknownToken
  | missingSeparator
deriving DecidableEq, Repr

/-- The code of a lexical error. -/
def LexicalError.code : LexicalError → Code
  | .unknownToken => .unknownToken
  | .unterminatedString => .unterminatedString
  | .unterminatedChar => .unterminatedChar

/-- The category of a lexical error. -/
def LexicalError.category : LexicalError → Category
  | .unknownToken => .unknownToken
  | .unterminatedString | .unterminatedChar => .unterminatedLiteral

namespace Problem

/-- The code of a problem. -/
def code : Problem → Code
  | unexpected _ _ => .unexpectedToken
  | absent what _ => what.code
  | unclosed _ _ _ => .unclosedDelimiter
  | lexical e => e.code
  | missingElse => .missingElse
  | missingMethodSeparator => .missingMethodSeparator
  | shebang => .unexpectedToken
  | invalidUtf8 => .invalidUtf8

/-- The category of a problem. -/
def category : Problem → Category
  | unexpected found expected => .unexpectedToken found expected
  | absent what found => .unexpectedToken found what.tags
  | unclosed close found _ => .unexpectedToken found {.punct close}
  | lexical e => e.category
  | missingElse => .missingMandatoryBranch
  | missingMethodSeparator => .missingSeparator
  | shebang => .unexpectedToken (.punct .hash) ∅
  | invalidUtf8 => .unknownToken

/-- What was expected and what was found instead. -/
def insteadOf (what : String) (found : Tag) : String :=
  "expected " ++ what ++ ", found " ++ found.describe

/-- The wording of a problem. -/
def message : Problem → String
  | unexpected found expected => insteadOf expected.describe found
  | absent what found => insteadOf what.phrase found
  | unclosed close found _ => insteadOf (Tag.punct close).describe found
  | lexical e => e.describe
  | missingElse => "`if` expression has no `else` branch"
  | missingMethodSeparator => "expected `;` between constructors and methods"
  | shebang => insteadOf "a declaration" (.punct .hash)
  | invalidUtf8 => "invalid UTF-8 in source; the rest of the input was ignored"

/-- Where the group was opened that is not closed. -/
def openedAt? : Problem → Option Span
  | unclosed _ _ span => some span
  | _ => none

/-- The short wording that stands at the place of a problem. -/
def label (p : Problem) : String :=
  match p.category with
  | .unexpectedToken found _ => "unexpected " ++ found.describe
  | _ => p.code.summary

end Problem

/-! ## Errors in their places -/

/-- The forms that are named as context of an error. -/
inductive Construct
  | ifExpression | letStatement | typeDeclaration | clause | signature
deriving DecidableEq, Repr

/-- A form in words. -/
def Construct.phrase : Construct → String
  | .ifExpression => "an if expression"
  | .letStatement => "a let statement"
  | .typeDeclaration => "a type declaration"
  | .clause => "a clause"
  | .signature => "a signature"

/-- A problem in its place (`ParseError`). -/
structure SyntaxError where
  problem : Problem
  span : Span
  /-- The innermost form that was being read. -/
  context : Option Construct
deriving DecidableEq, Repr

namespace SyntaxError

/-- A problem at a token, given the tag that was found (`ParseError::unexpected`,
`ParseError::expected`, `ParseError::unclosed`). Where the token is text that is no token, that is
the problem instead. -/
def atToken {ν : Type} (token : Token ν) (problem : Tag → Problem) : SyntaxError :=
  match token.kind with
  | .error e => ⟨.lexical e, token.span, none⟩
  | kind => ⟨problem kind.tag, token.span, none⟩

/-- An error that occurred within a form; an inner form that is known already is kept
(`ParseError::with_context`). -/
def within (e : SyntaxError) (form : Construct) : SyntaxError :=
  { e with context := e.context <|> some form }

/-- Code and wording on one line. -/
def text (e : SyntaxError) : String := "[" ++ e.problem.code.text ++ "] " ++ e.problem.message

/-- The explanation of an error: its place, where an unclosed group was opened, and the form
that was being read (`ParseError::to_diagnostic`). -/
def diagnostic (e : SyntaxError) : Diagnostic where
  code := e.problem.code
  severity := .error
  message := e.problem.message
  labels := ⟨e.span, e.problem.label, true⟩ ::
    (e.problem.openedAt?.map fun span => (⟨span, "opened here", false⟩ : Label)).toList
  notes := (e.context.map fun form => "while parsing " ++ form.phrase).toList

end SyntaxError

end Surface
