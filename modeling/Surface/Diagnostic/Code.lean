/-!
# Codes

Every problem that can be reported has a code that does not change: `E0…` for problems of
single tokens, `E1…` for problems of their order.
-/

namespace Surface

/-- The codes of problems (`ErrorCode`). -/
inductive Code
  | unterminatedString | unknownToken | unterminatedChar | invalidUtf8
  | unexpectedToken | expectedExpression | unclosedDelimiter | expectedName | expectedPattern
  | missingElse | missingMethodSeparator | expectedDeclaration
deriving DecidableEq, Repr

namespace Code

/-- All codes in their fixed order. -/
def all : List Code :=
  [unterminatedString, unknownToken, unterminatedChar, invalidUtf8,
    unexpectedToken, expectedExpression, unclosedDelimiter, expectedName, expectedPattern,
    missingElse, missingMethodSeparator, expectedDeclaration]

/-- The code as it is written (`ErrorCode::as_str`). -/
def text : Code → String
  | unterminatedString => "E0001"
  | unknownToken => "E0002"
  | unterminatedChar => "E0004"
  | invalidUtf8 => "E0005"
  | unexpectedToken => "E1001"
  | expectedExpression => "E1002"
  | unclosedDelimiter => "E1003"
  | expectedName => "E1004"
  | expectedPattern => "E1008"
  | missingElse => "E1010"
  | missingMethodSeparator => "E1011"
  | expectedDeclaration => "E1012"

/-- What a code means, on one line (`ErrorCode::summary`). -/
def summary : Code → String
  | unterminatedString => "unterminated string literal"
  | unknownToken => "unknown token"
  | unterminatedChar => "unterminated character literal"
  | invalidUtf8 => "invalid UTF-8 in source"
  | unexpectedToken => "unexpected token"
  | expectedExpression => "expected expression"
  | unclosedDelimiter => "unclosed delimiter"
  | expectedName => "expected identifier"
  | expectedPattern => "expected pattern"
  | missingElse => "missing mandatory `else` branch"
  | missingMethodSeparator => "missing `;` before methods"
  | expectedDeclaration => "expected declaration"

/-- Whether a code is that of a problem of a single token (`ErrorCode::is_lexer_error`). -/
def isLexical : Code → Bool
  | unterminatedString | unknownToken | unterminatedChar | invalidUtf8 => true
  | _ => false

end Code

end Surface
