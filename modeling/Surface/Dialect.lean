/-!
# Dialects

All dialects share the grammar of expressions, patterns and statements. A dialect says what the
top of a file may hold and what is collected beside the tree.
-/

namespace Surface

/-- What a file may contain (`DialectConfig`). -/
structure Dialect where
  /-- Declarations are items. -/
  declarations : Bool
  /-- Statements are items. -/
  statements : Bool
  /-- Documentation comments are attached to the declarations behind them. -/
  docs : Bool
  /-- The file may start with a line that starts with `#!`. -/
  shebang : Bool
deriving DecidableEq, Repr

namespace Dialect

/-- Files of declarations (`DialectConfig::declarations`). -/
def declarationFiles : Dialect := ⟨true, false, true, true⟩

/-- Scripts, which are made of statements (`DialectConfig::expressions`). -/
def scripts : Dialect := ⟨false, true, false, true⟩

/-- Files of declarations and statements. -/
def mixedFiles : Dialect := ⟨true, true, true, true⟩

end Dialect

end Surface
