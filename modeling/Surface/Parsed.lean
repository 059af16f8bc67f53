import Surface.Grammar.File
import Surface.Text.Utf8
import Surface.Tree.View

/-!
# Parsing

From a text to its tree. Parsing always yields a file; errors are recorded beside it.

* `parse`: what has been lexed, read in a dialect.
* `parseText`: a text, with a new name table.
* `parseBytes`: bytes, as far as they are a text.
-/

namespace Surface

/-- Everything that comes of a text (`ParseOutput`). -/
structure Parsed (ν : Type := String) where
  file : SourceFile ν
  nodes : NodeLog ν
  names : NameTable
  comments : Comments ν
  errors : List SyntaxError

namespace Parsed

variable {ν : Type}

/-- Whether something is wrong with the text. -/
def hasErrors (p : Parsed ν) : Bool := !p.errors.isEmpty

/-- The explanations of all errors. -/
def diagnostics (p : Parsed ν) : List Diagnostic := p.errors.map SyntaxError.diagnostic

/-- The file as a tree (`ParseOutput::syntax_tree`). -/
def tree (p : Parsed) : Tree := p.file.tree

end Parsed

/-- Reads what has been lexed. -/
def parse {ν : Type} [Naming ν] (lexed : Lexed ν) (dialect : Dialect) : Parsed ν :=
  let input : Grammar.Input ν :=
    ⟨lexed.tokens, .ofTokens lexed.tokens, lexed.comments, dialect⟩
  let parsed (file : SourceFile ν) (s : Grammar.State ν) : Parsed ν :=
    ⟨file, s.nodes, s.names, lexed.comments, s.errors.toList⟩
  match Grammar.file lexed.shebang input (.start lexed.names) with
  | .ok file s => parsed file s
  | .error e s => parsed ⟨none, [], .point 0⟩ { s with errors := s.errors.push e }

/-- Reads a text given as characters. -/
def parseChars (cs : List Char) (dialect : Dialect) : Parsed :=
  parse (lexChars cs .empty) dialect

/-- Reads a text (`parse_source`). -/
def parseText (source : String) (dialect : Dialect) : Parsed :=
  parseChars source.toList dialect

/-- Why bytes cannot be read at all. -/
inductive FatalError
  /-- The first byte starts no character. -/
  | invalidEncoding
deriving DecidableEq, Repr

/-- The wording of a fatal error. -/
def FatalError.message : FatalError → String
  | .invalidEncoding => "source is not valid UTF-8 from its first byte"

/-- Reads bytes. Where they stop being a text, the rest is left out and an error marks the place;
bytes that are no text from the first one on are not read. -/
def parseBytes (bytes : ByteArray) (dialect : Dialect) : Except FatalError Parsed :=
  let cs := Text.decode bytes
  let stop := Text.byteLength cs
  if stop = bytes.size then .ok (parseChars cs dialect)
  else if stop = 0 then .error .invalidEncoding
  else
    let p := parseChars cs dialect
    .ok { p with errors := p.errors ++ [⟨.invalidUtf8, .point stop, none⟩] }

end Surface
