import Surface.Layout.Leaf
import Surface.Syntax.File

/-!
# Printing files

Every node is printed the way it is read back: arguments behind spaces, operators between them,
blocks, arms and members on lines of their own. What could not be read is left out. The only
parentheses that are added stand around patterns that are arguments and have arguments
themselves.

* `Expr.doc`, `Pattern.doc`, `Stmt.doc`, `Decl.doc`, `SourceFile.doc`.
* `SourceFile.format`: the text of a whole file.
-/

namespace Surface

open Doc (commas concat spaced)

/-! ## Patterns -/

/-- Whether a pattern has arguments. -/
def Pattern.hasArgs : Pattern → Bool
  | .cons _ _ args => !args.isEmpty
  | _ => false

/-- A document between parentheses, if `b` holds. -/
def parenthesizedIf (b : Bool) (d : Doc) : Doc := if b then .text "(" ++ d ++ .text ")" else d

mutual

/-- A pattern (`Printer::pattern`). -/
def Pattern.doc : Pattern → Doc
  | .cons _ p args => Layout.path p ++ spaced (Pattern.argDocs args)
  | .rest _ => .text ".."
  | .literal _ l => Layout.literal l

/-- Patterns as arguments (`Printer::atomic_pattern`). -/
def Pattern.argDocs : List Pattern → List Doc
  | [] => []
  | p :: ps => parenthesizedIf p.hasArgs p.doc :: Pattern.argDocs ps

end

/-! ## Expressions and statements -/

/-- Lines inside braces, each behind a newline; empty braces if there is nothing at all. -/
def braced (isEmpty : Bool) (lines : List Doc) : Doc :=
  if isEmpty then .text "\x7b\x7d"
  else .text "\x7b" ++ .nest (concat (lines.map fun d => .newline ++ d)) ++ .newline ++ .text "\x7d"

mutual

/-- An expression (`Printer::expr`). -/
def Expr.doc : Expr → Doc
  | .literal _ l => Layout.literal l
  | .name _ n => Layout.name n
  | .path _ p => Layout.path p
  | .tuple _ es trailing =>
    .text "(" ++ commas (Expr.docs es) ++ .text (if trailing then ",)" else ")")
  | .array _ es => .text "[" ++ commas (Expr.docs es) ++ .text "]"
  | .conditional _ c t e => .text "if " ++ c.doc ++ t.thenDoc ++ .text " else " ++ e.doc
  | .matchOn _ s arms =>
    .text "match " ++ s.doc ++ .space ++ braced arms.isEmpty (Arm.docs arms)
  | .returned _ v => .text "return" ++ spaced (Expr.optionalDocs v)
  | .app _ f es b => f.doc ++ spaced (Expr.docs es) ++ spaced (Block.optionalDocs b)
  | .typeApp _ f es => f.doc ++ spaced (Expr.docs es)
  | .lambda _ ps b => .text "|" ++ commas (Param.docs ps) ++ .text "| " ++ b.doc
  | .arrow _ d c => d.doc ++ .text " -> " ++ c.doc
  | .pi _ ps c => .text "(" ++ commas (Param.docs ps) ++ .text ") -> " ++ c.doc
  | .sigma _ ps c => .text "[" ++ commas (Param.docs ps) ++ .text "] -> " ++ c.doc
  | .ascription _ v t => v.doc ++ .text " : " ++ t.doc
  | .binary _ l op r => l.doc ++ .space ++ .text op.symbols ++ .space ++ r.doc

/-- Expressions one by one. -/
def Expr.docs : List Expr → List Doc
  | [] => []
  | e :: es => e.doc :: Expr.docs es

/-- An expression that may be absent. -/
def Expr.optionalDocs : Option Expr → List Doc
  | none => []
  | some e => [e.doc]

/-- A statement; what could not be read prints nothing (`Printer::stmt`). -/
def Stmt.doc : Stmt → Doc
  | .letIn _ p v => .text "let " ++ p.doc ++ .text " = " ++ v.doc
  | .conditional _ c t e => .text "if " ++ c.doc ++ t.thenDoc ++ Body.optionalElse e
  | .ask _ p v => p.doc ++ .text " <- " ++ v.doc
  | .expr _ v => v.doc
  | .error _ => .empty

/-- Statements one by one, without those that could not be read. -/
def Stmt.docs : List Stmt → List Doc
  | [] => []
  | s :: ss => if s.isError then Stmt.docs ss else s.doc :: Stmt.docs ss

/-- A block (`Printer::block`). -/
def Block.doc : Block → Doc
  | ⟨stmts, _⟩ => braced stmts.isEmpty (Stmt.docs stmts)

/-- A block that may be absent. -/
def Block.optionalDocs : Option Block → List Doc
  | none => []
  | some b => [b.doc]

/-- A body (`Printer::body`). -/
def Body.doc : Body → Doc
  | .block b => b.doc
  | .expr e => e.doc

/-- The first branch of a conditional, behind its condition (`Printer::if_head`). -/
def Body.thenDoc : Body → Doc
  | .block b => .space ++ b.doc
  | .expr e => .text " then " ++ e.doc

/-- The second branch of a conditional, if there is one (`Printer::else_branch`). -/
def Body.optionalElse : Option Body → Doc
  | none => .empty
  | some b => .text " else " ++ b.doc

/-- A match arm. -/
def Arm.doc : Arm → Doc
  | ⟨p, b, _⟩ => p.doc ++ .text " => " ++ b.doc ++ .text ","

/-- Match arms one by one. -/
def Arm.docs : List Arm → List Doc
  | [] => []
  | a :: as => a.doc :: Arm.docs as

/-- A type behind a colon, if there is one. -/
def Param.typeDoc : Option Expr → Doc
  | none => .empty
  | some t => .text ": " ++ t.doc

/-- A parameter (`Printer::param`). -/
def Param.doc : Param → Doc
  | ⟨p, type, _⟩ => p.doc ++ Param.typeDoc type

/-- Parameters one by one. -/
def Param.docs : List Param → List Doc
  | [] => []
  | p :: ps => p.doc :: Param.docs ps

end

/-! ## Declarations -/

/-- Documents on lines of their own. -/
def lines (ds : List Doc) : Doc := concat (ds.map fun d => d ++ .newline)

/-- A documentation comment. -/
def DocString.doc (d : DocString) : Doc := .text "//! " ++ .text d.content

/-- An attribute (`Printer::attribute`). -/
def Attribute.doc (a : Attribute) : Doc :=
  .text "@" ++ Layout.path a.path
    ++ a.args.elim .empty fun es => .text "(" ++ commas (Expr.docs es) ++ .text ")"

/-- A list of parameters (`Printer::arg_lists`). -/
def ParamList.doc (l : ParamList) : Doc :=
  .text (if l.implicit then "[" else "(") ++ commas (Param.docs l.params)
    ++ .text (if l.implicit then "]" else ")")

/-- A type behind a spaced colon, if there is one (`Printer::clause_type`). -/
def optionalTypeDoc (type : Option Expr) : Doc := type.elim .empty fun t => .text " : " ++ t.doc

/-- A signature (`Printer::signature`). -/
def Signature.doc (s : Signature) : Doc :=
  Layout.path s.name ++ spaced (s.params.map ParamList.doc) ++ optionalTypeDoc s.type
    ++ spaced (Block.optionalDocs s.value)

/-- A clause; its value starts on the line of the equals sign (`Printer::clause`). -/
def Clause.doc (c : Clause) : Doc :=
  Layout.path c.name ++ spaced (Pattern.argDocs c.patterns) ++ .text " ="
    ++ spaced (Expr.optionalDocs c.value)

/-- A parameter of a constructor. -/
def CtorParam.doc : CtorParam → Doc
  | positional t => t.doc
  | named n t => Layout.name n.name ++ .text ": " ++ t.doc

/-- What follows the name of a constructor. -/
def CtorForm.doc : CtorForm → Doc
  | typed t => .text " : " ++ t.doc
  | applied none => .empty
  | applied (some ps) => .text "(" ++ commas (ps.map CtorParam.doc) ++ .text ")"

/-- A constructor (`Printer::constructor`). -/
def Ctor.doc (c : Ctor) : Doc := Layout.path c.name ++ c.form.doc

/-- Constructors on lines of their own, each but the last with a comma behind it. -/
def ctorLines : List Ctor → Doc
  | [] => .empty
  | [c] => c.doc ++ .newline
  | c :: cs => c.doc ++ .text "," ++ .newline ++ ctorLines cs

/-- The body of a type declaration (`Printer::type_body`). A semicolon stands before the methods,
except in a trait. -/
def TypeBody.doc (sort : TypeSort) (b : TypeBody) : Doc :=
  if b.ctors.isEmpty && b.methods.isEmpty then .text "\x7b\x7d"
  else
    let separator : Doc :=
      if sort ≠ .trait ∧ !b.methods.isEmpty then .text ";" ++ .newline else .empty
    .text "\x7b"
      ++ .nest (.newline ++ ctorLines b.ctors ++ separator ++ lines (b.methods.map Signature.doc))
      ++ .text "\x7d"

/-- A type declaration (`Printer::type_decl`). -/
def TypeDecl.doc (d : TypeDecl) : Doc :=
  (d.visibility.elim .empty fun (v, _) => .text v.keyword.text ++ .space)
    ++ .text d.sort.keyword.text ++ .space ++ Layout.path d.name
    ++ spaced (d.params.map ParamList.doc) ++ optionalTypeDoc d.type
    ++ spaced ((d.body.map (TypeBody.doc d.sort)).toList)

/-- A declaration behind its documentation and attributes. -/
def DeclForm.doc : DeclForm → Doc
  | uses p => .text "use " ++ Layout.path p
  | command n args => .text "#" ++ Layout.path n ++ spaced (Expr.docs args)
  | type d => d.doc
  | signature s => s.doc
  | clause c => c.doc
  | error => .empty

/-- A declaration; documentation and attributes stand on lines of their own before it
(`Printer::decl`). -/
def Decl.doc (d : Decl) : Doc :=
  lines (d.docs.map DocString.doc) ++ lines (d.attributes.map Attribute.doc) ++ d.form.doc

/-- An item. -/
def Item.doc : Item → Doc
  | decl d => d.doc
  | stmt s => s.doc

/-- The first line of a file. -/
def Shebang.doc (s : Shebang) : Doc := .text (String.ofList (Text.trimEnd s.text.toList))

/-- A file: its items on lines of their own, without those that could not be read
(`Printer::source_file`). -/
def SourceFile.doc (f : SourceFile) : Doc :=
  lines (f.shebang.map Shebang.doc).toList
    ++ lines ((f.items.filter fun i => !i.isError).map Item.doc)

/-- The text of a file in the canonical layout (`format_source_file`). -/
def SourceFile.format (f : SourceFile) : String := f.doc.render

end Surface
