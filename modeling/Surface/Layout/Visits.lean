import Surface.Layout.Syntax
import Surface.Syntax.Node

/-!
# Printing by what identifies the nodes

A node refers to its children by number. Here a file is printed in this way: children are looked up
in the log of nodes, and what happens to each node is recorded.

* `Visit`: what happens to a node.
* `Printer`: how nodes are looked up and printed; `Printer.node` prints a node, whose children it is
  given by what identifies them.
* `NodeLog.printer`: the printer that finds all nodes in a log.
* `SourceFile.print`: the document of a file and what has happened to its nodes.
-/

namespace Surface

open Doc (commas concat spaced)

/-- What happens to a node while a file is printed. -/
inductive Visit
  /-- The node is printed. -/
  | printed (id : NodeId)
  /-- The node is a statement that could not be read, and is passed over. -/
  | passed (id : NodeId)
deriving DecidableEq, Repr

/-- Printing keeps what has happened so far; it fails where a node is out of bounds. -/
abbrev Printing := StateT (List Visit) Option

namespace Printing

/-- Records what happens to a node. -/
def record (v : Visit) : Printing Unit := modify fun met => met ++ [v]

/-- The node with an id. -/
def look (log : NodeLog) (id : NodeId) : Printing Node := fun met => (log.get? id).map (·, met)

end Printing

/-- Whether a node is a pattern with arguments. -/
def Node.hasArgs : Node → Bool
  | pattern p => p.hasArgs
  | _ => false

/-- How the node with an id is looked up, and how it is printed. -/
structure Printer where
  look : NodeId → Printing Node
  print : NodeId → Printing Doc

namespace Printer

variable (printer : Printer)

/-! ## Parts of nodes -/

/-- An expression (`Printer::expr_inner`). -/
def expr (e : Expr) : Printing Doc := printer.print (Node.expr e).id

/-- A pattern (`Printer::pattern_inner`). -/
def pattern (p : Pattern) : Printing Doc := printer.print (Node.pattern p).id

/-- Expressions one by one (`Printer::comma_separated`). -/
def exprs (es : List Expr) : Printing (List Doc) := es.mapM printer.expr

/-- A pattern as an argument, which is looked at to see whether it has arguments itself
(`Printer::atomic_pattern`). -/
def argument (p : Pattern) : Printing Doc := do
  let node ← printer.look (Node.pattern p).id
  return parenthesizedIf node.hasArgs (← printer.pattern p)

/-- Patterns as arguments. -/
def arguments (ps : List Pattern) : Printing (List Doc) := ps.mapM printer.argument

/-- A statement, unless it could not be read: then it is looked at and passed over
(`Printer::stmt_inner`). -/
def stmt? (s : Stmt) : Printing (Option Doc) := do
  let id := (Node.stmt s).id
  if (← printer.look id).isError then
    Printing.record (.passed id)
    return none
  else return some (← printer.print id)

/-- Statements between braces (`Printer::block`). -/
def block (b : Block) : Printing Doc := do
  let lines ← b.stmts.mapM printer.stmt?
  return braced b.stmts.isEmpty (lines.filterMap id)

/-- A block or an expression (`Printer::body`). -/
def body : Body → Printing Doc
  | .block b => printer.block b
  | .expr e => printer.expr e

/-- The first branch of a conditional, behind its condition (`Printer::if_head`). -/
def thenBody : Body → Printing Doc
  | .block b => return .space ++ (← printer.block b)
  | .expr e => return .text " then " ++ (← printer.expr e)

/-- The second branch of a conditional, if there is one (`Printer::else_branch`). -/
def elseBody : Option Body → Printing Doc
  | none => return .empty
  | some b => return .text " else " ++ (← printer.body b)

/-- A match arm. -/
def arm (a : Arm) : Printing Doc :=
  return (← printer.pattern a.pattern) ++ .text " => " ++ (← printer.body a.body) ++ .text ","

/-- A type behind `mark`, if there is one. -/
def typeBehind (mark : String) : Option Expr → Printing Doc
  | none => return .empty
  | some t => return .text mark ++ (← printer.expr t)

/-- A parameter (`Printer::param`). -/
def param (p : Param) : Printing Doc :=
  return (← printer.pattern p.pattern) ++ (← printer.typeBehind ": " p.type)

/-- Parameters one by one. -/
def params (ps : List Param) : Printing (List Doc) := ps.mapM printer.param

/-- An expression that may be absent. -/
def optional (e : Option Expr) : Printing (List Doc) := e.toList.mapM printer.expr

/-- A block that may be absent. -/
def optionalBlock (b : Option Block) : Printing (List Doc) := b.toList.mapM printer.block

/-! ## Nodes -/

/-- A node. -/
def node : Node → Printing Doc
  | .expr (.literal _ l) => return Layout.literal l
  | .expr (.name _ n) => return Layout.name n
  | .expr (.path _ p) => return Layout.path p
  | .expr (.tuple _ es trailing) =>
    return .text "(" ++ commas (← printer.exprs es) ++ .text (if trailing then ",)" else ")")
  | .expr (.array _ es) => return .text "[" ++ commas (← printer.exprs es) ++ .text "]"
  | .expr (.conditional _ c t e) =>
    return .text "if " ++ (← printer.expr c) ++ (← printer.thenBody t) ++ .text " else "
      ++ (← printer.body e)
  | .expr (.matchOn _ s arms) =>
    return .text "match " ++ (← printer.expr s) ++ .space
      ++ braced arms.isEmpty (← arms.mapM printer.arm)
  | .expr (.returned _ v) => return .text "return" ++ spaced (← printer.optional v)
  | .expr (.app _ f es b) =>
    return (← printer.expr f) ++ spaced (← printer.exprs es) ++ spaced (← printer.optionalBlock b)
  | .expr (.typeApp _ f es) => return (← printer.expr f) ++ spaced (← printer.exprs es)
  | .expr (.lambda _ ps b) =>
    return .text "|" ++ commas (← printer.params ps) ++ .text "| " ++ (← printer.expr b)
  | .expr (.arrow _ d c) => return (← printer.expr d) ++ .text " -> " ++ (← printer.expr c)
  | .expr (.pi _ ps c) =>
    return .text "(" ++ commas (← printer.params ps) ++ .text ") -> " ++ (← printer.expr c)
  | .expr (.sigma _ ps c) =>
    return .text "[" ++ commas (← printer.params ps) ++ .text "] -> " ++ (← printer.expr c)
  | .expr (.ascription _ v t) => return (← printer.expr v) ++ .text " : " ++ (← printer.expr t)
  | .expr (.binary _ l op r) =>
    return (← printer.expr l) ++ .space ++ .text op.symbols ++ .space ++ (← printer.expr r)
  | .pattern (.cons _ p args) => return Layout.path p ++ spaced (← printer.arguments args)
  | .pattern (.rest _) => return .text ".."
  | .pattern (.literal _ l) => return Layout.literal l
  | .stmt (.letIn _ p v) =>
    return .text "let " ++ (← printer.pattern p) ++ .text " = " ++ (← printer.expr v)
  | .stmt (.conditional _ c t e) =>
    return .text "if " ++ (← printer.expr c) ++ (← printer.thenBody t) ++ (← printer.elseBody e)
  | .stmt (.ask _ p v) => return (← printer.pattern p) ++ .text " <- " ++ (← printer.expr v)
  | .stmt (.expr _ v) => printer.expr v
  | .stmt (.error _) => return .empty

/-! ## Declarations -/

/-- The arguments of an attribute, if it has parentheses (in `Printer::attribute`). -/
def attrArgs : Option (List Expr) → Printing Doc
  | none => return .empty
  | some es => return .text "(" ++ commas (← printer.exprs es) ++ .text ")"

/-- An attribute (`Printer::attribute`). -/
def attr (a : Attribute) : Printing Doc :=
  return .text "@" ++ Layout.path a.path ++ (← printer.attrArgs a.args)

/-- A list of parameters (in `Printer::arg_lists`). -/
def paramList (l : ParamList) : Printing Doc :=
  return .text (if l.implicit then "[" else "(") ++ commas (← printer.params l.params)
    ++ .text (if l.implicit then "]" else ")")

/-- A signature (`Printer::signature`). -/
def signature (s : Signature) : Printing Doc :=
  return Layout.path s.name ++ spaced (← s.params.mapM printer.paramList)
    ++ (← printer.typeBehind " : " s.type) ++ spaced (← printer.optionalBlock s.value)

/-- A clause (`Printer::clause`). -/
def clause (c : Clause) : Printing Doc :=
  return Layout.path c.name ++ spaced (← printer.arguments c.patterns) ++ .text " ="
    ++ spaced (← printer.optional c.value)

/-- A parameter of a constructor. -/
def ctorParam : CtorParam → Printing Doc
  | .positional t => printer.expr t
  | .named n t => return Layout.name n.name ++ .text ": " ++ (← printer.expr t)

/-- What follows the name of a constructor (in `Printer::constructor`). -/
def ctorForm : CtorForm → Printing Doc
  | .typed t => return .text " : " ++ (← printer.expr t)
  | .applied none => return .empty
  | .applied (some ps) =>
    return .text "(" ++ commas (← ps.mapM printer.ctorParam) ++ .text ")"

/-- A constructor (`Printer::constructor`). -/
def ctor (c : Ctor) : Printing Doc := return Layout.path c.name ++ (← printer.ctorForm c.form)

/-- Constructors on lines of their own, each but the last with a comma behind it. -/
def ctorLines : List Ctor → Printing Doc
  | [] => return .empty
  | [c] => return (← printer.ctor c) ++ .newline
  | c :: cs => return (← printer.ctor c) ++ .text "," ++ .newline ++ (← ctorLines cs)

/-- The body of a type declaration (`Printer::type_body`). -/
def typeBody (sort : TypeSort) (b : TypeBody) : Printing Doc := do
  if b.ctors.isEmpty && b.methods.isEmpty then return .text "\x7b\x7d"
  else
    let separator : Doc :=
      if sort ≠ .trait ∧ !b.methods.isEmpty then .text ";" ++ .newline else .empty
    return .text "\x7b"
      ++ .nest (.newline ++ (← printer.ctorLines b.ctors) ++ separator
        ++ lines (← b.methods.mapM printer.signature))
      ++ .text "\x7d"

/-- A type declaration (`Printer::type_decl`). -/
def typeDecl (d : TypeDecl) : Printing Doc :=
  return (d.visibility.elim .empty fun (v, _) => .text v.keyword.text ++ .space)
    ++ .text d.sort.keyword.text ++ .space ++ Layout.path d.name
    ++ spaced (← d.params.mapM printer.paramList) ++ (← printer.typeBehind " : " d.type)
    ++ spaced (← d.body.toList.mapM (printer.typeBody d.sort))

/-- A declaration behind its documentation and attributes. -/
def declForm : DeclForm → Printing Doc
  | .uses p => return .text "use " ++ Layout.path p
  | .command n args => return .text "#" ++ Layout.path n ++ spaced (← printer.exprs args)
  | .type d => printer.typeDecl d
  | .signature s => printer.signature s
  | .clause c => printer.clause c
  | .error => return .empty

/-- A declaration (`Printer::decl`). -/
def decl (d : Decl) : Printing Doc :=
  return lines (d.docs.map DocString.doc) ++ lines (← d.attributes.mapM printer.attr)
    ++ (← printer.declForm d.form)

/-! ## Files -/

/-- An item, unless it could not be read. -/
def item? : Item → Printing (Option Doc)
  | .decl d => if d.isError then return none else return some (← printer.decl d)
  | .stmt s => printer.stmt? s

/-- A file (`Printer::source_file`). -/
def file (f : SourceFile) : Printing Doc := do
  let items ← f.items.mapM printer.item?
  return lines (f.shebang.map Shebang.doc).toList ++ lines (items.filterMap id)

end Printer

/-- Prints the nodes of a log as far as they lie at most `depth` deep inside each other. -/
def NodeLog.printer (log : NodeLog) : Nat → Printer
  | 0 => ⟨Printing.look log, fun _ => failure⟩
  | depth + 1 =>
    { look := Printing.look log
      print := fun id => do
        let node ← Printing.look log id
        Printing.record (.printed id)
        (log.printer depth).node node }

/-- Prints a file whose nodes are those of a log. Yields the document and what happens to the nodes
on the way. -/
def SourceFile.print (f : SourceFile) (log : NodeLog) : Option (Doc × List Visit) :=
  (log.printer log.all.length).file f []

end Surface
