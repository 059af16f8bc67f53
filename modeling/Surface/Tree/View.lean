import Surface.Syntax.File
import Surface.Tree.Basic

/-!
# Trees of files

Every form of the language as a tree. The children of a node are stored in the order of the
text, and the kind of a node and its fields depend on its form only.

* `SourceFile.tree`, `Decl.tree`, `Stmt.tree`, `Pattern.tree`, `Expr.tree`.
-/

namespace Surface

/-- Children under a field. -/
abbrev Children := List (String × Tree)

/-- Trees as children under one field. -/
def allUnder (field : String) (ts : List Tree) : Children := ts.map fun t => (field, t)

/-! ## Leaves -/

/-- A name as a token (`TreeBuilder::ident_token`). -/
def Ident.tree (i : Ident) : Tree := .token i.name i.span

/-- A path as a node of its names (`TreeBuilder::path`). -/
def Path.tree (p : Path) : Tree :=
  .node "Path" p.span (allUnder "segment" (p.segments.map Ident.tree))

/-- A literal as text: strings and characters are quoted, numbers are as written
(`TreeBuilder::literal_text`). -/
def Literal.text : Literal → String
  | .string s => Text.quoted s
  | .char c => Text.quotedChar c
  | .number n => n.text

/-- The parts of a number that is not a plain decimal one: the mark of its base, its digits and
its suffix. -/
def Number.parts (n : Number) (span : Span) : Children :=
  if n.base = .decimal ∧ n.suffix = none then []
  else
    (if n.base = .decimal then [] else [("base", .token n.base.mark span)])
      ++ [("digits", .token n.digits span)]
      ++ n.suffix.elim [] fun s => [("suffix", .token s.text span)]

/-- A literal as children: its text under `field`, and the parts of a number
(`TreeBuilder::literal_fields`). -/
def Literal.children (field : String) (l : Literal) (span : Span) : Children :=
  (field, .token l.text span) ::
    match l with
    | .number n => n.parts span
    | _ => []

/-! ## Patterns -/

mutual

/-- A pattern as a tree (`TreeBuilder::pattern`). -/
def Pattern.tree : Pattern → Tree
  | .cons m path args =>
    .node "ConsPattern" m.span (("constructor", path.tree) :: Pattern.argChildren args)
  | .rest m => .node "RestPattern" m.span []
  | .literal m l => .node "LiteralPattern" m.span (l.children "literal" m.span)

/-- The arguments of a pattern as children. -/
def Pattern.argChildren : List Pattern → Children
  | [] => []
  | p :: ps => ("pattern", p.tree) :: Pattern.argChildren ps

end

/-- Patterns as children (`TreeBuilder::pattern_inner`). -/
def Pattern.children (ps : List Pattern) : Children := Pattern.argChildren ps

/-! ## Expressions and statements -/

/-- The token for a comma before the closing parenthesis of a tuple. -/
def trailingComma (span : Span) : Tree := .token "," (.point (span.stop - 1))

mutual

/-- An expression as a tree (`TreeBuilder::expr`). -/
def Expr.tree : Expr → Tree
  | .literal m l => .node "Literal" m.span (l.children "value" m.span)
  | .name m n => .node "Identifier" m.span [("name", .token n m.span)]
  | .path m p => .node "Path" m.span [("path", p.tree)]
  | .tuple m es trailing =>
    .node "Tuple" m.span (Expr.children "element" es
      ++ if trailing then [("trailing_comma", trailingComma m.span)] else [])
  | .array m es => .node "Array" m.span (Expr.children "element" es)
  | .conditional m c t e =>
    .node "IfExpr" m.span [("condition", c.tree), ("then", t.tree), ("else", e.tree)]
  | .matchOn m s arms => .node "Match" m.span (("scrutinee", s.tree) :: Arm.children arms)
  | .returned m v => .node "Return" m.span (Expr.optional "value" v)
  | .app m f es b =>
    .node "App" m.span
      (("callee", f.tree) :: (Expr.children "argument" es ++ Block.optional "block" b))
  | .typeApp m f es =>
    .node "TypeApp" m.span (("callee", f.tree) :: Expr.children "argument" es)
  | .lambda m ps b => .node "Lambda" m.span (Param.children ps ++ [("body", b.tree)])
  | .arrow m d c => .node "Pi" m.span [("domain", d.tree), ("codomain", c.tree)]
  | .pi m ps c => .node "Pi" m.span (Param.children ps ++ [("codomain", c.tree)])
  | .sigma m ps c => .node "Sigma" m.span (Param.children ps ++ [("codomain", c.tree)])
  | .ascription m v t => .node "Ann" m.span [("value", v.tree), ("type", t.tree)]
  | .binary m l op r =>
    .node "Binary" m.span
      [("lhs", l.tree), ("operator", .token op.symbols op.span), ("rhs", r.tree)]

/-- Expressions as children under one field (`TreeBuilder::expr_inner`). -/
def Expr.children (field : String) : List Expr → Children
  | [] => []
  | e :: es => (field, e.tree) :: Expr.children field es

/-- An expression that may be absent as children. -/
def Expr.optional (field : String) : Option Expr → Children
  | none => []
  | some e => [(field, e.tree)]

/-- A statement as a tree (`TreeBuilder::stmt`). -/
def Stmt.tree : Stmt → Tree
  | .letIn m p v => .node "Let" m.span [("pattern", p.tree), ("value", v.tree)]
  | .conditional m c t e =>
    .node "IfStmt" m.span (("condition", c.tree) :: ("then", t.tree) :: Body.optional "else" e)
  | .ask m p v => .node "Ask" m.span [("pattern", p.tree), ("value", v.tree)]
  | .expr m v => .node "ExprStmt" m.span [("expression", v.tree)]
  | .error m => .node "ErrorStmt" m.span []

/-- Statements as children (`TreeBuilder::stmt_inner`). -/
def Stmt.children : List Stmt → Children
  | [] => []
  | s :: ss => ("statement", s.tree) :: Stmt.children ss

/-- A block as a tree (`TreeBuilder::block`). -/
def Block.tree : Block → Tree
  | ⟨stmts, span⟩ => .node "Block" span (Stmt.children stmts)

/-- A block that may be absent as children. -/
def Block.optional (field : String) : Option Block → Children
  | none => []
  | some b => [(field, b.tree)]

/-- A body as a tree: that of its block or expression (`TreeBuilder::body`). -/
def Body.tree : Body → Tree
  | .block b => b.tree
  | .expr e => e.tree

/-- A body that may be absent as children. -/
def Body.optional (field : String) : Option Body → Children
  | none => []
  | some b => [(field, b.tree)]

/-- A match arm as a tree. -/
def Arm.tree : Arm → Tree
  | ⟨p, b, span⟩ => .node "Arm" span [("pattern", p.tree), ("body", b.tree)]

/-- Match arms as children. -/
def Arm.children : List Arm → Children
  | [] => []
  | a :: as => ("arm", a.tree) :: Arm.children as

/-- A parameter as a tree (`TreeBuilder::param`). -/
def Param.tree : Param → Tree
  | ⟨p, type, span⟩ => .node "Parameter" span (("pattern", p.tree) :: Expr.optional "type" type)

/-- Parameters as children. -/
def Param.children : List Param → Children
  | [] => []
  | p :: ps => ("parameter", p.tree) :: Param.children ps

end

/-! ## Declarations -/

/-- A documentation comment as a token. -/
def DocString.tree (d : DocString) : Tree := .token d.content d.span

/-- An attribute as a tree (`TreeBuilder::attribute`). -/
def Attribute.tree (a : Attribute) : Tree :=
  .node "Attribute" a.span (("path", a.path.tree) :: Expr.children "argument" (a.args.getD []))

/-- A list of parameters as a tree (`TreeBuilder::arg_list`). -/
def ParamList.tree (l : ParamList) : Tree :=
  .node (if l.implicit then "ImplicitArguments" else "ExplicitArguments") l.span
    (Param.children l.params)

/-- A parameter of a constructor as a tree. -/
def CtorParam.tree : CtorParam → Tree
  | .positional t => t.tree
  | .named n t => .node "NamedParameter" (n.span.merge t.span) [("name", n.tree), ("type", t.tree)]

/-- A constructor as a tree (`TreeBuilder::constructor`). -/
def Ctor.tree (c : Ctor) : Tree :=
  match c.form with
  | .typed t => .node "TypedConstructor" c.span [("name", c.name.tree), ("type", t.tree)]
  | .applied ps =>
    .node "FunctionConstructor" c.span
      (("name", c.name.tree) :: allUnder "parameter" ((ps.getD []).map CtorParam.tree))

/-- The parts of a signature (`TreeBuilder::signature_fields`). -/
def Signature.children (s : Signature) : Children :=
  ("name", s.name.tree) :: (allUnder "arguments" (s.params.map ParamList.tree)
    ++ Expr.optional "type" s.type ++ Block.optional "value" s.value)

/-- A signature as a tree. -/
def Signature.tree (s : Signature) : Tree := .node "Signature" s.span s.children

/-- The body of a type declaration as a tree (`TreeBuilder::type_body`). -/
def TypeBody.tree (b : TypeBody) : Tree :=
  .node "Body" b.span
    (allUnder "constructor" (b.ctors.map Ctor.tree)
      ++ allUnder "method" (b.methods.map Signature.tree))

/-- The parts of a type declaration. -/
def TypeDecl.children (d : TypeDecl) : Children :=
  (d.visibility.elim [] fun (v, span) => [("visibility", .token v.keyword.text span)])
    ++ ("name", d.name.tree) :: (allUnder "arguments" (d.params.map ParamList.tree)
    ++ Expr.optional "type" d.type ++ d.body.elim [] fun b => [("body", b.tree)])

/-- The parts of a clause (`TreeBuilder::clause_fields`). -/
def Clause.children (c : Clause) : Children :=
  ("name", c.name.tree) :: (Pattern.children c.patterns ++ Expr.optional "value" c.value)

/-- The kind of a type declaration (`TypeDeclKind::kind_name`). -/
def TypeSort.kind : TypeSort → String
  | cls => "ClassDecl"
  | trait => "TraitDecl"
  | data => "DataDecl"

/-- The kind of a declaration (`DeclKind::kind_name`). -/
def DeclForm.kind : DeclForm → String
  | uses _ => "Using"
  | command _ _ => "Command"
  | type d => d.sort.kind
  | signature _ => "Signature"
  | clause _ => "Clause"
  | error => "ErrorDecl"

/-- The parts of a declaration behind its documentation and attributes. -/
def DeclForm.children : DeclForm → Children
  | uses p => [("path", p.tree)]
  | command n args => ("name", n.tree) :: Expr.children "argument" args
  | type d => d.children
  | signature s => s.children
  | clause c => c.children
  | error => []

/-- A declaration as a tree (`TreeBuilder::decl`). -/
def Decl.tree (d : Decl) : Tree :=
  .node d.form.kind d.span
    (allUnder "doc" (d.docs.map DocString.tree)
      ++ allUnder "attribute" (d.attributes.map Attribute.tree) ++ d.form.children)

/-- An item as a child. -/
def Item.child : Item → String × Tree
  | decl d => ("declaration", d.tree)
  | stmt s => ("statement", s.tree)

/-- A whole file as a tree (`TreeBuilder::source_file`). The first line is a token spelled `#!` that
covers all of it. -/
def SourceFile.tree (f : SourceFile) : Tree :=
  .node "SourceFile" f.span
    ((f.shebang.elim [] fun s => [("shebang", .token "#!" s.span)]) ++ f.items.map Item.child)

end Surface
