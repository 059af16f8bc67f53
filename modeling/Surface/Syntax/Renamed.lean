import Surface.Syntax.File
import Surface.Token.Renamed

/-!
# Syntax under other names

Nodes and files with other names in the place of theirs. Marks and spans stay, and so does the form.

* `Expr.map`, `Pattern.map`, `Stmt.map`, `Decl.map`, `SourceFile.map`, `NodeLog.map`.
-/

namespace Surface

variable {ν μ : Type} (f : ν → μ)

/-! ## Parts of nodes -/

/-- A name in its place under another name. -/
def Ident.map (i : Ident ν) : Ident μ := { i with name := f i.name }

/-- A path under other names. -/
def Path.map (p : Path ν) : Path μ := ⟨p.head.map f, p.tail.map (Ident.map f)⟩

@[simp] theorem Path.span_map (p : Path ν) : (p.map f).span = p.span := by
  show (p.tail.map (Ident.map f)).foldl (fun s i => s.merge i.span) p.head.span = _
  rw [List.foldl_map]
  rfl

/-- A literal under other names. -/
def Literal.map : Literal ν → Literal μ
  | .string n => .string (f n)
  | .char c => .char c
  | .number n => .number (n.map f)

theorem TokenKind.literal?_map (k : TokenKind ν) :
    (k.map f).literal? = k.literal?.map (Literal.map f) := by
  cases k <;> rfl

/-- An operator under another name. -/
def Operator.map (op : Operator ν) : Operator μ := { op with symbols := f op.symbols }

/-! ## Patterns -/

mutual

/-- A pattern under other names. -/
def Pattern.map : Pattern ν → Pattern μ
  | .cons m p args => .cons m (p.map f) (Pattern.mapAll args)
  | .rest m => .rest m
  | .literal m l => .literal m (l.map f)

/-- Patterns under other names. -/
def Pattern.mapAll : List (Pattern ν) → List (Pattern μ)
  | [] => []
  | p :: ps => p.map :: Pattern.mapAll ps

end

@[simp] theorem Pattern.mapAll_eq (ps : List (Pattern ν)) :
    Pattern.mapAll f ps = ps.map (Pattern.map f) := by
  induction ps with
  | nil => rfl
  | cons p ps ih => rw [Pattern.mapAll, ih, List.map_cons]

@[simp] theorem Pattern.span_map (p : Pattern ν) : (p.map f).span = p.span := by cases p <;> rfl

/-! ## Expressions and statements -/

mutual

/-- An expression under other names. -/
def Expr.map : Expr ν → Expr μ
  | .literal m l => .literal m (l.map f)
  | .name m n => .name m (f n)
  | .path m p => .path m (p.map f)
  | .tuple m es trailing => .tuple m (Expr.mapAll es) trailing
  | .array m es => .array m (Expr.mapAll es)
  | .conditional m c t e => .conditional m c.map t.map e.map
  | .matchOn m s arms => .matchOn m s.map (Arm.mapAll arms)
  | .returned m v => .returned m (Expr.mapOption v)
  | .app m e es b => .app m e.map (Expr.mapAll es) (Block.mapOption b)
  | .typeApp m e es => .typeApp m e.map (Expr.mapAll es)
  | .lambda m ps b => .lambda m (Param.mapAll ps) b.map
  | .arrow m d c => .arrow m d.map c.map
  | .pi m ps c => .pi m (Param.mapAll ps) c.map
  | .sigma m ps c => .sigma m (Param.mapAll ps) c.map
  | .ascription m v t => .ascription m v.map t.map
  | .binary m l op r => .binary m l.map (op.map f) r.map

/-- Expressions under other names. -/
def Expr.mapAll : List (Expr ν) → List (Expr μ)
  | [] => []
  | e :: es => e.map :: Expr.mapAll es

/-- An expression that may be absent under other names. -/
def Expr.mapOption : Option (Expr ν) → Option (Expr μ)
  | none => none
  | some e => some e.map

/-- A statement under other names. -/
def Stmt.map : Stmt ν → Stmt μ
  | .letIn m p v => .letIn m (p.map f) v.map
  | .conditional m c t e => .conditional m c.map t.map (Body.mapOption e)
  | .ask m p v => .ask m (p.map f) v.map
  | .expr m v => .expr m v.map
  | .error m => .error m

/-- Statements under other names. -/
def Stmt.mapAll : List (Stmt ν) → List (Stmt μ)
  | [] => []
  | s :: ss => s.map :: Stmt.mapAll ss

/-- A block under other names. -/
def Block.map : Block ν → Block μ
  | ⟨stmts, span⟩ => ⟨Stmt.mapAll stmts, span⟩

/-- A block that may be absent under other names. -/
def Block.mapOption : Option (Block ν) → Option (Block μ)
  | none => none
  | some b => some b.map

/-- A body under other names. -/
def Body.map : Body ν → Body μ
  | .block b => .block b.map
  | .expr e => .expr e.map

/-- A body that may be absent under other names. -/
def Body.mapOption : Option (Body ν) → Option (Body μ)
  | none => none
  | some b => some b.map

/-- A match arm under other names. -/
def Arm.map : Arm ν → Arm μ
  | ⟨p, b, span⟩ => ⟨p.map f, b.map, span⟩

/-- Match arms under other names. -/
def Arm.mapAll : List (Arm ν) → List (Arm μ)
  | [] => []
  | a :: as => a.map :: Arm.mapAll as

/-- A parameter under other names. -/
def Param.map : Param ν → Param μ
  | ⟨p, type, span⟩ => ⟨p.map f, Expr.mapOption type, span⟩

/-- Parameters under other names. -/
def Param.mapAll : List (Param ν) → List (Param μ)
  | [] => []
  | p :: ps => p.map :: Param.mapAll ps

end

@[simp] theorem Expr.mapAll_eq (es : List (Expr ν)) : Expr.mapAll f es = es.map (Expr.map f) := by
  induction es with
  | nil => rfl
  | cons e es ih => rw [Expr.mapAll, ih, List.map_cons]

@[simp] theorem Stmt.mapAll_eq (ss : List (Stmt ν)) : Stmt.mapAll f ss = ss.map (Stmt.map f) := by
  induction ss with
  | nil => rfl
  | cons s ss ih => rw [Stmt.mapAll, ih, List.map_cons]

@[simp] theorem Arm.mapAll_eq (as : List (Arm ν)) : Arm.mapAll f as = as.map (Arm.map f) := by
  induction as with
  | nil => rfl
  | cons a as ih => rw [Arm.mapAll, ih, List.map_cons]

@[simp] theorem Param.mapAll_eq (ps : List (Param ν)) : Param.mapAll f ps = ps.map (Param.map f) := by
  induction ps with
  | nil => rfl
  | cons p ps ih => rw [Param.mapAll, ih, List.map_cons]

@[simp] theorem Expr.mapOption_eq (e : Option (Expr ν)) : Expr.mapOption f e = e.map (Expr.map f) := by
  cases e <;> rfl

@[simp] theorem Block.mapOption_eq (b : Option (Block ν)) :
    Block.mapOption f b = b.map (Block.map f) := by
  cases b <;> rfl

@[simp] theorem Body.mapOption_eq (b : Option (Body ν)) : Body.mapOption f b = b.map (Body.map f) := by
  cases b <;> rfl

@[simp] theorem Expr.span_map (e : Expr ν) : (e.map f).span = e.span := by cases e <;> rfl

/-! ## Declarations and files -/

/-- A documentation comment under another name for its content. -/
def DocString.map (d : DocString ν) : DocString μ := { d with content := f d.content }

/-- An attribute under other names. -/
def Attribute.map (a : Attribute ν) : Attribute μ :=
  ⟨a.path.map f, a.args.map (List.map (Expr.map f)), a.span⟩

/-- A list of parameters under other names. -/
def ParamList.map (l : ParamList ν) : ParamList μ := ⟨l.implicit, l.params.map (Param.map f), l.span⟩

/-- A parameter of a constructor under other names. -/
def CtorParam.map : CtorParam ν → CtorParam μ
  | .positional t => .positional (t.map f)
  | .named n t => .named (n.map f) (t.map f)

/-- What follows the name of a constructor under other names. -/
def CtorForm.map : CtorForm ν → CtorForm μ
  | .typed t => .typed (t.map f)
  | .applied ps => .applied (ps.map (List.map (CtorParam.map f)))

/-- A constructor under other names. -/
def Ctor.map (c : Ctor ν) : Ctor μ := ⟨c.name.map f, c.form.map f, c.span⟩

/-- A signature under other names. -/
def Signature.map (s : Signature ν) : Signature μ :=
  ⟨s.name.map f, s.params.map (ParamList.map f), s.type.map (Expr.map f), s.value.map (Block.map f),
    s.span⟩

/-- The body of a type declaration under other names. -/
def TypeBody.map (b : TypeBody ν) : TypeBody μ :=
  ⟨b.ctors.map (Ctor.map f), b.methods.map (Signature.map f), b.span⟩

/-- A type declaration under other names. -/
def TypeDecl.map (d : TypeDecl ν) : TypeDecl μ :=
  ⟨d.sort, d.visibility, d.name.map f, d.params.map (ParamList.map f), d.type.map (Expr.map f),
    d.body.map (TypeBody.map f)⟩

/-- A clause under other names. -/
def Clause.map (c : Clause ν) : Clause μ :=
  ⟨c.name.map f, c.patterns.map (Pattern.map f), c.value.map (Expr.map f), c.span⟩

/-- What a declaration is under other names. -/
def DeclForm.map : DeclForm ν → DeclForm μ
  | .uses p => .uses (p.map f)
  | .command n args => .command (n.map f) (args.map (Expr.map f))
  | .type d => .type (d.map f)
  | .signature s => .signature (s.map f)
  | .clause c => .clause (c.map f)
  | .error => .error

/-- A declaration under other names. -/
def Decl.map (d : Decl ν) : Decl μ :=
  ⟨d.form.map f, d.docs.map (DocString.map f), d.attributes.map (Attribute.map f), d.span⟩

/-- An item under other names. -/
def Item.map : Item ν → Item μ
  | .decl d => .decl (d.map f)
  | .stmt s => .stmt (s.map f)

/-- A file under other names. -/
def SourceFile.map (file : SourceFile ν) : SourceFile μ :=
  ⟨file.shebang, file.items.map (Item.map f), file.span⟩

/-- The nodes of a log under other names. -/
def NodeLog.map (log : NodeLog ν) : NodeLog μ :=
  ⟨log.exprs.map (Expr.map f), log.patterns.map (Pattern.map f), log.stmts.map (Stmt.map f)⟩

end Surface
