import Surface.Proofs.Canonical.Words
import Surface.Proofs.Parsing.Binders

/-!
# Details on which the canonical layout depends

A tree is read from its canonical layout as it is, but for a few places. The printer puts no blank before a
dot and next to a bar, which then may become part of the word beside them; it leaves out a comma that ends
parameters and the line break before a colon; and it prints a block of statements that could not be read
over two lines. The details of a tree are the parts of it where such a thing may happen.

Results:
* `Expr.details`, ..., `SourceFile.details`: the details of a tree.
* `Detail.Apart`: no word of the detail runs into another one.
* `Detail.Kept`: the detail is read from its words as what it is.
* `Detail.Shown`: the detail is printed as if only what could be read stood in it.
-/

namespace Surface

/-- A part of a tree. -/
inductive Detail
  /-- The names of a path, or one name. -/
  | path (names : List String)
  /-- The parameters of a function. -/
  | function (params : List Param)
  /-- What stands before the arrow of a function type without parameters. -/
  | domain (type : Expr)
  /-- The statements of a block. -/
  | block (stmts : List Stmt)
  /-- The type of a parameter without a name that a constructor has. -/
  | parameter (type : Expr)

/-- The names of a path. -/
def Path.names (p : Path) : List String := p.segments.map Ident.name

/-! ## The details of a tree -/

mutual

/-- The details of a pattern. -/
def Pattern.details : Pattern → List Detail
  | .cons _ p args => .path p.names :: Pattern.allDetails args
  | .rest _ | .literal _ _ => []

def Pattern.allDetails : List Pattern → List Detail
  | [] => []
  | p :: ps => p.details ++ Pattern.allDetails ps

end

mutual

/-- The details of an expression. -/
def Expr.details : Expr → List Detail
  | .literal _ _ => []
  | .name _ n => [.path [n]]
  | .path _ p => [.path p.names]
  | .tuple _ es _ | .array _ es => Expr.allDetails es
  | .conditional _ c t e => c.details ++ (t.details ++ e.details)
  | .matchOn _ s arms => s.details ++ Arm.allDetails arms
  | .returned _ v => Expr.optionalDetails v
  | .app _ f es b => f.details ++ (Expr.allDetails es ++ Block.optionalDetails b)
  | .typeApp _ f es => f.details ++ Expr.allDetails es
  | .lambda _ ps b => .function ps :: (Param.allDetails ps ++ b.details)
  | .arrow _ d c => .domain d :: (d.details ++ c.details)
  | .pi _ ps c | .sigma _ ps c => Param.allDetails ps ++ c.details
  | .ascription _ v t => v.details ++ t.details
  | .binary _ l _ r => l.details ++ r.details

def Expr.allDetails : List Expr → List Detail
  | [] => []
  | e :: es => e.details ++ Expr.allDetails es

def Expr.optionalDetails : Option Expr → List Detail
  | none => []
  | some e => e.details

/-- The details of a statement. -/
def Stmt.details : Stmt → List Detail
  | .letIn _ p v | .ask _ p v => p.details ++ v.details
  | .conditional _ c t e => c.details ++ (t.details ++ Body.optionalDetails e)
  | .expr _ v => v.details
  | .error _ => []

def Stmt.allDetails : List Stmt → List Detail
  | [] => []
  | s :: ss => s.details ++ Stmt.allDetails ss

/-- The details of a block. -/
def Block.details : Block → List Detail
  | ⟨ss, _⟩ => .block ss :: Stmt.allDetails ss

def Block.optionalDetails : Option Block → List Detail
  | none => []
  | some b => b.details

/-- The details of a body. -/
def Body.details : Body → List Detail
  | .block b => b.details
  | .expr e => e.details

def Body.optionalDetails : Option Body → List Detail
  | none => []
  | some b => b.details

/-- The details of a match arm. -/
def Arm.details : Arm → List Detail
  | ⟨p, b, _⟩ => p.details ++ b.details

def Arm.allDetails : List Arm → List Detail
  | [] => []
  | a :: as => a.details ++ Arm.allDetails as

/-- The details of a parameter. -/
def Param.details : Param → List Detail
  | ⟨p, t, _⟩ => p.details ++ Expr.optionalDetails t

def Param.allDetails : List Param → List Detail
  | [] => []
  | p :: ps => p.details ++ Param.allDetails ps

end

/-- The details of an attribute. -/
def Attribute.details (a : Attribute) : List Detail :=
  .path a.path.names :: a.args.elim [] Expr.allDetails

/-- The details of a list of parameters. -/
def ParamList.details (l : ParamList) : List Detail := Param.allDetails l.params

/-- The details of a signature. -/
def Signature.details (s : Signature) : List Detail :=
  .path s.name.names :: (s.params.flatMap ParamList.details
    ++ (Expr.optionalDetails s.type ++ Block.optionalDetails s.value))

/-- The details of a clause. -/
def Clause.details (c : Clause) : List Detail :=
  .path c.name.names :: (Pattern.allDetails c.patterns ++ Expr.optionalDetails c.value)

/-- The details of a parameter of a constructor. -/
def CtorParam.details : CtorParam → List Detail
  | positional t => .parameter t :: t.details
  | named x t => .path [x.name] :: t.details

/-- The details of what follows the name of a constructor. -/
def CtorForm.details : CtorForm → List Detail
  | typed t => t.details
  | applied ps => ps.elim [] fun ps => ps.flatMap CtorParam.details

/-- The details of a constructor. -/
def Ctor.details (c : Ctor) : List Detail := .path c.name.names :: c.form.details

/-- The details of the body of a type declaration. -/
def TypeBody.details (b : TypeBody) : List Detail :=
  b.ctors.flatMap Ctor.details ++ b.methods.flatMap Signature.details

/-- The details of a type declaration. -/
def TypeDecl.details (d : TypeDecl) : List Detail :=
  .path d.name.names :: (d.params.flatMap ParamList.details
    ++ (Expr.optionalDetails d.type ++ d.body.elim [] TypeBody.details))

/-- The details of a declaration behind its attributes. -/
def DeclForm.details : DeclForm → List Detail
  | uses p => [.path p.names]
  | command n args => .path n.names :: Expr.allDetails args
  | type d => d.details
  | signature s => s.details
  | clause c => c.details
  | error => []

/-- The details of an item. -/
def Item.details : Item → List Detail
  | decl d => d.attributes.flatMap Attribute.details ++ d.form.details
  | stmt s => s.details

/-- The details of a file. -/
def SourceFile.details (f : SourceFile) : List Detail := f.items.flatMap Item.details

/-! ## Words beside dots and bars -/

/-- Whether a bar behind words would become part of the last of them, which is a name made of symbols or
two dots. -/
def Word.runsOn (ws : List Word) : Bool :=
  ws.getLast?.any fun w => w.1.tag == .symbolIdent || w.1.tag == .reserved .dotDot

/-- No word of a detail becomes part of another one where it is printed: a single quote is no name, only
the last name of a path is made of symbols, and no bar of a function stands next to such a name or to two
dots. -/
def Detail.Apart : Detail → Prop
  | path ns => "'" ∉ ns ∧ ∀ n ∈ ns.dropLast, (nameKind n).tag ≠ .symbolIdent
  | function ps => (Word.commas (Param.wordLists ps)).head? ≠ some (.reserved .dotDot)
    ∧ Word.runsOn (Word.commas (Param.wordLists ps)) = false
  | _ => True

instance : DecidablePred Detail.Apart
  | .path ns => inferInstanceAs (Decidable ("'" ∉ ns ∧ ∀ n ∈ ns.dropLast, _))
  | .function _ => inferInstanceAs (Decidable (_ ≠ some _ ∧ _ = false))
  | .domain _ | .block _ | .parameter _ => .isTrue trivial

/-! ## Commas, brackets and line breaks that are left out -/

/-- A name with a type, as an expression. -/
def Expr.isTypedName : Expr → Bool
  | .ascription _ (.name _ _) _ => true
  | _ => false

mutual

/-- Whether an expression ends with a function or with a `return` without a value. -/
def Expr.endsOpen : Expr → Bool
  | .lambda _ _ _ => true
  | .returned _ v => Expr.optionalEndsOpen v
  | .conditional _ _ _ e => e.endsOpen
  | .app _ _ es none | .typeApp _ _ es => Expr.lastEndsOpen es
  | .arrow _ _ c | .pi _ _ c | .sigma _ _ c => c.endsOpen
  | .ascription _ _ t => t.endsOpen
  | .binary _ _ _ r => r.endsOpen
  | _ => false

/-- Whether what is returned ends with a function, or nothing is. -/
def Expr.optionalEndsOpen : Option Expr → Bool
  | none => true
  | some e => e.endsOpen

/-- Whether the last of some expressions ends with a function or such a `return`. -/
def Expr.lastEndsOpen : List Expr → Bool
  | [] => false
  | [e] => e.endsOpen
  | _ :: es => Expr.lastEndsOpen es

/-- Whether a body ends with a function or such a `return`. -/
def Body.endsOpen : Body → Bool
  | .block _ => false
  | .expr e => e.endsOpen

end

/-- Whether the type of a parameter ends with a function or such a `return`. -/
def Param.endsOpen (p : Param) : Bool := p.type.any Expr.endsOpen

/-- The bar behind the parameters of a function would not become part of the type of the last one. -/
def Detail.Closed : Detail → Prop
  | function ps => ps.getLast?.any Param.endsOpen = false
  | _ => True

instance : DecidablePred Detail.Closed
  | .function _ => inferInstanceAs (Decidable (_ = false))
  | .path _ | .domain _ | .block _ | .parameter _ => .isTrue trivial

/-- A detail is read from its words as what it is: the bar behind parameters ends them, a group before an
arrow would be taken for parameters, and a name with a type for a parameter with a name. -/
def Detail.Kept : Detail → Prop
  | domain d => d.isGroup = false
  | parameter t => t.isTypedName = false
  | d => d.Closed

instance : DecidablePred Detail.Kept
  | .domain _ | .parameter _ => inferInstanceAs (Decidable (_ = false))
  | .function _ => inferInstanceAs (Decidable (_ = false))
  | .path _ | .block _ => .isTrue trivial

/-! ## Statements that are left out -/

/-- A statement of a block could be read, or nothing stands in the block. -/
def Detail.Shown : Detail → Prop
  | block ss => (ss.filter fun s => !s.isError).isEmpty = ss.isEmpty
  | _ => True

instance : DecidablePred Detail.Shown
  | .block _ => inferInstanceAs (Decidable (_ = _))
  | .path _ | .function _ | .domain _ | .parameter _ => .isTrue trivial

end Surface
