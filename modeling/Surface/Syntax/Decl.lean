import Surface.Syntax.Expr

/-!
# Declarations and files
-/

namespace Surface

/-- A documentation comment of a declaration. -/
structure DocString (ν : Type := String) where
  content : ν
  span : Span
deriving DecidableEq, Repr

/-- An attribute of a declaration. -/
structure Attribute (ν : Type := String) where
  path : Path ν
  /-- The arguments, if the attribute has parentheses. -/
  args : Option (List (Expr ν))
  span : Span

/-- Who may use a type. -/
inductive Visibility
  | pub | closed | priv | intern
deriving DecidableEq, Repr

/-- The keyword of a visibility (`Visibility::as_str`). -/
def Visibility.keyword : Visibility → Keyword
  | pub => .publicKw
  | closed => .sealedKw
  | priv => .privateKw
  | intern => .internalKw

/-- The three sorts of type declaration (`TypeDeclKind`). -/
inductive TypeSort
  | cls | trait | data
deriving DecidableEq, Repr

/-- The keyword of a sort of type declaration. -/
def TypeSort.keyword : TypeSort → Keyword
  | cls => .classKw
  | trait => .traitKw
  | data => .dataKw

/-- Parameters behind a declared name, between parentheses or, if implicit, brackets (`ArgList`). -/
structure ParamList (ν : Type := String) where
  implicit : Bool
  params : List (Param ν)
  span : Span

/-- A parameter of a constructor (`ConstructorParam`). -/
inductive CtorParam (ν : Type := String)
  | positional (type : Expr ν)
  | named (name : Ident ν) (type : Expr ν)

/-- What follows the name of a constructor (`ConstructorKind`). -/
inductive CtorForm (ν : Type := String)
  /-- A type. -/
  | typed (type : Expr ν)
  /-- Parameters, if the constructor has parentheses. -/
  | applied (params : Option (List (CtorParam ν)))

/-- A constructor of a type (`Constructor`). -/
structure Ctor (ν : Type := String) where
  name : Path ν
  form : CtorForm ν
  span : Span

/-- A declared name with parameters, a type and a definition, all of which may be absent. -/
structure Signature (ν : Type := String) where
  name : Path ν
  params : List (ParamList ν)
  type : Option (Expr ν)
  value : Option (Block ν)
  span : Span

/-- The body of a type declaration. -/
structure TypeBody (ν : Type := String) where
  ctors : List (Ctor ν)
  methods : List (Signature ν)
  span : Span

/-- A type declaration. -/
structure TypeDecl (ν : Type := String) where
  sort : TypeSort
  visibility : Option (Visibility × Span)
  name : Path ν
  params : List (ParamList ν)
  type : Option (Expr ν)
  body : Option (TypeBody ν)

/-- A defining equation: a name applied to patterns, and a value. -/
structure Clause (ν : Type := String) where
  name : Path ν
  patterns : List (Pattern ν)
  value : Option (Expr ν)
  span : Span

/-- The forms of declaration (`DeclKind`). -/
inductive DeclForm (ν : Type := String)
  | uses (path : Path ν)
  | command (name : Path ν) (args : List (Expr ν))
  | type (decl : TypeDecl ν)
  | signature (signature : Signature ν)
  | clause (clause : Clause ν)
  /-- A declaration that could not be read. -/
  | error

/-- A declaration with its documentation and attributes. -/
structure Decl (ν : Type := String) where
  form : DeclForm ν
  docs : List (DocString ν)
  attributes : List (Attribute ν)
  /-- From the first documentation comment or attribute to the end; what was skipped, if the
  declaration could not be read. -/
  span : Span

/-- Whether a declaration could not be read. -/
def Decl.isError {ν : Type} (d : Decl ν) : Bool :=
  match d.form with
  | .error => true
  | _ => false

/-- An entry at the top of a file. -/
inductive Item (ν : Type := String)
  | decl (decl : Decl ν)
  | stmt (stmt : Stmt ν)

namespace Item

variable {ν : Type}

/-- Whether an item could not be read. -/
def isError : Item ν → Bool
  | decl d => d.isError
  | stmt s => s.isError

/-- The text an item covers. -/
def span : Item ν → Span
  | decl d => d.span
  | stmt s => s.span

end Item

end Surface
