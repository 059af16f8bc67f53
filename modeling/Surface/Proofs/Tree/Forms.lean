import Surface.Proofs.Tree.Forest
import Surface.Tree.View

/-!
# Nodes in trees

The tree of a file has a node for every expression, pattern and statement in it, beside nodes for what
holds them. A walk over the tree meets them in the order in which they stand below each other.

Results:
* `Tree.forms`: the expressions, patterns and statements that a walk over a tree meets; `Tree.picked`:
  any choice of its parts.
* `Tree.Spares`: choices that leave out what is not logged.
* `Node.picked_tree`, `Decl.picked_tree`, `SourceFile.picked_tree`: the picked parts of a tree are found
  below the nodes that stand in it.
* `Node.forms_tree`, `SourceFile.forms_tree`: a node comes first, then what is met in its children, in
  their order.
-/

namespace Surface

namespace Tree

/-- The kinds of expressions, patterns and statements. -/
def formKinds : List String :=
  ["Literal", "Identifier", "Path", "Tuple", "Array", "IfExpr", "Match", "Return", "App", "TypeApp",
    "Lambda", "Pi", "Sigma", "Ann", "Binary", "ConsPattern", "RestPattern", "LiteralPattern", "Let",
    "IfStmt", "Ask", "ExprStmt", "ErrorStmt"]

/-- Whether a tree is that of an expression, pattern or statement. A path that is an expression has a
path in it; other paths only have names. -/
def isForm (t : Tree) : Bool :=
  formKinds.contains t.kind && (t.kind != "Path" || (t.child? "path").isSome)

/-- The expressions, patterns and statements that a walk over a tree meets. -/
def forms (t : Tree) : List Tree := (t.entries.map Entry.tree).filter isForm

/-- The parts of a tree that are picked, in the order in which a walk over it meets them. -/
def picked (p : Tree → Bool) (t : Tree) : List Tree := (t.entries.map Entry.tree).filter p

/-- The picked parts of children. -/
def childPicked (p : Tree → Bool) (cs : List (String × Tree)) : List Tree :=
  cs.flatMap fun c => c.2.picked p

variable {p : Tree → Bool}

mutual

theorem picked_entriesOnto {depth : Nat} {field : String} {rest : List Entry} :
    (t : Tree) → ((t.entriesOnto depth field rest).map Entry.tree).filter p
      = t.picked p ++ (rest.map Entry.tree).filter p
  | node kind span cs => by
    rw [picked, entries, entriesOnto, entriesOnto, List.map_cons, List.map_cons, List.filter_cons,
      List.filter_cons, picked_childEntriesOnto cs, picked_childEntriesOnto cs]
    split <;> simp
  | token text span => by
    rw [picked, entries, entriesOnto, entriesOnto, List.map_cons, List.map_cons, List.filter_cons,
      List.filter_cons]
    split <;> simp

theorem picked_childEntriesOnto {depth : Nat} {rest : List Entry} :
    (cs : List (String × Tree)) → ((childEntriesOnto depth cs rest).map Entry.tree).filter p
      = childPicked p cs ++ (rest.map Entry.tree).filter p
  | [] => by rw [childEntriesOnto, childPicked, List.flatMap_nil, List.nil_append]
  | (field, t) :: cs => by
    rw [childEntriesOnto, picked_entriesOnto t, picked_childEntriesOnto cs, childPicked, childPicked,
      List.flatMap_cons, List.append_assoc]

end

@[simp] theorem childPicked_nil : childPicked p [] = [] := rfl

@[simp] theorem childPicked_cons (c : String × Tree) (cs : List (String × Tree)) :
    childPicked p (c :: cs) = c.2.picked p ++ childPicked p cs := rfl

@[simp] theorem childPicked_append (cs ds : List (String × Tree)) :
    childPicked p (cs ++ ds) = childPicked p cs ++ childPicked p ds :=
  List.flatMap_append

theorem picked_node (kind : String) (span : Span) (cs : List (String × Tree)) :
    (node kind span cs).picked p
      = (if p (node kind span cs) then [node kind span cs] else []) ++ childPicked p cs := by
  rw [picked, entries, entriesOnto, List.map_cons, List.filter_cons, picked_childEntriesOnto cs]
  split <;> simp

/-- The kinds of what may be picked: expressions, patterns and statements, and what is left of a
declaration that could not be read. -/
def pickedKinds : List String := "ErrorDecl" :: formKinds

/-- Tokens, paths and what only holds expressions, patterns and statements are not picked. -/
class Spares (p : Tree → Bool) : Prop where
  token (text : String) (span : Span) : p (.token text span) = false
  holder (kind : String) (span : Span) (cs : List (String × Tree)) :
    pickedKinds.contains kind = false → p (.node kind span cs) = false
  path (x : Path) : p x.tree = false

@[simp] theorem picked_token [Spares p] (text : String) (span : Span) :
    (token text span).picked p = [] := by
  rw [picked, entries, entriesOnto, List.map_cons, List.filter_cons_of_neg]
  · rfl
  · simp [Spares.token]

/-- What only holds others. -/
theorem picked_of_holder [Spares p] {kind : String} {span : Span} {cs : List (String × Tree)}
    (h : pickedKinds.contains kind = false) : (node kind span cs).picked p = childPicked p cs := by
  rw [picked_node, Spares.holder (p := p) kind span cs h]
  rfl

/-- A path only has names. -/
theorem not_isForm_path (x : Path) : isForm x.tree = false := by
  have names : x.tree.child? "path" = none := by
    unfold Tree.child? Tree.under
    rw [Path.tree, Tree.children, allUnder, List.filterMap_map, List.head?_eq_none_iff,
      List.filterMap_eq_nil_iff]
    exact fun _ _ => rfl
  rw [isForm, names]
  exact Bool.and_false _

instance : Spares isForm where
  token _ _ := rfl
  holder kind span cs h := by
    have none : formKinds.contains kind = false := by
      rw [pickedKinds, List.contains_cons, Bool.or_eq_false_iff] at h
      exact h.2
    rw [isForm, show (node kind span cs).kind = kind from rfl, none, Bool.false_and]
  path := not_isForm_path

end Tree

open Surface.Tree

/-! ## Nodes and what holds them -/

/-- A node as a tree. -/
def Node.tree : Node → Tree
  | expr e => e.tree
  | pattern p => p.tree
  | stmt s => s.tree

/-- The picked parts of nodes. -/
def nodesPicked (p : Tree → Bool) (ns : List Node) : List Tree := ns.flatMap fun n => n.tree.picked p

variable {p : Tree → Bool}

@[simp] theorem nodesPicked_nil : nodesPicked p [] = [] := rfl

@[simp] theorem nodesPicked_append (ms ns : List Node) :
    nodesPicked p (ms ++ ns) = nodesPicked p ms ++ nodesPicked p ns :=
  List.flatMap_append

@[simp] theorem nodesPicked_expr (e : Expr) : nodesPicked p (roots e) = e.tree.picked p :=
  List.append_nil _

@[simp] theorem nodesPicked_pattern (q : Pattern) : nodesPicked p (roots q) = q.tree.picked p :=
  List.append_nil _

@[simp] theorem nodesPicked_stmt (s : Stmt) : nodesPicked p (roots s) = s.tree.picked p :=
  List.append_nil _

theorem childPicked_allUnder {α : Type} [HasRoots α] {field : String} {tree : α → Tree} {as : List α}
    (h : ∀ a, (tree a).picked p = nodesPicked p (roots a)) :
    childPicked p (allUnder field (as.map tree)) = nodesPicked p (roots as) := by
  induction as with
  | nil => rfl
  | cons a as ih =>
    rw [roots_cons, nodesPicked_append, ← h, ← ih]
    rfl

section

variable [Spares p]

/-! ## Parts without nodes -/

@[simp] theorem Ident.picked_tree (x : Ident) : x.tree.picked p = [] := picked_token ..

@[simp] theorem Path.picked_tree (x : Path) : x.tree.picked p = [] := by
  have spared : p x.tree = false := Spares.path x
  rw [Path.tree] at spared ⊢
  rw [picked_node, spared, childPicked_allUnder Ident.picked_tree]
  simp

@[simp] theorem DocString.picked_tree (d : DocString) : d.tree.picked p = [] := picked_token ..

@[simp] theorem Literal.childPicked_children (field : String) (l : Literal) (span : Span) :
    childPicked p (l.children field span) = [] := by
  cases l with
  | string s => simp [Literal.children]
  | char c => simp [Literal.children]
  | number n =>
    have parts : childPicked p (n.parts span) = [] := by
      unfold Number.parts
      cases n.suffix <;> simp [apply_ite (childPicked p)]
    simp [Literal.children, parts]

/-! ## What holds nodes -/

omit [Spares p] in
@[simp] theorem Expr.childPicked_children (field : String) (es : List Expr) :
    childPicked p (Expr.children field es) = nodesPicked p (roots es) := by
  induction es with
  | nil => rfl
  | cons e es ih => simp [Expr.children, ih]

omit [Spares p] in
@[simp] theorem Expr.childPicked_optional (field : String) (e : Option Expr) :
    childPicked p (Expr.optional field e) = nodesPicked p (roots e) := by
  cases e <;> simp [Expr.optional]

omit [Spares p] in
@[simp] theorem Pattern.childPicked_argChildren (qs : List Pattern) :
    childPicked p (Pattern.argChildren qs) = nodesPicked p (roots qs) := by
  induction qs with
  | nil => rfl
  | cons q qs ih => simp [Pattern.argChildren, ih]

omit [Spares p] in
@[simp] theorem Stmt.childPicked_children (ss : List Stmt) :
    childPicked p (Stmt.children ss) = nodesPicked p (roots ss) := by
  induction ss with
  | nil => rfl
  | cons s ss ih => simp [Stmt.children, ih]

@[simp] theorem Block.picked_tree (b : Block) : b.tree.picked p = nodesPicked p (roots b) := by
  cases b
  rw [Block.tree, picked_of_holder rfl, Stmt.childPicked_children, roots_block]

@[simp] theorem Block.childPicked_optional (field : String) (b : Option Block) :
    childPicked p (Block.optional field b) = nodesPicked p (roots b) := by
  cases b <;> simp [Block.optional]

@[simp] theorem Body.picked_tree (b : Body) : b.tree.picked p = nodesPicked p (roots b) := by
  cases b <;> simp [Body.tree]

@[simp] theorem Body.childPicked_optional (field : String) (b : Option Body) :
    childPicked p (Body.optional field b) = nodesPicked p (roots b) := by
  cases b <;> simp [Body.optional]

@[simp] theorem Arm.picked_tree (a : Arm) : a.tree.picked p = nodesPicked p (roots a) := by
  cases a
  rw [Arm.tree, picked_of_holder rfl]
  simp

@[simp] theorem Arm.childPicked_children (as : List Arm) :
    childPicked p (Arm.children as) = nodesPicked p (roots as) := by
  induction as with
  | nil => rfl
  | cons a as ih => simp [Arm.children, ih]

@[simp] theorem Param.picked_tree (a : Param) : a.tree.picked p = nodesPicked p (roots a) := by
  cases a
  rw [Param.tree, picked_of_holder rfl]
  simp

@[simp] theorem Param.childPicked_children (as : List Param) :
    childPicked p (Param.children as) = nodesPicked p (roots as) := by
  induction as with
  | nil => rfl
  | cons a as ih => simp [Param.children, ih]

/-- A node comes first, if it is picked, then what is picked in its children, in their order. -/
theorem Node.picked_tree (n : Node) :
    n.tree.picked p = (if p n.tree then [n.tree] else []) ++ nodesPicked p n.children := by
  cases n with
  | expr e =>
    show e.tree.picked p = (if p e.tree then [e.tree] else []) ++ _
    cases e <;> rw [Expr.tree, picked_node] <;> simp [trailingComma, apply_ite (childPicked p)]
  | pattern q =>
    show q.tree.picked p = (if p q.tree then [q.tree] else []) ++ _
    cases q <;> rw [Pattern.tree, picked_node] <;> simp
  | stmt s =>
    show s.tree.picked p = (if p s.tree then [s.tree] else []) ++ _
    cases s <;> rw [Stmt.tree, picked_node] <;> simp

/-! ## Declarations and files -/

@[simp] theorem Attribute.picked_tree (a : Attribute) : a.tree.picked p = nodesPicked p (roots a) := by
  obtain ⟨x, args, span⟩ := a
  rw [Attribute.tree, picked_of_holder rfl]
  cases args <;> simp

@[simp] theorem ParamList.picked_tree (l : ParamList) : l.tree.picked p = nodesPicked p (roots l) := by
  obtain ⟨implicit, params, span⟩ := l
  rw [ParamList.tree, picked_of_holder (by cases implicit <;> rfl)]
  simp

@[simp] theorem CtorParam.picked_tree (a : CtorParam) : a.tree.picked p = nodesPicked p (roots a) := by
  cases a with
  | positional t => simp [CtorParam.tree]
  | named x t =>
    rw [CtorParam.tree, picked_of_holder rfl]
    simp

@[simp] theorem Ctor.picked_tree (c : Ctor) : c.tree.picked p = nodesPicked p (roots c) := by
  obtain ⟨name, form, span⟩ := c
  cases form with
  | typed t =>
    rw [Ctor.tree, picked_of_holder rfl]
    simp
  | applied ps =>
    rw [Ctor.tree, picked_of_holder rfl]
    cases ps with
    | none => simp [allUnder]
    | some ps => simp [childPicked_allUnder CtorParam.picked_tree]

@[simp] theorem Signature.childPicked_children (s : Signature) :
    childPicked p s.children = nodesPicked p (roots s) := by
  cases s
  simp [Signature.children, childPicked_allUnder ParamList.picked_tree]

@[simp] theorem Signature.picked_tree (s : Signature) : s.tree.picked p = nodesPicked p (roots s) := by
  rw [Signature.tree, picked_of_holder rfl, childPicked_children]

@[simp] theorem TypeBody.picked_tree (b : TypeBody) : b.tree.picked p = nodesPicked p (roots b) := by
  cases b
  rw [TypeBody.tree, picked_of_holder rfl]
  simp [childPicked_allUnder Ctor.picked_tree, childPicked_allUnder Signature.picked_tree]

@[simp] theorem TypeDecl.childPicked_children (d : TypeDecl) :
    childPicked p d.children = nodesPicked p (roots d) := by
  obtain ⟨sort, visibility, name, params, type, body⟩ := d
  cases visibility <;> cases body <;>
    simp [TypeDecl.children, childPicked_allUnder ParamList.picked_tree]

@[simp] theorem Clause.childPicked_children (c : Clause) :
    childPicked p c.children = nodesPicked p (roots c) := by
  cases c
  simp [Clause.children, Pattern.children]

@[simp] theorem DeclForm.childPicked_children (f : DeclForm) :
    childPicked p f.children = nodesPicked p (roots f) := by
  cases f <;> simp [DeclForm.children]

/-- A declaration comes first, if it is picked. -/
theorem Decl.picked_tree (d : Decl) :
    d.tree.picked p = (if p d.tree then [d.tree] else []) ++ nodesPicked p (roots d) := by
  obtain ⟨form, docs, attributes, span⟩ := d
  rw [Decl.tree, picked_node]
  simp [childPicked_allUnder Attribute.picked_tree, childPicked_allUnder DocString.picked_tree]

/-- The picked parts of a file are those of its items. -/
theorem SourceFile.picked_tree (f : SourceFile) :
    f.tree.picked p = f.items.flatMap fun a => a.child.2.picked p := by
  obtain ⟨shebang, as, span⟩ := f
  rw [SourceFile.tree, picked_of_holder rfl, childPicked_append]
  cases shebang <;> simp [childPicked, List.flatMap_map]

end

/-! ## Forms -/

/-- A node comes first, then what is met in its children, in their order. -/
theorem Node.forms_tree (n : Node) :
    n.tree.forms = n.tree :: n.children.flatMap fun m => m.tree.forms := by
  have form : isForm n.tree = true := by
    cases n with
    | expr e => cases e <;> rfl
    | pattern q => cases q <;> rfl
    | stmt s => cases s <;> rfl
  show n.tree.picked isForm = _
  rw [picked_tree, if_pos form]
  rfl

theorem Item.forms_child (a : Item) :
    a.child.2.forms = (roots a).flatMap fun n => n.tree.forms := by
  cases a with
  | stmt s => exact (nodesPicked_stmt s).symm
  | decl d =>
    have holder : isForm d.tree = false := by
      obtain ⟨form, docs, attributes, span⟩ := d
      cases form with
      | type d => obtain ⟨sort, _⟩ := d; cases sort <;> rfl
      | _ => rfl
    show d.tree.picked isForm = _
    rw [d.picked_tree, holder]
    rfl

/-- A file shows the nodes of its items, in their order. -/
theorem SourceFile.forms_tree (f : SourceFile) :
    f.tree.forms = (roots f).flatMap fun n => n.tree.forms := by
  show f.tree.picked isForm = (f.items.flatMap roots).flatMap _
  rw [picked_tree, List.flatMap_assoc]
  exact congrArg f.items.flatMap (funext Item.forms_child)

end Surface
