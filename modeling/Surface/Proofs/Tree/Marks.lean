import Surface.Layout.Syntax
import Surface.Proofs.Tree.Bare

/-!
# Nodes without their marks

The number of a node and the places of its parts depend on where it stands in a text. Without them a
node is what has been written, and its tree without spans and its document can be told from that.

Results:
* `Expr.bare`, `Pattern.bare`, `Decl.bare`, ..., `SourceFile.bare`: nodes without their marks.
* `Expr.bare_tree`, ..., `SourceFile.bare_tree`: the tree without spans is that of the node without
  marks.
* `Expr.bare_doc`, ..., `SourceFile.bare_format`: so is the document, and the text of a file.
-/

namespace Surface

/-! ## Forgetting marks -/

/-- No mark in particular. -/
def Mark.none : Mark := ⟨0, .point 0⟩

/-- A name wherever it stands. -/
def Ident.bare (x : Ident) : Ident := ⟨x.name, .point 0⟩

/-- An operator wherever it stands. -/
def Operator.bare (op : Operator) : Operator := ⟨op.symbols, .point 0⟩

/-- A path wherever it stands. -/
def Path.bare (p : Path) : Path := ⟨p.head.bare, p.tail.map Ident.bare⟩

mutual

/-- A pattern without marks. -/
def Pattern.bare : Pattern → Pattern
  | .cons _ p args => .cons .none p.bare (Pattern.bares args)
  | .rest _ => .rest .none
  | .literal _ v => .literal .none v

/-- Patterns without marks. -/
def Pattern.bares : List Pattern → List Pattern
  | [] => []
  | p :: ps => p.bare :: Pattern.bares ps

end

mutual

/-- An expression without marks. -/
def Expr.bare : Expr → Expr
  | .literal _ v => .literal .none v
  | .name _ x => .name .none x
  | .path _ p => .path .none p.bare
  | .tuple _ es trailing => .tuple .none (Expr.bares es) trailing
  | .array _ es => .array .none (Expr.bares es)
  | .conditional _ c t e => .conditional .none c.bare t.bare e.bare
  | .matchOn _ s arms => .matchOn .none s.bare (Arm.bares arms)
  | .returned _ v => .returned .none (Expr.optionalBare v)
  | .app _ f es b => .app .none f.bare (Expr.bares es) (Block.optionalBare b)
  | .typeApp _ f es => .typeApp .none f.bare (Expr.bares es)
  | .lambda _ ps b => .lambda .none (Param.bares ps) b.bare
  | .arrow _ d c => .arrow .none d.bare c.bare
  | .pi _ ps c => .pi .none (Param.bares ps) c.bare
  | .sigma _ ps c => .sigma .none (Param.bares ps) c.bare
  | .ascription _ v t => .ascription .none v.bare t.bare
  | .binary _ l op r => .binary .none l.bare op.bare r.bare

/-- Expressions without marks. -/
def Expr.bares : List Expr → List Expr
  | [] => []
  | e :: es => e.bare :: Expr.bares es

/-- An expression that may be absent, without marks. -/
def Expr.optionalBare : Option Expr → Option Expr
  | none => none
  | some e => some e.bare

/-- A statement without marks. -/
def Stmt.bare : Stmt → Stmt
  | .letIn _ p v => .letIn .none p.bare v.bare
  | .conditional _ c t e => .conditional .none c.bare t.bare (Body.optionalBare e)
  | .ask _ p v => .ask .none p.bare v.bare
  | .expr _ v => .expr .none v.bare
  | .error _ => .error .none

/-- Statements without marks. -/
def Stmt.bares : List Stmt → List Stmt
  | [] => []
  | s :: ss => s.bare :: Stmt.bares ss

/-- A block without marks. -/
def Block.bare : Block → Block
  | ⟨ss, _⟩ => ⟨Stmt.bares ss, .point 0⟩

/-- A block that may be absent, without marks. -/
def Block.optionalBare : Option Block → Option Block
  | none => none
  | some b => some b.bare

/-- A body without marks. -/
def Body.bare : Body → Body
  | .block b => .block b.bare
  | .expr e => .expr e.bare

/-- A body that may be absent, without marks. -/
def Body.optionalBare : Option Body → Option Body
  | none => none
  | some b => some b.bare

/-- A match arm without marks. -/
def Arm.bare : Arm → Arm
  | ⟨p, b, _⟩ => ⟨p.bare, b.bare, .point 0⟩

/-- Match arms without marks. -/
def Arm.bares : List Arm → List Arm
  | [] => []
  | a :: as => a.bare :: Arm.bares as

/-- A parameter without marks. -/
def Param.bare : Param → Param
  | ⟨p, type, _⟩ => ⟨p.bare, Expr.optionalBare type, .point 0⟩

/-- Parameters without marks. -/
def Param.bares : List Param → List Param
  | [] => []
  | p :: ps => p.bare :: Param.bares ps

end

/-- A documentation comment wherever it stands. -/
def DocString.bare (d : DocString) : DocString := ⟨d.content, .point 0⟩

/-- An attribute without marks. -/
def Attribute.bare (a : Attribute) : Attribute := ⟨a.path.bare, a.args.map Expr.bares, .point 0⟩

/-- A list of parameters without marks. -/
def ParamList.bare (l : ParamList) : ParamList := ⟨l.implicit, Param.bares l.params, .point 0⟩

/-- A parameter of a constructor without marks. -/
def CtorParam.bare : CtorParam → CtorParam
  | positional t => positional t.bare
  | named x t => named x.bare t.bare

/-- What follows the name of a constructor, without marks. -/
def CtorForm.bare : CtorForm → CtorForm
  | typed t => typed t.bare
  | applied ps => applied (ps.map (List.map CtorParam.bare))

/-- A constructor without marks. -/
def Ctor.bare (c : Ctor) : Ctor := ⟨c.name.bare, c.form.bare, .point 0⟩

/-- A signature without marks. -/
def Signature.bare (s : Signature) : Signature :=
  ⟨s.name.bare, s.params.map ParamList.bare, Expr.optionalBare s.type, Block.optionalBare s.value,
    .point 0⟩

/-- The body of a type declaration without marks. -/
def TypeBody.bare (b : TypeBody) : TypeBody :=
  ⟨b.ctors.map Ctor.bare, b.methods.map Signature.bare, .point 0⟩

/-- A type declaration without marks. -/
def TypeDecl.bare (d : TypeDecl) : TypeDecl :=
  ⟨d.sort, d.visibility.map fun v => (v.1, .point 0), d.name.bare, d.params.map ParamList.bare,
    Expr.optionalBare d.type, d.body.map TypeBody.bare⟩

/-- A clause without marks. -/
def Clause.bare (c : Clause) : Clause :=
  ⟨c.name.bare, Pattern.bares c.patterns, Expr.optionalBare c.value, .point 0⟩

/-- What a declaration is, without marks. -/
def DeclForm.bare : DeclForm → DeclForm
  | uses p => uses p.bare
  | command n args => command n.bare (Expr.bares args)
  | type d => type d.bare
  | signature s => signature s.bare
  | clause c => clause c.bare
  | error => error

/-- A declaration without marks. -/
def Decl.bare (d : Decl) : Decl :=
  ⟨d.form.bare, d.docs.map DocString.bare, d.attributes.map Attribute.bare, .point 0⟩

/-- An item without marks. -/
def Item.bare : Item → Item
  | decl d => decl d.bare
  | stmt s => stmt s.bare

/-- A file without marks. -/
def SourceFile.bare (f : SourceFile) : SourceFile :=
  ⟨f.shebang.map fun l => ⟨l.text, .point 0⟩, f.items.map Item.bare, .point 0⟩

/-! ## Lists of nodes -/

theorem Pattern.bares_eq (ps : List Pattern) : Pattern.bares ps = ps.map Pattern.bare := by
  induction ps with
  | nil => rfl
  | cons p ps ih => exact congrArg (_ :: ·) ih

theorem Expr.bares_eq (es : List Expr) : Expr.bares es = es.map Expr.bare := by
  induction es with
  | nil => rfl
  | cons e es ih => exact congrArg (_ :: ·) ih

theorem Stmt.bares_eq (ss : List Stmt) : Stmt.bares ss = ss.map Stmt.bare := by
  induction ss with
  | nil => rfl
  | cons s ss ih => exact congrArg (_ :: ·) ih

theorem Arm.bares_eq (as : List Arm) : Arm.bares as = as.map Arm.bare := by
  induction as with
  | nil => rfl
  | cons a as ih => exact congrArg (_ :: ·) ih

theorem Param.bares_eq (ps : List Param) : Param.bares ps = ps.map Param.bare := by
  induction ps with
  | nil => rfl
  | cons p ps ih => exact congrArg (_ :: ·) ih

/-! ## Trees -/

open Surface.Tree (bareChildren bareChildren_append bare_node)

theorem Path.alike_bare (p : Path) : alike p.bare p := by
  refine .cons rfl ?_
  show List.Forall₂ _ (p.tail.map Ident.bare) p.tail
  rw [List.forall₂_map_left_iff]
  exact List.forall₂_same.2 fun _ _ => rfl

theorem Path.bare_tree_bare (p : Path) : p.bare.tree.bare = p.tree.bare :=
  Path.bare_tree p.alike_bare

mutual

theorem Pattern.bare_tree : (p : Pattern) → p.bare.tree.bare = p.tree.bare
  | .cons _ p args => bare_node rfl (by
    simp only [bareChildren, p.bare_tree_bare, Pattern.bares_children args]) _ _
  | .rest _ => rfl
  | .literal _ v => bare_node rfl (v.bare_children _ _ _) _ _

theorem Pattern.bares_children : (ps : List Pattern) →
    bareChildren (Pattern.argChildren (Pattern.bares ps)) = bareChildren (Pattern.argChildren ps)
  | [] => rfl
  | p :: ps => by
    simp only [Pattern.bares, Pattern.argChildren, bareChildren, p.bare_tree, Pattern.bares_children ps]

end

mutual

theorem Expr.bare_tree : (e : Expr) → e.bare.tree.bare = e.tree.bare
  | .literal _ v => bare_node rfl (v.bare_children _ _ _) _ _
  | .name _ _ => rfl
  | .path _ p => bare_node rfl (by simp only [bareChildren, p.bare_tree_bare]) _ _
  | .tuple _ es trailing => bare_node rfl (by
    rw [bareChildren_append, bareChildren_append, Expr.bares_children _ es]
    cases trailing <;> rfl) _ _
  | .array _ es => bare_node rfl (Expr.bares_children _ es) _ _
  | .conditional _ c t e => bare_node rfl (by
    simp only [bareChildren, c.bare_tree, t.bare_tree, e.bare_tree]) _ _
  | .matchOn _ s arms => bare_node rfl (by
    simp only [bareChildren, s.bare_tree, Arm.bares_children arms]) _ _
  | .returned _ v => bare_node rfl (Expr.optionalBare_children _ v) _ _
  | .app _ f es b => bare_node rfl (by
    simp only [bareChildren, bareChildren_append, f.bare_tree, Expr.bares_children _ es,
      Block.optionalBare_children _ b]) _ _
  | .typeApp _ f es => bare_node rfl (by
    simp only [bareChildren, f.bare_tree, Expr.bares_children _ es]) _ _
  | .lambda _ ps b => bare_node rfl (by
    simp only [bareChildren, bareChildren_append, Param.bares_children ps, b.bare_tree]) _ _
  | .arrow _ d c => bare_node rfl (by simp only [bareChildren, d.bare_tree, c.bare_tree]) _ _
  | .pi _ ps c => bare_node rfl (by
    simp only [bareChildren, bareChildren_append, Param.bares_children ps, c.bare_tree]) _ _
  | .sigma _ ps c => bare_node rfl (by
    simp only [bareChildren, bareChildren_append, Param.bares_children ps, c.bare_tree]) _ _
  | .ascription _ v t => bare_node rfl (by simp only [bareChildren, v.bare_tree, t.bare_tree]) _ _
  | .binary _ l _ r => bare_node rfl (by
    simp only [bareChildren, l.bare_tree, r.bare_tree]
    rfl) _ _

theorem Expr.bares_children (field : String) : (es : List Expr) →
    bareChildren (Expr.children field (Expr.bares es)) = bareChildren (Expr.children field es)
  | [] => rfl
  | e :: es => by
    simp only [Expr.bares, Expr.children, bareChildren, e.bare_tree, Expr.bares_children field es]

theorem Expr.optionalBare_children (field : String) : (e : Option Expr) →
    bareChildren (Expr.optional field (Expr.optionalBare e)) = bareChildren (Expr.optional field e)
  | none => rfl
  | some e => by simp only [Expr.optionalBare, Expr.optional, bareChildren, e.bare_tree]

theorem Stmt.bare_tree : (s : Stmt) → s.bare.tree.bare = s.tree.bare
  | .letIn _ p v => bare_node rfl (by simp only [bareChildren, p.bare_tree, v.bare_tree]) _ _
  | .conditional _ c t e => bare_node rfl (by
    simp only [bareChildren, c.bare_tree, t.bare_tree, Body.optionalBare_children _ e]) _ _
  | .ask _ p v => bare_node rfl (by simp only [bareChildren, p.bare_tree, v.bare_tree]) _ _
  | .expr _ v => bare_node rfl (by simp only [bareChildren, v.bare_tree]) _ _
  | .error _ => rfl

theorem Stmt.bares_children : (ss : List Stmt) →
    bareChildren (Stmt.children (Stmt.bares ss)) = bareChildren (Stmt.children ss)
  | [] => rfl
  | s :: ss => by
    simp only [Stmt.bares, Stmt.children, bareChildren, s.bare_tree, Stmt.bares_children ss]

theorem Block.bare_tree : (b : Block) → b.bare.tree.bare = b.tree.bare
  | ⟨ss, _⟩ => bare_node rfl (Stmt.bares_children ss) _ _

theorem Block.optionalBare_children (field : String) : (b : Option Block) →
    bareChildren (Block.optional field (Block.optionalBare b)) = bareChildren (Block.optional field b)
  | none => rfl
  | some b => by simp only [Block.optionalBare, Block.optional, bareChildren, b.bare_tree]

theorem Body.bare_tree : (b : Body) → b.bare.tree.bare = b.tree.bare
  | .block b => b.bare_tree
  | .expr e => e.bare_tree

theorem Body.optionalBare_children (field : String) : (b : Option Body) →
    bareChildren (Body.optional field (Body.optionalBare b)) = bareChildren (Body.optional field b)
  | none => rfl
  | some b => by simp only [Body.optionalBare, Body.optional, bareChildren, b.bare_tree]

theorem Arm.bare_tree : (a : Arm) → a.bare.tree.bare = a.tree.bare
  | ⟨p, b, _⟩ => bare_node rfl (by simp only [bareChildren, p.bare_tree, b.bare_tree]) _ _

theorem Arm.bares_children : (as : List Arm) →
    bareChildren (Arm.children (Arm.bares as)) = bareChildren (Arm.children as)
  | [] => rfl
  | a :: as => by
    simp only [Arm.bares, Arm.children, bareChildren, a.bare_tree, Arm.bares_children as]

theorem Param.bare_tree : (p : Param) → p.bare.tree.bare = p.tree.bare
  | ⟨p, type, _⟩ => bare_node rfl (by
    simp only [bareChildren, p.bare_tree, Expr.optionalBare_children _ type]) _ _

theorem Param.bares_children : (ps : List Param) →
    bareChildren (Param.children (Param.bares ps)) = bareChildren (Param.children ps)
  | [] => rfl
  | p :: ps => by
    simp only [Param.bares, Param.children, bareChildren, p.bare_tree, Param.bares_children ps]

end

/-- Children that are the same without spans one by one. -/
theorem bareChildren_map_bare {α : Type} (bare : α → α) (child : α → String × Tree)
    (h : ∀ a, bareChildren [child (bare a)] = bareChildren [child a]) (as : List α) :
    bareChildren ((as.map bare).map child) = bareChildren (as.map child) := by
  induction as with
  | nil => rfl
  | cons a as ih =>
    rw [List.map_cons, List.map_cons, List.map_cons, ← List.singleton_append, bareChildren_append, h,
      ih, ← bareChildren_append, List.singleton_append]

theorem bareChildren_allUnder {α : Type} (bare : α → α) (tree : α → Tree)
    (h : ∀ a, (tree (bare a)).bare = (tree a).bare) (field : String) (as : List α) :
    bareChildren (allUnder field ((as.map bare).map tree))
      = bareChildren (allUnder field (as.map tree)) := by
  have flat (as : List α) : allUnder field (as.map tree) = as.map fun a => (field, tree a) :=
    List.map_map
  rw [flat, flat]
  exact bareChildren_map_bare bare _ (fun a => by simp only [bareChildren, h]) as

theorem Attribute.bare_tree (a : Attribute) : a.bare.tree.bare = a.tree.bare := by
  obtain ⟨path, args, _⟩ := a
  refine bare_node rfl ?_ _ _
  simp only [bareChildren, bare, path.bare_tree_bare]
  cases args with
  | none => rfl
  | some es => exact congrArg (_ :: ·) (Expr.bares_children _ es)

theorem ParamList.bare_tree (l : ParamList) : l.bare.tree.bare = l.tree.bare :=
  bare_node rfl (Param.bares_children l.params) _ _

theorem CtorParam.bare_tree : (p : CtorParam) → p.bare.tree.bare = p.tree.bare
  | .positional t => t.bare_tree
  | .named _ t => bare_node rfl (by
    simp only [bareChildren, t.bare_tree]
    rfl) _ _

theorem Ctor.bare_tree (c : Ctor) : c.bare.tree.bare = c.tree.bare := by
  obtain ⟨name, form, _⟩ := c
  cases form with
  | typed t =>
    exact bare_node rfl (by simp only [bareChildren, bare, name.bare_tree_bare, t.bare_tree]) _ _
  | applied ps =>
    refine bare_node rfl ?_ _ _
    simp only [bareChildren, bare, name.bare_tree_bare]
    cases ps with
    | none => rfl
    | some ps => exact congrArg (_ :: ·) (bareChildren_allUnder _ _ CtorParam.bare_tree _ ps)

theorem Signature.bare_children (s : Signature) :
    bareChildren s.bare.children = bareChildren s.children := by
  simp only [children, bare, bareChildren, bareChildren_append, s.name.bare_tree_bare,
    bareChildren_allUnder _ _ ParamList.bare_tree, Expr.optionalBare_children,
    Block.optionalBare_children]

theorem TypeBody.bare_tree (b : TypeBody) : b.bare.tree.bare = b.tree.bare :=
  bare_node rfl (by
    simp only [bareChildren_append, bare, bareChildren_allUnder _ _ Ctor.bare_tree,
      bareChildren_allUnder _ Signature.tree fun s => bare_node rfl s.bare_children _ _]) _ _

theorem TypeDecl.bare_children (d : TypeDecl) :
    bareChildren d.bare.children = bareChildren d.children := by
  obtain ⟨sort, visibility, name, params, type, body⟩ := d
  have closed : bareChildren ((body.map TypeBody.bare).elim [] fun b => [("body", b.tree)])
      = bareChildren (body.elim [] fun b => [("body", b.tree)]) := by
    cases body with
    | none => rfl
    | some b => simp only [Option.map_some, Option.elim_some, bareChildren, b.bare_tree]
  simp only [children, bare, bareChildren, bareChildren_append, name.bare_tree_bare, closed,
    bareChildren_allUnder _ _ ParamList.bare_tree, Expr.optionalBare_children]
  cases visibility <;> rfl

theorem Clause.bare_children (c : Clause) : bareChildren c.bare.children = bareChildren c.children := by
  simp only [children, bare, bareChildren, bareChildren_append, c.name.bare_tree_bare,
    Pattern.children, Pattern.bares_children, Expr.optionalBare_children]

theorem DeclForm.bare_children (f : DeclForm) :
    f.bare.kind = f.kind ∧ bareChildren f.bare.children = bareChildren f.children := by
  cases f with
  | uses p => exact ⟨rfl, by simp only [children, bare, bareChildren, p.bare_tree_bare]⟩
  | command n args =>
    exact ⟨rfl, by simp only [children, bare, bareChildren, n.bare_tree_bare, Expr.bares_children]⟩
  | type d => exact ⟨rfl, d.bare_children⟩
  | signature s => exact ⟨rfl, s.bare_children⟩
  | clause c => exact ⟨rfl, c.bare_children⟩
  | error => exact ⟨rfl, rfl⟩

theorem DocString.bare_tree (d : DocString) : d.bare.tree.bare = d.tree.bare := rfl

theorem Decl.bare_tree (d : Decl) : d.bare.tree.bare = d.tree.bare :=
  bare_node d.form.bare_children.1 (by
    simp only [bareChildren_append, bare, bareChildren_allUnder _ _ DocString.bare_tree,
      bareChildren_allUnder _ _ Attribute.bare_tree, d.form.bare_children.2]) _ _

theorem Item.bare_child (a : Item) : bareChildren [a.bare.child] = bareChildren [a.child] := by
  cases a with
  | decl d => simp only [bare, child, bareChildren, d.bare_tree]
  | stmt s => simp only [bare, child, bareChildren, s.bare_tree]

/-- The tree of a file without spans is that of the file without marks. -/
theorem SourceFile.bare_tree (f : SourceFile) : f.bare.tree.bare = f.tree.bare := by
  refine bare_node rfl ?_ _ _
  rw [bareChildren_append, bareChildren_append, bare, bareChildren_map_bare _ _ Item.bare_child]
  cases f.shebang <;> rfl

/-! ## Documents -/

theorem Path.bare_doc (p : Path) : Layout.path p.bare = Layout.path p := by
  obtain ⟨head, tail⟩ := p
  have segments : (Path.bare ⟨head, tail⟩).segments.map (fun x => Layout.nameText x.name)
      = (Path.mk head tail).segments.map fun x => Layout.nameText x.name :=
    congrArg (Layout.nameText head.name :: ·) List.map_map
  unfold Layout.path Layout.pathText
  rw [segments]

theorem Pattern.bare_hasArgs (p : Pattern) : p.bare.hasArgs = p.hasArgs := by
  cases p with
  | cons _ _ args => cases args <;> rfl
  | rest _ | literal _ _ => rfl

mutual

theorem Pattern.bare_doc : (p : Pattern) → p.bare.doc = p.doc
  | .cons _ p args => by simp only [Pattern.bare, Pattern.doc, p.bare_doc, Pattern.bares_docs args]
  | .rest _ | .literal _ _ => rfl

theorem Pattern.bares_docs : (ps : List Pattern) →
    Pattern.argDocs (Pattern.bares ps) = Pattern.argDocs ps
  | [] => rfl
  | p :: ps => by
    simp only [Pattern.bares, Pattern.argDocs, p.bare_doc, p.bare_hasArgs, Pattern.bares_docs ps]

end

theorem Arm.isEmpty_bares (as : List Arm) : (Arm.bares as).isEmpty = as.isEmpty := by
  cases as <;> rfl

theorem Stmt.isEmpty_bares (ss : List Stmt) : (Stmt.bares ss).isEmpty = ss.isEmpty := by
  cases ss <;> rfl

theorem Stmt.bare_isError (s : Stmt) : s.bare.isError = s.isError := by
  cases s <;> rfl

mutual

theorem Expr.bare_doc : (e : Expr) → e.bare.doc = e.doc
  | .literal _ _ | .name _ _ => rfl
  | .path _ p => p.bare_doc
  | .tuple _ es _ | .array _ es => by simp only [Expr.bare, Expr.doc, Expr.bares_docs es]
  | .conditional _ c t e => by simp only [Expr.bare, Expr.doc, c.bare_doc, t.bare_thenDoc, e.bare_doc]
  | .matchOn _ s arms => by
    simp only [Expr.bare, Expr.doc, s.bare_doc, Arm.bares_docs arms, Arm.isEmpty_bares]
  | .returned _ v => by simp only [Expr.bare, Expr.doc, Expr.optionalBare_docs v]
  | .app _ f es b => by
    simp only [Expr.bare, Expr.doc, f.bare_doc, Expr.bares_docs es, Block.optionalBare_docs b]
  | .typeApp _ f es => by simp only [Expr.bare, Expr.doc, f.bare_doc, Expr.bares_docs es]
  | .lambda _ ps e | .pi _ ps e | .sigma _ ps e => by
    simp only [Expr.bare, Expr.doc, Param.bares_docs ps, e.bare_doc]
  | .arrow _ d e | .ascription _ d e => by simp only [Expr.bare, Expr.doc, d.bare_doc, e.bare_doc]
  | .binary _ l _ r => by simp only [Expr.bare, Expr.doc, l.bare_doc, r.bare_doc, Operator.bare]

theorem Expr.bares_docs : (es : List Expr) → Expr.docs (Expr.bares es) = Expr.docs es
  | [] => rfl
  | e :: es => by simp only [Expr.bares, Expr.docs, e.bare_doc, Expr.bares_docs es]

theorem Expr.optionalBare_docs : (e : Option Expr) →
    Expr.optionalDocs (Expr.optionalBare e) = Expr.optionalDocs e
  | none => rfl
  | some e => by simp only [Expr.optionalBare, Expr.optionalDocs, e.bare_doc]

theorem Stmt.bare_doc : (s : Stmt) → s.bare.doc = s.doc
  | .letIn _ p v | .ask _ p v => by simp only [Stmt.bare, Stmt.doc, p.bare_doc, v.bare_doc]
  | .conditional _ c t e => by
    simp only [Stmt.bare, Stmt.doc, c.bare_doc, t.bare_thenDoc, Body.optionalBare_else e]
  | .expr _ v => v.bare_doc
  | .error _ => rfl

theorem Stmt.bares_docs : (ss : List Stmt) → Stmt.docs (Stmt.bares ss) = Stmt.docs ss
  | [] => rfl
  | s :: ss => by
    simp only [Stmt.bares, Stmt.docs, s.bare_isError, s.bare_doc, Stmt.bares_docs ss]

theorem Block.bare_doc : (b : Block) → b.bare.doc = b.doc
  | ⟨ss, _⟩ => by simp only [Block.bare, Block.doc, Stmt.bares_docs ss, Stmt.isEmpty_bares]

theorem Block.optionalBare_docs : (b : Option Block) →
    Block.optionalDocs (Block.optionalBare b) = Block.optionalDocs b
  | none => rfl
  | some b => by simp only [Block.optionalBare, Block.optionalDocs, b.bare_doc]

theorem Body.bare_doc : (b : Body) → b.bare.doc = b.doc
  | .block b => b.bare_doc
  | .expr e => e.bare_doc

theorem Body.bare_thenDoc : (b : Body) → b.bare.thenDoc = b.thenDoc
  | .block b => by simp only [Body.bare, Body.thenDoc, b.bare_doc]
  | .expr e => by simp only [Body.bare, Body.thenDoc, e.bare_doc]

theorem Body.optionalBare_else : (b : Option Body) →
    Body.optionalElse (Body.optionalBare b) = Body.optionalElse b
  | none => rfl
  | some b => by simp only [Body.optionalBare, Body.optionalElse, b.bare_doc]

theorem Arm.bare_doc : (a : Arm) → a.bare.doc = a.doc
  | ⟨p, b, _⟩ => by simp only [Arm.bare, Arm.doc, p.bare_doc, b.bare_doc]

theorem Arm.bares_docs : (as : List Arm) → Arm.docs (Arm.bares as) = Arm.docs as
  | [] => rfl
  | a :: as => by simp only [Arm.bares, Arm.docs, a.bare_doc, Arm.bares_docs as]

theorem Param.bare_typeDoc : (t : Option Expr) →
    Param.typeDoc (Expr.optionalBare t) = Param.typeDoc t
  | none => rfl
  | some t => by simp only [Expr.optionalBare, Param.typeDoc, t.bare_doc]

theorem Param.bare_doc : (p : Param) → p.bare.doc = p.doc
  | ⟨p, type, _⟩ => by simp only [Param.bare, Param.doc, p.bare_doc, Param.bare_typeDoc type]

theorem Param.bares_docs : (ps : List Param) → Param.docs (Param.bares ps) = Param.docs ps
  | [] => rfl
  | p :: ps => by simp only [Param.bares, Param.docs, p.bare_doc, Param.bares_docs ps]

end

theorem Attribute.bare_doc (a : Attribute) : a.bare.doc = a.doc := by
  obtain ⟨path, args, _⟩ := a
  cases args with
  | none => simp only [bare, doc, path.bare_doc, Option.map_none, Option.elim_none]
  | some es =>
    simp only [bare, doc, path.bare_doc, Option.map_some, Option.elim_some, Expr.bares_docs]

theorem ParamList.bare_doc (l : ParamList) : l.bare.doc = l.doc := by
  unfold doc
  rw [show Param.docs l.bare.params = Param.docs l.params from Param.bares_docs _]
  rfl

theorem optionalTypeDoc_bare (t : Option Expr) :
    optionalTypeDoc (Expr.optionalBare t) = optionalTypeDoc t := by
  cases t with
  | none => rfl
  | some t => simp only [optionalTypeDoc, Expr.optionalBare, Option.elim_some, t.bare_doc]

/-- Documents that are the same one by one. -/
theorem map_bare_doc {α : Type} {bare : α → α} {doc : α → Doc} (h : ∀ a, doc (bare a) = doc a)
    (as : List α) : (as.map bare).map doc = as.map doc := by
  rw [List.map_map]
  exact List.map_congr_left fun a _ => h a

theorem Signature.bare_doc (s : Signature) : s.bare.doc = s.doc := by
  simp only [bare, doc, s.name.bare_doc, map_bare_doc ParamList.bare_doc, optionalTypeDoc_bare,
    Block.optionalBare_docs]

theorem Clause.bare_doc (c : Clause) : c.bare.doc = c.doc := by
  simp only [bare, doc, c.name.bare_doc, Pattern.bares_docs, Expr.optionalBare_docs]

theorem CtorParam.bare_doc (p : CtorParam) : p.bare.doc = p.doc := by
  cases p with
  | positional t => exact t.bare_doc
  | named x t => simp only [bare, doc, t.bare_doc, Ident.bare]

theorem CtorForm.bare_doc (f : CtorForm) : f.bare.doc = f.doc := by
  cases f with
  | typed t => simp only [bare, doc, t.bare_doc]
  | applied ps =>
    cases ps with
    | none => rfl
    | some ps => simp only [bare, doc, Option.map_some, map_bare_doc CtorParam.bare_doc]

theorem Ctor.bare_doc (c : Ctor) : c.bare.doc = c.doc := by
  simp only [bare, doc, c.name.bare_doc, c.form.bare_doc]

theorem ctorLines_bare : (cs : List Ctor) → ctorLines (cs.map Ctor.bare) = ctorLines cs
  | [] => rfl
  | [c] => by simp only [List.map_cons, List.map_nil, ctorLines, c.bare_doc]
  | c :: d :: cs => by
    have rest := ctorLines_bare (d :: cs)
    simp only [List.map_cons, ctorLines, c.bare_doc] at rest ⊢
    rw [rest]

theorem TypeBody.bare_doc (sort : TypeSort) (b : TypeBody) : b.bare.doc sort = b.doc sort := by
  simp only [bare, doc, List.isEmpty_map, ctorLines_bare, map_bare_doc Signature.bare_doc]

theorem TypeDecl.bare_doc (d : TypeDecl) : d.bare.doc = d.doc := by
  obtain ⟨sort, visibility, name, params, type, body⟩ := d
  have body : (body.map TypeBody.bare).map (TypeBody.doc sort) = body.map (TypeBody.doc sort) := by
    cases body with
    | none => rfl
    | some b => exact congrArg some (b.bare_doc sort)
  simp only [bare, doc, name.bare_doc, map_bare_doc ParamList.bare_doc, optionalTypeDoc_bare, body]
  cases visibility <;> rfl

theorem DeclForm.bare_doc (f : DeclForm) : f.bare.doc = f.doc := by
  cases f with
  | uses p => simp only [bare, doc, p.bare_doc]
  | command n args => simp only [bare, doc, n.bare_doc, Expr.bares_docs]
  | type d => exact d.bare_doc
  | signature s => exact s.bare_doc
  | clause c => exact c.bare_doc
  | error => rfl

theorem DocString.bare_doc (d : DocString) : d.bare.doc = d.doc := rfl

theorem Decl.bare_doc (d : Decl) : d.bare.doc = d.doc := by
  simp only [bare, doc, d.form.bare_doc, map_bare_doc Attribute.bare_doc,
    map_bare_doc DocString.bare_doc]

theorem Item.bare_doc (a : Item) : a.bare.doc = a.doc ∧ a.bare.isError = a.isError := by
  cases a with
  | decl d =>
    obtain ⟨form, _⟩ := d
    exact ⟨Decl.bare_doc _, by cases form <;> rfl⟩
  | stmt s => exact ⟨s.bare_doc, s.bare_isError⟩

/-- The text of a file in the canonical layout is that of the file without marks. -/
theorem SourceFile.bare_format (f : SourceFile) : f.bare.format = f.format := by
  have items : ((f.items.map Item.bare).filter fun a => !a.isError)
      = (f.items.filter fun a => !a.isError).map Item.bare := by
    rw [List.filter_map]
    exact congrArg _ (List.filter_congr fun a _ => by simp only [Function.comp, a.bare_doc.2])
  have line : (f.bare.shebang.map Shebang.doc).toList = (f.shebang.map Shebang.doc).toList := by
    unfold bare
    cases f.shebang <;> rfl
  unfold format doc
  rw [line, bare, items, map_bare_doc fun a => a.bare_doc.1]

end Surface
