import Mathlib.Data.List.Forall2
import Surface.Tree.View

/-!
# Sameness up to places

Two texts may hold the same things at different places. What is built from them is then the same
up to the spans of nodes and tokens, and has the same shape.

Results:
* `Tree.bare`, `shape_eq_of_bare`: a tree without its spans; its shape is that of the tree.
* `Alike`: sameness up to places, for everything the grammar builds.
* `Expr.bare_children`, `Stmt.bare_children`, ...: lists of like parts make like children.
-/

namespace Surface

/-! ## Trees without spans -/

namespace Tree

mutual

/-- A tree with all spans forgotten. -/
def bare : Tree → Tree
  | node kind _ children => node kind (.point 0) (bareChildren children)
  | token text _ => token text (.point 0)

/-- Children with all spans forgotten. -/
def bareChildren : List (String × Tree) → List (String × Tree)
  | [] => []
  | (field, child) :: rest => (field, child.bare) :: bareChildren rest

end

theorem bareChildren_eq (cs : List (String × Tree)) :
    bareChildren cs = cs.map fun c => (c.1, c.2.bare) := by
  induction cs with
  | nil => rfl
  | cons c cs ih => exact congrArg (_ :: ·) ih

theorem bareChildren_append (cs ds : List (String × Tree)) :
    bareChildren (cs ++ ds) = bareChildren cs ++ bareChildren ds := by
  simp only [bareChildren_eq, List.map_append]

theorem bare_node {kind kind' : String} {cs cs' : List (String × Tree)} (hk : kind = kind')
    (h : bareChildren cs = bareChildren cs') (s s' : Span) :
    (node kind s cs).bare = (node kind' s' cs').bare := by
  simp only [bare, hk, h]

mutual

theorem writeShape_bare (out : String) : (t : Tree) → writeShape out t.bare = writeShape out t
  | node kind _ children => by
    simp only [bare, writeShape, writeChildShapes_bare _ children]
  | token text _ => rfl

theorem writeChildShapes_bare (out : String) : (cs : List (String × Tree)) →
    writeChildShapes out (bareChildren cs) = writeChildShapes out cs
  | [] => rfl
  | (field, child) :: rest => by
    simp only [bareChildren, writeChildShapes, writeShape_bare _ child,
      writeChildShapes_bare _ rest]

end

/-- Trees that differ in spans only have the same shape. -/
theorem shape_eq_of_bare {t u : Tree} (h : t.bare = u.bare) : t.shape = u.shape := by
  unfold shape
  rw [← writeShape_bare "" t, h, writeShape_bare]

end Tree

/-! ## Alike -/

/-- Sameness up to the places things stand at. -/
class Alike (α : Type) where
  alike : α → α → Prop

export Alike (alike)

variable {α β : Type}

instance : Alike Bool := ⟨Eq⟩

instance : Alike Unit := ⟨Eq⟩

instance : Alike TypeSort := ⟨Eq⟩

instance : Alike Visibility := ⟨Eq⟩

instance : Alike Span := ⟨fun _ _ => True⟩

instance : Alike Token := ⟨fun a b => a.kind = b.kind⟩

instance : Alike Ident := ⟨fun a b => a.name = b.name⟩

instance : Alike Operator := ⟨fun a b => a.symbols = b.symbols⟩

instance : Alike DocString := ⟨fun a b => a.content = b.content⟩

instance [Alike α] : Alike (List α) := ⟨List.Forall₂ alike⟩

instance [Alike α] : Alike (Option α) := ⟨Option.Rel alike⟩

instance [Alike α] [Alike β] : Alike (α × β) := ⟨fun a b => alike a.1 b.1 ∧ alike a.2 b.2⟩

/-- What is still to be given a mark. -/
instance [Alike α] : Alike (Mark → α) := ⟨fun f g => ∀ m m', alike (f m) (g m')⟩

instance : Alike Path := ⟨fun a b => alike a.segments b.segments⟩

instance : Alike Pattern := ⟨fun a b => a.tree.bare = b.tree.bare⟩

instance : Alike Expr := ⟨fun a b => a.tree.bare = b.tree.bare⟩

instance : Alike Stmt := ⟨fun a b => a.tree.bare = b.tree.bare⟩

instance : Alike Block := ⟨fun a b => a.tree.bare = b.tree.bare⟩

instance : Alike Body := ⟨fun a b => a.tree.bare = b.tree.bare⟩

instance : Alike Arm := ⟨fun a b => a.tree.bare = b.tree.bare⟩

instance : Alike Param := ⟨fun a b => a.tree.bare = b.tree.bare⟩

instance : Alike Attribute := ⟨fun a b => a.tree.bare = b.tree.bare⟩

instance : Alike ParamList := ⟨fun a b => a.tree.bare = b.tree.bare⟩

instance : Alike CtorParam := ⟨fun a b => a.tree.bare = b.tree.bare⟩

instance : Alike Ctor := ⟨fun a b => a.tree.bare = b.tree.bare⟩

instance : Alike CtorForm where
  alike
    | .typed t, .typed t' => alike t t'
    | .applied ps, .applied ps' => alike ps ps'
    | _, _ => False

instance : Alike Signature :=
  ⟨fun a b => Tree.bareChildren a.children = Tree.bareChildren b.children⟩

instance : Alike TypeBody := ⟨fun a b => a.tree.bare = b.tree.bare⟩

instance : Alike TypeDecl := ⟨fun a b =>
  a.sort = b.sort ∧ Tree.bareChildren a.children = Tree.bareChildren b.children⟩

instance : Alike Clause :=
  ⟨fun a b => Tree.bareChildren a.children = Tree.bareChildren b.children⟩

instance : Alike DeclForm := ⟨fun a b =>
  a.kind = b.kind ∧ Tree.bareChildren a.children = Tree.bareChildren b.children⟩

instance : Alike Decl := ⟨fun a b => a.tree.bare = b.tree.bare⟩

instance : Alike Item := ⟨fun a b => a.child.1 = b.child.1 ∧ a.child.2.bare = b.child.2.bare⟩

/-! ## Lists and options -/

theorem alike_append [Alike α] {as as' bs bs' : List α} (ha : alike as as') (hb : alike bs bs') :
    alike (as ++ bs) (as' ++ bs') := List.rel_append ha hb

theorem alike_map_fst [Alike α] [Alike β] {as as' : List (α × β)} (h : alike as as') :
    alike (as.map Prod.fst) (as'.map Prod.fst) := by
  induction h with
  | nil => exact .nil
  | cons h _ ih => exact .cons h.1 ih

theorem alike_map_snd {as as' : List (α × Bool)} [Alike α] (h : alike as as') :
    as.map Prod.snd = as'.map Prod.snd := by
  induction h with
  | nil => rfl
  | cons h _ ih => simp only [List.map_cons, ih, show _ = _ from h.2]

theorem isEmpty_of_alike [Alike α] {as as' : List α} (h : alike as as') :
    as'.isEmpty = as.isEmpty := by
  cases h <;> rfl

/-- Children of like parts are the same without spans. -/
theorem bareChildren_map [Alike α] (child : α → String × Tree)
    (hc : ∀ a a', alike a a' → Tree.bareChildren [child a] = Tree.bareChildren [child a'])
    {as as' : List α} (h : alike as as') :
    Tree.bareChildren (as.map child) = Tree.bareChildren (as'.map child) := by
  induction h with
  | nil => rfl
  | cons h _ ih =>
    have := hc _ _ h
    rw [List.map_cons, List.map_cons, ← List.singleton_append, Tree.bareChildren_append, this, ih,
      ← Tree.bareChildren_append, List.singleton_append]

theorem bare_allUnder [Alike α] (tree : α → Tree) (hc : ∀ a a', alike a a' → (tree a).bare = (tree a').bare)
    (field : String) {as as' : List α} (h : alike as as') :
    Tree.bareChildren (allUnder field (as.map tree))
      = Tree.bareChildren (allUnder field (as'.map tree)) := by
  unfold allUnder
  rw [List.map_map, List.map_map]
  exact bareChildren_map _ (fun a a' ha => by simp only [Function.comp, Tree.bareChildren, hc a a' ha]) h

/-! ## Parts of nodes -/

theorem Path.bare_tree {p p' : Path} (h : alike p p') : p.tree.bare = p'.tree.bare :=
  Tree.bare_node rfl (bare_allUnder Ident.tree (fun a a' (ha : a.name = a'.name) => by
    simp only [Ident.tree, Tree.bare, ha]) "segment" h) _ _

theorem Literal.bare_children (field : String) (v : Literal) (s s' : Span) :
    Tree.bareChildren (v.children field s) = Tree.bareChildren (v.children field s') := by
  cases v with
  | string t => rfl
  | char c => rfl
  | number n =>
    simp only [Literal.children, Number.parts, Tree.bareChildren, Tree.bare]
    split
    · rfl
    · cases n.suffix <;> split <;> rfl

theorem Pattern.bare_args {ps ps' : List Pattern} (h : alike ps ps') :
    Tree.bareChildren (Pattern.argChildren ps) = Tree.bareChildren (Pattern.argChildren ps') := by
  induction h with
  | nil => rfl
  | cons h _ ih => simp only [Pattern.argChildren, Tree.bareChildren, ih, show _ = _ from h]

theorem Expr.bare_children (field : String) {es es' : List Expr} (h : alike es es') :
    Tree.bareChildren (Expr.children field es) = Tree.bareChildren (Expr.children field es') := by
  induction h with
  | nil => rfl
  | cons h _ ih => simp only [Expr.children, Tree.bareChildren, ih, show _ = _ from h]

theorem Expr.bare_optional (field : String) {e e' : Option Expr} (h : alike e e') :
    Tree.bareChildren (Expr.optional field e) = Tree.bareChildren (Expr.optional field e') := by
  cases h with
  | none => rfl
  | some h => simp only [Expr.optional, Tree.bareChildren, show _ = _ from h]

theorem Block.bare_optional (field : String) {b b' : Option Block} (h : alike b b') :
    Tree.bareChildren (Block.optional field b) = Tree.bareChildren (Block.optional field b') := by
  cases h with
  | none => rfl
  | some h => simp only [Block.optional, Tree.bareChildren, show _ = _ from h]

theorem Body.bare_optional (field : String) {b b' : Option Body} (h : alike b b') :
    Tree.bareChildren (Body.optional field b) = Tree.bareChildren (Body.optional field b') := by
  cases h with
  | none => rfl
  | some h => simp only [Body.optional, Tree.bareChildren, show _ = _ from h]

theorem Stmt.bare_children {ss ss' : List Stmt} (h : alike ss ss') :
    Tree.bareChildren (Stmt.children ss) = Tree.bareChildren (Stmt.children ss') := by
  induction h with
  | nil => rfl
  | cons h _ ih => simp only [Stmt.children, Tree.bareChildren, ih, show _ = _ from h]

theorem Arm.bare_children {as as' : List Arm} (h : alike as as') :
    Tree.bareChildren (Arm.children as) = Tree.bareChildren (Arm.children as') := by
  induction h with
  | nil => rfl
  | cons h _ ih => simp only [Arm.children, Tree.bareChildren, ih, show _ = _ from h]

theorem Param.bare_children {ps ps' : List Param} (h : alike ps ps') :
    Tree.bareChildren (Param.children ps) = Tree.bareChildren (Param.children ps') := by
  induction h with
  | nil => rfl
  | cons h _ ih => simp only [Param.children, Tree.bareChildren, ih, show _ = _ from h]

end Surface
