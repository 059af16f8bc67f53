import Surface.Proofs.Tree.Forms

/-!
# Trees with parts that could not be read

What cannot be read leaves a node without children behind: `ErrorDecl` or `ErrorStmt`. Whether
there is such a node in a tree can be told from the expressions, patterns and statements that stand in
it, beside the error declarations among the items of a file.

Results:
* `Tree.Flawed`: a tree with such a part.
* `Node.flawed_iff`: error statements, and nodes with a flawed child.
* `Item.flawed_iff`, `SourceFile.flawed_iff`: items and whole files.
-/

namespace Surface

namespace Tree

/-- The kinds of node that are left where something could not be read. -/
def IsPlaceholder (kind : String) : Prop := kind = "ErrorDecl" ∨ kind = "ErrorStmt"

instance (kind : String) : Decidable (IsPlaceholder kind) := inferInstanceAs (Decidable (_ ∨ _))

/-- Some part of a tree stands for what could not be read. -/
def Flawed (t : Tree) : Prop := ∃ e ∈ t.entries, IsPlaceholder e.tree.kind

/-- Whether a tree is what is left where something could not be read. -/
def isPlaceholder (t : Tree) : Bool := decide (IsPlaceholder t.kind)

theorem flawed_iff_picked {t : Tree} : t.Flawed ↔ t.picked isPlaceholder ≠ [] := by
  simp [Flawed, picked, isPlaceholder]

instance : Spares isPlaceholder where
  token _ _ := rfl
  path _ := rfl
  holder kind span cs h := by
    refine decide_eq_false ?_
    rintro (same | same) <;> rw [show kind = _ from same] at h <;> cases h

end Tree

open Surface.Tree

/-- Some of the nodes have a part that could not be read. -/
def AnyFlawed (ns : List Node) : Prop := ∃ n ∈ ns, n.tree.Flawed

@[simp] theorem not_anyFlawed_nil : ¬ AnyFlawed [] := nofun

@[simp] theorem anyFlawed_append {ms ns : List Node} :
    AnyFlawed (ms ++ ns) ↔ AnyFlawed ms ∨ AnyFlawed ns := by
  simp only [AnyFlawed, List.mem_append, or_and_right, exists_or]

theorem anyFlawed_singleton {n : Node} : AnyFlawed [n] ↔ n.tree.Flawed := by
  simp [AnyFlawed]

theorem nodesPicked_ne_nil {ns : List Node} : nodesPicked isPlaceholder ns ≠ [] ↔ AnyFlawed ns := by
  simp [nodesPicked, AnyFlawed, flawed_iff_picked]

/-- Below a node, parts that could not be read are error statements. -/
theorem Node.flawed_iff (n : Node) : n.tree.Flawed ↔ n.isError = true ∨ AnyFlawed n.children := by
  have self : isPlaceholder n.tree = n.isError := by
    cases n with
    | expr e => cases e <;> rfl
    | pattern p => cases p <;> rfl
    | stmt s => cases s <;> rfl
  rw [flawed_iff_picked, picked_tree, self]
  cases n.isError <;> simp [nodesPicked_ne_nil]

/-! ## Declarations and files -/

theorem Decl.isError_iff {d : Decl} : d.isError = true ↔ d.form = .error := by
  unfold Decl.isError
  split
  · next h => exact iff_of_true rfl h
  · next h => exact iff_of_false Bool.false_ne_true h

/-- Whether an item is a declaration that could not be read. -/
def Item.isErrorDecl : Item → Bool
  | .decl d => d.isError
  | .stmt _ => false

/-- An item has a part that could not be read if it is an error declaration itself or a node in it has
such a part. -/
theorem Item.flawed_iff (a : Item) :
    a.child.2.Flawed ↔ a.isErrorDecl = true ∨ AnyFlawed (roots a) := by
  cases a with
  | stmt s =>
    exact (anyFlawed_singleton (n := .stmt s)).symm.trans (or_iff_right Bool.false_ne_true).symm
  | decl d =>
    have self : isPlaceholder d.tree = d.isError := by
      obtain ⟨form, docs, attributes, span⟩ := d
      cases form with
      | type d => obtain ⟨sort, _⟩ := d; cases sort <;> rfl
      | _ => rfl
    show d.tree.Flawed ↔ d.isError = true ∨ AnyFlawed (roots d)
    rw [flawed_iff_picked, d.picked_tree, self]
    cases d.isError <;> simp [nodesPicked_ne_nil]

theorem SourceFile.flawed_iff {f : SourceFile} : f.tree.Flawed ↔ ∃ a ∈ f.items, a.child.2.Flawed := by
  rw [flawed_iff_picked, picked_tree]
  simp [flawed_iff_picked]

end Surface
