import Surface.Proofs.Tree.Placed
import Surface.Token.TagSet

/-!
# Leaves of trees

The tokens of a tree that are names, literals or operators, in the order in which a walk meets
them. A token of a stream that is one of these is a leaf as well, with the same spelling.

Results:
* `Leaf`, `Tree.leaves`: the leaves of a tree.
* `TokenKind.leaf?`: what a token of a stream is as a leaf.
* `Tree.leaves_eq`: the leaves by recursion on the tree.
* `Tree.Opens`: where functions without parameters start in a tree.
-/

namespace Surface

/-- The sorts of leaf. -/
inductive LeafSort
  | name | literal | operator
deriving DecidableEq, Repr

/-- A name, a literal or an operator in its place. -/
structure Leaf where
  sort : LeafSort
  text : String
  span : Span
deriving DecidableEq, Repr

/-- The sort of a token under a field, if it is a leaf: names are the segments of paths and what
stands under `name`, literals what stands under `value` and `literal`. -/
def leafSort? (field : String) : Option LeafSort :=
  if field = "segment" ∨ field = "name" then some .name
  else if field = "value" ∨ field = "literal" then some .literal
  else if field = "operator" then some .operator
  else none

/-- What a token of a stream is as a leaf; a bar may be an operator. -/
def TokenKind.leaf? : TokenKind → Option (LeafSort × String)
  | ident n | symbolIdent n => some (.name, n)
  | number n => some (.literal, (Literal.number n).text)
  | string s => some (.literal, (Literal.string s).text)
  | char c => some (.literal, (Literal.char c).text)
  | operator s => some (.operator, s)
  | reserved .pipe => some (.operator, Reserved.pipe.text)
  | _ => none

/-- The tags of tokens that are always leaves, up to those that open functions. -/
def leafTags : TagSet := {.ident, .symbolIdent, .number, .string, .char, .operator}

namespace Tree

/-- What a walk meets as a leaf. -/
def Entry.leaf? (e : Entry) : Option Leaf :=
  match e.tree with
  | node _ _ _ => none
  | token text span => (leafSort? e.field).map fun sort => ⟨sort, text, span⟩

/-- The leaves of a tree in the order of a walk. -/
def leaves (t : Tree) : List Leaf := t.entries.filterMap Entry.leaf?

/-! ## Leaves by recursion -/

mutual

/-- The leaves of a tree under a field. -/
def leavesUnder (field : String) : Tree → List Leaf
  | node _ _ cs => childLeaves cs
  | token text span => ((leafSort? field).map fun sort => ⟨sort, text, span⟩).toList

/-- The leaves of children. -/
def childLeaves : List (String × Tree) → List Leaf
  | [] => []
  | (field, t) :: cs => leavesUnder field t ++ childLeaves cs

end

theorem childLeaves_cons (field : String) (t : Tree) (cs : List (String × Tree)) :
    childLeaves ((field, t) :: cs) = t.leavesUnder field ++ childLeaves cs := by
  rw [childLeaves]

theorem childLeaves_append (cs ds : List (String × Tree)) :
    childLeaves (cs ++ ds) = childLeaves cs ++ childLeaves ds := by
  induction cs with
  | nil => rw [childLeaves, List.nil_append, List.nil_append]
  | cons c cs ih => rw [List.cons_append, childLeaves, childLeaves, ih, List.append_assoc]

theorem leavesUnder_node (field kind : String) (span : Span) (cs : List (String × Tree)) :
    (node kind span cs).leavesUnder field = childLeaves cs := by
  rw [leavesUnder]

mutual

theorem filterMap_entriesOnto {depth : Nat} {field : String} {rest : List Entry} :
    (t : Tree) → (t.entriesOnto depth field rest).filterMap Entry.leaf?
      = t.leavesUnder field ++ rest.filterMap Entry.leaf?
  | node kind span cs => by
    rw [entriesOnto, leavesUnder, List.filterMap_cons_none rfl, filterMap_childEntriesOnto cs]
  | token text span => by
    rw [entriesOnto, leavesUnder, List.filterMap_cons]
    unfold Entry.leaf?
    cases leafSort? field <;> rfl

theorem filterMap_childEntriesOnto {depth : Nat} {rest : List Entry} :
    (cs : List (String × Tree)) → (childEntriesOnto depth cs rest).filterMap Entry.leaf?
      = childLeaves cs ++ rest.filterMap Entry.leaf?
  | [] => by rw [childEntriesOnto, childLeaves, List.nil_append]
  | (field, t) :: cs => by
    rw [childEntriesOnto, childLeaves, filterMap_entriesOnto t, filterMap_childEntriesOnto cs,
      List.append_assoc]

end

theorem leaves_eq (t : Tree) : t.leaves = t.leavesUnder "" := by
  unfold leaves entries
  rw [filterMap_entriesOnto, List.filterMap_nil, List.append_nil]

/-! ## Functions without parameters -/

/-- A node for a function without parameters. -/
def IsThunk (t : Tree) : Prop := t.kind = "Lambda" ∧ t.under "parameter" = []

/-- A function without parameters that is part of a tree starts at an offset. -/
def Opens (t : Tree) (offset : Nat) : Prop :=
  ∃ u, t.Part u ∧ u.IsThunk ∧ u.span.start = offset

theorem Opens.of_child {t : Tree} {c : String × Tree} {offset : Nat} (hc : c ∈ t.children)
    (h : c.2.Opens offset) : t.Opens offset := by
  obtain ⟨u, part, thunk, start⟩ := h
  exact ⟨u, (Part.child .self hc).trans part, thunk, start⟩

mutual

theorem mem_entriesOnto_of_mem {depth : Nat} {field : String} {rest : List Entry} {e : Entry} :
    (t : Tree) → e ∈ rest → e ∈ t.entriesOnto depth field rest
  | node kind span cs, h => by
    rw [entriesOnto]
    exact List.mem_cons_of_mem _ (mem_childEntriesOnto_of_mem cs h)
  | token text span, h => by
    rw [entriesOnto]
    exact List.mem_cons_of_mem _ h

theorem mem_childEntriesOnto_of_mem {depth : Nat} {rest : List Entry} {e : Entry} :
    (cs : List (String × Tree)) → e ∈ rest → e ∈ childEntriesOnto depth cs rest
  | [], h => h
  | (_, t) :: cs, h => by
    rw [childEntriesOnto]
    exact mem_entriesOnto_of_mem t (mem_childEntriesOnto_of_mem cs h)

end

mutual

theorem mem_entriesOnto_of_part {depth : Nat} {field : String} {rest : List Entry} {u : Tree} :
    (t : Tree) → t.Part u → ∃ e ∈ t.entriesOnto depth field rest, e.tree = u
  | node kind span cs, h => by
    rw [entriesOnto]
    rcases h.cases_child with rfl | ⟨c, hc, part⟩
    · exact ⟨_, List.mem_cons_self, rfl⟩
    · obtain ⟨e, he, tree⟩ := mem_childEntriesOnto_of_part cs hc part
      exact ⟨e, List.mem_cons_of_mem _ he, tree⟩
  | token text span, h => by
    rw [entriesOnto]
    rcases h.cases_child with rfl | ⟨c, hc, _⟩
    · exact ⟨_, List.mem_cons_self, rfl⟩
    · cases hc

theorem mem_childEntriesOnto_of_part {depth : Nat} {rest : List Entry} {u : Tree} :
    (cs : List (String × Tree)) → ∀ {c}, c ∈ cs → c.2.Part u →
      ∃ e ∈ childEntriesOnto depth cs rest, e.tree = u
  | [], _, hc, _ => absurd hc List.not_mem_nil
  | (field, t) :: cs, c, hc, h => by
    rw [childEntriesOnto]
    rcases List.mem_cons.1 hc with rfl | hc
    · exact mem_entriesOnto_of_part t h
    · obtain ⟨e, he, tree⟩ := mem_childEntriesOnto_of_part cs hc h
      exact ⟨e, mem_entriesOnto_of_mem t he, tree⟩

end

/-- A walk meets every part. -/
theorem mem_entries_of_part {t u : Tree} (h : t.Part u) : ∃ e ∈ t.entries, e.tree = u :=
  mem_entriesOnto_of_part t h

end Tree

end Surface
