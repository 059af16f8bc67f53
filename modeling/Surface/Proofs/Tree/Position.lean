import Surface.Tree.View

/-!
# Positions in trees

Where a node stands is said by the steps that lead to it from the root: the kind of each node on
the way and the field of the child that follows. From the steps one reads off whether the node
stands in a type and whether it stands in the head of a conditional or match, and with that which
form an application must have.

Results:
* `Tree.Reaches`: the steps from a tree to a part of it.
* `Position`, `Position.into`: what the steps say about a place.
* `Tree.FormedAt`, `Tree.Formed`: an application has the form its place asks for, and so have all
  in a tree.
* `Tree.formed_node`, `FormedIn.append`: trees put together from formed parts.
-/

namespace Surface

/-- A step from a node to one of its children. -/
structure Step where
  kind : String
  field : String

/-- The steps that lead from a tree to a part of it. -/
inductive Tree.Reaches : Tree → List Step → Tree → Prop
  | here {t} : Reaches t [] t
  | into {t c steps u} : c ∈ t.children → Reaches c.2 steps u →
      Reaches t (⟨t.kind, c.1⟩ :: steps) u

/-! ## Places -/

/-- What is known about a place in a tree. -/
structure Position where
  /-- In a type. -/
  inType : Bool
  /-- In the head of a conditional or match. -/
  inHead : Bool
deriving DecidableEq

namespace Position

/-- The place of the root. -/
def outside : Position := ⟨false, false⟩

/-- Where types stand: behind parameters, declared names and constructors, between the
parentheses of a constructor, and behind the value of an ascription. -/
def typeFields : List (String × String) :=
  [("Parameter", "type"), ("Signature", "type"), ("ClassDecl", "type"), ("TraitDecl", "type"),
    ("DataDecl", "type"), ("TypedConstructor", "type"), ("FunctionConstructor", "parameter"),
    ("NamedParameter", "type"), ("Ann", "type")]

/-- Where heads stand. -/
def headFields : List (String × String) :=
  [("IfExpr", "condition"), ("IfStmt", "condition"), ("Match", "scrutinee")]

/-- What lies between parentheses or brackets. -/
def bracketFields : List (String × String) :=
  [("Tuple", "element"), ("Array", "element"), ("Pi", "parameter"), ("Sigma", "parameter")]

/-- Kinds of node whose children stand on their own: statements of blocks and parts of arms. -/
def ownKinds : List String := ["Block", "Arm"]

/-- The place of a child, given that of its parent. -/
def into (p : Position) (s : Step) : Position where
  inType := typeFields.contains (s.kind, s.field) || (!ownKinds.contains s.kind && p.inType)
  inHead := headFields.contains (s.kind, s.field)
    || (!ownKinds.contains s.kind && (!bracketFields.contains (s.kind, s.field) && p.inHead))

/-- The place that steps from the root lead to. -/
def along (steps : List Step) : Position := steps.foldl into outside

end Position

/-! ## Applications in their places -/

namespace Tree

/-- Whether a kind is that of an application. -/
def isApplicationKind (kind : String) : Bool := kind == "App" || kind == "TypeApp"

/-- An application is one of types if and only if it stands in a type, and has no block where it
stands in a head. -/
structure FormedAt (p : Position) (t : Tree) : Prop where
  form : t.kind = "App" ∨ t.kind = "TypeApp" → (t.kind = "TypeApp" ↔ p.inType = true)
  head : t.kind = "App" → p.inHead = true → t.child? "block" = none

/-- All applications in a tree that stands in some place have the forms their places ask for. -/
def Formed (p : Position) (t : Tree) : Prop :=
  ∀ steps u, t.Reaches steps u → u.FormedAt (steps.foldl Position.into p)

end Tree

theorem Tree.child?_eq_none {t : Tree} {field : String} (h : ∀ c ∈ t.children, c.1 ≠ field) :
    t.child? field = none := by
  have : t.under field = [] := by
    refine List.filterMap_eq_nil_iff.2 fun c hc => if_neg ?_
    rw [beq_iff_eq]
    exact h c hc
  rw [child?, this, List.head?_nil]

/-- Children of a node that stands in some place have applications of the right forms. -/
def FormedIn (p : Position) (kind : String) (cs : Children) : Prop :=
  ∀ c ∈ cs, c.2.Formed (p.into ⟨kind, c.1⟩)

section

variable {p q : Position} {kind field : String} {cs ds : Children} {t : Tree}

theorem Tree.Formed.at (h : t.Formed p) (e : p = q) : t.Formed q := e ▸ h

theorem Tree.formedAt_of_kind (h : isApplicationKind t.kind = false) : t.FormedAt p := by
  unfold isApplicationKind at h
  simp only [Bool.or_eq_false_iff, beq_eq_false_iff_ne] at h
  exact ⟨fun h' => absurd h' (not_or.2 h), fun h' => absurd h' h.1⟩

theorem Tree.formed_node {span : Span} (h : (Tree.node kind span cs).FormedAt p)
    (hc : FormedIn p kind cs) : (Tree.node kind span cs).Formed p := by
  intro steps u reach
  cases reach with
  | here => exact h
  | into hmem rest => exact hc _ hmem _ _ rest

/-- A node that is no application. -/
theorem Tree.formed_other {span : Span} (hk : isApplicationKind kind = false)
    (hc : FormedIn p kind cs) : (Tree.node kind span cs).Formed p :=
  formed_node (formedAt_of_kind hk) hc

theorem Tree.formed_token (text : String) (span : Span) : (Tree.token text span).Formed p := by
  intro steps u reach
  cases reach with
  | here => exact formedAt_of_kind rfl
  | into hmem _ => exact absurd hmem List.not_mem_nil

namespace FormedIn

theorem nil : FormedIn p kind [] := fun _ hc => absurd hc List.not_mem_nil

theorem cons (ht : t.Formed (p.into ⟨kind, field⟩)) (h : FormedIn p kind cs) :
    FormedIn p kind ((field, t) :: cs) := by
  intro c hc
  rcases List.mem_cons.1 hc with rfl | hc
  · exact ht
  · exact h c hc

theorem single (ht : t.Formed (p.into ⟨kind, field⟩)) : FormedIn p kind [(field, t)] :=
  cons ht nil

theorem append (h : FormedIn p kind cs) (h' : FormedIn p kind ds) : FormedIn p kind (cs ++ ds) :=
  fun c hc => (List.mem_append.1 hc).elim (h c) (h' c)

theorem all {ts : List Tree} (h : ∀ t ∈ ts, t.Formed (p.into ⟨kind, field⟩)) :
    FormedIn p kind (allUnder field ts) := by
  intro c hc
  obtain ⟨t, ht, rfl⟩ := List.mem_map.1 hc
  exact h t ht

end FormedIn

/-! ## Trees without applications -/

theorem Path.formed (x : Path) : x.tree.Formed p :=
  Tree.formed_other rfl (.all fun t ht => by
    obtain ⟨i, _, rfl⟩ := List.mem_map.1 ht
    exact Tree.formed_token i.name i.span)

theorem Literal.formedIn (v : Literal) (s : Span) : FormedIn p kind (v.children field s) := by
  refine .cons (Tree.formed_token _ _) ?_
  cases v with
  | number n =>
    show FormedIn p kind (n.parts s)
    unfold Number.parts
    split
    · exact .nil
    · refine .append (.append ?_ (.single (Tree.formed_token _ _))) ?_
      · split
        · exact .nil
        · exact .single (Tree.formed_token _ _)
      · cases n.suffix with
        | none => exact .nil
        | some x => exact .single (Tree.formed_token _ _)
  | _ => exact .nil

mutual

theorem Pattern.formed {p : Position} : (x : Pattern) → x.tree.Formed p
  | .cons _ path args => Tree.formed_other rfl (.cons path.formed (Pattern.args_formed args))
  | .rest _ => Tree.formed_other rfl .nil
  | .literal _ v => Tree.formed_other rfl (v.formedIn _)

theorem Pattern.args_formed {p : Position} {kind : String} :
    (xs : List Pattern) → FormedIn p kind (Pattern.argChildren xs)
  | [] => .nil
  | x :: xs => .cons x.formed (Pattern.args_formed xs)

end

end

end Surface
