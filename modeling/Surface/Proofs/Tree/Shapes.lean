import Surface.Proofs.Tree.Bare
import Surface.Proofs.Tree.Quotations

/-!
# Shapes tell trees apart

A shape is read from the left. A node opens with a parenthesis and a token with a quotation mark; kinds
and fields are letters and underscores, so that they end before the blank, the colon or the parenthesis
behind them; and a quotation tells its text. So the shape of a tree says everything about it but its
spans, and where it ends.

Results:
* `Tree.shape_eq`: a shape as a list of characters.
* `Tree.Labelled`: trees whose kinds and fields can be read; `SourceFile.labelled`, `Decl.labelled`,
  `Stmt.labelled`, `Pattern.labelled`, `Expr.labelled`: those of the language.
* `Tree.shapeChars_injective`: the characters of a shape tell the tree without its spans, and what
  follows.
* `Tree.Viewed`: what a tree may be a view of; `Tree.Viewed.shape_eq_iff`: views have the same shape if
  and only if they are the same without their spans.
-/

namespace Surface

namespace Tree

/-! ## Shapes as characters -/

mutual

/-- The characters of a shape. -/
def shapeChars : Tree → List Char
  | node kind _ children => '(' :: (kind.toList ++ (childChars children ++ [')']))
  | token text _ => (Text.quoted text).toList

/-- The characters for children. -/
def childChars : List (String × Tree) → List Char
  | [] => []
  | (field, child) :: rest => ' ' :: (field.toList ++ ':' :: (child.shapeChars ++ childChars rest))

end

mutual

theorem writeShape_toList (out : String) : (t : Tree) →
    (writeShape out t).toList = out.toList ++ t.shapeChars
  | node kind _ children => by
    rw [writeShape, String.toList_append, writeChildShapes_toList _ children, shapeChars]
    simp
  | token text _ => by rw [writeShape, String.toList_append, shapeChars]

theorem writeChildShapes_toList (out : String) : (cs : List (String × Tree)) →
    (writeChildShapes out cs).toList = out.toList ++ childChars cs
  | [] => by rw [writeChildShapes, childChars, List.append_nil]
  | (field, child) :: rest => by
    rw [writeChildShapes, writeChildShapes_toList _ rest, writeShape_toList _ child, childChars]
    simp

end

theorem shape_eq (t : Tree) : t.shape = String.ofList t.shapeChars := by
  refine String.toList_inj.1 ?_
  rw [shape, writeShape_toList, String.toList_ofList (l := t.shapeChars)]
  exact List.nil_append _

/-! ## Kinds and fields -/

/-- Whether a character is part of a kind or a field. -/
def isLabelChar (c : Char) : Bool := c.isAlpha || c == '_'

/-- Whether a text may be a kind or a field. -/
def isLabel (s : String) : Bool := s.toList.all isLabelChar

/-- All kinds and fields in a tree are labels. -/
inductive Labelled : Tree → Prop
  | token (text : String) (span : Span) : Labelled (.token text span)
  | node {kind : String} {span : Span} {children : List (String × Tree)} (label : isLabel kind = true)
      (fields : ∀ c ∈ children, isLabel c.1 = true) (parts : ∀ c ∈ children, Labelled c.2) :
      Labelled (.node kind span children)

/-- The same for children. -/
structure AllLabelled (cs : List (String × Tree)) : Prop where
  fields : ∀ c ∈ cs, isLabel c.1 = true
  parts : ∀ c ∈ cs, Labelled c.2

theorem labelled_node {kind : String} {span : Span} {cs : List (String × Tree)}
    (label : isLabel kind = true) (h : AllLabelled cs) : (node kind span cs).Labelled :=
  .node label h.fields h.parts

theorem Labelled.label {kind : String} {span : Span} {cs : List (String × Tree)}
    (h : (Tree.node kind span cs).Labelled) : ∀ c ∈ kind.toList, isLabelChar c = true := by
  cases h with
  | node label _ _ => exact List.all_eq_true.1 label

theorem Labelled.children {kind : String} {span : Span} {cs : List (String × Tree)}
    (h : (Tree.node kind span cs).Labelled) : AllLabelled cs := by
  cases h with
  | node _ fields parts => exact ⟨fields, parts⟩

namespace AllLabelled

variable {field : String} {t : Tree} {cs ds : List (String × Tree)}

theorem nil : AllLabelled [] := ⟨nofun, nofun⟩

theorem cons (label : isLabel field = true) (ht : t.Labelled) (h : AllLabelled cs) :
    AllLabelled ((field, t) :: cs) :=
  ⟨List.forall_mem_cons.2 ⟨label, h.fields⟩, List.forall_mem_cons.2 ⟨ht, h.parts⟩⟩

theorem single (label : isLabel field = true) (ht : t.Labelled) : AllLabelled [(field, t)] :=
  cons label ht nil

theorem append (hc : AllLabelled cs) (hd : AllLabelled ds) : AllLabelled (cs ++ ds) :=
  ⟨List.forall_mem_append.2 ⟨hc.fields, hd.fields⟩, List.forall_mem_append.2 ⟨hc.parts, hd.parts⟩⟩

theorem all {ts : List Tree} (label : isLabel field = true) (h : ∀ t ∈ ts, t.Labelled) :
    AllLabelled (allUnder field ts) := by
  refine ⟨fun c hc => ?_, fun c hc => ?_⟩ <;> obtain ⟨t, mem, rfl⟩ := List.mem_map.1 hc
  · exact label
  · exact h t mem

theorem head {c : String × Tree} (h : AllLabelled (c :: cs)) :
    (∀ x ∈ c.1.toList, isLabelChar x = true) ∧ c.2.Labelled :=
  ⟨List.all_eq_true.1 (h.fields c List.mem_cons_self), h.parts c List.mem_cons_self⟩

theorem tail {c : String × Tree} (h : AllLabelled (c :: cs)) : AllLabelled cs :=
  ⟨fun d hd => h.fields d (List.mem_cons_of_mem c hd), fun d hd => h.parts d (List.mem_cons_of_mem c hd)⟩

end AllLabelled

/-! ## Reading shapes -/

/-- Behind a kind the children begin, or the parenthesis that closes the node. -/
theorem childChars_front (cs : List (String × Tree)) (rest : List Char) :
    ∃ c ds, childChars cs ++ ')' :: rest = c :: ds ∧ isLabelChar c = false := by
  cases cs with
  | nil => exact ⟨')', rest, rfl, rfl⟩
  | cons c cs => exact ⟨' ', _, rfl, rfl⟩

/-- A quotation is no node. -/
theorem quoted_ne_node (text : String) (cs ds : List Char) :
    (Text.quoted text).toList ++ cs ≠ '(' :: ds := by
  intro h
  rw [Text.quoted, String.toList_ofList, List.cons_append] at h
  exact absurd (List.cons.inj h).1 (by simp)

mutual

/-- The characters of a shape tell the tree without its spans and what follows. -/
theorem shapeChars_injective : (t u : Tree) → t.Labelled → u.Labelled → (cs ds : List Char) →
    t.shapeChars ++ cs = u.shapeChars ++ ds → t.bare = u.bare ∧ cs = ds
  | token text _, token text' _, _, _, cs, ds => fun h => by
    obtain ⟨rfl, behind⟩ := Text.quoted_append_injective h
    exact ⟨rfl, behind⟩
  | token text _, node _ _ _, _, _, cs, _ => fun h => absurd h (quoted_ne_node text cs _)
  | node _ _ _, token text _, _, _, _, ds => fun h => absurd h.symm (quoted_ne_node text ds _)
  | node kind _ children, node kind' _ children', ht, hu, cs, ds => fun h => by
    simp only [shapeChars, List.cons_append, List.append_assoc, List.nil_append] at h
    obtain ⟨c, rest, front, stops⟩ := childChars_front children cs
    obtain ⟨d, rest', front', stops'⟩ := childChars_front children' ds
    rw [front, front'] at h
    obtain ⟨kinds, behind⟩ :=
      Text.split_injective ht.label hu.label stops stops' (List.cons.inj h).2
    rw [← front, ← front'] at behind
    obtain ⟨same, behind⟩ := childChars_injective children children' ht.children hu.children cs ds behind
    exact ⟨bare_node (String.toList_inj.1 kinds) same _ _, behind⟩

/-- The characters for the children of a node tell them without their spans and what follows. -/
theorem childChars_injective : (as bs : List (String × Tree)) → AllLabelled as → AllLabelled bs →
    (cs ds : List Char) → childChars as ++ ')' :: cs = childChars bs ++ ')' :: ds →
    bareChildren as = bareChildren bs ∧ cs = ds
  | [], [], _, _, cs, ds, h => ⟨rfl, (List.cons.inj h).2⟩
  | [], (_, _) :: _, _, _, _, _, h => absurd (List.cons.inj h).1 (by simp)
  | (_, _) :: _, [], _, _, _, _, h => absurd (List.cons.inj h).1 (by simp)
  | (field, t) :: as, (field', u) :: bs, ha, hb, cs, ds, h => by
    simp only [childChars, List.cons_append, List.append_assoc] at h
    obtain ⟨(fields : field.toList = field'.toList), behind⟩ :=
      Text.split_injective ha.head.1 hb.head.1 rfl rfl (List.cons.inj h).2
    obtain ⟨same, behind⟩ := shapeChars_injective t u ha.head.2 hb.head.2 _ _ (List.cons.inj behind).2
    obtain ⟨others, behind⟩ := childChars_injective as bs ha.tail hb.tail cs ds behind
    refine ⟨?_, behind⟩
    rw [bareChildren, bareChildren, String.toList_inj.1 fields, same, others]

end

/-- Labelled trees have the same shape if and only if they are the same without their spans. -/
theorem shape_eq_iff_of_labelled {t u : Tree} (ht : t.Labelled) (hu : u.Labelled) :
    t.shape = u.shape ↔ t.bare = u.bare := by
  refine ⟨fun same => ?_, shape_eq_of_bare⟩
  have chars := congrArg String.toList same
  rw [shape_eq, shape_eq, String.toList_ofList, String.toList_ofList] at chars
  exact (shapeChars_injective t u ht hu [] [] (by rw [List.append_nil, List.append_nil, chars])).1

end Tree

open Surface.Tree

/-! ## Trees of the language -/

theorem Ident.labelled (i : Ident) : i.tree.Labelled := .token i.name i.span

theorem Path.labelled (p : Path) : p.tree.Labelled :=
  labelled_node rfl (.all rfl (List.forall_mem_map.2 fun i _ => i.labelled))

theorem Literal.allLabelled {field : String} (label : isLabel field = true) (l : Literal) (span : Span) :
    AllLabelled (l.children field span) := by
  refine .cons label (.token l.text span) ?_
  cases l with
  | string s => exact .nil
  | char c => exact .nil
  | number n =>
    dsimp only
    unfold Number.parts
    split
    · exact .nil
    · refine .append (.append ?_ (.single rfl (.token n.digits span))) ?_
      · split
        · exact .nil
        · exact .single rfl (.token n.base.mark span)
      · cases n.suffix with
        | none => exact .nil
        | some s => exact .single rfl (.token s.text span)

mutual

theorem Pattern.labelled : (p : Pattern) → p.tree.Labelled
  | .cons _ path args => labelled_node rfl (.cons rfl path.labelled (Pattern.args_allLabelled args))
  | .rest _ => labelled_node rfl .nil
  | .literal m l => labelled_node rfl (Literal.allLabelled rfl l m.span)

theorem Pattern.args_allLabelled : (ps : List Pattern) → AllLabelled (Pattern.argChildren ps)
  | [] => .nil
  | p :: ps => .cons rfl p.labelled (Pattern.args_allLabelled ps)

end

mutual

theorem Expr.labelled : (e : Expr) → e.tree.Labelled
  | .literal m l => labelled_node rfl (Literal.allLabelled rfl l m.span)
  | .name m n => labelled_node rfl (.single rfl (.token n m.span))
  | .path _ p => labelled_node rfl (.single rfl p.labelled)
  | .tuple _ es trailing => by
    refine labelled_node rfl (.append (Expr.allLabelled rfl es) ?_)
    split
    · exact .single rfl (.token "," _)
    · exact .nil
  | .array _ es => labelled_node rfl (Expr.allLabelled rfl es)
  | .conditional _ c t e =>
    labelled_node rfl (.cons rfl c.labelled (.cons rfl t.labelled (.single rfl e.labelled)))
  | .matchOn _ s arms => labelled_node rfl (.cons rfl s.labelled (Arm.allLabelled arms))
  | .returned _ v => labelled_node rfl (Expr.optional_allLabelled rfl v)
  | .app _ f es b =>
    labelled_node rfl (.cons rfl f.labelled
      (.append (Expr.allLabelled rfl es) (Block.optional_allLabelled rfl b)))
  | .typeApp _ f es => labelled_node rfl (.cons rfl f.labelled (Expr.allLabelled rfl es))
  | .lambda _ ps b => labelled_node rfl (.append (Param.allLabelled ps) (.single rfl b.labelled))
  | .arrow _ d c => labelled_node rfl (.cons rfl d.labelled (.single rfl c.labelled))
  | .pi _ ps c => labelled_node rfl (.append (Param.allLabelled ps) (.single rfl c.labelled))
  | .sigma _ ps c => labelled_node rfl (.append (Param.allLabelled ps) (.single rfl c.labelled))
  | .ascription _ v t => labelled_node rfl (.cons rfl v.labelled (.single rfl t.labelled))
  | .binary _ l op r =>
    labelled_node rfl (.cons rfl l.labelled (.cons rfl (.token op.symbols op.span) (.single rfl r.labelled)))

theorem Expr.allLabelled {field : String} (label : isLabel field = true) :
    (es : List Expr) → AllLabelled (Expr.children field es)
  | [] => .nil
  | e :: es => .cons label e.labelled (Expr.allLabelled label es)

theorem Expr.optional_allLabelled {field : String} (label : isLabel field = true) :
    (e : Option Expr) → AllLabelled (Expr.optional field e)
  | none => .nil
  | some e => .single label e.labelled

theorem Stmt.labelled : (s : Stmt) → s.tree.Labelled
  | .letIn _ p v => labelled_node rfl (.cons rfl p.labelled (.single rfl v.labelled))
  | .conditional _ c t e =>
    labelled_node rfl (.cons rfl c.labelled (.cons rfl t.labelled (Body.optional_allLabelled rfl e)))
  | .ask _ p v => labelled_node rfl (.cons rfl p.labelled (.single rfl v.labelled))
  | .expr _ v => labelled_node rfl (.single rfl v.labelled)
  | .error _ => labelled_node rfl .nil

theorem Stmt.allLabelled : (ss : List Stmt) → AllLabelled (Stmt.children ss)
  | [] => .nil
  | s :: ss => .cons rfl s.labelled (Stmt.allLabelled ss)

theorem Block.labelled : (b : Block) → b.tree.Labelled
  | ⟨stmts, _⟩ => labelled_node rfl (Stmt.allLabelled stmts)

theorem Block.optional_allLabelled {field : String} (label : isLabel field = true) :
    (b : Option Block) → AllLabelled (Block.optional field b)
  | none => .nil
  | some b => .single label b.labelled

theorem Body.labelled : (b : Body) → b.tree.Labelled
  | .block b => b.labelled
  | .expr e => e.labelled

theorem Body.optional_allLabelled {field : String} (label : isLabel field = true) :
    (b : Option Body) → AllLabelled (Body.optional field b)
  | none => .nil
  | some b => .single label b.labelled

theorem Arm.labelled : (a : Arm) → a.tree.Labelled
  | ⟨p, b, _⟩ => labelled_node rfl (.cons rfl p.labelled (.single rfl b.labelled))

theorem Arm.allLabelled : (as : List Arm) → AllLabelled (Arm.children as)
  | [] => .nil
  | a :: as => .cons rfl a.labelled (Arm.allLabelled as)

theorem Param.labelled : (p : Param) → p.tree.Labelled
  | ⟨p, type, _⟩ => labelled_node rfl (.cons rfl p.labelled (Expr.optional_allLabelled rfl type))

theorem Param.allLabelled : (ps : List Param) → AllLabelled (Param.children ps)
  | [] => .nil
  | p :: ps => .cons rfl p.labelled (Param.allLabelled ps)

end

/-! ## Declarations and files -/

theorem Attribute.labelled (a : Attribute) : a.tree.Labelled :=
  labelled_node rfl (.cons rfl a.path.labelled (Expr.allLabelled rfl _))

theorem ParamList.labelled (l : ParamList) : l.tree.Labelled := by
  refine labelled_node ?_ (Param.allLabelled l.params)
  split <;> rfl

theorem ParamList.allLabelled (ls : List ParamList) :
    AllLabelled (allUnder "arguments" (ls.map ParamList.tree)) :=
  .all rfl (List.forall_mem_map.2 fun l _ => l.labelled)

theorem CtorParam.labelled (p : CtorParam) : p.tree.Labelled := by
  cases p with
  | positional t => exact t.labelled
  | named n t => exact labelled_node rfl (.cons rfl n.labelled (.single rfl t.labelled))

theorem Ctor.labelled (c : Ctor) : c.tree.Labelled := by
  unfold Ctor.tree
  split
  · next t _ => exact labelled_node rfl (.cons rfl c.name.labelled (.single rfl t.labelled))
  · exact labelled_node rfl
      (.cons rfl c.name.labelled (.all rfl (List.forall_mem_map.2 fun p _ => p.labelled)))

theorem Signature.allLabelled (s : Signature) : AllLabelled s.children :=
  .cons rfl s.name.labelled (.append (.append (ParamList.allLabelled s.params)
    (Expr.optional_allLabelled rfl s.type)) (Block.optional_allLabelled rfl s.value))

theorem TypeBody.labelled (b : TypeBody) : b.tree.Labelled :=
  labelled_node rfl (.append (.all rfl (List.forall_mem_map.2 fun c _ => c.labelled))
    (.all rfl (List.forall_mem_map.2 fun s _ => labelled_node rfl s.allLabelled)))

theorem TypeDecl.allLabelled (d : TypeDecl) : AllLabelled d.children := by
  refine .append ?_ (.cons rfl d.name.labelled (.append (.append (ParamList.allLabelled d.params)
    (Expr.optional_allLabelled rfl d.type)) ?_))
  · cases d.visibility with
    | none => exact .nil
    | some v => exact .single rfl (.token v.1.keyword.text v.2)
  · cases d.body with
    | none => exact .nil
    | some b => exact .single rfl b.labelled

theorem DeclForm.allLabelled (f : DeclForm) : AllLabelled f.children := by
  cases f with
  | uses p => exact .single rfl p.labelled
  | command n args => exact .cons rfl n.labelled (Expr.allLabelled rfl args)
  | type d => exact d.allLabelled
  | signature s => exact s.allLabelled
  | clause c =>
    exact .cons rfl c.name.labelled (.append (Pattern.args_allLabelled c.patterns)
      (Expr.optional_allLabelled rfl c.value))
  | error => exact .nil

theorem DeclForm.isLabel_kind (f : DeclForm) : isLabel f.kind = true := by
  cases f with
  | uses _ => exact (rfl : isLabel "Using" = true)
  | command _ _ => exact (rfl : isLabel "Command" = true)
  | type d =>
    show isLabel d.sort.kind = true
    cases d.sort <;> rfl
  | signature _ => exact (rfl : isLabel "Signature" = true)
  | clause _ => exact (rfl : isLabel "Clause" = true)
  | error => exact (rfl : isLabel "ErrorDecl" = true)

theorem Decl.labelled (d : Decl) : d.tree.Labelled :=
  labelled_node d.form.isLabel_kind (.append (.append
    (.all rfl (List.forall_mem_map.2 fun s _ => .token s.content s.span))
    (.all rfl (List.forall_mem_map.2 fun a _ => a.labelled))) d.form.allLabelled)

theorem SourceFile.labelled (f : SourceFile) : f.tree.Labelled := by
  refine labelled_node rfl (.append ?_ ?_)
  · cases f.shebang with
    | none => exact .nil
    | some s => exact .single rfl (.token "#!" s.span)
  · refine ⟨List.forall_mem_map.2 fun i _ => ?fields, List.forall_mem_map.2 fun i _ => ?parts⟩
    case fields =>
      cases i with
      | decl d => exact (rfl : isLabel "declaration" = true)
      | stmt s => exact (rfl : isLabel "statement" = true)
    case parts =>
      cases i with
      | decl d => exact d.labelled
      | stmt s => exact s.labelled

/-! ## Views -/

namespace Tree

/-- What is a view: the tree of a file, or of a part of one, and what is in a view. -/
inductive Viewed : Tree → Prop
  | file (f : SourceFile) : Viewed f.tree
  | decl (d : Decl) : Viewed d.tree
  | path (p : Path) : Viewed p.tree
  | block (b : Block) : Viewed b.tree
  | stmt (s : Stmt) : Viewed s.tree
  | pattern (p : Pattern) : Viewed p.tree
  | expr (e : Expr) : Viewed e.tree
  | child {t : Tree} {c : String × Tree} (h : Viewed t) (mem : c ∈ t.children) : Viewed c.2

theorem Viewed.labelled {t : Tree} (h : t.Viewed) : t.Labelled := by
  induction h with
  | file f => exact f.labelled
  | decl d => exact d.labelled
  | path p => exact p.labelled
  | block b => exact b.labelled
  | stmt s => exact s.labelled
  | pattern p => exact p.labelled
  | expr e => exact e.labelled
  | child _ mem ih =>
    cases ih with
    | token text span => cases mem
    | node label fields parts => exact parts _ mem

/-- Views have the same shape if and only if they are the same without their spans: the same kinds, the
same fields in the same order, the same children and the same texts. -/
theorem Viewed.shape_eq_iff {t u : Tree} (ht : t.Viewed) (hu : u.Viewed) :
    t.shape = u.shape ↔ t.bare = u.bare :=
  shape_eq_iff_of_labelled ht.labelled hu.labelled

/-- Two names at different places, spelled with characters that stand for themselves otherwise. -/
theorem Viewed.shape_eq_iff_escaped :
    let e : Expr := .name ⟨0, ⟨0, 4⟩⟩ "a\") b"
    let f : Expr := .name ⟨1, ⟨7, 9⟩⟩ "a\") b"
    e.tree.Viewed ∧ f.tree.Viewed ∧ (e.tree.shape = f.tree.shape ↔ e.tree.bare = f.tree.bare)
      ∧ e.tree.shape = "(Identifier name:\"a\\\") b\")" := by
  intro e f
  refine ⟨.expr e, .expr f, (Viewed.expr e).shape_eq_iff (.expr f), by decide +kernel⟩

end Tree

end Surface
