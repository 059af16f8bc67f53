import Mathlib
import Surface.Proofs.Parsing.Text
import Surface.Proofs.Tree.Position

/-!
# The forms of applications

Whether an application is one of types, and whether it may take a block, is decided by a context
that the readers hand down. The context says no more than where the application stands in the
tree: what a rule derives in a context has the applications that fit the place with the same
flags.

Results:
* `Context.position`: the place a context tells of.
* `ExprAt.formed`, `StmtAt.formed`, `DeclAt.formed` and their likes: what the rules derive has
  applications of the right forms.
* `applications_by_position`: the applications of whole texts.
-/

namespace Surface

/-- What a context says about a place in the tree. -/
def Context.position (c : Context) : Position := ⟨c.inType, c.noTrailingBlock⟩

namespace Context

variable (c : Context)

theorem position_type : (c.union .type).position = ⟨true, c.noTrailingBlock⟩ := by
  simp [position, union, type, none]

theorem position_head : (c.nested.union .head).position = ⟨c.inType, true⟩ := by
  simp [position, union, nested, head, none]

theorem position_lambdaParams : (c.union .lambdaParams).position = c.position := by
  simp [position, union, lambdaParams, none]

theorem position_without_lambdaParams : (c.without .lambdaParams).position = c.position := by
  simp [position, without, lambdaParams, none]

theorem position_nested_type : (c.nested.union .type).position = ⟨true, false⟩ :=
  c.nested.position_type

end Context

namespace Grammar

variable {S : Setting} {b : Bool} {i j k : Nat}

/-! ## Expressions and statements -/

theorem fst_of_mem_exprs {field : String} {es : List Expr} :
    ∀ c ∈ Expr.children field es, c.1 = field := by
  induction es with
  | nil => exact fun _ hc => absurd hc List.not_mem_nil
  | cons e es ih => exact List.forall_mem_cons.2 ⟨rfl, ih⟩

/-- An application of types in a place inside a type. -/
theorem formedAt_typeApp {c : Context} (h : c.inType = true) {m : Mark} {f : Expr}
    {as : List Expr} : (Expr.typeApp m f as).tree.FormedAt c.position where
  form _ := ⟨fun _ => h, fun _ => rfl⟩
  head h' := absurd (show "TypeApp" = "App" from h') (by decide)

/-- An application outside of types, which has a block only where the context admits that. -/
theorem formedAt_app {c : Context} (h : c.inType = false) {m : Mark} {f : Expr} {as : List Expr}
    {t : Option Block} (ht : c.noTrailingBlock = true → t = none) :
    (Expr.app m f as t).tree.FormedAt c.position where
  form _ := by
    refine ⟨fun h' => absurd (show "App" = "TypeApp" from h') (by decide), fun h' => ?_⟩
    rw [show c.position.inType = false from h] at h'
    cases h'
  head _ hh := by
    obtain rfl := ht hh
    refine Tree.child?_eq_none fun c hc => ?_
    rcases List.mem_cons.1 hc with rfl | hc
    · exact show "callee" ≠ "block" by decide
    · rw [Block.optional, List.append_nil] at hc
      rw [fst_of_mem_exprs c hc]
      decide

theorem Setting.BlockNext.allowed {c : Context} (h : S.BlockNext c i) :
    c.noTrailingBlock = false := by
  have := h.1
  unfold Context.allowsTrailingBlock at this
  simp only [Bool.and_eq_true, Bool.not_eq_true'] at this
  exact this.2

mutual

theorem ExprAt.formed {c b i e j} : ExprAt S c b i e j → e.tree.Formed c.position
  | .binary _ h _ _ _ => h.formed
  | .arrow _ h _ h' _ => Tree.formed_other rfl (.cons h.formed (.single h'.formed))
  | .ascription _ h _ h' _ =>
    Tree.formed_other rfl (.cons h.formed (.single (h'.formed.at c.position_type)))
  | .pi _ _ h _ _ h' _ => Tree.formed_other rfl (.append (h.formed rfl) (.single h'.formed))
  | .sigma _ _ h _ _ h' _ => Tree.formed_other rfl (.append (h.formed rfl) (.single h'.formed))

theorem ChainAt.formed {c b i e j} : ChainAt S c b i e j → e.tree.Formed c.position
  | .one h => h.formed
  | .more h _ _ h' _ =>
    Tree.formed_other rfl (.cons h.formed (.cons (Tree.formed_token _ _) (.single h'.formed)))

theorem ApplicationAt.formed {c b i e j} : ApplicationAt S c b i e j → e.tree.Formed c.position
  | .bare h _ => h.formed
  | .types hc h h' _ => Tree.formed_node (formedAt_typeApp hc) (.cons h.formed (h'.formed rfl))
  | .plain hc h h' _ _ =>
    Tree.formed_node (formedAt_app hc fun _ => rfl) (.cons h.formed (.append (h'.formed rfl) .nil))
  | .block hc h h' hb h'' _ => by
    refine Tree.formed_node (formedAt_app hc fun head => ?_)
      (.cons h.formed (.append (h'.formed rfl) (.single h''.formed)))
    rw [hb.allowed] at head
    cases head

theorem ArgsAt.formed {p : Position} {kind : String} {c b i es j}
    (hp : p.into ⟨kind, "argument"⟩ = c.position) :
    ArgsAt S c b i es j → FormedIn p kind (Expr.children "argument" es)
  | .stop _ => .nil
  | .more _ h h' => .cons (h.formed.at hp.symm) (h'.formed hp)

theorem PrimaryAt.formed {c b i e j} : PrimaryAt S c b i e j → e.tree.Formed c.position
  | .literal (v := v) _ _ => Tree.formed_other rfl (v.formedIn _)
  | .name _ _ => Tree.formed_other rfl (.single (Tree.formed_token _ _))
  | .path _ _ => Tree.formed_other rfl (.single (Path.formed _))
  | .tuple _ h _ _ => by
    refine Tree.formed_other rfl (.append (h.formed rfl) ?_)
    split
    · exact .single (Tree.formed_token _ _)
    · exact .nil
  | .array _ h _ _ => Tree.formed_other rfl (h.formed rfl)
  | .conditional _ h h' _ h'' _ => Tree.formed_other rfl
      (.cons (h.formed.at c.position_head) (.cons h'.formed (.single h''.formed)))
  | .matchOn _ h _ h' _ _ =>
    Tree.formed_other rfl (.cons (h.formed.at c.position_head) h'.formed)
  | .returns _ _ h _ => Tree.formed_other rfl (.single h.formed)
  | .returnsNothing _ _ _ => Tree.formed_other rfl .nil
  | .lambda _ h _ h' _ => Tree.formed_other rfl (.append (h.formed c.position_lambdaParams.symm)
      (.single (h'.formed.at c.position_without_lambdaParams)))
  | .thunk _ h _ => Tree.formed_other rfl
      (.append .nil (.single (h.formed.at c.position_without_lambdaParams)))

theorem ExprsAt.formed {p : Position} {kind field : String} {t c b i es tr j}
    (hp : p.into ⟨kind, field⟩ = c.position) :
    ExprsAt S t c b i es tr j → FormedIn p kind (Expr.children field es)
  | .none _ => .nil
  | .last h _ _ => .single (h.formed.at hp.symm)
  | .more h _ h' => .cons (h.formed.at hp.symm) (h'.formed hp)

theorem ParamsAt.formed {p : Position} {kind : String} {t c b i ps tr j}
    (hp : p.into ⟨kind, "parameter"⟩ = c.position) :
    ParamsAt S t c b i ps tr j → FormedIn p kind (Param.children ps)
  | .none _ => .nil
  | .last h _ _ => .single (h.formed.at hp.symm)
  | .more h _ h' => .cons (h.formed.at hp.symm) (h'.formed hp)

theorem ParamAt.formed {c b i a j} : ParamAt S c b i a j → a.tree.Formed c.position
  | .typed (p := p) _ _ h _ =>
    Tree.formed_other rfl (.cons p.formed (.single (h.formed.at c.position_type)))
  | .untyped (p := p) _ _ _ => Tree.formed_other rfl (.cons p.formed .nil)

theorem ThenAt.formed {c b i t j} : ThenAt S c b i t j → t.tree.Formed c.position
  | .block _ h => h.formed
  | .expr _ h => h.formed

theorem BodyAt.formed {c b i t j} : BodyAt S c b i t j → t.tree.Formed c.position
  | .block _ h => h.formed
  | .expr _ h => h.formed

theorem ArmsAt.formed {p : Position} {i as j} : ArmsAt S i as j → FormedIn p "Match" (Arm.children as)
  | .none => .nil
  | .comma h _ h' | .broken h _ h' => .cons h.formed h'.formed
  | .last h _ => .single h.formed

/-- The parts of an arm stand on their own, wherever the arm stands. -/
theorem ArmAt.formed {p : Position} {i a j} : ArmAt S i a j → a.tree.Formed p
  | .mk (p := x) _ _ h _ => Tree.formed_other rfl (.cons x.formed (.single h.formed))

/-- The statements of a block stand on their own, wherever the block stands. -/
theorem BlockAt.formed {p : Position} {b i t j} : BlockAt S b i t j → t.tree.Formed p
  | .mk _ h _ _ => Tree.formed_other rfl h.formed

theorem StmtsAt.formed {p : Position} {i ss j} :
    StmtsAt S i ss j → FormedIn p "Block" (Stmt.children ss)
  | .none => .nil
  | .more h _ h' => .cons h.formed h'.formed
  | .error _ _ _ h => .cons (Tree.formed_other rfl .nil) h.formed

theorem StmtAt.formed {c b i s j} : StmtAt S c b i s j → s.tree.Formed c.position
  | .letIn (p := p) _ _ _ h _ => Tree.formed_other rfl (.cons p.formed (.single h.formed))
  | .conditional _ h h' _ _ =>
    Tree.formed_other rfl (.cons (h.formed.at c.position_head) (.cons h'.formed .nil))
  | .branches _ h h' _ h'' _ => Tree.formed_other rfl
      (.cons (h.formed.at c.position_head) (.cons h'.formed (.single h''.formed)))
  | .ask (p := p) _ _ _ _ _ h _ => Tree.formed_other rfl (.cons p.formed (.single h.formed))
  | .expr _ _ _ h _ => Tree.formed_other rfl (.single h.formed)

end

/-! ## Declarations -/

theorem ParamListAt.formed {l : ParamList} (h : ParamListAt S i l j) : l.tree.Formed .outside := by
  cases h with
  | explicit _ h _ _ => exact Tree.formed_other rfl (h.formed rfl)
  | implicit _ _ h _ _ => exact Tree.formed_other rfl (h.formed rfl)

theorem ParamListsAt.formed {ls : List ParamList} (h : ParamListsAt S i ls j) :
    ∀ l ∈ ls, l.tree.Formed .outside := by
  induction h with
  | stop _ => exact fun _ hl => absurd hl List.not_mem_nil
  | more h _ ih => exact List.forall_mem_cons.2 ⟨h.formed, ih⟩

theorem OptionalTypeAt.formed {t : Option Expr} {p : Position} {kind : String}
    (hp : p.into ⟨kind, "type"⟩ = ⟨true, false⟩) (h : OptionalTypeAt S i t j) :
    FormedIn p kind (Expr.optional "type" t) := by
  cases h with
  | some _ h => exact .single (h.formed.at hp.symm)
  | none _ => exact .nil

theorem OptionalBlockAt.formed {t : Option Block} {p : Position} {kind : String}
    (h : OptionalBlockAt S i t j) : FormedIn p kind (Block.optional "value" t) := by
  cases h with
  | some _ h => exact .single h.formed
  | none _ => exact .nil

/-- The lists of parameters behind a declared name. -/
theorem formedIn_params {ls : List ParamList} {kind : String}
    (hp : Position.into .outside ⟨kind, "arguments"⟩ = .outside) (h : ParamListsAt S i ls j) :
    FormedIn .outside kind (allUnder "arguments" (ls.map ParamList.tree)) := by
  refine .all fun t ht => ?_
  obtain ⟨l, hl, rfl⟩ := List.mem_map.1 ht
  exact (h.formed l hl).at hp.symm

theorem SignatureAt.formed {a : Signature} (h : SignatureAt S i a j) :
    FormedIn .outside "Signature" a.children := by
  obtain ⟨_, params, type, value, _⟩ := h
  exact .cons (Path.formed _)
    (.append (.append (formedIn_params rfl params) (type.formed rfl)) value.formed)

theorem ClauseAt.formed {a : Clause} (h : ClauseAt S i a j) :
    FormedIn .outside "Clause" a.children := by
  obtain ⟨_, _, value, _⟩ := h
  refine .cons (Path.formed _) (.append (Pattern.args_formed _) ?_)
  cases value with
  | some _ _ h => exact .single h.formed
  | none _ => exact .nil

theorem CtorParamAt.formed {a : CtorParam} (h : CtorParamAt S i a j) :
    a.tree.Formed ⟨true, false⟩ := by
  cases h with
  | named _ _ h =>
    exact Tree.formed_other rfl
      (.cons (Tree.formed_token _ _) (.single (h.formed.at (Context.position_nested_type _))))
  | positional _ h => exact h.formed.at (Context.position_nested_type _)

theorem Listed.of_mem {α : Type} {P : Nat → α → Nat → Prop} {t : Tag} {as : List α} {l : Bool}
    (h : Listed S t b P i as l j) {a : α} (ha : a ∈ as) : ∃ i j, P i a j := by
  induction h with
  | none _ => cases ha
  | last h _ _ =>
    obtain rfl := List.mem_singleton.1 ha
    exact ⟨_, _, h⟩
  | more h _ _ ih =>
    rcases List.mem_cons.1 ha with rfl | ha
    · exact ⟨_, _, h⟩
    · exact ih ha

theorem CtorAt.formed {a : Ctor} (h : CtorAt S i a j) : a.tree.Formed .outside := by
  obtain ⟨_, form, _⟩ := h
  cases form with
  | typed _ h => exact Tree.formed_other rfl (.cons (Path.formed _) (.single h.formed))
  | params _ h _ =>
    refine Tree.formed_other rfl (.cons (Path.formed _) (.all fun t ht => ?_))
    obtain ⟨a, ha, rfl⟩ := List.mem_map.1 ht
    obtain ⟨_, _, ha⟩ := h.of_mem ha
    exact ha.formed
  | bare _ _ => exact Tree.formed_other rfl (.cons (Path.formed _) .nil)

theorem CtorsAt.formed {as : List Ctor} (h : CtorsAt S i as j) :
    ∀ a ∈ as, a.tree.Formed .outside := by
  induction h with
  | none _ => exact fun _ ha => absurd ha List.not_mem_nil
  | last _ h _ => exact List.forall_mem_singleton.2 h.formed
  | more _ h _ _ _ ih => exact List.forall_mem_cons.2 ⟨h.formed, ih⟩

theorem MethodsAt.formed {as : List Signature} (h : MethodsAt S i as j) :
    ∀ a ∈ as, a.tree.Formed .outside := by
  induction h with
  | none _ => exact fun _ ha => absurd ha List.not_mem_nil
  | last _ h _ => exact List.forall_mem_singleton.2 (Tree.formed_other rfl h.formed)
  | more _ h _ _ ih => exact List.forall_mem_cons.2 ⟨Tree.formed_other rfl h.formed, ih⟩

theorem MembersAt.formed {sort : TypeSort} {cs : List Ctor} {ms : List Signature}
    (h : MembersAt S i sort cs ms j) :
    (∀ a ∈ cs, a.tree.Formed .outside) ∧ ∀ a ∈ ms, a.tree.Formed .outside := by
  have none {α : Type} {P : α → Prop} : ∀ a ∈ [], P a := fun _ ha => absurd ha List.not_mem_nil
  cases h with
  | trait h => exact ⟨none, h.formed⟩
  | methods _ _ h => exact ⟨none, h.formed⟩
  | ctors _ _ h _ => exact ⟨h.formed, none⟩
  | both _ _ h _ h' => exact ⟨h.formed, h'.formed⟩

theorem OptionalBodyAt.formed {sort : TypeSort} {t : Option TypeBody} {kind : String}
    (hp : Position.into .outside ⟨kind, "body"⟩ = .outside) (h : OptionalBodyAt S sort i t j) :
    FormedIn .outside kind (t.elim [] fun b => [("body", b.tree)]) := by
  cases h with
  | none _ => exact .nil
  | some _ h _ _ =>
    refine .single ((Tree.formed_other rfl (.append (.all fun t ht => ?_) (.all fun t ht => ?_))).at
      hp.symm)
    · obtain ⟨a, ha, rfl⟩ := List.mem_map.1 ht
      exact h.formed.1 a ha
    · obtain ⟨a, ha, rfl⟩ := List.mem_map.1 ht
      exact h.formed.2 a ha

theorem TypeDeclAt.formed {d : TypeDecl} (h : TypeDeclAt S i d j) :
    FormedIn .outside d.sort.kind d.children := by
  obtain @⟨v, _, sort, _, _, _, _, _, _, _, _, _, _, _, params, type, body⟩ := h
  refine .append ?_ (.cons (Path.formed _) (.append (.append (formedIn_params ?_ params)
    (type.formed ?_)) (body.formed ?_)))
  · cases v with
    | none => exact .nil
    | some v => exact .single (Tree.formed_token _ _)
  all_goals cases sort <;> rfl

theorem DeclFormAt.formed {f : DeclForm} (h : DeclFormAt S i f j) :
    FormedIn .outside f.kind f.children := by
  cases h with
  | uses _ _ => exact .single (Path.formed _)
  | command _ _ h => exact .cons (Path.formed _) (h.formed rfl)
  | type h => exact h.formed
  | clause _ _ h => exact h.formed
  | signature _ _ h => exact h.formed

theorem AttrAt.formed {a : Attribute} (h : AttrAt S i a j) : a.tree.Formed .outside := by
  obtain ⟨_, _, args, _⟩ := h
  refine Tree.formed_other rfl (.cons (Path.formed _) ?_)
  cases args with
  | some _ h _ => exact h.formed rfl
  | none _ => exact .nil

theorem AttrsAt.formed {as : List Attribute} (h : AttrsAt S i as j) :
    ∀ a ∈ as, a.tree.Formed .outside := by
  induction h with
  | stop _ => exact fun _ ha => absurd ha List.not_mem_nil
  | more h _ ih => exact List.forall_mem_cons.2 ⟨h.formed, ih⟩

theorem DeclForm.kind_other (f : DeclForm) : Tree.isApplicationKind f.kind = false := by
  cases f with
  | type d => cases h : d.sort <;> simp only [DeclForm.kind, h] <;> rfl
  | _ => rfl

theorem DeclForm.into_attribute (f : DeclForm) :
    Position.into .outside ⟨f.kind, "attribute"⟩ = .outside := by
  cases f with
  | type d => cases h : d.sort <;> simp only [DeclForm.kind, h] <;> rfl
  | _ => rfl

theorem DeclAt.formed {docsFrom : Nat} {d : Decl} (h : DeclAt S docsFrom i d j) :
    d.tree.Formed .outside := by
  obtain ⟨_, attrs, form, _⟩ := h
  refine Tree.formed_other (DeclForm.kind_other _) (.append (.append (.all fun t ht => ?_)
    (.all fun t ht => ?_)) form.formed)
  · obtain ⟨d, _, rfl⟩ := List.mem_map.1 ht
    exact Tree.formed_token _ _
  · obtain ⟨a, ha, rfl⟩ := List.mem_map.1 ht
    exact (attrs.formed a ha).at (DeclForm.into_attribute _).symm

/-! ## Items and files -/

theorem ItemAt.formed {docsFrom : Nat} {a : Item} (h : ItemAt S docsFrom i a j) :
    a.child.2.Formed .outside := by
  cases h with
  | decl _ _ h _ => exact h.formed
  | stmt _ _ h _ => exact h.formed
  | errorDecl _ _ _ _ => exact Tree.formed_other rfl .nil
  | errorStmt _ _ _ _ => exact Tree.formed_other rfl .nil

theorem ItemsAt.formed {docsFrom : Nat} {as : List Item} (h : ItemsAt S docsFrom i as) :
    ∀ a ∈ as, a.child.2.Formed .outside := by
  induction h with
  | stop _ => exact fun _ ha => absurd ha List.not_mem_nil
  | more _ h _ ih => exact List.forall_mem_cons.2 ⟨h.formed, ih⟩

theorem FileAt.formed {line : Option Shebang} {f : SourceFile} (h : FileAt S line f) :
    f.tree.Formed .outside := by
  obtain ⟨items, _, _⟩ := h
  refine Tree.formed_other rfl (.append ?_ fun c hc => ?_)
  · cases line with
    | none => exact .nil
    | some l => exact .single (Tree.formed_token _ _)
  · obtain ⟨a, ha, rfl⟩ := List.mem_map.1 hc
    refine (items.formed a ha).at ?_
    cases a <;> rfl

end Grammar

/-! ## Whole texts -/

/-- Where an application stands in the tree of a text decides its form: it is one of types if and
only if it stands in a type, and it has no block where it stands in the head of a conditional or
match. -/
theorem applications_by_position (source : String) (dialect : Dialect) {steps : List Step}
    {u : Tree} (h : (parseText source dialect).tree.Reaches steps u) :
    u.FormedAt (Position.along steps) :=
  (Grammar.parse_derives source.toList dialect).formed steps u h

theorem type_application_in_signature :
    let steps : List Step := [⟨"SourceFile", "declaration"⟩, ⟨"Signature", "type"⟩]
    let u : Tree := .node "TypeApp" ⟨4, 7⟩
      [("callee", .node "Identifier" ⟨4, 5⟩ [("name", .token "A" ⟨4, 5⟩)]),
        ("argument", .node "Identifier" ⟨6, 7⟩ [("name", .token "B" ⟨6, 7⟩)])]
    (parseText "f : A B" .declarationFiles).tree.Reaches steps u
      ∧ u.FormedAt (Position.along steps) := by
  intro steps u
  have tree : (parseText "f : A B" .declarationFiles).tree = .node "SourceFile" ⟨0, 7⟩
      [("declaration", .node "Signature" ⟨0, 7⟩
        [("name", .node "Path" ⟨0, 1⟩ [("segment", .token "f" ⟨0, 1⟩)]), ("type", u)])] := by
    cbv
  have reach : (parseText "f : A B" .declarationFiles).tree.Reaches steps u := by
    rw [tree]
    refine .into (c := ("declaration", _)) List.mem_cons_self ?_
    exact .into (c := ("type", u)) (List.mem_cons_of_mem _ List.mem_cons_self) .here
  exact ⟨reach, applications_by_position _ _ reach⟩

end Surface
