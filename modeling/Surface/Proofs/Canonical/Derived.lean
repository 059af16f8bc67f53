import Surface.Proofs.Canonical.Pruned
import Surface.Proofs.Printing.Names

/-!
# Details that are derived

The details of a tree that the rules derive are derived themselves. So what the rules ask of their parts
holds of the details: the names of a path are names of tokens, what stands before an arrow is no group,
and no statement of a block is one that could not be read if nothing is given up.

Results:
* `Setting.Derives`: what is derived for a detail.
* `ExprAt.derives`, ..., `FileAt.derives`: the details of nodes.
* `Setting.Derives.whole`, `Setting.Derives.kept`, `FileAt.pruned_eq`: what follows without errors.
-/

namespace Surface.Grammar

/-- How a detail is derived. -/
def Setting.Derives (S : Setting) : Detail → Prop
  | .path ns => ∀ n ∈ ns, ∃ i, (S.kind i).name? = some n
  | .function ps => ∃ t c b i tr j, ParamsAt S t c b i ps tr j
  | .domain d => ∃ c b i j, S.binds b i = false ∧ ChainAt S c b i d j ∧ S.tag j = .reserved .arrow
  | .block ss => ∃ i j, StmtsAt S i ss j
  | .parameter t => ∃ c i j, ¬ (nameTags.contains (S.tag i) ∧ S.tag (i + 1) = .punct .colon)
    ∧ ExprAt S c true i t j

variable {S : Setting} {b : Bool} {i j : Nat}

/-! ## Patterns, expressions and statements -/

theorem Setting.NameAt.derives {x : Ident} (h : S.NameAt i x) : S.Derives (.path [x.name]) :=
  List.forall_mem_singleton.2 ⟨i, h.1⟩

theorem SegmentsAt.derives {xs : List Ident} (h : SegmentsAt S b i xs j) :
    S.Derives (.path (xs.map Ident.name)) := by
  induction h with
  | stop _ => exact nofun
  | more _ h _ ih => exact List.forall_mem_cons.2 ⟨⟨_, h.1⟩, ih⟩

theorem PathAt.derives {p : Path} (h : PathAt S b i p j) : S.Derives (.path p.names) :=
  List.forall_mem_cons.2 ⟨⟨i, h.head.1⟩, h.tail.derives⟩

mutual

theorem AtomAt.derives {b i p j} : AtomAt S b i p j → ∀ x ∈ p.details, S.Derives x
  | .literal _ _ | .rest _ _ => nofun
  | .path h _ => List.forall_mem_singleton.2 h.derives
  | .group _ h _ => h.derives

theorem PatternAt.derives {b i p j} : PatternAt S b i p j → ∀ x ∈ p.details, S.Derives x
  | .cons h hs _ => List.forall_mem_cons.2 ⟨h.derives, hs.derives⟩
  | .atom _ h => h.derives

theorem PatternArgsAt.derives {b i ps j} : PatternArgsAt S b i ps j →
    ∀ x ∈ Pattern.allDetails ps, S.Derives x
  | .stop _ => nofun
  | .more h hs => List.forall_mem_append.2 ⟨h.derives, hs.derives⟩

end

mutual

theorem ExprAt.derives {c b i e j} : ExprAt S c b i e j → ∀ x ∈ e.details, S.Derives x
  | .binary _ h _ _ _ => h.derives
  | .arrow binds h arrow h' _ => List.forall_mem_cons.2
    ⟨⟨_, _, _, _, binds, h, arrow⟩, List.forall_mem_append.2 ⟨h.derives, h'.derives⟩⟩
  | .ascription _ h _ h' _ => List.forall_mem_append.2 ⟨h.derives, h'.derives⟩
  | .pi _ _ h _ _ h' _ | .sigma _ _ h _ _ h' _ => List.forall_mem_append.2 ⟨h.derives, h'.derives⟩

theorem ChainAt.derives {c b i e j} : ChainAt S c b i e j → ∀ x ∈ e.details, S.Derives x
  | .one h => h.derives
  | .more h _ _ h' _ => List.forall_mem_append.2 ⟨h.derives, h'.derives⟩

theorem ApplicationAt.derives {c b i e j} : ApplicationAt S c b i e j → ∀ x ∈ e.details, S.Derives x
  | .bare h _ => h.derives
  | .types _ h h' _ => List.forall_mem_append.2 ⟨h.derives, h'.derives⟩
  | .plain _ h h' _ _ =>
    List.forall_mem_append.2 ⟨h.derives, List.forall_mem_append.2 ⟨h'.derives, nofun⟩⟩
  | .block _ h h' _ h'' _ =>
    List.forall_mem_append.2 ⟨h.derives, List.forall_mem_append.2 ⟨h'.derives, h''.derives⟩⟩

theorem ArgsAt.derives {c b i es j} : ArgsAt S c b i es j → ∀ x ∈ Expr.allDetails es, S.Derives x
  | .stop _ => nofun
  | .more _ h hs => List.forall_mem_append.2 ⟨h.derives, hs.derives⟩

theorem PrimaryAt.derives {c b i e j} : PrimaryAt S c b i e j → ∀ x ∈ e.details, S.Derives x
  | .literal _ _ | .returnsNothing _ _ _ => nofun
  | .name h _ | .path h _ => List.forall_mem_singleton.2 h.derives
  | .tuple _ h _ _ | .array _ h _ _ => h.derives
  | .conditional _ h h' _ h'' _ =>
    List.forall_mem_append.2 ⟨h.derives, List.forall_mem_append.2 ⟨h'.derives, h''.derives⟩⟩
  | .matchOn _ h _ h' _ _ => List.forall_mem_append.2 ⟨h.derives, h'.derives⟩
  | .returns _ _ h _ => h.derives
  | .lambda _ h _ h' _ => List.forall_mem_cons.2
    ⟨⟨_, _, _, _, _, _, h⟩, List.forall_mem_append.2 ⟨h.derives, h'.derives⟩⟩
  | .thunk _ h _ => List.forall_mem_cons.2
    ⟨⟨_, .none, false, 0, _, _, .none rfl⟩, List.forall_mem_append.2 ⟨nofun, h.derives⟩⟩

theorem ExprsAt.derives {t c b i es tr j} : ExprsAt S t c b i es tr j →
    ∀ x ∈ Expr.allDetails es, S.Derives x
  | .none _ => nofun
  | .last h _ _ => List.forall_mem_append.2 ⟨h.derives, nofun⟩
  | .more h _ hs => List.forall_mem_append.2 ⟨h.derives, hs.derives⟩

theorem ParamsAt.derives {t c b i ps tr j} : ParamsAt S t c b i ps tr j →
    ∀ x ∈ Param.allDetails ps, S.Derives x
  | .none _ => nofun
  | .last h _ _ => List.forall_mem_append.2 ⟨h.derives, nofun⟩
  | .more h _ hs => List.forall_mem_append.2 ⟨h.derives, hs.derives⟩

theorem ParamAt.derives {c b i a j} : ParamAt S c b i a j → ∀ x ∈ a.details, S.Derives x
  | .typed h _ h' _ => List.forall_mem_append.2 ⟨h.derives, h'.derives⟩
  | .untyped h _ _ => List.forall_mem_append.2 ⟨h.derives, nofun⟩

theorem ThenAt.derives {c b i t j} : ThenAt S c b i t j → ∀ x ∈ t.details, S.Derives x
  | .block _ h => h.derives
  | .expr _ h => h.derives

theorem BodyAt.derives {c b i t j} : BodyAt S c b i t j → ∀ x ∈ t.details, S.Derives x
  | .block _ h => h.derives
  | .expr _ h => h.derives

theorem ArmsAt.derives {i as j} : ArmsAt S i as j → ∀ x ∈ Arm.allDetails as, S.Derives x
  | .none => nofun
  | .comma h _ hs | .broken h _ hs => List.forall_mem_append.2 ⟨h.derives, hs.derives⟩
  | .last h _ => List.forall_mem_append.2 ⟨h.derives, nofun⟩

theorem ArmAt.derives {i a j} : ArmAt S i a j → ∀ x ∈ a.details, S.Derives x
  | .mk h _ h' _ => List.forall_mem_append.2 ⟨h.derives, h'.derives⟩

theorem BlockAt.derives {b i t j} : BlockAt S b i t j → ∀ x ∈ t.details, S.Derives x
  | .mk _ h _ _ => List.forall_mem_cons.2 ⟨⟨_, _, h⟩, h.derives⟩

theorem StmtsAt.derives {i ss j} : StmtsAt S i ss j → ∀ x ∈ Stmt.allDetails ss, S.Derives x
  | .none => nofun
  | .more h _ hs => List.forall_mem_append.2 ⟨h.derives, hs.derives⟩
  | .error _ _ _ hs => List.forall_mem_append.2 ⟨nofun, hs.derives⟩

theorem StmtAt.derives {c b i s j} : StmtAt S c b i s j → ∀ x ∈ s.details, S.Derives x
  | .letIn _ h _ h' _ | .ask _ _ _ h _ h' _ => List.forall_mem_append.2 ⟨h.derives, h'.derives⟩
  | .conditional _ h h' _ _ =>
    List.forall_mem_append.2 ⟨h.derives, List.forall_mem_append.2 ⟨h'.derives, nofun⟩⟩
  | .branches _ h h' _ h'' _ =>
    List.forall_mem_append.2 ⟨h.derives, List.forall_mem_append.2 ⟨h'.derives, h''.derives⟩⟩
  | .expr _ _ _ h _ => h.derives

end

/-! ## Declarations and files -/

theorem ParamListAt.derives {a : ParamList} (h : ParamListAt S i a j) : ∀ x ∈ a.details, S.Derives x := by
  cases h with
  | explicit _ h _ _ => exact h.derives
  | implicit _ _ h _ _ => exact h.derives

theorem ParamListsAt.derives {as : List ParamList} (h : ParamListsAt S i as j) :
    ∀ x ∈ as.flatMap ParamList.details, S.Derives x := by
  induction h with
  | stop _ => exact nofun
  | more h _ ih => exact List.forall_mem_append.2 ⟨h.derives, ih⟩

theorem OptionalTypeAt.derives {t : Option Expr} (h : OptionalTypeAt S i t j) :
    ∀ x ∈ Expr.optionalDetails t, S.Derives x := by
  cases h with
  | some _ h => exact h.derives
  | none _ => exact nofun

theorem SignatureAt.derives {a : Signature} (h : SignatureAt S i a j) : ∀ x ∈ a.details, S.Derives x := by
  obtain ⟨name, params, type, value, _⟩ := h
  refine List.forall_mem_cons.2 ⟨name.derives, List.forall_mem_append.2 ⟨params.derives,
    List.forall_mem_append.2 ⟨type.derives, ?_⟩⟩⟩
  cases value with
  | some _ h => exact h.derives
  | none _ => exact nofun

theorem ClausePatternsAt.derives {ps : List Pattern} (h : ClausePatternsAt S i ps j) :
    ∀ x ∈ Pattern.allDetails ps, S.Derives x := by
  induction h with
  | stop _ => exact nofun
  | more _ h _ ih => exact List.forall_mem_append.2 ⟨h.derives, ih⟩

theorem ClauseAt.derives {a : Clause} (h : ClauseAt S i a j) : ∀ x ∈ a.details, S.Derives x := by
  obtain ⟨name, patterns, value, _⟩ := h
  refine List.forall_mem_cons.2 ⟨name.derives, List.forall_mem_append.2 ⟨patterns.derives, ?_⟩⟩
  cases value with
  | some _ _ h => exact h.derives
  | none _ => exact nofun

theorem CtorParamAt.derives {a : CtorParam} (h : CtorParamAt S i a j) : ∀ x ∈ a.details, S.Derives x := by
  cases h with
  | named hx _ h => exact List.forall_mem_cons.2 ⟨hx.derives, h.derives⟩
  | positional no h => exact List.forall_mem_cons.2 ⟨⟨_, _, _, no, h⟩, h.derives⟩

theorem Listed.derives {α : Type} {P : Nat → α → Nat → Prop} {details : α → List Detail} {t : Tag}
    {as : List α} {f : Bool} (hP : ∀ i a j, P i a j → ∀ x ∈ details a, S.Derives x)
    (h : Listed S t b P i as f j) : ∀ x ∈ as.flatMap details, S.Derives x := by
  induction h with
  | none _ => exact nofun
  | last h _ _ => exact List.forall_mem_append.2 ⟨hP _ _ _ h, nofun⟩
  | more h _ _ ih => exact List.forall_mem_append.2 ⟨hP _ _ _ h, ih⟩

theorem CtorAt.derives {a : Ctor} (h : CtorAt S i a j) : ∀ x ∈ a.details, S.Derives x := by
  obtain ⟨name, form, _⟩ := h
  refine List.forall_mem_cons.2 ⟨name.derives, ?_⟩
  cases form with
  | typed _ h => exact h.derives
  | params _ h _ => exact h.derives fun _ _ _ h => h.derives
  | bare _ _ => exact nofun

theorem CtorsAt.derives {as : List Ctor} (h : CtorsAt S i as j) :
    ∀ x ∈ as.flatMap Ctor.details, S.Derives x := by
  induction h with
  | none _ => exact nofun
  | last _ h _ => exact List.forall_mem_append.2 ⟨h.derives, nofun⟩
  | more _ h _ _ _ ih => exact List.forall_mem_append.2 ⟨h.derives, ih⟩

theorem MethodsAt.derives {as : List Signature} (h : MethodsAt S i as j) :
    ∀ x ∈ as.flatMap Signature.details, S.Derives x := by
  induction h with
  | none _ => exact nofun
  | last _ h _ => exact List.forall_mem_append.2 ⟨h.derives, nofun⟩
  | more _ h _ _ ih => exact List.forall_mem_append.2 ⟨h.derives, ih⟩

theorem OptionalBodyAt.derives {sort : TypeSort} {t : Option TypeBody} (h : OptionalBodyAt S sort i t j) :
    ∀ x ∈ t.elim [] TypeBody.details, S.Derives x := by
  cases h with
  | none _ => exact nofun
  | some _ h _ _ =>
    refine List.forall_mem_append.2 ?_
    cases h with
    | trait h | methods _ _ h => exact ⟨nofun, h.derives⟩
    | ctors _ _ h _ => exact ⟨h.derives, nofun⟩
    | both _ _ h _ h' => exact ⟨h.derives, h'.derives⟩

theorem TypeDeclAt.derives {a : TypeDecl} (h : TypeDeclAt S i a j) : ∀ x ∈ a.details, S.Derives x := by
  obtain ⟨_, _, name, params, type, body⟩ := h
  exact List.forall_mem_cons.2 ⟨name.derives, List.forall_mem_append.2 ⟨params.derives,
    List.forall_mem_append.2 ⟨type.derives, body.derives⟩⟩⟩

theorem DeclFormAt.derives {a : DeclForm} (h : DeclFormAt S i a j) : ∀ x ∈ a.details, S.Derives x := by
  cases h with
  | uses _ h => exact List.forall_mem_singleton.2 h.derives
  | command _ hn has => exact List.forall_mem_cons.2 ⟨hn.derives, has.derives⟩
  | type h => exact h.derives
  | clause _ _ h => exact h.derives
  | signature _ _ h => exact h.derives

theorem AttrAt.derives {a : Attribute} (h : AttrAt S i a j) : ∀ x ∈ a.details, S.Derives x := by
  obtain ⟨_, path, args, _⟩ := h
  refine List.forall_mem_cons.2 ⟨path.derives, ?_⟩
  cases args with
  | some _ h _ => exact h.derives
  | none _ => exact nofun

theorem AttrsAt.derives {as : List Attribute} (h : AttrsAt S i as j) :
    ∀ x ∈ as.flatMap Attribute.details, S.Derives x := by
  induction h with
  | stop _ => exact nofun
  | more h _ ih => exact List.forall_mem_append.2 ⟨h.derives, ih⟩

theorem ItemAt.derives {docsFrom : Nat} {a : Item} (h : ItemAt S docsFrom i a j) :
    ∀ x ∈ a.details, S.Derives x := by
  cases h with
  | decl _ _ h _ =>
    obtain ⟨_, attrs, form, _⟩ := h
    exact List.forall_mem_append.2 ⟨attrs.derives, form.derives⟩
  | stmt _ _ h _ => exact h.derives
  | errorDecl _ _ _ _ | errorStmt _ _ _ _ => exact nofun

theorem ItemsAt.derives {docsFrom : Nat} {as : List Item} (h : ItemsAt S docsFrom i as) :
    ∀ x ∈ as.flatMap Item.details, S.Derives x := by
  induction h with
  | stop _ => exact nofun
  | more _ h _ ih => exact List.forall_mem_append.2 ⟨h.derives, ih⟩

theorem FileAt.derives {line : Option Shebang} {f : SourceFile} (h : FileAt S line f) :
    ∀ x ∈ f.details, S.Derives x := by
  obtain ⟨items, _, _⟩ := h
  exact items.derives

/-! ## Details of a text without errors -/

theorem StmtAt.isError_eq {c : Context} {s : Stmt} (h : StmtAt S c b i s j) : s.isError = false := by
  cases h <;> rfl

theorem StmtsAt.isError_eq (ok : ¬ S.flawed) {i ss j} : StmtsAt S i ss j → ∀ s ∈ ss, s.isError = false
  | .none => nofun
  | .more h _ hs => List.forall_mem_cons.2 ⟨h.isError_eq, hs.isError_eq ok⟩
  | .error hf _ _ _ => absurd hf ok

theorem ItemAt.isError_eq (ok : ¬ S.flawed) {docsFrom : Nat} {a : Item} (h : ItemAt S docsFrom i a j) :
    a.isError = false := by
  cases h with
  | decl _ _ h _ =>
    obtain ⟨_, _, form, _⟩ := h
    cases form <;> rfl
  | stmt _ _ h _ => exact h.isError_eq
  | errorDecl hf _ _ _ | errorStmt hf _ _ _ => exact absurd hf ok

theorem ItemsAt.isError_eq (ok : ¬ S.flawed) {docsFrom : Nat} {as : List Item}
    (h : ItemsAt S docsFrom i as) :
    ∀ a ∈ as, a.isError = false := by
  induction h with
  | stop _ => exact nofun
  | more _ h _ ih => exact List.forall_mem_cons.2 ⟨h.isError_eq ok, ih⟩

/-- A position behind line breaks at which stands what no line starts with. -/
theorem Setting.past_eq_self {t : Tag} (h : ∀ m, S.tag m = .lineBreak → S.tag (m + 1) ≠ t)
    (ht : S.tag (S.past i) = t) : S.past i = i := by
  unfold Setting.past at ht ⊢
  fun_induction pastBreaks S.input.tokens i with
  | case1 i line _ ih =>
    have self := ih ht
    rw [self] at ht
    exact absurd ht (h i line)
  | case2 i _ => rfl

/-- Operands that are a name end with it. -/
theorem ChainAt.of_name {c : Context} {m : Mark} {n : String} (h : ChainAt S c b i (.name m n) j) :
    nameTags.contains (S.tag i) = true ∧ j = S.next b i := by
  cases h with
  | one h =>
    cases h with
    | bare h _ =>
      cases h with
      | name h _ =>
        obtain ⟨head, tail⟩ := h
        cases tail with
        | stop _ => exact ⟨Setting.tag_of_name head.1, rfl⟩

/-- No colon starts a line. -/
def Setting.ColonsInside (S : Setting) : Prop := ∀ m, S.tag m = .lineBreak → S.tag (m + 1) ≠ .punct .colon

/-- A parameter without a name is no name with a type, as long as no colon starts a line. -/
theorem Setting.Derives.not_isTypedName {t : Expr} (colons : S.ColonsInside)
    (h : S.Derives (.parameter t)) : t.isTypedName = false := by
  obtain ⟨c, i, j, no, h⟩ := h
  refine Bool.eq_false_iff.2 fun typed => ?_
  unfold Expr.isTypedName at typed
  split at typed
  · cases h with
    | binary _ h _ _ _ => cases h with | one h => cases h with | bare h _ => cases h
    | ascription _ h colon _ _ =>
      -- the name ends before the colon, which would stand right behind it
      obtain ⟨name, rfl⟩ := h.of_name
      refine no ⟨name, ?_⟩
      rwa [← S.past_eq_self colons (i := i + 1) colon]
  · cases typed

/-- Where nothing is given up all statements of a block could be read. -/
theorem Setting.Derives.whole {x : Detail} (ok : ¬ S.flawed) (h : S.Derives x) : x.Whole := by
  cases x with
  | block ss =>
    obtain ⟨i, j, h⟩ := h
    exact h.isError_eq ok
  | _ => trivial

/-- Where nothing is given up and no colon starts a line a detail is kept if it is closed. -/
theorem Setting.Derives.kept {x : Detail} (source : S.Source) (ok : ¬ S.flawed) (colons : S.ColonsInside)
    (h : S.Derives x) (closed : x.Closed) : x.Kept := by
  cases x with
  | domain d =>
    obtain ⟨c, b, i, j, binds, h, arrow⟩ := h
    exact h.not_isGroup source.groups ok binds arrow
  | parameter t => exact h.not_isTypedName colons
  | _ => exact closed

/-- Where nothing is given up nothing is left out of a file. -/
theorem FileAt.pruned_eq {line : Option Shebang} {f : SourceFile} (ok : ¬ S.flawed) (h : FileAt S line f) :
    f.pruned = f := by
  refine f.pruned_eq ?_ fun x hx => (h.derives x hx).whole ok
  obtain ⟨items, _, _⟩ := h
  exact items.isError_eq ok

end Surface.Grammar
