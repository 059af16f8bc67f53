import Surface.Proofs.Canonical.Nodes
import Surface.Proofs.Grammar.FileCompleteness
import Surface.Proofs.Parsing.Dialects

/-!
# Deriving declarations and files again

In the canonical layout every declaration, every attribute and every member of a type stands on a line
of its own, and what could not be read stands nowhere. A parameter of a constructor that is a name with a
type behind it would be read as a parameter with that name.

Results:
* `SignatureAt.again`, `ClauseAt.again`, `TypeDeclAt.again`, `DeclAt.again`: declarations.
* `ItemsAt.again`: items.
-/

namespace Surface

namespace Grammar

variable {S T : Setting} {c : Context} {b : Bool} {i j k l q q' : Nat} {t : Tag}

/-! ## Lists between brackets -/

theorem ParamsAt.empty_iff {ps : List Param} {tr : Bool} (h : ParamsAt S t c b i ps tr j)
    (ht : patternTags.contains t = false) : ps = [] ↔ S.tag i = t := by
  cases h with
  | none h => exact iff_of_true rfl h
  | last h _ _ | more h _ _ =>
    refine iff_of_false (List.cons_ne_nil _ _) fun e => ?_
    have starts := h.starts
    rw [e, ht] at starts
    cases starts

theorem ExprsAt.inside_again (s : S.Source) (t : T.Lenient) {u : Tag} {es : List Expr} {tr : Bool}
    (h : ExprsAt S u c true i es tr j) (hu : listTags.contains u = true ∧ u ≠ .punct .comma)
    (hw : Spelt T (Word.commas (Expr.wordLists es)) (q + 1) k) (close : T.tag k = u)
    (hc : ∀ x ∈ Expr.allDetails es, x.Kept) :
    ExprsAt T u c true (T.next true q) (Expr.allPruned es) false k := by
  have ends : Trails T u false k k := ⟨close, rfl⟩
  have elements := h.again s t hu hw ends (fun same => absurd same Bool.false_ne_true) hc
  have inside : T.next true q = q + 1 :=
    T.next_eq fun _ => elements.ne_lineBreak (listTags_proper hu.1).2.2.1
  rwa [inside]

theorem ParamsAt.inside_again (s : S.Source) (t : T.Lenient) {u : Tag} {ps : List Param} {tr : Bool}
    (h : ParamsAt S u c true i ps tr j) (hu : listTags.contains u = true ∧ u ≠ .punct .comma)
    (hw : Spelt T (Word.commas (Param.wordLists ps)) (q + 1) k) (close : T.tag k = u)
    (hc : ∀ x ∈ Param.allDetails ps, x.Kept) :
    ParamsAt T u c true (T.next true q) (Param.allPruned ps) false k := by
  have elements := h.again s t close (.inl hu) hw hc
  have inside : T.next true q = q + 1 :=
    T.next_eq fun _ => elements.ne_lineBreak (listTags_proper hu.1).2.2.1
  rwa [inside]

/-! ## Attributes -/

theorem AttrArgsAt.again (s : S.Source) (t : T.Lenient) {as : Option (List Expr)}
    (h : AttrArgsAt S i as j) (hw : Spelt T (as.elim [] fun es =>
      .punct .openParen :: Word.commas (Expr.wordLists es) ++ [.punct .closeParen]) q q')
    (ends : T.tag q' = .lineBreak) (hc : ∀ x ∈ as.elim [] Expr.allDetails, x.Kept) :
    AttrArgsAt T q (as.map Expr.allPruned) q' ∧ T.Stops false q := by
  cases h with
  | some paren h _ =>
    obtain ⟨l, front, close, rfl⟩ := hw.snoc
    have here : T.tag q = .punct .openParen := front.tag
    exact ⟨.some here (h.inside_again s t ⟨by decide, by decide⟩ front.tail close hc) close,
      .of_tag here (by decide)⟩
  | none no =>
    cases hw
    exact ⟨.none (by rw [ends]; decide), .of_line rfl ends⟩

theorem AttrAt.again (s : S.Source) (t : T.Lenient) {a : Attribute} (h : AttrAt S i a j)
    (hw : Spelt T a.words q q') (ends : T.tag q' = .lineBreak) (hc : ∀ x ∈ a.details, x.Kept) :
    AttrAt T q a.pruned q' := by
  obtain ⟨_, _, args, _⟩ := h
  obtain ⟨k, front, back⟩ := Spelt.append.1 hw
  obtain ⟨args, stops⟩ := args.again s t back ends (List.forall_mem_cons.1 hc).2
  exact ⟨front.tag, Path.derived t front.tail stops, args, t.covers _ _⟩

theorem AttrsAt.again (s : S.Source) (t : T.Lenient) {as : List Attribute} (h : AttrsAt S i as j)
    (hw : Spelt T (as.flatMap fun a => a.words ++ [.lineBreak]) q q')
    (next : T.tag q' ≠ .punct .atSign ∧ behindTags.contains (T.tag q') = false)
    (hc : ∀ x ∈ as.flatMap Attribute.details, x.Kept) :
    AttrsAt T q (as.map Attribute.pruned) q' ∧ behindTags.contains (T.tag q) = false := by
  induction h generalizing q with
  | stop _ =>
    cases hw
    exact ⟨.stop next.1, next.2⟩
  | more h _ ih =>
    obtain ⟨hc, hc'⟩ := List.forall_mem_append.1 hc
    rw [List.flatMap_cons] at hw
    obtain ⟨_, front, rest⟩ := Spelt.append.1 hw
    obtain ⟨l, here, line, rfl⟩ := front.snoc
    obtain ⟨others, first⟩ := ih rest hc'
    have here := h.again s t here line hc
    refine ⟨.more here ?_, ?_⟩
    · rwa [past_of_line line (ne_of_not_behind first (by decide))]
    · obtain ⟨sign, _, _, _⟩ := here
      rw [sign]
      decide

/-! ## Names with parameters and a type -/

theorem ParamListAt.again (s : S.Source) (t : T.Lenient) {a : ParamList} (h : ParamListAt S i a j)
    (hw : Spelt T a.words q q') (hc : ∀ x ∈ a.details, x.Kept) :
    ParamListAt T q a.pruned q' ∧ paramListTags.contains (T.tag q) = true := by
  obtain ⟨l, front, close, rfl⟩ := hw.snoc
  cases h with
  | explicit _ h _ _ =>
    have here : T.tag q = .punct .openParen := front.tag
    have params := h.inside_again s t ⟨by decide, by decide⟩ front.tail close hc
    exact ⟨.explicit here params close (t.covers _ _), by rw [here]; decide⟩
  | implicit _ some h _ _ =>
    have here : T.tag q = .punct .openBracket := front.tag
    have params := h.inside_again s t ⟨by decide, by decide⟩ front.tail close hc
    have some : T.tag (T.next true q) ≠ .punct .closeBracket := fun none =>
      Param.allPruned_ne_nil (mt (h.empty_iff (by decide)).1 some)
        ((params.empty_iff (by decide)).2 none)
    exact ⟨.implicit here some params close (t.covers _ _), by rw [here]; decide⟩

theorem ParamListsAt.again (s : S.Source) (t : T.Lenient) {as : List ParamList}
    (h : ParamListsAt S i as j) (hw : Spelt T (as.flatMap ParamList.words) q q')
    (ends : paramListTags.contains (T.tag q') = false) (hc : ∀ x ∈ as.flatMap ParamList.details, x.Kept) :
    ParamListsAt T q (as.map ParamList.pruned) q' ∧ (q = q' ∨ paramListTags.contains (T.tag q) = true) := by
  induction h generalizing q with
  | stop _ =>
    cases hw
    exact ⟨.stop ends, .inl rfl⟩
  | more h _ ih =>
    obtain ⟨hc, hc'⟩ := List.forall_mem_append.1 hc
    rw [List.flatMap_cons] at hw
    obtain ⟨_, front, rest⟩ := Spelt.append.1 hw
    obtain ⟨first, tag⟩ := h.again s t front hc
    exact ⟨.more first (ih rest hc').1, .inr tag⟩

theorem OptionalTypeAt.again (s : S.Source) (t : T.Lenient) {a : Option Expr} (h : OptionalTypeAt S i a j)
    (hw : Spelt T (Param.typeWords a) q q')
    (hf : ∀ isOpen, Follows S T (Context.none.union .type) isOpen j q')
    (colon : T.tag q' ≠ .punct .colon) (hc : ∀ x ∈ Expr.optionalDetails a, x.Kept) :
    OptionalTypeAt T q (Expr.optionalPruned a) q' ∧ (q = q' ∨ T.tag q = .punct .colon) := by
  cases h with
  | some _ h =>
    have type := h.again s t hw.tail (hf _) ((hf true).stops nofun) hc
    exact ⟨.some hw.tag type, .inr hw.tag⟩
  | none _ =>
    cases hw
    exact ⟨.none colon, .inl rfl⟩

/-- What may stand behind a declared name with its parameters and its type. -/
structure EndsHead (S T : Setting) (j q : Nat) : Prop where
  tag : T.tag q = .punct .openBrace ∨ T.tag q = .lineBreak
  follows : ∀ isOpen, Follows S T (Context.none.union .type) isOpen j q

theorem EndsHead.brace (h : S.tag j = .punct .openBrace) (h' : T.tag q = .punct .openBrace) :
    EndsHead S T j q := ⟨.inl h', fun _ => .of_tag TokenKind.eq_punct h h' Tag.noConfusion⟩

theorem EndsHead.line (h : T.tag q = .lineBreak) : EndsHead S T j q :=
  ⟨.inr h, fun _ => .ends (by rw [h]; decide)⟩

/-- A declared name with its parameters and its type. -/
theorem head_again (s : S.Source) (t : T.Lenient) {n : Path} {ps : List ParamList} {a : Option Expr}
    (hps : ParamListsAt S i ps k) (ha : OptionalTypeAt S k a j)
    (hw : Spelt T (n.words ++ ps.flatMap ParamList.words ++ Param.typeWords a) q q')
    (ends : EndsHead S T j q') (hc : ∀ x ∈ ps.flatMap ParamList.details, x.Kept)
    (hc' : ∀ x ∈ Expr.optionalDetails a, x.Kept) :
    ∃ k l, PathAt T false q n k ∧ ParamListsAt T k (ps.map ParamList.pruned) l
      ∧ OptionalTypeAt T l (Expr.optionalPruned a) q' := by
  obtain ⟨l, hw, htype⟩ := Spelt.append.1 hw
  obtain ⟨k, hname, hparams⟩ := Spelt.append.1 hw
  obtain ⟨type, tag⟩ := ha.again s t htype ends.follows
    (by rcases ends.tag with tag | tag <;> rw [tag] <;> decide) hc'
  have behind : T.tag l = .punct .colon ∨ T.tag l = .punct .openBrace ∨ T.tag l = .lineBreak := by
    rcases tag with rfl | tag
    · exact .inr ends.tag
    · exact .inl tag
  have no : paramListTags.contains (T.tag l) = false := by
    rcases behind with tag | tag | tag <;> rw [tag] <;> decide
  obtain ⟨params, tag⟩ := hps.again s t hparams no hc
  refine ⟨k, l, Path.derived t hname ⟨?_, nofun⟩, params, type⟩
  rcases tag with rfl | tag
  · rcases behind with tag | tag | tag <;> rw [tag] <;> decide
  · exact Setting.ne_of_contains tag (by decide)

theorem OptionalBlockAt.again (s : S.Source) (t : T.Lenient) {a : Option Block}
    (h : OptionalBlockAt S i a j) (hw : Spelt T (Block.optionalWords a) q q')
    (ends : T.tag q' = .lineBreak) (hc : ∀ x ∈ Block.optionalDetails a, x.Kept) :
    OptionalBlockAt T q (Block.optionalPruned a) q' ∧ EndsHead S T i q := by
  cases h with
  | some brace h =>
    have block := h.again s t hw (.of_line rfl ends) hc
    exact ⟨.some block.tag block, .brace brace block.tag⟩
  | none _ =>
    cases hw
    exact ⟨.none (by rw [ends]; decide), .line ends⟩

/-- A signature that ends its line. -/
theorem SignatureAt.again (s : S.Source) (t : T.Lenient) {a : Signature} (h : SignatureAt S i a j)
    (hw : Spelt T a.words q q') (ends : T.tag q' = .lineBreak) (hc : ∀ x ∈ a.details, x.Kept) :
    SignatureAt T q a.pruned q' := by
  obtain ⟨_, params, type, value, _⟩ := h
  obtain ⟨hc, hc'⟩ := List.forall_mem_append.1 (List.forall_mem_cons.1 hc).2
  obtain ⟨hc', hc''⟩ := List.forall_mem_append.1 hc'
  obtain ⟨m, hhead, hvalue⟩ := Spelt.append.1 hw
  obtain ⟨value, behind⟩ := value.again s t hvalue ends hc''
  obtain ⟨k, l, name, params, type⟩ := head_again s t params type hhead behind hc hc'
  exact ⟨name, params, type, value, t.covers _ _⟩

/-! ## Clauses -/

theorem PatternArgsAt.clause {b ps} {q q' : Nat} : PatternArgsAt T b q ps q' → b = false →
    T.tag q' = .reserved .eq → ClausePatternsAt T q ps q'
  | .stop _, _, sign => .stop sign
  | .more h hs, hb, sign =>
    .more (fun e => absurd (e ▸ h.starts) (by decide)) (hb ▸ h) (hs.clause hb sign)

/-- A clause that ends its line. -/
theorem ClauseAt.again (s : S.Source) (t : T.Lenient) {a : Clause} (h : ClauseAt S i a j)
    (hw : Spelt T a.words q q') (ends : T.tag q' = .lineBreak) (hc : ∀ x ∈ a.details, x.Kept) :
    ClauseAt T q a.pruned q' := by
  obtain ⟨-, hc⟩ := List.forall_mem_append.1 (List.forall_mem_cons.1 hc).2
  obtain ⟨_, _, value, _⟩ := h
  obtain ⟨l, front, back⟩ := Spelt.append.1 hw
  obtain ⟨k, hname, hpatterns⟩ := Spelt.append.1 front
  have sign : T.tag l = .reserved .eq := back.tag
  have patterns := Pattern.argsDerived t (b := false) _ hpatterns (.of_tag sign (by decide))
    (by rw [sign]; decide)
  have behind : T.Stops false k := by
    rcases patterns.starts with rfl | tag
    · exact .of_tag sign (by decide)
    · exact .of_tag rfl (tag_of_patternTags tag)
  refine ⟨Path.derived t hname behind, patterns.clause rfl sign, ?_, t.covers _ _⟩
  cases value with
  | some _ _ h =>
    have value := h.again s t back.tail (.ends (by rw [ends]; decide)) (.of_line rfl ends) hc
    exact .some value.starts.ne_lineBreak (value.starts.ne (by decide) (by decide)) value
  | none _ =>
    cases back.tail
    exact .none (.inl ends)

/-! ## Constructors -/

theorem PrimaryAt.name_before_colon {e : Expr} (h : PrimaryAt S c b i e j)
    (name : nameTags.contains (S.tag i) = true) (colon : S.tag (i + 1) = .punct .colon) :
    (∃ m n, e = .name m n) ∧ j = i + 1 := by
  have next : S.next b i = i + 1 := S.next_of_tag colon Tag.noConfusion
  have other {t : Tag} (hi : S.tag i = t) (ht : nameTags.contains t = false) : False := by
    rw [hi, ht] at name
    cases name
  cases h with
  | name h _ =>
    obtain ⟨_, tail⟩ := h
    cases tail with
    | stop _ => exact ⟨⟨_, _, rfl⟩, next⟩
  | path h _ =>
    obtain ⟨_, tail⟩ := h
    cases tail with
    | more dotted _ _ =>
      rw [next] at dotted
      cases colon.symm.trans dotted.1
  | literal hv _ => rcases Setting.tag_of_literal hv with h | h | h <;> exact (other h (by decide)).elim
  | tuple h _ _ _ | array h _ _ _ | conditional h _ _ _ _ _ | matchOn h _ _ _ _ _ | returns h _ _ _
  | returnsNothing h _ _ => exact (other h (by decide)).elim
  | lambda h _ _ _ _ | thunk h _ _ => exact (other (by rw [← S.tag_kind, h]) (by decide)).elim

/-- Operands that start with a name before a colon are that name. -/
theorem ChainAt.name_before_colon {c b i e j} (name : nameTags.contains (S.tag i) = true)
    (colon : S.tag (i + 1) = .punct .colon) (h : ChainAt S c b i e j) :
    (∃ m n, e = .name m n) ∧ j = i + 1 := by
  refine ChainAt.induct (motive := fun e j => (∃ m n, e = .name m n) ∧ j = i + 1)
    (fun first => ?_) (fun before op _ => ?_) h
  · have argument {f : Expr} {a : Expr} {as : List Expr} {k l : Nat} (h : PrimaryAt S c b i f k)
        (hs : ArgsAt S c b k (a :: as) l) : False := by
      have tag := hs.tag
      rw [(h.name_before_colon name colon).2, colon] at tag
      exact absurd tag (by decide)
    cases first with
    | bare h _ => exact h.name_before_colon name colon
    | types _ h hs _ | plain _ h hs _ _ | block _ h hs _ _ _ => exact (argument h hs).elim
  · rw [before.2] at op
    rcases Setting.tag_of_operator op with tag | tag <;> cases colon.symm.trans tag

/-- An expression that starts with a name before a colon is the name with a type. -/
theorem ExprAt.name_before_colon {e : Expr} (h : ExprAt S c b i e j)
    (name : nameTags.contains (S.tag i) = true) (colon : S.tag (i + 1) = .punct .colon) :
    ∃ m m' n a, e = .ascription m (.name m' n) a := by
  cases h with
  | binary _ h _ _ no =>
    obtain ⟨-, rfl⟩ := h.name_before_colon name colon
    exact absurd colon no
  | arrow _ h arrow _ _ =>
    obtain ⟨-, rfl⟩ := h.name_before_colon name colon
    cases colon.symm.trans arrow
  | ascription _ h _ _ _ =>
    obtain ⟨⟨m, n, rfl⟩, -⟩ := h.name_before_colon name colon
    exact ⟨_, _, _, _, rfl⟩
  | pi _ h _ _ _ _ _ | sigma _ h _ _ _ _ _ =>
    rw [h] at name
    exact absurd name (by decide)

theorem CtorParamAt.again (s : S.Source) (t : T.Lenient) {a : CtorParam}
    (h : CtorParamAt S i a j) (hw : Spelt T a.words q q') (ends : listTags.contains (T.tag q') = true)
    (hc : ∀ x ∈ a.details, x.Kept) : CtorParamAt T q a.pruned q' ∧ T.tag q ≠ .lineBreak := by
  cases h with
  | named _ _ h =>
    have type := h.again s t hw.tail.tail (.ends (listTags_proper ends).1) (.of_listTag ends)
      (List.forall_mem_cons.1 hc).2
    have colon : T.tag (q + 1) = .punct .colon := hw.tail.tag
    have name := nameAt_derived t hw.kind
    refine ⟨.named name colon ?_, name.ne_lineBreak⟩
    rwa [T.next_of_tag colon Tag.noConfusion, type.starts.next]
  | positional _ h =>
    obtain ⟨plain, hc⟩ := List.forall_mem_cons.1 hc
    have type := h.again s t hw (.ends (listTags_proper ends).1) (.of_listTag ends) hc
    refine ⟨.positional (fun ⟨name, colon⟩ => ?_) type, type.starts.ne_lineBreak⟩
    -- a name before a colon would be the name of the parameter
    obtain ⟨_, _, _, _, typed⟩ := type.name_before_colon name colon
    have named := congrArg Expr.isTypedName typed
    rw [Expr.isTypedName_pruned, plain] at named
    cases named

theorem ctorParams_again (s : S.Source) (t : T.Lenient) {u : Tag}
    {as : List CtorParam} {tr : Bool} (h : Listed S u true (CtorParamAt S) i as tr j)
    (hu : listTags.contains u = true ∧ u ≠ .punct .comma)
    (hw : Spelt T (Word.commas (as.map CtorParam.words)) q k) (close : T.tag k = u)
    (hc : ∀ x ∈ as.flatMap CtorParam.details, x.Kept) :
    Listed T u true (CtorParamAt T) q (as.map CtorParam.pruned) false k ∧ T.tag q ≠ .lineBreak := by
  have one {a : CtorParam} {i j q : Nat} (h : CtorParamAt S i a j) (hw : Spelt T a.words q k)
      (hc : ∀ x ∈ a.details, x.Kept) :
      Listed T u true (CtorParamAt T) q [a.pruned] false k ∧ T.tag q ≠ .lineBreak := by
    obtain ⟨first, line⟩ := h.again s t hw (by rw [close]; exact hu.1) hc
    exact ⟨.last first close (by rw [close]; exact hu.2), line⟩
  induction h generalizing q with
  | none _ =>
    cases hw
    exact ⟨.none close, by rw [close]; exact (listTags_proper hu.1).2.2.1⟩
  | last h _ _ => exact one h hw (List.forall_mem_append.1 hc).1
  | @more _ _ _ as _ _ h _ _ ih =>
    cases as with
    | nil => exact one h hw (List.forall_mem_append.1 hc).1
    | cons a as =>
      obtain ⟨hc, hc'⟩ := List.forall_mem_append.1 hc
      obtain ⟨m, hw, rest⟩ := Spelt.append.1 hw
      have comma : T.tag m = .punct .comma := rest.tag
      obtain ⟨first, line⟩ := h.again s t hw (by rw [comma]; decide) hc
      obtain ⟨others, line'⟩ := ih rest.tail hc'
      have next : T.next true m = m + 1 := T.next_eq fun _ => line'
      exact ⟨.more first comma (next.symm ▸ others), line⟩

/-- What stands behind a constructor. -/
def ctorEndTags : TagSet := {.punct .comma, .lineBreak}

theorem ctorEndTags_proper : ∀ {t : Tag}, ctorEndTags.contains t = true →
    endTags.contains t = true ∧ t ≠ .reserved .dot ∧ t ≠ .punct .colon ∧ t ≠ .punct .openParen := by
  decide

theorem CtorFormAt.again (s : S.Source) (t : T.Lenient) {a : CtorForm}
    (h : CtorFormAt S i a j) (hw : Spelt T a.words q q') (ends : ctorEndTags.contains (T.tag q') = true)
    (hc : ∀ x ∈ a.details, x.Kept) : CtorFormAt T q a.pruned q' ∧ T.Stops false q := by
  obtain ⟨ends, dot, colon, paren⟩ := ctorEndTags_proper ends
  cases h with
  | typed _ h =>
    have here : T.tag q = .punct .colon := hw.tag
    have type := h.again s t hw.tail (.ends ends) ⟨dot, nofun⟩ hc
    exact ⟨.typed here type, .of_tag here (by decide)⟩
  | params _ h _ =>
    obtain ⟨l, front, close, rfl⟩ := hw.snoc
    have here : T.tag q = .punct .openParen := front.tag
    obtain ⟨params, line⟩ := ctorParams_again s t h ⟨by decide, by decide⟩ front.tail close hc
    have inside : T.next true q = q + 1 := T.next_eq fun _ => line
    exact ⟨.params here (inside.symm ▸ params) close, .of_tag here (by decide)⟩
  | bare _ _ =>
    cases hw
    exact ⟨.bare colon paren, dot, nofun⟩

theorem CtorAt.again (s : S.Source) (t : T.Lenient) {a : Ctor}
    (h : CtorAt S i a j) (hw : Spelt T a.words q q') (ends : ctorEndTags.contains (T.tag q') = true)
    (hc : ∀ x ∈ a.details, x.Kept) : CtorAt T q a.pruned q' := by
  obtain ⟨_, form, _⟩ := h
  obtain ⟨k, hname, hform⟩ := Spelt.append.1 hw
  obtain ⟨form, stops⟩ := form.again s t hform ends (List.forall_mem_cons.1 hc).2
  exact ⟨Path.derived t hname stops, form, t.covers _ _⟩

/-! ## Members of types -/

/-- A member starts with a name. -/
theorem starts_of_name {x : Ident} (h : T.NameAt q x) : T.InBraces q ∧ T.tag q ≠ .lineBreak :=
  have ne {t : Tag} (ht : nameTags.contains t = false) : T.tag q ≠ t :=
    Setting.ne_of_contains (Setting.tag_of_name h.1) ht
  ⟨⟨ne (by decide), ne (by decide)⟩, ne (by decide)⟩

theorem CtorAt.starts {a : Ctor} (h : CtorAt T q a q') : T.InBraces q ∧ T.tag q ≠ .lineBreak := by
  obtain ⟨name, _, _⟩ := h
  exact starts_of_name name.head

theorem SignatureAt.starts {a : Signature} (h : SignatureAt T q a q') :
    T.InBraces q ∧ T.tag q ≠ .lineBreak := by
  obtain ⟨name, _, _, _, _⟩ := h
  exact starts_of_name name.head

theorem outside_of_close (h : T.tag q = .punct .closeBrace) : ¬ T.InBraces q := fun inside => inside.1 h

theorem plain_of_tag (h : T.tag q ≠ .lineBreak) : ¬ T.SemicolonAt q := fun semicolon => h semicolon.1

/-- A constructor of a type that has been read. -/
def IsCtor (S : Setting) (a : Ctor) : Prop := (∃ i j, CtorAt S i a j) ∧ ∀ x ∈ a.details, x.Kept

/-- A method of a type that has been read. -/
def IsMethod (S : Setting) (a : Signature) : Prop := (∃ i j, SignatureAt S i a j) ∧ ∀ x ∈ a.details, x.Kept

/-- Constructors up to what stands behind the last. -/
theorem ctors_again (s : S.Source) (t : T.Lenient) {as : List Ctor} {q' : Nat}
    (has : ∀ a ∈ as, IsCtor S a) (some : as ≠ []) (hw : Spelt T (ctorWords as) q l)
    (line : T.tag l = .lineBreak) (ends : CtorsEndAt T l q') :
    CtorsAt T q (as.map Ctor.pruned) q' ∧ T.tag q ≠ .lineBreak := by
  induction as generalizing q with
  | nil => exact absurd rfl some
  | cons a as ih =>
    obtain ⟨⟨⟨i, j, h⟩, hc⟩, has⟩ := List.forall_mem_cons.1 has
    cases as with
    | nil =>
      have ctor := h.again s t hw (by rw [line]; decide) hc
      exact ⟨.last ctor.starts.1 ctor ends, ctor.starts.2⟩
    | cons a' as =>
      obtain ⟨k, hw, rest⟩ := Spelt.append.1 hw
      have comma : T.tag k = .punct .comma := rest.tag
      have line' : T.tag (k + 1) = .lineBreak := rest.tail.tag
      obtain ⟨others, first⟩ := ih has (List.cons_ne_nil _ _) rest.tail.tail
      have ctor := h.again s t hw (by rw [comma]; decide) hc
      have plain : ¬ T.SemicolonAt (k + 1) := fun semicolon =>
        Bool.false_ne_true (rest.tail.semicolon.symm.trans semicolon.2)
      refine ⟨.more ctor.starts.1 ctor comma plain ?_, ctor.starts.2⟩
      rwa [past_of_line line' first]

/-- Methods and the line break behind the last. -/
theorem methods_again (s : S.Source) (t : T.Lenient) {as : List Signature} {semicolon : Bool}
    (has : ∀ a ∈ as, IsMethod S a) (hw : Spelt T (methodWords semicolon as ++ [.lineBreak]) q k)
    (close : T.tag k = .punct .closeBrace) : MethodsAt T (T.past q) (as.map Signature.pruned) k := by
  induction as generalizing q semicolon with
  | nil =>
    obtain ⟨line, rfl⟩ := hw.one
    rw [past_of_line line (by rw [close]; exact Tag.noConfusion)]
    exact .none (outside_of_close close)
  | cons a as ih =>
    obtain ⟨⟨⟨i, j, h⟩, hc⟩, has⟩ := List.forall_mem_cons.1 has
    have line : T.tag q = .lineBreak := hw.tag
    have hw : Spelt T (a.words ++ methodWords false as ++ [.lineBreak]) (q + 1) k := hw.tail
    rw [List.append_assoc] at hw
    obtain ⟨l, hw, rest⟩ := Spelt.append.1 hw
    have ends : T.tag l = .lineBreak := by
      cases as with
      | nil => exact rest.tag
      | cons _ _ => exact rest.tag
    have method := h.again s t hw ends hc
    rw [past_of_line line method.starts.2]
    exact .more method.starts.1 method ends (ih has rest)

theorem CtorsAt.each {as : List Ctor} (h : CtorsAt S i as j) : ∀ a ∈ as, ∃ i j, CtorAt S i a j := by
  induction h with
  | none _ => exact nofun
  | last _ h _ => exact List.forall_mem_cons.2 ⟨⟨_, _, h⟩, nofun⟩
  | more _ h _ _ _ ih => exact List.forall_mem_cons.2 ⟨⟨_, _, h⟩, ih⟩

theorem MethodsAt.each {as : List Signature} (h : MethodsAt S i as j) :
    ∀ a ∈ as, ∃ i j, SignatureAt S i a j := by
  induction h with
  | none _ => exact nofun
  | last _ h _ => exact List.forall_mem_cons.2 ⟨⟨_, _, h⟩, nofun⟩
  | more _ h _ _ ih => exact List.forall_mem_cons.2 ⟨⟨_, _, h⟩, ih⟩

/-- What the members of a type are; a trait has no constructors. -/
theorem MembersAt.each {sort : TypeSort} {cs : List Ctor} {ms : List Signature}
    (h : MembersAt S i sort cs ms j) : (sort = .trait → cs = []) ∧ (∀ a ∈ cs, ∃ i j, CtorAt S i a j)
      ∧ ∀ a ∈ ms, ∃ i j, SignatureAt S i a j := by
  cases h with
  | trait h => exact ⟨fun _ => rfl, nofun, h.each⟩
  | methods _ _ h => exact ⟨fun _ => rfl, nofun, h.each⟩
  | ctors ne _ h _ => exact ⟨fun e => absurd e ne, h.each, nofun⟩
  | both ne _ h _ h' => exact ⟨fun e => absurd e ne, h.each, h'.each⟩

/-- The members of a type between its braces. -/
theorem members_again (s : S.Source) (t : T.Lenient) {sort : TypeSort}
    {cs : List Ctor} {ms : List Signature} (trait : sort = .trait → cs = [])
    (hcs : ∀ a ∈ cs, IsCtor S a) (hms : ∀ a ∈ ms, IsMethod S a)
    (some : (cs.isEmpty && ms.isEmpty) = false)
    (hw : Spelt T ((if cs.isEmpty then [] else .lineBreak :: ctorWords cs)
      ++ methodWords (sort != .trait) ms ++ [.lineBreak]) q k)
    (close : T.tag k = .punct .closeBrace) :
    MembersAt T q sort (cs.map Ctor.pruned) (ms.map Signature.pruned) k := by
  cases cs with
  | nil =>
    have methods := methods_again s t hms hw close
    by_cases ht : sort = .trait
    · rw [ht]
      exact .trait methods
    · -- a semicolon stands before the methods of a type that may have constructors
      cases ms with
      | nil => cases some
      | cons _ _ =>
        have semicolon : T.SemicolonAt q := ⟨hw.tag, hw.semicolon.trans (bne_iff_ne.2 ht)⟩
        exact .methods ht semicolon methods
  | cons c cs =>
    have ht : sort ≠ .trait := fun e => List.cons_ne_nil _ _ (trait e)
    rw [List.append_assoc] at hw
    obtain ⟨l, front, back⟩ := Spelt.append.1 hw
    have first : T.tag q = .lineBreak := front.tag
    have plain : ¬ T.SemicolonAt q := fun semicolon =>
      Bool.false_ne_true (front.semicolon.symm.trans semicolon.2)
    have line : T.tag l = .lineBreak := by
      cases ms with
      | nil => exact back.tag
      | cons _ _ => exact back.tag
    have ctors {q' : Nat} (ends : CtorsEndAt T l q') :
        CtorsAt T (T.past q) (List.map Ctor.pruned (c :: cs)) q' := by
      obtain ⟨ctors, start⟩ := ctors_again s t hcs (List.cons_ne_nil _ _) front.tail line ends
      rwa [past_of_line first start]
    cases ms with
    | nil =>
      obtain ⟨-, rfl⟩ := back.one
      have unmarked : ¬ T.SemicolonAt l := fun semicolon =>
        Bool.false_ne_true (back.semicolon.symm.trans semicolon.2)
      have broken := CtorsEndAt.broken line unmarked (by rw [close]; decide)
      rw [past_of_line line (by rw [close]; exact Tag.noConfusion)] at broken
      exact .ctors ht plain (ctors broken) (plain_of_tag (by rw [close]; exact Tag.noConfusion))
    | cons m ms =>
      have semicolon : T.SemicolonAt l := ⟨line, back.semicolon.trans (bne_iff_ne.2 ht)⟩
      exact .both ht plain (ctors (.semicolon semicolon)) semicolon (methods_again s t hms back close)

/-- No members between braces. -/
theorem members_none {sort : TypeSort} (close : T.tag q = .punct .closeBrace) :
    MembersAt T q sort [] [] q := by
  have past : T.past q = q := T.past_of_tag close Tag.noConfusion
  have plain : ¬ T.SemicolonAt q := plain_of_tag (by rw [close]; exact Tag.noConfusion)
  by_cases ht : sort = .trait
  · subst ht
    exact .trait (by rw [past]; exact .none (outside_of_close close))
  · exact .ctors ht plain (by rw [past]; exact .none (outside_of_close close)) plain

/-- The body of a type declaration. -/
theorem typeBody_again (s : S.Source) (t : T.Lenient) {sort : TypeSort}
    {a : TypeBody} (h : MembersAt S i sort a.ctors a.methods j) (hw : Spelt T (a.words sort) q q')
    (hc : ∀ x ∈ a.details, x.Kept) : T.tag q = .punct .openBrace ∧ ∃ k,
      MembersAt T (q + 1) sort (a.ctors.map Ctor.pruned) (a.methods.map Signature.pruned) k
        ∧ T.tag k = .punct .closeBrace ∧ q' = k + 1 := by
  obtain ⟨cs, ms, m⟩ := a
  obtain ⟨hcs, hms⟩ := List.forall_mem_append.1 hc
  obtain ⟨trait, ctors, methods⟩ := h.each
  have ctors (a) (ha : a ∈ cs) : IsCtor S a := ⟨ctors a ha, List.forall_mem_flatMap.1 hcs a ha⟩
  have methods (a) (ha : a ∈ ms) : IsMethod S a := ⟨methods a ha, List.forall_mem_flatMap.1 hms a ha⟩
  unfold TypeBody.words at hw
  cases none : cs.isEmpty && ms.isEmpty with
  | true =>
    rw [if_pos none] at hw
    obtain ⟨nothing, nothing'⟩ := Bool.and_eq_true_iff.1 none
    obtain rfl := List.isEmpty_iff.1 nothing
    obtain rfl := List.isEmpty_iff.1 nothing'
    exact ⟨hw.tag, q + 1, members_none hw.tail.tag, hw.tail.tag, hw.tail.tail⟩
  | false =>
    rw [if_neg (by rw [none]; exact Bool.false_ne_true)] at hw
    obtain ⟨l, front, back⟩ := Spelt.append.1 hw
    have inside : Spelt T (_ ++ [.lineBreak]) (q + 1) (l + 1) :=
      Spelt.append.2 ⟨l, front.tail, back.1, rfl⟩
    exact ⟨front.tag, l + 1, members_again s t trait ctors methods none inside back.tail.tag,
      back.tail.tag, back.tail.tail⟩

theorem OptionalBodyAt.again (s : S.Source) (t : T.Lenient) {sort : TypeSort}
    {a : Option TypeBody} (h : OptionalBodyAt S sort i a j)
    (hw : Spelt T (a.elim [] (TypeBody.words sort)) q q') (ends : T.tag q' = .lineBreak)
    (hc : ∀ x ∈ a.elim [] TypeBody.details, x.Kept) :
    OptionalBodyAt T sort q (a.map TypeBody.pruned) q' ∧ EndsHead S T i q := by
  cases h with
  | none _ =>
    cases hw
    exact ⟨.none (by rw [ends]; decide), .line ends⟩
  | @some cs ms _ m brace h _ _ =>
    obtain ⟨here, k, members, close, rfl⟩ := typeBody_again s t (a := ⟨cs, ms, m⟩) h hw hc
    have past : T.past k = k := T.past_of_tag close Tag.noConfusion
    have body := OptionalBodyAt.some (s := m) here members (by rwa [past]) (t.covers _ _)
    rw [past] at body
    exact ⟨body, .brace brace here⟩

/-! ## Type declarations -/

theorem visibilityOf?_keyword (v : Visibility) : visibilityOf? (.keyword v.keyword) = some v := by
  cases v <;> rfl

theorem typeSortOf?_keyword (v : TypeSort) :
    typeSortOf? (.keyword v.keyword) = some v ∧ visibilityOf? (.keyword v.keyword) = none := by
  cases v <;> exact ⟨rfl, rfl⟩

theorem VisibilityAt.again (t : T.Lenient) {a : Option (Visibility × Span)} {sort : TypeSort}
    (hw : Spelt T (a.elim [] fun v => [.keyword v.1.keyword]) q q')
    (next : T.tag q' = .keyword sort.keyword) : VisibilityAt T q a q' := by
  cases a with
  | none =>
    cases hw
    exact .none (by rw [next]; exact (typeSortOf?_keyword sort).2)
  | some v =>
    obtain ⟨word, rfl⟩ := hw.one
    exact .some (by rw [word]; exact visibilityOf?_keyword v.1) (t.covers _ _)

/-- A type declaration that ends its line. -/
theorem TypeDeclAt.again (s : S.Source) (t : T.Lenient) {a : TypeDecl}
    (h : TypeDeclAt S i a j) (hw : Spelt T a.words q q') (ends : T.tag q' = .lineBreak)
    (hc : ∀ x ∈ a.details, x.Kept) : TypeDeclAt T q a.pruned q' := by
  obtain ⟨_, _, _, params, type, body⟩ := h
  obtain ⟨hc, hc'⟩ := List.forall_mem_append.1 (List.forall_mem_cons.1 hc).2
  obtain ⟨hc', hc''⟩ := List.forall_mem_append.1 hc'
  obtain ⟨k, hvisible, hw⟩ := Spelt.append.1 hw
  obtain ⟨m, hhead, hbody⟩ := Spelt.append.1 hw.tail
  obtain ⟨body, behind⟩ := body.again s t hbody ends hc''
  obtain ⟨_, _, name, params, type⟩ := head_again s t params type hhead behind hc hc'
  have word : T.tag k = .keyword _ := hw.tag
  exact ⟨.again t hvisible word, by rw [word]; exact (typeSortOf?_keyword _).1, name, params, type, body⟩

/-! ## Declarations and items -/

theorem ArgsAt.stops {es : List Expr} (h : ArgsAt T c b q es q') (ends : T.Stops b q') : T.Stops b q := by
  cases h with
  | stop _ => exact ends
  | more tag _ _ => exact .of_contains tag (by decide)

theorem DeclFormAt.again (s : S.Source) (t : T.Lenient) {a : DeclForm}
    (h : DeclFormAt S i a j) (hw : Spelt T a.words q q') (ends : T.tag q' = .lineBreak)
    (hc : ∀ x ∈ a.details, x.Kept) : DeclFormAt T q a.pruned q' := by
  have stops : T.Stops false q' := .of_line rfl ends
  have name {n : Path} {k : Nat} (h : PathAt T false q n k) : nameTags.contains (T.tag q) = true :=
    Setting.tag_of_name h.head.1
  cases h with
  | uses _ _ => exact .uses hw.tag (Path.derived t hw.tail stops)
  | command _ _ has =>
    obtain ⟨k, front, back⟩ := Spelt.append.1 hw
    have args := has.again s t back (.ends (by rw [ends]; decide)) stops (List.forall_mem_cons.1 hc).2
    exact .command front.tag (Path.derived t front.tail (args.stops stops)) args
  | type h => exact .type (h.again s t hw ends hc)
  | clause _ _ h =>
    have again := h.again s t hw ends hc
    have ahead := again.ahead t.groups
    obtain ⟨path, _, _, _⟩ := id again
    exact .clause (name path) ahead again
  | signature _ _ h =>
    have again := h.again s t hw ends hc
    have none := again.not_ahead (t := .reserved .eq) t.groups t.sound (by decide) (by rw [ends]; decide)
    obtain ⟨path, _, _, _, _⟩ := id again
    exact .signature (name path) none again

theorem DeclFormAt.not_behind {a : DeclForm} (h : DeclFormAt T q a q') :
    T.tag q ≠ .punct .atSign ∧ behindTags.contains (T.tag q) = false := by
  have other {ts : TagSet} (h : ts.contains (T.tag q) = true)
      (hts : ∀ {t : Tag}, ts.contains t = true → t ≠ .punct .atSign ∧ behindTags.contains t = false) :=
    hts h
  cases h with
  | uses word _ => rw [word]; decide
  | command word _ _ => rw [word]; decide
  | type h =>
    have starts := h.starts
    revert starts
    generalize T.tag q = t
    revert t
    decide
  | clause name _ _ | signature name _ _ => exact other name (by decide)

/-- A declaration that ends its line. -/
theorem DeclAt.again (s : S.Source) (t : T.Lenient) {a : Decl} {m n : Nat}
    (h : DeclAt S m i a j) (hdocs : List.Forall₂ (fun d d' => d'.content = d.content) (T.docs n q) a.docs)
    (hw : Spelt T a.words q q') (ends : T.tag q' = .lineBreak) (hc : ∀ x ∈ (Item.decl a).details, x.Kept) :
    DeclAt T n q a.pruned q' ∧ behindTags.contains (T.tag q) = false := by
  obtain ⟨_, attrs, form, _⟩ := h
  obtain ⟨hc, hc'⟩ := List.forall_mem_append.1 hc
  obtain ⟨k, front, back⟩ := Spelt.append.1 hw
  have form := form.again s t back ends hc'
  obtain ⟨attrs, starts⟩ := attrs.again s t front form.not_behind hc
  exact ⟨⟨hdocs.imp fun _ _ same => ⟨same, t.covers _ _⟩, attrs, form, t.covers _ _⟩, starts⟩

/-- What is seen ahead of an item depends on the dialect and on what looks like a declaration. -/
theorem Setting.declNext_iff : T.DeclNext q ↔ T.input.dialect.statements = false
    ∨ T.input.dialect.declarations = true ∧ T.declAhead q = true := by
  unfold Setting.DeclNext Setting.declAhead
  rw [Bool.or_eq_true, Bool.and_eq_true]

/-- A signature without attributes does not look like a declaration. -/
theorem Item.isBareSignature_pruned (a : Item) : a.pruned.isBareSignature = a.isBareSignature := by
  cases a with
  | decl d =>
    obtain ⟨form, _, attributes, _⟩ := d
    cases form <;> cases attributes <;> rfl
  | stmt s => rfl

theorem DeclAt.bare_signature {a : Decl} {m : Nat} (h : DeclAt S m i a j)
    (bare : (Item.decl a).isBareSignature = true) : S.declAhead i = false := by
  obtain ⟨_, attrs, form, _⟩ := h
  cases attrs with
  | more _ _ => cases form <;> cases bare
  | stop _ =>
    cases form with
    | signature name none _ =>
      have plain : declOnlyTags.contains (S.tag i) = false := by
        rcases tag_cases_of_name name with tag | tag <;> rw [tag] <;> decide
      unfold Setting.declAhead
      rw [plain, none, Bool.and_false, Bool.or_false]
    | _ => cases bare

/-- An item that ends its line. -/
theorem ItemAt.again (s : S.Source) (t : T.Lenient)
    (dialect : T.input.dialect = S.input.dialect) {a : Item} {m n : Nat} (h : ItemAt S m i a j)
    (hdocs : List.Forall₂ (fun d d' => d'.content = d.content) (T.docs n q) a.docs)
    (hw : Spelt T a.words q q') (ends : T.tag q' = .lineBreak) (hno : ¬ T.ElseNext q')
    (hc : ∀ x ∈ a.details, x.Kept) (read : a.isError = false) :
    ItemAt T n q a.pruned q' ∧ behindTags.contains (T.tag q) = false := by
  have boundary : itemBoundary.contains (T.tag q') = true := by rw [ends]; decide
  cases h with
  | decl next declarations h _ =>
    obtain ⟨again, starts⟩ := h.again s t hdocs hw ends hc
    refine ⟨.decl ?_ (by rwa [dialect]) again boundary, starts⟩
    -- what looked like a declaration looks like one again
    rw [Setting.declNext_iff] at next ⊢
    rw [dialect]
    refine next.imp_right fun ⟨declarations, looked⟩ => ⟨declarations, again.declAhead ?_⟩
    refine Bool.eq_false_iff.2 fun bare => ?_
    rw [h.bare_signature ((Item.isBareSignature_pruned _).symm.trans bare)] at looked
    cases looked
  | stmt no statements h _ =>
    have again := h.again s t rfl hw ends hno hc
    refine ⟨.stmt (fun next => ?_) (by rwa [dialect]) again boundary, again.not_behind⟩
    rw [Setting.declNext_iff, dialect, statements,
      again.not_declAhead t.groups t.sound (by rw [ends]; decide)] at next
    rcases next with none | ⟨-, none⟩ <;> cases none
  | errorDecl _ _ _ _ | errorStmt _ _ _ _ => cases read

/-- The documentation of items stands in front of them. -/
def Documented (T : Setting) : Nat → Nat → List Item → Prop
  | _, _, [] => True
  | n, q, a :: as => List.Forall₂ (fun d d' => d'.content = d.content) (T.docs n q) a.docs
    ∧ ∀ q', Spelt T a.words q q' → Documented T (T.last q').stop (q' + 1) as

/-- Items on lines of their own, without those that could not be read. -/
theorem ItemsAt.again (s : S.Source) (t : T.Lenient) (dialect : T.input.dialect = S.input.dialect)
    {as : List Item} {m n : Nat} (h : ItemsAt S m i as)
    (hdocs : Documented T n q (Item.readable as))
    (hw : Spelt T ((Item.readable as).flatMap fun a => a.words ++ [.lineBreak]) q q')
    (ends : T.tag q' = .eof) (hc : ∀ x ∈ as.flatMap Item.details, x.Kept) :
    ItemsAt T n q (Item.allPruned as) ∧ T.tag q ≠ .lineBreak ∧ T.tag q ≠ .keyword .elseKw := by
  induction h generalizing q n with
  | stop _ =>
    cases hw
    exact ⟨.stop ends, by rw [ends]; decide, by rw [ends]; decide⟩
  | @more _ _ a _ _ _ h _ ih =>
    obtain ⟨hc, hc'⟩ := List.forall_mem_append.1 hc
    cases read : a.isError with
    | true =>
      rw [Item.readable_of_error read] at hdocs hw
      rw [Item.allPruned, Item.readable_of_error read]
      exact ih hdocs hw hc'
    | false =>
      rw [Item.readable_of_read read] at hdocs hw
      rw [Item.allPruned, Item.readable_of_read read]
      rw [List.flatMap_cons] at hw
      obtain ⟨_, front, rest⟩ := Spelt.append.1 hw
      obtain ⟨l, here, line, rfl⟩ := front.snoc
      obtain ⟨others, break', else'⟩ := ih (hdocs.2 l here) rest hc'
      have line : T.tag l = .lineBreak := line
      have no : ¬ T.ElseNext l := fun next => by
        rw [Setting.ElseNext, if_pos line] at next
        exact else' next
      obtain ⟨first, starts⟩ := h.again s t dialect hdocs.1 here line no hc read
      refine ⟨.more (ne_of_not_behind starts (by decide)) first ?_,
        ne_of_not_behind starts (by decide), ne_of_not_behind starts (by decide)⟩
      rwa [past_of_line line break']

end Grammar

end Surface
