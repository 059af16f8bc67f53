import Surface.Proofs.Parallel.Readers

/-!
# Declarations and files on both sides of a bridge

Results:
* `decl_twin`, `item_twin`: declarations and items are the same on both sides.
* `file_twin`: where both streams end at the wall, so are whole files.
-/

namespace Surface.Grammar

variable {B : Bridge} {e o p : Nat} {c : Context} {b : Bool}

/-! ## Attributes -/

theorem attrArgs_twin : Twin B e c b o p attrArgs attrArgs b o Like := by
  refine .looks (.isNext Tag.noConfusion Tag.noConfusion) (.ite (fun h => ?_) fun _ => .pure .none)
  refine .bind (.openGroup (.inl (by simpa using h))) fun g g' q _ _ hg => ?_
  refine .bind (exprs_twin inner_twins (Nat.zero_le _)) fun es es' k _ _ hes => ?_
  exact .bind (.closeGroup hg.1) fun _ _ _ _ _ _ => .pure (.some hes.1)

theorem attr_twin (h : B.left.tag p = .punct .atSign) : Twin B e c b o p attr attr b o Like := by
  refine .intro fun inside => .bind (.take (by rw [h]; decide)) fun _ _ q _ _ _ => ?_
  have exact : B.exact := B.atSign p (Bridge.lt_wall inside.le_wall (by rw [h]; exact Tag.noConfusion)
    (by rw [h]; exact Tag.noConfusion)) h
  refine .bind path_twin fun x x' k _ _ hx => .bind attrArgs_twin fun as as' l _ _ has => ?_
  refine .look Runs.previousSpan Runs.previousSpan ?_
  refine .bind (.skipBreaks fun _ => .inl exact) fun _ _ _ _ _ _ => .pure (Tree.bare_node rfl ?_ _ _)
  have args : alike (as.getD []) (as'.getD []) := by
    cases has with
    | none => exact List.Forall₂.nil
    | some h => exact h
  simp only [Tree.bareChildren, Path.bare_tree hx, Expr.bare_children "argument" args]

theorem attrs_twin : Twin B e .none false o p attrs attrs false o Like := by
  refine .collectWhile (fun _ _ => .isNext Tag.noConfusion Tag.noConfusion) fun q _ _ h => ?_
  have sign : B.left.tag q = .punct .atSign := by simpa using h
  refine (attr_twin sign).forward (attr_yields sign) fun a j h => ?_
  obtain ⟨k, ha, rfl⟩ := h
  exact Nat.lt_of_lt_of_le ha.lt (B.left.le_past k)

/-! ## Parts -/

theorem paramList_twin (h : paramListTags.contains (B.left.tag p) = true) :
    Twin B e c b o p paramList paramList b o Like := by
  refine .looks (.isNext Tag.noConfusion Tag.noConfusion) ?_
  refine .bind (paramGroup_twin inner_twins (Nat.zero_le _) (tag_of_paramListTags h) _)
    fun ps ps' _ _ _ hps => .pure (Tree.bare_node rfl (Param.bare_children hps.1) _ _)

theorem paramLists_twin : Twin B e .none false o p paramLists paramLists false o Like :=
  .collectWhile (fun _ _ => .isNextIn (by decide)) fun _ _ _ h =>
    (paramList_twin h).forward (paramList_yields h) fun _ _ h => h.lt

theorem optionalType_twin : Twin B e c b o p optionalType optionalType b o Like := by
  refine .bind (.accept (by decide)) fun _ _ _ _ _ h => ?_
  obtain ⟨rfl, -⟩ := h
  exact .ite (fun _ => .optional (type_twin inner_twins (Nat.zero_le _))) fun _ => .pure .none

theorem optionalBlock_twin : Twin B e c b o p optionalBlock optionalBlock b o Like :=
  .looks (.isNext Tag.noConfusion Tag.noConfusion)
    (.ite (fun _ => .optional block_twin) fun _ => .pure .none)

theorem signature_twin : Twin B e .none false o p signature signature false o Like := by
  refine .bind path_twin fun n n' _ _ _ hn => .bind paramLists_twin fun ls ls' _ _ _ hls => ?_
  refine .bind optionalType_twin fun t t' _ _ _ ht => .bind optionalBlock_twin fun v v' _ _ _ hv => ?_
  refine .look Runs.previousSpan Runs.previousSpan (.pure ?_)
  have params := bare_allUnder ParamList.tree (fun _ _ h => h) "arguments" hls
  show Tree.bareChildren (Signature.children _) = Tree.bareChildren (Signature.children _)
  simp only [Signature.children, Tree.bareChildren, Tree.bareChildren_append, Path.bare_tree hn, params,
    Expr.bare_optional "type" ht, Block.bare_optional "value" hv]

theorem clause_twin : Twin B e .none false o p clause clause false o Like := by
  refine .bind path_twin fun n n' k _ _ hn => ?_
  refine .bind ((Twin.collectWhile (fun _ _ => .isNotNext Tag.noConfusion Tag.noConfusion)
    fun q _ _ _ => atomicPattern_twin.forward atomicPattern_yields fun _ _ h => h.lt).sound
    (Yields.collectWhile (fun _ => Runs.isNotNext) (fun _ _ => atomicPattern_yields)
      (fun _ _ _ h => h.lt) k)) fun ps ps' l _ _ h => ?_
  obtain ⟨hps, -, stop⟩ := h
  have eq : B.left.tag l = .reserved .eq := by simpa using stop
  refine .bind (.take (by rw [eq]; decide)) fun _ _ q _ inside _ => ?_
  refine .look Runs.isNext Runs.isNext (.look Runs.isNext Runs.isNext ?_)
  have ended : (decide (B.right.tag (q + B.shift) = .lineBreak)
      || decide (B.right.tag (q + B.shift) = .eof))
      = (decide (B.left.tag q = .lineBreak) || decide (B.left.tag q = .eof)) :=
    Bridge.tag_congr inside.le_wall (fun t => decide (t = .lineBreak) || decide (t = .eof)) rfl
  have built {v v' : Option Expr} {j : Nat} (hv : alike v v') : Twin B e .none false o j
      (do return ⟨n, ps, v, n.span.merge (← previousSpan)⟩ : Reader Clause)
      (do return ⟨n', ps', v', n'.span.merge (← previousSpan)⟩) false o Like := by
    refine .look Runs.previousSpan Runs.previousSpan (.pure ?_)
    show Tree.bareChildren (Clause.children _) = Tree.bareChildren (Clause.children _)
    simp only [Clause.children, Pattern.children, Tree.bareChildren, Tree.bareChildren_append,
      Path.bare_tree hn, Pattern.bare_args hps, Expr.bare_optional "value" hv]
  rw [ended]
  refine .ite (fun _ => ?_) fun _ => ?_
  · exact .bind (.pure Option.Rel.none) fun _ _ _ _ _ h => built h
  · exact .bind (.optional expr_twin) fun _ _ _ _ _ h => built h

theorem command_twin (h : B.left.tag p = .punct .hash) :
    Twin B e c b o p command command b o Like := by
  refine .bind (.take (by rw [h]; decide)) fun _ _ _ _ _ _ => .bind path_twin fun n n' _ _ _ hn => ?_
  refine .bind (.collectWhile (fun _ _ => .isNextIn (by decide)) fun q _ _ _ =>
    (primary_twin inner_twins (Nat.zero_le _)).forward (primary_yields inner_yields) fun _ _ h => h.lt)
    fun as as' _ _ _ has => .pure ⟨rfl, ?_⟩
  simp only [DeclForm.children, Tree.bareChildren, Path.bare_tree hn, Expr.bare_children "argument" has]

/-! ## Type declarations -/

theorem ctorParam_twin : Twin B e c b o p ctorParam ctorParam b o Like := by
  refine .intro fun inside => .looks .isNameNext (.look Runs.tagBehind Runs.tagBehind ?_)
  have named : (nameTags.contains (B.left.tag p)
        && decide (B.right.tag (p + B.shift + 1) = .punct .colon))
      = (nameTags.contains (B.left.tag p) && decide (B.left.tag (p + 1) = .punct .colon)) := by
    cases hn : nameTags.contains (B.left.tag p) with
    | false => rfl
    | true =>
      obtain ⟨lt, -⟩ := inside.lt_ceil (not_stop_of_name hn)
      rw [Nat.add_right_comm, Bridge.tag_eq_iff (Nat.succ_le_of_lt lt) Tag.noConfusion Tag.noConfusion]
  rw [named]
  refine .ite (fun h => ?_) fun _ => ?_
  · rw [Bool.and_eq_true, decide_eq_true_eq] at h
    refine .bind (ident_twin.sound ident_yields) fun x x' k _ _ hx => ?_
    obtain ⟨hx, -, rfl⟩ := hx
    have colon : B.left.tag (B.left.next b p) = .punct .colon := by
      unfold Setting.next
      split
      · rw [Setting.past_of_ne (by rw [h.2]; exact Tag.noConfusion), h.2]
      · exact h.2
    refine .bind (.take (by rw [colon]; decide)) fun _ _ _ _ _ _ => ?_
    refine .bind (type_twin inner_twins (Nat.zero_le _)) fun t t' _ _ _ ht => .pure ?_
    refine Tree.bare_node rfl ?_ _ _
    simp only [Tree.bareChildren, Ident.tree, Tree.bare, show _ = _ from hx, show _ = _ from ht]
  · exact .bind (type_twin inner_twins (Nat.zero_le _)) fun t t' _ _ _ ht => .pure ht

theorem ctorForm_twin : Twin B e .none false o p ctorForm ctorForm false o Like := by
  refine .bind (.accept (by decide)) fun _ _ _ _ _ h => ?_
  obtain ⟨rfl, -⟩ := h
  refine .ite (fun _ => ?_) fun _ => .looks (.isNext Tag.noConfusion Tag.noConfusion) ?_
  · exact .bind (type_twin inner_twins (Nat.zero_le _)) fun t t' _ _ _ ht => .pure ht
  refine .ite (fun h => ?_) fun _ => .pure Option.Rel.none
  refine .bind (.openGroup (.inl (by simpa using h))) fun g g' q _ _ hg => ?_
  refine .bind (.nestedList fun k _ _ => ctorParam_twin.forward ctorParam_yields fun _ _ h => h.lt)
    fun ps ps' k _ _ hps => ?_
  exact .bind (.closeGroup hg.1) fun _ _ _ _ _ _ => .pure (Option.Rel.some hps.1)

theorem ctor_twin : Twin B e .none false o p ctor ctor false o Like := by
  refine .bind path_twin fun n n' _ _ _ hn => .bind ctorForm_twin fun f f' _ _ _ hf => ?_
  refine .look Runs.previousSpan Runs.previousSpan (.pure ?_)
  cases f with
  | typed t =>
    cases f' with
    | typed t' =>
      refine Tree.bare_node rfl ?_ _ _
      simp only [Tree.bareChildren, Path.bare_tree hn, show t.tree.bare = t'.tree.bare from hf]
    | applied ps' => exact (show False from hf).elim
  | applied ps =>
    cases f' with
    | typed t' => exact (show False from hf).elim
    | applied ps' =>
      have params : alike (ps.getD []) (ps'.getD []) := by
        cases (show Option.Rel alike ps ps' from hf) with
        | none => exact List.Forall₂.nil
        | some h => exact h
      refine Tree.bare_node rfl ?_ _ _
      simp only [Tree.bareChildren, Path.bare_tree hn,
        bare_allUnder CtorParam.tree (fun _ _ h => h) "parameter" params]

section

variable (hf : B.Free (B.ceil o))

include hf

theorem ctorItem_twin : Twin B e .none false o p ctorItem ctorItem false o Like := by
  refine .bind ctor_twin fun a a' k _ _ ha => .bind (.accept (by decide)) fun comma _ l _ _ h => ?_
  obtain ⟨rfl, -⟩ := h
  refine .looks (.isSemicolonNext fun h => hf.mono h.below) (.ite (fun _ => .pure ⟨ha, rfl⟩) fun _ => ?_)
  refine .ite (fun _ => ?_) fun _ => .looks (.isNext_of_free fun h => hf.mono h.below) ?_
  · exact .bind (.skipBreaks fun h => hf.mono h.below) fun _ _ _ _ _ _ => .pure ⟨ha, rfl⟩
  refine .ite (fun lineBreak => ?_) fun _ => .pure ⟨ha, rfl⟩
  refine .intro fun inside => .look Runs.tagBehind Runs.tagBehind ?_
  have lt : l < B.wall := Bridge.lt_wall_of_free inside.le_wall (hf.mono inside.below) (by
    rw [of_decide_eq_true lineBreak]
    exact Tag.noConfusion)
  rw [Nat.add_right_comm, Bridge.contains_eq (Nat.succ_le_of_lt lt) (by decide)]
  refine .bind (.skipBreaks fun h => hf.mono h.below) fun _ _ j _ _ _ => .ite (fun _ => ?_) fun _ => ?_
  · refine .look Runs.nextSpan Runs.nextSpan ?_
    have fails (span span' : Span) : Twin B e .none false o j
        (throw ⟨.missingMethodSeparator, span, none⟩ : Reader Unit)
        (throw ⟨.missingMethodSeparator, span', none⟩) false o fun _ _ _ => False :=
      .fails (fun _ => rfl) (fun _ => rfl) fun _ _ _ _ => ⟨rfl, rfl⟩
    exact .bind (fails _ _) fun _ _ _ _ _ h => h.elim
  · exact .pure ⟨ha, rfl⟩

theorem ctors_twin : Twin B e .none false o p ctors ctors false o Like := by
  refine .looks (.isSemicolonNext fun h => hf.mono h.below)
    (.ite (fun _ => .pure List.Forall₂.nil) fun _ => ?_)
  refine .bind (.skipBreaks fun h => hf.mono h.below) fun _ _ _ _ _ _ => ?_
  exact .collect (fun _ _ => .isInBraces fun h => hf.mono h.below) fun _ _ _ _ =>
    (ctorItem_twin hf).forward ctorItem_yields fun _ _ h => h.lt

theorem method_twin : Twin B e .none false o p method method false o Like := by
  refine .bind signature_twin fun a a' _ _ _ ha => .looks (.isNext_of_free fun h => hf.mono h.below) ?_
  exact .bind (.skipBreaks fun h => hf.mono h.below) fun _ _ _ _ _ _ => .pure ⟨ha, rfl⟩

theorem methods_twin : Twin B e .none false o p methods methods false o Like :=
  .collect (fun _ _ => .isInBraces fun h => hf.mono h.below) fun _ _ _ _ =>
    (method_twin hf).forward method_yields fun _ _ h => h.lt

theorem members_twin (sort : TypeSort) :
    Twin B e .none false o p (members sort) (members sort) false o Like := by
  refine .ite (fun _ => ?_) fun _ => ?_
  · refine .bind (.skipBreaks fun h => hf.mono h.below) fun _ _ _ _ _ _ => ?_
    exact .bind (methods_twin hf) fun _ _ _ _ _ h => .pure ⟨List.Forall₂.nil, h⟩
  · refine .bind (ctors_twin hf) fun cs cs' _ _ _ hcs => ?_
    refine .looks (.isSemicolonNext fun h => hf.mono h.below)
      (.ite (fun _ => ?_) fun _ => .pure ⟨hcs, List.Forall₂.nil⟩)
    refine .bind (.skipBreaks fun h => hf.mono h.below) fun _ _ _ _ _ _ => ?_
    exact .bind (methods_twin hf) fun _ _ _ _ _ h => .pure ⟨hcs, h⟩

end

theorem typeBody_twin (sort : TypeSort) (h : B.left.tag p = .punct .openBrace) :
    Twin B e .none false o p (typeBody sort) (typeBody sort) false o Like := by
  refine .bind (.openBrace h) fun g g' q _ _ hg => ?_
  have free : B.Free (B.ceil (p + 1)) := (B.opened p hg.1.lt hg.1.opener).1
  refine .bind (.within (members_twin free sort)) fun r r' _ _ _ hr => ?_
  refine .bind (.closeGroup hg.1) fun _ _ _ _ _ _ => .pure (Tree.bare_node rfl ?_ _ _)
  have ctors := bare_allUnder Ctor.tree (fun _ _ h => h) "constructor" hr.1
  have methods := bare_allUnder Signature.tree
    (fun _ _ h => Tree.bare_node rfl h _ _) "method" hr.2
  rw [Tree.bareChildren_append, Tree.bareChildren_append, ctors, methods]

theorem not_stop_of_type : ∀ {t : Tag}, typeTags.contains t = true → stopTags.contains t = false := by
  decide

theorem visibility_twin : Twin B e c b o p visibility visibility b o Like := by
  refine .intro fun inside => .look Runs.nextTag Runs.nextTag ?_
  rw [Bridge.tag_congr inside.le_wall visibilityOf? rfl]
  cases hv : visibilityOf? (B.left.tag p) with
  | none => exact .pure .none
  | some v =>
    have no_stop := not_stop_of_type (typeTags_of_visibility hv)
    exact .bind (.take no_stop) fun _ _ _ _ _ _ => .pure (.some ⟨rfl, trivial⟩)

theorem typeSort_twin : Twin B e c b o p typeSort typeSort b o Like := by
  refine .intro fun inside => .look Runs.nextTag Runs.nextTag ?_
  rw [Bridge.tag_congr inside.le_wall typeSortOf? rfl]
  cases hs : typeSortOf? (B.left.tag p) with
  | none => exact .unexpected
  | some sort =>
    have no_stop := not_stop_of_type (typeTags_of_typeSort hs)
    exact .bind (.take no_stop) fun _ _ _ _ _ _ => .pure rfl

theorem bare_visibility {v v' : Option (Visibility × Span)} (h : alike v v') :
    Tree.bareChildren (v.elim [] fun (v, span) => [("visibility", .token v.keyword.text span)])
      = Tree.bareChildren (v'.elim [] fun (v, span) => [("visibility", .token v.keyword.text span)]) := by
  cases h with
  | none => rfl
  | some h => simp only [Option.elim, Tree.bareChildren, Tree.bare, show _ = _ from h.1]

theorem typeDecl_twin : Twin B e .none false o p typeDecl typeDecl false o Like := by
  refine .bind visibility_twin fun v v' _ _ _ hv => .bind typeSort_twin fun sort sort' _ _ _ hs => ?_
  obtain rfl : sort = sort' := hs
  refine .bind path_twin fun n n' _ _ _ hn => .bind paramLists_twin fun ls ls' _ _ _ hls => ?_
  refine .bind optionalType_twin fun t t' _ _ _ ht => ?_
  refine .looks (.isNext Tag.noConfusion Tag.noConfusion) ?_
  have built {body body' : Option TypeBody} (h : alike body body') :
      alike (⟨sort, v, n, ls, t, body⟩ : TypeDecl) ⟨sort, v', n', ls', t', body'⟩ := by
    refine ⟨rfl, ?_⟩
    have params := bare_allUnder ParamList.tree (fun _ _ h => h) "arguments" hls
    have members : Tree.bareChildren (body.elim [] fun b => [("body", b.tree)])
        = Tree.bareChildren (body'.elim [] fun b => [("body", b.tree)]) := by
      cases h with
      | none => rfl
      | some h => simp only [Option.elim, Tree.bareChildren, show _ = _ from h]
    simp only [TypeDecl.children, Tree.bareChildren_append, Tree.bareChildren, Path.bare_tree hn, params,
      Expr.bare_optional "type" ht, bare_visibility hv, members]
  refine .ite (fun h => ?_) fun _ => ?_
  · refine .bind (.optional (typeBody_twin sort (by simpa using h))) fun _ _ _ _ _ h => .pure (built h)
  · exact .bind (.pure Option.Rel.none) fun _ _ _ _ _ h => .pure (built h)

/-! ## Declarations -/

theorem declForm_twin : Twin B e .none false o p declForm declForm false o Like := by
  refine .intro fun inside => .look Runs.nextTag Runs.nextTag ?_
  have tags := Bridge.tag_cases inside.le_wall
  have type : Twin B e .none false o p (DeclForm.type <$> inConstruct .typeDeclaration typeDecl)
      (DeclForm.type <$> inConstruct .typeDeclaration typeDecl) false o Like := by
    refine .map (.inConstruct typeDecl_twin) fun d d' _ h => ⟨?_, h.2⟩
    simp only [DeclForm.kind, h.1]
  have named : Twin B e .none false o p (do
      if ← isAhead (.reserved .eq) then DeclForm.clause <$> inConstruct .clause clause
      else DeclForm.signature <$> inConstruct .signature signature) (do
      if ← isAhead (.reserved .eq) then DeclForm.clause <$> inConstruct .clause clause
      else DeclForm.signature <$> inConstruct .signature signature) false o Like := by
    refine .looks .isAhead (.ite (fun _ => ?_) fun _ => ?_)
    · exact .map (.inConstruct clause_twin) fun _ _ _ h => ⟨rfl, h⟩
    · exact .map (.inConstruct signature_twin) fun _ _ _ h => ⟨rfl, h⟩
  generalize hl : B.left.tag p = t at *
  generalize B.right.tag (p + B.shift) = t' at *
  rcases tags with ⟨-, rfl⟩ | ⟨rfl | rfl, rfl | rfl⟩
  · split
    · refine .bind (.take (by rw [hl]; decide)) fun _ _ _ _ _ _ => ?_
      refine .bind path_twin fun x x' _ _ _ hx => .pure ⟨rfl, ?_⟩
      simp only [DeclForm.children, Tree.bareChildren, Path.bare_tree hx]
    · exact command_twin hl
    · exact type
    · exact type
    · exact type
    · exact type
    · exact type
    · exact type
    · exact type
    · exact named
    · exact named
    · exact .absent
  all_goals exact .absent

theorem decl_twin (docsFrom docsFrom' : Nat) :
    Twin B e .none false o p (decl docsFrom) (decl docsFrom') false o Like := by
  have left := docStrings_run (S := B.left) (c := .none) (b := false) (i := p) docsFrom
  have right := docStrings_run (S := B.right) (c := .none) (b := false) (i := p + B.shift) docsFrom'
  rw [B.left_docs] at left
  rw [B.right_docs] at right
  refine .look left right (.look Runs.nextSpan Runs.nextSpan ?_)
  refine .bind attrs_twin fun as as' _ _ _ has => .bind declForm_twin fun f f' _ _ _ hf => ?_
  refine .look Runs.previousSpan Runs.previousSpan (.pure (Tree.bare_node hf.1 ?_ _ _))
  have attributes := bare_allUnder Attribute.tree (fun _ _ h => h) "attribute" has
  simp only [Tree.bareChildren_append, attributes, hf.2]

/-! ## Items and files -/

theorem isDeclNext_twin : Twin B e c b o p isDeclNext isDeclNext b o fun d d' q => d' = d ∧ q = p := by
  refine .look Runs.read Runs.read ?_
  rw [B.dialect]
  refine .ite (fun _ => .pure ⟨rfl, rfl⟩) fun _ => .ite (fun _ => .pure ⟨rfl, rfl⟩) fun _ => ?_
  refine .looks (.isNextIn (by decide)) (.ite (fun _ => .pure ⟨rfl, rfl⟩) fun _ => ?_)
  exact .looks .isNameNext (.looks .isAhead (.pure ⟨rfl, rfl⟩))

theorem wholeItem_twin (asDecl : Bool) (docsFrom docsFrom' : Nat) :
    Twin B e .none false o p (wholeItem asDecl docsFrom) (wholeItem asDecl docsFrom') false o Like := by
  have whole {a a' : Item} {q : Nat} (h : alike a a') : Twin B e .none false o q
      (do if ← isNextIn itemBoundary then return a else unexpected itemBoundary)
      (do if ← isNextIn itemBoundary then return a' else unexpected itemBoundary) false o Like :=
    .looks (.isNextIn (by decide)) (.ite (fun _ => .pure h) fun _ => .unexpected)
  refine .look Runs.read Runs.read ?_
  rw [B.dialect]
  refine .ite (fun _ => ?_) fun _ => .ite (fun _ => ?_) fun _ => ?_
  · have fails : Twin B e .none false o p (absent .item : Reader Item) (absent .item) false o
        fun _ _ _ => False := .absent
    exact .bind fails fun _ _ _ _ _ h => h.elim
  · refine .bind (.map (decl_twin docsFrom docsFrom') fun d d' _ h => ?_) fun _ _ _ _ _ h => whole h
    exact (⟨rfl, h⟩ : alike (Item.decl d) (Item.decl d'))
  · refine .bind (.map stmt_twin fun t t' _ h => ?_) fun _ _ _ _ _ h => whole h
    exact (⟨rfl, h⟩ : alike (Item.stmt t) (Item.stmt t'))

theorem errorItem_twin (asDecl : Bool) (span span' : Span) :
    Twin B e c b o p (errorItem asDecl span) (errorItem asDecl span') b o Like := by
  refine .ite (fun _ => .pure ⟨rfl, rfl⟩) fun _ => .map (P := Like) (.newStmt fun m m' => rfl) ?_
  exact fun t t' _ h => (⟨rfl, h⟩ : alike (Item.stmt t) (Item.stmt t'))

/-- Items are the same on both sides, up to the end of the line or of the part that is shared. -/
theorem item_twin (docsFrom docsFrom' : Nat) (ho : B.ceil o = B.wall) :
    Twin B e .none false o p (item docsFrom) (item docsFrom') false o Like := by
  refine .look Runs.nextSpan Runs.nextSpan ?_
  intro s s' m
  rw [bind_of_ok (cursor_run _ s), bind_of_ok (cursor_run _ s'), m.left.skips, m.right.skips]
  refine Twin.bind isDeclNext_twin (fun d d' q _ _ hd => ?_) s s' m
  obtain ⟨rfl, rfl⟩ := hd
  exact .recovered (wholeItem_twin d' docsFrom docsFrom') (.inl ⟨rfl, ho⟩)
    fun q span span' _ _ => errorItem_twin d' span span'

/-! ## Sequences of items -/

/-- Where both streams end at the wall, the items from one place to the end are the same on both
sides, whatever has been read before. -/
theorem itemsRounds_twin (ho : B.ceil o = B.wall) (hx : B.exact) (hp : B.left.past p = p) (n n' : Nat)
    (hn : B.wall < n + p) (hn' : B.wall < n' + p) (z z' : Array Item × Nat) :
    Twin B e .none false o p (repeatUpTo itemsRound n z) (repeatUpTo itemsRound n' z') false o
      fun r r' _ => ∃ as as', r.1.toList = z.1.toList ++ as ∧ r'.1.toList = z'.1.toList ++ as'
        ∧ alike as as' := by
  let Added (r r' : Array Item × Nat) (_ : Nat) : Prop := ∃ as as' : List Item,
    r.1.toList = z.1.toList ++ as ∧ r'.1.toList = z'.1.toList ++ as' ∧ alike as as'
  refine .repeatUpTo (p := p) (I := fun r r' q => Added r r' q ∧ B.left.past q = q) (Q := Added)
    (fun r r' q _ _ h => ?_) n n' z z' p (Nat.le_refl p) hn hn'
    ⟨⟨[], [], (List.append_nil _).symm, (List.append_nil _).symm, .nil⟩, hp⟩
  refine .looks (.isNext_of_free fun _ => .inl hx) (.ite (fun _ => .pure h.1) fun more => ?_)
  refine .bind ((item_twin r.2 r'.2 ho).forward (item_yields r.2 h.2 (by simpa using more))
    fun _ _ h => h.lt) fun a a' k _ _ ha => .look Runs.previousSpan Runs.previousSpan ?_
  refine .bind (.skipBreaks fun _ => .inl hx) fun _ _ j hj _ hk => .pure ⟨⟨?_, ?_⟩, ?_⟩
  · obtain ⟨⟨as, as', read, read', same⟩, -⟩ := h
    refine ⟨as ++ [a], as' ++ [a'], ?_, ?_, alike_append same (.cons ha.1 .nil)⟩
    · rw [Array.toList_push, read, List.append_assoc]
    · rw [Array.toList_push, read', List.append_assoc]
  · rw [hk, B.left.past_past]
  · exact Nat.lt_of_lt_of_le ha.2 hj

/-- Where both streams end at the wall, the items up to the end are the same on both sides. -/
theorem items_twin (docsFrom docsFrom' : Nat) (ho : B.ceil o = B.wall) (hx : B.exact)
    (hp : B.left.past p = p) :
    Twin B e .none false o p (items docsFrom) (items docsFrom') false o Like := by
  have all : Twin B e .none false o p (repeated ((#[] : Array Item), docsFrom) itemsRound)
      (repeated ((#[] : Array Item), docsFrom') itemsRound) false o
      fun r r' _ => alike r.1.toList r'.1.toList := by
    intro s s' m
    have le := m.inside.le_wall
    have := B.left_size
    have := B.right_size
    have rounds := itemsRounds_twin (e := e) ho hx hp (B.left.input.tokens.size - s.cursor.position + 1)
      (B.right.input.tokens.size - s'.cursor.position + 1)
      (by rw [m.left.position]; omega) (by rw [m.right.position]; omega) (#[], docsFrom) (#[], docsFrom')
    refine rounds.mono (fun r r' _ _ h => ?_) s s' m
    obtain ⟨as, as', read, read', same⟩ := h
    rw [read, read']
    exact same
  exact .bind all fun _ _ _ _ _ h => .pure h

theorem shebang_twin {line line' : Option Shebang} (h : line'.isSome = line.isSome) :
    Twin B e c b o p (shebang line) (shebang line') b o fun l l' q => l'.isSome = l.isSome ∧ q = p := by
  cases line with
  | none =>
    cases line' with
    | none => exact .pure ⟨rfl, rfl⟩
    | some l' => cases h
  | some l =>
    cases line' with
    | none => cases h
    | some l' =>
      refine .look Runs.read Runs.read ?_
      rw [B.dialect]
      refine .ite (fun _ => .pure ⟨rfl, rfl⟩) fun _ => fun s s' m => ?_
      obtain ⟨l₁, l₂, l₃, l₄, l₅⟩ := m.left
      obtain ⟨r₁, r₂, r₃, r₄, r₅⟩ := m.right
      refine .ok rfl rfl (Nat.le_refl _) ⟨rfl, rfl⟩
        ⟨⟨l₁, l₂, l₃, l₄, l₅⟩, ⟨r₁, r₂, r₃, r₄, r₅⟩, m.inside, fun compared => ?_⟩
      obtain ⟨exprs, patterns, stmts, errors⟩ := m.same compared
      refine ⟨exprs, patterns, stmts, ?_⟩
      show List.Forall₂ alike (s.errors.push _).toList (s'.errors.push _).toList
      rw [Array.toList_push, Array.toList_push]
      exact List.rel_append errors (.cons ⟨rfl, rfl⟩ .nil)

/-- Where both streams end at the wall, whole files are the same on both sides. -/
theorem file_twin {line line' : Option Shebang} (h : line'.isSome = line.isSome)
    (ho : B.ceil o = B.wall) (hx : B.exact) :
    Twin B e .none false o p (file line) (file line') false o fun f f' _ => f.tree.bare = f'.tree.bare := by
  refine .bind (shebang_twin h) fun l l' q _ _ hl => ?_
  refine .bind (.skipBreaks fun _ => .inl hx) fun _ _ k _ _ hk => ?_
  have no_break : B.left.past k = k := by rw [hk, B.left.past_past]
  refine .bind (items_twin _ _ ho hx no_break) fun as as' _ _ _ has => ?_
  refine .look Runs.nextSpan Runs.nextSpan (.pure (Tree.bare_node rfl ?_ _ _))
  have first : Tree.bareChildren (l.elim [] fun s => [("shebang", Tree.token "#!" s.span)])
      = Tree.bareChildren (l'.elim [] fun s => [("shebang", Tree.token "#!" s.span)]) := by
    obtain ⟨same, -⟩ := hl
    cases l <;> cases l' <;> first | rfl | cases same
  have items := bareChildren_map Item.child (fun a a' (h : alike a a') => by
    simp only [Tree.bareChildren, h.1, h.2]) has
  rw [Tree.bareChildren_append, Tree.bareChildren_append, first, items]

end Surface.Grammar
