import Surface.Proofs.Folding.Readers

/-!
# Declarations and files on a stream and without its line breaks in groups

Declarations stand where no bracket is open, and the members of a type between its braces, so that
line breaks carry meaning there on both streams.

Results:
* `decl_folds`, `item_folds`: declarations and items are the same on both streams.
* `file_folds`: so are whole files.
-/

set_option synthInstance.maxSize 400

namespace Surface.Grammar

open Groups Folding

variable {F : Folding} {m : Nat} {c : Context} {openers : List Tag} {p : Nat}

/-! ## Attributes -/

theorem attrArgs_folds : Folds F m c openers p attrArgs attrArgs openers := by
  refine .looks .isNext (.ite (fun h => ?_) fun _ => .pure)
  refine .openGroup (.inl (by simpa using h)) fun k hk q _ => ?_
  refine .bind (exprs_fold inner_folded (Nat.lt_succ_self k)) fun _ _ => ?_
  exact .bind (.closeGroup (by split <;> rfl)) fun _ _ => .pure

theorem attr_folds (h : F.left.tag p = .punct .atSign) : Folds F m c openers p attr attr openers := by
  refine .take (by rw [h]; decide) fun k hk _ => .bind path_folds fun _ _ => ?_
  exact .bind attrArgs_folds fun _ _ => .looks .previousSpan (.skipBreaks .pure)

theorem attrs_fold : Folds F m c openers p attrs attrs openers := by
  refine .collectWhile (fun _ => .isNext) (fun q h => attr_folds (by simpa using h)) fun q h => ?_
  have sign : F.left.tag q = .punct .atSign := by simpa using h
  exact .bind (.take (by rw [sign]; exact Tag.noConfusion))

/-! ## Parts -/

theorem paramList_folds (h : paramListTags.contains (F.left.tag p) = true) :
    Folds F m c openers p paramList paramList openers := by
  refine .looks .isNext (.bind ?_ fun _ _ => .pure)
  exact paramGroup_folds inner_folded (Nat.le_refl m) (tag_of_paramListTags h) _

theorem optionalType_folds : Folds F m c openers p optionalType optionalType openers := by
  refine .accept (by decide) (fun _ k hk _ => ?_) fun _ => ?_
  · exact .ite (fun _ => .map (type_folds inner_folded (Nat.lt_succ_self k))) fun h => absurd rfl h
  · exact .ite (fun h => absurd h Bool.false_ne_true) fun _ => .pure

theorem optionalBlock_folds : Folds F m c openers p optionalBlock optionalBlock openers :=
  .looks .isNext (.ite (fun _ => .map block_folds) fun _ => .pure)

theorem command_folds (h : F.left.tag p = .punct .hash) :
    Folds F m c openers p command command openers := by
  refine .take (by rw [h]; decide) fun k hk _ => .bind path_folds fun _ _ => ?_
  refine .bind (.collectWhile (fun _ => .isNextIn)
    (fun _ _ => primary_folds inner_folded (Nat.le_refl k)) fun _ _ => ?_) fun _ _ => .pure
  exact .of_yields (primary_yields inner_yields) fun _ _ h => h.lt

section

variable (ho : folds openers = false)

include ho

theorem paramLists_fold : Folds F m .none openers p paramLists paramLists openers := by
  refine .collectWhile (fun _ => .isNextIn) (fun q h => paramList_folds h) fun q h => ?_
  rw [ho]
  exact .of_yields (paramList_yields h) fun _ _ h => h.lt

theorem signature_folds : Folds F m .none openers p signature signature openers := by
  refine .bind path_folds fun _ _ => .bind (paramLists_fold ho) fun _ _ => ?_
  refine .bind optionalType_folds fun _ _ => .bind optionalBlock_folds fun _ _ => ?_
  exact .looks .previousSpan .pure

omit ho in
theorem clause_folds : Folds F m c openers p clause clause openers := by
  have patterns (q : Nat) : Folds F m c openers q (collectWhile (isNotNext (.reserved .eq)) atomicPattern)
      (collectWhile (isNotNext (.reserved .eq)) atomicPattern) openers :=
    .collectWhile (fun _ => .isNotNext) (fun _ _ => atomicPattern_folds) fun _ _ =>
      .of_yields atomicPattern_yields fun _ _ h => h.lt
  have built {name : Path} {ps : List Pattern} {value : Option Expr} {k q : Nat} :
      Folds F k c openers q (do
        return ⟨name, ps, value, name.span.merge (← previousSpan)⟩ : Reader Clause) (do
        return ⟨name, ps, value, name.span.merge (← previousSpan)⟩) openers := .looks .previousSpan .pure
  refine .bind path_folds fun name q => .bind_yields (patterns q) (Yields.collectWhile
    (fun _ => Runs.isNotNext) (fun _ _ => atomicPattern_yields) (fun _ _ _ h => h.lt) q) ?_
  intro ps l stop k hk _
  have eq : F.left.tag l = .reserved .eq := by simpa using stop.2
  refine .take (by rw [eq]; decide) fun _ _ _ => .looks .isNext (.looks .isNext ?_)
  exact .ite (fun _ => .bind .pure fun _ _ => built) fun _ => .bind (.map expr_folds) fun _ _ => built

/-! ## Type declarations -/

omit ho in
/-- Whether a colon stands behind the name of a parameter of a constructor looks the same. -/
theorem right_named (start : F.left.input.tokens.StartsCtorParam p) (kept : ¬ F.Dropped p) :
    (nameTags.contains (F.left.tag p) && decide (F.right.tag (F.place p + 1) = .punct .colon))
      = (nameTags.contains (F.left.tag p) && decide (F.left.tag (p + 1) = .punct .colon)) := by
  cases name : nameTags.contains (F.left.tag p) with
  | false => rfl
  | true =>
    rcases right_behind_dropped kept (isPlain_of_name name).2.2 with same | ⟨dropped, same⟩
    · rw [same]
    · -- a colon behind the line break would be hidden by it
      have no_colon : F.left.tag (F.left.past (p + 1)) ≠ .punct .colon :=
        fun colon => F.whole p ⟨dropped, .inr ⟨name, colon, start⟩⟩
      have lineBreak : F.left.tag (p + 1) = .lineBreak := dropped.2
      rw [same, lineBreak, decide_eq_false no_colon]
      rfl

omit ho in
theorem ctorParam_folds (start : F.left.input.tokens.StartsCtorParam p) :
    Folds F m c [.punct .openParen, .punct .openBrace] p ctorParam ctorParam
      [.punct .openParen, .punct .openBrace] := by
  refine .looks .isNameNext fun s at_p few => ?_
  have behind : F.right.input.tokens.tag ((F.other s).cursor.position + 1)
      = F.right.tag (F.place p + 1) := by
    rw [at_p.other_position]
    rfl
  rw [bind_of_ok (tagBehind_run ..), bind_of_ok (tagBehind_run ..), at_p.standing.position, behind,
    right_named start at_p.kept]
  refine Folds.ite (F := F) (m := m) (c := c) (p := p) (fun named => ?_) (fun _ => ?_) s at_p few
  · rw [Bool.and_eq_true, decide_eq_true_eq] at named
    refine .bind_yields ident_folds ident_yields fun x q known k hk _ => ?_
    obtain ⟨-, rfl⟩ := known
    have colon : F.left.tag (p + 1) = .punct .colon := named.2
    have behind : F.left.tag (F.left.next (folds [.punct .openParen, .punct .openBrace]) p)
        = .punct .colon :=
      (congrArg F.left.tag (Setting.past_of_ne (by rw [colon]; exact Tag.noConfusion))).trans colon
    refine .take (by rw [behind]; decide) fun l hl _ => ?_
    exact .bind (type_folds inner_folded (Nat.lt_succ_self l)) fun _ _ => .pure
  · exact .bind (type_folds inner_folded (Nat.lt_succ_self m)) fun _ _ => .pure

omit ho in
/-- The parameters of a constructor are parts of the parentheses behind its path. -/
theorem ctorParams_fold {q : Nat} (paren : F.left.tag p = .punct .openParen)
    (path : F.left.input.tokens.BehindCtorPath p) (first : F.left.PartAt p q) :
    Folds F m .none [.punct .openParen, .punct .openBrace] q (nestedList (.punct .closeParen) ctorParam)
      (nestedList (.punct .closeParen) ctorParam) [.punct .openParen, .punct .openBrace] := by
  refine .within (.commaList_from (fun q part => ?_) (fun q part => ?_) first)
  · exact ctorParam_folds ⟨p, part.nested.le, paren, path, part.starts⟩
  · refine ctorParam_yields.mono fun a j h => ⟨h.lt, fun comma => ?_⟩
    exact part.next ((h.balanced F.ordered).between fun hf => absurd hf F.read) comma

omit ho in
theorem ctorForm_folds (path : F.left.input.tokens.BehindCtorPath p) :
    Folds F m .none [.punct .openBrace] p ctorForm ctorForm [.punct .openBrace] := by
  refine .accept (by decide) (fun _ k hk _ => ?_) fun _ => ?_
  · refine .ite (fun _ => ?_) fun h => absurd rfl h
    exact .bind (type_folds inner_folded (Nat.lt_succ_self k)) fun _ _ => .pure
  refine .ite (fun h => absurd h Bool.false_ne_true) fun _ => ?_
  refine .looks .isNext (.ite (fun h => ?_) fun _ => .pure)
  have paren : F.left.tag p = .punct .openParen := by simpa using h
  refine .openGroup (.inl paren) fun k hk q hq => ?_
  subst hq
  rw [paren]
  refine .bind (ctorParams_fold paren path (.first F.left p)) fun _ _ => ?_
  exact .bind (.closeGroup rfl) fun _ _ => .pure

omit ho in
theorem ctor_folds (start : F.left.input.tokens.StartsCtor p) :
    Folds F m .none [.punct .openBrace] p ctor ctor [.punct .openBrace] :=
  .bind_yields path_folds path_yields fun _ _ name _ _ _ =>
    .bind (ctorForm_folds (name.behindCtorPath start)) fun _ _ => .looks .previousSpan .pure

omit ho in
theorem ctorItem_folds (start : F.left.input.tokens.StartsCtor p) :
    Folds F m .none [.punct .openBrace] p ctorItem ctorItem [.punct .openBrace] := by
  have rest (ctor : Ctor) (comma : Bool) (k q : Nat) : Folds F k .none [.punct .openBrace] q (do
      if ← isSemicolonNext then return (ctor, false)
      else if comma then
        skipBreaks
        return (ctor, true)
      else if ← isNext .lineBreak then
        let methodNext := nameTags.contains (← tagBehind)
        skipBreaks
        if methodNext then throw ⟨.missingMethodSeparator, ← nextSpan, none⟩
        return (ctor, false)
      else return (ctor, false)) (do
      if ← isSemicolonNext then return (ctor, false)
      else if comma then
        skipBreaks
        return (ctor, true)
      else if ← isNext .lineBreak then
        let methodNext := nameTags.contains (← tagBehind)
        skipBreaks
        if methodNext then throw ⟨.missingMethodSeparator, ← nextSpan, none⟩
        return (ctor, false)
      else return (ctor, false)) [.punct .openBrace] := by
    refine .looks .isSemicolonNext (.ite (fun _ => .pure) fun _ => ?_)
    refine .ite (fun _ => .skipBreaks .pure) fun _ => ?_
    refine .looks .isNext (.ite (fun lineBreak => ?_) fun _ => .pure)
    refine .looks (.tagBehind (of_decide_eq_true lineBreak)) (.skipBreaks ?_)
    refine .ite (fun _ => ?_) fun _ => .pure
    exact .looks .nextSpan .throw_bind
  exact .bind (ctor_folds start) fun ctor _ => .accept (by decide) (fun _ k _ q => rest ctor true k q)
    fun _ => rest ctor false m _

omit ho in
/-- The constructors of a type are parts of its braces before which no semicolon stands. -/
theorem ctors_fold (opens : F.left.input.tokens.OpensMembers p) :
    Folds F m .none [.punct .openBrace] (p + 1) ctors ctors [.punct .openBrace] := by
  refine .looks .isSemicolonNext (.ite (fun _ => .pure) fun no => .skipBreaks ?_)
  have first : F.left.CtorAhead p (F.left.past (p + 1)) :=
    .first F.apart opens.1 (mt semicolonAt_iff.2 no)
  refine .collect_from (fun _ => .isInBraces) (fun q ahead _ => ?_) (fun q ahead _ =>
    .of_yields ctorItem_yields fun r j h => ⟨h.lt, fun more => ?_⟩) first
  · exact ctorItem_folds ⟨p, ahead.nested.le, opens, ahead.starts, ahead.plain⟩
  · obtain ⟨k, ctor, ends⟩ := h
    rw [if_pos more] at ends
    obtain ⟨comma, no, rfl⟩ := ends
    exact ahead.next F.apart ((ctor.balanced F.ordered).between fun hf => absurd hf F.read) comma no

theorem method_folds : Folds F m .none openers p method method openers :=
  .bind (signature_folds ho) fun _ _ => .looks .isNext (.skipBreaks .pure)

theorem methods_fold : Folds F m .none openers p methods methods openers := by
  refine .collect (fun _ => .isInBraces) (fun _ _ => method_folds ho) fun _ _ => ?_
  rw [ho]
  exact .of_yields method_yields fun _ _ h => h.lt

omit ho in
theorem members_fold (sort : TypeSort) (opens : sort ≠ .trait → F.left.input.tokens.OpensMembers p) :
    Folds F m .none [.punct .openBrace] (p + 1) (members sort) (members sort) [.punct .openBrace] := by
  have methods (k q : Nat) : Folds F k .none [.punct .openBrace] q methods methods [.punct .openBrace] :=
    methods_fold rfl
  refine .ite (fun _ => .skipBreaks (.bind (methods m _) fun _ _ => .pure)) fun no => ?_
  refine .bind (ctors_fold (opens (by simpa using no))) fun _ _ => .looks .isSemicolonNext ?_
  exact .ite (fun _ => .skipBreaks (.bind (methods m _) fun _ _ => .pure)) fun _ => .pure

omit ho in
theorem typeBody_folds (sort : TypeSort) (h : F.left.tag p = .punct .openBrace)
    (opens : sort ≠ .trait → F.left.input.tokens.OpensMembers p) :
    Folds F m .none [] p (typeBody sort) (typeBody sort) [] := by
  refine .openBrace h fun k hk q hq => ?_
  subst hq
  exact .bind (.within (members_fold sort opens)) fun _ _ => .bind (.closeGroup rfl) fun _ _ => .pure

omit ho in
theorem visibility_folds : Folds F m c openers p visibility visibility openers := by
  refine .looks .nextTag ?_
  cases hv : visibilityOf? (F.left.tag p) with
  | none => exact .pure
  | some v =>
    exact .take (isPlain_of_type (typeTags_of_visibility hv)) fun _ _ _ => .pure

omit ho in
theorem typeSort_folds : Folds F m c openers p typeSort typeSort openers := by
  refine .looks .nextTag ?_
  cases hs : typeSortOf? (F.left.tag p) with
  | none => exact .unexpected
  | some sort =>
    exact .take (isPlain_of_type (typeTags_of_typeSort hs)) fun _ _ _ => .pure

end

theorem typeDecl_folds : Folds F m .none [] p typeDecl typeDecl [] := by
  refine .bind visibility_folds fun _ k => .opened fun opened => ?_
  refine .bind_yields typeSort_folds typeSort_yields fun sort _ keyword _ _ _ => ?_
  obtain ⟨tag, rfl⟩ := keyword
  refine .bind_yields path_folds path_yields fun _ _ name _ _ _ => ?_
  refine .bind_yields (paramLists_fold rfl) paramLists_yields fun _ _ params _ _ _ => ?_
  refine .bind_yields optionalType_folds optionalType_yields fun _ q type _ _ _ => .looks .isNext ?_
  refine .ite (fun brace => ?_) fun _ => .bind .pure fun _ _ => .pure
  have brace : F.left.tag q = .punct .openBrace := by simpa using brace
  have opens (no : sort ≠ .trait) : F.left.input.tokens.OpensMembers q :=
    opensMembers_of_head F.ordered F.apart F.read opened tag no name params type brace
  exact .bind (.map (typeBody_folds sort brace opens)) fun _ _ => .pure

/-! ## Declarations -/

theorem declForm_folds : Folds F m .none [] p declForm declForm [] := by
  have type : Folds F m .none [] p (DeclForm.type <$> inConstruct .typeDeclaration typeDecl)
      (DeclForm.type <$> inConstruct .typeDeclaration typeDecl) [] := .map (.inConstruct typeDecl_folds)
  have named : Folds F m .none [] p (do
      if ← isAhead (.reserved .eq) then .clause <$> inConstruct .clause clause
      else .signature <$> inConstruct .signature signature : Reader DeclForm) (do
      if ← isAhead (.reserved .eq) then .clause <$> inConstruct .clause clause
      else .signature <$> inConstruct .signature signature) [] :=
    .looks (.isAhead rfl) (.ite (fun _ => .map (.inConstruct clause_folds)) fun _ =>
      .map (.inConstruct (signature_folds rfl)))
  refine .looks .nextTag ?_
  split
  · next tag => exact .take (by rw [tag]; decide) fun _ _ _ => .bind path_folds fun _ _ => .pure
  · next tag => exact command_folds tag
  · exact type
  · exact type
  · exact type
  · exact type
  · exact type
  · exact type
  · exact type
  · exact named
  · exact named
  · exact .absent

theorem decl_folds (docsFrom : Nat) : Folds F m .none [] p (decl docsFrom) (decl docsFrom) [] := by
  refine .looks .docStrings (.looks .nextSpan (.bind attrs_fold fun _ _ => ?_))
  refine .bind declForm_folds fun _ _ => ?_
  exact .looks .previousSpan .pure

/-! ## Items and files -/

theorem isDeclNext_folds : Folds F m c [] p isDeclNext isDeclNext [] := by
  refine .read ?_
  rw [F.dialect]
  refine .ite (fun _ => .pure) fun _ => .ite (fun _ => .pure) fun _ => ?_
  exact .looks .isNextIn (.ite (fun _ => .pure) fun _ => .looks .isNameNext (.looks (.isAhead rfl) .pure))

theorem wholeItem_folds (asDecl : Bool) (docsFrom : Nat) :
    Folds F m .none [] p (wholeItem asDecl docsFrom) (wholeItem asDecl docsFrom) [] := by
  have whole (a : Item) (q : Nat) : Folds F m .none [] q
      (do if ← isNextIn itemBoundary then return a else unexpected itemBoundary)
      (do if ← isNextIn itemBoundary then return a else unexpected itemBoundary) [] :=
    .looks .isNextIn (.ite (fun _ => .pure) fun _ => .unexpected)
  refine .read ?_
  rw [F.dialect]
  refine .ite (fun _ => .failWith_bind) fun _ => .ite (fun _ => ?_) fun _ => ?_
  · exact .bind (.map (decl_folds docsFrom)) whole
  · exact .bind (.map (stmt_folds rfl)) whole

theorem item_folds (docsFrom : Nat) : Folds F m .none [] p (item docsFrom) (item docsFrom) [] := by
  refine .looks .nextSpan fun s at_p few => ?_
  rw [bind_of_ok (cursor_run ..), bind_of_ok (cursor_run ..)]
  exact Folds.bind isDeclNext_folds (fun asDecl _ => .recovered (wholeItem_folds asDecl docsFrom))
    s at_p few

/-- An item without errors takes a token. -/
theorem item_moves (docsFrom : Nat) : MovesAt F.left .none false p (item docsFrom) := by
  refine .ran Runs.nextSpan fun s a t hs run none => ?_
  rw [bind_of_ok (cursor_run ..)] at run
  obtain ⟨asDecl, isDecl, runs⟩ := isDeclNext_run (S := F.left) (c := .none) (b := false) (i := p)
  have whole : MovesAt F.left .none false p (wholeItem asDecl docsFrom) :=
    .of_yields (wholeItem_yields isDecl docsFrom) fun _ _ h => h.lt
  exact MovesAt.ran runs (.recovered whole) s a t hs run none

theorem items_fold (docsFrom : Nat) : Folds F m .none [] p (items docsFrom) (items docsFrom) [] := by
  have rounds : Folds F m .none [] p (repeated ((#[] : Array Item), docsFrom) itemsRound)
      (repeated ((#[] : Array Item), docsFrom) itemsRound) [] := by
    refine .repeated (fun r q => ?_) fun r q s r' t at_q run none => ?_
    · refine .looks .isNext (.ite (fun _ => .pure) fun _ => .bind (item_folds r.2) fun _ _ => ?_)
      exact .looks .previousSpan (.skipBreaks .pure)
    · unfold itemsRound at run
      rw [bind_of_ok (isNext_run ..)] at run
      split at run
      · cases run
      · exact MovesAt.bind (item_moves r.2) s _ t at_q.standing run none
  exact .bind rounds fun _ _ => .pure

theorem shebang_folds (line : Option Shebang) :
    Folds F m c openers p (shebang line) (shebang line) openers := by
  cases line with
  | none => exact .pure
  | some l =>
    refine .read ?_
    rw [F.dialect]
    refine .ite (fun _ => .pure) fun _ s at_p _ => ?_
    exact .ok (Nat.le_refl p) (at_p.built rfl rfl)

/-- Whole files are the same on both streams. -/
theorem file_folds (line : Option Shebang) : Folds F m .none [] p (file line) (file line) [] := by
  refine .bind (shebang_folds line) fun _ _ => .skipBreaks (.bind (items_fold _) fun _ _ => ?_)
  exact .looks .nextSpan .pure

end Surface.Grammar
