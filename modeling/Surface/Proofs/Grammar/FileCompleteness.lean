import Surface.Proofs.Grammar.Completeness

/-!
# What the rules derive as declarations and files is read

Results:
* `declForm_leads`, `decl_leads`: completeness of the readers of declarations.
* `item_leads`, `items_lead`, `file_leads`: items and whole files.
-/

namespace Surface.Grammar

set_option synthInstance.maxSize 400

variable {S : Setting} {i j : Nat}

section

variable (ok : ¬ S.flawed)

include ok

/-! ## Attributes -/

theorem attrArgs_leads {as : Option (List Expr)} (h : AttrArgsAt S i as j) :
    Leads S attrArgs .none false i (fun as' => as'.map Expr.bares = as.map Expr.bares) false j := by
  refine .ran Runs.isNext ?_
  cases h with
  | some paren h close =>
    refine .ifTrue (decide_eq_true paren) (.ran (Runs.openParen paren) ?_)
    refine .bind (.within (exprs_lead (inner_leads ok) (Nat.zero_le _) h (by decide) (by decide)))
      fun (es, tr) hes => ?_
    exact .ran (Runs.closeGroup (by decide) close) (.pure (congrArg Option.some hes.1))
  | none no_paren => exact .ifFalse (by simpa using no_paren) (.pure rfl)

theorem attr_leads {a : Attribute} (h : AttrAt S i a j) :
    Leads S attr .none false i (fun a' => a'.bare = a.bare) false (S.past j) := by
  obtain ⟨sign, hp, has, _⟩ := h
  refine .ran (Runs.take (by rw [sign]; exact Tag.noConfusion)) (.bind (path_leads hp) fun p' hp' => ?_)
  refine .bind (attrArgs_leads ok has) fun as' has' => .ran Runs.previousSpan (.ran Runs.skipBreaks ?_)
  refine .pure ?_
  rw [Attribute.bare, Attribute.bare, hp', has']

omit ok in
theorem AttrsAt.items {as : List Attribute} (h : AttrsAt S i as j) :
    Items (fun i a j => S.tag i = .punct .atSign ∧ ∃ k, AttrAt S i a k ∧ j = S.past k) i as j
      ∧ S.tag j ≠ .punct .atSign := by
  induction h with
  | stop no => exact ⟨.none, no⟩
  | more h _ ih =>
    have sign := h
    obtain ⟨sign, _, _, _⟩ := sign
    exact ⟨.more ⟨sign, _, h, rfl⟩ ih.1, ih.2⟩

theorem attrs_lead {as : List Attribute} (h : AttrsAt S i as j) :
    Leads S attrs .none false i (fun as' => as'.map Attribute.bare = as.map Attribute.bare) false j := by
  refine .collectWhile (fun _ => Runs.isNext) (h.items.1.mono fun i a j h => ?_)
    (by simpa using h.items.2)
  obtain ⟨sign, k, h, rfl⟩ := h
  exact ⟨decide_eq_true sign, Nat.lt_of_lt_of_le h.lt (S.le_past k), attr_leads ok h⟩

/-! ## Parts -/

theorem paramList_leads {l : ParamList} (h : ParamListAt S i l j) :
    Leads S paramList .none false i (fun l' => l'.bare = l.bare) false j := by
  refine .ran Runs.isNext ?_
  cases h with
  | explicit paren h close _ =>
    refine .bind (paramGroup_leads (inner_leads ok) (Nat.zero_le _) paren (.inl ⟨rfl, rfl⟩) _
      (by simp [paren]) h close) fun (ps, s) hps => .pure ?_
    rw [ParamList.bare, ParamList.bare, paren, show Param.bares ps = _ from hps]
    rfl
  | implicit bracket some h close _ =>
    refine .bind (paramGroup_leads (inner_leads ok) (Nat.zero_le _) bracket (.inr ⟨rfl, rfl⟩) _
      (fun _ => some) h close) fun (ps, s) hps => .pure ?_
    rw [ParamList.bare, ParamList.bare, bracket, show Param.bares ps = _ from hps]
    rfl

omit ok in
theorem ParamListAt.starts {l : ParamList} (h : ParamListAt S i l j) :
    paramListTags.contains (S.tag i) = true := by
  cases h with
  | explicit tag _ _ _ | implicit tag _ _ _ _ =>
    rw [tag]
    decide

omit ok in
theorem ParamListsAt.items {ls : List ParamList} (h : ParamListsAt S i ls j) :
    Items (ParamListAt S) i ls j ∧ paramListTags.contains (S.tag j) = false := by
  induction h with
  | stop no => exact ⟨.none, no⟩
  | more h _ ih => exact ⟨.more h ih.1, ih.2⟩

theorem paramLists_lead {ls : List ParamList} (h : ParamListsAt S i ls j) :
    Leads S paramLists .none false i (fun ls' => ls'.map ParamList.bare = ls.map ParamList.bare)
      false j :=
  .collectWhile (fun _ => Runs.isNextIn)
    (h.items.1.mono fun _ _ _ h => ⟨h.starts, h.lt, paramList_leads ok h⟩) h.items.2

theorem optionalType_leads {t : Option Expr} (h : OptionalTypeAt S i t j) :
    Leads S optionalType .none false i (fun t' => Expr.optionalBare t' = Expr.optionalBare t)
      false j := by
  cases h with
  | some colon h =>
    refine .ran (Runs.acceptNext colon Tag.noConfusion) ?_
    refine (Leads.map (type_leads (inner_leads ok) (Nat.zero_le _) h)).mono ?_
    rintro _ ⟨t', rfl, ht⟩
    exact congrArg Option.some ht
  | none no_colon => exact .ran (Runs.acceptNone no_colon) (.pure rfl)

theorem optionalBlock_leads {t : Option Block} (h : OptionalBlockAt S i t j) :
    Leads S optionalBlock .none false i (fun t' => Block.optionalBare t' = Block.optionalBare t)
      false j := by
  refine .ran Runs.isNext ?_
  cases h with
  | some brace h =>
    refine .ifTrue (decide_eq_true brace) ((Leads.map (block_leads ok h)).mono ?_)
    rintro _ ⟨t', rfl, ht⟩
    exact congrArg Option.some ht
  | none no_brace => exact .ifFalse (by simpa using no_brace) (.pure rfl)

theorem signature_leads {a : Signature} (h : SignatureAt S i a j) :
    Leads S signature .none false i (fun a' => a'.bare = a.bare) false j := by
  obtain ⟨hn, hls, ht, hv, _⟩ := h
  refine .bind (path_leads hn) fun n' hn' => .bind (paramLists_lead ok hls) fun ls' hls' => ?_
  refine .bind (optionalType_leads ok ht) fun t' ht' => ?_
  refine .bind (optionalBlock_leads ok hv) fun v' hv' => .ran Runs.previousSpan (.pure ?_)
  rw [Signature.bare, Signature.bare, hn', hls', ht', hv']

omit ok in
theorem ClausePatternsAt.items {ps : List Pattern} (h : ClausePatternsAt S i ps j) :
    Items (fun i p j => S.tag i ≠ .reserved .eq ∧ AtomAt S false i p j) i ps j
      ∧ S.tag j = .reserved .eq := by
  induction h with
  | stop eq => exact ⟨.none, eq⟩
  | more ne h _ ih => exact ⟨.more ⟨ne, h⟩ ih.1, ih.2⟩

theorem clause_leads {a : Clause} (h : ClauseAt S i a j) :
    Leads S clause .none false i (fun a' => a'.bare = a.bare) false j := by
  obtain @⟨n, k, ps, l, v, _, s, hn, hps, hv, _⟩ := h
  refine .bind (path_leads hn) fun n' hn' => ?_
  refine .bind (.collectWhile (f := Pattern.bare) (fun _ => Runs.isNotNext)
    (hps.items.1.mono fun i p j h => ⟨by simpa using h.1, h.2.lt, atomicPattern_leads h.2⟩)
    (by simpa using hps.items.2)) fun ps' hps' => ?_
  refine .ran (Runs.take (by rw [hps.items.2]; exact Tag.noConfusion)) ?_
  have built (v' : Option Expr) (h : Expr.optionalBare v' = Expr.optionalBare v) :
      Leads S (do return ⟨n', ps', v', n'.span.merge (← previousSpan)⟩ : Reader Clause) .none false j
        (fun a' => a'.bare = (Clause.mk n ps v s).bare) false j := by
    refine .ran Runs.previousSpan (.pure ?_)
    rw [Clause.bare, Clause.bare, hn', Pattern.bares_eq, Pattern.bares_eq, hps', h]
  refine .ran Runs.isNext (.ran Runs.isNext ?_)
  cases hv with
  | some notBreak notEnd hv =>
    refine .ifFalse (by simp [notBreak, notEnd]) (.bind (.map (expr_leads ok hv)) ?_)
    rintro _ ⟨v', rfl, hv'⟩
    exact built _ (congrArg Option.some hv')
  | none ended =>
    exact .ifTrue (by simpa using ended) (.ran (fun s hs => ⟨s, rfl, hs⟩) (built _ rfl))

theorem command_leads {n : Path} {as : List Expr} {k : Nat} (hash : S.tag i = .punct .hash)
    (hn : PathAt S false (S.next false i) n k) (has : ArgsAt S .none false k as j) :
    Leads S command .none false i (fun f => f.bare = (DeclForm.command n as).bare) false j := by
  refine .ran (Runs.take (by rw [hash]; exact Tag.noConfusion)) (.bind (path_leads hn) fun n' hn' => ?_)
  refine .bind (args_lead (inner_leads ok) (Nat.zero_le _) has) fun as' has' => .pure ?_
  rw [DeclForm.bare, DeclForm.bare, hn', Expr.bares_eq, Expr.bares_eq, has']

/-! ## Type declarations -/

theorem ctorParam_leads {a : CtorParam} (h : CtorParamAt S i a j) :
    Leads S ctorParam Context.none.nested true i (fun a' => a'.bare = a.bare) true j := by
  refine .ran Runs.isNameNext (.ran Runs.tagBehind ?_)
  cases h with
  | named hx colon ht =>
    have here : S.tag (S.next true i) = .punct .colon := by
      rw [Setting.next, if_pos rfl, Setting.past_of_ne (by rw [colon]; exact Tag.noConfusion), colon]
    refine .ifTrue (by simpa using ⟨Setting.tag_of_name hx.1, colon⟩) ?_
    refine .bind (ident_leads hx) fun x' hx' => ?_
    refine .ran (Runs.take (by rw [here]; exact Tag.noConfusion)) ?_
    refine .bind (type_leads (inner_leads ok) (Nat.zero_le _) ht) fun t' ht' => .pure ?_
    rw [CtorParam.bare, CtorParam.bare, hx', ht']
  | positional no ht =>
    refine .ifFalse (by simpa using no) ?_
    exact .bind (type_leads (inner_leads ok) (Nat.zero_le _) ht) fun t' ht' =>
      .pure (congrArg CtorParam.positional ht')

omit ok in
theorem CtorParamAt.starts {a : CtorParam} (h : CtorParamAt S i a j) :
    S.tag i ≠ .punct .closeParen := by
  cases h with
  | named hx _ _ => exact ne_of_contains (Setting.tag_of_name hx.1) (by decide)
  | positional _ ht => exact ht.starts.ne (by decide) (by decide)

theorem ctorForm_leads {f : CtorForm} (h : CtorFormAt S i f j) :
    Leads S ctorForm .none false i (fun f' => f'.bare = f.bare) false j := by
  cases h with
  | typed colon ht =>
    refine .ran (Runs.acceptNext colon Tag.noConfusion) ?_
    exact .bind (type_leads (inner_leads ok) (Nat.zero_le _) ht) fun t' ht' =>
      .pure (congrArg CtorForm.typed ht')
  | params paren hps close =>
    refine .ran (Runs.acceptNone (by rw [paren]; decide)) (.ran Runs.isNext ?_)
    refine .ifTrue (decide_eq_true paren) (.ran (Runs.openParen paren) ?_)
    refine .bind (.within (.commaList (f := CtorParam.bare) hps fun k a k' h =>
      ⟨h.starts, h.lt, ctorParam_leads ok h⟩)) fun (ps', tr) hps' => ?_
    exact .ran (Runs.closeGroup (by decide) close)
      (.pure (congrArg (fun ps => CtorForm.applied (some ps)) hps'.1))
  | bare no_colon no_paren =>
    exact .ran (Runs.acceptNone no_colon) (.ran Runs.isNext (.ifFalse (by simpa using no_paren) (.pure rfl)))

theorem ctor_leads {a : Ctor} (h : CtorAt S i a j) :
    Leads S ctor .none false i (fun a' => a'.bare = a.bare) false j := by
  obtain ⟨hn, hf, _⟩ := h
  refine .bind (path_leads hn) fun n' hn' => .bind (ctorForm_leads ok hf) fun f' hf' => ?_
  refine .ran Runs.previousSpan (.pure ?_)
  rw [Ctor.bare, Ctor.bare, hn', hf']

omit ok in
theorem not_semicolonAt (h : ¬ S.SemicolonAt i) : ¬ (decide ((S.input.tokens.get i).tag = .lineBreak)
    && (S.input.tokens.get i).spacing.contains Spacing.hasSemicolon) = true :=
  fun some => h (semicolonAt_iff.1 some)

theorem ctorItem_leads {r : Ctor × Bool} (h : CtorItemAt S i r j) :
    Leads S ctorItem .none false i (fun r' => r'.1.bare = r.1.bare ∧ r'.2 = r.2) false j := by
  obtain ⟨a, goOn⟩ := r
  obtain ⟨k, ha, h⟩ := h
  refine .bind (ctor_leads ok ha) fun a' ha' => ?_
  cases goOn with
  | true =>
    obtain ⟨comma, no, rfl⟩ := h
    refine .ran (Runs.acceptNext comma Tag.noConfusion) (.ran Runs.isSemicolonNext ?_)
    exact .ifFalse (not_semicolonAt no) (.ifTrue rfl (.ran Runs.skipBreaks (.pure ⟨ha', rfl⟩)))
  | false =>
    have h : CtorsEndAt S k j := h
    cases h with
    | comma comma semicolon =>
      refine .ran (Runs.acceptNext comma Tag.noConfusion) (.ran Runs.isSemicolonNext ?_)
      exact .ifTrue (semicolonAt_iff.2 semicolon) (.pure ⟨ha', rfl⟩)
    | semicolon semicolon =>
      refine .ran (Runs.acceptNone (by rw [semicolon.1]; exact Tag.noConfusion)) ?_
      exact .ran Runs.isSemicolonNext (.ifTrue (semicolonAt_iff.2 semicolon) (.pure ⟨ha', rfl⟩))
    | broken lineBreak no no_name =>
      refine .ran (Runs.acceptNone (by rw [lineBreak]; exact Tag.noConfusion)) ?_
      refine .ran Runs.isSemicolonNext (.ifFalse (not_semicolonAt no) (.ifFalse Bool.false_ne_true ?_))
      refine .ran Runs.isNext (.ifTrue (decide_eq_true lineBreak) (.ran Runs.tagBehind ?_))
      exact .ran Runs.skipBreaks (.ifFalse (by simp [no_name]) (.pure ⟨ha', rfl⟩))
    | other no_comma no_break =>
      refine .ran (Runs.acceptNone no_comma) (.ran Runs.isSemicolonNext ?_)
      refine .ifFalse (not_semicolonAt fun h => no_break h.1) (.ifFalse Bool.false_ne_true ?_)
      exact .ran Runs.isNext (.ifFalse (by simpa using no_break) (.pure ⟨ha', rfl⟩))

omit ok in
theorem CtorsAt.rows {as : List Ctor} (h : CtorsAt S i as j) : ∃ l,
    Rows (fun i r j => (!decide (S.tag i = .punct .closeBrace) && !decide (S.tag i = .eof)) = true
      ∧ CtorItemAt S i r j) i as l j
    ∧ (l = false → (!decide (S.tag j = .punct .closeBrace) && !decide (S.tag j = .eof)) = false) := by
  induction h with
  | none stop => exact ⟨false, .none, fun _ => eq_false_of_ne_true fun h => stop (inBraces_iff.1 h)⟩
  | last inside h ended => exact ⟨true, .last ⟨inBraces_iff.2 inside, _, h, ended⟩, nofun⟩
  | more inside h comma no _ ih =>
    obtain ⟨l, rows, stop⟩ := ih
    exact ⟨l, .more ⟨inBraces_iff.2 inside, _, h, comma, no, rfl⟩ rows, stop⟩

omit ok in
theorem Rows.mono {α : Type} {P Q : Nat → α × Bool → Nat → Prop} {as : List α} {l : Bool}
    (h : Rows P i as l j) (hPQ : ∀ i r j, P i r j → Q i r j) : Rows Q i as l j := by
  induction h with
  | none => exact .none
  | last h => exact .last (hPQ _ _ _ h)
  | more h _ ih => exact .more (hPQ _ _ _ h) ih

theorem ctors_lead {as : List Ctor} (no : ¬ S.SemicolonAt i) (h : CtorsAt S (S.past i) as j) :
    Leads S ctors .none false i (fun as' => as'.map Ctor.bare = as.map Ctor.bare) false j := by
  obtain ⟨l, rows, stop⟩ := h.rows
  refine .ran Runs.isSemicolonNext (.ifFalse (not_semicolonAt no) (.ran Runs.skipBreaks ?_))
  exact .collect (fun _ => Runs.isInBraces)
    (rows.mono fun _ _ _ h => ⟨h.1, h.2.lt, ctorItem_leads ok h.2⟩) stop

omit ok in
theorem noCtors_lead (h : S.SemicolonAt i) : Leads S ctors .none false i (· = []) false i :=
  .ran Runs.isSemicolonNext (.ifTrue (semicolonAt_iff.2 h) (.pure rfl))

theorem method_leads {r : Signature × Bool} (h : MethodItemAt S i r j) :
    Leads S method .none false i (fun r' => r'.1.bare = r.1.bare ∧ r'.2 = r.2) false j := by
  obtain ⟨a, separated⟩ := r
  obtain ⟨k, ha, h⟩ := h
  have built (a' : Signature) (ha' : a'.bare = a.bare) : Leads S (do
      let separated ← isNext .lineBreak
      skipBreaks
      return (a', separated)) .none false k
      (fun r' => r'.1.bare = a.bare ∧ r'.2 = separated) false j := by
    refine .ran Runs.isNext ?_
    cases separated with
    | true =>
      obtain ⟨lineBreak, rfl⟩ := h
      exact .ran Runs.skipBreaks (.pure ⟨ha', decide_eq_true lineBreak⟩)
    | false =>
      obtain ⟨no, rfl⟩ := h
      have skip := Runs.skipBreaks (S := S) (c := .none) (b := false) (i := j)
      rw [Setting.past_of_ne no] at skip
      exact .ran skip (.pure ⟨ha', decide_eq_false no⟩)
  exact .bind (signature_leads ok ha) fun a' ha' => built a' ha'

omit ok in
theorem MethodsAt.rows {as : List Signature} (h : MethodsAt S i as j) : ∃ l,
    Rows (fun i r j => (!decide (S.tag i = .punct .closeBrace) && !decide (S.tag i = .eof)) = true
      ∧ MethodItemAt S i r j) i as l j
    ∧ (l = false → (!decide (S.tag j = .punct .closeBrace) && !decide (S.tag j = .eof)) = false) := by
  induction h with
  | none stop => exact ⟨false, .none, fun _ => eq_false_of_ne_true fun h => stop (inBraces_iff.1 h)⟩
  | last inside h no => exact ⟨true, .last ⟨inBraces_iff.2 inside, _, h, no, rfl⟩, nofun⟩
  | more inside h lineBreak _ ih =>
    obtain ⟨l, rows, stop⟩ := ih
    exact ⟨l, .more ⟨inBraces_iff.2 inside, _, h, lineBreak, rfl⟩ rows, stop⟩

theorem methods_lead {as : List Signature} (h : MethodsAt S i as j) :
    Leads S methods .none false i (fun as' => as'.map Signature.bare = as.map Signature.bare)
      false j := by
  obtain ⟨l, rows, stop⟩ := h.rows
  exact .collect (fun _ => Runs.isInBraces)
    (rows.mono fun _ _ _ h => ⟨h.1, h.2.lt, method_leads ok h.2⟩) stop

theorem members_lead {sort : TypeSort} {cs : List Ctor} {ms : List Signature}
    (h : MembersAt S i sort cs ms j) : Leads S (members sort) .none false i
      (fun r => r.1.map Ctor.bare = cs.map Ctor.bare ∧ r.2.map Signature.bare = ms.map Signature.bare)
      false j := by
  cases h with
  | trait h =>
    refine .ifTrue rfl (.ran Runs.skipBreaks (.bind (methods_lead ok h) fun ms' hms' => ?_))
    exact .pure ⟨rfl, hms'⟩
  | methods no_trait semicolon h =>
    refine .ifFalse no_trait (.bind (noCtors_lead semicolon) fun cs' hcs' => ?_)
    refine .ran Runs.isSemicolonNext (.ifTrue (semicolonAt_iff.2 semicolon) (.ran Runs.skipBreaks ?_))
    exact .bind (methods_lead ok h) fun ms' hms' => .pure ⟨hcs' ▸ rfl, hms'⟩
  | ctors no_trait no h stop =>
    refine .ifFalse no_trait (.bind (ctors_lead ok no h) fun cs' hcs' => ?_)
    exact .ran Runs.isSemicolonNext (.ifFalse (not_semicolonAt stop) (.pure ⟨hcs', rfl⟩))
  | both no_trait no h semicolon h' =>
    refine .ifFalse no_trait (.bind (ctors_lead ok no h) fun cs' hcs' => ?_)
    refine .ran Runs.isSemicolonNext (.ifTrue (semicolonAt_iff.2 semicolon) (.ran Runs.skipBreaks ?_))
    exact .bind (methods_lead ok h') fun ms' hms' => .pure ⟨hcs', hms'⟩

theorem typeBody_leads {sort : TypeSort} {t : TypeBody} (h : OptionalBodyAt S sort i (some t) j) :
    Leads S (typeBody sort) .none false i (fun t' => t'.bare = t.bare) false j := by
  cases h with
  | some brace h close _ =>
    refine .ran (Runs.openBrace (by rw [brace]; exact Tag.noConfusion)) ?_
    refine .bind (.within (members_lead ok h)) fun (cs', ms') hms' => ?_
    refine .ran (Runs.closeBrace close) (.pure ?_)
    rw [TypeBody.bare, TypeBody.bare, hms'.1, hms'.2]

omit ok in
theorem visibility_leads {v : Option (Visibility × Span)} (h : VisibilityAt S i v j) :
    Leads S visibility .none false i (fun v' => v'.map Prod.fst = v.map Prod.fst) false j := by
  refine .ran Runs.nextTag ?_
  cases h with
  | some tag _ =>
    have ne : S.tag i ≠ .eof := by
      intro h
      rw [h] at tag
      cases tag
    rw [tag]
    exact .ran (Runs.take ne) (.pure rfl)
  | none tag =>
    rw [tag]
    exact .pure rfl

omit ok in
theorem typeSort_leads {sort : TypeSort} (h : typeSortOf? (S.tag i) = some sort) :
    Leads S typeSort .none false i (· = sort) false (S.next false i) := by
  have ne : S.tag i ≠ .eof := by
    intro h'
    rw [h'] at h
    cases h
  refine .ran Runs.nextTag ?_
  rw [h]
  exact .ran (Runs.take ne) (.pure rfl)

theorem typeDecl_leads {d : TypeDecl} (h : TypeDeclAt S i d j) :
    Leads S typeDecl .none false i (fun d' => d'.bare = d.bare) false j := by
  obtain @⟨v, _, _, _, _, _, _, _, _, _, _, hv, hs, hn, hls, ht, hb⟩ := h
  refine .bind (visibility_leads hv) fun v' hv' => .bind (typeSort_leads hs) fun sort' hs' => ?_
  subst hs'
  refine .bind (path_leads hn) fun n' hn' => .bind (paramLists_lead ok hls) fun ls' hls' => ?_
  refine .bind (optionalType_leads ok ht) fun t' ht' => .ran Runs.isNext ?_
  have hv' : v'.map (fun v => (v.1, Span.point 0)) = v.map fun v => (v.1, Span.point 0) := by
    simpa [Function.comp_def] using congrArg (Option.map fun v => (v, Span.point 0)) hv'
  cases hb with
  | some brace hms close cover =>
    refine .ifTrue (decide_eq_true brace)
      (.bind (.map (typeBody_leads ok (.some brace hms close cover))) ?_)
    rintro _ ⟨b', rfl, hb'⟩
    refine .pure ?_
    rw [TypeDecl.bare, TypeDecl.bare, hn', hls', ht', hv', Option.map_some, Option.map_some, hb']
  | none no_brace =>
    refine .ifFalse (by simpa using no_brace) (.ran (fun s hs => ⟨s, rfl, hs⟩) (.pure ?_))
    rw [TypeDecl.bare, TypeDecl.bare, hn', hls', ht', hv']

/-! ## Declarations -/

omit ok in
theorem TypeDeclAt.starts {d : TypeDecl} (h : TypeDeclAt S i d j) :
    S.tag i ∈ [.keyword .publicKw, .keyword .sealedKw, .keyword .privateKw, .keyword .internalKw,
      .keyword .classKw, .keyword .traitKw, .keyword .dataKw] := by
  obtain ⟨hv, hs, _, _, _, _⟩ := h
  have starts : (visibilityOf? (S.tag i)).isSome ∨ (typeSortOf? (S.tag i)).isSome := by
    cases hv with
    | some tag _ => exact .inl (by rw [tag]; rfl)
    | none _ => exact .inr (by rw [hs]; rfl)
  revert starts
  generalize S.tag i = t
  revert t
  decide

theorem declForm_leads {f : DeclForm} (h : DeclFormAt S i f j) :
    Leads S declForm .none false i (fun f' => f'.bare = f.bare) false j := by
  refine .ran Runs.nextTag ?_
  cases h with
  | uses word hp =>
    rw [word]
    refine .ran (Runs.take (by rw [word]; exact Tag.noConfusion)) ?_
    exact .bind (path_leads hp) fun p' hp' => .pure (congrArg DeclForm.uses hp')
  | command hash hn has =>
    rw [hash]
    exact command_leads ok hash hn has
  | @type d _ h =>
    have type : Leads S (DeclForm.type <$> inConstruct .typeDeclaration typeDecl) .none false i
        (fun f' => f'.bare = (DeclForm.type d).bare) false j := by
      refine (Leads.map (.inConstruct (typeDecl_leads ok h))).mono ?_
      rintro _ ⟨d', rfl, hd⟩
      exact congrArg DeclForm.type hd
    have starts := h.starts
    simp only [List.mem_cons, List.not_mem_nil, or_false] at starts
    rcases starts with tag | tag | tag | tag | tag | tag | tag <;> rw [tag] <;> exact type
  | @clause a _ name ahead h =>
    have named : Leads S (do
        if ← isAhead (.reserved .eq) then DeclForm.clause <$> inConstruct .clause clause
        else DeclForm.signature <$> inConstruct .signature signature) .none false i
        (fun f' => f'.bare = (DeclForm.clause a).bare) false j := by
      refine .ran Runs.isAhead (.ifTrue ahead ((Leads.map (.inConstruct (clause_leads ok h))).mono ?_))
      rintro _ ⟨a', rfl, ha⟩
      exact congrArg DeclForm.clause ha
    rcases tag_cases_of_name name with tag | tag <;> rw [tag] <;> exact named
  | @signature a _ name no_ahead h =>
    have named : Leads S (do
        if ← isAhead (.reserved .eq) then DeclForm.clause <$> inConstruct .clause clause
        else DeclForm.signature <$> inConstruct .signature signature) .none false i
        (fun f' => f'.bare = (DeclForm.signature a).bare) false j := by
      refine .ran Runs.isAhead (.ifFalse (by simpa using no_ahead)
        ((Leads.map (.inConstruct (signature_leads ok h))).mono ?_))
      rintro _ ⟨a', rfl, ha⟩
      exact congrArg DeclForm.signature ha
    rcases tag_cases_of_name name with tag | tag <;> rw [tag] <;> exact named

/-- What the rules derive as a declaration is read as one. -/
theorem decl_leads {docsFrom : Nat} {d : Decl} (h : DeclAt S docsFrom i d j) :
    Leads S (decl docsFrom) .none false i (fun d' => d'.bare = d.bare) false j := by
  obtain @⟨docs, _, _, _, _, _, hdocs, has, hf, _⟩ := h
  have same : (S.docs docsFrom i).map DocString.bare = docs.map DocString.bare := by
    generalize S.docs docsFrom i = read at hdocs
    induction hdocs with
    | nil => rfl
    | cons first _ ih => rw [List.map_cons, List.map_cons, ih, DocString.bare, DocString.bare, first.1]
  refine .ran (docStrings_run docsFrom) (.ran Runs.nextSpan (.bind (attrs_lead ok has) fun as' has' => ?_))
  refine .bind (declForm_leads ok hf) fun f' hf' => .ran Runs.previousSpan (.pure ?_)
  rw [Decl.bare, Decl.bare, hf', has', same]

/-! ## Items and files -/

omit ok in
theorem ItemAt.boundary {docsFrom : Nat} {a : Item} (ok : ¬ S.flawed) (h : ItemAt S docsFrom i a j) :
    itemBoundary.contains (S.tag j) = true := by
  cases h with
  | decl _ _ _ hb | stmt _ _ _ hb => exact hb
  | errorDecl flawed _ _ _ | errorStmt flawed _ _ _ => exact absurd flawed ok

theorem wholeItem_leads {docsFrom : Nat} {a : Item} {d : Bool} (hd : d = true ↔ S.DeclNext i)
    (h : ItemAt S docsFrom i a j) :
    Leads S (wholeItem d docsFrom) .none false i (fun a' => a'.bare = a.bare) false j := by
  have whole (a' : Item) (ha : a'.bare = a.bare) : Leads S
      (do if ← isNextIn itemBoundary then return a' else unexpected itemBoundary) .none false j
      (fun a' => a'.bare = a.bare) false j :=
    .ran Runs.isNextIn (.ifTrue (h.boundary ok) (.pure ha))
  refine .ran Runs.read ?_
  cases h with
  | decl next declarations h _ =>
    refine .ifFalse (by simp [declarations]) (.ifTrue (hd.2 next) (.bind (.map (decl_leads ok h)) ?_))
    rintro _ ⟨a', rfl, ha⟩
    exact whole _ (congrArg Item.decl ha)
  | stmt next statements h _ =>
    refine .ifFalse (by simp [statements]) (.ifFalse (fun h => next (hd.1 h))
      (.bind (.map (stmt_leads ok h)) ?_))
    rintro _ ⟨a', rfl, ha⟩
    exact whole _ (congrArg Item.stmt ha)
  | errorDecl flawed _ _ _ | errorStmt flawed _ _ _ => exact absurd flawed ok

/-- What the rules derive as an item is read as one. -/
theorem item_leads {docsFrom : Nat} {a : Item} (h : ItemAt S docsFrom i a j) :
    Leads S (item docsFrom) .none false i (fun a' => a'.bare = a.bare) false j := by
  obtain ⟨d, hd, run⟩ := isDeclNext_run (S := S) (c := .none) (b := false) (i := i)
  refine .ran Runs.nextSpan fun s hs => ?_
  rw [bind_of_ok (cursor_run _ s)]
  exact Leads.ran run (.orElse (wholeItem_leads ok hd h)) s hs

theorem itemsRounds_lead {docsFrom : Nat} {as : List Item} (h : ItemsAt S docsFrom i as) :
    ∃ j, S.tag j = .eof ∧ ∀ (acc : Array Item) (n : Nat), S.input.tokens.size < n + i →
      Leads S (repeatUpTo itemsRound n (acc, docsFrom)) .none false i
        (fun r => r.1.toList.map Item.bare = acc.toList.map Item.bare ++ as.map Item.bare) false j := by
  induction h with
  | @stop docsFrom i ended =>
    refine ⟨i, ended, fun acc n hn => .another hn fun m hm => hm ▸ ?_⟩
    have stops : Leads S (itemsRound (acc, docsFrom)) .none false i (· = .done (acc, docsFrom)) false i :=
      .ran Runs.isNext (.ifTrue (decide_eq_true ended) (.pure rfl))
    refine .bind stops ?_
    rintro _ rfl
    exact .pure (by simp)
  | @more docsFrom i a k as more h _ ih =>
    obtain ⟨j, ended, rest⟩ := ih
    refine ⟨j, ended, fun acc n hn => .another hn fun m hm => hm ▸ ?_⟩
    have round : Leads S (itemsRound (acc, docsFrom)) .none false i (fun r => ∃ a' : Item,
        a'.bare = a.bare ∧ r = .yield (acc.push a', (S.last k).stop)) false (S.past k) := by
      refine .ran Runs.isNext (.ifFalse (by simpa using more) (.bind (item_leads ok h) fun a' ha' => ?_))
      exact .ran Runs.previousSpan (.ran Runs.skipBreaks (.pure ⟨a', ha', rfl⟩))
    have := h.lt
    have := S.le_past k
    refine .bind round ?_
    rintro _ ⟨a', ha', rfl⟩
    refine (rest (acc.push a') m (by omega)).mono fun r hr => ?_
    rw [hr]
    simp [ha']

/-- What the rules derive as items is read as items. -/
theorem items_lead {docsFrom : Nat} {as : List Item} (h : ItemsAt S docsFrom i as) : ∃ j,
    S.tag j = .eof ∧ Leads S (items docsFrom) .none false i
      (fun as' => as'.map Item.bare = as.map Item.bare) false j := by
  obtain ⟨j, ended, rounds⟩ := itemsRounds_lead ok h
  refine ⟨j, ended, .bind (.repeated fun n hn => rounds #[] n hn) fun r hr => .pure ?_⟩
  simpa using hr

omit ok in
/-- A first line that is admitted is kept. -/
theorem shebang_leads {c : Context} {b : Bool} {line : Option Shebang} (hline : S.firstLine line = line) :
    Leads S (shebang line) c b i (· = line) b i := by
  cases line with
  | none => exact .pure rfl
  | some l =>
    refine .ran Runs.read (.ifTrue ?_ (.pure rfl))
    by_contra rejected
    cases (if_neg rejected).symm.trans hline

/-- What the rules derive as a file is read as one, where its first line is admitted. -/
theorem file_leads {line : Option Shebang} {f : SourceFile} (hline : S.firstLine line = line)
    (h : FileAt S line f) : ∃ j,
    Leads S (file line) .none false 0 (fun f' => f'.bare = f.bare) false j := by
  obtain ⟨hitems, _, _⟩ := h
  obtain ⟨j, _, items⟩ := items_lead ok hitems
  refine ⟨j, .bind (shebang_leads hline) ?_⟩
  rintro _ rfl
  refine .ran Runs.skipBreaks (.bind items fun as' has' => .ran Runs.nextSpan (.pure ?_))
  rw [SourceFile.bare, SourceFile.bare, has']

end

end Surface.Grammar
