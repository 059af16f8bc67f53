import Surface.Proofs.Grammar.FileRules
import Surface.Proofs.Grammar.Soundness

/-!
# What the readers of declarations and files yield

Results:
* `decl_yields`, `item_yields`: soundness of the readers of declarations and items.
* `file_yields`, `file_yields_to_end`: every file that is read is one the rules derive, up to the end.
-/

namespace Surface.Grammar

set_option synthInstance.maxSize 400

variable {S : Setting} {c : Context} {b : Bool} {i : Nat}

/-! ## Attributes -/

theorem attrArgs_yields : Yields S attrArgs .none false i false (AttrArgsAt S i) := by
  refine .ran Runs.isNext (.ite (fun h => ?_) fun h => ?_)
  · have paren : S.tag i = .punct .openParen := by simpa using h
    refine .ran (Runs.openParen paren) (.bind (.within (exprs_yield inner_yields)) fun (es, tr) k hes => ?_)
    refine .bind (.closeGroup (by decide)) fun span j hj => .pure ?_
    obtain ⟨close, -, rfl⟩ := hj
    exact .some paren hes close
  · exact .pure (.none (by simpa using h))

theorem attr_yields (h : S.tag i = .punct .atSign) : Yields S attr .none false i false
    fun a j => ∃ k, AttrAt S i a k ∧ j = S.past k := by
  refine .ran (Runs.take (by rw [h]; exact Tag.noConfusion)) ?_
  refine .bind path_yields fun p k hp => .bind attrArgs_yields fun as j has => ?_
  refine .ran Runs.previousSpan (.ran Runs.skipBreaks (.pure ⟨j, ?_, rfl⟩))
  exact .mk h hp has (S.covers_refl _)

theorem AttrArgsAt.le {as j} (h : AttrArgsAt S i as j) : i ≤ j := by
  cases h with
  | @some es tr k _ h _ =>
    have := S.lt_next true i
    have := h.le
    have := S.lt_next false k
    omega
  | none => exact Nat.le_refl _

theorem AttrAt.lt {a j} (h : AttrAt S i a j) : i < j := by
  obtain ⟨_, hp, has, _⟩ := h
  have := S.lt_next false i
  have := hp.lt
  have := has.le
  omega

theorem Listed.le {α : Type} {P : Nat → α → Nat → Prop} {t : Tag} {as : List α} {l : Bool} {j : Nat}
    (h : Listed S t b P i as l j) (hlt : ∀ i a j, P i a j → i < j) : i ≤ j := by
  induction h with
  | none => exact Nat.le_refl _
  | last h => exact Nat.le_of_lt (hlt _ _ _ h)
  | @more i a k as l j h _ _ ih =>
    have := hlt _ _ _ h
    have := S.lt_next b k
    omega

theorem attrsAt_of_items {as : List Attribute} {j : Nat}
    (h : Items (fun i a j => decide (S.tag i = .punct .atSign) = true
      ∧ ∃ k, AttrAt S i a k ∧ j = S.past k) i as j)
    (stop : decide (S.tag j = .punct .atSign) = false) : AttrsAt S i as j := by
  induction h with
  | none => exact .stop (by simpa using stop)
  | more first _ ih =>
    obtain ⟨-, k, ha, rfl⟩ := first
    exact .more ha (ih stop)

theorem attrs_yields : Yields S attrs .none false i false (AttrsAt S i) := by
  refine (Yields.collectWhile (fun _ => Runs.isNext) (fun _ h => attr_yields (by simpa using h))
    (fun i a j h => ?_) i).mono fun as j h => attrsAt_of_items h.1 h.2
  obtain ⟨k, ha, rfl⟩ := h
  exact Nat.lt_of_lt_of_le ha.lt (S.le_past k)

/-! ## Parts -/

theorem tag_of_paramListTags (h : paramListTags.contains (S.tag i) = true) :
    S.tag i = .punct .openParen ∨ S.tag i = .punct .openBracket := by
  revert h
  generalize S.tag i = t
  revert t
  decide

theorem paramList_yields (h : paramListTags.contains (S.tag i) = true) :
    Yields S paramList .none false i false (ParamListAt S i) := by
  refine .ran Runs.isNext ?_
  rcases tag_of_paramListTags h with tag | tag
  · rw [tag]
    refine .bind (paramGroup_yields inner_yields tag (.inl ⟨rfl, rfl⟩) false) fun (ps, s) j h => .pure ?_
    obtain ⟨tr, k, hps, close, rfl, rfl, -⟩ := h
    exact .explicit tag hps close (S.covers_refl _)
  · rw [tag]
    refine .bind (paramGroup_yields inner_yields tag (.inr ⟨rfl, rfl⟩) true) fun (ps, s) j h => .pure ?_
    obtain ⟨tr, k, hps, close, rfl, rfl, nonEmpty⟩ := h
    exact .implicit tag (nonEmpty rfl) hps close (S.covers_refl _)

theorem ParamListAt.lt {l j} (h : ParamListAt S i l j) : i < j := by
  cases h with
  | @explicit ps tr k s _ h _ _ | @implicit ps tr k s _ _ h _ _ =>
    have := S.lt_next true i
    have := h.le
    have := S.lt_next false k
    omega

theorem paramListsAt_of_items {ls : List ParamList} {j : Nat}
    (h : Items (fun i l j => paramListTags.contains (S.tag i) = true ∧ ParamListAt S i l j) i ls j)
    (stop : paramListTags.contains (S.tag j) = false) : ParamListsAt S i ls j := by
  induction h with
  | none => exact .stop stop
  | more first _ ih => exact .more first.2 (ih stop)

theorem paramLists_yields : Yields S paramLists .none false i false (ParamListsAt S i) :=
  (Yields.collectWhile (fun _ => Runs.isNextIn) (fun _ h => paramList_yields h)
    (fun _ _ _ h => h.lt) i).mono fun _ _ h => paramListsAt_of_items h.1 h.2

theorem optionalType_yields : Yields S optionalType .none false i false (OptionalTypeAt S i) := by
  by_cases colon : S.tag i = .punct .colon
  · refine .ran (Runs.acceptNext colon Tag.noConfusion) ?_
    refine (Yields.map (type_yields inner_yields)).mono ?_
    rintro _ j ⟨t, rfl, ht⟩
    exact .some colon ht
  · exact .ran (Runs.acceptNone colon) (.pure (.none colon))

theorem optionalBlock_yields : Yields S optionalBlock .none false i false (OptionalBlockAt S i) := by
  refine .ran Runs.isNext (.ite (fun h => ?_) fun h => ?_)
  · refine (Yields.map block_yields).mono ?_
    rintro _ j ⟨t, rfl, ht⟩
    exact .some (by simpa using h) ht
  · exact .pure (.none (by simpa using h))

theorem signature_yields : Yields S signature .none false i false (SignatureAt S i) := by
  refine .bind path_yields fun n k hn => .bind paramLists_yields fun ls l hls => ?_
  refine .bind optionalType_yields fun t m ht => .bind optionalBlock_yields fun v j hv => ?_
  exact .ran Runs.previousSpan (.pure (.mk hn hls ht hv (S.covers_refl _)))

theorem clausePatternsAt_of_items {ps : List Pattern} {j : Nat}
    (h : Items (fun i p j => (!decide (S.tag i = .reserved .eq)) = true ∧ AtomAt S false i p j) i ps j)
    (stop : (!decide (S.tag j = .reserved .eq)) = false) : ClausePatternsAt S i ps j := by
  induction h with
  | none => exact .stop (by simpa using stop)
  | more first _ ih => exact .more (by simpa using first.1) first.2 (ih stop)

theorem clause_yields : Yields S clause .none false i false (ClauseAt S i) := by
  refine .bind path_yields fun n k hn => ?_
  refine .bind (.collectWhile (fun _ => Runs.isNotNext) (fun _ _ => atomicPattern_yields)
    (fun _ _ _ h => h.lt) k) fun ps l h => ?_
  have eq : S.tag l = .reserved .eq := by simpa using h.2
  refine .ran (Runs.take (by rw [eq]; exact Tag.noConfusion)) (.ran Runs.isNext (.ran Runs.isNext ?_))
  have built (v : Option Expr) (j : Nat) (hv : ClauseValueAt S (S.next false l) v j) :
      Yields S (do return ⟨n, ps, v, n.span.merge (← previousSpan)⟩ : Reader Clause) .none false j
        false (ClauseAt S i) :=
    .ran Runs.previousSpan (.pure
      (.mk hn (clausePatternsAt_of_items h.1 h.2) hv (S.covers_refl _)))
  refine .ite (fun stop => ?_) fun more => ?_
  · exact .ran (fun s hs => ⟨s, rfl, hs⟩) (built none _ (.none (by simpa using stop)))
  · have ne := not_or.1 (by simpa using more : ¬ (S.tag (S.next false l) = .lineBreak
      ∨ S.tag (S.next false l) = .eof))
    refine .bind (Yields.map expr_yields) ?_
    rintro _ j ⟨v, rfl, hv⟩
    exact built (some v) j (.some ne.1 ne.2 hv)

theorem command_yields (h : S.tag i = .punct .hash) :
    Yields S command .none false i false (DeclFormAt S i) := by
  refine .ran (Runs.take (by rw [h]; exact Tag.noConfusion)) (.bind path_yields fun n k hn => ?_)
  refine .bind (.collectWhile (fun _ => Runs.isNextIn) (fun _ _ => primary_yields inner_yields)
    (fun _ _ _ h => h.lt) k) fun as j has => ?_
  exact .pure (.command h hn (argsAt_of_items has.1 has.2))

/-! ## Type declarations -/

theorem ctorParam_yields : Yields S ctorParam Context.none.nested true i true (CtorParamAt S i) := by
  refine .ran Runs.isNameNext (.ran Runs.tagBehind (.ite (fun h => ?_) fun h => ?_))
  · rw [Bool.and_eq_true, decide_eq_true_eq] at h
    refine .bind ident_yields fun x k hx => ?_
    obtain ⟨hx, rfl⟩ := hx
    have colon : S.tag (S.next true i) = .punct .colon := by
      rw [Setting.next, if_pos rfl, Setting.past_of_ne (by rw [h.2]; exact Tag.noConfusion), h.2]
    refine .ran (Runs.take (by rw [colon]; exact Tag.noConfusion)) ?_
    exact .bind (type_yields inner_yields) fun t j ht => .pure (.named hx h.2 ht)
  · rw [Bool.and_eq_true, decide_eq_true_eq] at h
    exact .bind (type_yields inner_yields) fun t j ht => .pure (.positional h ht)

theorem CtorParamAt.lt {a j} (h : CtorParamAt S i a j) : i < j := by
  cases h with
  | named _ _ h =>
    have := S.lt_next true i
    have := S.lt_next true (S.next true i)
    have := h.lt
    omega
  | positional _ h => exact h.lt

theorem ctorForm_yields : Yields S ctorForm .none false i false (CtorFormAt S i) := by
  by_cases colon : S.tag i = .punct .colon
  · refine .ran (Runs.acceptNext colon Tag.noConfusion) ?_
    exact .bind (type_yields inner_yields) fun t j ht => .pure (.typed colon ht)
  refine .ran (Runs.acceptNone colon) (.ran Runs.isNext (.ite (fun h => ?_) fun h => ?_))
  · have paren : S.tag i = .punct .openParen := by simpa using h
    refine .ran (Runs.openParen paren) ?_
    refine .bind (.within (.commaList (fun _ => ctorParam_yields) (fun _ _ _ h => h.lt) _))
      fun (ps, tr) k hps => ?_
    refine .bind (.closeGroup (by decide)) fun span j hj => .pure ?_
    obtain ⟨close, -, rfl⟩ := hj
    exact .params paren hps close
  · exact .pure (.bare colon (by simpa using h))

theorem ctor_yields : Yields S ctor .none false i false (CtorAt S i) := by
  refine .bind path_yields fun n k hn => .bind ctorForm_yields fun f j hf => ?_
  exact .ran Runs.previousSpan (.pure (.mk hn hf (S.covers_refl _)))

theorem CtorFormAt.le {f j} (h : CtorFormAt S i f j) : i ≤ j := by
  cases h with
  | typed _ h => exact Nat.le_of_lt (Nat.lt_trans (S.lt_next false i) h.lt)
  | @params ps tr k _ h _ =>
    have := S.lt_next true i
    have := h.le fun _ _ _ h => h.lt
    have := S.lt_next false k
    omega
  | bare _ _ => exact Nat.le_refl _

theorem CtorAt.lt {a j} (h : CtorAt S i a j) : i < j := by
  obtain ⟨hn, hf, _⟩ := h
  exact Nat.lt_of_lt_of_le hn.lt hf.le

theorem semicolonAt_iff : (decide ((S.input.tokens.get i).tag = .lineBreak)
    && (S.input.tokens.get i).spacing.contains Spacing.hasSemicolon) = true ↔ S.SemicolonAt i := by
  rw [Bool.and_eq_true, decide_eq_true_eq, S.closed]
  rfl

theorem inBraces_iff : (!decide (S.tag i = .punct .closeBrace) && !decide (S.tag i = .eof)) = true
    ↔ S.InBraces i := by
  simp [Setting.InBraces]

/-- What one constructor takes and whether another may follow. -/
def CtorItemAt (S : Setting) (i : Nat) (r : Ctor × Bool) (j : Nat) : Prop := ∃ k, CtorAt S i r.1 k ∧
  if r.2 then S.tag k = .punct .comma ∧ ¬ S.SemicolonAt (k + 1) ∧ j = S.past (k + 1)
  else CtorsEndAt S k j

theorem ctorItem_yields : Yields S ctorItem .none false i false (CtorItemAt S i) := by
  refine .bind ctor_yields fun a k ha => ?_
  by_cases comma : S.tag k = .punct .comma
  · refine .ran (Runs.acceptNext comma Tag.noConfusion) (.ran Runs.isSemicolonNext ?_)
    refine .ite (fun h => .pure ⟨k, ha, .comma comma (semicolonAt_iff.1 h)⟩) fun h => ?_
    rw [semicolonAt_iff] at h
    exact .ite (fun _ => .ran Runs.skipBreaks (.pure ⟨k, ha, comma, h, rfl⟩)) fun h => absurd rfl h
  · refine .ran (Runs.acceptNone comma) (.ran Runs.isSemicolonNext ?_)
    refine .ite (fun h => .pure ⟨k, ha, .semicolon (semicolonAt_iff.1 h)⟩) fun h => ?_
    rw [semicolonAt_iff] at h
    refine .ite (fun h => absurd h Bool.false_ne_true) fun _ => .ran Runs.isNext ?_
    refine .ite (fun hb => ?_) fun hb => .pure ⟨k, ha, .other comma (by simpa using hb)⟩
    refine .ran Runs.tagBehind (.ran Runs.skipBreaks (.ite (fun _ => ?_) fun notMethod => ?_))
    · refine .ran Runs.nextSpan ?_
      have fails (e : SyntaxError) : Yields S (throw e : Reader Unit) .none false (S.past k) false
          fun _ _ => False := .fails fun s => ⟨e, s, rfl⟩
      exact .bind (fails _) fun _ _ h => h.elim
    · exact .pure ⟨k, ha, .broken (by simpa using hb) h (by simpa using notMethod)⟩

theorem CtorsEndAt.le {j} (h : CtorsEndAt S i j) : i ≤ j := by
  cases h with
  | comma _ _ => omega
  | semicolon _ => omega
  | broken _ _ _ => exact S.le_past i
  | other _ _ => omega

theorem CtorItemAt.lt {r j} (h : CtorItemAt S i r j) : i < j := by
  obtain ⟨k, ha, h⟩ := h
  have := ha.lt
  split at h
  · have := S.le_past (k + 1)
    omega
  · have := h.le
    omega

theorem ctorsAt_of_rows {as : List Ctor} {l : Bool} {j : Nat}
    (h : Rows (fun i r j => (!decide (S.tag i = .punct .closeBrace) && !decide (S.tag i = .eof))
      = true ∧ CtorItemAt S i r j) i as l j)
    (stop : l = false →
      (!decide (S.tag j = .punct .closeBrace) && !decide (S.tag j = .eof)) = false) :
    CtorsAt S i as j := by
  induction h with
  | none => exact .none fun h => by simp [inBraces_iff.2 h] at stop
  | last h =>
    obtain ⟨more, k, ha, hend⟩ := h
    exact .last (inBraces_iff.1 more) ha hend
  | more h _ ih =>
    obtain ⟨more, k, ha, comma, no_semicolon, rfl⟩ := h
    exact .more (inBraces_iff.1 more) ha comma no_semicolon (ih stop)

theorem ctors_yields : Yields S ctors .none false i false fun cs j =>
    S.SemicolonAt i ∧ cs = [] ∧ j = i ∨ ¬ S.SemicolonAt i ∧ CtorsAt S (S.past i) cs j := by
  refine .ran Runs.isSemicolonNext (.ite (fun h => ?_) fun h => ?_)
  · exact .pure (.inl ⟨semicolonAt_iff.1 h, rfl, rfl⟩)
  · rw [semicolonAt_iff] at h
    refine .ran Runs.skipBreaks ((Yields.collect (fun _ => Runs.isInBraces)
      (fun _ more => ctorItem_yields.mono fun _ _ h => And.intro more h) (fun _ _ _ h => h.2.lt) _).mono ?_)
    rintro cs j ⟨l, rows, stop⟩
    exact .inr ⟨h, ctorsAt_of_rows rows stop⟩

/-- What one method takes and whether another may follow. -/
def MethodItemAt (S : Setting) (i : Nat) (r : Signature × Bool) (j : Nat) : Prop :=
  ∃ k, SignatureAt S i r.1 k ∧ if r.2 then S.tag k = .lineBreak ∧ j = S.past k
    else S.tag k ≠ .lineBreak ∧ j = k

theorem method_yields : Yields S method .none false i false (MethodItemAt S i) := by
  refine .bind signature_yields fun a k ha => .ran Runs.isNext (.ran Runs.skipBreaks (.pure ?_))
  refine ⟨k, ha, ?_⟩
  by_cases h : S.tag k = .lineBreak
  · simp [h]
  · simp [h, Setting.past_of_ne]

theorem ParamListsAt.le {i : Nat} {ls : List ParamList} {j : Nat} (h : ParamListsAt S i ls j) :
    i ≤ j := by
  induction h with
  | stop _ => exact Nat.le_refl _
  | more h _ ih => exact Nat.le_trans (Nat.le_of_lt h.lt) ih

theorem OptionalTypeAt.le {t j} (h : OptionalTypeAt S i t j) : i ≤ j := by
  cases h with
  | some _ h => exact Nat.le_of_lt (Nat.lt_trans (S.lt_next false i) h.lt)
  | none _ => exact Nat.le_refl _

theorem OptionalBlockAt.le {t j} (h : OptionalBlockAt S i t j) : i ≤ j := by
  cases h with
  | some _ h => exact Nat.le_of_lt h.lt
  | none _ => exact Nat.le_refl _

theorem SignatureAt.lt {a j} (h : SignatureAt S i a j) : i < j := by
  obtain ⟨hn, hls, ht, hv, _⟩ := h
  have := hn.lt
  have := hls.le
  have := ht.le
  have := hv.le
  omega

theorem MethodItemAt.lt {r j} (h : MethodItemAt S i r j) : i < j := by
  obtain ⟨k, ha, h⟩ := h
  have := ha.lt
  have := S.le_past k
  split at h <;> omega

theorem methodsAt_of_rows {as : List Signature} {l : Bool} {j : Nat}
    (h : Rows (fun i r j => (!decide (S.tag i = .punct .closeBrace) && !decide (S.tag i = .eof))
      = true ∧ MethodItemAt S i r j) i as l j)
    (stop : l = false →
      (!decide (S.tag j = .punct .closeBrace) && !decide (S.tag j = .eof)) = false) :
    MethodsAt S i as j := by
  induction h with
  | none => exact .none fun h => by simp [inBraces_iff.2 h] at stop
  | last h =>
    obtain ⟨more, k, ha, no_break, rfl⟩ := h
    exact .last (inBraces_iff.1 more) ha no_break
  | more h _ ih =>
    obtain ⟨more, k, ha, broken, rfl⟩ := h
    exact .more (inBraces_iff.1 more) ha broken (ih stop)

theorem methods_yields : Yields S methods .none false i false (MethodsAt S i) := by
  refine (Yields.collect (fun _ => Runs.isInBraces)
    (fun _ more => method_yields.mono fun _ _ h => And.intro more h) (fun _ _ _ h => h.2.lt) _).mono ?_
  rintro ms j ⟨l, rows, stop⟩
  exact methodsAt_of_rows rows stop

theorem CtorsAt.le {i : Nat} {as : List Ctor} {j : Nat} (h : CtorsAt S i as j) : i ≤ j := by
  induction h with
  | none _ => exact Nat.le_refl _
  | last _ ha hend => exact Nat.le_trans (Nat.le_of_lt ha.lt) hend.le
  | @more i a k as j _ ha _ _ _ ih =>
    have := ha.lt
    have := S.le_past (k + 1)
    omega

theorem MethodsAt.le {i : Nat} {as : List Signature} {j : Nat} (h : MethodsAt S i as j) : i ≤ j := by
  induction h with
  | none _ => exact Nat.le_refl _
  | last _ ha _ => exact Nat.le_of_lt ha.lt
  | @more i a k as j _ ha _ _ ih =>
    have := ha.lt
    have := S.le_past k
    omega

theorem MembersAt.le {sort cs ms j} (h : MembersAt S i sort cs ms j) : i ≤ j := by
  have := S.le_past i
  cases h with
  | trait h | methods _ _ h | ctors _ _ h _ =>
    have := h.le
    omega
  | @both _ _ k _ _ _ _ h _ h' =>
    have := h.le
    have := S.le_past k
    have := h'.le
    omega

theorem members_yields (sort : TypeSort) :
    Yields S (members sort) .none false i false fun r j => MembersAt S i sort r.1 r.2 j := by
  refine .ite (fun trait => ?_) fun notTrait => ?_
  · subst trait
    exact .ran Runs.skipBreaks (.bind methods_yields fun ms j h => .pure (.trait h))
  refine .bind ctors_yields fun cs k hcs => .ran Runs.isSemicolonNext (.ite (fun semi => ?_) fun semi => ?_)
  · rw [semicolonAt_iff] at semi
    refine .ran Runs.skipBreaks (.bind methods_yields fun ms j hms => .pure ?_)
    rcases hcs with ⟨h, rfl, rfl⟩ | ⟨h, hcs⟩
    · exact .methods notTrait h hms
    · exact .both notTrait h hcs semi hms
  · rw [semicolonAt_iff] at semi
    rcases hcs with ⟨h, rfl, rfl⟩ | ⟨h, hcs⟩
    · exact absurd h semi
    · exact .pure (.ctors notTrait h hcs semi)

theorem typeBody_yields (sort : TypeSort) (h : S.tag i = .punct .openBrace) :
    Yields S (typeBody sort) .none false i false fun body j =>
      OptionalBodyAt S sort i (some body) j := by
  refine .ran (Runs.openBrace (by rw [h]; exact Tag.noConfusion)) ?_
  refine .bind (.within (members_yields sort)) fun (cs, ms) k hms => ?_
  refine .bind .closeBrace fun span j hj => .pure ?_
  obtain ⟨close, rfl, rfl⟩ := hj
  exact .some h hms close (S.covers_refl _)

theorem visibility_yields : Yields S visibility .none false i false (VisibilityAt S i) := by
  refine .ran Runs.nextTag ?_
  split
  · next v hv =>
    have ne : S.tag i ≠ .eof := by
      intro h
      rw [h] at hv
      cases hv
    exact .ran (Runs.take ne) (.pure (.some hv (S.covers_refl _)))
  · next hv => exact .pure (.none hv)

theorem typeSort_yields : Yields S typeSort .none false i false fun sort j =>
    typeSortOf? (S.tag i) = some sort ∧ j = S.next false i := by
  refine .ran Runs.nextTag ?_
  split
  · next sort hs =>
    have ne : S.tag i ≠ .eof := by
      intro h
      rw [h] at hs
      cases hs
    exact .ran (Runs.take ne) (.pure ⟨hs, rfl⟩)
  · exact .unexpected

theorem typeDecl_yields : Yields S typeDecl .none false i false (TypeDeclAt S i) := by
  refine .bind visibility_yields fun v k₁ hv => .bind typeSort_yields fun sort _ hs => ?_
  obtain ⟨hs, rfl⟩ := hs
  refine .bind path_yields fun n k₂ hn => .bind paramLists_yields fun ls k₃ hls => ?_
  refine .bind optionalType_yields fun t k₄ ht => .ran Runs.isNext ?_
  refine .ite (fun brace => ?_) fun no_brace => ?_
  · refine .bind (Yields.map (typeBody_yields sort (by simpa using brace))) ?_
    rintro _ j ⟨body, rfl, hb⟩
    exact .pure (.mk hv hs hn hls ht hb)
  · refine .ran (fun s hs => ⟨s, rfl, hs⟩) (.pure (.mk hv hs hn hls ht (.none ?_)))
    simpa using no_brace

/-! ## Declarations -/

theorem declForm_yields : Yields S declForm .none false i false (DeclFormAt S i) := by
  have type : Yields S (DeclForm.type <$> inConstruct .typeDeclaration typeDecl) .none false i false
      (DeclFormAt S i) := by
    refine (Yields.map (.inConstruct typeDecl_yields)).mono ?_
    rintro _ j ⟨d, rfl, hd⟩
    exact .type hd
  have named (h : nameTags.contains (S.tag i)) : Yields S (do
      if ← isAhead (.reserved .eq) then .clause <$> inConstruct .clause clause
      else .signature <$> inConstruct .signature signature) .none false i false (DeclFormAt S i) := by
    refine .ran Runs.isAhead (.ite (fun ahead => ?_) fun ahead => ?_)
    · refine (Yields.map (.inConstruct clause_yields)).mono ?_
      rintro _ j ⟨a, rfl, ha⟩
      exact .clause h ahead ha
    · refine (Yields.map (.inConstruct signature_yields)).mono ?_
      rintro _ j ⟨a, rfl, ha⟩
      exact .signature h (by simpa using ahead) ha
  refine .ran Runs.nextTag ?_
  split
  · next tag =>
    refine .ran (Runs.take (by rw [tag]; exact Tag.noConfusion)) ?_
    exact .bind path_yields fun p j hp => .pure (.uses tag hp)
  · next tag => exact command_yields tag
  · exact type
  · exact type
  · exact type
  · exact type
  · exact type
  · exact type
  · exact type
  · next tag => exact named (by rw [tag]; decide)
  · next tag => exact named (by rw [tag]; decide)
  · exact .absent

theorem docStrings_run (docsFrom : Nat) :
    Runs S (docStrings docsFrom) c b i (S.docs docsFrom i) b i := by
  intro s hs
  refine ⟨s, ?_, hs⟩
  unfold docStrings Setting.docs
  rw [bind_of_ok (read_run _ s)]
  split
  · rw [bind_of_ok (nextSpan_run _ s), hs.position]
    rfl
  · rfl

theorem decl_yields (docsFrom : Nat) :
    Yields S (decl docsFrom) .none false i false (DeclAt S docsFrom i) := by
  refine .ran (docStrings_run docsFrom) (.ran Runs.nextSpan ?_)
  refine .bind attrs_yields fun as k has => .bind declForm_yields fun f j hf => ?_
  refine .ran Runs.previousSpan (.pure (.mk ?_ has hf (S.covers_refl _)))
  exact List.forall₂_same.2 fun d _ => ⟨rfl, S.covers_refl _⟩

/-! ## Items and files -/

theorem isDeclNext_run : ∃ d : Bool, (d = true ↔ S.DeclNext i) ∧ Runs S isDeclNext c b i d b i := by
  unfold Setting.DeclNext
  by_cases statements : S.input.dialect.statements = true
  · by_cases declarations : S.input.dialect.declarations = true
    · refine ⟨declOnlyTags.contains (S.tag i)
        || (nameTags.contains (S.tag i) && S.ahead (.reserved .eq) i), by simp [*], ?_⟩
      intro s hs
      have looks : Runs S (isNextIn declOnlyTags) c b i _ b i := Runs.isNextIn
      obtain ⟨s₁, h₁, -⟩ := looks s hs
      refine ⟨s, ?_, hs⟩
      unfold isDeclNext
      rw [bind_of_ok (read_run _ s)]
      simp only [statements, declarations, Bool.not_true, Bool.false_eq_true, if_false]
      rw [bind_of_ok (isNextIn_run ..), hs.tag_eq]
      cases declOnlyTags.contains (S.tag i) with
      | true => rfl
      | false =>
        simp only [Bool.false_eq_true, if_false, Bool.false_or]
        rw [bind_of_ok (isNameNext_run ..), bind_of_ok (isAhead_run ..), hs.tag_eq, hs.position]
        rfl
    · refine ⟨false, by simp [*], fun s hs => ⟨s, ?_, hs⟩⟩
      unfold isDeclNext
      rw [bind_of_ok (read_run _ s)]
      simp only [statements, declarations]
      rfl
  · refine ⟨true, by simp [*], fun s hs => ⟨s, ?_, hs⟩⟩
    unfold isDeclNext
    rw [bind_of_ok (read_run _ s)]
    simp only [statements]
    rfl

theorem wholeItem_yields {d : Bool} (hd : d = true ↔ S.DeclNext i) (docsFrom : Nat) :
    Yields S (wholeItem d docsFrom) .none false i false (ItemAt S docsFrom i) := by
  have whole (a : Item) (j : Nat) (h : itemBoundary.contains (S.tag j) = true → ItemAt S docsFrom i a j) :
      Yields S (do if ← isNextIn itemBoundary then return a else unexpected itemBoundary)
        .none false j false (ItemAt S docsFrom i) :=
    .ran Runs.isNextIn (.ite (fun hb => .pure (h hb)) fun _ => .unexpected)
  refine .ran Runs.read (.ite (fun _ => ?_) fun admitted => ?_)
  · have fails : Yields S (absent .item : Reader Item) .none false i false
        fun _ _ => False := .absent
    exact .bind fails fun _ _ h => h.elim
  refine .ite (fun asDecl => ?_) fun asStmt => ?_
  · have next := hd.1 asDecl
    have declarations : S.input.dialect.declarations = true := by
      rcases next with h | h
      · simpa [h] using admitted
      · exact h.1
    refine .bind (Yields.map (decl_yields docsFrom)) ?_
    rintro _ j ⟨a, rfl, ha⟩
    exact whole _ j fun hb => .decl next declarations ha hb
  · have next : ¬ S.DeclNext i := fun h => asStmt (hd.2 h)
    have statements : S.input.dialect.statements = true := by
      by_contra h
      exact next (.inl (by simpa using h))
    refine .bind (Yields.map stmt_yields) ?_
    rintro _ j ⟨a, rfl, ha⟩
    exact whole _ j fun hb => .stmt next statements ha hb

theorem AttrsAt.le {i : Nat} {as : List Attribute} {j : Nat} (h : AttrsAt S i as j) : i ≤ j := by
  induction h with
  | stop _ => exact Nat.le_refl _
  | @more i a k as j h _ ih =>
    have := h.lt
    have := S.le_past k
    omega

theorem ClausePatternsAt.le {i : Nat} {ps : List Pattern} {j : Nat}
    (h : ClausePatternsAt S i ps j) : i ≤ j := by
  induction h with
  | stop _ => exact Nat.le_refl _
  | more _ h _ ih => exact Nat.le_trans (Nat.le_of_lt h.lt) ih

theorem ClauseValueAt.le {v j} (h : ClauseValueAt S i v j) : i ≤ j := by
  cases h with
  | some _ _ hv => exact Nat.le_of_lt hv.lt
  | none _ => exact Nat.le_refl _

theorem ClauseAt.lt {a j} (h : ClauseAt S i a j) : i < j := by
  obtain @⟨_, _, _, l, _, _, _, hn, hps, hv, _⟩ := h
  have := hn.lt
  have := hps.le
  have := S.lt_next false l
  have := hv.le
  omega

theorem VisibilityAt.le {v j} (h : VisibilityAt S i v j) : i ≤ j := by
  cases h with
  | some _ _ => exact Nat.le_of_lt (S.lt_next false i)
  | none _ => exact Nat.le_refl _

theorem OptionalBodyAt.le {sort b j} (h : OptionalBodyAt S sort i b j) : i ≤ j := by
  cases h with
  | @some _ _ k _ _ hms _ _ =>
    have := S.lt_next false i
    have := hms.le
    have := S.le_past k
    have := S.lt_next false (S.past k)
    omega
  | none _ => exact Nat.le_refl _

theorem TypeDeclAt.lt {a j} (h : TypeDeclAt S i a j) : i < j := by
  obtain @⟨_, k₁, _, _, _, _, _, _, _, _, _, hv, _, hn, hls, ht, hb⟩ := h
  have := hv.le
  have := S.lt_next false k₁
  have := hn.lt
  have := hls.le
  have := ht.le
  have := hb.le
  omega

theorem DeclFormAt.lt {f j} (h : DeclFormAt S i f j) : i < j := by
  cases h with
  | uses _ h => exact Nat.lt_trans (S.lt_next false i) h.lt
  | command _ hn has => exact Nat.lt_of_lt_of_le (Nat.lt_trans (S.lt_next false i) hn.lt) has.le
  | type h => exact h.lt
  | clause _ _ h => exact h.lt
  | signature _ _ h => exact h.lt

theorem ItemAt.lt {docsFrom a j} (h : ItemAt S docsFrom i a j) : i < j := by
  cases h with
  | decl _ _ h _ =>
    obtain ⟨_, has, hf, _⟩ := h
    exact Nat.lt_of_le_of_lt has.le hf.lt
  | stmt _ _ h _ => exact h.lt
  | errorDecl _ _ h _ => exact h
  | errorStmt _ _ h _ => exact h

theorem item_yields (docsFrom : Nat) (hbreak : S.past i = i) (hend : S.tag i ≠ .eof) :
    Yields S (item docsFrom) .none false i false (ItemAt S docsFrom i) := by
  obtain ⟨d, hd, run⟩ := isDeclNext_run (S := S) (c := .none) (b := false) (i := i)
  refine .ran Runs.nextSpan ?_
  intro s a s' hs h fine
  rw [bind_of_ok (cursor_run _ s)] at h
  obtain ⟨s₁, h₁, hs₁⟩ := run s hs
  rw [bind_of_ok h₁, orElse_run, hs.skips] at h
  cases hr : wholeItem d docsFrom S.input s₁ with
  | ok a' t =>
    rw [hr] at h
    cases h
    exact wholeItem_yields hd docsFrom s₁ _ _ hs₁ hr fine
  | error e t =>
    rw [hr] at h
    have steps := Steady.error hr
    change (recover e (S.span i) false itemBoundary >>= errorItem d) S.input t = _ at h
    rw [bind_of_ok (recover_run ..)] at h
    have standing := steps.recovered e itemBoundary false hs₁
    have flawed : S.flawed := fine.before h (by simp [State.recovered])
    have lt := steps.lt_resume itemBoundary false hs₁ hend (by
      have := S.tag_past i
      rw [hbreak] at this
      revert this hend
      generalize S.tag i = t
      revert t
      decide)
    have span : skippedFrom (S.span i) ((skipping false t.cursor).resume S.input.tokens
        itemBoundary).previous = skippedFrom (S.span i) (S.last ((skipping false t.cursor).resume
          S.input.tokens itemBoundary).position) := congrArg _ standing.previous
    rw [span] at h
    cases d with
    | true =>
      cases h
      exact ⟨_, standing, .errorDecl flawed (hd.1 rfl) lt (S.covers_refl _)⟩
    | false =>
      have notDecl : ¬ S.DeclNext i := fun h => Bool.false_ne_true (hd.2 h)
      have built (j : Nat) (hj : i < j) :
          Yields S (errorItem false (skippedFrom (S.span i) (S.last j))) .none false j false
            (ItemAt S docsFrom i) := by
        refine (Yields.map (P := fun t j => ItemAt S docsFrom i (.stmt t) j)
          (.newStmt fun n => .errorStmt flawed notDecl hj (S.covers_refl _))).mono ?_
        rintro _ j ⟨t, rfl, ht⟩
        exact ht
      exact built _ lt _ a s' standing h fine

theorem items_yield (docsFrom : Nat) (hbreak : S.past i = i) :
    Yields S (items docsFrom) .none false i false fun as j => ItemsAt S docsFrom i as ∧ S.tag j = .eof := by
  -- what has been read so far stands before whatever is read from here on
  let before (r : Array Item × Nat) (k : Nat) : Prop :=
    S.past k = k ∧ ∀ as, ItemsAt S r.2 k as → ItemsAt S docsFrom i (r.1.toList ++ as)
  have all : Yields S (repeated (#[], docsFrom) itemsRound) .none false i false
      fun r j => ItemsAt S docsFrom i r.1.toList ∧ S.tag j = .eof := by
    refine .repeated (I := before) (fun _ => inferInstance) (fun r k h => ?_) _ i ⟨hbreak, fun as h => h⟩
    obtain ⟨items, from'⟩ := r
    obtain ⟨hk, hbefore⟩ := h
    refine .ran Runs.isNext (.ite (fun stop => ?_) fun more => ?_)
    · have tag : S.tag k = .eof := by simpa using stop
      exact .pure ⟨by simpa using hbefore [] (.stop tag), tag⟩
    · have tag : S.tag k ≠ .eof := by simpa using more
      refine .bind (item_yields from' hk tag) fun a j ha => .ran Runs.previousSpan ?_
      refine .ran Runs.skipBreaks (.pure ⟨⟨S.past_past j, fun as h => ?_⟩, ?_⟩)
      · simpa using hbefore (a :: as) (.more tag ha h)
      · exact Nat.lt_of_lt_of_le ha.lt (S.le_past j)
  exact .bind all fun r j h => .pure h

/-- The first line a dialect keeps. -/
def Setting.firstLine (S : Setting) (line : Option Shebang) : Option Shebang :=
  if S.input.dialect.shebang then line else none

/-- A file is read up to the end. -/
theorem file_yields_to_end (line : Option Shebang) : Yields S (file line) .none false 0 false
    fun f j => FileAt S (S.firstLine line) f ∧ S.tag j = .eof := by
  have first : Yields S (shebang line) .none false 0 false fun l j => l = S.firstLine line ∧ j = 0 := by
    cases line with
    | none => exact .pure ⟨by unfold Setting.firstLine; rw [ite_self], rfl⟩
    | some l =>
      refine .ran Runs.read (.ite (fun admitted => .pure ⟨(if_pos admitted).symm, rfl⟩) fun rejected => ?_)
      rintro s _ _ hs ⟨⟩ _
      exact ⟨0, ⟨hs.context, hs.skips, hs.position, hs.previous, hs.inside⟩, (if_neg rejected).symm, rfl⟩
  refine .bind first fun l j h => .ran Runs.skipBreaks ?_
  obtain ⟨rfl, rfl⟩ := h
  refine .bind (items_yield _ (S.past_past 0)) fun as j h => .ran Runs.nextSpan (.pure ?_)
  exact ⟨.mk h.1 h.2 (S.covers_refl _), h.2⟩

theorem file_yields (line : Option Shebang) :
    Yields S (file line) .none false 0 false fun f _ => FileAt S (S.firstLine line) f :=
  (file_yields_to_end line).mono fun _ _ h => h.1

end Surface.Grammar
