import Surface.Proofs.Folding.Runs

/-!
# Readers on a stream and without its line breaks in groups

Every reader of patterns, expressions and blocks does the same on both streams, and so does the
reader of statements where line breaks carry meaning. What lies inside of another starts behind a
token of the outer one, so that the number of tokens left bounds how deep both sides go.

Results:
* `pattern_folds`, `expr_folds`, `block_folds`, `stmt_folds`.
-/

set_option synthInstance.maxSize 400

namespace Surface.Grammar

open Groups Folding

variable {F : Folding} {m n : Nat} {c : Context} {openers : List Tag} {p : Nat}

/-! ## Names and paths -/

theorem isPlain_of_name : ∀ {t : Tag}, nameTags.contains t = true → t.IsPlain := by
  decide

theorem isPlain_of_type : ∀ {t : Tag}, typeTags.contains t = true → t.IsPlain := by
  decide

theorem isPlain_of_literal {v : Literal} (h : (F.left.kind p).literal? = some v) :
    (F.left.tag p).IsPlain := by
  rcases Setting.tag_of_literal h with h | h | h <;> rw [h] <;> decide

theorem ident_folds : Folds F m c openers p ident ident openers := by
  refine .looks .nextToken ?_
  cases hn : (F.left.input.tokens.get p).kind.name? with
  | none => exact .absent
  | some name => exact .take (isPlain_of_name (Setting.tag_of_name hn)) fun _ _ _ => .pure

theorem path_folds : Folds F m c openers p path path openers := by
  have dot {q : Nat} (h : (decide (F.left.tag q = .reserved .dot)
      && nameTags.contains (F.left.tag (q + 1))) = true) : F.left.tag q = .reserved .dot :=
    (Setting.dotted_iff.1 h).1
  refine .bind ident_folds fun _ _ => .bind (.collectWhile (fun _ => .isSegmentNext) (fun q h => ?_)
    fun q h => ?_) fun _ _ => .pure
  · exact .take (by rw [dot h]; decide) fun _ _ _ => ident_folds
  · exact .bind (.take (by rw [dot h]; exact Tag.noConfusion))

/-! ## Patterns -/

section

variable {inner inner' : Reader Pattern} [Steady inner] [Steady inner']
  (hy : ∀ c b i, Yields F.left inner c b i b (PatternAt F.left b i))
  (hi : ∀ k < m, ∀ {c openers p}, Folds F k c openers p inner inner' openers)

include hi

omit [Steady inner] [Steady inner'] in
theorem atomicPatternOf_folds :
    Folds F m c openers p (atomicPatternOf inner) (atomicPatternOf inner') openers := by
  refine .looks .nextToken ?_
  cases hv : (F.left.input.tokens.get p).kind.literal? with
  | some value => exact .take (isPlain_of_literal hv) fun _ _ _ => .newPattern
  | none =>
    have path_alone : Folds F m c openers p (do
        let path ← path
        newPattern path.span fun m => .cons m path []) (do
        let path ← path
        newPattern path.span fun m => .cons m path []) openers :=
      .bind path_folds fun _ _ => .newPattern
    dsimp only
    rw [show (F.left.input.tokens.get p).tag = F.left.tag p from F.left.closed p]
    split
    · exact path_alone
    · exact path_alone
    · next h => exact .take (by rw [h]; decide) fun _ _ _ => .newPattern
    · next h =>
      refine .openGroup (.inl h) fun k hk q _ => .bind (.within (hi k hk)) fun _ _ => ?_
      exact .bind (.closeGroup (by split <;> rfl)) fun _ _ => .pure
    · exact .absent

include hy

theorem patternOf_folds : Folds F m c openers p (patternOf inner) (patternOf inner') openers := by
  refine .within (.looks .isNameNext (.ite (fun _ => ?_) fun _ => atomicPatternOf_folds hi))
  refine .bind path_folds fun x q => .bind (.collectWhile (fun _ => .isNextIn)
    (fun _ _ => atomicPatternOf_folds hi) fun _ _ => ?_) fun _ _ => .looks .previousSpan .newPattern
  exact .of_yields (atomicPatternOf_yields hy) fun _ _ h => h.lt

end

theorem patternUpTo_folds (depth depth' : Nat) (h : m < depth) (h' : m < depth') :
    Folds F m c openers p (patternUpTo depth) (patternUpTo depth') openers := by
  induction depth generalizing depth' m c openers p with
  | zero => omega
  | succ depth ih =>
    cases depth' with
    | zero => omega
    | succ depth' =>
      exact patternOf_folds (patternUpTo_yields depth) fun k hk => ih depth' (by omega) (by omega)

theorem pattern_folds : Folds F m c openers p pattern pattern openers := by
  have := F.right_size_le
  refine .of_size fun s at_p few => ?_
  exact patternUpTo_folds (F.left.input.tokens.size + 1) (F.right.input.tokens.size + 1) (by omega)
    (by omega) s at_p few

theorem atomicPattern_folds : Folds F m c openers p atomicPattern atomicPattern openers :=
  atomicPatternOf_folds fun _ _ => pattern_folds

/-! ## Expressions and blocks -/

/-- Readers of expressions and blocks that do the same on both streams where fewer than `n` tokens
are left. -/
structure Inner.Folded (F : Folding) (n : Nat) (inner inner' : Inner) : Prop where
  yields : inner.Yields F.left
  expr : ∀ {m c openers p}, m < n → Folds F m c openers p inner.expr inner'.expr openers
  block : ∀ {m c openers p}, m < n → Folds F m c openers p inner.block inner'.block openers

section

variable {inner inner' : Inner} [inner.Steady] [inner'.Steady] (hi : inner.Folded F n inner')

include hi

omit [inner.Steady] [inner'.Steady] in
theorem type_folds (hm : m < n) : Folds F m c openers p inner.type inner'.type openers :=
  .within (hi.expr hm)

omit [inner.Steady] [inner'.Steady] in
theorem head_folds (hm : m < n) : Folds F m c openers p inner.head inner'.head openers :=
  .within (hi.expr hm)

theorem param_folds (hm : m ≤ n) : Folds F m c openers p inner.param inner'.param openers := by
  have built {x : Pattern} {type : Option Expr} {k q : Nat} : Folds F k c openers q (do
      return ⟨x, type, x.span.merge (← previousSpan)⟩ : Reader Param) (do
      return ⟨x, type, x.span.merge (← previousSpan)⟩) openers := .looks .previousSpan .pure
  refine .bind pattern_folds fun x q => .accept (by decide) (fun _ k hk _ => ?_) fun _ => ?_
  · exact .ite (fun _ => .bind (.map (type_folds hi (by omega))) fun _ _ => built) fun h => absurd rfl h
  · exact .ite (fun h => absurd h Bool.false_ne_true) fun _ => .bind .pure fun _ _ => built

theorem params_fold {t : Tag} (hm : m ≤ n) :
    Folds F m c openers p (nestedList t inner.param) (nestedList t inner'.param) openers :=
  .nestedList (fun _ => param_folds hi hm) fun _ =>
    (param_yields hi.yields).mono fun _ _ h => h.lt

/-- A group of parameters between two brackets. -/
theorem paramGroup_folds (hm : m ≤ n)
    (h : F.left.tag p = .punct .openParen ∨ F.left.tag p = .punct .openBracket) (nonEmpty : Bool) :
    Folds F m c openers p (inner.paramGroup nonEmpty) (inner'.paramGroup nonEmpty) openers := by
  refine .openGroup h fun k hk q _ => .looks .isNext (.ite (fun _ => .failWith_bind) fun _ => ?_)
  refine .bind (params_fold hi (by omega)) fun _ _ => ?_
  exact .bind (.closeGroup (by split <;> rfl)) fun _ _ => .pure

theorem exprs_fold {t : Tag} (hm : m < n) :
    Folds F m c openers p (nestedList t inner.expr) (nestedList t inner'.expr) openers :=
  .nestedList (fun _ => hi.expr hm) fun _ => (hi.yields.expr _ _ _).mono fun _ _ h => h.lt

/-! ## Bodies -/

omit [inner.Steady] [inner'.Steady] in
theorem blockOrExpr_folds (hm : m < n) :
    Folds F m c openers p inner.blockOrExpr inner'.blockOrExpr openers := by
  refine .looks .isNext (.ite (fun _ => ?_) fun _ => ?_)
  · exact .bind (hi.block hm) fun _ _ => .pure
  · exact .bind (hi.expr hm) fun _ _ => .pure

omit [inner.Steady] [inner'.Steady] in
theorem thenBody_folds (hm : m < n) :
    Folds F m c openers p inner.thenBody inner'.thenBody openers := by
  refine .looks .isNext (.ite (fun _ => .bind (hi.block hm) fun _ _ => .pure) fun _ => ?_)
  refine .accept (by decide) (fun _ k hk q => ?_) fun _ => ?_
  · exact .ite (fun _ => .bind (hi.expr (by omega)) fun _ _ => .pure) fun h => absurd rfl h
  · exact .ite (fun h => absurd h Bool.false_ne_true) fun _ => .unexpected

omit [inner.Steady] [inner'.Steady] in
theorem elseBody_folds (hm : m < n) :
    Folds F m c openers p inner.elseBody inner'.elseBody openers := by
  refine .looks .isNextPastBreak (.ite (fun h => .skipBreaks ?_) fun _ => .pure)
  have word : F.left.tag (F.left.past p) = .keyword .elseKw := (Setting.elseNext_iff.1 h).past
  exact .take (by rw [word]; decide) fun k hk _ => .map (blockOrExpr_folds hi (by omega))

/-! ## Primaries -/

theorem tuple_folds (hm : m ≤ n) (h : F.left.tag p = .punct .openParen) :
    Folds F m c openers p inner.tuple inner'.tuple openers := by
  refine .openGroup (.inl h) fun k hk q _ => .bind (exprs_fold hi (by omega)) fun _ _ => ?_
  exact .bind (.closeGroup (by split <;> rfl)) fun _ _ => .newExpr

theorem array_folds (hm : m ≤ n) (h : F.left.tag p = .punct .openBracket) :
    Folds F m c openers p inner.array inner'.array openers := by
  refine .openGroup (.inr h) fun k hk q _ => .bind (exprs_fold hi (by omega)) fun _ _ => ?_
  exact .bind (.closeGroup (by split <;> rfl)) fun _ _ => .newExpr

theorem conditional_folds (hm : m ≤ n) (h : F.left.tag p = .keyword .ifKw) :
    Folds F m c openers p inner.conditional inner'.conditional openers := by
  have steady := @Steady.elseBody Expr String
  refine .take (by rw [h]; decide) fun k hk _ => ?_
  refine .bind (head_folds hi (by omega)) fun _ _ => .bind (thenBody_folds hi (by omega)) fun _ _ =>
    .bind (elseBody_folds hi (by omega)) fun e _ => ?_
  cases e with
  | some e => exact .looks .previousSpan .newExpr
  | none => exact .looks .previousSpan .throw

theorem arm_folds (hm : m ≤ n) : Folds F m c openers p inner.arm inner'.arm openers := by
  refine .bind pattern_folds fun x _ => .expect (by decide) fun _ k hk q => .skipBreaks ?_
  refine .bind (blockOrExpr_folds hi (by omega)) fun _ _ => .looks .previousSpan ?_
  refine .accept (by decide) (fun _ _ _ _ => ?_) fun _ => ?_
  all_goals
    exact .looks .isNext (.skipBreaks (.looks .isNotNext (.ite (fun _ => .failWith_bind) fun _ => .pure)))

theorem matchOn_folds (hm : m ≤ n) (h : F.left.tag p = .keyword .matchKw) :
    Folds F m c openers p inner.matchOn inner'.matchOn openers := by
  refine .take (by rw [h]; decide) fun k hk _ => .bind (head_folds hi (by omega)) fun _ q => ?_
  refine .looks .isNotNext (.ite (fun _ => .failWith_bind) fun brace => ?_)
  refine .openBrace (by simpa using brace) fun l hl q _ => .skipBreaks ?_
  refine .bind (.within (.collectWhile (fun _ => .isInBraces) (fun _ _ => arm_folds hi (by omega))
    fun _ _ => .bind (.of_yields pattern_yields fun _ _ h => h.lt))) fun _ _ => ?_
  exact .bind (.closeGroup rfl) fun _ _ => .newExpr

omit [inner.Steady] [inner'.Steady] in
theorem returned_folds (hm : m ≤ n) (h : F.left.tag p = .keyword .returnKw) :
    Folds F m c openers p inner.returned inner'.returned openers := by
  refine .take (by rw [h]; decide) fun k hk _ => .looks .isNextIn (.looks .isLambdaNext ?_)
  exact .ite (fun _ => .bind (hi.expr (by omega)) fun _ _ => .newExpr) fun _ => .newExpr

theorem lambdaParams_fold (hm : m ≤ n) :
    Folds F m c openers p inner.lambdaParams inner'.lambdaParams openers := by
  refine .bind (.within (.commaList (fun _ => param_folds hi hm) fun _ => ?_)) fun _ _ => ?_
  · exact (param_yields hi.yields).mono fun _ _ h => h.lt
  · exact .expect (by decide) fun _ _ _ _ => .pure

theorem lambda_folds (hm : m ≤ n) (h : opensLambda (F.left.kind p) = true) :
    Folds F m c openers p inner.lambda inner'.lambda openers := by
  have plain : (F.left.tag p).IsPlain := by
    rw [← F.left.tag_kind p]
    rcases opensLambda_cases h with h | h <;> rw [h] <;> decide
  refine .take plain fun k hk _ => .ite (fun _ => ?_) fun _ => ?_
  · refine .bind (lambdaParams_fold hi (by omega)) fun _ _ => ?_
    exact .bind (.within (hi.expr (by omega))) fun _ _ => .newExpr
  · refine .bind .pure fun _ _ => ?_
    exact .bind (.within (hi.expr (by omega))) fun _ _ => .newExpr

omit hi [inner.Steady] [inner'.Steady] in
theorem reference_folds : Folds F m c openers p Inner.reference Inner.reference openers :=
  .bind path_folds fun _ _ => .newExpr

theorem primary_folds (hm : m ≤ n) : Folds F m c openers p inner.primary inner'.primary openers := by
  refine .looks .nextToken ?_
  cases hv : (F.left.input.tokens.get p).kind.literal? with
  | some value => exact .take (isPlain_of_literal hv) fun _ _ _ => .newExpr
  | none =>
    dsimp only
    rw [show (F.left.input.tokens.get p).tag = F.left.tag p from F.left.closed p]
    split
    · exact reference_folds
    · exact reference_folds
    · next h => exact tuple_folds hi hm h
    · next h => exact array_folds hi hm h
    · next h => exact conditional_folds hi hm h
    · next h => exact matchOn_folds hi hm h
    · next h => exact returned_folds hi hm h
    · exact .looks .isLambdaNext (.ite (fun h => lambda_folds hi hm h) fun _ => .absent)

/-! ## Applications and operators -/

theorem application_folds (hm : m ≤ n) :
    Folds F m c openers p inner.application inner'.application openers := by
  have primary {k q : Nat} (hk : k ≤ n) : Folds F k c openers q inner.primary inner'.primary openers :=
    primary_folds hi hk
  refine .bind_yields (primary hm) (primary_yields hi.yields) fun f q hf k hk fewer => ?_
  have lt := fewer hf.lt
  refine .bind (.collectWhile (fun _ => .isNextIn) (fun _ _ => primary (by omega)) fun _ _ => ?_)
    fun as q => .ite (fun _ => .pure) fun _ => .looks .context (.ite (fun _ => ?_) fun _ => ?_)
  · exact .of_yields (primary_yields hi.yields) fun _ _ h => h.lt
  · exact .looks .previousSpan .newExpr
  · have block : Folds F k c openers q inner.trailingBlock inner'.trailingBlock openers :=
      .looks .context (.looks .isNext (.ite (fun _ => .map (hi.block (by omega))) fun _ => .pure))
    exact .bind block fun _ _ => .looks .previousSpan .newExpr

omit hi [inner.Steady] [inner'.Steady] in
theorem operator_folds : Folds F m c openers p Inner.operator? Inner.operator? openers := by
  refine .looks .nextToken ?_
  split
  · exact .pure
  · refine .looks .context (.ite (fun _ => .pure) fun _ => ?_)
    exact fun s at_p _ => .ok (Nat.le_refl p) (at_p.built rfl rfl)
  · exact .pure

omit hi [inner.Steady] [inner'.Steady] in
theorem isPlain_of_operator {symbols : String} (h : F.left.operator? c p = some symbols) :
    (F.left.tag p).IsPlain := by
  rw [← F.left.tag_kind p]
  unfold Setting.operator? at h
  split at h
  · next kind => rw [kind]; exact (by decide : Tag.operator.IsPlain)
  · next kind => rw [kind]; exact (by decide : (Tag.reserved .pipe).IsPlain)
  · cases h

theorem operatorRound_folds (hm : m ≤ n) (lhs : Expr) :
    Folds F m c openers p (operatorRound inner lhs) (operatorRound inner' lhs) openers := by
  have steady := @Steady.operator (ForInStep Expr) String
  refine .bind_yields operator_folds operator_yields fun op q known k hk _ => ?_
  obtain ⟨rfl, known⟩ := known
  cases op with
  | none => exact .pure
  | some op =>
    refine .take (isPlain_of_operator known.1) fun l hl _ => .skipBreaks ?_
    exact .bind (application_folds hi (by omega)) fun _ _ => .bind .newExpr fun _ _ => .pure

theorem binary_folds (hm : m ≤ n) : Folds F m c openers p inner.binary inner'.binary openers := by
  have rounds (lhs : Expr) (q : Nat) : Folds F m c openers q (repeated lhs (operatorRound inner))
      (repeated lhs (operatorRound inner')) openers := by
    refine .repeated (fun lhs q => operatorRound_folds hi hm lhs) fun lhs q s e t at_q run none => ?_
    obtain ⟨j, there, lt⟩ := operatorRound_yields hi.yields lhs s _ t at_q.standing run
      fun some => absurd none (Nat.ne_of_gt some)
    rw [there.position]
    exact lt.1
  exact .bind_of_steady (fun _ => inferInstanceAs (Steady (repeated _ (operatorRound inner))))
    (fun _ => inferInstanceAs (Steady (repeated _ (operatorRound inner')))) (application_folds hi hm) rounds

/-! ## Arrows and types -/

omit [inner.Steady] [inner'.Steady] in
theorem codomain_folds (hm : m < n) :
    Folds F m c openers p inner.codomain inner'.codomain openers :=
  .skipBreaks (hi.expr hm)

theorem binder_folds (hm : m ≤ n)
    (h : F.left.tag p = .punct .openParen ∨ F.left.tag p = .punct .openBracket) (isSigma : Bool) :
    Folds F m c openers p (inner.binder isSigma) (inner'.binder isSigma) openers := by
  refine .bind (paramGroup_folds hi hm h false) fun _ _ => .expect (by decide) fun _ k hk _ => ?_
  exact .bind (codomain_folds hi (by omega)) fun _ _ => .newExpr

theorem arrowOrAscription_folds (hm : m ≤ n) :
    Folds F m c openers p inner.arrowOrAscription inner'.arrowOrAscription openers := by
  refine .bind (binary_folds hi hm) fun lhs q => .accept (by decide) (fun _ k hk _ => ?_) fun _ => ?_
  · refine .ite (fun _ => ?_) fun h => absurd rfl h
    exact .bind (codomain_folds hi (by omega)) fun _ _ => .newExpr
  refine .ite (fun h => absurd h Bool.false_ne_true) fun _ => ?_
  refine .accept (by decide) (fun _ k hk _ => ?_) fun _ => ?_
  · refine .ite (fun _ => ?_) fun h => absurd rfl h
    exact .bind (type_folds hi (by omega)) fun _ _ => .newExpr
  · exact .ite (fun h => absurd h Bool.false_ne_true) fun _ => .pure

theorem exprOf_folds (hm : m ≤ n) : Folds F m c openers p inner.exprOf inner'.exprOf openers := by
  refine .looks .isBinderNext (.ite (fun h => .looks .isNext ?_) fun _ => arrowOrAscription_folds hi hm)
  exact binder_folds hi hm (Setting.tag_of_binds h) _

/-! ## Statements and blocks -/

theorem letIn_folds (hm : m ≤ n) (h : F.left.tag p = .keyword .letKw) :
    Folds F m c openers p inner.letIn inner'.letIn openers := by
  refine .take (by rw [h]; decide) fun k hk _ => .bind pattern_folds fun _ _ => ?_
  exact .expect (by decide) fun _ l hl _ => .bind (hi.expr (by omega)) fun _ _ => .pure

theorem conditionalStmt_folds (hm : m ≤ n) (h : F.left.tag p = .keyword .ifKw) :
    Folds F m c openers p inner.conditionalStmt inner'.conditionalStmt openers := by
  refine .take (by rw [h]; decide) fun k hk _ => .bind (head_folds hi (by omega)) fun _ _ => ?_
  refine .bind (thenBody_folds hi (by omega)) fun _ _ => ?_
  exact .bind (elseBody_folds hi (by omega)) fun _ _ => .pure

theorem ask_folds (hm : m ≤ n) : Folds F m c openers p inner.ask inner'.ask openers := by
  refine .bind pattern_folds fun _ _ => .expect (by decide) fun _ k hk _ => .skipBreaks ?_
  exact .bind (hi.expr (by omega)) fun _ _ => .pure

section

variable (ho : folds openers = false)

include ho

theorem stmtForm_folds (hm : m < n) :
    Folds F m c openers p inner.stmtForm inner'.stmtForm openers := by
  refine .looks .nextTag ?_
  split
  · next h => exact .inConstruct (letIn_folds hi (Nat.le_of_lt hm) h)
  · next h => exact conditionalStmt_folds hi (Nat.le_of_lt hm) h
  · refine .looks (.isAhead ho) (.ite (fun _ => ask_folds hi (Nat.le_of_lt hm)) fun _ => ?_)
    exact .bind (hi.expr hm) fun _ _ => .pure

theorem stmt_folds_of (hm : m < n) : Folds F m c openers p inner.stmt inner'.stmt openers := by
  refine .looks .nextSpan (.bind (stmtForm_folds hi ho hm) fun _ _ => ?_)
  exact .looks .previousSpan .newStmt

theorem wholeStmt_folds (hm : m < n) :
    Folds F m c openers p inner.wholeStmt inner'.wholeStmt openers := by
  refine .bind (stmt_folds_of hi ho hm) fun _ _ => .looks .isNextIn ?_
  exact .ite (fun _ => .pure) fun _ => .unexpected

theorem stmtOrError_folds (hm : m < n) :
    Folds F m c openers p inner.stmtOrError inner'.stmtOrError openers := by
  refine .looks .nextSpan (.bind (.recovered (wholeStmt_folds hi ho hm)) fun _ _ => ?_)
  exact .skipBreaks .pure

end

omit [inner'.Steady] in
/-- A statement without errors takes a token. -/
theorem stmtOrError_moves : MovesAt F.left c (folds openers) p inner.stmtOrError :=
  .ran Runs.nextSpan (.bind (.recovered (.of_yields (wholeStmt_yields hi.yields) fun _ _ h => h.1.lt)))

theorem blockOf_folds (hm : m ≤ n) : Folds F m c openers p inner.blockOf inner'.blockOf openers := by
  refine .looks .isNotNext (.ite (fun _ => .failWith_bind) fun brace => ?_)
  refine .openBrace (by simpa using brace) fun k hk q _ => .skipBreaks ?_
  refine .bind (.within (.collectWhile (fun _ => .isInBraces)
    (fun _ _ => stmtOrError_folds hi rfl (by omega)) fun _ _ => stmtOrError_moves hi)) fun _ _ => ?_
  exact .bind (.closeGroup rfl) fun _ _ => .pure

end

/-! ## The knot -/

theorem innerUpTo_folded (depth depth' : Nat) (h : n ≤ depth) (h' : n ≤ depth') :
    (innerUpTo depth).Folded F n (innerUpTo depth') := by
  induction depth generalizing depth' n with
  | zero => exact ⟨innerUpTo_yields 0, fun hm => absurd hm (by omega), fun hm => absurd hm (by omega)⟩
  | succ depth ih =>
    refine ⟨innerUpTo_yields (depth + 1), fun {m _ _ _} hm => ?_, fun {m _ _ _} hm => ?_⟩
    all_goals
      obtain _ | depth' := depth'
      · omega
      have inside : (innerUpTo depth).Folded F m (innerUpTo depth') := ih depth' (by omega) (by omega)
      rw [innerUpTo, innerUpTo]
    · exact exprOf_folds inside (Nat.le_refl m)
    · exact blockOf_folds inside (Nat.le_refl m)

theorem inner_folded : inner.Folded F n inner := by
  have folded : (innerUpTo (F.left.input.tokens.size + 1)).Folded F (F.right.input.tokens.size + 1)
      (innerUpTo (F.right.input.tokens.size + 1)) :=
    innerUpTo_folded _ _ (Nat.succ_le_succ F.right_size_le) (Nat.le_refl _)
  refine ⟨inner_yields, fun _ => .of_size fun s at_p few => ?_, fun _ => .of_size fun s at_p few => ?_⟩
  · rw [inner_expr_run, inner_expr_run]
    exact folded.expr (Nat.lt_succ_self _) s at_p few
  · rw [inner_block_run, inner_block_run]
    exact folded.block (Nat.lt_succ_self _) s at_p few

/-- Expressions are the same on both streams. -/
theorem expr_folds : Folds F m c openers p expr expr openers := inner_folded.expr (Nat.lt_succ_self m)

/-- Blocks are the same on both streams. -/
theorem block_folds : Folds F m c openers p block block openers := inner_folded.block (Nat.lt_succ_self m)

/-- Statements are the same on both streams where line breaks carry meaning. -/
theorem stmt_folds (ho : folds openers = false) : Folds F m c openers p stmt stmt openers :=
  stmt_folds_of inner_folded ho (Nat.lt_succ_self m)

end Surface.Grammar
