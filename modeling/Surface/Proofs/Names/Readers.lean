import Surface.Proofs.Names.Resolves

/-!
# Readers of numbers and readers of spellings

Every reader of patterns, expressions, statements and blocks does on spellings what it does on
numbers: the nodes it builds are the same under other names.

Results:
* `pattern_resolves`, `expr_resolves`, `block_resolves`, `stmt_resolves`.
-/

namespace Surface.Grammar

variable {f : Handle → String}

/-! ## Names and patterns -/

theorem ident_resolves : Resolves f (Ident.map f) ident ident := by
  refine .bind .nextToken fun token => ?_
  rw [show (token.map f).kind.name? = token.kind.name?.map f from token.kind.name?_map f]
  cases token.kind.name? with
  | some name => exact .bind .take fun _ => .pure rfl
  | none => exact .absent .name

theorem path_resolves : Resolves f (Path.map f) path path :=
  .bind ident_resolves fun _ =>
    .bind (.collectWhile .isSegmentNext (.bind .take fun _ => ident_resolves)) fun _ => .pure rfl

section

variable {inner : ReaderOf Handle (Pattern Handle)} {inner' : Reader Pattern}
  (hi : Resolves f (Pattern.map f) inner inner')

include hi

theorem atomicPatternOf_resolves :
    Resolves f (Pattern.map f) (atomicPatternOf inner) (atomicPatternOf inner') := by
  refine .bind .nextToken fun token => ?_
  rw [show (token.map f).kind.literal? = token.kind.literal?.map (Literal.map f) from
    token.kind.literal?_map f]
  cases token.kind.literal? with
  | some value => exact .bind .take fun _ => .newPattern fun _ => rfl
  | none =>
    have alone : Resolves f (Pattern.map f)
        (do
          let path ← path
          newPattern path.span fun m => .cons m path [])
        (do
          let path ← path
          newPattern path.span fun m => .cons m path []) :=
      .bind path_resolves fun p => by
        rw [Path.span_map]
        exact .newPattern fun _ => rfl
    dsimp only [Option.map_none]
    rw [token.tag_map f]
    generalize token.tag = tag
    split
    · exact alone
    · exact alone
    · exact .bind .take fun _ => .newPattern fun _ => rfl
    · refine .looks .openGroup fun group => .bind (hi.within _) fun p => ?_
      exact .looks (.closeGroup group) fun _ => .pure rfl
    · exact .absent .pattern

theorem patternOf_resolves : Resolves f (Pattern.map f) (patternOf inner) (patternOf inner') := by
  refine .within _ (.looks .isNameNext fun _ => .ite (fun _ => ?_) fun _ => atomicPatternOf_resolves hi)
  refine .bind path_resolves fun p => .bind
    (.collectWhile (.isNextIn patternTags) (atomicPatternOf_resolves hi)) fun args => ?_
  rw [Path.span_map]
  refine .looks .previousSpan fun _ => .newPattern fun m => ?_
  rw [Pattern.map, Pattern.mapAll_eq]

end

theorem patternUpTo_resolves (depth : Nat) :
    Resolves f (Pattern.map f) (patternUpTo depth) (patternUpTo depth) := by
  induction depth with
  | zero => exact .absent .pattern
  | succ depth ih => exact patternOf_resolves ih

/-- Readers that are given as much depth as there are tokens. -/
theorem Resolves.ofSize {α β : Type} {F : α → β} {x : Nat → ReaderOf Handle α} {y : Nat → Reader β}
    (h : ∀ depth, Resolves f F (x depth) (y depth)) :
    Resolves f F (fun i s => x (i.tokens.size + 1) i s) fun i s => y (i.tokens.size + 1) i s where
  grows i s := (h _).grows i s
  reads i s held denotes := by
    rw [show (i.map f).tokens.size = i.tokens.size from i.tokens.size_map f]
    exact (h _).reads i s held denotes

theorem pattern_resolves : Resolves f (Pattern.map f) pattern pattern := .ofSize patternUpTo_resolves

theorem atomicPattern_resolves : Resolves f (Pattern.map f) atomicPattern atomicPattern :=
  atomicPatternOf_resolves pattern_resolves

/-! ## Expressions -/

/-- Readers of what may lie inside each other without bound, for numbers and for spellings. -/
structure Inner.Resolves (f : Handle → String) (inner : Inner Handle) (inner' : Inner) : Prop where
  expr : Grammar.Resolves f (Expr.map f) inner.expr inner'.expr
  block : Grammar.Resolves f (Block.map f) inner.block inner'.block

section

variable {inner : Inner Handle} {inner' : Inner} (hi : inner.Resolves f inner')

include hi

theorem type_resolves : Resolves f (Expr.map f) inner.type inner'.type := hi.expr.within _

theorem head_resolves : Resolves f (Expr.map f) inner.head inner'.head := hi.expr.within _

theorem param_resolves : Resolves f (Param.map f) inner.param inner'.param := by
  refine .bind pattern_resolves fun pattern => .looks (.accept _) fun _ => ?_
  have typed (type : Option (Expr Handle)) : Resolves f (Param.map f)
      (do return ⟨pattern, type, pattern.span.merge (← previousSpan)⟩)
      (do
        return ⟨pattern.map f, type.map (Expr.map f), (pattern.map f).span.merge (← previousSpan)⟩) := by
    refine .looks .previousSpan fun _ => .pure ?_
    rw [Param.map, Expr.mapOption_eq, Pattern.span_map]
  have type : Resolves f (Option.map (Expr.map f)) (some <$> inner.type) (some <$> inner'.type) :=
    (type_resolves hi).map fun _ => rfl
  exact .ite (fun _ => type.bind typed) fun _ => typed none

theorem paramGroup_resolves (nonEmpty : Bool) :
    Resolves f (Prod.map (List.map (Param.map f)) id) (inner.paramGroup nonEmpty)
      (inner'.paramGroup nonEmpty) := by
  refine .looks .openGroup fun group => .looks (.isNext _) fun _ => ?_
  have params : Resolves f (Prod.map (List.map (Param.map f)) id)
      (do
        let (params, _) ← nestedList (.punct group.close) inner.param
        return (params, ← closeGroup group))
      (do
        let (params, _) ← nestedList (.punct group.close) inner'.param
        return (params, ← closeGroup group)) :=
    .bind (.nestedList _ (param_resolves hi)) fun _ => .looks (.closeGroup group) fun _ => .pure rfl
  exact .ite (fun _ => .looks (.absent .parameter) fun _ => params) fun _ => params

theorem thenBody_resolves : Resolves f (Body.map f) inner.thenBody inner'.thenBody :=
  .looks (.isNext _) fun _ => .ite (fun _ => .bind hi.block fun _ => .pure rfl) fun _ =>
    .looks (.accept _) fun _ => .ite (fun _ => .bind hi.expr fun _ => .pure rfl) fun _ => .unexpected _

theorem blockOrExpr_resolves : Resolves f (Body.map f) inner.blockOrExpr inner'.blockOrExpr :=
  .looks (.isNext _) fun _ => .ite (fun _ => .bind hi.block fun _ => .pure rfl) fun _ =>
    .bind hi.expr fun _ => .pure rfl

theorem elseBody_resolves : Resolves f (Option.map (Body.map f)) inner.elseBody inner'.elseBody :=
  .looks (.isNextPastBreak _) fun _ => .ite
    (fun _ => .looks .skipBreaks fun _ => .bind .take fun _ =>
      (blockOrExpr_resolves hi).map fun _ => rfl)
    fun _ => .pure rfl

/-! ## Primaries -/

theorem tuple_resolves : Resolves f (Expr.map f) inner.tuple inner'.tuple := by
  refine .looks .openGroup fun group => .bind (.nestedList _ hi.expr) fun (elements, trailing) => ?_
  refine .looks (.closeGroup group) fun _ => .newExpr fun m => ?_
  rw [Expr.map, Expr.mapAll_eq]
  rfl

theorem array_resolves : Resolves f (Expr.map f) inner.array inner'.array := by
  refine .looks .openGroup fun group => .bind (.nestedList _ hi.expr) fun (elements, _) => ?_
  refine .looks (.closeGroup group) fun _ => .newExpr fun m => ?_
  rw [Expr.map, Expr.mapAll_eq]

theorem conditional_resolves : Resolves f (Expr.map f) inner.conditional inner'.conditional := by
  refine .bind .take fun start => .bind (head_resolves hi) fun condition => ?_
  refine .bind (thenBody_resolves hi) fun thenBody => .bind (elseBody_resolves hi) fun elseBody => ?_
  cases elseBody with
  | some elseBody => exact .looks .previousSpan fun _ => .newExpr fun _ => rfl
  | none => exact .looks .previousSpan fun _ => .throw _

theorem arm_resolves : Resolves f (Arm.map f) inner.arm inner'.arm := by
  refine .bind pattern_resolves fun pattern => .looks (.expect _) fun _ => .looks .skipBreaks fun _ => ?_
  refine .bind (blockOrExpr_resolves hi) fun body => .looks .previousSpan fun stop => ?_
  rw [Pattern.span_map]
  refine .looks (.accept _) fun comma => .looks (.isNext _) fun _ => .looks .skipBreaks fun _ => ?_
  refine .looks (.isNotNext _) fun _ => .ite (fun _ => ?_) fun _ => .pure rfl
  exact .looks (.unexpected _) fun _ => .pure rfl

theorem matchOn_resolves : Resolves f (Expr.map f) inner.matchOn inner'.matchOn := by
  refine .bind .take fun start => .bind (head_resolves hi) fun scrutinee => ?_
  have arms : Resolves f (Expr.map f)
      (do
        let group ← openBrace
        skipBreaks
        let arms ← within (fun _ => .none) (collectWhile Inner.isInBraces inner.arm)
        let stop ← closeGroup group
        newExpr (start.span.merge stop) fun m => .matchOn m scrutinee arms)
      (do
        let group ← openBrace
        skipBreaks
        let arms ← within (fun _ => .none) (collectWhile Inner.isInBraces inner'.arm)
        let stop ← closeGroup group
        newExpr (start.span.merge stop) fun m => .matchOn m (scrutinee.map f) arms) := by
    refine .looks .openBrace fun group => .looks .skipBreaks fun _ => ?_
    refine .bind ((Resolves.collectWhile .isInBraces (arm_resolves hi)).within _) fun arms => ?_
    refine .looks (.closeGroup group) fun stop => .newExpr fun m => ?_
    rw [Expr.map, Arm.mapAll_eq]
  exact .looks (.isNotNext _) fun _ => .ite (fun _ => .looks (.unexpected _) fun _ => arms) fun _ =>
    arms

theorem returned_resolves : Resolves f (Expr.map f) inner.returned inner'.returned := by
  refine .bind .take fun start => .looks (.isNextIn _) fun _ => .looks .isLambdaNext fun _ => ?_
  refine .ite (fun _ => .bind hi.expr fun value => ?_) fun _ => .newExpr fun _ => rfl
  rw [Expr.span_map]
  exact .newExpr fun _ => rfl

theorem lambdaParams_resolves :
    Resolves f (List.map (Param.map f)) inner.lambdaParams inner'.lambdaParams :=
  .bind ((Resolves.commaList _ (param_resolves hi)).within _) fun _ =>
    .looks (.expect _) fun _ => .pure rfl

theorem lambda_resolves : Resolves f (Expr.map f) inner.lambda inner'.lambda := by
  refine .bind .take fun bar => ?_
  rw [bar.tag_map f]
  have behind (params : List (Param Handle)) : Resolves f (Expr.map f)
      (do
        let body ← within (fun c => c.without .lambdaParams) inner.expr
        newExpr (bar.span.merge body.span) fun m => .lambda m params body)
      (do
        let body ← within (fun c => c.without .lambdaParams) inner'.expr
        newExpr (bar.span.merge body.span) fun m => .lambda m (params.map (Param.map f)) body) := by
    refine .bind (hi.expr.within _) fun body => ?_
    rw [Expr.span_map]
    refine .newExpr fun m => ?_
    rw [Expr.map, Param.mapAll_eq]
  exact .ite (fun _ => .bind (lambdaParams_resolves hi) behind) fun _ => behind []

omit hi in
theorem reference_resolves : Resolves f (Expr.map f) Inner.reference Inner.reference := by
  refine .bind path_resolves fun p => ?_
  rw [Path.span_map]
  refine .newExpr fun m => ?_
  rw [show (p.map f).tail = p.tail.map (Ident.map f) from rfl, List.isEmpty_map]
  split <;> rfl

theorem primary_resolves : Resolves f (Expr.map f) inner.primary inner'.primary := by
  refine .bind .nextToken fun token => ?_
  rw [show (token.map f).kind.literal? = token.kind.literal?.map (Literal.map f) from
    token.kind.literal?_map f]
  cases token.kind.literal? with
  | some value => exact .bind .take fun _ => .newExpr fun _ => rfl
  | none =>
    dsimp only [Option.map_none]
    rw [token.tag_map f]
    generalize token.tag = tag
    split
    · exact reference_resolves
    · exact reference_resolves
    · exact tuple_resolves hi
    · exact array_resolves hi
    · exact conditional_resolves hi
    · exact matchOn_resolves hi
    · exact returned_resolves hi
    · exact .looks .isLambdaNext fun _ => .ite (fun _ => lambda_resolves hi) fun _ => .absent .expression

/-! ## Applications and operators -/

theorem trailingBlock_resolves :
    Resolves f (Option.map (Block.map f)) inner.trailingBlock inner'.trailingBlock :=
  .looks .context fun _ => .looks (.isNext _) fun _ => .ite (fun _ => hi.block.map fun _ => rfl) fun _ =>
    .pure rfl

theorem application_resolves : Resolves f (Expr.map f) inner.application inner'.application := by
  refine .bind (primary_resolves hi) fun callee => ?_
  refine .bind (.collectWhile (.isNextIn _) (primary_resolves hi)) fun args => ?_
  rw [List.isEmpty_map, Expr.span_map]
  refine .ite (fun _ => .pure rfl) fun _ => .looks .context fun c => .ite (fun _ => ?_) fun _ => ?_
  · refine .looks .previousSpan fun _ => .newExpr fun m => ?_
    rw [Expr.map, Expr.mapAll_eq]
  · refine .bind (trailingBlock_resolves hi) fun block => .looks .previousSpan fun _ => ?_
    refine .newExpr fun m => ?_
    rw [Expr.map, Expr.mapAll_eq, Block.mapOption_eq]

omit hi in
theorem operator?_resolves :
    Resolves f (Option.map (Operator.map f)) Inner.operator? Inner.operator? := by
  refine .bind .nextToken fun token => ?_
  obtain ⟨kind, span, spacing⟩ := token
  cases kind with
  | operator symbols => exact .pure rfl
  | reserved r =>
    cases r with
    | pipe =>
      exact .looks .context fun _ => .ite (fun _ => .pure rfl) fun _ =>
        .bind (.enterName _) fun _ => .pure rfl
    | _ => exact .pure rfl
  | _ => exact .pure rfl

theorem binary_resolves : Resolves f (Expr.map f) inner.binary inner'.binary := by
  refine .bind (application_resolves hi) fun lhs => .repeated rfl fun lhs => ?_
  refine .bind operator?_resolves fun op => ?_
  cases op with
  | none => exact .pure rfl
  | some op =>
    refine .bind .take fun _ => .looks .skipBreaks fun _ => .bind (application_resolves hi) fun rhs => ?_
    rw [Expr.span_map, Expr.span_map]
    exact .bind (.newExpr fun _ => rfl) fun _ => .pure rfl

/-! ## Arrows and types -/

theorem codomain_resolves : Resolves f (Expr.map f) inner.codomain inner'.codomain :=
  .looks .skipBreaks fun _ => hi.expr

theorem binder_resolves (isSigma : Bool) :
    Resolves f (Expr.map f) (inner.binder isSigma) (inner'.binder isSigma) := by
  refine .bind (paramGroup_resolves hi false) fun (params, span) => .looks (.expect _) fun _ => ?_
  refine .bind (codomain_resolves hi) fun codomain => ?_
  rw [Expr.span_map]
  refine .newExpr fun m => ?_
  cases isSigma with
  | true =>
    show Expr.sigma m (params.map (Param.map f)) _ = (Expr.sigma m params codomain).map f
    rw [Expr.map, Param.mapAll_eq]
  | false =>
    show Expr.pi m (params.map (Param.map f)) _ = (Expr.pi m params codomain).map f
    rw [Expr.map, Param.mapAll_eq]

theorem arrowOrAscription_resolves :
    Resolves f (Expr.map f) inner.arrowOrAscription inner'.arrowOrAscription := by
  refine .bind (binary_resolves hi) fun lhs => .looks (.accept _) fun _ => .ite (fun _ => ?_) fun _ => ?_
  · refine .bind (codomain_resolves hi) fun codomain => ?_
    rw [Expr.span_map, Expr.span_map]
    exact .newExpr fun _ => rfl
  · refine .looks (.accept _) fun _ => .ite (fun _ => ?_) fun _ => .pure rfl
    refine .bind (type_resolves hi) fun type => ?_
    rw [Expr.span_map, Expr.span_map]
    exact .newExpr fun _ => rfl

theorem exprOf_resolves : Resolves f (Expr.map f) inner.exprOf inner'.exprOf :=
  .looks .isBinderNext fun _ => .ite (fun _ => .looks (.isNext _) fun _ => binder_resolves hi _) fun _ =>
    arrowOrAscription_resolves hi

/-! ## Statements and blocks -/

theorem letIn_resolves : Resolves f (fun form m => (form m).map f) inner.letIn inner'.letIn :=
  .bind .take fun _ => .bind pattern_resolves fun _ => .looks (.expect _) fun _ => .bind hi.expr fun _ =>
    .pure rfl

theorem conditionalStmt_resolves :
    Resolves f (fun form m => (form m).map f) inner.conditionalStmt inner'.conditionalStmt := by
  refine .bind .take fun _ => .bind (head_resolves hi) fun condition => ?_
  refine .bind (thenBody_resolves hi) fun thenBody => .bind (elseBody_resolves hi) fun elseBody => ?_
  refine .pure ?_
  funext m
  rw [Stmt.map, Body.mapOption_eq]

theorem ask_resolves : Resolves f (fun form m => (form m).map f) inner.ask inner'.ask :=
  .bind pattern_resolves fun _ => .looks (.expect _) fun _ => .looks .skipBreaks fun _ =>
    .bind hi.expr fun _ => .pure rfl

theorem stmtForm_resolves :
    Resolves f (fun form m => (form m).map f) inner.stmtForm inner'.stmtForm := by
  refine .looks .nextTag fun tag => ?_
  split
  · exact (letIn_resolves hi).inConstruct _
  · exact conditionalStmt_resolves hi
  · exact .looks (.isAhead _) fun _ => .ite (fun _ => ask_resolves hi) fun _ =>
      .bind hi.expr fun _ => .pure rfl

theorem stmt_resolves_of : Resolves f (Stmt.map f) inner.stmt inner'.stmt :=
  .looks .nextSpan fun _ => .bind (stmtForm_resolves hi) fun _ => .looks .previousSpan fun _ =>
    .newStmt fun _ => rfl

theorem stmtOrError_resolves : Resolves f (Stmt.map f) inner.stmtOrError inner'.stmtOrError := by
  have whole : Resolves f (Stmt.map f) inner.wholeStmt inner'.wholeStmt :=
    .bind (stmt_resolves_of hi) fun _ => .looks (.isNextIn _) fun _ => .ite (fun _ => .pure rfl) fun _ =>
      .unexpected _
  refine .looks .nextSpan fun start => .bind (whole.orElse fun error => ?_) fun _ =>
    .looks .skipBreaks fun _ => .pure rfl
  exact .looks (.recover error start false _) fun _ => .newStmt fun _ => rfl

theorem blockOf_resolves : Resolves f (Block.map f) inner.blockOf inner'.blockOf := by
  have stmts : Resolves f (Block.map f)
      (do
        let group ← openBrace
        skipBreaks
        let stmts ← within (fun _ => .none) (collectWhile Inner.isInBraces inner.stmtOrError)
        return ⟨stmts, ← closeGroup group⟩)
      (do
        let group ← openBrace
        skipBreaks
        let stmts ← within (fun _ => .none) (collectWhile Inner.isInBraces inner'.stmtOrError)
        return ⟨stmts, ← closeGroup group⟩) := by
    refine .looks .openBrace fun group => .looks .skipBreaks fun _ => ?_
    refine .bind ((Resolves.collectWhile .isInBraces (stmtOrError_resolves hi)).within _) fun stmts => ?_
    refine .looks (.closeGroup group) fun _ => .pure ?_
    rw [Block.map, Stmt.mapAll_eq]
  exact .looks (.isNotNext _) fun _ => .ite (fun _ => .looks (.unexpected _) fun _ => stmts) fun _ =>
    stmts

end

/-! ## The knot -/

theorem innerUpTo_resolves (depth : Nat) : (innerUpTo depth).Resolves f (innerUpTo depth) := by
  induction depth with
  | zero => exact ⟨.absent .expression, .absent .expression⟩
  | succ depth ih => exact ⟨exprOf_resolves ih, blockOf_resolves ih⟩

theorem inner_resolves : inner.Resolves f inner where
  expr := .ofSize fun depth => (innerUpTo_resolves depth).expr
  block := .ofSize fun depth => (innerUpTo_resolves depth).block

theorem expr_resolves : Resolves f (Expr.map f) expr expr := inner_resolves.expr

theorem block_resolves : Resolves f (Block.map f) block block := inner_resolves.block

theorem stmt_resolves : Resolves f (Stmt.map f) stmt stmt := stmt_resolves_of inner_resolves

end Surface.Grammar
