import Surface.Proofs.Reader.Keeps

/-!
# What readers do not look at

No reader asks which errors have been reported before, and below items none asks what the dialect
admits as an item: all they need of it is whether documentation is attached. A run after errors, or in
another dialect, is therefore the same run with those errors before its own.

Results:
* `State.behind`: a state with some errors before its own.
* `Indifferent`: the readers whose runs are the same behind errors and in another dialect; one
  instance for every reader up to declarations and statements.
-/

namespace Surface

namespace Grammar

variable {α β : Type}

/-! ## Runs behind errors -/

/-- The input in another dialect. -/
def Input.inDialect (i : Input) (d : Dialect) : Input := { i with dialect := d }

/-- The state with some errors before its own. -/
def State.behind (s : State) (es : Array SyntaxError) : State := { s with errors := es ++ s.errors }

@[simp] theorem State.behind_cursor (s : State) (es : Array SyntaxError) :
    (s.behind es).cursor = s.cursor := rfl

@[simp] theorem State.behind_errors (s : State) (es : Array SyntaxError) :
    (s.behind es).errors = es ++ s.errors := rfl

/-- Every state is one without errors behind its errors. -/
theorem State.eq_behind (s : State) : s = ({ s with errors := #[] } : State).behind s.errors := by
  simp [State.behind]

/-- What a run yields, with some errors before those of the state it ends in. -/
def resultBehind (es : Array SyntaxError) :
    EStateM.Result SyntaxError State α → EStateM.Result SyntaxError State α
  | .ok a s => .ok a (s.behind es)
  | .error e s => .error e (s.behind es)

/-- A reader whose runs are the same behind errors, and in another dialect in which documentation is
attached as well or not. -/
class Indifferent (r : Reader α) : Prop where
  same : ∀ (i : Input) (d : Dialect) (es : Array SyntaxError) (s : State), d.docs = i.dialect.docs →
    r (i.inDialect d) (s.behind es) = resultBehind es (r i s)

/-- A run that succeeds behind errors is one that succeeds without them. -/
theorem Indifferent.ok {r : Reader α} [Indifferent r] {i : Input} {s t : State} {a : α}
    (h : r i s = .ok a t) : ∃ t', r i { s with errors := #[] } = .ok a t' ∧ t = t'.behind s.errors := by
  have same := Indifferent.same (r := r) i i.dialect s.errors { s with errors := #[] } rfl
  have run : r i s = resultBehind s.errors (r i { s with errors := #[] }) := by
    rw [← same, ← s.eq_behind]
    rfl
  rw [run] at h
  cases free : r i { s with errors := #[] } with
  | ok b t' =>
    rw [free] at h
    cases h
    exact ⟨t', rfl, rfl⟩
  | error e t' =>
    rw [free] at h
    cases h

/-- A run in another dialect is the same run. -/
theorem Indifferent.inDialect {r : Reader α} [Indifferent r] {i : Input} {d : Dialect}
    (hd : d.docs = i.dialect.docs) (s : State) : r (i.inDialect d) s = r i s := by
  have none (s : State) : s.behind #[] = s := by
    unfold State.behind
    rw [Array.empty_append]
  have same := Indifferent.same (r := r) i d #[] s hd
  rw [none] at same
  rw [same]
  cases r i s <;> simp only [resultBehind, none]

/-! ## Putting readers together -/

instance (a : α) : Indifferent (pure a : Reader α) := ⟨fun _ _ _ _ _ => rfl⟩

instance (e : SyntaxError) : Indifferent (throw e : Reader α) := ⟨fun _ _ _ _ _ => rfl⟩

instance bind_indifferent {x : Reader α} {f : α → Reader β} [Indifferent x]
    [∀ a, Indifferent (f a)] : Indifferent (x >>= f) := by
  constructor
  intro i d es s hd
  rw [bind_run, bind_run, Indifferent.same (r := x) i d es s hd]
  cases x i s with
  | ok a t => exact Indifferent.same i d es t hd
  | error e t => rfl

theorem Indifferent.bind {x : Reader α} {f : α → Reader β} (hx : Indifferent x)
    (hf : ∀ a, Indifferent (f a)) : Indifferent (x >>= f) := bind_indifferent

instance {x : Reader α} {f : α → β} [Indifferent x] : Indifferent (f <$> x) := by
  constructor
  intro i d es s hd
  rw [map_run, map_run, Indifferent.same (r := x) i d es s hd]
  cases x i s <;> rfl

instance {p : Prop} [Decidable p] {x y : Reader α} [Indifferent x] [Indifferent y] :
    Indifferent (if p then x else y) := by
  split <;> infer_instance

instance {derive : Context → Context} {r : Reader α} [Indifferent r] :
    Indifferent (within derive r) := by
  constructor
  intro i d es s hd
  have inner := Indifferent.same (r := r) i d es (s.inContext (derive s.context)) hd
  have behind : (s.behind es).inContext (derive (s.behind es).context)
      = (s.inContext (derive s.context)).behind es := rfl
  rw [within_run, within_run, behind, inner]
  cases r i (s.inContext (derive s.context)) <;> rfl

instance {form : Construct} {r : Reader α} [Indifferent r] : Indifferent (inConstruct form r) := by
  constructor
  intro i d es s hd
  rw [inConstruct_run, inConstruct_run, Indifferent.same (r := r) i d es s hd]
  cases r i s <;> rfl

instance {r : Reader α} {replace : SyntaxError → Reader α} [Indifferent r]
    [∀ e, Indifferent (replace e)] : Indifferent (orElse r replace) := by
  constructor
  intro i d es s hd
  rw [orElse_run, orElse_run, Indifferent.same (r := r) i d es s hd]
  cases r i s with
  | ok a t => rfl
  | error e t => exact Indifferent.same i d es t hd

instance repeatUpTo_indifferent {round : β → Reader (ForInStep β)} [∀ b, Indifferent (round b)]
    (n : Nat) (b : β) : Indifferent (repeatUpTo round n b) := by
  induction n generalizing b with
  | zero => exact inferInstanceAs (Indifferent (pure b))
  | succ n ih =>
    have next : ∀ r : ForInStep β, Indifferent (match r with
        | .done b => pure b
        | .yield b => repeatUpTo round n b : Reader β) := by
      intro r
      cases r with
      | done b => exact inferInstanceAs (Indifferent (pure b))
      | yield b => exact ih b
    exact bind_indifferent

instance {b : β} {round : β → Reader (ForInStep β)} [∀ b, Indifferent (round b)] :
    Indifferent (repeated b round) :=
  ⟨fun i d es s hd => (repeatUpTo_indifferent (i.tokens.size - s.cursor.position + 1) b).same i d es s hd⟩

/-! ## Looking ahead, taking and building -/

instance : Indifferent cursor := ⟨fun _ _ _ _ _ => rfl⟩

instance : Indifferent context := ⟨fun _ _ _ _ _ => rfl⟩

instance : Indifferent nextToken := ⟨fun _ _ _ _ _ => rfl⟩

instance : Indifferent nextSpan := ⟨fun _ _ _ _ _ => rfl⟩

instance : Indifferent nextTag := ⟨fun _ _ _ _ _ => rfl⟩

instance : Indifferent tagBehind := ⟨fun _ _ _ _ _ => rfl⟩

instance : Indifferent previousSpan := ⟨fun _ _ _ _ _ => rfl⟩

instance (t : Tag) : Indifferent (isNext t) := ⟨fun _ _ _ _ _ => rfl⟩

instance (t : Tag) : Indifferent (isNotNext t) := ⟨fun _ _ _ _ _ => rfl⟩

instance (ts : TagSet) : Indifferent (isNextIn ts) := ⟨fun _ _ _ _ _ => rfl⟩

instance : Indifferent isNameNext := inferInstanceAs (Indifferent (isNextIn nameTags))

instance (t : Tag) : Indifferent (isAhead t) := ⟨fun _ _ _ _ _ => rfl⟩

instance : Indifferent isBinderNext := ⟨fun _ _ _ _ _ => rfl⟩

instance : Indifferent isSemicolonNext := ⟨fun _ _ _ _ _ => rfl⟩

instance : Indifferent isSegmentNext := ⟨fun i d es s _ => by
  rw [isSegmentNext_run, isSegmentNext_run]
  rfl⟩

instance (t : Tag) : Indifferent (isNextPastBreak t) :=
  ⟨fun i d es s _ => by
    rw [isNextPastBreak_run, isNextPastBreak_run]
    rfl⟩

instance : Indifferent Inner.isInBraces := ⟨fun i d es s _ => by
  rw [isInBraces_run, isInBraces_run]
  rfl⟩

instance : Indifferent Inner.isLambdaNext := ⟨fun i d es s _ => by
  rw [isLambdaNext_run, isLambdaNext_run]
  rfl⟩

instance : Indifferent take := ⟨fun _ _ _ _ _ => rfl⟩

instance : Indifferent skipBreaks := ⟨fun _ _ _ _ _ => rfl⟩

instance (b : Bool) : Indifferent (setSkipsBreaks b) := ⟨fun _ _ _ _ _ => rfl⟩

instance (span : Span) (form : Mark → Expr) : Indifferent (newExpr span form) :=
  ⟨fun _ _ _ _ _ => rfl⟩

instance (span : Span) (form : Mark → Pattern) : Indifferent (newPattern span form) :=
  ⟨fun _ _ _ _ _ => rfl⟩

instance (span : Span) (form : Mark → Stmt) : Indifferent (newStmt span form) :=
  ⟨fun _ _ _ _ _ => rfl⟩

instance (name : String) : Indifferent (Inner.enterName name) := ⟨fun _ _ _ _ _ => rfl⟩

instance (error : SyntaxError) (start : Span) (skips : Bool) (boundary : TagSet) :
    Indifferent (recover error start skips boundary) := by
  constructor
  intro i d es s _
  rw [recover_run, recover_run]
  have pushed : (es ++ s.errors).push error = es ++ s.errors.push error := Array.push_append
  show EStateM.Result.ok _ { s with errors := (es ++ s.errors).push error, cursor := _ } = _
  rw [pushed]
  rfl

instance (problem : Tag → Problem) : Indifferent (failWith problem : Reader α) :=
  inferInstanceAs (Indifferent (nextToken >>= fun t => throw (SyntaxError.atToken t problem)))

instance (ts : TagSet) : Indifferent (unexpected ts : Reader α) :=
  inferInstanceAs (Indifferent (failWith _))

instance (w : Wanted) : Indifferent (absent w : Reader α) := inferInstanceAs (Indifferent (failWith _))

instance (t : Tag) : Indifferent (takeIf t) := by
  unfold takeIf
  infer_instance

instance (t : Tag) : Indifferent (accept t) := by
  unfold accept
  infer_instance

instance (t : Tag) : Indifferent (expect t) := by
  have next : ∀ span : Option Span, Indifferent (match span with
      | some span => pure span
      | none => unexpected {t} : Reader Span) := by
    intro span
    cases span <;> infer_instance
  exact bind_indifferent

instance : Indifferent openGroup := by
  unfold openGroup
  infer_instance

instance : Indifferent openBrace := by
  unfold openBrace
  infer_instance

instance (g : Opened) : Indifferent (closeGroup g) := by
  have next : ∀ span : Option Span, Indifferent (match span with
      | some stop => pure (g.openedAt.merge stop)
      | none => failWith fun found => .unclosed g.close found g.openedAt : Reader Span) := by
    intro span
    cases span <;> infer_instance
  have rest : Indifferent (do
      setSkipsBreaks g.skipped
      match ← takeIf (.punct g.close) with
      | some stop => return g.openedAt.merge stop
      | none => failWith fun found => .unclosed g.close found g.openedAt : Reader Span) :=
    bind_indifferent
  unfold closeGroup
  infer_instance

/-! ## Sequences -/

instance {more : Reader Bool} {item : Reader (α × Bool)} [Indifferent more] [Indifferent item] :
    Indifferent (collect more item) := by
  have round : ∀ items : Array α, Indifferent (do
      if ← more then
        let (a, goOn) ← item
        return if goOn then .yield (items.push a) else .done (items.push a)
      else return .done items : Reader (ForInStep (Array α))) := by
    intro items
    infer_instance
  unfold collect
  infer_instance

instance {more : Reader Bool} {item : Reader α} [Indifferent more] [Indifferent item] :
    Indifferent (collectWhile more item) := by
  unfold collectWhile
  infer_instance

instance {close : Tag} {item : Reader α} [Indifferent item] : Indifferent (commaList close item) := by
  unfold commaList
  infer_instance

instance {close : Tag} {item : Reader α} [Indifferent item] : Indifferent (nestedList close item) := by
  unfold nestedList
  infer_instance

/-! ## Names and patterns -/

instance : Indifferent ident := by
  unfold ident
  refine .bind inferInstance fun token => ?_
  split <;> infer_instance

instance : Indifferent path := by
  unfold path
  infer_instance

instance {inner : Reader Pattern} [Indifferent inner] : Indifferent (atomicPatternOf inner) := by
  unfold atomicPatternOf
  refine .bind inferInstance fun token => ?_
  split
  · infer_instance
  · split <;> infer_instance

instance {inner : Reader Pattern} [Indifferent inner] : Indifferent (patternOf inner) := by
  unfold patternOf
  infer_instance

instance patternUpTo_indifferent (depth : Nat) : Indifferent (patternUpTo depth) := by
  induction depth with
  | zero => exact inferInstanceAs (Indifferent (absent _))
  | succ depth ih => exact inferInstanceAs (Indifferent (patternOf (patternUpTo depth)))

instance : Indifferent pattern :=
  ⟨fun i d es s hd => (patternUpTo_indifferent (i.tokens.size + 1)).same i d es s hd⟩

instance : Indifferent atomicPattern := inferInstanceAs (Indifferent (atomicPatternOf pattern))

/-! ## Expressions, statements and blocks -/

/-- Readers of expressions and blocks that are indifferent. -/
class Inner.Indifferent (inner : Inner) : Prop where
  expr : Grammar.Indifferent inner.expr
  block : Grammar.Indifferent inner.block

section

variable {inner : Inner} [inner.Indifferent]

instance : Indifferent inner.expr := Inner.Indifferent.expr

instance : Indifferent inner.block := Inner.Indifferent.block

instance : Indifferent inner.type := by
  unfold Inner.type
  infer_instance

instance : Indifferent inner.param := by
  unfold Inner.param
  infer_instance

instance (nonEmpty : Bool) : Indifferent (inner.paramGroup nonEmpty) := by
  unfold Inner.paramGroup
  infer_instance

instance : Indifferent inner.thenBody := by
  unfold Inner.thenBody
  infer_instance

instance : Indifferent inner.blockOrExpr := by
  unfold Inner.blockOrExpr
  infer_instance

instance : Indifferent inner.elseBody := by
  unfold Inner.elseBody
  infer_instance

instance : Indifferent inner.head := by
  unfold Inner.head
  infer_instance

instance : Indifferent inner.tuple := by
  unfold Inner.tuple
  infer_instance

instance : Indifferent inner.array := by
  unfold Inner.array
  infer_instance

instance : Indifferent inner.conditional := by
  unfold Inner.conditional
  refine .bind inferInstance fun start => .bind inferInstance fun condition =>
    .bind inferInstance fun thenBody => .bind inferInstance fun elseBody => ?_
  cases elseBody <;> infer_instance

instance : Indifferent inner.arm := by
  unfold Inner.arm
  refine .bind inferInstance fun pattern => .bind inferInstance fun _ =>
    .bind inferInstance fun _ => .bind inferInstance fun body => ?_
  refine .bind inferInstance fun _ => .bind inferInstance fun comma =>
    .bind inferInstance fun _ => .bind inferInstance fun _ => .bind inferInstance fun _ => ?_
  infer_instance

instance : Indifferent inner.matchOn := by
  have arms : Indifferent (within (fun _ => .none) (collectWhile Inner.isInBraces inner.arm)) :=
    inferInstance
  unfold Inner.matchOn
  refine .bind inferInstance fun start => .bind inferInstance fun scrutinee =>
    .bind inferInstance fun _ => ?_
  infer_instance

instance : Indifferent inner.returned := by
  unfold Inner.returned
  infer_instance

instance : Indifferent inner.lambdaParams := by
  unfold Inner.lambdaParams
  infer_instance

instance : Indifferent inner.lambda := by
  unfold Inner.lambda
  infer_instance

instance : Indifferent Inner.reference := by
  unfold Inner.reference
  infer_instance

instance : Indifferent inner.primary := by
  unfold Inner.primary
  refine .bind inferInstance fun token => ?_
  split
  · infer_instance
  · split <;> infer_instance

instance : Indifferent inner.trailingBlock := by
  unfold Inner.trailingBlock
  infer_instance

instance : Indifferent inner.application := by
  unfold Inner.application
  infer_instance

instance : Indifferent Inner.operator? := by
  unfold Inner.operator?
  refine .bind inferInstance fun token => ?_
  split <;> infer_instance

instance : Indifferent inner.binary := by
  have round (lhs : Expr) : Indifferent (operatorRound inner lhs) := by
    refine .bind inferInstance fun op => ?_
    cases op <;> infer_instance
  refine .bind inferInstance fun lhs => ?_
  exact inferInstanceAs (Indifferent (repeated lhs (operatorRound inner)))

instance : Indifferent inner.codomain := by
  unfold Inner.codomain
  infer_instance

instance (isSigma : Bool) : Indifferent (inner.binder isSigma) := by
  unfold Inner.binder
  infer_instance

instance : Indifferent inner.arrowOrAscription := by
  unfold Inner.arrowOrAscription
  infer_instance

instance : Indifferent inner.exprOf := by
  unfold Inner.exprOf
  infer_instance

instance : Indifferent inner.letIn := by
  unfold Inner.letIn
  infer_instance

instance : Indifferent inner.conditionalStmt := by
  unfold Inner.conditionalStmt
  infer_instance

instance : Indifferent inner.ask := by
  unfold Inner.ask
  infer_instance

instance : Indifferent inner.stmtForm := by
  unfold Inner.stmtForm
  refine .bind inferInstance fun tag => ?_
  split <;> infer_instance

instance : Indifferent inner.stmt := by
  unfold Inner.stmt
  infer_instance

instance : Indifferent inner.wholeStmt := by
  unfold Inner.wholeStmt
  infer_instance

end

section

variable {inner : Inner} [inner.Indifferent]

instance : Indifferent inner.stmtOrError := by
  unfold Inner.stmtOrError
  infer_instance

instance : Indifferent inner.blockOf := by
  unfold Inner.blockOf
  have stmts : Indifferent (within (fun _ => .none)
    (collectWhile Inner.isInBraces inner.stmtOrError)) := inferInstance
  refine .bind inferInstance fun _ => ?_
  infer_instance

end

instance innerUpTo_indifferent (depth : Nat) : (innerUpTo depth).Indifferent := by
  induction depth with
  | zero =>
    rw [innerUpTo]
    exact ⟨inferInstance, inferInstance⟩
  | succ depth ih =>
    have expr : Indifferent (innerUpTo depth).exprOf := inferInstance
    have block : Indifferent (innerUpTo depth).blockOf := inferInstance
    rw [innerUpTo]
    exact ⟨expr, block⟩

instance : inner.Indifferent where
  expr := ⟨fun i d es s hd => by
    rw [inner_expr_run, inner_expr_run]
    exact (innerUpTo_indifferent _).expr.same i d es s hd⟩
  block := ⟨fun i d es s hd => by
    rw [inner_block_run, inner_block_run]
    exact (innerUpTo_indifferent _).block.same i d es s hd⟩

instance : Indifferent expr := inferInstanceAs (Indifferent inner.expr)

instance : Indifferent block := inferInstanceAs (Indifferent inner.block)

instance : Indifferent stmt := inferInstanceAs (Indifferent inner.stmt)

/-! ## Declarations and items that are given up -/

instance : Indifferent attrArgs := by
  unfold attrArgs
  infer_instance

instance : Indifferent attr := by
  unfold attr
  infer_instance

instance : Indifferent attrs := by
  unfold attrs
  infer_instance

instance : Indifferent paramList := by
  unfold paramList
  infer_instance

instance : Indifferent paramLists := by
  unfold paramLists
  infer_instance

instance : Indifferent optionalType := by
  unfold optionalType
  infer_instance

instance : Indifferent optionalBlock := by
  unfold optionalBlock
  infer_instance

instance : Indifferent signature := by
  unfold signature
  infer_instance

instance : Indifferent clause := by
  unfold clause
  infer_instance

instance : Indifferent command := by
  unfold command
  infer_instance

instance : Indifferent ctorParam := by
  unfold ctorParam
  infer_instance

instance : Indifferent ctorForm := by
  unfold ctorForm
  infer_instance

instance : Indifferent ctor := by
  unfold ctor
  infer_instance

instance : Indifferent ctorItem := by
  unfold ctorItem
  refine .bind inferInstance fun ctor => .bind inferInstance fun comma =>
    .bind inferInstance fun semicolon => ?_
  dsimp only
  infer_instance

instance : Indifferent ctors := by
  unfold ctors
  infer_instance

instance : Indifferent method := by
  unfold method
  infer_instance

instance : Indifferent methods := by
  unfold methods
  infer_instance

instance (sort : TypeSort) : Indifferent (members sort) := by
  unfold members
  infer_instance

instance (sort : TypeSort) : Indifferent (typeBody sort) := by
  unfold typeBody
  infer_instance

instance : Indifferent visibility := by
  unfold visibility
  refine .bind inferInstance fun tag => ?_
  split <;> infer_instance

instance : Indifferent typeSort := by
  unfold typeSort
  refine .bind inferInstance fun tag => ?_
  split <;> infer_instance

instance : Indifferent typeDecl := by
  unfold typeDecl
  infer_instance

instance : Indifferent declForm := by
  unfold declForm
  refine .bind inferInstance fun tag => ?_
  split <;> infer_instance

instance (start : Nat) : Indifferent (docStrings start) := by
  constructor
  intro i d es s hd
  have docs : (i.inDialect d).dialect.docs = i.dialect.docs := hd
  unfold docStrings
  rw [bind_of_ok (read_run _ _), bind_of_ok (read_run _ _), docs]
  split <;> rfl

instance (docsFrom : Nat) : Indifferent (decl docsFrom) := by
  unfold decl
  infer_instance

instance (asDecl : Bool) (span : Span) : Indifferent (errorItem asDecl span) := by
  unfold errorItem
  infer_instance

end Grammar

end Surface
