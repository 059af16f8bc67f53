import Surface.Proofs.Reader.Quiet
import Surface.Proofs.Reader.Steady

/-!
# Line-break modes are restored

A group changes the line-break mode when it is opened and puts back the mode it has found when it is
closed. In between a run can fail and leave the mode as it is, so nothing is said of runs that fail: the
mode is restored whenever a run succeeds, and where reading goes on after an error it is set anew.

Results:
* `Restores`: the readers whose successful runs end in the mode they started in; one instance for
  every reader of the grammar.
* `EndsIn`: the readers whose successful runs end in one mode.
* `Restores.group`, `Restores.brace`: what is opened and closed again.
* `Restores.giveUp`: what is given up.
-/

namespace Surface.Grammar

variable {α β : Type} {b : Bool}

/-- The line-break mode of a state. -/
abbrev State.skips (s : State) : Bool := s.cursor.skipsBreaks

/-- A reader whose successful runs end in the mode they started in. -/
class Restores (r : Reader α) : Prop where
  mode : ∀ {i s a t}, r i s = .ok a t → t.skips = s.skips

/-- A reader whose successful runs end in one mode. -/
class EndsIn (b : Bool) (r : Reader α) : Prop where
  mode : ∀ {i s a t}, r i s = .ok a t → t.skips = b

/-! ## Putting readers together -/

theorem Restores.of_after {r : Reader α} (h : ∀ i s, (after (r i s)).skips = s.skips) :
    Restores r := by
  constructor
  intro i s a t run
  have same := h i s
  rwa [run] at same

theorem Restores.of_moved {r : Reader α}
    (h : ∀ i s, ∃ c : Cursor, after (r i s) = s.moved c ∧ c.skipsBreaks = s.skips) : Restores r := by
  refine .of_after fun i s => ?_
  obtain ⟨c, moved, same⟩ := h i s
  rw [moved]
  exact same

theorem Restores.of_stays {r : Reader α} (h : ∀ i s, after (r i s) = s) : Restores r :=
  .of_after fun i s => by rw [h]

instance (a : α) : Restores (pure a : Reader α) := .of_stays fun _ _ => rfl

instance (e : SyntaxError) : Restores (throw e : Reader α) := .of_stays fun _ _ => rfl

instance bind_restores {x : Reader α} {f : α → Reader β} [Restores x] [∀ a, Restores (f a)] :
    Restores (x >>= f) := by
  constructor
  intro i s c t run
  obtain ⟨a, u, first, rest⟩ := bind_ok.1 run
  exact (Restores.mode rest).trans (Restores.mode first)

/-- Whatever has been read before, the last reader decides on the mode. -/
instance {x : Reader α} {f : α → Reader β} [∀ a, EndsIn b (f a)] : EndsIn b (x >>= f) := by
  constructor
  intro i s c t run
  obtain ⟨a, u, _, rest⟩ := bind_ok.1 run
  exact EndsIn.mode rest

instance {x : Reader α} {f : α → Reader β} [EndsIn b x] [∀ a, Restores (f a)] :
    EndsIn b (x >>= f) := by
  constructor
  intro i s c t run
  obtain ⟨a, u, first, rest⟩ := bind_ok.1 run
  exact (Restores.mode rest).trans (EndsIn.mode first)

instance {x : Reader α} {f : α → β} [Restores x] : Restores (f <$> x) := by
  constructor
  intro i s c t run
  obtain ⟨a, run, _⟩ := map_ok.1 run
  exact Restores.mode run

instance {p : Prop} [Decidable p] {x y : Reader α} [Restores x] [Restores y] :
    Restores (if p then x else y) := by
  split <;> infer_instance

instance {p : Prop} [Decidable p] {x y : Reader α} [EndsIn b x] [EndsIn b y] :
    EndsIn b (if p then x else y) := by
  split <;> infer_instance

instance {derive : Context → Context} {r : Reader α} [Restores r] : Restores (within derive r) := by
  constructor
  intro i s a t run
  obtain ⟨u, inside, rfl⟩ := within_ok.1 run
  have same : u.skips = (s.inContext (derive s.context)).skips := Restores.mode inside
  exact same

instance {form : Construct} {r : Reader α} [Restores r] : Restores (inConstruct form r) :=
  ⟨fun run => Restores.mode (inConstruct_ok.1 run)⟩

instance repeatUpTo_restores {round : β → Reader (ForInStep β)} [∀ z, Restores (round z)] (n : Nat)
    (z : β) : Restores (repeatUpTo round n z) := by
  induction n generalizing z with
  | zero => exact inferInstanceAs (Restores (pure z))
  | succ n ih =>
    have next : ∀ r : ForInStep β, Restores (match r with
        | .done z => pure z
        | .yield z => repeatUpTo round n z : Reader β) := by
      intro r
      cases r with
      | done z => exact inferInstanceAs (Restores (pure z))
      | yield z => exact ih z
    exact bind_restores

/-! ## Looking ahead, taking and building -/

instance : Restores (read : Reader Input) := .of_stays fun _ _ => rfl

instance : Restores cursor := .of_stays fun _ _ => rfl

instance : Restores context := .of_stays fun _ _ => rfl

instance : Restores nextToken := .of_stays fun _ _ => rfl

instance : Restores nextSpan := .of_stays fun _ _ => rfl

instance : Restores nextTag := .of_stays fun _ _ => rfl

instance : Restores tagBehind := .of_stays fun _ _ => rfl

instance : Restores previousSpan := .of_stays fun _ _ => rfl

instance (t : Tag) : Restores (isNext t) := .of_stays fun _ _ => rfl

instance (t : Tag) : Restores (isNotNext t) := .of_stays fun _ _ => rfl

instance (ts : TagSet) : Restores (isNextIn ts) := .of_stays fun _ _ => rfl

instance : Restores isNameNext := inferInstanceAs (Restores (isNextIn nameTags))

instance (t : Tag) : Restores (isAhead t) := .of_stays fun _ _ => rfl

instance : Restores isBinderNext := .of_stays fun _ _ => rfl

instance : Restores isSemicolonNext := .of_stays fun _ _ => rfl

instance : Restores isSegmentNext := .of_stays fun i s => by rw [isSegmentNext_run]; rfl

instance (t : Tag) : Restores (isNextPastBreak t) :=
  .of_stays fun i s => by rw [isNextPastBreak_run]; rfl

instance : Restores Inner.isInBraces := .of_stays fun i s => by rw [isInBraces_run]; rfl

instance : Restores Inner.isLambdaNext := .of_stays fun i s => by rw [isLambdaNext_run]; rfl

instance : Restores take := .of_moved fun i s => ⟨_, rfl, skipsBreaks_step i.tokens s.cursor⟩

instance : Restores skipBreaks := .of_moved fun _ _ => ⟨_, rfl, rfl⟩

instance (span : Span) (form : Mark → Expr) : Restores (newExpr span form) := .of_after fun _ _ => rfl

instance (span : Span) (form : Mark → Pattern) : Restores (newPattern span form) :=
  .of_after fun _ _ => rfl

instance (span : Span) (form : Mark → Stmt) : Restores (newStmt span form) := .of_after fun _ _ => rfl

instance (name : String) : Restores (Inner.enterName name) := .of_after fun _ _ => rfl

instance (problem : Tag → Problem) : Restores (failWith problem : Reader α) := .of_stays fun _ _ => rfl

instance (ts : TagSet) : Restores (unexpected ts : Reader α) := .of_stays fun _ _ => rfl

instance (w : Wanted) : Restores (absent w : Reader α) := .of_stays fun _ _ => rfl

instance (t : Tag) : Restores (takeIf t) := by
  unfold takeIf
  infer_instance

instance (t : Tag) : Restores (accept t) := by
  unfold accept
  infer_instance

theorem Restores.bind {x : Reader α} {f : α → Reader β} (hx : Restores x)
    (hf : ∀ a, Restores (f a)) : Restores (x >>= f) := bind_restores

instance (t : Tag) : Restores (expect t) := by
  unfold expect
  refine .bind inferInstance fun span => ?_
  cases span <;> infer_instance

/-! ## Groups -/

/-- Closing a group puts back the mode outside. -/
instance (g : Opened) : EndsIn g.skipped (closeGroup g) := by
  constructor
  intro i s span t run
  have close := closeGroup_of_tag (tag_of_closeGroup run)
  rw [run] at close
  cases close
  rw [State.skips, State.moved_cursor, skipsBreaks_step]
  rfl

/-- What is read between an opening parenthesis or bracket and its closer. -/
instance Restores.group {f : Opened → Reader α} [h : ∀ g, EndsIn g.skipped (f g)] :
    Restores (openGroup >>= f) := by
  constructor
  intro i s a t run
  rw [bind_of_ok (openGroup_run i s)] at run
  exact (h _).mode run

/-- What is read between braces. -/
instance Restores.brace {f : Opened → Reader α} [h : ∀ g, EndsIn g.skipped (f g)] :
    Restores (openBrace >>= f) := by
  constructor
  intro i s a t run
  rw [bind_of_ok (openBrace_run i s)] at run
  exact (h _).mode run

/-! ## Recovery -/

/-- Something is read in its place or given up, and then the mode is set to what it was before. -/
theorem Restores.giveUp {r : Reader α} {replace : Span → Reader α} [Restores r]
    [∀ span, Restores (replace span)] {start : Span} {boundary : TagSet} {i : Input} {s t : State}
    {a : α} (hs : s.skips = b) (run : orElse r (fun error => do
      replace (← recover error start b boundary)) i s = .ok a t) : t.skips = b := by
  rw [orElse_run] at run
  cases read : r i s with
  | ok c u =>
    rw [read] at run
    cases run
    exact (Restores.mode read).trans hs
  | error e u =>
    rw [read] at run
    dsimp only at run
    rw [bind_of_ok (recover_run ..)] at run
    refine (Restores.mode run).trans ?_
    exact skipsBreaks_resumeAt i.tokens boundary 0 (skipping b u.cursor)

/-! ## Sequences -/

instance {z : β} {round : β → Reader (ForInStep β)} [∀ z, Restores (round z)] :
    Restores (repeated z round) := by
  unfold repeated
  infer_instance

instance {more : Reader Bool} {item : Reader (α × Bool)} [Restores more] [Restores item] :
    Restores (collect more item) := by
  have round : ∀ items : Array α, Restores (collectRound more item items) := by
    intro items
    unfold collectRound
    infer_instance
  rw [collect_eq]
  infer_instance

instance {more : Reader Bool} {item : Reader α} [Restores more] [Restores item] :
    Restores (collectWhile more item) := by
  unfold collectWhile
  infer_instance

instance {close : Tag} {item : Reader α} [Restores item] : Restores (commaList close item) := by
  unfold commaList
  infer_instance

instance {close : Tag} {item : Reader α} [Restores item] : Restores (nestedList close item) := by
  unfold nestedList
  infer_instance

/-! ## Names and patterns -/

instance : Restores ident := by
  unfold ident
  refine .bind inferInstance fun token => ?_
  split <;> infer_instance

instance : Restores path := by
  unfold path
  infer_instance

instance {inner : Reader Pattern} [Restores inner] : Restores (atomicPatternOf inner) := by
  unfold atomicPatternOf
  refine .bind inferInstance fun token => ?_
  split
  · infer_instance
  · split <;> infer_instance

instance {inner : Reader Pattern} [Restores inner] : Restores (patternOf inner) := by
  unfold patternOf
  infer_instance

instance patternUpTo_restores (depth : Nat) : Restores (patternUpTo depth) := by
  induction depth with
  | zero => exact inferInstanceAs (Restores (absent _))
  | succ depth ih => exact inferInstanceAs (Restores (patternOf (patternUpTo depth)))

instance : Restores pattern := ⟨fun run => (patternUpTo_restores _).mode run⟩

instance : Restores atomicPattern := inferInstanceAs (Restores (atomicPatternOf pattern))

/-! ## Expressions, statements and blocks -/

/-- Readers of expressions and blocks that restore the mode. -/
class Inner.Restores (inner : Inner) : Prop where
  expr : Grammar.Restores inner.expr
  block : Grammar.Restores inner.block

section

variable {inner : Inner} [inner.Restores]

instance : Restores inner.expr := Inner.Restores.expr

instance : Restores inner.block := Inner.Restores.block

instance : Restores inner.type := by
  unfold Inner.type
  infer_instance

instance : Restores inner.param := by
  unfold Inner.param
  infer_instance

instance (nonEmpty : Bool) : Restores (inner.paramGroup nonEmpty) := by
  unfold Inner.paramGroup
  infer_instance

instance : Restores inner.thenBody := by
  unfold Inner.thenBody
  infer_instance

instance : Restores inner.blockOrExpr := by
  unfold Inner.blockOrExpr
  infer_instance

instance : Restores inner.elseBody := by
  unfold Inner.elseBody
  infer_instance

instance : Restores inner.head := by
  unfold Inner.head
  infer_instance

instance : Restores inner.tuple := by
  unfold Inner.tuple
  infer_instance

instance : Restores inner.array := by
  unfold Inner.array
  infer_instance

instance : Restores inner.conditional := by
  unfold Inner.conditional
  refine .bind inferInstance fun start => .bind inferInstance fun condition =>
    .bind inferInstance fun thenBody => .bind inferInstance fun elseBody => ?_
  cases elseBody <;> infer_instance

instance : Restores inner.arm := by
  unfold Inner.arm
  refine .bind inferInstance fun pattern => .bind inferInstance fun _ =>
    .bind inferInstance fun _ => .bind inferInstance fun body => ?_
  refine .bind inferInstance fun _ => .bind inferInstance fun comma =>
    .bind inferInstance fun _ => .bind inferInstance fun _ => .bind inferInstance fun _ => ?_
  infer_instance

instance : Restores inner.matchOn := by
  unfold Inner.matchOn
  infer_instance

instance : Restores inner.returned := by
  unfold Inner.returned
  infer_instance

instance : Restores inner.lambdaParams := by
  unfold Inner.lambdaParams
  infer_instance

instance : Restores inner.lambda := by
  unfold Inner.lambda
  infer_instance

instance : Restores Inner.reference := by
  unfold Inner.reference
  infer_instance

instance : Restores inner.primary := by
  unfold Inner.primary
  refine .bind inferInstance fun token => ?_
  split
  · infer_instance
  · split <;> infer_instance

instance : Restores inner.trailingBlock := by
  unfold Inner.trailingBlock
  infer_instance

instance : Restores inner.application := by
  unfold Inner.application
  infer_instance

instance : Restores Inner.operator? := by
  unfold Inner.operator?
  refine .bind inferInstance fun token => ?_
  split <;> infer_instance

instance (lhs : Expr) : Restores (operatorRound inner lhs) := by
  unfold operatorRound
  refine .bind inferInstance fun op => ?_
  cases op <;> infer_instance

instance : Restores inner.binary :=
  .bind inferInstance fun lhs => inferInstanceAs (Restores (repeated lhs (operatorRound inner)))

instance : Restores inner.codomain := by
  unfold Inner.codomain
  infer_instance

instance (isSigma : Bool) : Restores (inner.binder isSigma) := by
  unfold Inner.binder
  infer_instance

instance : Restores inner.arrowOrAscription := by
  unfold Inner.arrowOrAscription
  infer_instance

instance : Restores inner.exprOf := by
  unfold Inner.exprOf
  infer_instance

instance : Restores inner.letIn := by
  unfold Inner.letIn
  infer_instance

instance : Restores inner.conditionalStmt := by
  unfold Inner.conditionalStmt
  infer_instance

instance : Restores inner.ask := by
  unfold Inner.ask
  infer_instance

instance : Restores inner.stmtForm := by
  unfold Inner.stmtForm
  refine .bind inferInstance fun tag => ?_
  split <;> infer_instance

instance : Restores inner.stmt := by
  unfold Inner.stmt
  infer_instance

instance : Restores inner.wholeStmt := by
  unfold Inner.wholeStmt
  infer_instance

instance : Restores inner.blockOf := by
  unfold Inner.blockOf
  infer_instance

end

instance innerUpTo_restores (depth : Nat) : (innerUpTo depth).Restores := by
  induction depth with
  | zero =>
    rw [innerUpTo]
    exact ⟨inferInstance, inferInstance⟩
  | succ depth ih =>
    have expr : Restores (innerUpTo depth).exprOf := inferInstance
    have block : Restores (innerUpTo depth).blockOf := inferInstance
    rw [innerUpTo]
    exact ⟨expr, block⟩

instance : inner.Restores where
  expr := ⟨fun {i s _ _} run => (innerUpTo_restores _).expr.mode (inner_expr_run i s ▸ run)⟩
  block := ⟨fun {i s _ _} run => (innerUpTo_restores _).block.mode (inner_block_run i s ▸ run)⟩

instance : Restores expr := inferInstanceAs (Restores inner.expr)

instance : Restores block := inferInstanceAs (Restores inner.block)

instance : Restores stmt := inferInstanceAs (Restores inner.stmt)

/-! ## Declarations and files -/

instance : Restores attrArgs := by
  unfold attrArgs
  infer_instance

instance : Restores attr := by
  unfold attr
  infer_instance

instance : Restores attrs := by
  unfold attrs
  infer_instance

instance : Restores paramList := by
  unfold paramList
  infer_instance

instance : Restores paramLists := by
  unfold paramLists
  infer_instance

instance : Restores optionalType := by
  unfold optionalType
  infer_instance

instance : Restores optionalBlock := by
  unfold optionalBlock
  infer_instance

instance : Restores signature := by
  unfold signature
  infer_instance

instance : Restores clause := by
  unfold clause
  infer_instance

instance : Restores command := by
  unfold command
  infer_instance

instance : Restores ctorParam := by
  unfold ctorParam
  infer_instance

instance : Restores ctorForm := by
  unfold ctorForm
  infer_instance

instance : Restores ctor := by
  unfold ctor
  infer_instance

instance : Restores ctorItem := by
  unfold ctorItem
  refine .bind inferInstance fun ctor => .bind inferInstance fun comma =>
    .bind inferInstance fun semicolon => ?_
  dsimp only
  infer_instance

instance : Restores ctors := by
  unfold ctors
  infer_instance

instance : Restores method := by
  unfold method
  infer_instance

instance : Restores methods := by
  unfold methods
  infer_instance

instance (sort : TypeSort) : Restores (members sort) := by
  unfold members
  infer_instance

instance (sort : TypeSort) : Restores (typeBody sort) := by
  unfold typeBody
  infer_instance

instance : Restores visibility := by
  unfold visibility
  refine .bind inferInstance fun tag => ?_
  split <;> infer_instance

instance : Restores typeSort := by
  unfold typeSort
  refine .bind inferInstance fun tag => ?_
  split <;> infer_instance

instance : Restores typeDecl := by
  unfold typeDecl
  infer_instance

instance : Restores declForm := by
  unfold declForm
  refine .bind inferInstance fun tag => ?_
  split <;> infer_instance

instance (start : Nat) : Restores (docStrings start) := by
  unfold docStrings
  infer_instance

instance (docsFrom : Nat) : Restores (decl docsFrom) := by
  unfold decl
  infer_instance

instance : Restores isDeclNext := by
  unfold isDeclNext
  infer_instance

instance (asDecl : Bool) (docsFrom : Nat) : Restores (wholeItem asDecl docsFrom) := by
  unfold wholeItem
  infer_instance

instance (asDecl : Bool) (span : Span) : Restores (errorItem asDecl span) := by
  unfold errorItem
  infer_instance

instance (docsFrom : Nat) : Restores (item docsFrom) := by
  constructor
  intro i s a t run
  unfold item at run
  rw [bind_of_ok (nextSpan_run i s), bind_of_ok (cursor_run i s)] at run
  obtain ⟨asDecl, u, look, run⟩ := bind_ok.1 run
  exact Restores.giveUp (Restores.mode look) run

instance (docsFrom : Nat) : Restores (items docsFrom) := by
  unfold items
  infer_instance

instance (line : Option Shebang) : Restores (shebang line) := by
  cases line with
  | none => exact inferInstanceAs (Restores (pure none))
  | some l =>
    have report : Restores (modify fun s => s.reported ⟨.shebang, l.span, none⟩ : Reader Unit) :=
      .of_after fun _ _ => rfl
    refine .bind inferInstance fun input => ?_
    split
    · infer_instance
    · exact .bind report fun _ => inferInstance

instance (line : Option Shebang) : Restores (file line) := by
  unfold file
  infer_instance

end Surface.Grammar
