import Surface.Proofs.Reader.Levels

/-!
# What every reader keeps

A relation between the states before and behind a run that the readers of single tokens keep, and
every way of putting readers together, is kept by all readers of the grammar, whether they succeed
or fail. The expressions that are built on the way are on the levels their forms ask for, and their
words are those of the stream, so that the relation may rest on that.

Results:
* `Invariant`: a relation that the primitive readers keep.
* `Keeps`: the readers whose runs keep it; one instance for every reader of the grammar.
* `Keeps.andThen`, `Keeps.bind_at`: what comes second may rest on what the first has returned.
-/

namespace Surface

namespace Grammar

variable {α β : Type}

/-! ## Invariants -/

/-- The state with one more error. -/
def State.reported (s : State) (e : SyntaxError) : State := { s with errors := s.errors.push e }

/-- The state with one more expression. -/
def State.withExpr (s : State) (e : Expr) : State :=
  { s with nodes := { s.nodes with exprs := s.nodes.exprs.push e } }

/-- The state with one more pattern. -/
def State.withPattern (s : State) (p : Pattern) : State :=
  { s with nodes := { s.nodes with patterns := s.nodes.patterns.push p } }

/-- The state with one more statement. -/
def State.withStmt (s : State) (t : Stmt) : State :=
  { s with nodes := { s.nodes with stmts := s.nodes.stmts.push t } }

/-- The state with a name recorded. -/
def State.named (s : State) (name : String) : State := { s with names := s.names.record name }

/-- A relation between states that is kept by whatever a primitive reader does. -/
structure Invariant where
  rel : Input → State → State → Prop
  /-- The expressions that may be built from the words of a stream. -/
  admits : Tokens → Expr → Prop
  admits_of : ∀ ts e, e.Stratified → e.Worded ts → admits ts e
  /-- The patterns that may be built. -/
  admitsPattern : Tokens → Pattern → Prop
  admitsPattern_of : ∀ ts p, p.Worded ts → admitsPattern ts p
  refl : ∀ i s, rel i s s
  trans : ∀ {i s t u}, rel i s t → rel i t u → rel i s u
  step : ∀ i s, rel i s (s.moved (s.cursor.step i.tokens))
  skipBreaks : ∀ i s, rel i s (s.moved (s.cursor.skipBreaks i.tokens))
  skipping : ∀ i s b, rel i s (s.moved (skipping b s.cursor))
  resume : ∀ i s boundary, rel i s (s.moved (s.cursor.resume i.tokens boundary))
  within : ∀ {i s t c}, rel i (s.inContext c) t → rel i s (t.inContext s.context)
  expr : ∀ i s e, admits i.tokens e → rel i s (s.withExpr e)
  pattern : ∀ i s p, admitsPattern i.tokens p → rel i s (s.withPattern p)
  stmt : ∀ i s t, rel i s (s.withStmt t)
  error : ∀ i s e, rel i s (s.reported e)
  /-- The only name that is recorded is that of the bar. -/
  name : ∀ i s, rel i s (s.named Reserved.pipe.text)

/-- The state a run ends in. -/
def after {ε σ : Type} : EStateM.Result ε σ α → σ
  | .ok _ s => s
  | .error _ s => s

/-- A reader whose runs keep an invariant. -/
class Keeps (R : Invariant) (r : Reader α) : Prop where
  keeps : ∀ i s, R.rel i s (after (r i s))

/-- A form of expression that may be built, whatever the stream. -/
class Builds (R : Invariant) (form : Mark → Expr) : Prop where
  admits : ∀ ts m, R.admits ts (form m)

variable {R : Invariant}

theorem Keeps.ok {r : Reader α} [Keeps R r] {i : Input} {s s' : State} {a : α}
    (h : r i s = .ok a s') : R.rel i s s' := by
  have := Keeps.keeps (R := R) (r := r) i s
  rwa [h] at this

theorem Keeps.error {r : Reader α} [Keeps R r] {i : Input} {s s' : State} {e : SyntaxError}
    (h : r i s = .error e s') : R.rel i s s' := by
  have := Keeps.keeps (R := R) (r := r) i s
  rwa [h] at this

theorem Builds.of_stratified {form : Mark → Expr} (h : ∀ m, (form m).Stratified)
    (words : ∀ ts m, (form m).Worded ts) : Builds R form :=
  ⟨fun ts m => R.admits_of ts _ (h m) (words ts m)⟩

/-- An expression is built from words of the stream. -/
theorem Keeps.newExpr_at {span : Span} {form : Mark → Expr} {i : Input} {s : State}
    (h : ∀ m, (form m).Stratified) (words : ∀ m, (form m).Worded i.tokens) :
    R.rel i s (after (newExpr span form i s)) :=
  R.expr i s _ (R.admits_of _ _ (h _) (words _))

/-- A pattern is built from words of the stream. -/
theorem Keeps.newPattern_at {span : Span} {form : Mark → Pattern} {i : Input} {s : State}
    (words : ∀ m, (form m).Worded i.tokens) : R.rel i s (after (newPattern span form i s)) :=
  R.pattern i s _ (R.admitsPattern_of _ _ (words _))

/-! ## Putting readers together -/

/-- What comes second keeps the invariant after whatever the first can end in. -/
theorem Keeps.bind_at {x : Reader α} {f : α → Reader β} {i : Input} {s : State} [Keeps R x]
    (h : ∀ a t, x i s = .ok a t → R.rel i t (after (f a i t))) :
    R.rel i s (after ((x >>= f) i s)) := by
  rw [bind_run]
  cases run : x i s with
  | ok a t => exact R.trans (Keeps.ok run) (h a t run)
  | error e t => exact Keeps.error run

theorem Keeps.andThen {x : Reader α} {f : α → Reader β} {P : α → Prop} (hx : Keeps R x)
    (hP : Returns x P) (hf : ∀ a, P a → Keeps R (f a)) : Keeps R (x >>= f) :=
  ⟨fun i s => Keeps.bind_at fun a t run => (hf a (hP i s a t run)).keeps i t⟩

instance (a : α) : Keeps R (pure a : Reader α) := ⟨fun i s => R.refl i s⟩

instance (e : SyntaxError) : Keeps R (throw e : Reader α) := ⟨fun i s => R.refl i s⟩

instance : Keeps R (read : Reader Input) := ⟨fun i s => R.refl i s⟩

instance bind_keeps {x : Reader α} {f : α → Reader β} [Keeps R x] [∀ a, Keeps R (f a)] :
    Keeps R (x >>= f) :=
  ⟨fun _ _ => Keeps.bind_at fun _ t _ => Keeps.keeps _ t⟩

instance {x : Reader α} {f : α → β} [Keeps R x] : Keeps R (f <$> x) := by
  constructor
  intro i s
  rw [map_run]
  cases h : x i s with
  | ok a t => exact Keeps.ok h
  | error e t => exact Keeps.error h

instance {p : Prop} [Decidable p] {x y : Reader α} [Keeps R x] [Keeps R y] :
    Keeps R (if p then x else y) := by
  split <;> infer_instance

instance {derive : Context → Context} {r : Reader α} [Keeps R r] : Keeps R (within derive r) := by
  constructor
  intro i s
  have inner := Keeps.keeps (R := R) (r := r) i (s.inContext (derive s.context))
  rw [within_run]
  cases h : r i (s.inContext (derive s.context)) <;> rw [h] at inner <;> exact R.within inner

instance {form : Construct} {r : Reader α} [Keeps R r] : Keeps R (inConstruct form r) := by
  constructor
  intro i s
  have inner := Keeps.keeps (R := R) (r := r) i s
  rw [inConstruct_run]
  cases h : r i s <;> rw [h] at inner <;> exact inner

instance {r : Reader α} {replace : SyntaxError → Reader α} [Keeps R r]
    [∀ e, Keeps R (replace e)] : Keeps R (orElse r replace) := by
  constructor
  intro i s
  have inner := Keeps.keeps (R := R) (r := r) i s
  rw [orElse_run]
  cases h : r i s with
  | ok a t => rw [h] at inner; exact inner
  | error e t =>
    rw [h] at inner
    exact R.trans inner (Keeps.keeps i t)

instance repeatUpTo_keeps {round : β → Reader (ForInStep β)} [∀ b, Keeps R (round b)] (n : Nat)
    (b : β) : Keeps R (repeatUpTo round n b) := by
  induction n generalizing b with
  | zero => exact inferInstanceAs (Keeps R (pure b))
  | succ n ih =>
    have next : ∀ r : ForInStep β, Keeps R (match r with
        | .done b => pure b
        | .yield b => repeatUpTo round n b : Reader β) := by
      intro r
      cases r with
      | done b => exact inferInstanceAs (Keeps R (pure b))
      | yield b => exact ih b
    exact bind_keeps

/-- Rounds that start with something of a property, which they keep. -/
theorem Keeps.repeatUpTo_of {round : β → Reader (ForInStep β)} {Q : β → Prop}
    (h : ∀ b, Q b → Keeps R (round b)) (hQ : ∀ b, Q b → Returns (round b) fun r => Q r.value)
    (n : Nat) {b : β} (hb : Q b) : Keeps R (repeatUpTo round n b) := by
  induction n generalizing b with
  | zero => exact ⟨fun i s => R.refl i s⟩
  | succ n ih =>
    refine .andThen (h b hb) (hQ b hb) fun r hr => ?_
    cases r with
    | done b => exact ⟨fun i s => R.refl i s⟩
    | yield b => exact ih hr

theorem Keeps.repeated_of {round : β → Reader (ForInStep β)} {Q : β → Prop}
    (h : ∀ b, Q b → Keeps R (round b)) (hQ : ∀ b, Q b → Returns (round b) fun r => Q r.value)
    {b : β} (hb : Q b) : Keeps R (repeated b round) :=
  ⟨fun i s => (repeatUpTo_of h hQ (i.tokens.size - s.cursor.position + 1) hb).keeps i s⟩

/-! ## Looking ahead, taking and building -/

instance : Keeps R cursor := ⟨fun i s => R.refl i s⟩

instance : Keeps R context := ⟨fun i s => R.refl i s⟩

instance : Keeps R nextToken := ⟨fun i s => R.refl i s⟩

instance : Keeps R nextSpan := ⟨fun i s => R.refl i s⟩

instance : Keeps R nextTag := ⟨fun i s => R.refl i s⟩

instance : Keeps R tagBehind := ⟨fun i s => R.refl i s⟩

instance : Keeps R previousSpan := ⟨fun i s => R.refl i s⟩

instance (t : Tag) : Keeps R (isNext t) := ⟨fun i s => R.refl i s⟩

instance (t : Tag) : Keeps R (isNotNext t) := ⟨fun i s => R.refl i s⟩

instance (ts : TagSet) : Keeps R (isNextIn ts) := ⟨fun i s => R.refl i s⟩

instance : Keeps R isNameNext := inferInstanceAs (Keeps R (isNextIn nameTags))

instance (t : Tag) : Keeps R (isAhead t) := ⟨fun i s => R.refl i s⟩

instance : Keeps R isBinderNext := ⟨fun i s => R.refl i s⟩

instance : Keeps R isSemicolonNext := ⟨fun i s => R.refl i s⟩

instance : Keeps R isSegmentNext := ⟨fun i s => by rw [isSegmentNext_run]; exact R.refl i s⟩

instance (t : Tag) : Keeps R (isNextPastBreak t) :=
  ⟨fun i s => by rw [isNextPastBreak_run]; exact R.refl i s⟩

instance : Keeps R Inner.isInBraces := ⟨fun i s => by rw [isInBraces_run]; exact R.refl i s⟩

instance : Keeps R Inner.isLambdaNext := ⟨fun i s => by rw [isLambdaNext_run]; exact R.refl i s⟩

instance : Keeps R take := ⟨R.step⟩

instance : Keeps R skipBreaks := ⟨R.skipBreaks⟩

instance (b : Bool) : Keeps R (setSkipsBreaks b) := ⟨fun i s => R.skipping i s b⟩

instance (span : Span) (form : Mark → Expr) [h : Builds R form] : Keeps R (newExpr span form) :=
  ⟨fun i s => R.expr i s _ (h.admits _ _)⟩

instance (span : Span) (form : Mark → Stmt) : Keeps R (newStmt span form) :=
  ⟨fun i s => R.stmt i s _⟩

instance : Keeps R (Inner.enterName Reserved.pipe.text) := ⟨R.name⟩

/-- The state after recovery. -/
def State.recovered (s : State) (error : SyntaxError) (c : Cursor) : State :=
  { s with errors := s.errors.push error, cursor := c }

/-- The span of what was given up. -/
def skippedFrom (start stop : Span) : Span :=
  if start.start < stop.stop then ⟨start.start, stop.stop⟩ else .point start.start

theorem recover_run (error : SyntaxError) (start : Span) (skips : Bool) (boundary : TagSet)
    (i : Input) (s : State) :
    recover error start skips boundary i s =
      let c := (skipping skips s.cursor).resume i.tokens boundary
      .ok (skippedFrom start c.previous) (s.recovered error c) := rfl

instance (error : SyntaxError) (start : Span) (skips : Bool) (boundary : TagSet) :
    Keeps R (recover error start skips boundary) := by
  constructor
  intro i s
  rw [recover_run]
  have skipped := R.skipping i (s.reported error) skips
  exact R.trans (R.error i s error) (R.trans skipped (R.resume i _ boundary))

instance (problem : Tag → Problem) : Keeps R (failWith problem : Reader α) :=
  inferInstanceAs (Keeps R (nextToken >>= fun t => throw (SyntaxError.atToken t problem)))

instance (ts : TagSet) : Keeps R (unexpected ts : Reader α) :=
  inferInstanceAs (Keeps R (failWith _))

instance (w : Wanted) : Keeps R (absent w : Reader α) := inferInstanceAs (Keeps R (failWith _))

instance (t : Tag) : Keeps R (takeIf t) := by
  unfold takeIf
  infer_instance

instance (t : Tag) : Keeps R (accept t) := by
  unfold accept
  infer_instance

instance (t : Tag) : Keeps R (expect t) := by
  have next : ∀ span : Option Span, Keeps R (match span with
      | some span => pure span
      | none => unexpected {t} : Reader Span) := by
    intro span
    cases span <;> infer_instance
  exact bind_keeps

instance : Keeps R openGroup := by
  unfold openGroup
  infer_instance

instance : Keeps R openBrace := by
  unfold openBrace
  infer_instance

instance (g : Opened) : Keeps R (closeGroup g) := by
  have next : ∀ span : Option Span, Keeps R (match span with
      | some stop => pure (g.openedAt.merge stop)
      | none => failWith fun found => .unclosed g.close found g.openedAt : Reader Span) := by
    intro span
    cases span <;> infer_instance
  have rest : Keeps R (do
      setSkipsBreaks g.skipped
      match ← takeIf (.punct g.close) with
      | some stop => return g.openedAt.merge stop
      | none => failWith fun found => .unclosed g.close found g.openedAt : Reader Span) :=
    bind_keeps
  unfold closeGroup
  infer_instance

/-! ## Sequences -/

instance {b : β} {round : β → Reader (ForInStep β)} [∀ b, Keeps R (round b)] :
    Keeps R (repeated b round) := by
  unfold repeated
  infer_instance

instance {more : Reader Bool} {item : Reader (α × Bool)} [Keeps R more] [Keeps R item]
    (items : Array α) : Keeps R (collectRound more item items) := by
  unfold collectRound
  infer_instance

instance {more : Reader Bool} {item : Reader (α × Bool)} [Keeps R more] [Keeps R item] :
    Keeps R (collect more item) := by
  rw [collect_eq]
  infer_instance

instance {more : Reader Bool} {item : Reader α} [Keeps R more] [Keeps R item] :
    Keeps R (collectWhile more item) := by
  unfold collectWhile
  infer_instance

instance {close : Tag} {item : Reader α} [Keeps R item] : Keeps R (commaRow close item) := by
  unfold commaRow
  infer_instance

instance {close : Tag} {item : Reader α} [Keeps R item] : Keeps R (commaList close item) := by
  rw [commaList_eq]
  infer_instance

instance {close : Tag} {item : Reader α} [Keeps R item] : Keeps R (nestedList close item) := by
  unfold nestedList
  infer_instance

/-! ## Names and patterns -/

theorem Keeps.bind {x : Reader α} {f : α → Reader β} (hx : Keeps R x) (hf : ∀ a, Keeps R (f a)) :
    Keeps R (x >>= f) := bind_keeps

instance : Keeps R ident := by
  unfold ident
  refine .bind inferInstance fun token => ?_
  split <;> infer_instance

instance : Keeps R path := by
  unfold path
  infer_instance

instance {inner : Reader Pattern} [Keeps R inner] : Keeps R (atomicPatternOf inner) := by
  have constant : Keeps R (do
      let path ← path
      newPattern path.span fun m => .cons m path []) :=
    ⟨fun _ _ => Keeps.bind_at fun _ _ run => Keeps.newPattern_at fun _ => path_ok run⟩
  have rest (span : Span) : Keeps R (newPattern span fun m => .rest m) :=
    ⟨fun _ _ => Keeps.newPattern_at fun _ => trivial⟩
  constructor
  intro i s
  unfold atomicPatternOf
  rw [bind_of_ok (nextToken_run i s)]
  cases literal : (i.tokens.get s.cursor.position).kind.literal? with
  | some v => exact Keeps.bind_at fun _ _ _ => Keeps.newPattern_at fun _ => ⟨_, literal⟩
  | none =>
    dsimp only
    refine @Keeps.keeps _ R _ ?_ i s
    split <;> infer_instance

instance {inner : Reader Pattern} [Keeps R inner] : Keeps R (patternOf inner) := by
  have applied : Keeps R (do
      let path ← path
      let args ← collectWhile (isNextIn patternTags) (atomicPatternOf inner)
      newPattern (path.span.merge (← previousSpan)) fun m => .cons m path args) := by
    constructor
    intro i s
    exact Keeps.bind_at fun p _ run => Keeps.bind_at fun _ _ _ => Keeps.bind_at fun _ _ _ =>
      Keeps.newPattern_at fun _ => path_ok run
  unfold patternOf
  infer_instance

instance patternUpTo_keeps (depth : Nat) : Keeps R (patternUpTo depth) := by
  induction depth with
  | zero => exact inferInstanceAs (Keeps R (absent _))
  | succ depth ih => exact inferInstanceAs (Keeps R (patternOf (patternUpTo depth)))

instance : Keeps R pattern := ⟨fun i s => Keeps.keeps (r := patternUpTo (i.tokens.size + 1)) i s⟩

instance : Keeps R atomicPattern := inferInstanceAs (Keeps R (atomicPatternOf pattern))

/-! ## Expressions, statements and blocks -/

instance (es : List Expr) (trailing : Bool) : Builds R fun m => .tuple m es trailing :=
  .of_stratified (fun _ => trivial) fun _ _ => trivial

instance (es : List Expr) : Builds R fun m => .array m es :=
  .of_stratified (fun _ => trivial) fun _ _ => trivial

instance (h : Expr) (t e : Body) : Builds R fun m => .conditional m h t e :=
  .of_stratified (fun _ => trivial) fun _ _ => trivial

instance (h : Expr) (arms : List Arm) : Builds R fun m => .matchOn m h arms :=
  .of_stratified (fun _ => trivial) fun _ _ => trivial

instance (v : Option Expr) : Builds R fun m => .returned m v :=
  .of_stratified (fun _ => trivial) fun _ _ => trivial

instance (ps : List Param) (e : Expr) : Builds R fun m => .lambda m ps e :=
  .of_stratified (fun _ => trivial) fun _ _ => trivial

/-- Readers of expressions and blocks that keep an invariant. -/
class Inner.Keeps (inner : Inner) (R : Invariant) : Prop where
  expr : Grammar.Keeps R inner.expr
  block : Grammar.Keeps R inner.block

section

variable {inner : Inner} [inner.Keeps R]

instance : Keeps R inner.expr := Inner.Keeps.expr

instance : Keeps R inner.block := Inner.Keeps.block

instance : Keeps R inner.type := by
  unfold Inner.type
  infer_instance

instance : Keeps R inner.param := by
  unfold Inner.param
  infer_instance

instance (nonEmpty : Bool) : Keeps R (inner.paramGroup nonEmpty) := by
  unfold Inner.paramGroup
  infer_instance

instance : Keeps R inner.thenBody := by
  unfold Inner.thenBody
  infer_instance

instance : Keeps R inner.blockOrExpr := by
  unfold Inner.blockOrExpr
  infer_instance

instance : Keeps R inner.elseBody := by
  unfold Inner.elseBody
  infer_instance

instance : Keeps R inner.head := by
  unfold Inner.head
  infer_instance

instance : Keeps R inner.tuple := by
  unfold Inner.tuple
  infer_instance

instance : Keeps R inner.array := by
  unfold Inner.array
  infer_instance

instance : Keeps R inner.conditional := by
  unfold Inner.conditional
  refine .bind inferInstance fun start => .bind inferInstance fun condition =>
    .bind inferInstance fun thenBody => .bind inferInstance fun elseBody => ?_
  cases elseBody <;> infer_instance

instance : Keeps R inner.arm := by
  unfold Inner.arm
  refine .bind inferInstance fun pattern => .bind inferInstance fun _ =>
    .bind inferInstance fun _ => .bind inferInstance fun body => ?_
  refine .bind inferInstance fun _ => .bind inferInstance fun comma =>
    .bind inferInstance fun _ => .bind inferInstance fun _ => .bind inferInstance fun _ => ?_
  infer_instance

instance : Keeps R inner.matchOn := by
  have arms : Keeps R (within (fun _ => .none) (collectWhile Inner.isInBraces inner.arm)) :=
    inferInstance
  unfold Inner.matchOn
  refine .bind inferInstance fun start => .bind inferInstance fun scrutinee =>
    .bind inferInstance fun _ => ?_
  infer_instance

instance : Keeps R inner.returned := by
  unfold Inner.returned
  infer_instance

instance : Keeps R inner.lambdaParams := by
  unfold Inner.lambdaParams
  infer_instance

instance : Keeps R inner.lambda := by
  unfold Inner.lambda
  infer_instance

instance : Keeps R Inner.reference := by
  constructor
  intro i s
  unfold Inner.reference
  refine Keeps.bind_at fun p t run => Keeps.newExpr_at (fun m => ?_) fun m => ?_
  · cases ht : p.tail with
    | nil => exact trivial
    | cons x xs =>
      show 2 ≤ (p.head :: p.tail).length
      rw [ht]
      simp
  · cases p.tail.isEmpty with
    | true => exact path_ok run p.head List.mem_cons_self
    | false => exact path_ok run

instance : Keeps R inner.primary := by
  constructor
  intro i s
  unfold Inner.primary
  rw [bind_of_ok (nextToken_run i s)]
  cases literal : (i.tokens.get s.cursor.position).kind.literal? with
  | some v =>
    exact Keeps.bind_at fun _ _ _ => Keeps.newExpr_at (fun _ => trivial) fun _ => ⟨_, literal⟩
  | none =>
    dsimp only
    refine @Keeps.keeps _ R _ ?_ i s
    split <;> infer_instance

instance : Keeps R inner.trailingBlock := by
  unfold Inner.trailingBlock
  infer_instance

instance : Keeps R inner.application := by
  refine Keeps.andThen inferInstance primary_returns fun f hf =>
    Keeps.andThen inferInstance arguments_return fun as has => ?_
  by_cases empty : as.isEmpty = true
  · rw [if_pos empty]
    infer_instance
  · rw [if_neg empty]
    have some : as ≠ [] := fun h => empty (by rw [h]; rfl)
    have types : Builds R fun m => .typeApp m f as :=
      .of_stratified (fun _ => ⟨hf, some, has⟩) fun _ _ => trivial
    have plain (t : Option Block) : Builds R fun m => .app m f as t :=
      .of_stratified (fun _ => ⟨hf, some, has⟩) fun _ _ => trivial
    infer_instance

instance : Keeps R Inner.operator? := by
  unfold Inner.operator?
  refine .bind inferInstance fun token => ?_
  split <;> infer_instance

theorem operatorRound_keeps {lhs : Expr} (h : lhs.isChain = true) :
    Keeps R (operatorRound inner lhs) := by
  constructor
  intro i s
  refine Keeps.bind_at fun op t run => ?_
  cases op with
  | none => exact Keeps.keeps i t
  | some op =>
    refine Keeps.bind_at fun _ _ _ => Keeps.bind_at fun _ _ _ => Keeps.bind_at fun rhs u read => ?_
    have operand : rhs.isOperand = true := application_returns _ _ _ _ read
    show R.rel i u (after (newExpr (lhs.span.merge rhs.span) (fun m => .binary m lhs op rhs) i u))
    exact Keeps.newExpr_at (fun _ => ⟨h, operand⟩) fun _ => operator?_ok run

instance : Keeps R inner.binary :=
  .andThen inferInstance application_returns fun _ h =>
    Keeps.repeated_of (fun _ => operatorRound_keeps) (fun _ => operatorRound_returns)
      (Expr.isChain_of_isOperand h)

instance : Keeps R inner.codomain := by
  unfold Inner.codomain
  infer_instance

/-- Parameters that are not missing, an arrow and what it leads to. -/
theorem binder_keeps {isSigma : Bool} {i : Input} {s : State}
    (hs : arrowFollowsGroup i.tokens i.groups s.cursor.skipsBreaks s.cursor.position = true) :
    R.rel i s (after (inner.binder isSigma i s)) := by
  refine Keeps.bind_at fun (params, span) t run => ?_
  have some : params ≠ [] := params_ne_nil hs run
  have built (e : Expr) : Builds R fun m =>
      if isSigma then .sigma m params e else .pi m params e :=
    .of_stratified (fun m => by cases isSigma <;> exact some) fun _ _ => by
      cases isSigma <;> exact trivial
  have rest : Keeps R (do
      let _ ← expect (.reserved .arrow)
      let codomain ← inner.codomain
      newExpr (span.merge codomain.span) fun m =>
        if isSigma then .sigma m params codomain else .pi m params codomain) := inferInstance
  exact rest.keeps i t

instance : Keeps R inner.arrowOrAscription := by
  refine .andThen inferInstance binary_returns fun lhs h => ?_
  have arrow (e : Expr) : Builds R fun m => .arrow m lhs e :=
    .of_stratified (fun _ => h) fun _ _ => trivial
  have ascription (t : Expr) : Builds R fun m => .ascription m lhs t :=
    .of_stratified (fun _ => h) fun _ _ => trivial
  infer_instance

instance : Keeps R inner.exprOf := by
  constructor
  intro i s
  unfold Inner.exprOf
  rw [bind_of_ok (isBinderNext_run i s), ite_run]
  split
  · next binds =>
    rw [bind_of_ok (isNext_run _ i s)]
    exact binder_keeps binds
  · exact Keeps.keeps i s

instance : Keeps R inner.letIn := by
  unfold Inner.letIn
  infer_instance

instance : Keeps R inner.conditionalStmt := by
  unfold Inner.conditionalStmt
  infer_instance

instance : Keeps R inner.ask := by
  unfold Inner.ask
  infer_instance

instance : Keeps R inner.stmtForm := by
  unfold Inner.stmtForm
  refine .bind inferInstance fun tag => ?_
  split <;> infer_instance

instance : Keeps R inner.stmt := by
  unfold Inner.stmt
  infer_instance

instance : Keeps R inner.wholeStmt := by
  unfold Inner.wholeStmt
  infer_instance

end

section

variable {inner : Inner} [inner.Keeps R]

instance : Keeps R inner.stmtOrError := by
  unfold Inner.stmtOrError
  infer_instance

instance : Keeps R inner.blockOf := by
  unfold Inner.blockOf
  have stmts : Keeps R (within (fun _ => .none)
    (collectWhile Inner.isInBraces inner.stmtOrError)) := inferInstance
  refine .bind inferInstance fun _ => ?_
  infer_instance

end

instance innerUpTo_keeps (depth : Nat) : (innerUpTo depth).Keeps R := by
  induction depth with
  | zero =>
    rw [innerUpTo]
    exact ⟨inferInstance, inferInstance⟩
  | succ depth ih =>
    have expr : Keeps R (innerUpTo depth).exprOf := inferInstance
    have block : Keeps R (innerUpTo depth).blockOf := inferInstance
    rw [innerUpTo]
    exact ⟨expr, block⟩

theorem inner_expr_run (i : Input) (s : State) :
    inner.expr i s = (innerUpTo (i.tokens.size + 1)).expr i s := by
  unfold inner
  rfl

theorem inner_block_run (i : Input) (s : State) :
    inner.block i s = (innerUpTo (i.tokens.size + 1)).block i s := by
  unfold inner
  rfl

instance : inner.Keeps R where
  expr := ⟨fun i s => by
    rw [inner_expr_run]
    exact (innerUpTo_keeps (R := R) _).expr.keeps i s⟩
  block := ⟨fun i s => by
    rw [inner_block_run]
    exact (innerUpTo_keeps (R := R) _).block.keeps i s⟩

instance : Keeps R expr := inferInstanceAs (Keeps R inner.expr)

instance : Keeps R block := inferInstanceAs (Keeps R inner.block)

instance : Keeps R stmt := inferInstanceAs (Keeps R inner.stmt)

/-! ## Declarations and files -/

instance : Keeps R attrArgs := by
  unfold attrArgs
  infer_instance

instance : Keeps R attr := by
  unfold attr
  infer_instance

instance : Keeps R attrs := by
  unfold attrs
  infer_instance

instance : Keeps R paramList := by
  unfold paramList
  infer_instance

instance : Keeps R paramLists := by
  unfold paramLists
  infer_instance

instance : Keeps R optionalType := by
  unfold optionalType
  infer_instance

instance : Keeps R optionalBlock := by
  unfold optionalBlock
  infer_instance

instance : Keeps R signature := by
  unfold signature
  infer_instance

instance : Keeps R clause := by
  unfold clause
  infer_instance

instance : Keeps R command := by
  unfold command
  infer_instance

instance : Keeps R ctorParam := by
  unfold ctorParam
  infer_instance

instance : Keeps R ctorForm := by
  unfold ctorForm
  infer_instance

instance : Keeps R ctor := by
  unfold ctor
  infer_instance

instance : Keeps R ctorItem := by
  unfold ctorItem
  refine .bind inferInstance fun ctor => .bind inferInstance fun comma =>
    .bind inferInstance fun semicolon => ?_
  dsimp only
  infer_instance

instance : Keeps R ctors := by
  unfold ctors
  infer_instance

instance : Keeps R method := by
  unfold method
  infer_instance

instance : Keeps R methods := by
  unfold methods
  infer_instance

instance (sort : TypeSort) : Keeps R (members sort) := by
  unfold members
  infer_instance

instance (sort : TypeSort) : Keeps R (typeBody sort) := by
  unfold typeBody
  infer_instance

instance : Keeps R visibility := by
  unfold visibility
  refine .bind inferInstance fun tag => ?_
  split <;> infer_instance

instance : Keeps R typeSort := by
  unfold typeSort
  refine .bind inferInstance fun tag => ?_
  split <;> infer_instance

instance : Keeps R typeDecl := by
  unfold typeDecl
  infer_instance

instance : Keeps R declForm := by
  unfold declForm
  refine .bind inferInstance fun tag => ?_
  split <;> infer_instance

instance (start : Nat) : Keeps R (docStrings start) := by
  unfold docStrings
  infer_instance

instance (docsFrom : Nat) : Keeps R (decl docsFrom) := by
  unfold decl
  infer_instance

instance : Keeps R isDeclNext := by
  unfold isDeclNext
  infer_instance

instance (asDecl : Bool) (docsFrom : Nat) : Keeps R (wholeItem asDecl docsFrom) := by
  unfold wholeItem
  infer_instance

instance (asDecl : Bool) (span : Span) : Keeps R (errorItem asDecl span) := by
  unfold errorItem
  infer_instance

instance (docsFrom : Nat) : Keeps R (item docsFrom) := by
  unfold item
  infer_instance

instance (z : Array Item × Nat) : Keeps R (itemsRound z) := by
  unfold itemsRound
  infer_instance

instance (docsFrom : Nat) : Keeps R (items docsFrom) := by
  unfold items
  infer_instance

instance (line : Option Shebang) : Keeps R (shebang line) := by
  cases line with
  | none => exact inferInstanceAs (Keeps R (pure none))
  | some l =>
    have report : Keeps R (modify fun s => s.reported ⟨.shebang, l.span, none⟩ : Reader Unit) :=
      ⟨fun i s => R.error i s _⟩
    refine .bind inferInstance fun input => ?_
    split
    · infer_instance
    · exact .bind report fun _ => inferInstance

instance (line : Option Shebang) : Keeps R (file line) := by
  unfold file
  infer_instance

end Grammar

end Surface
