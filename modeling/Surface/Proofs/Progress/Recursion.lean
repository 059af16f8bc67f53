import Surface.Proofs.Progress.Advances

/-!
# Readers that call themselves

Expressions and blocks lie inside each other, and so do patterns. What lies inside of another starts
behind a token of the outer one, so reading goes no deeper than there are tokens left, and what would be
read below that depth does not matter.

Results:
* `Agrees`: readers that run alike from a position on.
* `Inner.above`, `patternAbove`: the grammar, a number of times inside itself and above anything.
* `above_agrees`, `patternAbove_agrees`: what is below the tokens that are left makes no difference.
* `expr_unfold`, `block_unfold`, `pattern_unfold`: what lies inside of another is read like it.
-/

namespace Surface.Grammar

variable {α β : Type} {i : Input} {lo : Nat}

/-! ## Readers that run alike -/

/-- Two readers run alike from position `lo` on. -/
class Agrees (i : Input) (lo : Nat) (x y : Reader α) : Prop where
  same : ∀ s, lo ≤ s.cursor.position → s.cursor.position ≤ i.tokens.size → x i s = y i s

theorem Agrees.mono {x y : Reader α} {hi : Nat} (h : Agrees i lo x y) (le : lo ≤ hi) :
    Agrees i hi x y :=
  ⟨fun s hs => h.same s (Nat.le_trans le hs)⟩

instance bind_agrees {x y : Reader α} {f g : α → Reader β} [hxy : Agrees i lo x y] [Steady y]
    [hfg : ∀ a, Agrees i lo (f a) (g a)] : Agrees i lo (x >>= f) (y >>= g) := by
  constructor
  intro s hlo hs
  rw [bind_run, bind_run, hxy.same s hlo hs]
  cases run : y i s with
  | ok a t =>
    have steps := Steady.ok run
    exact (hfg a).same t (Nat.le_trans hlo steps.position) (steps.inside hs)
  | error e t => rfl

theorem Agrees.bind {x y : Reader α} {f g : α → Reader β} (hxy : Agrees i lo x y) (hy : Steady y)
    (hfg : ∀ a, Agrees i lo (f a) (g a)) : Agrees i lo (x >>= f) (y >>= g) := bind_agrees

instance {x y : Reader α} {f : α → β} [h : Agrees i lo x y] : Agrees i lo (f <$> x) (f <$> y) := by
  constructor
  intro s hlo hs
  rw [map_run, map_run, h.same s hlo hs]

instance {p : Prop} [Decidable p] {x y x' y' : Reader α} [Agrees i lo x x'] [Agrees i lo y y'] :
    Agrees i lo (if p then x else y) (if p then x' else y') := by
  split <;> infer_instance

instance {derive : Context → Context} {x y : Reader α} [h : Agrees i lo x y] :
    Agrees i lo (within derive x) (within derive y) := by
  constructor
  intro s hlo hs
  rw [within_run, within_run, h.same (s.inContext (derive s.context)) hlo hs]

instance {form : Construct} {x y : Reader α} [h : Agrees i lo x y] :
    Agrees i lo (inConstruct form x) (inConstruct form y) := by
  constructor
  intro s hlo hs
  rw [inConstruct_run, inConstruct_run, h.same s hlo hs]

instance {x y : Reader α} {replace : SyntaxError → Reader α} [h : Agrees i lo x y] :
    Agrees i lo (orElse x replace) (orElse y replace) := by
  constructor
  intro s hlo hs
  rw [orElse_run, orElse_run, h.same s hlo hs]

/-- A reader runs like itself. -/
instance Agrees.refl (x : Reader α) : Agrees i lo x x := ⟨fun _ _ _ => rfl⟩

instance {round round' : β → Reader (ForInStep β)} [∀ b, Agrees i lo (round b) (round' b)]
    [∀ b, Steady (round' b)] (n : Nat) (b : β) :
    Agrees i lo (repeatUpTo round n b) (repeatUpTo round' n b) := by
  induction n generalizing b with
  | zero => exact .refl _
  | succ n ih =>
    refine .bind inferInstance inferInstance fun r => ?_
    cases r with
    | done b => exact .refl _
    | yield b => exact ih b

instance {round round' : β → Reader (ForInStep β)} [∀ b, Agrees i lo (round b) (round' b)]
    [∀ b, Steady (round' b)] (b : β) : Agrees i lo (repeated b round) (repeated b round') := by
  unfold repeated
  infer_instance

instance {more : Reader Bool} {item item' : Reader (α × Bool)} [Steady more] [Agrees i lo item item']
    [Steady item'] : Agrees i lo (collect more item) (collect more item') := by
  have round : ∀ as : Array α, Agrees i lo (collectRound more item as) (collectRound more item' as) := by
    intro as
    unfold collectRound
    infer_instance
  rw [collect_eq, collect_eq]
  infer_instance

instance {more : Reader Bool} {item item' : Reader α} [Steady more] [Agrees i lo item item']
    [Steady item'] : Agrees i lo (collectWhile more item) (collectWhile more item') := by
  unfold collectWhile
  infer_instance

instance {close : Tag} {item item' : Reader α} [Agrees i lo item item'] [Steady item'] :
    Agrees i lo (commaList close item) (commaList close item') := by
  unfold commaList
  infer_instance

instance {close : Tag} {item item' : Reader α} [Agrees i lo item item'] [Steady item'] :
    Agrees i lo (nestedList close item) (nestedList close item') := by
  unfold nestedList
  infer_instance

/-! ## What comes first -/

/-- Two readers run alike from a state. -/
def AgreesFrom (i : Input) (s : State) (x y : Reader α) : Prop := x i s = y i s

namespace AgreesFrom

variable {s : State}

/-- What comes behind a token need only run alike behind it. -/
theorem bind {x y : Reader α} {f g : α → Reader β} [Steady y]
    (hs : s.cursor.position ≤ i.tokens.size) (hxy : AgreesFrom i s x y) (takes : AdvancesFrom i s y)
    (hfg : ∀ a, Agrees i (s.cursor.position + 1) (f a) (g a)) : AgreesFrom i s (x >>= f) (y >>= g) := by
  unfold AgreesFrom at *
  rw [bind_run, bind_run, hxy]
  cases run : y i s with
  | ok a t => exact (hfg a).same t (takes a t run) ((Steady.ok run).inside hs)
  | error e t => rfl

theorem behind {x : Reader α} {f g : α → Reader β} {a : α} (look : x i s = .ok a s)
    (h : AgreesFrom i s (f a) (g a)) : AgreesFrom i s (x >>= f) (x >>= g) := by
  unfold AgreesFrom at *
  rw [bind_of_ok look, bind_of_ok look, h]

theorem fails {x : Reader α} {f g : α → Reader β} {e : SyntaxError} {t : State}
    (h : x i s = .error e t) : AgreesFrom i s (x >>= f) (x >>= g) := by
  unfold AgreesFrom
  rw [bind_run, bind_run, h]

end AgreesFrom

/-! ## Patterns -/

section

variable {x y : Reader Pattern} [Steady y]

theorem atomicPatternOf_from {s : State} (once : i.tokens.EndsOnce)
    (hs : s.cursor.position ≤ i.tokens.size) (h : Agrees i (s.cursor.position + 1) x y) :
    AgreesFrom i s (atomicPatternOf x) (atomicPatternOf y) := by
  refine .behind (nextToken_run i s) ?_
  split
  · rfl
  · generalize tag : (i.tokens.get s.cursor.position).tag = t
    split
    · rfl
    · rfl
    · rfl
    · exact .bind hs rfl (.openGroup (ne_eof_of_tag once tag Tag.noConfusion)) inferInstance
    · rfl

theorem atomicPatternOf_agrees (once : i.tokens.EndsOnce) (h : Agrees i (lo + 1) x y) :
    Agrees i lo (atomicPatternOf x) (atomicPatternOf y) :=
  ⟨fun _ hlo hs => atomicPatternOf_from once hs (h.mono (Nat.succ_le_succ hlo))⟩

theorem patternOf_agrees (once : i.tokens.EndsOnce) (h : Agrees i (lo + 1) x y) :
    Agrees i lo (patternOf x) (patternOf y) := by
  have := atomicPatternOf_agrees once h
  unfold patternOf
  infer_instance

end

/-- Patterns, `n` times inside each other and above anything. -/
def patternAbove (bottom : Reader Pattern) : Nat → Reader Pattern
  | 0 => bottom
  | n + 1 => patternOf fun input s => patternAbove bottom n input s

/-- However deep patterns lie inside each other, from a position on from which there are fewer tokens
than that they are the same. -/
theorem patternAbove_agrees (once : i.tokens.EndsOnce) (bottom : Reader Pattern) {n m lo : Nat}
    (hn : i.tokens.size < n + lo) (hm : i.tokens.size < m + lo) :
    Agrees i lo (patternAbove bottom n) (patternUpTo m) := by
  induction n generalizing m lo with
  | zero => exact ⟨fun _ hlo hs => absurd hs (by omega)⟩
  | succ n ih =>
    cases m with
    | zero => exact ⟨fun _ hlo hs => absurd hs (by omega)⟩
    | succ m =>
      have : Steady fun input s => patternUpTo m input s := patternUpTo_keeps m
      exact patternOf_agrees once (ih (m := m) (by omega) (by omega))

/-! ## Expressions and blocks -/

/-- Readers of expressions and blocks that run alike from position `lo` on. -/
class Inner.Agrees (i : Input) (lo : Nat) (inner inner' : Inner) : Prop where
  expr : Grammar.Agrees i lo inner.expr inner'.expr
  block : Grammar.Agrees i lo inner.block inner'.block

theorem Inner.Agrees.mono {inner inner' : Inner} {hi : Nat} (h : inner.Agrees i lo inner')
    (le : lo ≤ hi) : inner.Agrees i hi inner' :=
  ⟨h.expr.mono le, h.block.mono le⟩

section

variable {inner inner' : Inner} [inner'.Steady] [inner.Agrees i lo inner']

instance : Agrees i lo inner.expr inner'.expr := Inner.Agrees.expr

instance : Agrees i lo inner.block inner'.block := Inner.Agrees.block

instance : Agrees i lo inner.type inner'.type := by
  unfold Inner.type
  infer_instance

instance : Agrees i lo inner.param inner'.param := by
  unfold Inner.param
  infer_instance

instance : Agrees i lo inner.thenBody inner'.thenBody := by
  unfold Inner.thenBody
  infer_instance

instance : Agrees i lo inner.blockOrExpr inner'.blockOrExpr := by
  unfold Inner.blockOrExpr
  infer_instance

instance : Agrees i lo inner.elseBody inner'.elseBody := by
  unfold Inner.elseBody
  infer_instance

instance : Agrees i lo inner.head inner'.head := by
  unfold Inner.head
  infer_instance

instance : Agrees i lo inner.arm inner'.arm := by
  unfold Inner.arm
  refine .bind inferInstance inferInstance fun pattern => .bind inferInstance inferInstance fun _ =>
    .bind inferInstance inferInstance fun _ => .bind inferInstance inferInstance fun body => ?_
  exact .refl _

instance : Agrees i lo inner.lambdaParams inner'.lambdaParams := by
  unfold Inner.lambdaParams
  infer_instance

instance : Agrees i lo inner.trailingBlock inner'.trailingBlock := by
  unfold Inner.trailingBlock
  infer_instance

instance : Agrees i lo inner.codomain inner'.codomain := by
  unfold Inner.codomain
  infer_instance

instance : Agrees i lo inner.letIn inner'.letIn := by
  unfold Inner.letIn
  infer_instance

instance : Agrees i lo inner.conditionalStmt inner'.conditionalStmt := by
  unfold Inner.conditionalStmt
  infer_instance

instance : Agrees i lo inner.ask inner'.ask := by
  unfold Inner.ask
  infer_instance

instance : Agrees i lo inner.stmtForm inner'.stmtForm := by
  unfold Inner.stmtForm
  refine .bind inferInstance inferInstance fun tag => ?_
  split <;> infer_instance

instance : Agrees i lo inner.stmt inner'.stmt := by
  unfold Inner.stmt
  infer_instance

instance : Agrees i lo inner.wholeStmt inner'.wholeStmt := by
  unfold Inner.wholeStmt
  infer_instance

instance : Agrees i lo inner.stmtOrError inner'.stmtOrError := by
  unfold Inner.stmtOrError
  infer_instance

end

/-! ## The first token of an expression -/

section

variable {inner inner' : Inner} [inner'.Steady] {s : State}

theorem take_agrees {f g : Token → Reader α} (hs : s.cursor.position ≤ i.tokens.size)
    (he : s.cursor.tag i.tokens ≠ .eof) (h : ∀ a, Agrees i (s.cursor.position + 1) (f a) (g a)) :
    AgreesFrom i s (take >>= f) (take >>= g) := .bind hs rfl (.take he) h

theorem openGroup_agrees {f g : Opened → Reader α} (hs : s.cursor.position ≤ i.tokens.size)
    (he : s.cursor.tag i.tokens ≠ .eof) (h : ∀ a, Agrees i (s.cursor.position + 1) (f a) (g a)) :
    AgreesFrom i s (openGroup >>= f) (openGroup >>= g) := .bind hs rfl (.openGroup he) h

variable [inner.Agrees i (s.cursor.position + 1) inner'] (hs : s.cursor.position ≤ i.tokens.size)

include hs

theorem tuple_from (he : s.cursor.tag i.tokens ≠ .eof) : AgreesFrom i s inner.tuple inner'.tuple :=
  openGroup_agrees hs he inferInstance

theorem array_from (he : s.cursor.tag i.tokens ≠ .eof) : AgreesFrom i s inner.array inner'.array :=
  openGroup_agrees hs he inferInstance

theorem conditional_from (he : s.cursor.tag i.tokens ≠ .eof) :
    AgreesFrom i s inner.conditional inner'.conditional := by
  refine take_agrees hs he fun start => .bind inferInstance inferInstance fun condition =>
    .bind inferInstance inferInstance fun thenBody => .bind inferInstance inferInstance fun elseBody => ?_
  exact .refl _

theorem matchOn_from (he : s.cursor.tag i.tokens ≠ .eof) :
    AgreesFrom i s inner.matchOn inner'.matchOn := by
  refine take_agrees hs he fun start => .bind inferInstance inferInstance fun scrutinee =>
    .bind inferInstance inferInstance fun _ => ?_
  dsimp only
  split
  · exact .bind (.refl _) inferInstance fun _ => inferInstance
  · infer_instance

theorem returned_from (he : s.cursor.tag i.tokens ≠ .eof) :
    AgreesFrom i s inner.returned inner'.returned :=
  take_agrees hs he inferInstance

theorem lambda_from (he : s.cursor.tag i.tokens ≠ .eof) : AgreesFrom i s inner.lambda inner'.lambda :=
  take_agrees hs he inferInstance

theorem paramGroup_from (he : s.cursor.tag i.tokens ≠ .eof) (nonEmpty : Bool) :
    AgreesFrom i s (inner.paramGroup nonEmpty) (inner'.paramGroup nonEmpty) := by
  refine openGroup_agrees hs he fun group => .bind inferInstance inferInstance fun _ => ?_
  dsimp only
  infer_instance

theorem primary_from (once : i.tokens.EndsOnce) : AgreesFrom i s inner.primary inner'.primary := by
  refine .behind (nextToken_run i s) ?_
  split
  · rfl
  · generalize tag : (i.tokens.get s.cursor.position).tag = t
    have first (ht : t ≠ .eof) : s.cursor.tag i.tokens ≠ .eof := ne_eof_of_tag once tag ht
    split
    · rfl
    · rfl
    · exact tuple_from hs (first Tag.noConfusion)
    · exact array_from hs (first Tag.noConfusion)
    · exact conditional_from hs (first Tag.noConfusion)
    · exact matchOn_from hs (first Tag.noConfusion)
    · exact returned_from hs (first Tag.noConfusion)
    · refine .behind (isLambdaNext_run i s) ?_
      split
      · next opens =>
        refine lambda_from hs (ne_eof_of_tag once rfl fun ended => ?_)
        rw [Tokens.EndsOnce.kind_tag_eq_eof.1 ended] at opens
        cases opens
      · rfl

end

theorem primary_agrees {inner inner' : Inner} [inner'.Steady] (once : i.tokens.EndsOnce)
    (h : inner.Agrees i (lo + 1) inner') : Agrees i lo inner.primary inner'.primary := by
  constructor
  intro s hlo hs
  have := h.mono (Nat.succ_le_succ hlo)
  exact primary_from hs once

section

variable {inner inner' : Inner} [inner'.Steady] {s : State}

theorem application_from [h : inner.Agrees i (s.cursor.position + 1) inner']
    (hs : s.cursor.position ≤ i.tokens.size) (once : i.tokens.EndsOnce) :
    AgreesFrom i s inner.application inner'.application := by
  have args : Agrees i (s.cursor.position + 1) inner.primary inner'.primary :=
    primary_agrees once (h.mono (Nat.le_succ _))
  refine .bind hs (primary_from hs once) (Advances.from_any once s) ?_
  infer_instance

theorem application_agrees (once : i.tokens.EndsOnce) (h : inner.Agrees i (lo + 1) inner') :
    Agrees i lo inner.application inner'.application := by
  constructor
  intro s hlo hs
  have := h.mono (Nat.succ_le_succ hlo)
  exact application_from hs once

theorem binary_from [h : inner.Agrees i (s.cursor.position + 1) inner']
    (hs : s.cursor.position ≤ i.tokens.size) (once : i.tokens.EndsOnce) :
    AgreesFrom i s inner.binary inner'.binary := by
  have operand : Agrees i (s.cursor.position + 1) inner.application inner'.application :=
    application_agrees once (h.mono (Nat.le_succ _))
  have round (lhs : Expr) : Agrees i (s.cursor.position + 1) (operatorRound inner lhs)
      (operatorRound inner' lhs) := by
    refine .bind inferInstance inferInstance fun op => ?_
    cases op <;> infer_instance
  refine .bind hs (application_from hs once) (Advances.from_any once s) fun lhs => ?_
  exact inferInstanceAs (Agrees i _ (repeated lhs (operatorRound inner))
    (repeated lhs (operatorRound inner')))

theorem binder_from [inner.Agrees i (s.cursor.position + 1) inner']
    (hs : s.cursor.position ≤ i.tokens.size) (he : s.cursor.tag i.tokens ≠ .eof)
    (once : i.tokens.EndsOnce) (isSigma : Bool) :
    AgreesFrom i s (inner.binder isSigma) (inner'.binder isSigma) :=
  .bind hs (paramGroup_from hs he false) (Advances.from_any once s) inferInstance

theorem arrowOrAscription_from [inner.Agrees i (s.cursor.position + 1) inner']
    (hs : s.cursor.position ≤ i.tokens.size) (once : i.tokens.EndsOnce) :
    AgreesFrom i s inner.arrowOrAscription inner'.arrowOrAscription :=
  .bind hs (binary_from hs once) (Advances.from_any once s) inferInstance

/-- A group in front of an arrow is no end. -/
theorem ne_eof_of_arrowFollowsGroup {ts : Tokens} {g : Groups} {b : Bool} {p : Nat}
    (h : arrowFollowsGroup ts g b p = true) : ts.tag p ≠ .eof := by
  intro ended
  unfold arrowFollowsGroup at h
  rw [ended] at h
  cases h

theorem exprOf_agrees (once : i.tokens.EndsOnce) (h : inner.Agrees i (lo + 1) inner') :
    Agrees i lo inner.exprOf inner'.exprOf := by
  constructor
  intro s hlo hs
  have := h.mono (Nat.succ_le_succ hlo)
  refine AgreesFrom.behind (isBinderNext_run i s) ?_
  split
  · next binds =>
    exact .behind (isNext_run _ i s) (binder_from hs (ne_eof_of_arrowFollowsGroup binds) once _)
  · exact arrowOrAscription_from hs once

theorem blockOf_agrees (h : inner.Agrees i (lo + 1) inner') :
    Agrees i lo inner.blockOf inner'.blockOf := by
  constructor
  intro s hlo hs
  have := h.mono (Nat.succ_le_succ hlo)
  refine AgreesFrom.behind (isNotNext_run _ i s) ?_
  dsimp only
  split
  · exact .fails rfl
  · next brace =>
    have tag : s.cursor.tag i.tokens = .punct .openBrace := by simpa using brace
    exact .bind hs rfl (.openBrace (by rw [tag]; exact Tag.noConfusion)) inferInstance

end

/-! ## The knot -/

/-- Expressions and blocks, `n` times inside each other and above anything. -/
def Inner.above (bottom : Inner) : Nat → Inner
  | 0 => bottom
  | n + 1 => ⟨fun input s => (above bottom n).exprOf input s, fun input s => (above bottom n).blockOf input s⟩

/-- However deep expressions and blocks lie inside each other, from a position on from which there are
fewer tokens than that they are the same. -/
theorem above_agrees (once : i.tokens.EndsOnce) (bottom : Inner) {n m lo : Nat}
    (hn : i.tokens.size < n + lo) (hm : i.tokens.size < m + lo) :
    (bottom.above n).Agrees i lo (innerUpTo m) := by
  -- at depth 0 no tokens are left; one level takes a token, so that the levels inside start behind it
  induction n generalizing m lo with
  | zero => exact ⟨⟨fun _ hlo hs => absurd hs (by omega)⟩, ⟨fun _ hlo hs => absurd hs (by omega)⟩⟩
  | succ n ih =>
    cases m with
    | zero => exact ⟨⟨fun _ hlo hs => absurd hs (by omega)⟩, ⟨fun _ hlo hs => absurd hs (by omega)⟩⟩
    | succ m =>
      have inside : (bottom.above n).Agrees i (lo + 1) (innerUpTo m) := ih (by omega) (by omega)
      rw [Inner.above, innerUpTo]
      exact ⟨exprOf_agrees once inside, blockOf_agrees inside⟩

/-- Without a bound on the depth, expressions and blocks are those of any depth that is large enough. -/
theorem inner_agrees (once : i.tokens.EndsOnce) {m lo : Nat} (hm : i.tokens.size < m + lo) :
    inner.Agrees i lo (innerUpTo m) := by
  let deep := inner.above (i.tokens.size + 1)
  have whole : deep.Agrees i lo (innerUpTo (i.tokens.size + 1)) := above_agrees once _ (by omega) (by omega)
  have some : deep.Agrees i lo (innerUpTo m) := above_agrees once _ (by omega) hm
  constructor <;> constructor <;> intro s hlo hs
  · rw [inner_expr_run, ← whole.expr.same s hlo hs, some.expr.same s hlo hs]
  · rw [inner_block_run, ← whole.block.same s hlo hs, some.block.same s hlo hs]

/-- What lies inside of an expression is read like that expression. -/
theorem expr_unfold {s : State} (once : i.tokens.EndsOnce) (hs : s.cursor.position ≤ i.tokens.size) :
    expr i s = inner.exprOf i s := by
  have inside : inner.Agrees i (s.cursor.position + 1) (innerUpTo i.tokens.size) :=
    inner_agrees once (by omega)
  rw [(exprOf_agrees once inside).same s (Nat.le_refl _) hs, expr, inner_expr_run, innerUpTo]

theorem block_unfold {s : State} (once : i.tokens.EndsOnce) (hs : s.cursor.position ≤ i.tokens.size) :
    block i s = inner.blockOf i s := by
  have inside : inner.Agrees i (s.cursor.position + 1) (innerUpTo i.tokens.size) :=
    inner_agrees once (by omega)
  rw [(blockOf_agrees inside).same s (Nat.le_refl _) hs, block, inner_block_run, innerUpTo]

theorem pattern_agrees (once : i.tokens.EndsOnce) {m lo : Nat} (hm : i.tokens.size < m + lo) :
    Agrees i lo pattern (patternUpTo m) := by
  let deep := patternAbove pattern (i.tokens.size + 1)
  have whole : Agrees i lo deep (patternUpTo (i.tokens.size + 1)) :=
    patternAbove_agrees once _ (by omega) (by omega)
  have some : Agrees i lo deep (patternUpTo m) := patternAbove_agrees once _ (by omega) hm
  exact ⟨fun s hlo hs => (whole.same s hlo hs).symm.trans (some.same s hlo hs)⟩

theorem pattern_unfold {s : State} (once : i.tokens.EndsOnce) (hs : s.cursor.position ≤ i.tokens.size) :
    pattern i s = patternOf pattern i s := by
  have inside : Agrees i (s.cursor.position + 1) pattern (patternUpTo i.tokens.size) :=
    pattern_agrees once (by omega)
  rw [(patternOf_agrees once inside).same s (Nat.le_refl _) hs]
  rfl

end Surface.Grammar
