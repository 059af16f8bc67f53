import Surface.Proofs.Parallel.Twin

/-!
# Readers on both sides of a bridge

Every reader of patterns, expressions, statements and blocks does the same on both sides of a
bridge: it builds like nodes, or fails at the same place.

Results:
* `pattern_twin`, `expr_twin`, `block_twin`, `stmt_twin`.
-/

namespace Surface.Grammar

variable {B : Bridge} {e o p lo : Nat} {c : Context} {b : Bool}

/-! ## Names and paths -/

theorem not_stop_of_name {t : Tag} (h : nameTags.contains t = true) :
    stopTags.contains t = false := Bridge.not_stop h (by decide)

theorem ident_twin : Twin B e c b o p ident ident b o Like := by
  refine .intro fun inside => .look Runs.nextToken Runs.nextToken ?_
  have same : (B.right.input.tokens.get (p + B.shift)).kind.name?
      = (B.left.input.tokens.get p).kind.name? :=
    Bridge.kind_congr inside.le_wall TokenKind.name? rfl
  rw [same]
  cases hn : (B.left.input.tokens.get p).kind.name? with
  | none => exact .absent
  | some name =>
    exact .bind (.take (not_stop_of_name (Setting.tag_of_name hn))) fun _ _ _ _ _ _ => .pure rfl

theorem path_twin : Twin B e c b o p path path b o Like := by
  have segment (q : Nat) (h : (decide (B.left.tag q = .reserved .dot)
      && nameTags.contains (B.left.tag (q + 1))) = true) :
      Twin B e c b o q (do
        let _ ← take
        ident) (do
        let _ ← take
        ident) b o fun x x' j => alike x x' ∧ q < j := by
    rw [Bool.and_eq_true, decide_eq_true_eq] at h
    refine .bind (.take (by rw [h.1]; decide)) fun _ _ j _ _ hj => ?_
    refine (ident_twin.forward ident_yields fun x k hk => hk.2 ▸ B.left.lt_next b j).mono ?_
    intro x x' k _ hx
    have := B.left.lt_next b q
    exact ⟨hx.1, by omega⟩
  refine .bind ident_twin fun x x' q _ _ hx => ?_
  refine .bind (.collectWhile (fun _ _ => .isSegmentNext) fun q _ _ h => segment q h) ?_
  exact fun xs xs' j _ _ hxs => .pure (List.Forall₂.cons hx hxs)

/-! ## Patterns -/

theorem Pattern.alike_cons {path path' : Path} {ps ps' : List Pattern} (hp : alike path path')
    (hps : alike ps ps') : alike (fun m => Pattern.cons m path ps) fun m => Pattern.cons m path' ps' :=
  fun _ _ => Tree.bare_node rfl
    (by simp only [Tree.bareChildren, Path.bare_tree hp, Pattern.bare_args hps]) _ _

section

variable {inner inner' : Reader Pattern}
  (ht : ∀ {e c b o p}, lo ≤ p → Twin B e c b o p inner inner' b o Like)

include ht

theorem atomicPatternOf_twin (hp : lo ≤ p + 1) :
    Twin B e c b o p (atomicPatternOf inner) (atomicPatternOf inner') b o Like := by
  refine .intro fun inside => .look Runs.nextToken Runs.nextToken ?_
  have same : (B.right.input.tokens.get (p + B.shift)).kind.literal?
      = (B.left.input.tokens.get p).kind.literal? :=
    Bridge.kind_congr inside.le_wall TokenKind.literal? rfl
  have tags := Bridge.tag_cases inside.le_wall
  rw [same, B.left.closed, B.right.closed]
  unfold Setting.tag at tags
  cases hv : (B.left.input.tokens.get p).kind.literal? with
  | some value =>
    have tag := Setting.tag_of_literal hv
    refine .bind (.take (by rcases tag with h | h | h <;> rw [h] <;> decide)) fun _ _ _ _ _ _ => ?_
    exact .newPattern fun m m' => Tree.bare_node rfl (Literal.bare_children ..) _ _
  | none =>
    have path_alone : Twin B e c b o p (do
        let path ← path
        newPattern path.span fun m => .cons m path []) (do
        let path ← path
        newPattern path.span fun m => .cons m path []) b o Like :=
      .bind path_twin fun _ _ _ _ _ h => .newPattern (Pattern.alike_cons h .nil)
    dsimp only
    generalize hl : B.left.input.tokens.tag p = t at *
    generalize B.right.input.tokens.tag (p + B.shift) = t' at *
    rcases tags with ⟨-, rfl⟩ | ⟨rfl | rfl, rfl | rfl⟩
    · split
      · exact path_alone
      · exact path_alone
      · refine .bind (.take (by rw [Setting.tag, hl]; decide)) fun _ _ _ _ _ _ => ?_
        exact .newPattern fun m m' => rfl
      · refine .bind (.openGroup (.inl hl)) fun g g' q _ _ hg => ?_
        refine .bind (.within (ht (by omega))) fun x x' k _ _ hx => ?_
        exact .bind (.closeGroup hg.1) fun _ _ _ _ _ _ => .pure hx
      · exact .absent
    all_goals exact .absent

theorem patternOf_twin [Steady inner] (hi : ∀ c b i, Yields B.left inner c b i b (PatternAt B.left b i))
    (hp : lo ≤ p + 1) : Twin B e c b o p (patternOf inner) (patternOf inner') b o Like := by
  refine .within (.looks .isNameNext (.ite (fun _ => ?_) fun _ => atomicPatternOf_twin ht hp))
  refine .bind path_twin fun x x' q hq _ hx => ?_
  refine .bind (.collectWhile (fun _ _ => .isNextIn (by decide)) fun k hk _ _ =>
    (atomicPatternOf_twin ht (by omega)).forward (atomicPatternOf_yields hi) fun _ _ h => h.lt) ?_
  intro ps ps' k _ _ hps
  exact .look Runs.previousSpan Runs.previousSpan (.newPattern (Pattern.alike_cons hx hps))

end

theorem patternUpTo_twin (depth depth' : Nat) (h : B.wall < depth + p) (h' : B.wall < depth' + p) :
    Twin B e c b o p (patternUpTo depth) (patternUpTo depth') b o Like := by
  induction depth generalizing depth' e c b o p with
  | zero => exact .intro fun inside => absurd inside.le_wall (by omega)
  | succ depth ih =>
    cases depth' with
    | zero => exact .intro fun inside => absurd inside.le_wall (by omega)
    | succ depth' =>
      exact patternOf_twin (fun hq => ih depth' (by omega) (by omega)) (patternUpTo_yields depth)
        (Nat.le_refl (p + 1))

theorem pattern_twin : Twin B e c b o p pattern pattern b o Like := by
  have := B.left_size
  have := B.right_size
  exact fun s s' m => patternUpTo_twin (B.left.input.tokens.size + 1)
    (B.right.input.tokens.size + 1) (by omega) (by omega) s s' m

theorem atomicPattern_twin : Twin B e c b o p atomicPattern atomicPattern b o Like :=
  atomicPatternOf_twin (fun _ => pattern_twin) (Nat.zero_le (p + 1))

/-! ## Expressions and blocks -/

/-- Readers of expressions and blocks that do the same on both sides from a position on. -/
structure Inner.Twins (B : Bridge) (lo : Nat) (inner inner' : Inner) : Prop where
  yields : inner.Yields B.left
  expr : ∀ {e c b o p}, lo ≤ p → Twin B e c b o p inner.expr inner'.expr b o Like
  block : ∀ {e c b o p}, lo ≤ p → Twin B e c b o p inner.block inner'.block b o Like

section

variable {inner inner' : Inner} [inner.Steady] (hi : inner.Twins B lo inner')

include hi

omit [inner.Steady] in
theorem type_twin (hp : lo ≤ p) : Twin B e c b o p inner.type inner'.type b o Like :=
  .within (hi.expr hp)

omit [inner.Steady] in
theorem head_twin (hp : lo ≤ p) : Twin B e c b o p inner.head inner'.head b o Like :=
  .within (hi.expr hp)

omit [inner.Steady] in
theorem param_twin (hp : lo ≤ p + 1) : Twin B e c b o p inner.param inner'.param b o Like := by
  refine .bind (pattern_twin.forward pattern_yields fun _ _ h => h.lt) fun x x' q _ _ hx => ?_
  refine .bind (.accept (by decide)) fun colon colon' k hk _ hcolon => ?_
  obtain ⟨rfl, -⟩ := hcolon
  have built {type type' : Option Expr} {l : Nat} (h : alike type type') : Twin B e c b o l (do
      return ⟨x, type, x.span.merge (← previousSpan)⟩ : Reader Param) (do
      return ⟨x', type', x'.span.merge (← previousSpan)⟩) b o Like := by
    refine .look Runs.previousSpan Runs.previousSpan (.pure (Tree.bare_node rfl ?_ _ _))
    simp only [Tree.bareChildren, show _ = _ from hx.1, Expr.bare_optional "type" h]
  refine .ite (fun _ => ?_) fun _ => ?_
  · refine .bind (.optional (type_twin hi (by omega))) fun _ _ l _ _ h => built h
  · exact .bind (.pure Option.Rel.none) fun _ _ l _ _ h => built h

/-- A group of parameters between two brackets. -/
theorem paramGroup_twin (hp : lo ≤ p + 1)
    (h : B.left.tag p = .punct .openParen ∨ B.left.tag p = .punct .openBracket)
    (nonEmpty : Bool) :
    Twin B e c b o p (inner.paramGroup nonEmpty) (inner'.paramGroup nonEmpty) b o Like := by
  refine .bind (.openGroup h) fun g g' q _ _ hg => ?_
  obtain ⟨entered, lt, -⟩ := hg
  rw [entered.close]
  refine .looks (.isNext Tag.noConfusion Tag.noConfusion) (.ite (fun _ => ?_) fun _ => ?_)
  · have fails : Twin B e c true (p + 1) q (absent .parameter : Reader Unit) (absent .parameter)
        true (p + 1) fun _ _ _ => False := .absent
    exact .bind fails fun _ _ _ _ _ h => h.elim
  · refine .bind (.nestedList fun k hk _ => (param_twin hi (by omega)).forward
      (param_yields hi.yields) fun _ _ h => h.lt) fun ps ps' k _ _ hps => ?_
    exact .bind (.closeGroup entered) fun _ _ _ _ _ h => .pure ⟨hps.1, h⟩

/-! ## Bodies -/

omit [inner.Steady] in
theorem blockOrExpr_twin (hp : lo ≤ p) :
    Twin B e c b o p inner.blockOrExpr inner'.blockOrExpr b o Like := by
  refine .looks (.isNext Tag.noConfusion Tag.noConfusion) (.ite (fun _ => ?_) fun _ => ?_)
  · exact .bind (hi.block hp) fun t t' q _ _ h => .pure h
  · exact .bind (hi.expr hp) fun t t' q _ _ h => .pure h

omit [inner.Steady] in
theorem thenBody_twin (hp : lo ≤ p) :
    Twin B e c b o p inner.thenBody inner'.thenBody b o Like := by
  refine .looks (.isNext Tag.noConfusion Tag.noConfusion) (.ite (fun _ => ?_) fun _ => ?_)
  · exact .bind (hi.block hp) fun t t' q _ _ h => .pure h
  · refine .bind (.accept (by decide)) fun _ _ q hq _ h => ?_
    obtain ⟨rfl, -⟩ := h
    refine .ite (fun _ => ?_) fun _ => .unexpected
    exact .bind (hi.expr (by omega)) fun t t' q _ _ h => .pure h

omit [inner.Steady] in
theorem elseBody_twin (hp : lo ≤ p) :
    Twin B e c b o p inner.elseBody inner'.elseBody b o Like := by
  refine .looks .isElseNext (.ite (fun he => ?_) fun _ => .pure .none)
  have else_next := (Setting.elseNext_iff.1 he).past
  have free (h : B.Inside e o b p) : B.Free p := by
    refine .inr (Nat.lt_of_le_of_ne h.le_wall ?_)
    rintro rfl
    -- at the wall no `else` follows
    rcases B.left_wall with wall | ⟨-, wall⟩
    · simp [wall] at he
    · simp [wall, B.left_else] at he
  refine .bind (.skipBreaks free) fun _ _ q _ _ hq => ?_
  obtain rfl : q = B.left.past p := hq
  refine .bind (.take (by rw [else_next]; decide)) fun _ _ k _ _ hk => ?_
  exact .optional (blockOrExpr_twin hi (by omega))

/-! ## Primaries -/

omit [inner.Steady] in
theorem exprs_twin {t : Punct} (hp : lo ≤ p) :
    Twin B e c b o p (nestedList (.punct t) inner.expr) (nestedList (.punct t) inner'.expr) b o Like :=
  .nestedList fun _ hq _ => (hi.expr (by omega)).forward (hi.yields.expr _ _ _) fun _ _ h => h.lt

omit [inner.Steady] in
theorem tuple_twin (hp : lo ≤ p + 1) (h : B.left.tag p = .punct .openParen) :
    Twin B e c b o p inner.tuple inner'.tuple b o Like := by
  refine .bind (.openGroup (.inl h)) fun g g' q _ _ hg => ?_
  refine .bind (exprs_twin hi (by omega)) fun es es' k _ _ hes => ?_
  refine .bind (.closeGroup hg.1) fun _ _ _ _ _ _ => .newExpr fun m m' => Tree.bare_node rfl ?_ _ _
  rw [Tree.bareChildren_append, Tree.bareChildren_append, Expr.bare_children "element" hes.1,
    show es.2 = es'.2 from hes.2]
  cases es'.2 <;> rfl

omit [inner.Steady] in
theorem array_twin (hp : lo ≤ p + 1) (h : B.left.tag p = .punct .openBracket) :
    Twin B e c b o p inner.array inner'.array b o Like := by
  refine .bind (.openGroup (.inr h)) fun g g' q _ _ hg => ?_
  refine .bind (exprs_twin hi (by omega)) fun es es' k _ _ hes => ?_
  refine .bind (.closeGroup hg.1) fun _ _ _ _ _ _ => .newExpr fun m m' => ?_
  exact Tree.bare_node rfl (Expr.bare_children "element" hes.1) _ _

omit [inner.Steady] in
theorem conditional_twin (hp : lo ≤ p + 1) (h : B.left.tag p = .keyword .ifKw) :
    Twin B e c b o p inner.conditional inner'.conditional b o Like := by
  refine .bind (.take (by rw [h]; decide)) fun _ _ q hq _ hstart => ?_
  obtain rfl := hstart.2
  have lt := B.left.lt_next b p
  refine .bind (head_twin hi (by omega)) fun x x' k hk _ hx => ?_
  refine .bind (thenBody_twin hi (by omega)) fun t t' l hl _ ht => ?_
  refine .bind (elseBody_twin hi (by omega)) fun f f' l hl _ hf => ?_
  cases hf with
  | none =>
    refine .look Runs.previousSpan Runs.previousSpan ?_
    exact .fails (fun _ => rfl) (fun _ => rfl) fun _ _ _ _ => ⟨rfl, rfl⟩
  | some hf =>
    refine .look Runs.previousSpan Runs.previousSpan (.newExpr fun m m' => Tree.bare_node rfl ?_ _ _)
    simp only [Tree.bareChildren, show _ = _ from hx, show _ = _ from ht, show _ = _ from hf]

omit [inner.Steady] in
theorem arm_twin (hp : lo ≤ p + 1) (hf : B.Free (B.ceil o)) :
    Twin B e c b o p inner.arm inner'.arm b o Like := by
  have free {q : Nat} (h : B.Within o b q) : B.Free q := hf.mono h.below
  refine .bind pattern_twin fun x x' q hq _ hx => ?_
  refine .bind (.expect (by decide)) fun _ _ k hk _ harrow => ?_
  have := B.left.lt_next b q
  refine .bind (.skipBreaks fun h => free h.toWithin) fun _ _ l hl _ _ => ?_
  refine .bind (blockOrExpr_twin hi (by omega)) fun t t' i _ _ ht => ?_
  refine .look Runs.previousSpan Runs.previousSpan ?_
  refine .bind (.accept (by decide)) fun comma comma' i _ _ hcomma => ?_
  obtain ⟨rfl, -⟩ := hcomma
  refine .looks (.isNext_of_free free) (.bind (.skipBreaks fun h => free h.toWithin) fun _ _ j _ _ _ => ?_)
  refine .looks (.isNotNext Tag.noConfusion Tag.noConfusion) (.ite (fun _ => ?_) fun _ => ?_)
  · have fails : Twin B e c b o j
        (unexpected {.punct .comma, .punct .closeBrace, .lineBreak} : Reader Unit)
        (unexpected {.punct .comma, .punct .closeBrace, .lineBreak}) b o fun _ _ _ => False :=
      .unexpected
    exact .bind fails fun _ _ _ _ _ h => h.elim
  · refine .pure (Tree.bare_node rfl ?_ _ _)
    simp only [Tree.bareChildren, show _ = _ from hx, show _ = _ from ht]

theorem matchOn_twin (hp : lo ≤ p + 1) (h : B.left.tag p = .keyword .matchKw) :
    Twin B e c b o p inner.matchOn inner'.matchOn b o Like := by
  refine .bind (.take (by rw [h]; decide)) fun _ _ q hq _ hstart => ?_
  obtain rfl := hstart.2
  have lt := B.left.lt_next b p
  refine .bind (head_twin hi (by omega)) fun x x' k hk _ hx => ?_
  refine .looks (.isNotNext Tag.noConfusion Tag.noConfusion) (.ite (fun _ => ?_) fun brace => ?_)
  · have fails : Twin B e c b o k (unexpected {.punct .openBrace} : Reader Unit)
        (unexpected {.punct .openBrace}) b o fun _ _ _ => False := .unexpected
    exact .bind fails fun _ _ _ _ _ h => h.elim
  have open_brace : B.left.tag k = .punct .openBrace := by simpa using brace
  refine .bind (.openBrace open_brace) fun g g' l _ inside hg => ?_
  have free : B.Free (B.ceil (k + 1)) := (B.opened k hg.1.lt hg.1.opener).1
  refine .bind (.skipBreaks fun h => free.mono h.below) fun _ _ l _ _ _ => ?_
  refine .bind (.within (.collectWhile (fun _ _ => .isInBraces fun h => free.mono h.below)
    fun i _ _ _ => (arm_twin hi (by omega) free).forward (arm_yields hi.yields) ?_))
    fun as as' j _ _ has => ?_
  · rintro a j ⟨k, arm, hj⟩
    have := arm.lt
    have := B.left.lt_next false k
    have := B.left.le_past (B.left.next false k)
    have := B.left.le_past k
    omega
  · refine .bind (.closeGroup hg.1) fun _ _ _ _ _ _ => .newExpr fun m m' => Tree.bare_node rfl ?_ _ _
    simp only [Tree.bareChildren, show _ = _ from hx, Arm.bare_children has]

omit [inner.Steady] in
theorem returned_twin (hp : lo ≤ p + 1) (h : B.left.tag p = .keyword .returnKw) :
    Twin B e c b o p inner.returned inner'.returned b o Like := by
  refine .bind (.take (by rw [h]; decide)) fun _ _ q hq _ hstart => ?_
  obtain rfl := hstart.2
  have lt := B.left.lt_next b p
  refine .looks (.isNextIn (by decide)) (.looks .isLambdaNext (.ite (fun _ => ?_) fun _ => ?_))
  · refine .bind (hi.expr (by omega)) fun v v' k _ _ hv => .newExpr fun m m' => ?_
    exact Tree.bare_node rfl (Expr.bare_optional "value" (.some hv)) _ _
  · exact .newExpr fun m m' => rfl

theorem lambda_twin (hp : lo ≤ p + 1) (h : opensLambda (B.left.kind p) = true) :
    Twin B e c b o p inner.lambda inner'.lambda b o Like := by
  have no_stop : stopTags.contains (B.left.tag p) = false := by
    rw [← B.left.tag_kind]
    rcases opensLambda_cases h with h | h <;> rw [h] <;> decide
  refine .bind (.take no_stop) fun bar bar' q _ _ hbar => ?_
  obtain ⟨kind, rfl⟩ := hbar
  have lt := B.left.lt_next b p
  rw [show bar'.tag = bar.tag from congrArg TokenKind.tag kind.symm]
  have built {ps ps' : List Param} {k : Nat} (hk : lo ≤ k) (h : alike ps ps') :
      Twin B e c b o k (do
        let body ← within (fun c => c.without .lambdaParams) inner.expr
        newExpr (bar.span.merge body.span) fun m => .lambda m ps body) (do
        let body ← within (fun c => c.without .lambdaParams) inner'.expr
        newExpr (bar'.span.merge body.span) fun m => .lambda m ps' body) b o Like := by
    refine .bind (.within (hi.expr hk)) fun v v' k _ _ hv => .newExpr fun m m' => ?_
    refine Tree.bare_node rfl ?_ _ _
    simp only [Tree.bareChildren_append, Tree.bareChildren, Param.bare_children h, show _ = _ from hv]
  refine .ite (fun _ => ?_) fun _ => .bind (.pure List.Forall₂.nil) fun _ _ _ _ _ h => built (by omega) h
  have params : Twin B e c b o (B.left.next b p) inner.lambdaParams inner'.lambdaParams b o Like := by
    refine .bind (.within (.commaList (.inl (by decide)) fun k hk _ =>
      (param_twin hi (by omega)).forward (param_yields hi.yields) fun _ _ h => h.lt)) fun ps ps' k _ _ hps => ?_
    exact .bind (.expect (by decide)) fun _ _ _ _ _ _ => .pure hps.1
  exact .bind params fun _ _ _ _ _ h => built (by omega) h

omit hi [inner.Steady] in
theorem reference_twin : Twin B e c b o p Inner.reference Inner.reference b o Like := by
  refine .bind path_twin fun x x' q _ _ hx => .newExpr fun m m' => ?_
  obtain ⟨y, ys⟩ := x
  obtain ⟨y', ys'⟩ := x'
  have hx' : List.Forall₂ alike (y :: ys) (y' :: ys') := hx
  cases hx' with
  | cons hy hys =>
    cases hys with
    | nil => exact Tree.bare_node rfl (by simp only [Tree.bareChildren, Tree.bare, show _ = _ from hy]) _ _
    | cons => exact Tree.bare_node rfl (by simp only [Tree.bareChildren, Path.bare_tree hx]) _ _

theorem primary_twin (hp : lo ≤ p + 1) : Twin B e c b o p inner.primary inner'.primary b o Like := by
  refine .intro fun inside => .look Runs.nextToken Runs.nextToken ?_
  have same : (B.right.input.tokens.get (p + B.shift)).kind.literal?
      = (B.left.input.tokens.get p).kind.literal? :=
    Bridge.kind_congr inside.le_wall TokenKind.literal? rfl
  have tags := Bridge.tag_cases inside.le_wall
  rw [same, B.left.closed, B.right.closed]
  unfold Setting.tag at tags
  cases hv : (B.left.input.tokens.get p).kind.literal? with
  | some value =>
    have tag := Setting.tag_of_literal hv
    refine .bind (.take (by rcases tag with h | h | h <;> rw [h] <;> decide)) fun _ _ _ _ _ _ => ?_
    exact .newExpr fun m m' => Tree.bare_node rfl (Literal.bare_children ..) _ _
  | none =>
    have other : Twin B e c b o p
        (do if ← Inner.isLambdaNext then inner.lambda else absent .expression)
        (do if ← Inner.isLambdaNext then inner'.lambda else absent .expression) b o Like :=
      .looks .isLambdaNext (.ite (fun h => lambda_twin hi hp h) fun _ => .absent)
    dsimp only
    generalize hl : B.left.input.tokens.tag p = t at *
    generalize B.right.input.tokens.tag (p + B.shift) = t' at *
    rcases tags with ⟨-, rfl⟩ | ⟨rfl | rfl, rfl | rfl⟩
    · split
      · exact reference_twin
      · exact reference_twin
      · exact tuple_twin hi hp hl
      · exact array_twin hi hp hl
      · exact conditional_twin hi hp hl
      · exact matchOn_twin hi hp hl
      · exact returned_twin hi hp hl
      · exact other
    all_goals exact other

/-! ## Applications and operators -/

theorem application_twin (hp : lo ≤ p + 1) :
    Twin B e c b o p inner.application inner'.application b o Like := by
  refine .bind ((primary_twin hi hp).forward (primary_yields hi.yields) fun _ _ h => h.lt)
    fun x x' k _ _ hx => ?_
  refine .bind (.collectWhile (fun _ _ => .isNextIn (by decide)) fun q hq _ _ =>
    (primary_twin hi (by omega)).forward (primary_yields hi.yields) fun _ _ h => h.lt)
    fun as as' l _ _ has => ?_
  rw [isEmpty_of_alike has]
  refine .ite (fun _ => .pure hx.1) fun _ => ?_
  refine .look Runs.context Runs.context (.ite (fun _ => ?_) fun _ => ?_)
  · refine .look Runs.previousSpan Runs.previousSpan (.newExpr fun m m' => Tree.bare_node rfl ?_ _ _)
    simp only [Tree.bareChildren, show _ = _ from hx.1, Expr.bare_children "argument" has]
  · have block : Twin B e c b o l inner.trailingBlock inner'.trailingBlock b o Like := by
      refine .look Runs.context Runs.context (.looks (.isNext Tag.noConfusion Tag.noConfusion) ?_)
      exact .ite (fun _ => .optional (hi.block (by omega))) fun _ => .pure .none
    refine .bind block fun t t' q _ _ ht => .look Runs.previousSpan Runs.previousSpan ?_
    refine .newExpr fun m m' => Tree.bare_node rfl ?_ _ _
    simp only [Tree.bareChildren, Tree.bareChildren_append, show _ = _ from hx.1,
      Expr.bare_children "argument" has, Block.bare_optional "block" ht]

omit hi [inner.Steady] in
theorem operator_twin : Twin B e c b o p Inner.operator? Inner.operator? b o fun op op' q =>
    alike op op' ∧ q = p ∧ (op.isSome = true → runOnTags.contains (B.left.tag p) = true) := by
  refine .intro fun inside => .look Runs.nextToken Runs.nextToken ?_
  have none : Twin B e c b o p (pure none) (pure none) b o fun (op op' : Option Operator) q =>
      alike op op' ∧ q = p ∧ (op.isSome = true → runOnTags.contains (B.left.tag p) = true) :=
    .pure ⟨.none, rfl, fun some => absurd some Bool.false_ne_true⟩
  have kinds := Bridge.kind_cases inside.le_wall
  have tag := B.left.tag_kind p
  unfold Setting.kind at kinds tag
  generalize (B.left.input.tokens.get p).kind = k at *
  generalize (B.right.input.tokens.get (p + B.shift)).kind = k' at *
  rcases kinds with ⟨-, rfl⟩ | ⟨rfl | rfl, rfl | rfl⟩
  · split
    · have runs_on : runOnTags.contains .operator = true := by decide
      exact .pure ⟨.some rfl, rfl, fun _ => tag ▸ runs_on⟩
    · refine .look Runs.context Runs.context (.ite (fun _ => none) fun _ => ?_)
      have record (S : Setting) (i : Nat) : Runs S (Inner.enterName Reserved.pipe.text) c b i Reserved.pipe.text b i :=
        fun s hs => ⟨_, rfl, ⟨hs.context, hs.skips, hs.position, hs.previous, hs.inside⟩⟩
      have runs_on : runOnTags.contains (.reserved .pipe) = true := by decide
      exact .look (record _ _) (record _ _) (.pure ⟨.some rfl, rfl, fun _ => tag ▸ runs_on⟩)
    · exact none
  all_goals exact none

theorem binary_twin (hp : lo ≤ p + 1) : Twin B e c b o p inner.binary inner'.binary b o Like := by
  refine .bind (application_twin hi hp) fun x x' k hk _ hx => ?_
  refine .repeated (I := Like) (fun l l' q hq inside hl => ?_) hx
  refine .bind operator_twin fun op op' q' _ _ hop => ?_
  obtain ⟨hop, rfl, runOn⟩ := hop
  cases hop with
  | none => exact .pure hl
  | @some op op' hop =>
    have runs_on := runOn rfl
    have lt := B.left.lt_next b q'
    refine .bind (.take (Bridge.not_stop runs_on (by decide))) fun _ _ j hj _ h => ?_
    obtain rfl := h.2
    refine .bind (.skipBreaks fun _ => inside.free_next runs_on) fun _ _ j hj _ _ => ?_
    refine .bind (application_twin hi (by omega)) fun r r' i hi _ hr => ?_
    refine .bind (.newExpr fun m m' => Tree.bare_node rfl ?_ _ _) fun f f' n hn _ hf =>
      .pure ⟨hf, by omega⟩
    simp only [Tree.bareChildren, Tree.bare, show _ = _ from hl, show _ = _ from hr,
      show _ = _ from hop]

/-! ## Arrows and types -/

omit [inner.Steady] in
theorem codomain_twin (hp : lo ≤ p) (hf : B.Inside e o b p → B.Free p) :
    Twin B e c b o p inner.codomain inner'.codomain b o Like :=
  .bind (.skipBreaks hf) fun _ _ _ _ _ _ => hi.expr (by omega)

theorem binder_twin (hp : lo ≤ p + 1)
    (h : B.left.tag p = .punct .openParen ∨ B.left.tag p = .punct .openBracket) (isSigma : Bool) :
    Twin B e c b o p (inner.binder isSigma) (inner'.binder isSigma) b o Like := by
  refine .bind (paramGroup_twin hi hp h false) fun ps ps' q hq inside hps => ?_
  refine .bind (.expect (by decide)) fun _ _ k hk _ harrow => ?_
  obtain ⟨arrow, rfl⟩ := harrow
  have lt := B.left.lt_next b q
  refine .bind (codomain_twin hi (by omega) fun _ => inside.free_next (by rw [arrow]; decide))
    fun x x' _ _ _ hx => .newExpr fun m m' => ?_
  cases isSigma <;> refine Tree.bare_node rfl ?_ _ _ <;>
    simp only [Tree.bareChildren_append, Tree.bareChildren, Param.bare_children hps.1, show _ = _ from hx]

theorem arrowOrAscription_twin (hp : lo ≤ p + 1) :
    Twin B e c b o p inner.arrowOrAscription inner'.arrowOrAscription b o Like := by
  refine .bind ((binary_twin hi hp).forward (binary_yields hi.yields) fun _ _ h => h.1.lt)
    fun l l' q _ inside hl => ?_
  refine .bind (.accept (by decide)) fun arrow arrow' k hk _ h => ?_
  obtain ⟨rfl, there⟩ := h
  refine .ite (fun isArrow => ?_) fun _ => ?_
  · rw [if_pos isArrow] at there
    obtain ⟨tag, rfl⟩ := there
    refine .bind (codomain_twin hi (by omega) fun _ => inside.free_next (by rw [tag]; decide))
      fun x x' _ _ _ hx => .newExpr fun m m' => Tree.bare_node rfl ?_ _ _
    simp only [Tree.bareChildren, show _ = _ from hl.1, show _ = _ from hx]
  · refine .bind (.accept (by decide)) fun colon colon' j hj _ h => ?_
    obtain ⟨rfl, -⟩ := h
    refine .ite (fun _ => ?_) fun _ => .pure hl.1
    refine .bind (type_twin hi (by omega)) fun t t' _ _ _ ht => .newExpr fun m m' => ?_
    refine Tree.bare_node rfl ?_ _ _
    simp only [Tree.bareChildren, show _ = _ from hl.1, show _ = _ from ht]

theorem exprOf_twin (hp : lo ≤ p + 1) : Twin B e c b o p inner.exprOf inner'.exprOf b o Like := by
  refine .looks .isBinderNext (.ite (fun h => ?_) fun _ => arrowOrAscription_twin hi hp)
  refine .looks (.isNext Tag.noConfusion Tag.noConfusion) ?_
  exact binder_twin hi hp (Setting.tag_of_binds h) _

/-! ## Statements and blocks -/

omit [inner.Steady] in
theorem letIn_twin (hp : lo ≤ p) (h : B.left.tag p = .keyword .letKw) :
    Twin B e c b o p inner.letIn inner'.letIn b o Like := by
  refine .bind (.take (by rw [h]; decide)) fun _ _ q hq _ _ => ?_
  refine .bind pattern_twin fun x x' k hk _ hx => ?_
  refine .bind (.expect (by decide)) fun _ _ l hl _ _ => ?_
  refine .bind (hi.expr (by omega)) fun v v' _ _ _ hv => .pure fun m m' => Tree.bare_node rfl ?_ _ _
  simp only [Tree.bareChildren, show _ = _ from hx, show _ = _ from hv]

omit [inner.Steady] in
theorem conditionalStmt_twin (hp : lo ≤ p) (h : B.left.tag p = .keyword .ifKw) :
    Twin B e c b o p inner.conditionalStmt inner'.conditionalStmt b o Like := by
  refine .bind (.take (by rw [h]; decide)) fun _ _ q hq _ _ => ?_
  refine .bind (head_twin hi (by omega)) fun x x' k hk _ hx => ?_
  refine .bind (thenBody_twin hi (by omega)) fun t t' l hl _ ht => ?_
  refine .bind (elseBody_twin hi (by omega)) fun f f' _ _ _ hf => .pure fun m m' => ?_
  refine Tree.bare_node rfl ?_ _ _
  simp only [Tree.bareChildren, show _ = _ from hx, show _ = _ from ht, Body.bare_optional "else" hf]

omit [inner.Steady] in
theorem ask_twin (hp : lo ≤ p) : Twin B e c b o p inner.ask inner'.ask b o Like := by
  refine .bind pattern_twin fun x x' k hk inside hx => ?_
  refine .bind (.expect (by decide)) fun _ _ l hl _ harrow => ?_
  obtain ⟨arrow, rfl⟩ := harrow
  refine .bind (.skipBreaks fun _ => inside.free_next (by rw [arrow]; decide)) fun _ _ l hl _ _ => ?_
  refine .bind (hi.expr (by omega)) fun v v' _ _ _ hv => .pure fun m m' => Tree.bare_node rfl ?_ _ _
  simp only [Tree.bareChildren, show _ = _ from hx, show _ = _ from hv]

omit [inner.Steady] in
theorem stmtForm_twin (hp : lo ≤ p) : Twin B e c b o p inner.stmtForm inner'.stmtForm b o Like := by
  refine .intro fun inside => .look Runs.nextTag Runs.nextTag ?_
  have tags := Bridge.tag_cases inside.le_wall
  have other : Twin B e c b o p (do
      if ← isAhead (.reserved .leftArrow) then inner.ask
      else
        let value ← inner.expr
        return fun m => .expr m value) (do
      if ← isAhead (.reserved .leftArrow) then inner'.ask
      else
        let value ← inner'.expr
        return fun m => .expr m value) b o Like := by
    refine .looks .isAhead (.ite (fun _ => ask_twin hi hp) fun _ => ?_)
    refine .bind (hi.expr hp) fun v v' _ _ _ hv => .pure fun m m' => Tree.bare_node rfl ?_ _ _
    simp only [Tree.bareChildren, show _ = _ from hv]
  generalize hl : B.left.tag p = t at *
  generalize B.right.tag (p + B.shift) = t' at *
  rcases tags with ⟨-, rfl⟩ | ⟨rfl | rfl, rfl | rfl⟩
  · split
    · exact .inConstruct (letIn_twin hi hp hl)
    · exact conditionalStmt_twin hi hp hl
    · exact other
  all_goals exact other

omit [inner.Steady] in
theorem stmt_twin_of (hp : lo ≤ p) : Twin B e c b o p inner.stmt inner'.stmt b o Like := by
  refine .look Runs.nextSpan Runs.nextSpan (.bind (stmtForm_twin hi hp) fun f f' _ _ _ hf => ?_)
  exact .look Runs.previousSpan Runs.previousSpan (.newStmt hf)

omit [inner.Steady] in
theorem wholeStmt_twin (hp : lo ≤ p) : Twin B e c b o p inner.wholeStmt inner'.wholeStmt b o Like := by
  refine .bind (stmt_twin_of hi hp) fun t t' _ _ _ ht => .looks (.isNextIn (by decide)) ?_
  exact .ite (fun _ => .pure ht) fun _ => .unexpected

theorem stmtOrError_twin [inner'.Steady] (hp : lo ≤ p) (hf : B.Free (B.ceil o))
    (ho : ∃ g < B.wall, o = g + 1 ∧ B.left.tag g = .punct .openBrace)
    (more : (!decide (B.left.tag p = .punct .closeBrace) && !decide (B.left.tag p = .eof)) = true) :
    Twin B e c false o p inner.stmtOrError inner'.stmtOrError false o fun t t' q =>
      alike t t' ∧ p < q := by
  refine .look Runs.nextSpan Runs.nextSpan ?_
  have line : Twin B e c false o p
      (orElse inner.wholeStmt fun error => do
        newStmt (← recover error (B.left.span p) false stmtBoundary) fun m => .error m)
      (orElse inner'.wholeStmt fun error => do
        newStmt (← recover error (B.right.span (p + B.shift)) false stmtBoundary) fun m => .error m)
      false o fun t t' q => alike t t' ∧ (stmtBoundary.contains (B.left.tag p) = false → p < q) := by
    have whole := (wholeStmt_twin hi hp (e := o) (c := c) (b := false) (o := o)).forward
      (wholeStmt_yields hi.yields) fun _ _ h => h.1.lt
    refine .recovered (whole.mono fun _ _ _ _ h => ⟨h.1, fun _ => h.2⟩) (.inr ⟨rfl, ho⟩)
      fun q span span' _ lt => ?_
    have built : Twin B e c false o q (newStmt span fun m => .error m)
        (newStmt span' fun m => .error m) false o Like := .newStmt fun m m' => rfl
    refine built.mono fun t t' j hj ht => ⟨ht, fun outside => Nat.lt_of_lt_of_le (lt ?_ outside) hj⟩
    intro he
    simp [he] at more
  refine .bind line fun t t' q hq _ ht => ?_
  refine .bind (.skipBreaks fun h => hf.mono h.below) fun _ _ j _ _ hj => .pure ⟨ht.1, ?_⟩
  obtain rfl := hj
  have le := B.left.le_past q
  cases boundary : stmtBoundary.contains (B.left.tag p) with
  | false => exact Nat.lt_of_lt_of_le (ht.2 boundary) le
  | true =>
    -- a line break stands here, which is passed over if the statement does not
    have lineBreak : B.left.tag p = .lineBreak := by
      revert more boundary
      generalize B.left.tag p = t
      revert t
      decide
    rcases Nat.lt_or_eq_of_le hq with lt | rfl
    · exact Nat.lt_of_lt_of_le lt le
    · rw [Setting.past_of_lineBreak lineBreak]
      exact B.left.le_past (p + 1)

theorem blockOf_twin [inner'.Steady] (hp : lo ≤ p + 1) :
    Twin B e c b o p inner.blockOf inner'.blockOf b o Like := by
  refine .looks (.isNotNext Tag.noConfusion Tag.noConfusion) (.ite (fun _ => ?_) fun brace => ?_)
  · have fails : Twin B e c b o p (unexpected {.punct .openBrace} : Reader Unit)
        (unexpected {.punct .openBrace}) b o fun _ _ _ => False := .unexpected
    exact .bind fails fun _ _ _ _ _ h => h.elim
  have open_brace : B.left.tag p = .punct .openBrace := by simpa using brace
  refine .bind (.openBrace open_brace) fun g g' q _ _ hg => ?_
  have free : B.Free (B.ceil (p + 1)) := (B.opened p hg.1.lt hg.1.opener).1
  refine .bind (.skipBreaks fun h => free.mono h.below) fun _ _ q _ inside _ => ?_
  refine .bind (.within (.collectWhile (fun _ _ => .isInBraces fun h => free.mono h.below)
    fun k hk _ more => stmtOrError_twin hi (by omega) free ⟨p, hg.1.lt, rfl, open_brace⟩ more))
    fun ss ss' k _ _ hss => ?_
  refine .bind (.closeGroup hg.1) fun _ _ _ _ _ _ => .pure ?_
  exact Tree.bare_node rfl (Stmt.bare_children hss) _ _

end

/-! ## The knot -/

theorem innerUpTo_twins (depth depth' : Nat) (h : B.wall < depth + lo) (h' : B.wall < depth' + lo) :
    (innerUpTo depth).Twins B lo (innerUpTo depth') := by
  induction depth generalizing depth' lo with
  | zero =>
    refine ⟨innerUpTo_yields 0, fun hp => ?_, fun hp => ?_⟩ <;>
      exact .intro fun inside => absurd inside.le_wall (by omega)
  | succ depth ih =>
    refine ⟨innerUpTo_yields (depth + 1), fun {e c b o p} hp => ?_, fun {e c b o p} hp => ?_⟩ <;>
      refine .intro fun inside => ?_ <;> have := inside.le_wall
    all_goals
      obtain _ | depth' := depth'
      · omega
      have inside : (innerUpTo depth).Twins B (p + 1) (innerUpTo depth') :=
        ih depth' (by omega) (by omega)
      rw [innerUpTo, innerUpTo]
    · exact exprOf_twin inside (Nat.le_refl _)
    · exact blockOf_twin inside (Nat.le_refl _)

theorem inner_twins : inner.Twins B 0 inner := by
  have := B.left_size
  have := B.right_size
  have twins : (innerUpTo (B.left.input.tokens.size + 1)).Twins B 0
      (innerUpTo (B.right.input.tokens.size + 1)) := innerUpTo_twins _ _ (by omega) (by omega)
  refine ⟨inner_yields, fun _ s s' m => ?_, fun _ s s' m => ?_⟩
  · rw [inner_expr_run, inner_expr_run]
    exact twins.expr (Nat.zero_le _) s s' m
  · rw [inner_block_run, inner_block_run]
    exact twins.block (Nat.zero_le _) s s' m

/-- Expressions are the same on both sides. -/
theorem expr_twin : Twin B e c b o p expr expr b o Like := inner_twins.expr (Nat.zero_le _)

/-- Blocks are the same on both sides. -/
theorem block_twin : Twin B e c b o p block block b o Like := inner_twins.block (Nat.zero_le _)

/-- Statements are the same on both sides. -/
theorem stmt_twin : Twin B e c b o p stmt stmt b o Like := stmt_twin_of inner_twins (Nat.zero_le _)

end Surface.Grammar
