import Surface.Proofs.Grammar.Yields

/-!
# What the readers yield

Every reader yields what the rules derive: a run that succeeds from one position to another has
built a node that a rule derives from the tokens in between.

Results:
* `pattern_yields`, `expr_yields`, `block_yields`, `stmt_yields`: soundness of the readers.
-/

namespace Surface.Grammar

set_option synthInstance.maxSize 400

variable {S : Setting} {c : Context} {b : Bool} {i : Nat}

/-! ## Names and paths -/

theorem ident_yields : Yields S ident c b i b fun x j => S.NameAt i x ∧ j = S.next b i := by
  refine .ran Runs.nextToken ?_
  split
  · next name hn =>
    have tag : S.tag i ≠ .eof := Setting.ne_eof_of_contains (Setting.tag_of_name hn) (by decide)
    exact .ran (Runs.take tag) (.pure ⟨⟨hn, S.covers_refl _⟩, rfl⟩)
  · exact .absent

theorem segmentsAt_of_items {xs : List Ident} {j : Nat}
    (h : Items (fun i x j => (decide (S.tag i = .reserved .dot)
      && nameTags.contains (S.tag (i + 1))) = true
        ∧ S.NameAt (S.next b i) x ∧ j = S.next b (S.next b i)) i xs j)
    (stop : (decide (S.tag j = .reserved .dot) && nameTags.contains (S.tag (j + 1))) = false) :
    SegmentsAt S b i xs j := by
  induction h with
  | none => exact .stop fun h => by rw [Setting.dotted_iff.2 h] at stop; cases stop
  | more first _ ih =>
    obtain ⟨dotted, name, rfl⟩ := first
    exact .more (Setting.dotted_iff.1 dotted) name (ih stop)

theorem path_yields : Yields S path c b i b (PathAt S b i) := by
  have segment (i : Nat) (h : (decide (S.tag i = .reserved .dot)
      && nameTags.contains (S.tag (i + 1))) = true) :
      Yields S (do
        let _ ← take
        ident) c b i b fun x j => S.NameAt (S.next b i) x ∧ j = S.next b (S.next b i) := by
    have dot := (Setting.dotted_iff.1 h).1
    exact .ran (Runs.take (by rw [dot]; exact Tag.noConfusion)) ident_yields
  refine .bind ident_yields fun x k h => ?_
  obtain ⟨hx, rfl⟩ := h
  have tail := Yields.collectWhile (fun _ => Runs.isSegmentNext) segment (fun i x j h => by
    have := S.lt_next b i
    have := S.lt_next b (S.next b i)
    omega) (S.next b i)
  exact .bind tail fun xs j h => .pure ⟨hx, segmentsAt_of_items h.1 h.2⟩

/-! ## Patterns -/

namespace Runs

theorem openParen (h : S.tag i = .punct .openParen) :
    Runs S Grammar.openGroup c b i ⟨.closeParen, S.span i, b⟩ true (S.next true i) := by
  have := Runs.openGroup (S := S) (c := c) (b := b) (i := i) (by rw [h]; exact Tag.noConfusion)
  rwa [if_neg (by rw [h]; decide)] at this

theorem openBracket (h : S.tag i = .punct .openBracket) :
    Runs S Grammar.openGroup c b i ⟨.closeBracket, S.span i, b⟩ true (S.next true i) := by
  have := Runs.openGroup (S := S) (c := c) (b := b) (i := i) (by rw [h]; exact Tag.noConfusion)
  rwa [if_pos h] at this

/-- A parenthesis or bracket and what closes it. -/
theorem openOf {p q : Punct} (h : S.tag i = .punct p)
    (hq : p = .openParen ∧ q = .closeParen ∨ p = .openBracket ∧ q = .closeBracket) :
    Runs S Grammar.openGroup c b i ⟨q, S.span i, b⟩ true (S.next true i) := by
  rcases hq with ⟨rfl, rfl⟩ | ⟨rfl, rfl⟩
  · exact openParen h
  · exact openBracket h

end Runs

theorem atomicPatternOf_yields {inner : Reader Pattern} [Steady inner]
    (hinner : ∀ c b i, Yields S inner c b i b (PatternAt S b i)) :
    Yields S (atomicPatternOf inner) c b i b (AtomAt S b i) := by
  refine .ran Runs.nextToken ?_
  split
  · next v hv =>
    exact .ran (Runs.take (Setting.ne_eof_of_literal hv))
      (.newPattern fun _ => .literal hv (S.covers_refl _))
  · split
    · exact .bind path_yields fun p j hp => .newPattern fun _ => .path hp (S.covers_refl _)
    · exact .bind path_yields fun p j hp => .newPattern fun _ => .path hp (S.covers_refl _)
    · next tag =>
      rw [S.closed] at tag
      exact .ran (Runs.take (by rw [Setting.tag, tag]; exact Tag.noConfusion))
        (.newPattern fun _ => .rest tag (S.covers_refl _))
    · next tag =>
      rw [S.closed] at tag
      refine .ran (Runs.openParen tag) (.bind (.within (hinner _ _ _)) fun p k hp => ?_)
      refine .bind (.closeGroup (by decide)) fun span j hj => .pure ?_
      obtain ⟨close, -, rfl⟩ := hj
      exact .group tag hp close
    · exact .absent

theorem patternArgsAt_of_items {ps : List Pattern} {j : Nat}
    (h : Items (fun i p j => patternTags.contains (S.tag i) = true ∧ AtomAt S b i p j) i ps j)
    (stop : patternTags.contains (S.tag j) = false) : PatternArgsAt S b i ps j := by
  induction h with
  | none => exact .stop stop
  | more first _ ih => exact .more first.2 (ih stop)

theorem patternOf_yields {inner : Reader Pattern} [Steady inner]
    (hinner : ∀ c b i, Yields S inner c b i b (PatternAt S b i)) :
    Yields S (patternOf inner) c b i b (PatternAt S b i) := by
  refine .within (.ran Runs.isNameNext (.ite (fun hn => ?_) fun hn => ?_))
  · refine .bind path_yields fun p k hp => ?_
    refine .bind (.collectWhile (fun _ => Runs.isNextIn) (fun _ _ => atomicPatternOf_yields hinner)
      (fun _ _ _ h => h.lt) k) fun ps j h => ?_
    exact .ran Runs.previousSpan (.newPattern fun _ =>
      .cons hp (patternArgsAt_of_items h.1 h.2) (S.covers_refl _))
  · exact (atomicPatternOf_yields hinner).mono fun p j hp => .atom (by simpa using hn) hp

theorem patternUpTo_yields (depth : Nat) (c : Context) (b : Bool) (i : Nat) :
    Yields S (patternUpTo depth) c b i b (PatternAt S b i) := by
  induction depth generalizing c b i with
  | zero => exact .absent
  | succ depth ih => exact patternOf_yields ih

theorem pattern_yields : Yields S pattern c b i b (PatternAt S b i) := by
  intro s p s' hs h
  unfold pattern at h
  exact patternUpTo_yields (S.input.tokens.size + 1) c b i s p s' hs h

theorem atomicPattern_yields : Yields S atomicPattern c b i b (AtomAt S b i) :=
  atomicPatternOf_yields fun _ _ _ => pattern_yields

/-! ## Expressions and blocks -/

/-- Readers of expressions and blocks that yield what the rules derive. -/
structure Inner.Yields (S : Setting) (inner : Inner) : Prop where
  expr : ∀ c b i, Grammar.Yields S inner.expr c b i b (ExprAt S c b i)
  block : ∀ c b i, Grammar.Yields S inner.block c b i b (BlockAt S b i)

theorem exprsAt_of_listed {t : Tag} {es : List Expr} {l : Bool} {j : Nat}
    (h : Listed S t b (ExprAt S c b) i es l j) : ExprsAt S t c b i es l j := by
  induction h with
  | none h => exact .none h
  | last h tag ne => exact .last h tag ne
  | more h tag _ ih => exact .more h tag ih

theorem paramsAt_of_listed {t : Tag} {ps : List Param} {l : Bool} {j : Nat}
    (h : Listed S t b (ParamAt S c b) i ps l j) : ParamsAt S t c b i ps l j := by
  induction h with
  | none h => exact .none h
  | last h tag ne => exact .last h tag ne
  | more h tag _ ih => exact .more h tag ih

theorem argsAt_of_items {es : List Expr} {j : Nat}
    (h : Items (fun i e j => Inner.argumentTags.contains (S.tag i) = true ∧ PrimaryAt S c b i e j)
      i es j) (stop : Inner.argumentTags.contains (S.tag j) = false) : ArgsAt S c b i es j := by
  induction h with
  | none => exact .stop stop
  | more first _ ih => exact .more first.1 first.2 (ih stop)

theorem armsAt_of_items {as : List Arm} {j : Nat}
    (h : Items (fun i a j => (!decide (S.tag i = .punct .closeBrace) && !decide (S.tag i = .eof))
      = true ∧ ∃ k, ArmAt S i a k ∧ (S.tag k = .punct .comma ∧ j = S.past (S.next false k)
        ∨ S.tag k = .lineBreak ∧ j = S.past k ∨ S.tag k = .punct .closeBrace ∧ j = k)) i as j) :
    ArmsAt S i as j := by
  induction h with
  | none => exact .none
  | more first rest ih =>
    obtain ⟨-, k, arm, ⟨comma, rfl⟩ | ⟨lineBreak, rfl⟩ | ⟨brace, rfl⟩⟩ := first
    · exact .comma arm comma ih
    · exact .broken arm lineBreak ih
    · cases rest with
      | none => exact .last arm brace
      | more second _ => exact absurd second.1 (by simp [brace])

theorem Steps.recovered {s t : State} (h : Steps S.input s t) (error : SyntaxError)
    (boundary : TagSet) (b' : Bool) (hs : Standing S c b i s) :
    Standing S c b' ((skipping b' t.cursor).resume S.input.tokens boundary).position
      (t.recovered error ((skipping b' t.cursor).resume S.input.tokens boundary)) := by
  refine ⟨h.context.trans hs.context, ?_, rfl, ?_, ?_⟩
  · exact skipsBreaks_resumeAt _ boundary 0 _
  · have coherent : Coherent S.input s.cursor := by
      unfold Coherent
      rw [hs.previous, hs.position]
      rfl
    exact coherent_resumeAt (c := skipping b' t.cursor) boundary 0 (h.coherent coherent)
  · exact resumeAt_inside (c := skipping b' t.cursor) boundary 0
      (h.inside (by rw [hs.position]; exact hs.inside))

theorem Steps.lt_resume {s t : State} (h : Steps S.input s t) (boundary : TagSet) (b' : Bool)
    (hs : Standing S c b i s) (he : S.tag i ≠ .eof) (hb : boundary.contains (S.tag i) = false) :
    i < ((skipping b' t.cursor).resume S.input.tokens boundary).position := by
  rw [← hs.tag_eq] at he hb
  rw [← hs.position]
  exact Grammar.lt_resume h b' he hb

/-- A statement of a block, or the error statement in its place, without the line breaks
behind. -/
def LineAt (S : Setting) (i : Nat) (s : Stmt) (k : Nat) : Prop :=
  StmtAt S .none false i s k ∧ stmtBoundary.contains (S.tag k) = true
    ∨ S.flawed ∧ i ≤ k ∧ ∃ m, s = .error m ∧ S.covers (skippedFrom (S.span i) (S.last k)) m.span

theorem StmtsAt.past_eq {i : Nat} {ss : List Stmt} {j : Nat} :
    StmtsAt S i ss j → S.past i = i → S.past j = j
  | .none, hi => hi
  | .more _ _ h, _ => h.past_eq (S.past_past _)
  | .error _ _ _ h, _ => h.past_eq (S.past_past _)

theorem stmtsAt_of_items {ss : List Stmt} {j : Nat}
    (h : Items (fun i s j => ∃ k, LineAt S i s k ∧ j = S.past k) i ss j) :
    StmtsAt S i ss j := by
  induction h with
  | none => exact .none
  | more first _ ih =>
    obtain ⟨k, ⟨hs, boundary⟩ | ⟨flawed, le, m, rfl, cover⟩, rfl⟩ := first
    · exact .more hs boundary ih
    · exact .error flawed le cover ih

section

variable {inner : Inner} [inner.Steady] (hi : inner.Yields S)

include hi

omit [inner.Steady] in
theorem type_yields : Yields S inner.type c b i b (ExprAt S (c.union .type) b i) :=
  .within (hi.expr _ b i)

omit [inner.Steady] in
theorem head_yields : Yields S inner.head c b i b (ExprAt S (c.nested.union .head) b i) :=
  .within (hi.expr _ b i)

theorem param_yields : Yields S inner.param c b i b (ParamAt S c b i) := by
  refine .bind pattern_yields fun p k hp => ?_
  by_cases colon : S.tag k = .punct .colon
  · refine .ran (Runs.acceptNext colon Tag.noConfusion) (.bind (.map (type_yields hi)) ?_)
    rintro _ j ⟨t, rfl, ht⟩
    exact .ran Runs.previousSpan (.pure (.typed hp colon ht (S.covers_refl _)))
  · refine .ran (Runs.acceptNone colon) (.ran (fun s hs => ⟨s, rfl, hs⟩) ?_)
    exact .ran Runs.previousSpan (.pure (.untyped hp colon (S.covers_refl _)))

theorem params_yield {t : Tag} :
    Yields S (commaList t inner.param) c b i b fun r j => ParamsAt S t c b i r.1 r.2 j :=
  (Yields.commaList (fun _ => param_yields hi) (fun _ _ _ h => h.lt) i).mono
    fun _ _ h => paramsAt_of_listed h

theorem exprs_yield {t : Tag} :
    Yields S (commaList t inner.expr) c b i b fun r j => ExprsAt S t c b i r.1 r.2 j :=
  (Yields.commaList (hi.expr c b) (fun _ _ _ h => h.lt) i).mono fun _ _ h => exprsAt_of_listed h

/-- A group of parameters between two brackets. -/
theorem paramGroup_yields {p q : Punct} (hp : S.tag i = .punct p)
    (hq : p = .openParen ∧ q = .closeParen ∨ p = .openBracket ∧ q = .closeBracket)
    (nonEmpty : Bool) :
    Yields S (inner.paramGroup nonEmpty) c b i b fun r j => ∃ tr k,
      ParamsAt S (.punct q) c.nested true (S.next true i) r.1 tr k ∧ S.tag k = .punct q
        ∧ r.2 = (S.span i).merge (S.span k) ∧ j = S.next b k
        ∧ (nonEmpty = true → S.tag (S.next true i) ≠ .punct q) := by
  have notBrace : q ≠ .closeBrace := by
    rcases hq with ⟨-, rfl⟩ | ⟨-, rfl⟩ <;> decide
  have rest (h : nonEmpty = true → S.tag (S.next true i) ≠ .punct q) : Yields S (do
      let params ← nestedList (.punct q) inner.param
      return (params.1, ← closeGroup ⟨q, S.span i, b⟩) : Reader (List Param × Span)) c true
      (S.next true i) b fun r j => ∃ tr k,
        ParamsAt S (.punct q) c.nested true (S.next true i) r.1 tr k ∧ S.tag k = .punct q
          ∧ r.2 = (S.span i).merge (S.span k) ∧ j = S.next b k
          ∧ (nonEmpty = true → S.tag (S.next true i) ≠ .punct q) := by
    refine .bind (.within (params_yield hi)) fun (ps, tr) k hps => ?_
    refine .bind (.closeGroup notBrace) fun span j hj => .pure ?_
    exact ⟨tr, k, hps, hj.1, hj.2.1, hj.2.2, h⟩
  refine .ran (Runs.openOf hp hq) (.ran Runs.isNext (.ite (fun _ => ?_) fun h => ?_))
  · have fails : Yields S (absent .parameter : Reader Unit) c true (S.next true i) true
        fun _ _ => False := .absent
    exact .bind fails fun _ _ h => h.elim
  · exact rest (by simpa using h)

/-! ## Bodies -/

omit [inner.Steady] in
theorem thenBody_yields : Yields S inner.thenBody c b i b (ThenAt S c b i) := by
  refine .ran Runs.isNext (.ite (fun hb => ?_) fun _ => ?_)
  · exact .bind (hi.block c b i) fun t j h => .pure (.block (by simpa using hb) h)
  · by_cases kw : S.tag i = .keyword .thenKw
    · refine .ran (Runs.acceptNext kw Tag.noConfusion) (.bind (hi.expr c b _) fun e j h => ?_)
      exact .pure (.expr kw h)
    · exact .ran (Runs.acceptNone kw) .unexpected

omit [inner.Steady] in
theorem blockOrExpr_yields : Yields S inner.blockOrExpr c b i b (BodyAt S c b i) := by
  refine .ran Runs.isNext (.ite (fun hb => ?_) fun hb => ?_)
  · exact .bind (hi.block c b i) fun t j h => .pure (.block (by simpa using hb) h)
  · exact .bind (hi.expr c b i) fun e j h => .pure (.expr (by simpa using hb) h)

omit [inner.Steady] in
theorem elseBody_yields : Yields S inner.elseBody c b i b fun
    | some t, j => S.ElseNext i ∧ BodyAt S c b (S.next b (S.past i)) t j
    | none, j => ¬ S.ElseNext i ∧ j = i := by
  refine .ran Runs.isNextPastBreak (.ite (fun he => ?_) fun he => ?_)
  · have else_next := Setting.elseNext_iff.1 he
    refine .ran Runs.skipBreaks (.ran (Runs.take ?_) ?_)
    · rw [else_next.past]
      exact Tag.noConfusion
    · refine (Yields.map (blockOrExpr_yields hi)).mono ?_
      rintro _ j ⟨t, rfl, ht⟩
      exact ⟨else_next, ht⟩
  · exact .pure ⟨fun h => he (Setting.elseNext_iff.2 h), rfl⟩

/-! ## Primaries -/

theorem tuple_yields (h : S.tag i = .punct .openParen) :
    Yields S inner.tuple c b i b (PrimaryAt S c b i) := by
  refine .ran (Runs.openParen h) (.bind (.within (exprs_yield hi)) fun (es, tr) k hes => ?_)
  refine .bind (.closeGroup (by decide)) fun span j hj => .newExpr fun n => ?_
  obtain ⟨close, rfl, rfl⟩ := hj
  exact .tuple h hes close (S.covers_refl _)

theorem array_yields (h : S.tag i = .punct .openBracket) :
    Yields S inner.array c b i b (PrimaryAt S c b i) := by
  refine .ran (Runs.openBracket h) (.bind (.within (exprs_yield hi)) fun (es, tr) k hes => ?_)
  refine .bind (.closeGroup (by decide)) fun span j hj => .newExpr fun n => ?_
  obtain ⟨close, rfl, rfl⟩ := hj
  exact .array h hes close (S.covers_refl _)

theorem conditional_yields (h : S.tag i = .keyword .ifKw) :
    Yields S inner.conditional c b i b (PrimaryAt S c b i) := by
  refine .ran (Runs.take (by rw [h]; exact Tag.noConfusion)) ?_
  refine .bind_of_steady (fun _ => .bind inferInstance fun _ => .bind inferInstance Steady.elseBody)
    (head_yields hi) fun condition k hk => ?_
  refine .bind_of_steady (fun _ => .bind inferInstance Steady.elseBody)
    (thenBody_yields hi) fun t l hl => ?_
  refine .bind_of_steady Steady.elseBody (elseBody_yields hi) fun e j hj => ?_
  cases e with
  | some e => exact .ran Runs.previousSpan (.newExpr fun n =>
      .conditional h hk hl hj.1 hj.2 (S.covers_refl _))
  | none => exact .ran Runs.previousSpan (.fails fun s => ⟨_, s, rfl⟩)

theorem arm_yields : Yields S inner.arm .none false i false fun a j => ∃ k, ArmAt S i a k ∧
    (S.tag k = .punct .comma ∧ j = S.past (S.next false k) ∨ S.tag k = .lineBreak ∧ j = S.past k
      ∨ S.tag k = .punct .closeBrace ∧ j = k) := by
  refine .bind pattern_yields fun p k₁ hp => ?_
  refine .bind (.expect Tag.noConfusion) fun span k₂ harrow => ?_
  obtain ⟨arrow, -, rfl⟩ := harrow
  refine .ran Runs.skipBreaks (.bind (blockOrExpr_yields hi) fun t k ht => ?_)
  have arm : ArmAt S i ⟨p, t, p.span.merge (S.last k)⟩ k := .mk hp arrow ht (S.covers_refl _)
  refine .ran Runs.previousSpan ?_
  by_cases comma : S.tag k = .punct .comma
  · refine .ran (Runs.acceptNext comma Tag.noConfusion) (.ran Runs.isNext ?_)
    refine .ran Runs.skipBreaks (.ran Runs.isNotNext (.ite (fun h => ?_) fun _ => ?_))
    · simp at h
    · exact .pure ⟨k, arm, .inl ⟨comma, rfl⟩⟩
  · refine .ran (Runs.acceptNone comma) (.ran Runs.isNext ?_)
    refine .ran Runs.skipBreaks (.ran Runs.isNotNext (.ite (fun h => ?_) fun h => ?_))
    · have fails : Yields S (unexpected {.punct .comma, .punct .closeBrace, .lineBreak} :
          Reader Unit) .none false (S.past k) false fun _ _ => False := .unexpected
      exact .bind fails fun _ _ h => h.elim
    · refine .pure ⟨k, arm, .inr ?_⟩
      by_cases hb : S.tag k = .lineBreak
      · exact .inl ⟨hb, rfl⟩
      · rw [Setting.past_of_ne hb] at h ⊢
        exact .inr ⟨by simpa [hb] using h, rfl⟩

theorem matchOn_yields (h : S.tag i = .keyword .matchKw) :
    Yields S inner.matchOn c b i b (PrimaryAt S c b i) := by
  refine .ran (Runs.take (by rw [h]; exact Tag.noConfusion)) ?_
  refine .bind (head_yields hi) fun scrutinee k hk => ?_
  refine .ran Runs.isNotNext (.ite (fun _ => ?_) fun brace => ?_)
  · have fails : Yields S (unexpected {.punct .openBrace} : Reader Unit) c b k b
        fun _ _ => False := .unexpected
    exact .bind fails fun _ _ h => h.elim
  have open_brace : S.tag k = .punct .openBrace := by simpa using brace
  refine .ran (Runs.openBrace (by rw [open_brace]; exact Tag.noConfusion)) ?_
  refine .ran Runs.skipBreaks ?_
  have arm (i : Nat) := arm_yields (i := i) hi
  have arms := Yields.collectWhile (fun _ => Runs.isInBraces) (fun i _ => arm i) (fun i a j h => by
    obtain ⟨k, arm, ⟨_, rfl⟩ | ⟨_, rfl⟩ | ⟨_, rfl⟩⟩ := h <;> have := arm.lt
    · have := S.lt_next false k
      have := S.le_past (S.next false k)
      omega
    · have := S.le_past k
      omega
    · exact this) (S.past (S.next false k))
  refine .bind (.within arms) fun as l h' => ?_
  refine .bind .closeBrace fun span j hj => .newExpr fun n => ?_
  obtain ⟨close, rfl, rfl⟩ := hj
  -- the loop ends before a brace or the end, so that no line break stands before the brace
  have no_break : S.past l = l := by
    apply Setting.past_of_ne
    intro hb
    have stop := h'.2
    rw [hb] at stop
    cases stop
  rw [no_break] at close ⊢
  exact .matchOn h hk open_brace (armsAt_of_items h'.1) close (S.covers_refl _)

omit [inner.Steady] in
theorem returned_yields (h : S.tag i = .keyword .returnKw) :
    Yields S inner.returned c b i b (PrimaryAt S c b i) := by
  refine .ran (Runs.take (by rw [h]; exact Tag.noConfusion)) ?_
  refine .ran Runs.isNextIn (.ran Runs.isLambdaNext (.ite (fun hv => ?_) fun hv => ?_))
  · refine .bind (hi.expr c b _) fun v j hj => .newExpr fun n => ?_
    exact .returns h (by simpa [Setting.StartsExpr] using hv) hj (S.covers_refl _)
  · exact .newExpr fun n =>
      .returnsNothing h (by simpa [Setting.StartsExpr] using hv) (S.covers_refl _)

theorem lambda_yields (h : opensLambda (S.kind i) = true) :
    Yields S inner.lambda c b i b (PrimaryAt S c b i) := by
  refine .ran (Runs.take (Setting.ne_eof_of_opensLambda h)) (.ite (fun hk => ?_) fun hne => ?_)
  · have params : Yields S inner.lambdaParams c b (S.next b i) b fun ps j => ∃ tr k,
        ParamsAt S (.reserved .pipe) (c.union .lambdaParams) b (S.next b i) ps tr k
          ∧ S.tag k = .reserved .pipe ∧ j = S.next b k := by
      refine .bind (.within (params_yield hi)) fun (ps, tr) k hps => ?_
      refine .bind (.expect Tag.noConfusion) fun span j hj => .pure ?_
      exact ⟨tr, k, hps, hj.1, hj.2.2⟩
    refine .bind params fun ps j hps => ?_
    obtain ⟨tr, k, hps, close, rfl⟩ := hps
    refine .bind (.within (hi.expr _ _ _)) fun e j he => .newExpr fun n => ?_
    exact .lambda (TokenKind.tag_eq_reserved.1 hk) hps close he (S.covers_refl _)
  · have hk : S.kind i = .operator "||" := 
      (opensLambda_cases h).resolve_left fun bar => hne (TokenKind.tag_eq_reserved.2 bar)
    refine .ran (fun s hs => ⟨s, rfl, hs⟩) ?_
    refine .bind (.within (hi.expr _ _ _)) fun e j he => .newExpr fun n => ?_
    exact .thunk hk he (S.covers_refl _)

omit hi in
theorem reference_yields : Yields S Inner.reference c b i b (PrimaryAt S c b i) := by
  refine .bind path_yields fun p j hp => .newExpr fun n => ?_
  obtain ⟨x, _ | ⟨y, ys⟩⟩ := p
  · exact .name hp (S.covers_refl _)
  · exact .path hp (S.covers_refl _)

theorem primary_yields : Yields S inner.primary c b i b (PrimaryAt S c b i) := by
  refine .ran Runs.nextToken ?_
  split
  · next v hv =>
    exact .ran (Runs.take (Setting.ne_eof_of_literal hv))
      (.newExpr fun _ => .literal hv (S.covers_refl _))
  · split
    · exact reference_yields
    · exact reference_yields
    · next tag => exact tuple_yields hi (by rwa [S.closed] at tag)
    · next tag => exact array_yields hi (by rwa [S.closed] at tag)
    · next tag => exact conditional_yields hi (by rwa [S.closed] at tag)
    · next tag => exact matchOn_yields hi (by rwa [S.closed] at tag)
    · next tag => exact returned_yields hi (by rwa [S.closed] at tag)
    · exact .ran Runs.isLambdaNext (.ite (fun h => lambda_yields hi h) fun _ => .absent)

/-! ## Applications and operators -/

theorem application_yields : Yields S inner.application c b i b (ApplicationAt S c b i) := by
  refine .bind (primary_yields hi) fun f k hf => ?_
  refine .bind (.collectWhile (fun _ => Runs.isNextIn) (fun _ _ => primary_yields hi)
    (fun _ _ _ h => h.lt) k) fun as l h => ?_
  have args : ArgsAt S c b k as l := argsAt_of_items h.1 h.2
  refine .ite (fun noArgs => .pure ?_) fun someArgs => ?_
  · obtain rfl := List.isEmpty_iff.1 noArgs
    cases args with
    | stop stop => exact .bare hf stop
  obtain ⟨a, as, rfl⟩ := List.exists_cons_of_ne_nil (mt List.isEmpty_iff.2 someArgs)
  refine .ran Runs.context (.ite (fun inType => ?_) fun notType => ?_)
  · exact .ran Runs.previousSpan (.newExpr fun n => .types inType hf args (S.covers_refl _))
  · have block : Yields S inner.trailingBlock c b l b fun
        | some t, j => S.BlockNext c l ∧ BlockAt S b l t j
        | none, j => ¬ S.BlockNext c l ∧ j = l := by
      refine .ran Runs.context (.ran Runs.isNext (.ite (fun next => ?_) fun next => ?_))
      · refine (Yields.map (hi.block c b l)).mono ?_
        rintro _ j ⟨t, rfl, ht⟩
        exact ⟨by simpa [Setting.BlockNext] using next, ht⟩
      · exact .pure ⟨by simpa [Setting.BlockNext] using next, rfl⟩
    refine .bind block fun t j ht => .ran Runs.previousSpan (.newExpr fun n => ?_)
    cases t with
    | some t => exact .block (by simpa using notType) hf args ht.1 ht.2 (S.covers_refl _)
    | none =>
      obtain ⟨no_block, rfl⟩ := ht
      exact .plain (by simpa using notType) hf args no_block (S.covers_refl _)

omit hi in
theorem operator_yields : Yields S Inner.operator? c b i b fun op j => j = i ∧
    match op with
    | some op => S.operator? c i = some op.symbols ∧ S.covers (S.span i) op.span ∧ S.tag i ≠ .eof
    | none => S.operator? c i = none := by
  have tag := S.tag_kind i
  refine .ran Runs.nextToken ?_
  split
  · next symbols hk =>
    change S.kind i = _ at hk
    rw [hk] at tag
    refine .pure ⟨rfl, ?_, S.covers_refl _, by rw [← tag]; exact Tag.noConfusion⟩
    rw [Setting.operator?, hk]
  · next hk =>
    change S.kind i = _ at hk
    rw [hk] at tag
    refine .ran Runs.context (.ite (fun separates => .pure ⟨rfl, ?_⟩) fun isOperator => ?_)
    · show S.operator? c i = none
      rw [Setting.operator?, hk]
      exact if_pos separates
    · have record : Runs S (Inner.enterName Reserved.pipe.text) c b i Reserved.pipe.text b i :=
        fun s hs => ⟨_, rfl, ⟨hs.context, hs.skips, hs.position, hs.previous, hs.inside⟩⟩
      refine .ran record (.pure ⟨rfl, ?_, S.covers_refl _, by rw [← tag]; exact Tag.noConfusion⟩)
      rw [Setting.operator?, hk]
      exact if_neg isOperator
  · next h₁ h₂ =>
    refine .pure ⟨rfl, ?_⟩
    show S.operator? c i = none
    unfold Setting.operator?
    split
    · next h => exact absurd h (h₁ _)
    · next h => exact absurd h h₂
    · rfl

/-- One more operator and its right side make any chain longer. -/
theorem operatorRound_yields (l : Expr) :
    Yields S (operatorRound inner l) c b i b fun
      | .done e, j => e = l ∧ j = i ∧ S.operator? c i = none
      | .yield e, j => i < j ∧ ∀ first, ChainAt S c b first l i → ChainAt S c b first e j := by
  refine .bind_of_steady Steady.operator operator_yields fun op k h => ?_
  obtain ⟨rfl, h⟩ := h
  cases op with
  | none => exact .pure ⟨rfl, rfl, h⟩
  | some op =>
    refine .ran (Runs.take h.2.2) (.ran Runs.skipBreaks ?_)
    refine .bind (application_yields hi) fun r j hr => ?_
    have lt : k < j := by
      have := S.lt_next b k
      have := S.le_past (S.next b k)
      have := hr.lt
      omega
    have built : Yields S (newExpr (l.span.merge r.span) fun m => .binary m l op r) c b j b
        fun e j' => k < j' ∧ ∀ first, ChainAt S c b first l k → ChainAt S c b first e j' :=
      .newExpr fun n => ⟨lt, fun _ hl => .more hl h.1 h.2.1 hr (S.covers_refl _)⟩
    exact .bind built fun _ _ longer => .pure longer

theorem binary_yields : Yields S inner.binary c b i b fun e j =>
    ChainAt S c b i e j ∧ S.operator? c j = none := by
  refine .bind_of_steady (fun _ => inferInstanceAs (Steady (repeated _ (operatorRound inner))))
    (application_yields hi) fun e k he => ?_
  refine .repeated (I := ChainAt S c b i) (fun l => inferInstanceAs (Steady (operatorRound inner l)))
    (fun l k hl => ?_) e k (.one he)
  refine (operatorRound_yields hi l).mono fun r j h => ?_
  cases r with
  | done e =>
    obtain ⟨rfl, rfl, none⟩ := h
    exact ⟨hl, none⟩
  | yield e => exact ⟨h.2 i hl, h.1⟩

/-! ## Arrows and types -/

omit [inner.Steady] in
theorem codomain_yields : Yields S inner.codomain c b i b (ExprAt S c b (S.past i)) :=
  .ran Runs.skipBreaks (hi.expr c b _)

theorem binder_yields {p q : Punct} (hp : S.tag i = .punct p)
    (hq : p = .openParen ∧ q = .closeParen ∨ p = .openBracket ∧ q = .closeBracket)
    (isSigma : Bool) :
    Yields S (inner.binder isSigma) c b i b fun e j => ∃ m ps tr k cod,
      ParamsAt S (.punct q) c.nested true (S.next true i) ps tr k ∧ S.tag k = .punct q
        ∧ S.tag (S.next b k) = .reserved .arrow
        ∧ ExprAt S c b (S.past (S.next b (S.next b k))) cod j
        ∧ S.covers (((S.span i).merge (S.span k)).merge cod.span) m.span
        ∧ e = if isSigma then .sigma m ps cod else .pi m ps cod := by
  refine .bind (paramGroup_yields hi hp hq false) fun (ps, span) j h => ?_
  obtain ⟨tr, k, hps, close, rfl, rfl, -⟩ := h
  refine .bind (.expect Tag.noConfusion) fun _ j hj => ?_
  obtain ⟨arrow, -, rfl⟩ := hj
  refine .bind (codomain_yields hi) fun cod j hcod => .newExpr fun n => ?_
  exact ⟨_, ps, tr, k, cod, hps, close, arrow, hcod, S.covers_refl _, rfl⟩

theorem arrowOrAscription_yields (h : S.binds b i = false) :
    Yields S inner.arrowOrAscription c b i b (ExprAt S c b i) := by
  refine .bind (binary_yields hi) fun l k hl => ?_
  by_cases arrow : S.tag k = .reserved .arrow
  · refine .ran (Runs.acceptNext arrow Tag.noConfusion) ?_
    refine .bind (codomain_yields hi) fun e j he => .newExpr fun n => ?_
    exact .arrow h hl.1 arrow he (S.covers_refl _)
  refine .ran (Runs.acceptNone arrow) ?_
  by_cases colon : S.tag k = .punct .colon
  · refine .ran (Runs.acceptNext colon Tag.noConfusion) ?_
    refine .bind (type_yields hi) fun t j ht => .newExpr fun n => ?_
    exact .ascription h hl.1 colon ht (S.covers_refl _)
  · exact .ran (Runs.acceptNone colon) (.pure (.binary h hl.1 hl.2 arrow colon))

theorem exprOf_yields : Yields S inner.exprOf c b i b (ExprAt S c b i) := by
  refine .ran Runs.isBinderNext (.ite (fun h => ?_) fun h => ?_)
  · refine .ran Runs.isNext ?_
    rcases Setting.tag_of_binds h with tag | tag
    · refine (binder_yields hi tag (.inl ⟨rfl, rfl⟩) _).mono ?_
      rintro e j ⟨m, ps, tr, k, cod, hps, close, arrow, hcod, cover, rfl⟩
      rw [tag]
      exact .pi h tag hps close arrow hcod cover
    · refine (binder_yields hi tag (.inr ⟨rfl, rfl⟩) _).mono ?_
      rintro e j ⟨m, ps, tr, k, cod, hps, close, arrow, hcod, cover, rfl⟩
      rw [tag]
      exact .sigma h tag hps close arrow hcod cover
  · exact arrowOrAscription_yields hi (by simpa using h)

/-! ## Statements and blocks -/

theorem letIn_yields (h : S.tag i = .keyword .letKw) :
    Yields S inner.letIn c b i b fun form j => ∀ m : Mark,
      S.covers ((S.span i).merge (S.last j)) m.span → StmtAt S c b i (form m) j := by
  refine .ran (Runs.take (by rw [h]; exact Tag.noConfusion)) (.bind pattern_yields fun p k hp => ?_)
  refine .bind (.expect Tag.noConfusion) fun _ l hl => ?_
  obtain ⟨eq, -, rfl⟩ := hl
  exact .bind (hi.expr c b _) fun v j hv => .pure fun m cover => .letIn h hp eq hv cover

theorem conditionalStmt_yields (h : S.tag i = .keyword .ifKw) :
    Yields S inner.conditionalStmt c b i b fun form j => ∀ m : Mark,
      S.covers ((S.span i).merge (S.last j)) m.span → StmtAt S c b i (form m) j := by
  refine .ran (Runs.take (by rw [h]; exact Tag.noConfusion)) ?_
  refine .bind (head_yields hi) fun condition k hk => ?_
  refine .bind (thenBody_yields hi) fun t l hl => ?_
  refine .bind (elseBody_yields hi) fun e j hj => .pure ?_
  intro m cover
  cases e with
  | some e => exact .branches h hk hl hj.1 hj.2 cover
  | none =>
    obtain ⟨no_else, rfl⟩ := hj
    exact .conditional h hk hl no_else cover

theorem stmtForm_yields : Yields S inner.stmtForm c b i b fun form j => ∀ m : Mark,
    S.covers ((S.span i).merge (S.last j)) m.span → StmtAt S c b i (form m) j := by
  refine .ran Runs.nextTag ?_
  split
  · next tag => exact .inConstruct (letIn_yields hi tag)
  · next tag => exact conditionalStmt_yields hi tag
  · next notLet notIf =>
    refine .ran Runs.isAhead (.ite (fun ahead => ?_) fun ahead => ?_)
    · refine .bind pattern_yields fun p k hp => .bind (.expect Tag.noConfusion) fun _ l hl => ?_
      obtain ⟨arrow, -, rfl⟩ := hl
      refine .ran Runs.skipBreaks (.bind (hi.expr c b _) fun v j hv => .pure ?_)
      exact fun m cover => .ask notLet notIf ahead hp arrow hv cover
    · refine .bind (hi.expr c b i) fun v j hv => .pure ?_
      exact fun m cover => .expr notLet notIf (by simpa using ahead) hv cover

theorem stmt_yields_of : Yields S inner.stmt c b i b (StmtAt S c b i) := by
  refine .ran Runs.nextSpan (.bind (stmtForm_yields hi) fun form j h => ?_)
  exact .ran Runs.previousSpan (.newStmt fun n => h _ (S.covers_refl _))

theorem wholeStmt_yields : Yields S inner.wholeStmt c b i b fun s j =>
    StmtAt S c b i s j ∧ stmtBoundary.contains (S.tag j) = true := by
  refine .bind (stmt_yields_of hi) fun s j hs => .ran Runs.isNextIn (.ite (fun h => ?_) fun _ => ?_)
  · exact .pure ⟨hs, h⟩
  · exact .unexpected

theorem stmtOrError_yields : Yields S inner.stmtOrError .none false i false
    fun s j => ∃ k, LineAt S i s k ∧ j = S.past k := by
  refine .ran Runs.nextSpan ?_
  have line : Yields S (orElse inner.wholeStmt fun error => do
      newStmt (← recover error (S.span i) false stmtBoundary) fun m => .error m) .none false i false
      (LineAt S i) := by
    intro s a s' hs h fine
    rw [orElse_run] at h
    cases hr : inner.wholeStmt S.input s with
    | ok a' t =>
      rw [hr] at h
      cases h
      obtain ⟨j, hj, hP⟩ := wholeStmt_yields hi s _ _ hs hr fine
      exact ⟨j, hj, .inl hP⟩
    | error e t =>
      rw [hr] at h
      have steps := Steady.error hr
      change (recover e (S.span i) false stmtBoundary >>= fun span =>
        newStmt span fun m => .error m) S.input t = _ at h
      rw [bind_of_ok (recover_run ..)] at h
      have standing := steps.recovered e stmtBoundary false hs
      have le : i ≤ ((skipping false t.cursor).resume S.input.tokens stmtBoundary).position := by
        have := steps.position
        rw [hs.position] at this
        exact Nat.le_trans this
          (position_le_resumeAt S.input.tokens stmtBoundary 0 (skipping false t.cursor))
      have flawed : S.flawed := fine.before h (by simp [State.recovered])
      refine Yields.newStmt (P := LineAt S i) (fun n => .inr ⟨flawed, le, _, rfl, ?_⟩) _ a s'
        standing h fine
      rw [← standing.previous]
      exact S.covers_refl _
  exact .bind line fun s k h => .ran Runs.skipBreaks (.pure ⟨k, h, rfl⟩)

theorem blockOf_yields : Yields S inner.blockOf c b i b (BlockAt S b i) := by
  refine .ran Runs.isNotNext (.ite (fun _ => ?_) fun brace => ?_)
  · have fails : Yields S (unexpected {.punct .openBrace} : Reader Unit) c b i b
        fun _ _ => False := .unexpected
    exact .bind fails fun _ _ h => h.elim
  have open_brace : S.tag i = .punct .openBrace := by simpa using brace
  refine .ran (Runs.openBrace (by rw [open_brace]; exact Tag.noConfusion)) (.ran Runs.skipBreaks ?_)
  refine .bind (.within (.collectAny (fun _ => Runs.isInBraces)
    (fun i _ => stmtOrError_yields hi (i := i)) _)) fun ss k h => ?_
  refine .bind .closeBrace fun span j hj => .pure ?_
  obtain ⟨close, rfl, rfl⟩ := hj
  have stmts := stmtsAt_of_items h
  have no_break : S.past k = k := stmts.past_eq (S.past_past _)
  rw [no_break] at close ⊢
  exact .mk open_brace stmts close (S.covers_refl _)

end

/-! ## The knot -/

theorem innerUpTo_yields (depth : Nat) : (innerUpTo depth).Yields S := by
  induction depth with
  | zero => exact ⟨fun _ _ _ => .absent, fun _ _ _ => .absent⟩
  | succ depth ih =>
    rw [innerUpTo]
    exact ⟨fun _ _ _ => exprOf_yields ih, fun _ _ _ => blockOf_yields ih⟩

theorem inner_yields : inner.Yields S where
  expr c b i := by
    intro s e s' hs h
    rw [inner_expr_run] at h
    exact (innerUpTo_yields _).expr c b i s e s' hs h
  block c b i := by
    intro s t s' hs h
    rw [inner_block_run] at h
    exact (innerUpTo_yields _).block c b i s t s' hs h

/-- What the reader of expressions yields, a rule derives. -/
theorem expr_yields : Yields S expr c b i b (ExprAt S c b i) := inner_yields.expr c b i

/-- What the reader of blocks yields, a rule derives. -/
theorem block_yields : Yields S block c b i b (BlockAt S b i) := inner_yields.block c b i

/-- What the reader of statements yields, a rule derives. -/
theorem stmt_yields : Yields S stmt c b i b (StmtAt S c b i) := stmt_yields_of inner_yields

end Surface.Grammar
