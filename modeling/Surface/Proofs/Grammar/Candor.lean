import Surface.Proofs.Grammar.Candid
import Surface.Proofs.Grammar.FileSoundness

/-!
# The readers are candid

Wherever a reader gives up, what it says was expected is what it has looked for in vain. A reader that may
nest only so deep says that it finds no expression where it can nest no deeper; it gets there only at the
end of the stream, since every level takes a token.

Results:
* `Setting.Left`: how many tokens are left at most, which bounds how deep readers nest.
* `pattern_candid`, `expr_candid`, `stmt_candid`: the readers of patterns, expressions and statements.
* `decl_candid`, `item_candid`, `items_candid`: the readers of declarations and items.
-/

namespace Surface.Grammar

set_option synthInstance.maxSize 400

variable {S : Setting} {c : Context} {b : Bool} {i j d : Nat}

/-! ## Tokens left -/

/-- From a position on there are at most so many tokens. -/
def Setting.Left (S : Setting) (d i : Nat) : Prop := S.input.tokens.size ≤ i + d

namespace Setting.Left

theorem later (h : S.Left d i) (hij : i ≤ j) : S.Left d j := by
  unfold Setting.Left at *
  omega

theorem behind (h : S.Left (d + 1) i) (hij : i < j) : S.Left d j := by
  unfold Setting.Left at *
  omega

theorem all (h : S.input.tokens.size ≤ d) : S.Left d i := Nat.le_trans h (Nat.le_add_left d i)

theorem eof (h : S.Left 0 i) : S.tag i = .eof := by
  by_contra inside
  have lt : i < S.input.tokens.size := Tokens.lt_size_of_tag_ne_eof inside
  exact Nat.not_le.2 lt h

end Setting.Left

/-! ## Names and paths -/

theorem Setting.not_name (h : (S.kind i).name? = none) : nameTags.contains (S.tag i) = false := by
  refine eq_false_of_ne_true fun name => ?_
  rw [← S.tag_kind] at name
  cases hk : S.kind i with
  | ident | symbolIdent => rw [hk] at h; cases h
  | _ => rw [hk] at name; rcases tag_cases_of_name name with tag | tag <;> cases tag

theorem ident_candid : Candid S ident c b i := by
  refine .ran Runs.nextToken ?_
  split
  · exact .succeeds fun _ => ⟨_, _, rfl, rfl⟩
  · next none => exact .absent (Setting.not_name none)

theorem path_candid : Candid S path c b i := by
  have dot (k : Nat) (h : (decide (S.tag k = .reserved .dot)
      && nameTags.contains (S.tag (k + 1))) = true) : S.tag k ≠ .eof := by
    rw [(Setting.dotted_iff.1 h).1]
    exact Tag.noConfusion
  refine .bind ident_candid ident_yields fun x k _ _ => .followed (.collectWhile
    (fun _ => Runs.isSegmentNext) (fun k _ dotted => .ran (Runs.take (dot k dotted)) ident_candid)
    fun k dotted => .ran (Runs.take (dot k dotted)) ident_yields) fun _ _ => ⟨_, _, rfl, rfl⟩

/-! ## Patterns -/

theorem Setting.tag_get (S : Setting) (i : Nat) : (S.input.tokens.get i).tag = S.tag i := S.closed i

theorem tag_cases_of_pattern : ∀ {t : Tag}, patternTags.contains t = true →
    t = .ident ∨ t = .symbolIdent ∨ t = .number ∨ t = .string ∨ t = .char ∨ t = .reserved .dotDot
      ∨ t = .punct .openParen := by
  decide

theorem Setting.not_literal (h : (S.kind i).literal? = none) :
    S.tag i ≠ .number ∧ S.tag i ≠ .string ∧ S.tag i ≠ .char := by
  rw [← S.tag_kind]
  cases hk : S.kind i with
  | number | string | char => rw [hk] at h; cases h
  | _ => exact ⟨nofun, nofun, nofun⟩

section

variable {inner : Reader Pattern} [Steady inner]
  (hy : ∀ c b i, Yields S inner c b i b (PatternAt S b i))
  (hc : ∀ c b i, S.Left d i → Candid S inner c b i)

include hy hc

theorem atomicPatternOf_candid (left : S.Left (d + 1) i) : Candid S (atomicPatternOf inner) c b i := by
  refine .ran Runs.nextToken ?_
  split
  · exact .succeeds fun _ => ⟨_, _, rfl, rfl⟩
  next noLiteral =>
  split
  · exact .followed path_candid fun _ _ => ⟨_, _, rfl, rfl⟩
  · exact .followed path_candid fun _ _ => ⟨_, _, rfl, rfl⟩
  · exact .succeeds fun _ => ⟨_, _, rfl, rfl⟩
  · next tag =>
    rw [S.closed] at tag
    have behind := S.lt_next true i
    exact .ran (Runs.openParen tag) (.enclosed (.within (hc _ _ _ (left.behind behind)))
      (.within (hy _ _ _)) behind (congrArg Groups.closing? tag) fun _ _ _ => ⟨_, _, rfl, rfl⟩)
  · rw [S.tag_get] at *
    obtain ⟨_, _, _⟩ := Setting.not_literal noLiteral
    refine .absent (eq_false_of_ne_true fun starts => ?_)
    rcases tag_cases_of_pattern starts with tag | tag | tag | tag | tag | tag | tag <;> contradiction

theorem patternOf_candid (left : S.Left (d + 1) i) : Candid S (patternOf inner) c b i := by
  refine .within (.ran Runs.isNameNext (.ite (fun _ => ?_) fun _ => atomicPatternOf_candid hy hc left))
  refine .bind path_candid path_yields fun p k le _ => ?_
  exact .followed (.collectWhile (fun _ => Runs.isNextIn)
    (fun l hl _ => atomicPatternOf_candid hy hc (left.later (Nat.le_trans le hl)))
    fun _ _ => atomicPatternOf_yields hy) fun _ _ => ⟨_, _, rfl, rfl⟩

end

theorem patternUpTo_candid (depth : Nat) (c : Context) (b : Bool) (i : Nat) (left : S.Left depth i) :
    Candid S (patternUpTo depth) c b i := by
  induction depth generalizing c b i with
  | zero =>
    refine .absent ?_
    rw [left.eof]
    decide
  | succ depth ih => exact patternOf_candid (patternUpTo_yields depth) ih left

theorem pattern_candid : Candid S pattern c b i := by
  intro flawed s hs
  unfold pattern
  exact patternUpTo_candid (S.input.tokens.size + 1) c b i (.all (Nat.le_succ _)) flawed s hs

theorem atomicPattern_candid : Candid S atomicPattern c b i :=
  atomicPatternOf_candid (fun _ _ _ => pattern_yields) (fun _ _ _ _ => pattern_candid)
    (.all (Nat.le_succ _))

/-! ## Expressions and blocks -/

/-- Readers of expressions and blocks that are candid where there are few enough tokens left. -/
structure Inner.Candid (S : Setting) (inner : Inner) (d : Nat) : Prop where
  expr : ∀ c b i, S.Left d i → Grammar.Candid S inner.expr c b i
  block : ∀ c b i, S.Left d i → Grammar.Candid S inner.block c b i

theorem tag_cases_of_expr : ∀ {t : Tag}, exprTags.contains t = true →
    t = .ident ∨ t = .symbolIdent ∨ t = .number ∨ t = .string ∨ t = .char ∨ t = .punct .openParen
      ∨ t = .punct .openBracket ∨ t = .keyword .ifKw ∨ t = .keyword .matchKw
      ∨ t = .keyword .returnKw ∨ t = .reserved .pipe := by
  decide

theorem opensLambda_of_pipe (h : S.tag i = .reserved .pipe) : opensLambda (S.kind i) = true := by
  rw [← S.tag_kind] at h
  cases hk : S.kind i with
  | reserved r =>
    rw [hk] at h
    cases h
    rfl
  | _ => rw [hk] at h; cases h

/-- What ends a match arm. -/
theorem tag_cases_of_arm : ∀ {t : Tag},
    ({.punct .comma, .punct .closeBrace, .lineBreak} : TagSet).contains t = true →
      t = .punct .comma ∨ t = .punct .closeBrace ∨ t = .lineBreak := by
  decide

section

variable {inner : Inner} [inner.Steady] (hi : inner.Yields S) (hc : inner.Candid S d)

include hi hc

omit [inner.Steady] hi in
theorem type_candid (left : S.Left d i) : Candid S inner.type c b i := .within (hc.expr _ b i left)

omit [inner.Steady] hi in
theorem head_candid (left : S.Left d i) : Candid S inner.head c b i := .within (hc.expr _ b i left)

omit [inner.Steady] hi in
theorem param_candid (left : S.Left d i) : Candid S inner.param c b i := by
  refine .bind pattern_candid pattern_yields fun p k le _ => .accept Tag.noConfusion (fun _ => ?_) fun _ => ?_
  · have le : i ≤ S.next b k := Nat.le_trans le (Nat.le_of_lt (S.lt_next b k))
    exact .followed (.map (type_candid hc (left.later le))) fun _ _ => ⟨_, _, rfl, rfl⟩
  · exact .succeeds fun _ => ⟨_, _, rfl, rfl⟩

theorem params_candid {t : Tag} (left : S.Left d i) : Candid S (commaList t inner.param) c b i :=
  .commaList (fun _ hk => param_candid hc (left.later hk)) fun _ => param_yields hi

theorem exprs_candid {t : Tag} (left : S.Left d i) : Candid S (commaList t inner.expr) c b i :=
  .commaList (fun k hk => hc.expr c b k (left.later hk)) (hi.expr c b)

theorem paramGroup_candid {p q : Punct} (hp : S.tag i = .punct p)
    (hq : p = .openParen ∧ q = .closeParen ∨ p = .openBracket ∧ q = .closeBracket)
    (nonEmpty : Bool) (left : S.Left (d + 1) i) : Candid S (inner.paramGroup nonEmpty) c b i := by
  have behind := S.lt_next true i
  have opens : Groups.closing? (S.tag i) = some q := by
    rw [hp]
    rcases hq with ⟨rfl, rfl⟩ | ⟨rfl, rfl⟩ <;> rfl
  refine .ran (Runs.openOf hp hq) (.ran Runs.isNext (.ite (fun empty => ?_) fun _ => ?_))
  · have closed : S.tag (S.next true i) = .punct q := by simpa using (Bool.and_eq_true_iff.1 empty).2
    have out : patternTags.contains (S.tag (S.next true i)) = false := by
      rw [closed]
      rcases hq with ⟨-, rfl⟩ | ⟨-, rfl⟩ <;> decide
    exact .stopped (.absent out) fun _ => ⟨_, _, rfl⟩
  · exact .enclosed (.within (params_candid hi hc (left.behind behind))) (.within (params_yield hi))
      behind opens fun _ _ _ => ⟨_, _, rfl, rfl⟩

/-! ## Bodies -/

omit [inner.Steady] hi in
theorem thenBody_candid (left : S.Left d i) : Candid S inner.thenBody c b i := by
  refine .ran Runs.isNext (.ite (fun _ => ?_) fun noBrace => ?_)
  · exact .followed (hc.block c b i left) fun _ _ => ⟨_, _, rfl, rfl⟩
  refine .accept Tag.noConfusion (fun _ => ?_) fun noWord => ?_
  · exact .followed (hc.expr c b _ (left.later (Nat.le_of_lt (S.lt_next b i)))) fun _ _ => ⟨_, _, rfl, rfl⟩
  · exact .unexpected (TagSet.not_pair noWord (by simpa using noBrace))

omit [inner.Steady] hi in
theorem blockOrExpr_candid (left : S.Left d i) : Candid S inner.blockOrExpr c b i :=
  .ran Runs.isNext (.ite (fun _ => .followed (hc.block c b i left) fun _ _ => ⟨_, _, rfl, rfl⟩)
    fun _ => .followed (hc.expr c b i left) fun _ _ => ⟨_, _, rfl, rfl⟩)

omit [inner.Steady] hi in
theorem elseBody_candid (left : S.Left d i) : Candid S inner.elseBody c b i := by
  refine .ran Runs.isNextPastBreak (.ite (fun next => ?_) fun _ => .pure)
  have word := (Setting.elseNext_iff.1 next).past
  have behind := S.lt_next b (S.past i)
  refine .ran Runs.skipBreaks (.ran (Runs.take (by rw [word]; exact Tag.noConfusion)) ?_)
  exact .map (blockOrExpr_candid hc (left.later (Nat.le_trans (S.le_past i) (Nat.le_of_lt behind))))

/-! ## Primaries -/

theorem tuple_candid (h : S.tag i = .punct .openParen) (left : S.Left (d + 1) i) :
    Candid S inner.tuple c b i := by
  have behind := S.lt_next true i
  exact .ran (Runs.openParen h) (.enclosed (.within (exprs_candid hi hc (left.behind behind)))
    (.within (exprs_yield hi)) behind (congrArg Groups.closing? h) fun _ _ _ => ⟨_, _, rfl, rfl⟩)

theorem array_candid (h : S.tag i = .punct .openBracket) (left : S.Left (d + 1) i) :
    Candid S inner.array c b i := by
  have behind := S.lt_next true i
  exact .ran (Runs.openBracket h) (.enclosed (.within (exprs_candid hi hc (left.behind behind)))
    (.within (exprs_yield hi)) behind (congrArg Groups.closing? h) fun _ _ _ => ⟨_, _, rfl, rfl⟩)

theorem conditional_candid (h : S.tag i = .keyword .ifKw) (left : S.Left (d + 1) i) :
    Candid S inner.conditional c b i := by
  have behind := S.lt_next b i
  refine .ran (Runs.take (by rw [h]; exact Tag.noConfusion)) ?_
  refine .bind (head_candid hc (left.behind behind)) (head_yields hi) fun condition k le _ => ?_
  have lt : i < k := Nat.lt_of_lt_of_le behind le
  refine .bind (thenBody_candid hc (left.behind lt)) (thenBody_yields hi) fun t l le _ => ?_
  have lt : i < l := Nat.lt_of_lt_of_le lt le
  refine .bind (elseBody_candid hc (left.behind lt)) (elseBody_yields hi) fun e j le _ => ?_
  cases e with
  | some e => exact .ran Runs.previousSpan .newExpr
  | none => exact .ran Runs.previousSpan (.fails (.missingElse (Nat.lt_of_lt_of_le lt le) h))

theorem arm_candid (left : S.Left d i) : Candid S inner.arm .none false i := by
  refine .bind pattern_candid pattern_yields fun p k₁ le _ => ?_
  refine .bind .expect (.expect Tag.noConfusion) fun _ k₂ le' _ => ?_
  have le : i ≤ S.past k₂ := Nat.le_trans (Nat.le_trans le le') (S.le_past k₂)
  refine .ran Runs.skipBreaks (.bind (blockOrExpr_candid hc (left.later le)) (blockOrExpr_yields hi)
    fun t k _ _ => .ran Runs.previousSpan (.accept Tag.noConfusion (fun _ => ?_) fun noComma => ?_))
  · exact .succeeds fun _ => ⟨_, _, rfl, rfl⟩
  refine .ran Runs.isNext (.ran Runs.skipBreaks (.ran Runs.isNotNext (.ite (fun h => ?_) fun _ => .pure)))
  -- without a line break there is nothing to pass over
  have stays : S.past k = k := Setting.past_of_ne (by simpa using (Bool.and_eq_true_iff.1 h).1)
  rw [stays] at h ⊢
  refine .stopped (.unexpected (eq_false_of_ne_true fun ends => ?_)) fun _ => ⟨_, _, rfl⟩
  rcases tag_cases_of_arm ends with tag | tag | tag
  · exact noComma tag
  · simp [tag] at h
  · simp [tag] at h

theorem matchOn_candid (h : S.tag i = .keyword .matchKw) (left : S.Left (d + 1) i) :
    Candid S inner.matchOn c b i := by
  have behind := S.lt_next b i
  refine .ran (Runs.take (by rw [h]; exact Tag.noConfusion)) ?_
  refine .bind (head_candid hc (left.behind behind)) (head_yields hi) fun scrutinee k le _ => ?_
  refine .ran Runs.isNotNext (.ite (fun noBrace => ?_) fun brace => ?_)
  · exact .stopped (.unexpected (TagSet.not_single (by simpa using noBrace))) fun _ => ⟨_, _, rfl⟩
  have tag : S.tag k = .punct .openBrace := by simpa using brace
  have inside : k < S.past (S.next false k) := Nat.lt_of_lt_of_le (S.lt_next false k) (S.le_past _)
  refine .ran (Runs.openBrace (by rw [tag]; exact Tag.noConfusion)) (.ran Runs.skipBreaks ?_)
  exact .enclosed (.within (.collectWhile (fun _ => Runs.isInBraces) (fun l hl _ => arm_candid hi hc
    (left.behind (by omega))) fun _ _ => arm_yields hi))
    (.within (.collectAny (fun _ => Runs.isInBraces) (fun _ _ => arm_yields hi) _)) inside
    (congrArg Groups.closing? tag) fun _ _ _ => ⟨_, _, rfl, rfl⟩

omit [inner.Steady] hi in
theorem returned_candid (h : S.tag i = .keyword .returnKw) (left : S.Left (d + 1) i) :
    Candid S inner.returned c b i := by
  refine .ran (Runs.take (by rw [h]; exact Tag.noConfusion)) ?_
  refine .ran Runs.isNextIn (.ran Runs.isLambdaNext (.ite (fun _ => ?_) fun _ => .newExpr))
  exact .followed (hc.expr c b _ (left.behind (S.lt_next b i))) fun _ _ => ⟨_, _, rfl, rfl⟩

theorem lambda_candid (h : opensLambda (S.kind i) = true) (left : S.Left (d + 1) i) :
    Candid S inner.lambda c b i := by
  have behind := S.lt_next b i
  refine .ran (Runs.take (Setting.ne_eof_of_opensLambda h)) (.ite (fun _ => ?_) fun _ => ?_)
  · have params : Candid S inner.lambdaParams c b (S.next b i) := by
      refine .bind (.within (params_candid hi hc (left.behind behind))) (.within (params_yield hi))
        fun _ _ _ _ => ?_
      exact .followed .expect fun _ _ => ⟨_, _, rfl, rfl⟩
    have parameters : Yields S inner.lambdaParams c b (S.next b i) b fun _ _ => True :=
      .bind (.within (params_yield hi)) fun _ _ _ => .bind (.expect Tag.noConfusion) fun _ _ _ =>
        .pure trivial
    refine .bind params parameters fun ps k le _ => ?_
    exact .followed (.within (hc.expr _ _ _ (left.behind (Nat.lt_of_lt_of_le behind le))))
      fun _ _ => ⟨_, _, rfl, rfl⟩
  · refine .ran (fun s hs => ⟨s, rfl, hs⟩) ?_
    exact .followed (.within (hc.expr _ _ _ (left.behind behind))) fun _ _ => ⟨_, _, rfl, rfl⟩

omit hi hc in
theorem reference_candid : Candid S Inner.reference c b i :=
  .followed path_candid fun _ _ => ⟨_, _, rfl, rfl⟩

theorem primary_candid (left : S.Left (d + 1) i) : Candid S inner.primary c b i := by
  refine .ran Runs.nextToken ?_
  split
  · exact .succeeds fun _ => ⟨_, _, rfl, rfl⟩
  next noLiteral =>
  split
  · exact reference_candid
  · exact reference_candid
  · next tag => exact tuple_candid hi hc (by rwa [S.closed] at tag) left
  · next tag => exact array_candid hi hc (by rwa [S.closed] at tag) left
  · next tag => exact conditional_candid hi hc (by rwa [S.closed] at tag) left
  · next tag => exact matchOn_candid hi hc (by rwa [S.closed] at tag) left
  · next tag => exact returned_candid hc (by rwa [S.closed] at tag) left
  · refine .ran Runs.isLambdaNext (.ite (fun h => lambda_candid hi hc h left) fun noBar => ?_)
    rw [S.tag_get] at *
    obtain ⟨_, _, _⟩ := Setting.not_literal noLiteral
    have : S.tag i ≠ .reserved .pipe := fun tag => noBar (opensLambda_of_pipe tag)
    refine .absent (eq_false_of_ne_true fun starts => ?_)
    rcases tag_cases_of_expr starts with
      tag | tag | tag | tag | tag | tag | tag | tag | tag | tag | tag <;> contradiction

/-! ## Applications and operators -/

omit [inner.Steady] hi in
theorem trailingBlock_candid (left : S.Left d i) : Candid S inner.trailingBlock c b i :=
  .ran Runs.context (.ran Runs.isNext (.ite (fun _ => .map (hc.block c b i left)) fun _ => .pure))

theorem application_candid (left : S.Left (d + 1) i) : Candid S inner.application c b i := by
  refine .bind (primary_candid hi hc left) (primary_yields hi) fun f k _ hf => ?_
  refine .bind (.collectWhile (fun _ => Runs.isNextIn)
    (fun l hl _ => primary_candid hi hc (left.later (Nat.le_trans (Nat.le_of_lt hf.lt) hl)))
    fun _ _ => primary_yields hi)
    (.collectAny (fun _ => Runs.isNextIn) (fun _ _ => primary_yields hi) k) fun as l le _ => ?_
  refine .ite (fun _ => .pure) fun _ => .ran Runs.context (.ite (fun _ => ?_) fun _ => ?_)
  · exact .ran Runs.previousSpan .newExpr
  · exact .followed (trailingBlock_candid hc (left.behind (Nat.lt_of_lt_of_le hf.lt le)))
      fun _ _ => ⟨_, _, rfl, rfl⟩

omit [inner.Steady] hi hc in
theorem operator_candid : Candid S Inner.operator? c b i := by
  refine .ran Runs.nextToken ?_
  split
  · exact .pure
  · exact .ran Runs.context (.ite (fun _ => .pure) fun _ => .succeeds fun _ => ⟨_, _, rfl, rfl⟩)
  · exact .pure

theorem operatorRound_candid (l : Expr) (left : S.Left (d + 1) i) :
    Candid S (operatorRound inner l) c b i := by
  refine .bind operator_candid operator_yields fun op k _ h => ?_
  obtain ⟨rfl, h⟩ := h
  cases op with
  | none => exact .pure
  | some op =>
    refine .ran (Runs.take h.2.2) (.ran Runs.skipBreaks ?_)
    have le : k ≤ S.past (S.next b k) := Nat.le_trans (Nat.le_of_lt (S.lt_next b k)) (S.le_past _)
    exact .followed (application_candid hi hc (left.later le)) fun _ _ => ⟨_, _, rfl, rfl⟩

theorem binary_candid (left : S.Left (d + 1) i) : Candid S inner.binary c b i := by
  refine .bind (application_candid hi hc left) (application_yields hi) fun e k le _ => ?_
  refine .repeated (I := fun _ l => i ≤ l) (fun _ => inferInstance)
    (fun l k hk => operatorRound_candid hi hc l (left.later hk)) (fun l k hk => (operatorRound_yields hi l).mono fun r j h => ?_) e k le
  cases r with
  | done _ => trivial
  | yield _ => exact Nat.le_trans hk (Nat.le_of_lt h.1)

/-! ## Arrows and types -/

omit [inner.Steady] hi in
theorem codomain_candid (left : S.Left d i) : Candid S inner.codomain c b i :=
  .ran Runs.skipBreaks (hc.expr c b _ (left.later (S.le_past i)))

theorem binder_candid {p q : Punct} (hp : S.tag i = .punct p)
    (hq : p = .openParen ∧ q = .closeParen ∨ p = .openBracket ∧ q = .closeBracket)
    (isSigma : Bool) (left : S.Left (d + 1) i) : Candid S (inner.binder isSigma) c b i := by
  refine .bind (paramGroup_candid hi hc hp hq false left) (paramGroup_yields hi hp hq false)
    fun (ps, span) k le _ => ?_
  refine .bind .expect (.expect Tag.noConfusion) fun _ l _ h => ?_
  obtain ⟨-, -, rfl⟩ := h
  have lt : i < S.next b k := Nat.lt_of_le_of_lt le (S.lt_next b k)
  exact .followed (codomain_candid hc (left.behind lt)) fun _ _ => ⟨_, _, rfl, rfl⟩

theorem arrowOrAscription_candid (left : S.Left (d + 1) i) : Candid S inner.arrowOrAscription c b i := by
  refine .bind (binary_candid hi hc left) (binary_yields hi) fun l k le _ => ?_
  have lt : i < S.next b k := Nat.lt_of_le_of_lt le (S.lt_next b k)
  refine .accept Tag.noConfusion (fun _ => ?_) fun _ => .accept Tag.noConfusion (fun _ => ?_) fun _ => .pure
  · exact .followed (codomain_candid hc (left.behind lt)) fun _ _ => ⟨_, _, rfl, rfl⟩
  · exact .followed (type_candid hc (left.behind lt)) fun _ _ => ⟨_, _, rfl, rfl⟩

theorem exprOf_candid (left : S.Left (d + 1) i) : Candid S inner.exprOf c b i := by
  refine .ran Runs.isBinderNext (.ite (fun h => .ran Runs.isNext ?_) fun _ => ?_)
  · rcases Setting.tag_of_binds h with tag | tag
    · exact binder_candid hi hc tag (.inl ⟨rfl, rfl⟩) _ left
    · exact binder_candid hi hc tag (.inr ⟨rfl, rfl⟩) _ left
  · exact arrowOrAscription_candid hi hc left

/-! ## Statements and blocks -/

omit [inner.Steady] hi in
theorem letIn_candid (h : S.tag i = .keyword .letKw) (left : S.Left d i) :
    Candid S inner.letIn c b i := by
  refine .ran (Runs.take (by rw [h]; exact Tag.noConfusion)) (.bind pattern_candid pattern_yields
    fun p k le _ => .bind .expect (.expect Tag.noConfusion) fun _ l le' _ => ?_)
  have le : i ≤ l := Nat.le_trans (Nat.le_of_lt (S.lt_next b i)) (Nat.le_trans le le')
  exact .followed (hc.expr c b _ (left.later le)) fun _ _ => ⟨_, _, rfl, rfl⟩

theorem conditionalStmt_candid (h : S.tag i = .keyword .ifKw) (left : S.Left d i) :
    Candid S inner.conditionalStmt c b i := by
  have behind := Nat.le_of_lt (S.lt_next b i)
  refine .ran (Runs.take (by rw [h]; exact Tag.noConfusion)) ?_
  refine .bind (head_candid hc (left.later behind)) (head_yields hi) fun condition k le _ => ?_
  have le : i ≤ k := Nat.le_trans behind le
  refine .bind (thenBody_candid hc (left.later le)) (thenBody_yields hi) fun t l le' _ => ?_
  exact .followed (elseBody_candid hc (left.later (Nat.le_trans le le'))) fun _ _ => ⟨_, _, rfl, rfl⟩

omit [inner.Steady] hi in
theorem ask_candid (left : S.Left d i) : Candid S inner.ask c b i := by
  refine .bind pattern_candid pattern_yields fun p k le _ => ?_
  refine .bind .expect (.expect Tag.noConfusion) fun _ l le' _ => ?_
  have le : i ≤ S.past l := Nat.le_trans (Nat.le_trans le le') (S.le_past l)
  exact .ran Runs.skipBreaks (.followed (hc.expr c b _ (left.later le)) fun _ _ => ⟨_, _, rfl, rfl⟩)

theorem stmtForm_candid (left : S.Left d i) : Candid S inner.stmtForm c b i := by
  refine .ran Runs.nextTag ?_
  split
  · next tag => exact .inConstruct (letIn_candid hc tag left)
  · next tag => exact conditionalStmt_candid hi hc tag left
  · refine .ran Runs.isAhead (.ite (fun _ => ask_candid hc left) fun _ => ?_)
    exact .followed (hc.expr c b i left) fun _ _ => ⟨_, _, rfl, rfl⟩

theorem stmt_candid_of (left : S.Left d i) : Candid S inner.stmt c b i :=
  .ran Runs.nextSpan (.followed (stmtForm_candid hi hc left) fun _ _ => ⟨_, _, rfl, rfl⟩)

theorem wholeStmt_candid (left : S.Left d i) : Candid S inner.wholeStmt c b i := by
  refine .bind (stmt_candid_of hi hc left) (stmt_yields_of hi) fun s j _ _ => ?_
  refine .ran Runs.isNextIn (.ite (fun _ => .pure) fun h => .unexpected (by simpa using h))

theorem stmtOrError_candid (left : S.Left d i) : Candid S inner.stmtOrError .none false i :=
  .ran Runs.nextSpan (.followed (.orElse (wholeStmt_candid hi hc left) fun _ _ => ⟨_, _, rfl, rfl⟩)
    fun _ _ => ⟨_, _, rfl, rfl⟩)

theorem blockOf_candid (left : S.Left (d + 1) i) : Candid S inner.blockOf c b i := by
  refine .ran Runs.isNotNext (.ite (fun noBrace => ?_) fun brace => ?_)
  · exact .stopped (.unexpected (TagSet.not_single (by simpa using noBrace))) fun _ => ⟨_, _, rfl⟩
  have tag : S.tag i = .punct .openBrace := by simpa using brace
  have inside : i < S.past (S.next false i) := Nat.lt_of_lt_of_le (S.lt_next false i) (S.le_past _)
  refine .ran (Runs.openBrace (by rw [tag]; exact Tag.noConfusion)) (.ran Runs.skipBreaks ?_)
  exact .enclosed (.within (.collectWhile (fun _ => Runs.isInBraces) (fun l hl _ => stmtOrError_candid
    hi hc (left.behind (Nat.lt_of_lt_of_le inside hl))) fun _ _ => stmtOrError_yields hi))
    (.within (.collectAny (fun _ => Runs.isInBraces) (fun _ _ => stmtOrError_yields hi) _)) inside
    (congrArg Groups.closing? tag) fun _ _ _ => ⟨_, _, rfl, rfl⟩

end

/-! ## The knot -/

theorem innerUpTo_candid (depth : Nat) : (innerUpTo depth).Candid S depth := by
  induction depth with
  | zero =>
    have no_expr (i : Nat) (left : S.Left 0 i) : Wanted.expression.tags.contains (S.tag i) = false := by
      rw [left.eof]
      decide
    exact ⟨fun _ _ i left => .absent (no_expr i left), fun _ _ i left => .absent (no_expr i left)⟩
  | succ depth ih =>
    rw [innerUpTo]
    exact ⟨fun _ _ _ left => exprOf_candid (innerUpTo_yields depth) ih left,
      fun _ _ _ left => blockOf_candid (innerUpTo_yields depth) ih left⟩

theorem inner_candid (d : Nat) : inner.Candid S d where
  expr c b i _ := by
    intro flawed s hs
    rw [inner_expr_run]
    exact (innerUpTo_candid _).expr c b i (.all (Nat.le_succ _)) flawed s hs
  block c b i _ := by
    intro flawed s hs
    rw [inner_block_run]
    exact (innerUpTo_candid _).block c b i (.all (Nat.le_succ _)) flawed s hs

/-! ## Attributes and parts of declarations -/

theorem typeHere_candid : Candid S inner.type c b i := type_candid (inner_candid _) (.all (Nat.le_refl _))

theorem expr_candid : Candid S expr c b i := (inner_candid _).expr c b i (.all (Nat.le_refl _))

theorem block_candid : Candid S block c b i := (inner_candid _).block c b i (.all (Nat.le_refl _))

theorem stmt_candid : Candid S stmt c b i :=
  stmt_candid_of inner_yields (inner_candid _) (.all (Nat.le_refl _))

theorem argument_candid : Candid S inner.primary c b i :=
  primary_candid inner_yields (inner_candid _) (.all (Nat.le_succ _))

theorem attrArgs_candid : Candid S attrArgs .none false i := by
  refine .ran Runs.isNext (.ite (fun next => ?_) fun _ => .pure)
  have paren : S.tag i = .punct .openParen := by simpa using next
  have args : Candid S (commaList (.punct .closeParen) expr) Context.none.nested true (S.next true i) :=
    exprs_candid inner_yields (inner_candid _) (.all (Nat.le_refl _))
  exact .ran (Runs.openParen paren) (.enclosed (.within args) (.within (exprs_yield inner_yields))
    (S.lt_next true i) (congrArg Groups.closing? paren) fun _ _ _ => ⟨_, _, rfl, rfl⟩)

theorem attr_candid (h : S.tag i = .punct .atSign) : Candid S attr .none false i := by
  refine .ran (Runs.take (by rw [h]; exact Tag.noConfusion)) (.bind path_candid path_yields fun p k _ _ => ?_)
  exact .followed attrArgs_candid fun _ _ => ⟨_, _, rfl, rfl⟩

theorem attrs_candid : Candid S attrs .none false i :=
  .collectWhile (fun _ => Runs.isNext) (fun _ _ h => attr_candid (by simpa using h))
    fun _ h => attr_yields (by simpa using h)

theorem paramList_candid (h : paramListTags.contains (S.tag i) = true) :
    Candid S paramList .none false i := by
  refine .ran Runs.isNext ?_
  rcases tag_of_paramListTags h with tag | tag
  · exact .followed (paramGroup_candid inner_yields (inner_candid _) tag (.inl ⟨rfl, rfl⟩) _
      (.all (Nat.le_succ _))) fun _ _ => ⟨_, _, rfl, rfl⟩
  · exact .followed (paramGroup_candid inner_yields (inner_candid _) tag (.inr ⟨rfl, rfl⟩) _
      (.all (Nat.le_succ _))) fun _ _ => ⟨_, _, rfl, rfl⟩

theorem paramLists_candid : Candid S paramLists .none false i :=
  .collectWhile (fun _ => Runs.isNextIn) (fun _ _ h => paramList_candid h) fun _ h => paramList_yields h

theorem optionalType_candid : Candid S optionalType .none false i :=
  .accept Tag.noConfusion (fun _ => .map typeHere_candid) fun _ => .pure

theorem optionalBlock_candid : Candid S optionalBlock .none false i :=
  .ran Runs.isNext (.ite (fun _ => .map block_candid) fun _ => .pure)

theorem signature_candid : Candid S signature .none false i := by
  refine .bind path_candid path_yields fun n k _ _ => ?_
  refine .bind paramLists_candid paramLists_yields fun ls l _ _ => ?_
  refine .bind optionalType_candid optionalType_yields fun t m _ _ => ?_
  exact .followed optionalBlock_candid fun _ _ => ⟨_, _, rfl, rfl⟩

theorem clause_candid : Candid S clause .none false i := by
  refine .bind path_candid path_yields fun n k _ _ => ?_
  refine .bind (.collectWhile (fun _ => Runs.isNotNext) (fun _ _ _ => atomicPattern_candid)
    fun _ _ => atomicPattern_yields) (.collectWhile (fun _ => Runs.isNotNext)
    (fun _ _ => atomicPattern_yields) (fun _ _ _ h => h.lt) k) fun ps l _ h => ?_
  have eq : S.tag l = .reserved .eq := by simpa using h.2
  refine .ran (Runs.take (by rw [eq]; exact Tag.noConfusion)) (.ran Runs.isNext (.ran Runs.isNext ?_))
  refine .ite (fun _ => .succeeds fun _ => ⟨_, _, rfl, rfl⟩) fun _ => ?_
  exact .followed (.map expr_candid) fun _ _ => ⟨_, _, rfl, rfl⟩

theorem command_candid (h : S.tag i = .punct .hash) : Candid S command .none false i := by
  refine .ran (Runs.take (by rw [h]; exact Tag.noConfusion)) (.bind path_candid path_yields fun n k _ _ => ?_)
  exact .followed (.collectWhile (fun _ => Runs.isNextIn) (fun _ _ _ => argument_candid)
    fun _ _ => primary_yields inner_yields) fun _ _ => ⟨_, _, rfl, rfl⟩

/-! ## Type declarations -/

theorem ctorParam_candid : Candid S ctorParam Context.none.nested true i := by
  refine .ran Runs.isNameNext (.ran Runs.tagBehind (.ite (fun named => ?_) fun _ => ?_))
  · rw [Bool.and_eq_true, decide_eq_true_eq] at named
    refine .bind ident_candid ident_yields fun x k _ hx => ?_
    obtain ⟨-, rfl⟩ := hx
    have colon : S.tag (S.next true i) = .punct .colon := by
      rw [Setting.next, if_pos rfl, Setting.past_of_ne (by rw [named.2]; exact Tag.noConfusion), named.2]
    refine .ran (Runs.take (by rw [colon]; exact Tag.noConfusion)) ?_
    exact .followed typeHere_candid fun _ _ => ⟨_, _, rfl, rfl⟩
  · exact .followed typeHere_candid fun _ _ => ⟨_, _, rfl, rfl⟩

theorem ctorForm_candid : Candid S ctorForm .none false i := by
  refine .accept Tag.noConfusion (fun _ => .followed typeHere_candid fun _ _ => ⟨_, _, rfl, rfl⟩) fun _ => ?_
  refine .ran Runs.isNext (.ite (fun next => ?_) fun _ => .pure)
  have paren : S.tag i = .punct .openParen := by simpa using next
  exact .ran (Runs.openParen paren) (.enclosed (.within (.commaList (fun _ _ => ctorParam_candid)
    fun _ => ctorParam_yields)) (.within (.commaList (fun _ => ctorParam_yields) (fun _ _ _ h => h.lt) _))
    (S.lt_next true i) (congrArg Groups.closing? paren) fun _ _ _ => ⟨_, _, rfl, rfl⟩)

theorem ctor_candid : Candid S ctor .none false i :=
  .bind path_candid path_yields fun _ _ _ _ => .followed ctorForm_candid fun _ _ => ⟨_, _, rfl, rfl⟩

theorem ctorItem_candid : Candid S ctorItem .none false i := by
  refine .bind ctor_candid ctor_yields fun a k _ _ => .accept Tag.noConfusion (fun _ => ?_) fun _ => ?_
  · refine .ran Runs.isSemicolonNext (.ite (fun _ => .pure) fun _ => .ite (fun _ => ?_) fun h => absurd rfl h)
    exact .succeeds fun _ => ⟨_, _, rfl, rfl⟩
  refine .ran Runs.isSemicolonNext (.ite (fun _ => .pure) fun _ => ?_)
  refine .ite (fun h => absurd h Bool.false_ne_true) fun _ => .ran Runs.isNext (.ite (fun next => ?_) fun _ => .pure)
  have lineBreak : S.tag k = .lineBreak := by simpa using next
  refine .ran Runs.tagBehind (.ran Runs.skipBreaks (.ite (fun name => ?_) fun _ => .pure))
  -- behind the line break stands the name at once
  have there : S.past k = k + 1 := by
    rw [Setting.past_of_lineBreak lineBreak]
    refine Setting.past_of_ne fun tag => ?_
    rw [tag] at name
    exact absurd name (by decide)
  refine .ran Runs.nextSpan (.stopped (.fails ?_) fun s => ⟨_, s, rfl⟩)
  rw [there]
  exact .missingMethodSeparator name

theorem ctors_candid : Candid S ctors .none false i :=
  .ran Runs.isSemicolonNext (.ite (fun _ => .pure) fun _ => .ran Runs.skipBreaks
    (.collect (fun _ => Runs.isInBraces) (fun _ _ _ => ctorItem_candid) fun _ _ => ctorItem_yields))

theorem method_candid : Candid S method .none false i :=
  .followed signature_candid fun _ _ => ⟨_, _, rfl, rfl⟩

theorem methods_candid : Candid S methods .none false i :=
  .collect (fun _ => Runs.isInBraces) (fun _ _ _ => method_candid) fun _ _ => method_yields

theorem members_candid (sort : TypeSort) : Candid S (members sort) .none false i := by
  refine .ite (fun _ => ?_) fun _ => ?_
  · exact .ran Runs.skipBreaks (.followed methods_candid fun _ _ => ⟨_, _, rfl, rfl⟩)
  refine .bind ctors_candid ctors_yields fun cs k _ _ => .ran Runs.isSemicolonNext (.ite (fun _ => ?_) fun _ => .pure)
  exact .ran Runs.skipBreaks (.followed methods_candid fun _ _ => ⟨_, _, rfl, rfl⟩)

theorem typeBody_candid (sort : TypeSort) (h : S.tag i = .punct .openBrace) :
    Candid S (typeBody sort) .none false i := by
  refine .ran (Runs.openBrace (by rw [h]; exact Tag.noConfusion)) ?_
  exact .enclosed (.within (members_candid sort)) (.within (members_yields sort)) (S.lt_next false i)
    (congrArg Groups.closing? h) fun _ _ _ => ⟨_, _, rfl, rfl⟩

theorem visibility_candid : Candid S visibility .none false i := by
  refine .ran Runs.nextTag ?_
  split
  · exact .succeeds fun _ => ⟨_, _, rfl, rfl⟩
  · exact .pure

theorem not_typeSort : ∀ {t : Tag}, typeSortOf? t = none →
    ({.keyword .classKw, .keyword .traitKw, .keyword .dataKw} : TagSet).contains t = false := by
  decide

theorem typeSort_candid : Candid S typeSort .none false i := by
  refine .ran Runs.nextTag ?_
  split
  · exact .succeeds fun _ => ⟨_, _, rfl, rfl⟩
  · next none => exact .unexpected (not_typeSort none)

theorem typeDecl_candid : Candid S typeDecl .none false i := by
  refine .bind visibility_candid visibility_yields fun v k₁ _ _ => ?_
  refine .bind typeSort_candid typeSort_yields fun sort k₂ _ _ => ?_
  refine .bind path_candid path_yields fun n k₃ _ _ => ?_
  refine .bind paramLists_candid paramLists_yields fun ls k₄ _ _ => ?_
  refine .bind optionalType_candid optionalType_yields fun t k₅ _ _ => ?_
  refine .ran Runs.isNext (.ite (fun brace => ?_) fun _ => .succeeds fun s => ⟨_, s, rfl, rfl⟩)
  exact .followed (.map (typeBody_candid sort (by simpa using brace))) fun _ _ => ⟨_, _, rfl, rfl⟩

/-! ## Declarations -/

theorem tag_cases_of_decl : ∀ {t : Tag}, declTags.contains t = true →
    t = .ident ∨ t = .symbolIdent ∨ t = .keyword .useKw ∨ t = .punct .hash ∨ t = .keyword .classKw
      ∨ t = .keyword .traitKw ∨ t = .keyword .dataKw ∨ t = .keyword .publicKw ∨ t = .keyword .sealedKw
      ∨ t = .keyword .privateKw ∨ t = .keyword .internalKw := by
  decide

theorem declForm_candid : Candid S declForm .none false i := by
  have type : Candid S (DeclForm.type <$> inConstruct .typeDeclaration typeDecl) .none false i :=
    .map (.inConstruct typeDecl_candid)
  have named : Candid S (do
      if ← isAhead (.reserved .eq) then DeclForm.clause <$> inConstruct .clause clause
      else DeclForm.signature <$> inConstruct .signature signature) .none false i :=
    .ran Runs.isAhead (.ite (fun _ => .map (.inConstruct clause_candid))
      fun _ => .map (.inConstruct signature_candid))
  refine .ran Runs.nextTag ?_
  split
  · next tag =>
    refine .ran (Runs.take (by rw [tag]; exact Tag.noConfusion)) ?_
    exact .followed path_candid fun _ _ => ⟨_, _, rfl, rfl⟩
  · next tag => exact command_candid tag
  · exact type
  · exact type
  · exact type
  · exact type
  · exact type
  · exact type
  · exact type
  · exact named
  · exact named
  · refine .absent (eq_false_of_ne_true fun starts => ?_)
    rcases tag_cases_of_decl starts with
      tag | tag | tag | tag | tag | tag | tag | tag | tag | tag | tag <;> contradiction

theorem decl_candid (docsFrom : Nat) : Candid S (decl docsFrom) .none false i := by
  refine .ran (docStrings_run docsFrom) (.ran Runs.nextSpan ?_)
  refine .bind attrs_candid attrs_yields fun as k _ _ => ?_
  exact .followed declForm_candid fun _ _ => ⟨_, _, rfl, rfl⟩

/-! ## Items and files -/

theorem wholeItem_candid (asDecl : Bool) (docsFrom : Nat) :
    Candid S (wholeItem asDecl docsFrom) .none false i := by
  have whole (a : Item) (j : Nat) : Candid S (do
      if ← isNextIn itemBoundary then return a else unexpected itemBoundary) .none false j :=
    .ran Runs.isNextIn (.ite (fun _ => .pure) fun h => .unexpected (by simpa using h))
  have none : ∀ t : Tag, Wanted.item.tags.contains t = false := by decide
  refine .ran Runs.read (.ite (fun _ => .stopped (.absent (none _)) fun _ => ⟨_, _, rfl⟩) fun _ => ?_)
  refine .ite (fun _ => ?_) fun _ => ?_
  · exact .bind (.map (decl_candid docsFrom)) (.map (decl_yields docsFrom)) fun a j _ _ => whole a j
  · exact .bind (.map stmt_candid) (.map stmt_yields) fun a j _ _ => whole a j

theorem item_candid (docsFrom : Nat) : Candid S (item docsFrom) .none false i := by
  obtain ⟨asDecl, -, run⟩ := isDeclNext_run (S := S) (c := .none) (b := false) (i := i)
  have read (skips : Bool) : Candid S (isDeclNext >>= fun asDecl => orElse (wholeItem asDecl docsFrom)
      fun error => do errorItem asDecl (← recover error (S.span i) skips itemBoundary)) .none false i :=
    .ran run (.orElse (wholeItem_candid asDecl docsFrom) fun _ _ => by cases asDecl <;> exact ⟨_, _, rfl, rfl⟩)
  refine .ran Runs.nextSpan ?_
  intro flawed s hs
  rw [bind_of_ok (cursor_run _ s)]
  exact read _ flawed s hs

theorem items_candid (docsFrom : Nat) (h : S.past i = i) : Candid S (items docsFrom) .none false i := by
  refine .followed (.repeated (I := fun _ k => S.past k = k) (fun _ => inferInstance)
    (fun r k _ => ?_) (fun r k hk => ?_) _ i h) fun _ s => ⟨_, s, rfl, rfl⟩
  · refine .ran Runs.isNext (.ite (fun _ => .pure) fun _ => ?_)
    exact .followed (item_candid r.2) fun _ _ => ⟨_, _, rfl, rfl⟩
  · refine .ran Runs.isNext (.ite (fun _ => .pure trivial) fun more => ?_)
    refine .bind (item_yields r.2 hk (by simpa using more)) fun a j _ => .ran Runs.previousSpan ?_
    exact .ran Runs.skipBreaks (.pure (S.past_past j))

end Surface.Grammar
