import Surface.Proofs.Grammar.Leads
import Surface.Proofs.Tree.Marks

/-!
# What the rules derive is read

Every reader succeeds where a rule derives something, takes the tokens the rule takes and builds the
same node up to its marks. Since a rule says what must not follow, this holds whatever follows.

Results:
* `pattern_leads`, `expr_leads`, `block_leads`, `stmt_leads`: completeness of the readers.
-/

namespace Surface.Grammar

set_option synthInstance.maxSize 400

variable {S : Setting} {c : Context} {b : Bool} {i j k : Nat}

/-! ## Names and paths -/

theorem Setting.literal?_of_tag (h : S.tag i ≠ .string ∧ S.tag i ≠ .char ∧ S.tag i ≠ .number) :
    (S.kind i).literal? = none := by
  by_contra some
  obtain ⟨v, hv⟩ := Option.ne_none_iff_exists'.1 some
  rcases Setting.tag_of_literal hv with e | e | e
  · exact h.1 e
  · exact h.2.1 e
  · exact h.2.2 e

theorem ident_leads {x : Ident} (h : S.NameAt i x) :
    Leads S ident c b i (fun x' => x'.bare = x.bare) b (S.next b i) := by
  have name : (S.input.tokens.get i).kind.name? = some x.name := h.1
  have tag : S.tag i ≠ .eof := Setting.ne_eof_of_contains (Setting.tag_of_name h.1) (by decide)
  refine .ran Runs.nextToken ?_
  rw [name]
  exact .ran (Runs.take tag) (.pure rfl)

theorem SegmentsAt.items {xs : List Ident} (h : SegmentsAt S b i xs j) :
    Items (fun i x j => (decide (S.tag i = .reserved .dot) && nameTags.contains (S.tag (i + 1))) = true
      ∧ S.NameAt (S.next b i) x ∧ j = S.next b (S.next b i)) i xs j
      ∧ (decide (S.tag j = .reserved .dot) && nameTags.contains (S.tag (j + 1))) = false := by
  induction h with
  | stop no => exact ⟨.none, eq_false_of_ne_true fun h => no (Setting.dotted_iff.1 h)⟩
  | more dotted name _ ih => exact ⟨.more ⟨Setting.dotted_iff.2 dotted, name, rfl⟩ ih.1, ih.2⟩

theorem path_leads {p : Path} (h : PathAt S b i p j) :
    Leads S path c b i (fun p' => p'.bare = p.bare) b j := by
  obtain ⟨items, stop⟩ := h.tail.items
  refine .bind (ident_leads h.head) fun x hx => ?_
  refine .bind (.collectWhile (f := Ident.bare) (fun _ => Runs.isSegmentNext)
    (items.mono fun i x j h => ⟨h.1, ?_, ?_⟩) stop) fun xs hxs => .pure ?_
  · have := S.lt_next b i
    have := S.lt_next b (S.next b i)
    omega
  · obtain ⟨dotted, name, rfl⟩ := h
    have dot : S.tag i ≠ .eof := by
      rw [(Setting.dotted_iff.1 dotted).1]
      exact Tag.noConfusion
    exact .ran (Runs.take dot) (ident_leads name)
  · show Path.mk x.bare (xs.map Ident.bare) = _
    rw [hx, hxs]
    rfl

/-! ## Patterns -/

/-- Patterns from some position on are read. -/
def ReadsPatterns (S : Setting) (inner : Reader Pattern) (from' : Nat) : Prop :=
  ∀ {c b i p j}, from' ≤ i → PatternAt S b i p j →
    Leads S inner c b i (fun p' => p'.bare = p.bare) b j

theorem atomicPatternOf_leads {inner : Reader Pattern} (hi : ReadsPatterns S inner k) (hk : k ≤ i + 1)
    {p : Pattern} (h : AtomAt S b i p j) :
    Leads S (atomicPatternOf inner) c b i (fun p' => p'.bare = p.bare) b j := by
  have tag : (S.input.tokens.get i).tag = S.tag i := S.closed i
  refine .ran Runs.nextToken ?_
  cases h with
  | @literal _ _ _ v hv _ =>
    have literal : (S.input.tokens.get i).kind.literal? = some v := hv
    rw [literal]
    exact .ran (Runs.take (Setting.ne_eof_of_literal hv)) (.newPattern fun _ => rfl)
  | @path _ _ _ p _ hp _ =>
    have built : Leads S (do
        let path ← path
        newPattern path.span fun m => .cons m path []) c b i
        (fun p' => p'.bare = .cons .none p.bare []) b j :=
      .bind (path_leads hp) fun p' hp' => .newPattern fun _ => by rw [Pattern.bare, hp']; rfl
    have name := tag_cases_of_name (Setting.tag_of_name hp.head.1)
    have none : (S.input.tokens.get i).kind.literal? = none :=
      Setting.literal?_of_tag (by rcases name with h | h <;> rw [h] <;> decide)
    rw [none]
    dsimp only
    rcases name with h | h
    · rw [tag, h]
      exact built
    · rw [tag, h]
      exact built
  | rest hd _ =>
    have none : (S.input.tokens.get i).kind.literal? = none :=
      Setting.literal?_of_tag (by rw [hd]; decide)
    rw [none]
    dsimp only
    rw [tag, hd]
    exact .ran (Runs.take (by rw [hd]; exact Tag.noConfusion)) (.newPattern fun _ => rfl)
  | group ho hp hc =>
    have none : (S.input.tokens.get i).kind.literal? = none :=
      Setting.literal?_of_tag (by rw [ho]; decide)
    have := S.lt_next true i
    rw [none]
    dsimp only
    rw [tag, ho]
    refine .ran (Runs.openParen ho) (.bind (.within (hi (by omega) hp)) fun p' hp' => ?_)
    exact .ran (Runs.closeGroup (by decide) hc) (.pure hp')

theorem PatternArgsAt.items {ps : List Pattern} (h : PatternArgsAt S b i ps j) :
    Items (AtomAt S b) i ps j ∧ patternTags.contains (S.tag j) = false := by
  induction ps generalizing i with
  | nil =>
    cases h with
    | stop no => exact ⟨.none, no⟩
  | cons p ps ih =>
    cases h with
    | more h hs => exact ⟨.more h (ih hs).1, (ih hs).2⟩

theorem patternOf_leads {inner : Reader Pattern} (hi : ReadsPatterns S inner k) (hk : k ≤ i + 1)
    {p : Pattern} (h : PatternAt S b i p j) :
    Leads S (patternOf inner) c b i (fun p' => p'.bare = p.bare) b j := by
  refine .within (.ran Runs.isNameNext ?_)
  cases h with
  | @cons _ _ _ p k' args _ hp hs _ =>
    have args : Items (fun i p j => patternTags.contains (S.tag i) = true ∧ i < j
        ∧ Leads S (atomicPatternOf inner) (c.union .pattern) b i (fun p' => p'.bare = p.bare) b j)
        k' args j :=
      (hs.items.1.behind (fun _ _ _ h => h.lt) (Nat.le_of_lt hp.lt)).mono fun i' p' j' h =>
        ⟨h.2.starts, h.2.lt, atomicPatternOf_leads hi (by omega) h.2⟩
    refine .ifTrue (Setting.tag_of_name hp.head.1) (.bind (path_leads hp) fun p' hp' => ?_)
    refine .bind (.collectWhile (fun _ => Runs.isNextIn) args hs.items.2) fun ps hps => ?_
    refine .ran Runs.previousSpan (.newPattern fun _ => ?_)
    rw [Pattern.bare, Pattern.bare, hp', Pattern.bares_eq, Pattern.bares_eq, hps]
  | atom notName h =>
    exact .ifFalse (by simp [notName]) (atomicPatternOf_leads hi hk h)

theorem patternUpTo_leads (depth : Nat) :
    ReadsPatterns S (patternUpTo depth) (S.input.tokens.size + 1 - depth) := by
  induction depth with
  | zero =>
    intro c b i p j hi _ s hs
    exact absurd hs.inside (by omega)
  | succ depth ih =>
    intro c b i p j hi h
    have inside : ReadsPatterns S (fun input s => patternUpTo depth input s) _ := ih
    exact patternOf_leads inside (by omega) h

/-- What the rules derive as a pattern is read as one. -/
theorem pattern_leads {p : Pattern} (h : PatternAt S b i p j) :
    Leads S pattern c b i (fun p' => p'.bare = p.bare) b j := by
  intro s hs
  exact patternUpTo_leads (S.input.tokens.size + 1) (by omega) h s hs

theorem atomicPattern_leads {p : Pattern} (h : AtomAt S b i p j) :
    Leads S atomicPattern c b i (fun p' => p'.bare = p.bare) b j :=
  atomicPatternOf_leads (k := 0) (fun _ h => pattern_leads h) (Nat.zero_le _) h

/-! ## Expressions and blocks -/

/-- Expressions and blocks from some position on are read. -/
structure Inner.Leads (S : Setting) (inner : Inner) (from' : Nat) : Prop where
  expr : ∀ {c b i e j}, from' ≤ i → ExprAt S c b i e j →
    Grammar.Leads S inner.expr c b i (fun e' => e'.bare = e.bare) b j
  block : ∀ {c b i t j}, from' ≤ i → BlockAt S b i t j →
    Grammar.Leads S inner.block c b i (fun t' => t'.bare = t.bare) b j

theorem ExprsAt.listed {t : Tag} {es : List Expr} {tr : Bool} (h : ExprsAt S t c b i es tr j) :
    Listed S t b (ExprAt S c b) i es tr j := by
  induction es generalizing i tr with
  | nil =>
    cases h with
    | none h => exact .none h
  | cons e es ih =>
    cases h with
    | last h tag ne => exact .last h tag ne
    | more h comma hs => exact .more h comma (ih hs)

theorem ParamsAt.listed {t : Tag} {ps : List Param} {tr : Bool} (h : ParamsAt S t c b i ps tr j) :
    Listed S t b (ParamAt S c b) i ps tr j := by
  induction ps generalizing i tr with
  | nil =>
    cases h with
    | none h => exact .none h
  | cons p ps ih =>
    cases h with
    | last h tag ne => exact .last h tag ne
    | more h comma hs => exact .more h comma (ih hs)

theorem ArgsAt.items {es : List Expr} (h : ArgsAt S c b i es j) :
    Items (fun i e j => Inner.argumentTags.contains (S.tag i) = true ∧ PrimaryAt S c b i e j) i es j
      ∧ Inner.argumentTags.contains (S.tag j) = false := by
  induction es generalizing i with
  | nil =>
    cases h with
    | stop no => exact ⟨.none, no⟩
  | cons e es ih =>
    cases h with
    | more some h hs => exact ⟨.more ⟨some, h⟩ (ih hs).1, (ih hs).2⟩

theorem ParamAt.starts {p : Param} (h : ParamAt S c b i p j) :
    patternTags.contains (S.tag i) = true := by
  cases h with
  | typed h _ _ _ => exact h.starts
  | untyped h _ _ => exact h.starts

/-- What starts with a tag of one set does not start with a tag outside of it. -/
theorem ne_of_contains {ts : TagSet} {t u : Tag} (h : ts.contains t = true)
    (hu : ts.contains u = false) : t ≠ u := by
  rintro rfl
  rw [h] at hu
  cases hu

section

variable {inner : Inner} (hi : inner.Leads S k)

include hi

theorem type_leads {t : Expr} (hk : k ≤ i) (h : ExprAt S (c.union .type) b i t j) :
    Leads S inner.type c b i (fun t' => t'.bare = t.bare) b j :=
  .within (hi.expr hk h)

theorem head_leads {e : Expr} (hk : k ≤ i) (h : ExprAt S (c.nested.union .head) b i e j) :
    Leads S inner.head c b i (fun e' => e'.bare = e.bare) b j :=
  .within (hi.expr hk h)

theorem param_leads {p : Param} (hk : k ≤ i) (h : ParamAt S c b i p j) :
    Leads S inner.param c b i (fun p' => p'.bare = p.bare) b j := by
  cases h with
  | @typed _ _ _ _ k' _ _ _ hp colon ht _ =>
    have := hp.lt
    have := S.lt_next b k'
    refine .bind (pattern_leads hp) fun p' hp' => .ran (Runs.acceptNext colon Tag.noConfusion) ?_
    refine .bind (.map (type_leads hi (by omega) ht)) ?_
    rintro _ ⟨t', rfl, ht'⟩
    refine .ran Runs.previousSpan (.pure ?_)
    rw [Param.bare, Param.bare, hp', Expr.optionalBare, Expr.optionalBare, ht']
  | untyped hp no_colon _ =>
    refine .bind (pattern_leads hp) fun p' hp' => .ran (Runs.acceptNone no_colon) ?_
    refine .ran (fun s hs => ⟨s, rfl, hs⟩) (.ran Runs.previousSpan (.pure ?_))
    rw [Param.bare, Param.bare, hp']

theorem params_lead {t : Tag} {ps : List Param} {tr : Bool} (hk : k ≤ i)
    (h : ParamsAt S t c b i ps tr j) (ht : patternTags.contains t = false) :
    Leads S (commaList t inner.param) c b i
      (fun r => Param.bares r.1 = Param.bares ps ∧ r.2 = tr) b j := by
  refine (Leads.commaList (f := Param.bare) (h.listed.behind (fun _ _ _ h => h.lt) hk)
    fun i' p' j' h => ⟨ne_of_contains h.2.starts ht, h.2.lt, param_leads hi h.1 h.2⟩).mono fun r hr => ?_
  rw [Param.bares_eq, Param.bares_eq]
  exact hr

theorem exprs_lead {t : Tag} {es : List Expr} {tr : Bool} (hk : k ≤ i)
    (h : ExprsAt S t c b i es tr j) (ht : exprTags.contains t = false) (hop : t ≠ .operator) :
    Leads S (commaList t inner.expr) c b i
      (fun r => Expr.bares r.1 = Expr.bares es ∧ r.2 = tr) b j := by
  refine (Leads.commaList (f := Expr.bare) (h.listed.behind (fun _ _ _ h => h.lt) hk)
    fun i' e' j' h => ⟨h.2.starts.ne ht hop, h.2.lt, hi.expr h.1 h.2⟩).mono fun r hr => ?_
  rw [Expr.bares_eq, Expr.bares_eq]
  exact hr

/-- A group of parameters between two brackets. -/
theorem paramGroup_leads {p q : Punct} {ps : List Param} {tr : Bool} (hk : k ≤ i + 1)
    (hp : S.tag i = .punct p)
    (hq : p = .openParen ∧ q = .closeParen ∨ p = .openBracket ∧ q = .closeBracket)
    (nonEmpty : Bool) (hne : nonEmpty = true → S.tag (S.next true i) ≠ .punct q)
    (h : ParamsAt S (.punct q) c.nested true (S.next true i) ps tr j) (hc : S.tag j = .punct q) :
    Leads S (inner.paramGroup nonEmpty) c b i (fun r => Param.bares r.1 = Param.bares ps) b
      (S.next b j) := by
  have := S.lt_next true i
  have opened : Runs S openGroup c b i ⟨q, S.span i, b⟩ true (S.next true i) := by
    rcases hq with ⟨rfl, rfl⟩ | ⟨rfl, rfl⟩
    · exact Runs.openParen hp
    · exact Runs.openBracket hp
  have notBrace : q ≠ .closeBrace ∧ patternTags.contains (.punct q) = false := by
    rcases hq with ⟨-, rfl⟩ | ⟨-, rfl⟩ <;> decide
  refine .ran opened (.ran Runs.isNext (.ifFalse ?_ ?_))
  · rw [Bool.and_eq_true, decide_eq_true_eq]
    exact fun ⟨asked, closed⟩ => hne asked closed
  · refine .bind (.within (params_lead hi (by omega) h notBrace.2)) fun (ps', tr') hps => ?_
    exact .ran (Runs.closeGroup notBrace.1 hc) (.pure hps.1)

/-! ## Bodies -/

theorem thenBody_leads {t : Body} (hk : k ≤ i) (h : ThenAt S c b i t j) :
    Leads S inner.thenBody c b i (fun t' => t'.bare = t.bare) b j := by
  refine .ran Runs.isNext ?_
  cases h with
  | block brace h =>
    exact .ifTrue (decide_eq_true brace)
      (.bind (hi.block hk h) fun t' ht' => .pure (congrArg Body.block ht'))
  | expr word h =>
    have := S.lt_next b i
    refine .ifFalse (by rw [word]; decide) (.ran (Runs.acceptNext word Tag.noConfusion) ?_)
    exact .bind (hi.expr (by omega) h) fun e' he' => .pure (congrArg Body.expr he')

theorem blockOrExpr_leads {t : Body} (hk : k ≤ i) (h : BodyAt S c b i t j) :
    Leads S inner.blockOrExpr c b i (fun t' => t'.bare = t.bare) b j := by
  refine .ran Runs.isNext ?_
  cases h with
  | block brace h =>
    exact .ifTrue (decide_eq_true brace)
      (.bind (hi.block hk h) fun t' ht' => .pure (congrArg Body.block ht'))
  | expr no_brace h =>
    exact .ifFalse (by simpa using no_brace)
      (.bind (hi.expr hk h) fun e' he' => .pure (congrArg Body.expr he'))

theorem elseBody_leads {t : Body} (hk : k ≤ i) (he : S.ElseNext i)
    (h : BodyAt S c b (S.next b (S.past i)) t j) :
    Leads S inner.elseBody c b i (fun t' => Body.optionalBare t' = some t.bare) b j := by
  have := S.le_past i
  have := S.lt_next b (S.past i)
  have word : S.tag (S.past i) ≠ .eof := by
    rw [he.past]
    exact Tag.noConfusion
  refine .ran Runs.isNextPastBreak (.ifTrue (Setting.elseNext_iff.2 he) ?_)
  refine .ran Runs.skipBreaks (.ran (Runs.take word) ?_)
  refine (Leads.map (blockOrExpr_leads hi (by omega) h)).mono ?_
  rintro _ ⟨t', rfl, ht'⟩
  exact congrArg some ht'

omit hi in
theorem noElse_leads (he : ¬ S.ElseNext i) : Leads S inner.elseBody c b i (· = none) b i :=
  .ran Runs.isNextPastBreak (.ifFalse (fun h => he (Setting.elseNext_iff.1 h)) (.pure rfl))

/-! ## Primaries -/

theorem tuple_leads {m : Mark} {es : List Expr} {tr : Bool} (hk : k ≤ i + 1)
    (ho : S.tag i = .punct .openParen)
    (h : ExprsAt S (.punct .closeParen) c.nested true (S.next true i) es tr j)
    (hc : S.tag j = .punct .closeParen) :
    Leads S inner.tuple c b i (fun e => e.bare = (Expr.tuple m es tr).bare) b (S.next b j) := by
  have := S.lt_next true i
  refine .ran (Runs.openParen ho) ?_
  refine .bind (.within (exprs_lead hi (by omega) h (by decide) (by decide))) fun (es', tr') hes => ?_
  refine .ran (Runs.closeGroup (by decide) hc) (.newExpr fun n => ?_)
  rw [Expr.bare, Expr.bare, hes.1, show tr' = tr from hes.2]

theorem array_leads {m : Mark} {es : List Expr} {tr : Bool} (hk : k ≤ i + 1)
    (ho : S.tag i = .punct .openBracket)
    (h : ExprsAt S (.punct .closeBracket) c.nested true (S.next true i) es tr j)
    (hc : S.tag j = .punct .closeBracket) :
    Leads S inner.array c b i (fun e => e.bare = (Expr.array m es).bare) b (S.next b j) := by
  have := S.lt_next true i
  refine .ran (Runs.openBracket ho) ?_
  refine .bind (.within (exprs_lead hi (by omega) h (by decide) (by decide))) fun (es', tr') hes => ?_
  refine .ran (Runs.closeGroup (by decide) hc) (.newExpr fun n => ?_)
  rw [Expr.bare, Expr.bare, hes.1]

theorem conditional_leads {m : Mark} {h : Expr} {t e : Body} {l l' : Nat} (hk : k ≤ i + 1)
    (word : S.tag i = .keyword .ifKw) (hh : ExprAt S (c.nested.union .head) b (S.next b i) h l)
    (ht : ThenAt S c b l t l') (helse : S.ElseNext l') (he : BodyAt S c b (S.next b (S.past l')) e j) :
    Leads S inner.conditional c b i (fun r => r.bare = (Expr.conditional m h t e).bare) b j := by
  have := S.lt_next b i
  have := hh.lt
  have := ht.lt
  refine .ran (Runs.take (by rw [word]; exact Tag.noConfusion)) ?_
  refine .bind (head_leads hi (by omega) hh) fun h' hh' => ?_
  refine .bind (thenBody_leads hi (by omega) ht) fun t' ht' => ?_
  refine .bind (elseBody_leads hi (by omega) helse he) fun e' he' => ?_
  cases e' with
  | none => cases he'
  | some e' =>
    refine .ran Runs.previousSpan (.newExpr fun n => ?_)
    rw [Expr.bare, Expr.bare, hh', ht', Option.some.inj he']

theorem arm_leads {a : Arm} (hk : k ≤ i) (h : ArmAt S i a j) {l : Nat}
    (hsep : S.tag j = .punct .comma ∧ l = S.past (S.next false j)
      ∨ S.tag j = .lineBreak ∧ l = S.past j ∨ S.tag j = .punct .closeBrace ∧ l = j) :
    Leads S inner.arm .none false i (fun a' => a'.bare = a.bare) false l := by
  obtain @⟨_, p, k', t, _, s, hp, arrow, ht, _⟩ := h
  have := hp.lt
  have := S.lt_next false k'
  have := S.le_past (S.next false k')
  refine .bind (pattern_leads hp) fun p' hp' => .ran (Runs.expect arrow Tag.noConfusion) ?_
  refine .ran Runs.skipBreaks (.bind (blockOrExpr_leads hi (by omega) ht) fun t' ht' => ?_)
  refine .ran Runs.previousSpan ?_
  have built (s' : Span) : (Arm.mk p' t' s').bare = (Arm.mk p t s).bare := by
    rw [Arm.bare, Arm.bare, hp', ht']
  rcases hsep with ⟨comma, rfl⟩ | ⟨lineBreak, rfl⟩ | ⟨brace, rfl⟩
  · refine .ran (Runs.acceptNext comma Tag.noConfusion) (.ran Runs.isNext (.ran Runs.skipBreaks ?_))
    exact .ran Runs.isNotNext (.ifFalse (by simp) (.pure (built _)))
  · refine .ran (Runs.acceptNone (by rw [lineBreak]; exact Tag.noConfusion)) ?_
    refine .ran Runs.isNext (.ran Runs.skipBreaks (.ran Runs.isNotNext ?_))
    exact .ifFalse (by simp [lineBreak]) (.pure (built _))
  · have here : S.past l = l := Setting.past_of_ne (by rw [brace]; exact Tag.noConfusion)
    refine .ran (Runs.acceptNone (by rw [brace]; decide)) (.ran Runs.isNext (.ran Runs.skipBreaks ?_))
    rw [here]
    exact .ran Runs.isNotNext (.ifFalse (by simp [brace]) (.pure (built _)))

omit hi in
theorem ArmAt.starts {a : Arm} (h : ArmAt S i a j) : patternTags.contains (S.tag i) = true := by
  obtain ⟨hp, _, _, _⟩ := h
  exact hp.starts

omit hi in
/-- Arms and what stands behind each. -/
theorem ArmsAt.items {as : List Arm} (h : ArmsAt S i as j) :
    Items (fun i a j => ∃ k, ArmAt S i a k ∧ (S.tag k = .punct .comma ∧ j = S.past (S.next false k)
      ∨ S.tag k = .lineBreak ∧ j = S.past k ∨ S.tag k = .punct .closeBrace ∧ j = k)) i as j := by
  induction as generalizing i with
  | nil =>
    cases h with
    | none => exact .none
  | cons a as ih =>
    cases h with
    | comma h tag hs => exact .more ⟨_, h, .inl ⟨tag, rfl⟩⟩ (ih hs)
    | broken h tag hs => exact .more ⟨_, h, .inr (.inl ⟨tag, rfl⟩)⟩ (ih hs)
    | last h tag => exact .more ⟨_, h, .inr (.inr ⟨tag, rfl⟩)⟩ .none

omit hi in
/-- What starts with none of the two stands between braces. -/
theorem inBraces_of_ne (h : S.tag i ≠ .punct .closeBrace) (h' : S.tag i ≠ .eof) :
    (!decide (S.tag i = .punct .closeBrace) && !decide (S.tag i = .eof)) = true := by
  simp [h, h']

omit hi in
theorem not_inBraces (h : S.tag i = .punct .closeBrace) :
    (!decide (S.tag i = .punct .closeBrace) && !decide (S.tag i = .eof)) = false := by
  simp [h]

theorem arms_lead {as : List Arm} (hk : k ≤ i) (h : ArmsAt S i as j)
    (hj : S.tag j = .punct .closeBrace) :
    Leads S (collectWhile Inner.isInBraces inner.arm) .none false i
      (fun as' => Arm.bares as' = Arm.bares as) false j := by
  have lt (i : Nat) (a : Arm) (j : Nat) (h : ∃ k, ArmAt S i a k
      ∧ (S.tag k = .punct .comma ∧ j = S.past (S.next false k) ∨ S.tag k = .lineBreak ∧ j = S.past k
        ∨ S.tag k = .punct .closeBrace ∧ j = k)) : i < j := by
    obtain ⟨k, h, ⟨-, rfl⟩ | ⟨-, rfl⟩ | ⟨-, rfl⟩⟩ := h
    · have := h.lt
      have := S.lt_next false k
      have := S.le_past (S.next false k)
      omega
    · exact Nat.lt_of_lt_of_le h.lt (S.le_past k)
    · exact h.lt
  have items := (h.items.behind lt hk).mono (Q := fun i a j =>
    (!decide (S.tag i = .punct .closeBrace) && !decide (S.tag i = .eof)) = true ∧ i < j
      ∧ Leads S inner.arm .none false i (fun a' => a'.bare = a.bare) false j) fun i a j h => by
    refine ⟨?_, lt i a j h.2, ?_⟩
    · obtain ⟨_, _, h, _⟩ := h
      exact inBraces_of_ne (ne_of_contains h.starts (by decide)) (ne_of_contains h.starts (by decide))
    · obtain ⟨le, _, h, hsep⟩ := h
      exact arm_leads hi le h hsep
  refine (Leads.collectWhile (fun _ => Runs.isInBraces) items (not_inBraces hj)).mono fun as' h => ?_
  rw [Arm.bares_eq, Arm.bares_eq, h]

theorem matchOn_leads {m : Mark} {h : Expr} {arms : List Arm} {l l' : Nat} (hk : k ≤ i + 1)
    (word : S.tag i = .keyword .matchKw) (hh : ExprAt S (c.nested.union .head) b (S.next b i) h l)
    (brace : S.tag l = .punct .openBrace) (ha : ArmsAt S (S.past (S.next false l)) arms l')
    (brace' : S.tag l' = .punct .closeBrace) :
    Leads S inner.matchOn c b i (fun r => r.bare = (Expr.matchOn m h arms).bare) b (S.next b l') := by
  have := S.lt_next b i
  have := hh.lt
  have := S.lt_next false l
  have := S.le_past (S.next false l)
  refine .ran (Runs.take (by rw [word]; exact Tag.noConfusion)) ?_
  refine .bind (head_leads hi (by omega) hh) fun h' hh' => ?_
  refine .ran Runs.isNotNext (.ifFalse (by simp [brace]) ?_)
  refine .ran (Runs.openBrace (by rw [brace]; exact Tag.noConfusion)) (.ran Runs.skipBreaks ?_)
  refine .bind (.within (arms_lead hi (by omega) ha brace')) fun arms' ha' => ?_
  refine .ran (Runs.closeBrace_here brace') (.newExpr fun n => ?_)
  rw [Expr.bare, Expr.bare, hh', ha']

theorem returned_leads {m : Mark} {v : Expr} (hk : k ≤ i + 1) (word : S.tag i = .keyword .returnKw)
    (starts : S.StartsExpr (S.next b i)) (h : ExprAt S c b (S.next b i) v j) :
    Leads S inner.returned c b i (fun r => r.bare = (Expr.returned m (some v)).bare) b j := by
  have := S.lt_next b i
  refine .ran (Runs.take (by rw [word]; exact Tag.noConfusion)) (.ran Runs.isNextIn ?_)
  refine .ran Runs.isLambdaNext (.ifTrue (by simpa [Setting.StartsExpr] using starts) ?_)
  refine .bind (hi.expr (by omega) h) fun v' hv => .newExpr fun n => ?_
  rw [Expr.bare, Expr.bare, Expr.optionalBare, Expr.optionalBare, hv]

omit hi in
theorem returned_alone_leads {m : Mark} (word : S.tag i = .keyword .returnKw)
    (no : ¬ S.StartsExpr (S.next b i)) : Leads S inner.returned c b i
      (fun r => r.bare = (Expr.returned m none).bare) b (S.next b i) := by
  refine .ran (Runs.take (by rw [word]; exact Tag.noConfusion)) (.ran Runs.isNextIn ?_)
  exact .ran Runs.isLambdaNext
    (.ifFalse (by simpa [Setting.StartsExpr] using no) (.newExpr fun n => rfl))

theorem lambda_leads {m : Mark} {ps : List Param} {tr : Bool} {e : Expr} {l : Nat} (hk : k ≤ i + 1)
    (bar : S.kind i = .reserved .pipe)
    (hps : ParamsAt S (.reserved .pipe) (c.union .lambdaParams) b (S.next b i) ps tr l)
    (bar' : S.tag l = .reserved .pipe) (h : ExprAt S (c.without .lambdaParams) b (S.next b l) e j) :
    Leads S inner.lambda c b i (fun r => r.bare = (Expr.lambda m ps e).bare) b j := by
  have := S.lt_next b i
  have := hps.le
  have := S.lt_next b l
  have tag : S.tag i ≠ .eof := by
    rw [← S.tag_kind, bar]
    exact Tag.noConfusion
  have params : Leads S inner.lambdaParams c b (S.next b i)
      (fun ps' => Param.bares ps' = Param.bares ps) b (S.next b l) := by
    refine .bind (.within (params_lead hi (by omega) hps (by decide))) fun (ps', tr') h => ?_
    exact .ran (Runs.expect bar' Tag.noConfusion) (.pure h.1)
  refine .ran (Runs.take tag) (.ifTrue (TokenKind.tag_eq_reserved.2 bar) (.bind params fun ps' hps' => ?_))
  refine .bind (.within (hi.expr (by omega) h)) fun e' he => .newExpr fun n => ?_
  rw [Expr.bare, Expr.bare, hps', he]

theorem thunk_leads {m : Mark} {e : Expr} (hk : k ≤ i + 1) (bars : S.kind i = .operator "||")
    (h : ExprAt S (c.without .lambdaParams) b (S.next b i) e j) :
    Leads S inner.lambda c b i (fun r => r.bare = (Expr.lambda m [] e).bare) b j := by
  have := S.lt_next b i
  have tag : S.tag i ≠ .eof := by
    rw [← S.tag_kind, bars]
    exact Tag.noConfusion
  have notBar : (S.input.tokens.get i).tag ≠ .reserved .pipe := by
    show (S.kind i).tag ≠ _
    rw [bars]
    exact Tag.noConfusion
  refine .ran (Runs.take tag) (.ifFalse notBar (.ran (fun s hs => ⟨s, rfl, hs⟩) ?_))
  refine .bind (.within (hi.expr (by omega) h)) fun e' he => .newExpr fun n => ?_
  rw [Expr.bare, Expr.bare, he]

omit hi in
theorem reference_leads {p : Path} (h : PathAt S b i p j) : Leads S Inner.reference c b i (fun e =>
    e.bare = if p.tail.isEmpty then .name .none p.head.name else .path .none p.bare) b j := by
  refine .bind (path_leads h) fun p' hp => .newExpr fun n => ?_
  have head : p'.head.name = p.head.name := congrArg (fun q => q.head.name) hp
  have tail : p'.tail.isEmpty = p.tail.isEmpty := by
    simpa [Path.bare] using congrArg (fun q => q.tail.isEmpty) hp
  rw [tail, head]
  split
  · rfl
  · rw [Expr.bare, hp]

theorem primary_leads {e : Expr} (hk : k ≤ i + 1) (h : PrimaryAt S c b i e j) :
    Leads S inner.primary c b i (fun e' => e'.bare = e.bare) b j := by
  have tag : (S.input.tokens.get i).tag = S.tag i := S.closed i
  have noLiteral (h : S.tag i ≠ .string ∧ S.tag i ≠ .char ∧ S.tag i ≠ .number) :
      (S.input.tokens.get i).kind.literal? = none := Setting.literal?_of_tag h
  refine .ran Runs.nextToken ?_
  cases h with
  | @literal _ _ _ _ v hv _ =>
    have literal : (S.input.tokens.get i).kind.literal? = some v := hv
    rw [literal]
    exact .ran (Runs.take (Setting.ne_eof_of_literal hv)) (.newExpr fun _ => rfl)
  | name hp _ =>
    have built := reference_leads (c := c) hp
    rcases tag_cases_of_name (Setting.tag_of_name hp.head.1) with h | h <;>
      rw [noLiteral (by rw [h]; decide), tag, h] <;> exact built
  | path hp _ =>
    have built := reference_leads (c := c) hp
    rcases tag_cases_of_name (Setting.tag_of_name hp.head.1) with h | h <;>
      rw [noLiteral (by rw [h]; decide), tag, h] <;> exact built
  | tuple ho h hc _ =>
    rw [noLiteral (by rw [ho]; decide), tag, ho]
    exact tuple_leads hi hk ho h hc
  | array ho h hc _ =>
    rw [noLiteral (by rw [ho]; decide), tag, ho]
    exact array_leads hi hk ho h hc
  | conditional word h ht helse he _ =>
    rw [noLiteral (by rw [word]; decide), tag, word]
    exact conditional_leads hi hk word h ht helse he
  | matchOn word h brace ha brace' _ =>
    rw [noLiteral (by rw [word]; decide), tag, word]
    exact matchOn_leads hi hk word h brace ha brace'
  | returns word starts h _ =>
    rw [noLiteral (by rw [word]; decide), tag, word]
    exact returned_leads hi hk word starts h
  | returnsNothing word no _ =>
    rw [noLiteral (by rw [word]; decide), tag, word]
    exact returned_alone_leads word no
  | lambda bar hps bar' h _ =>
    have here : S.tag i = .reserved .pipe := by rw [← S.tag_kind, bar]; rfl
    have opens : opensLambda (S.kind i) = true := by rw [bar]; rfl
    rw [noLiteral (by rw [here]; decide), tag, here]
    exact .ran Runs.isLambdaNext (.ifTrue opens (lambda_leads hi hk bar hps bar' h))
  | thunk bars h _ =>
    have here : S.tag i = .operator := by rw [← S.tag_kind, bars]; rfl
    have opens : opensLambda (S.kind i) = true := by rw [bars]; rfl
    rw [noLiteral (by rw [here]; decide), tag, here]
    exact .ran Runs.isLambdaNext (.ifTrue opens (thunk_leads hi hk bars h))

/-! ## Applications and operators -/

theorem args_lead {es : List Expr} (hk : k ≤ i + 1) (h : ArgsAt S c b i es j) :
    Leads S (collectWhile (isNextIn Inner.argumentTags) inner.primary) c b i
      (fun es' => es'.map Expr.bare = es.map Expr.bare) b j :=
  .collectWhile (fun _ => Runs.isNextIn)
    ((h.items.1.behind (fun _ _ _ h => h.2.lt) (Nat.le_refl i)).mono fun _ _ _ h =>
      ⟨h.2.1, h.2.2.lt, primary_leads hi (by omega) h.2.2⟩) h.items.2

theorem application_leads {e : Expr} (hk : k ≤ i + 1) (h : ApplicationAt S c b i e j) :
    Leads S inner.application c b i (fun e' => e'.bare = e.bare) b j := by
  have some {es es' : List Expr} {a : Expr} (h : es'.map Expr.bare = (a :: es).map Expr.bare) :
      ¬ es'.isEmpty = true := by
    rw [List.isEmpty_iff]
    rintro rfl
    cases h
  cases h with
  | bare hf stop =>
    refine .bind (primary_leads hi hk hf) fun f' hf' => ?_
    refine .bind (args_lead hi (by have := hf.lt; omega) (.stop stop)) fun es' hes => ?_
    obtain rfl := List.map_eq_nil_iff.1 hes
    exact .ifTrue rfl (.pure hf')
  | types inType hf has _ =>
    refine .bind (primary_leads hi hk hf) fun f' hf' => ?_
    refine .bind (args_lead hi (by have := hf.lt; omega) has) fun es' hes => ?_
    refine .ifFalse (some hes) (.ran Runs.context (.ifTrue inType (.ran Runs.previousSpan ?_)))
    refine .newExpr fun n => ?_
    rw [Expr.bare, Expr.bare, hf', Expr.bares_eq, Expr.bares_eq, hes]
  | plain notType hf has noBlock _ =>
    refine .bind (primary_leads hi hk hf) fun f' hf' => ?_
    refine .bind (args_lead hi (by have := hf.lt; omega) has) fun es' hes => ?_
    refine .ifFalse (some hes) (.ran Runs.context (.ifFalse (by simp [notType]) ?_))
    have block : Leads S inner.trailingBlock c b j (· = none) b j :=
      .ran Runs.context (.ran Runs.isNext
        (.ifFalse (by simpa [Setting.BlockNext] using noBlock) (.pure rfl)))
    refine .bind block ?_
    rintro _ rfl
    refine .ran Runs.previousSpan (.newExpr fun n => ?_)
    rw [Expr.bare, Expr.bare, hf', Expr.bares_eq, Expr.bares_eq, hes]
  | @block _ _ _ _ _ k' _ _ l t _ notType hf has next ht _ =>
    refine .bind (primary_leads hi hk hf) fun f' hf' => ?_
    refine .bind (args_lead hi (by have := hf.lt; omega) has) fun es' hes => ?_
    refine .ifFalse (some hes) (.ran Runs.context (.ifFalse (by simp [notType]) ?_))
    have := hf.lt
    have := has.le
    have block : Leads S inner.trailingBlock c b l (fun t' => Block.optionalBare t' = .some t.bare) b j := by
      refine .ran Runs.context (.ran Runs.isNext (.ifTrue (by simpa [Setting.BlockNext] using next) ?_))
      refine (Leads.map (hi.block (by omega) ht)).mono ?_
      rintro _ ⟨t', rfl, ht'⟩
      exact congrArg Option.some ht'
    refine .bind block fun t' ht' => .ran Runs.previousSpan (.newExpr fun n => ?_)
    rw [Expr.bare, Expr.bare, hf', Expr.bares_eq, Expr.bares_eq, hes, ht', Block.optionalBare]

omit hi in
theorem operator_leads {symbols : String} (h : S.operator? c i = some symbols) :
    Leads S Inner.operator? c b i (fun op => ∃ span, op = some ⟨symbols, span⟩) b i := by
  refine .ran Runs.nextToken ?_
  have kind : (S.input.tokens.get i).kind = S.kind i := rfl
  unfold Setting.operator? at h
  split at h
  · next hk =>
    rw [kind, hk]
    cases h
    exact .pure ⟨_, rfl⟩
  · next hk =>
    rw [kind, hk]
    split at h
    · cases h
    · next isOperator =>
      cases h
      have record : Runs S (Inner.enterName Reserved.pipe.text) c b i Reserved.pipe.text b i :=
        fun s hs => ⟨_, rfl, ⟨hs.context, hs.skips, hs.position, hs.previous, hs.inside⟩⟩
      exact .ran Runs.context (.ifFalse isOperator (.ran record (.pure ⟨_, rfl⟩)))
  · cases h

omit hi in
theorem noOperator_leads (h : S.operator? c i = none) : Leads S Inner.operator? c b i (· = none) b i := by
  refine .ran Runs.nextToken ?_
  have kind : (S.input.tokens.get i).kind = S.kind i := rfl
  rw [kind]
  unfold Setting.operator? at h
  split
  · next hk =>
    rw [hk] at h
    cases h
  · next hk =>
    rw [hk] at h
    dsimp only at h
    split at h
    · next separates => exact .ran Runs.context (.ifTrue separates (.pure rfl))
    · cases h
  · exact .pure rfl

omit hi in
theorem Setting.ne_eof_of_operator {symbols : String} (h : S.operator? c i = some symbols) :
    S.tag i ≠ .eof := by
  rcases Setting.tag_of_operator h with tag | tag <;> rw [tag] <;> exact Tag.noConfusion

/-- A chain is read from left to right, so that what goes on behind it goes on behind each of its
operands. -/
theorem chain_leads {Q : Expr → Prop} (hk : k ≤ i + 1) {l : Nat} : {e : Expr} → {j : Nat} →
    ChainAt S c b i e j → (∀ e' n, e'.bare = e.bare → S.input.tokens.size < n + j →
      Leads S (repeatUpTo (operatorRound inner) n e') c b j Q b l) →
    Leads S (do repeated (← inner.application) (operatorRound inner)) c b i Q b l
  | _, _, .one h, goOn => .bind (application_leads hi hk h) fun e' he =>
    .repeated fun n hn => goOn e' n he hn
  | _, j, @ChainAt.more _ _ _ _ _ lhs k' op r _ hl hop _ hr _, goOn => by
    refine chain_leads hk hl fun l' n hl' hn => .another hn fun m hm => ?_
    subst hm
    have := hl.lt
    have := S.lt_next b k'
    have := S.le_past (S.next b k')
    have := hr.lt
    have round : Leads S (operatorRound inner l') c b k' (fun x => ∃ e' : Expr,
        e'.bare = .binary .none lhs.bare op.bare r.bare ∧ x = .yield e') b j := by
      refine .bind (operator_leads hop) ?_
      rintro _ ⟨span, rfl⟩
      refine .ran (Runs.take (Setting.ne_eof_of_operator hop)) (.ran Runs.skipBreaks ?_)
      refine .bind (application_leads hi (by omega) hr) fun r' hr' => ?_
      refine .bind (P := fun e' => e'.bare = .binary .none lhs.bare op.bare r.bare)
        (.newExpr fun n => ?_) fun e' he => .pure ⟨e', he, rfl⟩
      rw [Expr.bare, hl', hr']
      rfl
    refine .bind round ?_
    rintro _ ⟨e', he, rfl⟩
    exact goOn e' m he (by omega)

theorem binary_leads {e : Expr} (hk : k ≤ i + 1) (h : ChainAt S c b i e j)
    (stop : S.operator? c j = none) :
    Leads S inner.binary c b i (fun e' => e'.bare = e.bare) b j := by
  refine chain_leads hi hk h fun e' n he hn => .another hn fun m hm => ?_
  subst hm
  have round : Leads S (operatorRound inner e') c b j (· = .done e') b j := by
    refine .bind (noOperator_leads stop) ?_
    rintro _ rfl
    exact .pure rfl
  refine .bind round ?_
  rintro _ rfl
  exact .pure he

/-! ## Arrows and types -/

theorem codomain_leads {e : Expr} (hk : k ≤ i) (h : ExprAt S c b (S.past i) e j) :
    Leads S inner.codomain c b i (fun e' => e'.bare = e.bare) b j :=
  .ran Runs.skipBreaks (hi.expr (Nat.le_trans hk (S.le_past i)) h)

theorem binder_leads {p q : Punct} {ps : List Param} {tr : Bool} {e : Expr} {l : Nat} (hk : k ≤ i + 1)
    (hp : S.tag i = .punct p)
    (hq : p = .openParen ∧ q = .closeParen ∨ p = .openBracket ∧ q = .closeBracket) (isSigma : Bool)
    (hps : ParamsAt S (.punct q) c.nested true (S.next true i) ps tr l) (hc : S.tag l = .punct q)
    (arrow : S.tag (S.next b l) = .reserved .arrow)
    (h : ExprAt S c b (S.past (S.next b (S.next b l))) e j) :
    Leads S (inner.binder isSigma) c b i (fun r => r.bare = if isSigma then
      .sigma .none (Param.bares ps) e.bare else .pi .none (Param.bares ps) e.bare) b j := by
  have := S.lt_next true i
  have := hps.le
  have := S.lt_next b l
  have := S.lt_next b (S.next b l)
  refine .bind (paramGroup_leads hi hk hp hq false nofun hps hc) fun (ps', span) hps' => ?_
  refine .ran (Runs.expect arrow Tag.noConfusion) ?_
  refine .bind (codomain_leads hi (by omega) h) fun e' he => .newExpr fun n => ?_
  have hps' : Param.bares ps' = Param.bares ps := hps'
  split <;> rw [Expr.bare, hps', he]

theorem arrowOrAscription_leads {e : Expr} (hk : k ≤ i + 1) (h : ExprAt S c b i e j)
    (no : S.binds b i = false) :
    Leads S inner.arrowOrAscription c b i (fun e' => e'.bare = e.bare) b j := by
  cases h with
  | binary _ h stop no_arrow no_colon =>
    refine .bind (binary_leads hi hk h stop) fun e' he => .ran (Runs.acceptNone no_arrow) ?_
    exact .ran (Runs.acceptNone no_colon) (.pure he)
  | @arrow _ _ _ _ d k' _ _ _ hd arrow h _ =>
    have := hd.lt
    have := S.lt_next b k'
    have stop := Setting.operator?_of_tag (c := c) (by rw [arrow]; decide)
    refine .bind (binary_leads hi hk hd stop) fun d' hd' => ?_
    refine .ran (Runs.acceptNext arrow Tag.noConfusion) ?_
    refine .bind (codomain_leads hi (by omega) h) fun e' he => .newExpr fun n => ?_
    rw [Expr.bare, Expr.bare, hd', he]
  | @ascription _ _ _ _ v k' _ _ _ hv colon h _ =>
    have := hv.lt
    have := S.lt_next b k'
    have stop := Setting.operator?_of_tag (c := c) (by rw [colon]; decide)
    refine .bind (binary_leads hi hk hv stop) fun v' hv' => ?_
    refine .ran (Runs.acceptNone (by rw [colon]; exact Tag.noConfusion)) ?_
    refine .ran (Runs.acceptNext colon Tag.noConfusion) ?_
    refine .bind (type_leads hi (by omega) h) fun t' ht' => .newExpr fun n => ?_
    rw [Expr.bare, Expr.bare, hv', ht']
  | pi binds _ _ _ _ _ _ | sigma binds _ _ _ _ _ _ =>
    rw [binds] at no
    cases no

theorem exprOf_leads {e : Expr} (hk : k ≤ i + 1) (h : ExprAt S c b i e j) :
    Leads S inner.exprOf c b i (fun e' => e'.bare = e.bare) b j := by
  refine .ran Runs.isBinderNext ?_
  cases h with
  | pi binds ho hps hc arrow h _ =>
    refine .ifTrue binds (.ran Runs.isNext ((binder_leads hi hk ho (.inl ⟨rfl, rfl⟩) _ hps hc arrow h).mono
      fun r hr => ?_))
    rw [hr, ho]
    rfl
  | sigma binds ho hps hc arrow h _ =>
    refine .ifTrue binds (.ran Runs.isNext ((binder_leads hi hk ho (.inr ⟨rfl, rfl⟩) _ hps hc arrow h).mono
      fun r hr => ?_))
    rw [hr, ho]
    rfl
  | binary no h stop no_arrow no_colon =>
    exact .ifFalse (by simp [no])
      (arrowOrAscription_leads hi hk (.binary no h stop no_arrow no_colon) no)
  | arrow no hd arrow h cover =>
    exact .ifFalse (by simp [no]) (arrowOrAscription_leads hi hk (.arrow no hd arrow h cover) no)
  | ascription no hv colon h cover =>
    exact .ifFalse (by simp [no]) (arrowOrAscription_leads hi hk (.ascription no hv colon h cover) no)

/-! ## Statements and blocks -/

theorem letIn_leads {m : Mark} {p : Pattern} {v : Expr} {l : Nat} (hk : k ≤ i + 1)
    (word : S.tag i = .keyword .letKw) (hp : PatternAt S b (S.next b i) p l)
    (eq : S.tag l = .reserved .eq) (hv : ExprAt S c b (S.next b l) v j) :
    Leads S inner.letIn c b i (fun form => ∀ m', (form m').bare = (Stmt.letIn m p v).bare) b j := by
  have := S.lt_next b i
  have := hp.lt
  have := S.lt_next b l
  refine .ran (Runs.take (by rw [word]; exact Tag.noConfusion)) (.bind (pattern_leads hp) fun p' hp' => ?_)
  refine .ran (Runs.expect eq Tag.noConfusion) (.bind (hi.expr (by omega) hv) fun v' hv' => .pure ?_)
  intro m'
  rw [Stmt.bare, Stmt.bare, hp', hv']

theorem stmtForm_leads {s : Stmt} (hk : k ≤ i) (h : StmtAt S c b i s j) :
    Leads S inner.stmtForm c b i (fun form => ∀ m, (form m).bare = s.bare) b j := by
  have := S.lt_next b i
  refine .ran Runs.nextTag ?_
  cases h with
  | letIn word hp eq hv _ =>
    rw [word]
    exact .inConstruct (letIn_leads hi (by omega) word hp eq hv)
  | conditional word hh ht noElse _ =>
    have := hh.lt
    rw [word]
    refine .ran (Runs.take (by rw [word]; exact Tag.noConfusion)) ?_
    refine .bind (head_leads hi (by omega) hh) fun h' hh' => ?_
    refine .bind (thenBody_leads hi (by omega) ht) fun t' ht' => ?_
    refine .bind (noElse_leads noElse) ?_
    rintro _ rfl
    refine .pure fun m => ?_
    rw [Stmt.bare, Stmt.bare, hh', ht']
  | branches word hh ht helse he _ =>
    have := hh.lt
    have := ht.lt
    rw [word]
    refine .ran (Runs.take (by rw [word]; exact Tag.noConfusion)) ?_
    refine .bind (head_leads hi (by omega) hh) fun h' hh' => ?_
    refine .bind (thenBody_leads hi (by omega) ht) fun t' ht' => ?_
    refine .bind (elseBody_leads hi (by omega) helse he) fun e' he' => .pure fun m => ?_
    rw [Stmt.bare, Stmt.bare, hh', ht', he', Body.optionalBare]
  | @ask _ _ _ _ _ k' _ _ notLet notIf ahead hp arrow hv _ =>
    have := hp.lt
    have := S.lt_next b k'
    have := S.le_past (S.next b k')
    split
    · next tag => exact absurd tag notLet
    · next tag => exact absurd tag notIf
    refine .ran Runs.isAhead (.ifTrue ahead (.bind (pattern_leads hp) fun p' hp' => ?_))
    refine .ran (Runs.expect arrow Tag.noConfusion) (.ran Runs.skipBreaks ?_)
    refine .bind (hi.expr (by omega) hv) fun v' hv' => .pure fun m => ?_
    rw [Stmt.bare, Stmt.bare, hp', hv']
  | expr notLet notIf ahead hv _ =>
    split
    · next tag => exact absurd tag notLet
    · next tag => exact absurd tag notIf
    refine .ran Runs.isAhead (.ifFalse (by simp [ahead]) ?_)
    refine .bind (hi.expr hk hv) fun v' hv' => .pure fun m => ?_
    rw [Stmt.bare, Stmt.bare, hv']

theorem stmt_leads_of {s : Stmt} (hk : k ≤ i) (h : StmtAt S c b i s j) :
    Leads S inner.stmt c b i (fun s' => s'.bare = s.bare) b j :=
  .ran Runs.nextSpan (.bind (stmtForm_leads hi hk h) fun _ hform =>
    .ran Runs.previousSpan (.newStmt hform))

theorem stmtOrError_leads {s : Stmt} (hk : k ≤ i) (h : StmtAt S .none false i s j)
    (hb : stmtBoundary.contains (S.tag j) = true) :
    Leads S inner.stmtOrError .none false i (fun s' => s'.bare = s.bare) false (S.past j) := by
  have whole : Leads S inner.wholeStmt .none false i (fun s' => s'.bare = s.bare) false j :=
    .bind (stmt_leads_of hi hk h) fun s' hs' => .ran Runs.isNextIn (.ifTrue hb (.pure hs'))
  exact .ran Runs.nextSpan (.bind (.orElse whole) fun s' hs' => .ran Runs.skipBreaks (.pure hs'))

omit hi in
theorem StmtAt.starts {s : Stmt} (h : StmtAt S c b i s j) :
    S.tag i ≠ .punct .closeBrace ∧ S.tag i ≠ .eof ∧ S.tag i ≠ .lineBreak := by
  cases h with
  | letIn word _ _ _ _ | conditional word _ _ _ _ | branches word _ _ _ _ _ =>
    rw [word]
    decide
  | ask _ _ _ hp _ _ _ =>
    have := hp.starts
    exact ⟨ne_of_contains this (by decide), ne_of_contains this (by decide),
      ne_of_contains this (by decide)⟩
  | expr _ _ _ hv _ =>
    have := hv.starts
    exact ⟨this.ne (by decide) (by decide), this.ne (by decide) (by decide),
      this.ne (by decide) (by decide)⟩

omit hi in
/-- Statements and the line breaks behind each. -/
theorem StmtsAt.items (ok : ¬ S.flawed) {ss : List Stmt} (h : StmtsAt S i ss j) :
    Items (fun i s j => ∃ k, StmtAt S .none false i s k ∧ stmtBoundary.contains (S.tag k) = true
      ∧ j = S.past k) i ss j := by
  induction ss generalizing i with
  | nil =>
    cases h with
    | none => exact .none
  | cons s ss ih =>
    cases h with
    | more h hb hs => exact .more ⟨_, h, hb, rfl⟩ (ih hs)
    | error hf _ _ _ => exact absurd hf ok

theorem blockOf_leads (ok : ¬ S.flawed) {t : Block} (hk : k ≤ i + 1) (h : BlockAt S b i t j) :
    Leads S inner.blockOf c b i (fun t' => t'.bare = t.bare) b j := by
  obtain @⟨_, _, ss, k', _, brace, hss, brace', _⟩ := h
  have := S.lt_next false i
  have := S.le_past (S.next false i)
  have lt (i : Nat) (s : Stmt) (j : Nat) (h : ∃ k, StmtAt S .none false i s k
      ∧ stmtBoundary.contains (S.tag k) = true ∧ j = S.past k) : i < j := by
    obtain ⟨k, h, -, rfl⟩ := h
    exact Nat.lt_of_lt_of_le h.lt (S.le_past k)
  have items := ((hss.items ok).behind lt (k := k) (by omega)).mono (Q := fun i s j =>
    (!decide (S.tag i = .punct .closeBrace) && !decide (S.tag i = .eof)) = true ∧ i < j
      ∧ Leads S inner.stmtOrError .none false i (fun s' => s'.bare = s.bare) false j) fun i s j h => by
    refine ⟨?_, lt i s j h.2, ?_⟩
    · obtain ⟨_, _, h, _⟩ := h
      exact inBraces_of_ne h.starts.1 h.starts.2.1
    · obtain ⟨le, _, h, hb, rfl⟩ := h
      exact stmtOrError_leads hi le h hb
  refine .ran Runs.isNotNext (.ifFalse (by simp [brace]) ?_)
  refine .ran (Runs.openBrace (by rw [brace]; exact Tag.noConfusion)) (.ran Runs.skipBreaks ?_)
  refine .bind (.within (.collectWhile (fun _ => Runs.isInBraces) items (not_inBraces brace')))
    fun ss' hss' => .ran (Runs.closeBrace_here brace') (.pure ?_)
  rw [Block.bare, Block.bare, Stmt.bares_eq, Stmt.bares_eq, hss']

end

/-! ## The knot -/

theorem innerUpTo_leads (ok : ¬ S.flawed) (depth : Nat) :
    (innerUpTo depth).Leads S (S.input.tokens.size + 1 - depth) := by
  induction depth with
  | zero =>
    exact ⟨fun hi _ s hs => absurd hs.inside (by omega), fun hi _ s hs => absurd hs.inside (by omega)⟩
  | succ depth ih =>
    rw [innerUpTo]
    exact ⟨fun hi h => exprOf_leads ih (by omega) h, fun hi h => blockOf_leads ih ok (by omega) h⟩

theorem inner_leads (ok : ¬ S.flawed) : inner.Leads S 0 where
  expr _ h := by
    intro s hs
    rw [inner_expr_run]
    exact (innerUpTo_leads ok _).expr (by omega) h s hs
  block _ h := by
    intro s hs
    rw [inner_block_run]
    exact (innerUpTo_leads ok _).block (by omega) h s hs

/-- What the rules derive as an expression is read as one. -/
theorem expr_leads (ok : ¬ S.flawed) {e : Expr} (h : ExprAt S c b i e j) :
    Leads S expr c b i (fun e' => e'.bare = e.bare) b j :=
  (inner_leads ok).expr (Nat.zero_le i) h

/-- What the rules derive as a block is read as one. -/
theorem block_leads (ok : ¬ S.flawed) {t : Block} (h : BlockAt S b i t j) :
    Leads S block c b i (fun t' => t'.bare = t.bare) b j :=
  (inner_leads ok).block (Nat.zero_le i) h

/-- What the rules derive as a statement is read as one. -/
theorem stmt_leads (ok : ¬ S.flawed) {s : Stmt} (h : StmtAt S c b i s j) :
    Leads S stmt c b i (fun s' => s'.bare = s.bare) b j :=
  stmt_leads_of (inner_leads ok) (Nat.zero_le i) h

end Surface.Grammar
