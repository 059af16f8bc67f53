import Surface.Proofs.Parsing.Text
import Surface.Proofs.Reader.Procedures

/-!
# Readers move forward

A stream that comes from a text ends in its only end. No reader goes beyond it, and a reader of anything
that is not empty has taken a token when it succeeds.

Results:
* `Tokens.EndsOnce`: a stream that ends in its only end; `lexChars_endsOnce`: those of texts.
* `stopping`: all readers stay in front of the end of the stream.
* `Advances`: the readers whose successful runs take a token.
-/

namespace Surface

/-! ## Streams with one end -/

/-- The stream ends in its only end. -/
structure Tokens.EndsOnce (ts : Tokens) : Prop where
  nonempty : 0 < ts.size
  eof_iff : ∀ p, p < ts.size → ((ts.get p).kind = .eof ↔ p + 1 = ts.size)

namespace Tokens.EndsOnce

variable {ts : Tokens} {p : Nat}

theorem get_tag (h : ts.EndsOnce) (p : Nat) : (ts.get p).tag = ts.tag p := by
  have := h.nonempty
  exact Tokens.get_tag ((h.eof_iff (ts.size - 1) (by omega)).2 (by omega)) p

theorem kind_tag_eq_eof {k : TokenKind} : k.tag = .eof ↔ k = .eof := by
  cases k <;> simp [TokenKind.tag]

theorem tag_eq_eof_iff (h : ts.EndsOnce) (hp : p < ts.size) : ts.tag p = .eof ↔ p + 1 = ts.size := by
  rw [Tokens.tag_of_lt hp, kind_tag_eq_eof]
  exact h.eof_iff p hp

theorem pastBreaks_lt (h : ts.EndsOnce) (hp : p < ts.size) : pastBreaks ts p < ts.size := by
  fun_induction pastBreaks ts p with
  | case1 p tag lt ih =>
    have inside : p + 1 ≠ ts.size := fun last => by
      rw [(h.tag_eq_eof_iff hp).2 last] at tag
      cases tag
    exact ih (by omega)
  | case2 p _ => exact hp

variable {c : Cursor}

theorem step_lt (h : ts.EndsOnce) (hc : c.position < ts.size) : (c.step ts).position < ts.size := by
  by_cases he : c.tag ts = .eof
  · rwa [Grammar.step_of_eof he]
  · have inside : c.position + 1 ≠ ts.size := fun last => he ((h.tag_eq_eof_iff hc).2 last)
    have next : c.position + 1 < ts.size := by omega
    rw [Grammar.step_of_ne_eof he]
    split
    · exact h.pastBreaks_lt next
    · exact next

theorem resumeAt_lt (h : ts.EndsOnce) (boundary : TagSet) (depth : Nat) (hc : c.position < ts.size) :
    (c.resumeAt ts boundary depth).position < ts.size := by
  fun_induction Cursor.resumeAt ts boundary depth c with
  | case1 => exact hc
  | case2 _ c _ _ _ _ ih => exact ih (h.step_lt hc)
  | case3 => exact hc
  | case4 _ c _ _ _ _ _ _ ih => exact ih (h.step_lt hc)
  | case5 => exact hc
  | case6 _ c _ _ _ _ _ _ ih => exact ih (h.step_lt hc)

end Tokens.EndsOnce

/-- What has been lexed ends in its only end. -/
theorem lexChars_endsOnce (cs : List Char) (names : NameTable) : (lexChars cs names).tokens.EndsOnce := by
  obtain ⟨body, spacing, h, others, _⟩ := lexChars_tokens cs names
  have size : (lexChars cs names).tokens.size = body.length + 1 := by
    show Array.size _ = _
    rw [← Array.length_toList, h, List.length_append, List.length_singleton]
  refine ⟨by omega, fun p hp => ?_⟩
  by_cases last : p < body.length
  · rw [(Grammar.tokens_get_body h last).1]
    exact iff_of_false (others _ (List.getElem_mem last)) (by omega)
  · rw [Grammar.tokens_get_end h (Nat.not_lt.1 last)]
    exact iff_of_true rfl (by omega)

namespace Grammar

variable {α β : Type}

/-! ## The end is never passed -/

/-- No reader passes the end. -/
def stopping : Invariant where
  rel i s t := i.tokens.EndsOnce → s.cursor.position < i.tokens.size → t.cursor.position < i.tokens.size
  admits _ _ := True
  admits_of _ _ _ _ := trivial
  admitsPattern _ _ := True
  admitsPattern_of _ _ _ := trivial
  refl _ _ _ h := h
  trans h h' once hs := h' once (h once hs)
  step _ _ once h := once.step_lt h
  skipBreaks _ _ once h := once.pastBreaks_lt h
  skipping _ _ _ _ h := h
  resume _ _ boundary once h := once.resumeAt_lt boundary 0 h
  within h := h
  expr _ _ _ _ _ h := h
  pattern _ _ _ _ _ h := h
  stmt _ _ _ _ h := h
  error _ _ _ _ h := h
  name _ _ _ h := h

instance (form : Mark → Expr) : Builds stopping form := ⟨fun _ _ => trivial⟩

/-! ## Taking a token -/

/-- A run from a state takes a token if it succeeds. -/
def AdvancesFrom (i : Input) (s : State) (r : Reader α) : Prop :=
  ∀ a t, r i s = .ok a t → s.cursor.position < t.cursor.position

/-- A reader whose successful runs take a token. -/
class Advances (r : Reader α) : Prop where
  from_any : ∀ {i}, i.tokens.EndsOnce → ∀ s, AdvancesFrom i s r

theorem Advances.lt {r : Reader α} [h : Advances r] {i : Input} {s t : State} {a : α}
    (once : i.tokens.EndsOnce) (run : r i s = .ok a t) : s.cursor.position < t.cursor.position :=
  h.from_any once s a t run

theorem Advances.of_fails {r : Reader α} (h : ∀ i s a t, r i s ≠ .ok a t) : Advances r :=
  ⟨fun _ _ _ _ run => absurd run (h _ _ _ _)⟩

instance (w : Wanted) : Advances (absent w : Reader α) := .of_fails fun _ _ _ _ => absent_ne_ok

/-- What is read first takes a token. -/
instance {x : Reader α} {f : α → Reader β} [Advances x] [∀ a, Steady (f a)] : Advances (x >>= f) := by
  constructor
  intro i once s b t run
  obtain ⟨a, u, first, rest⟩ := bind_ok.1 run
  exact Nat.lt_of_lt_of_le (Advances.lt once first) (Steady.ok rest).position

/-- What is read afterwards takes a token. -/
instance {x : Reader α} {f : α → Reader β} [Steady x] [∀ a, Advances (f a)] : Advances (x >>= f) := by
  constructor
  intro i once s b t run
  obtain ⟨a, u, first, rest⟩ := bind_ok.1 run
  exact Nat.lt_of_le_of_lt (Steady.ok first).position (Advances.lt once rest)

theorem Advances.first {x : Reader α} {f : α → Reader β} (hx : Advances x) (hf : ∀ a, Steady (f a)) :
    Advances (x >>= f) := inferInstance

theorem Advances.later {x : Reader α} {f : α → Reader β} (hx : Steady x) (hf : ∀ a, Advances (f a)) :
    Advances (x >>= f) := inferInstance

instance {x : Reader α} {f : α → β} [Advances x] : Advances (f <$> x) := by
  constructor
  intro i once s b t run
  obtain ⟨a, run, _⟩ := map_ok.1 run
  exact Advances.lt once run

instance {p : Prop} [Decidable p] {x y : Reader α} [Advances x] [Advances y] :
    Advances (if p then x else y) := by
  split <;> infer_instance

instance {derive : Context → Context} {r : Reader α} [Advances r] : Advances (within derive r) := by
  constructor
  intro i once s a t run
  obtain ⟨u, inside, rfl⟩ := within_ok.1 run
  have lt : (s.inContext (derive s.context)).cursor.position < u.cursor.position :=
    Advances.lt once inside
  exact lt

instance {form : Construct} {r : Reader α} [Advances r] : Advances (inConstruct form r) :=
  ⟨fun once _ _ _ run => Advances.lt once (inConstruct_ok.1 run)⟩

namespace AdvancesFrom

variable {i : Input} {s : State}

theorem first {x : Reader α} {f : α → Reader β} [∀ a, Steady (f a)] (h : AdvancesFrom i s x) :
    AdvancesFrom i s (x >>= f) := by
  intro b t run
  obtain ⟨a, u, first, rest⟩ := bind_ok.1 run
  exact Nat.lt_of_lt_of_le (h a u first) (Steady.ok rest).position

/-- Looking ahead decides on what is read. -/
theorem behind {x : Reader α} {f : α → Reader β} {a : α} (look : x i s = .ok a s)
    (h : AdvancesFrom i s (f a)) : AdvancesFrom i s (x >>= f) := by
  intro b t run
  rw [bind_of_ok look] at run
  exact h b t run

theorem take (h : s.cursor.tag i.tokens ≠ .eof) : AdvancesFrom i s take := by
  intro a t run
  rw [take_run] at run
  cases run
  exact Cursor.lt_position_step h

theorem openGroup (h : s.cursor.tag i.tokens ≠ .eof) : AdvancesFrom i s openGroup := by
  intro a t run
  rw [openGroup_run] at run
  cases run
  exact Cursor.lt_position_step (c := skipping true s.cursor) h

theorem openBrace (h : s.cursor.tag i.tokens ≠ .eof) : AdvancesFrom i s openBrace := by
  intro a t run
  rw [openBrace_run] at run
  cases run
  exact Cursor.lt_position_step (c := skipping false s.cursor) h

end AdvancesFrom

instance (g : Opened) : Advances (closeGroup g) := by
  constructor
  intro i _ s span t run
  have tag := tag_of_closeGroup run
  have close := closeGroup_of_tag tag
  rw [run] at close
  cases close
  have ahead : s.cursor.position ≤ (g.closing i.tokens s.cursor).position := by
    unfold Opened.closing
    rw [skipping_position]
    split
    · exact position_le_skipBreaks i.tokens s.cursor
    · exact Nat.le_refl _
  have closes : (g.closing i.tokens s.cursor).tag i.tokens ≠ .eof := by
    rw [tag]
    exact Tag.noConfusion
  exact Nat.lt_of_le_of_lt ahead (Cursor.lt_position_step closes)

/-! ## Names and patterns -/

/-- What the next token is, its tag tells. -/
theorem ne_eof_of_tag {i : Input} {s : State} {t : Tag} (once : i.tokens.EndsOnce)
    (h : (i.tokens.get s.cursor.position).tag = t) (ht : t ≠ .eof) : s.cursor.tag i.tokens ≠ .eof := by
  rwa [Cursor.tag, ← once.get_tag, h]

theorem ne_eof_of_literal {i : Input} {s : State} {v : Literal} (once : i.tokens.EndsOnce)
    (h : (i.tokens.get s.cursor.position).kind.literal? = some v) : s.cursor.tag i.tokens ≠ .eof := by
  refine ne_eof_of_tag once rfl fun ended => ?_
  rw [Tokens.EndsOnce.kind_tag_eq_eof.1 ended] at h
  cases h

instance : Advances ident := by
  constructor
  intro i once s
  refine .behind (nextToken_run i s) ?_
  split
  · next name =>
    refine .first (.take (ne_eof_of_tag once rfl fun ended => ?_))
    rw [Tokens.EndsOnce.kind_tag_eq_eof.1 ended] at name
    cases name
  · exact Advances.from_any once s

instance : Advances path := by
  unfold path
  infer_instance

instance {inner : Reader Pattern} [Steady inner] : Advances (atomicPatternOf inner) := by
  constructor
  intro i once s
  refine .behind (nextToken_run i s) ?_
  split
  · next literal => exact .first (.take (ne_eof_of_literal once literal))
  · split
    · exact Advances.from_any once s
    · exact Advances.from_any once s
    · next tag => exact .first (.take (ne_eof_of_tag once tag Tag.noConfusion))
    · exact Advances.from_any once s
    · exact Advances.from_any once s

instance {inner : Reader Pattern} [Steady inner] : Advances (patternOf inner) := by
  unfold patternOf
  infer_instance

instance (depth : Nat) : Advances (patternUpTo depth) := by
  cases depth with
  | zero => exact inferInstanceAs (Advances (absent _))
  | succ depth => exact inferInstanceAs (Advances (patternOf (patternUpTo depth)))

instance : Advances pattern :=
  ⟨fun {i} once _ _ _ run => Advances.lt (r := patternUpTo (i.tokens.size + 1)) once run⟩

instance : Advances atomicPattern := inferInstanceAs (Advances (atomicPatternOf pattern))

/-! ## Expressions, statements and blocks -/

section

variable {inner : Inner} [inner.Steady]

instance : Advances inner.param := by
  unfold Inner.param
  infer_instance

instance (nonEmpty : Bool) : Advances (inner.paramGroup nonEmpty) := by
  unfold Inner.paramGroup
  infer_instance

instance : Advances inner.tuple := by
  unfold Inner.tuple
  infer_instance

instance : Advances inner.array := by
  unfold Inner.array
  infer_instance

instance : Advances inner.arm := by
  unfold Inner.arm
  refine .first inferInstance fun pattern => .bind inferInstance fun _ =>
    .bind inferInstance fun _ => .bind inferInstance fun body => ?_
  refine .bind inferInstance fun _ => .bind inferInstance fun comma =>
    .bind inferInstance fun _ => .bind inferInstance fun _ => .bind inferInstance fun _ => ?_
  infer_instance

instance : Advances Inner.reference := by
  unfold Inner.reference
  infer_instance

instance : Advances inner.matchOn := by
  unfold Inner.matchOn
  have arms : Steady (within (fun _ => .none) (collectWhile Inner.isInBraces inner.arm)) := inferInstance
  refine .later inferInstance fun start => .later inferInstance fun scrutinee =>
    .later inferInstance fun _ => ?_
  infer_instance

instance : Advances inner.primary := by
  constructor
  intro i once s
  refine .behind (nextToken_run i s) ?_
  split
  · next literal => exact .first (.take (ne_eof_of_literal once literal))
  · split
    · exact Advances.from_any once s
    · exact Advances.from_any once s
    · exact Advances.from_any once s
    · exact Advances.from_any once s
    · next tag =>
      have := @Steady.elseBody Expr String
      exact .first (.take (ne_eof_of_tag once tag Tag.noConfusion))
    · exact Advances.from_any once s
    · next tag => exact .first (.take (ne_eof_of_tag once tag Tag.noConfusion))
    · refine .behind (isLambdaNext_run i s) ?_
      split
      · next opens =>
        refine .first (.take (ne_eof_of_tag once rfl fun ended => ?_))
        rw [Tokens.EndsOnce.kind_tag_eq_eof.1 ended] at opens
        cases opens
      · exact Advances.from_any once s

instance : Advances inner.application := by
  unfold Inner.application
  infer_instance

instance : Advances inner.binary :=
  .first inferInstance fun lhs => inferInstanceAs (Steady (repeated lhs (operatorRound inner)))

instance (isSigma : Bool) : Advances (inner.binder isSigma) := by
  unfold Inner.binder
  infer_instance

instance : Advances inner.arrowOrAscription := by
  unfold Inner.arrowOrAscription
  infer_instance

instance : Advances inner.exprOf := by
  unfold Inner.exprOf
  infer_instance

instance : Advances inner.blockOf := by
  unfold Inner.blockOf
  have stmts : Steady (within (fun _ => .none) (collectWhile Inner.isInBraces inner.stmtOrError)) :=
    inferInstance
  refine .later inferInstance fun _ => ?_
  infer_instance

end

/-- Readers of expressions and blocks that take a token. -/
class Inner.Advances (inner : Inner) : Prop where
  expr : Grammar.Advances inner.expr
  block : Grammar.Advances inner.block

instance {inner : Inner} [inner.Advances] : Advances inner.expr := Inner.Advances.expr

instance {inner : Inner} [inner.Advances] : Advances inner.block := Inner.Advances.block

instance (depth : Nat) : (innerUpTo depth).Advances := by
  cases depth with
  | zero =>
    rw [innerUpTo]
    exact ⟨inferInstance, inferInstance⟩
  | succ depth =>
    have expr : Advances (innerUpTo depth).exprOf := inferInstance
    have block : Advances (innerUpTo depth).blockOf := inferInstance
    rw [innerUpTo]
    exact ⟨expr, block⟩

instance : inner.Advances where
  expr := ⟨fun {i} once s _ _ run =>
    Advances.lt (r := (innerUpTo (i.tokens.size + 1)).expr) once (inner_expr_run i s ▸ run)⟩
  block := ⟨fun {i} once s _ _ run =>
    Advances.lt (r := (innerUpTo (i.tokens.size + 1)).block) once (inner_block_run i s ▸ run)⟩

theorem Inner.Knotted.advances {inner : Inner} (h : inner.Knotted) : inner.Advances := by
  cases h <;> infer_instance

section

variable {inner : Inner} [inner.Steady] [inner.Advances]

instance : Advances inner.letIn := by
  unfold Inner.letIn
  infer_instance

instance : Advances inner.conditionalStmt := by
  unfold Inner.conditionalStmt
  have : Advances inner.head := by
    unfold Inner.head
    infer_instance
  infer_instance

instance : Advances inner.ask := by
  unfold Inner.ask
  infer_instance

instance : Advances inner.stmtForm := by
  unfold Inner.stmtForm
  refine .later inferInstance fun tag => ?_
  split <;> infer_instance

instance : Advances inner.stmt := by
  unfold Inner.stmt
  infer_instance

instance : Advances inner.wholeStmt := by
  unfold Inner.wholeStmt
  infer_instance

end

instance : Advances expr := inferInstanceAs (Advances inner.expr)

instance : Advances block := inferInstanceAs (Advances inner.block)

instance : Advances stmt := inferInstanceAs (Advances inner.stmt)

/-! ## Declarations and items -/

instance : Advances attr := by
  unfold attr
  infer_instance

instance : Advances paramList := by
  unfold paramList
  infer_instance

instance : Advances signature := by
  unfold signature
  infer_instance

instance : Advances clause := by
  unfold clause
  infer_instance

instance : Advances command := by
  unfold command
  infer_instance

instance : Advances ctorParam := by
  unfold ctorParam
  have : Advances inner.type := by
    unfold Inner.type
    infer_instance
  infer_instance

instance : Advances ctor := by
  unfold ctor
  infer_instance

instance : Advances ctorItem := by
  unfold ctorItem
  refine .first inferInstance fun ctor => .bind inferInstance fun comma =>
    .bind inferInstance fun semicolon => ?_
  dsimp only
  infer_instance

instance : Advances method := by
  unfold method
  infer_instance

instance : Advances typeDecl := by
  unfold typeDecl
  infer_instance

instance : Advances declForm := by
  unfold declForm
  refine .later inferInstance fun tag => ?_
  split <;> infer_instance

instance (docsFrom : Nat) : Advances (decl docsFrom) := by
  unfold decl
  infer_instance

instance (asDecl : Bool) (docsFrom : Nat) : Advances (wholeItem asDecl docsFrom) := by
  unfold wholeItem
  infer_instance

end Grammar

end Surface
