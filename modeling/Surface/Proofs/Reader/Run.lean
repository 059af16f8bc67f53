import Mathlib.Tactic.ByContra
import Surface.Grammar.File

/-!
# Running readers

A reader is a function from an input and a state to a result. The equations here say what the
readers at the bottom of the grammar yield, so that a run of a larger reader is taken apart from
left to right without opening the smaller ones.

Results:
* `bind_ok`, `bind_of_ok`: a run of two readers one after the other.
* `isNext_run`, `take_run`, `takeIf_of_tag`, ...: the readers of single tokens.
* `openGroup_run`, `openBrace_run`, `closeGroup_of_tag`: the readers of brackets.
-/

namespace Surface.Grammar

variable {α β ν : Type}

/-! ## Sequences, choices and results -/

theorem bind_run (x : ReaderOf ν α) (f : α → ReaderOf ν β) (i : Input ν) (s : State ν) :
    (x >>= f) i s = match x i s with | .ok a t => f a i t | .error e t => .error e t := by
  simp only [bind, ReaderT.bind, EStateM.bind]
  cases x i s <;> rfl

theorem bind_ok {x : ReaderOf ν α} {f : α → ReaderOf ν β} {i : Input ν} {s s' : State ν} {b : β} :
    (x >>= f) i s = .ok b s' ↔ ∃ a t, x i s = .ok a t ∧ f a i t = .ok b s' := by
  rw [bind_run]
  cases x i s with
  | ok a t =>
    constructor
    · intro h
      exact ⟨a, t, rfl, h⟩
    · rintro ⟨_, _, ⟨⟩, h⟩
      exact h
  | error e t => simp

theorem bind_of_ok {x : ReaderOf ν α} {f : α → ReaderOf ν β} {i : Input ν} {s t : State ν} {a : α}
    (h : x i s = .ok a t) : (x >>= f) i s = f a i t := by
  rw [bind_run, h]

theorem map_run (f : α → β) (x : ReaderOf ν α) (i : Input ν) (s : State ν) :
    (f <$> x) i s = match x i s with | .ok a t => .ok (f a) t | .error e t => .error e t := by
  simp only [Functor.map, EStateM.map]
  cases x i s <;> rfl

theorem map_ok {f : α → β} {x : ReaderOf ν α} {i : Input ν} {s s' : State ν} {b : β} :
    (f <$> x) i s = .ok b s' ↔ ∃ a, x i s = .ok a s' ∧ f a = b := by
  rw [map_run]
  cases x i s with
  | ok a t =>
    constructor
    · rintro ⟨⟩
      exact ⟨a, rfl, rfl⟩
    · rintro ⟨_, ⟨⟩, rfl⟩
      rfl
  | error e t => simp

theorem ite_run {p : Prop} [Decidable p] (x y : ReaderOf ν α) (i : Input ν) (s : State ν) :
    (if p then x else y) i s = if p then x i s else y i s := by
  split <;> rfl

theorem read_run (i : Input ν) (s : State ν) : (read : ReaderOf ν (Input ν)) i s = .ok i s := rfl

/-! ## Looking ahead -/

theorem cursor_run (i : Input ν) (s : State ν) : cursor i s = .ok s.cursor s := rfl

theorem context_run (i : Input ν) (s : State ν) : context i s = .ok s.context s := rfl

theorem nextToken_run (i : Input ν) (s : State ν) :
    nextToken i s = .ok (i.tokens.get s.cursor.position) s := rfl

theorem nextSpan_run (i : Input ν) (s : State ν) :
    nextSpan i s = .ok (i.tokens.get s.cursor.position).span s := rfl

theorem nextTag_run (i : Input ν) (s : State ν) : nextTag i s = .ok (s.cursor.tag i.tokens) s := rfl

theorem tagBehind_run (i : Input ν) (s : State ν) :
    tagBehind i s = .ok (i.tokens.tag (s.cursor.position + 1)) s := rfl

theorem previousSpan_run (i : Input ν) (s : State ν) :
    previousSpan i s = .ok s.cursor.previous s := rfl

theorem isNext_run (t : Tag) (i : Input ν) (s : State ν) :
    isNext t i s = .ok (decide (s.cursor.tag i.tokens = t)) s := rfl

theorem isNotNext_run (t : Tag) (i : Input ν) (s : State ν) :
    isNotNext t i s = .ok (!decide (s.cursor.tag i.tokens = t)) s := rfl

theorem isNextIn_run (ts : TagSet) (i : Input ν) (s : State ν) :
    isNextIn ts i s = .ok (ts.contains (s.cursor.tag i.tokens)) s := rfl

theorem isNameNext_run (i : Input ν) (s : State ν) :
    isNameNext i s = .ok (nameTags.contains (s.cursor.tag i.tokens)) s := rfl

theorem isAhead_run (t : Tag) (i : Input ν) (s : State ν) :
    isAhead t i s = .ok (occursBeforeBreak i.tokens i.groups t s.cursor.position) s := rfl

theorem isBinderNext_run (i : Input ν) (s : State ν) :
    isBinderNext i s =
      .ok (arrowFollowsGroup i.tokens i.groups s.cursor.skipsBreaks s.cursor.position) s := rfl

theorem isSegmentNext_run (i : Input ν) (s : State ν) :
    isSegmentNext i s = .ok (decide (s.cursor.tag i.tokens = .reserved .dot)
      && nameTags.contains (i.tokens.tag (s.cursor.position + 1))) s := by
  unfold isSegmentNext
  rw [bind_of_ok (isNext_run _ i s)]
  cases decide (s.cursor.tag i.tokens = .reserved .dot) <;> rfl

theorem isNextPastBreak_run (t : Tag) (i : Input ν) (s : State ν) :
    isNextPastBreak t i s = .ok (if s.cursor.tag i.tokens = .lineBreak then
      decide (i.tokens.tag (s.cursor.position + 1) = t)
      else decide (s.cursor.tag i.tokens = t)) s := by
  unfold isNextPastBreak
  rw [bind_of_ok (isNext_run _ i s)]
  by_cases h : s.cursor.tag i.tokens = .lineBreak <;> simp only [h, decide_true, decide_false] <;> rfl

theorem isInBraces_run (i : Input ν) (s : State ν) :
    Inner.isInBraces i s = .ok (!decide (s.cursor.tag i.tokens = .punct .closeBrace)
      && !decide (s.cursor.tag i.tokens = .eof)) s := by
  unfold Inner.isInBraces
  rw [bind_of_ok (isNotNext_run _ i s)]
  cases !decide (s.cursor.tag i.tokens = .punct .closeBrace) <;> rfl

theorem isInBraces_ok {i : Input ν} {s t : State ν} (h : Inner.isInBraces i s = .ok true t) :
    t = s ∧ s.cursor.tag i.tokens ≠ .punct .closeBrace ∧ s.cursor.tag i.tokens ≠ .eof := by
  rw [isInBraces_run] at h
  obtain ⟨inside, same⟩ := EStateM.Result.ok.inj h
  simp only [Bool.and_eq_true, Bool.not_eq_true', decide_eq_false_iff_not] at inside
  exact ⟨same.symm, inside⟩

/-- Whether a token of this kind opens a lambda. -/
def opensLambda : TokenKind → Bool
  | .reserved .pipe => true
  | .operator symbols => symbols == "||"
  | _ => false

theorem isLambdaNext_run (i : Input) (s : State) :
    Inner.isLambdaNext i s = .ok (opensLambda (i.tokens.get s.cursor.position).kind) s := by
  unfold Inner.isLambdaNext
  rw [bind_of_ok (nextToken_run i s)]
  rcases (i.tokens.get s.cursor.position).kind with _ | _ | _ | _ | _ | _ | _ | r | _ | _ | _ | _ <;>
    first | rfl | (cases r <;> rfl)

theorem isSemicolonNext_run (i : Input ν) (s : State ν) :
    isSemicolonNext i s = .ok (decide ((i.tokens.get s.cursor.position).tag = .lineBreak)
      && (i.tokens.get s.cursor.position).spacing.contains Spacing.hasSemicolon) s := rfl

/-! ## Taking tokens -/

/-- The cursor in another line-break mode. -/
def skipping (b : Bool) (c : Cursor) : Cursor := { c with skipsBreaks := b }

@[simp] theorem skipping_position (b : Bool) (c : Cursor) : (skipping b c).position = c.position :=
  rfl

@[simp] theorem skipping_previous (b : Bool) (c : Cursor) : (skipping b c).previous = c.previous :=
  rfl

@[simp] theorem skipping_skipsBreaks (b : Bool) (c : Cursor) : (skipping b c).skipsBreaks = b := rfl

@[simp] theorem skipping_tag (b : Bool) (c : Cursor) (ts : Tokens ν) :
    (skipping b c).tag ts = c.tag ts := rfl

/-- The state with another cursor. -/
def State.moved (s : State ν) (c : Cursor) : State ν := { s with cursor := c }

@[simp] theorem State.moved_cursor (s : State ν) (c : Cursor) : (s.moved c).cursor = c := rfl

@[simp] theorem State.moved_context (s : State ν) (c : Cursor) : (s.moved c).context = s.context := rfl

@[simp] theorem State.moved_nodes (s : State ν) (c : Cursor) : (s.moved c).nodes = s.nodes := rfl

@[simp] theorem State.moved_errors (s : State ν) (c : Cursor) : (s.moved c).errors = s.errors := rfl

theorem take_run (i : Input ν) (s : State ν) :
    take i s = .ok (i.tokens.get s.cursor.position) (s.moved (s.cursor.step i.tokens)) := rfl

theorem skipBreaks_run (i : Input ν) (s : State ν) :
    skipBreaks i s = .ok () (s.moved (s.cursor.skipBreaks i.tokens)) := rfl

theorem setSkipsBreaks_run (b : Bool) (i : Input ν) (s : State ν) :
    setSkipsBreaks b i s = .ok () (s.moved (skipping b s.cursor)) := rfl

theorem takeIf_of_tag {t : Tag} {i : Input ν} {s : State ν} (h : s.cursor.tag i.tokens = t) :
    takeIf t i s =
      .ok (some (i.tokens.get s.cursor.position).span) (s.moved (s.cursor.step i.tokens)) := by
  unfold takeIf
  rw [bind_of_ok (isNext_run t i s), ite_run, if_pos (decide_eq_true h)]
  rfl

theorem takeIf_of_ne {t : Tag} {i : Input ν} {s : State ν} (h : s.cursor.tag i.tokens ≠ t) :
    takeIf t i s = .ok none s := by
  unfold takeIf
  rw [bind_of_ok (isNext_run t i s), ite_run, if_neg (by simpa using h)]
  rfl

theorem accept_of_tag {t : Tag} {i : Input ν} {s : State ν} (h : s.cursor.tag i.tokens = t) :
    accept t i s = .ok true (s.moved (s.cursor.step i.tokens)) := by
  unfold accept
  rw [bind_of_ok (takeIf_of_tag h)]
  rfl

theorem accept_of_ne {t : Tag} {i : Input ν} {s : State ν} (h : s.cursor.tag i.tokens ≠ t) :
    accept t i s = .ok false s := by
  unfold accept
  rw [bind_of_ok (takeIf_of_ne h)]
  rfl

theorem expect_of_tag {t : Tag} {i : Input ν} {s : State ν} (h : s.cursor.tag i.tokens = t) :
    expect t i s =
      .ok (i.tokens.get s.cursor.position).span (s.moved (s.cursor.step i.tokens)) := by
  unfold expect
  rw [bind_of_ok (takeIf_of_tag h)]
  rfl

theorem tag_of_expect {t : Tag} {i : Input ν} {s s' : State ν} {span : Span}
    (h : expect t i s = .ok span s') : s.cursor.tag i.tokens = t := by
  by_contra hne
  rw [expect, bind_of_ok (takeIf_of_ne hne)] at h
  cases h

/-! ## Failure -/

theorem failWith_run (problem : Tag → Problem) (i : Input ν) (s : State ν) :
    (failWith problem : ReaderOf ν α) i s =
      .error (.atToken (i.tokens.get s.cursor.position) problem) s := rfl

theorem absent_ne_ok {w : Wanted} {i : Input ν} {s s' : State ν} {a : α} :
    (absent w : ReaderOf ν α) i s ≠ .ok a s' := by
  intro h
  cases h

theorem inConstruct_run (form : Construct) (r : ReaderOf ν α) (i : Input ν) (s : State ν) :
    inConstruct form r i s = match r i s with
      | .ok a s' => .ok a s'
      | .error e s' => .error (e.within form) s' := rfl

theorem inConstruct_ok {form : Construct} {r : ReaderOf ν α} {i : Input ν} {s s' : State ν} {a : α} :
    inConstruct form r i s = .ok a s' ↔ r i s = .ok a s' := by
  rw [inConstruct_run]
  cases r i s <;> simp

theorem orElse_run (r : ReaderOf ν α) (replace : SyntaxError → ReaderOf ν α) (i : Input ν) (s : State ν) :
    orElse r replace i s = match r i s with
      | .ok a s' => .ok a s'
      | .error e s' => replace e i s' := rfl

/-! ## Contexts and nodes -/

/-- The state in another context. -/
def State.inContext (s : State ν) (c : Context) : State ν := { s with context := c }

theorem within_run (derive : Context → Context) (r : ReaderOf ν α) (i : Input ν) (s : State ν) :
    within derive r i s = match r i (s.inContext (derive s.context)) with
      | .ok a s' => .ok a (s'.inContext s.context)
      | .error e s' => .error e (s'.inContext s.context) := rfl

theorem within_ok {derive : Context → Context} {r : ReaderOf ν α} {i : Input ν} {s s' : State ν} {a : α} :
    within derive r i s = .ok a s' ↔
      ∃ t, r i (s.inContext (derive s.context)) = .ok a t ∧ s' = t.inContext s.context := by
  rw [within_run]
  cases r i (s.inContext (derive s.context)) with
  | ok b t => simp only [EStateM.Result.ok.injEq]; grind
  | error e t => simp

theorem newExpr_run (span : Span) (form : Mark → Expr ν) (i : Input ν) (s : State ν) :
    newExpr span form i s = .ok (form ⟨s.nodes.exprs.size, span⟩)
      { s with nodes := { s.nodes with
          exprs := s.nodes.exprs.push (form ⟨s.nodes.exprs.size, span⟩) } } := rfl

theorem newPattern_run (span : Span) (form : Mark → Pattern ν) (i : Input ν) (s : State ν) :
    newPattern span form i s = .ok (form ⟨s.nodes.patterns.size, span⟩)
      { s with nodes := { s.nodes with
          patterns := s.nodes.patterns.push (form ⟨s.nodes.patterns.size, span⟩) } } := rfl

theorem newStmt_run (span : Span) (form : Mark → Stmt ν) (i : Input ν) (s : State ν) :
    newStmt span form i s = .ok (form ⟨s.nodes.stmts.size, span⟩)
      { s with nodes := { s.nodes with
          stmts := s.nodes.stmts.push (form ⟨s.nodes.stmts.size, span⟩) } } := rfl

/-! ## Brackets -/

theorem openGroup_run (i : Input ν) (s : State ν) :
    openGroup i s = .ok
      ⟨if s.cursor.tag i.tokens = .punct .openBracket then .closeBracket else .closeParen,
        (i.tokens.get s.cursor.position).span, s.cursor.skipsBreaks⟩
      (s.moved ((skipping true s.cursor).step i.tokens)) := by
  unfold openGroup
  rw [bind_of_ok (isNext_run _ i s)]
  simp only [decide_eq_true_eq]
  rfl

theorem openBrace_run (i : Input ν) (s : State ν) :
    openBrace i s = .ok
      ⟨.closeBrace, (i.tokens.get s.cursor.position).span, s.cursor.skipsBreaks⟩
      (s.moved ((skipping false s.cursor).step i.tokens)) := rfl

/-- The cursor at which the closer of a group must stand. -/
def Opened.closing (g : Opened) (ts : Tokens ν) (c : Cursor) : Cursor :=
  skipping g.skipped (if g.close = .closeBrace then c.skipBreaks ts else c)

theorem closeGroup_eq (g : Opened) (i : Input ν) (s : State ν) :
    closeGroup g i s = (do
      match ← takeIf (.punct g.close) with
      | some stop => return g.openedAt.merge stop
      | none => failWith fun found => .unclosed g.close found g.openedAt : ReaderOf ν Span) i
        (s.moved (g.closing i.tokens s.cursor)) := by
  unfold closeGroup Opened.closing
  by_cases h : g.close = .closeBrace
  · simp only [h, if_true]
    rw [bind_of_ok (skipBreaks_run i s), bind_of_ok (setSkipsBreaks_run ..)]
    rfl
  · simp only [h, if_false]
    exact bind_of_ok (setSkipsBreaks_run ..)

theorem closeGroup_of_tag {g : Opened} {i : Input ν} {s : State ν}
    (h : (g.closing i.tokens s.cursor).tag i.tokens = .punct g.close) :
    closeGroup g i s = .ok
      (g.openedAt.merge (i.tokens.get (g.closing i.tokens s.cursor).position).span)
      (s.moved ((g.closing i.tokens s.cursor).step i.tokens)) := by
  rw [closeGroup_eq, bind_of_ok (takeIf_of_tag (by exact h))]
  rfl

theorem tag_of_closeGroup {g : Opened} {i : Input ν} {s s' : State ν} {span : Span}
    (h : closeGroup g i s = .ok span s') :
    (g.closing i.tokens s.cursor).tag i.tokens = .punct g.close := by
  by_contra hne
  rw [closeGroup_eq, bind_of_ok (takeIf_of_ne (by exact hne))] at h
  cases h

end Surface.Grammar
