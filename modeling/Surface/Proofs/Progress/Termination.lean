import Surface.Proofs.Progress.Recursion
import Surface.Proofs.Progress.Rounds

/-!
# Reading ends

Whatever stream of tokens is read, if it ends in its only end, then reading it comes to an end. The cursor
only moves forward, each loop takes a token in every round, and where expressions, blocks and patterns lie
inside each other, each takes a token before the next one starts. So neither the bound on rounds nor that
on depth is ever reached.

Results:
* `Taking`: the readers that take a token when they succeed.
* `Progress`: how reading a stream moves forward and comes to its end.
* `progresses`: it does so for every stream that ends in its only end.
-/

namespace Surface.Grammar

variable {α : Type} {i : Input} {s t : State}

/-! ## Where items and statements start -/

theorem tag_skipBreaks (ts : Tokens) (c : Cursor) : (c.skipBreaks ts).tag ts ≠ .lineBreak :=
  ts.tag_pastBreaks c.position

theorem ItemStart.ne_lineBreak {line : Option Shebang} {names : NameTable}
    (h : ItemStart i line names s) : s.cursor.tag i.tokens ≠ .lineBreak := by
  cases h with
  | first _ breaks | next _ _ _ breaks =>
    rw [skipBreaks_run] at breaks
    cases breaks
    exact tag_skipBreaks _ _

theorem StmtStart.ne_lineBreak {inner : Inner} (h : StmtStart inner i s t) :
    t.cursor.tag i.tokens ≠ .lineBreak := by
  cases h with
  | first _ breaks =>
    rw [skipBreaks_run] at breaks
    cases breaks
    exact tag_skipBreaks _ _
  | next _ _ read =>
    obtain ⟨u, -, rfl⟩ := stmtOrError_ok read
    exact tag_skipBreaks _ _

/-! ## Readers that take a token -/

/-- A reader of something that is never empty. -/
inductive Taking : {α : Type} → Reader α → Prop
  | expr : Taking expr
  | nestedExpr {inner : Inner} : inner.Knotted → Taking inner.expr
  | primary {inner : Inner} : inner.Knotted → Taking inner.primary
  | pattern : Taking pattern
  | patternUpTo (depth : Nat) : Taking (patternUpTo depth)
  | atomicPattern : Taking atomicPattern
  | atomicPatternUpTo (depth : Nat) : Taking (atomicPatternOf (patternUpTo depth))
  | path : Taking path
  | param {inner : Inner} : inner.Knotted → Taking inner.param
  | stmt : Taking stmt
  | nestedStmt {inner : Inner} : inner.Knotted → Taking inner.stmt
  | block : Taking block
  | nestedBlock {inner : Inner} : inner.Knotted → Taking inner.block
  | ctor : Taking ctor
  | signature : Taking signature
  | clause : Taking clause
  | decl (docsFrom : Nat) : Taking (decl docsFrom)

theorem Taking.advances {r : Reader α} (h : Taking r) : Advances r := by
  cases h with
  | expr | pattern | patternUpTo | atomicPattern | atomicPatternUpTo | path | stmt | block | ctor
  | signature | clause | decl => infer_instance
  | nestedExpr h | primary h | param h | nestedStmt h | nestedBlock h =>
    have := h.keeps (R := steady)
    have := h.advances
    infer_instance

/-! ## Reading a stream -/

/-- Reading a stream moves forward and comes to its end. -/
structure Progress (i : Input) : Prop where
  /-- No procedure goes back or passes the end, whether it succeeds or fails. -/
  forward : ∀ {α : Type} {r : Reader α}, Procedure r → ∀ s,
    s.cursor.position ≤ (after (r i s)).cursor.position
      ∧ (s.cursor.position < i.tokens.size → (after (r i s)).cursor.position < i.tokens.size)
  /-- What is not empty takes a token. -/
  takes : ∀ {α : Type} {r : Reader α}, Taking r → ∀ s a t, r i s = .ok a t →
    s.cursor.position < t.cursor.position
  /-- Where an item has failed, reading goes on behind its start. -/
  item : ∀ {line names s asDecl docsFrom e t}, ItemStart i line names s →
    s.cursor.tag i.tokens ≠ .eof → wholeItem asDecl docsFrom i s = .error e t →
    s.cursor.position
      < ((skipping s.cursor.skipsBreaks t.cursor).resume i.tokens itemBoundary).position
  /-- Where a statement of a block has failed, reading goes on behind its start. -/
  stmt : ∀ {inner s t e u}, inner.Knotted → StmtStart inner i s t → Inner.isInBraces i t = .ok true t →
    inner.wholeStmt i t = .error e u →
    t.cursor.position < ((skipping false u.cursor).resume i.tokens stmtBoundary).position
  /-- Every round of a loop that is not the last takes a token. -/
  round : ∀ {β : Type} {round : β → Reader (ForInStep β)}, Loop round → ∀ b s c t,
    round b i s = .ok (.yield c) t → s.cursor.position < t.cursor.position
  /-- A loop leads where it would lead without a bound on the number of its rounds. -/
  loop : ∀ {β : Type} {round : β → Reader (ForInStep β)}, Loop round → ∀ b s,
    s.cursor.position < i.tokens.size → Repeats round i b s (repeated b round i s)
  /-- Expressions and blocks are what they would be without a bound on how deep they lie inside each
  other: what is found below the tokens that are left makes no difference. -/
  nested : ∀ bottom n s, s.cursor.position ≤ i.tokens.size → i.tokens.size < n + s.cursor.position →
    (Inner.above bottom n).expr i s = expr i s ∧ (Inner.above bottom n).block i s = block i s
  /-- So are patterns. -/
  pattern : ∀ bottom n s, s.cursor.position ≤ i.tokens.size → i.tokens.size < n + s.cursor.position →
    patternAbove bottom n i s = pattern i s
  /-- What lies inside of another is read like it. -/
  knot : ∀ s, s.cursor.position ≤ i.tokens.size →
    expr i s = inner.exprOf i s ∧ block i s = inner.blockOf i s
      ∧ Grammar.pattern i s = patternOf Grammar.pattern i s
  /-- A file is read up to the end. -/
  file : ∀ line names, ∃ f t, file line i (.start names) = .ok f t ∧ t.cursor.position + 1 = i.tokens.size

/-- Every item that fails is given up behind its start. -/
theorem ItemStart.lt_resume {line : Option Shebang} {names : NameTable} {r : Reader α} {e : SyntaxError}
    [Steady r] (h : ItemStart i line names s) (he : s.cursor.tag i.tokens ≠ .eof)
    (run : r i s = .error e t) (b : Bool) :
    s.cursor.position < ((skipping b t.cursor).resume i.tokens itemBoundary).position :=
  Grammar.lt_resume (Steady.error run) b he <| Bool.eq_false_iff.2 fun bound =>
    (itemBoundary_cases bound).elim h.ne_lineBreak he

theorem StmtStart.lt_resume {inner : Inner} {r : Reader α} {u : State} {e : SyntaxError} [Steady r]
    (h : StmtStart inner i s t) (look : Inner.isInBraces i t = .ok true t) (run : r i t = .error e u)
    (b : Bool) : t.cursor.position < ((skipping b u.cursor).resume i.tokens stmtBoundary).position :=
  Grammar.lt_resume (Steady.error run) b (isInBraces_ok look).2.2 <| Bool.eq_false_iff.2 fun bound =>
    h.ne_lineBreak (lineBreak_of_isInBraces look bound)

/-- A file is read up to the end of the stream. -/
theorem file_ends (once : i.tokens.EndsOnce) (line : Option Shebang) (names : NameTable) :
    ∃ f t, file line i (.start names) = .ok f t ∧ t.cursor.position + 1 = i.tokens.size := by
  obtain ⟨f, t, run⟩ := file_total line i (.start names)
  -- with any spans and any errors admitted, the rules say where a run ends and nothing else
  let S : Setting := ⟨i, fun _ _ => True, fun _ => trivial, True, once.get_tag⟩
  have start : Standing S .none false 0 (.start names) := ⟨rfl, rfl, rfl, rfl, Nat.zero_le _⟩
  obtain ⟨j, ends, -, hj⟩ := file_yields_to_end line _ f t start run fun _ => trivial
  have inside : t.cursor.position < i.tokens.size := Keeps.ok (R := stopping) run once once.nonempty
  refine ⟨f, t, run, (once.tag_eq_eof_iff inside).1 ?_⟩
  rw [ends.position]
  exact hj

/-- A stream that ends in its only end is read up to that end, in any dialect. -/
theorem progresses (once : i.tokens.EndsOnce) : Progress i where
  forward h s := by
    have steps : Steps i s _ := h.steady.keeps i s
    have stops := (h.keeps (R := stopping) fun _ _ => trivial).keeps i s
    exact ⟨steps.position, stops once⟩
  takes h s a t run := h.advances.from_any once s a t run
  item start he run := start.lt_resume he run _
  stmt knotted start look run := by
    have := knotted.keeps (R := steady)
    exact start.lt_resume look run false
  round h _ _ _ _ run := h.lt once run
  loop h b s hs := h.repeats once b hs
  nested bottom n s hs deep := by
    have agrees := above_agrees once bottom (n := n) (m := i.tokens.size + 1) deep (by omega)
    rw [Grammar.expr, Grammar.block, inner_expr_run, inner_block_run]
    exact ⟨agrees.expr.same s (Nat.le_refl _) hs, agrees.block.same s (Nat.le_refl _) hs⟩
  pattern bottom n s hs deep := by
    have agrees := patternAbove_agrees once bottom (n := n) (m := i.tokens.size + 1) deep (by omega)
    exact agrees.same s (Nat.le_refl _) hs
  knot _ hs := ⟨expr_unfold once hs, block_unfold once hs, pattern_unfold once hs⟩
  file := file_ends once

/-- The tokens of a text with an error in it are read up to the end. -/
theorem progresses_of_text : Progress (Lexed.input (lexChars "a = (]\nb".toList .empty) .scripts) :=
  progresses (lexChars_endsOnce _ _)

end Surface.Grammar
