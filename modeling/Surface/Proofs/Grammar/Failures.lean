import Surface.Proofs.Grammar.FileCompleteness

/-!
# Runs that fail

Where a reader gives up at a known place, so does every reader that reaches it, up to the item that it
stands in: there the failure is reported once, and reading goes on behind the line. A conditional that
lacks its second branch, as the value of a `let`, fails behind its first branch.

Results:
* `Fails`: the judgment that a run fails, with which error and where; `Fails.bind`, `Fails.ran`, ...
* `Reports`: the judgment that a run succeeds and reports one error on its way.
* `conditional_fails`, `expr_fails`, `let_fails`: a conditional without its second branch.
* `item_reports`, `file_reports`: what becomes of an item that fails at the end of its line.
-/

namespace Surface.Grammar

variable {S : Setting} {α β : Type} {c : Context} {b b' b'' : Bool} {i j k l : Nat} {e : SyntaxError}

/-! ## The judgments -/

/-- From position `i`, in context `c` and mode `b`, a run fails with `e` at position `j`, in the same
context and mode, and has reported nothing. -/
def Fails (S : Setting) (r : Reader α) (c : Context) (b : Bool) (i : Nat) (e : SyntaxError)
    (j : Nat) : Prop :=
  ∀ s, Standing S c b i s → ∃ s', r S.input s = .error e s' ∧ Standing S c b j s'
    ∧ s'.errors = s.errors

/-- From position `i`, in context `c` and mode `b`, a run succeeds, reports `e` and nothing else, and
leads to position `j` in mode `b'`, and `P` holds of the result. -/
def Reports (S : Setting) (r : Reader α) (c : Context) (b : Bool) (i : Nat) (e : SyntaxError)
    (P : α → Prop) (b' : Bool) (j : Nat) : Prop :=
  ∀ s, Standing S c b i s → ∃ a s', r S.input s = .ok a s' ∧ Standing S c b' j s'
    ∧ s'.errors = s.errors.push e ∧ P a

namespace Fails

variable {r x y : Reader α} {f : α → Reader β} {P : α → Prop}

theorem throw : Fails S (throw e : Reader α) c b i e i := fun s hs => ⟨s, rfl, hs, rfl⟩

/-- What follows a failure is not run. -/
theorem bind (h : Fails S x c b i e j) : Fails S (x >>= f) c b i e j := by
  intro s hs
  obtain ⟨s', run, rest⟩ := h s hs
  exact ⟨s', by rw [bind_run, run], rest⟩

theorem map {f : α → β} (h : Fails S x c b i e j) : Fails S (f <$> x) c b i e j := by
  intro s hs
  obtain ⟨s', run, rest⟩ := h s hs
  exact ⟨s', by rw [map_run, run], rest⟩

/-- A failure behind a run that succeeds. -/
theorem behind (hx : Leads S x c b i P b k) (hf : ∀ a, P a → Fails S (f a) c b k e j) :
    Fails S (x >>= f) c b i e j := by
  intro s hs
  obtain ⟨a, t, run, stands, errors, hP⟩ := hx s hs
  obtain ⟨u, run', stands', errors'⟩ := hf a hP t stands
  exact ⟨u, by rw [bind_of_ok run, run'], stands', errors'.trans errors⟩

theorem ran [Quiet x] {a : α} (hx : Runs S x c b i a b k) (hf : Fails S (f a) c b k e j) :
    Fails S (x >>= f) c b i e j :=
  behind hx.leads fun _ h => h ▸ hf

theorem ifFalse {p : Prop} [Decidable p] (hp : ¬ p) (h : Fails S y c b i e j) :
    Fails S (if p then x else y) c b i e j := by
  rwa [if_neg hp]

theorem inConstruct {form : Construct} (h : Fails S r c b i e j) :
    Fails S (Grammar.inConstruct form r) c b i (e.within form) j := by
  intro s hs
  obtain ⟨s', run, rest⟩ := h s hs
  exact ⟨s', by rw [inConstruct_run, run], rest⟩

end Fails

namespace Reports

variable {x : Reader α} {f : α → Reader β} {P : α → Prop} {R : β → Prop}

/-- Nothing more is reported behind what reports an error. -/
theorem bind (hx : Reports S x c b i e P b' k) (hf : ∀ a, P a → Leads S (f a) c b' k R b'' j) :
    Reports S (x >>= f) c b i e R b'' j := by
  intro s hs
  obtain ⟨a, t, run, stands, errors, hP⟩ := hx s hs
  obtain ⟨r, u, run', stands', errors', hR⟩ := hf a hP t stands
  exact ⟨r, u, by rw [bind_of_ok run, run'], stands', errors'.trans errors, hR⟩

theorem behind (hx : Leads S x c b i P b' k) (hf : ∀ a, P a → Reports S (f a) c b' k e R b'' j) :
    Reports S (x >>= f) c b i e R b'' j := by
  intro s hs
  obtain ⟨a, t, run, stands, errors, hP⟩ := hx s hs
  obtain ⟨r, u, run', stands', errors', hR⟩ := hf a hP t stands
  exact ⟨r, u, by rw [bind_of_ok run, run'], stands', errors ▸ errors', hR⟩

theorem ran [Quiet x] {a : α} (hx : Runs S x c b i a b' k) (hf : Reports S (f a) c b' k e R b'' j) :
    Reports S (x >>= f) c b i e R b'' j :=
  behind hx.leads fun _ h => h ▸ hf

theorem ifFalse {p : Prop} [Decidable p] {x y : Reader α} (hp : ¬ p)
    (h : Reports S y c b i e P b' j) : Reports S (if p then x else y) c b i e P b' j := by
  rwa [if_neg hp]

/-- There is a first round, and what it comes to is gone on from. -/
theorem repeated {round : β → Reader (ForInStep β)} {x : β}
    (h : ∀ n, S.input.tokens.size ≤ n + i → Reports S (repeatUpTo round (n + 1) x) c b i e R b' j) :
    Reports S (Grammar.repeated x round) c b i e R b' j := by
  refine ran Runs.read ?_
  intro s hs
  rw [bind_of_ok (cursor_run _ s)]
  exact h _ (by rw [hs.position]; omega) s hs

end Reports

/-! ## A conditional without its second branch -/

/-- The error that is reported where a conditional ends behind its first branch. -/
def Setting.missingElse (S : Setting) (i j : Nat) : SyntaxError :=
  ⟨.missingElse, (S.span i).merge (S.last j), some .ifExpression⟩

/-- A conditional up to the end of its first branch, with no `else` behind it. -/
structure Unpaired (S : Setting) (c : Context) (b : Bool) (i j : Nat) : Prop where
  word : S.tag i = .keyword .ifKw
  parts : ∃ h l t, ExprAt S (c.nested.union .head) b (S.next b i) h l ∧ ThenAt S c b l t j
  noElse : ¬ S.ElseNext j

theorem Unpaired.lt (h : Unpaired S c b i j) : i < j := by
  obtain ⟨_, _, _, condition, branch⟩ := h.parts
  exact Nat.lt_trans (S.lt_next b i) (Nat.lt_trans condition.lt branch.lt)

section

variable {inner : Inner} (hi : inner.Leads S k) (hk : k ≤ i + 1) (h : Unpaired S c b i j)

include hi hk h

theorem conditional_fails : Fails S inner.conditional c b i (S.missingElse i j) j := by
  obtain ⟨word, ⟨_, l, _, condition, branch⟩, noElse⟩ := h
  have := S.lt_next b i
  have := condition.lt
  refine .ran (Runs.take (by rw [word]; exact Tag.noConfusion)) ?_
  refine .behind (head_leads hi (by omega) condition) fun _ _ => ?_
  refine .behind (thenBody_leads hi (by omega) branch) fun _ _ => ?_
  refine .behind (noElse_leads noElse) ?_
  rintro _ rfl
  exact .ran Runs.previousSpan .throw

theorem primary_fails : Fails S inner.primary c b i (S.missingElse i j) j := by
  have tag : (S.input.tokens.get i).tag = .keyword .ifKw := (S.closed i).trans h.word
  have none : (S.input.tokens.get i).kind.literal? = none :=
    Setting.literal?_of_tag (S := S) (by rw [h.word]; decide)
  refine .ran Runs.nextToken ?_
  rw [none]
  dsimp only
  rw [tag]
  exact conditional_fails hi hk h

theorem exprOf_fails : Fails S inner.exprOf c b i (S.missingElse i j) j := by
  have plain : S.binds b i = false := Setting.binds_of_tag h.word (by decide)
  have operand : Fails S inner.binary c b i (S.missingElse i j) j := .bind (.bind (primary_fails hi hk h))
  exact .ran Runs.isBinderNext (.ifFalse (by simp [plain]) (.bind operand))

end

variable (ok : ¬ S.flawed)

include ok

theorem expr_fails (h : Unpaired S c b i j) : Fails S inner.expr c b i (S.missingElse i j) j := by
  intro s hs
  rw [inner_expr_run]
  exact exprOf_fails (innerUpTo_leads ok S.input.tokens.size) (by omega) h s hs

/-- A `let` whose value lacks its second branch fails where the value ends. -/
theorem let_fails {x : Pattern} (word : S.tag i = .keyword .letKw) (hx : PatternAt S b (S.next b i) x k)
    (eq : S.tag k = .reserved .eq) (h : Unpaired S c b (S.next b k) j) :
    Fails S stmt c b i (S.missingElse (S.next b k) j) j := by
  have letIn : Fails S inner.letIn c b i (S.missingElse (S.next b k) j) j := by
    refine .ran (Runs.take (by rw [word]; exact Tag.noConfusion)) (.behind (pattern_leads hx) fun _ _ => ?_)
    exact .ran (Runs.expect eq Tag.noConfusion) (.bind (expr_fails ok h))
  refine .ran Runs.nextSpan (.bind (.ran Runs.nextTag ?_))
  rw [word]
  exact letIn.inConstruct

omit ok

/-! ## Items that fail -/

/-- Recovery stays at a token that it stops at. -/
theorem resume_of_boundary {ts : Tokens} {boundary : TagSet} {c : Cursor}
    (h : boundary.contains (c.tag ts) = true) (ho : (c.tag ts).isOpener = false) :
    c.resume ts boundary = c := by
  unfold Cursor.resume
  rw [Cursor.resumeAt, h, ho]
  simp

theorem recover_reports {start : Span} {boundary : TagSet} (h : boundary.contains (S.tag i) = true)
    (ho : (S.tag i).isOpener = false) :
    Reports S (recover e start b' boundary) c b i e (fun _ => True) b' i := by
  intro s hs
  have stands := hs.skipping b'
  have tag : (skipping b' s.cursor).tag S.input.tokens = S.tag i := stands.tag_eq
  have stays : (skipping b' s.cursor).resume S.input.tokens boundary = skipping b' s.cursor :=
    resume_of_boundary (by rwa [tag]) (by rwa [tag])
  refine ⟨_, _, recover_run e start b' boundary S.input s, ?_, rfl, trivial⟩
  rw [stays]
  exact ⟨hs.context, stands.skips, stands.position, stands.previous, stands.inside⟩

theorem Reports.orElse {r : Reader α} {replace : SyntaxError → Reader α} {P : α → Prop}
    (h : Fails S r c b i e k) (hr : Reports S (replace e) c b k e P b' j) :
    Reports S (Grammar.orElse r replace) c b i e P b' j := by
  intro s hs
  obtain ⟨t, run, stands, errors⟩ := h s hs
  obtain ⟨a, u, run', stands', errors', hP⟩ := hr t stands
  exact ⟨a, u, by rw [orElse_run, run]; exact run', stands', errors ▸ errors', hP⟩

theorem itemBoundary_closed : ∀ {t : Tag}, itemBoundary.contains t = true → t.isOpener = false := by
  decide

/-- A dialect of scripts: all items are statements. -/
structure Setting.Scripts (S : Setting) : Prop where
  declarations : S.input.dialect.declarations = false
  statements : S.input.dialect.statements = true

theorem Setting.Scripts.isDeclNext (h : S.Scripts) : Runs S isDeclNext c b i false b i := by
  obtain ⟨d, hd, run⟩ := isDeclNext_run (S := S) (c := c) (b := b) (i := i)
  have no : d = false := by
    refine eq_false_of_ne_true fun yes => ?_
    rcases hd.1 yes with none | ⟨some, -⟩
    · exact Bool.false_ne_true (none.symm.trans h.statements)
    · exact Bool.false_ne_true (h.declarations.symm.trans some)
  rwa [no] at run

/-- An item that fails at the end of its line is given up there, with one error. -/
theorem item_reports (scripts : S.Scripts) {docsFrom : Nat} (h : Fails S stmt .none false i e j)
    (ends : itemBoundary.contains (S.tag j) = true) :
    Reports S (item docsFrom) .none false i e (fun a => ∃ m, a = .stmt (.error m)) false j := by
  have whole : Fails S (wholeItem false docsFrom) .none false i e j := by
    refine .ran Runs.read (.ifFalse (by simp [scripts.statements]) ?_)
    exact .ifFalse Bool.false_ne_true (.bind (.map h))
  have given (span : Span) : Leads S (errorItem false span) .none false j
      (fun a => ∃ m, a = .stmt (.error m)) false j := by
    refine .ifFalse Bool.false_ne_true ((Leads.map (P := fun a => ∃ m, a = .error m) ?_).mono ?_)
    · exact .newStmt fun m => ⟨m, rfl⟩
    · rintro _ ⟨_, rfl, m, rfl⟩
      exact ⟨m, rfl⟩
  refine .ran Runs.nextSpan fun s hs => ?_
  rw [bind_of_ok (cursor_run _ s), hs.skips]
  refine Reports.ran scripts.isDeclNext (.orElse whole ?_) s hs
  exact .bind (recover_reports ends (itemBoundary_closed ends)) fun span _ => given span

/-- Items of which the first one fails and is the last one. -/
theorem items_report (scripts : S.Scripts) {docsFrom : Nat} (h : Fails S stmt .none false i e j)
    (lt : i < j) (starts : S.tag i ≠ .eof) (ends : itemBoundary.contains (S.tag j) = true)
    (last : S.tag (S.past j) = .eof) :
    Reports S (items docsFrom) .none false i e (fun as => ∃ m, as = [.stmt (.error m)]) false
      (S.past j) := by
  have round : Reports S (itemsRound (#[], docsFrom)) .none false i e
      (fun r => ∃ m, r = .yield (#[.stmt (.error m)], (S.last j).stop)) false (S.past j) := by
    refine .ran Runs.isNext (.ifFalse (by simpa using starts) (.bind (item_reports scripts h ends) ?_))
    rintro _ ⟨m, rfl⟩
    exact .ran Runs.previousSpan (.ran Runs.skipBreaks (.pure ⟨m, rfl⟩))
  have done (z : Array Item × Nat) : Leads S (itemsRound z) .none false (S.past j) (· = .done z) false
      (S.past j) :=
    .ran Runs.isNext (.ifTrue (decide_eq_true last) (.pure rfl))
  have := S.le_past j
  have rounds : Reports S (Grammar.repeated (#[], docsFrom) itemsRound) .none false i e
      (fun r => ∃ m, r.1 = #[.stmt (.error m)]) false (S.past j) := by
    refine .repeated fun n hn => .bind round ?_
    rintro _ ⟨m, rfl⟩
    refine .another (by omega) fun n' hn' => hn' ▸ .bind (done _) ?_
    rintro _ rfl
    exact .pure ⟨m, rfl⟩
  refine .bind rounds ?_
  rintro ⟨_, _⟩ ⟨m, rfl⟩
  exact .pure ⟨m, rfl⟩

/-- A file whose only item fails at the end of its line holds an error statement, and nothing else is
reported. -/
theorem file_reports (scripts : S.Scripts) {line : Option Shebang} (hline : S.firstLine line = line)
    (h : Fails S stmt .none false 0 e j) (lt : 0 < j) (starts : S.tag 0 ≠ .lineBreak ∧ S.tag 0 ≠ .eof)
    (ends : itemBoundary.contains (S.tag j) = true) (last : S.tag (S.past j) = .eof) :
    Reports S (file line) .none false 0 e (fun f => ∃ m, f.items = [.stmt (.error m)]) false
      (S.past j) := by
  have start : S.past 0 = 0 := Setting.past_of_ne starts.1
  have skip : Runs S skipBreaks .none false 0 () false 0 := by
    have passes : Runs S skipBreaks .none false 0 () false (S.past 0) := Runs.skipBreaks
    rwa [start] at passes
  refine .behind (shebang_leads hline) ?_
  rintro _ rfl
  refine .ran skip (.bind (items_report scripts h lt starts.2 ends last) ?_)
  rintro _ ⟨m, rfl⟩
  exact .ran Runs.nextSpan (.pure ⟨m, rfl⟩)

end Surface.Grammar
