import Surface.Proofs.Parsing.Clear
import Surface.Proofs.Reader.Indifferent

/-!
# Lookahead is exact

Whether a statement asks or is an expression, and whether a declaration is a clause or a signature, is
settled before any of it is read, by a look for a left arrow or an equals sign outside of groups on
the same line. Such a sign is clear of what the other form takes, so that the other form could not have
been read whole: nothing that could be read one way is read the other way and rejected.

Results:
* `ExprAt.not_ahead`, `SignatureAt.not_ahead`: no left arrow is ahead of an expression that ends its
  line, and no equals sign of a signature.
* `PatternAt.ahead`, `ClauseAt.ahead`: a left arrow behind a pattern is ahead of it, and so is the equals
  sign of a clause.
* `Yields.unreported`: what a run yields that reports no error, whatever has been reported before.
* `lookahead_exact`: the form that is not chosen could not have been read.
-/

namespace Surface.Grammar

/-! ## Signs behind what has been read -/

section

variable {S : Setting} {b : Bool} {i j : Nat}

/-- Where an item ends, a statement may end. -/
theorem stmtBoundary_of_item : ∀ {t : Tag}, itemBoundary.contains t = true →
    stmtBoundary.contains t = true := by
  decide

/-- Nothing is ahead of the end of a line. -/
theorem Setting.ahead_of_boundary (t : Tag) (h : stmtBoundary.contains (S.tag i) = true) :
    S.ahead t i = false := by
  rcases stmtBoundary_cases h with e | e | e <;> rw [S.ahead_step, e] <;> rfl

/-- A reserved sign is ahead of itself. -/
theorem Setting.ahead_self {r : Reserved} (h : S.tag i = .reserved r) :
    S.ahead (.reserved r) i = true := by
  rw [S.ahead_step, h]
  simp [Tag.isOpener, Tag.isCloser]

/-- A sign that is clear of what stands before the end of a line is not ahead of it. -/
theorem Clear.not_ahead {ts : List Tag} {t : Tag} (groups : S.input.groups = .ofTokens S.input.tokens)
    (h : Clear S ts i j) (ht : t ∈ ts) (ends : stmtBoundary.contains (S.tag j) = true) :
    S.ahead t i = false := by
  by_contra found
  have behind := h.ahead groups ht (eq_true_of_ne_false found)
  rw [Setting.ahead_of_boundary t ends] at behind
  cases behind

/-- No sign that binds is ahead of an expression that ends its line or its block. -/
theorem ExprAt.not_ahead {c : Context} {e : Expr} {t : Tag}
    (groups : S.input.groups = .ofTokens S.input.tokens) (ok : ¬ S.flawed) (h : ExprAt S c b i e j)
    (ht : t ∈ bindingTags) (ends : stmtBoundary.contains (S.tag j) = true) : S.ahead t i = false :=
  (h.clear ok).not_ahead groups ht ends

/-- No sign that binds is ahead of a signature that ends its line. -/
theorem SignatureAt.not_ahead {a : Signature} {t : Tag}
    (groups : S.input.groups = .ofTokens S.input.tokens) (ok : ¬ S.flawed) (h : SignatureAt S i a j)
    (ht : t ∈ bindingTags) (ends : stmtBoundary.contains (S.tag j) = true) : S.ahead t i = false :=
  (h.clear ok).not_ahead groups ht ends

/-- A left arrow behind a pattern is ahead of the pattern. -/
theorem PatternAt.ahead {p : Pattern} (groups : S.input.groups = .ofTokens S.input.tokens)
    (h : PatternAt S false i p j) (hj : S.tag j = .reserved .leftArrow) :
    S.ahead (.reserved .leftArrow) i = true := by
  rw [h.clear.ahead_eq groups (by decide) (by decide)]
  exact Setting.ahead_self hj

/-- The equals sign of a clause is ahead of the clause. -/
theorem ClauseAt.ahead {a : Clause} (groups : S.input.groups = .ofTokens S.input.tokens)
    (h : ClauseAt S i a j) : S.ahead (.reserved .eq) i = true := by
  obtain ⟨name, patterns, _, _⟩ := h
  have line := name.clear.append patterns.clear.1
  rw [line.ahead_eq groups (by decide) (by decide)]
  exact Setting.ahead_self patterns.clear.2

end

/-! ## Runs -/

/-- A state in which a statement or a declaration may begin: line breaks carry meaning there, and the
cursor knows the last token before it, as it does in every run. -/
structure Begins (ts : Tokens) (s : State) : Prop where
  skips : s.cursor.skipsBreaks = false
  previous : s.cursor.previous = ts.lastSpan s.cursor.position
  inside : s.cursor.position ≤ ts.size

/-- What a run that reports no error yields does not depend on the errors reported before. -/
theorem Yields.unreported {α : Type} {S : Setting} {r : Reader α} [Indifferent r] {c : Context}
    {b b' : Bool} {i : Nat} {P : α → Nat → Prop} (yields : Yields S r c b i b' P) {s t : State} {a : α}
    (hs : Standing S c b i s) (run : r S.input s = .ok a t) (free : t.errors = s.errors) :
    P a t.cursor.position := by
  obtain ⟨t', run', rfl⟩ := Indifferent.ok run
  have none : t'.errors.size = 0 := by
    have size := congrArg Array.size free
    rw [State.behind_errors, Array.size_append] at size
    omega
  have alone : Standing S c b i { s with errors := #[] } :=
    ⟨hs.context, hs.skips, hs.position, hs.previous, hs.inside⟩
  obtain ⟨j, standing, derived⟩ := yields _ a t' alone run' fun some => by omega
  rw [State.behind_cursor, standing.position]
  exact derived

/-- The form that a look ahead does not choose could not have been read whole: no expression that ends
its line, or its block, where a left arrow is ahead, no pattern up to a left arrow where none is, no
signature that ends its line where an equals sign is ahead, and no clause where none is. -/
theorem lookahead_exact (l : Lexed) (dialect : Dialect)
    (hend : (l.tokens.get (l.tokens.size - 1)).kind = .eof) (s : State) (h : Begins l.tokens s) :
    let input := Lexed.input l dialect
    let ahead (t : Tag) := occursBeforeBreak input.tokens input.groups t s.cursor.position
    (ahead (.reserved .leftArrow) = true → ∀ e t, expr input s = .ok e t → t.errors = s.errors →
        stmtBoundary.contains (t.cursor.tag input.tokens) = false)
      ∧ (ahead (.reserved .leftArrow) = false → ∀ p t, pattern input s = .ok p t →
        t.cursor.tag input.tokens ≠ .reserved .leftArrow)
      ∧ (s.context = .none → ahead (.reserved .eq) = true → ∀ a t, signature input s = .ok a t →
        t.errors = s.errors → itemBoundary.contains (t.cursor.tag input.tokens) = false)
      ∧ (s.context = .none → ahead (.reserved .eq) = false → ∀ a t, clause input s ≠ .ok a t) := by
  intro input ahead
  let S (flawed : Prop) : Setting := { Setting.ofLexed l dialect hend with flawed }
  have standing (flawed : Prop) : Standing (S flawed) s.context false s.cursor.position s :=
    ⟨rfl, h.skips, rfl, h.previous, h.inside⟩
  refine ⟨fun found e t run free => ?_, fun absent p t run tag => ?_, fun hc found a t run free => ?_,
    fun hc absent a t run => ?_⟩
  · -- an expression that ends here would have no left arrow ahead
    have derived := expr_yields.unreported (standing False) run free
    by_contra ends
    have boundary := eq_true_of_ne_false ends
    have absent := derived.not_ahead (t := .reserved .leftArrow) rfl id (by decide) boundary
    exact Bool.false_ne_true (absent.symm.trans found)
  · obtain ⟨j, stands, derived⟩ := pattern_yields s p t (standing True) run fun _ => trivial
    have found := derived.ahead rfl (stands.position ▸ tag)
    exact Bool.false_ne_true (absent.symm.trans found)
  · have unread := standing False
    rw [hc] at unread
    have derived := signature_yields.unreported unread run free
    by_contra ends
    have boundary := stmtBoundary_of_item (eq_true_of_ne_false ends)
    have absent := derived.not_ahead (t := .reserved .eq) rfl id (by decide) boundary
    exact Bool.false_ne_true (absent.symm.trans found)
  · have unread := standing True
    rw [hc] at unread
    obtain ⟨j, _, derived⟩ := clause_yields s a t unread run fun _ => trivial
    exact Bool.false_ne_true (absent.symm.trans (derived.ahead rfl))

/-- What asks is no expression: the one that is read at its start ends before the arrow. -/
theorem ask_is_no_expression :
    let l := lex "x <- f" .empty
    let input := Lexed.input l .scripts
    let s := State.start l.names
    (l.tokens.get (l.tokens.size - 1)).kind = .eof ∧ Begins l.tokens s
      ∧ occursBeforeBreak input.tokens input.groups (.reserved .leftArrow) s.cursor.position = true
      ∧ ∀ e t, expr input s = .ok e t → t.errors = s.errors →
        stmtBoundary.contains (t.cursor.tag input.tokens) = false := by
  intro l input s
  have hend : (l.tokens.get (l.tokens.size - 1)).kind = .eof := by decide +kernel
  have begins : Begins l.tokens s := ⟨rfl, rfl, Nat.zero_le _⟩
  have found : occursBeforeBreak input.tokens input.groups (.reserved .leftArrow) s.cursor.position
      = true := by decide +kernel
  exact ⟨hend, begins, found, (lookahead_exact l .scripts hend s begins).1 found⟩

end Surface.Grammar
