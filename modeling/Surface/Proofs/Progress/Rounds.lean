import Surface.Proofs.Parsing.Modes
import Surface.Proofs.Progress.Advances

/-!
# The loops of the grammar

Sequences are read in rounds. Every round after which another one follows takes a token, also where
something was given up: what stands in front of the next item is passed over. So the bound on the number
of rounds is never reached, and a loop leads where it would lead without one.

Results:
* `Loop`: the rounds of all loops of the grammar.
* `lt_giveUp`: what is given up takes a token before the next item starts.
* `Loop.lt`: a round that is not the last takes a token.
* `Repeats`: what a loop leads to without a bound; `Loop.repeats`: loops lead there.
-/

namespace Surface.Grammar

variable {α β : Type} {i : Input} {s t : State}

/-! ## Rounds -/

/-- A reader of what stands between commas. -/
inductive ListItem : {α : Type} → Reader α → Prop
  | expr {inner : Inner} : inner.Knotted → ListItem inner.expr
  | param {inner : Inner} : inner.Knotted → ListItem inner.param
  | ctorParam : ListItem ctorParam

/-- The round of a loop of the grammar. -/
inductive Loop : {β : Type} → (β → Reader (ForInStep β)) → Prop
  | segments : Loop (whileRound isSegmentNext do let _ ← take; ident)
  | patterns (depth : Nat) :
      Loop (whileRound (isNextIn patternTags) (atomicPatternOf (patternUpTo depth)))
  | commas {α : Type} {item : Reader α} (close : Tag) : ListItem item →
      Loop (whileRound (isNotNext close) (commaRow close item))
  | arms {inner : Inner} : inner.Knotted → Loop (whileRound Inner.isInBraces inner.arm)
  | arguments {inner : Inner} : inner.Knotted →
      Loop (whileRound (isNextIn Inner.argumentTags) inner.primary)
  | operators {inner : Inner} : inner.Knotted → Loop (operatorRound inner)
  | stmts {inner : Inner} : inner.Knotted → Loop (whileRound Inner.isInBraces inner.stmtOrError)
  | attrs : Loop (whileRound (isNext (.punct .atSign)) attr)
  | paramLists : Loop (whileRound (isNextIn paramListTags) paramList)
  | clausePatterns : Loop (whileRound (isNotNext (.reserved .eq)) atomicPattern)
  | ctors : Loop (collectRound Inner.isInBraces ctorItem)
  | methods : Loop (collectRound Inner.isInBraces method)
  | items : Loop itemsRound

/-! ## Giving up -/

theorem lt_pastBreaks {ts : Tokens} {p : Nat} (h : ts.tag p = .lineBreak) : p < pastBreaks ts p := by
  unfold pastBreaks
  rw [dif_pos h]
  exact Cursor.le_pastBreaks ts (p + 1)

/-- Something is read or given up, and a token has been taken before the next item starts. -/
theorem lt_giveUp {r : Reader α} {replace : Span → Reader α} [Steady r] [Advances r]
    [∀ span, Steady (replace span)] {start : Span} {b : Bool} {boundary : TagSet} {a : α}
    (once : i.tokens.EndsOnce) (he : s.cursor.tag i.tokens ≠ .eof)
    (hb : boundary.contains (s.cursor.tag i.tokens) = true → s.cursor.tag i.tokens = .lineBreak)
    (run : orElse r (fun error => do replace (← recover error start b boundary)) i s = .ok a t) :
    s.cursor.position < (t.cursor.skipBreaks i.tokens).position := by
  have behind : t.cursor.position ≤ (t.cursor.skipBreaks i.tokens).position :=
    position_le_skipBreaks i.tokens t.cursor
  have steps : Steps i s t := Steady.ok run
  by_cases line : s.cursor.tag i.tokens = .lineBreak
  · -- recovery stops in front of the break, which is passed over afterwards
    rcases Nat.lt_or_eq_of_le steps.position with lt | eq
    · exact Nat.lt_of_lt_of_le lt behind
    · rw [eq]
      exact lt_pastBreaks (eq ▸ line)
  · rw [orElse_run] at run
    cases read : r i s with
    | ok c u =>
      rw [read] at run
      cases run
      exact Nat.lt_of_lt_of_le (Advances.lt once read) behind
    | error e u =>
      rw [read] at run
      dsimp only at run
      rw [bind_of_ok (recover_run ..)] at run
      have resumed : s.cursor.position < ((skipping b u.cursor).resume i.tokens boundary).position :=
        lt_resume (Steady.error read) b he (Bool.eq_false_iff.2 fun h => line (hb h))
      have rest : ((skipping b u.cursor).resume i.tokens boundary).position ≤ t.cursor.position :=
        (Steady.ok run).position
      exact Nat.lt_of_lt_of_le resumed (Nat.le_trans rest behind)

/-! ## Progress -/

theorem collectRound_lt {more : Reader Bool} {item : Reader (α × Bool)} {as bs : Array α} [Steady more]
    (h : ∀ u, more i s = .ok true u → AdvancesFrom i u item)
    (run : collectRound more item as i s = .ok (.yield bs) t) : s.cursor.position < t.cursor.position := by
  obtain ⟨m, u, look, run⟩ := bind_ok.1 run
  cases m with
  | false => cases run
  | true =>
    obtain ⟨⟨a, goOn⟩, v, read, run⟩ := bind_ok.1 run
    obtain rfl : v = t := (EStateM.Result.ok.inj run).2
    exact Nat.lt_of_le_of_lt (Steady.ok look).position (h u look _ v read)

theorem stmtOrError_lt {inner : Inner} [inner.Steady] [inner.Advances] (once : i.tokens.EndsOnce)
    (look : Inner.isInBraces i s = .ok true s) : AdvancesFrom i s inner.stmtOrError := by
  intro a t run
  obtain ⟨u, line, rfl⟩ := stmtOrError_ok run
  exact lt_giveUp once (isInBraces_ok look).2.2 (lineBreak_of_isInBraces look) line

theorem item_lt {docsFrom : Nat} {a : Item} (once : i.tokens.EndsOnce)
    (he : s.cursor.tag i.tokens ≠ .eof) (run : item docsFrom i s = .ok a t) :
    s.cursor.position < (t.cursor.skipBreaks i.tokens).position := by
  unfold item at run
  rw [bind_of_ok (nextSpan_run i s), bind_of_ok (cursor_run i s)] at run
  obtain ⟨asDecl, u, look, run⟩ := bind_ok.1 run
  obtain rfl : u = s := by
    rw [← isDeclNext_stays i s, look]
    rfl
  refine lt_giveUp once he (fun h => ?_) run
  exact (itemBoundary_cases h).resolve_right he

theorem itemsRound_lt {z z' : Array Item × Nat} (once : i.tokens.EndsOnce)
    (run : itemsRound z i s = .ok (.yield z') t) : s.cursor.position < t.cursor.position := by
  obtain ⟨-, last, -⟩ | ⟨more, a, u, read, breaks, -⟩ := itemsRound_ok run
  · cases last
  · rw [skipBreaks_run] at breaks
    cases breaks
    exact item_lt once more read

theorem operatorRound_lt {inner : Inner} [inner.Steady] {lhs e : Expr} (once : i.tokens.EndsOnce)
    (run : operatorRound inner lhs i s = .ok (.yield e) t) : s.cursor.position < t.cursor.position := by
  obtain ⟨op, u, look, run⟩ := bind_ok.1 run
  cases op with
  | none => cases run
  | some op =>
    have rest : Advances (do
        let _ ← take
        skipBreaks
        let rhs ← inner.application
        return .yield (← newExpr (lhs.span.merge rhs.span) fun m => .binary m lhs op rhs) :
          Reader (ForInStep Expr)) := inferInstance
    exact Nat.lt_of_le_of_lt (Steady.ok look).position (Advances.lt once run)

instance {close : Tag} {item : Reader α} [Steady item] [Advances item] :
    Advances (commaRow close item) := by
  unfold commaRow
  infer_instance

theorem ListItem.keeps {R : Invariant} {item : Reader α} (h : ListItem item) : Keeps R item := by
  cases h with
  | expr h | param h =>
    have := h.keeps (R := R)
    infer_instance
  | ctorParam => infer_instance

theorem ListItem.advances {item : Reader α} (h : ListItem item) : Advances item := by
  cases h with
  | expr h | param h =>
    have := h.keeps (R := steady)
    have := h.advances
    infer_instance
  | ctorParam => infer_instance

/-- A round that is not the last takes a token. -/
theorem Loop.lt {round : β → Reader (ForInStep β)} (h : Loop round) {b c : β} (once : i.tokens.EndsOnce)
    (run : round b i s = .ok (.yield c) t) : s.cursor.position < t.cursor.position := by
  have row {α : Type} {more : Reader Bool} {item : Reader (α × Bool)} {as bs : Array α} [Steady more]
      [Advances item] (run : collectRound more item as i s = .ok (.yield bs) t) :
      s.cursor.position < t.cursor.position := collectRound_lt (fun u _ => Advances.from_any once u) run
  cases h with
  | items => exact itemsRound_lt once run
  | segments | patterns | attrs | paramLists | clausePatterns | ctors | methods => exact row run
  | commas close h =>
    have := h.keeps (R := steady)
    have := h.advances
    exact row run
  | arms h | arguments h =>
    have := h.keeps (R := steady)
    exact row run
  | operators h =>
    have := h.keeps (R := steady)
    exact operatorRound_lt once run
  | stmts h =>
    have := h.keeps (R := steady)
    have := h.advances
    refine collectRound_lt (fun u look => ?_) run
    obtain rfl : u = s := (isInBraces_ok look).1
    exact .first (stmtOrError_lt once look)

/-! ## Loops without a bound -/

/-- What repeating a round leads to, however many rounds there are. -/
inductive Repeats (round : β → Reader (ForInStep β)) (i : Input) :
    β → State → EStateM.Result SyntaxError State β → Prop
  | done {b s c t} : round b i s = .ok (.done c) t → Repeats round i b s (.ok c t)
  | fails {b s e t} : round b i s = .error e t → Repeats round i b s (.error e t)
  | again {b s c t r} : round b i s = .ok (.yield c) t → Repeats round i c t r → Repeats round i b s r

/-- The rounds of a loop do not pass the end. -/
theorem Loop.stopping {round : β → Reader (ForInStep β)} (h : Loop round) (b : β) :
    Keeps stopping (round b) := by
  cases h with
  | segments | patterns | attrs | paramLists | clausePatterns | ctors | methods | items => infer_instance
  | commas close h =>
    have := h.keeps (R := Grammar.stopping)
    infer_instance
  | arms h | arguments h | stmts h =>
    have := h.keeps (R := Grammar.stopping)
    infer_instance
  | operators h =>
    have := h.keeps (R := Grammar.stopping)
    unfold operatorRound
    refine .bind inferInstance fun op => ?_
    cases op <;> infer_instance

/-- A bound of the number of tokens left is not reached. -/
theorem Loop.repeatUpTo {round : β → Reader (ForInStep β)} (h : Loop round) (once : i.tokens.EndsOnce)
    (n : Nat) (b : β) (hs : s.cursor.position < i.tokens.size)
    (hn : i.tokens.size ≤ s.cursor.position + n) :
    Repeats round i b s (Grammar.repeatUpTo round n b i s) := by
  induction n generalizing b s with
  | zero => omega
  | succ n ih =>
    have stops := h.stopping b
    rw [Grammar.repeatUpTo, bind_run]
    cases run : round b i s with
    | error e t => exact .fails run
    | ok r t =>
      cases r with
      | done c => exact .done run
      | yield c =>
        have lt := h.lt once run
        exact .again run (ih c (stops.ok run once hs) (by omega))

theorem Loop.repeats {round : β → Reader (ForInStep β)} (h : Loop round) (once : i.tokens.EndsOnce)
    (b : β) (hs : s.cursor.position < i.tokens.size) :
    Repeats round i b s (repeated b round i s) :=
  h.repeatUpTo once _ b hs (by omega)

end Surface.Grammar
