import Surface.Proofs.Reader.Keeps

/-!
# Readers are steady

Whether it succeeds or fails, no reader goes back, forgets an error, leaves another context
behind or loses track of the last token it has taken.

Results:
* `Steps`: what a run keeps; `Steps.refl`, `Steps.trans`.
* `Steady`: the readers whose runs keep it.
-/

namespace Surface

/-- The span of the last token before position `i` that is no line break. -/
def Tokens.lastSpan (ts : Tokens) : Nat → Span
  | 0 => .point 0
  | i + 1 => if ts.tag i = .lineBreak then ts.lastSpan i else (ts.get i).span

theorem Tokens.tag_pastBreaks (ts : Tokens) (i : Nat) : ts.tag (pastBreaks ts i) ≠ .lineBreak := by
  fun_induction pastBreaks ts i with
  | case1 i _ _ ih => exact ih
  | case2 i h => exact h

theorem Tokens.lastSpan_pastBreaks (ts : Tokens) (i : Nat) :
    ts.lastSpan (pastBreaks ts i) = ts.lastSpan i := by
  fun_induction pastBreaks ts i with
  | case1 i h _ ih => rw [ih, Tokens.lastSpan, if_pos h]
  | case2 i _ => rfl

namespace Grammar

variable {α β : Type}

/-! ## Steps -/

/-- The span of the last token taken is the one kept in the cursor. -/
def Coherent (i : Input) (c : Cursor) : Prop := c.previous = i.tokens.lastSpan c.position

theorem coherent_skipBreaks {i : Input} {c : Cursor} (h : Coherent i c) :
    Coherent i (c.skipBreaks i.tokens) := by
  unfold Coherent Cursor.skipBreaks
  rw [Tokens.lastSpan_pastBreaks]
  exact h

theorem coherent_pass {i : Input} {c : Cursor} (h : Coherent i c) :
    Coherent i (c.pass i.tokens) := by
  unfold Coherent at *
  simp only [Cursor.pass, Tokens.lastSpan, Cursor.tag, h]

theorem step_of_ne_eof {ts : Tokens} {c : Cursor} (h : c.tag ts ≠ .eof) :
    c.step ts = if c.skipsBreaks then (c.pass ts).skipBreaks ts else c.pass ts := by
  unfold Cursor.step
  rw [if_neg h]

theorem step_of_eof {ts : Tokens} {c : Cursor} (h : c.tag ts = .eof) : c.step ts = c := by
  have stay : pastBreaks ts c.position = c.position := by
    rw [pastBreaks, dif_neg]
    rw [show ts.tag c.position = .eof from h]
    decide
  unfold Cursor.step
  rw [if_pos h]
  simp only [Cursor.skipBreaks, stay, ite_self]

theorem coherent_step {i : Input} {c : Cursor} (h : Coherent i c) :
    Coherent i (c.step i.tokens) := by
  by_cases he : c.tag i.tokens = .eof
  · rwa [step_of_eof he]
  · rw [step_of_ne_eof he]
    split
    · exact coherent_skipBreaks (coherent_pass h)
    · exact coherent_pass h

theorem position_le_skipBreaks (ts : Tokens) (c : Cursor) :
    c.position ≤ (c.skipBreaks ts).position := Cursor.le_pastBreaks ts c.position

theorem position_le_step (ts : Tokens) (c : Cursor) : c.position ≤ (c.step ts).position := by
  by_cases h : c.tag ts = .eof
  · exact Nat.le_of_eq (congrArg Cursor.position (step_of_eof h)).symm
  · exact Nat.le_of_lt (Cursor.lt_position_step h)

theorem pastBreaks_inside {ts : Tokens} {i : Nat} (h : i ≤ ts.size) : pastBreaks ts i ≤ ts.size := by
  fun_induction pastBreaks ts i with
  | case1 i _ lt ih => exact ih lt
  | case2 i _ => exact h

theorem step_inside {ts : Tokens} {c : Cursor} (h : c.position ≤ ts.size) :
    (c.step ts).position ≤ ts.size := by
  by_cases he : c.tag ts = .eof
  · rwa [step_of_eof he]
  · have lt : c.position < ts.size := Tokens.lt_size_of_tag_ne_eof he
    rw [step_of_ne_eof he]
    split
    · exact pastBreaks_inside lt
    · exact lt

theorem skipsBreaks_step (ts : Tokens) (c : Cursor) : (c.step ts).skipsBreaks = c.skipsBreaks := by
  by_cases h : c.tag ts = .eof
  · rw [step_of_eof h]
  · rw [step_of_ne_eof h]
    split <;> rfl

/-- What a run from one state to another keeps. -/
structure Steps (i : Input) (s s' : State) : Prop where
  context : s'.context = s.context
  position : s.cursor.position ≤ s'.cursor.position
  coherent : Coherent i s.cursor → Coherent i s'.cursor
  inside : s.cursor.position ≤ i.tokens.size → s'.cursor.position ≤ i.tokens.size
  errors : s.errors.size ≤ s'.errors.size

theorem Steps.refl (i : Input) (s : State) : Steps i s s :=
  ⟨rfl, Nat.le_refl _, id, id, Nat.le_refl _⟩

theorem Steps.trans {i : Input} {s t u : State} (h : Steps i s t) (h' : Steps i t u) :
    Steps i s u :=
  ⟨h'.context.trans h.context, Nat.le_trans h.position h'.position,
    fun c => h'.coherent (h.coherent c), fun l => h'.inside (h.inside l),
    Nat.le_trans h.errors h'.errors⟩

theorem Steps.moved {i : Input} {s : State} {c : Cursor}
    (hp : s.cursor.position ≤ c.position) (hc : Coherent i s.cursor → Coherent i c)
    (hi : s.cursor.position ≤ i.tokens.size → c.position ≤ i.tokens.size) :
    Steps i s (s.moved c) :=
  ⟨rfl, hp, hc, hi, Nat.le_refl _⟩

/-! ## Recovery -/

theorem position_le_resumeAt (ts : Tokens) (boundary : TagSet) (depth : Nat) (c : Cursor) :
    c.position ≤ (c.resumeAt ts boundary depth).position := by
  fun_induction Cursor.resumeAt ts boundary depth c with
  | case1 => exact Nat.le_refl _
  | case2 _ c h h' _ _ ih => exact Nat.le_trans (position_le_step ts c) ih
  | case3 => exact Nat.le_refl _
  | case4 _ c h h' _ _ _ _ ih => exact Nat.le_trans (position_le_step ts c) ih
  | case5 => exact Nat.le_refl _
  | case6 _ c h h' _ _ _ _ ih => exact Nat.le_trans (position_le_step ts c) ih

theorem lt_resumeAt {ts : Tokens} {boundary : TagSet} {depth : Nat} {c : Cursor}
    (he : c.tag ts ≠ .eof) (hb : boundary.contains (c.tag ts) = false) :
    c.position < (c.resumeAt ts boundary depth).position := by
  have lt := Cursor.lt_position_step he
  rw [Cursor.resumeAt, dif_neg he, hb]
  simp only [Bool.and_false, Bool.false_eq_true, if_false]
  split
  · exact Nat.lt_of_lt_of_le lt (position_le_resumeAt ts boundary _ _)
  · split <;> exact Nat.lt_of_lt_of_le lt (position_le_resumeAt ts boundary _ _)

/-- Where something has failed, reading goes on behind the token that it started with, if that token is
in no boundary. -/
theorem lt_resume {i : Input} {s t : State} {boundary : TagSet} (steps : Steps i s t) (b : Bool)
    (he : s.cursor.tag i.tokens ≠ .eof) (hb : boundary.contains (s.cursor.tag i.tokens) = false) :
    s.cursor.position < ((skipping b t.cursor).resume i.tokens boundary).position := by
  rcases Nat.lt_or_eq_of_le steps.position with lt | eq
  · exact Nat.lt_of_lt_of_le lt (position_le_resumeAt i.tokens boundary 0 (skipping b t.cursor))
  · have tag : (skipping b t.cursor).tag i.tokens = s.cursor.tag i.tokens :=
      congrArg i.tokens.tag eq.symm
    rw [eq]
    exact lt_resumeAt (c := skipping b t.cursor) (by rwa [tag]) (by rwa [tag])

theorem stmtBoundary_cases : ∀ {t : Tag}, stmtBoundary.contains t = true →
    t = .lineBreak ∨ t = .punct .closeBrace ∨ t = .eof := by
  decide

/-- Between braces, a boundary of statements is a line break. -/
theorem lineBreak_of_isInBraces {i : Input} {s t : State} (inside : Inner.isInBraces i s = .ok true t)
    (h : stmtBoundary.contains (s.cursor.tag i.tokens) = true) :
    s.cursor.tag i.tokens = .lineBreak := by
  obtain ⟨-, brace, ended⟩ := isInBraces_ok inside
  exact (stmtBoundary_cases h).resolve_right (not_or.2 ⟨brace, ended⟩)

theorem itemBoundary_cases : ∀ {t : Tag}, itemBoundary.contains t = true → t = .lineBreak ∨ t = .eof := by
  decide

theorem coherent_resumeAt {i : Input} {c : Cursor} (boundary : TagSet) (depth : Nat)
    (h : Coherent i c) : Coherent i (c.resumeAt i.tokens boundary depth) := by
  fun_induction Cursor.resumeAt i.tokens boundary depth c with
  | case1 => exact h
  | case2 _ c _ _ _ _ ih => exact ih (coherent_step h)
  | case3 => exact h
  | case4 _ c _ _ _ _ _ _ ih => exact ih (coherent_step h)
  | case5 => exact h
  | case6 _ c _ _ _ _ _ _ ih => exact ih (coherent_step h)

theorem resumeAt_inside {ts : Tokens} {c : Cursor} (boundary : TagSet) (depth : Nat)
    (h : c.position ≤ ts.size) : (c.resumeAt ts boundary depth).position ≤ ts.size := by
  fun_induction Cursor.resumeAt ts boundary depth c with
  | case1 => exact h
  | case2 _ c _ _ _ _ ih => exact ih (step_inside h)
  | case3 => exact h
  | case4 _ c _ _ _ _ _ _ ih => exact ih (step_inside h)
  | case5 => exact h
  | case6 _ c _ _ _ _ _ _ ih => exact ih (step_inside h)

theorem skipsBreaks_resumeAt (ts : Tokens) (boundary : TagSet) (depth : Nat) (c : Cursor) :
    (c.resumeAt ts boundary depth).skipsBreaks = c.skipsBreaks := by
  fun_induction Cursor.resumeAt ts boundary depth c with
  | case1 => rfl
  | case2 _ c _ _ _ _ ih => rw [ih, skipsBreaks_step]
  | case3 => rfl
  | case4 _ c _ _ _ _ _ _ ih => rw [ih, skipsBreaks_step]
  | case5 => rfl
  | case6 _ c _ _ _ _ _ _ ih => rw [ih, skipsBreaks_step]

/-! ## Steady readers -/

/-- What every run keeps. -/
def steady : Invariant where
  rel := Steps
  admits _ _ := True
  admits_of _ _ _ _ := trivial
  admitsPattern _ _ := True
  admitsPattern_of _ _ _ := trivial
  refl := .refl
  trans := .trans
  step i s := .moved (position_le_step i.tokens s.cursor) coherent_step step_inside
  skipBreaks i s :=
    .moved (position_le_skipBreaks i.tokens s.cursor) coherent_skipBreaks pastBreaks_inside
  skipping _ _ _ := .moved (Nat.le_refl _) id id
  resume i s boundary := .moved (position_le_resumeAt i.tokens boundary 0 s.cursor)
    (coherent_resumeAt boundary 0) (resumeAt_inside boundary 0)
  within h := ⟨rfl, h.position, h.coherent, h.inside, h.errors⟩
  expr _ _ _ _ := ⟨rfl, Nat.le_refl _, id, id, Nat.le_refl _⟩
  pattern _ _ _ _ := ⟨rfl, Nat.le_refl _, id, id, Nat.le_refl _⟩
  stmt _ _ _ := ⟨rfl, Nat.le_refl _, id, id, Nat.le_refl _⟩
  error _ s e := by
    refine ⟨rfl, Nat.le_refl _, id, id, ?_⟩
    simp only [State.reported, Array.size_push]
    omega
  name _ _ := ⟨rfl, Nat.le_refl _, id, id, Nat.le_refl _⟩

/-- A reader whose runs keep what `Steps` says. -/
abbrev Steady (r : Reader α) : Prop := Keeps steady r

/-- Readers of expressions and blocks that are steady. -/
abbrev Inner.Steady (inner : Inner) : Prop := inner.Keeps steady

instance (form : Mark → Expr) : Builds steady form := ⟨fun _ _ => trivial⟩

instance (span : Span) (form : Mark → Pattern) : Steady (newPattern span form) :=
  ⟨fun i s => steady.pattern i s _ trivial⟩

theorem Steady.ok {r : Reader α} [Steady r] {i : Input} {s s' : State} {a : α}
    (h : r i s = .ok a s') : Steps i s s' := Keeps.ok (R := steady) h

theorem Steady.error {r : Reader α} [Steady r] {i : Input} {s s' : State} {e : SyntaxError}
    (h : r i s = .error e s') : Steps i s s' := Keeps.error (R := steady) h

theorem Steady.elseBody {ν : Type} {f : Body ν → Reader β} {r : Reader β} [∀ t, Steady (f t)]
    [Steady r] (e : Option (Body ν)) : Steady (match e with | some t => f t | none => r) := by
  cases e <;> infer_instance

theorem Steady.operator {ν : Type} {f : Operator ν → Reader β} {r : Reader β} [∀ op, Steady (f op)]
    [Steady r] (op : Option (Operator ν)) : Steady (match op with | some op => f op | none => r) := by
  cases op <;> infer_instance

instance {inner : Inner} [inner.Steady] (lhs : Expr) : Steady (operatorRound inner lhs) :=
  .bind inferInstance Steady.operator

/-- What goes on behind a round, when there are rounds left. -/
theorem Steady.round (round : β → Reader (ForInStep β)) [∀ b, Steady (round b)] (n : Nat)
    (r : ForInStep β) : Steady (match r with
      | .done b => pure b
      | .yield b => repeatUpTo round n b : Reader β) := by
  cases r with
  | done b => exact inferInstanceAs (Steady (pure b))
  | yield b => exact repeatUpTo_keeps n b

end Grammar

end Surface
