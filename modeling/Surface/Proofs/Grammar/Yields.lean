import Surface.Proofs.Grammar.Derivation

/-!
# Runs from position to position

A judgment about readers: a run that succeeds leads from one position to another, in the same
context, with a result that fits the two positions. It is closed under every way readers are put
together, so that what a reader yields follows from what its parts yield.

Results:
* `Standing`, `Yields`: the judgment.
* `Yields.bind`, `Yields.ran`, `Yields.within`, `Yields.group`, ...: readers put together.
* `Yields.collect`, `Yields.collectWhile`, `Yields.commaList`: sequences.
-/

namespace Surface.Grammar

variable {S : Setting} {α β : Type}

/-! ## The judgment -/

/-- The state stands at a position, in a context and a line-break mode. -/
structure Standing (S : Setting) (c : Context) (b : Bool) (i : Nat) (s : State) : Prop where
  context : s.context = c
  skips : s.cursor.skipsBreaks = b
  position : s.cursor.position = i
  previous : s.cursor.previous = S.last i
  inside : i ≤ S.input.tokens.size

/-- Errors are recorded in flawed settings only. -/
def Fine (S : Setting) (s : State) : Prop := 0 < s.errors.size → S.flawed

theorem Fine.before {r : Reader α} [Steady r] {s s' : State} {a : α} (hf : Fine S s')
    (h : r S.input s = .ok a s') : Fine S s :=
  fun hs => hf (Nat.lt_of_lt_of_le hs (Steady.ok h).errors)

/-- From position `i`, in context `c` and mode `b`, a successful run leads to a position in mode
`b'`, and `P` holds of the result and that position. -/
def Yields (S : Setting) (r : Reader α) (c : Context) (b : Bool) (i : Nat) (b' : Bool)
    (P : α → Nat → Prop) : Prop :=
  ∀ s a s', Standing S c b i s → r S.input s = .ok a s' → Fine S s' →
    ∃ j, Standing S c b' j s' ∧ P a j

/-- From position `i` a run succeeds with `a` and leads to position `j` in mode `b'`. -/
def Runs (S : Setting) (r : Reader α) (c : Context) (b : Bool) (i : Nat) (a : α) (b' : Bool)
    (j : Nat) : Prop :=
  ∀ s, Standing S c b i s → ∃ s', r S.input s = .ok a s' ∧ Standing S c b' j s'

variable {c : Context} {b b' b'' : Bool} {i j : Nat}

namespace Yields

theorem mono {r : Reader α} {P Q : α → Nat → Prop} (h : Yields S r c b i b' P)
    (hPQ : ∀ a j, P a j → Q a j) : Yields S r c b i b' Q := by
  intro s a s' hs hr hf
  obtain ⟨j, hj, hP⟩ := h s a s' hs hr hf
  exact ⟨j, hj, hPQ a j hP⟩

/-! ## Putting readers together -/

theorem bind_of_steady {x : Reader α} {f : α → Reader β} {P : α → Nat → Prop}
    {Q : β → Nat → Prop} (steady : ∀ a, Steady (f a)) (hx : Yields S x c b i b' P)
    (hf : ∀ a k, P a k → Yields S (f a) c b' k b'' Q) : Yields S (x >>= f) c b i b'' Q := by
  intro s r s' hs h fine
  obtain ⟨a, t, h₁, h₂⟩ := bind_ok.1 h
  obtain ⟨k, hk, hP⟩ := hx s a t hs h₁ (fine.before h₂)
  exact hf a k hP t r s' hk h₂ fine

theorem bind {x : Reader α} {f : α → Reader β} {P : α → Nat → Prop} {Q : β → Nat → Prop}
    [steady : ∀ a, Steady (f a)] (hx : Yields S x c b i b' P)
    (hf : ∀ a k, P a k → Yields S (f a) c b' k b'' Q) : Yields S (x >>= f) c b i b'' Q :=
  bind_of_steady steady hx hf

/-- A first reader that is known to run. -/
theorem ran {x : Reader α} {f : α → Reader β} {a : α} {Q : β → Nat → Prop}
    (hx : Runs S x c b i a b' j) (hf : Yields S (f a) c b' j b'' Q) :
    Yields S (x >>= f) c b i b'' Q := by
  intro s r s' hs h fine
  obtain ⟨t, h₁, ht⟩ := hx s hs
  rw [bind_of_ok h₁] at h
  exact hf t r s' ht h fine

theorem pure {a : α} {P : α → Nat → Prop} (h : P a i) :
    Yields S (Pure.pure a : Reader α) c b i b P := by
  rintro s _ _ hs ⟨⟩ _
  exact ⟨i, hs, h⟩

theorem map {x : Reader α} {f : α → β} {P : α → Nat → Prop} (hx : Yields S x c b i b' P) :
    Yields S (f <$> x) c b i b' fun r j => ∃ a, f a = r ∧ P a j := by
  intro s r s' hs h fine
  obtain ⟨a, ha, rfl⟩ := map_ok.1 h
  obtain ⟨j, hj, hP⟩ := hx s a s' hs ha fine
  exact ⟨j, hj, a, rfl, hP⟩

theorem ite {p : Prop} [Decidable p] {x y : Reader α} {P : α → Nat → Prop}
    (hx : p → Yields S x c b i b' P) (hy : ¬ p → Yields S y c b i b' P) :
    Yields S (if p then x else y) c b i b' P := by
  by_cases h : p
  · rw [if_pos h]
    exact hx h
  · rw [if_neg h]
    exact hy h

/-- A reader that fails yields whatever is asked for. -/
theorem fails {r : Reader α} {P : α → Nat → Prop} (h : ∀ s, ∃ e s', r S.input s = .error e s') :
    Yields S r c b i b' P := by
  intro s a s' _ hr
  obtain ⟨e, t, he⟩ := h s
  rw [he] at hr
  cases hr

theorem unexpected {ts : TagSet} {P : α → Nat → Prop} :
    Yields S (Grammar.unexpected ts : Reader α) c b i b' P := fails fun _ => ⟨_, _, rfl⟩

theorem absent {w : Wanted} {P : α → Nat → Prop} :
    Yields S (Grammar.absent w : Reader α) c b i b' P := fails fun _ => ⟨_, _, rfl⟩

theorem within {derive : Context → Context} {r : Reader α} {P : α → Nat → Prop}
    (h : Yields S r (derive c) b i b' P) : Yields S (Grammar.within derive r) c b i b' P := by
  intro s a s' hs hr fine
  obtain ⟨t, ht, rfl⟩ := within_ok.1 hr
  have inside : Standing S (derive c) b i (s.inContext (derive s.context)) :=
    ⟨congrArg derive hs.context, hs.skips, hs.position, hs.previous, hs.inside⟩
  obtain ⟨j, hj, hP⟩ := h _ a t inside ht fine
  exact ⟨j, ⟨hs.context, hj.skips, hj.position, hj.previous, hj.inside⟩, hP⟩

theorem inConstruct {form : Construct} {r : Reader α} {P : α → Nat → Prop}
    (h : Yields S r c b i b' P) : Yields S (Grammar.inConstruct form r) c b i b' P := by
  intro s a s' hs hr fine
  exact h s a s' hs (inConstruct_ok.1 hr) fine

theorem newExpr {span : Span} {form : Mark → Expr} {P : Expr → Nat → Prop}
    (h : ∀ n, P (form ⟨n, span⟩) i) : Yields S (Grammar.newExpr span form) c b i b P := by
  rintro s _ _ ⟨h₁, h₂, h₃, h₄, h₅⟩ ⟨⟩ _
  exact ⟨i, ⟨h₁, h₂, h₃, h₄, h₅⟩, h _⟩

theorem newPattern {span : Span} {form : Mark → Pattern} {P : Pattern → Nat → Prop}
    (h : ∀ n, P (form ⟨n, span⟩) i) : Yields S (Grammar.newPattern span form) c b i b P := by
  rintro s _ _ ⟨h₁, h₂, h₃, h₄, h₅⟩ ⟨⟩ _
  exact ⟨i, ⟨h₁, h₂, h₃, h₄, h₅⟩, h _⟩

theorem newStmt {span : Span} {form : Mark → Stmt} {P : Stmt → Nat → Prop}
    (h : ∀ n, P (form ⟨n, span⟩) i) : Yields S (Grammar.newStmt span form) c b i b P := by
  rintro s _ _ ⟨h₁, h₂, h₃, h₄, h₅⟩ ⟨⟩ _
  exact ⟨i, ⟨h₁, h₂, h₃, h₄, h₅⟩, h _⟩

end Yields

/-! ## Looking ahead and taking -/

namespace Setting

variable (S)

theorem past_le (h : i ≤ S.input.tokens.size) : S.past i ≤ S.input.tokens.size :=
  pastBreaks_inside h

theorem next_le (h : S.tag i ≠ .eof) : S.next b i ≤ S.input.tokens.size := by
  have lt : i < S.input.tokens.size := Tokens.lt_size_of_tag_ne_eof h
  unfold next
  split
  · exact S.past_le lt
  · exact lt

end Setting

namespace Standing

variable {s : State}

theorem tag_eq (h : Standing S c b i s) : s.cursor.tag S.input.tokens = S.tag i := by
  unfold Cursor.tag Setting.tag
  rw [h.position]

theorem step (h : Standing S c b i s) (hne : S.tag i ≠ .eof) :
    Standing S c b (S.next b i) (s.moved (s.cursor.step S.input.tokens)) := by
  have coherent : Coherent S.input s.cursor := by
    unfold Coherent
    rw [h.previous, h.position]
    rfl
  have at_next : (s.cursor.step S.input.tokens).position = S.next b i := by
    rw [step_of_ne_eof (by rwa [h.tag_eq]), h.skips]
    unfold Setting.next Setting.past
    cases b <;> simp only [Bool.false_eq_true, if_true, if_false, Cursor.skipBreaks,
      Cursor.pass, h.position]
  refine ⟨h.context, ?_, at_next, ?_, S.next_le hne⟩
  · rw [State.moved_cursor, skipsBreaks_step]
    exact h.skips
  · rw [State.moved_cursor, coherent_step coherent, at_next]
    rfl

theorem skipBreaks (h : Standing S c b i s) :
    Standing S c b (S.past i) (s.moved (s.cursor.skipBreaks S.input.tokens)) := by
  refine ⟨h.context, h.skips, ?_, ?_, S.past_le h.inside⟩
  · show pastBreaks S.input.tokens s.cursor.position = S.past i
    rw [h.position]
    rfl
  · show s.cursor.previous = S.input.tokens.lastSpan (pastBreaks S.input.tokens i)
    rw [Tokens.lastSpan_pastBreaks, h.previous]
    rfl

theorem skipping (h : Standing S c b i s) (b' : Bool) :
    Standing S c b' i (s.moved (skipping b' s.cursor)) :=
  ⟨h.context, rfl, h.position, h.previous, h.inside⟩

end Standing

namespace Runs

theorem context : Runs S context c b i c b i := by
  intro s hs
  exact ⟨s, by rw [context_run, hs.context], hs⟩

theorem nextToken : Runs S nextToken c b i (S.input.tokens.get i) b i := by
  intro s hs
  exact ⟨s, by rw [nextToken_run, hs.position], hs⟩

theorem nextSpan : Runs S nextSpan c b i (S.span i) b i := by
  intro s hs
  exact ⟨s, by rw [nextSpan_run, hs.position]; rfl, hs⟩

theorem nextTag : Runs S nextTag c b i (S.tag i) b i := by
  intro s hs
  exact ⟨s, by rw [nextTag_run, hs.tag_eq], hs⟩

theorem tagBehind : Runs S tagBehind c b i (S.tag (i + 1)) b i := by
  intro s hs
  exact ⟨s, by rw [tagBehind_run, hs.position]; rfl, hs⟩

theorem previousSpan : Runs S previousSpan c b i (S.last i) b i := by
  intro s hs
  exact ⟨s, by rw [previousSpan_run, hs.previous], hs⟩

theorem read : Runs S (read : Reader Input) c b i S.input b i := fun s hs => ⟨s, read_run _ s, hs⟩

theorem isNext {t : Tag} : Runs S (isNext t) c b i (decide (S.tag i = t)) b i := by
  intro s hs
  exact ⟨s, by simp only [isNext_run, hs.tag_eq], hs⟩

theorem isNotNext {t : Tag} : Runs S (isNotNext t) c b i (!decide (S.tag i = t)) b i := by
  intro s hs
  exact ⟨s, by simp only [isNotNext_run, hs.tag_eq], hs⟩

theorem isNextIn {ts : TagSet} : Runs S (isNextIn ts) c b i (ts.contains (S.tag i)) b i := by
  intro s hs
  exact ⟨s, by rw [isNextIn_run, hs.tag_eq], hs⟩

theorem isNameNext : Runs S isNameNext c b i (nameTags.contains (S.tag i)) b i := isNextIn

theorem isAhead {t : Tag} : Runs S (isAhead t) c b i (S.ahead t i) b i := by
  intro s hs
  exact ⟨s, by rw [isAhead_run, hs.position]; rfl, hs⟩

theorem isBinderNext : Runs S isBinderNext c b i (S.binds b i) b i := by
  intro s hs
  exact ⟨s, by rw [isBinderNext_run, hs.position, hs.skips]; rfl, hs⟩

theorem isSegmentNext : Runs S isSegmentNext c b i (decide (S.tag i = .reserved .dot)
    && nameTags.contains (S.tag (i + 1))) b i := by
  intro s hs
  exact ⟨s, by simp only [isSegmentNext_run, hs.tag_eq, hs.position]; rfl, hs⟩

theorem isNextPastBreak {t : Tag} : Runs S (isNextPastBreak t) c b i
    (if S.tag i = .lineBreak then decide (S.tag (i + 1) = t) else decide (S.tag i = t)) b i := by
  intro s hs
  exact ⟨s, by simp only [isNextPastBreak_run, hs.tag_eq, hs.position]; rfl, hs⟩

theorem isInBraces : Runs S Inner.isInBraces c b i
    (!decide (S.tag i = .punct .closeBrace) && !decide (S.tag i = .eof)) b i := by
  intro s hs
  exact ⟨s, by simp only [isInBraces_run, hs.tag_eq], hs⟩

theorem isLambdaNext : Runs S Inner.isLambdaNext c b i (opensLambda (S.kind i)) b i := by
  intro s hs
  exact ⟨s, by rw [isLambdaNext_run, hs.position]; rfl, hs⟩

theorem isSemicolonNext : Runs S isSemicolonNext c b i
    (decide ((S.input.tokens.get i).tag = .lineBreak)
      && (S.input.tokens.get i).spacing.contains Spacing.hasSemicolon) b i := by
  intro s hs
  exact ⟨s, by simp only [isSemicolonNext_run, hs.position], hs⟩

theorem take (hne : S.tag i ≠ .eof) :
    Runs S take c b i (S.input.tokens.get i) b (S.next b i) := by
  intro s hs
  exact ⟨_, by rw [take_run, hs.position], hs.step hne⟩

theorem skipBreaks : Runs S skipBreaks c b i () b (S.past i) :=
  fun s hs => ⟨_, skipBreaks_run _ s, hs.skipBreaks⟩

theorem setSkipsBreaks : Runs S (setSkipsBreaks b') c b i () b' i :=
  fun s hs => ⟨_, setSkipsBreaks_run b' _ s, hs.skipping b'⟩

theorem acceptNext {t : Tag} (h : S.tag i = t) (hne : t ≠ .eof) :
    Runs S (accept t) c b i true b (S.next b i) := by
  intro s hs
  exact ⟨_, accept_of_tag (by rw [hs.tag_eq, h]), hs.step (by rwa [h])⟩

theorem acceptNone {t : Tag} (h : S.tag i ≠ t) : Runs S (accept t) c b i false b i := by
  intro s hs
  exact ⟨s, accept_of_ne (by rwa [hs.tag_eq]), hs⟩

theorem openGroup (hne : S.tag i ≠ .eof) : Runs S openGroup c b i
    ⟨if S.tag i = .punct .openBracket then .closeBracket else .closeParen, S.span i, b⟩ true
    (S.next true i) := by
  intro s hs
  exact ⟨_, by simp only [openGroup_run, hs.tag_eq, hs.position, hs.skips]; rfl,
    (hs.skipping true).step hne⟩

theorem openBrace (hne : S.tag i ≠ .eof) : Runs S openBrace c b i
    ⟨.closeBrace, S.span i, b⟩ false (S.next false i) := by
  intro s hs
  exact ⟨_, by simp only [openBrace_run, hs.position, hs.skips]; rfl,
    (hs.skipping false).step hne⟩

end Runs

namespace Yields

theorem expect {t : Tag} (hne : t ≠ .eof) : Yields S (Grammar.expect t) c b i b fun span j =>
    S.tag i = t ∧ span = S.span i ∧ j = S.next b i := by
  intro s span s' hs h _
  have tag := tag_of_expect h
  rw [expect_of_tag tag] at h
  cases h
  rw [hs.tag_eq] at tag
  refine ⟨_, hs.step (by rwa [tag]), tag, ?_, rfl⟩
  rw [hs.position]
  rfl

theorem closeGroup {p : Punct} {span : Span} {skips : Bool} (hp : p ≠ .closeBrace) :
    Yields S (Grammar.closeGroup ⟨p, span, skips⟩) c b i skips fun whole j =>
      S.tag i = .punct p ∧ whole = span.merge (S.span i) ∧ j = S.next skips i := by
  intro s whole s' hs h _
  have tag := tag_of_closeGroup h
  rw [closeGroup_of_tag tag] at h
  cases h
  have closing : Opened.closing ⟨p, span, skips⟩ S.input.tokens s.cursor
      = Grammar.skipping skips s.cursor := by
    unfold Opened.closing
    rw [if_neg hp]
  rw [closing] at tag ⊢
  have stands := hs.skipping skips
  have tag_i : S.tag i = .punct p := by rwa [← stands.tag_eq]
  refine ⟨_, stands.step (by rw [tag_i]; exact Tag.noConfusion), tag_i, ?_, rfl⟩
  show span.merge (S.input.tokens.get s.cursor.position).span = _
  rw [hs.position]
  rfl

theorem closeBrace {span : Span} {skips : Bool} :
    Yields S (Grammar.closeGroup ⟨.closeBrace, span, skips⟩) c b i skips fun whole j =>
      S.tag (S.past i) = .punct .closeBrace ∧ whole = span.merge (S.span (S.past i))
        ∧ j = S.next skips (S.past i) := by
  intro s whole s' hs h _
  have tag := tag_of_closeGroup h
  rw [closeGroup_of_tag tag] at h
  cases h
  have stands := hs.skipBreaks.skipping skips
  have tag_i : S.tag (S.past i) = .punct .closeBrace := by
    rw [← stands.tag_eq]
    exact tag
  refine ⟨_, stands.step (by rw [tag_i]; exact Tag.noConfusion), tag_i, ?_, rfl⟩
  show span.merge (S.input.tokens.get (pastBreaks _ s.cursor.position)).span = _
  rw [hs.position]
  rfl

end Yields

/-! ## Sequences -/

/-- Items one after the other. -/
inductive Items (P : Nat → α → Nat → Prop) : Nat → List α → Nat → Prop
  | none {i : Nat} : Items P i [] i
  | more {i : Nat} {a : α} {k : Nat} {as : List α} {j : Nat} : P i a k → Items P k as j →
      Items P i (a :: as) j

/-- Items one after the other, each of which says whether another may follow. The flag says
whether the last one denied it. -/
inductive Rows (P : Nat → α × Bool → Nat → Prop) : Nat → List α → Bool → Nat → Prop
  | none {i : Nat} : Rows P i [] false i
  | last {i : Nat} {a : α} {j : Nat} : P i (a, false) j → Rows P i [a] true j
  | more {i : Nat} {a : α} {k : Nat} {as : List α} {l : Bool} {j : Nat} : P i (a, true) k →
      Rows P k as l j → Rows P i (a :: as) l j

/-- Items with commas between them, up to a tag; the flag says whether a comma stands behind the
last one. -/
inductive Listed (S : Setting) (t : Tag) (b : Bool) (P : Nat → α → Nat → Prop) :
    Nat → List α → Bool → Nat → Prop
  | none {i : Nat} : S.tag i = t → Listed S t b P i [] false i
  | last {i : Nat} {a : α} {k : Nat} : P i a k → S.tag k = t → S.tag k ≠ .punct .comma →
      Listed S t b P i [a] false k
  | more {i : Nat} {a : α} {k : Nat} {as : List α} {l : Bool} {j : Nat} : P i a k → S.tag k = .punct .comma →
      Listed S t b P (S.next b k) as l j → Listed S t b P i (a :: as) (l || as.isEmpty) j

/-- What one row of a comma list takes: an item and the comma behind it, or an item before the
end of the list. -/
def Row (S : Setting) (t : Tag) (b : Bool) (P : Nat → α → Nat → Prop) (i : Nat) (r : α × Bool)
    (j : Nat) : Prop :=
  ∃ k, P i r.1 k ∧ if r.2 then S.tag k = .punct .comma ∧ j = S.next b k
    else S.tag k ≠ .punct .comma ∧ S.tag k = t ∧ j = k

theorem Row.lt {t : Tag} {P : Nat → α → Nat → Prop} {r : α × Bool} (h : Row S t b P i r j)
    (hlt : ∀ i a j, P i a j → i < j) : i < j := by
  obtain ⟨k, hP, h⟩ := h
  have := hlt i r.1 k hP
  split at h
  · have := S.lt_next b k
    omega
  · omega

theorem Items.listed {t : Tag} {P : Nat → α → Nat → Prop} {i j : Nat}
    {rows : List (α × Bool)}
    (h : Items (fun i r j => (!decide (S.tag i = t)) = true ∧ Row S t b P i r j) i rows j)
    (hj : (!decide (S.tag j = t)) = false) :
    Listed S t b P i (rows.map Prod.fst) ((rows.getLast?.map Prod.snd).getD false) j := by
  induction h with
  | none => exact .none (by simpa using hj)
  | @more i row k rows j first rest ih =>
    obtain ⟨a, comma⟩ := row
    obtain ⟨-, k₀, hP, hrow⟩ := first
    cases comma with
    | true =>
      obtain ⟨tag, rfl⟩ := hrow
      have := Listed.more hP tag (ih hj)
      cases rows with
      | nil => simpa using this
      | cons r rs => simpa using this
    | false =>
      obtain ⟨ne, tag, rfl⟩ := hrow
      cases rest with
      | none => exact .last hP tag ne
      | more second _ => exact absurd second.1 (by simp [tag])

namespace Yields

/-- At most so many rounds, each of which keeps an invariant that may count the rounds left. -/
theorem repeatUpTo {round : β → Reader (ForInStep β)} {I : Nat → β → Nat → Prop}
    {Q : β → Nat → Prop} (steady : ∀ x, Steady (round x))
    (hround : ∀ n x i, I (n + 1) x i → Yields S (round x) c b i b fun
      | .done y, j => Q y j
      | .yield y, j => I n y j)
    (hend : ∀ x i, I 0 x i → i ≤ S.input.tokens.size → Q x i) (n : Nat) (x : β) (i : Nat)
    (hx : I n x i) : Yields S (Grammar.repeatUpTo round n x) c b i b Q := by
  induction n generalizing x i with
  | zero =>
    intro s a s' hs
    exact pure (hend x i hx hs.inside) s a s' hs
  | succ n ih =>
    refine bind_of_steady (Steady.round round n) (hround n x i hx) fun r j hr => ?_
    cases r with
    | done y => exact pure hr
    | yield y => exact ih y j hr

theorem repeated_of_upTo {round : β → Reader (ForInStep β)} {Q : β → Nat → Prop} {x : β}
    (h : ∀ n, S.input.tokens.size < n + i → Yields S (Grammar.repeatUpTo round n x) c b i b Q) :
    Yields S (Grammar.repeated x round) c b i b Q := by
  refine ran Runs.read ?_
  intro s a s' hs run fine
  rw [bind_of_ok (cursor_run _ s)] at run
  exact h _ (by rw [hs.position]; omega) s a s' hs run fine

/-- Rounds of which each but the last takes a token. -/
theorem repeated {round : β → Reader (ForInStep β)} {I : β → Nat → Prop} {Q : β → Nat → Prop}
    (steady : ∀ x, Steady (round x))
    (hround : ∀ x i, I x i → Yields S (round x) c b i b fun
      | .done y, j => Q y j
      | .yield y, j => I y j ∧ i < j)
    (x : β) (i : Nat) (hx : I x i) : Yields S (Grammar.repeated x round) c b i b Q := by
  refine repeated_of_upTo fun n hn => ?_
  refine repeatUpTo (I := fun n x i => I x i ∧ S.input.tokens.size < n + i) steady ?_ ?_ n x i
    ⟨hx, hn⟩
  · intro n x i ⟨hI, hn⟩
    refine (hround x i hI).mono fun r j h => ?_
    cases r with
    | done y => exact h
    | yield y => exact ⟨h.1, by have := h.2; omega⟩
  · intro x i ⟨_, hn⟩ inside
    omega

theorem collect {more : Reader Bool} {item : Reader (α × Bool)} [Steady more] [Steady item]
    {test : Nat → Bool} {P : Nat → α × Bool → Nat → Prop}
    (hmore : ∀ i, Runs S more c b i (test i) b i)
    (hitem : ∀ i, test i = true → Yields S item c b i b (P i))
    (hlt : ∀ i a j, P i a j → i < j) (i : Nat) :
    Yields S (Grammar.collect more item) c b i b fun as j =>
      ∃ l, Rows P i as l j ∧ (l = false → test j = false) := by
  -- what has been collected so far stands before whatever is collected from here on
  let before (items : Array α) (k : Nat) : Prop :=
    ∀ as l j, Rows P k as l j → Rows P i (items.toList ++ as) l j
  have ended (items : Array α) (k : Nat) (h : before items k) (ht : test k = false) :
      ∃ l, Rows P i items.toList l k ∧ (l = false → test k = false) := by
    have := h [] false k .none
    rw [List.append_nil] at this
    exact ⟨false, this, fun _ => ht⟩
  have all : Yields S (Grammar.repeated #[] (collectRound more item)) c b i b fun items j =>
      ∃ l, Rows P i items.toList l j ∧ (l = false → test j = false) := by
    refine repeated (I := before) (fun _ => inferInstance) (fun items k hk => ?_) #[] i
      (fun as l j h => by simpa using h)
    refine ran (hmore k) (ite (fun ht => ?_) fun ht => ?_)
    · refine bind (hitem k ht) fun r j hP => pure ?_
      obtain ⟨a, goOn⟩ := r
      cases goOn with
      | true =>
        refine ⟨fun as l j' h => ?_, hlt k _ j hP⟩
        have := hk (a :: as) l j' (.more hP h)
        simpa using this
      | false =>
        have := hk [a] true j (.last hP)
        exact ⟨true, by simpa using this, by simp⟩
    · exact pure (ended items k hk (by simpa using ht))
  rw [collect_eq]
  refine (map all).mono ?_
  rintro _ j ⟨items, rfl, h⟩
  exact h

theorem collectWhile {more : Reader Bool} {item : Reader α} [Steady more] [Steady item]
    {test : Nat → Bool} {P : Nat → α → Nat → Prop}
    (hmore : ∀ i, Runs S more c b i (test i) b i)
    (hitem : ∀ i, test i = true → Yields S item c b i b (P i))
    (hlt : ∀ i a j, P i a j → i < j) (i : Nat) :
    Yields S (Grammar.collectWhile more item) c b i b fun as j =>
      Items (fun i a j => test i = true ∧ P i a j) i as j ∧ test j = false := by
  have rows : Yields S (Grammar.collect more do return (← item, true)) c b i b fun as j =>
      ∃ l, Rows (fun i r j => r.2 = true ∧ test i = true ∧ P i r.1 j) i as l j
        ∧ (l = false → test j = false) :=
    collect hmore (fun i ht => bind (hitem i ht) fun a j hP => pure ⟨rfl, ht, hP⟩)
      (fun i a j h => hlt i _ j h.2.2) i
  refine rows.mono fun as j h => ?_
  obtain ⟨l, h, stop⟩ := h
  clear rows
  induction h with
  | none => exact ⟨.none, stop rfl⟩
  | last h => exact absurd h.1 Bool.false_ne_true
  | more h _ ih => exact ⟨.more h.2 (ih stop).1, (ih stop).2⟩

/-- Items that may take no token: nothing is said about why there are no more. -/
theorem collectAny {more : Reader Bool} {item : Reader α} [Steady more] [Steady item]
    {test : Nat → Bool} {P : Nat → α → Nat → Prop}
    (hmore : ∀ i, Runs S more c b i (test i) b i)
    (hitem : ∀ i, test i = true → Yields S item c b i b (P i)) (i : Nat) :
    Yields S (Grammar.collectWhile more item) c b i b (Items P i) := by
  let before (items : Array α) (k : Nat) : Prop :=
    ∀ as j, Items P k as j → Items P i (items.toList ++ as) j
  have ended (items : Array α) (k : Nat) (h : before items k) : Items P i items.toList k := by
    simpa using h [] k .none
  have all : Yields S (Grammar.repeated #[] (whileRound more item)) c b i b
      fun items => Items P i items.toList := by
    refine repeated_of_upTo fun n _ => repeatUpTo (I := fun _ => before) (fun _ => inferInstance) ?_
      (fun items k hk _ => ended items k hk) n #[] i (fun as j h => by simpa using h)
    intro _ items k hk
    refine ran (hmore k) (ite (fun ht => ?_) fun _ => pure (ended items k hk))
    have taken : Yields S (do return (← item, true) : Reader (α × Bool)) c b k b
        fun r j => P k r.1 j ∧ r.2 = true := bind (hitem k ht) fun a j hP => pure ⟨hP, rfl⟩
    refine bind taken fun r j h => ?_
    obtain ⟨a, goOn⟩ := r
    obtain ⟨hP, rfl⟩ := h
    exact pure fun as j' h => by simpa using hk (a :: as) j' (.more hP h)
  rw [collectWhile_eq]
  refine (map all).mono ?_
  rintro _ j ⟨items, rfl, h⟩
  exact h

theorem commaRow {t : Tag} {item : Reader α} [Steady item] {P : α → Nat → Prop}
    (hitem : Yields S item c b i b P) :
    Yields S (Grammar.commaRow t item) c b i b (Row S t b (fun _ => P) i) := by
  refine bind hitem fun a k hP => ?_
  by_cases comma : S.tag k = .punct .comma
  · refine ran (Runs.acceptNext comma Tag.noConfusion) (ran Runs.isNotNext ?_)
    exact ite (fun h => by simp at h) fun _ => pure ⟨k, hP, comma, rfl⟩
  · refine ran (Runs.acceptNone comma) (ran Runs.isNotNext ?_)
    refine ite (fun _ => ?_) fun h => pure ⟨k, hP, comma, by simpa using h, rfl⟩
    have fails : Yields S (Grammar.unexpected {.punct .comma, t} : Reader Unit) c b k b
        fun _ _ => False := unexpected
    exact bind fails fun _ _ h => h.elim

theorem commaList {t : Tag} {item : Reader α} [Steady item] {P : Nat → α → Nat → Prop}
    (hitem : ∀ i, Yields S item c b i b (P i)) (hlt : ∀ i a j, P i a j → i < j) (i : Nat) :
    Yields S (Grammar.commaList t item) c b i b fun r j => Listed S t b P i r.1 r.2 j := by
  rw [commaList_eq]
  refine bind (collectWhile (P := Row S t b P) (fun _ => Runs.isNotNext) (fun i _ => commaRow (hitem i))
    (fun _ _ _ h => h.lt hlt) i) fun rows j h => pure (h.1.listed h.2)

end Yields

end Surface.Grammar
