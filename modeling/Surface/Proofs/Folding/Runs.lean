import Surface.Proofs.Folding.Sides

/-!
# Runs on a stream and without its line breaks in groups

Two runs of a reader, one of them on the stream without the line breaks in groups, take the same
tokens, and the states they reach differ in the position only. Where one of them fails so does the
other; what happens after an error has been reported does not matter.

Results:
* `Folds`: the judgment.
* `Folds.bind`, `Folds.take`, `Folds.openGroup`, ...: readers put together.
* `Folds.collect`, `Folds.commaList`: sequences.
-/

namespace Surface.Grammar

open Groups Folding

variable {α β : Type}

/-! ## The judgment -/

/-- Both runs have succeeded with the same result and at the same token, or both have failed, or
both have reported an error. -/
inductive Outcome (F : Folding) (c : Context) (openers : List Tag) (p : Nat) :
    EStateM.Result SyntaxError State α → EStateM.Result SyntaxError State α → Prop
  | ok {a : α} {q : Nat} {t : State} : p ≤ q → F.At c openers q t →
      Outcome F c openers p (.ok a t) (.ok a (F.other t))
  | error {e e' : SyntaxError} {t t' : State} : Outcome F c openers p (.error e t) (.error e' t')
  | flawed {r r' : EStateM.Result SyntaxError State α} : 0 < (after r).errors.size →
      0 < (after r').errors.size → Outcome F c openers p r r'

/-- From position `p`, with brackets open and at most `m` tokens left without the line breaks, two
readers do the same on both streams, and leave brackets open. -/
def Folds (F : Folding) (m : Nat) (c : Context) (openers : List Tag) (p : Nat) (x y : Reader α)
    (openers' : List Tag) : Prop :=
  ∀ s, F.At c openers p s → F.right.input.tokens.size ≤ m + F.place p →
    Outcome F c openers' p (x F.left.input s) (y F.right.input (F.other s))

/-- Of a run that succeeds without errors, something holds of the result and of where it ends. -/
def Reaches (S : Setting) (c : Context) (b : Bool) (p : Nat) (x : Reader α) (P : α → Nat → Prop) : Prop :=
  ∀ s a t, Standing S c b p s → x S.input s = .ok a t → t.errors.size = 0 → P a t.cursor.position

/-- A run that succeeds without errors takes a token. -/
def MovesAt (S : Setting) (c : Context) (b : Bool) (p : Nat) (x : Reader α) : Prop :=
  Reaches S c b p x fun _ j => p < j

variable {F : Folding} {m : Nat} {c : Context} {openers openers' openers'' : List Tag} {p : Nat}

/-! ## Readers that take a token -/

/-- Where something was given up an error has been reported. -/
theorem flawed_recover {error : SyntaxError} {start : Span} {skips : Bool} {boundary : TagSet}
    {k : Span → Reader α} [steady : ∀ span, Steady (k span)] (i : Input) (s : State) :
    0 < (after ((recover error start skips boundary >>= k) i s)).errors.size := by
  rw [bind_of_ok (recover_run ..)]
  refine Nat.lt_of_lt_of_le ?_ ((steady _).keeps i _).errors
  show 0 < (s.errors.push error).size
  rw [Array.size_push]
  exact Nat.succ_pos _

theorem Reaches.of_yields {S : Setting} {b b' : Bool} {x : Reader α} {P Q : α → Nat → Prop}
    (h : Yields S x c b p b' P) (hPQ : ∀ a j, P a j → Q a j) : Reaches S c b p x Q := by
  intro s a t hs run none
  obtain ⟨j, there, hP⟩ := h s a t hs run fun some => absurd none (Nat.ne_of_gt some)
  rw [there.position]
  exact hPQ a j hP

namespace MovesAt

variable {S : Setting} {b b' : Bool} {x : Reader α}

theorem of_yields {P : α → Nat → Prop} (h : Yields S x c b p b' P) (lt : ∀ a j, P a j → p < j) :
    MovesAt S c b p x := Reaches.of_yields h lt

theorem take (ne : S.tag p ≠ .eof) : MovesAt S c b p take := by
  rintro s _ _ hs ⟨⟩ -
  have lt : s.cursor.position < (s.cursor.step S.input.tokens).position :=
    Cursor.lt_position_step (by rw [hs.tag_eq]; exact ne)
  rwa [hs.position] at lt

/-- A first reader that is known to run and takes nothing. -/
theorem ran {a : α} {f : α → Reader β} (hx : Runs S x c b p a b p) (h : MovesAt S c b p (f a)) :
    MovesAt S c b p (x >>= f) := by
  intro s r t hs run none
  obtain ⟨u, first, there⟩ := hx s hs
  rw [bind_of_ok first] at run
  exact h u r t there run none

/-- What comes second goes no token back. -/
theorem bind {f : α → Reader β} [∀ a, Steady (f a)] (h : MovesAt S c b p x) :
    MovesAt S c b p (x >>= f) := by
  intro s a t hs run none
  obtain ⟨d, u, first, second⟩ := bind_ok.1 run
  have steps := Steady.ok second
  have no_error : u.errors.size = 0 := Nat.eq_zero_of_le_zero (none ▸ steps.errors)
  exact Nat.lt_of_lt_of_le (h s d u hs first no_error) steps.position

/-- Without errors nothing is given up. -/
theorem recovered {start : Span} {skips : Bool} {boundary : TagSet} {k : Span → Reader α}
    [∀ span, Steady (k span)] (h : MovesAt S c b p x) :
    MovesAt S c b p (orElse x fun e => do k (← recover e start skips boundary)) := by
  intro s a t hs run none
  rw [orElse_run] at run
  cases hr : x S.input s with
  | ok a' t' =>
    rw [hr] at run
    cases run
    exact h s a t hs hr none
  | error e u =>
    rw [hr] at run
    have some : 0 < (after ((recover e start skips boundary >>= k) S.input u)).errors.size :=
      flawed_recover S.input u
    rw [show (recover e start skips boundary >>= k) S.input u = _ from run] at some
    exact absurd none (Nat.ne_of_gt some)

end MovesAt

/-! ## Putting readers together -/

namespace Outcome

variable {r r' : EStateM.Result SyntaxError State α}

theorem later {q : Nat} (h : Outcome F c openers q r r') (hpq : p ≤ q) :
    Outcome F c openers p r r' := by
  cases h with
  | ok le at_q => exact .ok (Nat.le_trans hpq le) at_q
  | error => exact .error
  | flawed left right => exact .flawed left right

end Outcome

namespace Folds

variable {x y : Reader α}

theorem pure {a : α} : Folds F m c openers p (Pure.pure a : Reader α) (Pure.pure a) openers :=
  fun _ h _ => .ok (Nat.le_refl p) h

/-- Errors that have been reported are not forgotten by what comes second. -/
theorem flawed_bind {f : α → Reader β} [steady : ∀ a, Steady (f a)] {i : Input} {s : State}
    (h : 0 < (after (x i s)).errors.size) : 0 < (after ((x >>= f) i s)).errors.size := by
  rw [bind_run]
  cases run : x i s with
  | error e t => rwa [run] at h
  | ok a t =>
    rw [run] at h
    exact Nat.lt_of_lt_of_le h ((steady a).keeps i t).errors

theorem bind_of_steady {f g : α → Reader β} (hs : ∀ a, Steady (f a)) (hs' : ∀ a, Steady (g a))
    (hx : Folds F m c openers p x y openers')
    (hf : ∀ a q, Folds F m c openers' q (f a) (g a) openers'') :
    Folds F m c openers p (x >>= f) (y >>= g) openers'' := by
  intro s at_p few
  have first := hx s at_p few
  generalize hr : x F.left.input s = r at first
  generalize hr' : y F.right.input (F.other s) = r' at first
  cases first with
  | @ok a q t le at_q =>
    rw [bind_of_ok hr, bind_of_ok hr']
    have := place_le_place (F := F) le
    exact (hf a q t at_q (by omega)).later le
  | error =>
    rw [bind_run, bind_run, hr, hr']
    exact .error
  | flawed left right => exact .flawed (flawed_bind (hr ▸ left)) (flawed_bind (hr' ▸ right))

theorem bind {f g : α → Reader β} [hs : ∀ a, Steady (f a)] [hs' : ∀ a, Steady (g a)]
    (hx : Folds F m c openers p x y openers')
    (hf : ∀ a q, Folds F m c openers' q (f a) (g a) openers'') :
    Folds F m c openers p (x >>= f) (y >>= g) openers'' := bind_of_steady hs hs' hx hf

/-- What is known of the result of the first reader; where that takes a token, fewer are left. -/
theorem bind_yields {P : α → Nat → Prop} {f g : α → Reader β} [∀ a, Steady (f a)] [∀ a, Steady (g a)]
    (hx : Folds F m c openers p x y openers')
    (hy : Yields F.left x c (folds openers) p (folds openers') P)
    (hf : ∀ a q, P a q → ∀ k ≤ m, (p < q → k < m) → Folds F k c openers' q (f a) (g a) openers'') :
    Folds F m c openers p (x >>= f) (y >>= g) openers'' := by
  intro s at_p few
  have first := hx s at_p few
  have yields := hy s
  generalize hr : x F.left.input s = r at first yields
  generalize hr' : y F.right.input (F.other s) = r' at first
  cases first with
  | @ok a q t le at_q =>
    rcases Nat.eq_zero_or_pos t.errors.size with none | some
    · obtain ⟨j, there, hP⟩ := yields a t at_p.standing rfl fun some => absurd none (Nat.ne_of_gt some)
      obtain rfl : q = j := at_q.standing.position.symm.trans there.position
      rw [bind_of_ok hr, bind_of_ok hr']
      have := place_le_place (F := F) le
      have := F.place_le_size q
      refine (hf a q hP (F.right.input.tokens.size - F.place q) (by omega) (fun lt => ?_) t at_q
        (by omega)).later le
      have := place_lt_place at_p.kept at_q.standing.inside lt
      omega
    · exact .flawed (flawed_bind (hr ▸ some)) (flawed_bind (hr' ▸ some))
  | error =>
    rw [bind_run, bind_run, hr, hr']
    exact .error
  | flawed left right => exact .flawed (flawed_bind (hr ▸ left)) (flawed_bind (hr' ▸ right))

theorem opened (h : F.openAt p = openers → Folds F m c openers p x y openers') :
    Folds F m c openers p x y openers' := fun s at_p few => h at_p.opened s at_p few

/-- First readers that only look. -/
theorem looks {f g : α → Reader β} {a : α} (hx : Sees F c openers p x a)
    (h : Folds F m c openers p (f a) (g a) openers') :
    Folds F m c openers p (x >>= f) (x >>= g) openers' := by
  intro s at_p few
  rw [bind_of_ok (hx s at_p).1, bind_of_ok (hx s at_p).2]
  exact h s at_p few

theorem read {f g : Input → Reader β}
    (h : Folds F m c openers p (f F.left.input) (g F.right.input) openers') :
    Folds F m c openers p ((MonadReader.read : Reader Input) >>= f)
      ((MonadReader.read : Reader Input) >>= g)
      openers' := by
  intro s at_p few
  rw [bind_of_ok (read_run ..), bind_of_ok (read_run ..)]
  exact h s at_p few

theorem ite {P : Prop} [Decidable P] {x₂ y₂ : Reader α}
    (hx : P → Folds F m c openers p x y openers') (hy : ¬ P → Folds F m c openers p x₂ y₂ openers') :
    Folds F m c openers p (if P then x else x₂) (if P then y else y₂) openers' := by
  split
  · next h => exact hx h
  · next h => exact hy h

theorem map {f : α → β} (hx : Folds F m c openers p x y openers') :
    Folds F m c openers p (f <$> x) (f <$> y) openers' := by
  intro s at_p few
  have first := hx s at_p few
  rw [map_run, map_run]
  generalize x F.left.input s = r at first
  generalize y F.right.input (F.other s) = r' at first
  cases first with
  | ok le at_q => exact .ok le at_q
  | error => exact .error
  | flawed left right => cases r <;> cases r' <;> exact .flawed left right

theorem within {derive : Context → Context} (h : Folds F m (derive c) openers p x y openers') :
    Folds F m c openers p (Grammar.within derive x) (Grammar.within derive y) openers' := by
  intro s at_p few
  have stands := at_p.standing
  have inside : F.At (derive c) openers p (s.inContext (derive s.context)) :=
    ⟨⟨congrArg derive stands.context, stands.skips, stands.position, stands.previous, stands.inside⟩,
      at_p.opened, at_p.kept⟩
  have first := h _ inside few
  rw [within_run, within_run]
  generalize hr : x F.left.input _ = r at first
  have other : (F.other s).inContext (derive (F.other s).context)
      = F.other (s.inContext (derive s.context)) := rfl
  rw [other]
  generalize y F.right.input _ = r' at first
  cases first with
  | ok le at_q =>
    have there := at_q.standing
    exact .ok le ⟨⟨stands.context, there.skips, there.position, there.previous, there.inside⟩,
      at_q.opened, at_q.kept⟩
  | error => exact .error
  | flawed left right => cases r <;> cases r' <;> exact .flawed left right

theorem inConstruct {form : Construct} (h : Folds F m c openers p x y openers') :
    Folds F m c openers p (Grammar.inConstruct form x) (Grammar.inConstruct form y) openers' := by
  intro s at_p few
  have first := h s at_p few
  rw [inConstruct_run, inConstruct_run]
  generalize x F.left.input s = r at first
  generalize y F.right.input (F.other s) = r' at first
  cases first with
  | ok le at_q => exact .ok le at_q
  | error => exact .error
  | flawed left right => cases r <;> cases r' <;> exact .flawed left right

/-! ## Failing and building -/

theorem throw {e e' : SyntaxError} : Folds F m c openers p (throw e : Reader α) (throw e') openers' :=
  fun _ _ _ => .error

theorem failWith {problem problem' : Tag → Problem} :
    Folds F m c openers p (Grammar.failWith problem : Reader α) (Grammar.failWith problem') openers' :=
  fun _ _ _ => .error

theorem unexpected {ts : TagSet} :
    Folds F m c openers p (Grammar.unexpected ts : Reader α) (Grammar.unexpected ts) openers' := failWith

theorem absent {w : Wanted} :
    Folds F m c openers p (Grammar.absent w : Reader α) (Grammar.absent w) openers' := failWith

/-- Nothing comes after what fails. -/
theorem throw_bind {e e' : SyntaxError} {f g : α → Reader β} :
    Folds F m c openers p ((MonadExcept.throw e : Reader α) >>= f)
      ((MonadExcept.throw e' : Reader α) >>= g) openers' :=
  fun _ _ _ => .error

theorem failWith_bind {problem problem' : Tag → Problem} {f g : α → Reader β} :
    Folds F m c openers p (Grammar.failWith problem >>= f) (Grammar.failWith problem' >>= g) openers' :=
  fun _ _ _ => .error

theorem newExpr {span : Span} {form : Mark → Expr} :
    Folds F m c openers p (Grammar.newExpr span form) (Grammar.newExpr span form) openers :=
  fun _ h _ => .ok (Nat.le_refl p) (h.built rfl rfl)

theorem newPattern {span : Span} {form : Mark → Pattern} :
    Folds F m c openers p (Grammar.newPattern span form) (Grammar.newPattern span form) openers :=
  fun _ h _ => .ok (Nat.le_refl p) (h.built rfl rfl)

theorem newStmt {span : Span} {form : Mark → Stmt} :
    Folds F m c openers p (Grammar.newStmt span form) (Grammar.newStmt span form) openers :=
  fun _ h _ => .ok (Nat.le_refl p) (h.built rfl rfl)

/-! ## Taking tokens -/

theorem take {f g : Token → Reader β} (plain : (F.left.tag p).IsPlain)
    (hf : ∀ k < m, ∀ q, Folds F k c openers q (f (F.left.input.tokens.get p))
      (g (F.left.input.tokens.get p)) openers') :
    Folds F m c openers p (Grammar.take >>= f) (Grammar.take >>= g) openers' := by
  intro s at_p few
  obtain ⟨behind, other⟩ := at_p.taken plain
  obtain ⟨k, hk, fewer⟩ := at_p.fewer behind few
  rw [bind_of_ok (take_run ..), bind_of_ok (take_run ..), at_p.standing.position, at_p.get, other]
  exact (hf k hk _ _ behind fewer).later (Nat.le_of_lt (F.left.lt_next _ p))

theorem accept {t : Tag} (plain : t.IsPlain) {f g : Bool → Reader β}
    (taken : F.left.tag p = t → ∀ k < m, ∀ q, Folds F k c openers q (f true) (g true) openers')
    (left : F.left.tag p ≠ t → Folds F m c openers p (f false) (g false) openers') :
    Folds F m c openers p (Grammar.accept t >>= f) (Grammar.accept t >>= g) openers' := by
  intro s at_p few
  by_cases h : F.left.tag p = t
  · obtain ⟨behind, other⟩ := at_p.taken (h ▸ plain)
    obtain ⟨k, hk, fewer⟩ := at_p.fewer behind few
    rw [bind_of_ok (accept_of_tag (by rw [at_p.standing.tag_eq]; exact h)),
      bind_of_ok (accept_of_tag (by rw [at_p.other_tag]; exact h)), other]
    exact (taken h k hk _ _ behind fewer).later (Nat.le_of_lt (F.left.lt_next _ p))
  · rw [bind_of_ok (accept_of_ne (by rw [at_p.standing.tag_eq]; exact h)),
      bind_of_ok (accept_of_ne (by rw [at_p.other_tag]; exact h))]
    exact left h s at_p few

theorem expect {t : Tag} (plain : t.IsPlain) {f g : Span → Reader β}
    (taken : F.left.tag p = t → ∀ k < m, ∀ q,
      Folds F k c openers q (f (F.left.span p)) (g (F.left.span p)) openers') :
    Folds F m c openers p (Grammar.expect t >>= f) (Grammar.expect t >>= g) openers' := by
  intro s at_p few
  by_cases h : F.left.tag p = t
  · obtain ⟨behind, other⟩ := at_p.taken (h ▸ plain)
    obtain ⟨k, hk, fewer⟩ := at_p.fewer behind few
    rw [bind_of_ok (expect_of_tag (by rw [at_p.standing.tag_eq]; exact h)),
      bind_of_ok (expect_of_tag (by rw [at_p.other_tag]; exact h)), other, at_p.standing.position,
      at_p.get]
    exact (taken h k hk _ _ behind fewer).later (Nat.le_of_lt (F.left.lt_next _ p))
  · have fails {i : Input} {s : State} (ne : s.cursor.tag i.tokens ≠ t) :
        Grammar.expect t i s = (Grammar.unexpected {t} : Reader Span) i s := by
      rw [Grammar.expect, bind_of_ok (takeIf_of_ne ne)]
    rw [bind_run, bind_run, fails (by rw [at_p.standing.tag_eq]; exact h),
      fails (by rw [at_p.other_tag]; exact h)]
    exact .error

theorem skipBreaks {f g : Unit → Reader β}
    (h : Folds F m c openers (F.left.past p) (f ()) (g ()) openers') :
    Folds F m c openers p (Grammar.skipBreaks >>= f) (Grammar.skipBreaks >>= g) openers' := by
  intro s at_p few
  have le := F.left.le_past p
  have := place_le_place (F := F) le
  rw [bind_of_ok (skipBreaks_run ..), bind_of_ok (skipBreaks_run ..), At.other_skipBreaks]
  exact (h _ at_p.skipBreaks (by omega)).later le

/-! ## Brackets -/

theorem openGroup {f g : Opened → Reader β}
    (h : F.left.tag p = .punct .openParen ∨ F.left.tag p = .punct .openBracket)
    (hf : ∀ k < m, ∀ q, q = F.left.past (p + 1) → Folds F k c (F.left.tag p :: openers) q
      (f ⟨if F.left.tag p = .punct .openBracket then .closeBracket else .closeParen, F.left.span p,
        folds openers⟩)
      (g ⟨if F.left.tag p = .punct .openBracket then .closeBracket else .closeParen, F.left.span p,
        folds openers⟩)
      openers') :
    Folds F m c openers p (Grammar.openGroup >>= f) (Grammar.openGroup >>= g) openers' := by
  intro s at_p few
  have opener : (F.left.tag p).isOpener = true := by rcases h with h | h <;> rw [h] <;> rfl
  have ne : F.left.tag p ≠ .eof := by rcases h with h | h <;> rw [h] <;> exact Tag.noConfusion
  have entered : enter openers (F.left.tag p) = F.left.tag p :: openers := enter_opener opener
  have mode : folds (enter openers (F.left.tag p)) = true := by
    rw [entered]
    rcases h with h | h <;> rw [h] <;> rfl
  have behind := at_p.step ne mode
  rw [entered] at behind
  obtain ⟨k, hk, fewer⟩ := at_p.fewer behind few
  have skips : (F.other s).cursor.skipsBreaks = s.cursor.skipsBreaks := rfl
  rw [bind_of_ok (openGroup_run ..), bind_of_ok (openGroup_run ..), at_p.standing.tag_eq, at_p.other_tag,
    skips, at_p.standing.skips, at_p.standing.position, at_p.get, at_p.other_step ne true]
  exact (hf k hk _ rfl _ behind fewer).later (Nat.le_of_lt (F.left.lt_next true p))

theorem openBrace {f g : Opened → Reader β} (h : F.left.tag p = .punct .openBrace)
    (hf : ∀ k < m, ∀ q, q = p + 1 → Folds F k c (.punct .openBrace :: openers) q
      (f ⟨.closeBrace, F.left.span p, folds openers⟩) (g ⟨.closeBrace, F.left.span p, folds openers⟩)
      openers') :
    Folds F m c openers p (Grammar.openBrace >>= f) (Grammar.openBrace >>= g) openers' := by
  intro s at_p few
  have ne : F.left.tag p ≠ .eof := by rw [h]; exact Tag.noConfusion
  have entered : enter openers (F.left.tag p) = .punct .openBrace :: openers := by rw [h]; rfl
  have mode : folds (enter openers (F.left.tag p)) = false := by rw [entered]; rfl
  have behind := at_p.step ne mode
  rw [entered] at behind
  obtain ⟨k, hk, fewer⟩ := at_p.fewer behind few
  have skips : (F.other s).cursor.skipsBreaks = s.cursor.skipsBreaks := rfl
  rw [bind_of_ok (openBrace_run ..), bind_of_ok (openBrace_run ..), skips, at_p.standing.skips,
    at_p.standing.position, at_p.get, at_p.other_step ne false]
  exact (hf k hk _ rfl _ behind fewer).later (Nat.le_of_lt (F.left.lt_next false p))

/-- The closer where it must stand. -/
theorem closer {close : Punct} {opener : Tag} {q : Nat} {s : State}
    (hc : close.isCloser = true) (span : Span) (at_q : F.At c (opener :: openers) q s) (le : p ≤ q) :
    Outcome F c openers p ((do
        match ← takeIf (.punct close) with
        | some stop => return span.merge stop
        | none => Grammar.failWith fun found => .unclosed close found span : Reader Span)
        F.left.input (s.moved (skipping (folds openers) s.cursor)))
      ((do
        match ← takeIf (.punct close) with
        | some stop => return span.merge stop
        | none => Grammar.failWith fun found => .unclosed close found span : Reader Span)
        F.right.input ((F.other s).moved (skipping (folds openers) (F.other s).cursor))) := by
  by_cases h : F.left.tag q = .punct close
  · have ne : F.left.tag q ≠ .eof := by rw [h]; exact Tag.noConfusion
    have closed : enter (opener :: openers) (F.left.tag q) = openers := by
      rw [h]
      exact enter_closer hc
    have behind := at_q.step ne (b := folds openers) (by rw [closed])
    rw [closed] at behind
    have left : (s.moved (skipping (folds openers) s.cursor)).cursor.tag F.left.input.tokens
        = .punct close := at_q.standing.tag_eq.trans h
    have right : ((F.other s).moved (skipping (folds openers) (F.other s).cursor)).cursor.tag
        F.right.input.tokens = .punct close := at_q.other_tag.trans h
    rw [bind_of_ok (takeIf_of_tag left), bind_of_ok (takeIf_of_tag right)]
    have same : F.right.input.tokens.get (skipping (folds openers) (F.other s).cursor).position
        = F.left.input.tokens.get (skipping (folds openers) s.cursor).position := by
      have here : (skipping (folds openers) s.cursor).position = q := at_q.standing.position
      rw [here]
      exact at_q.get
    simp only [State.moved_cursor]
    rw [same]
    have other := at_q.other_step ne (folds openers)
    have le' : p ≤ F.left.next (folds openers) q :=
      Nat.le_trans le (Nat.le_of_lt (F.left.lt_next _ q))
    have result := Outcome.ok (a := span.merge
      (F.left.input.tokens.get (skipping (folds openers) s.cursor).position).span) le' behind
    rw [← other] at result
    exact result
  · have left : (s.moved (skipping (folds openers) s.cursor)).cursor.tag F.left.input.tokens
        ≠ .punct close := fun e => h (at_q.standing.tag_eq.symm.trans e)
    have right : ((F.other s).moved (skipping (folds openers) (F.other s).cursor)).cursor.tag
        F.right.input.tokens ≠ .punct close := fun e => h (at_q.other_tag.symm.trans e)
    rw [bind_of_ok (takeIf_of_ne left), bind_of_ok (takeIf_of_ne right)]
    exact .error

/-- The closer restores the mode of the brackets around the group. -/
theorem closeGroup {close : Punct} {span : Span} {opener : Tag} (hc : close.isCloser = true) :
    Folds F m c (opener :: openers) p (Grammar.closeGroup ⟨close, span, folds openers⟩)
      (Grammar.closeGroup ⟨close, span, folds openers⟩) openers := by
  intro s at_p _
  rw [closeGroup_eq, closeGroup_eq]
  unfold Opened.closing
  by_cases brace : close = .closeBrace
  · simp only [brace, if_true]
    have skipped := closer hc span at_p.skipBreaks (F.left.le_past p)
    rw [← At.other_skipBreaks, brace] at skipped
    exact skipped
  · simp only [brace, if_false]
    exact closer hc span at_p (Nat.le_refl p)

/-! ## Recovery -/

/-- What cannot be read is given up on both sides. -/
theorem recovered {start start' : Span} {skips skips' : Bool} {boundary : TagSet} {k k' : Span → Reader α}
    [∀ span, Steady (k span)] [∀ span, Steady (k' span)] (hx : Folds F m c openers p x y openers') :
    Folds F m c openers p (orElse x fun e => do k (← recover e start skips boundary))
      (orElse y fun e => do k' (← recover e start' skips' boundary)) openers' := by
  intro s at_p few
  have first := hx s at_p few
  rw [orElse_run, orElse_run]
  generalize x F.left.input s = r at first
  generalize y F.right.input (F.other s) = r' at first
  cases first with
  | ok le at_q => exact .ok le at_q
  | error => exact .flawed (flawed_recover _ _) (flawed_recover _ _)
  | flawed left right =>
    refine .flawed ?_ ?_
    · cases r with
      | ok a t => exact left
      | error e t => exact flawed_recover _ _
    · cases r' with
      | ok a t => exact right
      | error e t => exact flawed_recover _ _

/-! ## Sequences -/

/-- Rounds that do the same on both streams at positions with a property, to the next of which each but
the last takes a token. -/
theorem repeatUpTo {I : Nat → Prop} {round round' : β → Reader (ForInStep β)} [∀ b, Steady (round b)]
    [∀ b, Steady (round' b)] (h : ∀ b q, I q → Folds F m c openers q (round b) (round' b) openers)
    (moves : ∀ b q s b' t, I q → F.At c openers q s → round b F.left.input s = .ok (.yield b') t →
      t.errors.size = 0 → q < t.cursor.position ∧ I t.cursor.position)
    (n n' : Nat) (b : β) (p : Nat) (start : I p) (hn : F.left.input.tokens.size < n + p)
    (hn' : F.right.input.tokens.size < n' + F.place p) :
    Folds F m c openers p (Grammar.repeatUpTo round n b) (Grammar.repeatUpTo round' n' b) openers := by
  induction n generalizing n' b p with
  | zero =>
    intro s at_p _
    have := at_p.standing.inside
    omega
  | succ n ih =>
    have := F.place_le_size p
    cases n' with
    | zero => omega
    | succ n' =>
      intro s at_p few
      have first := h b p start s at_p few
      have moved := moves b p s
      rw [Grammar.repeatUpTo, Grammar.repeatUpTo]
      generalize hr : round b F.left.input s = r at first moved
      generalize hr' : round' b F.right.input (F.other s) = r' at first
      cases first with
      | @ok a q t le at_q =>
        rw [bind_of_ok hr, bind_of_ok hr']
        cases a with
        | done b => exact .ok le at_q
        | yield b =>
          rcases Nat.eq_zero_or_pos t.errors.size with none | some
          · obtain ⟨lt, next⟩ := moved b t start at_p rfl none
            rw [at_q.standing.position] at lt next
            have := place_lt_place at_p.kept at_q.standing.inside lt
            exact (ih n' b q next (by omega) (by omega) t at_q (by omega)).later le
          · have reported {i : Input} {u : State} {n : Nat} {round : β → Reader (ForInStep β)}
                [∀ b, Steady (round b)] (some : 0 < u.errors.size) :
                0 < (after (Grammar.repeatUpTo round n b i u)).errors.size := by
              have steps : Steady (Grammar.repeatUpTo round n b) := repeatUpTo_keeps n b
              exact Nat.lt_of_lt_of_le some (steps.keeps i u).errors
            exact .flawed (reported some) (reported some)
      | error =>
        rw [bind_run, bind_run, hr, hr']
        exact .error
      | flawed left right =>
        have := Steady.round round n
        have := Steady.round round' n'
        exact .flawed (flawed_bind (hr ▸ left)) (flawed_bind (hr' ▸ right))

theorem repeated_from {I : Nat → Prop} {round round' : β → Reader (ForInStep β)}
    [∀ b, Steady (round b)] [∀ b, Steady (round' b)] {b : β}
    (h : ∀ b q, I q → Folds F m c openers q (round b) (round' b) openers)
    (moves : ∀ b q s b' t, I q → F.At c openers q s → round b F.left.input s = .ok (.yield b') t →
      t.errors.size = 0 → q < t.cursor.position ∧ I t.cursor.position) (start : I p) :
    Folds F m c openers p (Grammar.repeated b round) (Grammar.repeated b round') openers := by
  intro s at_p few
  have := F.place_le_size p
  have := at_p.standing.inside
  have := at_p.standing.position
  have := at_p.other_position
  exact repeatUpTo h moves (F.left.input.tokens.size - s.cursor.position + 1)
    (F.right.input.tokens.size - (F.other s).cursor.position + 1) b p start (by omega) (by omega) s at_p
    few

theorem repeated {round round' : β → Reader (ForInStep β)} [∀ b, Steady (round b)]
    [∀ b, Steady (round' b)] {b : β} (h : ∀ b q, Folds F m c openers q (round b) (round' b) openers)
    (moves : ∀ b q s b' t, F.At c openers q s →
      round b F.left.input s = .ok (.yield b') t → t.errors.size = 0 → q < t.cursor.position) :
    Folds F m c openers p (Grammar.repeated b round) (Grammar.repeated b round') openers :=
  repeated_from (I := fun _ => True) (fun b q _ => h b q)
    (fun b q s b' t _ at_q run none => ⟨moves b q s b' t at_q run none, trivial⟩) trivial

/-- Items that start at positions with a property. -/
theorem collect_from {I : Nat → Prop} {more : Reader Bool} [Steady more] {test : Nat → Bool}
    {item item' : Reader (α × Bool)} [Steady item] [Steady item']
    (hmore : ∀ q, Sees F c openers q more (test q))
    (hitem : ∀ q, I q → test q = true → Folds F m c openers q item item' openers)
    (moves : ∀ q, I q → test q = true → Reaches F.left c (folds openers) q item fun r j =>
      q < j ∧ (r.2 = true → I j)) (start : I p) :
    Folds F m c openers p (Grammar.collect more item) (Grammar.collect more item') openers := by
  rw [collect_eq, collect_eq]
  refine map (repeated_from (I := I) (fun as q hq => ?_) (fun as q s as' t hq at_q run none => ?_) start)
  · exact looks (hmore q) (ite (fun ht => bind (hitem q hq ht) fun _ _ => pure) fun _ => pure)
  · unfold collectRound at run
    rw [bind_of_ok (hmore q s at_q).1] at run
    cases ht : test q with
    | false =>
      rw [ht] at run
      cases run
    | true =>
      rw [ht] at run
      obtain ⟨⟨a, goOn⟩, u, first, rest⟩ := bind_ok.1 run
      obtain rfl : u = t := congrArg after rest
      obtain ⟨lt, next⟩ := moves q hq ht s _ u at_q.standing first none
      cases goOn with
      | false => cases rest
      | true => exact ⟨lt, next rfl⟩

theorem collect {more : Reader Bool} [Steady more] {test : Nat → Bool}
    {item item' : Reader (α × Bool)} [Steady item] [Steady item']
    (hmore : ∀ q, Sees F c openers q more (test q))
    (hitem : ∀ q, test q = true → Folds F m c openers q item item' openers)
    (moves : ∀ q, test q = true → MovesAt F.left c (folds openers) q item) :
    Folds F m c openers p (Grammar.collect more item) (Grammar.collect more item') openers :=
  collect_from (I := fun _ => True) hmore (fun q _ ht => hitem q ht)
    (fun q _ ht s r t hs run none => ⟨moves q ht s r t hs run none, fun _ => trivial⟩) trivial

theorem collectWhile {more : Reader Bool} [Steady more] {test : Nat → Bool}
    {item item' : Reader α} [Steady item] [Steady item']
    (hmore : ∀ q, Sees F c openers q more (test q))
    (hitem : ∀ q, test q = true → Folds F m c openers q item item' openers)
    (moves : ∀ q, test q = true → MovesAt F.left c (folds openers) q item) :
    Folds F m c openers p (Grammar.collectWhile more item) (Grammar.collectWhile more item') openers :=
  collect hmore (fun q ht => bind (hitem q ht) fun _ _ => pure) fun q ht => (moves q ht).bind

theorem commaRow {t : Tag} {item item' : Reader α} (hitem : Folds F m c openers p item item' openers) :
    Folds F m c openers p (Grammar.commaRow t item) (Grammar.commaRow t item') openers := by
  refine bind hitem fun a k => ?_
  have row (comma : Bool) (k m : Nat) : Folds F m c openers k (do
      if !comma && (← isNotNext t) then Grammar.unexpected {.punct .comma, t}
      return (a, comma) : Reader (α × Bool)) (do
      if !comma && (← isNotNext t) then Grammar.unexpected {.punct .comma, t}
      return (a, comma)) openers := by
    refine looks .isNotNext (ite (fun _ => ?_) fun _ => pure)
    exact failWith_bind
  exact accept (by decide) (fun _ k' _ q => row true q k') fun _ => row false k m

/-- Items between commas that start at positions with a property. -/
theorem commaList_from {I : Nat → Prop} {t : Tag} {item item' : Reader α} [Steady item]
    [Steady item'] (hitem : ∀ q, I q → Folds F m c openers q item item' openers)
    (moves : ∀ q, I q → Yields F.left item c (folds openers) q (folds openers) fun _ j =>
      q < j ∧ (F.left.tag j = .punct .comma → I (F.left.next (folds openers) j))) (start : I p) :
    Folds F m c openers p (Grammar.commaList t item) (Grammar.commaList t item') openers := by
  have here {q : Nat} (h : (!decide (F.left.tag q = t)) = true) : F.left.tag q ≠ t := by simpa using h
  rw [commaList_eq, commaList_eq]
  refine bind (collect_from (I := fun q => F.left.tag q ≠ t → I q) (fun _ => .isNotNext)
    (fun q hq ht => bind (commaRow (hitem q (hq (here ht)))) fun _ _ => pure) (fun q hq ht => ?_)
    fun _ => start) fun _ _ => pure
  refine .of_yields (P := fun _ j => q < j ∧ (F.left.tag j ≠ t → I j))
    (.bind (Yields.commaRow (moves q (hq (here ht)))) fun r j h => .pure ?_) fun _ _ h => ⟨h.1, fun _ => h.2⟩
  obtain ⟨k, ⟨lt, next⟩, ends⟩ := h
  split at ends
  · obtain ⟨comma, rfl⟩ := ends
    exact ⟨Nat.lt_trans lt (F.left.lt_next _ k), fun _ => next comma⟩
  · obtain ⟨-, tag, rfl⟩ := ends
    exact ⟨lt, fun ne => absurd tag ne⟩

theorem commaList {t : Tag} {item item' : Reader α} [Steady item] [Steady item']
    (hitem : ∀ q, Folds F m c openers q item item' openers)
    (moves : ∀ q, Yields F.left item c (folds openers) q (folds openers) fun _ j => q < j) :
    Folds F m c openers p (Grammar.commaList t item) (Grammar.commaList t item') openers :=
  commaList_from (I := fun _ => True) (fun q _ => hitem q)
    (fun q _ => (moves q).mono fun _ _ lt => ⟨lt, fun _ => trivial⟩) trivial

theorem nestedList {t : Tag} {item item' : Reader α} [Steady item] [Steady item']
    (hitem : ∀ q, Folds F m c.nested openers q item item' openers)
    (moves : ∀ q, Yields F.left item c.nested (folds openers) q (folds openers) fun _ j => q < j) :
    Folds F m c openers p (Grammar.nestedList t item) (Grammar.nestedList t item') openers :=
  within (commaList hitem moves)

/-- More tokens than there are make no difference. -/
theorem of_size (h : Folds F F.right.input.tokens.size c openers p x y openers') :
    Folds F m c openers p x y openers' :=
  fun s at_p _ => h s at_p (Nat.le_add_right _ _)

end Folds

end Surface.Grammar
