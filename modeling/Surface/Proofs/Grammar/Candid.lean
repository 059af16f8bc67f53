import Surface.Proofs.Grammar.Brackets
import Surface.Proofs.Grammar.Yields
import Surface.Proofs.Reader.Quiet

/-!
# Errors with a reason

An error says what was found at a place and what would have been accepted there. It is founded when the
stream bears this out: the token stands there, it is none of those that were expected, and a group that
is said to be open was opened before. A reader is candid when it neither reports nor fails with anything
else. Like the judgment about what readers yield, this one is closed under the ways readers are put
together; where a reader goes on is what that judgment says.

Results:
* `Setting.Founded`: the errors a stream bears out.
* `Candid`: the judgment; `Candid.bind`, `Candid.ran`, `Candid.expect`, `Candid.closeGroup`, ...
* `Candid.collect`, `Candid.collectWhile`, `Candid.commaList`: sequences.
-/

namespace Surface

/-! ## Members of sets of tags -/

namespace TagSet

variable {s t : Tag}

theorem index_inj : s.index = t.index ↔ s = t := by
  revert s t
  decide +kernel

theorem index_lt : ∀ t : Tag, t.index < Tag.count := by decide

theorem contains_single (s t : Tag) : ({s} : TagSet).contains t = decide (s = t) := by
  show (BitVec.twoPow Tag.count s.index).getLsbD t.index = _
  rw [BitVec.getLsbD_twoPow, decide_eq_true (index_lt s), Bool.true_and]
  exact decide_eq_decide.2 index_inj

theorem contains_pair (s s' t : Tag) :
    ({s, s'} : TagSet).contains t = (decide (s' = t) || decide (s = t)) := by
  rw [← contains_single, ← contains_single]
  exact BitVec.getLsbD_or

theorem not_single (h : t ≠ s) : ({s} : TagSet).contains t = false := by
  rw [contains_single, decide_eq_false (Ne.symm h)]

theorem not_pair {s' : Tag} (h : t ≠ s) (h' : t ≠ s') : ({s, s'} : TagSet).contains t = false := by
  rw [contains_pair, decide_eq_false (Ne.symm h), decide_eq_false (Ne.symm h')]
  rfl

end TagSet

namespace Grammar

variable {S : Setting} {α β : Type} {c : Context} {b b' b'' : Bool} {i j k o : Nat}

/-! ## Errors -/

/-- The errors that a stream bears out. A token that is no piece of unreadable text is none of those
expected, or does not close the group that was opened before it; a token is a piece of unreadable
text; a conditional is read up to a place behind it; a name stands where methods begin. -/
inductive Setting.Founded (S : Setting) : SyntaxError → Prop
  | unexpected {k : Nat} {expected : TagSet} {form : Option Construct} : S.tag k ≠ .error →
      expected.contains (S.tag k) = false →
      S.Founded ⟨.unexpected (S.tag k) expected, S.span k, form⟩
  | absent {k : Nat} {what : Wanted} {form : Option Construct} : S.tag k ≠ .error →
      what.tags.contains (S.tag k) = false → S.Founded ⟨.absent what (S.tag k), S.span k, form⟩
  | unclosed {o k : Nat} {close : Punct} {form : Option Construct} : S.tag k ≠ .error → o < k →
      Groups.closing? (S.tag o) = some close → S.tag k ≠ .punct close →
      S.Founded ⟨.unclosed close (S.tag k) (S.span o), S.span k, form⟩
  | lexical {k : Nat} {error : LexicalError} {form : Option Construct} : S.kind k = .error error →
      S.Founded ⟨.lexical error, S.span k, form⟩
  | missingElse {k l : Nat} {form : Option Construct} : k < l → S.tag k = .keyword .ifKw →
      S.Founded ⟨.missingElse, (S.span k).merge (S.last l), form⟩
  | missingMethodSeparator {k : Nat} {form : Option Construct} : nameTags.contains (S.tag k) = true →
      S.Founded ⟨.missingMethodSeparator, S.span k, form⟩

theorem Setting.Founded.within {e : SyntaxError} (h : S.Founded e) (form : Construct) :
    S.Founded (e.within form) := by
  cases h with
  | unexpected readable out => exact .unexpected readable out
  | absent readable out => exact .absent readable out
  | unclosed readable before opens differs => exact .unclosed readable before opens differs
  | lexical unreadable => exact .lexical unreadable
  | missingElse before starts => exact .missingElse before starts
  | missingMethodSeparator name => exact .missingMethodSeparator name

/-- An error at a token is about the token, or about the text that is no token. -/
theorem Setting.Founded.atToken {problem : Tag → Problem}
    (h : S.tag k ≠ .error → S.Founded ⟨problem (S.tag k), S.span k, none⟩) :
    S.Founded (.atToken (S.input.tokens.get k) problem) := by
  have tag := S.tag_kind k
  unfold SyntaxError.atToken
  split
  · next unreadable => exact .lexical unreadable
  · next readable =>
    change S.Founded ⟨problem (S.kind k).tag, S.span k, none⟩
    rw [tag]
    refine h fun error => ?_
    rw [error] at tag
    cases kind : S.kind k with
    | error e => exact readable e kind
    | _ => rw [kind] at tag; cases tag

/-! ## The judgment -/

/-- No reader goes back. -/
theorem Yields.onward {r : Reader α} [Steady r] {P : α → Nat → Prop} (h : Yields S r c b i b' P) :
    Yields S r c b i b' fun a j => i ≤ j ∧ P a j := by
  intro s a s' hs run fine
  obtain ⟨j, hj, hP⟩ := h s a s' hs run fine
  have le := (Steady.ok run).position
  rw [hs.position, hj.position] at le
  exact ⟨j, hj, le, hP⟩

/-- What has been reported between two states is founded. -/
def Adds (S : Setting) (s t : State) : Prop := ∀ e ∈ t.errors, e ∈ s.errors ∨ S.Founded e

theorem Adds.of_errors {s t : State} (h : t.errors = s.errors) : Adds S s t := by
  intro e he
  rw [h] at he
  exact .inl he

theorem Adds.trans {s t u : State} (h : Adds S s t) (h' : Adds S t u) : Adds S s u := by
  intro e he
  rcases h' e he with old | founded
  · exact h e old
  · exact .inr founded

theorem Adds.push {s t u : State} {e : SyntaxError} (h : Adds S s t) (he : S.Founded e)
    (hu : u.errors = t.errors.push e) : Adds S s u := by
  intro e' he'
  rw [hu, Array.mem_push] at he'
  rcases he' with old | rfl
  · exact h e' old
  · exact .inr he

/-- In a setting that admits errors, a run from position `i`, in context `c` and mode `b`, reports only
errors that are founded, and the one it fails with, if it does, is founded as well. -/
def Candid (S : Setting) (r : Reader α) (c : Context) (b : Bool) (i : Nat) : Prop :=
  S.flawed → ∀ s, Standing S c b i s → match r S.input s with
    | .ok _ t => Adds S s t
    | .error e t => Adds S s t ∧ S.Founded e

namespace Candid

variable {r x : Reader α} {f : α → Reader β} {P : α → Nat → Prop}

theorem ok {s t : State} {a : α} (h : Candid S r c b i) (flawed : S.flawed)
    (hs : Standing S c b i s) (run : r S.input s = .ok a t) : Adds S s t := by
  have := h flawed s hs
  rwa [run] at this

/-! ## Putting readers together -/

theorem bind [Steady x] (hx : Candid S x c b i) (hy : Yields S x c b i b' P)
    (hf : ∀ a k, i ≤ k → P a k → Candid S (f a) c b' k) : Candid S (x >>= f) c b i := by
  intro flawed s hs
  have first := hx flawed s hs
  rw [bind_run]
  cases run : x S.input s with
  | error e t =>
    rw [run] at first
    exact first
  | ok a t =>
    rw [run] at first
    obtain ⟨k, stands, le, hP⟩ := hy.onward s a t hs run fun _ => flawed
    have rest := hf a k le hP flawed t stands
    dsimp only
    cases run' : f a S.input t with
    | ok r u =>
      rw [run'] at rest
      exact first.trans rest
    | error e u =>
      rw [run'] at rest
      exact ⟨first.trans rest.1, rest.2⟩

/-- A first reader that is known to run. -/
theorem ran [Quiet x] {a : α} (hx : Runs S x c b i a b' j) (hf : Candid S (f a) c b' j) :
    Candid S (x >>= f) c b i := by
  intro flawed s hs
  obtain ⟨t, run, stands⟩ := hx s hs
  have same : t.errors = s.errors := by
    have := Quiet.errors (r := x) S.input s
    rwa [run] at this
  have rest := hf flawed t stands
  rw [bind_of_ok run]
  cases run' : f a S.input t with
  | ok r u =>
    rw [run'] at rest
    exact (Adds.of_errors same).trans rest
  | error e u =>
    rw [run'] at rest
    exact ⟨(Adds.of_errors same).trans rest.1, rest.2⟩

/-- A reader that neither fails nor reports anything. -/
theorem succeeds (h : ∀ s, ∃ a t, r S.input s = .ok a t ∧ t.errors = s.errors) :
    Candid S r c b i := by
  intro _ s _
  obtain ⟨a, t, run, same⟩ := h s
  rw [run]
  exact .of_errors same

/-- What follows neither fails nor reports anything. -/
theorem followed (hx : Candid S x c b i)
    (hf : ∀ a s, ∃ r t, f a S.input s = .ok r t ∧ t.errors = s.errors) :
    Candid S (x >>= f) c b i := by
  intro flawed s hs
  have first := hx flawed s hs
  rw [bind_run]
  cases run : x S.input s with
  | error e t =>
    rw [run] at first
    exact first
  | ok a t =>
    rw [run] at first
    obtain ⟨r, u, run', same⟩ := hf a t
    dsimp only
    rw [run']
    exact first.trans (.of_errors same)

theorem pure {a : α} : Candid S (Pure.pure a : Reader α) c b i :=
  succeeds fun s => ⟨a, s, rfl, rfl⟩

theorem newExpr {span : Span} {form : Mark → Expr} : Candid S (Grammar.newExpr span form) c b i :=
  succeeds fun _ => ⟨_, _, rfl, rfl⟩

theorem map {f : α → β} (hx : Candid S x c b i) : Candid S (f <$> x) c b i := by
  intro flawed s hs
  have := hx flawed s hs
  rw [map_run]
  cases run : x S.input s <;> rw [run] at this <;> exact this

theorem ite {p : Prop} [Decidable p] {x y : Reader α} (hx : p → Candid S x c b i)
    (hy : ¬ p → Candid S y c b i) : Candid S (if p then x else y) c b i := by
  by_cases h : p
  · rw [if_pos h]
    exact hx h
  · rw [if_neg h]
    exact hy h

theorem within {derive : Context → Context} (h : Candid S r (derive c) b i) :
    Candid S (Grammar.within derive r) c b i := by
  intro flawed s hs
  have inside : Standing S (derive c) b i (s.inContext (derive s.context)) :=
    ⟨congrArg derive hs.context, hs.skips, hs.position, hs.previous, hs.inside⟩
  have := h flawed _ inside
  rw [within_run]
  cases run : r S.input (s.inContext (derive s.context)) <;> rw [run] at this <;> exact this

theorem inConstruct {form : Construct} (h : Candid S r c b i) :
    Candid S (Grammar.inConstruct form r) c b i := by
  intro flawed s hs
  have := h flawed s hs
  rw [inConstruct_run]
  cases run : r S.input s with
  | ok a t =>
    rw [run] at this
    exact this
  | error e t =>
    rw [run] at this
    exact ⟨this.1, this.2.within form⟩

/-! ## Failure -/

theorem fails {e : SyntaxError} (h : S.Founded e) : Candid S (throw e : Reader α) c b i :=
  fun _ _ _ => ⟨.of_errors rfl, h⟩

theorem failWith {problem : Tag → Problem}
    (h : S.tag i ≠ .error → S.Founded ⟨problem (S.tag i), S.span i, none⟩) :
    Candid S (Grammar.failWith problem : Reader α) c b i := by
  intro _ s hs
  rw [failWith_run, hs.position]
  exact ⟨.of_errors rfl, .atToken h⟩

theorem unexpected {expected : TagSet} (h : expected.contains (S.tag i) = false) :
    Candid S (Grammar.unexpected expected : Reader α) c b i :=
  failWith fun readable => .unexpected readable h

theorem absent {what : Wanted} (h : what.tags.contains (S.tag i) = false) :
    Candid S (Grammar.absent what : Reader α) c b i :=
  failWith fun readable => .absent readable h

/-- What follows a failure is not read. -/
theorem stopped (hx : Candid S x c b i) (h : ∀ s, ∃ e t, x S.input s = .error e t) :
    Candid S (x >>= f) c b i := by
  intro flawed s hs
  obtain ⟨e, t, run⟩ := h s
  have := hx flawed s hs
  rw [run] at this
  rw [bind_run, run]
  exact this

/-- What is read in place of something that fails reports the failure and nothing else. -/
theorem orElse {replace : SyntaxError → Reader α} (h : Candid S r c b i)
    (hreplace : ∀ e s, ∃ a t, replace e S.input s = .ok a t ∧ t.errors = s.errors.push e) :
    Candid S (Grammar.orElse r replace) c b i := by
  intro flawed s hs
  have := h flawed s hs
  rw [orElse_run]
  cases run : r S.input s with
  | ok a t =>
    rw [run] at this
    exact this
  | error e t =>
    rw [run] at this
    obtain ⟨a, u, run', pushed⟩ := hreplace e t
    dsimp only
    rw [run']
    exact this.1.push this.2 pushed

/-! ## Tokens -/

/-- A token is taken, or another one comes next. -/
theorem accept {t : Tag} {f : Bool → Reader β} (ht : t ≠ .eof)
    (hyes : S.tag i = t → Candid S (f true) c b (S.next b i))
    (hno : S.tag i ≠ t → Candid S (f false) c b i) : Candid S (Grammar.accept t >>= f) c b i := by
  by_cases h : S.tag i = t
  · exact ran (Runs.acceptNext h ht) (hyes h)
  · exact ran (Runs.acceptNone h) (hno h)

theorem expect {t : Tag} : Candid S (Grammar.expect t) c b i := by
  intro flawed s hs
  by_cases h : S.tag i = t
  · rw [expect_of_tag (by rwa [hs.tag_eq])]
    exact .of_errors rfl
  · rw [Grammar.expect, bind_of_ok (takeIf_of_ne (by rwa [hs.tag_eq]))]
    have fails : Candid S (Grammar.unexpected {t} : Reader Span) c b i := unexpected (TagSet.not_single h)
    exact fails flawed s hs

/-- A group is closed that was opened before. -/
theorem closeGroup {close : Punct} {skips : Bool} (ho : o < i)
    (opens : Groups.closing? (S.tag o) = some close) :
    Candid S (Grammar.closeGroup ⟨close, S.span o, skips⟩) c b i := by
  intro flawed s hs
  -- the closer is looked for behind line breaks where it is a brace
  obtain ⟨k, le, stands⟩ : ∃ k, i ≤ k ∧ Standing S c skips k
      (s.moved (Opened.closing ⟨close, S.span o, skips⟩ S.input.tokens s.cursor)) := by
    unfold Opened.closing
    split
    · exact ⟨S.past i, S.le_past i, hs.skipBreaks.skipping skips⟩
    · exact ⟨i, Nat.le_refl i, hs.skipping skips⟩
  rw [closeGroup_eq]
  by_cases h : S.tag k = .punct close
  · rw [bind_of_ok (takeIf_of_tag (by rwa [stands.tag_eq]))]
    exact .of_errors rfl
  · rw [bind_of_ok (takeIf_of_ne (by rwa [stands.tag_eq]))]
    have fails : Candid S (Grammar.failWith fun found => .unclosed close found (S.span o) : Reader Span)
        c skips k := failWith fun readable => .unclosed readable (Nat.lt_of_lt_of_le ho le) opens h
    exact fails flawed _ stands

/-- What lies inside a group, and what closes the group. -/
theorem enclosed [Steady x] {f : α → Span → Reader β} {close : Punct} {skips : Bool}
    (hx : Candid S x c b i) (hy : Yields S x c b i b' P) (ho : o < i)
    (opens : Groups.closing? (S.tag o) = some close)
    (hf : ∀ a span s, ∃ r t, f a span S.input s = .ok r t ∧ t.errors = s.errors) :
    Candid S (x >>= fun a => Grammar.closeGroup ⟨close, S.span o, skips⟩ >>= f a) c b i :=
  bind hx hy fun a _ le _ => followed (closeGroup (Nat.lt_of_lt_of_le ho le) opens) (hf a)

/-! ## Sequences -/

theorem repeatUpTo {round : β → Reader (ForInStep β)} {I : β → Nat → Prop}
    (steady : ∀ x, Steady (round x)) (hround : ∀ x k, I x k → Candid S (round x) c b k)
    (hyields : ∀ x k, I x k → Yields S (round x) c b k b fun
      | .done _, _ => True
      | .yield y, j => I y j)
    (n : Nat) (x : β) (i : Nat) (hx : I x i) : Candid S (Grammar.repeatUpTo round n x) c b i := by
  induction n generalizing x i with
  | zero => exact pure
  | succ n ih =>
    refine bind (hround x i hx) (hyields x i hx) fun r j _ hr => ?_
    cases r with
    | done y => exact pure
    | yield y => exact ih y j hr

theorem repeated {round : β → Reader (ForInStep β)} {I : β → Nat → Prop}
    (steady : ∀ x, Steady (round x)) (hround : ∀ x k, I x k → Candid S (round x) c b k)
    (hyields : ∀ x k, I x k → Yields S (round x) c b k b fun
      | .done _, _ => True
      | .yield y, j => I y j)
    (x : β) (i : Nat) (hx : I x i) : Candid S (Grammar.repeated x round) c b i := by
  refine ran Runs.read ?_
  intro flawed s hs
  rw [bind_of_ok (cursor_run _ s)]
  exact repeatUpTo steady hround hyields _ x i hx flawed s hs

variable {more : Reader Bool} [Quiet more] [Steady more] {test : Nat → Bool}

theorem collect {item : Reader (α × Bool)} [Steady item] {P : Nat → α × Bool → Nat → Prop}
    (hmore : ∀ k, Runs S more c b k (test k) b k)
    (hitem : ∀ k, i ≤ k → test k = true → Candid S item c b k)
    (hyields : ∀ k, test k = true → Yields S item c b k b (P k)) :
    Candid S (Grammar.collect more item) c b i := by
  rw [collect_eq]
  refine map (repeated (I := fun _ k => i ≤ k) (fun _ => inferInstance) (fun items k hk => ?_)
    (fun items k hk => ?_) _ i (Nat.le_refl i))
  · refine ran (hmore k) (ite (fun next => ?_) fun _ => pure)
    exact followed (hitem k hk next) fun _ s => ⟨_, s, rfl, rfl⟩
  · refine .ran (hmore k) (.ite (fun next => ?_) fun _ => .pure trivial)
    refine .bind (hyields k next).onward fun r j hr => .pure ?_
    obtain ⟨a, goOn⟩ := r
    cases goOn with
    | true => exact Nat.le_trans hk hr.1
    | false => trivial

theorem collectWhile {item : Reader α} [Steady item] {P : Nat → α → Nat → Prop}
    (hmore : ∀ k, Runs S more c b k (test k) b k)
    (hitem : ∀ k, i ≤ k → test k = true → Candid S item c b k)
    (hyields : ∀ k, test k = true → Yields S item c b k b (P k)) :
    Candid S (Grammar.collectWhile more item) c b i :=
  collect (P := fun k r j => P k r.1 j) hmore
    (fun k hk next => followed (hitem k hk next) fun _ s => ⟨_, s, rfl, rfl⟩)
    fun k next => .bind (hyields k next) fun _ _ h => .pure h

theorem commaList {t : Tag} {item : Reader α} [Steady item] {P : Nat → α → Nat → Prop}
    (hitem : ∀ k, i ≤ k → Candid S item c b k) (hyields : ∀ k, Yields S item c b k b (P k)) :
    Candid S (Grammar.commaList t item) c b i := by
  rw [commaList_eq]
  refine followed (collectWhile (P := Row S t b P) (fun _ => Runs.isNotNext) (fun k hk _ => ?_)
    fun k _ => .commaRow (hyields k)) fun _ s => ⟨_, s, rfl, rfl⟩
  refine bind (hitem k hk) (hyields k) fun a j _ _ => accept Tag.noConfusion (fun _ => ?_) fun noComma => ?_
  · exact ran Runs.isNotNext (ite (fun h => by simp at h) fun _ => pure)
  · refine ran Runs.isNotNext (ite (fun h => ?_) fun _ => pure)
    have ne : S.tag j ≠ t := by simpa using h
    exact stopped (unexpected (TagSet.not_pair noComma ne)) fun _ => ⟨_, _, rfl⟩

end Candid

end Grammar

end Surface
