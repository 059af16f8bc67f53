import Surface.Proofs.Grammar.FileSoundness
import Surface.Proofs.Reader.Quiet

/-!
# Runs that succeed

The counterpart of what runs yield: a run from one position succeeds and leads to another, with a
result that is as asked for. It is closed under every way readers are put together as well, so that a
reader succeeds where its parts do.

Results:
* `Leads`: the judgment; `Runs.leads`: a run whose result is known.
* `Leads.bind`, `Leads.ran`, `Leads.within`, ...: readers put together.
* `Runs.expect`, `Runs.closeGroup`, `Runs.closeBrace`: tokens that come next.
* `Leads.collect`, `Leads.collectWhile`, `Leads.commaList`: sequences.
-/

namespace Surface.Grammar

variable {S : Setting} {α β γ : Type} {c : Context} {b b' b'' : Bool} {i j k : Nat}

/-- From position `i`, in context `c` and mode `b`, a run succeeds without reporting an error and
leads to position `j` in mode `b'`, and `P` holds of the result. -/
def Leads (S : Setting) (r : Reader α) (c : Context) (b : Bool) (i : Nat) (P : α → Prop)
    (b' : Bool) (j : Nat) : Prop :=
  ∀ s, Standing S c b i s → ∃ a s', r S.input s = .ok a s' ∧ Standing S c b' j s'
    ∧ s'.errors = s.errors ∧ P a

theorem Runs.leads {r : Reader α} [quiet : Quiet r] {a : α} (h : Runs S r c b i a b' j) :
    Leads S r c b i (· = a) b' j := by
  intro s hs
  obtain ⟨s', run, stands⟩ := h s hs
  have same := quiet.errors S.input s
  rw [run] at same
  exact ⟨a, s', run, stands, same, rfl⟩

namespace Leads

/-! ## Putting readers together -/

variable {P Q : α → Prop} {R : β → Prop}

theorem mono {r : Reader α} (h : Leads S r c b i P b' j) (hPQ : ∀ a, P a → Q a) :
    Leads S r c b i Q b' j := by
  intro s hs
  obtain ⟨a, s', run, stands, errors, hP⟩ := h s hs
  exact ⟨a, s', run, stands, errors, hPQ a hP⟩

theorem bind {x : Reader α} {f : α → Reader β} (hx : Leads S x c b i P b' k)
    (hf : ∀ a, P a → Leads S (f a) c b' k R b'' j) : Leads S (x >>= f) c b i R b'' j := by
  intro s hs
  obtain ⟨a, t, run, stands, errors, hP⟩ := hx s hs
  obtain ⟨r, u, run', stands', errors', hR⟩ := hf a hP t stands
  exact ⟨r, u, by rw [bind_of_ok run, run'], stands', errors'.trans errors, hR⟩

/-- A first reader that is known to run. -/
theorem ran {x : Reader α} [Quiet x] {f : α → Reader β} {a : α} (hx : Runs S x c b i a b' k)
    (hf : Leads S (f a) c b' k R b'' j) : Leads S (x >>= f) c b i R b'' j :=
  bind hx.leads fun _ h => h ▸ hf

theorem pure {a : α} (h : P a) : Leads S (Pure.pure a : Reader α) c b i P b i :=
  fun s hs => ⟨a, s, rfl, hs, rfl, h⟩

theorem map {x : Reader α} {f : α → β} (h : Leads S x c b i P b' j) :
    Leads S (f <$> x) c b i (fun r => ∃ a, f a = r ∧ P a) b' j := by
  intro s hs
  obtain ⟨a, t, run, stands, errors, hP⟩ := h s hs
  exact ⟨f a, t, map_ok.2 ⟨a, run, rfl⟩, stands, errors, a, rfl, hP⟩

theorem ifTrue {p : Prop} [Decidable p] {x y : Reader α} (hp : p) (h : Leads S x c b i P b' j) :
    Leads S (if p then x else y) c b i P b' j := by
  rwa [if_pos hp]

theorem ifFalse {p : Prop} [Decidable p] {x y : Reader α} (hp : ¬ p) (h : Leads S y c b i P b' j) :
    Leads S (if p then x else y) c b i P b' j := by
  rwa [if_neg hp]

theorem within {derive : Context → Context} {r : Reader α} (h : Leads S r (derive c) b i P b' j) :
    Leads S (Grammar.within derive r) c b i P b' j := by
  intro s hs
  have inside : Standing S (derive c) b i (s.inContext (derive s.context)) :=
    ⟨congrArg derive hs.context, hs.skips, hs.position, hs.previous, hs.inside⟩
  obtain ⟨a, t, run, stands, errors, hP⟩ := h _ inside
  refine ⟨a, _, within_ok.2 ⟨t, run, rfl⟩, ?_, errors, hP⟩
  exact ⟨hs.context, stands.skips, stands.position, stands.previous, stands.inside⟩

theorem inConstruct {form : Construct} {r : Reader α} (h : Leads S r c b i P b' j) :
    Leads S (Grammar.inConstruct form r) c b i P b' j := by
  intro s hs
  obtain ⟨a, t, run, rest⟩ := h s hs
  exact ⟨a, t, inConstruct_ok.2 run, rest⟩

theorem orElse {r : Reader α} {replace : SyntaxError → Reader α} (h : Leads S r c b i P b' j) :
    Leads S (Grammar.orElse r replace) c b i P b' j := by
  intro s hs
  obtain ⟨a, t, run, rest⟩ := h s hs
  exact ⟨a, t, by rw [orElse_run, run], rest⟩

/-- A state with other nodes or names stands where it stood. -/
theorem standing_congr {s t : State} (hs : Standing S c b i s) (hc : t.context = s.context)
    (h : t.cursor = s.cursor) : Standing S c b i t :=
  ⟨hc.trans hs.context, h ▸ hs.skips, h ▸ hs.position, h ▸ hs.previous, hs.inside⟩

theorem newExpr {span : Span} {form : Mark → Expr} {P : Expr → Prop} (h : ∀ m, P (form m)) :
    Leads S (Grammar.newExpr span form) c b i P b i := fun s hs =>
  ⟨_, _, newExpr_run span form _ s, standing_congr hs rfl rfl, rfl, h _⟩

theorem newPattern {span : Span} {form : Mark → Pattern} {P : Pattern → Prop} (h : ∀ m, P (form m)) :
    Leads S (Grammar.newPattern span form) c b i P b i := fun s hs =>
  ⟨_, _, newPattern_run span form _ s, standing_congr hs rfl rfl, rfl, h _⟩

theorem newStmt {span : Span} {form : Mark → Stmt} {P : Stmt → Prop} (h : ∀ m, P (form m)) :
    Leads S (Grammar.newStmt span form) c b i P b i := fun s hs =>
  ⟨_, _, newStmt_run span form _ s, standing_congr hs rfl rfl, rfl, h _⟩

end Leads

/-! ## Tokens that come next -/

namespace Runs

theorem expect {t : Tag} (h : S.tag i = t) (hne : t ≠ .eof) :
    Runs S (expect t) c b i (S.span i) b (S.next b i) := by
  intro s hs
  refine ⟨_, ?_, hs.step (by rwa [h])⟩
  rw [expect_of_tag (by rw [hs.tag_eq, h]), hs.position]
  rfl

theorem closeGroup {p : Punct} {span : Span} {skips : Bool} (hp : p ≠ .closeBrace)
    (h : S.tag i = .punct p) : Runs S (closeGroup ⟨p, span, skips⟩) c b i
      (span.merge (S.span i)) skips (S.next skips i) := by
  intro s hs
  have closing : Opened.closing ⟨p, span, skips⟩ S.input.tokens s.cursor = skipping skips s.cursor := by
    unfold Opened.closing
    rw [if_neg hp]
  have stands := hs.skipping skips
  have tag : ((Opened.closing ⟨p, span, skips⟩ S.input.tokens s.cursor).tag S.input.tokens)
      = .punct p := by
    rw [closing, ← h]
    exact stands.tag_eq
  refine ⟨_, ?_, stands.step (by rw [h]; exact Tag.noConfusion)⟩
  rw [closeGroup_of_tag tag, closing]
  show EStateM.Result.ok (span.merge (S.input.tokens.get s.cursor.position).span) _ = _
  rw [hs.position]
  rfl

theorem closeBrace {span : Span} {skips : Bool} (h : S.tag (S.past i) = .punct .closeBrace) :
    Runs S (Grammar.closeGroup ⟨.closeBrace, span, skips⟩) c b i
      (span.merge (S.span (S.past i))) skips (S.next skips (S.past i)) := by
  intro s hs
  have stands := hs.skipBreaks.skipping skips
  have tag : ((Opened.closing ⟨.closeBrace, span, skips⟩ S.input.tokens s.cursor).tag S.input.tokens)
      = .punct .closeBrace := by
    rw [← h]
    exact stands.tag_eq
  refine ⟨_, ?_, stands.step (by rw [h]; exact Tag.noConfusion)⟩
  rw [closeGroup_of_tag tag]
  show EStateM.Result.ok (span.merge (S.input.tokens.get (pastBreaks _ s.cursor.position)).span) _ = _
  rw [hs.position]
  rfl

/-- A closing brace with no line break before it. -/
theorem closeBrace_here {span : Span} {skips : Bool} (h : S.tag i = .punct .closeBrace) :
    Runs S (Grammar.closeGroup ⟨.closeBrace, span, skips⟩) c b i (span.merge (S.span i)) skips
      (S.next skips i) := by
  have here : S.past i = i := Setting.past_of_ne (by rw [h]; exact Tag.noConfusion)
  have closes : Runs S (Grammar.closeGroup ⟨.closeBrace, span, skips⟩) c b i
      (span.merge (S.span (S.past i))) skips (S.next skips (S.past i)) := closeBrace (here.symm ▸ h)
  rwa [here] at closes

end Runs

/-! ## Sequences -/

/-- A tag that ends what is listed. -/
theorem Listed.ends {t : Tag} {P : Nat → α → Nat → Prop} {as : List α} {l : Bool}
    (h : Listed S t b P i as l j) : S.tag j = t := by
  induction h with
  | none h => exact h
  | last _ h _ => exact h
  | more _ _ _ ih => exact ih

theorem Items.mono {P Q : Nat → α → Nat → Prop} {as : List α} (h : Items P i as j)
    (hPQ : ∀ i a j, P i a j → Q i a j) : Items Q i as j := by
  induction h with
  | none => exact .none
  | more h _ ih => exact .more (hPQ _ _ _ h) ih

/-- What is listed stands behind where the list starts. -/
theorem Listed.behind {t : Tag} {P : Nat → α → Nat → Prop} {as : List α} {l : Bool}
    (h : Listed S t b P i as l j) (hlt : ∀ i a j, P i a j → i < j) (hk : k ≤ i) :
    Listed S t b (fun i a j => k ≤ i ∧ P i a j) i as l j := by
  induction h with
  | none h => exact .none h
  | last h tag ne => exact .last ⟨hk, h⟩ tag ne
  | @more i a m as l j h comma _ ih =>
    have := hlt _ _ _ h
    have := S.lt_next b m
    exact .more ⟨hk, h⟩ comma (ih (by omega))

/-- Items stand behind where the first one starts. -/
theorem Items.behind {P : Nat → α → Nat → Prop} {as : List α} (h : Items P i as j)
    (hlt : ∀ i a j, P i a j → i < j) (hk : k ≤ i) : Items (fun i a j => k ≤ i ∧ P i a j) i as j := by
  induction h with
  | none => exact .none
  | more h _ ih =>
    have := hlt _ _ _ h
    exact .more ⟨hk, h⟩ (ih (by omega))

namespace Leads

/-- Some rounds, each of which takes a token, are no more than there may be. -/
theorem repeated {round : β → Reader (ForInStep β)} {x : β} {P : β → Prop}
    (h : ∀ n, S.input.tokens.size < n + i → Leads S (repeatUpTo round n x) c b i P b j) :
    Leads S (Grammar.repeated x round) c b i P b j := by
  refine ran Runs.read ?_
  intro s hs
  rw [bind_of_ok (cursor_run _ s)]
  exact h _ (by rw [hs.position]; omega) s hs

/-- There is always another round before the end. -/
theorem another {round : β → Reader (ForInStep β)} {x : β} {P : β → Prop} {n : Nat}
    (hn : S.input.tokens.size < n + i)
    (h : ∀ m, n = m + 1 → Leads S (repeatUpTo round n x) c b i P b' j) :
    Leads S (repeatUpTo round n x) c b i P b' j := by
  intro s hs
  cases n with
  | zero => exact absurd hs.inside (by omega)
  | succ m => exact h m rfl s hs

/-- Items are collected that can be read one after the other; what is known of them is what `f` tells. -/
theorem collect {more : Reader Bool} [Quiet more] {item : Reader (α × Bool)} {test : Nat → Bool} {f : α → γ}
    {as : List α} {l : Bool} (hmore : ∀ i, Runs S more c b i (test i) b i)
    (h : Rows (fun i r j => test i = true ∧ i < j
      ∧ Leads S item c b i (fun r' => f r'.1 = f r.1 ∧ r'.2 = r.2) b j) i as l j)
    (stop : l = false → test j = false) :
    Leads S (Grammar.collect more item) c b i (fun as' => as'.map f = as.map f) b j := by
  have round {i k : Nat} {r : α × Bool} (ht : test i = true)
      (row : Leads S item c b i (fun r' => f r'.1 = f r.1 ∧ r'.2 = r.2) b k) (acc : Array α) :
      Leads S (collectRound more item acc) c b i (fun x => ∃ a', f a' = f r.1
        ∧ x = if r.2 then .yield (acc.push a') else .done (acc.push a')) b k := by
    refine ran (hmore i) (ifTrue ht (bind row fun r' hr => ?_))
    exact pure ⟨r'.1, hr.1, by rw [hr.2]⟩
  have all (acc : Array α) (n : Nat) (hn : S.input.tokens.size < n + i) :
      Leads S (repeatUpTo (collectRound more item) n acc) c b i
        (fun items => items.toList.map f = acc.toList.map f ++ as.map f) b j := by
    induction h generalizing acc n with
    | @none i =>
      have ended : Leads S (collectRound more item acc) c b i (· = .done acc) b i :=
        ran (hmore i) (ifFalse (by simp [stop]) (pure rfl))
      refine another hn fun m hm => hm ▸ bind ended ?_
      rintro r rfl
      exact pure (by simp)
    | last first =>
      refine another hn fun m hm => hm ▸ bind (round first.1 first.2.2 acc) ?_
      rintro r ⟨a', same, rfl⟩
      exact pure (by simp [same])
    | more first rest ih =>
      refine another hn fun m hm => hm ▸ bind (round first.1 first.2.2 acc) ?_
      rintro r ⟨a', same, rfl⟩
      have := first.2.1
      refine (ih stop (acc.push a') m (by omega)).mono fun items h => ?_
      rw [h]
      simp [same]
  rw [collect_eq]
  refine (map (repeated fun n hn => all #[] n hn)).mono ?_
  rintro _ ⟨items, rfl, h⟩
  simpa using h

theorem collectWhile {more : Reader Bool} [Quiet more] {item : Reader α} {test : Nat → Bool} {f : α → γ}
    {as : List α} (hmore : ∀ i, Runs S more c b i (test i) b i)
    (h : Items (fun i a j => test i = true ∧ i < j
      ∧ Leads S item c b i (fun a' => f a' = f a) b j) i as j) (stop : test j = false) :
    Leads S (Grammar.collectWhile more item) c b i (fun as' => as'.map f = as.map f) b j := by
  have rows : Rows (fun i r j => test i = true ∧ i < j
      ∧ Leads S (do return (← item, true)) c b i (fun r' => f r'.1 = f r.1 ∧ r'.2 = r.2) b j)
      i as false j := by
    clear stop
    induction h with
    | none => exact .none
    | more first _ ih =>
      obtain ⟨test, lt, one⟩ := first
      exact .more ⟨test, lt, bind one fun a' same => pure ⟨same, rfl⟩⟩ ih
  exact collect hmore rows fun _ => stop

/-- The items of a list with commas as rows. -/
theorem rows_of_listed {t : Tag} {P : Nat → α → Nat → Prop} {as : List α} {l : Bool}
    (h : Listed S t b P i as l j) (hne : ∀ i a j, P i a j → S.tag i ≠ t) : ∃ rows : List (α × Bool),
      Items (fun i r j => (!decide (S.tag i = t)) = true ∧ Row S t b P i r j) i rows j
        ∧ rows.map Prod.fst = as ∧ (rows.getLast?.map Prod.snd).getD false = l := by
  induction h with
  | none _ => exact ⟨[], .none, rfl, rfl⟩
  | @last i a k first tag ne =>
    have row : Row S t b P i (a, false) k := ⟨k, first, ne, tag, rfl⟩
    exact ⟨[(a, false)], .more ⟨by simpa using hne _ _ _ first, row⟩ .none, rfl, rfl⟩
  | @more i a k as l j first comma rest ih =>
    obtain ⟨rows, items, fst, flag⟩ := ih
    have row : Row S t b P i (a, true) (S.next b k) := ⟨k, first, comma, rfl⟩
    refine ⟨(a, true) :: rows, .more ⟨by simpa using hne _ _ _ first, row⟩ items, ?_, ?_⟩
    · rw [List.map_cons, fst]
    · subst fst flag
      cases rows with
      | nil => rfl
      | cons r rs => simp

theorem commaList {t : Tag} {item : Reader α} {P : Nat → α → Nat → Prop} {f : α → γ} {as : List α}
    {l : Bool} (h : Listed S t b P i as l j) (hitem : ∀ k a k', P k a k' →
      S.tag k ≠ t ∧ k < k' ∧ Leads S item c b k (fun a' => f a' = f a) b k') :
    Leads S (Grammar.commaList t item) c b i (fun r => r.1.map f = as.map f ∧ r.2 = l) b j := by
  let view (r : α × Bool) : γ × Bool := (f r.1, r.2)
  have row {k : Nat} {r : α × Bool} {k' : Nat} (h : Row S t b P k r k') : k < k'
      ∧ Leads S (commaRow t item) c b k (fun r' => view r' = view r) b k' := by
    obtain ⟨a, comma⟩ := r
    obtain ⟨m, first, hrow⟩ := h
    obtain ⟨-, lt, one⟩ := hitem k a m first
    cases comma with
    | true =>
      obtain ⟨tag, rfl⟩ := hrow
      have := S.lt_next b m
      refine ⟨by omega, bind one fun a' same => ?_⟩
      refine ran (Runs.acceptNext tag Tag.noConfusion) (ran Runs.isNotNext ?_)
      exact ifFalse (by simp) (pure (by simp only [view, same]))
    | false =>
      obtain ⟨ne, tag, rfl⟩ := hrow
      refine ⟨lt, bind one fun a' same => ?_⟩
      refine ran (Runs.acceptNone ne) (ran Runs.isNotNext ?_)
      exact ifFalse (by simp [tag]) (pure (by simp only [view, same]))
  obtain ⟨rows, items, rfl, rfl⟩ := rows_of_listed h fun k a k' h => (hitem k a k' h).1
  rw [commaList_eq]
  refine bind (collectWhile (fun _ => Runs.isNotNext)
    (items.mono fun k r k' h => ⟨h.1, row h.2⟩) (by simp [h.ends])) fun rows' same => pure ?_
  have fst (rows : List (α × Bool)) : (rows.map Prod.fst).map f = (rows.map view).map Prod.fst := by
    simp [view, Function.comp_def]
  have flag (rows : List (α × Bool)) :
      rows.getLast?.map Prod.snd = (rows.map view).getLast?.map Prod.snd := by
    simp [view, Function.comp_def]
  rw [fst, fst, flag, flag rows, same]
  exact ⟨rfl, rfl⟩

end Leads

end Surface.Grammar
