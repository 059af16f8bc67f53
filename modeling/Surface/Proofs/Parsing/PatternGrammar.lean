import Surface.Proofs.Grammar.Completeness
import Surface.Proofs.Lexing.Readings
import Surface.Proofs.Parsing.Text

/-!
# The grammar of patterns

Patterns as a context-free grammar over lists of tokens, without positions, spans and what must not
follow:

```text
path    := name ('.' name)*
pattern := path atomic* | atomic
atomic  := path | literal | '..' | '(' pattern ')'
```

Where no line breaks stand between the tokens, the reader of patterns accepts what the grammar
derives and nothing else.

Results:
* `PathForm`, `AtomForm`, `PatternForm`: the grammar, with the nodes it builds.
* `PatternAt.form`, `PatternForm.at`: the rules between positions derive what the grammar does.
* `pattern_exact`: the reader takes the tokens that the grammar derives and builds the same node.
-/

namespace Surface.Grammar

/-! ## The grammar -/

/-- Names with dots between them, and the path they stand for. -/
inductive PathForm : List TokenKind → Path → Prop
  | one {k : TokenKind} {x : String} : k.name? = some x → PathForm [k] ⟨⟨x, .point 0⟩, []⟩
  | more {k : TokenKind} {x : String} {ks : List TokenKind} {p : Path} : k.name? = some x →
      PathForm ks p → PathForm (k :: .reserved .dot :: ks) ⟨⟨x, .point 0⟩, p.segments⟩

mutual

/-- The tokens of a pattern that can be an argument. -/
inductive AtomForm : List TokenKind → Pattern → Prop
  | path {ks : List TokenKind} {p : Path} : PathForm ks p → AtomForm ks (.cons .none p [])
  | literal {k : TokenKind} {v : Literal} : k.literal? = some v → AtomForm [k] (.literal .none v)
  | rest : AtomForm [.reserved .dotDot] (.rest .none)
  | group {ks : List TokenKind} {p : Pattern} : PatternForm ks p →
      AtomForm (.punct .openParen :: (ks ++ [.punct .closeParen])) p

/-- The tokens of a pattern. -/
inductive PatternForm : List TokenKind → Pattern → Prop
  | cons {ks ls : List TokenKind} {p : Path} {args : List Pattern} : PathForm ks p →
      ArgsForm ls args → PatternForm (ks ++ ls) (.cons .none p args)
  | atom {ks : List TokenKind} {p : Pattern} : AtomForm ks p → PatternForm ks p

/-- The tokens of arguments. -/
inductive ArgsForm : List TokenKind → List Pattern → Prop
  | none : ArgsForm [] []
  | more {ks ls : List TokenKind} {p : Pattern} {ps : List Pattern} : AtomForm ks p →
      ArgsForm ls ps → ArgsForm (ks ++ ls) (p :: ps)

end

/-- A token that a pattern in the place of an argument starts with. -/
def StartsAtom (k : TokenKind) : Prop :=
  k.name?.isSome ∨ k.literal?.isSome ∨ k = .reserved .dotDot ∨ k = .punct .openParen

/-- What comes behind a pattern does not go on with it. -/
def EndsPattern (k : TokenKind) : Prop := k ≠ .reserved .dot ∧ ¬ StartsAtom k

instance (k : TokenKind) : Decidable (StartsAtom k) := inferInstanceAs (Decidable (_ ∨ _))

instance (k : TokenKind) : Decidable (EndsPattern k) := inferInstanceAs (Decidable (_ ∧ _))

theorem startsAtom_iff (k : TokenKind) : StartsAtom k ↔ patternTags.contains k.tag = true := by
  unfold StartsAtom
  cases k with
  | keyword w => cases w <;> decide
  | reserved r => cases r <;> decide
  | punct p => cases p <;> decide
  | _ => simp [TokenKind.name?, TokenKind.literal?, TokenKind.tag]; decide

/-! ## Tokens from a position on -/

variable {S : Setting} {b : Bool} {i j : Nat} {k : TokenKind} {ks ls : List TokenKind}

/-- The tokens from a position on are of these kinds. -/
def Setting.HasKinds (S : Setting) : Nat → List TokenKind → Prop
  | _, [] => True
  | i, k :: ks => S.kind i = k ∧ S.HasKinds (i + 1) ks

theorem Setting.hasKinds_append :
    S.HasKinds i (ks ++ ls) ↔ S.HasKinds i ks ∧ S.HasKinds (i + ks.length) ls := by
  induction ks generalizing i with
  | nil => exact ⟨fun h => ⟨trivial, h⟩, fun h => h.2⟩
  | cons k ks ih =>
    have place : i + 1 + ks.length = i + (ks.length + 1) := by omega
    simp only [List.cons_append, Setting.HasKinds, List.length_cons, ih, place, and_assoc]

theorem Setting.HasKinds.unique (h : S.HasKinds i ks) (h' : S.HasKinds i ls)
    (hl : ks.length = ls.length) : ks = ls := by
  induction ks generalizing i ls with
  | nil => exact (List.length_eq_zero_iff.1 hl.symm).symm
  | cons k ks ih =>
    cases ls with
    | nil => cases hl
    | cons l ls =>
      rw [← h.1, ← h'.1, ih h.2 h'.2 (Nat.succ.inj hl)]

/-- No line break stands between the tokens. -/
def Setting.Flat (S : Setting) : Prop := ∀ i, S.tag i ≠ .lineBreak

theorem Setting.Flat.next (flat : S.Flat) (b : Bool) (i : Nat) : S.next b i = i + 1 := by
  unfold Setting.next
  split
  · exact Setting.past_of_ne (flat (i + 1))
  · rfl

theorem Setting.not_dotted (h : S.kind i ≠ .reserved .dot) : ¬ S.Dotted i := fun dotted =>
  h (TokenKind.eq_reserved ((S.tag_kind i).trans dotted.1))

/-! ## What the rules derive is in the grammar -/

theorem SegmentsAt.form (flat : S.Flat) {xs : List Ident} (h : SegmentsAt S b i xs j) :
    ∃ ks, S.HasKinds i ks ∧ j = i + ks.length
      ∧ ∀ k x, k.name? = some x → PathForm (k :: ks) ⟨⟨x, .point 0⟩, xs.map Ident.bare⟩ := by
  induction h with
  | stop _ => exact ⟨[], trivial, rfl, fun k x hk => .one hk⟩
  | @more i y ys j dotted name _ ih =>
    obtain ⟨ks, kinds, rfl, path⟩ := ih
    rw [flat.next, flat.next] at kinds
    rw [flat.next] at name
    have dot : S.kind i = .reserved .dot := TokenKind.eq_reserved ((S.tag_kind i).trans dotted.1)
    refine ⟨.reserved .dot :: S.kind (i + 1) :: ks, ⟨dot, rfl, kinds⟩, ?_, fun k x hk => ?_⟩
    · rw [flat.next, flat.next, List.length_cons, List.length_cons]
      omega
    · exact .more hk (path _ _ name.1)

theorem PathAt.form (flat : S.Flat) {p : Path} (h : PathAt S b i p j) :
    ∃ ks, S.HasKinds i ks ∧ j = i + ks.length ∧ PathForm ks p.bare := by
  obtain ⟨ks, kinds, rfl, path⟩ := h.tail.form flat
  rw [flat.next] at kinds
  refine ⟨S.kind i :: ks, ⟨rfl, kinds⟩, ?_, path _ _ h.head.1⟩
  rw [flat.next, List.length_cons]
  omega

mutual

theorem AtomAt.form (flat : S.Flat) : {i j : Nat} → {b : Bool} → {p : Pattern} →
    AtomAt S b i p j → ∃ ks, S.HasKinds i ks ∧ j = i + ks.length ∧ AtomForm ks p.bare
  | i, _, b, _, .literal hv _ => ⟨[S.kind i], ⟨rfl, trivial⟩, flat.next b i, .literal hv⟩
  | _, _, _, _, .path hp _ =>
    have ⟨ks, kinds, length, path⟩ := hp.form flat
    ⟨ks, kinds, length, .path path⟩
  | i, _, b, _, .rest hd _ =>
    have dots : S.kind i = .reserved .dotDot := TokenKind.eq_reserved ((S.tag_kind i).trans hd)
    ⟨[.reserved .dotDot], ⟨dots, trivial⟩, flat.next b i, .rest⟩
  | i, _, b, _, .group ho hp hc => by
    obtain ⟨ks, kinds, rfl, pattern⟩ := hp.form flat
    have opens : S.kind i = .punct .openParen := TokenKind.eq_punct ((S.tag_kind i).trans ho)
    have closes := TokenKind.eq_punct ((S.tag_kind _).trans hc)
    rw [flat.next] at kinds closes
    refine ⟨.punct .openParen :: (ks ++ [.punct .closeParen]),
      ⟨opens, Setting.hasKinds_append.2 ⟨kinds, closes, trivial⟩⟩, ?_, .group pattern⟩
    rw [flat.next, flat.next]
    simp only [List.length_cons, List.length_append, List.length_nil]
    omega

theorem PatternAt.form (flat : S.Flat) : {i j : Nat} → {b : Bool} → {p : Pattern} →
    PatternAt S b i p j → ∃ ks, S.HasKinds i ks ∧ j = i + ks.length ∧ PatternForm ks p.bare
  | _, _, _, _, .cons hp hs _ => by
    obtain ⟨ls, kinds', length', args⟩ := hs.form flat
    obtain ⟨ks, kinds, rfl, path⟩ := hp.form flat
    refine ⟨ks ++ ls, Setting.hasKinds_append.2 ⟨kinds, kinds'⟩, ?_, .cons path args⟩
    rw [length', List.length_append, Nat.add_assoc]
  | _, _, _, _, .atom _ h =>
    have ⟨ks, kinds, length, atom⟩ := h.form flat
    ⟨ks, kinds, length, .atom atom⟩

theorem PatternArgsAt.form (flat : S.Flat) : {i j : Nat} → {b : Bool} → {ps : List Pattern} →
    PatternArgsAt S b i ps j → ∃ ks, S.HasKinds i ks ∧ j = i + ks.length
      ∧ ArgsForm ks (Pattern.bares ps)
  | _, _, _, _, .stop _ => ⟨[], trivial, rfl, .none⟩
  | _, _, _, _, .more h hs => by
    obtain ⟨ls, kinds', length', args⟩ := hs.form flat
    obtain ⟨ks, kinds, rfl, atom⟩ := h.form flat
    refine ⟨ks ++ ls, Setting.hasKinds_append.2 ⟨kinds, kinds'⟩, ?_, .more atom args⟩
    rw [length', List.length_append, Nat.add_assoc]

end

/-! ## What the grammar derives is in the rules -/

theorem PathForm.head {p : Path} (h : PathForm ks p) :
    ∃ k ls, ks = k :: ls ∧ k.name? = some p.head.name := by
  cases h with
  | one hk => exact ⟨_, _, rfl, hk⟩
  | more hk _ => exact ⟨_, _, rfl, hk⟩

/-- Arguments start with a token that starts one. -/
theorem AtomForm.starts {p : Pattern} (h : AtomForm ks p) : ∃ k ls, ks = k :: ls ∧ StartsAtom k := by
  cases h with
  | path hp =>
    obtain ⟨k, ls, rfl, name⟩ := hp.head
    exact ⟨k, ls, rfl, .inl (Option.isSome_of_eq_some name)⟩
  | literal hv => exact ⟨_, _, rfl, .inr (.inl (Option.isSome_of_eq_some hv))⟩
  | rest => exact ⟨_, _, rfl, .inr (.inr (.inl rfl))⟩
  | group _ => exact ⟨_, _, rfl, .inr (.inr (.inr rfl))⟩

theorem StartsAtom.ne_dot (h : StartsAtom k) : k ≠ .reserved .dot := by
  rintro rfl
  revert h
  decide

/-- Behind a pattern, arguments or what ends them go on with no path. -/
theorem ArgsForm.ne_dot {ps : List Pattern} (h : ArgsForm ks ps) (kinds : S.HasKinds i ks)
    (stop : EndsPattern (S.kind (i + ks.length))) : S.kind i ≠ .reserved .dot := by
  cases h with
  | none => exact stop.1
  | more atom _ =>
    obtain ⟨k, ls, rfl, starts⟩ := atom.starts
    rw [kinds.1]
    exact starts.ne_dot

theorem ends_of_kind (stop : EndsPattern (S.kind i)) : patternTags.contains (S.tag i) = false := by
  rw [← S.tag_kind]
  exact eq_false_of_ne_true fun h => stop.2 ((startsAtom_iff _).2 h)

/-- What can be an argument is a pattern, since a path takes no arguments where none follow. -/
theorem AtomAt.pattern {p : Pattern} (any : ∀ s t, S.covers s t) (h : AtomAt S b i p j)
    (stop : patternTags.contains (S.tag j) = false) : ∃ q, PatternAt S b i q j ∧ q.bare = p.bare := by
  have here {t : Tag} (tag : S.tag i = t) (other : nameTags.contains t = false) :
      nameTags.contains (S.tag i) = false := tag ▸ other
  cases h with
  | @path _ _ m p _ hp _ => exact ⟨.cons m p [], .cons hp (.stop stop) (any _ _), rfl⟩
  | literal hv hs =>
    have other : nameTags.contains (S.tag i) = false := by
      rcases Setting.tag_of_literal hv with tag | tag | tag <;> exact here tag (by decide)
    exact ⟨_, .atom other (.literal hv hs), rfl⟩
  | rest hd hs => exact ⟨_, .atom (here hd (by decide)) (.rest hd hs), rfl⟩
  | group ho hp hc => exact ⟨_, .atom (here ho (by decide)) (.group ho hp hc), rfl⟩

theorem PathForm.at (flat : S.Flat) (any : ∀ s t, S.covers s t) {p : Path} (h : PathForm ks p)
    (b : Bool) (kinds : S.HasKinds i ks) (stop : S.kind (i + ks.length) ≠ .reserved .dot) :
    ∃ q, PathAt S b i q (i + ks.length) ∧ q.bare = p := by
  induction h generalizing i with
  | @one k x hk =>
    have ends : SegmentsAt S b (S.next b i) [] (i + 1) := by
      rw [flat.next]
      exact .stop (Setting.not_dotted stop)
    exact ⟨⟨⟨x, .point 0⟩, []⟩, ⟨⟨by rw [kinds.1, hk], any _ _⟩, ends⟩, rfl⟩
  | @more k x ks p hk hp ih =>
    obtain ⟨here, dot, behind⟩ := kinds
    have place : i + 1 + 1 + ks.length = i + (ks.length + 2) := by omega
    obtain ⟨q, ⟨head, tail⟩, rfl⟩ := ih behind (by rwa [place])
    rw [place] at tail
    obtain ⟨l, ls, rfl, name⟩ := hp.head
    have dotted : S.Dotted (i + 1) :=
      ⟨(S.tag_kind _).symm.trans (by rw [dot]; rfl), Setting.tag_of_name head.1⟩
    refine ⟨⟨⟨x, .point 0⟩, q.segments⟩, ⟨⟨by rw [here, hk], any _ _⟩, ?_⟩, rfl⟩
    rw [flat.next]
    refine .more dotted ?_ ?_
    · rw [flat.next]
      exact head
    · rw [flat.next, flat.next]
      rwa [flat.next] at tail

mutual

theorem AtomForm.at (flat : S.Flat) (any : ∀ s t, S.covers s t) :
    {ks : List TokenKind} → {p : Pattern} → {i : Nat} → AtomForm ks p →
    (b : Bool) → S.HasKinds i ks → S.kind (i + ks.length) ≠ .reserved .dot →
    ∃ q, AtomAt S b i q (i + ks.length) ∧ q.bare = p
  | _, _, i, .path hp, b, kinds, stop => by
    obtain ⟨q, path, rfl⟩ := hp.at flat any b kinds stop
    exact ⟨.cons .none q [], .path path (any _ _), rfl⟩
  | _, _, i, @AtomForm.literal _ v hv, b, kinds, _ => by
    have literal : AtomAt S b i (.literal .none v) (S.next b i) :=
      .literal (by rw [kinds.1, hv]) (any _ _)
    rw [flat.next] at literal
    exact ⟨_, literal, rfl⟩
  | _, _, i, .rest, b, kinds, _ => by
    have rest : AtomAt S b i (.rest .none) (S.next b i) :=
      .rest ((S.tag_kind i).symm.trans (by rw [kinds.1]; rfl)) (any _ _)
    rw [flat.next] at rest
    exact ⟨_, rest, rfl⟩
  | _, _, i, @AtomForm.group ks _ hp, b, kinds, _ => by
    obtain ⟨opens, inside⟩ := kinds
    obtain ⟨inside, closes, -⟩ := Setting.hasKinds_append.1 inside
    obtain ⟨q, pattern, rfl⟩ := hp.at flat any true inside (by rw [closes]; decide)
    have group : AtomAt S b i q (S.next b (i + 1 + ks.length)) :=
      .group ((S.tag_kind i).symm.trans (by rw [opens]; rfl)) (by rwa [flat.next])
        ((S.tag_kind _).symm.trans (by rw [closes]; rfl))
    have place : i + 1 + ks.length + 1 = i + (ks.length + 1 + 1) := by omega
    rw [flat.next, place] at group
    refine ⟨q, ?_, rfl⟩
    simpa only [List.length_cons, List.length_append, List.length_nil] using group

theorem PatternForm.at (flat : S.Flat) (any : ∀ s t, S.covers s t) :
    {ks : List TokenKind} → {p : Pattern} → {i : Nat} → PatternForm ks p →
    (b : Bool) → S.HasKinds i ks → EndsPattern (S.kind (i + ks.length)) →
    ∃ q, PatternAt S b i q (i + ks.length) ∧ q.bare = p
  | _, _, i, @PatternForm.cons ks ls _ _ hp hs, b, kinds, stop => by
    obtain ⟨front, back⟩ := Setting.hasKinds_append.1 kinds
    have place : i + (ks ++ ls).length = i + ks.length + ls.length := by
      rw [List.length_append, Nat.add_assoc]
    rw [place] at stop ⊢
    obtain ⟨q, path, rfl⟩ := hp.at flat any b front (hs.ne_dot back stop)
    obtain ⟨qs, args, rfl⟩ := hs.at flat any b back stop
    exact ⟨.cons .none q qs, .cons path args (any _ _), rfl⟩
  | _, _, i, .atom h, b, kinds, stop => by
    obtain ⟨q, atom, rfl⟩ := h.at flat any b kinds stop.1
    exact atom.pattern any (ends_of_kind stop)

theorem ArgsForm.at (flat : S.Flat) (any : ∀ s t, S.covers s t) :
    {ks : List TokenKind} → {ps : List Pattern} → {i : Nat} → ArgsForm ks ps →
    (b : Bool) → S.HasKinds i ks → EndsPattern (S.kind (i + ks.length)) →
    ∃ qs, PatternArgsAt S b i qs (i + ks.length) ∧ Pattern.bares qs = ps
  | _, _, _, .none, _, _, stop => ⟨[], .stop (ends_of_kind stop), rfl⟩
  | _, _, i, @ArgsForm.more ks ls _ _ h hs, b, kinds, stop => by
    obtain ⟨front, back⟩ := Setting.hasKinds_append.1 kinds
    have place : i + (ks ++ ls).length = i + ks.length + ls.length := by
      rw [List.length_append, Nat.add_assoc]
    rw [place] at stop ⊢
    obtain ⟨q, atom, rfl⟩ := h.at flat any b front (hs.ne_dot back stop)
    obtain ⟨qs, args, rfl⟩ := hs.at flat any b back stop
    exact ⟨q :: qs, .more atom args, rfl⟩

end

/-! ## The reader of patterns -/

/-- The tokens of a stream from a position on. -/
theorem Setting.hasKinds_of_kinds
    (h : (S.input.tokens.items.toList.map Token.kind).drop i = ks) : S.HasKinds i ks := by
  induction ks generalizing i with
  | nil => exact trivial
  | cons k ks ih =>
    have here : (S.input.tokens.items.toList.map Token.kind)[i]? = some k := by
      rw [← List.head?_drop, h]
      rfl
    have behind : (S.input.tokens.items.toList.map Token.kind).drop (i + 1) = ks := by
      rw [← List.tail_drop, h]
      rfl
    rw [List.getElem?_map, Array.getElem?_toList] at here
    obtain ⟨t, ht, rfl⟩ := Option.map_eq_some_iff.1 here
    have get : S.input.tokens.get i = t := by
      unfold Tokens.get Tokens.get?
      rw [ht]
      rfl
    exact ⟨congrArg Token.kind get, ih behind⟩

/-- A stream in which no token is a line break. -/
theorem Setting.flat_of_kinds
    (h : .lineBreak ∉ S.input.tokens.items.toList.map Token.kind) : S.Flat := by
  intro i tag
  have inside : i < S.input.tokens.size :=
    Tokens.lt_size_of_tag_ne_eof fun eof => Tag.noConfusion (tag.symm.trans eof)
  have get : S.input.tokens.get i = S.input.tokens.items[i] := by
    unfold Tokens.get Tokens.get?
    rw [Array.getElem?_eq_getElem inside]
    rfl
  have kind : S.kind i = .lineBreak := TokenKind.eq_lineBreak ((S.tag_kind i).trans tag)
  refine h (List.mem_map.2 ⟨S.input.tokens.items[i], ?_, by rw [← get]; exact kind⟩)
  exact Array.mem_toList_iff.2 (Array.getElem_mem inside)

/-- The end of a stream stands at its last position. -/
theorem get_last_of_kinds {ts : Tokens} (h : (ts.items.toList.map Token.kind).getLast? = some .eof) :
    (ts.get (ts.size - 1)).kind = .eof := by
  rw [List.getLast?_map] at h
  obtain ⟨t, ht, kind⟩ := Option.map_eq_some_iff.1 h
  rw [Array.getLast?_toList] at ht
  unfold Tokens.get Tokens.get?
  rw [show ts.items[ts.size - 1]? = ts.items.back? from rfl, ht]
  exact kind

/-- The reader of patterns accepts what the grammar derives. Before tokens that derive a pattern, with
a token behind them that does not go on with it, it succeeds, takes those tokens and builds the node of
the derivation. Whatever it takes when it succeeds derives the node it has built. -/
theorem pattern_exact {input : Input} {s : State} {before rest : List TokenKind}
    (kinds : input.tokens.items.toList.map Token.kind = before ++ rest)
    (flat : .lineBreak ∉ before ++ rest) (ends : (before ++ rest).getLast? = some .eof)
    (position : s.cursor.position = before.length)
    (previous : s.cursor.previous = input.tokens.lastSpan before.length) :
    (∀ ks k ls p, rest = ks ++ k :: ls → PatternForm ks p → EndsPattern k →
        ∃ q t, pattern input s = .ok q t ∧ q.bare = p
          ∧ t.cursor.position = before.length + ks.length ∧ t.errors = s.errors)
      ∧ ∀ q t, pattern input s = .ok q t →
        ∃ ks ls, rest = ks ++ ls ∧ t.cursor.position = before.length + ks.length
          ∧ PatternForm ks q.bare := by
  let S : Setting :=
    { input, covers := fun _ _ => True, covers_refl := fun _ => trivial, flawed := True,
      closed := Tokens.get_tag (get_last_of_kinds (by rw [kinds]; exact ends)) }
  have flat : S.Flat := Setting.flat_of_kinds (by rwa [kinds])
  have held : S.HasKinds before.length rest :=
    Setting.hasKinds_of_kinds (by rw [kinds, List.drop_left])
  have size : input.tokens.size = before.length + rest.length := by
    have := congrArg List.length kinds
    rwa [List.length_map, Array.length_toList, List.length_append] at this
  have stands : Standing S s.context s.cursor.skipsBreaks before.length s :=
    ⟨rfl, rfl, position, previous, by show _ ≤ input.tokens.size; omega⟩
  refine ⟨fun ks k ls p split derived stop => ?_, fun q t run => ?_⟩
  · obtain ⟨front, here, -⟩ := Setting.hasKinds_append.1 (split ▸ held)
    obtain ⟨q, rule, rfl⟩ := derived.at flat (fun _ _ => trivial) s.cursor.skipsBreaks front (here ▸ stop)
    obtain ⟨q', t, run, stands', errors, same⟩ := pattern_leads rule s stands
    exact ⟨q', t, run, same, stands'.position, errors⟩
  · obtain ⟨j, stands', rule⟩ := pattern_yields s q t stands run fun _ => trivial
    obtain ⟨ks, front, rfl, derived⟩ := rule.form flat
    have inside : ks.length ≤ rest.length := by
      have := stands'.inside
      rw [show S.input.tokens.size = input.tokens.size from rfl] at this
      omega
    have taken : ks = rest.take ks.length := by
      rw [← List.take_append_drop ks.length rest] at held
      exact front.unique (Setting.hasKinds_append.1 held).1 (by rw [List.length_take]; omega)
    refine ⟨ks, rest.drop ks.length, ?_, stands'.position, derived⟩
    rw [taken, List.length_take, Nat.min_eq_left inside]
    exact (List.take_append_drop _ _).symm

/-- A constructor behind a word, whose first argument is a path in parentheses with an argument of its
own. -/
theorem constructor_exact :
    let input := inputOf "let a (b.c ..) d = e".toList .scripts
    let s : State := { State.start .empty with cursor := ⟨1, ⟨0, 3⟩, false⟩ }
    let name (x : String) : Ident := ⟨x, .point 0⟩
    let inner : Pattern := .cons .none ⟨name "b", [name "c"]⟩ [.rest .none]
    ∃ q t, pattern input s = .ok q t
      ∧ q.bare = .cons .none ⟨name "a", []⟩ [inner, .cons .none ⟨name "d", []⟩ []]
      ∧ t.cursor.position = 9 ∧ t.errors = s.errors := by
  intro input s name inner
  let group : List TokenKind :=
    [.punct .openParen, .ident "b", .reserved .dot, .ident "c", .reserved .dotDot,
      .punct .closeParen]
  let behind : List TokenKind := [.reserved .eq, .ident "e", .eof]
  have kinds : input.tokens.items.toList.map Token.kind
      = [.keyword .letKw] ++ ((.ident "a" :: (group ++ [.ident "d"])) ++ behind) := by
    decide +kernel
  have path : PathForm [.ident "b", .reserved .dot, .ident "c"] ⟨name "b", [name "c"]⟩ :=
    .more rfl (.one rfl)
  have first : AtomForm group inner := .group (.cons path (.more .rest .none))
  have second : AtomForm [.ident "d"] (.cons .none ⟨name "d", []⟩ []) := .path (.one rfl)
  have derived : PatternForm (.ident "a" :: (group ++ [.ident "d"])) _ :=
    .cons (.one rfl) (.more first (.more second .none))
  have previous : s.cursor.previous = input.tokens.lastSpan 1 := by decide +kernel
  have reads := (pattern_exact kinds (by decide) rfl rfl previous).1
  exact reads _ _ _ _ rfl derived (by decide)

end Surface.Grammar
