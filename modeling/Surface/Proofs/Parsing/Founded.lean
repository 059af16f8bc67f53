import Surface.Proofs.Grammar.Candor
import Surface.Proofs.Lexing.Tiling
import Surface.Proofs.Parsing.Leaves

/-!
# Errors agree with the text

Whatever is wrong with a text, what its errors say is so. They stand at characters of the text; the token
that is said to have been found stands where the error does and is none of those that would have been
accepted; text that is no token is reported as that and as nothing else; and a group that is said to be
open was opened before by a bracket that the expected one closes.

Results:
* `IsPlace`: the offsets an error of a text may start and end at.
* `SyntaxError.Agrees`: what an error says is so; `Setting.Founded.agrees`.
* `errors_agree`: the errors of whole texts.
-/

namespace Surface

/-! ## Places in a text -/

/-- An offset of a text at which a character starts or the text ends. -/
def IsPlace (cs : List Char) (n : Nat) : Prop := n ≤ Text.byteLength cs ∧ Text.IsBoundary cs n

theorem isPlace_append (as bs : List Char) : IsPlace (as ++ bs) (Text.byteLength as) := by
  refine ⟨?_, Text.isBoundary_append as bs⟩
  rw [Text.byteLength_append]
  exact Nat.le_add_right ..

theorem isPlace_zero (cs : List Char) : IsPlace cs 0 := isPlace_append [] cs

theorem isPlace_shebangLength (cs : List Char) : IsPlace cs (shebangLength cs) := by
  have := isPlace_append ((shebangOf cs).getD []) (behindShebang cs)
  rwa [append_behindShebang] at this

namespace Grammar

variable {cs : List Char} {dialect : Dialect} {lenient : Prop}

/-- Behind the end of a stream stands its last token. -/
theorem ofText_mem (cs : List Char) (dialect : Dialect) (lenient : Prop) (k : Nat) :
    (Setting.ofText cs dialect lenient).input.tokens.get k ∈ (lexChars cs .empty).tokens.items := by
  obtain ⟨body, spacing, h, _⟩ := lexChars_tokens cs .empty
  rw [← Array.mem_toList_iff, h]
  rcases Nat.lt_or_ge k body.length with lt | le
  · rw [show (Setting.ofText cs dialect lenient).input.tokens.get k = body[k] from (tokens_get_body h lt).1]
    exact List.mem_append_left _ (List.getElem_mem lt)
  · rw [show (Setting.ofText cs dialect lenient).input.tokens.get k = _ from tokens_get_end h le]
    exact List.mem_append_right _ (List.mem_singleton.2 rfl)

theorem ofText_isPlace (cs : List Char) (dialect : Dialect) (lenient : Prop) (k : Nat) :
    let S := Setting.ofText cs dialect lenient
    IsPlace cs (S.span k).start ∧ IsPlace cs (S.span k).stop := by
  intro S
  have o : S.Ordered := ofText_ordered ..
  have mem : S.input.tokens.get k ∈ (lexChars cs .empty).tokens.items := ofText_mem ..
  have boundary := isBoundary_lexChars cs .empty _ (Array.mem_toList_iff.2 mem)
  have stop : (S.span k).stop ≤ Text.byteLength cs := by
    have ends : S.tag S.input.tokens.size = .eof := Tokens.tag_of_size_le (Nat.le_refl _)
    have last : S.span S.input.tokens.size = .point (Text.byteLength cs) := ofText_end _ _ _ ends
    rcases Nat.lt_or_ge k S.input.tokens.size with lt | le
    · have := o.stop_le_start lt
      rwa [last] at this
    · exact Nat.le_of_eq (congrArg Span.stop (((o.ended _ ends).2 k le).trans last))
  exact ⟨⟨Nat.le_trans (o.start_le_stop k) stop, boundary.1⟩, stop, boundary.2⟩

theorem ofText_isPlace_last (cs : List Char) (dialect : Dialect) (lenient : Prop) (k : Nat) :
    IsPlace cs ((Setting.ofText cs dialect lenient).last k).stop := by
  unfold Setting.last
  induction k with
  | zero => exact isPlace_zero cs
  | succ k ih =>
    unfold Tokens.lastSpan
    split
    · exact ih
    · exact (ofText_isPlace cs dialect lenient k).2

end Grammar

/-! ## What errors say -/

theorem Code.text_eq_iff (c : Code) : c.text = "E1003" ↔ c = .unclosedDelimiter := by
  cases c <;> decide

/-- Where a group was opened is said of groups that are not closed, and of nothing else. -/
theorem Problem.isSome_openedAt? (p : Problem) :
    p.openedAt?.isSome = true ↔ p.code.text = "E1003" := by
  rw [p.code.text_eq_iff]
  cases p with
  | unclosed => exact ⟨fun _ => rfl, fun _ => rfl⟩
  | absent what => cases what <;> exact ⟨nofun, nofun⟩
  | lexical error => cases error <;> exact ⟨nofun, nofun⟩
  | _ => exact ⟨nofun, nofun⟩

/-- What an error says is so of what has been lexed from a text. -/
structure SyntaxError.Agrees (cs : List Char) (lexed : Lexed) (dialect : Dialect) (e : SyntaxError) :
    Prop where
  forward : e.span.start ≤ e.span.stop
  places : IsPlace cs e.span.start ∧ IsPlace cs e.span.stop
  /-- What is said to have been found was not expected and is no unreadable text. It stands there, unless
  it is the first line of a text in a dialect that rejects it. -/
  unexpected : ∀ found expected, e.problem.category = .unexpectedToken found expected →
    expected.contains found = false ∧ found ≠ .error
      ∧ ((∃ t ∈ lexed.tokens.items, t.tag = found ∧ t.span = e.span)
        ∨ e.problem = .shebang ∧ dialect.shebang = false
          ∧ lexed.shebang.map Shebang.span = some e.span)
  /-- An error at unreadable text is the one of that text. -/
  unreadable : ∀ t ∈ lexed.tokens.items, ∀ error, t.kind = .error error → t.span = e.span →
    e.problem = .lexical error
  /-- Unreadable text is reported where there is some. -/
  lexical : ∀ error, e.problem = .lexical error →
    ∃ t ∈ lexed.tokens.items, t.kind = .error error ∧ t.span = e.span
  opened : e.problem.openedAt?.isSome = true ↔ e.problem.code.text = "E1003"
  /-- There stands a bracket, before the error, and the one that closes it is all that was expected. -/
  opener : ∀ openedAt, e.problem.openedAt? = some openedAt →
    openedAt.stop ≤ e.span.start ∧ ∃ t ∈ lexed.tokens.items, t.span = openedAt
      ∧ ∃ close found, Groups.closing? t.tag = some close
        ∧ e.problem.category = .unexpectedToken found {.punct close}

namespace Grammar

variable {S : Setting} {i j k : Nat}

theorem Setting.tag_of_error {error : LexicalError} (h : S.kind k = .error error) : S.tag k = .error := by
  rw [← S.tag_kind, h]
  rfl

/-- An error the stream bears out starts where its token does. -/
theorem Setting.Founded.starts {e : SyntaxError} (o : S.Ordered) (h : S.Founded e) :
    ∃ k, e.span.start = (S.span k).start ∧ ∀ error, S.kind k = .error error → e.problem = .lexical error := by
  cases h with
  | @unexpected k _ _ readable => exact ⟨k, rfl, fun _ kind => absurd (tag_of_error kind) readable⟩
  | @absent k _ _ readable => exact ⟨k, rfl, fun _ kind => absurd (tag_of_error kind) readable⟩
  | @unclosed _ k _ _ readable => exact ⟨k, rfl, fun _ kind => absurd (tag_of_error kind) readable⟩
  | @lexical k error _ unreadable =>
    refine ⟨k, rfl, fun error' kind => ?_⟩
    rw [unreadable] at kind
    cases kind
    rfl
  | @missingElse k l _ before starts =>
    have last := o.le_last before (by rw [starts]; exact Tag.noConfusion)
    refine ⟨k, ?_, fun _ kind => ?_⟩
    · rw [Span.merge_of_le last.1 last.2]
    · rw [tag_of_error kind] at starts
      cases starts
  | @missingMethodSeparator k _ name =>
    refine ⟨k, rfl, fun _ kind => ?_⟩
    rw [tag_of_error kind] at name
    exact absurd name (by decide)

theorem Setting.Founded.placed {e : SyntaxError} (h : (Setting.ofText cs dialect lenient).Founded e) :
    e.span.start ≤ e.span.stop ∧ IsPlace cs e.span.start ∧ IsPlace cs e.span.stop := by
  have o : (Setting.ofText cs dialect lenient).Ordered := ofText_ordered ..
  have token := ofText_isPlace cs dialect lenient
  cases h with
  | @unexpected k | @absent k | @unclosed _ k | @lexical k | @missingMethodSeparator k =>
    exact ⟨o.start_le_stop k, token k⟩
  | @missingElse k l _ before starts =>
    have last := o.le_last before (by rw [starts]; exact Tag.noConfusion)
    rw [Span.merge_of_le last.1 last.2]
    exact ⟨Nat.le_trans (o.start_le_stop k) last.2, (token k).1, ofText_isPlace_last cs dialect lenient l⟩

/-- What the stream of a text bears out is so of the text. -/
theorem Setting.Founded.agrees {e : SyntaxError} (h : (Setting.ofText cs dialect lenient).Founded e) :
    e.Agrees cs (lexChars cs .empty) dialect := by
  have o : (Setting.ofText cs dialect lenient).Ordered := ofText_ordered ..
  have placed := h.placed
  have starts := h.starts o
  have token (k : Nat) : ∃ t ∈ (lexChars cs .empty).tokens.items,
      t.tag = (Setting.ofText cs dialect lenient).tag k ∧ t.span = (Setting.ofText cs dialect lenient).span k :=
    ⟨_, ofText_mem cs dialect lenient k, (Setting.ofText cs dialect lenient).closed k, rfl⟩
  refine ⟨placed.1, placed.2, ?_, ?_, ?_, e.problem.isSome_openedAt?, ?_⟩
  · rintro found expected same
    cases h with
    | @unexpected k _ _ readable out => cases same; exact ⟨out, readable, .inl (token k)⟩
    | @absent k _ _ readable out => cases same; exact ⟨out, readable, .inl (token k)⟩
    | @unclosed _ k _ _ readable _ _ other =>
      cases same
      exact ⟨TagSet.not_single other, readable, .inl (token k)⟩
    | @lexical _ error => cases error <;> cases same
    | missingElse => cases same
    | missingMethodSeparator => cases same
  · intro t ht error kind span
    obtain ⟨k, start, said⟩ := starts
    obtain ⟨m, kind', span'⟩ := Setting.exists_of_mem (S := Setting.ofText cs dialect lenient) ht
    rw [kind] at kind'
    have inside : (Setting.ofText cs dialect lenient).tag m ≠ .eof := by
      rw [Setting.tag_of_error kind']
      exact Tag.noConfusion
    have here : k = m := o.eq_of_start_eq inside (by rw [span', span, start])
    rw [← here] at kind'
    exact said error kind'
  · rintro error same
    cases h with
    | @lexical k _ _ unreadable =>
      cases same
      exact ⟨_, ofText_mem cs dialect lenient k, unreadable, rfl⟩
    | _ => cases same
  · rintro openedAt same
    cases h with
    | @unclosed opener k close _ _ before opens =>
      cases same
      obtain ⟨t, ht, tag, span⟩ := token opener
      exact ⟨o.stop_le_start before, t, ht, span, close, _, by rw [tag]; exact opens, rfl⟩
    | _ => cases same

/-- The first line of a text is rejected where it stands. -/
theorem shebang_agrees {line : Shebang} (h : (lexChars cs .empty).shebang = some line)
    (rejects : dialect.shebang = false) :
    SyntaxError.Agrees cs (lexChars cs .empty) dialect ⟨.shebang, line.span, none⟩ := by
  have none (t : Tag) : (∅ : TagSet).contains t = false := by
    revert t
    decide
  have span := span_shebang h
  refine ⟨by rw [span]; exact Nat.zero_le _, ?_, ?_, ?_, nofun, Problem.shebang.isSome_openedAt?, nofun⟩
  · rw [span]
    exact ⟨isPlace_zero cs, isPlace_shebangLength cs⟩
  · rintro _ _ ⟨⟩
    exact ⟨none _, Tag.noConfusion, .inr ⟨rfl, rejects, by rw [h]; rfl⟩⟩
  · -- no token starts as early as the first line does
    intro t ht error kind here
    have o : (Setting.ofText cs dialect True).Ordered := ofText_ordered ..
    obtain ⟨k, kind', span'⟩ := Setting.exists_of_mem (S := Setting.ofText cs dialect True) ht
    have size := o.nonempty k (by rw [Setting.tag_of_error (kind'.trans kind)]; exact Tag.noConfusion)
    have first := Nat.le_trans (ofText_start cs dialect True) (o.start_mono (Nat.zero_le k))
    rw [span', here, span] at size first
    exact absurd size (Nat.not_lt.2 first)

/-- Behind the first line, only what the stream bears out is reported. -/
theorem file_adds (S : Setting) (flawed : S.flawed) {line : Option Shebang} {f : SourceFile}
    {s t : State} (hs : Standing S .none false 0 s) (run : file line S.input s = .ok f t) :
    ∀ e ∈ t.errors, e ∈ s.errors ∨ S.Founded e
      ∨ ∃ l, line = some l ∧ S.input.dialect.shebang = false ∧ e = ⟨.shebang, l.span, none⟩ := by
  obtain ⟨first, u, run, rest⟩ := bind_ok.1 run
  have body (l : Option Shebang) : Candid S (do
      skipBreaks
      let items ← items ((l.map fun l => l.span.stop).getD 0)
      return (⟨l, items, ⟨0, (← nextSpan).stop⟩⟩ : SourceFile)) .none false 0 :=
    .ran Runs.skipBreaks (.followed (items_candid _ (S.past_past 0)) fun _ s => ⟨_, s, rfl, rfl⟩)
  have kept : Standing S .none false 0 u ∧ ∀ e ∈ u.errors, e ∈ s.errors
      ∨ ∃ l, line = some l ∧ S.input.dialect.shebang = false ∧ e = ⟨.shebang, l.span, none⟩ := by
    cases line with
    | none =>
      cases run
      exact ⟨hs, fun e he => .inl he⟩
    | some l =>
      obtain ⟨_, _, ⟨⟩, run⟩ := bind_ok.1 run
      cases admitted : S.input.dialect.shebang with
      | true =>
        rw [admitted] at run
        cases run
        exact ⟨hs, fun e he => .inl he⟩
      | false =>
        rw [admitted] at run
        cases run
        refine ⟨⟨hs.context, hs.skips, hs.position, hs.previous, hs.inside⟩, fun e he => ?_⟩
        rcases Array.mem_push.1 he with old | rfl
        · exact .inl old
        · exact .inr ⟨l, rfl, rfl, rfl⟩
  intro e he
  rcases (body first).ok flawed kept.1 rest e he with old | founded
  · rcases kept.2 e old with old | rejected
    · exact .inl old
    · exact .inr (.inr rejected)
  · exact .inr (.inl founded)

end Grammar

/-! ## Whole texts -/

open Grammar in
/-- What the errors of a text say is so. Each stands at characters of the text. What it says was found
was not expected, and stands there; only a first line that the dialect rejects is no token. Unreadable
text is never found in place of something else, but reported as what it is. Where a group is said to be
open, a bracket stands before the error, and what closes it is all that was expected. -/
theorem errors_agree (source : String) (dialect : Dialect) :
    ∀ e ∈ (parseText source dialect).errors,
      e.Agrees source.toList (lex source .empty) dialect := by
  intro e he
  let S := Setting.ofText source.toList dialect True
  obtain ⟨f, s, run, parsed⟩ := parse_runs (lex source .empty) dialect
  have errors : (parseText source dialect).errors = s.errors.toList := congrArg Parsed.errors parsed
  rw [errors, Array.mem_toList_iff] at he
  have standing : Standing S .none false 0 (.start (lex source .empty).names) :=
    ⟨rfl, rfl, rfl, rfl, Nat.zero_le _⟩
  rcases file_adds S trivial standing run e he with old | founded | ⟨line, here, rejects, rfl⟩
  · cases Array.not_mem_empty e old
  · exact founded.agrees
  · exact shebang_agrees here rejects

theorem errors_agree_unclosed :
    let e : SyntaxError := ⟨.unclosed .closeParen (.reserved .eq) ⟨4, 5⟩, ⟨7, 8⟩, some .letStatement⟩
    e ∈ (parseText "let (x = 1" .scripts).errors
      ∧ e.Agrees "let (x = 1".toList (lex "let (x = 1" .empty) .scripts := by
  intro e
  have reported : e ∈ (parseText "let (x = 1" .scripts).errors := by decide +kernel
  exact ⟨reported, errors_agree _ _ e reported⟩

end Surface
