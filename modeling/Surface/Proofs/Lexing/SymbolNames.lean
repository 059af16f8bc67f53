import Surface.Proofs.Lexing.Sources

/-!
# Names made of symbols

Symbols are read in two places: as an operator, where they end before `//`, and behind a backtick, where
they end with the run of symbols. So the names made of symbols are the spellings of operators and those
with `//` in them: the lexer takes for a name what would be a comment without the backtick.

Results:
* `symbolRun_eq_length_iff`: the texts that are a run of symbols as a whole.
* `ReadsAsOperator`: texts that are one operator or reserved token when they are read alone;
  `readsAsOperator_iff`, `kinds_quoted`.
* `symbols_read_alone`: the operators and names of a source; `symbolIdent_with_comment` is a name that
  is no operator.
-/

namespace Surface

open Text (byteLength)

/-! ## Runs of symbols -/

namespace Lexeme

variable {c : Char} {cs ds : List Char} {s : String} {l : Lexeme}

theorem slashes_isPrefix_iff (c : Char) (cs : List Char) :
    "//".toList <+: c :: cs ↔ (c == '/' && cs.head? == some '/') = true := by
  have slashes : "//".toList = ['/', '/'] := rfl
  rw [slashes, List.cons_prefix_cons, Bool.and_eq_true, beq_iff_eq, beq_iff_eq, eq_comm]
  refine and_congr_right fun _ => ?_
  cases cs with
  | nil => simp
  | cons d ds => simp [eq_comm]

theorem symbolRun_cons (hc : isSymbol c = true) (hs : (c == '/' && cs.head? == some '/') = false) :
    symbolRun 0 (c :: cs) = symbolRun 0 cs + 1 := by
  rw [symbolRun, hc, hs, Bool.not_false, Bool.and_self, if_pos rfl, symbolRun_eq, Nat.zero_add,
    Nat.add_comm]

/-- A text is one run of symbols if it has nothing else in it and no `//`. -/
theorem symbolRun_eq_length_iff : symbolRun 0 cs = cs.length ↔
    (∀ c ∈ cs, isSymbol c = true) ∧ ¬ "//".toList <:+: cs := by
  induction cs with
  | nil => exact iff_of_true rfl ⟨List.forall_mem_nil _, by decide⟩
  | cons c cs ih =>
    rw [List.infix_cons_iff, slashes_isPrefix_iff, List.forall_mem_cons, not_or, Bool.not_eq_true]
    by_cases goes : isSymbol c = true ∧ (c == '/' && cs.head? == some '/') = false
    · rw [symbolRun_cons goes.1 goes.2, List.length_cons, Nat.succ_inj, ih]
      exact ⟨fun h => ⟨⟨goes.1, h.1⟩, goes.2, h.2⟩, fun h => ⟨h.1.2, h.2.2⟩⟩
    · have stops : symbolRun 0 (c :: cs) = 0 := by
        rw [symbolRun, if_neg]
        rwa [Bool.and_eq_true, Bool.not_eq_true']
      rw [stops]
      exact iff_of_false (Nat.succ_ne_zero _).symm fun h => goes ⟨h.1.1, h.2.1⟩

/-- A text that is one run of symbols is one lexeme. -/
theorem lexemes_symbols (h : symbolRun 0 (c :: cs) = (c :: cs).length) :
    lexemes (c :: cs) = [⟨.symbols, c :: cs⟩] := by
  obtain ⟨symbols, slashes⟩ := symbolRun_eq_length_iff.1 h
  rw [List.infix_cons_iff, slashes_isPrefix_iff, not_or, Bool.not_eq_true] at slashes
  have run : symbolRun 0 cs = cs.length :=
    symbolRun_eq_length_iff.2 ⟨(List.forall_mem_cons.1 symbols).2, slashes.2⟩
  rw [lexemes_cons, boundary_of_isSymbol (symbols c List.mem_cons_self) slashes.1]
  dsimp only
  rw [run, List.take_length, List.drop_length, lexemes_nil]

/-- Symbols behind a backtick are one lexeme with it. -/
theorem lexemes_quotedSymbols (h : ∀ x ∈ c :: cs, isSymbol x = true) :
    lexemes (backtick :: c :: cs) = [⟨.quotedSymbols, backtick :: c :: cs⟩] := by
  have run : runLength isSymbol (c :: cs) = (c :: cs).length := by
    rw [runLength, List.takeWhile_eq_self_iff.2 h]
  have quoted : boundary backtick (c :: cs) = (.quotedSymbols, (c :: cs).length) := by
    have at_backtick : boundary backtick (c :: cs) = if runLength isSymbol (c :: cs) == 0 then
        (.unknown, 0) else (.quotedSymbols, runLength isSymbol (c :: cs)) := rfl
    rw [at_backtick, run]
    rfl
  rw [lexemes_cons, quoted]
  dsimp only
  rw [List.take_length, List.drop_length, lexemes_nil]

/-- A run of symbols is the reserved token or the operator that is spelled like it. -/
theorem symbolsKind_spelled (s : String) :
    symbolsKind s.toList = .operator s ∨ ∃ r, r.text = s ∧ symbolsKind s.toList = .reserved r := by
  unfold symbolsKind
  rw [String.ofList_toList]
  dsimp only
  split
  · next r found =>
    have spelled := List.find?_some (p := fun r : Reserved => r.text == s) found
    exact .inr ⟨r, beq_iff_eq.1 spelled, rfl⟩
  · exact .inl rfl

/-- An operator is a run of symbols that is spelled like it. -/
theorem symbols_of_operator (h : l.kind? = some (.operator s)) :
    l.kind = .symbols ∧ s.toList = l.text := by
  obtain ⟨kind, text⟩ := l
  cases kind with
  | symbols =>
    have symbols : symbolsKind text = .operator s := Option.some.inj h
    rcases Lexing.symbolsKind_cases text with ⟨r, other⟩ | same
    · cases other.symm.trans symbols
    · cases same.symm.trans symbols
      exact ⟨rfl, String.toList_ofList⟩
  | word =>
    have word : wordKind text = .operator s := Option.some.inj h
    rcases Lexing.wordKind_cases text with ⟨w, other⟩ | other <;> cases other.symm.trans word
  | char =>
    unfold kind? at h
    dsimp only at h
    split at h <;> cases h
  | _ => cases h

end Lexeme

/-! ## Texts that are one token -/

/-- What the tokens of a text are, in order. -/
def Lexed.kinds (out : Lexed) : List TokenKind := out.tokens.items.toList.map Token.kind

/-- A text that is one lexeme is one token, and has no comment. -/
theorem lexChars_of_lexeme {cs : List Char} {l : Lexeme} {k : TokenKind} (first : ¬ "#!".toList <+: cs)
    (h : Lexeme.lexemes cs = [l]) (hk : l.kind? = some k) (names : NameTable) :
    (lexChars cs names).kinds = [k, .eof] ∧ (lexChars cs names).comments.items = #[] := by
  obtain ⟨offset, whole⟩ := behindShebang_eq_self first
  constructor
  · have signs : Lexeme.signs (behindShebang cs) = [.token k] := by
      rw [whole, Lexeme.signs, h, List.filterMap_cons, Lexing.sign_token hk]
      rfl
    have readings := lexChars_readings cs names
    rw [signs] at readings
    have kinds := congrArg (List.map Prod.fst) readings
    rw [Tokens.readings, List.map_map] at kinds
    exact kinds
  · have comments := (lexChars_placed cs names).2
    rw [placedLexemes, whole, offset, h, Lexeme.placed, Lexeme.placed, List.filterMap_cons,
      Placed.comment?_of_kind? hk] at comments
    exact Array.toList_inj.1 comments

/-- Read alone, a text is one token that is spelled like it, an operator or a reserved one, and has no
comment. -/
def ReadsAsOperator (s : String) : Prop :=
  ∀ names, ((lex s names).kinds = [.operator s, .eof]
      ∨ ∃ r : Reserved, r.text = s ∧ (lex s names).kinds = [.reserved r, .eof])
    ∧ (lex s names).comments.items = #[]

/-- An operator of a source is a run of symbols as a whole. -/
theorem symbolRun_of_operator {cs : List Char} {names : NameTable} {t : Token} {s : String}
    (h : t ∈ (lexChars cs names).tokens.items.toList) (hk : t.kind = .operator s) :
    s ≠ "" ∧ Lexeme.symbolRun 0 s.toList = s.toList.length := by
  obtain ⟨p, before, c, ds, cut, operator, -⟩ :=
    exists_cutFrom_of_word h hk (TokenKind.ne_of_tag Tag.noConfusion) (TokenKind.ne_of_tag Tag.noConfusion)
  obtain ⟨kind, text⟩ := Lexeme.symbols_of_operator operator
  have symbol : Lexeme.isSymbol c = true := cut.opens kind
  obtain ⟨slashes, length⟩ := Lexeme.of_symbols symbol (cut.boundary kind)
  have spelled : s.toList = c :: ds.take (Lexeme.symbolRun 0 ds) := by
    rw [text, cut.text, length]
  refine ⟨fun empty => ?_, ?_⟩
  · rw [empty] at spelled
    cases spelled
  · rw [spelled, Lexeme.symbolRun_cons symbol (Lexeme.slashes_take slashes _), Lexeme.symbolRun_take]
    rfl

/-- Symbols are read alone as an operator if and only if they have no `//` in them. -/
theorem readsAsOperator_iff {s : String} (nonempty : s ≠ "")
    (h : ∀ c ∈ s.toList, Lexeme.isSymbol c = true) :
    ReadsAsOperator s ↔ ¬ "//".toList <:+: s.toList := by
  constructor
  · intro alone
    have kinds := (alone .empty).1
    rcases kinds with operator | ⟨r, rfl, -⟩
    · have mem : .operator s ∈ (lex s .empty).kinds := by
        rw [operator]
        exact List.mem_cons_self
      obtain ⟨t, ht, kind⟩ := List.mem_map.1 mem
      exact (Lexeme.symbolRun_eq_length_iff.1 (symbolRun_of_operator ht kind).2).2
    · cases r <;> decide
  · intro slashes names
    have run := Lexeme.symbolRun_eq_length_iff.2 ⟨h, slashes⟩
    have first : ¬ "#!".toList <+: s.toList := fun first =>
      absurd (h '#' (first.subset List.mem_cons_self)) (by decide)
    have one : Lexeme.lexemes s.toList = [⟨.symbols, s.toList⟩] := by
      cases text : s.toList with
      | nil => exact absurd (String.toList_eq_nil_iff.1 text) nonempty
      | cons c cs =>
        rw [text] at run
        exact Lexeme.lexemes_symbols run
    obtain ⟨kinds, comments⟩ := lexChars_of_lexeme first one rfl names
    refine ⟨?_, comments⟩
    rcases Lexeme.symbolsKind_spelled s with operator | ⟨r, spelled, reserved⟩
    · rw [operator] at kinds
      exact .inl kinds
    · rw [reserved] at kinds
      exact .inr ⟨r, spelled, kinds⟩

/-- Behind a backtick symbols are read as a name, whatever they are. -/
theorem kinds_quoted {s : String} (nonempty : s ≠ "")
    (h : ∀ c ∈ s.toList, Lexeme.isSymbol c = true) (names : NameTable) :
    (lex (String.ofList (Lexeme.backtick :: s.toList)) names).kinds = [.symbolIdent s, .eof] := by
  have first : ¬ "#!".toList <+: Lexeme.backtick :: s.toList := by
    intro first
    exact absurd (List.cons_prefix_cons.1 first).1 (by decide)
  have one : Lexeme.lexemes (Lexeme.backtick :: s.toList)
      = [⟨.quotedSymbols, Lexeme.backtick :: s.toList⟩] := by
    cases text : s.toList with
    | nil => exact absurd (String.toList_eq_nil_iff.1 text) nonempty
    | cons c cs =>
      rw [text] at h
      exact Lexeme.lexemes_quotedSymbols h
  rw [lex, String.toList_ofList, (lexChars_of_lexeme first one rfl names).1, List.drop_one,
    List.tail_cons, String.ofList_toList]

/-! ## The operators and names of a source -/

/-- A name made of symbols consists of symbols. -/
theorem isSymbol_of_symbolIdent {cs : List Char} {names : NameTable} {t : Token} {s : String}
    (h : t ∈ (lexChars cs names).tokens.items.toList) (hk : t.kind = .symbolIdent s) :
    s ≠ "" ∧ ∀ c ∈ s.toList, Lexeme.isSymbol c = true := by
  obtain ⟨p, before, c, ds, cut, name, -⟩ :=
    exists_cutFrom_of_word h hk (TokenKind.ne_of_tag Tag.noConfusion) (TokenKind.ne_of_tag Tag.noConfusion)
  rcases Lexeme.name_of_kind? name rfl with ⟨-, other, -⟩ | ⟨kind, -, text⟩
  · cases other
  · obtain rfl : c = Lexeme.backtick := cut.opens kind
    obtain ⟨x, xs, run, symbols⟩ := Lexeme.of_quotedSymbols (cut.boundary kind)
    have spelled : s.toList = x :: xs := by
      rw [text, cut.text, ← run]
      rfl
    rw [spelled]
    refine ⟨fun empty => ?_, symbols⟩
    rw [empty] at spelled
    cases spelled

/-- An operator of a source is read alone as it is read there, and can be made a name by a backtick.
A name made of symbols is read alone as an operator if and only if there is no `//` in it. -/
theorem symbols_read_alone (source : String) (names : NameTable) {t : Token} {s : String}
    (h : t ∈ (lex source names).tokens.items.toList) :
    (t.kind = .operator s → ReadsAsOperator s ∧ ¬ "//".toList <:+: s.toList
      ∧ ∀ names', (lex (String.ofList (Lexeme.backtick :: s.toList)) names').kinds
        = [.symbolIdent s, .eof])
    ∧ (t.kind = .symbolIdent s → (ReadsAsOperator s ↔ ¬ "//".toList <:+: s.toList)) := by
  constructor
  · intro operator
    obtain ⟨nonempty, run⟩ := symbolRun_of_operator h operator
    obtain ⟨symbols, slashes⟩ := Lexeme.symbolRun_eq_length_iff.1 run
    exact ⟨(readsAsOperator_iff nonempty symbols).2 slashes, slashes, kinds_quoted nonempty symbols⟩
  · intro name
    obtain ⟨nonempty, symbols⟩ := isSymbol_of_symbolIdent h name
    exact readsAsOperator_iff nonempty symbols

/-- A name that is spelled like a reserved token is read alone as that token. -/
theorem symbols_read_alone_reserved :
    let out := lex "\x60.. + x" .empty
    let t : Token := ⟨.symbolIdent "..", ⟨0, 3⟩, .none⟩
    t ∈ out.tokens.items.toList ∧ (ReadsAsOperator ".." ↔ ¬ "//".toList <:+: "..".toList) := by
  intro out t
  have mem : t ∈ out.tokens.items.toList := by decide +kernel
  exact ⟨mem, (symbols_read_alone "\x60.. + x" .empty mem).2 rfl⟩

/-- A name that takes a comment with it: read alone, it is an operator and a comment. -/
theorem symbolIdent_with_comment :
    (∃ t ∈ (lex "\x60+//c" .empty).tokens.items.toList, t.kind = .symbolIdent "+//")
      ∧ ¬ ReadsAsOperator "+//" ∧ (lex "+//" .empty).kinds = [.operator "+", .eof]
      ∧ (lex "+//" .empty).comments.items = #[⟨"", ⟨1, 3⟩, .line⟩] := by
  obtain ⟨name, kinds, comments⟩ :
      (∃ t ∈ (lex "\x60+//c" .empty).tokens.items.toList, t.kind = .symbolIdent "+//")
        ∧ (lex "+//" .empty).kinds = [.operator "+", .eof]
        ∧ (lex "+//" .empty).comments.items = #[⟨"", ⟨1, 3⟩, .line⟩] := by
    decide +kernel
  refine ⟨name, fun alone => ?_, kinds, comments⟩
  have none := (alone .empty).2
  rw [comments] at none
  cases none

end Surface
