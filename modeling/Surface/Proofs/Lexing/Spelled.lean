import Mathlib.Data.List.DropRight
import Surface.Layout.Syntax
import Surface.Proofs.Lexing.Numerals

/-!
# Tokens of texts as they are written

What stands in a text can be written again: each token that a lexeme stands for is legible, with one
exception. A single quote alone is a name, but what is written behind it may make it the first quote
of a character.

Results:
* `legible_of_mem`, `nameText_of_mem`, `proper_of_mem`, `line_of_comment`: the lexemes of a text.
* `kind_of_lexChars`, `onLines_lexChars`: its tokens and its comments.
-/

namespace Surface

namespace Lexeme

variable {c : Char} {cs ds rest : List Char} {k : TokenKind}

/-! ## Lexemes -/

/-- Which characters lexemes of a kind start with. -/
def OpensKind : LexemeKind → Char → Prop
  | .word, c => startsWord c = true
  | .number _ _, c => isDigit c = true
  | .symbols, c => isSymbol c = true
  | .quotedSymbols, c => c = backtick
  | .lineComment, c | .docComment, c => c = '/'
  | _, _ => True

theorem opensKind_ite {r : Prop} [Decidable r] {u v : LexemeKind × Nat} (hu : r → OpensKind u.1 c)
    (hv : OpensKind v.1 c) : OpensKind (if r then u else v).1 c := by
  split
  · next h => exact hu h
  · exact hv

theorem quoteRest_opensKind (h : startsWord c = true) (cs : List Char) :
    OpensKind (quoteRest cs).1 c := by
  unfold quoteRest
  dsimp only
  split
  · trivial
  · exact opensKind_ite (fun _ => trivial) (opensKind_ite (fun _ => trivial) trivial)
  · exact opensKind_ite (fun _ => h) trivial
  · exact h

theorem numberRest_opensKind (h : isDigit c = true) (cs : List Char) :
    OpensKind (numberRest c cs).1 c := by
  unfold numberRest
  split
  · exact h
  · dsimp only
    split
    · exact opensKind_ite (fun _ => h) h
    · exact h

theorem stringRest_opensKind (c : Char) (taken : Nat) (cs : List Char) :
    OpensKind (stringRest taken cs).1 c := by
  fun_induction stringRest taken cs <;> first | assumption | trivial

theorem boundary_opensKind (c : Char) (cs : List Char) : OpensKind (boundary c cs).1 c := by
  unfold boundary
  refine opensKind_ite (fun _ => trivial) (opensKind_ite (fun _ => trivial) ?_)
  refine opensKind_ite (fun _ => trivial) (opensKind_ite (fun _ => trivial) ?_)
  refine opensKind_ite (fun h => quoteRest_opensKind (by rw [beq_iff_eq.1 h]; rfl) cs) ?_
  refine opensKind_ite id (opensKind_ite (fun h => numberRest_opensKind h cs) ?_)
  refine opensKind_ite (fun _ => stringRest_opensKind c 0 cs) (opensKind_ite (fun h => ?_) ?_)
  · exact opensKind_ite (fun _ => trivial) (beq_iff_eq.1 h)
  refine opensKind_ite (fun h => ?_) (opensKind_ite id ?_)
  · have slash : c = '/' := beq_iff_eq.1 (Bool.and_eq_true_iff.1 h).1
    dsimp only
    split <;> exact slash
  · split <;> trivial

theorem mem_lexemes {l : Lexeme} (h : l ∈ lexemes cs) :
    ∃ c ds, l = ⟨(boundary c ds).1, c :: ds.take (boundary c ds).2⟩ := by
  generalize hn : cs.length = n
  induction n using Nat.strongRecOn generalizing cs with
  | ind n ih =>
    cases cs with
    | nil =>
      rw [lexemes_nil] at h
      cases h
    | cons c cs =>
      rw [lexemes_cons] at h
      rcases List.mem_cons.1 h with rfl | h
      · exact ⟨c, cs, rfl⟩
      · exact ih _ (by rw [← hn, List.length_drop, List.length_cons]; omega) h rfl

/-- A word that is cut from a text is the whole run of its characters, also behind a quote, where it is
no character in quotes. -/
theorem take_of_word {n : Nat} (hc : startsWord c = true) (hb : boundary c ds = (.word, n)) :
    ds.take n = ds.takeWhile continuesWord
      ∧ (c = '\'' → ∀ x xs, ds.takeWhile continuesWord = x :: xs → x = '\'' ∨ xs ≠ ['\'']) := by
  by_cases h : c = '\''
  · subst h
    have hb : quoteRest ds = (.word, n) := hb
    obtain ⟨length, plain⟩ := quoteRest_of_word (by rw [hb])
    rw [hb] at length
    rw [show n = _ from length, take_runLength]
    exact ⟨rfl, fun _ => plain⟩
  · rw [boundary_of_startsWord hc h] at hb
    cases hb
    exact ⟨take_runLength _ _, fun e => absurd e h⟩

/-- A word is read again as it is written, unless it is a single quote. -/
theorem legible_of_word {n : Nat} (hc : startsWord c = true) (hb : boundary c ds = (.word, n))
    (hk : kind? ⟨.word, c :: ds.take n⟩ = some k) (hq : k ≠ .ident "'") : Legible k := by
  have cut := take_of_word hc hb
  rw [cut.1] at hk
  have kind : wordKind (c :: ds.takeWhile continuesWord) = k := Option.some.inj hk
  rcases Lexing.wordKind_cases (c :: ds.takeWhile continuesWord) with ⟨w, keyword⟩ | name
  · rw [← kind, keyword]
    exact legible_keyword w
  · have name := kind.symm.trans name
    refine .word (by rw [name]; exact String.toList_ofList) kind (fun x hx => ?_) hc
      of_mem_takeWhile fun quote => ?_
    · rw [name] at hx
      exact hx
    · match h : ds.takeWhile continuesWord with
      | [] =>
        rw [quote, h] at name
        exact absurd name hq
      | x :: xs => exact ⟨x, xs, rfl, cut.2 quote x xs h⟩

/-- A run of symbols starts with no `//` and ends before the first one. -/
theorem of_symbols {n : Nat} (hc : isSymbol c = true) (hb : boundary c ds = (.symbols, n)) :
    (c == '/' && ds.head? == some '/') = false ∧ n = symbolRun 0 ds := by
  have slashes : (c == '/' && ds.head? == some '/') = false := by
    refine Bool.and_eq_false_imp.2 fun slash => beq_eq_false_iff_ne.2 fun head => ?_
    obtain ⟨xs, rfl⟩ := List.head?_eq_some_iff.1 head
    rw [beq_iff_eq.1 slash] at hb
    have kind : (if xs.head? == some '!' then LexemeKind.docComment else .lineComment) = .symbols :=
      congrArg Prod.fst hb
    split at kind <;> cases kind
  rw [boundary_of_isSymbol hc slashes] at hb
  exact ⟨slashes, (congrArg Prod.snd hb).symm⟩

theorem legible_of_symbols {n : Nat} (hc : isSymbol c = true) (hb : boundary c ds = (.symbols, n))
    (hk : kind? ⟨.symbols, c :: ds.take n⟩ = some k) : Legible k := by
  obtain ⟨slashes, rfl⟩ := of_symbols hc hb
  have kind : symbolsKind (c :: ds.take (symbolRun 0 ds)) = k := Option.some.inj hk
  rcases Lexing.symbolsKind_cases (c :: ds.take (symbolRun 0 ds)) with ⟨r, reserved⟩ | operator
  · rw [← kind, reserved]
    exact legible_reserved r
  · have operator := kind.symm.trans operator
    refine .symbols (by rw [operator]; exact String.toList_ofList) kind (fun x hx => ?_) hc
      (slashes_take slashes _) (symbolRun_take ds)
    rw [operator] at hx
    exact hx

/-- A number is a number lexeme. -/
theorem number_of_kind? {l : Lexeme} {n : Number} (hk : l.kind? = some (.number n)) :
    ∃ b f, l.kind = .number b f ∧ n = numberOf b f l.text := by
  obtain ⟨kind, text⟩ := l
  cases kind with
  | number b f =>
    cases hk
    exact ⟨b, f, rfl, rfl⟩
  | word =>
    have word : wordKind text = .number n := Option.some.inj hk
    rcases Lexing.wordKind_cases text with ⟨w, other⟩ | other <;> cases other.symm.trans word
  | symbols =>
    have symbols : symbolsKind text = .number n := Option.some.inj hk
    rcases Lexing.symbolsKind_cases text with ⟨r, other⟩ | other <;> cases other.symm.trans symbols
  | char =>
    unfold kind? at hk
    dsimp only at hk
    split at hk <;> cases hk
  | _ => cases hk

/-- The numbers of a text are written without a choice. -/
theorem proper_of_mem {l : Lexeme} {n : Number} (hl : l ∈ lexemes cs)
    (hk : l.kind? = some (.number n)) : n.Proper := by
  obtain ⟨c, ds, rfl⟩ := mem_lexemes hl
  obtain ⟨b, f, kind, rfl⟩ := number_of_kind? hk
  have kind : (boundary c ds).1 = .number b f := kind
  have opens := boundary_opensKind c ds
  rw [kind] at opens
  exact proper_numberOf opens ((boundary_of_isDigit opens ds).symm.trans (Prod.ext kind rfl))

/-- Behind a backtick stands at least one symbol. -/
theorem of_quotedSymbols {n : Nat} (hb : boundary backtick ds = (.quotedSymbols, n)) :
    ∃ x xs, ds.take n = x :: xs ∧ ∀ c ∈ x :: xs, isSymbol c = true := by
  have hb : (if runLength isSymbol ds == 0 then (LexemeKind.unknown, 0)
    else (.quotedSymbols, runLength isSymbol ds)) = (.quotedSymbols, n) := hb
  split at hb
  · cases hb
  · next some =>
    cases hb
    rw [take_runLength]
    cases h : ds.takeWhile isSymbol with
    | nil =>
      refine absurd ?_ some
      rw [runLength, h]
      rfl
    | cons x xs => exact ⟨x, xs, rfl, fun c hc => of_mem_takeWhile c (h ▸ hc)⟩

/-- Every token of a text is read as it is written, except the name that is a single quote. -/
theorem legible_of_mem {l : Lexeme} {k : TokenKind} (hl : l ∈ lexemes cs) (hk : l.kind? = some k)
    (he : k.tag ≠ .error) (hq : k ≠ .ident "'") : Legible k := by
  obtain ⟨c, ds, rfl⟩ := mem_lexemes hl
  have opens := boundary_opensKind c ds
  generalize hb : boundary c ds = out at *
  obtain ⟨kind, n⟩ := out
  cases kind with
  | word => exact legible_of_word opens hb hk hq
  | quotedSymbols =>
    have opens : c = backtick := opens
    subst opens
    obtain ⟨x, xs, run, symbols⟩ := of_quotedSymbols hb
    cases hk
    show Legible (.symbolIdent (String.ofList (ds.take n)))
    rw [run]
    refine legible_symbolIdent (fun none => ?_) fun c hc => ?_
    · have empty := congrArg String.toList none
      rw [String.toList_ofList] at empty
      cases empty
    · rw [String.toList_ofList] at hc
      exact symbols c hc
  | symbols => exact legible_of_symbols opens hb hk
  | number b f =>
    cases hk
    exact legible_number (proper_of_mem hl rfl)
  | string => cases hk; exact legible_string _
  | char =>
    unfold kind? at hk
    dsimp only at hk
    split at hk <;> cases hk
    · exact legible_char _
    · exact absurd rfl he
  | punct p => cases hk; exact legible_punct p
  | unknown | openString | openChar => cases hk; exact absurd rfl he
  | _ => cases hk

/-- A name is a word, or symbols behind a backtick. -/
theorem name_of_kind? {l : Lexeme} {n : String} (hk : l.kind? = some k) (hn : k.name? = some n) :
    l.kind = .word ∧ k = .ident n ∧ n.toList = l.text
      ∨ l.kind = .quotedSymbols ∧ k = .symbolIdent n ∧ n.toList = l.text.drop 1 := by
  obtain ⟨kind, text⟩ := l
  cases kind with
  | word =>
    obtain rfl : wordKind text = k := Option.some.inj hk
    rcases Lexing.wordKind_cases text with ⟨w, keyword⟩ | name
    · rw [keyword] at hn
      cases hn
    · rw [name] at hn
      cases hn
      exact .inl ⟨rfl, name, String.toList_ofList⟩
  | quotedSymbols =>
    cases hk
    cases hn
    exact .inr ⟨rfl, rfl, String.toList_ofList⟩
  | symbols =>
    obtain rfl : symbolsKind text = k := Option.some.inj hk
    rcases Lexing.symbolsKind_cases text with ⟨r, reserved⟩ | operator
    · rw [reserved] at hn
      cases hn
    · rw [operator] at hn
      cases hn
  | char =>
    unfold kind? at hk
    dsimp only at hk
    split at hk <;> cases hk <;> cases hn
  | _ => cases hk <;> cases hn

/-- A name is printed as it is written. -/
theorem nameText_of_mem {l : Lexeme} {n : String} (hl : l ∈ lexemes cs) (hk : l.kind? = some k)
    (hn : k.name? = some n) : (Layout.nameText n).toList = k.written := by
  obtain ⟨c, ds, rfl⟩ := mem_lexemes hl
  have opens := boundary_opensKind c ds
  unfold Layout.nameText
  rcases name_of_kind? hk hn with ⟨kind, rfl, text⟩ | ⟨kind, rfl, text⟩
  · rw [show (boundary c ds).1 = .word from kind] at opens
    have opens : Layout.startsName c = true := opens
    rw [text, List.head?_cons, Option.any_some, if_pos opens]
    rfl
  · have kind : (boundary c ds).1 = .quotedSymbols := kind
    rw [kind] at opens
    have opens : c = backtick := opens
    subst opens
    obtain ⟨x, xs, run, symbols⟩ := of_quotedSymbols (Prod.ext kind rfl)
    have text : n.toList = ds.take (boundary backtick ds).2 := text
    have other : Layout.startsName x = false := (of_isSymbol (symbols x List.mem_cons_self)).1
    rw [text, run, List.head?_cons, Option.any_some, other, if_neg Bool.false_ne_true,
      String.toList_append]
    rfl

/-- A slash starts a comment or a run of symbols. -/
theorem boundary_slash (ds : List Char) : boundary '/' ds = if ds.head? == some '/' then
    (if ds.tail.head? == some '!' then .docComment else .lineComment, lineRest ds)
  else (.symbols, symbolRun 0 ds) := rfl

/-- A comment ends with its line. -/
theorem line_of_comment {l : Lexeme} (hl : l ∈ lexemes cs)
    (hk : l.kind = .lineComment ∨ l.kind = .docComment) : ∀ c ∈ l.text, endsLine c = false := by
  obtain ⟨c, ds, rfl⟩ := mem_lexemes hl
  have opens := boundary_opensKind c ds
  have slash : c = '/' := by
    rcases hk with hk | hk <;> rw [show (boundary c ds).1 = _ from hk] at opens <;> exact opens
  subst slash
  have hk : (boundary '/' ds).1 = .lineComment ∨ (boundary '/' ds).1 = .docComment := hk
  have cut : (boundary '/' ds).2 = lineRest ds := by
    rw [boundary_slash] at hk ⊢
    split
    · rfl
    · next other =>
      rw [if_neg other] at hk
      rcases hk with hk | hk <;> cases hk
  rw [cut]
  refine List.forall_mem_cons.2 ⟨by decide, fun c hc => ?_⟩
  rw [lineRest, take_runLength] at hc
  simpa using of_mem_takeWhile c hc

/-! ## Tokens and comments of whole texts -/

end Lexeme

/-! ## Trimmed texts -/

namespace Text

theorem dropEndWhile_eq (p : Char → Bool) (cs : List Char) :
    ∃ ds, cs = dropEndWhile p cs ++ ds ∧ ∀ c ∈ ds, p c = true := by
  refine ⟨(cs.reverse.takeWhile p).reverse, ?_, fun c hc => ?_⟩
  · rw [dropEndWhile, ← List.reverse_append, List.takeWhile_append_dropWhile, List.reverse_reverse]
  · exact Lexeme.of_mem_takeWhile c (List.mem_reverse.1 hc)

theorem dropEndWhile_cons {p : Char → Bool} {c : Char} (h : p c = false) (cs : List Char) :
    dropEndWhile p (c :: cs) = c :: dropEndWhile p cs := by
  have last (ds : List Char) : (ds ++ [c]).dropWhile p = ds.dropWhile p ++ [c] := by
    induction ds with
    | nil => exact List.dropWhile_cons_of_neg (by simp [h])
    | cons d ds ih =>
      rw [List.cons_append, List.dropWhile_cons, List.dropWhile_cons, ih]
      split <;> rfl
  unfold dropEndWhile
  rw [List.reverse_cons, last, List.reverse_append]
  rfl

theorem mem_of_mem_dropEndWhile {p : Char → Bool} {c : Char} {cs : List Char}
    (h : c ∈ dropEndWhile p cs) : c ∈ cs := by
  obtain ⟨ds, split, -⟩ := dropEndWhile_eq p cs
  rw [split]
  exact List.mem_append_left ds h

theorem dropEndWhile_dropEndWhile (p : Char → Bool) (cs : List Char) :
    dropEndWhile p (dropEndWhile p cs) = dropEndWhile p cs := by
  unfold dropEndWhile
  rw [List.reverse_reverse, List.dropWhile_idempotent]

/-- A text without blanks at its ends has none. -/
theorem trim_trim (cs : List Char) : trim (trim cs) = trim cs := by
  unfold trim trimEnd
  cases h : cs.dropWhile isBlank with
  | nil => rfl
  | cons c ds =>
    have first : isBlank c = false := by
      have head := List.head_dropWhile_not isBlank (l := cs) (by rw [h]; exact List.cons_ne_nil _ _)
      simpa only [h, List.head_cons] using head
    rw [dropEndWhile_cons first, List.dropWhile_cons_of_neg (by simp [first]), dropEndWhile_cons first,
      dropEndWhile_dropEndWhile]

theorem mem_of_mem_trim {c : Char} {cs : List Char} (h : c ∈ trim cs) : c ∈ cs :=
  (List.dropWhile_sublist _).mem (mem_of_mem_dropEndWhile h)

end Text

namespace Lexing

/-- Whether all comments so far lie on one line. -/
def OnLines (st : Lexing) : Prop :=
  ∀ c ∈ st.comments.items, ∀ x ∈ c.content.toList, Lexeme.endsLine x = false

theorem onLines_take {st : Lexing} {l : Lexeme} (h : st.OnLines)
    (hl : l.kind = .lineComment ∨ l.kind = .docComment → ∀ c ∈ l.text, Lexeme.endsLine c = false) :
    (st.take l).OnLines := by
  rcases take_cases st l with ⟨_, e⟩ | ⟨_, _, e⟩ | ⟨k, n, hk, e⟩ | ⟨kind, names, _, e⟩ <;> rw [e]
  · exact h
  · exact h
  · intro c hc
    rcases Array.mem_push.1 hc with hc | rfl
    · exact h c hc
    · intro x hx
      have inside : x ∈ l.text.drop n := Text.mem_of_mem_trim (by rwa [String.toList_ofList] at hx)
      refine hl ?_ x (List.mem_of_mem_drop inside)
      rcases hk with ⟨hk, -⟩ | ⟨hk, -⟩
      · exact .inl hk
      · exact .inr hk
  · exact h

theorem onLines_foldl {st : Lexing} (h : st.OnLines) {ls : List Lexeme}
    (hls : ∀ l ∈ ls, l.kind = .lineComment ∨ l.kind = .docComment →
      ∀ c ∈ l.text, Lexeme.endsLine c = false) : (ls.foldl take st).OnLines := by
  induction ls generalizing st with
  | nil => exact h
  | cons l ls ih =>
    obtain ⟨first, rest⟩ := List.forall_mem_cons.1 hls
    exact ih (onLines_take h first) rest

end Lexing

open Lexeme (lexemes)

/-- The tokens of a text are line breaks, its end and what its lexemes stand for. -/
theorem kind_of_lexChars {cs : List Char} {names : NameTable} {t : Token}
    (h : t ∈ (lexChars cs names).tokens.items.toList) :
    t.kind = .lineBreak ∨ t.kind = .eof
      ∨ ∃ l ∈ lexemes (behindShebang cs), l.kind? = some t.kind := by
  have reading : t.reading ∈ (lexChars cs names).tokens.readings := List.mem_map_of_mem h
  rw [lexChars_readings] at reading
  rcases List.mem_append.1 reading with reading | reading
  · rcases Lexeme.mem_told reading with lineBreak | sign
    · exact .inl lineBreak
    · exact .inr (.inr (Lexeme.mem_signs sign))
  · rcases List.mem_append.1 reading with reading | reading
    · refine .inl ?_
      revert reading
      generalize Lexeme.untold none _ = pending
      intro reading
      cases pending with
      | none => cases reading
      | some b => exact congrArg Prod.fst (List.mem_singleton.1 reading)
    · exact .inr (.inl (congrArg Prod.fst (List.mem_singleton.1 reading)))

/-- The comments of a text lie on one line each. -/
theorem onLines_lexChars (cs : List Char) (names : NameTable) :
    ∀ c ∈ (lexChars cs names).comments.items, ∀ x ∈ c.content.toList, Lexeme.endsLine x = false :=
  have none : (Lexing.start names (shebangLength cs)).OnLines := fun c hc =>
    absurd hc (Array.not_mem_empty c)
  Lexing.onLines_foldl none fun _ hl => Lexeme.line_of_comment hl

end Surface
