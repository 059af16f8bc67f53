import Mathlib.Data.List.TakeWhile
import Surface.Layout.Leaf
import Surface.Proofs.Lexing.Readings

/-!
# Tokens that are read as they are written

There is one way to write a token. A token is legible if a text that starts with it is read as that
token and then the rest, whatever the rest is, as long as it starts with nothing that would go on
with the token: a word ends before what is no part of words, a run of symbols before what is no
symbol.

Results:
* `TokenKind.written`, `TokenKind.EndsBefore`, `Legible`.
* `legible_keyword`, `legible_reserved`, `legible_punct`, `legible_symbolIdent`: words, symbols and
  punctuation.
* `legible_string`, `legible_char`: every string and every character, through its escapes.
-/

namespace Surface

/-! ## Writing tokens -/

namespace TokenKind

/-- A token as it is written. -/
def written : TokenKind → List Char
  | ident n => n.toList
  | symbolIdent n => Lexeme.backtick :: n.toList
  | operator s => s.toList
  | number n => n.text.toList
  | string s => (Layout.delimited '"' s.toList).toList
  | char c => (Layout.delimited '\'' [c]).toList
  | keyword k => k.text.toList
  | reserved r => r.text.toList
  | punct p => [p.char]
  | lineBreak => ['\n']
  | error _ | eof => []

/-- The characters that a token ends before. -/
def EndsBefore : TokenKind → Char → Prop
  | ident _, c | keyword _, c | char _, c => Lexeme.continuesWord c = false
  | number _, c => Lexeme.continuesWord c = false ∧ c ≠ '.'
  | symbolIdent _, c | operator _, c | reserved _, c => Lexeme.isSymbol c = false
  | _, _ => True

end TokenKind

namespace Lexeme

/-- A token that is read as it is written, before any text that it ends before. -/
def Legible (k : TokenKind) : Prop :=
  ∀ rest, HeadIn k.EndsBefore rest → signs (k.written ++ rest) = .token k :: signs rest

variable {p : Char → Bool} {c d : Char} {cs ds rest : List Char} {k : TokenKind}

theorem legible_of_boundary (kind : LexemeKind) (hw : k.written = c :: cs)
    (hk : kind? ⟨kind, c :: cs⟩ = some k)
    (hb : ∀ rest, HeadIn k.EndsBefore rest → boundary c (cs ++ rest) = (kind, cs.length)) :
    Legible k := by
  intro rest hr
  rw [hw, List.cons_append, signs_cons, hb rest hr]
  dsimp only
  rw [List.take_left, List.drop_left, Lexing.sign_token hk]
  rfl

/-! ## Runs -/

theorem takeWhile_append (hw : ∀ c ∈ cs, p c = true) (hr : HeadIn (fun c => p c = false) rest) :
    (cs ++ rest).takeWhile p = cs :=
  (takeWhile_behind hr cs).trans (List.takeWhile_eq_self_iff.2 hw)

theorem dropWhile_append (hw : ∀ c ∈ cs, p c = true) (hr : HeadIn (fun c => p c = false) rest) :
    (cs ++ rest).dropWhile p = rest := by
  rw [List.dropWhile_append_of_pos hw]
  cases rest with
  | nil => rfl
  | cons d ds => exact List.dropWhile_cons_of_neg (by simp [hr d rfl])

theorem runLength_append (hw : ∀ c ∈ cs, p c = true) (hr : HeadIn (fun c => p c = false) rest) :
    runLength p (cs ++ rest) = cs.length :=
  congrArg List.length (takeWhile_append hw hr)

theorem take_runLength (p : Char → Bool) (cs : List Char) :
    cs.take (runLength p cs) = cs.takeWhile p :=
  (List.prefix_iff_eq_take.1 (List.takeWhile_prefix p)).symm

theorem drop_runLength (p : Char → Bool) (cs : List Char) :
    cs.drop (runLength p cs) = cs.dropWhile p := by
  have parts := List.takeWhile_append_dropWhile (p := p) (l := cs)
  have same : cs.take (runLength p cs) ++ cs.drop (runLength p cs) = cs := List.take_append_drop _ _
  rw [take_runLength] at same
  exact List.append_cancel_left (same.trans parts.symm)

theorem of_mem_takeWhile : ∀ c ∈ cs.takeWhile p, p c = true :=
  List.all_eq_true.1 List.all_takeWhile

theorem beq_of_class (h : p c = true) {x : Char} (hx : p x = false) : (c == x) = false := by
  rw [beq_eq_false_iff_ne]
  rintro rfl
  rw [hx] at h
  cases h

/-! ## Words -/

theorem boundary_of_startsWord (h : startsWord c = true) (hq : c ≠ '\'') (cs : List Char) :
    boundary c cs = (.word, runLength continuesWord cs) := by
  have ne {x : Char} (hx : startsWord x = false) : (c == x) = false := beq_of_class h hx
  simp [boundary, isHorizontal, h, hq, ne (x := ' ') rfl, ne (x := '\t') rfl, ne (x := '\x0b') rfl,
    ne (x := '\x0c') rfl, ne (x := '\r') rfl, ne (x := '\n') rfl, ne (x := ';') rfl]

/-- A quote that a word starts with is not read as the quote of a character, whatever is behind
the word. -/
theorem quoteRest_append (hw : ∀ x ∈ d :: ds, continuesWord x = true) (hd : d = '\'' ∨ ds ≠ ['\''])
    (hr : HeadIn (fun c => continuesWord c = false) rest) :
    quoteRest (d :: (ds ++ rest)) = (.word, (d :: ds).length) := by
  have length : runLength continuesWord ((d :: ds) ++ rest) = (d :: ds).length :=
    runLength_append hw hr
  have plain : d ≠ '\\' := by
    rintro rfl
    exact absurd (hw _ List.mem_cons_self) (by decide)
  match ds, rest with
  | [], [] =>
    rw [← length]
    unfold quoteRest
    split <;> simp_all
  | [], x :: rest =>
    have : x ≠ '\'' := by
      rintro rfl
      exact absurd (hr _ rfl) (by decide)
    rw [← length]
    exact quoteRest_word plain this rest
  | x :: ds, rest =>
    by_cases hx : x = '\''
    · subst hx
      rw [List.cons_append, quoteRest_quoted plain, ← length, if_pos]
      · rfl
      rcases hd with rfl | hd
      · rfl
      · obtain ⟨y, ds, rfl⟩ := List.exists_cons_of_ne_nil fun e => hd (congrArg _ e)
        have : continuesWord y = true := hw y (by simp)
        rw [List.cons_append, List.head?_cons, Option.any_some, this, Bool.or_true]
    · rw [← length]
      exact quoteRest_word plain hx _

theorem headIn_dropWhile (p : Char → Bool) (cs : List Char) :
    HeadIn (fun c => p c = false) (cs.dropWhile p) := by
  intro c hc
  have := List.head?_dropWhile_not p cs
  rw [show (cs.dropWhile p).head? = some c from hc] at this
  exact this

/-- What follows a quote that a word starts with. -/
theorem quoteRest_of_word (h : (quoteRest cs).1 = .word) :
    (quoteRest cs).2 = runLength continuesWord cs
      ∧ ∀ d ds, cs.takeWhile continuesWord = d :: ds → d = '\'' ∨ ds ≠ ['\''] := by
  constructor
  · revert h
    unfold quoteRest
    dsimp only
    split
    · exact nofun
    · split
      · exact nofun
      · split <;> exact nofun
    · split
      · exact fun _ => rfl
      · exact nofun
    · exact fun _ => rfl
  · intro d ds hd
    refine Decidable.or_iff_not_imp_left.2 fun quote last => ?_
    subst last
    -- what is cut would be a character, unless the word went on
    have goes : continuesWord d = true :=
      of_mem_takeWhile d (by rw [hd]; exact List.mem_cons_self)
    have parts := List.takeWhile_append_dropWhile (p := continuesWord) (l := cs)
    rw [hd] at parts
    have stops : (cs.dropWhile continuesWord).head?.any continuesWord = false := by
      cases hh : (cs.dropWhile continuesWord).head? with
      | none => rfl
      | some c => exact headIn_dropWhile continuesWord cs c hh
    have plain : d ≠ '\\' := by
      rintro rfl
      exact absurd goes (by decide)
    have inside : endsLine d = false := by
      unfold endsLine
      rw [beq_of_class goes rfl, beq_of_class goes rfl]
      rfl
    rw [← parts] at h
    change (quoteRest (d :: '\'' :: cs.dropWhile continuesWord)).1 = .word at h
    rw [quoteRest_quoted plain, beq_false_of_ne quote, inside, stops] at h
    cases h

theorem Legible.word (hw : k.written = c :: cs) (hk : wordKind (c :: cs) = k)
    (he : ∀ x, k.EndsBefore x → continuesWord x = false) (hc : startsWord c = true)
    (hcs : ∀ x ∈ cs, continuesWord x = true)
    (hq : c = '\'' → ∃ d ds, cs = d :: ds ∧ (d = '\'' ∨ ds ≠ ['\''])) : Legible k := by
  refine legible_of_boundary .word hw (congrArg some hk) fun rest hr => ?_
  have hr : HeadIn (fun c => continuesWord c = false) rest := fun x hx => he x (hr x hx)
  by_cases h : c = '\''
  · obtain ⟨d, ds, rfl, hd⟩ := hq h
    rw [h]
    exact quoteRest_append hcs hd hr
  · rw [boundary_of_startsWord hc h, runLength_append hcs hr]

theorem legible_keyword (w : Keyword) : Legible (.keyword w) := by
  cases w <;> exact .word rfl rfl (fun _ h => h) rfl (List.all_eq_true.1 rfl) nofun

/-! ## Symbols -/

theorem of_isSymbol (h : isSymbol c = true) : startsWord c = false ∧ isDigit c = false := by
  unfold isSymbol at h
  simp only [Bool.or_eq_true, beq_iff_eq] at h
  rcases h with ((((((((((((((rfl | rfl) | rfl) | rfl) | rfl) | rfl) | rfl) | rfl) | rfl) | rfl)
    | rfl) | rfl) | rfl) | rfl) | rfl) | rfl <;> exact ⟨rfl, rfl⟩

theorem boundary_of_isSymbol (h : isSymbol c = true)
    (hs : (c == '/' && cs.head? == some '/') = false) :
    boundary c cs = (.symbols, symbolRun 0 cs) := by
  have ne {x : Char} (hx : isSymbol x = false) : (c == x) = false := beq_of_class h hx
  obtain ⟨word, digit⟩ := of_isSymbol h
  simp only [boundary, isHorizontal, h, hs, word, digit, ne (x := ' ') rfl, ne (x := '\t') rfl,
    ne (x := '\x0b') rfl, ne (x := '\x0c') rfl, ne (x := '\r') rfl, ne (x := '\n') rfl,
    ne (x := ';') rfl, ne (x := '\'') rfl, ne (x := '"') rfl, ne (x := backtick) rfl,
    Bool.false_and, Bool.or_self, Bool.false_eq_true, if_false, if_true]

theorem symbolRun_eq (taken : Nat) (cs : List Char) :
    symbolRun taken cs = taken + symbolRun 0 cs := by
  induction cs generalizing taken with
  | nil => rfl
  | cons c cs ih =>
    rw [symbolRun, symbolRun]
    split
    · rw [ih (taken + 1), ih (0 + 1)]
      omega
    · rfl

theorem slashes_append (h : (c == '/' && cs.head? == some '/') = false)
    (hr : HeadIn (fun c => isSymbol c = false) rest) :
    (c == '/' && (cs ++ rest).head? == some '/') = false := by
  cases cs with
  | cons => exact h
  | nil =>
    refine Bool.and_eq_false_imp.2 fun _ => beq_eq_false_iff_ne.2 fun e => ?_
    exact absurd (hr '/' e) (by decide)

theorem slashes_take (h : (c == '/' && cs.head? == some '/') = false) (n : Nat) :
    (c == '/' && (cs.take n).head? == some '/') = false := by
  cases n with
  | zero => rw [List.take_zero]; exact Bool.and_false _
  | succ n =>
    cases cs with
    | nil => exact h
    | cons => exact h

/-- A run of symbols ends before what is no symbol. -/
theorem symbolRun_append (hcs : symbolRun 0 cs = cs.length)
    (hr : HeadIn (fun c => isSymbol c = false) rest) : symbolRun 0 (cs ++ rest) = cs.length := by
  induction cs with
  | nil =>
    cases rest with
    | nil => rfl
    | cons d ds => rw [List.nil_append, symbolRun, hr d rfl]; rfl
  | cons c cs ih =>
    rw [symbolRun] at hcs
    rw [List.cons_append, symbolRun]
    split at hcs
    · next goes =>
      rw [Bool.and_eq_true, Bool.not_eq_true'] at goes
      rw [symbolRun_eq, List.length_cons, Nat.add_comm] at hcs
      rw [goes.1, slashes_append goes.2 hr, Bool.not_false, Bool.and_self, if_pos rfl, symbolRun_eq,
        ih (Nat.succ.inj hcs), List.length_cons, Nat.add_comm]
    · cases hcs

/-- A run of symbols that is cut off is a run of its own. -/
theorem symbolRun_take (cs : List Char) :
    symbolRun 0 (cs.take (symbolRun 0 cs)) = (cs.take (symbolRun 0 cs)).length := by
  induction cs with
  | nil => rfl
  | cons c cs ih =>
    rw [symbolRun]
    split
    · next goes =>
      rw [Bool.and_eq_true, Bool.not_eq_true'] at goes
      rw [symbolRun_eq (0 + 1), Nat.zero_add, Nat.add_comm, List.take_succ_cons, symbolRun, goes.1,
        slashes_take goes.2, Bool.not_false, Bool.and_self, if_pos rfl, symbolRun_eq, ih,
        List.length_cons, Nat.add_comm]
    · rfl

theorem Legible.symbols (hw : k.written = c :: cs) (hk : symbolsKind (c :: cs) = k)
    (he : ∀ x, k.EndsBefore x → isSymbol x = false) (hc : isSymbol c = true)
    (hs : (c == '/' && cs.head? == some '/') = false) (hcs : symbolRun 0 cs = cs.length) :
    Legible k := by
  refine legible_of_boundary .symbols hw (congrArg some hk) fun rest hr => ?_
  have hr : HeadIn (fun c => isSymbol c = false) rest := fun x hx => he x (hr x hx)
  rw [boundary_of_isSymbol hc (slashes_append hs hr), symbolRun_append hcs hr]

theorem legible_reserved (r : Reserved) : Legible (.reserved r) := by
  cases r <;> exact .symbols rfl rfl (fun _ h => h) rfl rfl rfl

theorem legible_punct (p : Punct) : Legible (.punct p) := by
  intro rest _
  cases p <;> exact signs_cons _ rest

theorem legible_symbolIdent {n : String} (h : n ≠ "") (hn : ∀ c ∈ n.toList, isSymbol c = true) :
    Legible (.symbolIdent n) := by
  have name : String.ofList ((backtick :: n.toList).drop 1) = n := String.ofList_toList
  refine legible_of_boundary .quotedSymbols rfl
    (congrArg (fun s => some (TokenKind.symbolIdent s)) name) fun rest hr => ?_
  have length := runLength_append hn hr
  have pos : n.toList.length ≠ 0 := by simpa using h
  show (if runLength isSymbol (n.toList ++ rest) == 0 then (LexemeKind.unknown, 0)
    else (.quotedSymbols, runLength isSymbol (n.toList ++ rest))) = _
  rw [length, if_neg (by simpa using pos)]

/-! ## Strings and characters -/

open Layout (delimitedChar)

/-- A character between quotes is escaped, or needs no escape. -/
theorem delimitedChar_cases (hd : decodeEscape d = d) (hl : endsLine d = false) (c : Char) :
    (∃ x, delimitedChar d c = ['\\', x] ∧ endsLine x = false ∧ decodeEscape x = c)
      ∨ delimitedChar d c = [c] ∧ c ≠ d ∧ c ≠ '\\' ∧ endsLine c = false := by
  unfold delimitedChar
  by_cases newline : c = '\n'
  · exact .inl ⟨'n', by rw [if_pos newline], rfl, newline.symm⟩
  by_cases tab : c = '\t'
  · exact .inl ⟨'t', by rw [if_neg newline, if_pos tab], rfl, tab.symm⟩
  by_cases carriage : c = '\r'
  · exact .inl ⟨'r', by rw [if_neg newline, if_neg tab, if_pos carriage], rfl, carriage.symm⟩
  by_cases null : c = '\x00'
  · exact .inl ⟨'0', by rw [if_neg newline, if_neg tab, if_neg carriage, if_pos null], rfl, null.symm⟩
  rw [if_neg newline, if_neg tab, if_neg carriage, if_neg null]
  by_cases escaped : c = '\\' ∨ c = d
  · refine .inl ⟨c, by simp [escaped], ?_⟩
    rcases escaped with rfl | rfl
    · exact ⟨rfl, rfl⟩
    · exact ⟨hl, hd⟩
  · rw [not_or] at escaped
    exact .inr ⟨by simp [escaped], escaped.2, escaped.1, by simp [endsLine, newline, carriage]⟩

theorem stringRest_delimited (taken : Nat) (cs rest : List Char) :
    stringRest taken (cs.flatMap (delimitedChar '"') ++ '"' :: rest)
      = (.string, taken + (cs.flatMap (delimitedChar '"')).length + 1) := by
  induction cs generalizing taken with
  | nil => rfl
  | cons c cs ih =>
    rw [List.flatMap_cons, List.append_assoc, List.length_append]
    rcases delimitedChar_cases (d := '"') rfl rfl c with ⟨x, e, line, -⟩ | ⟨e, quote, plain, line⟩
    · rw [e, List.cons_append, List.cons_append, List.nil_append, stringRest, line,
        if_neg Bool.false_ne_true, ih, Nat.add_assoc taken]
      rfl
    · rw [e, List.cons_append, List.nil_append, stringRest_plain quote plain, line,
        if_neg Bool.false_ne_true, ih, Nat.add_assoc taken]
      rfl

theorem decodeOnto_delimited (done : Array Char) (cs : List Char) :
    (decodeOnto done (cs.flatMap (delimitedChar '"'))).toList = done.toList ++ cs := by
  induction cs generalizing done with
  | nil => exact (List.append_nil _).symm
  | cons c cs ih =>
    have step : decodeOnto done (delimitedChar '"' c ++ cs.flatMap (delimitedChar '"'))
        = decodeOnto (done.push c) (cs.flatMap (delimitedChar '"')) := by
      rcases delimitedChar_cases (d := '"') rfl rfl c with ⟨x, e, -, rfl⟩ | ⟨e, -, plain, -⟩
      · rw [e]
        rfl
      · rw [e]
        exact decodeOnto.eq_4 done c _ (fun e => absurd e plain) fun _ _ e => absurd e plain
    rw [List.flatMap_cons, step, ih, Array.toList_push, List.append_assoc]
    rfl

theorem legible_string (s : String) : Legible (.string s) := by
  have written : (TokenKind.string s).written
      = '"' :: (s.toList.flatMap (delimitedChar '"') ++ ['"']) := String.toList_ofList
  refine legible_of_boundary .string written ?_ fun rest _ => ?_
  · have inner : unquoted ('"' :: (s.toList.flatMap (delimitedChar '"') ++ ['"']))
        = s.toList.flatMap (delimitedChar '"') := List.dropLast_concat
    show some (TokenKind.string (String.ofList (decodeString (unquoted _)))) = _
    rw [inner, decodeString, decodeOnto_delimited]
    exact congrArg (fun s => some (TokenKind.string s)) String.ofList_toList
  · rw [List.append_assoc]
    show stringRest 0 (_ ++ '"' :: rest) = _
    rw [stringRest_delimited, Nat.zero_add, List.length_append]
    rfl

theorem legible_char (c : Char) : Legible (.char c) := by
  have written : (TokenKind.char c).written = '\'' :: (delimitedChar '\'' c ++ ['\'']) := by
    refine String.toList_ofList.trans ?_
    rw [List.flatMap_cons, List.flatMap_nil, List.append_nil]
  rcases delimitedChar_cases (d := '\'') rfl rfl c with ⟨x, e, line, rfl⟩ | ⟨e, quote, plain, line⟩
  · rw [e] at written
    refine legible_of_boundary .char written rfl fun rest _ => ?_
    show (if endsLine x then _ else _) = _
    rw [line]
    rfl
  · rw [e] at written
    refine legible_of_boundary .char written ?_ fun rest hr => ?_
    · have decoded : decodeChar? (unquoted ('\'' :: ([c] ++ ['\'']))) = some c :=
        decodeChar?.eq_4 c _ (fun e => absurd e plain) fun _ _ e => absurd e plain
      simp only [kind?, decoded]
    · have behind : rest.head?.any continuesWord = false := by
        cases h : rest.head? with
        | none => rfl
        | some x => exact hr x h
      show quoteRest (c :: '\'' :: rest) = _
      rw [quoteRest_quoted plain, beq_false_of_ne quote, line, behind]
      rfl

end Lexeme

end Surface
