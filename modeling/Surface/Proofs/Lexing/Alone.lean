import Surface.Proofs.Lexing.Documentation
import Surface.Proofs.Lexing.Gaps
import Surface.Proofs.Lexing.SymbolNames

/-!
# Tokens that are read alone

Where a lexeme ends is decided with a look at what stands behind it: a quote behind a character, a digit
behind a dot, a second slash, a newline behind a carriage return. Without what stands behind it a lexeme
ends where it ended, so that a token is what its own text is read as. A line break is read from a run of
lexemes, its separators with the blanks and comments between them, and they are cut there as well.

Results:
* `Lexeme.boundary_take`: a lexeme alone.
* `Lexeme.lexemes_gap`: blanks, comments and separators that follow each other, alone.
* `Origin`: the lexemes that a token is read from; `lexChars_origin`: every token has them.
* `lex_alone`: the text of a token is read alone as this token.
-/

namespace Surface

open Text (byteLength)
open Lexeme (Sign sign? told untold pendingBreak placed)

/-! ## One lexeme -/

namespace Lexeme

variable {p : Char → Bool} {c : Char} {cs ds rest : List Char}

theorem runLength_take (p : Char → Bool) (cs : List Char) :
    runLength p (cs.take (runLength p cs)) = runLength p cs := by
  rw [take_runLength, runLength, List.takeWhile_eq_self_iff.2 of_mem_takeWhile, runLength]

/-- What stands at the start of a part of a text stands at the start of the text. -/
theorem head?_take {x : Char} (h : (cs.head? == some x) = false) (n : Nat) :
    ((cs.take n).head? == some x) = false := by
  cases n with
  | zero => rfl
  | succ n => cases cs <;> exact h

theorem head?_append {behind : List Char} (starts : ∀ x ∈ rest.head?, x ∈ behind.head?) :
    ∀ x ∈ (cs ++ rest).head?, x ∈ (cs ++ behind).head? := by
  cases cs with
  | nil => exact starts
  | cons => exact fun _ => id

/-- A run of blanks is as long in front of another text, if none goes on with it and the text starts
like the one that it was cut from. -/
theorem blankRun_append (cs rest : List Char) {behind : List Char}
    (run : blankRun 0 (cs ++ behind) = cs.length)
    (starts : ∀ x ∈ rest.head?, x ∈ behind.head?) (ends : blankRun 0 rest = 0) :
    blankRun 0 (cs ++ rest) = cs.length := by
  induction cs with
  | nil => exact ends
  | cons c cs ih =>
    rw [List.cons_append, blankRun] at run ⊢
    split at run
    · next blank =>
      rw [blankRun_eq, List.length_cons, Nat.zero_add, Nat.add_comm] at run
      have blank' : (isHorizontal c || (c == '\r' && (cs ++ rest).head? != some '\n')) = true := by
        rw [Bool.or_eq_true, Bool.and_eq_true, bne_iff_ne] at blank ⊢
        exact blank.imp id (And.imp_right fun carriage newline =>
          carriage (head?_append starts _ newline))
      rw [if_pos blank', blankRun_eq, ih (Nat.succ.inj run), List.length_cons]
      omega
    · cases run

theorem blankRun_take (cs : List Char) :
    blankRun 0 (cs.take (blankRun 0 cs)) = blankRun 0 cs := by
  have length := List.length_take_of_le ((blankRun_le 0 cs).trans (Nat.zero_add _).le)
  have whole : blankRun 0 (cs.take (blankRun 0 cs) ++ cs.drop (blankRun 0 cs))
      = (cs.take (blankRun 0 cs)).length := by
    rw [List.take_append_drop, length]
  have run := blankRun_append _ [] whole nofun rfl
  rwa [List.append_nil, length] at run

/-- A string ends at its closing quote or with its line, also without the text behind it. -/
theorem stringRest_take (taken : Nat) (cs : List Char) :
    ∃ n, (stringRest taken cs).2 = taken + n ∧ stringRest taken (cs.take n) = stringRest taken cs := by
  fun_induction stringRest taken cs with
  | case1 taken => exact ⟨0, rfl, rfl⟩
  | case2 taken cs => exact ⟨1, rfl, rfl⟩
  | case3 taken => exact ⟨1, rfl, rfl⟩
  | case4 taken c cs line => exact ⟨1, rfl, rfl⟩
  | case5 taken c cs inside ih =>
    obtain ⟨n, length, alone⟩ := ih
    refine ⟨n + 2, by omega, ?_⟩
    rw [List.take_succ_cons, List.take_succ_cons, stringRest, if_neg inside, alone]
  | case6 taken c cs quote last escape line => exact ⟨0, rfl, rfl⟩
  | case7 taken c cs quote last escape inside ih =>
    have plain : c ≠ '\\' := fun e => by
      cases cs <;> first | exact last e rfl | exact escape _ _ e rfl
    obtain ⟨n, length, alone⟩ := ih
    refine ⟨n + 1, by omega, ?_⟩
    rw [List.take_succ_cons, stringRest_plain quote plain, if_neg inside, alone]

/-- A character ends at its closing quote, and a word with its run of characters. -/
theorem quoteRest_take (cs : List Char) : quoteRest (cs.take (quoteRest cs).2) = quoteRest cs := by
  by_cases word : (quoteRest cs).1 = .word
  · obtain ⟨length, plain⟩ := quoteRest_of_word word
    have whole : quoteRest cs = (.word, runLength continuesWord cs) := Prod.ext word length
    rw [whole, take_runLength, runLength]
    cases run : cs.takeWhile continuesWord with
    | nil => rfl
    | cons d ds =>
      have all : ∀ x ∈ d :: ds, continuesWord x = true := run ▸ of_mem_takeWhile
      have alone : quoteRest (d :: ds ++ []) = _ := quoteRest_append all (plain d ds run) headIn_nil
      rwa [List.append_nil] at alone
  rcases cs with _ | ⟨c, _ | ⟨x, rest⟩⟩
  · exact absurd rfl word
  · by_cases escape : c = '\\'
    · subst escape
      rfl
    · refine absurd ?_ word
      unfold quoteRest
      split <;> simp_all
  · by_cases escape : c = '\\'
    · subst escape
      have escaped (rest : List Char) : quoteRest ('\\' :: x :: rest) = if endsLine x then (.openChar, 1)
        else if rest.head? == some '\'' then (.char, 3) else (.openChar, 2) := rfl
      rw [escaped]
      split
      · rfl
      · next inside =>
        split
        · next closed =>
          obtain ⟨behind, rfl⟩ := List.head?_eq_some_iff.1 (beq_iff_eq.1 closed)
          exact (escaped ['\'']).trans (if_neg inside)
        · exact (escaped []).trans (if_neg inside)
    · by_cases quote : x = '\''
      · subst quote
        rw [quoteRest_quoted escape] at word ⊢
        split
        · next other => exact absurd (by rw [if_pos other]) word
        · next char =>
          rw [Bool.or_eq_true, not_or, Bool.not_eq_true] at char
          refine (quoteRest_quoted escape []).trans (if_neg ?_)
          rw [char.1]
          exact Bool.false_ne_true
      · exact absurd (by rw [quoteRest_word escape quote]) word

theorem exists_number (c : Char) (cs : List Char) : ∃ b f, (numberRest c cs).1 = .number b f := by
  unfold numberRest
  split
  · exact ⟨_, _, rfl⟩
  · dsimp only
    split
    · split <;> exact ⟨_, _, rfl⟩
    · exact ⟨_, _, rfl⟩

/-- A number ends with its suffix, and with its digits if it has none. -/
theorem numberRest_take (hc : isDigit c = true) (cs : List Char) :
    numberRest c (cs.take (numberRest c cs).2) = numberRest c cs := by
  obtain ⟨b, f, kind⟩ := exists_number c cs
  obtain ⟨mark, text, number⟩ := exists_numberAt hc (Prod.ext kind rfl)
  have alone := (numberRest_of_digits number.digits number.marked number.suffix.fits text headIn_nil).2
  rw [List.append_nil, List.length_take_of_le (numberRest_le c cs)] at alone
  rw [alone]
  exact Prod.ext kind.symm rfl

/-! ## Any lexeme -/

/-- A comment is of its sort, and ends with its line, in front of any other lines. -/
theorem boundary_comment_append (ds : List Char) (hr : HeadIn (fun c => endsLine c = true) rest) :
    boundary '/' ('/' :: (ds.take (lineRest ds) ++ rest)) = boundary '/' ('/' :: ds) := by
  have comment (xs : List Char) : boundary '/' ('/' :: xs)
      = (if xs.head? == some '!' then .docComment else .lineComment, lineRest xs + 1) := rfl
  have inside : ∀ c ∈ ds.take (lineRest ds), (!endsLine c) = true := by
    rw [lineRest, take_runLength]
    exact of_mem_takeWhile
  have length : lineRest (ds.take (lineRest ds) ++ rest) = lineRest ds := by
    refine (runLength_append inside fun c hc => ?_).trans
      (List.length_take_of_le (runLength_le _ ds))
    show (!endsLine c) = false
    rw [hr c hc, Bool.not_true]
  have ends : ∀ x ∈ (ds.drop (lineRest ds)).head?, (!endsLine x) = false := by
    rw [lineRest, drop_runLength]
    exact headIn_dropWhile _ ds
  have marker {xs : List Char} (h : ∀ x ∈ xs.head?, endsLine x = true) :
      ¬ (xs.head? == some '!') = true := by
    rw [beq_iff_eq]
    exact fun mark => absurd (h '!' mark) (by decide)
  have sort : ((ds.take (lineRest ds) ++ rest).head? == some '!') = (ds.head? == some '!') := by
    cases run : ds.take (lineRest ds) with
    | nil =>
      have whole := List.take_append_drop (lineRest ds) ds
      rw [run, List.nil_append] at whole
      rw [List.nil_append, Bool.eq_false_iff.2 (marker hr), ← whole, Bool.eq_false_iff.2 (marker _)]
      simpa using ends
    | cons x xs =>
      rw [List.cons_append, ← List.take_append_drop (lineRest ds) ds, run]
      rfl
  rw [comment, comment, length, sort]

/-- A lexeme alone ends where it ended, and is what it was. -/
theorem boundary_take (c : Char) (cs : List Char) :
    boundary c (cs.take (boundary c cs).2) = boundary c cs := by
  by_cases carriage : (c == '\r' && cs.head? == some '\n') = true
  · obtain ⟨first, newline⟩ := Bool.and_eq_true_iff.1 carriage
    obtain ⟨behind, rfl⟩ := List.head?_eq_some_iff.1 (beq_iff_eq.1 newline)
    obtain rfl := beq_iff_eq.1 first
    rfl
  by_cases blank : (isHorizontal c || c == '\r') = true
  · have carriage' (n : Nat) : ¬ (c == '\r' && (cs.take n).head? == some '\n') = true := by
      rw [Bool.not_eq_true, Bool.and_eq_false_imp] at carriage ⊢
      exact fun first => head?_take (carriage first) n
    rw [boundary_blank blank carriage, boundary_blank blank (carriage' _), blankRun_take]
  by_cases newline : c = '\n'
  · subst newline
    rfl
  by_cases semicolon : c = ';'
  · subst semicolon
    rfl
  by_cases quote : c = '\''
  · subst quote
    exact quoteRest_take cs
  by_cases word : startsWord c = true
  · rw [boundary_of_startsWord word quote, boundary_of_startsWord word quote, runLength_take]
  by_cases digit : isDigit c = true
  · rw [boundary_of_isDigit digit, boundary_of_isDigit digit]
    exact numberRest_take digit cs
  by_cases string : c = '"'
  · subst string
    obtain ⟨n, length, alone⟩ := stringRest_take 0 cs
    show stringRest 0 (cs.take (stringRest 0 cs).2) = stringRest 0 cs
    rw [length, Nat.zero_add, alone]
  by_cases quoted : c = backtick
  · subst quoted
    have at_backtick (xs : List Char) : boundary backtick xs = if runLength isSymbol xs == 0 then
      (.unknown, 0) else (.quotedSymbols, runLength isSymbol xs) := rfl
    rw [at_backtick cs]
    split
    · rfl
    · next symbols => rw [at_backtick, runLength_take, if_neg symbols]
  by_cases symbol : isSymbol c = true
  · by_cases slashes : (c == '/' && cs.head? == some '/') = true
    · obtain ⟨first, second⟩ := Bool.and_eq_true_iff.1 slashes
      obtain ⟨behind, rfl⟩ := List.head?_eq_some_iff.1 (beq_iff_eq.1 second)
      obtain rfl := beq_iff_eq.1 first
      have alone : boundary '/' ('/' :: (behind.take (lineRest behind) ++ [])) = _ :=
        boundary_comment_append behind headIn_nil
      rwa [List.append_nil] at alone
    · rw [Bool.not_eq_true] at slashes
      rw [boundary_of_isSymbol symbol slashes, boundary_of_isSymbol symbol (slashes_take slashes _),
        symbolRun_take, List.length_take_of_le ((symbolRun_le 0 cs).trans (Nat.zero_add _).le)]
  · have other (xs : List Char) : boundary c xs = (Punct.ofChar? c).elim
        (.unknown, runLength startsNothing xs) fun p => (.punct p, 0) := by
      have notBlank : ¬ (c == '\r' && xs.head? == some '\n') = true := fun h =>
        blank (Bool.or_eq_true_iff.2 (.inr (Bool.and_eq_true_iff.1 h).1))
      have notComment : ¬ (c == '/' && xs.head? == some '/') = true := fun h =>
        symbol (by rw [beq_iff_eq.1 (Bool.and_eq_true_iff.1 h).1]; rfl)
      unfold boundary
      cases Punct.ofChar? c <;> simp only [notBlank, notComment, blank, newline, semicolon, quote, word,
        digit, string, quoted, symbol, beq_iff_eq, if_false, Bool.false_eq_true, Option.elim_none,
        Option.elim_some]
    rw [other cs, other]
    cases Punct.ofChar? c with
    | some p => rfl
    | none => exact congrArg (Prod.mk LexemeKind.unknown) (runLength_take _ _)

/-! ## Lexemes between tokens -/

theorem blankRun_drop (cs : List Char) : blankRun 0 (cs.drop (blankRun 0 cs)) = 0 := by
  induction cs with
  | nil => rfl
  | cons c cs ih =>
    by_cases blank : (isHorizontal c || (c == '\r' && cs.head? != some '\n')) = true
    · have run : blankRun 0 (c :: cs) = blankRun 0 cs + 1 := by
        rw [blankRun, if_pos blank, blankRun_eq, Nat.zero_add, Nat.add_comm]
      rw [run, List.drop_succ_cons, ih]
    · rw [blankRun, if_neg blank, List.drop_zero, blankRun, if_neg blank]

/-- Blanks start a text if its first lexeme is a run of blanks. -/
theorem blankRun_eq_zero_iff : blankRun 0 cs = 0 ↔ ∀ l ∈ (lexemes cs).head?, l.kind ≠ .blanks := by
  cases cs with
  | nil => exact iff_of_true rfl (by rw [lexemes_nil]; exact nofun)
  | cons c cs =>
    have first : (∀ l ∈ (lexemes (c :: cs)).head?, l.kind ≠ .blanks) ↔ (boundary c cs).1 ≠ .blanks := by
      rw [lexemes_cons, List.head?_cons]
      exact ⟨fun h => h _ rfl, fun h l hl => by cases hl; exact h⟩
    rw [first, blankRun]
    split
    · next blank =>
      rw [blankRun_eq]
      refine iff_of_false (by omega) (not_not_intro ?_)
      rw [boundary_blank]
      · rw [Bool.or_eq_true, Bool.and_eq_true] at blank
        exact Bool.or_eq_true_iff.2 (blank.imp_right And.left)
      · intro newline
        rw [Bool.and_eq_true, beq_iff_eq, beq_iff_eq] at newline
        obtain ⟨rfl, head⟩ := newline
        rw [head] at blank
        exact absurd blank (by decide)
    · next solid =>
      refine iff_of_true rfl fun blanks => solid ?_
      rw [Bool.or_eq_true, Bool.and_eq_true, beq_iff_eq, bne_iff_ne]
      exact (blank_of_boundary blanks).1

/-- A lexeme that is no token ends where it ended in front of another text that starts in the same way,
if no blanks go on with blanks. -/
theorem boundary_gap {n : Nat} {k : LexemeKind} (hb : boundary c ds = (k, n))
    (hk : kind? ⟨k, c :: ds.take n⟩ = none) (starts : ∀ x ∈ rest.head?, x ∈ (ds.drop n).head?)
    (ends : k = .blanks → blankRun 0 rest = 0) : boundary c (ds.take n ++ rest) = (k, n) := by
  have comment (hk : k = .lineComment ∨ k = .docComment) : boundary c (ds.take n ++ rest) = (k, n) := by
    have opens := boundary_opensKind c ds
    have slash : c = '/' := by
      rw [hb] at opens
      rcases hk with rfl | rfl <;> exact opens
    subst slash
    rw [boundary_slash] at hb
    split at hb
    · next second =>
      obtain ⟨behind, rfl⟩ := List.head?_eq_some_iff.1 (beq_iff_eq.1 second)
      have whole := hb
      obtain ⟨-, rfl⟩ := Prod.mk.inj hb
      have line : lineRest ('/' :: behind) = lineRest behind + 1 := rfl
      rw [line, List.drop_succ_cons, lineRest, drop_runLength] at starts
      rw [line, List.take_succ_cons, List.cons_append, boundary_comment_append behind fun x hx => ?_]
      · exact whole
      · simpa using headIn_dropWhile _ behind x (starts x hx)
    · cases hb
      rcases hk with ⟨⟩ | ⟨⟩
  rcases boundary_cases c ds with ⟨rfl, head, e⟩ | ⟨blank, e⟩ | ⟨rfl, e⟩ | ⟨rfl, e⟩ | solid
  · obtain ⟨behind, rfl⟩ := List.head?_eq_some_iff.1 head
    cases hb.symm.trans e
    rfl
  · obtain ⟨rfl, rfl⟩ := Prod.mk.inj (hb.symm.trans e)
    have length := List.length_take_of_le ((blankRun_le 0 ds).trans (Nat.zero_add _).le)
    have whole : blankRun 0 (ds.take (blankRun 0 ds) ++ ds.drop (blankRun 0 ds))
        = (ds.take (blankRun 0 ds)).length := by
      rw [List.take_append_drop, length]
    have run := blankRun_append _ rest whole starts (ends rfl)
    rw [length] at run
    rw [boundary_blank, run]
    · rcases blank with blank | ⟨rfl, -⟩
      · rw [blank, Bool.true_or]
      · rfl
    · intro newline
      rw [Bool.and_eq_true, beq_iff_eq, beq_iff_eq] at newline
      obtain ⟨rfl, head⟩ := newline
      have head := head?_append starts _ head
      rw [List.take_append_drop] at head
      rcases blank with blank | ⟨-, other⟩
      · cases blank
      · exact other head
  · cases hb.symm.trans e
    rfl
  · cases hb.symm.trans e
    rfl
  · rw [hb] at solid
    cases k with
    | lineComment => exact comment (.inl rfl)
    | docComment => exact comment (.inr rfl)
    | blanks => exact absurd rfl solid.1
    | newline => exact absurd rfl solid.2.1
    | semicolon => exact absurd rfl solid.2.2
    | char =>
      unfold kind? at hk
      dsimp only at hk
      split at hk <;> cases hk
    | _ => cases hk

/-- Blanks, comments and separators that follow each other are read alone as what they are. -/
theorem lexemes_gap {mid behind : List Lexeme} (h : lexemes cs = mid ++ behind)
    (gap : ∀ l ∈ mid, l.kind? = none) : lexemes (mid.flatMap text) = mid := by
  induction mid generalizing cs with
  | nil => exact lexemes_nil
  | cons l mid ih =>
    cases cs with
    | nil =>
      rw [lexemes_nil] at h
      cases h
    | cons c ds =>
      rw [lexemes_cons, List.cons_append] at h
      obtain ⟨rfl, rest⟩ := List.cons.inj h
      obtain ⟨first, others⟩ := List.forall_mem_cons.1 gap
      have alone := ih rest others
      have length := List.length_take_of_le (boundary_le c ds)
      have text : mid.flatMap text ++ behind.flatMap text = ds.drop (boundary c ds).2 := by
        rw [← List.flatMap_append, ← rest, flatMap_text_lexemes]
      have cut : boundary c (ds.take (boundary c ds).2 ++ mid.flatMap Lexeme.text) = boundary c ds := by
        refine boundary_gap rfl first (fun x hx => ?_) fun blanks => ?_
        · rw [← text, List.head?_append, hx]
          rfl
        · have run : blankRun 0 (ds.drop (boundary c ds).2) = 0 := by
            rw [(blank_of_boundary blanks).2, blankRun_drop]
          rw [blankRun_eq_zero_iff, rest] at run
          rw [blankRun_eq_zero_iff, alone]
          intro l hl
          exact run l (by rw [List.head?_append, hl]; rfl)
      rw [List.flatMap_cons, List.cons_append, lexemes_cons, cut, List.take_left' length,
        List.drop_left' length, alone]

end Lexeme

/-! ## Where tokens come from -/

/-- What lexemes are read as when they are one token: a lexeme that stands for it, or separators with
blanks and comments between them, which make a line break. -/
inductive ReadFrom : List Lexeme → TokenKind × Bool → Prop
  | word {l : Lexeme} {k : TokenKind} (stands : l.kind? = some k) : ReadFrom [l] (k, false)
  | lineBreak {mid : List Lexeme} {b : Bool} (gap : ∀ l ∈ mid, l.kind? = none)
      (ends : untold none (mid.filterMap sign?) = some b)
      (closed : ∀ l ∈ mid.getLast?, l.kind.isOpen = false) : ReadFrom mid (.lineBreak, b)

/-- The span of some lexemes behind others. -/
def spanBehind (start : Nat) (before mid : List Lexeme) : Span :=
  ⟨start + byteLength (before.flatMap Lexeme.text),
    start + byteLength (before.flatMap Lexeme.text) + byteLength (mid.flatMap Lexeme.text)⟩

/-- The lexemes that a token is read from, behind those before it. -/
structure Origin (start : Nat) (before mid : List Lexeme) (t : Token) : Prop where
  reading : ReadFrom mid t.reading
  span : t.span = spanBehind start before mid

/-- The separators that a line break is read from so far, behind the lexemes before them and in front of
blanks and comments. -/
structure PendingBreak.Origin (start : Nat) (before mid behind : List Lexeme) (b : PendingBreak) :
    Prop where
  gap : ∀ l ∈ mid ++ behind, l.kind? = none
  ends : untold none (mid.filterMap sign?) = some b.hasSemicolon
  waits : untold none ((mid ++ behind).filterMap sign?) = some b.hasSemicolon
  closed : ∀ l ∈ mid.getLast?, l.kind.isOpen = false
  span : b.span = spanBehind start before mid

namespace Lexing

/-- Behind the lexemes `done`, every token and the line break that is pending come from some of them. -/
structure Traced (start : Nat) (done : List Lexeme) (st : Lexing) : Prop where
  offset : st.offset = start + byteLength (done.flatMap Lexeme.text)
  plain : st.Plain
  tokens : ∀ t ∈ st.tokens.items.toList, ∃ before mid behind, done = before ++ (mid ++ behind)
    ∧ Origin start before mid t
  pending : ∀ b ∈ st.pending, ∃ before mid behind, done = before ++ (mid ++ behind)
    ∧ b.Origin start before mid behind

namespace Traced

variable {start : Nat} {done : List Lexeme} {st st' : Lexing} {l : Lexeme}

/-- The line break that is pending has its origin as a token, too. -/
theorem pendingTokens (h : st.Traced start done) : ∀ t ∈ st.pendingTokens,
    ∃ before mid behind, done = before ++ (mid ++ behind) ∧ Origin start before mid t := by
  intro t ht
  obtain ⟨b, hb, rfl⟩ := Option.map_eq_some_iff.1 (Option.mem_toList.1 ht)
  obtain ⟨before, mid, behind, parts, origin⟩ := h.pending b hb
  refine ⟨before, mid, behind, parts, ?_, origin.span⟩
  rw [reading_breakToken (h.plain.pending b hb)]
  exact .lineBreak (fun l hl => origin.gap l (List.mem_append_left _ hl)) origin.ends origin.closed

theorem filterMap_concat (ls : List Lexeme) (l : Lexeme) :
    (ls ++ [l]).filterMap sign? = ls.filterMap sign? ++ (sign? l).toList := by
  rw [List.filterMap_append, List.filterMap_cons]
  cases sign? l <;> rfl

theorem offset_snoc (h : st.Traced start done) (l : Lexeme) :
    st.offset + byteLength l.text = start + byteLength ((done ++ [l]).flatMap Lexeme.text) := by
  rw [h.offset, List.flatMap_append, Text.byteLength_append, List.flatMap_singleton, Nat.add_assoc]

/-- More lexemes leave the origins of tokens where they are. -/
theorem snoc {P : List Lexeme → List Lexeme → Prop} (l : Lexeme)
    (h : ∃ before mid behind, done = before ++ (mid ++ behind) ∧ P before mid) :
    ∃ before mid behind, done ++ [l] = before ++ (mid ++ behind) ∧ P before mid := by
  obtain ⟨before, mid, behind, rfl, holds⟩ := h
  exact ⟨before, mid, behind ++ [l], by simp only [List.append_assoc], holds⟩

/-- Blanks and comments change no token. -/
theorem silent (h : st.Traced start done) (hl : l.kind? = none)
    (meaning : ∀ pending, untold pending (sign? l).toList = pending) (plain : st'.Plain)
    (tokens : st'.tokens = st.tokens) (pending : st'.pending = st.pending)
    (offset : st'.offset = st.offset + byteLength l.text) : st'.Traced start (done ++ [l]) where
  offset := offset.trans (h.offset_snoc l)
  plain := plain
  tokens := by
    rw [tokens]
    exact fun t ht => snoc l (h.tokens t ht)
  pending := by
    rw [pending]
    intro b hb
    obtain ⟨before, mid, behind, rfl, origin⟩ := h.pending b hb
    refine ⟨before, mid, behind ++ [l], by simp only [List.append_assoc], ?_, origin.ends, ?_,
      origin.closed, origin.span⟩
    · rw [← List.append_assoc]
      exact List.forall_mem_append.2 ⟨origin.gap, List.forall_mem_singleton.2 hl⟩
    · rw [← List.append_assoc, filterMap_concat, Lexeme.untold_append, origin.waits, meaning]

/-- A separator starts a line break or joins the one that is pending. -/
theorem separate (h : st.Traced start done) {b : Bool} (hl : l.kind? = none)
    (meaning : sign? l = some (.separator b)) (closed : l.kind.isOpen = false) :
    let stop := st.offset + byteLength l.text
    ({ st.separate ⟨st.offset, stop⟩ b with offset := stop } : Lexing).Traced start (done ++ [l]) := by
  intro stop
  have plain : ({ st.separate ⟨st.offset, stop⟩ b with offset := stop } : Lexing).Plain :=
    (steps_separate h.plain ⟨st.offset, stop⟩ b).plain
  refine ⟨h.offset_snoc l, plain, fun t ht => snoc l (h.tokens t ht), ?_⟩
  intro joined hjoined
  cases hp : st.pending with
  | none =>
    simp only [Lexing.separate, hp, Option.mem_some_iff] at hjoined
    subst hjoined
    refine ⟨done, [l], [], by rw [List.append_nil], ?_, ?_, ?_, ?_, ?_⟩
    · rw [List.append_nil]
      exact List.forall_mem_singleton.2 hl
    · rw [List.filterMap_cons_some meaning]
      rfl
    · rw [List.append_nil, List.filterMap_cons_some meaning]
      rfl
    · exact fun _ last => Option.some.inj last ▸ closed
    · rw [spanBehind, ← h.offset, List.flatMap_singleton]
  | some p =>
    simp only [Lexing.separate, hp, Option.mem_some_iff] at hjoined
    subst hjoined
    obtain ⟨before, mid, behind, rfl, origin⟩ := h.pending p hp
    have ends : untold none ((mid ++ (behind ++ [l])).filterMap sign?) = some (p.hasSemicolon || b) := by
      rw [← List.append_assoc, filterMap_concat, Lexeme.untold_append, origin.waits, meaning]
      rfl
    refine ⟨before, mid ++ (behind ++ [l]), [], by simp only [List.append_assoc, List.append_nil],
      ?_, ends, ?_, ?_, ?_⟩
    · rw [List.append_nil, ← List.append_assoc]
      exact List.forall_mem_append.2 ⟨origin.gap, List.forall_mem_singleton.2 hl⟩
    · rw [List.append_nil]
      exact ends
    · rw [← List.append_assoc, List.getLast?_concat]
      exact fun _ last => Option.some.inj last ▸ closed
    · have offset := h.offset
      simp only [Span.merge, origin.span, spanBehind, stop, offset, List.flatMap_append,
        Text.byteLength_append, List.flatMap_singleton]
      congr 1 <;> omega

/-- A token comes from its lexeme. -/
theorem token (h : st.Traced start done) {kind : TokenKind} (hl : l.kind? = some kind)
    (plain : st'.Plain) (offset : st'.offset = st.offset + byteLength l.text)
    (tokens : st'.tokens = (st.emit kind ⟨st.offset, st.offset + byteLength l.text⟩).tokens)
    (pending : st'.pending = none) : st'.Traced start (done ++ [l]) where
  offset := offset.trans (h.offset_snoc l)
  plain := plain
  tokens := by
    rw [tokens, tokens_emit]
    intro t ht
    rcases List.mem_append.1 ht with ht | ht
    · rcases List.mem_append.1 ht with ht | ht
      · exact snoc l (h.tokens t ht)
      · exact snoc l (h.pendingTokens t ht)
    · rw [List.mem_singleton.1 ht]
      refine ⟨done, [l], [], by rw [List.append_nil], ?_, ?_⟩
      · rw [Token.reading, h.plain.spacing]
        exact .word hl
      · rw [spanBehind, ← h.offset, List.flatMap_singleton]
  pending := by
    rw [pending]
    rintro _ ⟨⟩

/-- Every lexeme is a token, part of a line break or silent. -/
theorem take (h : st.Traced start done) (l : Lexeme) : (st.take l).Traced start (done ++ [l]) := by
  have plain := (steps_take h.plain l).plain
  rcases take_cases st l with ⟨hk, e⟩ | ⟨b, hk, e⟩ | ⟨k, n, hk, e⟩ | ⟨kind, names, hk, e⟩
  · refine h.silent ?_ ?_ plain ?_ ?_ rfl
    · rw [Lexeme.kind?, hk]
    · rw [sign?, hk]
      exact fun _ => rfl
    · rw [e]
    · rw [e]
  · rw [e]
    have kinds : l.kind? = none ∧ sign? l = some (.separator b) ∧ l.kind.isOpen = false := by
      unfold Lexeme.kind? Lexeme.sign?
      rcases hk with ⟨hk, rfl⟩ | ⟨hk, rfl⟩ <;> rw [hk] <;> exact ⟨rfl, rfl, rfl⟩
    exact h.separate kinds.1 kinds.2.1 kinds.2.2
  · have kinds : l.kind? = none ∧ ∀ pending, untold pending (sign? l).toList = pending := by
      unfold Lexeme.kind? Lexeme.sign?
      rcases hk with ⟨hk, -⟩ | ⟨hk, -⟩ <;> rw [hk] <;> exact ⟨rfl, fun _ => rfl⟩
    refine h.silent kinds.1 kinds.2 plain ?_ ?_ rfl <;> rw [e] <;> rfl
  · refine h.token hk plain rfl ?_ ?_ <;> rw [e] <;> rfl

theorem foldl (h : st.Traced start done) (ls : List Lexeme) :
    (ls.foldl Lexing.take st).Traced start (done ++ ls) := by
  induction ls generalizing st done with
  | nil => rwa [List.append_nil]
  | cons l ls ih =>
    have rest := ih (h.take l)
    rwa [List.append_assoc] at rest

end Traced

end Lexing

/-- Every token of a text but its end comes from lexemes of the text. -/
theorem lexChars_origin {cs : List Char} {names : NameTable} {t : Token}
    (h : t ∈ (lexChars cs names).tokens.items.toList) (hk : t.kind ≠ .eof) :
    ∃ before mid behind, Lexeme.lexemes (behindShebang cs) = before ++ (mid ++ behind)
      ∧ Origin (shebangLength cs) before mid t := by
  have start : (Lexing.start names (shebangLength cs)).Traced (shebangLength cs) [] :=
    ⟨rfl, ⟨show Spacing.none.contains Spacing.hasSemicolon = false by decide, nofun⟩, nofun, nofun⟩
  have traced := start.foldl (Lexeme.lexemes (behindShebang cs))
  rw [List.nil_append] at traced
  have items : (lexChars cs names).tokens.items.toList = _ :=
    Lexing.tokens_emit (Lexing.last cs names) .eof (.point (Lexing.last cs names).offset)
  rw [items] at h
  rcases List.mem_append.1 h with h | h
  · rcases List.mem_append.1 h with h | h
    · exact traced.tokens t h
    · exact traced.pendingTokens t h
  · rw [List.mem_singleton.1 h] at hk
    exact absurd rfl hk

/-! ## Lexemes alone -/

namespace Lexeme

variable {cs : List Char} {before mid behind : List Lexeme} {r : TokenKind × Bool}

/-- The lexemes behind others are those of what is left of the text. -/
theorem lexemes_behind (h : lexemes cs = before ++ behind) : lexemes (behind.flatMap text) = behind := by
  induction before generalizing cs with
  | nil =>
    rw [List.nil_append] at h
    rw [← h, flatMap_text_lexemes]
  | cons l before ih =>
    cases cs with
    | nil =>
      rw [lexemes_nil] at h
      cases h
    | cons c ds =>
      rw [lexemes_cons] at h
      exact ih (List.cons.inj h).2

/-- What a token is read from is read alone as the same lexemes. -/
theorem lexemes_readFrom (h : lexemes cs = before ++ (mid ++ behind)) (reads : ReadFrom mid r) :
    lexemes (mid.flatMap text) = mid := by
  cases reads with
  | @word l =>
    obtain ⟨c, ds, cut⟩ := mem_lexemes (h ▸ List.mem_append_right _ (List.mem_append_left _
      (List.mem_singleton_self l)) : l ∈ lexemes cs)
    rw [List.flatMap_singleton, cut, lexemes_cons, boundary_take, List.take_take, Nat.min_self,
      List.drop_eq_nil_of_le (List.length_take_le _ _), lexemes_nil]
  | lineBreak gap => exact lexemes_gap (lexemes_behind h) gap

/-- No token is the start of a first line that is set apart. -/
theorem not_shebang_readFrom (alone : lexemes (mid.flatMap text) = mid) (reads : ReadFrom mid r) :
    ¬ "#!".toList <+: mid.flatMap text := by
  rintro ⟨rest, first⟩
  have cut : lexemes ('#' :: '!' :: rest) = ⟨.punct .hash, ['#']⟩ :: lexemes ('!' :: rest) :=
    lexemes_cons '#' ('!' :: rest)
  have both : ⟨.punct .hash, ['#']⟩ :: lexemes ('!' :: rest) = mid := by
    rw [← cut]
    exact (congrArg lexemes first).trans alone
  cases reads with
  | word =>
    have none := (List.cons.inj both).2
    rw [lexemes_cons] at none
    cases none
  | lineBreak gap =>
    rw [← both] at gap
    cases gap _ List.mem_cons_self

/-- Without a lexeme that stands for a token none is told. -/
theorem told_gap {pending : Option Bool} (gap : ∀ l ∈ mid, l.kind? = none) :
    told pending (mid.filterMap sign?) = [] := by
  induction mid generalizing pending with
  | nil => rfl
  | cons l mid ih =>
    obtain ⟨first, others⟩ := List.forall_mem_cons.1 gap
    cases hs : sign? l with
    | none =>
      rw [List.filterMap_cons_none hs]
      exact ih others
    | some s =>
      rw [List.filterMap_cons_some hs]
      cases s with
      | token k =>
        unfold sign? at hs
        split at hs
        all_goals first | cases hs | (rw [first] at hs; cases hs)
      | separator b => exact ih others
      | doc content => exact ih others

/-- The lexemes that a token is read from are read as this token. -/
theorem readings_readFrom (reads : ReadFrom mid r) : told none (mid.filterMap sign?)
    ++ pendingBreak (untold none (mid.filterMap sign?)) = [r] := by
  cases reads with
  | word stands =>
    rw [List.filterMap_cons_some (Lexing.sign_token stands)]
    rfl
  | lineBreak gap ends =>
    rw [told_gap gap, ends]
    rfl

/-- Placed lexemes lie where their text does. -/
theorem bounds_placed {ls : List Lexeme} (nonempty : ∀ l ∈ ls, l.text ≠ []) {offset : Nat} {p : Placed}
    (hp : p ∈ placed offset ls) : offset ≤ p.span.start ∧ p.span.start < p.span.stop
      ∧ p.span.stop ≤ offset + byteLength (ls.flatMap text) := by
  induction ls generalizing offset with
  | nil => cases hp
  | cons l ls ih =>
    obtain ⟨first, others⟩ := List.forall_mem_cons.1 nonempty
    have pos := Text.byteLength_pos first
    rw [List.flatMap_cons, Text.byteLength_append]
    rcases List.mem_cons.1 hp with rfl | hp
    · exact ⟨Nat.le_refl _, by dsimp only; omega, by dsimp only; omega⟩
    · have := ih others hp
      omega

end Lexeme

/-- The comments that lie within the span of some lexemes are those among them. -/
theorem comments_within {cs : List Char} {before mid behind : List Lexeme}
    (h : Lexeme.lexemes (behindShebang cs) = before ++ (mid ++ behind)) (names : NameTable) :
    let span := spanBehind (shebangLength cs) before mid
    (lexChars cs names).comments.items.toList.filter (fun c => span.containsSpan c.span)
      = (placed span.start mid).filterMap Placed.comment? := by
  intro span
  have nonempty : ∀ l ∈ before ++ (mid ++ behind), l.text ≠ [] := h ▸ Lexeme.text_ne_nil
  obtain ⟨first, rest⟩ := List.forall_mem_append.1 nonempty
  obtain ⟨middle, last⟩ := List.forall_mem_append.1 rest
  have place {p : Placed} {c : Comment} (hc : p.comment? = some c) : c.span = p.span := by
    unfold Placed.comment? at hc
    split at hc <;> cases hc <;> rfl
  have outside (ls : List Lexeme) (offset : Nat)
      (h : ∀ p ∈ placed offset ls, ¬ (span.start ≤ p.span.start ∧ p.span.stop ≤ span.stop)) :
      ((placed offset ls).filterMap Placed.comment?).filter (fun c => span.containsSpan c.span) = [] := by
    refine List.filter_eq_nil_iff.2 fun c hc => ?_
    obtain ⟨p, hp, comment⟩ := List.mem_filterMap.1 hc
    rw [Span.containsSpan_iff, place comment]
    exact h p hp
  have start : span.start = shebangLength cs + byteLength (before.flatMap Lexeme.text) := rfl
  have stop : span.stop = span.start + byteLength (mid.flatMap Lexeme.text) := rfl
  have ahead := outside before (shebangLength cs) fun p hp => by
    have := Lexeme.bounds_placed first hp
    omega
  have rear := outside behind span.stop fun p hp => by
    have := Lexeme.bounds_placed last hp
    omega
  have inside : ((placed span.start mid).filterMap Placed.comment?).filter
      (fun c => span.containsSpan c.span) = (placed span.start mid).filterMap Placed.comment? := by
    refine List.filter_eq_self.2 fun c hc => ?_
    obtain ⟨p, hp, comment⟩ := List.mem_filterMap.1 hc
    have bounds := Lexeme.bounds_placed middle hp
    rw [Span.containsSpan_iff, place comment]
    exact ⟨bounds.1, bounds.2.2⟩
  rw [(lexChars_placed cs names).2, placedLexemes, h, Lexeme.placed_append, Lexeme.placed_append,
    ← start, ← stop, List.filterMap_append, List.filterMap_append, List.filter_append,
    List.filter_append, ahead, inside, rear, List.nil_append, List.append_nil]

/-! ## Whole texts -/

/-- Tokens do not depend on what stands around them: the text of a token that is not the end is read
alone as one token, of the same kind and with the same contents, and the end. What is in a line break
besides its separators is set aside as before: the comments of its text are those of the source that lie
within its span. -/
theorem lex_alone (source : String) (names names' : NameTable) {t : Token}
    (h : t ∈ (lex source names).tokens.items.toList) (hk : t.kind ≠ .eof) :
    ∃ text : String, Text.slice? source.toList t.span.start t.span.stop = some text.toList
      ∧ (lex text names').shebang = none
      ∧ (lex text names').tokens.readings = [t.reading, (.eof, false)]
      ∧ (lex text names').comments.items.toList.map (Comment.shift t.span.start)
        = (lex source names).comments.items.toList.filter fun c => t.span.containsSpan c.span := by
  unfold lex at *
  obtain ⟨before, mid, behind, parts, origin⟩ := lexChars_origin h hk
  generalize source.toList = cs at *
  have alone := Lexeme.lexemes_readFrom parts origin.reading
  have plain := Lexeme.not_shebang_readFrom alone origin.reading
  obtain ⟨offset, whole⟩ := behindShebang_eq_self plain
  refine ⟨String.ofList (mid.flatMap Lexeme.text), ?_⟩
  rw [String.toList_ofList]
  refine ⟨?_, ?_, ?_, ?_⟩
  · have source : ((shebangOf cs).getD [] ++ before.flatMap Lexeme.text)
        ++ (mid.flatMap Lexeme.text ++ behind.flatMap Lexeme.text) = cs := by
      have body := congrArg (List.flatMap Lexeme.text) parts
      rw [Lexeme.flatMap_text_lexemes, List.flatMap_append, List.flatMap_append] at body
      rw [List.append_assoc, ← body, append_behindShebang]
    have slice := Text.slice?_append ((shebangOf cs).getD [] ++ before.flatMap Lexeme.text)
      (mid.flatMap Lexeme.text) (behind.flatMap Lexeme.text)
    rw [source, Text.byteLength_append] at slice
    rw [origin.span]
    exact slice
  · exact shebang_eq_none plain names'
  · rw [lexChars_readings, whole, Lexeme.signs, alone, ← List.append_assoc,
      Lexeme.readings_readFrom origin.reading]
    rfl
  · have moved : placed t.span.start mid = (placed 0 mid).map (Placed.shift t.span.start) := by
      rw [← Lexeme.placed_shift, Nat.zero_add]
    have within := comments_within parts names
    dsimp only at within
    rw [← origin.span, moved, List.filterMap_map] at within
    rw [within, (lexChars_placed _ names').2, placedLexemes, whole, offset, alone, List.map_filterMap]
    exact congrFun (congrArg List.filterMap (funext fun p => (p.comment?_shift _).symm)) _

/-- A line break with a comment and a carriage return in it. -/
theorem lex_alone_lineBreak :
    let source := "x \r\n// c\r\n; 'a'b"
    let t : Token := ⟨.lineBreak, ⟨2, 11⟩, .of true false false true⟩
    (t ∈ (lex source .empty).tokens.items.toList ∧ t.kind ≠ .eof)
      ∧ ∃ text : String, Text.slice? source.toList 2 11 = some text.toList
        ∧ (lex text .empty).shebang = none
        ∧ (lex text .empty).tokens.readings = [t.reading, (.eof, false)]
        ∧ (lex text .empty).comments.items.toList.map (Comment.shift 2)
          = (lex source .empty).comments.items.toList.filter fun c => t.span.containsSpan c.span := by
  intro source t
  have mem : t ∈ (lex source .empty).tokens.items.toList := by decide +kernel
  have solid : t.kind ≠ .eof := (TokenKind.ne_of_tag Tag.noConfusion)
  exact ⟨⟨mem, solid⟩, lex_alone source .empty .empty mem solid⟩

end Surface
