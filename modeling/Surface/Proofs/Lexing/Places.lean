import Surface.Proofs.Lexing.Tiling

/-!
# Lexemes in their places

Lexemes follow each other from an offset on, and tokens and comments lie where their lexemes lie.
Since a lexeme does not reach beyond its line, neither does what is read from it: a line has the
tokens and comments that it has alone.

Results:
* `Placed`, `Lexeme.placed`: lexemes with their spans; `placed_append`, `placed_shift`.
* `Lexing.foldl_adds`: what placed lexemes add to a state.
* `lex_append_line`: the tokens and comments of a text, line by line.
-/

namespace Surface

open Text (byteLength)

/-! ## Places -/

/-- The span that lies `n` bytes further behind. -/
def Span.shift (n : Nat) (s : Span) : Span := ⟨s.start + n, s.stop + n⟩

/-- The comment that lies `n` bytes further behind. -/
def Comment.shift (n : Nat) (c : Comment) : Comment := { c with span := c.span.shift n }

/-- A lexeme in its place. -/
structure Placed where
  lexeme : Lexeme
  span : Span

namespace Placed

/-- The same lexeme `n` bytes further behind. -/
def shift (n : Nat) (p : Placed) : Placed := ⟨p.lexeme, p.span.shift n⟩

/-- The token that a lexeme stands for, where it lies. -/
def word? (p : Placed) : Option (TokenKind × Span) := p.lexeme.kind?.map fun k => (k, p.span)

/-- The comment that a lexeme is, where it lies. -/
def comment? (p : Placed) : Option Comment :=
  match p.lexeme.kind with
  | .lineComment => some ⟨String.ofList (Text.trim (p.lexeme.text.drop 2)), p.span, .line⟩
  | .docComment => some ⟨String.ofList (Text.trim (p.lexeme.text.drop 3)), p.span, .doc⟩
  | _ => none

variable (n : Nat) (p : Placed)

theorem word?_shift : (p.shift n).word? = p.word?.map fun w => (w.1, w.2.shift n) := by
  unfold word? shift
  cases p.lexeme.kind? <;> rfl

theorem comment?_shift : (p.shift n).comment? = p.comment?.map (Comment.shift n) := by
  unfold comment? shift
  dsimp only
  split <;> rfl

/-- A lexeme that stands for a token is no comment. -/
theorem comment?_of_kind? {p : Placed} {k : TokenKind} (h : p.lexeme.kind? = some k) :
    p.comment? = none := by
  unfold comment?
  split
  · next comment => rw [Lexeme.kind?, comment] at h; cases h
  · next comment => rw [Lexeme.kind?, comment] at h; cases h
  · rfl

end Placed

namespace Lexeme

/-- Lexemes that follow each other from an offset on. -/
def placed (offset : Nat) : List Lexeme → List Placed
  | [] => []
  | l :: ls => ⟨l, ⟨offset, offset + byteLength l.text⟩⟩ :: placed (offset + byteLength l.text) ls

theorem placed_append (offset : Nat) (ls ls' : List Lexeme) : placed offset (ls ++ ls')
    = placed offset ls ++ placed (offset + byteLength (ls.flatMap text)) ls' := by
  induction ls generalizing offset with
  | nil => rfl
  | cons l ls ih =>
    rw [List.cons_append, placed, ih, List.flatMap_cons, Text.byteLength_append, ← Nat.add_assoc]
    rfl

theorem placed_shift (n offset : Nat) (ls : List Lexeme) :
    placed (offset + n) ls = (placed offset ls).map (Placed.shift n) := by
  induction ls generalizing offset with
  | nil => rfl
  | cons l ls ih =>
    rw [placed, placed, Nat.add_right_comm, ih]
    rfl

/-- What is read from lexemes one by one is read from those of the right kinds only. -/
theorem filterMap_placed_eq_nil {β : Type} {f : Placed → Option β} {ls : List Lexeme}
    (h : ∀ l ∈ ls, ∀ s, f ⟨l, s⟩ = none) (offset : Nat) : (placed offset ls).filterMap f = [] := by
  induction ls generalizing offset with
  | nil => rfl
  | cons l ls ih =>
    obtain ⟨first, others⟩ := List.forall_mem_cons.1 h
    rw [placed, List.filterMap_cons, first]
    exact ih others _

end Lexeme

/-! ## What placed lexemes add to a state -/

/-- What a stream holds besides line breaks and its end: what each token is, and where it lies. -/
def Tokens.words (ts : Tokens) : List (TokenKind × Span) :=
  (ts.items.toList.filter fun t => t.kind != .lineBreak && t.kind != .eof).map fun t => (t.kind, t.span)

/-- The words of a stream are what it holds besides line breaks, without its end. -/
theorem Tokens.words_eq (ts : Tokens) :
    ts.words = (ts.solids.filter fun t => t.kind != .eof).map fun t => (t.kind, t.span) := by
  rw [words, solids, List.filter_filter]
  congr 2
  funext t
  exact Bool.and_comm _ _

namespace Lexing

open Lexeme (placed)

variable {st : Lexing}

theorem words_emit {kind : TokenKind} (hk : kind ≠ .lineBreak) (st : Lexing) (s : Span) :
    (st.emit kind s).tokens.words
      = st.tokens.words ++ if kind = .eof then [] else [(kind, s)] := by
  rw [Tokens.words_eq, Tokens.words_eq, solids_emit hk, List.filter_append, List.map_append]
  by_cases h : kind = .eof
  · rw [if_pos h, h]
    rfl
  · rw [if_neg h, List.filter_cons_of_pos (by simpa using h)]
    rfl

/-- One lexeme adds the token or the comment that it is. -/
theorem take_adds (st : Lexing) (l : Lexeme) :
    let p : Placed := ⟨l, ⟨st.offset, st.offset + byteLength l.text⟩⟩
    (st.take l).tokens.words = st.tokens.words ++ p.word?.toList
      ∧ (st.take l).comments.items.toList = st.comments.items.toList ++ p.comment?.toList := by
  intro p
  have word (h : l.kind? = none) : p.word? = none := by
    unfold Placed.word?
    rw [show p.lexeme.kind? = none from h]
    rfl
  have nothing {α : Type} (xs : List α) : xs = xs ++ (none : Option α).toList := (List.append_nil xs).symm
  have shape : p.lexeme = l := rfl
  rcases take_cases st l with ⟨hk, e⟩ | ⟨b, hk, e⟩ | ⟨k, n, hk, e⟩ | ⟨kind, names, hk, e⟩ <;> rw [e]
  · rw [word (by rw [Lexeme.kind?, hk]), Placed.comment?, shape, hk]
    exact ⟨nothing _, nothing _⟩
  · have plain : p.word? = none ∧ p.comment? = none := by
      unfold Placed.comment?
      rw [shape]
      rcases hk with ⟨hk, -⟩ | ⟨hk, -⟩ <;> rw [hk] <;>
        exact ⟨word (by rw [Lexeme.kind?, hk]), rfl⟩
    rw [plain.1, plain.2]
    exact ⟨nothing _, nothing _⟩
  · have comment : p.word? = none
        ∧ p.comment? = some ⟨String.ofList (Text.trim (l.text.drop n)), p.span, k⟩ := by
      unfold Placed.comment?
      rw [shape]
      rcases hk with ⟨hk, rfl, rfl⟩ | ⟨hk, rfl, rfl⟩ <;> rw [hk] <;>
        exact ⟨word (by rw [Lexeme.kind?, hk]), rfl⟩
    rw [comment.1, comment.2]
    exact ⟨nothing _, Array.toList_push⟩
  · obtain ⟨eof, lineBreak⟩ := kind?_plain hk
    have plain : p.word? = some (kind, p.span) ∧ p.comment? = none := by
      refine ⟨?_, Placed.comment?_of_kind? hk⟩
      unfold Placed.word?
      rw [shape, hk]
      rfl
    rw [plain.1, plain.2]
    refine ⟨?_, nothing _⟩
    show (({ st with names := names } : Lexing).emit kind p.span).tokens.words = _
    rw [words_emit lineBreak, if_neg eof]
    rfl

/-- Lexemes add the tokens and comments that they are, where they lie. -/
theorem foldl_adds (ls : List Lexeme) (st : Lexing) :
    (ls.foldl take st).tokens.words
        = st.tokens.words ++ (placed st.offset ls).filterMap Placed.word?
      ∧ (ls.foldl take st).comments.items.toList
        = st.comments.items.toList ++ (placed st.offset ls).filterMap Placed.comment? := by
  have split {α β : Type} (f : α → Option β) (x : α) (xs : List α) :
      (x :: xs).filterMap f = (f x).toList ++ xs.filterMap f := by
    rw [List.filterMap_cons]
    cases f x <;> rfl
  induction ls generalizing st with
  | nil => exact ⟨(List.append_nil _).symm, (List.append_nil _).symm⟩
  | cons l ls ih =>
    obtain ⟨word, comment⟩ := take_adds st l
    obtain ⟨words, comments⟩ := ih (st.take l)
    rw [List.foldl_cons, words, comments, word, comment, offset_take, placed, split, split,
      List.append_assoc, List.append_assoc]
    exact ⟨rfl, rfl⟩

end Lexing

/-! ## Whole texts -/

/-- The lexemes of a text behind its first line, where they lie. -/
def placedLexemes (cs : List Char) : List Placed :=
  Lexeme.placed (shebangLength cs) (Lexeme.lexemes (behindShebang cs))

/-- The tokens and comments of a text are those that its lexemes are, where these lie. -/
theorem lexChars_placed (cs : List Char) (names : NameTable) :
    (lexChars cs names).tokens.words = (placedLexemes cs).filterMap Placed.word?
      ∧ (lexChars cs names).comments.items.toList = (placedLexemes cs).filterMap Placed.comment? := by
  obtain ⟨words, comments⟩ := Lexing.foldl_adds (Lexeme.lexemes (behindShebang cs))
    (.start names (shebangLength cs))
  refine ⟨?_, comments⟩
  have ends := @Lexing.words_emit .eof (TokenKind.ne_of_tag Tag.noConfusion) (Lexing.last cs names)
    (.point (Lexing.last cs names).offset)
  rw [if_pos rfl, List.append_nil] at ends
  exact ends.trans words

/-! ## Texts line by line -/

/-- What is read from the lexemes of a text one by one is read line by line, if nothing is read from
blanks and newlines. -/
theorem filterMap_placedLexemes_line {β : Type} {f : Placed → Option β}
    (hf : ∀ l : Lexeme, l.kind = .blanks ∨ l.kind = .newline → ∀ s, f ⟨l, s⟩ = none)
    {rest : List Char} (h : ¬ "#!".toList <+: rest) (cs : List Char) :
    (placedLexemes (cs ++ '\n' :: rest)).filterMap f = (placedLexemes cs).filterMap f
      ++ ((placedLexemes rest).map (Placed.shift (byteLength cs + 1))).filterMap f := by
  obtain ⟨ls, blanks, blanks', newline, e, e', kinds, kind⟩ :=
    Lexeme.endsWithNewline (behindShebang cs) rest
  obtain ⟨first, plain⟩ := behindShebang_eq_self h
  have same : shebangLength (cs ++ '\n' :: rest) = shebangLength cs := by
    rw [shebangLength, shebangOf_line]
    rfl
  have silent (bs : List Lexeme) (hbs : ∀ l ∈ bs, l.kind = .blanks) (offset : Nat) :
      (Lexeme.placed offset bs).filterMap f = [] :=
    Lexeme.filterMap_placed_eq_nil (fun l hl => hf l (.inl (hbs l hl))) offset
  obtain ⟨before, before'⟩ := List.forall_mem_append.1 kinds
  -- where the lines behind the newline start
  have offset : shebangLength cs + byteLength (ls.flatMap Lexeme.text)
      + byteLength (blanks'.flatMap Lexeme.text) + byteLength newline.text = 0 + (byteLength cs + 1) := by
    have whole := congrArg byteLength (congrArg (List.flatMap Lexeme.text) e')
    have line : shebangLength cs + byteLength (behindShebang cs) = byteLength cs :=
      byteLength_behind_shebang cs
    have one : '\n'.utf8Size = 1 := rfl
    simp only [Lexeme.flatMap_text_lexemes, List.flatMap_append, List.flatMap_cons,
      Text.byteLength_append, Text.byteLength_cons, one] at whole
    omega
  unfold placedLexemes
  rw [same, behindShebang_append_line, e, e', plain, first, Lexeme.placed_append, Lexeme.placed_append,
    Lexeme.placed_append, Lexeme.placed, offset, Lexeme.placed_shift _ 0, List.filterMap_append,
    List.filterMap_append, List.filterMap_append, silent blanks before, silent blanks' before',
    List.filterMap_cons, hf newline (.inr kind), List.append_nil, List.nil_append]

/-- Reading goes line by line: the tokens and comments of a text with a newline in it are those of
the part before the newline and those of the part behind it, as they are read alone, and lie where
they lie there. Line breaks and the end apart, nothing on one line changes what another one is
read as. -/
theorem lex_append_line (a b : String) (names names' names'' : NameTable)
    (h : ¬ "#!".toList <+: b.toList) :
    let whole := lex (a ++ "\n" ++ b) names
    let before := lex a names'
    let behind := lex b names''
    let n := byteLength a.toList + 1
    whole.tokens.words = before.tokens.words
        ++ behind.tokens.words.map (fun w => (w.1, w.2.shift n))
      ∧ whole.comments.items.toList = before.comments.items.toList
        ++ behind.comments.items.toList.map (Comment.shift n) := by
  intro whole before behind n
  have text : (a ++ "\n" ++ b).toList = a.toList ++ '\n' :: b.toList := by
    rw [String.toList_append, String.toList_append, List.append_assoc]
    rfl
  have joined : whole = lexChars (a.toList ++ '\n' :: b.toList) names :=
    congrArg (lexChars · names) text
  have moved {β : Type} {f : Placed → Option β} {g : β → β}
      (hg : ∀ p : Placed, f (p.shift n) = (f p).map g) (ps : List Placed) :
      (ps.map (Placed.shift n)).filterMap f = (ps.filterMap f).map g := by
    rw [List.filterMap_map, List.map_filterMap]
    exact congrFun (congrArg List.filterMap (funext hg)) ps
  obtain ⟨words, comments⟩ := lexChars_placed (a.toList ++ '\n' :: b.toList) names
  obtain ⟨words', comments'⟩ := lexChars_placed a.toList names'
  obtain ⟨words'', comments''⟩ := lexChars_placed b.toList names''
  constructor
  · rw [joined, words, filterMap_placedLexemes_line ?_ h, moved (Placed.word?_shift n), ← words', ← words'']
    · rfl
    · rintro l (hk | hk) s <;> rw [Placed.word?, Lexeme.kind?, hk] <;> rfl
  · rw [joined, comments, filterMap_placedLexemes_line ?_ h, moved (Placed.comment?_shift n), ← comments', ← comments'']
    · rfl
    · rintro l (hk | hk) s <;> rw [Placed.comment?, hk]

/-- What a line leaves open, a string and an escape, ends with it. -/
theorem lex_append_line_open :
    let whole := lex "#!run\nx \"y \\\r\n'z' // é" .empty
    ¬ "#!".toList <+: "'z' // é".toList
      ∧ (whole.tokens.words = (lex "#!run\nx \"y \\\r" .empty).tokens.words
          ++ (lex "'z' // é" .empty).tokens.words.map (fun w => (w.1, w.2.shift 14))
        ∧ whole.comments.items.toList = (lex "#!run\nx \"y \\\r" .empty).comments.items.toList
          ++ (lex "'z' // é" .empty).comments.items.toList.map (Comment.shift 14))
      ∧ whole.tokens.words = [(.ident "x", ⟨6, 7⟩), (.error .unterminatedString, ⟨8, 12⟩),
        (.char 'z', ⟨14, 17⟩)] := by
  intro whole
  have plain : ¬ "#!".toList <+: "'z' // é".toList := by decide +kernel
  exact ⟨plain, lex_append_line "#!run\nx \"y \\\r" "'z' // é" .empty .empty .empty plain,
    by decide +kernel⟩

end Surface
