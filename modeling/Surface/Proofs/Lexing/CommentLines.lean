import Surface.Proofs.Diagnostic.Lines
import Surface.Proofs.Lexing.Sources

/-!
# Comments and lines

A comment starts with its marker and ends before the end of its line. For the lexer a line ends before
a newline or a carriage return; for the line table it ends behind a newline only. The two agree unless
a comment ends before a carriage return that has no newline behind it: the lexer takes this one for a
blank and goes on with the line.

Results:
* `Comment.Spells`: the characters of a comment and those around it.
* `tokens_behind_comment`: no token behind a comment is on its line, unless the comment ends before a
  lone carriage return; `token_behind_lone_return` is such a token.
-/

namespace Surface

open Text (byteLength)
open Lexeme (HeadIn endsLine)

/-! ## The characters of a comment -/

namespace Lexeme

variable {c : Char} {cs ds : List Char} {b : Bool}

/-- What a comment is cut from. -/
theorem boundary_of_comment (h : (boundary c ds).1 = .lineComment ∨ (boundary c ds).1 = .docComment) :
    ∃ es, c = '/' ∧ ds = '/' :: es ∧ (boundary c ds).2 = lineRest ds
      ∧ ((boundary c ds).1 = .docComment ↔ es.head? = some '!') := by
  have opens := boundary_opensKind c ds
  obtain rfl : c = '/' := by
    rcases h with h | h <;> rw [h] at opens <;> exact opens
  rw [boundary_slash] at h ⊢
  split at h
  · next second =>
    obtain ⟨es, rfl⟩ := List.head?_eq_some_iff.1 (beq_iff_eq.1 second)
    refine ⟨es, rfl, rfl, by rw [if_pos second], ?_⟩
    rw [if_pos second, List.tail_cons]
    by_cases mark : es.head? = some '!'
    · rw [if_pos (beq_iff_eq.2 mark)]
      exact ⟨fun _ => mark, fun _ => rfl⟩
    · rw [if_neg (by simpa using mark)]
      exact ⟨nofun, fun e => absurd e mark⟩
  · rcases h with h | h <;> cases h

/-- A comment is documentation if the character behind the slashes says so, also when the line ends
there. -/
theorem docMark_isPrefix (es : List Char) :
    "//!".toList <+: '/' :: '/' :: (es.takeWhile fun c => !endsLine c) ↔ es.head? = some '!' := by
  have mark : "//!".toList = '/' :: '/' :: ['!'] := rfl
  rw [mark, List.cons_prefix_cons, List.cons_prefix_cons]
  cases es with
  | nil => simp
  | cons e es =>
    by_cases same : e = '!'
    · subst same
      simp [endsLine]
    · by_cases ends : endsLine e = true <;> simp [same, ends, Ne.symm same]

/-- What ends a line starts no token. -/
theorem kind?_of_endsLine (h : endsLine c = true) (text : List Char) :
    kind? ⟨(boundary c ds).1, text⟩ = none := by
  unfold endsLine at h
  rw [Bool.or_eq_true, beq_iff_eq, beq_iff_eq] at h
  rcases h with rfl | rfl
  · rfl
  · have at_return : boundary '\r' ds
        = if ds.head? == some '\n' then (.newline, 1) else (.blanks, blankRun 0 ds) := rfl
    rw [at_return]
    split <;> rfl

end Lexeme

/-- The characters `text` of a comment in a source, between those `before` and those `rest` behind
it. -/
structure Comment.Spells (x : Comment) (source before text rest : List Char) : Prop where
  source : source = before ++ (text ++ rest)
  span : x.span = ⟨byteLength before, byteLength before + byteLength text⟩
  /-- The comment starts with its marker, -/
  marker : "//".toList <+: text
  /-- which is longer if the comment is documentation. -/
  doc : x.kind = .doc ↔ "//!".toList <+: text
  /-- It ends on its line, -/
  line : '\n' ∉ text
  /-- and goes on to where the line ends. -/
  ends : HeadIn (fun c => endsLine c = true) rest

/-- Every comment of a text is spelled in it. -/
theorem exists_spells {cs : List Char} {names : NameTable} {x : Comment}
    (h : x ∈ (lexChars cs names).comments.items.toList) :
    ∃ before text rest, x.Spells cs before text rest := by
  obtain ⟨p, before, c, ds, cut, span, kind⟩ := exists_cutFrom_of_comment h
  have comment : (Lexeme.boundary c ds).1 = .lineComment ∨ (Lexeme.boundary c ds).1 = .docComment := by
    rcases kind with ⟨kind, -⟩ | ⟨kind, -⟩
    · exact .inl (cut.kind.symm.trans kind)
    · exact .inr (cut.kind.symm.trans kind)
  have doc : x.kind = .doc ↔ (Lexeme.boundary c ds).1 = .docComment := by
    rw [← cut.kind]
    rcases kind with ⟨kind, sort⟩ | ⟨kind, sort⟩ <;> rw [kind, sort] <;> decide
  obtain ⟨es, rfl, rfl, length, mark⟩ := Lexeme.boundary_of_comment comment
  have text : p.lexeme.text = '/' :: '/' :: es.takeWhile fun c => !endsLine c := by
    rw [cut.text, length, Lexeme.lineRest, Lexeme.take_runLength]
    rfl
  have rest : ('/' :: es).drop (Lexeme.boundary '/' ('/' :: es)).2
      = es.dropWhile fun c => !endsLine c := by
    rw [length, Lexeme.lineRest]
    exact Lexeme.drop_runLength (fun c => !endsLine c) ('/' :: es)
  have inside : ∀ c ∈ es.takeWhile fun c => !endsLine c, (!endsLine c) = true := Lexeme.of_mem_takeWhile
  refine ⟨before, p.lexeme.text, es.dropWhile fun c => !endsLine c, ?_, ?_, ?_, ?_, ?_, ?_⟩
  · rw [← rest]
    exact cut.split
  · rw [← span]
    exact cut.span
  · rw [text]
    exact List.prefix_append ['/', '/'] _
  · rw [doc, mark, text]
    exact (Lexeme.docMark_isPrefix es).symm
  · rw [text]
    intro newline
    simp only [List.mem_cons, (by decide : '\n' ≠ '/'), false_or] at newline
    exact absurd (inside _ newline) (by decide)
  · intro c hc
    simpa using Lexeme.headIn_dropWhile (fun c => !endsLine c) es c hc

/-! ## Tokens behind a comment -/

/-- Whether a text starts with a carriage return that no newline follows. -/
def startsWithLoneReturn (cs : List Char) : Bool :=
  cs.head? == some '\r' && cs.tail.head? != some '\n'

/-- Where a line ends, but not before a lone carriage return, a newline stands before what goes on
behind it. -/
theorem newline_mem_of_ends {mid ds : List Char} {c : Char}
    (ends : HeadIn (fun c => endsLine c = true) (mid ++ c :: ds))
    (lone : startsWithLoneReturn (mid ++ c :: ds) = false) (plain : endsLine c = false) :
    '\n' ∈ mid := by
  cases mid with
  | nil =>
    have first : endsLine c = true := ends c rfl
    rw [plain] at first
    cases first
  | cons d mid =>
    have first : endsLine d = true := ends d rfl
    unfold endsLine at first
    rw [Bool.or_eq_true, beq_iff_eq, beq_iff_eq] at first
    rcases first with rfl | rfl
    · exact List.mem_cons_self
    · -- behind the carriage return is a newline, and `c` is none
      cases mid with
      | nil =>
        have head : c = '\n' := by simpa [startsWithLoneReturn] using lone
        rw [head] at plain
        cases plain
      | cons e mid =>
        have head : e = '\n' := by simpa [startsWithLoneReturn] using lone
        rw [head]
        exact List.mem_cons_of_mem _ List.mem_cons_self

/-- No token behind a comment is on the comment's line, as the line table counts lines, if the comment
does not end before a lone carriage return. -/
theorem tokens_behind_comment (source : String) (names : NameTable) {x : Comment}
    (h : x ∈ (lex source names).comments.items.toList) :
    ∃ before text rest, x.Spells source.toList before text rest
      ∧ (startsWithLoneReturn rest = false →
        ∀ t ∈ (lex source names).tokens.items.toList, t.kind ≠ .lineBreak → t.kind ≠ .eof →
          x.span.stop ≤ t.span.start →
          (LineTable.ofText source).line x.span.start < (LineTable.ofText source).line t.span.start) := by
  obtain ⟨before, text, rest, spells⟩ := exists_spells h
  refine ⟨before, text, rest, spells, fun lone t ht lineBreak eof behind => ?_⟩
  obtain ⟨q, before', c, ds, cut, word, place⟩ := exists_cutFrom_of_word ht rfl lineBreak eof
  rw [← place, cut.span, spells.span] at behind
  -- the token stands somewhere in `rest`
  obtain ⟨mid, split⟩ : before ++ text <+: before' := by
    have first : before ++ text <+: source.toList :=
      ⟨rest, by rw [spells.source, List.append_assoc]⟩
    refine Text.isPrefix_of_byteLength_le first ⟨c :: ds, cut.source.symm⟩ ?_
    rw [Text.byteLength_append]
    exact behind
  have rest_eq : rest = mid ++ c :: ds := by
    have whole := spells.source.symm.trans cut.source
    rw [← split, ← List.append_assoc, List.append_assoc _ mid] at whole
    exact List.append_cancel_left whole
  have plain : endsLine c = false := by
    rw [cut.lexeme] at word
    by_contra ends
    rw [Lexeme.kind?_of_endsLine (by simpa using ends)] at word
    cases word
  have newline : '\n' ∈ mid :=
    newline_mem_of_ends (rest_eq ▸ spells.ends) (rest_eq ▸ lone) plain
  have more := List.count_pos_iff.2 newline
  rw [← place, cut.span, spells.span, LineTable.line_ofText spells.source,
    LineTable.line_ofText cut.source, ← split, List.count_append, List.count_append]
  omega

/-- A carriage return with its newline ends the line of a comment for both. -/
theorem tokens_behind_documentation :
    let source := "x //! é\r\ny"
    let out := lex source .empty
    let x : Comment := ⟨"é", ⟨2, 8⟩, .doc⟩
    x ∈ out.comments.items.toList ∧ ∃ before text rest, x.Spells source.toList before text rest
      ∧ (startsWithLoneReturn rest = false →
        ∀ t ∈ out.tokens.items.toList, t.kind ≠ .lineBreak → t.kind ≠ .eof →
          x.span.stop ≤ t.span.start →
          (LineTable.ofText source).line x.span.start < (LineTable.ofText source).line t.span.start) := by
  intro source out x
  have comment : x ∈ out.comments.items.toList := by decide +kernel
  exact ⟨comment, tokens_behind_comment source .empty comment⟩

/-- Behind a comment that ends before a lone carriage return, a token stands on the comment's line. -/
theorem token_behind_lone_return :
    let source := "// a\rb"
    let out := lex source .empty
    ∃ x ∈ out.comments.items.toList, ∃ t ∈ out.tokens.items.toList,
      t.kind ≠ .lineBreak ∧ t.kind ≠ .eof ∧ x.span.stop ≤ t.span.start
        ∧ (LineTable.ofText source).line t.span.start
          = (LineTable.ofText source).line x.span.start := by
  decide +kernel

end Surface
