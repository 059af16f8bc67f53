import Surface.Proofs.Lexing.Alone

/-!
# Text behind a token

A text that ends with a token keeps all its lexemes when a blank and any other text is written behind it:
what could go on with its last lexeme is cut off by the blank.

Results:
* `Lexeme.lexemes_front`: the lexemes of a text in front of a blank.
* `closed_of_last`: the last lexeme of a text that ends with a token.
-/

namespace Surface

open Text (byteLength)

namespace Lexeme

variable {c : Char} {cs rest : List Char}

/-- Blanks that end within a text do not depend on what stands behind the text. -/
theorem blankRun_within (h : blankRun 0 cs < cs.length) :
    blankRun 0 (cs ++ ' ' :: rest) = blankRun 0 cs := by
  induction cs with
  | nil => exact absurd h (Nat.lt_irrefl _)
  | cons c cs ih =>
    rw [blankRun] at h
    rw [List.cons_append, blankRun, blankRun, bne, bne, head_front (by decide)]
    split
    · next blank =>
      rw [bne, if_pos blank, blankRun_eq, List.length_cons] at h
      rw [blankRun_eq, blankRun_eq (0 + 1) cs, ih (by omega)]
    · rfl

/-- A blank does not change where a lexeme ends that ends before it, unless it can go on with it. -/
theorem boundary_blank_front (quote : rest.head? ≠ some '\'')
    (ends : (boundary c cs).1.isOpen = true → (boundary c cs).2 < cs.length) :
    boundary c (cs ++ ' ' :: rest) = boundary c cs := by
  by_cases carriage : (c == '\r' && cs.head? == some '\n') = true
  · obtain ⟨first, newline⟩ := Bool.and_eq_true_iff.1 carriage
    obtain ⟨behind, rfl⟩ := List.head?_eq_some_iff.1 (beq_iff_eq.1 newline)
    obtain rfl := beq_iff_eq.1 first
    rfl
  by_cases blank : (isHorizontal c || c == '\r') = true
  · rw [boundary_blank blank carriage] at ends ⊢
    rw [boundary_blank blank (by rwa [head_front (by decide)]), blankRun_within (ends rfl)]
  · rw [Bool.or_eq_true, beq_iff_eq, not_or, Bool.not_eq_true] at blank
    exact boundary_front neutral_blank blank.1 blank.2 (.inr ⟨quote, ends⟩)

/-- A text of which the last lexeme is closed has the same lexemes in front of a blank. -/
theorem lexemes_front (quote : rest.head? ≠ some '\'')
    (closed : ∀ l ∈ (lexemes cs).getLast?, l.kind.isOpen = false) :
    lexemes (cs ++ ' ' :: rest) = lexemes cs ++ lexemes (' ' :: rest) := by
  generalize hn : cs.length = n
  induction n using Nat.strongRecOn generalizing cs with
  | ind n ih =>
    cases cs with
    | nil =>
      rw [lexemes_nil]
      rfl
    | cons c ds =>
      have within := boundary_le c ds
      have front : boundary c (ds ++ ' ' :: rest) = boundary c ds := by
        refine boundary_blank_front quote fun unclosed => Nat.lt_of_le_of_ne within fun last => ?_
        rw [lexemes_cons, last, List.drop_length, lexemes_nil] at closed
        exact Bool.false_ne_true ((closed _ rfl).symm.trans unclosed)
      have behind : ∀ l ∈ (lexemes (ds.drop (boundary c ds).2)).getLast?, l.kind.isOpen = false := by
        intro l hl
        refine closed l ?_
        rw [lexemes_cons, List.getLast?_cons, hl]
        rfl
      have shorter : (ds.drop (boundary c ds).2).length < n := by
        rw [← hn, List.length_drop, List.length_cons]
        omega
      rw [List.cons_append, lexemes_cons, front, List.take_append_of_le_length within,
        List.drop_append_of_le_length within, ih _ shorter behind rfl, ← List.cons_append,
        ← lexemes_cons c ds]

/-- A text of which the last lexeme is closed means the same in front of a blank. -/
theorem signs_front (quote : rest.head? ≠ some '\'')
    (closed : ∀ l ∈ (lexemes cs).getLast?, l.kind.isOpen = false) :
    signs (cs ++ ' ' :: rest) = signs cs ++ signs rest := by
  have blank : signs (' ' :: rest) = signs rest := signs_blank rfl (by simp)
  rw [← blank]
  unfold signs
  rw [lexemes_front quote closed, List.filterMap_append]

/-- A lexeme that stands for a token, and not for an error, is closed. -/
theorem closed_of_kind? {l : Lexeme} {k : TokenKind} (h : l.kind? = some k) (sound : k.tag ≠ .error) :
    l.kind.isOpen = false := by
  refine eq_false_of_ne_true fun unclosed => ?_
  unfold kind? at h
  cases hl : l.kind <;> rw [hl] at h unclosed <;> cases unclosed <;> cases h <;> exact sound rfl

end Lexeme

/-- What a token is read from ends with a closed lexeme, unless the token is an error. -/
theorem ReadFrom.closed {mid : List Lexeme} {r : TokenKind × Bool} (h : ReadFrom mid r)
    (sound : r.1.tag ≠ .error) : mid ≠ [] ∧ ∀ l ∈ mid.getLast?, l.kind.isOpen = false := by
  cases h with
  | word stands =>
    refine ⟨List.cons_ne_nil _ _, fun l last => ?_⟩
    cases last
    exact Lexeme.closed_of_kind? stands sound
  | lineBreak gap ends closed =>
    refine ⟨?_, closed⟩
    rintro rfl
    cases ends

/-- A text that ends with a token, and not with an error, ends with a lexeme that nothing goes on with. -/
theorem closed_of_last {cs : List Char} {names : NameTable} {t : Token}
    (h : t ∈ (lexChars cs names).tokens.items.toList) (hk : t.kind ≠ .eof) (sound : t.tag ≠ .error)
    (ends : t.span.stop = byteLength cs) :
    ∀ l ∈ (Lexeme.lexemes (behindShebang cs)).getLast?, l.kind.isOpen = false := by
  obtain ⟨before, mid, behind, parts, reads, span⟩ := lexChars_origin h hk
  obtain ⟨some, closed⟩ := reads.closed sound
  have nothing : behind = [] := by
    have whole := byteLength_behind_shebang cs
    have body := congrArg (fun ls => byteLength (ls.flatMap Lexeme.text)) parts
    rw [span] at ends
    simp only [Lexeme.flatMap_text_lexemes, List.flatMap_append, Text.byteLength_append, behindShebang,
      spanBehind] at whole body ends
    cases behind with
    | nil => rfl
    | cons l behind =>
      have solid : l.text ≠ [] := Lexeme.text_ne_nil l (by rw [parts]; simp)
      have := Text.byteLength_pos solid
      rw [List.flatMap_cons, Text.byteLength_append] at body
      omega
  obtain ⟨last, hlast⟩ := Option.ne_none_iff_exists'.1 (mt List.getLast?_eq_none_iff.1 some)
  rw [parts, nothing, List.append_nil, List.getLast?_append, hlast]
  exact fun l hl => closed l (hlast.trans hl)

end Surface
