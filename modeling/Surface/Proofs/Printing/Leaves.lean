import Surface.Proofs.Lexing.Spelled

/-!
# Names and literals are read as they are printed

A name or a literal that is printed on its own is read as one token, the one that it was printed for.

Results:
* `readAs_of_signs`: a text that means one token is read as this token and the end.
* `lex_printed_leaves`: all strings, all characters, and all numbers and names that texts have.
-/

namespace Surface

open Lexeme (signs Legible)

/-- A text is read as one token and nothing else. -/
def ReadAs (text : String) (k : TokenKind) : Prop :=
  ∀ names, (lex text names).tokens.items.toList.map Token.kind = [k, .eof]

/-- A text that means one token is read as this token, unless it starts like the first line of a
script. -/
theorem readAs_of_signs {text : String} {k : TokenKind} (h : signs text.toList = [.token k])
    (hk : k ≠ .punct .hash) : ReadAs text k := by
  intro names
  have whole : behindShebang text.toList = text.toList := by
    refine (behindShebang_eq_self ?_).2
    rintro ⟨rest, start⟩
    have first : signs ('#' :: '!' :: rest) = .token (.punct .hash) :: signs ('!' :: rest) :=
      Lexeme.signs_cons '#' ('!' :: rest)
    rw [← start] at h
    have token := (List.cons.inj (first.symm.trans h)).1
    cases token
    exact hk rfl
  have readings := lexChars_readings text.toList names
  rw [whole, h] at readings
  have kinds := congrArg (List.map Prod.fst) readings
  rw [Tokens.readings, List.map_map] at kinds
  exact kinds

theorem readAs_of_legible {text : String} {k : TokenKind} (h : Legible k)
    (written : text.toList = k.written) (hk : k ≠ .punct .hash) : ReadAs text k := by
  have alone := h [] nofun
  rw [List.append_nil, Lexeme.signs_nil, ← written] at alone
  exact readAs_of_signs alone hk

/-- Whatever is printed for a name or a literal is read as what it was printed for: every string and
every character, and every number and name that stands in a text, a single quote among them. -/
theorem lex_printed_leaves :
    (∀ s, ReadAs (Layout.literalText (.string s)) (.string s))
      ∧ (∀ c, ReadAs (Layout.literalText (.char c)) (.char c))
      ∧ ∀ source names, ∀ t ∈ (lex source names).tokens.items.toList,
        (∀ n, t.kind = .number n → ReadAs (Layout.literalText (.number n)) t.kind)
          ∧ ∀ n, t.kind.name? = some n → ReadAs (Layout.nameText n) t.kind := by
  refine ⟨fun s => ?_, fun c => ?_, fun source names t ht => ⟨fun n number => ?_, fun n name => ?_⟩⟩
  · exact readAs_of_legible (Lexeme.legible_string s) rfl (TokenKind.ne_of_tag Tag.noConfusion)
  · exact readAs_of_legible (Lexeme.legible_char c) rfl (TokenKind.ne_of_tag Tag.noConfusion)
  · rcases kind_of_lexChars ht with none | none | ⟨l, hl, hk⟩
    · cases number.symm.trans none
    · cases number.symm.trans none
    · rw [number] at hk ⊢
      exact readAs_of_legible (Lexeme.legible_number (Lexeme.proper_of_mem hl hk)) rfl
        (TokenKind.ne_of_tag Tag.noConfusion)
  · rcases kind_of_lexChars ht with none | none | ⟨l, hl, hk⟩
    · rw [none] at name
      cases name
    · rw [none] at name
      cases name
    · have written := Lexeme.nameText_of_mem hl hk name
      have plain : t.kind ≠ .punct .hash ∧ t.kind.tag ≠ .error := by
        constructor <;> intro e <;> cases h : t.kind <;> rw [h] at name e <;> cases name <;> cases e
      by_cases quote : t.kind = .ident "'"
      · -- with nothing behind it a single quote is no quote of a character
        rw [quote] at name ⊢
        cases name
        refine readAs_of_signs ?_ (TokenKind.ne_of_tag Tag.noConfusion)
        decide +kernel
      · exact readAs_of_legible (Lexeme.legible_of_mem hl hk plain.2 quote) written plain.1

/-- The mark of a base is printed in lower case. -/
theorem lex_printed_leaves_number :
    let n : Number := ⟨.hex, "1F", some .u8, false⟩
    let t : Token := ⟨.number n, ⟨0, 6⟩, .none⟩
    t ∈ (lex "0X1Fu8" .empty).tokens.items.toList ∧ t.kind = .number n ∧ ReadAs "0x1Fu8" (.number n) := by
  intro n t
  have ht : t ∈ (lex "0X1Fu8" .empty).tokens.items.toList := by decide +kernel
  exact ⟨ht, rfl, (lex_printed_leaves.2.2 "0X1Fu8" .empty t ht).1 n rfl⟩

end Surface
