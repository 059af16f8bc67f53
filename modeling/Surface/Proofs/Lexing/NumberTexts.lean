import Surface.Proofs.Lexing.Sources

/-!
# Numbers in their source

Where a number ends is decided when the text is cut, and what its parts are when it becomes a token. Both
find the same parts: the number token holds the digits and the suffix that stand in the source, as many
as there are, and between them, the mark of the base and the text behind nothing is lost.

Results:
* `number_in_source`: every number of a source, with the text around it; `NumberAt` says that no digit
  and no suffix is left over.
-/

namespace Surface

open Text (byteLength)
open Lexeme (NumberAt suffixChars)

/-- A number stands in its source as the mark of its base, its digits and its suffix, and it is the number
that the source has there. -/
theorem number_in_source (source : String) (names : NameTable) {t : Token} {n : Number}
    (h : t ∈ (lex source names).tokens.items.toList) (hn : t.kind = .number n) :
    ∃ before mark rest,
      source.toList = before ++ (mark ++ (n.digits.toList ++ suffixChars n.suffix) ++ rest)
        ∧ t.span = ⟨byteLength before,
            byteLength before + byteLength (mark ++ (n.digits.toList ++ suffixChars n.suffix))⟩
        ∧ NumberAt n mark (suffixChars n.suffix ++ rest) := by
  obtain ⟨p, before, c, ds, cut, word, place⟩ :=
    exists_cutFrom_of_word h hn (TokenKind.ne_of_tag Tag.noConfusion) (TokenKind.ne_of_tag Tag.noConfusion)
  obtain ⟨b, f, kind, rfl⟩ := Lexeme.number_of_kind? word
  have digit : Lexeme.isDigit c = true := cut.opens kind
  have boundary : Lexeme.numberRest c ds = (.number b f, (Lexeme.boundary c ds).2) :=
    (Lexeme.boundary_of_isDigit digit ds).symm.trans (cut.boundary kind)
  obtain ⟨mark, text, number⟩ := Lexeme.exists_numberAt digit boundary
  rw [← cut.text] at text number
  refine ⟨before, mark, ds.drop (Lexeme.boundary c ds).2, ?_, ?_, number⟩
  · rw [← text]
    exact cut.split
  · rw [← text, ← place]
    exact cut.span

/-- What could be the suffix of another number is three digits here. -/
theorem number_in_source_hex :
    let source := "x 0Xf32u128y"
    let n : Number := ⟨.hex, "f32", some .u128, false⟩
    let t : Token := ⟨.number n, ⟨2, 11⟩, Spacing.none.set Spacing.spaceBefore⟩
    t ∈ (lex source .empty).tokens.items.toList ∧ ∃ before mark rest,
      source.toList = before ++ (mark ++ (n.digits.toList ++ suffixChars n.suffix) ++ rest)
        ∧ t.span = ⟨byteLength before,
            byteLength before + byteLength (mark ++ (n.digits.toList ++ suffixChars n.suffix))⟩
        ∧ NumberAt n mark (suffixChars n.suffix ++ rest) := by
  intro source n t
  have mem : t ∈ (lex source .empty).tokens.items.toList := by decide +kernel
  exact ⟨mem, number_in_source source .empty mem rfl⟩

end Surface
