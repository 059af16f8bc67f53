import Surface.Proofs.Lexing.Places
import Surface.Proofs.Lexing.Spelled

/-!
# Tokens and comments in their source

Every token and every comment is cut from the source at one place: there is a text before it, and the
text from its first character on decides what it is and where it ends. What a lexeme says of the text
behind it can therefore be said of the source.

Results:
* `Placed.CutFrom`: a lexeme with the text before it and the text it starts; `Placed.exists_cutFrom`.
* `exists_cutFrom_of_word`, `exists_cutFrom_of_comment`: tokens and comments are cut from their source.
-/

namespace Surface

open Text (byteLength)

variable {p : Placed} {cs before ds : List Char} {c : Char}

/-! ## Lexemes in their source -/

/-- A lexeme is cut from a text behind `before`, where the text goes on with `c` and `ds`. -/
structure Placed.CutFrom (p : Placed) (cs before : List Char) (c : Char) (ds : List Char) : Prop where
  source : cs = before ++ c :: ds
  lexeme : p.lexeme = ⟨(Lexeme.boundary c ds).1, c :: ds.take (Lexeme.boundary c ds).2⟩
  span : p.span = ⟨byteLength before, byteLength before + byteLength p.lexeme.text⟩

namespace Placed.CutFrom

theorem kind (h : p.CutFrom cs before c ds) : p.lexeme.kind = (Lexeme.boundary c ds).1 := by
  rw [h.lexeme]

theorem text (h : p.CutFrom cs before c ds) :
    p.lexeme.text = c :: ds.take (Lexeme.boundary c ds).2 := by
  rw [h.lexeme]

theorem boundary (h : p.CutFrom cs before c ds) {k : LexemeKind} (hk : p.lexeme.kind = k) :
    Lexeme.boundary c ds = (k, (Lexeme.boundary c ds).2) :=
  Prod.ext (h.kind.symm.trans hk) rfl

/-- The first character of a lexeme is one that its kind starts with. -/
theorem opens (h : p.CutFrom cs before c ds) {k : LexemeKind} (hk : p.lexeme.kind = k) :
    Lexeme.OpensKind k c := by
  rw [← hk, h.kind]
  exact Lexeme.boundary_opensKind c ds

/-- The source is what stands before a lexeme, the lexeme and what stands behind it. -/
theorem split (h : p.CutFrom cs before c ds) :
    cs = before ++ (p.lexeme.text ++ ds.drop (Lexeme.boundary c ds).2) := by
  rw [h.source, h.lexeme, List.cons_append, List.take_append_drop]

end Placed.CutFrom

/-- Lexemes that follow each other are cut from the text that they are together. -/
theorem Placed.cutFrom_placed (before cs : List Char)
    (h : p ∈ Lexeme.placed (byteLength before) (Lexeme.lexemes cs)) :
    ∃ before' c ds, p.CutFrom (before ++ cs) before' c ds := by
  generalize hn : cs.length = n
  induction n using Nat.strongRecOn generalizing before cs with
  | ind n ih =>
    cases cs with
    | nil =>
      rw [Lexeme.lexemes_nil] at h
      cases h
    | cons c ds =>
      rw [Lexeme.lexemes_cons, Lexeme.placed] at h
      rcases List.mem_cons.1 h with rfl | h
      · exact ⟨before, c, ds, rfl, rfl, rfl⟩
      · rw [← Text.byteLength_append] at h
        have shorter : (ds.drop (Lexeme.boundary c ds).2).length < n := by
          rw [← hn, List.length_drop, List.length_cons]
          omega
        obtain ⟨before', c', ds', cut⟩ := ih _ shorter _ _ h rfl
        rw [List.append_assoc, List.cons_append, List.take_append_drop] at cut
        exact ⟨before', c', ds', cut⟩

/-- Every lexeme of a text is cut from it. -/
theorem Placed.exists_cutFrom (h : p ∈ placedLexemes cs) :
    ∃ before c ds, p.CutFrom cs before c ds := by
  have cut := Placed.cutFrom_placed ((shebangOf cs).getD []) (behindShebang cs) h
  rwa [append_behindShebang] at cut

/-! ## Tokens and comments -/

/-- A token that is no line break and not the end is cut from its source. -/
theorem exists_cutFrom_of_word {names : NameTable} {t : Token} {k : TokenKind}
    (h : t ∈ (lexChars cs names).tokens.items.toList) (hk : t.kind = k) (lineBreak : k ≠ .lineBreak)
    (eof : k ≠ .eof) : ∃ p before c ds, Placed.CutFrom p cs before c ds
      ∧ p.lexeme.kind? = some k ∧ p.span = t.span := by
  subst hk
  have word : (t.kind, t.span) ∈ (lexChars cs names).tokens.words :=
    List.mem_map_of_mem (f := fun t : Token => (t.kind, t.span))
      (List.mem_filter.2 ⟨h, by simp [lineBreak, eof]⟩)
  rw [(lexChars_placed cs names).1] at word
  obtain ⟨p, hp, cut⟩ := List.mem_filterMap.1 word
  obtain ⟨kind, hk, same⟩ := Option.map_eq_some_iff.1 cut
  obtain ⟨rfl, span⟩ := Prod.mk.inj same
  obtain ⟨before, c, ds, cut⟩ := Placed.exists_cutFrom hp
  exact ⟨p, before, c, ds, cut, hk, span⟩

/-- A comment is cut from its source, and its marker tells which kind of comment it is. -/
theorem exists_cutFrom_of_comment {names : NameTable} {x : Comment}
    (h : x ∈ (lexChars cs names).comments.items.toList) :
    ∃ p before c ds, Placed.CutFrom p cs before c ds ∧ p.span = x.span
      ∧ (p.lexeme.kind = .lineComment ∧ x.kind = .line
        ∨ p.lexeme.kind = .docComment ∧ x.kind = .doc) := by
  rw [(lexChars_placed cs names).2] at h
  obtain ⟨p, hp, comment⟩ := List.mem_filterMap.1 h
  obtain ⟨before, c, ds, cut⟩ := Placed.exists_cutFrom hp
  refine ⟨p, before, c, ds, cut, ?_⟩
  unfold Placed.comment? at comment
  split at comment
  · next line =>
    obtain rfl := Option.some.inj comment
    exact ⟨rfl, .inl ⟨line, rfl⟩⟩
  · next doc =>
    obtain rfl := Option.some.inj comment
    exact ⟨rfl, .inr ⟨doc, rfl⟩⟩
  · cases comment

end Surface
