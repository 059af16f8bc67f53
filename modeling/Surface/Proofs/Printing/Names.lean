import Surface.Layout.Syntax
import Surface.Proofs.Grammar.Derivation
import Surface.Proofs.Printing.Edges
import Surface.Proofs.Tree.Between

/-!
# Printing names

Next to a name, a path or a literal the printer puts no blank. What may follow them is what a token
ends before, a bar and a dot: a bar runs into a name made of symbols, and so does a dot. A single quote
is a name that becomes the first quote of a character with almost anything behind it.

Results:
* `Setting.Source`: what holds of the tokens of a text.
* `NameAt.legible`, `literal_legible`: names and literals stay apart from what may follow them.
-/

namespace Surface

open Lexeme (HeadIn Legible isSymbol)

namespace Grammar

/-! ## Streams that come from a text -/

/-- A setting whose tokens come from a text. All of them but a single quote are read as they are
written, whatever else may stand behind. -/
structure Setting.Source (S : Setting) : Prop where
  groups : S.input.groups = .ofTokens S.input.tokens
  bars : ∀ i, S.kind i ≠ .operator Reserved.pipe.text
  legible : ∀ i, S.tag i ≠ .error → S.tag i ≠ .lineBreak → S.tag i ≠ .eof → S.kind i ≠ .ident "'" →
    Legible (S.kind i)
  named : ∀ i n, (S.kind i).name? = some n → (Layout.nameText n).toList = (S.kind i).written
  numbers : ∀ i n, S.kind i = .number n → n.Proper
  lines : ∀ c ∈ S.input.comments.items, ∀ x ∈ c.content.toList, Lexeme.endsLine x = false
  trimmed : ∀ c ∈ S.input.comments.items, Text.trim c.content.toList = c.content.toList

variable {S : Setting} {b : Bool} {i : Nat}

/-! ## Names -/

theorem fresh_of_ne {c : Char} (h : c ≠ '#') (hs : isSymbol c = false) :
    (Edge.fresh True).Takes c :=
  Edge.first_takes ⟨h, fun _ => hs⟩

theorem fresh_of_startsWord {c : Char} (h : Lexeme.startsWord c = true) :
    (Edge.fresh True).Takes c := by
  refine fresh_of_ne ?_ (Bool.eq_false_iff.2 fun symbol => ?_)
  · rintro rfl
    cases h
  · rw [(Lexeme.of_isSymbol symbol).1] at h
    cases h

theorem nameText_fresh (n : String) :
    ∀ rest, (Edge.fresh True).admits ((Layout.nameText n).toList ++ rest) := by
  intro rest
  unfold Layout.nameText
  split
  · next h =>
    cases hn : n.toList with
    | nil =>
      rw [hn] at h
      cases h
    | cons c cs =>
      rw [hn] at h
      exact fresh_of_startsWord h _
  · rw [String.toList_append]
    exact fresh_of_ne (by decide) rfl _

theorem number_fresh {n : Number} (h : n.Proper) :
    ∀ rest, (Edge.fresh True).admits (n.text.toList ++ rest) := by
  intro rest
  obtain ⟨c, cs, text, digit⟩ := Lexeme.isDigit_text h
  rw [text]
  refine fresh_of_ne ?_ (Bool.eq_false_iff.2 fun symbol => ?_) _
  · rintro rfl
    cases digit
  · rw [(Lexeme.of_isSymbol symbol).2] at digit
    cases digit

/-- A name stays apart from what may follow it. A bar or a dot behind a name made of symbols would become
part of it. -/
theorem Setting.NameAt.legible {x : Ident} (s : S.Source) (h : S.NameAt i x) (quote : x.name ≠ "'") :
    let plain := S.tag i ≠ .symbolIdent
    Legible (S.kind i)
      ∧ ∀ rest, (Edge.stops plain plain).admits rest → HeadIn (S.kind i).EndsBefore rest := by
  intro plain
  have name := h.1
  have tag := Setting.tag_of_name name
  have ne {t : Tag} (ht : nameTags.contains t = false) : S.tag i ≠ t :=
    Setting.ne_of_contains tag ht
  refine ⟨s.legible i (ne (by decide)) (ne (by decide)) (ne (by decide)) fun e => quote ?_,
    fun rest hr c hc => ?_⟩
  · rw [e] at name
    exact (Option.some.inj name).symm
  obtain ⟨word, symbol⟩ := hr c hc
  cases hk : S.kind i <;> rw [hk] at name <;> cases name
  · exact word
  · have tag : S.tag i = .symbolIdent := by rw [← S.tag_kind, hk]; rfl
    refine Bool.eq_false_iff.2 fun h => ?_
    rcases symbol h with ⟨-, plain⟩ | ⟨-, plain⟩ <;> exact plain tag

theorem toList_pathText (x : Ident) (xs : List Ident) : (Layout.pathText ⟨x, xs⟩).toList
    = (Layout.nameText x.name).toList
      ++ xs.flatMap fun y => '.' :: (Layout.nameText y.name).toList := by
  unfold Layout.pathText
  show (".".intercalate (Layout.nameText x.name :: xs.map fun y => Layout.nameText y.name)).toList = _
  induction xs generalizing x with
  | nil => exact (List.append_nil _).symm
  | cons y ys ih =>
    rw [List.map_cons, String.intercalate_cons_cons, String.toList_append, String.toList_append, ih y,
      List.flatMap_cons, List.append_assoc]
    rfl

/-! ## Literals -/

theorem literalText_written {k : TokenKind} {v : Literal} (h : k.literal? = some v) :
    (Layout.literalText v).toList = k.written := by
  cases k <;> cases h <;> rfl

theorem delimited_fresh {d : Char} (h : (Edge.fresh True).Takes d) (cs : List Char) :
    ∀ rest, (Edge.fresh True).admits ((Layout.delimited d cs).toList ++ rest) := by
  intro rest
  unfold Layout.delimited
  rw [String.toList_ofList]
  exact h _

/-- A literal stays apart from what may stand before it and behind it. -/
theorem literal_legible {v : Literal} (s : S.Source) (h : (S.kind i).literal? = some v) :
    Legible (S.kind i) ∧ (∀ rest, (Edge.fresh True).admits ((S.kind i).written ++ rest))
      ∧ ∀ rest, (Edge.stops True False).admits rest → HeadIn (S.kind i).EndsBefore rest := by
  have ne {t : Tag} (ht : t ≠ .string ∧ t ≠ .char ∧ t ≠ .number) : S.tag i ≠ t := by
    rintro rfl
    rcases Setting.tag_of_literal h with h | h | h
    · exact ht.1 h
    · exact ht.2.1 h
    · exact ht.2.2 h
  refine ⟨s.legible i (ne (by decide)) (ne (by decide)) (ne (by decide)) fun e => ?_, ?_⟩
  · rw [e] at h
    cases h
  cases hk : S.kind i with
  | number n =>
    -- a number goes on with a dot, which stands behind names only
    refine ⟨number_fresh (s.numbers i n hk), fun rest hr c hc => ?_⟩
    obtain ⟨word, symbol⟩ := hr c hc
    refine ⟨word, ?_⟩
    rintro rfl
    rcases symbol rfl with ⟨h, -⟩ | ⟨-, h⟩
    · exact absurd h (by decide)
    · exact h
  | string s => exact ⟨delimited_fresh (fresh_of_ne (by decide) rfl) _, fun _ _ _ _ => trivial⟩
  | char c => exact ⟨delimited_fresh (fresh_of_ne (by decide) rfl) _, Edge.stops_le_wordEnd⟩
  | _ =>
    rw [hk] at h
    cases h

end Grammar

end Surface
