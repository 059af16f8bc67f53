import Surface.Diagnostic.Report
import Surface.Proofs.Diagnostic.Lines

/-!
# Underlines

A label of a report quotes the line on which its span starts. The marks under it begin where the span
does. They are as many as the bytes of the span, not as its characters: where a character of the span
takes several bytes, more characters than those of the span may be marked, up to the end of the line.

Results:
* `Report.quotedLabel_append`: the text of a label whose span is a part of the source.
* `Report.underline_eq`: the marks under its line.
* `Diagnostic.report_underlines`: in a report every label has its marks, and they are those of its
  characters unless characters of several bytes stand in it and the line goes on behind it.
* `Diagnostic.marks_behind_lambda`: a mark under a character that does not belong to the label.
-/

namespace Surface

open Text (byteLength lastLine firstLine withoutEnd)

namespace Text

/-- What is left of a text's second part when the end is trimmed. -/
theorem drop_withoutEnd (as bs : List Char) : (withoutEnd (as ++ bs)).drop as.length = withoutEnd bs := by
  rw [withoutEnd, withoutEnd, dropEndWhile, dropEndWhile, List.reverse_append, List.dropWhile_append]
  split
  · next none =>
    have shorter := (List.dropWhile_sublist (fun c : Char => c = '\n' || c = '\r')
      (l := as.reverse)).length_le
    rw [List.isEmpty_iff.1 none, List.drop_eq_nil_of_le]
    · rfl
    · rw [List.length_reverse]
      exact shorter.trans_eq List.length_reverse
  · rw [List.reverse_append, List.reverse_reverse, List.drop_left]

theorem length_le_byteLength (cs : List Char) : cs.length ≤ byteLength cs := by
  induction cs with
  | nil => exact Nat.le_refl 0
  | cons c cs ih =>
    have := c.utf8Size_pos
    rw [List.length_cons, byteLength_cons]
    omega

end Text

namespace Report

variable {as bs cs : List Char} {l : Label}

/-- How many marks stand under a label that covers the characters `covered`, on a line that goes on with
`here` from where it starts. -/
def marks (covered here : List Char) : Nat := max 1 (min (byteLength covered) here.length)

/-- They are those of the characters covered, as far as the line goes, unless these have more bytes than
characters and the line goes on behind them. -/
theorem marks_eq_iff (covered here : List Char) :
    marks covered here = max 1 (min covered.length here.length)
      ↔ here.length ≤ covered.length ∨ byteLength covered = covered.length := by
  have more := Text.length_le_byteLength covered
  have empty : covered.length = 0 → byteLength covered = 0 := by
    intro none
    rw [List.eq_nil_of_length_eq_zero none, Text.byteLength_nil]
  rw [marks]
  omega

/-- Under the line are as many blanks as characters stand before the label, and its marks. -/
theorem underline_eq (before covered rest : List Char) (size : l.span.size = byteLength covered) :
    underline (withoutEnd (before ++ firstLine (covered ++ rest))) (1 + before.length) l
      = times before.length ' '
        ++ times (marks covered (withoutEnd (firstLine (covered ++ rest))))
          (if l.isPrimary then '^' else '-') := by
  rw [underline, underlineWidth, Nat.add_sub_cancel_left, Text.drop_withoutEnd, size, marks]

/-- What a label quotes: the place, the line and the marks under it, behind as many blanks as characters
stand before them. -/
def quotation (color : Bool) (name : String) (l : Label) (line before : Nat) (text : List Char)
    (count : Nat) : String :=
  let number := toString line
  let gutter := times number.length ' '
  gutter ++ "--> " ++ name ++ ":" ++ number ++ ":" ++ toString (1 + before) ++ "\n"
    ++ gutter ++ " |\n"
    ++ number ++ " | " ++ String.ofList text ++ "\n"
    ++ gutter ++ " | "
    ++ styled color (labelStyle l.isPrimary)
      (times before ' ' ++ times count (if l.isPrimary then '^' else '-') ++ " " ++ l.message)
    ++ "\n"

/-- The text of a label that covers `bs` in a source. -/
theorem quotedLabel_append {name source : String} (color : Bool)
    (split : source.toList = as ++ (bs ++ cs))
    (place : l.span = ⟨byteLength as, byteLength as + byteLength bs⟩)
    (fits : byteLength source.toList < Span.offsetBound) :
    quotedLabel color (.ofText name source) l
      = quotation color name l (1 + as.count '\n') (lastLine as).length
        (withoutEnd (lastLine as ++ firstLine (bs ++ cs)))
        (marks bs (withoutEnd (firstLine (bs ++ cs)))) := by
  have size : l.span.size = byteLength bs := by
    rw [split, Text.byteLength_append, Text.byteLength_append] at fits
    rw [place]
    dsimp only [Span.size]
    rw [Nat.add_right_comm, Nat.add_assoc, Nat.add_sub_cancel_left, Nat.add_comm,
      Nat.add_mod_right]
    exact Nat.mod_eq_of_lt (by omega)
  have start : l.span.start = byteLength as := by rw [place]
  have text : (LineTable.ofText source).lineText? source.toList (1 + as.count '\n')
      = some (withoutEnd (lastLine as ++ firstLine (bs ++ cs))) := by
    rw [LineTable.ofText, split, LineTable.lineText?_append]
  -- `rw [quotedLabel]` would evaluate the texts of the quotation to find its equation
  delta quotedLabel Quotable.ofText
  rw [start, LineTable.lineColumn_ofText split]
  dsimp only
  rw [text, Option.getD_some, underline_eq (lastLine as) bs cs size]
  rfl

end Report

/-! ## Reports -/

/-- What is mapped to is a part of the whole. -/
theorem exists_join_map {α : Type} (f : α → String) {x : α} {xs : List α} (h : x ∈ xs) :
    ∃ before behind, String.join (xs.map f) = before ++ f x ++ behind := by
  obtain ⟨as, bs, rfl⟩ := List.append_of_mem h
  refine ⟨String.join (as.map f), String.join (bs.map f), ?_⟩
  rw [List.map_append, List.map_cons, String.join_append, String.join_cons, String.append_assoc]

namespace Diagnostic

open Report

/-- In a report that quotes a source whose offsets fit, a label that covers the characters `bs` behind
`as` has the line on which it starts, and under it as many blanks as characters stand before the label
on this line, then the marks. Of these there are as many as bytes in `bs`, as far as the line goes before
what ends it, but at least one: as many as characters if `bs` has no more bytes than characters or
reaches the end of the line, and more otherwise. -/
theorem report_underlines {name source : String} {d : Diagnostic} {l : Label} {as bs cs : List Char}
    (color : Bool) (mem : l ∈ d.labels) (split : source.toList = as ++ (bs ++ cs))
    (place : l.span = ⟨byteLength as, byteLength as + byteLength bs⟩)
    (fits : byteLength source.toList < Span.offsetBound) :
    let here := withoutEnd (firstLine (bs ++ cs))
    ∃ before behind marks,
      d.report color (some (.ofText name source))
        = before ++ quotation color name l (1 + as.count '\n') (lastLine as).length
            (withoutEnd (lastLine as ++ firstLine (bs ++ cs))) marks ++ behind
      ∧ marks = max 1 (min (byteLength bs) here.length)
      ∧ max 1 (min bs.length here.length) ≤ marks
      ∧ (marks = max 1 (min bs.length here.length)
        ↔ here.length ≤ bs.length ∨ byteLength bs = bs.length) := by
  intro here
  obtain ⟨before, behind, labels⟩ :=
    exists_join_map (Report.label color (some (.ofText name source))) mem
  refine ⟨header color d ++ before, behind ++ String.join (d.notes.map (note color)) ++ "\n",
    marks bs here, ?text, rfl, ?least, marks_eq_iff bs here⟩
  case text =>
    have quoted : Report.label color (some (.ofText name source)) l = _ :=
      quotedLabel_append color split place fits
    rw [report, labels, quoted]
    simp only [String.append_assoc]
    rfl
  case least =>
    have := Text.length_le_byteLength bs
    rw [marks]
    omega

/-- A label that ends its line, with a character of two bytes, has one mark for it. -/
theorem report_underlines_lambda :
    let l : Label := ⟨⟨1, 3⟩, "here", true⟩
    let d : Diagnostic := ⟨.unexpectedToken, .error, "m", [l], []⟩
    l ∈ d.labels ∧ "xλ".toList = ['x'] ++ (['λ'] ++ [])
      ∧ byteLength "xλ".toList < Span.offsetBound
      ∧ ∃ before behind, d.report false (some (.ofText "n" "xλ"))
          = before ++ quotation false "n" l 1 1 "xλ".toList 1 ++ behind := by
  intro l d
  have mem : l ∈ d.labels := List.mem_singleton.2 rfl
  have fits : byteLength "xλ".toList < Span.offsetBound := by decide
  have split : "xλ".toList = ['x'] ++ (['λ'] ++ []) := rfl
  obtain ⟨before, behind, marks, text, rfl, -⟩ :=
    @report_underlines "n" "xλ" d l ['x'] ['λ'] [] false mem split rfl fits
  exact ⟨mem, split, fits, before, behind, text⟩

/-- Where the line goes on behind a character of two bytes, it has two marks: the label covers one
character of its line, and another one is marked too. -/
theorem marks_behind_lambda :
    let l : Label := ⟨⟨0, byteLength ['λ']⟩, "here", true⟩
    quotedLabel false (.ofText "n" "λx") l = " --> n:1:1\n  |\n1 | λx\n  | ^^ here\n"
      ∧ max 1 (min ['λ'].length (withoutEnd (firstLine "λx".toList)).length) = 1 := by
  decide +kernel

end Diagnostic

end Surface
