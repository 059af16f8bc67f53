import Surface.Layout.Syntax
import Surface.Proofs.Parsing.Text
import Surface.Proofs.Printing.Edges

/-!
# The first line of a printed file

A text that starts with `#!` loses its first line, so that no item may start like that, and the line that
a file kept is left out again when the text is read. It is printed without the blanks at its end.

Results:
* `behindShebang_of_item`: a text that no first line starts.
* `behindShebang_trimEnd`, `Shebang.doc_write`: a first line that is printed.
-/

namespace Surface

namespace Doc

variable (d : Doc) (ds : List Doc)

theorem concat_cons : concat (d :: ds) = d ++ concat ds := rfl

theorem spaced_cons : spaced (d :: ds) = (.space ++ d) ++ spaced ds := rfl

theorem lines_cons : lines (d :: ds) = (d ++ .newline) ++ lines ds := rfl

end Doc

/-- What is written in the middle of a line is not indented. -/
theorem text_emit {q : Page} (h : q.atLineStart = false) (s : String) :
    (q.emit s).text.toList = q.text.toList ++ s.toList := by
  unfold Page.emit
  split
  · next none => rw [String.isEmpty_iff.1 none]; exact (List.append_nil _).symm
  · have margin : q.margin = "" := by
      unfold Page.margin
      rw [h]
      rfl
    rw [margin]
    rw [String.append_empty, String.toList_append]

/-- A first line without the blanks at its end is a first line. -/
theorem shebangOf_trimEnd {cs line : List Char} (h : shebangOf cs = some line) :
    shebangOf (Text.trimEnd line) = some (Text.trimEnd line) := by
  unfold shebangOf at h
  split at h
  · next cs =>
    obtain rfl := Option.some.inj h
    have trimmed : Text.trimEnd (('#' :: '!' :: cs).takeWhile fun c => !Lexeme.endsLine c)
        = '#' :: '!' :: Text.trimEnd (cs.takeWhile fun c => !Lexeme.endsLine c) := by
      show Text.dropEndWhile _ ('#' :: '!' :: cs.takeWhile _) = _
      rw [Text.dropEndWhile_cons (by decide), Text.dropEndWhile_cons (by decide)]
      rfl
    rw [trimmed]
    generalize hw : Text.trimEnd (cs.takeWhile fun c => !Lexeme.endsLine c) = w
    have inside : ∀ c ∈ '#' :: '!' :: w, (!Lexeme.endsLine c) = true := by
      refine List.forall_mem_cons.2 ⟨by decide, List.forall_mem_cons.2 ⟨by decide, fun c hc => ?_⟩⟩
      rw [← hw] at hc
      exact Lexeme.of_mem_takeWhile (p := fun c => !Lexeme.endsLine c) c
        (Text.mem_of_mem_dropEndWhile hc)
    exact congrArg some (List.takeWhile_eq_self_iff.2 inside)
  · cases h

/-- A first line is read as nothing else. -/
theorem behindShebang_trimEnd {cs line : List Char} (h : shebangOf cs = some line) :
    behindShebang (Text.trimEnd line) = [] := by
  unfold behindShebang
  rw [shebangOf_trimEnd h, Option.getD_some, List.drop_length]

/-- A text that does not start with a first line has nothing to be left out. -/
theorem behindShebang_of_item {cs : List Char} (h : Edge.item.admits cs) : behindShebang cs = cs := by
  have none : shebangOf cs = none := by
    unfold shebangOf
    split
    · next rest => exact absurd rfl (h rest)
    · rfl
  unfold behindShebang
  rw [none]
  rfl

theorem Shebang.doc_write (l : Shebang) :
    ((l.doc ++ .newline).write .blank).text.toList = Text.trimEnd l.text.toList ++ ['\n'] := by
  show ((Page.blank.emit _).text ++ "\n").toList = _
  unfold Page.emit
  split
  · next none =>
    rw [String.toList_append, ← String.toList_ofList (l := Text.trimEnd _), String.isEmpty_iff.1 none]
    rfl
  · rw [String.toList_append, String.toList_append, String.toList_ofList]
    rfl

end Surface
