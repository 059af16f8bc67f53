import Surface.Layout.Doc
import Surface.Proofs.Printing.Words

/-!
# Documents and how deep they are written

The line ends of a document that stands within a line lie in braces, and each line in them starts with
something to see. Such a document can be written at every depth: its text has more spaces at the start
of its lines and is the same otherwise.

Results:
* `indented`: a text with spaces put in behind its line ends; `NoEmptyLine`.
* `Doc.strokes`: what a document writes, without regard to depth.
* `Typeset`: strokes with their text, each line as deep as braces are open where it starts;
  `Typeset.startsLine`: the start of each line.
* `Doc.Flows`: documents within a line; `Doc.Flows.lays`: how they are written at every depth.
-/

namespace Surface

/-! ## Texts that are indented -/

/-- A text with the spaces of some levels put in behind every line end. -/
def indented (level : Nat) (cs : List Char) : List Char :=
  cs.flatMap fun c => if c = '\n' then '\n' :: List.replicate (4 * level) ' ' else [c]

section

variable {k l : Nat} {c : Char} {cs ds before behind : List Char}

theorem indented_append (k : Nat) (cs ds : List Char) :
    indented k (cs ++ ds) = indented k cs ++ indented k ds :=
  List.flatMap_append

theorem indented_newline (k : Nat) (cs : List Char) :
    indented k ('\n' :: cs) = '\n' :: (List.replicate (4 * k) ' ' ++ indented k cs) := rfl

theorem indented_of_ne (k : Nat) (h : c ≠ '\n') (cs : List Char) :
    indented k (c :: cs) = c :: indented k cs := by
  unfold indented
  rw [List.flatMap_cons, if_neg h, List.singleton_append]

/-- A text on one line is not indented. -/
theorem indented_of_notMem (k : Nat) (h : '\n' ∉ cs) : indented k cs = cs := by
  induction cs with
  | nil => rfl
  | cons c cs ih =>
    rw [List.mem_cons, not_or] at h
    rw [indented_of_ne k (Ne.symm h.1), ih h.2]

theorem newline_notMem_spaces (n : Nat) : '\n' ∉ List.replicate n ' ' := fun mem =>
  absurd (List.eq_of_mem_replicate mem) (by decide)

theorem indented_spaces (k n : Nat) : indented k (List.replicate n ' ') = List.replicate n ' ' :=
  indented_of_notMem k (newline_notMem_spaces n)

theorem filter_spaces (n : Nat) : (List.replicate n ' ').filter (· ≠ ' ') = [] := by
  rw [List.filter_replicate, if_neg (by decide)]

/-- Spaces behind the spaces of some levels are those of more levels. -/
theorem spaces_append_indented (k l : Nat) (cs : List Char) :
    List.replicate (4 * k) ' ' ++ indented k (List.replicate (4 * l) ' ' ++ cs)
      = List.replicate (4 * (k + l)) ' ' ++ indented k cs := by
  rw [indented_append, indented_spaces, ← List.append_assoc, List.replicate_append_replicate,
    Nat.mul_add]

/-- Levels add up. -/
theorem indented_indented (k l : Nat) (cs : List Char) :
    indented k (indented l cs) = indented (k + l) cs := by
  induction cs with
  | nil => rfl
  | cons c cs ih =>
    by_cases newline : c = '\n'
    · subst newline
      rw [indented_newline, indented_newline, indented_newline, spaces_append_indented, ih]
    · rw [indented_of_ne l newline, indented_of_ne k newline, indented_of_ne (k + l) newline, ih]

theorem indented_zero (cs : List Char) : indented 0 cs = cs := by
  induction cs with
  | nil => rfl
  | cons c cs ih =>
    by_cases newline : c = '\n'
    · subst newline
      rw [indented_newline, ih]
      rfl
    · rw [indented_of_ne 0 newline, ih]

/-- Spaces aside, a text that is indented is as it was. -/
theorem filter_indented (k : Nat) (cs : List Char) :
    (indented k cs).filter (· ≠ ' ') = cs.filter (· ≠ ' ') := by
  induction cs with
  | nil => rfl
  | cons c cs ih =>
    by_cases newline : c = '\n'
    · subst newline
      rw [indented_newline, List.filter_cons_of_pos (by decide), List.filter_cons_of_pos (by decide),
        List.filter_append, filter_spaces, List.nil_append, ih]
    · rw [indented_of_ne k newline, List.filter_cons, List.filter_cons, ih]

/-- A text is not cut within a part that has no line end. -/
theorem cut_append (h : '\n' ∉ cs) (cut : cs ++ ds = before ++ '\n' :: behind) :
    ∃ before', before = cs ++ before' ∧ ds = before' ++ '\n' :: behind := by
  rcases List.append_eq_append_iff.1 cut with ⟨mid, rfl, rest⟩ | ⟨mid, rfl, rest⟩
  · exact ⟨mid, rfl, rest⟩
  · cases mid with
    | nil => exact ⟨[], by rw [List.append_nil, List.append_nil], rest.symm⟩
    | cons c mid =>
      obtain ⟨rfl, -⟩ := List.cons.inj rest
      exact absurd (List.mem_append_right _ List.mem_cons_self) h

/-- A text that starts with a line end is cut there or behind the first words of the line. -/
theorem cut_line {n : Nat} (h : '\n' ∉ cs)
    (cut : '\n' :: (List.replicate n ' ' ++ (cs ++ ds)) = before ++ '\n' :: behind) :
    (before = [] ∧ behind = List.replicate n ' ' ++ (cs ++ ds))
      ∨ ∃ before', before = '\n' :: (List.replicate n ' ' ++ cs) ++ before'
        ∧ ds = before' ++ '\n' :: behind := by
  cases before with
  | nil => exact .inl ⟨rfl, (List.cons.inj cut).2.symm⟩
  | cons c before =>
    obtain ⟨rfl, line⟩ := List.cons.inj cut
    obtain ⟨before, rfl, words⟩ := cut_append (newline_notMem_spaces n) line
    obtain ⟨before, rfl, rest⟩ := cut_append h words
    exact .inr ⟨before, by rw [List.cons_append, List.append_assoc], rest⟩

/-- The line ends of a text that is indented are those of the text. -/
theorem indented_cut (cut : indented k cs = before ++ '\n' :: behind) :
    ∃ xs ys, cs = xs ++ '\n' :: ys ∧ before = indented k xs
      ∧ behind = List.replicate (4 * k) ' ' ++ indented k ys := by
  induction cs generalizing before with
  | nil =>
    have cut : [] = before ++ '\n' :: behind := cut
    cases before <;> cases cut
  | cons c cs ih =>
    by_cases newline : c = '\n'
    · subst newline
      rcases cut_line (List.not_mem_nil : '\n' ∉ []) cut with ⟨rfl, rfl⟩ | ⟨before, rfl, rest⟩
      · exact ⟨[], cs, rfl, rfl, rfl⟩
      · obtain ⟨xs, ys, rfl, rfl, rfl⟩ := ih rest
        exact ⟨'\n' :: xs, ys, rfl, by rw [List.append_nil]; rfl, rfl⟩
    · rw [indented_of_ne k newline] at cut
      cases before with
      | nil => exact absurd (List.cons.inj cut).1 newline
      | cons d before =>
        obtain ⟨rfl, rest⟩ := List.cons.inj cut
        obtain ⟨xs, ys, rfl, rfl, rfl⟩ := ih rest
        exact ⟨c :: xs, ys, rfl, (indented_of_ne k newline xs).symm, rfl⟩

/-- No line of a text is empty: with a line end before it and one behind it, no two meet. -/
def NoEmptyLine (cs : List Char) : Prop := ¬ ['\n', '\n'] <:+: '\n' :: (cs ++ ['\n'])

/-- A text has no empty line if neither it nor what stands behind one of its line ends starts with a line
end or is empty. -/
theorem noEmptyLine_of (first : ∃ c ds, cs = c :: ds ∧ c ≠ '\n')
    (lines : ∀ before behind, cs = before ++ '\n' :: behind →
      ∃ c ds, behind = c :: ds ∧ c ≠ '\n') :
    NoEmptyLine cs := by
  rintro ⟨before, behind, cut⟩
  rw [List.append_assoc] at cut
  cases before with
  | nil =>
    obtain ⟨c, ds, rfl, visible⟩ := first
    exact visible (List.cons.inj (List.cons.inj cut).2).1.symm
  | cons _ before =>
    have cut : before ++ '\n' :: '\n' :: behind = cs ++ ['\n'] := (List.cons.inj cut).2
    rcases List.eq_nil_or_concat behind with rfl | ⟨behind, c, rfl⟩
    · have whole : (before ++ ['\n']) ++ ['\n'] = cs ++ ['\n'] := by rw [← cut, List.append_assoc]; rfl
      obtain ⟨c, ds, none, -⟩ := lines before [] (List.append_cancel_right whole).symm
      cases none
    · have whole : (before ++ '\n' :: '\n' :: behind) ++ [c] = cs ++ ['\n'] := by
        rw [← cut, List.append_assoc, List.concat_eq_append]
        rfl
      obtain ⟨d, ds, starts, visible⟩ := lines before _ (List.append_inj' whole rfl).1.symm
      exact visible (List.cons.inj starts).1.symm

end

/-! ## Strokes -/

/-- A part of what is written: a text, a space or a line end. -/
inductive Stroke
  | word (s : String)
  | space
  | newline
deriving DecidableEq, Repr

namespace Stroke

/-- The characters of a stroke. -/
def chars : Stroke → List Char
  | word s => s.toList
  | space => [' ']
  | newline => ['\n']

/-- A brace that opens a block or the arms of a match. -/
abbrev opening : Stroke := word "\x7b"

/-- A brace that closes a block or the arms of a match. -/
abbrev closing : Stroke := word "\x7d"

end Stroke

namespace Doc

/-- What a document writes, in order. -/
def strokes : Doc → List Stroke
  | empty => []
  | text s => [.word s]
  | space => [.space]
  | newline => [.newline]
  | nest d => d.strokes
  | append a b => a.strokes ++ b.strokes

end Doc

/-- A text on one line that is no brace. -/
def IsInline (s : String) : Prop := '\n' ∉ s.toList ∧ s ≠ "\x7b" ∧ s ≠ "\x7d"

instance (s : String) : Decidable (IsInline s) := inferInstanceAs (Decidable (_ ∧ _))

theorem IsWord.isInline {w : String} (h : IsWord w) : IsInline w := by
  obtain ⟨line, c, cs, text, -, opens, closes⟩ := h
  refine ⟨line, ?_, ?_⟩ <;> rintro rfl
  · exact opens (List.cons.inj text).1.symm
  · exact closes (List.cons.inj text).1.symm

/-! ## Strokes with their text -/

/-- Strokes that are written where `depth` braces are open, with their text and the number of braces
that are open behind them. A line is as deep as braces are open where it starts; the brace that a line
starts with is closed already. -/
inductive Typeset : Nat → List Stroke → List Char → Nat → Prop
  | nil {d} : Typeset d [] [] d
  | space {d ps cs e} : Typeset d ps cs e → Typeset d (.space :: ps) (' ' :: cs) e
  | word {d w ps cs e} : IsInline w → Typeset d ps cs e → Typeset d (.word w :: ps) (w.toList ++ cs) e
  | opening {d ps cs e} : Typeset (d + 1) ps cs e → Typeset d (.opening :: ps) ('\x7b' :: cs) e
  | line {d w ps cs e} : IsWord w → Typeset d ps cs e →
      Typeset d (.newline :: .word w :: ps) ('\n' :: (List.replicate (4 * d) ' ' ++ (w.toList ++ cs))) e
  | closing {d ps cs e} : Typeset d ps cs e →
      Typeset (d + 1) (.newline :: .closing :: ps) ('\n' :: (List.replicate (4 * d) ' ' ++ '\x7d' :: cs)) e

/-- The start of a line behind strokes `qs`, before which `d` braces are open: `depth` braces are open
there, a brace that the line starts with being closed already, and the line starts with the spaces of
`k` levels and these, and then with something to see. -/
structure StartsLine (d k : Nat) (qs rs : List Stroke) (before behind : List Char) (depth : Nat) :
    Prop where
  /-- Spaces aside, the strokes are the text before the line. -/
  written : before.filter (· ≠ ' ') = (qs.flatMap Stroke.chars).filter (· ≠ ' ')
  braces : d + qs.count .opening = (qs ++ rs.take 1).count .closing + depth
  margin : ∃ c cs, behind = List.replicate (4 * (k + depth)) ' ' ++ c :: cs ∧ c ≠ ' ' ∧ c ≠ '\n'

theorem StartsLine.behind {d d' k depth : Nat} {qs rs : List Stroke} {before behind text : List Char}
    (h : StartsLine d' k qs rs before behind depth) (pre : List Stroke)
    (same : text.filter (· ≠ ' ') = (pre.flatMap Stroke.chars).filter (· ≠ ' '))
    (opens : d + pre.count .opening = pre.count .closing + d') :
    StartsLine d k (pre ++ qs) rs (text ++ before) behind depth := by
  refine ⟨?_, ?_, h.margin⟩
  · rw [List.filter_append, List.flatMap_append, List.filter_append, same, h.written]
  · have := h.braces
    rw [List.append_assoc, List.count_append, List.count_append]
    omega

namespace Typeset

variable {d e f k : Nat} {ps qs : List Stroke} {cs ds : List Char} {w : String}

theorem append (h : Typeset d ps cs e) (h' : Typeset e qs ds f) : Typeset d (ps ++ qs) (cs ++ ds) f := by
  induction h with
  | nil => exact h'
  | space _ ih => exact .space (ih h')
  | word plain _ ih =>
    rw [List.append_assoc]
    exact .word plain (ih h')
  | opening _ ih => exact .opening (ih h')
  | line word _ ih =>
    simp only [List.cons_append, List.append_assoc]
    exact .line word (ih h')
  | closing _ ih =>
    simp only [List.cons_append, List.append_assoc]
    exact .closing (ih h')

/-- A line may start with what starts with a word. -/
theorem newline (h : Typeset d (.word w :: ps) cs e) (word : IsWord w) :
    Typeset d (.newline :: .word w :: ps) ('\n' :: (List.replicate (4 * d) ' ' ++ cs)) e := by
  cases h with
  | word _ rest => exact .line word rest
  | opening rest => exact absurd rfl word.isInline.2.1

/-- Among more open braces all lines are deeper. -/
theorem shift (k : Nat) (h : Typeset d ps cs e) : Typeset (k + d) ps (indented k cs) (k + e) := by
  induction h with
  | nil => exact .nil
  | space _ ih =>
    rw [indented_of_ne k (by decide)]
    exact .space ih
  | word plain _ ih =>
    rw [indented_append, indented_of_notMem k plain.1]
    exact .word plain ih
  | opening _ ih =>
    rw [indented_of_ne k (by decide)]
    exact .opening ih
  | line word _ ih =>
    rw [indented_newline, spaces_append_indented, indented_append, indented_of_notMem k word.1]
    exact .line word ih
  | closing _ ih =>
    rw [indented_newline, spaces_append_indented, indented_of_ne k (by decide)]
    exact .closing ih

/-- What starts with a word starts with something to see. -/
theorem exists_cons (h : Typeset d (.word w :: ps) cs e) (word : IsWord w) :
    ∃ c xs, cs = c :: xs ∧ c ≠ '\n' := by
  cases h with
  | opening _ => exact absurd rfl word.isInline.2.1
  | word _ _ =>
    obtain ⟨c, xs, text, -, visible⟩ := word.exists_cons
    rw [text]
    exact ⟨c, _, rfl, visible⟩

/-- The start of every line. -/
theorem startsLine {before behind : List Char} (h : Typeset d ps cs e)
    (cut : cs = before ++ '\n' :: behind) :
    ∃ qs rs depth, ps = qs ++ .newline :: rs ∧ StartsLine d 0 qs rs before behind depth := by
  induction h generalizing before with
  | nil => cases before <;> cases cut
  | space _ ih =>
    obtain ⟨before, rfl, rest⟩ := cut_append (by decide : '\n' ∉ [' ']) cut
    obtain ⟨qs, rs, depth, rfl, line⟩ := ih rest
    exact ⟨.space :: qs, rs, depth, rfl, line.behind [.space] rfl (by simp)⟩
  | @word d w _ _ _ plain _ ih =>
    obtain ⟨before, rfl, rest⟩ := cut_append plain.1 cut
    obtain ⟨qs, rs, depth, rfl, line⟩ := ih rest
    exact ⟨.word w :: qs, rs, depth, rfl, line.behind [.word w] (by simp [Stroke.chars])
      (by simp [plain.2.1, plain.2.2])⟩
  | opening _ ih =>
    obtain ⟨before, rfl, rest⟩ := cut_append (by decide : '\n' ∉ ['\x7b']) cut
    obtain ⟨qs, rs, depth, rfl, line⟩ := ih rest
    exact ⟨.opening :: qs, rs, depth, rfl, line.behind [.opening] rfl (by simp)⟩
  | @line d w ps cs _ word _ ih =>
    have plain := word.isInline
    rcases cut_line plain.1 cut with ⟨rfl, rfl⟩ | ⟨before, rfl, rest⟩
    · obtain ⟨c, xs, text, visible⟩ := word.exists_cons
      refine ⟨[], .word w :: ps, d, rfl, rfl, by simp [plain.2.2], c, xs ++ cs, ?_, visible⟩
      rw [text, Nat.zero_add]
      rfl
    · obtain ⟨qs, rs, depth, rfl, line⟩ := ih rest
      refine ⟨.newline :: .word w :: qs, rs, depth, rfl, line.behind [.newline, .word w] ?_
        (by simp [plain.2.1, plain.2.2])⟩
      rw [List.filter_cons_of_pos (by decide), List.filter_append, filter_spaces]
      simp [Stroke.chars]
  | @closing d ps cs _ _ ih =>
    rcases cut_line (by decide : '\n' ∉ ['\x7d']) cut with ⟨rfl, rfl⟩ | ⟨before, rfl, rest⟩
    · refine ⟨[], .closing :: ps, d, rfl, rfl, ?_, '\x7d', cs, ?_, by decide, by decide⟩
      · simp
        omega
      · rw [Nat.zero_add]
        rfl
    · obtain ⟨qs, rs, depth, rfl, line⟩ := ih rest
      refine ⟨.newline :: .closing :: qs, rs, depth, rfl, line.behind [.newline, .closing] ?_
        (by simp; omega)⟩
      rw [List.filter_cons_of_pos (by decide), List.filter_append, filter_spaces]
      rfl

end Typeset

/-! ## Documents within a line -/

namespace Doc

/-- Documents that start with a word. -/
inductive Begins : Doc → Prop
  | text {s} : IsWord s → Begins (.text s)
  | append {a b} : Begins a → Begins (a ++ b)

/-- Documents that stand within a line: their line ends lie in braces, and each line in braces starts
with a word. -/
inductive Flows : Doc → Prop
  | empty : Flows .empty
  | text {s} : IsInline s → Flows (.text s)
  | space : Flows .space
  | append {a b} : Flows a → Flows b → Flows (a ++ b)
  | lines {ds} : (∀ d ∈ ds, Begins d) → (∀ d ∈ ds, Flows d) → Flows (braced false ds)

/-- How a document within a line is written: the text that it has alone is that of its strokes, and
elsewhere it is indented and leaves the level as it was. -/
structure Lays (d : Doc) (cs : List Char) : Prop where
  typeset : Typeset 0 d.strokes cs 0
  write : ∀ text level, d.write ⟨text, level, false⟩
    = ⟨text ++ String.ofList (indented level cs), level, false⟩

variable {d a b : Doc} {ds : List Doc} {cs xs ys : List Char}

theorem Begins.exists_word (h : Begins d) : ∃ w ps, d.strokes = .word w :: ps ∧ IsWord w := by
  induction h with
  | @text s word => exact ⟨s, [], rfl, word⟩
  | append _ ih =>
    obtain ⟨w, ps, strokes, word⟩ := ih
    exact ⟨w, ps ++ _, congrArg (· ++ _) strokes, word⟩

/-- At the start of a line the spaces come first. -/
theorem Begins.write (h : Begins d) (text : String) (level : Nat) :
    d.write ⟨text, level, true⟩
      = d.write ⟨text ++ String.ofList (List.replicate (4 * level) ' '), level, false⟩ := by
  induction h with
  | @text s word =>
    have some : s.isEmpty = false := by
      obtain ⟨-, c, cs, text, -⟩ := word
      rw [String.isEmpty_eq_false_iff]
      rintro rfl
      cases text
    have margin : Page.margin ⟨text, level, true⟩ = String.ofList (List.replicate (4 * level) ' ') := by
      rw [Nat.mul_comm]
      rfl
    show Page.emit s _ = Page.emit s _
    unfold Page.emit
    rw [some, margin]
    simp [Page.margin]
  | @append a b _ ih => exact congrArg b.write ih

namespace Lays

/-- The start of every line of a document within a line, wherever it is written. -/
theorem startsLine {k : Nat} {before behind : List Char} (h : Lays d cs)
    (cut : indented k cs = before ++ '\n' :: behind) :
    ∃ qs rs depth, d.strokes = qs ++ .newline :: rs ∧ StartsLine 0 k qs rs before behind depth := by
  obtain ⟨xs, ys, rfl, rfl, rfl⟩ := indented_cut cut
  obtain ⟨qs, rs, depth, strokes, written, braces, c, zs, rfl, visible⟩ := h.typeset.startsLine rfl
  refine ⟨qs, rs, depth, strokes, ?_, braces, c, indented k zs, ?_, visible⟩
  · rw [filter_indented, written]
  · rw [Nat.zero_add, spaces_append_indented, indented_of_ne k visible.2]

/-- A document within a line that starts with a word has no empty line. -/
theorem noEmptyLine (h : Lays d cs) (begins : Begins d) (k : Nat) : NoEmptyLine (indented k cs) := by
  refine noEmptyLine_of ?_ fun before behind cut => ?_
  · obtain ⟨w, ps, strokes, word⟩ := begins.exists_word
    have typeset := h.typeset.shift k
    rw [strokes] at typeset
    exact typeset.exists_cons word
  · obtain ⟨-, -, depth, -, -, -, c, zs, rfl, -, visible⟩ := h.startsLine cut
    cases 4 * (k + depth) with
    | zero => exact ⟨c, zs, rfl, visible⟩
    | succ m => exact ⟨' ', _, rfl, by decide⟩

/-- What starts with a word is written alone on a page as it is. -/
theorem write_blank (h : Lays d cs) (begins : Begins d) : (d.write .blank).text.toList = cs := by
  have blank : d.write ⟨"", 0, true⟩ = _ := begins.write "" 0
  rw [Page.blank, blank, h.write, indented_zero]
  simp

theorem empty : Lays .empty [] := ⟨.nil, fun text level => by simp [Doc.write, indented]⟩

theorem text {s : String} (h : IsInline s) : Lays (.text s) s.toList := by
  refine ⟨?_, fun text level => ?_⟩
  · have typeset : Typeset 0 [.word s] (s.toList ++ []) 0 := .word h .nil
    rwa [List.append_nil] at typeset
  · rw [indented_of_notMem level h.1, String.ofList_toList]
    show Page.emit s _ = _
    unfold Page.emit
    split
    · next none => simp [String.isEmpty_iff.1 none]
    · simp [Page.margin]

theorem space : Lays .space [' '] := ⟨.space .nil, fun _ _ => rfl⟩

theorem append (ha : Lays a xs) (hb : Lays b ys) : Lays (a ++ b) (xs ++ ys) := by
  refine ⟨ha.typeset.append hb.typeset, fun text level => ?_⟩
  show b.write (a.write _) = _
  rw [ha.write, hb.write, indented_append, String.ofList_append, String.append_assoc]

end Lays

/-- Lines in braces, each as deep as the braces ask for. -/
theorem exists_lines (begins : ∀ d ∈ ds, Begins d) (lays : ∀ d ∈ ds, ∃ cs, Lays d cs) :
    ∃ cs, Typeset 1 (concat (ds.map fun d => newline ++ d)).strokes cs 1
      ∧ ∀ text level, (concat (ds.map fun d => newline ++ d)).write ⟨text, level + 1, false⟩
        = ⟨text ++ String.ofList (indented level cs), level + 1, false⟩ := by
  induction ds with
  | nil => exact ⟨[], .nil, fun text level => by simp [concat, Doc.write, indented]⟩
  | cons d ds ih =>
    obtain ⟨first, begins⟩ := List.forall_mem_cons.1 begins
    obtain ⟨⟨xs, line⟩, lays⟩ := List.forall_mem_cons.1 lays
    obtain ⟨ys, typeset, write⟩ := ih begins lays
    obtain ⟨w, ps, strokes, word⟩ := first.exists_word
    refine ⟨'\n' :: (List.replicate (4 * 1) ' ' ++ indented 1 xs) ++ ys, ?_, fun text level => ?_⟩
    · have deeper := line.typeset.shift 1
      rw [strokes] at deeper
      have here := (deeper.newline word).append typeset
      rw [← strokes] at here
      exact here
    · have text_eq : text ++ "\n" ++ String.ofList (List.replicate (4 * (level + 1)) ' ')
            ++ String.ofList (indented (level + 1) xs) ++ String.ofList (indented level ys)
          = text ++ String.ofList (indented level
              ('\n' :: (List.replicate (4 * 1) ' ' ++ indented 1 xs) ++ ys)) := by
        rw [indented_append, indented_newline, indented_append, indented_spaces, indented_indented,
          Nat.mul_add, ← List.replicate_append_replicate]
        simp only [← String.toList_inj, String.toList_append, String.toList_ofList, List.append_assoc,
          List.cons_append]
        rfl
      show (concat _).write (d.write ⟨text ++ "\n", level + 1, true⟩) = _
      rw [first.write, line.write, write, text_eq]

/-- A document within a line has a text of its own, which is indented wherever it is written. -/
theorem Flows.lays (h : Flows d) : ∃ cs, Lays d cs := by
  induction h with
  | empty => exact ⟨_, .empty⟩
  | text plain => exact ⟨_, .text plain⟩
  | space => exact ⟨_, .space⟩
  | append _ _ ha hb =>
    obtain ⟨xs, ha⟩ := ha
    obtain ⟨ys, hb⟩ := hb
    exact ⟨_, ha.append hb⟩
  | @lines ds begins _ ih =>
    obtain ⟨cs, typeset, write⟩ := exists_lines begins ih
    refine ⟨'\x7b' :: (cs ++ ['\n', '\x7d']), ?_, fun text level => ?_⟩
    · have strokes : (braced false ds).strokes
          = .opening :: ((concat (ds.map fun d => newline ++ d)).strokes ++ [.newline, .closing]) :=
        List.append_assoc _ [Stroke.newline] [Stroke.closing]
      rw [strokes]
      exact .opening (typeset.append (.closing .nil))
    · have closed (p : Page) : Page.emit "\x7d" p.newline
          = ⟨p.text ++ "\n" ++ String.ofList (List.replicate (4 * p.level) ' ') ++ "\x7d",
            p.level, false⟩ := by
        rw [Nat.mul_comm]
        rfl
      have same : indented level ('\x7b' :: (cs ++ ['\n', '\x7d']))
          = '\x7b' :: (indented level cs ++ '\n' :: (List.replicate (4 * level) ' ' ++ ['\x7d'])) := by
        rw [indented_of_ne level (by decide), indented_append, indented_newline]
        rfl
      show Page.emit "\x7d"
        (((concat _).write ⟨text ++ "" ++ "\x7b", level + 1, false⟩).dedent.newline) = _
      rw [write, closed, same]
      simp only [Page.mk.injEq, Page.dedent, Nat.add_sub_cancel, and_self, and_true, String.append_empty,
        ← String.toList_inj, String.toList_append, String.toList_ofList, List.append_assoc]
      rfl

/-! ### Putting documents together -/

/-- A document within a line that starts with a word. -/
structure Fits (d : Doc) : Prop where
  flows : Flows d
  begins : Begins d

theorem Fits.text {s : String} (h : IsWord s) : Fits (.text s) := ⟨.text h.isInline, .text h⟩

theorem Fits.append (ha : Fits a) (hb : Flows b) : Fits (a ++ b) :=
  ⟨.append ha.flows hb, .append ha.begins⟩

theorem Fits.parenthesizedIf (h : Fits d) (b : Bool) : Fits (parenthesizedIf b d) := by
  cases b with
  | false => exact h
  | true => exact ((Fits.text (by decide)).append h.flows).append (.text (by decide))

theorem flows_spaced (h : ∀ d ∈ ds, Fits d) : Flows (spaced ds) := by
  induction ds with
  | nil => exact .empty
  | cons d ds ih =>
    obtain ⟨first, rest⟩ := List.forall_mem_cons.1 h
    exact .append (.append .space first.flows) (ih rest)

theorem flows_commas (h : ∀ d ∈ ds, Fits d) : Flows (commas ds) := by
  induction ds with
  | nil => exact .empty
  | cons d ds ih =>
    obtain ⟨first, rest⟩ := List.forall_mem_cons.1 h
    cases ds with
    | nil => exact first.flows
    | cons _ _ => exact .append (.append first.flows (.text (by decide))) (ih rest)

theorem flows_braced (isEmpty : Bool) (h : ∀ d ∈ ds, Fits d) : Flows (braced isEmpty ds) := by
  cases isEmpty with
  | false => exact .lines (fun d hd => (h d hd).begins) fun d hd => (h d hd).flows
  | true => exact .text (by decide)

end Doc

end Surface
