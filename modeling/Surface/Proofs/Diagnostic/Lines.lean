import Mathlib.Data.List.DropRight
import Mathlib.Data.Prod.Lex
import Surface.Diagnostic.LineTable
import Surface.Proofs.Lexing.Tiling

/-!
# Lines and columns of a text

The line of an offset is one more than the newlines in the bytes before it, whether a character starts
there or not. Where one starts, the column is one more than the characters of its line before it. Going
on in a text goes on to a later column or to a later line, so that the place says which offset it is.
Lines and columns are numbers without a bound.

Results:
* `LineTable.line_eq_count`, `LineTable.line_append`: the line of an offset.
* `LineTable.starts_append`, `LineTable.lineStart?_append`: where lines start.
* `LineTable.lineColumn_append`: line and column of an offset at which a character starts.
* `LineTable.lineText?_append`: the text of a line.
* `LineTable.position_of_boundary`: lines, columns and their order.
-/

namespace Surface

/-! ## The bytes of a text -/

namespace Text

/-- The bytes of a text. -/
def bytes (cs : List Char) : List UInt8 := cs.flatMap String.utf8EncodeChar

theorem toByteArray_toList (source : String) : source.toByteArray.data.toList = bytes source.toList := by
  have whole : source.toList.utf8Encode = source.toByteArray := by
    rw [← String.toByteArray_ofList, String.ofList_toList]
  rw [← whole, List.utf8Encode, List.data_toByteArray]
  rfl

@[simp] theorem bytes_cons (c : Char) (cs : List Char) :
    bytes (c :: cs) = String.utf8EncodeChar c ++ bytes cs := rfl

@[simp] theorem length_bytes (cs : List Char) : (bytes cs).length = byteLength cs := by
  induction cs with
  | nil => rfl
  | cons c cs ih => rw [bytes_cons, List.length_append, String.length_utf8EncodeChar, ih, byteLength_cons]

theorem bytes_append (as bs : List Char) : bytes (as ++ bs) = bytes as ++ bytes bs :=
  List.flatMap_append

/-- The byte of a newline belongs to no other character. -/
theorem newline_notMem_utf8EncodeChar {c : Char} (h : c ≠ '\n') :
    (10 : UInt8) ∉ String.utf8EncodeChar c := by
  have other : c.val.toNat ≠ 10 := fun e => h (Char.ext (UInt32.toNat_inj.1 e))
  have byte (n : Nat) (ne : n % 256 ≠ 10) : (10 : UInt8) ≠ UInt8.ofNat n := by
    intro e
    have same := congrArg UInt8.toNat e
    rw [UInt8.toNat_ofNat'] at same
    exact ne same.symm
  unfold String.utf8EncodeChar
  dsimp only
  generalize c.val.toNat = v at other
  split
  · simp only [List.mem_singleton]
    exact byte v (by omega)
  · -- each byte of a longer character is 128 or more
    split
    · simp only [List.mem_cons, List.not_mem_nil, or_false, not_or]
      exact ⟨byte _ (by omega), byte _ (by omega)⟩
    · split
      · simp only [List.mem_cons, List.not_mem_nil, or_false, not_or]
        exact ⟨byte _ (by omega), byte _ (by omega), byte _ (by omega)⟩
      · simp only [List.mem_cons, List.not_mem_nil, or_false, not_or]
        exact ⟨byte _ (by omega), byte _ (by omega), byte _ (by omega), byte _ (by omega)⟩

/-- The first bytes of a character hold a newline if there are any and it is one. -/
theorem count_take_utf8EncodeChar (c : Char) (n : Nat) :
    ((String.utf8EncodeChar c).take n).count 10 = if c = '\n' ∧ 0 < n then 1 else 0 := by
  by_cases newline : c = '\n'
  · subst newline
    cases n with
    | zero => rfl
    | succ n =>
      have one : String.utf8EncodeChar '\n' = [10] := by decide
      rw [one, List.take_succ_cons, List.take_nil, if_pos ⟨rfl, Nat.succ_pos n⟩]
      rfl
  · rw [if_neg fun h => newline h.1, List.count_eq_zero]
    exact fun h => newline_notMem_utf8EncodeChar newline (List.mem_of_mem_take h)

theorem count_bytes (cs : List Char) : (bytes cs).count 10 = cs.count '\n' := by
  induction cs with
  | nil => rfl
  | cons c cs ih =>
    have first := count_take_utf8EncodeChar c c.utf8Size
    rw [← String.length_utf8EncodeChar, List.take_length, String.length_utf8EncodeChar] at first
    rw [bytes_cons, List.count_append, ih, first, List.count_cons]
    simp only [c.utf8Size_pos, and_true, beq_iff_eq, Nat.add_comm]

/-! ## Boundaries -/

theorem exists_append_of_isBoundary {cs : List Char} {n : Nat} (h : IsBoundary cs n) :
    ∃ as bs, cs = as ++ bs ∧ n = byteLength as := by
  induction cs generalizing n with
  | nil =>
    by_cases zero : n = 0
    · exact ⟨[], [], rfl, zero⟩
    · rw [IsBoundary, dropBytes?, if_neg zero] at h
      cases h
  | cons c cs ih =>
    by_cases zero : n = 0
    · exact ⟨[], c :: cs, rfl, zero⟩
    · rw [IsBoundary, dropBytes?, if_neg zero] at h
      split at h
      · next fits =>
        obtain ⟨as, bs, rfl, rest⟩ := ih h
        refine ⟨c :: as, bs, rfl, ?_⟩
        rw [byteLength_cons, ← rest]
        omega
      · cases h

/-- Of two texts that a source starts with, the one with fewer bytes starts the other. -/
theorem isPrefix_of_byteLength_le {as bs cs : List Char} (ha : as <+: cs) (hb : bs <+: cs)
    (h : byteLength as ≤ byteLength bs) : as <+: bs := by
  rcases List.prefix_or_prefix_of_prefix ha hb with first | ⟨ds, rfl⟩
  · exact first
  · rw [byteLength_append] at h
    have none : ds = [] := by
      by_contra some
      have := byteLength_pos some
      omega
    simp only [none, List.append_nil, List.prefix_rfl]

/-! ## The last line -/

/-- The characters of a text behind its last newline. -/
def lastLine (as : List Char) : List Char := as.rtakeWhile (· ≠ '\n')

/-- The lines of a text before its last one, with their newlines. -/
def linesBefore (as : List Char) : List Char := as.rdropWhile (· ≠ '\n')

theorem linesBefore_append (as : List Char) : linesBefore as ++ lastLine as = as :=
  List.rdropWhile_append_rtakeWhile

theorem newline_notMem_lastLine (as : List Char) : '\n' ∉ lastLine as := fun h => by
  simpa using List.mem_rtakeWhile_imp h

/-- The lines before the last one end behind a newline, if there are any. -/
theorem linesBefore_ends (as : List Char) :
    linesBefore as = [] ∨ ∃ front, linesBefore as = front ++ ['\n'] := by
  by_cases none : linesBefore as = []
  · exact .inl none
  · have last := List.rdropWhile_last_not (fun c : Char => decide (c ≠ '\n')) as none
    have newline : (linesBefore as).getLast none = '\n' := of_not_not (of_decide_eq_false
      (Bool.eq_false_iff.2 last))
    exact .inr ⟨(linesBefore as).dropLast, by rw [← newline, List.dropLast_append_getLast]⟩

theorem count_linesBefore (as : List Char) : (linesBefore as).count '\n' = as.count '\n' := by
  have whole := congrArg (List.count '\n') (linesBefore_append as)
  rwa [List.count_append, List.count_eq_zero.2 (newline_notMem_lastLine as), Nat.add_zero] at whole

/-- What goes on with the last line makes it longer. -/
theorem lastLine_append {mid : List Char} (h : '\n' ∉ mid) (as : List Char) :
    lastLine (as ++ mid) = lastLine as ++ mid := by
  induction mid using List.reverseRecOn generalizing as with
  | nil => rw [List.append_nil, List.append_nil]
  | append_singleton mid c ih =>
    rw [List.mem_append, List.mem_singleton, not_or] at h
    rw [← List.append_assoc, lastLine, List.rtakeWhile_concat, if_pos (by simpa using Ne.symm h.2),
      ← lastLine, ih h.1, List.append_assoc]

/-- A text without the newlines and carriage returns at its end. -/
def withoutEnd (cs : List Char) : List Char := dropEndWhile (fun c => c = '\n' || c = '\r') cs

/-- The characters up to the end of the line. -/
def firstLine (cs : List Char) : List Char := cs.takeWhile (· ≠ '\n')

theorem newline_notMem_firstLine (cs : List Char) : '\n' ∉ firstLine cs := fun h => by
  simpa using List.mem_takeWhile_imp h

/-- Behind the characters of a line is its newline, or they are all. -/
theorem firstLine_append (cs : List Char) :
    (∃ rest, cs = firstLine cs ++ '\n' :: rest) ∨ firstLine cs = cs := by
  induction cs with
  | nil => exact .inr rfl
  | cons c cs ih =>
    by_cases newline : c = '\n'
    · exact .inl ⟨cs, by rw [firstLine, List.takeWhile_cons_of_neg (by simpa), newline]; rfl⟩
    · have more : firstLine (c :: cs) = c :: firstLine cs :=
        List.takeWhile_cons_of_pos (by simpa)
      rcases ih with ⟨rest, split⟩ | none
      · exact .inl ⟨rest, by rw [more, List.cons_append, ← split]⟩
      · exact .inr (by rw [more, none])

theorem withoutEnd_concat {c : Char} (h : c = '\n' ∨ c = '\r') (cs : List Char) :
    withoutEnd (cs ++ [c]) = withoutEnd cs := by
  rw [withoutEnd, dropEndWhile, List.reverse_append, List.reverse_singleton, List.singleton_append,
    List.dropWhile_cons_of_pos (by simpa using h)]
  rfl

end Text

namespace LineTable

open Text (byteLength bytes lastLine linesBefore)

/-! ## Where lines start -/

theorem startsOnto_append (done : Array Nat) (offset : Nat) (as bs : List Char) :
    startsOnto done offset (as ++ bs)
      = startsOnto (startsOnto done offset as) (offset + byteLength as) bs := by
  induction as generalizing done offset with
  | nil => rfl
  | cons a as ih =>
    rw [List.cons_append, startsOnto, startsOnto, ih, Text.byteLength_cons, Nat.add_assoc]

theorem size_startsOnto (done : Array Nat) (offset : Nat) (cs : List Char) :
    (startsOnto done offset cs).size = done.size + cs.count '\n' := by
  induction cs generalizing done offset with
  | nil => rfl
  | cons c cs ih =>
    rw [startsOnto, ih, List.count_cons]
    by_cases newline : c = '\n'
    · rw [if_pos newline, if_pos (beq_iff_eq.2 newline), Array.size_push]
      omega
    · rw [if_neg newline, if_neg (by simpa using newline), Nat.add_zero]

/-- The starts that are known stay. -/
theorem startsOnto_getElem? {done : Array Nat} {i : Nat} (h : i < done.size) (offset : Nat)
    (cs : List Char) : (startsOnto done offset cs)[i]? = done[i]? := by
  induction cs generalizing done offset with
  | nil => rfl
  | cons c cs ih =>
    rw [startsOnto]
    split
    · rw [ih (by rw [Array.size_push]; omega), Array.getElem?_push, if_neg (by omega)]
    · exact ih h _

theorem starts_ofChars (cs : List Char) : (ofChars cs).starts = startsOnto #[0] 0 cs := rfl

/-- Behind each newline a line starts. -/
theorem starts_append (as bs : List Char) :
    (ofChars (as ++ '\n' :: bs)).starts[as.count '\n' + 1]? = some (byteLength as + 1) := by
  have size := size_startsOnto #[0] 0 as
  have known : as.count '\n' + 1 = (startsOnto #[0] 0 as).size := by
    rw [size, Nat.add_comm]
    rfl
  have newline : '\n'.utf8Size = 1 := rfl
  rw [starts_ofChars, startsOnto_append, startsOnto, if_pos rfl, Nat.zero_add, newline,
    startsOnto_getElem? (by rw [Array.size_push]; omega), known, Array.getElem?_push_size]

/-- No line starts behind the last newline but the one it ends before. -/
theorem starts_eq_none (cs : List Char) : (ofChars cs).starts[cs.count '\n' + 1]? = none := by
  have size := size_startsOnto #[0] 0 cs
  refine Array.getElem?_eq_none ?_
  rw [starts_ofChars, size]
  exact Nat.le_of_eq (Nat.add_comm _ _)

/-- No line starts behind the end. -/
theorem starts_le (cs : List Char) : ∀ s ∈ (ofChars cs).starts.toList, s ≤ byteLength cs := by
  have onto (done : Array Nat) (offset : Nat) (le : ∀ s ∈ done.toList, s ≤ offset) :
      ∀ s ∈ (startsOnto done offset cs).toList, s ≤ offset + byteLength cs := by
    induction cs generalizing done offset with
    | nil => exact le
    | cons c cs ih =>
      intro s hs
      rw [Text.byteLength_cons, ← Nat.add_assoc]
      refine ih _ _ (fun s hs => ?_) s hs
      split at hs
      · rw [Array.toList_push, List.mem_append, List.mem_singleton] at hs
        rcases hs with old | new
        · exact Nat.le_trans (le s old) (Nat.le_add_right _ _)
        · exact Nat.le_of_eq new
      · exact Nat.le_trans (le s hs) (Nat.le_add_right _ _)
  intro s hs
  have := onto #[0] 0 (by simp) s hs
  rwa [Nat.zero_add] at this

/-! ## Lines of offsets -/

theorem countP_startsOnto (done : Array Nat) (offset limit : Nat) (cs : List Char) :
    (startsOnto done offset cs).toList.countP (· ≤ limit)
      = done.toList.countP (· ≤ limit) + ((bytes cs).take (limit - offset)).count 10 := by
  induction cs generalizing done offset with
  | nil => rw [startsOnto, bytes, List.flatMap_nil, List.take_nil, List.count_nil, Nat.add_zero]
  | cons c cs ih =>
    have here : ((if c = '\n' then done.push (offset + c.utf8Size) else done).toList.countP (· ≤ limit))
        = done.toList.countP (· ≤ limit)
          + ((String.utf8EncodeChar c).take (limit - offset)).count 10 := by
      rw [Text.count_take_utf8EncodeChar]
      by_cases newline : c = '\n'
      · subst newline
        have one : '\n'.utf8Size = 1 := rfl
        have inside : offset + 1 ≤ limit ↔ 0 < limit - offset := by omega
        rw [if_pos rfl, Array.toList_push, List.countP_append, List.countP_singleton, one]
        simp only [decide_eq_true_eq, inside, true_and]
      · rw [if_neg newline, if_neg fun h => newline h.1, Nat.add_zero]
    rw [startsOnto, ih, here, Text.bytes_cons, List.take_append, List.count_append,
      String.length_utf8EncodeChar, Nat.sub_sub, Nat.add_assoc]

/-- The line of an offset is one more than the number of newlines in the bytes before it. -/
theorem line_eq_count (cs : List Char) (offset : Nat) :
    (ofChars cs).line offset = 1 + ((bytes cs).take offset).count 10 := by
  have sorted : (ofChars cs).starts.toList.Pairwise
      fun x y => decide (y ≤ offset) = true → decide (x ≤ offset) = true := by
    refine (ofChars cs).increasing.imp fun {x y} less hy => ?_
    simp only [decide_eq_true_eq] at hy ⊢
    omega
  rw [line, partitionPoint_eq_countP sorted]
  refine (countP_startsOnto #[0] 0 offset cs).trans ?_
  rw [List.countP_singleton, decide_eq_true (Nat.zero_le _), if_pos rfl, Nat.sub_zero]

/-- The line of an offset at which a character starts is one more than the newlines before it. -/
theorem line_append (as bs : List Char) :
    (ofChars (as ++ bs)).line (byteLength as) = 1 + as.count '\n' := by
  rw [line_eq_count, Text.bytes_append, ← Text.length_bytes, List.take_left, Text.count_bytes]

/-- A line starts behind the lines before it. -/
theorem lineStart?_append (as bs : List Char) :
    (ofChars (as ++ bs)).lineStart? (1 + as.count '\n') = some (byteLength (linesBefore as)) := by
  rw [lineStart?, if_neg (by omega), Nat.add_sub_cancel_left, ← Text.count_linesBefore]
  rcases Text.linesBefore_ends as with none | ⟨front, some⟩
  · rw [none]
    exact (ofChars (as ++ bs)).first
  · have newline : '\n'.utf8Size = 1 := rfl
    have whole : as ++ bs = front ++ '\n' :: (lastLine as ++ bs) := by
      rw [← List.singleton_append, ← List.append_assoc, ← some, ← List.append_assoc,
        Text.linesBefore_append]
    rw [whole, some, List.count_append, Text.byteLength_append, Text.byteLength_cons, newline]
    exact starts_append front (lastLine as ++ bs)

/-! ## Columns -/

/-- Where a character starts, the column is one more than the characters of its line before it. -/
theorem lineColumn_append (as bs : List Char) :
    (ofChars (as ++ bs)).lineColumn (as ++ bs) (byteLength as)
      = (1 + as.count '\n', 1 + (lastLine as).length) := by
  have drop : Text.dropBytes? (byteLength (linesBefore as)) (as ++ bs) = some (lastLine as ++ bs) := by
    conv => lhs; rw [← Text.linesBefore_append as, List.append_assoc, Text.linesBefore_append]
    exact Text.dropBytes?_append _ _
  have length : byteLength as - byteLength (linesBefore as) = byteLength (lastLine as) := by
    have whole := congrArg byteLength (Text.linesBefore_append as)
    rw [Text.byteLength_append] at whole
    omega
  rw [lineColumn, line_append, lineStart?_append, Option.getD_some, drop, length, Option.bind_some,
    Text.countBytes?_append, Option.getD_some, Nat.add_comm (lastLine as).length]

theorem line_ofText {source : String} {as bs : List Char} (h : source.toList = as ++ bs) :
    (ofText source).line (byteLength as) = 1 + as.count '\n' := by
  rw [ofText, h, line_append]

theorem lineColumn_ofText {source : String} {as bs : List Char} (h : source.toList = as ++ bs) :
    (ofText source).lineColumn source.toList (byteLength as)
      = (1 + as.count '\n', 1 + (lastLine as).length) := by
  rw [ofText, h, lineColumn_append]

/-- Further on in a text is a later line, or a later column of the same. -/
theorem position_lt (as mid : List Char) (nonempty : mid ≠ []) :
    toLex (1 + as.count '\n', 1 + (lastLine as).length)
      < toLex (1 + (as ++ mid).count '\n', 1 + (lastLine (as ++ mid)).length) := by
  rw [Prod.Lex.toLex_lt_toLex, List.count_append]
  by_cases newline : '\n' ∈ mid
  · have some := List.count_pos_iff.2 newline
    exact .inl (by dsimp only; omega)
  · have some := List.length_pos_iff.2 nonempty
    rw [Text.lastLine_append newline, List.length_append, List.count_eq_zero.2 newline]
    exact .inr ⟨rfl, by dsimp only; omega⟩

/-! ## The text of a line -/

/-- The text of a line is cut where the line and the next one start. -/
theorem lineText?_eq {t : LineTable} {line : Nat} {cs before mid behind : List Char}
    (start : t.lineStart? line = some (byteLength before))
    (stop : (t.lineStart? (line + 1)).getD (byteLength cs) = byteLength before + byteLength mid)
    (whole : cs = before ++ (mid ++ behind)) : t.lineText? cs line = some (Text.withoutEnd mid) := by
  rw [lineText?, start, Option.bind_eq_bind, Option.bind_some, stop, whole]
  dsimp only
  rw [Text.slice?_append]
  rfl

/-- The text of a line goes from the last newline before an offset to the next one, without the
carriage returns there. -/
theorem lineText?_append (as bs : List Char) :
    (ofChars (as ++ bs)).lineText? (as ++ bs) (1 + as.count '\n')
      = some (Text.withoutEnd (lastLine as ++ Text.firstLine bs)) := by
  have start := lineStart?_append as bs
  have split (mid : List Char) : as ++ mid = linesBefore as ++ (lastLine as ++ mid) := by
    rw [← List.append_assoc, Text.linesBefore_append]
  have known : 1 + as.count '\n' + 1 ≠ 0 := by omega
  rcases Text.firstLine_append bs with ⟨rest, newline⟩ | last
  · have next := starts_append (as ++ Text.firstLine bs) rest
    rw [List.count_append, List.count_eq_zero.2 (Text.newline_notMem_firstLine bs), Nat.add_zero,
      List.append_assoc, ← newline, Text.byteLength_append] at next
    have stop : (ofChars (as ++ bs)).lineStart? (1 + as.count '\n' + 1)
        = some (byteLength as + byteLength (Text.firstLine bs) + 1) := by
      rw [lineStart?, if_neg known, Nat.add_sub_cancel, Nat.add_comm 1]
      exact next
    have length := congrArg byteLength (Text.linesBefore_append as)
    have one : '\n'.utf8Size = 1 := rfl
    have whole : as ++ bs
        = linesBefore as ++ ((lastLine as ++ (Text.firstLine bs ++ ['\n'])) ++ rest) := by
      rw [List.append_assoc, List.append_assoc, List.singleton_append, ← newline]
      exact split bs
    rw [lineText?_eq start (by
      rw [stop, Option.getD_some]
      simp only [Text.byteLength_append, Text.byteLength_cons, Text.byteLength_nil, one] at length ⊢
      omega) whole, ← List.append_assoc, Text.withoutEnd_concat (.inl rfl)]
  · have plain := Text.newline_notMem_firstLine bs
    rw [last] at plain
    have stop : (ofChars (as ++ bs)).lineStart? (1 + as.count '\n' + 1) = none := by
      have missing := starts_eq_none (as ++ bs)
      rw [List.count_append, List.count_eq_zero.2 plain, Nat.add_zero] at missing
      rw [lineStart?, if_neg known, Nat.add_sub_cancel, Nat.add_comm 1]
      exact missing
    have length := congrArg byteLength (split bs)
    have whole : as ++ bs = linesBefore as ++ ((lastLine as ++ bs) ++ []) := by
      rw [List.append_nil, ← split]
    rw [lineText?_eq start (by rw [stop, Option.getD_none, length, Text.byteLength_append]) whole,
      last]

/-! ## Positions -/

/-- In a text whose offsets fit, all starts of lines do. The line of an offset, inside the text or
behind it, is one more than the newlines in the bytes before it; where a character starts or the text
ends, the column is one more than the characters behind the last newline before it. From one such offset
to a later one the place goes on to a later line or to a later column, so that it says which offset it
is. -/
theorem position_of_boundary (source : String)
    (fits : byteLength source.toList < Span.offsetBound) :
    let t := ofText source
    (∀ s ∈ t.starts.toList, s < Span.offsetBound)
      ∧ (∀ offset, t.line offset = 1 + (source.toByteArray.data.toList.take offset).count 10)
      ∧ (∀ as, as <+: source.toList → t.lineColumn source.toList (byteLength as)
          = (t.line (byteLength as), 1 + (lastLine as).length))
      ∧ StrictMonoOn (fun offset => toLex (t.lineColumn source.toList offset))
        {offset | Text.IsBoundary source.toList offset}
      ∧ Set.InjOn (t.lineColumn source.toList) {offset | Text.IsBoundary source.toList offset} := by
  intro t
  have increases : StrictMonoOn (fun offset => toLex (t.lineColumn source.toList offset))
      {offset | Text.IsBoundary source.toList offset} := by
    intro m hm n hn less
    obtain ⟨as, bs, split, rfl⟩ := Text.exists_append_of_isBoundary hm
    obtain ⟨cs, ds, split', rfl⟩ := Text.exists_append_of_isBoundary hn
    obtain ⟨mid, rfl⟩ := Text.isPrefix_of_byteLength_le ⟨bs, split.symm⟩ ⟨ds, split'.symm⟩
      (Nat.le_of_lt less)
    have nonempty : mid ≠ [] := by
      rintro rfl
      rw [List.append_nil] at less
      exact absurd less (Nat.lt_irrefl _)
    dsimp only
    rw [lineColumn_ofText split, lineColumn_ofText split']
    exact position_lt as mid nonempty
  refine ⟨?starts, ?lines, ?columns, increases, ?positions⟩
  case starts => exact fun s hs => Nat.lt_of_le_of_lt (starts_le source.toList s hs) fits
  case lines =>
    intro offset
    rw [Text.toByteArray_toList]
    exact line_eq_count source.toList offset
  case columns =>
    rintro as ⟨bs, split⟩
    rw [lineColumn_ofText split.symm, line_ofText split.symm]
  case positions => exact fun m hm n hn same => increases.injOn hm hn (congrArg toLex same)

/-- Behind an empty line and a character of two bytes. -/
theorem position_of_boundary_lambda :
    byteLength "a\n\nλx".toList < Span.offsetBound
      ∧ (ofText "a\n\nλx").line 5 = 1 + ("a\n\nλx".toByteArray.data.toList.take 5).count 10
      ∧ (ofText "a\n\nλx").lineColumn "a\n\nλx".toList 5 = (3, 2) := by
  have fits : byteLength "a\n\nλx".toList < Span.offsetBound := by decide
  obtain ⟨-, lines, columns, -, -⟩ := position_of_boundary "a\n\nλx" fits
  refine ⟨fits, lines 5, ?_⟩
  have column := columns "a\n\nλ".toList ⟨['x'], rfl⟩
  have line : (ofText "a\n\nλx").line 5 = 3 := (line_append "a\n\nλ".toList ['x']).trans (by decide)
  exact column.trans (Prod.ext line (by decide))

end LineTable

end Surface
