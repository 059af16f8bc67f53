import Surface.BinarySearch
import Surface.Text.Blank
import Surface.Text.Bytes

/-!
# Line tables

The byte offsets at which the lines of a text start. Lines and columns are counted from 1; a
column counts characters. A table may be asked about another text than the one it was built
from.

* `LineTable.line`: the line of an offset, by binary search.
* `LineTable.lineColumn`: line and column of an offset.
* `LineTable.lineText?`: the text of a line.
-/

namespace Surface

/-- The offsets at which lines start (`LineOffsetTable`). -/
structure LineTable where
  starts : Array Nat
  /-- The first line starts the text. -/
  first : starts[0]? = some 0
  /-- A line starts behind the line before it. -/
  increasing : starts.toList.Pairwise (· < ·)
deriving DecidableEq, Repr

namespace LineTable

/-! ## Building -/

/-- The starts of lines in a text that begins at `offset`, behind those in `done`: one behind
every line feed. -/
def startsOnto (done : Array Nat) (offset : Nat) : List Char → Array Nat
  | [] => done
  | c :: cs =>
    let next := offset + c.utf8Size
    startsOnto (if c = '\n' then done.push next else done) next cs

theorem startsOnto_first {done : Array Nat} {n : Nat} (h : done[0]? = some n) (offset : Nat)
    (cs : List Char) : (startsOnto done offset cs)[0]? = some n := by
  induction cs generalizing done offset with
  | nil => exact h
  | cons c cs ih =>
    refine ih ?_ _
    split
    · rw [Array.getElem?_push]; grind
    · exact h

theorem startsOnto_increasing {done : Array Nat} (h : done.toList.Pairwise (· < ·)) {offset : Nat}
    (le : ∀ n ∈ done.toList, n ≤ offset) (cs : List Char) :
    (startsOnto done offset cs).toList.Pairwise (· < ·) := by
  induction cs generalizing done offset with
  | nil => exact h
  | cons c cs ih =>
    have pos := c.utf8Size_pos
    refine ih ?_ ?_
    · split
      · rw [Array.toList_push, List.pairwise_append]
        refine ⟨h, List.pairwise_singleton _ _, ?_⟩
        intro m hm n hn
        rw [List.mem_singleton.1 hn]
        have := le m hm
        omega
      · exact h
    · intro n hn
      split at hn
      · rw [Array.toList_push, List.mem_append, List.mem_singleton] at hn
        rcases hn with hn | hn
        · have := le n hn; omega
        · omega
      · have := le n hn; omega

/-- The table of a text. -/
def ofChars (cs : List Char) : LineTable where
  starts := startsOnto #[0] 0 cs
  first := startsOnto_first rfl 0 cs
  increasing := startsOnto_increasing (by simp) (by simp) cs

/-- The table of a text (`LineOffsetTable::build`). -/
def ofText (source : String) : LineTable := ofChars source.toList

/-! ## Asking -/

/-- The number of lines (`LineOffsetTable::line_count`). -/
def lineCount (t : LineTable) : Nat := t.starts.size

/-- The line of an offset: the number of lines that start no later
(`LineOffsetTable::line_from_offset`). -/
def line (t : LineTable) (offset : Nat) : Nat := partitionPoint (fun s => s ≤ offset) t.starts

/-- Where a line starts (`LineOffsetTable::line_start_offset`). -/
def lineStart? (t : LineTable) (line : Nat) : Option Nat :=
  if line = 0 then none else t.starts[line - 1]?

/-- Line and column of an offset in a text; the column is one more than the number of characters
between the start of the line and the offset (`LineOffsetTable::offset_to_line_col`). An offset
behind the end counts as the end; where the text cannot be cut, nothing is counted. -/
def lineColumn (t : LineTable) (source : List Char) (offset : Nat) : Nat × Nat :=
  let line := t.line offset
  let start := (t.lineStart? line).getD 0
  let before := (Text.dropBytes? start source).bind (Text.countBytes? (offset - start))
  (line, before.getD 0 + 1)

/-- The text of a line without the line feeds and carriage returns at its end
(`LineOffsetTable::line_text`). -/
def lineText? (t : LineTable) (source : List Char) (line : Nat) : Option (List Char) := do
  let start ← t.lineStart? line
  let stop := (t.lineStart? (line + 1)).getD (Text.byteLength source)
  let text ← Text.slice? source start stop
  return Text.dropEndWhile (fun c => c = '\n' || c = '\r') text

end LineTable

end Surface
