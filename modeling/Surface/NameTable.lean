import Std.Data.TreeMap
import Std.Data.TreeMap.Lemmas

/-!
# Name tables

A name table holds the distinct spellings of one file in the order of their first use and
numbers them from 0. Number 0 is the empty text, which every table holds from the start.

* `NameTable.intern`: the number of a spelling, which is added when it is new.
* `NameTable.spelling`: the spelling with a number.
* `NameTable.numbers_push`: adding a new spelling keeps spellings and numbers in step.
-/

namespace Surface

/-- The spellings in the order of their first use, and the number of each (`StringInterner`). -/
structure NameTable where
  spellings : Array String
  numbers : Std.TreeMap String Nat
  /-- The number of a spelling is the position where it stands, and no spelling stands twice. -/
  number_iff : ∀ (s : String) (n : Nat), numbers[s]? = some n ↔ spellings[n]? = some s
  /-- The empty text comes first. -/
  first : spellings[0]? = some ""

namespace NameTable

/-- The table that holds the empty text only. -/
def empty : NameTable where
  spellings := #[""]
  numbers := Std.TreeMap.empty.insert "" 0
  number_iff s n := by
    rw [Std.TreeMap.getElem?_insert]
    simp only [Std.compare_eq_iff_eq]
    cases n <;> simp
  first := rfl

instance : Inhabited NameTable := ⟨empty⟩

/-- The number of distinct spellings, the empty text included (`StringInterner::len`). -/
def size (t : NameTable) : Nat := t.spellings.size

/-- No table is empty, since each holds the empty text. -/
def isEmpty (t : NameTable) : Bool := t.spellings.isEmpty

/-- The number of a spelling, if the table holds it. -/
def number? (t : NameTable) (s : String) : Option Nat := t.numbers[s]?

/-- A spelling without a number can be added behind the others, and its number is the size of
the table. -/
theorem numbers_push {t : NameTable} {s : String} (h : t.number? s = none) (r : String) (n : Nat) :
    (t.numbers.insert s t.size)[r]? = some n ↔ (t.spellings.push s)[n]? = some r := by
  have absent : ∀ i : Nat, t.spellings[i]? ≠ some s := by
    intro i hi
    rw [number?, (t.number_iff s i).2 hi] at h
    cases h
  have old := t.number_iff r n
  rw [Std.TreeMap.getElem?_insert, Array.getElem?_push]
  simp only [Std.compare_eq_iff_eq]
  by_cases hn : n = t.spellings.size
  · have none_at : t.spellings[n]? = none := Array.getElem?_eq_none (Nat.le_of_eq hn.symm)
    rw [none_at] at old
    by_cases hr : s = r <;> simp_all [size]
  · by_cases hr : s = r
    · subst hr
      simp [size, hn, absent, Ne.symm hn]
    · simp [hr, hn, old]

/-- The number of `s`, and the table that holds it: a new spelling gets the next number. -/
def intern (t : NameTable) (s : String) : Nat × NameTable :=
  match h : t.number? s with
  | some n => (n, t)
  | none =>
    (t.size,
      { spellings := t.spellings.push s
        numbers := t.numbers.insert s t.size
        number_iff := numbers_push h
        first := by have := t.first; grind })

/-- The table that holds `s` as well. -/
def record (t : NameTable) (s : String) : NameTable := (t.intern s).2

/-- The table that holds all of `ss` as well, new ones numbered in order. -/
def recordAll (t : NameTable) (ss : List String) : NameTable := ss.foldl record t

/-- The spelling with number `n`; no spelling has an unknown number, and its text is empty
(`StringInterner::lookup`). -/
def spelling (t : NameTable) (n : Nat) : String := t.spellings[n]?.getD ""

end NameTable

end Surface
