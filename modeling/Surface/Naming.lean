import Surface.NameTable

/-!
# Names

What names are while a text is read is left open: the spellings themselves, or the numbers that
stand for them in a name table. The readers compare spellings in one place only and enter a spelling
in one, and all they need to know of names is how these two are done.

* `Naming`: what names are, with the spelling of a name and the name of a spelling.
* `Handle`: names as numbers in a name table.
-/

namespace Surface

/-- What names are. -/
class Naming (ν : Type) where
  /-- The spelling of a name. -/
  spell : NameTable → ν → String
  /-- The name of a spelling, and the table that holds it. -/
  enter : NameTable → String → ν × NameTable

/-- A spelling names itself; the table is kept all the same. -/
instance : Naming String where
  spell _ s := s
  enter t s := (s, t.record s)

/-- A name as its number in a name table (`Name`). -/
structure Handle where
  number : Nat
deriving DecidableEq, Repr

/-- A number stands for its spelling in the table at hand. -/
instance : Naming Handle where
  spell t h := t.spelling h.number
  enter t s := (⟨(t.intern s).1⟩, (t.intern s).2)

end Surface
