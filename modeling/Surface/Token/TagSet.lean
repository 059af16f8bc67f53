import Surface.Token.Tag

/-!
# Sets of tags

A set of tags says what the grammar would have accepted and where reading may resume. It is a
word with one bit for every tag.

* `TagSet.contains`, `TagSet.union` and the notation `{a, b}`.
* `TagSet.toList`: the members in the order of the tags.
* `TagSet.describe`: the members in words.
-/

namespace Surface

/-- A set of tags: the bit at a tag's index says whether it is a member (`TokenSet`). -/
structure TagSet where
  bits : BitVec Tag.count
deriving DecidableEq, Repr

namespace TagSet

/-- The set without members. -/
def empty : TagSet := ⟨0⟩

/-- The set with one member. -/
def single (tag : Tag) : TagSet := ⟨BitVec.twoPow Tag.count tag.index⟩

/-- The members of both sets together. -/
def union (a b : TagSet) : TagSet := ⟨a.bits ||| b.bits⟩

/-- A set with one more member (`TokenSet::with`). -/
def insert (tag : Tag) (set : TagSet) : TagSet := set.union (single tag)

instance : EmptyCollection TagSet := ⟨empty⟩
instance : Singleton Tag TagSet := ⟨single⟩
instance : Insert Tag TagSet := ⟨insert⟩
instance : Union TagSet := ⟨union⟩

/-- Whether a tag is a member. -/
def contains (set : TagSet) (tag : Tag) : Bool := set.bits.getLsbD tag.index

/-- Whether a set has no members. -/
def isEmpty (set : TagSet) : Bool := set.bits == 0

/-- The members in the order of the tags. -/
def toList (set : TagSet) : List Tag := Tag.all.filter set.contains

/-- The number of members (`TokenSet::count`). -/
def size (set : TagSet) : Nat := set.toList.length

/-- Alternatives in words: nothing, one, two joined by "or", or a list with "or" before the
last. -/
def joinAlternatives : List String → String
  | [] => "nothing"
  | [a] => a
  | [a, b] => a ++ " or " ++ b
  | names => ", ".intercalate names.dropLast ++ ", or " ++ names.getLast?.getD ""

/-- The members in words (`TokenSet::format_expected`). -/
def describe (set : TagSet) : String := joinAlternatives (set.toList.map Tag.describe)

end TagSet

end Surface
