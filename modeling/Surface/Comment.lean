import Surface.BinarySearch
import Surface.Span

/-!
# Comments

Comments are no tokens; they are kept in a list of their own, in the order of the text.

* `Comments.inRange`: the comments between two offsets, by two binary searches.
-/

namespace Surface

/-- The two sorts of comment. -/
inductive CommentKind
  /-- A comment behind `//`. -/
  | line
  /-- A comment behind `//!`, which documents what follows. -/
  | doc
deriving DecidableEq, Repr

/-- A comment in its place. -/
structure Comment (ν : Type := String) where
  /-- The text behind the marker, without blanks at its ends. -/
  content : ν
  /-- The whole comment with its marker, up to the newline. -/
  span : Span
  kind : CommentKind
deriving DecidableEq, Repr

/-- Whether a comment documents what follows. -/
def Comment.isDoc {ν : Type} (c : Comment ν) : Bool := c.kind == .doc

/-- The comments of one text, in order (`CommentList`). -/
structure Comments (ν : Type := String) where
  items : Array (Comment ν)
deriving DecidableEq, Repr

namespace Comments

variable {ν : Type}

/-- The list without comments. -/
def empty : Comments ν := ⟨#[]⟩

/-- The number of comments. -/
def size (cs : Comments ν) : Nat := cs.items.size

/-- The list with one more comment, which stands behind all others. -/
def push (cs : Comments ν) (c : Comment ν) : Comments ν := ⟨cs.items.push c⟩

/-- The comments that lie between two offsets: from the first that does not start before
`start` to the last that does not end behind `stop`. -/
def inRange (cs : Comments ν) (start stop : Nat) : Array (Comment ν) :=
  cs.items.extract (partitionPoint (fun c => c.span.start < start) cs.items)
    (partitionPoint (fun c => c.span.stop ≤ stop) cs.items)

end Comments

end Surface
