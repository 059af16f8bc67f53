import Surface.Token.Stream

/-!
# Groups

Every opening bracket is matched with the closing one that ends its group. All three sorts of
bracket nest on one stack: a closing bracket ends the innermost group that is open, whatever
its sort. Matched once, groups are stepped over in one move when the parser looks ahead.

* `Groups.ofTokens`: the closers of all groups, found in one pass.
* `occursBeforeBreak`: whether a tag follows outside all groups on the same line.
* `arrowFollowsGroup`: whether an arrow follows a group that is not empty.
-/

namespace Surface

variable {ν : Type}

/-- For every position the position of its closer, if a group starts there and ends
(`GroupMatches`). -/
structure Groups where
  closers : Array (Option Nat)

namespace Groups

/-- Openers that wait for their closers, innermost first, beside the closers found so far. -/
structure Matching where
  closers : Array (Option Nat)
  waiting : List Nat

/-- One more token (in `GroupMatches::new`). -/
def Matching.take (m : Matching) (tag : Tag) : Matching :=
  let position := m.closers.size
  let closers := m.closers.push none
  if tag.isOpener then ⟨closers, position :: m.waiting⟩
  else if tag.isCloser then
    match m.waiting with
    | opener :: waiting => ⟨closers.setIfInBounds opener (some position), waiting⟩
    | [] => ⟨closers, []⟩
  else ⟨closers, m.waiting⟩

/-- The groups of a stream (`GroupMatches::new`). -/
def ofTokens (ts : Tokens ν) : Groups :=
  ⟨(ts.items.foldl (fun m t => Matching.take m t.tag) ⟨#[], []⟩).closers⟩

/-- The position of the closer of the group that starts at `i`. -/
def closer? (g : Groups) (i : Nat) : Option Nat := g.closers[i]?.join

end Groups

/-- Whether `target` occurs outside all groups between position `i` and the end of its line
(`depth0_before_break`). A group that is never closed and a closer without an opener end the
search. -/
def occursBeforeBreak (ts : Tokens ν) (g : Groups) (target : Tag) (i : Nat) : Bool :=
  if h : ts.tag i = .eof ∨ ts.tag i = .lineBreak then false
  else
    have : i < ts.size := Tokens.lt_size_of_tag_ne_eof fun e => h (.inl e)
    if (ts.tag i).isOpener then
      match g.closer? i with
      | some j => if i ≤ j then occursBeforeBreak ts g target (j + 1) else false
      | none => false
    else if (ts.tag i).isCloser then false
    else if ts.tag i = target then true
    else occursBeforeBreak ts g target (i + 1)
termination_by ts.size - i

/-- The first position from `i` on that is no line break (`next_significant`). -/
def pastBreaks (ts : Tokens ν) (i : Nat) : Nat :=
  if h : ts.tag i = .lineBreak then
    have : i < ts.size := Tokens.lt_size_of_tag_ne_eof (by simp [h])
    pastBreaks ts (i + 1)
  else i
termination_by ts.size - i

/-- Whether the group that starts at `i` is not empty and an arrow follows it (`arrow_after_group`).
Line breaks before the arrow are passed over when `skipsBreaks` is set. -/
def arrowFollowsGroup (ts : Tokens ν) (g : Groups) (skipsBreaks : Bool) (i : Nat) : Bool :=
  let closes (close : Punct) : Bool :=
    if ts.tag (pastBreaks ts (i + 1)) = .punct close then false
    else
      match g.closer? i with
      | some j =>
        ts.tag (if skipsBreaks then pastBreaks ts (j + 1) else j + 1) = .reserved .arrow
      | none => false
  match ts.tag i with
  | .punct .openParen => closes .closeParen
  | .punct .openBracket => closes .closeBracket
  | _ => false

end Surface
