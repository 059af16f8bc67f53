import Surface.Groups
import Surface.Token.TagSet

/-!
# Cursors

A cursor stands before a token of a stream. Between parentheses and brackets line breaks carry
no meaning, and the cursor passes over them on its own.

* `Cursor.step`: over the next token, but never over the end.
* `Cursor.resume`: to the next place where reading may go on after an error.
-/

namespace Surface

/-- A position in a stream of tokens. -/
structure Cursor where
  position : Nat
  /-- The span of the last token behind the cursor that is no line break. -/
  previous : Span
  /-- Line breaks are passed over. -/
  skipsBreaks : Bool
deriving DecidableEq, Repr

namespace Cursor

variable {ν : Type}

/-- The cursor before the first token. -/
def start : Cursor := ⟨0, .point 0, false⟩

/-- The tag of the next token (`Cursor::current_tag`). -/
def tag (ts : Tokens ν) (c : Cursor) : Tag := ts.tag c.position

/-- The cursor behind the line breaks that come next (`Cursor::skip_line_breaks`). -/
def skipBreaks (ts : Tokens ν) (c : Cursor) : Cursor :=
  { c with position := pastBreaks ts c.position }

/-- The cursor behind the next token, which is not the end (in `Cursor::advance`). -/
def pass (ts : Tokens ν) (c : Cursor) : Cursor :=
  { c with
    position := c.position + 1
    previous := if c.tag ts = .lineBreak then c.previous else (ts.get c.position).span }

/-- The cursor behind the next token, and behind line breaks where they are passed over
(`Cursor::advance`). The end is never passed. -/
def step (ts : Tokens ν) (c : Cursor) : Cursor :=
  let next := if c.tag ts = .eof then c else c.pass ts
  if c.skipsBreaks then next.skipBreaks ts else next

/-! ## Progress -/

theorem le_pastBreaks (ts : Tokens ν) (i : Nat) : i ≤ pastBreaks ts i := by
  fun_induction pastBreaks ts i with
  | case1 i _ _ ih => omega
  | case2 i _ => exact Nat.le_refl i

theorem lt_position_step {ts : Tokens ν} {c : Cursor} (h : c.tag ts ≠ .eof) :
    c.position < (c.step ts).position := by
  have le := le_pastBreaks ts (c.position + 1)
  by_cases hs : c.skipsBreaks
  · simp only [step, h, hs, if_true, if_false, skipBreaks, pass]; omega
  · simp [step, h, hs, pass]

/-! ## Recovery -/

/-- The cursor before the next token in `boundary` that stands outside the groups entered on the
way, `depth` of which are open (in `synchronize`). A closer without an opener is passed over unless
it is in the boundary; the end is never passed. -/
def resumeAt (ts : Tokens ν) (boundary : TagSet) (depth : Nat) (c : Cursor) : Cursor :=
  if h : c.tag ts = .eof then c
  else
    have := lt_position_step h
    have : c.position < ts.size := Tokens.lt_size_of_tag_ne_eof h
    if (c.tag ts).isOpener then resumeAt ts boundary (depth + 1) (c.step ts)
    else if (c.tag ts).isCloser then
      if depth = 0 && boundary.contains (c.tag ts) then c
      else resumeAt ts boundary (depth - 1) (c.step ts)
    else if depth = 0 && boundary.contains (c.tag ts) then c
    else resumeAt ts boundary depth (c.step ts)
termination_by ts.size - c.position

/-- The cursor before the next token in `boundary` outside the groups in between (`synchronize`). -/
def resume (ts : Tokens ν) (boundary : TagSet) (c : Cursor) : Cursor := c.resumeAt ts boundary 0

end Cursor

end Surface
