import Surface.Grammar.State
import Surface.Token.Renamed

/-!
# Streams under other names

All that is asked of a stream while it is read is where tags stand and what a token spells. The
first is the same under other names, and the second is given other names.

Results:
* `Tokens.tag_map`, `Tokens.get_map`: single tokens.
* `Cursor.step_map`, `Cursor.resume_map`, `occursBeforeBreak_map`, `arrowFollowsGroup_map`: moving
  on and looking ahead.
* `Comments.inRange_map`: comments between two offsets.
-/

namespace Surface

variable {ν μ : Type} (f : ν → μ)

/-! ## Single tokens -/

namespace TokenKind

@[simp] theorem tag_map (k : TokenKind ν) : (k.map f).tag = k.tag := by cases k <;> rfl

theorem map_eq_eof (k : TokenKind ν) : k.map f = eof ↔ k = eof := by
  cases k <;> simp only [map, reduceCtorEq]

theorem name?_map (k : TokenKind ν) : (k.map f).name? = k.name?.map f := by cases k <;> rfl

end TokenKind

@[simp] theorem Token.tag_map (t : Token ν) : (t.map f).tag = t.tag := t.kind.tag_map f

namespace Tokens

variable (ts : Tokens ν)

@[simp] theorem size_map : (ts.map f).size = ts.size := Array.size_map

theorem get?_map (i : Nat) : (ts.map f).get? i = (ts.get? i).map (Token.map f) :=
  Array.getElem?_map

@[simp] theorem tag_map (i : Nat) : (ts.map f).tag i = ts.tag i := by
  unfold tag
  rw [get?_map]
  cases ts.get? i with
  | none => rfl
  | some t => exact congrArg (Option.getD · _) (congrArg some (t.tag_map f))

theorem get_map (i : Nat) : (ts.map f).get i = (ts.get i).map f := by
  have last : (ts.map f).last? = ts.last?.map (Token.map f) := by
    unfold last? map
    rw [Array.back?_map]
  unfold get
  rw [get?_map, last]
  cases ts.get? i with
  | some t => rfl
  | none => cases ts.last? <;> rfl

end Tokens

/-! ## Looking ahead -/

section

variable (ts : Tokens ν) (g : Groups)

@[simp] theorem pastBreaks_map (i : Nat) : pastBreaks (ts.map f) i = pastBreaks ts i := by
  fun_induction pastBreaks ts i with
  | case1 i h _ ih => rw [pastBreaks, dif_pos (by rw [Tokens.tag_map, h]), ih]
  | case2 i h => rw [pastBreaks, dif_neg (by rwa [Tokens.tag_map])]

@[simp] theorem occursBeforeBreak_map (target : Tag) (i : Nat) :
    occursBeforeBreak (ts.map f) g target i = occursBeforeBreak ts g target i := by
  fun_induction occursBeforeBreak ts g target i <;> rw [occursBeforeBreak] <;> simp_all [Nat.not_le_of_lt]

theorem arrowFollowsGroup_map (skipsBreaks : Bool) (i : Nat) :
    arrowFollowsGroup (ts.map f) g skipsBreaks i = arrowFollowsGroup ts g skipsBreaks i := by
  unfold arrowFollowsGroup
  simp only [Tokens.tag_map, pastBreaks_map]

theorem Groups.ofTokens_map : Groups.ofTokens (ts.map f) = Groups.ofTokens ts := by
  unfold Groups.ofTokens Tokens.map
  rw [Array.foldl_map]
  simp only [Token.tag_map]

end

/-! ## Moving on -/

namespace Cursor

variable (ts : Tokens ν) (c : Cursor)

@[simp] theorem tag_map : c.tag (ts.map f) = c.tag ts := ts.tag_map f c.position

@[simp] theorem skipBreaks_map : c.skipBreaks (ts.map f) = c.skipBreaks ts := by
  unfold skipBreaks
  rw [pastBreaks_map]

@[simp] theorem step_map : c.step (ts.map f) = c.step ts := by
  have span : ((ts.map f).get c.position).span = (ts.get c.position).span := by
    rw [Tokens.get_map]
    rfl
  unfold step pass
  simp only [tag_map, skipBreaks_map, span]

theorem resumeAt_map (boundary : TagSet) (depth : Nat) :
    c.resumeAt (ts.map f) boundary depth = c.resumeAt ts boundary depth := by
  fun_induction resumeAt ts boundary depth c <;> rw [resumeAt] <;> simp_all

@[simp] theorem resume_map (boundary : TagSet) : c.resume (ts.map f) boundary = c.resume ts boundary :=
  c.resumeAt_map f ts boundary 0

end Cursor

/-! ## Comments -/

section

variable {α β : Type} (p : β → Bool) (g : α → β) (xs : Array α)

theorem any_getElem?_map (i : Nat) : (xs.map g)[i]?.any p = xs[i]?.any (p ∘ g) := by
  rw [Array.getElem?_map, Option.any_map]
  rfl

theorem narrow_map (base size : Nat) :
    narrow p (xs.map g) base size = narrow (p ∘ g) xs base size := by
  fun_induction narrow (p ∘ g) xs base size with
  | case1 base size small => rw [narrow, if_pos small]
  | case2 base size large half ih =>
    rw [narrow, if_neg large]
    dsimp only
    rw [any_getElem?_map]
    exact ih

theorem partitionPoint_map : partitionPoint p (xs.map g) = partitionPoint (p ∘ g) xs := by
  unfold partitionPoint
  simp only [Array.size_map, narrow_map, any_getElem?_map]

end

theorem Comments.inRange_map (cs : Comments ν) (start stop : Nat) :
    (cs.map f).inRange start stop = (cs.inRange start stop).map (Comment.map f) := by
  unfold Comments.inRange Comments.map
  simp only [partitionPoint_map, Array.map_extract]
  rfl

end Surface
