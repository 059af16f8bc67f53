/-!
# Byte offsets in a text

A text is a list of characters and a position in it is a number of UTF-8 bytes. A position
that falls inside a character, or beyond the end, has no text behind it.

* `byteLength`: the number of bytes of a text.
* `slice?`: the text between two byte offsets, when both are character boundaries.
* `countBytes?`: the number of characters in the first bytes of a text.
* `dropBytes?_append`, `takeBytes?_append`, `slice?_append`, `countBytes?_append`: cutting where a
  character starts.
-/

namespace Surface.Text

/-- The number of UTF-8 bytes of a text. -/
def byteLength (cs : List Char) : Nat := cs.foldr (fun c n => c.utf8Size + n) 0

@[simp] theorem byteLength_nil : byteLength [] = 0 := rfl

@[simp] theorem byteLength_cons (c : Char) (cs : List Char) :
    byteLength (c :: cs) = c.utf8Size + byteLength cs := rfl

@[simp] theorem byteLength_append (as bs : List Char) :
    byteLength (as ++ bs) = byteLength as + byteLength bs := by
  induction as with
  | nil => simp
  | cons a as ih => simp [ih, Nat.add_assoc]

/-- The text behind the first `n` bytes, when a character starts or the text ends there. -/
def dropBytes? (n : Nat) : List Char → Option (List Char)
  | [] => if n = 0 then some [] else none
  | c :: cs =>
    if n = 0 then some (c :: cs)
    else if c.utf8Size ≤ n then dropBytes? (n - c.utf8Size) cs
    else none

/-- The first `n` bytes of a text, behind the characters in `done`, when a character starts or
the text ends behind them. -/
def takeOnto (done : Array Char) (n : Nat) : List Char → Option (List Char)
  | [] => if n = 0 then some done.toList else none
  | c :: cs =>
    if n = 0 then some done.toList
    else if c.utf8Size ≤ n then takeOnto (done.push c) (n - c.utf8Size) cs
    else none

/-- The first `n` bytes of a text, when a character starts or the text ends behind them. -/
def takeBytes? (n : Nat) (cs : List Char) : Option (List Char) := takeOnto #[] n cs

/-- The text from byte offset `start` to `stop`, when the offsets are in order and both are
character boundaries. -/
def slice? (cs : List Char) (start stop : Nat) : Option (List Char) :=
  if start ≤ stop then (dropBytes? start cs).bind (takeBytes? (stop - start)) else none

/-- The number of characters in the first `n` bytes of a text, added to `counted`. A shorter text
counts as a whole; there is no number when the `n` bytes end inside a character. -/
def countOnto (counted n : Nat) : List Char → Option Nat
  | [] => some counted
  | c :: cs =>
    if n = 0 then some counted
    else if c.utf8Size ≤ n then countOnto (counted + 1) (n - c.utf8Size) cs
    else none

/-- The number of characters in the first `n` bytes of a text, or in all of a shorter one. -/
def countBytes? (n : Nat) (cs : List Char) : Option Nat := countOnto 0 n cs

/-! ## Cutting where a character starts -/

@[simp] theorem dropBytes?_zero (cs : List Char) : dropBytes? 0 cs = some cs := by
  cases cs <;> rfl

theorem dropBytes?_append (as bs : List Char) :
    dropBytes? (byteLength as) (as ++ bs) = some bs := by
  induction as with
  | nil => simp
  | cons a as ih =>
    have := a.utf8Size_pos
    rw [byteLength_cons, List.cons_append, dropBytes?, if_neg (by omega), if_pos (by omega),
      Nat.add_sub_cancel_left, ih]

theorem takeOnto_append (done : Array Char) (as bs : List Char) :
    takeOnto done (byteLength as) (as ++ bs) = some (done.toList ++ as) := by
  induction as generalizing done with
  | nil => cases bs <;> simp [takeOnto]
  | cons a as ih =>
    have := a.utf8Size_pos
    rw [byteLength_cons, List.cons_append, takeOnto, if_neg (by omega), if_pos (by omega),
      Nat.add_sub_cancel_left, ih]
    simp

theorem takeBytes?_append (as bs : List Char) :
    takeBytes? (byteLength as) (as ++ bs) = some as := by
  rw [takeBytes?, takeOnto_append]
  rfl

theorem countOnto_append (counted : Nat) (as bs : List Char) :
    countOnto counted (byteLength as) (as ++ bs) = some (counted + as.length) := by
  induction as generalizing counted with
  | nil => cases bs <;> simp [countOnto]
  | cons a as ih =>
    have := a.utf8Size_pos
    rw [byteLength_cons, List.cons_append, countOnto, if_neg (by omega), if_pos (by omega),
      Nat.add_sub_cancel_left, ih, List.length_cons]
    congr 1
    omega

theorem countBytes?_append (as bs : List Char) :
    countBytes? (byteLength as) (as ++ bs) = some as.length := by
  rw [countBytes?, countOnto_append, Nat.zero_add]

theorem slice?_append (before mid behind : List Char) :
    slice? (before ++ (mid ++ behind)) (byteLength before) (byteLength before + byteLength mid)
      = some mid := by
  rw [slice?, if_pos (Nat.le_add_right _ _), dropBytes?_append, Nat.add_sub_cancel_left]
  exact takeBytes?_append _ _

end Surface.Text
