import Surface.Token.Renamed

/-!
# Name tables that grow

A name table is only ever added to. What has been numbered keeps its number, so that a number stands
for the same spelling in every later table.

Results:
* `NameTable.spellings_record`, `NameTable.number_intern`: the table with one more spelling, and its
  number.
* `NameTable.GrowsTo`, `Tokens.HeldBy.of_growsTo`: a table and a later one, and what both hold.
* `Denotes`: what names stand for when they are looked up in a table; `Denotes.spell`,
  `Denotes.tokens_eq`.
-/

namespace Surface

namespace NameTable

/-! ## One spelling -/

/-- A text has been numbered exactly if it stands in the table. -/
theorem number?_eq_some_iff {t : NameTable} {s : String} {n : Nat} :
    t.number? s = some n ↔ t.spellings[n]? = some s := t.number_iff s n

theorem spelling_of_number {t : NameTable} {s : String} {n : Nat} (h : t.number? s = some n) :
    t.spelling n = s := by
  rw [spelling, number?_eq_some_iff.1 h, Option.getD_some]

theorem number?_eq_none_iff {t : NameTable} {s : String} :
    t.number? s = none ↔ s ∉ t.spellings.toList := by
  rw [Option.eq_none_iff_forall_ne_some, List.mem_iff_getElem?, not_exists]
  refine forall_congr' fun n => ?_
  rw [Array.getElem?_toList, ne_eq, number?_eq_some_iff]

theorem record_of_number {t : NameTable} {s : String} {n : Nat} (h : t.number? s = some n) :
    t.record s = t := by
  unfold record intern
  split
  · rfl
  · next none => rw [h] at none; cases none

/-- A new text is added behind the others; one that has been numbered is not added again. -/
theorem spellings_record (t : NameTable) (s : String) : (t.record s).spellings.toList
    = if s ∈ t.spellings.toList then t.spellings.toList else t.spellings.toList ++ [s] := by
  cases h : t.number? s with
  | some n =>
    have old : s ∈ t.spellings.toList := Decidable.byContradiction fun new => by
      rw [number?_eq_none_iff.2 new] at h
      cases h
    rw [record_of_number h, if_pos old]
  | none =>
    rw [if_neg (number?_eq_none_iff.1 h)]
    unfold record intern
    split
    · next n some => rw [h] at some; cases some
    · exact Array.toList_push

/-- What has been numbered keeps its number. -/
theorem number_record_of_number {t : NameTable} {r s : String} {n : Nat} (h : t.number? r = some n) :
    (t.record s).number? r = some n := by
  rw [number?_eq_some_iff, ← Array.getElem?_toList] at h ⊢
  have inside : n < t.spellings.toList.length := (List.getElem?_eq_some_iff.1 h).1
  rw [spellings_record]
  split
  · exact h
  · rw [List.getElem?_append_left inside, h]

/-- The number that is given out is that of the text from then on. -/
theorem number_intern (t : NameTable) (s : String) : (t.record s).number? s = some (t.intern s).1 := by
  unfold record intern
  split
  · next n h => exact h
  · exact Std.TreeMap.getElem?_insert_self

/-- The number that is given out lies in the table. -/
theorem intern_lt (t : NameTable) (s : String) : (t.intern s).1 < (t.record s).size :=
  (Array.getElem?_eq_some_iff.1 (number?_eq_some_iff.1 (t.number_intern s))).1

/-- Recording a name again changes nothing. -/
theorem record_record (t : NameTable) (s : String) : (t.record s).record s = t.record s :=
  record_of_number (t.number_intern s)

/-! ## Later tables -/

/-- Whatever a table holds, a later one holds under the same number. -/
def GrowsTo (t t' : NameTable) : Prop :=
  ∀ (n : Nat) (s : String), t.spellings[n]? = some s → t'.spellings[n]? = some s

theorem GrowsTo.refl (t : NameTable) : t.GrowsTo t := fun _ _ h => h

theorem GrowsTo.trans {t u v : NameTable} (h : t.GrowsTo u) (h' : u.GrowsTo v) : t.GrowsTo v :=
  fun n s held => h' n s (h n s held)

theorem growsTo_record (t : NameTable) (s : String) : t.GrowsTo (t.record s) :=
  fun _ _ held => number?_eq_some_iff.1 (number_record_of_number (number?_eq_some_iff.2 held))

theorem GrowsTo.size_le {t t' : NameTable} (h : t.GrowsTo t') : t.size ≤ t'.size := by
  refine Nat.le_of_not_lt fun less => ?_
  have held := h t'.size _ (Array.getElem?_eq_getElem less)
  have none : t'.spellings[t'.size]? = none := Array.getElem?_eq_none (Nat.le_refl _)
  rw [none] at held
  cases held

end NameTable

/-! ## Streams that a table holds -/

/-- What a table holds is held by every later one. -/
theorem Tokens.HeldBy.of_growsTo {ts : Tokens Handle} {t t' : NameTable} (h : ts.HeldBy t)
    (grows : t.GrowsTo t') : ts.HeldBy t' :=
  fun token inside n there => Nat.lt_of_lt_of_le (h token inside n there) grows.size_le

theorem Comments.HeldBy.of_growsTo {cs : Comments Handle} {t t' : NameTable} (h : cs.HeldBy t)
    (grows : t.GrowsTo t') : cs.HeldBy t' :=
  fun c inside => Nat.lt_of_lt_of_le (h c inside) grows.size_le

/-- A token that is read from a stream is held with it. -/
theorem Tokens.HeldBy.get {ts : Tokens Handle} {t : NameTable} (h : ts.HeldBy t) (i : Nat) :
    ∀ n ∈ (ts.get i).kind.names, n.number < t.size := by
  unfold Tokens.get
  cases at_i : ts.get? i with
  | some token => exact h token (Array.mem_of_getElem? at_i)
  | none =>
    cases last : ts.last? with
    | some token => exact h token (Array.mem_of_back? last)
    | none => exact fun n there => absurd there List.not_mem_nil

/-- A token more is held if the names in it are. -/
theorem Tokens.HeldBy.push {ts : Tokens Handle} {t : NameTable} {token : Token Handle} (h : ts.HeldBy t)
    (held : ∀ n ∈ token.kind.names, n.number < t.size) : (ts.push token).HeldBy t := by
  intro other inside
  rcases Array.mem_push.1 inside with old | rfl
  · exact h other old
  · exact held

/-! ## Names and what they stand for -/

/-- Names stand for the spellings that a table holds under their numbers. -/
def Denotes (f : Handle → String) (t : NameTable) : Prop :=
  ∀ (n : Nat) (s : String), t.spellings[n]? = some s → f ⟨n⟩ = s

theorem Denotes.of_growsTo {f : Handle → String} {t t' : NameTable} (h : Denotes f t')
    (grows : t.GrowsTo t') : Denotes f t := fun n s held => h n s (grows n s held)

/-- Looking names up in a table. -/
theorem denotes_spell (t : NameTable) : Denotes (Naming.spell t) t := fun n s held => by
  show t.spelling n = s
  rw [NameTable.spelling, held, Option.getD_some]

/-- Whoever knows what names stand for reads a name as the table does. -/
theorem Denotes.spell {f : Handle → String} {t : NameTable} (h : Denotes f t) {n : Handle}
    (held : n.number < t.size) : Naming.spell t n = f n := by
  have there : t.spellings[n.number]? = some t.spellings[n.number] := Array.getElem?_eq_getElem held
  rw [h _ _ there]
  show t.spelling n.number = _
  rw [NameTable.spelling, there, Option.getD_some]

/-- Looking up what a table holds, in that table or by anyone who knows what names stand for. -/
theorem Denotes.tokens_eq {f : Handle → String} {t : NameTable} (h : Denotes f t) {ts : Tokens Handle}
    (held : ts.HeldBy t) : ts.map (Naming.spell t) = ts.map f := by
  refine congrArg Tokens.mk (Array.map_congr_left fun token inside => ?_)
  have known : ∀ n ∈ token.kind.names, Naming.spell t n = f n :=
    fun n there => h.spell (held token inside n there)
  obtain ⟨kind, span, spacing⟩ := token
  refine congrArg (Token.mk · span spacing) ?_
  cases kind with
  | ident n => exact congrArg TokenKind.ident (known n (List.mem_singleton_self n))
  | symbolIdent n => exact congrArg TokenKind.symbolIdent (known n (List.mem_singleton_self n))
  | operator n => exact congrArg TokenKind.operator (known n (List.mem_singleton_self n))
  | string n => exact congrArg TokenKind.string (known n (List.mem_singleton_self n))
  | number n =>
    exact congrArg (fun digits => TokenKind.number { n with digits })
      (known n.digits (List.mem_singleton_self n.digits))
  | _ => rfl

theorem Denotes.comments_eq {f : Handle → String} {t : NameTable} (h : Denotes f t) {cs : Comments Handle}
    (held : cs.HeldBy t) : cs.map (Naming.spell t) = cs.map f := by
  refine congrArg Comments.mk (Array.map_congr_left fun c inside => ?_)
  exact congrArg (Comment.mk · c.span c.kind) (h.spell (held c inside))

/-- The name of a spelling stands for it, and its table comes later. -/
theorem Denotes.enter {f : Handle → String} {t : NameTable} {s : String}
    (h : Denotes f (Naming.enter t s : Handle × NameTable).2) : f (Naming.enter t s).1 = s :=
  h _ _ (NameTable.number?_eq_some_iff.1 (t.number_intern s))

end Surface
