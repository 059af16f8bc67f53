import Surface.Proofs.Grammar.Groups

/-!
# Brackets that nest properly

Where every closing bracket is of the sort of the group it ends and every group ends, the groups
that are matched are those that nest, whatever stands before them or behind.

Results:
* `nests`: whether brackets nest properly; `nests_enter`: what is opened is closed.
* `groupEnd`: the end of the group around a position.
* `closer?_of_nests`: where brackets nest, an opener is matched with the end of its group.
-/

namespace Surface

namespace Groups

/-! ## Brackets that nest properly -/

/-- The bracket that ends the group a tag starts. -/
def closing? : Tag → Option Punct
  | .punct .openParen => some .closeParen
  | .punct .openBracket => some .closeBracket
  | .punct .openBrace => some .closeBrace
  | _ => none

/-- Whether brackets nest properly: every closing bracket ends the group opened last among those
that are open, is of its sort, and no group stays open. The brackets that end the groups open from
before are awaited, innermost first. -/
def nests (awaited : List Punct) : List Tag → Bool
  | [] => awaited.isEmpty
  | t :: ts =>
    match closing? t with
    | some p => nests (p :: awaited) ts
    | none =>
      if t.isCloser then
        match awaited with
        | p :: others => t == .punct p && nests others ts
        | [] => false
      else nests awaited ts

variable {t : Tag} {ts : List Tag} {awaited others : List Punct} {p : Punct}

theorem isOpener_of_closing (h : closing? t = some p) : t.isOpener = true := by
  unfold closing? at h
  split at h <;> first | rfl | cases h

theorem closing?_of_isOpener (h : t.isOpener = true) : ∃ p, closing? t = some p := by
  cases t with
  | punct p => cases p <;> first | exact ⟨_, rfl⟩ | cases h
  | _ => cases h

theorem not_isOpener (h : closing? t = none) : ¬ t.isOpener = true := by
  intro opens
  obtain ⟨p, closes⟩ := closing?_of_isOpener opens
  rw [h] at closes
  cases closes

theorem closing?_eq_none (h : ¬ t.isOpener = true) : closing? t = none := by
  cases hp : closing? t with
  | none => rfl
  | some p => exact absurd (isOpener_of_closing hp) h

theorem isCloser_of_closing (h : closing? t = some p) : (Tag.punct p).isCloser = true := by
  unfold closing? at h
  split at h <;> cases h <;> rfl

theorem nests_tag (awaited : List Punct) (t : Tag) (ts : List Tag) : nests awaited (t :: ts) =
    match closing? t with
    | some p => nests (p :: awaited) ts
    | none =>
      if t.isCloser then
        match awaited with
        | p :: others => t == .punct p && nests others ts
        | [] => false
      else nests awaited ts := by
  cases awaited <;> rfl

theorem nests_opener (h : closing? t = some p) :
    nests awaited (t :: ts) = nests (p :: awaited) ts := by
  rw [nests_tag, h]

theorem nests_astray (h : t.isCloser = true) : nests [] (t :: ts) = false := by
  rw [nests_tag, closing?_eq_none (by rw [Tag.isOpener_of_isCloser h]; exact Bool.false_ne_true)]
  exact if_pos h

theorem nests_closer (h : t.isCloser = true) :
    nests (p :: others) (t :: ts) = (t == .punct p && nests others ts) := by
  rw [nests_tag, closing?_eq_none (by rw [Tag.isOpener_of_isCloser h]; exact Bool.false_ne_true)]
  exact if_pos h

theorem nests_other (ho : ¬ t.isOpener = true) (hc : ¬ t.isCloser = true) :
    nests awaited (t :: ts) = nests awaited ts := by
  rw [nests_tag, closing?_eq_none ho]
  exact if_neg hc

/-- One tag of brackets that nest: it opens a group, ends the innermost one, or does neither. -/
theorem nests_cons (h : nests awaited (t :: ts) = true) :
    (∃ p, closing? t = some p ∧ nests (p :: awaited) ts = true)
      ∨ (∃ p others, awaited = p :: others ∧ t = .punct p ∧ t.isCloser = true ∧ nests others ts = true)
      ∨ (¬ t.isOpener = true ∧ ¬ t.isCloser = true ∧ nests awaited ts = true) := by
  cases hp : closing? t with
  | some p =>
    rw [nests_opener hp] at h
    exact .inl ⟨p, rfl, h⟩
  | none =>
    have ho := not_isOpener hp
    by_cases hc : t.isCloser = true
    · cases awaited with
      | nil =>
        rw [nests_astray hc] at h
        cases h
      | cons p others =>
        rw [nests_closer hc, Bool.and_eq_true, beq_iff_eq] at h
        exact .inr (.inl ⟨p, others, rfl, h.1, hc, h.2⟩)
    · rw [nests_other ho hc] at h
      exact .inr (.inr ⟨ho, hc, h⟩)

/-- Tags that are no brackets make no difference at the end. -/
theorem nests_append {more : List Tag} (hm : ∀ t ∈ more, ¬ t.isOpener = true ∧ ¬ t.isCloser = true)
    (ts : List Tag) : nests awaited (ts ++ more) = nests awaited ts := by
  induction ts generalizing awaited with
  | nil =>
    induction more with
    | nil => rfl
    | cons t more ih =>
      obtain ⟨ho, hc⟩ := hm t (.head _)
      rw [List.nil_append, nests_other ho hc]
      exact ih fun t ht => hm t (.tail _ ht)
  | cons t ts ih =>
    rw [List.cons_append]
    cases hp : closing? t with
    | some p => rw [nests_opener hp, nests_opener hp, ih]
    | none =>
      have ho := not_isOpener hp
      by_cases hc : t.isCloser = true
      · cases awaited with
        | nil => rw [nests_astray hc, nests_astray hc]
        | cons p others => rw [nests_closer hc, nests_closer hc, ih]
      · rw [nests_other ho hc, nests_other ho hc, ih]

theorem nests_drop (h : nests awaited ts = true) (n : Nat) :
    ∃ awaited', nests awaited' (ts.drop n) = true := by
  induction n generalizing awaited ts with
  | zero => exact ⟨awaited, h⟩
  | succ n ih =>
    cases ts with
    | nil => exact ⟨[], rfl⟩
    | cons t ts =>
      rcases nests_cons h with ⟨_, _, h⟩ | ⟨_, _, _, _, _, h⟩ | ⟨_, _, h⟩ <;> exact ih h

/-- What is awaited comes, behind tags that nest properly. -/
theorem nests_enter (h : nests (awaited ++ p :: others) ts = true) : ∃ inside rest,
    ts = inside ++ .punct p :: rest ∧ nests awaited inside = true ∧ nests others rest = true := by
  induction ts generalizing awaited with
  | nil => cases awaited <;> cases h
  | cons t ts ih =>
    rcases nests_cons h with ⟨q, hq, h⟩ | ⟨q, rest, hw, rfl, closes, h⟩ | ⟨ho, hc, h⟩
    · obtain ⟨inside, rest, rfl, nested, behind⟩ := @ih (q :: awaited) h
      exact ⟨t :: inside, rest, rfl, (nests_opener hq).trans nested, behind⟩
    · cases awaited with
      | nil =>
        cases hw
        exact ⟨[], ts, rfl, rfl, h⟩
      | cons q' awaited =>
        obtain ⟨rfl, rfl⟩ := List.cons.inj hw
        obtain ⟨inside, rest, rfl, nested, behind⟩ := @ih awaited h
        refine ⟨.punct q' :: inside, rest, rfl, ?_, behind⟩
        rw [nests_closer closes, nested, Bool.and_true]
        exact beq_self_eq_true _
    · obtain ⟨inside, rest, rfl, nested, behind⟩ := @ih awaited h
      exact ⟨t :: inside, rest, rfl, (nests_other ho hc).trans nested, behind⟩

/-- Tags that nest properly are passed over on the way to the end of a group. -/
theorem reach_of_nests (h : nests awaited ts = true) (us : List Tag) :
    reach awaited.length (ts ++ us) = ts.length + reach 0 us := by
  induction ts generalizing awaited with
  | nil =>
    cases awaited with
    | nil => exact (Nat.zero_add _).symm
    | cons => cases h
  | cons t ts ih =>
    rw [List.cons_append, List.length_cons, Nat.add_right_comm]
    rcases nests_cons h with ⟨q, hq, h⟩ | ⟨q, rest, rfl, rfl, closes, h⟩ | ⟨ho, hc, h⟩
    · rw [reach_opener (isOpener_of_closing hq), ← ih h]
      rfl
    · rw [← ih h]
      exact reach_closer_succ closes
    · rw [reach_other ho hc, ih h]

/-- What is opened among tags that nest properly is closed behind tags that do. -/
theorem nests_at {tags : List Tag} (h : nests [] tags = true) {i : Nat} (ht : tags[i]? = some t)
    (hp : closing? t = some p) : ∃ inside rest,
      tags.drop (i + 1) = inside ++ .punct p :: rest ∧ nests [] inside = true := by
  obtain ⟨awaited, h⟩ := nests_drop h i
  rw [List.drop_eq_getElem?_toList_append, ht, Option.toList_some, List.singleton_append,
    nests_opener hp] at h
  have entered : nests ([] ++ p :: awaited) (tags.drop (i + 1)) = true := h
  obtain ⟨inside, rest, e, nested, -⟩ := nests_enter entered
  exact ⟨inside, rest, e, nested⟩

/-! ## The end of the group around a position -/

/-- The position of the closing bracket of the group around a position, or of the end. -/
def groupEnd (tags : List Tag) (i : Nat) : Nat := min tags.length (i + reach 0 (tags.drop i))

variable {tags : List Tag} {i j : Nat}

theorem groupEnd_le (tags : List Tag) (i : Nat) : groupEnd tags i ≤ tags.length := Nat.min_le_left ..

theorem groupEnd_eq (h : i ≤ tags.length) : groupEnd tags i = i + reach 0 (tags.drop i) := by
  have := reach_le_length 0 (tags.drop i)
  rw [List.length_drop] at this
  exact Nat.min_eq_right (by omega)

theorem le_groupEnd (h : i ≤ tags.length) : i ≤ groupEnd tags i := by
  rw [groupEnd_eq h]
  exact Nat.le_add_right ..

/-- A group with closing bracket ends at one. -/
theorem isCloser_groupEnd (tags : List Tag) (i : Nat) (h : i ≤ tags.length)
    (hlt : groupEnd tags i < tags.length) :
    ∃ t, tags[groupEnd tags i]? = some t ∧ t.isCloser = true := by
  rw [groupEnd_eq h] at hlt ⊢
  have inside : reach 0 (tags.drop i) < (tags.drop i).length := by
    rw [List.length_drop]
    omega
  obtain ⟨t, ht, closes⟩ := tag_reach inside
  rw [List.getElem?_drop] at ht
  exact ⟨t, ht, closes⟩

theorem groupEnd_groupEnd (hij : i ≤ j) (hj : j ≤ groupEnd tags i) :
    groupEnd tags j ≤ groupEnd tags i := by
  have hlen := Nat.le_trans hj (groupEnd_le tags i)
  rw [groupEnd_eq (Nat.le_trans hij hlen)] at hj ⊢
  rw [groupEnd_eq hlen]
  have near : j - i ≤ reach 0 (tags.drop i) := by omega
  obtain ⟨depth, e⟩ := reach_drop near
  rw [List.drop_drop, Nat.add_sub_cancel' hij] at e
  have := reach_zero_le depth (tags.drop j)
  omega

theorem lt_groupEnd (ht : tags[i]? = some t) (hc : t.isCloser = false) : i < groupEnd tags i := by
  have lt := (List.getElem?_eq_some_iff.1 ht).1
  rw [groupEnd_eq (Nat.le_of_lt lt), List.drop_eq_getElem?_toList_append, ht, Option.toList_some,
    List.singleton_append]
  by_cases ho : t.isOpener = true
  · rw [reach_opener ho]
    omega
  · rw [reach_other ho (by rw [hc]; exact Bool.false_ne_true)]
    omega

/-- A group that ends does so before the group around it. -/
theorem groupEnd_succ_lt (ht : tags[i]? = some t) (ho : t.isOpener = true)
    (hlt : groupEnd tags (i + 1) < tags.length) : groupEnd tags (i + 1) < groupEnd tags i := by
  have lt := (List.getElem?_eq_some_iff.1 ht).1
  have behind : i + 1 ≤ tags.length := lt
  rw [groupEnd_eq behind] at hlt ⊢
  rw [groupEnd_eq (Nat.le_of_lt lt), List.drop_eq_getElem?_toList_append (i := i), ht,
    Option.toList_some, List.singleton_append, reach_opener ho]
  have inside : reach 0 (tags.drop (i + 1)) < (tags.drop (i + 1)).length := by
    rw [List.length_drop]
    omega
  have := reach_lt_succ inside
  omega

/-- A group ends behind what nests properly inside of it. -/
theorem groupEnd_of_inside {inside rest : List Tag} (hi : i ≤ tags.length)
    (e : tags.drop i = inside ++ .punct p :: rest) (nested : nests [] inside = true)
    (hp : (Tag.punct p).isCloser = true) : groupEnd tags i = i + inside.length := by
  have reached := reach_of_nests nested (.punct p :: rest)
  rw [reach_closer hp, ← e] at reached
  rw [groupEnd_eq hi]
  exact congrArg (i + ·) reached

/-- Where brackets nest properly, nothing is left at the start before the end. -/
theorem groupEnd_zero (h : nests [] tags = true) : groupEnd tags 0 = tags.length := by
  have reached := reach_of_nests h []
  rw [List.append_nil] at reached
  rw [groupEnd_eq (Nat.zero_le _), List.drop_zero, Nat.zero_add]
  exact reached

/-- Where brackets nest properly, every group ends. -/
theorem groupEnd_of_nests (h : nests [] tags = true) (ht : tags[i]? = some t)
    (ho : t.isOpener = true) : groupEnd tags (i + 1) < tags.length := by
  have behind : i + 1 ≤ tags.length := (List.getElem?_eq_some_iff.1 ht).1
  obtain ⟨p, hp⟩ := closing?_of_isOpener ho
  obtain ⟨inside, rest, e, nested⟩ := nests_at h ht hp
  have length := congrArg List.length e
  rw [List.length_drop, List.length_append, List.length_cons] at length
  rw [groupEnd_of_inside behind e nested (isCloser_of_closing hp)]
  omega

/-- Where brackets nest properly, a group is matched with the bracket that ends it, whatever follows. -/
theorem closer?_of_nests (ts : Tokens) {more : List Tag} (hts : tagsOf ts = tags ++ more)
    (h : nests [] tags = true) (hi : i < tags.length) : (ofTokens ts).closer? i =
      if (ts.tag i).isOpener = true then some (groupEnd tags (i + 1)) else none := by
  have behind : i + 1 ≤ tags.length := hi
  have tag : ts.tag i = tags[i] := by
    rw [tag_eq, hts, List.getElem?_append_left hi, List.getElem?_eq_getElem hi, Option.getD_some]
  rw [closer?_eq, hts, List.drop_append_of_le_length behind, tag]
  by_cases ho : tags[i].isOpener = true
  · have ends := groupEnd_of_nests h (List.getElem?_eq_getElem hi) ho
    have inside : reach 0 (tags.drop (i + 1)) < (tags.drop (i + 1)).length := by
      rw [groupEnd_eq behind] at ends
      rw [List.length_drop]
      omega
    rw [reach_append inside, if_pos ⟨ho, by rw [List.length_append]; omega⟩, if_pos ho, groupEnd_eq behind]
  · rw [if_neg fun both => ho both.1, if_neg ho]

end Groups

end Surface
