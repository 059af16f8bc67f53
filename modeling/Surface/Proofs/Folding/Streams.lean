import Surface.Proofs.Grammar.Groups
import Surface.Proofs.Parsing.Text

/-!
# Streams without the line breaks in groups

Between parentheses and square brackets line breaks are layout. Leaving them out keeps every other
token and every group, and moves positions by the number of line breaks left out before them.

Results:
* `Groups.foldBreaks`, `Tokens.folded`: the tokens without the line breaks directly inside
  parentheses or square brackets.
* `Tokens.openAt`, `Tokens.place`: what is open before a position, and where it is found afterwards.
* `folded_get?`, `pastBreaks_folded`, `closer?_folded`: tokens, line breaks and groups at a position.
-/

namespace Surface

/-- A parenthesis or a square bracket that opens a group. -/
def Tag.opensGroup (t : Tag) : Bool := t = .punct .openParen || t = .punct .openBracket

namespace Groups

/-! ## Lists of tokens -/

/-- The brackets that are open behind a tag, innermost first. -/
def enter (openers : List Tag) (t : Tag) : List Tag :=
  if t.isOpener then t :: openers else if t.isCloser then openers.tail else openers

/-- The brackets that are open behind some tokens, innermost first. -/
def enterAll (openers : List Tag) (ts : List Token) : List Tag :=
  ts.foldl (fun openers t => enter openers t.tag) openers

/-- Whether line breaks carry no meaning, since the innermost open bracket is not a brace. -/
def folds (openers : List Tag) : Bool := openers.head?.any Tag.opensGroup

/-- The tokens without the line breaks directly inside parentheses or square brackets. -/
def foldBreaks (openers : List Tag) : List Token → List Token
  | [] => []
  | t :: ts =>
    if folds openers && decide (t.tag = .lineBreak) then foldBreaks openers ts
    else t :: foldBreaks (enter openers t.tag) ts

variable {openers : List Tag} {t : Token} {ts us : List Token} {depth : Nat}

theorem enter_opener {o : Tag} (h : o.isOpener = true) : enter openers o = o :: openers := if_pos h

theorem enter_closer {o : Tag} (h : o.isCloser = true) : enter openers o = openers.tail := by
  unfold enter
  rw [if_neg (by rw [Tag.isOpener_of_isCloser h]; exact Bool.false_ne_true), if_pos h]

theorem enter_other {o : Tag} (ho : ¬ o.isOpener = true) (hc : ¬ o.isCloser = true) :
    enter openers o = openers := by
  unfold enter
  rw [if_neg ho, if_neg hc]

@[simp] theorem enter_lineBreak : enter openers .lineBreak = openers := rfl

theorem enterAll_append : enterAll openers (ts ++ us) = enterAll (enterAll openers ts) us :=
  List.foldl_append

theorem foldBreaks_dropped (hf : folds openers = true) (ht : t.tag = .lineBreak) :
    foldBreaks openers (t :: ts) = foldBreaks openers ts :=
  if_pos (by rw [hf, decide_eq_true ht]; rfl)

theorem foldBreaks_kept (h : ¬ (folds openers = true ∧ t.tag = .lineBreak)) :
    foldBreaks openers (t :: ts) = t :: foldBreaks (enter openers t.tag) ts :=
  if_neg (by rwa [Bool.and_eq_true, decide_eq_true_eq])

theorem foldBreaks_append :
    foldBreaks openers (ts ++ us) = foldBreaks openers ts ++ foldBreaks (enterAll openers ts) us := by
  induction ts generalizing openers with
  | nil => rfl
  | cons t ts ih =>
    rw [List.cons_append]
    by_cases h : folds openers = true ∧ t.tag = .lineBreak
    · rw [foldBreaks_dropped h.1 h.2, foldBreaks_dropped h.1 h.2, ih]
      unfold enterAll
      rw [List.foldl_cons, h.2, enter_lineBreak]
    · rw [foldBreaks_kept h, foldBreaks_kept h, ih]
      rfl

/-- The end of the group around some tokens is found behind as many tokens as are kept before it. -/
theorem reach_foldBreaks : reach depth ((foldBreaks openers ts).map Token.tag)
    = (foldBreaks openers (ts.take (reach depth (ts.map Token.tag)))).length := by
  induction ts generalizing openers depth with
  | nil => rfl
  | cons t ts ih =>
    rw [List.map_cons]
    by_cases h : folds openers = true ∧ t.tag = .lineBreak
    · rw [foldBreaks_dropped h.1 h.2, h.2, reach_other (by decide) (by decide), List.take_succ_cons,
        foldBreaks_dropped h.1 h.2, ih]
    rw [foldBreaks_kept h, List.map_cons]
    have next {d : Nat} (reaches : ∀ ts, reach depth (t.tag :: ts) = reach d ts + 1) :
        reach depth (t.tag :: (foldBreaks (enter openers t.tag) ts).map Token.tag)
          = (foldBreaks openers ((t :: ts).take (reach depth (t.tag :: ts.map Token.tag)))).length := by
      rw [reaches, reaches, List.take_succ_cons, foldBreaks_kept h, List.length_cons, ih]
    by_cases ho : t.tag.isOpener = true
    · exact next fun _ => reach_opener ho
    by_cases hc : t.tag.isCloser = true
    · cases depth with
      | zero =>
        rw [reach_closer hc, reach_closer hc]
        rfl
      | succ depth => exact next fun _ => reach_closer_succ hc
    · exact next fun _ => reach_other ho hc

/-- A group that ends still ends. -/
theorem reach_foldBreaks_lt : reach depth ((foldBreaks openers ts).map Token.tag)
    < (foldBreaks openers ts).length ↔ reach depth (ts.map Token.tag) < ts.length := by
  induction ts generalizing openers depth with
  | nil => rfl
  | cons t ts ih =>
    rw [List.map_cons]
    by_cases h : folds openers = true ∧ t.tag = .lineBreak
    · rw [foldBreaks_dropped h.1 h.2, h.2, reach_other (by decide) (by decide), List.length_cons, ih]
      exact Nat.succ_lt_succ_iff.symm
    rw [foldBreaks_kept h, List.map_cons, List.length_cons, List.length_cons]
    by_cases ho : t.tag.isOpener = true
    · rw [reach_opener ho, reach_opener ho, Nat.succ_lt_succ_iff, Nat.succ_lt_succ_iff, ih]
    by_cases hc : t.tag.isCloser = true
    · cases depth with
      | zero => exact iff_of_true (by rw [reach_closer hc]; omega) (by rw [reach_closer hc]; omega)
      | succ depth =>
        rw [reach_closer_succ hc, reach_closer_succ hc, Nat.succ_lt_succ_iff, Nat.succ_lt_succ_iff, ih]
    · rw [reach_other ho hc, reach_other ho hc, Nat.succ_lt_succ_iff, Nat.succ_lt_succ_iff, ih]

/-- Before the closer of a group the groups entered on the way have been closed. -/
theorem enterAll_reach (h : reach depth (ts.map Token.tag) < ts.length) :
    enterAll openers (ts.take (reach depth (ts.map Token.tag))) = openers.drop depth := by
  induction ts generalizing openers depth with
  | nil => cases h
  | cons t ts ih =>
    rw [List.map_cons] at h ⊢
    have next {d : Nat} (reaches : reach depth (t.tag :: ts.map Token.tag)
          = reach d (ts.map Token.tag) + 1) (left : (enter openers t.tag).drop d = openers.drop depth) :
        enterAll openers ((t :: ts).take (reach depth (t.tag :: ts.map Token.tag)))
          = openers.drop depth := by
      rw [reaches, List.length_cons, Nat.succ_lt_succ_iff] at h
      rw [reaches, List.take_succ_cons, ← left]
      exact ih h
    by_cases ho : t.tag.isOpener = true
    · refine next (reach_opener ho) ?_
      rw [enter_opener ho]
      rfl
    by_cases hc : t.tag.isCloser = true
    · cases depth with
      | zero =>
        rw [reach_closer hc]
        rfl
      | succ depth =>
        refine next (reach_closer_succ hc) ?_
        rw [enter_closer hc, List.drop_tail]
    · refine next (reach_other ho hc) ?_
      rw [enter_other ho hc]

end Groups

namespace Tokens

open Groups

variable {ts : Tokens} {i j : Nat}

/-! ## Streams -/

/-- The stream without the line breaks directly inside parentheses or square brackets. -/
def folded (ts : Tokens) : Tokens := ⟨(foldBreaks [] ts.items.toList).toArray⟩

/-- The brackets that are open before a position, innermost first. -/
def openAt (ts : Tokens) (i : Nat) : List Tag := enterAll [] (ts.items.toList.take i)

/-- Where a position is found without those line breaks. -/
def place (ts : Tokens) (i : Nat) : Nat := (foldBreaks [] (ts.items.toList.take i)).length

/-- A line break that is left out. -/
def Dropped (ts : Tokens) (i : Nat) : Prop := folds (ts.openAt i) = true ∧ ts.tag i = .lineBreak

@[simp] theorem place_zero : ts.place 0 = 0 := rfl

@[simp] theorem openAt_zero : ts.openAt 0 = [] := rfl

theorem folded_toList : ts.folded.items.toList = foldBreaks [] ts.items.toList := rfl

theorem folded_split (ts : Tokens) (i : Nat) : ts.folded.items.toList
    = foldBreaks [] (ts.items.toList.take i) ++ foldBreaks (ts.openAt i) (ts.items.toList.drop i) := by
  rw [openAt, ← foldBreaks_append, List.take_append_drop]
  rfl

theorem drop_place : ts.folded.items.toList.drop (ts.place i)
    = foldBreaks (ts.openAt i) (ts.items.toList.drop i) := by
  rw [folded_split ts i]
  exact List.drop_left

theorem place_le_size : ts.place i ≤ ts.folded.size := by
  have size : ts.folded.size = ts.folded.items.toList.length := Array.length_toList.symm
  rw [size, folded_split ts i, List.length_append]
  exact Nat.le_add_right _ _

/-- No tokens are added. -/
theorem folded_size_le : ts.folded.size ≤ ts.size := by
  have shorter (openers : List Tag) (l : List Token) : (foldBreaks openers l).length ≤ l.length := by
    induction l generalizing openers with
    | nil => exact Nat.le_refl 0
    | cons t l ih =>
      unfold foldBreaks
      split
      · exact Nat.le_succ_of_le (ih openers)
      · exact Nat.succ_le_succ (ih _)
  exact shorter [] ts.items.toList

/-- The tokens from a position on start with the one that stands there. -/
theorem drop_eq (h : i < ts.size) :
    ∃ t, ts.items.toList.drop i = t :: ts.items.toList.drop (i + 1)
      ∧ ts.get? i = some t ∧ ts.tag i = t.tag := by
  have here : ts.get? i = some ts.items.toList[i] := by
    unfold get?
    rw [← Array.getElem?_toList]
    exact List.getElem?_eq_getElem h
  refine ⟨ts.items.toList[i], List.drop_eq_getElem_cons h, here, ?_⟩
  unfold tag
  rw [here]
  rfl

theorem take_succ {t : Token} (h : ts.get? i = some t) :
    ts.items.toList.take (i + 1) = ts.items.toList.take i ++ [t] := by
  unfold get? at h
  rw [← Array.getElem?_toList] at h
  rw [List.take_add_one, h]
  rfl

theorem openAt_succ : ts.openAt (i + 1) = enter (ts.openAt i) (ts.tag i) := by
  by_cases h : i < ts.size
  · obtain ⟨t, -, here, tag⟩ := drop_eq h
    rw [openAt, take_succ here, enterAll_append, tag]
    rfl
  · have all (j : Nat) (hj : i ≤ j) : ts.items.toList.take j = ts.items.toList :=
      List.take_of_length_le (Nat.le_trans (Nat.not_lt.1 h) hj)
    rw [tag_of_size_le (Nat.not_lt.1 h), openAt, openAt, all _ (Nat.le_succ i), all i (Nat.le_refl i)]
    rfl

theorem place_succ_of_dropped (h : ts.Dropped i) : ts.place (i + 1) = ts.place i := by
  have lt : i < ts.size := lt_size_of_tag_ne_eof (by rw [h.2]; exact Tag.noConfusion)
  obtain ⟨t, -, here, tag⟩ := drop_eq lt
  rw [place, take_succ here, foldBreaks_append, ← openAt,
    foldBreaks_dropped h.1 (tag.symm.trans h.2)]
  exact congrArg List.length (List.append_nil _)

theorem place_succ (h : ¬ ts.Dropped i) (lt : i < ts.size) : ts.place (i + 1) = ts.place i + 1 := by
  obtain ⟨t, -, here, tag⟩ := drop_eq lt
  unfold Dropped at h
  rw [tag] at h
  rw [place, take_succ here, foldBreaks_append, ← openAt, foldBreaks_kept h, List.length_append]
  rfl

theorem place_le_place (h : i ≤ j) : ts.place i ≤ ts.place j := by
  obtain ⟨d, rfl⟩ := Nat.exists_eq_add_of_le h
  rw [place, place, List.take_add, foldBreaks_append, List.length_append]
  exact Nat.le_add_right _ _

/-- Behind a token that is kept, positions move on. -/
theorem place_lt_place (h : ¬ ts.Dropped i) (lt : i < ts.size) (hij : i < j) :
    ts.place i < ts.place j := by
  have := place_succ h lt
  have : ts.place (i + 1) ≤ ts.place j := place_le_place hij
  omega

theorem folded_get? (h : ¬ ts.Dropped i) : ts.folded.get? (ts.place i) = ts.get? i := by
  have here : ts.folded.get? (ts.place i) = (ts.folded.items.toList.drop (ts.place i))[0]? := by
    unfold get?
    rw [← Array.getElem?_toList, List.getElem?_drop]
    rfl
  rw [here, drop_place]
  by_cases lt : i < ts.size
  · obtain ⟨t, split, here, tag⟩ := drop_eq lt
    unfold Dropped at h
    rw [tag] at h
    rw [split, here, foldBreaks_kept h]
    rfl
  · have none : ts.get? i = none := Array.getElem?_eq_none (Nat.not_lt.1 lt)
    rw [none, List.drop_of_length_le (Nat.not_lt.1 lt)]
    rfl

theorem folded_tag (h : ¬ ts.Dropped i) : ts.folded.tag (ts.place i) = ts.tag i := by
  unfold tag
  rw [folded_get? h]

/-! ## Line breaks -/

theorem openAt_pastBreaks : ts.openAt (pastBreaks ts i) = ts.openAt i := by
  fun_induction pastBreaks ts i with
  | case1 i h _ ih => rw [ih, openAt_succ, h, enter_lineBreak]
  | case2 i _ => rfl

theorem not_dropped_of_ne (h : ts.tag i ≠ .lineBreak) : ¬ ts.Dropped i := fun d => h d.2

theorem pastBreaks_folded : pastBreaks ts.folded (ts.place i) = ts.place (pastBreaks ts i) := by
  fun_induction pastBreaks ts i with
  | case1 i h lt ih =>
    by_cases d : ts.Dropped i
    · rw [← place_succ_of_dropped d, ih]
    · rw [pastBreaks, dif_pos (by rw [folded_tag d, h]), ← place_succ d lt, ih]
  | case2 i h =>
    rw [pastBreaks, dif_neg (by rw [folded_tag (not_dropped_of_ne h)]; exact h)]

/-- Line breaks that are left out take no place. -/
theorem place_pastBreaks (h : folds (ts.openAt i) = true) : ts.place (pastBreaks ts i) = ts.place i := by
  fun_induction pastBreaks ts i with
  | case1 i lineBreak _ ih =>
    rw [ih (by rw [openAt_succ, lineBreak, enter_lineBreak]; exact h),
      place_succ_of_dropped ⟨h, lineBreak⟩]
  | case2 i _ => rfl

/-! ## Groups -/

theorem map_tag_drop (ts : Tokens) (i : Nat) :
    (tagsOf ts).drop i = (ts.items.toList.drop i).map Token.tag := List.map_drop.symm

/-- The closer of a group stays the closer of that group. -/
theorem closer?_folded (h : (ts.tag i).isOpener = true) :
    (ofTokens ts.folded).closer? (ts.place i) = ((ofTokens ts).closer? i).map ts.place := by
  have kept : ¬ ts.Dropped i := not_dropped_of_ne fun e => by rw [e] at h; cases h
  have lt : i < ts.size := lt_size_of_tag_ne_eof fun e => by rw [e] at h; cases h
  have rest : (tagsOf ts.folded).drop (ts.place i + 1)
      = (foldBreaks (ts.openAt (i + 1)) (ts.items.toList.drop (i + 1))).map Token.tag := by
    rw [map_tag_drop, ← place_succ kept lt, drop_place]
  rw [closer?_eq, closer?_eq, folded_tag kept, rest, map_tag_drop, List.length_map, List.length_map]
  by_cases ends : reach 0 ((ts.items.toList.drop (i + 1)).map Token.tag)
      < (ts.items.toList.drop (i + 1)).length
  · rw [if_pos ⟨h, reach_foldBreaks_lt.2 ends⟩, if_pos ⟨h, ends⟩, reach_foldBreaks, Option.map_some]
    congr 1
    generalize reach 0 ((ts.items.toList.drop (i + 1)).map Token.tag) = n
    have split : ts.items.toList.take (i + 1 + n)
        = ts.items.toList.take (i + 1) ++ (ts.items.toList.drop (i + 1)).take n := List.take_add
    show _ = (foldBreaks [] (ts.items.toList.take (i + 1 + n))).length
    rw [split, foldBreaks_append, List.length_append, ← place_succ kept lt]
    rfl
  · rw [if_neg fun o => ends (reach_foldBreaks_lt.1 o.2), if_neg fun o => ends o.2, Option.map_none]

/-- Behind a group the same brackets are open as before it. -/
theorem openAt_closer (h : (ofTokens ts).closer? i = some j) :
    ts.openAt (j + 1) = ts.openAt i ∧ (ts.tag j).isCloser = true := by
  obtain ⟨-, -, closes⟩ := closer_spec h
  refine ⟨?_, closes⟩
  rw [closer?_eq] at h
  split at h
  · next opens =>
    cases h
    obtain ⟨opener, inside⟩ := opens
    rw [map_tag_drop, List.length_map] at inside
    have before : ts.openAt (i + 1 + reach 0 ((tagsOf ts).drop (i + 1))) = ts.openAt (i + 1) := by
      rw [map_tag_drop, openAt, List.take_add, enterAll_append]
      exact enterAll_reach inside
    rw [openAt_succ, before, enter_closer closes, openAt_succ, enter_opener opener]
    rfl
  · cases h

end Tokens

end Surface
