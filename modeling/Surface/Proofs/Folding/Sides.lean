import Surface.Proofs.Folding.Parameters
import Surface.Proofs.Reader.Quiet

/-!
# A stream and the same stream without its line breaks in groups

Two cursors, one of them on the stream without the line breaks in groups, stand at the same token,
take the same tokens and see the same ahead of them.

Results:
* `Tokens.Splits`: a line break that hides what stands behind it from a look at single tokens.
* `Folding`, `Folding.At`: a stream and the same stream without the line breaks in groups, and
  states on both at the same token.
* `Folding.At.step`, `Folding.right_ahead`, `Folding.right_binds`: moving on and looking ahead.
* `Sees`: readers that only look.
-/

namespace Surface

open Groups

/-- A line break in a group that hides what stands behind it from a look at single tokens: a name
behind a dot, or a colon behind the name with which a parameter of a constructor starts. -/
def Tokens.Splits (ts : Tokens) (i : Nat) : Prop :=
  ts.Dropped (i + 1)
    ∧ (ts.tag i = .reserved .dot ∧ nameTags.contains (ts.tag (pastBreaks ts (i + 1))) = true
      ∨ nameTags.contains (ts.tag i) = true ∧ ts.tag (pastBreaks ts (i + 1)) = .punct .colon
        ∧ ts.StartsCtorParam i)

instance (ts : Tokens) (i : Nat) : Decidable (ts.Dropped i) := inferInstanceAs (Decidable (_ ∧ _))

instance (ts : Tokens) (i : Nat) : Decidable (ts.Splits i) := inferInstanceAs (Decidable (_ ∧ (_ ∨ _)))

/-- A tag that neither opens nor closes a group and is not that of the end. -/
def Tag.IsPlain (t : Tag) : Prop := t.isOpener = false ∧ t.isCloser = false ∧ t ≠ .eof

instance (t : Tag) : Decidable t.IsPlain := inferInstanceAs (Decidable (_ ∧ _ ∧ _))

namespace Grammar

variable {α β : Type}

/-- A stream in order and the same stream without the line breaks in groups, none of which splits what
is looked at. Of the first no error nodes are derived. -/
structure Folding where
  left : Setting
  right : Setting
  tokens : right.input.tokens = left.input.tokens.folded
  left_groups : left.input.groups = .ofTokens left.input.tokens
  right_groups : right.input.groups = .ofTokens right.input.tokens
  comments : right.input.comments = left.input.comments
  dialect : right.input.dialect = left.input.dialect
  last : right.input.tokens.last? = left.input.tokens.last?
  whole : ∀ i, ¬ left.input.tokens.Splits i
  ordered : left.Ordered
  apart : left.Apart
  read : ¬ left.flawed

namespace Folding

variable (F : Folding)

/-- Where a position is found without the line breaks. -/
def place (p : Nat) : Nat := F.left.input.tokens.place p

/-- The brackets that are open before a position. -/
def openAt (p : Nat) : List Tag := F.left.input.tokens.openAt p

/-- The line break at a position is left out. -/
def Dropped (p : Nat) : Prop := F.left.input.tokens.Dropped p

/-- The cursor at the same token without the line breaks. -/
def carry (c : Cursor) : Cursor := { c with position := F.place c.position }

/-- The state at the same token without the line breaks. -/
def other (s : State) : State := s.moved (F.carry s.cursor)

variable {F} {c : Context} {openers : List Tag} {p q : Nat} {s : State}

/-! ## The same tokens -/

theorem right_get (h : ¬ F.Dropped p) :
    F.right.input.tokens.get (F.place p) = F.left.input.tokens.get p := by
  unfold Tokens.get
  rw [F.last, F.tokens, place, Tokens.folded_get? h]

theorem right_tag (h : ¬ F.Dropped p) : F.right.tag (F.place p) = F.left.tag p := by
  unfold Setting.tag
  rw [F.tokens]
  exact Tokens.folded_tag h

theorem right_past (p : Nat) : F.right.past (F.place p) = F.place (F.left.past p) := by
  unfold Setting.past
  rw [F.tokens]
  exact Tokens.pastBreaks_folded

theorem openAt_past (p : Nat) : F.openAt (F.left.past p) = F.openAt p := Tokens.openAt_pastBreaks

theorem openAt_succ (p : Nat) : F.openAt (p + 1) = enter (F.openAt p) (F.left.tag p) := Tokens.openAt_succ

theorem not_dropped_of_ne (h : F.left.tag p ≠ .lineBreak) : ¬ F.Dropped p := fun d => h d.2

theorem not_dropped_of_open (h : folds (F.openAt p) = false) : ¬ F.Dropped p :=
  fun d => Bool.false_ne_true (h.symm.trans d.1)

theorem not_dropped_past (p : Nat) : ¬ F.Dropped (F.left.past p) :=
  not_dropped_of_ne (F.left.tag_past p)

theorem lt_size (h : F.left.tag p ≠ .eof) : p < F.left.input.tokens.size :=
  Tokens.lt_size_of_tag_ne_eof h

theorem place_succ (h : ¬ F.Dropped p) (ne : F.left.tag p ≠ .eof) : F.place (p + 1) = F.place p + 1 :=
  Tokens.place_succ h (lt_size ne)

theorem place_le_place (h : p ≤ q) : F.place p ≤ F.place q := Tokens.place_le_place h

theorem place_lt_place (h : ¬ F.Dropped p) (hq : q ≤ F.left.input.tokens.size) (hpq : p < q) :
    F.place p < F.place q := Tokens.place_lt_place h (Nat.lt_of_lt_of_le hpq hq) hpq

theorem place_le_size (p : Nat) : F.place p ≤ F.right.input.tokens.size := by
  rw [F.tokens]
  exact Tokens.place_le_size

theorem right_size_le (F : Folding) : F.right.input.tokens.size ≤ F.left.input.tokens.size := by
  rw [F.tokens]
  exact Tokens.folded_size_le

/-! ## The same moves -/

theorem carry_skipBreaks (c : Cursor) : (F.carry c).skipBreaks F.right.input.tokens
    = F.carry (c.skipBreaks F.left.input.tokens) := by
  unfold Cursor.skipBreaks carry
  rw [show pastBreaks F.right.input.tokens (F.place c.position) = _ from F.right_past c.position]
  rfl

theorem carry_step {c : Cursor} (h : ¬ F.Dropped c.position) (ne : F.left.tag c.position ≠ .eof) :
    (F.carry c).step F.right.input.tokens = F.carry (c.step F.left.input.tokens) := by
  have tag : (F.carry c).tag F.right.input.tokens = c.tag F.left.input.tokens := right_tag h
  have pass : (F.carry c).pass F.right.input.tokens = F.carry (c.pass F.left.input.tokens) := by
    unfold Cursor.pass
    rw [tag, show F.right.input.tokens.get (F.carry c).position = _ from right_get h]
    unfold carry
    rw [place_succ h ne]
  rw [step_of_ne_eof (by rw [tag]; exact ne), step_of_ne_eof (by exact ne), pass]
  by_cases hs : c.skipsBreaks = true
  · rw [if_pos (by exact hs), if_pos hs, carry_skipBreaks]
  · rw [if_neg (by exact hs), if_neg hs]

/-! ## Where readers stand -/

/-- The state stands at a position that is no line break left out, with brackets open around it
that say whether line breaks are passed over. -/
structure At (F : Folding) (c : Context) (openers : List Tag) (p : Nat) (s : State) : Prop where
  standing : Standing F.left c (folds openers) p s
  opened : F.openAt p = openers
  kept : ¬ F.Dropped p

namespace At

theorem other_position (h : F.At c openers p s) : (F.other s).cursor.position = F.place p := by
  rw [← h.standing.position]
  rfl

theorem other_tag (h : F.At c openers p s) :
    (F.other s).cursor.tag F.right.input.tokens = F.left.tag p := by
  unfold Cursor.tag
  rw [h.other_position]
  exact right_tag h.kept

theorem get (h : F.At c openers p s) : F.right.input.tokens.get (F.other s).cursor.position
    = F.left.input.tokens.get p := by
  rw [h.other_position, right_get h.kept]

/-- The line-break mode of the brackets around a position is the one in force. -/
theorem skipping (h : F.At c openers p s) : skipping (folds openers) s.cursor = s.cursor := by
  rw [← h.standing.skips]
  rfl

/-- Over the next token, into the mode of the brackets that are open behind it. -/
theorem step (h : F.At c openers p s) (ne : F.left.tag p ≠ .eof) {b : Bool}
    (hb : folds (enter openers (F.left.tag p)) = b) :
    F.At c (enter openers (F.left.tag p)) (F.left.next b p)
      (s.moved ((Grammar.skipping b s.cursor).step F.left.input.tokens)) := by
  have standing := (h.standing.skipping b).step ne
  have opened : F.openAt (p + 1) = enter openers (F.left.tag p) := by rw [openAt_succ, h.opened]
  subst hb
  refine ⟨standing, ?_, ?_⟩
  · unfold Setting.next
    split
    · rw [openAt_past, opened]
    · exact opened
  · unfold Setting.next
    split
    · exact not_dropped_past _
    · next hb => exact not_dropped_of_open (by rw [opened]; simpa using hb)

theorem other_step (h : F.At c openers p s) (ne : F.left.tag p ≠ .eof) (b : Bool) :
    (F.other s).moved ((Grammar.skipping b (F.other s).cursor).step F.right.input.tokens)
      = F.other (s.moved ((Grammar.skipping b s.cursor).step F.left.input.tokens)) := by
  have here : (Grammar.skipping b s.cursor).position = p := h.standing.position
  have carried := F.carry_step (c := Grammar.skipping b s.cursor) (by rw [here]; exact h.kept)
    (by rw [here]; exact ne)
  exact congrArg (State.moved s) carried

/-- Over a token that changes nothing about what is open. -/
theorem taken (h : F.At c openers p s) (plain : (F.left.tag p).IsPlain) :
    F.At c openers (F.left.next (folds openers) p) (s.moved (s.cursor.step F.left.input.tokens))
      ∧ (F.other s).moved ((F.other s).cursor.step F.right.input.tokens)
        = F.other (s.moved (s.cursor.step F.left.input.tokens)) := by
  obtain ⟨opens, closes, ne⟩ := plain
  have same : enter openers (F.left.tag p) = openers := enter_other (by simp [opens]) (by simp [closes])
  have step := h.step ne (b := folds openers) (by rw [same])
  have other := h.other_step ne (folds openers)
  have mode : Grammar.skipping (folds openers) (F.other s).cursor = (F.other s).cursor := by
    rw [← h.standing.skips]
    rfl
  rw [h.skipping] at step other
  rw [mode] at other
  rw [same] at step
  exact ⟨step, other⟩

/-- Behind a token that is taken fewer tokens are left. -/
theorem fewer {m : Nat} {c' : Context} {openers' : List Tag} {b : Bool} {t : State} (h : F.At c openers p s)
    (behind : F.At c' openers' (F.left.next b p) t)
    (few : F.right.input.tokens.size ≤ m + F.place p) :
    ∃ k < m, F.right.input.tokens.size ≤ k + F.place (F.left.next b p) := by
  have := place_lt_place h.kept behind.standing.inside (F.left.lt_next b p)
  have := F.place_le_size (F.left.next b p)
  exact ⟨m - 1, by omega, by omega⟩

theorem skipBreaks (h : F.At c openers p s) :
    F.At c openers (F.left.past p) (s.moved (s.cursor.skipBreaks F.left.input.tokens)) :=
  ⟨h.standing.skipBreaks, by rw [openAt_past, h.opened], not_dropped_past p⟩

theorem other_skipBreaks (s : State) :
    (F.other s).moved ((F.other s).cursor.skipBreaks F.right.input.tokens)
      = F.other (s.moved (s.cursor.skipBreaks F.left.input.tokens)) :=
  congrArg (State.moved s) (F.carry_skipBreaks s.cursor)

/-- A state that differs in nodes, errors and names only. -/
theorem built {t : State} (h : F.At c openers p s) (cursor : t.cursor = s.cursor)
    (context : t.context = s.context) : F.At c openers p t := by
  obtain ⟨⟨h₁, h₂, h₃, h₄, h₅⟩, opened, kept⟩ := h
  exact ⟨⟨by rw [context, h₁], by rw [cursor, h₂], by rw [cursor, h₃], by rw [cursor, h₄], h₅⟩,
    opened, kept⟩

end At

/-! ## Looking ahead over groups -/

theorem right_closer (h : (F.left.tag p).isOpener = true) : F.right.input.groups.closer? (F.place p)
    = (F.left.input.groups.closer? p).map F.place := by
  rw [F.right_groups, F.left_groups, F.tokens]
  exact Tokens.closer?_folded h

/-- Where the closer of a group stands, and what is open behind it. -/
theorem closer_spec {j : Nat} (h : F.left.input.groups.closer? p = some j) :
    p < j ∧ F.openAt (j + 1) = F.openAt p ∧ ¬ F.Dropped j ∧ F.left.tag j ≠ .eof := by
  rw [F.left_groups] at h
  obtain ⟨opened, closes⟩ := Tokens.openAt_closer h
  refine ⟨(Groups.closer_spec h).1, opened, not_dropped_of_ne ?_, ?_⟩
  all_goals
    intro tag
    rw [show F.left.input.tokens.tag j = _ from tag] at closes
    cases closes

/-- Where line breaks carry meaning, what stands ahead on a line is the same. -/
theorem right_ahead (t : Tag) (h : folds (F.openAt p) = false) :
    F.right.ahead t (F.place p) = F.left.ahead t p := by
  induction hn : F.left.input.tokens.size - p using Nat.strongRecOn generalizing p with
  | ind n ih =>
    have kept := not_dropped_of_open h
    rw [F.right.ahead_step t (F.place p), F.left.ahead_step t p, right_tag kept]
    by_cases stop : F.left.tag p = .eof ∨ F.left.tag p = .lineBreak
    · rw [if_pos stop, if_pos stop]
    rw [if_neg stop, if_neg stop]
    have ne : F.left.tag p ≠ .eof := fun e => stop (.inl e)
    have lt := lt_size ne
    by_cases opens : (F.left.tag p).isOpener = true
    · rw [if_pos opens, if_pos opens, right_closer opens]
      cases closer : F.left.input.groups.closer? p with
      | none => rfl
      | some j =>
        obtain ⟨behind, opened, kept_j, ne_j⟩ := closer_spec closer
        have rest := ih (F.left.input.tokens.size - (j + 1)) (by omega) (p := j + 1)
          (by rw [opened]; exact h) rfl
        rw [place_succ kept_j ne_j] at rest
        simp only [Option.map_some, Option.any_some, rest]
        rw [decide_eq_true (place_le_place (Nat.le_of_lt behind)), decide_eq_true (Nat.le_of_lt behind)]
    rw [if_neg opens, if_neg opens]
    by_cases closes : (F.left.tag p).isCloser = true
    · rw [if_pos closes, if_pos closes]
    rw [if_neg closes, if_neg closes]
    have rest := ih (F.left.input.tokens.size - (p + 1)) (by omega) (p := p + 1)
      (by rw [openAt_succ, enter_other opens closes]; exact h) rfl
    rw [place_succ kept ne] at rest
    rw [rest]

theorem right_binds (h : ¬ F.Dropped p) : F.right.binds (folds (F.openAt p)) (F.place p)
    = F.left.binds (folds (F.openAt p)) p := by
  rw [F.right.binds_step, F.left.binds_step, right_tag h]
  cases closes : closeOf? (F.left.tag p) with
  | none => rfl
  | some close =>
    have opens : (F.left.tag p).isOpener = true := by
      cases tag : F.left.tag p with
      | punct q => cases q <;> first | rfl | (rw [tag] at closes; cases closes)
      | _ => rw [tag] at closes; cases closes
    have ne : F.left.tag p ≠ .eof := by
      intro e
      rw [e] at opens
      cases opens
    simp only [Option.any_some]
    rw [← place_succ h ne, right_past, right_tag (not_dropped_past _), right_closer opens]
    cases closer : F.left.input.groups.closer? p with
    | none => rfl
    | some j =>
      obtain ⟨-, opened, kept_j, ne_j⟩ := closer_spec closer
      simp only [Option.map_some, Option.any_some]
      rw [← place_succ kept_j ne_j]
      cases mode : folds (F.openAt p) with
      | true => rw [if_pos rfl, if_pos rfl, right_past, right_tag (not_dropped_past _)]
      | false =>
        have kept : ¬ F.Dropped (j + 1) := not_dropped_of_open (by rw [opened, mode])
        rw [if_neg Bool.false_ne_true, if_neg Bool.false_ne_true, right_tag kept]

/-- The tag behind a token, where line breaks carry meaning behind it. -/
theorem right_behind (h : ¬ F.Dropped p) (ne : F.left.tag p ≠ .eof) (kept : ¬ F.Dropped (p + 1)) :
    F.right.tag (F.place p + 1) = F.left.tag (p + 1) := by
  rw [← place_succ h ne, right_tag kept]

/-- The tag behind a token, with a line break left out in between. -/
theorem right_behind_dropped (h : ¬ F.Dropped p) (ne : F.left.tag p ≠ .eof) :
    F.right.tag (F.place p + 1) = F.left.tag (p + 1)
      ∨ F.Dropped (p + 1) ∧ F.right.tag (F.place p + 1) = F.left.tag (F.left.past (p + 1)) := by
  by_cases kept : F.Dropped (p + 1)
  · have same : F.place (F.left.past (p + 1)) = F.place (p + 1) := Tokens.place_pastBreaks kept.1
    exact .inr ⟨kept, by rw [← place_succ h ne, ← same, right_tag (not_dropped_past _)]⟩
  · exact .inl (right_behind h ne kept)

end Folding

variable {F : Folding} {m : Nat} {c : Context} {openers openers' openers'' : List Tag} {p : Nat}

variable {F : Folding} {c : Context} {openers : List Tag} {p : Nat}

/-! ## Readers that look -/

open Folding

/-- A reader that looks ahead and sees the same on both streams. -/
def Sees (F : Folding) (c : Context) (openers : List Tag) (p : Nat) (x : Reader α) (a : α) : Prop :=
  ∀ s, F.At c openers p s →
    x F.left.input s = .ok a s ∧ x F.right.input (F.other s) = .ok a (F.other s)

namespace Sees

theorem nextToken : Sees F c openers p nextToken (F.left.input.tokens.get p) := by
  intro s h
  refine ⟨by rw [nextToken_run, h.standing.position], ?_⟩
  rw [nextToken_run, h.get]

theorem nextSpan : Sees F c openers p nextSpan (F.left.span p) := by
  intro s h
  refine ⟨by rw [nextSpan_run, h.standing.position]; rfl, ?_⟩
  rw [nextSpan_run, h.get]
  rfl

theorem nextTag : Sees F c openers p nextTag (F.left.tag p) := by
  intro s h
  refine ⟨by rw [nextTag_run, h.standing.tag_eq], ?_⟩
  rw [nextTag_run, h.other_tag]

theorem previousSpan : Sees F c openers p previousSpan (F.left.last p) := by
  intro s h
  refine ⟨by rw [previousSpan_run, h.standing.previous], ?_⟩
  rw [previousSpan_run, ← h.standing.previous]
  rfl

theorem context : Sees F c openers p context c := by
  intro s h
  refine ⟨by rw [context_run, h.standing.context], ?_⟩
  rw [context_run, ← h.standing.context]
  rfl

theorem isNext {t : Tag} : Sees F c openers p (isNext t) (decide (F.left.tag p = t)) := by
  intro s h
  refine ⟨by simp only [isNext_run, h.standing.tag_eq], ?_⟩
  simp only [isNext_run, h.other_tag]

theorem isNotNext {t : Tag} : Sees F c openers p (isNotNext t) (!decide (F.left.tag p = t)) := by
  intro s h
  refine ⟨by simp only [isNotNext_run, h.standing.tag_eq], ?_⟩
  simp only [isNotNext_run, h.other_tag]

theorem isNextIn {ts : TagSet} : Sees F c openers p (isNextIn ts) (ts.contains (F.left.tag p)) := by
  intro s h
  refine ⟨by rw [isNextIn_run, h.standing.tag_eq], ?_⟩
  rw [isNextIn_run, h.other_tag]

theorem isNameNext : Sees F c openers p isNameNext (nameTags.contains (F.left.tag p)) := isNextIn

theorem isInBraces : Sees F c openers p Inner.isInBraces
    (!decide (F.left.tag p = .punct .closeBrace) && !decide (F.left.tag p = .eof)) := by
  intro s h
  refine ⟨by simp only [isInBraces_run, h.standing.tag_eq], ?_⟩
  simp only [isInBraces_run, h.other_tag]

theorem isLambdaNext : Sees F c openers p Inner.isLambdaNext (opensLambda (F.left.kind p)) := by
  intro s h
  refine ⟨by rw [isLambdaNext_run, h.standing.position]; rfl, ?_⟩
  rw [isLambdaNext_run, h.get]
  rfl

theorem isSemicolonNext : Sees F c openers p isSemicolonNext
    (decide ((F.left.input.tokens.get p).tag = .lineBreak)
      && (F.left.input.tokens.get p).spacing.contains Spacing.hasSemicolon) := by
  intro s h
  refine ⟨by simp only [isSemicolonNext_run, h.standing.position], ?_⟩
  simp only [isSemicolonNext_run, h.get]

/-- Behind a line break that is kept the next token is kept as well. -/
theorem not_dropped_behind (kept : ¬ F.Dropped p) (h : F.left.tag p = .lineBreak) :
    ¬ F.Dropped (p + 1) := by
  refine fun d => kept ⟨?_, h⟩
  have same : F.openAt (p + 1) = F.openAt p := by rw [openAt_succ, h, enter_lineBreak]
  exact (congrArg folds same).symm.trans d.1

theorem tagBehind (h : F.left.tag p = .lineBreak) : Sees F c openers p tagBehind (F.left.tag (p + 1)) := by
  intro s at_p
  refine ⟨by rw [tagBehind_run, at_p.standing.position]; rfl, ?_⟩
  rw [tagBehind_run, at_p.other_position]
  congr 1
  exact right_behind at_p.kept (by rw [h]; exact Tag.noConfusion) (not_dropped_behind at_p.kept h)

theorem isNextPastBreak {t : Tag} : Sees F c openers p (isNextPastBreak t)
    (if F.left.tag p = .lineBreak then decide (F.left.tag (p + 1) = t) else decide (F.left.tag p = t)) := by
  intro s at_p
  refine ⟨by simp only [isNextPastBreak_run, at_p.standing.tag_eq, at_p.standing.position]; rfl, ?_⟩
  simp only [isNextPastBreak_run, at_p.other_tag, at_p.other_position]
  congr 1
  by_cases h : F.left.tag p = .lineBreak
  · have behind : F.right.input.tokens.tag (F.place p + 1) = F.left.tag (p + 1) :=
      right_behind at_p.kept (by rw [h]; exact Tag.noConfusion) (not_dropped_behind at_p.kept h)
    rw [if_pos h, if_pos h, behind]
  · rw [if_neg h, if_neg h]

theorem isAhead {t : Tag} (h : folds openers = false) :
    Sees F c openers p (isAhead t) (F.left.ahead t p) := by
  intro s at_p
  refine ⟨by rw [isAhead_run, at_p.standing.position]; rfl, ?_⟩
  rw [isAhead_run, at_p.other_position]
  congr 1
  exact right_ahead t (by rw [at_p.opened, h])

theorem isBinderNext : Sees F c openers p isBinderNext (F.left.binds (folds openers) p) := by
  intro s at_p
  refine ⟨by rw [isBinderNext_run, at_p.standing.position, at_p.standing.skips]; rfl, ?_⟩
  have mode : (F.other s).cursor.skipsBreaks = folds openers := at_p.standing.skips
  rw [isBinderNext_run, at_p.other_position, mode, ← at_p.opened]
  congr 1
  exact right_binds at_p.kept

theorem isSegmentNext : Sees F c openers p isSegmentNext
    (decide (F.left.tag p = .reserved .dot) && nameTags.contains (F.left.tag (p + 1))) := by
  intro s at_p
  refine ⟨by simp only [isSegmentNext_run, at_p.standing.tag_eq, at_p.standing.position]; rfl, ?_⟩
  simp only [isSegmentNext_run, at_p.other_tag, at_p.other_position]
  congr 1
  by_cases dot : F.left.tag p = .reserved .dot
  · have ne : F.left.tag p ≠ .eof := by rw [dot]; exact Tag.noConfusion
    have same : nameTags.contains (F.right.tag (F.place p + 1))
        = nameTags.contains (F.left.tag (p + 1)) := by
      rcases right_behind_dropped at_p.kept ne with same | ⟨dropped, same⟩
      · rw [same]
      · -- a name behind the line break would be hidden by it
        have no_name : nameTags.contains (F.left.tag (F.left.past (p + 1))) ≠ true :=
          fun name => F.whole p ⟨dropped, .inl ⟨dot, name⟩⟩
        have lineBreak : F.left.tag (p + 1) = .lineBreak := dropped.2
        rw [same, lineBreak, Bool.eq_false_iff.2 no_name]
        rfl
    exact congrArg _ same
  · rw [decide_eq_false dot, Bool.false_and, Bool.false_and]

theorem docStrings {start : Nat} : Sees F c openers p (docStrings start) (F.left.docs start p) := by
  intro s at_p
  unfold Grammar.docStrings Setting.docs
  rw [bind_of_ok (read_run _ s), bind_of_ok (read_run _ (F.other s)), F.dialect, F.comments]
  cases F.left.input.dialect.docs with
  | false => exact ⟨rfl, rfl⟩
  | true =>
    obtain ⟨left, right⟩ := nextSpan s at_p
    simp only [if_true]
    rw [bind_of_ok left, bind_of_ok right]
    exact ⟨rfl, rfl⟩

end Sees

end Grammar

end Surface
