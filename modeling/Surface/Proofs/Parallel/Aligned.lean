import Surface.Proofs.Grammar.Groups
import Surface.Proofs.Parallel.Bridge
import Surface.Proofs.Parsing.Text

/-!
# Streams with the same end

The second of two streams may hold all tokens of the first, moved by some tokens, so that both
end at the same place. Reading then does the same on both sides without further conditions.

Results:
* `pastBreaks_congr`, `resumeAt_congr`: between the same tags, reading and recovery go on at the
  same places.
* `Aligned`, `Bridge.ofAligned`: streams with the same end, and the bridge between them.
-/

namespace Surface

/-! ## Between the same tags -/

theorem pastBreaks_step (ts : Tokens) (i : Nat) :
    pastBreaks ts i = if ts.tag i = .lineBreak then pastBreaks ts (i + 1) else i := by
  rw [pastBreaks]
  split <;> rfl

theorem Cursor.resumeAt_step (ts : Tokens) (boundary : TagSet) (depth : Nat) (c : Cursor) :
    c.resumeAt ts boundary depth =
      if c.tag ts = .eof then c
      else if (c.tag ts).isOpener then (c.step ts).resumeAt ts boundary (depth + 1)
      else if (c.tag ts).isCloser then
        if depth = 0 && boundary.contains (c.tag ts) then c
        else (c.step ts).resumeAt ts boundary (depth - 1)
      else if depth = 0 && boundary.contains (c.tag ts) then c
      else (c.step ts).resumeAt ts boundary depth := by
  rw [resumeAt]
  split <;> rfl

section

variable {ts ts' : Tokens} {shift wall : Nat}

/-- Line breaks before a place where neither stream has one are passed over alike. -/
theorem pastBreaks_congr (tag : ∀ p < wall, ts'.tag (p + shift) = ts.tag p)
    (ended : ts.tag wall ≠ .lineBreak) (ended' : ts'.tag (wall + shift) ≠ .lineBreak) {p : Nat}
    (hp : p ≤ wall) : pastBreaks ts' (p + shift) = pastBreaks ts p + shift ∧ pastBreaks ts p ≤ wall := by
  generalize hn : wall - p = n
  induction n using Nat.strongRecOn generalizing p with
  | ind n ih =>
    rw [pastBreaks_step ts', pastBreaks_step ts]
    rcases Nat.lt_or_eq_of_le hp with lt | rfl
    · rw [tag p lt]
      by_cases hb : ts.tag p = .lineBreak
      · rw [if_pos hb, if_pos hb, Nat.add_right_comm]
        exact ih (wall - (p + 1)) (by omega) lt rfl
      · rw [if_neg hb, if_neg hb]
        exact ⟨rfl, hp⟩
    · rw [if_neg ended, if_neg ended']
      exact ⟨rfl, hp⟩

variable (tag : ∀ p ≤ wall, ts'.tag (p + shift) = ts.tag p) (ended : ts.tag wall = .eof)

include tag ended

open Grammar in
theorem resumeAt_congr (boundary : TagSet) (depth : Nat) {c c' : Cursor}
    (hc : c'.position = c.position + shift) (inside : c.position ≤ wall)
    (hs : c.skipsBreaks = false) (hs' : c'.skipsBreaks = false) :
    (c'.resumeAt ts' boundary depth).position = (c.resumeAt ts boundary depth).position + shift
      ∧ (c.resumeAt ts boundary depth).position ≤ wall := by
  generalize hn : wall - c.position = n
  induction n using Nat.strongRecOn generalizing depth c c' with
  | ind n ih =>
    have same : c'.tag ts' = c.tag ts := by
      unfold Cursor.tag
      rw [hc, tag _ inside]
    rw [c'.resumeAt_step, c.resumeAt_step, same]
    by_cases he : c.tag ts = .eof
    · rw [if_pos he, if_pos he]
      exact ⟨hc, inside⟩
    have lt : c.position < wall := by
      refine Nat.lt_of_le_of_ne inside fun here => he ?_
      unfold Cursor.tag
      rw [here, ended]
    have next : (c.step ts).position = c.position + 1 := by
      rw [step_of_ne_eof he, hs]
      rfl
    have next' : (c'.step ts').position = c.position + 1 + shift := by
      rw [step_of_ne_eof (same ▸ he), hs']
      show c'.position + 1 = _
      omega
    have go (d : Nat) := @ih (wall - (c.step ts).position) (by omega) d (c.step ts) (c'.step ts')
      (by omega) (by omega) (by rw [skipsBreaks_step, hs]) (by rw [skipsBreaks_step, hs']) rfl
    rw [if_neg he, if_neg he]
    split
    · exact go _
    · split
      · split
        · exact ⟨hc, inside⟩
        · exact go _
      · split
        · exact ⟨hc, inside⟩
        · exact go _

end

namespace Grammar

/-! ## Streams with the same end -/

/-- The second stream holds all tokens of the first, from position `shift` on. -/
structure Aligned (left right : Setting) (shift wall : Nat) : Prop where
  kind : ∀ p ≤ wall, right.kind (p + shift) = left.kind p
  semicolon : ∀ p < wall, (right.input.tokens.get (p + shift)).spacing.contains Spacing.hasSemicolon
    = (left.input.tokens.get p).spacing.contains Spacing.hasSemicolon
  ended : left.tag wall = .eof
  left_size : left.input.tokens.size = wall + 1
  right_size : right.input.tokens.size = wall + 1 + shift
  dialect : right.input.dialect = left.input.dialect
  left_docs : ∀ docsFrom p, left.docs docsFrom p = []
  right_docs : ∀ docsFrom p, right.docs docsFrom p = []
  groups : left.input.groups = .ofTokens left.input.tokens
  closer : ∀ p < wall,
    right.input.groups.closer? (p + shift) = (left.input.groups.closer? p).map (· + shift)
  flawed : left.flawed

namespace Aligned

variable {left right : Setting} {shift wall : Nat} (h : Aligned left right shift wall)

include h

theorem tag : ∀ p ≤ wall, right.tag (p + shift) = left.tag p := by
  intro p hp
  rw [← right.tag_kind, ← left.tag_kind, h.kind p hp]

theorem lt_of_closer {q : Nat} (hq : q ≤ wall) (hc : (left.tag q).isCloser = true) : q < wall := by
  refine Nat.lt_of_le_of_ne hq ?_
  rintro rfl
  rw [h.ended] at hc
  cases hc

end Aligned

/-- The bridge between streams with the same end: all that is left is shared. -/
def Bridge.ofAligned {left right : Setting} {shift wall : Nat} (h : Aligned left right shift wall) :
    Bridge where
  left := left
  right := right
  shift := shift
  wall := wall
  exact := True
  compared := True
  exact_of_compared := id
  flawed := h.flawed
  ceil _ := wall
  kind p hp := h.kind p (Nat.le_of_lt hp)
  semicolon := h.semicolon
  left_wall := .inl h.ended
  right_wall := .inl ((h.tag wall (Nat.le_refl _)).trans h.ended)
  left_else := by
    unfold Setting.tag
    rw [Tokens.tag_of_size_le (Nat.le_of_eq h.left_size)]
    exact Tag.noConfusion
  right_else hb := by
    rw [h.tag wall (Nat.le_refl _), h.ended] at hb
    cases hb
  left_size := Nat.lt_of_lt_of_eq (Nat.lt_succ_self _) h.left_size.symm
  right_size := by
    rw [h.right_size]
    omega
  dialect := h.dialect
  left_docs := h.left_docs
  right_docs := h.right_docs
  closer := h.closer
  closer_lt p _ j hj := by
    rw [h.groups] at hj
    obtain ⟨lt, inside, closes⟩ := Groups.closer_spec hj
    rw [h.left_size] at inside
    exact ⟨lt, h.lt_of_closer (Nat.le_of_lt_succ inside) closes⟩
  ceil_le _ := Nat.le_refl _
  le_ceil _ hp := hp
  ceil_ceil _ _ _ _ := Nat.le_refl _
  lt_ceil _ hp _ := hp
  opened _ _ _ := ⟨.inl trivial, fun _ _ hq hc => h.lt_of_closer hq hc⟩
  past _ _ _ hq _ := by
    have ended : left.tag wall ≠ .lineBreak := by
      rw [h.ended]
      exact Tag.noConfusion
    have ended' : right.tag (wall + shift) ≠ .lineBreak := by rwa [h.tag wall (Nat.le_refl _)]
    obtain ⟨same, le⟩ := pastBreaks_congr (fun p hp => h.tag p (Nat.le_of_lt hp)) ended ended' hq
    exact ⟨same, le, .inl trivial⟩
  runOn _ _ _ := .inl trivial
  atSign _ _ _ := trivial
  resume boundary _ _ c c' _ _ hq hc hc' hs hs' := by
    rw [← hc] at hq hc'
    exact resumeAt_congr h.tag h.ended boundary 0 hc' hq hs hs'

/-! ## Streams on their own -/

theorem Setting.docs_of_empty {S : Setting} (h : S.input.comments = .empty) (docsFrom p : Nat) :
    S.docs docsFrom p = [] := by
  unfold Setting.docs
  rw [h]
  split <;> simp [Comments.inRange, Comments.empty]

end Grammar

end Surface
