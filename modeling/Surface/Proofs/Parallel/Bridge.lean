import Surface.Proofs.Grammar.FileSoundness

/-!
# Two streams side by side

A part of one stream may occur in another, moved by some tokens: a text alone, and the same text
in front of others or behind them. A bridge says which part that is and what bounds the readers
inside it, so that two runs can be compared step by step.

Results:
* `Bridge`: two streams, the part they share, and how far reading can go from each position.
* `Bridge.kind_congr`, `Bridge.tag_congr`: looks at the next token agree.
* `Bridge.ahead_eq`, `Bridge.binds_eq`: looks over groups agree.
-/

namespace Surface.Grammar

/-- The tags that are not simply passed over: line breaks, the end and closers. -/
def stopTags : TagSet :=
  {.lineBreak, .eof, .punct .closeParen, .punct .closeBracket, .punct .closeBrace}

/-- The tags behind which an expression may go on in the next line, up to openers and arms. -/
def runOnTags : TagSet :=
  {.operator, .reserved .pipe, .reserved .arrow, .reserved .leftArrow}

/-- Two streams of which the second holds the tokens of the first up to a wall, moved by a
shift. Either both end at the wall, or there is a line break or the end on either side. -/
structure Bridge where
  left : Setting
  right : Setting
  shift : Nat
  wall : Nat
  /-- Both streams end at the wall. -/
  exact : Prop
  /-- What has been built and reported is compared as well. -/
  compared : Prop
  exact_of_compared : compared → exact
  flawed : left.flawed
  /-- How far reading can go that starts inside the group a position lies in. -/
  ceil : Nat → Nat
  kind : ∀ p < wall, right.kind (p + shift) = left.kind p
  semicolon : ∀ p < wall, (right.input.tokens.get (p + shift)).spacing.contains Spacing.hasSemicolon
    = (left.input.tokens.get p).spacing.contains Spacing.hasSemicolon
  left_wall : left.tag wall = .eof ∨ ¬ exact ∧ left.tag wall = .lineBreak
  right_wall : right.tag (wall + shift) = .eof ∨ ¬ exact ∧ right.tag (wall + shift) = .lineBreak
  left_else : left.tag (wall + 1) ≠ .keyword .elseKw
  right_else : right.tag (wall + shift) = .lineBreak →
    right.tag (wall + shift + 1) ≠ .keyword .elseKw
  left_size : wall < left.input.tokens.size
  right_size : wall + shift < right.input.tokens.size
  dialect : right.input.dialect = left.input.dialect
  left_docs : ∀ docsFrom p, left.docs docsFrom p = []
  right_docs : ∀ docsFrom p, right.docs docsFrom p = []
  closer : ∀ p < wall,
    right.input.groups.closer? (p + shift) = (left.input.groups.closer? p).map (· + shift)
  closer_lt : ∀ p < wall, ∀ j, left.input.groups.closer? p = some j → p < j ∧ j < ceil p
  ceil_le : ∀ p, ceil p ≤ wall
  le_ceil : ∀ p ≤ wall, p ≤ ceil p
  ceil_ceil : ∀ p q, p ≤ q → q ≤ ceil p → ceil q ≤ ceil p
  lt_ceil : ∀ p < wall, (left.tag p).isCloser = false → p < ceil p
  /-- What is opened inside is closed inside, or reading stops before. -/
  opened : ∀ p < wall, (left.tag p).isOpener = true → (exact ∨ ceil (p + 1) < wall)
    ∧ ∀ q, p < q → q ≤ ceil (p + 1) → (left.tag q).isCloser = true → q < ceil p
  past : ∀ p q, p ≤ q → q ≤ ceil p → (exact ∨ q < wall) →
    right.past (q + shift) = left.past q + shift ∧ left.past q ≤ ceil p
      ∧ (exact ∨ left.past q < wall)
  runOn : ∀ p < wall, runOnTags.contains (left.tag p) = true → exact ∨ p + 1 < wall
  atSign : ∀ p < wall, left.tag p = .punct .atSign → exact
  /-- Recovery leads to the same place, inside the braces or before the wall. -/
  resume : ∀ boundary p q (c c' : Cursor),
    (boundary = itemBoundary ∧ ceil p = wall
      ∨ boundary = stmtBoundary ∧ ∃ g < wall, p = g + 1 ∧ left.tag g = .punct .openBrace) →
    p ≤ q → q ≤ ceil p → c.position = q → c'.position = q + shift →
    c.skipsBreaks = false → c'.skipsBreaks = false →
    (c'.resume right.input.tokens boundary).position
        = (c.resume left.input.tokens boundary).position + shift
      ∧ (c.resume left.input.tokens boundary).position ≤ ceil p

/-- The same bridge, where it does not matter what has been built and reported before. -/
def Bridge.uncompared (B : Bridge) : Bridge :=
  { B with compared := False, exact_of_compared := False.elim }

namespace Bridge

variable {B : Bridge} {o p q : Nat} {b : Bool}

/-! ## Looking at the next token -/

theorem tag (hp : p < B.wall) : B.right.tag (p + B.shift) = B.left.tag p := by
  rw [← B.right.tag_kind, ← B.left.tag_kind, B.kind p hp]

/-- A line break or the end. -/
def Ends (k : TokenKind) : Prop := k = .lineBreak ∨ k = .eof

theorem ends_of_tag {k : TokenKind} (h : k.tag = .eof ∨ k.tag = .lineBreak) : Ends k := by
  cases k <;> first | exact .inl rfl | exact .inr rfl | (rcases h with h | h <;> cases h)

/-- Either the tokens at a position are the same, or nothing follows in the line. -/
theorem kind_cases (hp : p ≤ B.wall) :
    p < B.wall ∧ B.right.kind (p + B.shift) = B.left.kind p
      ∨ Ends (B.left.kind p) ∧ Ends (B.right.kind (p + B.shift)) := by
  rcases Nat.lt_or_eq_of_le hp with lt | rfl
  · exact .inl ⟨lt, B.kind p lt⟩
  · have left := B.left_wall
    have right := B.right_wall
    rw [← B.left.tag_kind] at left
    rw [← B.right.tag_kind] at right
    exact .inr ⟨ends_of_tag (left.imp_right And.right), ends_of_tag (right.imp_right And.right)⟩

/-- What does not tell a line break from the end is the same on both sides. -/
theorem kind_congr {γ : Type} (hp : p ≤ B.wall) (f : TokenKind → γ) (hf : f .lineBreak = f .eof) :
    f (B.right.kind (p + B.shift)) = f (B.left.kind p) := by
  rcases kind_cases hp with ⟨-, same⟩ | ⟨left | left, right | right⟩
  · rw [same]
  · rw [left, right]
  · rw [left, right, hf]
  · rw [left, right, hf]
  · rw [left, right]

theorem tag_congr {γ : Type} (hp : p ≤ B.wall) (f : Tag → γ) (hf : f .lineBreak = f .eof) :
    f (B.right.tag (p + B.shift)) = f (B.left.tag p) := by
  rw [← B.right.tag_kind, ← B.left.tag_kind]
  exact kind_congr hp (fun k => f k.tag) hf

/-- Either the tags at a position are the same, or nothing follows in the line. -/
theorem tag_cases (hp : p ≤ B.wall) :
    p < B.wall ∧ B.right.tag (p + B.shift) = B.left.tag p
      ∨ (B.left.tag p = .lineBreak ∨ B.left.tag p = .eof)
        ∧ (B.right.tag (p + B.shift) = .lineBreak ∨ B.right.tag (p + B.shift) = .eof) := by
  rw [← B.right.tag_kind, ← B.left.tag_kind]
  rcases kind_cases hp with ⟨lt, same⟩ | ⟨left, right⟩
  · exact .inl ⟨lt, by rw [same]⟩
  · exact .inr ⟨left.imp (by rintro h; rw [h]; rfl) (by rintro h; rw [h]; rfl),
      right.imp (by rintro h; rw [h]; rfl) (by rintro h; rw [h]; rfl)⟩

theorem tag_eq_iff (hp : p ≤ B.wall) {t : Tag} (hl : t ≠ .lineBreak) (he : t ≠ .eof) :
    decide (B.right.tag (p + B.shift) = t) = decide (B.left.tag p = t) := by
  refine tag_congr hp (fun u => decide (u = t)) ?_
  rw [decide_eq_false hl.symm, decide_eq_false he.symm]

theorem contains_eq (hp : p ≤ B.wall) {ts : TagSet} (h : ts.contains .lineBreak = ts.contains .eof) :
    ts.contains (B.right.tag (p + B.shift)) = ts.contains (B.left.tag p) :=
  tag_congr hp ts.contains h

/-- Both streams go on at a position. -/
def Free (B : Bridge) (p : Nat) : Prop := B.exact ∨ p < B.wall

theorem Free.mono (h : B.Free q) (hpq : p ≤ q) : B.Free p := h.imp_right (Nat.lt_of_le_of_lt hpq)

/-- Where both streams go on, the next tokens have the same tag. -/
theorem Free.tag (h : B.Free p) (hp : p ≤ B.wall) : B.right.tag (p + B.shift) = B.left.tag p := by
  rcases Nat.lt_or_eq_of_le hp with lt | rfl
  · exact Bridge.tag lt
  · rcases h with h | h
    · have left := B.left_wall
      have right := B.right_wall
      rw [left.resolve_right fun l => l.1 h, right.resolve_right fun r => r.1 h]
    · exact absurd h (Nat.lt_irrefl _)

/-- Where both streams end at the wall, the next tokens are the same. -/
theorem kind_of_exact (hp : p ≤ B.wall) (hx : B.exact) :
    B.right.kind (p + B.shift) = B.left.kind p := by
  have tag := Free.tag (.inl hx) hp
  rcases kind_cases hp with ⟨-, same⟩ | ⟨left | left, right | right⟩
  · exact same
  · rw [left, right]
  · rw [← B.left.tag_kind, ← B.right.tag_kind, left, right] at tag
    cases tag
  · rw [← B.left.tag_kind, ← B.right.tag_kind, left, right] at tag
    cases tag
  · rw [left, right]

theorem lt_wall (hp : p ≤ B.wall) (hl : B.left.tag p ≠ .lineBreak) (he : B.left.tag p ≠ .eof) :
    p < B.wall := by
  refine Nat.lt_of_le_of_ne hp ?_
  rintro rfl
  rcases B.left_wall with h | ⟨-, h⟩
  · exact he h
  · exact hl h

theorem lt_wall_of_free (hp : p ≤ B.wall) (hf : B.Free p) (he : B.left.tag p ≠ .eof) :
    p < B.wall := by
  rcases hf with hx | hf
  · refine Nat.lt_of_le_of_ne hp ?_
    rintro rfl
    exact he (B.left_wall.resolve_right fun l => l.1 hx)
  · exact hf

/-! ## Positions inside a group -/

/-- Reading has come to a position inside the group around `o`, in a line-break mode that is
allowed there: line breaks are passed over only where something must follow. -/
structure Within (B : Bridge) (o : Nat) (b : Bool) (p : Nat) : Prop where
  base : o ≤ p
  below : p ≤ B.ceil o
  free : b = true → B.Free (B.ceil o)

namespace Within

variable (h : B.Within o b p)

include h

theorem le_wall : p ≤ B.wall := Nat.le_trans h.below (B.ceil_le o)

theorem ceil_le : B.ceil p ≤ B.ceil o := B.ceil_ceil o p h.base h.below

theorem past (hf : B.Free p) :
    B.right.past (p + B.shift) = B.left.past p + B.shift ∧ B.Within o b (B.left.past p)
      ∧ B.Free (B.left.past p) := by
  obtain ⟨same, le, free⟩ := B.past o p h.base h.below hf
  exact ⟨same, ⟨Nat.le_trans h.base (B.left.le_past p), le, h.free⟩, free⟩

theorem upTo (hq : q ≤ B.ceil o) (hpq : p ≤ q) : B.Within o b q :=
  ⟨Nat.le_trans h.base hpq, hq, h.free⟩

/-- Behind a token the cursor stands at the same place on both sides. -/
theorem next (hq : p < B.ceil o) : B.right.next b (p + B.shift) = B.left.next b p + B.shift
    ∧ B.Within o b (B.left.next b p) := by
  have behind : B.Within o b (p + 1) := h.upTo hq (Nat.le_succ p)
  unfold Setting.next
  cases b with
  | false =>
    simp only [Bool.false_eq_true, if_false]
    exact ⟨by omega, behind⟩
  | true =>
    simp only [if_true]
    obtain ⟨same, there, -⟩ := behind.past ((h.free rfl).mono hq)
    rw [show p + B.shift + 1 = p + 1 + B.shift by omega]
    exact ⟨same, there⟩

end Within

theorem isCloser_eq_false {t : Tag} (h : stopTags.contains t = false) : t.isCloser = false := by
  cases hc : t.isCloser with
  | false => rfl
  | true =>
    have closes : t = .punct .closeParen ∨ t = .punct .closeBracket ∨ t = .punct .closeBrace := by
      cases t with
      | punct p => cases p <;> simp [Tag.isCloser, Punct.isCloser] at hc ⊢
      | _ => cases hc
    rcases closes with rfl | rfl | rfl <;> exact absurd h (by decide)

theorem ne_of_stop {t : Tag} (h : stopTags.contains t = false) : t ≠ .lineBreak ∧ t ≠ .eof := by
  constructor <;> rintro rfl <;> exact absurd h (by decide)

/-- The members of a set without stops are no stops. -/
theorem not_stop {ts : TagSet} {t : Tag} (h : ts.contains t = true)
    (hts : ts.bits &&& stopTags.bits = 0) : stopTags.contains t = false := by
  unfold TagSet.contains at *
  have both : (ts.bits &&& stopTags.bits).getLsbD t.index = false := by
    rw [hts]
    exact BitVec.getLsbD_zero
  rw [BitVec.getLsbD_and, h, Bool.true_and] at both
  exact both

/-- A token that is no stop is taken inside the group. -/
theorem Within.lt_ceil (h : B.Within o b p) (ht : stopTags.contains (B.left.tag p) = false) :
    p < B.wall ∧ p < B.ceil o := by
  obtain ⟨hl, he⟩ := ne_of_stop ht
  have lt := lt_wall h.le_wall hl he
  exact ⟨lt, Nat.lt_of_lt_of_le (B.lt_ceil p lt (isCloser_eq_false ht)) h.ceil_le⟩

/-- Where a text runs on behind a token, both streams do. -/
theorem Within.free_next (h : B.Within o b p) (ht : runOnTags.contains (B.left.tag p) = true) :
    B.Free (B.left.next b p) := by
  obtain ⟨lt, below⟩ := h.lt_ceil (not_stop ht (by decide))
  have behind : B.Free (p + 1) := B.runOn p lt ht
  unfold Setting.next
  cases b with
  | false => exact behind
  | true => exact ((h.upTo below (Nat.le_succ p)).past behind).2.2

/-! ## Looking over groups -/

theorem ahead_eq {t : Tag} (hp : p ≤ B.wall) :
    B.right.ahead t (p + B.shift) = B.left.ahead t p := by
  generalize hn : B.wall - p = n
  induction n using Nat.strongRecOn generalizing p with
  | ind n ih =>
    rw [B.right.ahead_step, B.left.ahead_step]
    by_cases stop : B.left.tag p = .eof ∨ B.left.tag p = .lineBreak
    · have ended : decide (B.right.tag (p + B.shift) = .eof ∨ B.right.tag (p + B.shift) = .lineBreak)
          = decide (B.left.tag p = .eof ∨ B.left.tag p = .lineBreak) :=
        tag_congr hp (fun u => decide (u = .eof ∨ u = .lineBreak)) rfl
      rw [if_pos stop, if_pos (of_decide_eq_true (ended.trans (decide_eq_true stop)))]
    · obtain ⟨he, hl⟩ := not_or.1 stop
      have lt := lt_wall hp hl he
      have behind : B.right.ahead t (p + 1 + B.shift) = B.left.ahead t (p + 1) :=
        ih (B.wall - (p + 1)) (by omega) lt rfl
      rw [Bridge.tag lt, B.closer p lt, Nat.add_right_comm, behind]
      -- what is left differs in the look behind a group only
      congr 2
      cases hj : B.left.input.groups.closer? p with
      | none => rfl
      | some j =>
        obtain ⟨hle, far⟩ := B.closer_lt p lt j hj
        have below := B.ceil_le p
        have behind_group : B.right.ahead t (j + 1 + B.shift) = B.left.ahead t (j + 1) :=
          ih (B.wall - (j + 1)) (by omega) (by omega) rfl
        rw [Option.map_some, Option.any_some, Option.any_some, Nat.add_right_comm, behind_group,
          decide_eq_true (by omega), decide_eq_true (by omega)]

theorem binds_eq (h : B.Within o b p) :
    B.right.binds b (p + B.shift) = B.left.binds b p := by
  rw [B.right.binds_step, B.left.binds_step, tag_congr h.le_wall closeOf? rfl]
  cases hc : closeOf? (B.left.tag p) with
  | none => rfl
  | some close =>
    have opener : B.left.tag p = .punct .openParen ∨ B.left.tag p = .punct .openBracket := by
      unfold closeOf? at hc
      split at hc
      · next tag => exact .inl tag
      · next tag => exact .inr tag
      · cases hc
    have no_stop : stopTags.contains (B.left.tag p) = false := by
      rcases opener with h | h <;> rw [h] <;> decide
    have opens : (B.left.tag p).isOpener = true := by
      rcases opener with h | h <;> rw [h] <;> rfl
    obtain ⟨lt, below⟩ := h.lt_ceil no_stop
    have free : B.Free (B.ceil (p + 1)) := (B.opened p lt opens).1
    have inside : B.Within (p + 1) true (p + 1) := ⟨Nat.le_refl _, B.le_ceil _ lt, fun _ => free⟩
    obtain ⟨first, there, -⟩ := inside.past (free.mono inside.below)
    have empty : decide (B.right.tag (B.right.past (p + 1 + B.shift)) = .punct close)
        = decide (B.left.tag (B.left.past (p + 1)) = .punct close) := by
      rw [first]
      exact tag_eq_iff there.le_wall Tag.noConfusion Tag.noConfusion
    rw [Option.any_some, Option.any_some, Nat.add_right_comm, empty, B.closer p lt]
    congr 1
    cases hj : B.left.input.groups.closer? p with
    | none => rfl
    | some j =>
      obtain ⟨hle, far⟩ := B.closer_lt p lt j hj
      have := h.ceil_le
      have closer : B.Within o b j := h.upTo (by omega) (Nat.le_of_lt hle)
      obtain ⟨behind, at_arrow⟩ := closer.next (by omega)
      have arrow : decide (B.right.tag (B.right.next b (j + B.shift)) = .reserved .arrow)
          = decide (B.left.tag (B.left.next b j) = .reserved .arrow) := by
        rw [behind]
        exact tag_eq_iff at_arrow.le_wall Tag.noConfusion Tag.noConfusion
      exact arrow

end Bridge

end Surface.Grammar
