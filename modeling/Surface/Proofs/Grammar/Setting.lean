import Surface.Proofs.Reader.Steady

/-!
# Settings

What the rules of the grammar are relative to: a stream of tokens, which spans a node may carry,
and whether error statements are admitted.

Results:
* `Setting`: a setting; `Setting.tag`, `Setting.kind`, `Setting.span`: the token at a position.
* `Setting.next`, `Setting.past`: the positions behind a token and behind line breaks.
-/

namespace Surface.Grammar

/-- What rules are relative to: a stream, which spans a node may carry, and whether error
statements are admitted. -/
structure Setting where
  input : Input
  /-- Whether a node whose tokens cover the first span may carry the second. -/
  covers : Span → Span → Prop
  covers_refl : ∀ span, covers span span
  /-- Whether error statements are admitted. -/
  flawed : Prop
  /-- Behind the stream stands its end. -/
  closed : ∀ i, (input.tokens.get i).tag = input.tokens.tag i

namespace Setting

variable (S : Setting)

/-- The tag at a position. -/
def tag (i : Nat) : Tag := S.input.tokens.tag i

/-- What the token at a position is. -/
def kind (i : Nat) : TokenKind := (S.input.tokens.get i).kind

/-- The span of the token at a position. -/
def span (i : Nat) : Span := (S.input.tokens.get i).span

/-- The first position from `i` on that is no line break. -/
def past (i : Nat) : Nat := pastBreaks S.input.tokens i

/-- The position behind the token at `i`, given whether line breaks are passed over. -/
def next (b : Bool) (i : Nat) : Nat := if b then S.past (i + 1) else i + 1

theorem lt_next (b : Bool) (i : Nat) : i < S.next b i := by
  unfold next
  split
  · exact Nat.lt_of_lt_of_le (Nat.lt_succ_self i) (Cursor.le_pastBreaks _ _)
  · exact Nat.lt_succ_self i

theorem le_past (i : Nat) : i ≤ S.past i := Cursor.le_pastBreaks _ _

/-- The span of the last token before position `i` that is no line break. -/
def last (i : Nat) : Span := S.input.tokens.lastSpan i

/-- A dot with a name behind it. -/
def Dotted (i : Nat) : Prop := S.tag i = .reserved .dot ∧ nameTags.contains (S.tag (i + 1))

/-- A name. -/
def NameAt (i : Nat) (x : Ident) : Prop :=
  (S.kind i).name? = some x.name ∧ S.covers (S.span i) x.span

/-- The operator at a position, if there is one in a context. -/
def operator? (c : Context) (i : Nat) : Option String :=
  match S.kind i with
  | .operator symbols => some symbols
  | .reserved .pipe => if c.pipeSeparates then none else some Reserved.pipe.text
  | _ => none

/-- The word `else`, on this line or the next. -/
def ElseNext (i : Nat) : Prop :=
  if S.tag i = .lineBreak then S.tag (i + 1) = .keyword .elseKw
  else S.tag i = .keyword .elseKw

/-- A token that an expression starts with. -/
def StartsExpr (i : Nat) : Prop := exprTags.contains (S.tag i) ∨ opensLambda (S.kind i)

/-- A brace that would be taken as the last argument of an application. -/
def BlockNext (c : Context) (i : Nat) : Prop :=
  c.allowsTrailingBlock ∧ S.tag i = .punct .openBrace

/-- The group at a position is followed by an arrow. -/
def binds (b : Bool) (i : Nat) : Bool :=
  arrowFollowsGroup S.input.tokens S.input.groups b i

/-- A tag occurs outside all groups before the line ends. -/
def ahead (t : Tag) (i : Nat) : Bool :=
  occursBeforeBreak S.input.tokens S.input.groups t i

end Setting

/-! ## Tags and kinds -/

theorem tag_cases_of_name : ∀ {t : Tag}, nameTags.contains t = true → t = .ident ∨ t = .symbolIdent := by
  decide

namespace Setting

variable {S : Setting} {b : Bool} {i : Nat}

variable (S) in
theorem tag_kind (i : Nat) : (S.kind i).tag = S.tag i := S.closed i

theorem tag_of_name {x : String} (h : (S.kind i).name? = some x) : nameTags.contains (S.tag i) := by
  rw [← S.tag_kind]
  cases hk : S.kind i <;> rw [hk] at h <;> cases h
  · show nameTags.contains .ident = true
    decide
  · show nameTags.contains .symbolIdent = true
    decide

theorem tag_of_literal {v : Literal} (h : (S.kind i).literal? = some v) :
    S.tag i = .string ∨ S.tag i = .char ∨ S.tag i = .number := by
  rw [← S.tag_kind]
  cases hk : S.kind i <;> rw [hk] at h <;> cases h <;> simp [TokenKind.tag]

theorem ne_eof_of_contains {ts : TagSet} (h : ts.contains (S.tag i)) (hts : ts.contains .eof = false) :
    S.tag i ≠ .eof := by
  intro he
  rw [he, hts] at h
  cases h

theorem ne_eof_of_literal {v : Literal} (h : (S.kind i).literal? = some v) : S.tag i ≠ .eof := by
  rcases tag_of_literal h with h | h | h <;> rw [h] <;> exact Tag.noConfusion

theorem dotted_iff : (decide (S.tag i = .reserved .dot) && nameTags.contains (S.tag (i + 1))) = true
    ↔ S.Dotted i := by
  unfold Dotted
  rw [Bool.and_eq_true, decide_eq_true_eq]

/-- A token of another sort is no operator. -/
theorem operator?_of_tag {c : Context} (h : S.tag i ≠ .operator ∧ S.tag i ≠ .reserved .pipe) :
    S.operator? c i = none := by
  rw [← S.tag_kind] at h
  unfold Setting.operator?
  split
  · next hk => exact absurd (by rw [hk]; rfl) h.1
  · next hk => exact absurd (by rw [hk]; rfl) h.2
  · rfl

theorem tag_of_operator {c : Context} {symbols : String} (h : S.operator? c i = some symbols) :
    S.tag i = .operator ∨ S.tag i = .reserved .pipe := by
  by_contra no
  rw [operator?_of_tag (not_or.1 no)] at h
  cases h

theorem elseNext_iff : (if S.tag i = .lineBreak then decide (S.tag (i + 1) = .keyword .elseKw)
    else decide (S.tag i = .keyword .elseKw)) = true ↔ S.ElseNext i := by
  unfold ElseNext
  split <;> rw [decide_eq_true_eq]

theorem past_of_ne (h : S.tag i ≠ .lineBreak) : S.past i = i := by
  unfold past
  rw [pastBreaks]
  exact dif_neg h

theorem past_of_lineBreak (h : S.tag i = .lineBreak) : S.past i = S.past (i + 1) := by
  unfold past
  rw [pastBreaks]
  exact dif_pos h

variable (S) in
theorem tag_past (i : Nat) : S.tag (S.past i) ≠ .lineBreak := S.input.tokens.tag_pastBreaks i

variable (S) in
theorem past_past (i : Nat) : S.past (S.past i) = S.past i := past_of_ne (S.tag_past i)

theorem ElseNext.past (h : S.ElseNext i) : S.tag (S.past i) = .keyword .elseKw := by
  unfold ElseNext at h
  split at h
  · next hb => rw [past_of_lineBreak hb, past_of_ne (by rw [h]; exact Tag.noConfusion), h]
  · next hb => rw [past_of_ne hb, h]

end Setting

theorem opensLambda_cases {k : TokenKind} (h : opensLambda k = true) :
    k = .reserved .pipe ∨ k = .operator "||" := by
  unfold opensLambda at h
  split at h
  · exact .inl rfl
  · exact .inr (by rw [eq_of_beq h])
  · cases h

theorem Setting.ne_eof_of_opensLambda {S : Setting} {i : Nat} (h : opensLambda (S.kind i) = true) :
    S.tag i ≠ .eof := by
  rw [← S.tag_kind]
  rcases opensLambda_cases h with kind | kind <;> rw [kind] <;> exact Tag.noConfusion

theorem Setting.tag_of_binds {S : Setting} {b : Bool} {i : Nat} (h : S.binds b i = true) :
    S.tag i = .punct .openParen ∨ S.tag i = .punct .openBracket := by
  unfold binds arrowFollowsGroup at h
  dsimp only at h
  split at h
  · next tag => exact .inl tag
  · next tag => exact .inr tag
  · cases h

/-- No arrow is looked for behind a token that opens no group. -/
theorem Setting.binds_of_tag {S : Setting} {b : Bool} {i : Nat} {t : Tag} (h : S.tag i = t)
    (ht : t ≠ .punct .openParen ∧ t ≠ .punct .openBracket) : S.binds b i = false := by
  refine eq_false_of_ne_true fun binds => ?_
  rcases tag_of_binds binds with opener | opener
  · exact ht.1 (h.symm.trans opener)
  · exact ht.2 (h.symm.trans opener)

/-! ## Looking over groups -/

/-- The bracket that closes a group, if its opener is no brace. -/
def closeOf? : Tag → Option Punct
  | .punct .openParen => some .closeParen
  | .punct .openBracket => some .closeBracket
  | _ => none

/-- The arrow behind the closer of a group that is not empty. -/
theorem Setting.arrow_step (S : Setting) (b : Bool) (p : Nat) (close : Punct) :
    (if S.tag (S.past (p + 1)) = .punct close then false
      else match S.input.groups.closer? p with
        | some j => decide (S.tag (if b then S.past (j + 1) else j + 1) = .reserved .arrow)
        | none => false)
    = (!decide (S.tag (S.past (p + 1)) = .punct close)
      && (S.input.groups.closer? p).any fun j =>
        decide (S.tag (if b then S.past (j + 1) else j + 1) = .reserved .arrow)) := by
  by_cases h : S.tag (S.past (p + 1)) = .punct close
  · simp [h]
  · cases S.input.groups.closer? p <;> simp [h]

/-- The look for an arrow behind a group that is not empty. -/
theorem Setting.binds_step (S : Setting) (b : Bool) (p : Nat) : S.binds b p =
    (closeOf? (S.tag p)).any fun close => !decide (S.tag (S.past (p + 1)) = .punct close)
      && (S.input.groups.closer? p).any fun j =>
        decide (S.tag (if b then S.past (j + 1) else j + 1) = .reserved .arrow) := by
  unfold Setting.binds arrowFollowsGroup
  rw [show S.input.tokens.tag p = S.tag p from rfl]
  cases S.tag p with
  | punct q =>
    cases q with
    | openParen => exact S.arrow_step b p .closeParen
    | openBracket => exact S.arrow_step b p .closeBracket
    | _ => rfl
  | _ => rfl

/-- The look for a tag outside all groups, one token or group at a time. -/
theorem Setting.ahead_step (S : Setting) (t : Tag) (p : Nat) : S.ahead t p =
    if S.tag p = .eof ∨ S.tag p = .lineBreak then false
    else if (S.tag p).isOpener then
      (S.input.groups.closer? p).any fun j => decide (p ≤ j) && S.ahead t (j + 1)
    else if (S.tag p).isCloser then false
    else if S.tag p = t then true
    else S.ahead t (p + 1) := by
  unfold Setting.ahead Setting.tag
  rw [occursBeforeBreak]
  split
  · rfl
  · split
    · cases S.input.groups.closer? p with
      | none => rfl
      | some j => by_cases h : p ≤ j <;> simp [h]
    · rfl

end Surface.Grammar
