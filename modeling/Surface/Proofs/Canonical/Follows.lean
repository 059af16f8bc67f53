import Surface.Proofs.Canonical.Details
import Surface.Proofs.Canonical.Spelt

/-!
# What stands behind an expression

A node is read up to a token that does not go on with it. In the canonical layout that token may be
another one: a closing bracket where a comma was left out, or a line break. Most tokens that end a
node in one place end it in all; only a bar behind a function or behind a `return` without a value
becomes part of it, so that a comma before the bar that ends parameters may not be left out.

Results:
* `Follows`: a node that ends before a token of one stream ends before a token of another.
-/

namespace Surface

namespace Grammar

/-! ## What ends a node -/

/-- The tags that go on with no expression. -/
def endTags : TagSet :=
  {.punct .closeParen, .punct .closeBracket, .punct .closeBrace, .punct .comma, .lineBreak, .eof,
    .keyword .thenKw, .keyword .elseKw}

/-- A node that ends before position `j` of one stream ends before position `q` of another, given
whether it ends with a function or with a `return` without a value: the same token stands there, or
an argument in both, or a token that ends all nodes, or one that does in this context. -/
inductive Follows (S T : Setting) (c : Context) (isOpen : Bool) (j q : Nat) : Prop
  | same : T.kind q = S.kind j → S.tag j ≠ .reserved .dot → Follows S T c isOpen j q
  | argument : Inner.argumentTags.contains (S.tag j) = true →
      Inner.argumentTags.contains (T.tag q) = true → Follows S T c isOpen j q
  | ends : endTags.contains (T.tag q) = true → Follows S T c isOpen j q
  | brace : T.tag q = .punct .openBrace → c.allowsTrailingBlock = false → Follows S T c isOpen j q
  | bar : T.tag q = .reserved .pipe → c.pipeSeparates = true → isOpen = false →
      Follows S T c isOpen j q

variable {S T : Setting} {c c' : Context} {b isOpen : Bool} {j q : Nat}

theorem argumentTags_proper : ∀ {t : Tag}, Inner.argumentTags.contains t = true →
    exprTags.contains t = true ∧ t ∉ [.operator, .reserved .pipe, .reserved .arrow, .punct .colon,
      .punct .openBrace, .reserved .dot, .lineBreak] := by
  decide

theorem endTags_proper : ∀ {t : Tag}, endTags.contains t = true →
    Inner.argumentTags.contains t = false ∧ exprTags.contains t = false
      ∧ t ∉ [.operator, .reserved .pipe, .reserved .arrow, .punct .colon, .punct .openBrace,
        .reserved .dot] := by
  decide

theorem Setting.operator?_congr {i : Nat} (h : T.kind q = S.kind i) :
    T.operator? c q = S.operator? c i := by
  unfold Setting.operator?
  rw [h]

theorem Setting.not_startsExpr (h : exprTags.contains (S.tag j) = false) (h' : S.tag j ≠ .operator) :
    ¬ S.StartsExpr j := by
  intro starts
  rcases starts.tag with tag | tag
  · rw [h] at tag
    cases tag
  · exact h' tag

namespace Follows

/-- The same token stands in both, which can be told from its tag. -/
theorem of_tag {t : Tag} {k : TokenKind} (eq : ∀ {k' : TokenKind}, k'.tag = t → k' = k)
    (hS : S.tag j = t) (hT : T.tag q = t) (dot : t ≠ .reserved .dot) : Follows S T c isOpen j q := by
  refine .same ?_ (by rwa [hS])
  have kindT : T.kind q = k := eq (by rw [T.tag_kind, hT])
  have kindS : S.kind j = k := eq (by rw [S.tag_kind, hS])
  rw [kindT, kindS]

/-- What ends a node that may go on with a bar ends any other. -/
theorem closed (h : Follows S T c isOpen j q) : Follows S T c false j q := by
  cases h with
  | same kind dot => exact .same kind dot
  | argument h h' => exact .argument h h'
  | ends h => exact .ends h
  | brace h no => exact .brace h no
  | bar h separates _ => exact .bar h separates rfl

theorem stops (h : Follows S T c isOpen j q) (edge : b = true → T.tag q ≠ .lineBreak) :
    T.Stops b q := by
  refine ⟨?_, edge⟩
  cases h with
  | same kind dot => rwa [← T.tag_kind, kind, S.tag_kind]
  | argument _ h => exact fun e => (argumentTags_proper h).2 (by simp [e])
  | ends h => exact fun e => (endTags_proper h).2.2 (by simp [e])
  | brace h _ => rw [h]; exact Tag.noConfusion
  | bar h _ _ => rw [h]; decide

theorem args (h : Follows S T c isOpen j q) (no : Inner.argumentTags.contains (S.tag j) = false) :
    Inner.argumentTags.contains (T.tag q) = false := by
  cases h with
  | same kind _ => rwa [← T.tag_kind, kind, S.tag_kind]
  | argument h _ => cases no.symm.trans h
  | ends h => exact (endTags_proper h).1
  | brace h _ => rw [h]; decide
  | bar h _ _ => rw [h]; decide

theorem operator (h : Follows S T c isOpen j q) (no : S.operator? c j = none) :
    T.operator? c q = none := by
  cases h with
  | same kind _ => rwa [Setting.operator?_congr kind]
  | argument _ h =>
    have proper := (argumentTags_proper h).2
    exact Setting.operator?_of_tag ⟨fun e => proper (by simp [e]), fun e => proper (by simp [e])⟩
  | ends h =>
    have proper := (endTags_proper h).2.2
    exact Setting.operator?_of_tag ⟨fun e => proper (by simp [e]), fun e => proper (by simp [e])⟩
  | brace h _ => exact Setting.operator?_of_tag (by rw [h]; decide)
  | bar h separates _ =>
    unfold Setting.operator?
    rw [← T.tag_kind] at h
    split
    · next hk =>
      rw [hk] at h
      cases h
    · rw [separates]
      rfl
    · rfl

/-- A sign that the tokens of neither kind are. -/
theorem ne {t : Tag} (h : Follows S T c isOpen j q) (no : S.tag j ≠ t)
    (ht : t = .reserved .arrow ∨ t = .punct .colon) : T.tag q ≠ t := by
  cases h with
  | same kind _ => rwa [← T.tag_kind, kind, S.tag_kind]
  | argument _ h =>
    rintro rfl
    exact (argumentTags_proper h).2 (by rcases ht with e | e <;> simp [e])
  | ends h =>
    rintro rfl
    exact (endTags_proper h).2.2 (by rcases ht with e | e <;> simp [e])
  | brace h _ => rw [h]; rcases ht with rfl | rfl <;> decide
  | bar h _ _ => rw [h]; rcases ht with rfl | rfl <;> decide

theorem block (h : Follows S T c isOpen j q) (no : ¬ S.BlockNext c j) : ¬ T.BlockNext c q := by
  rintro ⟨allowed, brace⟩
  cases h with
  | same kind _ =>
    refine no ⟨allowed, ?_⟩
    rwa [← S.tag_kind, ← kind, T.tag_kind]
  | argument _ h => exact (argumentTags_proper h).2 (by simp [brace])
  | ends h => exact (endTags_proper h).2.2 (by simp [brace])
  | brace _ no => cases no.symm.trans allowed
  | bar h _ _ => cases brace.symm.trans h

theorem starts (h : Follows S T c true j q) (no : ¬ S.StartsExpr j) : ¬ T.StartsExpr q := by
  cases h with
  | same kind _ =>
    unfold Setting.StartsExpr at no ⊢
    rwa [← T.tag_kind, kind, S.tag_kind]
  | argument h _ => exact absurd (.inl (argumentTags_proper h).1) no
  | ends h =>
    have proper := endTags_proper h
    exact Setting.not_startsExpr proper.2.1 fun e => proper.2.2 (by simp [e])
  | brace h _ => exact Setting.not_startsExpr (by rw [h]; decide) (by rw [h]; decide)
  | bar _ _ closed => cases closed

/-- In another context. -/
theorem context (h : Follows S T c isOpen j q)
    (hb : c.allowsTrailingBlock = false → c'.allowsTrailingBlock = false)
    (hp : c.pipeSeparates = true → c'.pipeSeparates = true) : Follows S T c' isOpen j q := by
  cases h with
  | same kind dot => exact .same kind dot
  | argument h h' => exact .argument h h'
  | ends h => exact .ends h
  | brace h no => exact .brace h (hb no)
  | bar h separates closed => exact .bar h (hp separates) closed

/-- Inside of a function, where bars are operators. -/
theorem lambda (h : Follows S T c true j q) : Follows S T (c.without .lambdaParams) isOpen j q := by
  cases h with
  | same kind dot => exact .same kind dot
  | argument h h' => exact .argument h h'
  | ends h => exact .ends h
  | brace h no => exact .brace h (by simpa [Context.allowsTrailingBlock, Context.without,
      Context.lambdaParams, Context.none] using no)
  | bar _ _ closed => cases closed

/-- In a type. -/
theorem type (h : Follows S T c isOpen j q) : Follows S T (c.union .type) isOpen j q :=
  h.context (fun _ => by simp [Context.allowsTrailingBlock, Context.union, Context.type])
    fun separates => by simp [Context.union, separates]

end Follows

end Grammar

end Surface
