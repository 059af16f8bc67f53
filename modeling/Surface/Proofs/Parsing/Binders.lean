import Surface.Proofs.Parsing.Lookahead

/-!
# Groups and binders

Where an expression may begin, a group that is followed by an arrow is read as the parameters of a
type, unless it is empty. So a group that is an expression is empty or has no arrow behind it.

Results:
* `PrimaryAt.binds_eq`: what the look for an arrow behind a group sees at an expression.
* `ChainAt.binds_eq_false`, `ChainAt.not_isGroup`: what stands before an arrow.
* `ParamsAt.binds`: the parameters of a type are seen.
-/

namespace Surface

/-- A group that is not empty, as an expression. -/
def Expr.isGroup : Expr → Bool
  | .tuple _ (_ :: _) _ | .array _ (_ :: _) => true
  | _ => false

namespace Grammar

variable {S : Setting} {c : Context} {b : Bool} {i j k : Nat}

theorem closing?_of_closeOf? : ∀ {t : Tag} {p : Punct}, closeOf? t = some p →
    Groups.closing? t = some p := by
  decide

theorem no_pattern_of_closeOf? : ∀ {t : Tag} {p : Punct}, closeOf? t = some p →
    patternTags.contains (.punct p) = false := by
  decide

/-- The look for an arrow behind a group whose closing bracket is known. -/
theorem Setting.binds_group (groups : S.input.groups = .ofTokens S.input.tokens) {p : Punct}
    (hp : closeOf? (S.tag i) = some p) (inside : Clear S bindingTags (S.next true i) k)
    (hk : S.tag k = .punct p) : S.binds b i
      = (!decide (S.tag (S.next true i) = .punct p) && decide (S.tag (S.next b k) = .reserved .arrow)) := by
  have closing : Groups.closing? (S.tag i) = some p := closing?_of_closeOf? hp
  have inner : Balanced S (i + 1) k := (Balanced.behind true i).append inside.balanced
  rw [S.binds_step, hp, Option.any_some, inner.closer? groups closing hk, Option.any_some]
  rfl

theorem ExprsAt.empty_iff {t : Tag} {c : Context} {es : List Expr} {tr : Bool}
    (h : ExprsAt S t c b i es tr j) (ht : exprTags.contains t = false) (hop : t ≠ .operator) :
    es = [] ↔ S.tag i = t := by
  cases h with
  | none h => exact iff_of_true rfl h
  | last h _ _ | more h _ _ => exact iff_of_false (List.cons_ne_nil _ _) (h.starts.ne ht hop)

/-- At an expression that stands alone the look for an arrow behind a group sees one if the expression
is a group that is not empty with an arrow behind it. -/
theorem PrimaryAt.binds_eq (groups : S.input.groups = .ofTokens S.input.tokens) (ok : ¬ S.flawed)
    {e : Expr} (h : PrimaryAt S c b i e j) :
    S.binds b i = (e.isGroup && decide (S.tag j = .reserved .arrow)) := by
  have other {t : Tag} (hi : S.tag i = t) (ht : closeOf? t = none) : S.binds b i = false := by
    rw [S.binds_step, hi, ht]
    rfl
  cases h with
  | literal hv _ =>
    rcases Setting.tag_of_literal hv with h | h | h <;> exact other h rfl
  | name h _ | path h _ =>
    have name := Setting.tag_of_name h.head.1
    refine other rfl ?_
    revert name
    generalize S.tag i = t
    revert t
    decide
  | @tuple _ _ _ _ es _ _ hi h hk _ =>
    have empty := h.empty_iff (by decide) (by decide)
    rw [Setting.binds_group groups (by rw [hi]; rfl) (h.clear ok) hk]
    cases es with
    | nil => simp [empty.1 rfl, Expr.isGroup]
    | cons e es => simp [mt empty.2 (List.cons_ne_nil e es), Expr.isGroup]
  | @array _ _ _ _ es _ _ hi h hk _ =>
    have empty := h.empty_iff (by decide) (by decide)
    rw [Setting.binds_group groups (by rw [hi]; rfl) (h.clear ok) hk]
    cases es with
    | nil => simp [empty.1 rfl, Expr.isGroup]
    | cons e es => simp [mt empty.2 (List.cons_ne_nil e es), Expr.isGroup]
  | conditional hi _ _ _ _ _ => exact other hi rfl
  | matchOn hi _ _ _ _ _ => exact other hi rfl
  | returns hi _ _ _ => exact other hi rfl
  | returnsNothing hi _ _ => exact other hi rfl
  | lambda hi _ _ _ _ => exact other (by rw [← S.tag_kind, hi]) rfl
  | thunk hi _ _ => exact other (by rw [← S.tag_kind, hi]) rfl

/-! ## What stands before an arrow -/

theorem ApplicationAt.first {e : Expr} (h : ApplicationAt S c b i e j) : ∃ f k,
    PrimaryAt S c b i f k ∧ (f = e ∧ k = j ∨ S.tag k ≠ .reserved .arrow ∧ e.isGroup = false) := by
  have argument {a : Expr} {as : List Expr} {k j : Nat} (h : ArgsAt S c b k (a :: as) j) :
      S.tag k ≠ .reserved .arrow := by
    cases h with
    | more tag _ _ =>
      intro arrow
      rw [arrow] at tag
      exact absurd tag (by decide)
  cases h with
  | bare h _ => exact ⟨_, _, h, .inl ⟨rfl, rfl⟩⟩
  | types _ h as _ => exact ⟨_, _, h, .inr ⟨argument as, rfl⟩⟩
  | plain _ h as _ _ => exact ⟨_, _, h, .inr ⟨argument as, rfl⟩⟩
  | block _ h as _ _ _ => exact ⟨_, _, h, .inr ⟨argument as, rfl⟩⟩

theorem ChainAt.first {c : Context} {b : Bool} {i j : Nat} {e : Expr} (h : ChainAt S c b i e j) :
    ∃ f k, PrimaryAt S c b i f k ∧
      (f = e ∧ k = j ∨ S.tag k ≠ .reserved .arrow ∧ e.isGroup = false) := by
  refine h.induct (fun h => h.first) fun before op _ => ?_
  obtain ⟨f, k, h, first⟩ := before
  refine ⟨f, k, h, .inr ⟨?_, rfl⟩⟩
  rcases first with ⟨-, rfl⟩ | ⟨no, -⟩
  · rcases Setting.tag_of_operator op with tag | tag <;> rw [tag] <;> decide
  · exact no

/-- Operands with no arrow behind them, or that are no group, are not taken for parameters. -/
theorem ChainAt.binds_eq_false (groups : S.input.groups = .ofTokens S.input.tokens)
    (ok : ¬ S.flawed) {e : Expr} (h : ChainAt S c b i e j)
    (hj : S.tag j ≠ .reserved .arrow ∨ e.isGroup = false) : S.binds b i = false := by
  obtain ⟨f, k, primary, ⟨rfl, rfl⟩ | ⟨no, -⟩⟩ := h.first
  · rw [primary.binds_eq groups ok]
    rcases hj with no | no <;> simp [no]
  · rw [primary.binds_eq groups ok]
    simp [no]

/-- An operand before an arrow that is not taken for parameters is no group, or an empty one. -/
theorem ChainAt.not_isGroup (groups : S.input.groups = .ofTokens S.input.tokens) (ok : ¬ S.flawed)
    {e : Expr} (h : ChainAt S c b i e j) (no : S.binds b i = false)
    (arrow : S.tag j = .reserved .arrow) : e.isGroup = false := by
  obtain ⟨f, k, primary, ⟨rfl, rfl⟩ | ⟨-, other⟩⟩ := h.first
  · rw [primary.binds_eq groups ok, arrow, decide_eq_true rfl, Bool.and_true] at no
    exact no
  · exact other

/-- What is seen are parameters, one at least. -/
theorem ParamsAt.ne_nil (groups : S.input.groups = .ofTokens S.input.tokens)
    {p : Punct} {c : Context} {ps : List Param} {tr : Bool} (hp : closeOf? (S.tag i) = some p)
    (h : ParamsAt S (.punct p) c true (S.next true i) ps tr k) (hk : S.tag k = .punct p)
    (binds : S.binds b i = true) : ps ≠ [] := by
  rintro rfl
  cases h with
  | none close =>
    rw [Setting.binds_group groups hp .done hk, close, decide_eq_true rfl] at binds
    cases binds

/-- Parameters with an arrow behind their group are seen. -/
theorem ParamsAt.binds (groups : S.input.groups = .ofTokens S.input.tokens) (ok : ¬ S.flawed)
    {p : Punct} {c : Context} {ps : List Param} {tr : Bool} (hp : closeOf? (S.tag i) = some p)
    (h : ParamsAt S (.punct p) c true (S.next true i) ps tr k) (some : ps ≠ [])
    (hk : S.tag k = .punct p) (arrow : S.tag (S.next b k) = .reserved .arrow) : S.binds b i = true := by
  have starts : patternTags.contains (S.tag (S.next true i)) = true := by
    cases h with
    | none _ => exact absurd rfl some
    | last h _ _ | more h _ _ => cases h with | typed h _ _ _ | untyped h _ _ => exact h.starts
  have closes : S.tag (S.next true i) ≠ .punct p := by
    intro close
    rw [close] at starts
    cases (no_pattern_of_closeOf? hp).symm.trans starts
  rw [Setting.binds_group groups hp (h.clear ok) hk, decide_eq_false closes, decide_eq_true arrow]
  rfl

end Grammar

end Surface
