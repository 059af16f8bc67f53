import Surface.Proofs.Canonical.Derived
import Surface.Proofs.Canonical.Follows
import Surface.Proofs.Grammar.Completeness

/-!
# Deriving expressions and statements again

What the rules derive from one stream they derive from any stream that holds the words of it, before
tokens that end it there. The proof goes along the rules. Parentheses around patterns, line breaks
and commas behind the last of a list may be missing in the second stream; what the readers look ahead
for is there all the same. What could not be read from the first stream has no words and is missing as
well.

Results:
* `ExprAt.again`, `StmtAt.again`, `BlockAt.again`, ...: expressions, statements, blocks and their parts.
-/

namespace Surface

/-- Whether the first word of an expression is that of a conditional. -/
def Expr.opensConditional : Expr → Bool
  | .conditional _ _ _ _ => true
  | .app _ f _ _ | .typeApp _ f _ => f.opensConditional
  | .arrow _ d _ => d.opensConditional
  | .ascription _ v _ => v.opensConditional
  | .binary _ l _ _ => l.opensConditional
  | _ => false

theorem Expr.opensConditional_pruned : (e : Expr) → e.pruned.opensConditional = e.opensConditional
  | .literal _ _ | .name _ _ | .path _ _ | .tuple _ _ _ | .array _ _ | .conditional _ _ _ _
  | .matchOn _ _ _ | .returned _ _ | .lambda _ _ _ | .pi _ _ _ | .sigma _ _ _ => rfl
  | .app _ f _ _ | .typeApp _ f _ => f.opensConditional_pruned
  | .arrow _ d _ => d.opensConditional_pruned
  | .ascription _ v _ => v.opensConditional_pruned
  | .binary _ l _ _ => l.opensConditional_pruned

namespace Grammar

variable {S T : Setting} {c : Context} {b : Bool} {i j k l q q' : Nat} {t : Tag}

/-! ## Positions -/

/-- Behind a token an expression starts. -/
theorem Setting.StartsExpr.next (h : T.StartsExpr (q + 1)) : T.next b q = q + 1 :=
  next_eq fun _ => h.ne_lineBreak

theorem Setting.StartsExpr.past (h : T.StartsExpr q) : T.past q = q := past_of_ne h.ne_lineBreak

theorem Setting.ElseNext.of_tag (h : T.tag q = .keyword .elseKw) : T.ElseNext q := by
  unfold Setting.ElseNext
  rw [if_neg (by rw [h]; exact Tag.noConfusion)]
  exact h

/-- A position at the end of a line. -/
theorem Setting.Stops.of_line (hb : b = false) (h : T.tag q = .lineBreak) : T.Stops b q := by
  subst hb
  exact ⟨by rw [h]; exact Tag.noConfusion, nofun⟩

variable (T) in
theorem Setting.next_line (hb : b = false) (q : Nat) : T.next b q = q + 1 := by
  subst hb
  rfl

theorem ExprsAt.ne_lineBreak {es : List Expr} {tr : Bool} (h : ExprsAt T t c b q es tr q')
    (ht : t ≠ .lineBreak) : T.tag q ≠ .lineBreak := by
  cases h with
  | none h => rwa [h]
  | last h _ _ | more h _ _ => exact h.starts.ne_lineBreak

theorem ParamsAt.ne_lineBreak {ps : List Param} {tr : Bool} (h : ParamsAt T t c b q ps tr q')
    (ht : t ≠ .lineBreak) : T.tag q ≠ .lineBreak := by
  cases h with
  | none h => rwa [h]
  | last h _ _ | more h _ _ => exact (tag_of_patternTags h.starts).2

theorem BodyAt.ne_lineBreak {t : Body} (h : BodyAt T c b q t q') : T.tag q ≠ .lineBreak := by
  cases h with
  | block brace _ => rw [brace]; exact Tag.noConfusion
  | expr _ h => exact h.starts.ne_lineBreak

/-- The tags that stand behind items and that none starts with. -/
def behindTags : TagSet := {.lineBreak, .eof, .keyword .elseKw}

theorem behindTags_of_pattern : ∀ {t : Tag}, patternTags.contains t = true →
    behindTags.contains t = false := by
  decide

theorem behindTags_of_expr : ∀ {t : Tag}, exprTags.contains t = true ∨ t = .operator →
    behindTags.contains t = false := by
  decide

theorem ne_of_not_behind {t : Tag} (h : behindTags.contains (T.tag q) = false)
    (ht : behindTags.contains t = true) : T.tag q ≠ t := by
  intro e
  rw [e, ht] at h
  cases h

theorem StmtAt.not_behind {a : Stmt} (h : StmtAt T c b q a q') : behindTags.contains (T.tag q) = false := by
  cases h with
  | letIn word _ _ _ _ => rw [word]; decide
  | conditional word _ _ _ _ => rw [word]; decide
  | branches word _ _ _ _ _ => rw [word]; decide
  | ask _ _ _ h _ _ _ => exact behindTags_of_pattern h.starts
  | expr _ _ _ h _ => exact behindTags_of_expr h.starts.tag

theorem StmtsAt.ne_else {ss : List Stmt} (ok : ¬ T.flawed) (h : StmtsAt T q ss q')
    (close : T.tag q' = .punct .closeBrace) : T.tag q ≠ .keyword .elseKw := by
  cases h with
  | none => rw [close]; exact Tag.noConfusion
  | error flawed _ _ _ => exact absurd flawed ok
  | more h _ _ => exact ne_of_not_behind h.not_behind (by decide)

theorem BlockAt.tag {t : Block} (h : BlockAt T b q t q') : T.tag q = .punct .openBrace := by
  obtain ⟨brace, _, _, _⟩ := h
  exact brace

theorem ArgsAt.tag {e : Expr} {es : List Expr} (h : ArgsAt T c b q (e :: es) q') :
    Inner.argumentTags.contains (T.tag q) = true := by
  cases h with
  | more tag _ _ => exact tag

/-- What stands before the first branch of a conditional. -/
theorem ThenAt.tag {t : Body} (h : ThenAt T c b q t q') :
    T.tag q = .punct .openBrace ∨ T.tag q = .keyword .thenKw := by
  cases h with
  | block brace _ => exact .inl brace
  | expr word _ => exact .inr word

theorem ThenAt.stops {t : Body} (h : ThenAt T c b q t q') : T.Stops b q := by
  rcases h.tag with tag | tag <;> exact .of_tag tag (by decide)

theorem ThenAt.follows {t : Body} {c' c'' : Context} {b' isOpen : Bool} (h : ThenAt S c b i t j)
    (h' : ThenAt T c' b' q t.pruned q') : Follows S T c'' isOpen i q := by
  cases h with
  | block brace _ =>
    cases h' with
    | block brace' _ => exact .of_tag TokenKind.eq_punct brace brace' Tag.noConfusion
  | expr _ _ =>
    cases h' with
    | expr word _ => exact .ends (by rw [word]; decide)

/-- What can be an argument starts with a token that arguments start with. -/
theorem PrimaryAt.isArgument_eq {e : Expr} (h : PrimaryAt S c b i e j) :
    Inner.argumentTags.contains (S.tag i) = e.isArgument := by
  cases h with
  | literal hv _ => rcases Setting.tag_of_literal hv with h | h | h <;> rw [h] <;> rfl
  | name h _ | path h _ =>
    have name := Setting.tag_of_name h.head.1
    show _ = true
    revert name
    generalize S.tag i = t
    revert t
    decide
  | tuple h _ _ _ | array h _ _ _ | conditional h _ _ _ _ _ | matchOn h _ _ _ _ _
  | returns h _ _ _ | returnsNothing h _ _ =>
    rw [h]
    rfl
  | lambda h _ _ _ _ | thunk h _ _ =>
    rw [← S.tag_kind, h]
    rfl

/-! ## Conditionals -/

section

variable {S : Setting}

theorem PrimaryAt.opensConditional_iff {c b i e j} (h : PrimaryAt S c b i e j) :
    S.tag i = .keyword .ifKw ↔ e.opensConditional = true := by
  have other {t : Tag} (hi : S.tag i = t) (ht : t ≠ .keyword .ifKw) {f : Expr}
      (hf : f.opensConditional = false) : S.tag i = .keyword .ifKw ↔ f.opensConditional = true := by
    rw [hi, hf]
    exact iff_of_false ht Bool.false_ne_true
  have named {x : Ident} (hx : S.NameAt i x) : S.tag i ≠ .keyword .ifKw :=
    Setting.ne_of_contains (Setting.tag_of_name hx.1) (by decide)
  cases h with
  | conditional h _ _ _ _ _ => exact iff_of_true h rfl
  | literal hv _ => rcases Setting.tag_of_literal hv with h | h | h <;> exact other h (by decide) rfl
  | name h _ | path h _ => exact other rfl (named h.head) rfl
  | tuple h _ _ _ | array h _ _ _ | matchOn h _ _ _ _ _ | returns h _ _ _ | returnsNothing h _ _ =>
    exact other h (by decide) rfl
  | lambda h _ _ _ _ | thunk h _ _ => exact other (by rw [← S.tag_kind, h]) (by decide) rfl

theorem ApplicationAt.opensConditional_iff {c b i e j} (h : ApplicationAt S c b i e j) :
    S.tag i = .keyword .ifKw ↔ e.opensConditional = true := by
  cases h with
  | bare h _ | types _ h _ _ | plain _ h _ _ _ | block _ h _ _ _ _ => exact h.opensConditional_iff

theorem ChainAt.opensConditional_iff {c b i e j} (h : ChainAt S c b i e j) :
    S.tag i = .keyword .ifKw ↔ e.opensConditional = true := by
  refine ChainAt.induct (motive := fun e _ => S.tag i = .keyword .ifKw ↔ e.opensConditional = true)
    (fun first => first.opensConditional_iff) (fun before _ _ => before) h

/-- The first token of an expression tells whether its first word is that of a conditional. -/
theorem ExprAt.opensConditional_iff {c b i e j} (h : ExprAt S c b i e j) :
    S.tag i = .keyword .ifKw ↔ e.opensConditional = true := by
  cases h with
  | binary _ h _ _ _ | arrow _ h _ _ _ | ascription _ h _ _ _ => exact h.opensConditional_iff
  | pi _ h _ _ _ _ _ | sigma _ h _ _ _ _ _ =>
    exact iff_of_false (by rw [h]; exact Tag.noConfusion) Bool.false_ne_true

end

/-! ## Operators, braces and binders -/

theorem Setting.Source.kind_of_operator (s : S.Source) {symbols : String}
    (h : S.operator? c i = some symbols) : S.kind i = operatorKind symbols := by
  unfold Setting.operator? at h
  split at h
  · next hk =>
    cases h
    have other : symbols ≠ Reserved.pipe.text := fun e => s.bars i (e ▸ hk)
    rw [hk, operatorKind, if_neg other]
  · next hk =>
    split at h
    · cases h
    · cases h
      rw [hk, operatorKind, if_pos rfl]
  · cases h

/-- What stands between the braces of lines: each line behind a line break and a line break behind the
last, or nothing if there is nothing to stand there. -/
def Between (T : Setting) (isEmpty : Bool) (lines : List (List Word)) (q k : Nat) : Prop :=
  isEmpty = true ∧ k = q ∨ Spelt T ((lines.flatMap fun ws => .lineBreak :: ws) ++ [.lineBreak]) q k

theorem Spelt.braced {isEmpty : Bool} {lines : List (List Word)}
    (h : Spelt T (Word.braced isEmpty lines) q q') : T.tag q = .punct .openBrace ∧ ∃ k,
      T.tag k = .punct .closeBrace ∧ q' = k + 1 ∧ Between T isEmpty lines (q + 1) k := by
  cases isEmpty with
  | true => exact ⟨h.tag, q + 1, h.tail.tag, h.tail.tail, .inl ⟨rfl, rfl⟩⟩
  | false =>
    obtain ⟨l, front, back⟩ := Spelt.append.1 h
    exact ⟨front.tag, l + 1, back.tail.tag, back.tail.tail,
      .inr (Spelt.append.2 ⟨l, front.tail, back.1, rfl⟩)⟩

/-- The end of the lines. -/
theorem Between.nil {isEmpty : Bool} (h : Between T isEmpty [] q k)
    (close : T.tag k = .punct .closeBrace) : T.past q = k := by
  rcases h with ⟨-, rfl⟩ | h
  · exact T.past_of_tag close Tag.noConfusion
  · obtain ⟨lineBreak, rfl⟩ := h.one
    rw [Setting.past_of_lineBreak lineBreak, T.past_of_tag close Tag.noConfusion]

/-- The first line and the others. -/
theorem Between.cons {ws : List Word} {lines : List (List Word)}
    (h : Between T false (ws :: lines) q k) : T.tag q = .lineBreak ∧ ∃ l,
      Spelt T ws (q + 1) l ∧ T.tag l = .lineBreak ∧ ∀ isEmpty, Between T isEmpty lines l k := by
  rcases h with ⟨none, -⟩ | h
  · cases none
  · rw [List.flatMap_cons, List.append_assoc] at h
    have front := h.tag
    obtain ⟨l, line, rest⟩ := Spelt.append.1 h.tail
    refine ⟨front, l, line, ?_, fun _ => .inr rest⟩
    cases lines with
    | nil => exact rest.tag
    | cons _ _ => exact rest.tag

/-- The position of the first line. -/
theorem past_of_line (h : T.tag q = .lineBreak) (h' : T.tag (q + 1) ≠ .lineBreak) :
    T.past q = q + 1 := by
  rw [Setting.past_of_lineBreak h, Setting.past_of_ne h']

/-- What ends a list before its closing bracket: a comma, if one stands behind the last element. -/
def Trails (T : Setting) (t : Tag) : Bool → Nat → Nat → Prop
  | true, k, l => T.tag k = .punct .comma ∧ T.tag l = t ∧ l = k + 1
  | false, k, l => T.tag l = t ∧ l = k

/-- What stands behind the elements of a list between brackets. -/
def listTags : TagSet := {.punct .closeParen, .punct .closeBracket, .punct .comma}

theorem listTags_proper : ∀ {t : Tag}, listTags.contains t = true →
    endTags.contains t = true ∧ patternTags.contains t = false ∧ t ≠ .lineBreak
      ∧ t ≠ .punct .colon := by
  decide

theorem Setting.Stops.of_listTag (h : listTags.contains (T.tag q) = true) : T.Stops b q :=
  .of_contains h (by decide)

/-- The type of a parameter ends where the parameter does. -/
theorem Follows.of_list {isOpen : Bool} (h : listTags.contains (T.tag q) = true
      ∨ T.tag q = .reserved .pipe ∧ c.pipeSeparates = true ∧ isOpen = false) :
    Follows S T (c.union .type) isOpen j q := by
  rcases h with tag | ⟨bar, separates, closed⟩
  · exact .ends (listTags_proper tag).1
  · exact .bar bar (by simp [Context.union, separates]) closed

/-- An element that ends before a comma or the closing bracket is the last of its list. -/
theorem ExprsAt.one_derived {e : Expr} {tr : Bool} (ht : listTags.contains t = true)
    (comma : t ≠ .punct .comma) (ends : Trails T t tr k l)
    (h : listTags.contains (T.tag k) = true → ExprAt T c b q e k) :
    ExprsAt T t c b q [e] tr l := by
  cases tr with
  | true =>
    obtain ⟨tag, tag', rfl⟩ := ends
    have next : T.next b k = k + 1 := T.next_of_tag tag' (listTags_proper ht).2.2.1
    have nothing : ExprsAt T t c b (T.next b k) [] false (k + 1) := next.symm ▸ .none tag'
    exact .more (h (by rw [tag]; decide)) tag nothing
  | false =>
    obtain ⟨tag, rfl⟩ := ends
    exact .last (h (by rwa [tag])) tag (by rwa [tag])

/-- A parameter that ends before the bracket or the bar behind the parameters is the last. -/
theorem ParamsAt.one_derived {p : Param} {isOpen : Bool} (tag : T.tag k = t)
    (ht : listTags.contains t = true ∧ t ≠ .punct .comma ∨ t = .reserved .pipe
      ∧ c.pipeSeparates = true ∧ isOpen = false)
    (h : listTags.contains (T.tag k) = true ∨ T.tag k = .reserved .pipe ∧ c.pipeSeparates = true
      ∧ isOpen = false → T.Stops b k → ParamAt T c b q p k) : ParamsAt T t c b q [p] false k := by
  subst tag
  rcases ht with ⟨tag, comma⟩ | ⟨tag, closed⟩
  · exact .last (h (.inl tag) (.of_listTag tag)) rfl comma
  · exact .last (h (.inr ⟨tag, closed⟩) (.of_tag tag (by decide))) rfl (by rw [tag]; decide)

theorem ExprsAt.ne_nil {es : List Expr} {tr : Bool} (h : ExprsAt S t c b i es tr j) (some : tr = true) :
    es ≠ [] := by
  rintro rfl
  cases h with
  | none _ => cases some

/-- Parameters before an arrow, from their group on. -/
theorem binder_derived (t : T.Lenient) {p : Punct} {c : Context} {ps : List Param} {e : Expr}
    (hp : closeOf? (T.tag q) = some p) (params : ParamsAt T (.punct p) c true (q + 1) ps false k)
    (some : ps ≠ []) (close : T.tag k = .punct p) (arrow : T.tag (k + 1) = .reserved .arrow)
    {c' : Context} (codomain : ExprAt T c' b (k + 1 + 1) e q') :
    T.binds b q = true ∧ T.next true q = q + 1 ∧ T.next b k = k + 1
      ∧ T.past (T.next b (T.next b k)) = k + 1 + 1 := by
  have next : T.next b k = k + 1 := T.next_of_tag arrow Tag.noConfusion
  have inside : T.next true q = q + 1 := T.next_eq fun _ => params.ne_lineBreak Tag.noConfusion
  refine ⟨?_, inside, next, ?_⟩
  · exact ParamsAt.binds t.groups t.sound hp (inside.symm ▸ params) some close (next.symm ▸ arrow)
  · rw [next, codomain.starts.next, codomain.starts.past]

/-! ## Expressions and statements -/

mutual

theorem ExprAt.again (s : S.Source) (t : T.Lenient) {c b i e j} {q q' : Nat} : ExprAt S c b i e j →
    Spelt T e.words q q' → Follows S T c e.endsOpen j q' → T.Stops b q' → (∀ x ∈ e.details, x.Kept) → ExprAt T c b q e.pruned q'
  | .binary _ h op arrow colon, hw, hf, stops, hc => by
    have chain := h.again s t hw hf stops hc
    have no := hf.ne arrow (.inl rfl)
    exact .binary (chain.binds_eq_false t.groups t.sound (.inl no)) chain (hf.operator op) no
      (hf.ne colon (.inr rfl))
  | .arrow _ h arrow h' _, hw, hf, stops, hc => by
    obtain ⟨group, hc⟩ := List.forall_mem_cons.1 hc
    obtain ⟨hc, hc'⟩ := List.forall_mem_append.1 hc
    obtain ⟨k, hd, rest⟩ := Spelt.append.1 hw
    have here : T.tag k = .reserved .arrow := rest.tag
    have codomain := h'.again s t rest.tail hf stops hc'
    have domain := h.again s t hd (.of_tag TokenKind.eq_reserved arrow here (by decide))
      (.of_tag here (by decide)) hc
    have group := (Expr.isGroup_pruned _).trans group
    refine .arrow (domain.binds_eq_false t.groups t.sound (.inr group)) domain here ?_ (t.covers _ _)
    rwa [codomain.starts.next, codomain.starts.past]
  | .ascription _ h colon h' _, hw, hf, stops, hc => by
    obtain ⟨hc, hc'⟩ := List.forall_mem_append.1 hc
    obtain ⟨k, hv, rest⟩ := Spelt.append.1 hw
    have here : T.tag k = .punct .colon := rest.tag
    have type := h'.again s t rest.tail hf.type stops hc'
    have value := h.again s t hv (.of_tag TokenKind.eq_punct colon here Tag.noConfusion)
      (.of_tag here (by decide)) hc
    refine .ascription (value.binds_eq_false t.groups t.sound (.inl ?_)) value here ?_ (t.covers _ _)
    · rw [here]
      exact Tag.noConfusion
    · rwa [type.starts.next]
  | .pi binds open' h close arrow h' _, hw, hf, stops, hc => by
    obtain ⟨hc, hc'⟩ := List.forall_mem_append.1 hc
    obtain ⟨k, front, rest⟩ := Spelt.append.1 hw
    have here : T.tag q = .punct .openParen := front.tag
    have codomain := h'.again s t rest.tail.tail hf stops hc'
    have params := h.again s t rest.tag (.inl ⟨by decide, by decide⟩) front.tail hc
    have some := Param.allPruned_ne_nil (h.ne_nil s.groups (by rw [open']; rfl) close binds)
    obtain ⟨sees, inside, next, past⟩ := binder_derived (b := b) t (by rw [here]; rfl) params some
      rest.tag rest.tail.tag codomain
    refine .pi sees here (inside.symm ▸ params) rest.tag (next.symm ▸ rest.tail.tag) ?_ (t.covers _ _)
    rwa [past]
  | .sigma binds open' h close arrow h' _, hw, hf, stops, hc => by
    obtain ⟨hc, hc'⟩ := List.forall_mem_append.1 hc
    obtain ⟨k, front, rest⟩ := Spelt.append.1 hw
    have here : T.tag q = .punct .openBracket := front.tag
    have codomain := h'.again s t rest.tail.tail hf stops hc'
    have params := h.again s t rest.tag (.inl ⟨by decide, by decide⟩) front.tail hc
    have some := Param.allPruned_ne_nil (h.ne_nil s.groups (by rw [open']; rfl) close binds)
    obtain ⟨sees, inside, next, past⟩ := binder_derived (b := b) t (by rw [here]; rfl) params some
      rest.tag rest.tail.tag codomain
    refine .sigma sees here (inside.symm ▸ params) rest.tag (next.symm ▸ rest.tail.tag) ?_ (t.covers _ _)
    rwa [past]

theorem ChainAt.again (s : S.Source) (t : T.Lenient) {c b i e j} {q q' : Nat} : ChainAt S c b i e j →
    Spelt T e.words q q' → Follows S T c e.endsOpen j q' → T.Stops b q' → (∀ x ∈ e.details, x.Kept) → ChainAt T c b q e.pruned q'
  | .one h, hw, hf, stops, hc => .one (h.again s t hw hf stops hc)
  | .more h op _ h' _, hw, hf, stops, hc => by
    obtain ⟨hc, hc'⟩ := List.forall_mem_append.1 hc
    obtain ⟨k, hl, rest⟩ := Spelt.append.1 hw
    have kind := rest.kind.trans (s.kind_of_operator op).symm
    have op' := (Setting.operator?_congr kind).trans op
    have proper : T.Stops b k := by
      rcases Setting.tag_of_operator op' with tag | tag <;> exact .of_tag tag (by decide)
    have dot := proper.dot
    rw [← T.tag_kind, kind, S.tag_kind] at dot
    have right := h'.again s t rest.tail hf stops hc'
    refine .more (h.again s t hl (.same kind dot) proper hc) op' (t.covers _ _) ?_ (t.covers _ _)
    rwa [right.starts.next, right.starts.past]

theorem ApplicationAt.again (s : S.Source) (t : T.Lenient) {c b i e j} {q q' : Nat} :
    ApplicationAt S c b i e j → Spelt T e.words q q' → Follows S T c e.endsOpen j q' → T.Stops b q' → (∀ x ∈ e.details, x.Kept) →
    ApplicationAt T c b q e.pruned q'
  | .bare h no, hw, hf, stops, hc => .bare (h.again s t hw hf stops hc) (hf.args no)
  | .types inType h as _, hw, hf, stops, hc => by
    obtain ⟨hc, hc'⟩ := List.forall_mem_append.1 hc
    obtain ⟨k, callee, hargs⟩ := Spelt.append.1 hw
    have args := as.again s t hargs hf stops hc'
    have callee := h.again s t callee (.argument as.tag args.tag)
      (.of_contains args.tag (by decide)) hc
    exact .types inType callee args (t.covers _ _)
  | .plain notType h as no _, hw, hf, stops, hc => by
    obtain ⟨hc, hc'⟩ := List.forall_mem_append.1 hc
    obtain ⟨hc', -⟩ := List.forall_mem_append.1 hc'
    obtain ⟨_, hw, rfl⟩ := Spelt.append.1 hw
    obtain ⟨k, callee, hargs⟩ := Spelt.append.1 hw
    have args := as.again s t hargs hf stops hc'
    have callee := h.again s t callee (.argument as.tag args.tag)
      (.of_contains args.tag (by decide)) hc
    exact .plain notType callee args (hf.block no) (t.covers _ _)
  | .block notType h as next h' _, hw, hf, stops, hc => by
    obtain ⟨hc, hc'⟩ := List.forall_mem_append.1 hc
    obtain ⟨hc', hc''⟩ := List.forall_mem_append.1 hc'
    obtain ⟨l, hw, hblock⟩ := Spelt.append.1 hw
    obtain ⟨k, callee, hargs⟩ := Spelt.append.1 hw
    have block := h'.again s t hblock stops hc''
    have args := as.again s t hargs (.of_tag TokenKind.eq_punct next.2 block.tag Tag.noConfusion)
      (.of_tag block.tag (by decide)) hc'
    have callee := h.again s t callee (.argument as.tag args.tag)
      (.of_contains args.tag (by decide)) hc
    exact .block notType callee args ⟨next.1, block.tag⟩ block (t.covers _ _)

theorem ArgsAt.again (s : S.Source) (t : T.Lenient) {c b i es j} {q q' : Nat} : ArgsAt S c b i es j →
    Spelt T (Expr.wordLists es).flatten q q' → Follows S T c (Expr.lastEndsOpen es) j q' →
    T.Stops b q' → (∀ x ∈ Expr.allDetails es, x.Kept) → ArgsAt T c b q (Expr.allPruned es) q'
  | .stop no, hw, hf, _, _ => by
    cases hw
    exact .stop (hf.args no)
  | @ArgsAt.more _ _ _ _ e m es _ tag h hs, hw, hf, stops, hc => by
    obtain ⟨hc, hc'⟩ := List.forall_mem_append.1 hc
    obtain ⟨k, he, hes⟩ := Spelt.append.1 hw
    have rest (hf : Follows S T _ (Expr.lastEndsOpen es) _ q') := hs.again s t hes hf stops hc'
    have isArgument : e.isArgument = true := h.isArgument_eq.symm.trans tag
    have first (hf : Follows S T _ e.endsOpen m k) (stops : T.Stops b k) :
        Inner.argumentTags.contains (T.tag q) = true ∧ PrimaryAt T _ b q e.pruned k :=
      have again := h.again s t he hf stops hc
      ⟨again.isArgument_eq.trans (e.isArgument_pruned.trans isArgument), again⟩
    cases es with
    | nil =>
      cases hes
      cases hs with
      | stop _ => exact .more (first hf stops).1 (first hf stops).2 (rest hf.closed)
    | cons a as =>
      have rest := rest hf
      have first := first (.argument hs.tag rest.tag) (.of_contains rest.tag (by decide))
      exact .more first.1 first.2 rest

theorem PrimaryAt.again (s : S.Source) (t : T.Lenient) {c b i e j} {q q' : Nat} : PrimaryAt S c b i e j →
    Spelt T e.words q q' → Follows S T c e.endsOpen j q' → T.Stops b q' → (∀ x ∈ e.details, x.Kept) → PrimaryAt T c b q e.pruned q'
  | .literal (v := v) (m := m) _ _, hw, _, stops, _ => by
    have literal : (T.kind q).literal? = some v := by rw [hw.kind]; exact literal?_kind v
    obtain ⟨-, rfl⟩ := hw.one
    have again := PrimaryAt.literal (c := c) (b := b) (m := m) literal (t.covers _ _)
    rwa [stops.next] at again
  | .name (x := x) _ _, hw, _, stops, _ =>
    .name (Path.derived t (p := ⟨x, []⟩) hw stops) (t.covers _ _)
  | .path _ _, hw, _, stops, _ => .path (Path.derived t hw stops) (t.covers _ _)
  | @PrimaryAt.tuple _ _ _ _ m _ tr _ _ h _ _, hw, _, stops, hc => by
    obtain ⟨l, front, close, rfl⟩ := hw.snoc
    obtain ⟨k, front, trails⟩ := Spelt.append.1 front
    have here : T.tag q = .punct .openParen := front.tag
    have ends : Trails T (.punct .closeParen) tr k l := by
      cases tr with
      | true =>
        obtain ⟨comma, rfl⟩ := trails.one
        exact ⟨comma, close, rfl⟩
      | false =>
        cases trails
        exact ⟨close, rfl⟩
    have elements := h.again s t ⟨by decide, by decide⟩ front.tail ends h.ne_nil hc
    have inside : T.next true q = q + 1 := T.next_eq fun _ => elements.ne_lineBreak Tag.noConfusion
    have again := PrimaryAt.tuple (b := b) (m := m) here (inside.symm ▸ elements) close (t.covers _ _)
    rwa [stops.next] at again
  | .array (m := m) _ h _ _, hw, _, stops, hc => by
    obtain ⟨l, front, close, rfl⟩ := hw.snoc
    have here : T.tag q = .punct .openBracket := front.tag
    have ends : Trails T (.punct .closeBracket) false l l := ⟨close, rfl⟩
    have elements := h.again s t ⟨by decide, by decide⟩ front.tail ends nofun hc
    have inside : T.next true q = q + 1 := T.next_eq fun _ => elements.ne_lineBreak Tag.noConfusion
    have again := PrimaryAt.array (b := b) (m := m) here (inside.symm ▸ elements) close (t.covers _ _)
    rwa [stops.next] at again
  | .conditional word h h' _ h'' _, hw, hf, stops, hc => by
    obtain ⟨hc, hc'⟩ := List.forall_mem_append.1 hc
    obtain ⟨hc', hc''⟩ := List.forall_mem_append.1 hc'
    obtain ⟨l, front, back⟩ := Spelt.append.1 hw
    obtain ⟨k, hhead, hthen⟩ := Spelt.append.1 front
    have word' : T.tag l = .keyword .elseKw := back.tag
    have body := h''.again s t back.tail hf stops hc''
    have branch := h'.again s t hthen (.ends (by rw [word']; decide)) (.of_tag word' (by decide)) hc'
    have head := h.again s t hhead.tail (h'.follows branch) branch.stops hc
    refine .conditional hhead.tag (head.starts.next.symm ▸ head) branch (.of_tag word') ?_ (t.covers _ _)
    rwa [T.past_of_tag word' Tag.noConfusion, T.next_eq fun _ => body.ne_lineBreak]
  | .matchOn (m := m) word h brace h' _ _, hw, hf, stops, hc => by
    obtain ⟨hc, hc'⟩ := List.forall_mem_append.1 hc
    obtain ⟨k, hhead, hbraced⟩ := Spelt.append.1 hw
    obtain ⟨open', l, close, rfl, inside⟩ := hbraced.braced
    have head := h.again s t hhead.tail (.of_tag TokenKind.eq_punct brace open' Tag.noConfusion)
      (.of_tag open' (by decide)) hc
    have arms := h'.again s t inside close hc'
    have again := PrimaryAt.matchOn (b := b) (m := m) hhead.tag (head.starts.next.symm ▸ head) open' arms
      close (t.covers _ _)
    rwa [stops.next] at again
  | .returns _ _ h _, hw, hf, stops, hc => by
    have value := h.again s t hw.tail hf stops hc
    have next := value.starts.next (b := b)
    exact .returns hw.tag (next.symm ▸ value.starts) (next.symm ▸ value) (t.covers _ _)
  | .returnsNothing (m := m) _ no _, hw, hf, stops, _ => by
    obtain ⟨word, rfl⟩ := hw.one
    have next := stops.next
    have again := PrimaryAt.returnsNothing (c := c) (b := b) (m := m) word
      (next.symm ▸ hf.starts no) (t.covers _ _)
    rwa [next] at again
  | @PrimaryAt.lambda _ _ _ _ _ ps _ _ _ _ _ h _ h' _, hw, hf, stops, hc => by
    obtain ⟨hopen, hc⟩ := List.forall_mem_cons.1 hc
    obtain ⟨close, close'⟩ := List.forall_mem_append.1 hc
    have params {k : Nat} (bar : T.tag k = .reserved .pipe)
        (hw : Spelt T (Word.commas (Param.wordLists ps)) (q + 1) k) := h.again s t bar
      (.inr ⟨rfl, by simp [Context.union, Context.lambdaParams], hopen⟩) hw close
    have body {k : Nat} (hw : Spelt T (Expr.words _) (k + 1) q') :=
      h'.again s t hw hf.lambda stops close'
    cases ps with
    | nil => exact .thunk hw.kind ((body hw.tail).starts.next.symm ▸ body hw.tail) (t.covers _ _)
    | cons p ps =>
      obtain ⟨k, front, back⟩ := Spelt.append.1 hw
      have params := params back.tag front.tail
      have body := body back.tail
      have next : T.next b q = q + 1 := T.next_eq fun _ => params.ne_lineBreak (by decide)
      exact .lambda front.kind (next.symm ▸ params) back.tag (body.starts.next.symm ▸ body)
        (t.covers _ _)
  | .thunk _ h _, hw, hf, stops, hc => by
    have body := h.again s t hw.tail hf.lambda stops (List.forall_mem_cons.1 hc).2
    exact .thunk hw.kind (body.starts.next.symm ▸ body) (t.covers _ _)

theorem ExprsAt.again (s : S.Source) (t : T.Lenient) {u c b i es tr₀ tr j} {q k l : Nat} :
    ExprsAt S u c b i es tr₀ j → listTags.contains u = true ∧ u ≠ .punct .comma →
    Spelt T (Word.commas (Expr.wordLists es)) q k → Trails T u tr k l → (tr = true → es ≠ []) →
    (∀ x ∈ Expr.allDetails es, x.Kept) → ExprsAt T u c b q (Expr.allPruned es) tr l
  | .none _, _, hw, ends, more, _ => by
    cases hw
    cases tr with
    | true => exact absurd rfl (more rfl)
    | false =>
      obtain ⟨tag, rfl⟩ := ends
      exact .none tag
  | .last h _ _, hu, hw, ends, _, hc =>
    .one_derived hu.1 hu.2 ends fun tag => h.again s t hw (.ends (listTags_proper tag).1)
      (.of_listTag tag) (List.forall_mem_append.1 hc).1
  | @ExprsAt.more _ _ _ _ _ _ _ es _ _ h _ hs, hu, hw, ends, _, hc => by
    obtain ⟨close, hc'⟩ := List.forall_mem_append.1 hc
    have others {m : Nat} (hw : Spelt T (Word.commas (Expr.wordLists es)) m k)
        (more : tr = true → es ≠ []) := hs.again s t hu hw ends more hc'
    cases es with
    | nil =>
      exact .one_derived hu.1 hu.2 ends fun tag =>
        h.again s t hw (.ends (listTags_proper tag).1) (.of_listTag tag) close
    | cons e es =>
      obtain ⟨m, hw, rest⟩ := Spelt.append.1 hw
      have comma : T.tag m = .punct .comma := rest.tag
      have others := others rest.tail fun _ => List.cons_ne_nil _ _
      have next : T.next b m = m + 1 :=
        T.next_eq fun _ => others.ne_lineBreak (listTags_proper hu.1).2.2.1
      have first := h.again s t hw (.ends (by rw [comma]; decide)) (.of_tag comma (by decide)) close
      have all : ExprsAt T u c b q _ (tr || false) l := .more first comma (next.symm ▸ others)
      rwa [Bool.or_false] at all

theorem ParamsAt.again (s : S.Source) (t : T.Lenient) {u c b i ps tr j} {q k : Nat} :
    ParamsAt S u c b i ps tr j → T.tag k = u →
    listTags.contains u = true ∧ u ≠ .punct .comma ∨ u = .reserved .pipe ∧ c.pipeSeparates = true
      ∧ ps.getLast?.any Param.endsOpen = false →
    Spelt T (Word.commas (Param.wordLists ps)) q k → (∀ x ∈ Param.allDetails ps, x.Kept) →
    ParamsAt T u c b q (Param.allPruned ps) false k
  | .none _, tag, _, hw, _ => by
    cases hw
    exact .none tag
  | .last h _ _, tag, hu, hw, hc =>
    .one_derived tag hu fun ends stops => h.again s t hw ends stops (List.forall_mem_append.1 hc).1
  | @ParamsAt.more _ _ _ _ _ _ _ ps _ _ h _ hs, tag, hu, hw, hc => by
    obtain ⟨close, hc'⟩ := List.forall_mem_append.1 hc
    have others {m : Nat} (hu : listTags.contains u = true ∧ u ≠ .punct .comma ∨ u = .reserved .pipe
        ∧ c.pipeSeparates = true ∧ ps.getLast?.any Param.endsOpen = false)
        (hw : Spelt T (Word.commas (Param.wordLists ps)) m k) := hs.again s t tag hu hw hc'
    cases ps with
    | nil => exact .one_derived tag hu fun ends stops => h.again s t hw ends stops close
    | cons p ps =>
      obtain ⟨m, hw, rest⟩ := Spelt.append.1 hw
      have comma : T.tag m = .punct .comma := rest.tag
      have others := others (hu.imp_right fun ⟨bar, separates, last⟩ =>
        ⟨bar, separates, by simpa using last⟩) rest.tail
      have ne : u ≠ .lineBreak := by
        rcases hu with ⟨hu, -⟩ | ⟨rfl, -⟩
        · exact (listTags_proper hu).2.2.1
        · decide
      have next : T.next b m = m + 1 := T.next_eq fun _ => others.ne_lineBreak ne
      have first := h.again s t hw (.inl (by rw [comma]; decide)) (.of_tag comma (by decide)) close
      exact .more first comma (next.symm ▸ others)

/-- A parameter before a comma or what ends parameters. -/
theorem ParamAt.again (s : S.Source) (t : T.Lenient) {c b i p j} {q q' : Nat} : ParamAt S c b i p j →
    Spelt T p.words q q' → listTags.contains (T.tag q') = true ∨ T.tag q' = .reserved .pipe
      ∧ c.pipeSeparates = true ∧ p.endsOpen = false → T.Stops b q' → (∀ x ∈ p.details, x.Kept) →
    ParamAt T c b q p.pruned q'
  | .typed _ _ h _, hw, ends, stops, hc => by
    obtain ⟨k, hp, rest⟩ := Spelt.append.1 hw
    have colon : T.tag k = .punct .colon := rest.tag
    have type := h.again s t rest.tail (.of_list ends) stops (List.forall_mem_append.1 hc).2
    have pattern := Pattern.derived t (b := b) _ hp (.of_tag colon (by decide)) (by rw [colon]; decide)
    exact .typed pattern colon (type.starts.next.symm ▸ type) (t.covers _ _)
  | .untyped _ _ _, hw, ends, stops, _ => by
    obtain ⟨k, hp, rest⟩ := Spelt.append.1 hw
    cases rest
    have proper : patternTags.contains (T.tag q') = false ∧ T.tag q' ≠ .punct .colon := by
      rcases ends with tag | ⟨bar, -⟩
      · exact ⟨(listTags_proper tag).2.1, (listTags_proper tag).2.2.2⟩
      · rw [bar]
        decide
    exact .untyped (Pattern.derived t _ hp stops proper.1) proper.2 (t.covers _ _)

theorem ThenAt.again (s : S.Source) (t : T.Lenient) {c b i e j} {q q' : Nat} : ThenAt S c b i e j →
    Spelt T e.thenWords q q' → Follows S T c e.endsOpen j q' → T.Stops b q' → (∀ x ∈ e.details, x.Kept) →
    ThenAt T c b q e.pruned q'
  | .block _ h, hw, _, stops, hc =>
    have block := h.again s t hw stops hc
    .block block.tag block
  | .expr _ h, hw, hf, stops, hc => by
    have value := h.again s t hw.tail hf stops hc
    exact .expr hw.tag (value.starts.next.symm ▸ value)

theorem BodyAt.again (s : S.Source) (t : T.Lenient) {c b i e j} {q q' : Nat} : BodyAt S c b i e j →
    Spelt T e.words q q' → Follows S T c e.endsOpen j q' → T.Stops b q' → (∀ x ∈ e.details, x.Kept) →
    BodyAt T c b q e.pruned q'
  | .block _ h, hw, _, stops, hc =>
    have block := h.again s t hw stops hc
    .block block.tag block
  | .expr _ h, hw, hf, stops, hc =>
    have value := h.again s t hw hf stops hc
    .expr (value.starts.ne (by decide) Tag.noConfusion) value

theorem ArmsAt.again (s : S.Source) (t : T.Lenient) {i as j} {q k : Nat} : ArmsAt S i as j →
    Between T as.isEmpty (Arm.wordLists as) q k → T.tag k = .punct .closeBrace →
    (∀ x ∈ Arm.allDetails as, x.Kept) → ArmsAt T (T.past q) (Arm.allPruned as) k
  | .none, hw, close, _ => by
    rw [hw.nil close]
    exact .none
  | .comma h _ hs, hw, close, hc => by
    obtain ⟨hc, hc'⟩ := List.forall_mem_append.1 hc
    obtain ⟨lineBreak, l, line, -, rest⟩ := hw.cons
    obtain ⟨m, arm, comma, rfl⟩ := h.again s t line hc
    rw [past_of_line lineBreak (tag_of_patternTags arm.starts).2]
    exact .comma arm comma (hs.again s t (rest _) close hc')
  | .broken h _ hs, hw, close, hc => by
    obtain ⟨hc, hc'⟩ := List.forall_mem_append.1 hc
    obtain ⟨lineBreak, l, line, -, rest⟩ := hw.cons
    obtain ⟨m, arm, comma, rfl⟩ := h.again s t line hc
    rw [past_of_line lineBreak (tag_of_patternTags arm.starts).2]
    exact .comma arm comma (hs.again s t (rest _) close hc')
  | .last h _, hw, close, hc => by
    obtain ⟨lineBreak, l, line, -, rest⟩ := hw.cons
    obtain ⟨m, arm, comma, rfl⟩ := h.again s t line (List.forall_mem_append.1 hc).1
    rw [past_of_line lineBreak (tag_of_patternTags arm.starts).2]
    refine .comma arm comma ?_
    rw [show T.next false m = m + 1 from rfl, (rest true).nil close]
    exact .none

/-- An arm and the comma behind it. -/
theorem ArmAt.again (s : S.Source) (t : T.Lenient) {i a j} {q q' : Nat} : ArmAt S i a j →
    Spelt T a.words q q' → (∀ x ∈ a.details, x.Kept) →
    ∃ k, ArmAt T q a.pruned k ∧ T.tag k = .punct .comma ∧ q' = k + 1
  | .mk _ _ h _, hw, hc => by
    obtain ⟨l, front, comma, rfl⟩ := hw.snoc
    obtain ⟨k, hp, rest⟩ := Spelt.append.1 front
    have arrow : T.tag k = .reserved .fatArrow := rest.tag
    have body := h.again s t rest.tail (.ends (by rw [comma]; decide)) (.of_tag comma (by decide))
      (List.forall_mem_append.1 hc).2
    have pattern := Pattern.derived t (b := false) _ hp (.of_tag arrow (by decide)) (by rw [arrow]; decide)
    refine ⟨l, .mk pattern arrow ?_ (t.covers _ _), comma, rfl⟩
    rwa [show T.next false k = k + 1 from rfl, Setting.past_of_ne body.ne_lineBreak]

theorem BlockAt.again (s : S.Source) (t : T.Lenient) {b i e j} {q q' : Nat} : BlockAt S b i e j →
    Spelt T e.words q q' → T.Stops b q' → (∀ x ∈ e.details, x.Kept) → BlockAt T b q e.pruned q'
  | .mk (s := m) _ h _ _, hw, stops, hc => by
    obtain ⟨open', k, close, rfl, inside⟩ := hw.braced
    have stmts := h.again s t inside List.isEmpty_iff.1 close (List.forall_mem_cons.1 hc).2
    have again := BlockAt.mk (b := b) (s := m) open' stmts close (t.covers _ _)
    rwa [stops.next] at again

theorem StmtsAt.again (s : S.Source) (t : T.Lenient) {i ss j} {isEmpty : Bool} {q k : Nat} :
    StmtsAt S i ss j → Between T isEmpty (Stmt.wordLists ss) q k → (isEmpty = true → ss = []) →
    T.tag k = .punct .closeBrace → (∀ x ∈ Stmt.allDetails ss, x.Kept) →
    StmtsAt T (T.past q) (Stmt.allPruned ss) k
  | .none, hw, _, close, _ => by
    rw [hw.nil close]
    exact .none
  | .more h _ hs, hw, empty, close, hc => by
    obtain ⟨hc, hc'⟩ := List.forall_mem_append.1 hc
    obtain rfl : isEmpty = false := Bool.eq_false_iff.2 fun none => List.cons_ne_nil _ _ (empty none)
    have read : ¬ _ = true := Bool.eq_false_iff.1 h.isError_eq
    rw [Stmt.wordLists, if_neg read] at hw
    obtain ⟨lineBreak, l, line, ends, rest⟩ := hw.cons
    have others := hs.again s t (rest _) List.isEmpty_iff.1 close hc'
    have no : ¬ T.ElseNext l := fun no => others.ne_else t.sound close no.past
    have first := h.again s t rfl line ends no hc
    rw [past_of_line lineBreak (ne_of_not_behind first.not_behind (by decide)), Stmt.allPruned,
      if_neg read]
    exact .more first (by rw [ends]; decide) others
  | .error _ _ _ hs, hw, empty, close, hc =>
    hs.again s t hw (fun none => absurd (empty none) (List.cons_ne_nil _ _)) close hc

/-- A statement that ends its line. -/
theorem StmtAt.again (s : S.Source) (t : T.Lenient) {c b i e j} {q q' : Nat} : StmtAt S c b i e j →
    b = false → Spelt T e.words q q' → T.tag q' = .lineBreak → ¬ T.ElseNext q' →
    (∀ x ∈ e.details, x.Kept) → StmtAt T c b q e.pruned q'
  | .letIn _ _ _ h _, hb, hw, ends, _, hc => by
    obtain ⟨k, hp, rest⟩ := Spelt.append.1 hw
    have sign : T.tag k = .reserved .eq := rest.tag
    have value := h.again s t rest.tail (.ends (by rw [ends]; decide)) (.of_line hb ends)
      (List.forall_mem_append.1 hc).2
    have pattern := Pattern.derived t (b := b) _ hp.tail (.of_tag sign (by decide)) (by rw [sign]; decide)
    exact .letIn hp.tag ((T.next_line hb q).symm ▸ pattern) sign ((T.next_line hb k).symm ▸ value)
      (t.covers _ _)
  | .conditional _ h h' _ _, hb, hw, ends, no, hc => by
    obtain ⟨hc, hc'⟩ := List.forall_mem_append.1 hc
    obtain ⟨l, hw, rest⟩ := Spelt.append.1 hw
    cases rest
    obtain ⟨k, hhead, hthen⟩ := Spelt.append.1 hw
    have branch := h'.again s t hthen (.ends (by rw [ends]; decide)) (.of_line hb ends)
      (List.forall_mem_append.1 hc').1
    have head := h.again s t hhead.tail (h'.follows branch) branch.stops hc
    exact .conditional hhead.tag (head.starts.next.symm ▸ head) branch no (t.covers _ _)
  | .branches _ h h' _ h'' _, hb, hw, ends, _, hc => by
    obtain ⟨hc, hc'⟩ := List.forall_mem_append.1 hc
    obtain ⟨hc', hc''⟩ := List.forall_mem_append.1 hc'
    obtain ⟨l, hw, back⟩ := Spelt.append.1 hw
    obtain ⟨k, hhead, hthen⟩ := Spelt.append.1 hw
    have word : T.tag l = .keyword .elseKw := back.tag
    have body := h''.again s t back.tail (.ends (by rw [ends]; decide)) (.of_line hb ends) hc''
    have branch := h'.again s t hthen (.ends (by rw [word]; decide)) (.of_tag word (by decide)) hc'
    have head := h.again s t hhead.tail (h'.follows branch) branch.stops hc
    refine .branches hhead.tag (head.starts.next.symm ▸ head) branch (.of_tag word) ?_ (t.covers _ _)
    rwa [T.past_of_tag word Tag.noConfusion, T.next_line hb]
  | .ask _ _ _ _ _ h _, hb, hw, ends, _, hc => by
    obtain ⟨k, hp, rest⟩ := Spelt.append.1 hw
    have arrow : T.tag k = .reserved .leftArrow := rest.tag
    have value := h.again s t rest.tail (.ends (by rw [ends]; decide)) (.of_line hb ends)
      (List.forall_mem_append.1 hc).2
    have pattern := Pattern.derived t (b := b) _ hp (.of_tag arrow (by decide)) (by rw [arrow]; decide)
    have ne {w : Keyword} : T.tag q ≠ .keyword w := fun e => by
      have starts := pattern.starts
      rw [e] at starts
      cases w <;> exact absurd starts (by decide)
    refine .ask ne ne (PatternAt.ahead t.groups (hb ▸ pattern) arrow) pattern arrow ?_ (t.covers _ _)
    rwa [value.starts.next, value.starts.past]
  | .expr _ noIf _ h _, hb, hw, ends, _, hc => by
    have value := h.again s t hw (.ends (by rw [ends]; decide)) (.of_line hb ends) hc
    refine .expr (value.starts.ne (by decide) (by decide)) ?_ ?_ value (t.covers _ _)
    · intro word
      have opens := value.opensConditional_iff.1 word
      rw [Expr.opensConditional_pruned] at opens
      exact noIf (h.opensConditional_iff.2 opens)
    · exact value.not_ahead t.groups t.sound (by decide) (by rw [ends]; decide)

end

end Grammar

end Surface
