import Surface.Proofs.Lexing.Tiling
import Surface.Proofs.Parsing.Clear

/-!
# Where lines go on

A line break ends what stands before it, unless it stands in a group or the line goes on behind it:
behind an operator or an arrow, and before `else`. What the rules derive where line breaks carry meaning
is therefore not broken by one; the members of a type are not broken by one with a semicolon in it.

Results:
* `Tokens.goesOn`, `Tokens.semicolonIn`: line breaks behind which the line goes on, and semicolons that
  stand directly in a group.
* `Unbroken`: no line break of some sort between two positions ends a line; `Unbroken.goesOn` says so of
  the tokens.
* `ExprAt.endsAt`, `CtorAt.endsAt`: the line does not go on behind an expression or a constructor.
* `ExprAt.unbroken`, `CtorAt.unbroken` and their likes: what the rules derive is not broken.
* `Setting.apart_of_kinds`: in a stream that has been lexed no line break follows another.
-/

namespace Surface

namespace Tokens

/-- The tags that stand at the end of a line that goes on. -/
def joinTags : List Tag := [.operator, .reserved .pipe, .reserved .arrow]

/-- Whether the line goes on behind a line break: it ends with an operator or an arrow, or the next line
starts with `else`. -/
def goesOn (ts : Tokens) (i : Nat) : Bool :=
  joinTags.contains (ts.tag (i - 1)) || ts.tag (i + 1) == .keyword .elseKw

/-- Whether at `i` stands a line break with a semicolon in it, directly in the group that opens at
`k`. -/
def semicolonIn (ts : Tokens) (k i : Nat) : Bool :=
  decide (k < i) && ts.tag i == .lineBreak && (ts.get i).spacing.contains Spacing.hasSemicolon
    && Groups.nests [] ((Groups.tagsOf ts).extract (k + 1) i)

end Tokens

namespace Grammar

open Tokens (joinTags)

variable {S : Setting} {B : Nat → Prop} {b b' : Bool} {t : Tag} {i j k l x : Nat}

/-! ## Tags between two positions -/

theorem Setting.le_length {x : Nat} (h : S.tag x ≠ .eof) :
    x ≤ (Groups.tagsOf S.input.tokens).length := by
  rw [Groups.length_tagsOf]
  exact Nat.le_of_lt (Tokens.lt_size_of_tag_ne_eof h)

/-- The first of the tags between two positions. -/
theorem Setting.extract_cons (lt : i < x) (hx : x ≤ (Groups.tagsOf S.input.tokens).length) :
    (Groups.tagsOf S.input.tokens).extract i x
      = S.tag i :: (Groups.tagsOf S.input.tokens).extract (i + 1) x := by
  have first : (Groups.tagsOf S.input.tokens)[i]? = some (S.tag i) := by
    have inside : i < (Groups.tagsOf S.input.tokens).length := Nat.lt_of_lt_of_le lt hx
    have tag : S.tag i = _ := Groups.tag_eq _ i
    rw [List.getElem?_eq_getElem inside] at tag ⊢
    rw [tag, Option.getD_some]
  obtain ⟨n, rfl⟩ := Nat.exists_eq_add_of_lt lt
  rw [List.extract_eq_take_drop, List.extract_eq_take_drop, List.drop_eq_getElem?_toList_append, first,
    show i + n + 1 - i = n + 1 by omega, show i + n + 1 - (i + 1) = n by omega]
  rfl

namespace Balanced

/-- Brackets that nest between two positions make no difference to what stands behind them. -/
theorem nests_extract (h : Balanced S i k) (le : k ≤ x) (hx : x ≤ (Groups.tagsOf S.input.tokens).length)
    (awaited : List Punct) : Groups.nests awaited ((Groups.tagsOf S.input.tokens).extract i x)
      = Groups.nests awaited ((Groups.tagsOf S.input.tokens).extract k x) := by
  obtain ⟨inside, split, same⟩ := h.nests
  have length := congrArg List.length split
  have within := h.le
  rw [List.length_append, List.length_drop, List.length_drop] at length
  have parts : x - i = inside.length + (x - k) := by omega
  rw [List.extract_eq_take_drop, List.extract_eq_take_drop, split, parts, List.take_length_add_append,
    same]

/-- Brackets that nest between two positions nest there. -/
theorem nests_between (h : Balanced S i k) (hk : k ≤ (Groups.tagsOf S.input.tokens).length) :
    Groups.nests [] ((Groups.tagsOf S.input.tokens).extract i k) = true := by
  rw [h.nests_extract (Nat.le_refl k) hk, List.extract_eq_take_drop, Nat.sub_self]
  rfl

/-- Up to a position between them, brackets that nest close no group that was open before. -/
theorem not_nests_extract (h : Balanced S i k) (low : i ≤ x) (high : x ≤ k)
    (hx : x ≤ (Groups.tagsOf S.input.tokens).length) (p : Punct) (awaited : List Punct) :
    Groups.nests (p :: awaited) ((Groups.tagsOf S.input.tokens).extract i x) = false := by
  have here {i : Nat} (p : Punct) (awaited : List Punct) :
      Groups.nests (p :: awaited) ((Groups.tagsOf S.input.tokens).extract i i) = false := by
    rw [List.extract_eq_take_drop, Nat.sub_self, List.take_zero]
    rfl
  induction h generalizing p awaited with
  | done =>
    obtain rfl : x = _ := Nat.le_antisymm high low
    exact here p awaited
  | @plain i k plain _ ih =>
    rcases Nat.eq_or_lt_of_le low with rfl | lt
    · exact here p awaited
    · obtain ⟨opens, closes⟩ := Bool.or_eq_false_iff.1 plain
      rw [Setting.extract_cons lt hx, Groups.nests_other (by simp [opens]) (by simp [closes])]
      exact ih lt high p awaited
  | @group i m k q hi inside hm _ ih ih' =>
    rcases Nat.eq_or_lt_of_le low with rfl | lt
    · exact here p awaited
    · rw [Setting.extract_cons lt hx, Groups.nests_opener hi]
      rcases Nat.lt_or_ge m x with behind | within
      · rw [inside.nests_extract (Nat.le_of_lt behind) hx, Setting.extract_cons behind hx, hm,
          Groups.nests_closer (Groups.isCloser_of_closing hi), beq_self_eq_true, Bool.true_and]
        exact ih' behind high p awaited
      · exact ih lt within q (p :: awaited)

end Balanced

/-! ## Lines that are not broken -/

/-- No line break follows another. -/
def Setting.Apart (S : Setting) : Prop := ∀ i, S.tag i = .lineBreak → S.tag (i + 1) ≠ .lineBreak

/-- In a stream that has been lexed no line break follows another. -/
theorem Setting.apart_of_kinds
    (h : (S.input.tokens.items.toList.map Token.kind).IsChain Surface.Apart) : S.Apart := by
  intro i first second
  have kind {i : Nat} (line : S.tag i = .lineBreak) :
      (S.input.tokens.items.toList.map Token.kind)[i]? = some .lineBreak := by
    have tag := Groups.getElem?_tagsOf line Tag.noConfusion
    obtain ⟨t, ht, tag⟩ := Option.map_eq_some_iff.1 (List.getElem?_map .. ▸ tag)
    rw [List.getElem?_map]
    exact (congrArg (Option.map Token.kind) ht).trans (congrArg some (TokenKind.eq_lineBreak tag))
  obtain ⟨_, first⟩ := List.getElem?_eq_some_iff.1 (kind first)
  obtain ⟨inside, second⟩ := List.getElem?_eq_some_iff.1 (kind second)
  exact List.isChain_iff_getElem.1 h i inside ⟨first, second⟩

/-- Brackets nest between two positions, and outside of groups no line break of some sort ends a
line. -/
inductive Unbroken (S : Setting) (B : Nat → Prop) : Nat → Nat → Prop
  | done {i : Nat} : Unbroken S B i i
  | plain {i j : Nat} : (S.tag i).isBracket = false →
      (S.tag i = .lineBreak → B i → S.input.tokens.goesOn i = true) → Unbroken S B (i + 1) j →
      Unbroken S B i j
  | group {i k j : Nat} {p : Punct} : Groups.closing? (S.tag i) = some p → Balanced S (i + 1) k →
      S.tag k = .punct p → Unbroken S B (k + 1) j → Unbroken S B i j

namespace Unbroken

theorem append (h : Unbroken S B i k) (h' : Unbroken S B k j) : Unbroken S B i j := by
  induction h with
  | done => exact h'
  | plain ht hs _ ih => exact .plain ht hs (ih h')
  | group hi inside hk _ ih => exact .group hi inside hk (ih h')

theorem balanced (h : Unbroken S B i j) : Balanced S i j := by
  induction h with
  | done => exact .done
  | plain ht _ _ ih => exact .plain ht ih
  | group hi inside hk _ ih => exact .group hi inside hk ih

/-- What has no line break outside of groups is not broken. -/
theorem of_clear {ts : List Tag} (h : Clear S ts i j) (line : .lineBreak ∈ ts) : Unbroken S B i j := by
  induction h with
  | done => exact .done
  | plain ht hts _ ih => exact .plain ht (fun tag _ => absurd (tag ▸ line) hts) (ih line)
  | group hi inside hk _ _ ih => exact .group hi inside.balanced hk (ih line)

/-- Line breaks that are passed over. -/
theorem past (apart : S.Apart) (h : S.tag i = .lineBreak → B i → S.input.tokens.goesOn i = true) :
    Unbroken S B i (S.past i) := by
  by_cases hi : S.tag i = .lineBreak
  · rw [Setting.past_of_lineBreak hi, Setting.past_of_ne (apart i hi)]
    exact .plain (by rw [hi]; rfl) h .done
  · rw [Setting.past_of_ne hi]
    exact .done

/-- Line breaks of another sort. -/
theorem line (apart : S.Apart) (no : ¬ B i) : Unbroken S B i (S.past i) :=
  past apart fun _ here => absurd here no

/-- A token that is no bracket and no line break. -/
theorem token (hb : b = false) (hi : S.tag i = t) (ht : t.isBracket = false ∧ t ≠ .lineBreak) :
    Unbroken S B i (S.next b i) := by
  subst hb hi
  exact .plain ht.1 (fun tag _ => absurd tag ht.2) .done

/-- A token behind which the line goes on. -/
theorem join (apart : S.Apart) (hb : b = false) (hi : S.tag i = t)
    (ht : t.isBracket = false ∧ t ∈ joinTags) : Unbroken S B i (S.past (S.next b i)) := by
  have line : t ≠ .lineBreak := by
    rintro rfl
    exact absurd ht.2 (by decide)
  refine append (token hb hi ⟨ht.1, line⟩) (past apart fun _ _ => ?_)
  subst hb hi
  exact Bool.or_eq_true_iff.2 (.inl (List.contains_iff_mem.2 ht.2))

/-- The line break before `else`, if there is one. -/
theorem beforeElse (apart : S.Apart) (h : S.ElseNext i) : Unbroken S B i (S.past i) := by
  refine past apart fun tag _ => ?_
  unfold Setting.ElseNext at h
  rw [if_pos tag] at h
  exact Bool.or_eq_true_iff.2 (.inr (beq_iff_eq.2 h))

/-- A group and what nests in it. -/
theorem enclosed {p : Punct} (hb : b' = false) (hi : S.tag i = t) (hp : Groups.closing? t = some p)
    (inside : Balanced S (S.next b i) k) (hk : S.tag k = .punct p) :
    Unbroken S B i (S.next b' k) := by
  subst hb hi
  exact .group hp ((Balanced.behind b i).append inside) hk .done

/-- Where a line break of that sort stands directly between the two positions, the line goes on. -/
theorem goesOn (h : Unbroken S B i j) (low : i ≤ x) (high : x < j) (tag : S.tag x = .lineBreak)
    (here : B x) (direct : Groups.nests [] ((Groups.tagsOf S.input.tokens).extract i x) = true) :
    S.input.tokens.goesOn x = true := by
  have hx := Setting.le_length (Setting.ne_of_tag tag Tag.noConfusion)
  induction h with
  | done => omega
  | @plain i j plain joined _ ih =>
    rcases Nat.eq_or_lt_of_le low with rfl | lt
    · exact joined tag here
    · obtain ⟨opens, closes⟩ := Bool.or_eq_false_iff.1 plain
      rw [Setting.extract_cons lt hx, Groups.nests_other (by simp [opens]) (by simp [closes])] at direct
      exact ih lt high direct
  | @group i k j p hi inside hk _ ih =>
    rcases Nat.eq_or_lt_of_le low with rfl | lt
    · rw [tag] at hi
      cases hi
    · rw [Setting.extract_cons lt hx, Groups.nests_opener hi] at direct
      rcases Nat.lt_or_ge k x with behind | within
      · rw [inside.nests_extract (Nat.le_of_lt behind) hx, Setting.extract_cons behind hx, hk,
          Groups.nests_closer (Groups.isCloser_of_closing hi), beq_self_eq_true, Bool.true_and] at direct
        exact ih behind high direct
      · rw [inside.not_nests_extract lt within hx] at direct
        cases direct

end Unbroken

/-! ## Ends of expressions -/

/-- What ends before a position is no token behind which a line goes on. -/
def Setting.EndsAt (S : Setting) (j : Nat) : Prop := S.tag (j - 1) ∉ joinTags

theorem Setting.endsAt_next (hb : b = false) (hk : S.tag k = t) (ht : t ∉ joinTags) :
    S.EndsAt (S.next b k) := by
  subst hb hk
  exact ht

theorem not_join_of_name : ∀ {t : Tag}, nameTags.contains t = true → t ∉ joinTags := by
  decide

theorem PathAt.endsAt {p : Path} (hb : b = false) (h : PathAt S b i p j) : S.EndsAt j := by
  have name {i : Nat} {x : Ident} (h : S.NameAt i x) : S.EndsAt (S.next b i) :=
    Setting.endsAt_next hb rfl (not_join_of_name (Setting.tag_of_name h.1))
  have segments {i j : Nat} {xs : List Ident} (h : SegmentsAt S b i xs j) (hi : S.EndsAt i) :
      S.EndsAt j := by
    induction h with
    | stop _ => exact hi
    | more _ named _ ih => exact ih (name named)
  exact segments h.tail (name h.head)

theorem BlockAt.endsAt {t : Block} (hb : b = false) (h : BlockAt S b i t j) : S.EndsAt j := by
  obtain ⟨_, _, close, _⟩ := h
  exact Setting.endsAt_next hb close (by decide)

mutual

theorem ExprAt.endsAt {c b i e j} : ExprAt S c b i e j → b = false → S.EndsAt j
  | .binary _ h _ _ _, hb => h.endsAt hb
  | .arrow _ _ _ h _, hb | .ascription _ _ _ h _, hb => h.endsAt hb
  | .pi _ _ _ _ _ h _, hb | .sigma _ _ _ _ _ h _, hb => h.endsAt hb

theorem ChainAt.endsAt {c b i e j} : ChainAt S c b i e j → b = false → S.EndsAt j
  | .one h, hb => h.endsAt hb
  | .more _ _ _ h _, hb => h.endsAt hb

theorem ApplicationAt.endsAt {c b i e j} : ApplicationAt S c b i e j → b = false → S.EndsAt j
  | .bare h _, hb => h.endsAt hb
  | .types _ h h' _, hb | .plain _ h h' _ _, hb => h'.endsAt hb (h.endsAt hb)
  | .block _ _ _ _ h _, hb => h.endsAt hb

theorem ArgsAt.endsAt {c b i es j} : ArgsAt S c b i es j → b = false → S.EndsAt i → S.EndsAt j
  | .stop _, _, hi => hi
  | .more _ h h', hb, _ => h'.endsAt hb (h.endsAt hb)

theorem PrimaryAt.endsAt {c b i e j} : PrimaryAt S c b i e j → b = false → S.EndsAt j
  | .literal hv _, hb => by
    rcases Setting.tag_of_literal hv with h | h | h <;> exact Setting.endsAt_next hb h (by decide)
  | .name h _, hb | .path h _, hb => h.endsAt hb
  | .tuple _ _ hk _, hb | .array _ _ hk _, hb => Setting.endsAt_next hb hk (by decide)
  | .conditional _ _ _ _ h _, hb => h.endsAt hb
  | .matchOn _ _ _ _ hl _, hb => Setting.endsAt_next hb hl (by decide)
  | .returns _ _ h _, hb => h.endsAt hb
  | .returnsNothing hi _ _, hb => Setting.endsAt_next hb hi (by decide)
  | .lambda _ _ _ h _, hb | .thunk _ h _, hb => h.endsAt hb

theorem BodyAt.endsAt {c b i t j} : BodyAt S c b i t j → b = false → S.EndsAt j
  | .block _ h, hb => h.endsAt hb
  | .expr _ h, hb => h.endsAt hb

end

theorem CtorAt.endsAt {a : Ctor} (h : CtorAt S i a j) : S.EndsAt j := by
  obtain ⟨name, form, _⟩ := h
  cases form with
  | typed _ h => exact h.endsAt rfl
  | params _ _ close => exact Setting.endsAt_next rfl close (by decide)
  | bare _ _ => exact name.endsAt rfl

/-! ## Expressions -/

/-- Where line breaks carry meaning, the tokens of a tree are not broken if the groups in what could not
be read are whole. -/
def TreeUnbroken (S : Setting) (B : Nat → Prop) (b : Bool) (i j : Nat) (t : Tree) : Prop :=
  b = false → (S.flawed → t.SkipsGroups S.input.tokens) → Unbroken S B i j

/-- Where line breaks carry meaning, the tokens of children are not broken if the groups in what could
not be read are whole. -/
def ChildrenUnbroken (S : Setting) (B : Nat → Prop) (b : Bool) (i j : Nat) (cs : Children) : Prop :=
  b = false → (S.flawed → ∀ c ∈ cs, c.2.SkipsGroups S.input.tokens) → Unbroken S B i j

namespace ChildrenUnbroken

variable {u : Tree} {field kind : String} {span : Span} {cs ds : Children}

theorem nil : ChildrenUnbroken S B b i i [] := fun _ _ => .done

theorem append (h : ChildrenUnbroken S B b i k cs) (h' : ChildrenUnbroken S B b k j ds) :
    ChildrenUnbroken S B b i j (cs ++ ds) := fun hb read =>
  (h hb fun hf c hc => read hf c (List.mem_append_left _ hc)).append
    (h' hb fun hf c hc => read hf c (List.mem_append_right _ hc))

theorem single (h : TreeUnbroken S B b i j u) : ChildrenUnbroken S B b i j [(field, u)] :=
  fun hb read => h hb fun hf => read hf _ List.mem_cons_self

theorem cons (hu : TreeUnbroken S B b i k u) (h : ChildrenUnbroken S B b k j cs) :
    ChildrenUnbroken S B b i j ((field, u) :: cs) := append (single hu) h

theorem behind (h : b = false → Unbroken S B i k) (h' : ChildrenUnbroken S B b k j cs) :
    ChildrenUnbroken S B b i j cs := fun hb read => (h hb).append (h' hb read)

/-- Children in a group. -/
theorem enclosed {o : Tag} {p : Punct} (hi : S.tag i = o) (hp : Groups.closing? o = some p)
    (h : ChildrenBalanced S (S.next b i) k cs) (hk : S.tag k = .punct p) :
    ChildrenUnbroken S B b' i (S.next b' k) cs := fun hb read =>
  .enclosed hb hi hp (h.between read) hk

end ChildrenUnbroken

theorem TreeUnbroken.node {kind : String} {span : Span} {cs : Children}
    (h : ChildrenUnbroken S B b i j cs) : TreeUnbroken S B b i j (.node kind span cs) := fun hb read =>
  h hb fun hf _ hc => (read hf).child hc

theorem TreeUnbroken.behind {u : Tree} (h : b = false → Unbroken S B i k) (h' : TreeUnbroken S B b k j u) :
    TreeUnbroken S B b i j u := fun hb read => (h hb).append (h' hb read)

theorem TreeUnbroken.of {u : Tree} (h : b = false → Unbroken S B i j) : TreeUnbroken S B b i j u :=
  fun hb _ => h hb

theorem PathAt.unbroken {p : Path} {u : Tree} (h : PathAt S b i p j) : TreeUnbroken S B b i j u :=
  .of fun hb => .of_clear h.clear (by subst hb; decide)

theorem PatternAt.unbroken {p : Pattern} {u : Tree} (h : PatternAt S b i p j) :
    TreeUnbroken S B b i j u :=
  .of fun hb => .of_clear h.clear (by subst hb; decide)

theorem BlockAt.unbroken {t : Block} (o : S.Ordered) (h : BlockAt S b i t j) :
    TreeUnbroken S B b i j t.tree := by
  obtain ⟨opens, stmts, close, _⟩ := h
  have inside : ChildrenReduced S (S.next false i) _ _ := .behind (.past _) (stmts.reduced o)
  exact fun hb whole => .enclosed hb opens rfl (inside.balanced (fun hf _ hc => (whole hf).child hc)
    (fun hf => (whole hf).nests) (Setting.ne_of_tag close Tag.noConfusion)) close

theorem operator_join {c : Context} {symbols : String} (h : S.operator? c i = some symbols) :
    (S.tag i).isBracket = false ∧ S.tag i ∈ joinTags := by
  rcases Setting.tag_of_operator h with tag | tag <;> rw [tag] <;> decide

mutual

theorem ExprAt.unbroken (o : S.Ordered) (apart : S.Apart) {c b i e j} :
    ExprAt S c b i e j → TreeUnbroken S B b i j e.tree
  | .binary _ h _ _ _ => h.unbroken o apart
  | .arrow _ h hk h' _ =>
    .node (.cons (h.unbroken o apart) (.behind (.join apart · hk (by decide))
      (.single (h'.unbroken o apart))))
  | .ascription _ h hk h' _ =>
    .node (.cons (h.unbroken o apart) (.behind (.token · hk (by decide))
      (.single (h'.unbroken o apart))))
  | .pi _ hi h hk ha h' _ | .sigma _ hi h hk ha h' _ =>
    .node (.append (.enclosed hi rfl (h.balanced o) hk) (.behind (.join apart · ha (by decide))
      (.single (h'.unbroken o apart))))

theorem ChainAt.unbroken (o : S.Ordered) (apart : S.Apart) {c b i e j} :
    ChainAt S c b i e j → TreeUnbroken S B b i j e.tree
  | .one h => h.unbroken o apart
  | .more h hk _ h' _ =>
    .node (.cons (h.unbroken o apart) (.cons (.of (.join apart · rfl (operator_join hk)))
      (.single (h'.unbroken o apart))))

theorem ApplicationAt.unbroken (o : S.Ordered) (apart : S.Apart) {c b i e j} :
    ApplicationAt S c b i e j → TreeUnbroken S B b i j e.tree
  | .bare h _ => h.unbroken o apart
  | .types _ h h' _ => .node (.cons (h.unbroken o apart) (h'.unbroken o apart))
  | .plain _ h h' _ _ => .node (.cons (h.unbroken o apart) (.append (h'.unbroken o apart) .nil))
  | .block _ h h' _ h'' _ =>
    .node (.cons (h.unbroken o apart) (.append (h'.unbroken o apart) (.single (h''.unbroken o))))

theorem ArgsAt.unbroken (o : S.Ordered) (apart : S.Apart) {c b i es j} :
    ArgsAt S c b i es j → ChildrenUnbroken S B b i j (Expr.children "argument" es)
  | .stop _ => .nil
  | .more _ h h' => .cons (h.unbroken o apart) (h'.unbroken o apart)

theorem PrimaryAt.unbroken (o : S.Ordered) (apart : S.Apart) {c b i e j} :
    PrimaryAt S c b i e j → TreeUnbroken S B b i j e.tree
  | .literal hv _ => .of fun hb => by
    rcases Setting.tag_of_literal hv with h | h | h <;> exact .token hb h (by decide)
  | .name h _ | .path h _ => h.unbroken
  | .tuple (k := k) hi h hk _ => by
    have elements : ChildrenUnbroken S B b i (S.next b k) (Expr.children "element" _) :=
      .enclosed hi rfl (h.balanced o) hk
    refine .node (.append elements ?_)
    split
    · exact .single (.of fun _ => .done)
    · exact .nil
  | .array hi h hk _ => .node (.enclosed hi rfl (h.balanced o) hk)
  | .conditional hi h h' he h'' _ =>
    .node (.behind (.token · hi (by decide)) (.cons (h.unbroken o apart) (.cons (h'.unbroken o apart)
      (.behind (fun _ => .beforeElse apart he) (.behind (.token · he.past (by decide))
        (.single (h''.unbroken o apart)))))))
  | .matchOn hi h hk h' hl _ =>
    .node (.behind (.token · hi (by decide)) (.cons (h.unbroken o apart)
      (.enclosed (b := false) hk rfl (.behind (.past _) (h'.balanced o)) hl)))
  | .returns hi _ h _ =>
    .node (.behind (.token · hi (by decide)) (.single (h.unbroken o apart)))
  | .returnsNothing hi _ _ => .of (.token · hi (by decide))
  | .lambda hi h hk h' _ => by
    have bar : S.tag i = .reserved .pipe := by rw [← S.tag_kind, hi]; rfl
    exact .node (.behind (.token · bar (by decide)) (.append (h.unbroken o apart)
      (.behind (.token · hk (by decide)) (.single (h'.unbroken o apart)))))
  | .thunk hi h _ => by
    have bars : S.tag i = .operator := by rw [← S.tag_kind, hi]; rfl
    exact .node (.behind (.token · bars (by decide)) (.single (h.unbroken o apart)))

theorem ParamsAt.unbroken (o : S.Ordered) (apart : S.Apart) {t c b i ps tr j} :
    ParamsAt S t c b i ps tr j → ChildrenUnbroken S B b i j (Param.children ps)
  | .none _ => .nil
  | .last h _ _ => .single (h.unbroken o apart)
  | .more h hk h' =>
    .cons (h.unbroken o apart) (.behind (.token · hk (by decide)) (h'.unbroken o apart))

theorem ParamAt.unbroken (o : S.Ordered) (apart : S.Apart) {c b i p j} :
    ParamAt S c b i p j → TreeUnbroken S B b i j p.tree
  | .typed h hk h' _ =>
    .node (.cons h.unbroken (.behind (.token · hk (by decide)) (.single (h'.unbroken o apart))))
  | .untyped h _ _ => h.unbroken

theorem ThenAt.unbroken (o : S.Ordered) (apart : S.Apart) {c b i t j} :
    ThenAt S c b i t j → TreeUnbroken S B b i j t.tree
  | .block _ h => h.unbroken o
  | .expr hi h => .behind (.token · hi (by decide)) (h.unbroken o apart)

theorem BodyAt.unbroken (o : S.Ordered) (apart : S.Apart) {c b i t j} :
    BodyAt S c b i t j → TreeUnbroken S B b i j t.tree
  | .block _ h => h.unbroken o
  | .expr _ h => h.unbroken o apart

end

/-! ## Declarations -/

theorem ParamListAt.unbroken {a : ParamList} (o : S.Ordered) (h : ParamListAt S i a j) :
    TreeUnbroken S B false i j a.tree := by
  cases h with
  | explicit hi h hk _ => exact .node (.enclosed hi rfl (h.balanced o) hk)
  | implicit hi _ h hk _ => exact .node (.enclosed hi rfl (h.balanced o) hk)

theorem ParamListsAt.unbroken {as : List ParamList} (o : S.Ordered) (h : ParamListsAt S i as j) :
    ChildrenUnbroken S B false i j (allUnder "arguments" (as.map ParamList.tree)) := by
  induction h with
  | stop _ => exact .nil
  | more h _ ih => exact .cons (h.unbroken o) ih

theorem OptionalTypeAt.unbroken {t : Option Expr} (o : S.Ordered) (apart : S.Apart)
    (h : OptionalTypeAt S i t j) : ChildrenUnbroken S B false i j (Expr.optional "type" t) := by
  cases h with
  | some hi h => exact .behind (.token · hi (by decide)) (.single (h.unbroken o apart))
  | none _ => exact .nil

theorem CtorAt.unbroken {a : Ctor} (o : S.Ordered) (apart : S.Apart) (h : CtorAt S i a j) :
    TreeUnbroken S B false i j a.tree := by
  obtain ⟨name, form, _⟩ := h
  cases form with
  | typed hi h =>
    exact .node (.cons name.unbroken (.behind (.token · hi (by decide))
      (.single (h.unbroken o apart))))
  | params hi h hk =>
    exact .node (.cons name.unbroken (.enclosed hi rfl (h.balanced fun _ _ _ h => h.balanced o) hk))
  | bare _ _ => exact .node (.single name.unbroken)

end Grammar

end Surface
