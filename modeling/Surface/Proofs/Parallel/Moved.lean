import Surface.Proofs.Canonical.Spelt
import Surface.Proofs.Grammar.Completeness
import Surface.Proofs.Parallel.Aligned
import Surface.Proofs.Parsing.Binders

/-!
# Derivations in a longer stream

A stream may hold all tokens of another one, moved by some tokens, with the word `else` or nothing
behind them. What the rules derive from the tokens of the first stream they derive from the same tokens
of the second: the word goes on with no expression, and a conditional without a second branch that lies
inside a block ends before the brace of the block.

Results:
* `Moved`: a stream in which the tokens of another one stand.
* `ExprAt.moved`, `ThenAt.moved`, `BlockAt.moved`, ...: expressions, bodies, blocks and their parts.
-/

namespace Surface.Grammar

/-- The second stream holds the tokens of the first one up to its end, from position `shift` on, and
the word `else` or its own end behind them. -/
structure Moved (S T : Setting) (shift wall : Nat) : Prop where
  kind : ∀ p < wall, T.kind (p + shift) = S.kind p
  ended : ∀ p, wall ≤ p → S.tag p = .eof
  beyond : T.tag (wall + shift) = .eof ∨ T.tag (wall + shift) = .keyword .elseKw
  sound : ¬ S.flawed
  groups : S.input.groups = .ofTokens S.input.tokens
  lenient : T.Lenient

variable {S T : Setting} {shift wall : Nat} {c : Context} {b : Bool} {i j k p : Nat} {t : Tag}

namespace Moved

variable (m : Moved S T shift wall)

include m

/-! ## Positions -/

theorem lt (h : S.tag p ≠ .eof) : p < wall := Nat.lt_of_not_le fun le => h (m.ended p le)

theorem tag (lt : p < wall) : T.tag (p + shift) = S.tag p := by
  rw [← T.tag_kind, ← S.tag_kind, m.kind p lt]

/-- Either the same token stands at both places, or the first stream has ended. -/
theorem cases (le : p ≤ wall) : p < wall ∧ T.kind (p + shift) = S.kind p
    ∨ S.tag p = .eof ∧ (T.tag (p + shift) = .eof ∨ T.tag (p + shift) = .keyword .elseKw) := by
  rcases Nat.lt_or_eq_of_le le with lt | rfl
  · exact .inl ⟨lt, m.kind p lt⟩
  · exact .inr ⟨m.ended p le, m.beyond⟩

theorem covers (a a' : Span) : T.covers a a' := m.lenient.covers a a'

/-- A token of the first stream stands in the second. -/
theorem token (h : S.tag p = t) (ht : t ≠ .eof) : p < wall ∧ T.tag (p + shift) = t := by
  have lt := m.lt (h ▸ ht)
  exact ⟨lt, (m.tag lt).trans h⟩

theorem tokenIn {ts : TagSet} (h : ts.contains (S.tag p) = true) (ht : ts.contains .eof = false) :
    p < wall ∧ ts.contains (T.tag (p + shift)) = true := by
  obtain ⟨lt, tag⟩ := m.token rfl (Setting.ne_eof_of_contains h ht)
  exact ⟨lt, tag ▸ h⟩

/-- What does not stand at a place of the first stream does not stand in the second. -/
theorem absent (le : p ≤ wall) (h : S.tag p ≠ t) (ht : t ≠ .keyword .elseKw) : T.tag (p + shift) ≠ t := by
  rcases m.cases le with ⟨lt, -⟩ | ⟨ended, beyond | beyond⟩
  · rwa [m.tag lt]
  · rwa [beyond, ← ended]
  · rw [beyond]
    exact ht.symm

theorem absentIn {ts : TagSet} (le : p ≤ wall) (h : ts.contains (S.tag p) = false)
    (ht : ts.contains (.keyword .elseKw) = false) : ts.contains (T.tag (p + shift)) = false := by
  rcases m.cases le with ⟨lt, -⟩ | ⟨ended, beyond | beyond⟩
  · rwa [m.tag lt]
  · rwa [beyond, ← ended]
  · rwa [beyond]

theorem past (le : p ≤ wall) : T.past (p + shift) = S.past p + shift ∧ S.past p ≤ wall := by
  refine pastBreaks_congr (fun p lt => m.tag lt) ?_ ?_ le
  · show S.tag wall ≠ _
    rw [m.ended wall (Nat.le_refl _)]
    exact Tag.noConfusion
  · show T.tag (wall + shift) ≠ _
    rcases m.beyond with beyond | beyond <;> rw [beyond] <;> exact Tag.noConfusion

theorem next (b : Bool) (lt : p < wall) :
    T.next b (p + shift) = S.next b p + shift ∧ S.next b p ≤ wall := by
  unfold Setting.next
  rw [Nat.add_right_comm]
  cases b with
  | false => exact ⟨rfl, lt⟩
  | true => exact m.past lt

/-- The position behind a token and behind line breaks. -/
theorem nextPast (b : Bool) (lt : p < wall) :
    T.past (T.next b (p + shift)) = S.past (S.next b p) + shift ∧ S.past (S.next b p) ≤ wall := by
  obtain ⟨behind, le⟩ := m.next b lt
  rw [behind]
  exact m.past le

/-! ## What stands at a position -/

theorem starts (le : p ≤ wall) : T.StartsExpr (p + shift) ↔ S.StartsExpr p := by
  rcases m.cases le with ⟨lt, kind⟩ | ⟨ended, beyond⟩
  · unfold Setting.StartsExpr
    rw [m.tag lt, kind]
  · refine iff_of_false (fun h => ?_) (fun h => h.ne (by decide) Tag.noConfusion ended)
    rcases beyond with beyond | beyond <;> exact h.ne (by decide) Tag.noConfusion beyond

theorem operator (le : p ≤ wall) : T.operator? c (p + shift) = S.operator? c p := by
  rcases m.cases le with ⟨-, kind⟩ | ⟨ended, beyond⟩
  · unfold Setting.operator?
    rw [kind]
  · have none : S.operator? c p = none := Setting.operator?_of_tag (by rw [ended]; decide)
    rw [none]
    rcases beyond with beyond | beyond <;> exact Setting.operator?_of_tag (by rw [beyond]; decide)

theorem name {x : Ident} (h : S.NameAt p x) : p < wall ∧ T.NameAt (p + shift) x := by
  have lt := m.lt (Setting.ne_eof_of_contains (Setting.tag_of_name h.1) (by decide))
  refine ⟨lt, ?_, m.covers _ _⟩
  rw [m.kind p lt]
  exact h.1

theorem dotted (le : p ≤ wall) : T.Dotted (p + shift) ↔ S.Dotted p := by
  unfold Setting.Dotted
  rw [Nat.add_right_comm]
  by_cases dot : S.tag p = .reserved .dot
  · obtain ⟨lt, dot'⟩ := m.token dot Tag.noConfusion
    rw [dot, dot']
    refine and_congr_right fun _ => ?_
    rcases m.cases lt with ⟨lt, -⟩ | ⟨ended, beyond⟩
    · rw [m.tag lt]
    · rw [ended]
      rcases beyond with beyond | beyond
      · rw [beyond]
      · rw [beyond]
        decide
  · exact iff_of_false (fun h => m.absent le dot Tag.noConfusion h.1) (fun h => dot h.1)

/-- Whether `else` comes next is the same where the first stream goes on. -/
theorem elseNext (lt : S.past p < wall) : T.ElseNext (p + shift) ↔ S.ElseNext p := by
  unfold Setting.ElseNext
  rw [m.tag (Nat.lt_of_le_of_lt (S.le_past p) lt), Nat.add_right_comm]
  by_cases line : S.tag p = .lineBreak
  · rw [Setting.past_of_lineBreak line] at lt
    rw [m.tag (Nat.lt_of_le_of_lt (S.le_past (p + 1)) lt)]
  · rw [if_neg line, if_neg line]

theorem noBlock (le : p ≤ wall) (h : ¬ S.BlockNext c p) : ¬ T.BlockNext c (p + shift) :=
  fun next => m.absent le (fun brace => h ⟨next.1, brace⟩) Tag.noConfusion next.2

/-- Parameters between brackets with an arrow behind them. -/
theorem binder {o q : Punct} {ps : List Param} {tr : Bool} (hq : closeOf? (.punct o) = some q)
    (binds : S.binds b i = true) (ho : S.tag i = .punct o)
    (h : ParamsAt S (.punct q) c.nested true (S.next true i) ps tr k)
    (h' : ParamsAt T (.punct q) c.nested true (S.next true i + shift) ps tr (k + shift))
    (hk : S.tag k = .punct q) (arrow : S.tag (S.next b k) = .reserved .arrow) :
    T.binds b (i + shift) = true ∧ ParamsAt T (.punct q) c.nested true (T.next true (i + shift)) ps tr
        (k + shift)
      ∧ T.tag (T.next b (k + shift)) = .reserved .arrow
      ∧ T.past (T.next b (T.next b (k + shift))) = S.past (S.next b (S.next b k)) + shift := by
  obtain ⟨opened, opener⟩ := m.token ho Tag.noConfusion
  obtain ⟨closed, closer⟩ := m.token hk Tag.noConfusion
  obtain ⟨before, arrow'⟩ := m.token arrow Tag.noConfusion
  obtain ⟨inside, -⟩ := m.next true opened
  obtain ⟨behind, -⟩ := m.next b closed
  have some := h.ne_nil m.groups (by rw [ho, hq]) hk binds
  rw [← inside] at h'
  rw [← behind] at arrow'
  refine ⟨h'.binds m.lenient.groups m.lenient.sound (by rw [opener, hq]) some closer arrow', h', arrow', ?_⟩
  rw [behind]
  exact (m.nextPast b before).1

end Moved

/-! ## Paths and patterns -/

section

variable (m : Moved S T shift wall)

include m

theorem SegmentsAt.moved {xs : List Ident} (h : SegmentsAt S b i xs j) (le : i ≤ wall) :
    SegmentsAt T b (i + shift) xs (j + shift) ∧ j ≤ wall := by
  induction h with
  | stop no => exact ⟨.stop fun dotted => no ((m.dotted le).1 dotted), le⟩
  | more dotted name _ ih =>
    obtain ⟨lt, -⟩ := m.token dotted.1 Tag.noConfusion
    obtain ⟨behind, -⟩ := m.next b lt
    obtain ⟨lt', name'⟩ := m.name name
    obtain ⟨behind', le'⟩ := m.next b lt'
    obtain ⟨rest, le''⟩ := ih le'
    refine ⟨.more ((m.dotted le).2 dotted) (behind ▸ name') ?_, le''⟩
    rwa [behind, behind']

theorem PathAt.moved {x : Path} (h : PathAt S b i x j) :
    PathAt T b (i + shift) x (j + shift) ∧ j ≤ wall := by
  obtain ⟨lt, head⟩ := m.name h.head
  obtain ⟨behind, le⟩ := m.next b lt
  obtain ⟨tail, le'⟩ := h.tail.moved m le
  exact ⟨⟨head, behind ▸ tail⟩, le'⟩

theorem Moved.literal {v : Literal} (h : (S.kind i).literal? = some v) :
    (T.kind (i + shift)).literal? = some v ∧ T.next b (i + shift) = S.next b i + shift
      ∧ S.next b i ≤ wall := by
  have lt := m.lt (Setting.ne_eof_of_literal h)
  exact ⟨m.kind i lt ▸ h, m.next b lt⟩

end

mutual

theorem AtomAt.moved (m : Moved S T shift wall) {b i x j} : AtomAt S b i x j →
    AtomAt T b (i + shift) x (j + shift) ∧ j ≤ wall
  | .literal literal _ => by
    obtain ⟨literal', behind, le⟩ := m.literal literal
    rw [← behind]
    exact ⟨.literal literal' (m.covers _ _), le⟩
  | .path h _ => by
    obtain ⟨path, le⟩ := h.moved m
    exact ⟨.path path (m.covers _ _), le⟩
  | .rest dots _ => by
    obtain ⟨lt, dots'⟩ := m.token dots Tag.noConfusion
    obtain ⟨behind, le⟩ := m.next b lt
    rw [← behind]
    exact ⟨.rest dots' (m.covers _ _), le⟩
  | .group ho h hk => by
    obtain ⟨lt, opener⟩ := m.token ho Tag.noConfusion
    obtain ⟨inside, -⟩ := m.next true lt
    obtain ⟨pattern, -⟩ := h.moved m
    obtain ⟨lt', closer⟩ := m.token hk Tag.noConfusion
    obtain ⟨behind, le⟩ := m.next b lt'
    rw [← behind]
    exact ⟨.group opener (inside ▸ pattern) closer, le⟩

theorem PatternAt.moved (m : Moved S T shift wall) {b i x j} : PatternAt S b i x j →
    PatternAt T b (i + shift) x (j + shift) ∧ j ≤ wall
  | .cons h hs _ => by
    obtain ⟨path, le⟩ := h.moved m
    obtain ⟨args, le'⟩ := hs.moved m le
    exact ⟨.cons path args (m.covers _ _), le'⟩
  | .atom notName h => by
    obtain ⟨lt, -⟩ := m.tokenIn h.starts (by decide)
    obtain ⟨atom, le⟩ := h.moved m
    exact ⟨.atom (by rwa [m.tag lt]) atom, le⟩

theorem PatternArgsAt.moved (m : Moved S T shift wall) {b i xs j} : PatternArgsAt S b i xs j → i ≤ wall →
    PatternArgsAt T b (i + shift) xs (j + shift) ∧ j ≤ wall
  | .stop no, le => ⟨.stop (m.absentIn le no (by decide)), le⟩
  | .more h hs, _ => by
    obtain ⟨atom, le⟩ := h.moved m
    obtain ⟨args, le'⟩ := hs.moved m le
    exact ⟨.more atom args, le'⟩

end

/-! ## Expressions and statements -/

mutual

theorem ExprAt.moved (m : Moved S T shift wall) {c b i e j} : ExprAt S c b i e j →
    ExprAt T c b (i + shift) e (j + shift) ∧ j ≤ wall
  | .binary _ h stop arrow colon => by
    obtain ⟨chain, le⟩ := h.moved m
    have arrow' := m.absent le arrow Tag.noConfusion
    have plain := chain.binds_eq_false m.lenient.groups m.lenient.sound (.inl arrow')
    have stop' := (m.operator le).trans stop
    exact ⟨.binary plain chain stop' arrow' (m.absent le colon Tag.noConfusion), le⟩
  | .arrow plain h arrow h' _ => by
    obtain ⟨domain, -⟩ := h.moved m
    obtain ⟨lt, arrow'⟩ := m.token arrow Tag.noConfusion
    obtain ⟨behind, -⟩ := m.nextPast b lt
    obtain ⟨codomain, le⟩ := h'.moved m
    have group := h.not_isGroup m.groups m.sound plain arrow
    have plain' := domain.binds_eq_false m.lenient.groups m.lenient.sound (.inr group)
    exact ⟨.arrow plain' domain arrow' (behind ▸ codomain) (m.covers _ _), le⟩
  | .ascription _ h colon h' _ => by
    obtain ⟨value, -⟩ := h.moved m
    obtain ⟨lt, colon'⟩ := m.token colon Tag.noConfusion
    obtain ⟨behind, -⟩ := m.next b lt
    obtain ⟨type, le⟩ := h'.moved m
    have plain := value.binds_eq_false m.lenient.groups m.lenient.sound
      (.inl (by rw [colon']; exact Tag.noConfusion))
    exact ⟨.ascription plain value colon' (behind ▸ type) (m.covers _ _), le⟩
  | .pi binds ho h hk arrow h' _ => by
    obtain ⟨lt, opener⟩ := m.token ho Tag.noConfusion
    obtain ⟨-, inside⟩ := m.next true lt
    obtain ⟨binds', params, arrow', behind⟩ := m.binder rfl binds ho h (h.moved m Tag.noConfusion inside).1 hk arrow
    obtain ⟨-, closer⟩ := m.token hk Tag.noConfusion
    obtain ⟨codomain, le⟩ := h'.moved m
    exact ⟨.pi binds' opener params closer arrow' (behind ▸ codomain) (m.covers _ _), le⟩
  | .sigma binds ho h hk arrow h' _ => by
    obtain ⟨lt, opener⟩ := m.token ho Tag.noConfusion
    obtain ⟨-, inside⟩ := m.next true lt
    obtain ⟨binds', params, arrow', behind⟩ := m.binder rfl binds ho h (h.moved m Tag.noConfusion inside).1 hk arrow
    obtain ⟨-, closer⟩ := m.token hk Tag.noConfusion
    obtain ⟨codomain, le⟩ := h'.moved m
    exact ⟨.sigma binds' opener params closer arrow' (behind ▸ codomain) (m.covers _ _), le⟩

theorem ChainAt.moved (m : Moved S T shift wall) {c b i e j} : ChainAt S c b i e j →
    ChainAt T c b (i + shift) e (j + shift) ∧ j ≤ wall
  | .one h => by
    obtain ⟨operand, le⟩ := h.moved m
    exact ⟨.one operand, le⟩
  | .more h op _ h' _ => by
    obtain ⟨left, le⟩ := h.moved m
    obtain ⟨behind, -⟩ := m.nextPast b (m.lt (Setting.ne_eof_of_operator op))
    obtain ⟨right, le'⟩ := h'.moved m
    exact ⟨.more left ((m.operator le).trans op) (m.covers _ _) (behind ▸ right) (m.covers _ _), le'⟩

theorem ApplicationAt.moved (m : Moved S T shift wall) {c b i e j} : ApplicationAt S c b i e j →
    ApplicationAt T c b (i + shift) e (j + shift) ∧ j ≤ wall
  | .bare h no => by
    obtain ⟨primary, le⟩ := h.moved m
    exact ⟨.bare primary (m.absentIn le no (by decide)), le⟩
  | .types inType h hs _ => by
    obtain ⟨callee, le⟩ := h.moved m
    obtain ⟨args, le'⟩ := hs.moved m le
    exact ⟨.types inType callee args (m.covers _ _), le'⟩
  | .plain notType h hs no _ => by
    obtain ⟨callee, le⟩ := h.moved m
    obtain ⟨args, le'⟩ := hs.moved m le
    exact ⟨.plain notType callee args (m.noBlock le' no) (m.covers _ _), le'⟩
  | .block notType h hs next h' _ => by
    obtain ⟨callee, le⟩ := h.moved m
    obtain ⟨args, -⟩ := hs.moved m le
    obtain ⟨-, brace⟩ := m.token next.2 Tag.noConfusion
    obtain ⟨block, le'⟩ := h'.moved m
    exact ⟨.block notType callee args ⟨next.1, brace⟩ block (m.covers _ _), le'⟩

theorem ArgsAt.moved (m : Moved S T shift wall) {c b i es j} : ArgsAt S c b i es j → i ≤ wall →
    ArgsAt T c b (i + shift) es (j + shift) ∧ j ≤ wall
  | .stop no, le => ⟨.stop (m.absentIn le no (by decide)), le⟩
  | .more tag h hs, _ => by
    obtain ⟨-, tag'⟩ := m.tokenIn tag (by decide)
    obtain ⟨first, le⟩ := h.moved m
    obtain ⟨rest, le'⟩ := hs.moved m le
    exact ⟨.more tag' first rest, le'⟩

theorem PrimaryAt.moved (m : Moved S T shift wall) {c b i e j} : PrimaryAt S c b i e j →
    PrimaryAt T c b (i + shift) e (j + shift) ∧ j ≤ wall
  | .literal literal _ => by
    obtain ⟨literal', behind, le⟩ := m.literal literal
    rw [← behind]
    exact ⟨.literal literal' (m.covers _ _), le⟩
  | .name h _ => by
    obtain ⟨path, le⟩ := h.moved m
    exact ⟨.name path (m.covers _ _), le⟩
  | .path h _ => by
    obtain ⟨path, le⟩ := h.moved m
    exact ⟨.path path (m.covers _ _), le⟩
  | .tuple ho h hk _ => by
    obtain ⟨lt, opener⟩ := m.token ho Tag.noConfusion
    obtain ⟨inside, le⟩ := m.next true lt
    obtain ⟨elements, -⟩ := h.moved m Tag.noConfusion le
    obtain ⟨lt', closer⟩ := m.token hk Tag.noConfusion
    obtain ⟨behind, le'⟩ := m.next b lt'
    rw [← behind]
    exact ⟨.tuple opener (inside ▸ elements) closer (m.covers _ _), le'⟩
  | .array ho h hk _ => by
    obtain ⟨lt, opener⟩ := m.token ho Tag.noConfusion
    obtain ⟨inside, le⟩ := m.next true lt
    obtain ⟨elements, -⟩ := h.moved m Tag.noConfusion le
    obtain ⟨lt', closer⟩ := m.token hk Tag.noConfusion
    obtain ⟨behind, le'⟩ := m.next b lt'
    rw [← behind]
    exact ⟨.array opener (inside ▸ elements) closer (m.covers _ _), le'⟩
  | .conditional word h h' next h'' _ => by
    obtain ⟨lt, word'⟩ := m.token word Tag.noConfusion
    obtain ⟨behind, -⟩ := m.next b lt
    obtain ⟨head, -⟩ := h.moved m
    obtain ⟨branch, le⟩ := h'.moved m
    obtain ⟨lt', -⟩ := m.token next.past Tag.noConfusion
    obtain ⟨behind', -⟩ := m.next b lt'
    obtain ⟨other, le'⟩ := h''.moved m
    refine ⟨.conditional word' (behind ▸ head) branch ((m.elseNext lt').2 next) ?_ (m.covers _ _), le'⟩
    rwa [(m.past le).1, behind']
  | .matchOn word h brace hs brace' _ => by
    obtain ⟨lt, word'⟩ := m.token word Tag.noConfusion
    obtain ⟨behind, -⟩ := m.next b lt
    obtain ⟨head, -⟩ := h.moved m
    obtain ⟨opened, opener⟩ := m.token brace Tag.noConfusion
    obtain ⟨inside, le⟩ := m.nextPast false opened
    obtain ⟨arms, -⟩ := hs.moved m le
    obtain ⟨closed, closer⟩ := m.token brace' Tag.noConfusion
    obtain ⟨behind', le'⟩ := m.next b closed
    rw [← behind']
    exact ⟨.matchOn word' (behind ▸ head) opener (inside ▸ arms) closer (m.covers _ _), le'⟩
  | .returns word starts h _ => by
    obtain ⟨lt, word'⟩ := m.token word Tag.noConfusion
    obtain ⟨behind, le⟩ := m.next b lt
    obtain ⟨value, le'⟩ := h.moved m
    have starts' := (m.starts le).2 starts
    exact ⟨.returns word' (behind ▸ starts') (behind ▸ value) (m.covers _ _), le'⟩
  | .returnsNothing word no _ => by
    obtain ⟨lt, word'⟩ := m.token word Tag.noConfusion
    obtain ⟨behind, le⟩ := m.next b lt
    have no' := mt (m.starts le).1 no
    rw [← behind] at no' ⊢
    exact ⟨.returnsNothing word' no' (m.covers _ _), le⟩
  | .lambda bar h bar' h' _ => by
    have lt : i < wall := m.lt (by rw [← S.tag_kind, bar]; exact Tag.noConfusion)
    obtain ⟨behind, le⟩ := m.next b lt
    obtain ⟨params, -⟩ := h.moved m Tag.noConfusion le
    obtain ⟨closed, closer⟩ := m.token bar' Tag.noConfusion
    obtain ⟨behind', -⟩ := m.next b closed
    obtain ⟨body, le'⟩ := h'.moved m
    have bar := (m.kind i lt).trans bar
    exact ⟨.lambda bar (behind ▸ params) closer (behind' ▸ body) (m.covers _ _), le'⟩
  | .thunk bars h _ => by
    have lt : i < wall := m.lt (by rw [← S.tag_kind, bars]; exact Tag.noConfusion)
    obtain ⟨behind, -⟩ := m.next b lt
    obtain ⟨body, le⟩ := h.moved m
    exact ⟨.thunk ((m.kind i lt).trans bars) (behind ▸ body) (m.covers _ _), le⟩

theorem ExprsAt.moved (m : Moved S T shift wall) {t c b i es tr j} : ExprsAt S t c b i es tr j →
    t ≠ .eof → i ≤ wall → ExprsAt T t c b (i + shift) es tr (j + shift) ∧ j ≤ wall
  | .none tag, ht, le => ⟨.none (m.token tag ht).2, le⟩
  | .last h tag comma, ht, _ => by
    obtain ⟨element, le⟩ := h.moved m
    exact ⟨.last element (m.token tag ht).2 (m.absent le comma Tag.noConfusion), le⟩
  | .more h comma hs, ht, _ => by
    obtain ⟨element, -⟩ := h.moved m
    obtain ⟨lt, comma'⟩ := m.token comma Tag.noConfusion
    obtain ⟨behind, le⟩ := m.next b lt
    obtain ⟨elements, le'⟩ := hs.moved m ht le
    exact ⟨.more element comma' (behind ▸ elements), le'⟩

theorem ParamsAt.moved (m : Moved S T shift wall) {t c b i ps tr j} : ParamsAt S t c b i ps tr j →
    t ≠ .eof → i ≤ wall → ParamsAt T t c b (i + shift) ps tr (j + shift) ∧ j ≤ wall
  | .none tag, ht, le => ⟨.none (m.token tag ht).2, le⟩
  | .last h tag comma, ht, _ => by
    obtain ⟨param, le⟩ := h.moved m
    exact ⟨.last param (m.token tag ht).2 (m.absent le comma Tag.noConfusion), le⟩
  | .more h comma hs, ht, _ => by
    obtain ⟨param, -⟩ := h.moved m
    obtain ⟨lt, comma'⟩ := m.token comma Tag.noConfusion
    obtain ⟨behind, le⟩ := m.next b lt
    obtain ⟨params, le'⟩ := hs.moved m ht le
    exact ⟨.more param comma' (behind ▸ params), le'⟩

theorem ParamAt.moved (m : Moved S T shift wall) {c b i p j} : ParamAt S c b i p j →
    ParamAt T c b (i + shift) p (j + shift) ∧ j ≤ wall
  | .typed h colon h' _ => by
    obtain ⟨pattern, -⟩ := h.moved m
    obtain ⟨lt, colon'⟩ := m.token colon Tag.noConfusion
    obtain ⟨behind, -⟩ := m.next b lt
    obtain ⟨type, le⟩ := h'.moved m
    exact ⟨.typed pattern colon' (behind ▸ type) (m.covers _ _), le⟩
  | .untyped h colon _ => by
    obtain ⟨pattern, le⟩ := h.moved m
    exact ⟨.untyped pattern (m.absent le colon Tag.noConfusion) (m.covers _ _), le⟩

theorem ThenAt.moved (m : Moved S T shift wall) {c b i e j} : ThenAt S c b i e j →
    ThenAt T c b (i + shift) e (j + shift) ∧ j ≤ wall
  | .block brace h => by
    obtain ⟨-, brace'⟩ := m.token brace Tag.noConfusion
    obtain ⟨block, le⟩ := h.moved m
    exact ⟨.block brace' block, le⟩
  | .expr word h => by
    obtain ⟨lt, word'⟩ := m.token word Tag.noConfusion
    obtain ⟨behind, -⟩ := m.next b lt
    obtain ⟨value, le⟩ := h.moved m
    exact ⟨.expr word' (behind ▸ value), le⟩

theorem BodyAt.moved (m : Moved S T shift wall) {c b i e j} : BodyAt S c b i e j →
    BodyAt T c b (i + shift) e (j + shift) ∧ j ≤ wall
  | .block brace h => by
    obtain ⟨-, brace'⟩ := m.token brace Tag.noConfusion
    obtain ⟨block, le⟩ := h.moved m
    exact ⟨.block brace' block, le⟩
  | .expr brace h => by
    obtain ⟨value, le⟩ := h.moved m
    have lt := Nat.lt_of_lt_of_le h.lt le
    exact ⟨.expr (m.tag lt ▸ brace) value, le⟩

theorem ArmsAt.moved (m : Moved S T shift wall) {i as j} : ArmsAt S i as j → i ≤ wall →
    ArmsAt T (i + shift) as (j + shift) ∧ j ≤ wall
  | .none, le => ⟨.none, le⟩
  | .comma h comma hs, _ => by
    obtain ⟨arm, -⟩ := h.moved m
    obtain ⟨lt, comma'⟩ := m.token comma Tag.noConfusion
    obtain ⟨behind, le⟩ := m.nextPast false lt
    obtain ⟨arms, le'⟩ := hs.moved m le
    exact ⟨.comma arm comma' (behind ▸ arms), le'⟩
  | .broken h line hs, _ => by
    obtain ⟨arm, le⟩ := h.moved m
    obtain ⟨-, line'⟩ := m.token line Tag.noConfusion
    obtain ⟨behind, le'⟩ := m.past le
    obtain ⟨arms, le''⟩ := hs.moved m le'
    exact ⟨.broken arm line' (behind ▸ arms), le''⟩
  | .last h brace, _ => by
    obtain ⟨arm, le⟩ := h.moved m
    exact ⟨.last arm (m.token brace Tag.noConfusion).2, le⟩

theorem ArmAt.moved (m : Moved S T shift wall) {i a j} : ArmAt S i a j →
    ArmAt T (i + shift) a (j + shift) ∧ j ≤ wall
  | .mk h arrow h' _ => by
    obtain ⟨pattern, -⟩ := h.moved m
    obtain ⟨lt, arrow'⟩ := m.token arrow Tag.noConfusion
    obtain ⟨behind, -⟩ := m.nextPast false lt
    obtain ⟨body, le⟩ := h'.moved m
    exact ⟨.mk pattern arrow' (behind ▸ body) (m.covers _ _), le⟩

theorem BlockAt.moved (m : Moved S T shift wall) {b i e j} : BlockAt S b i e j →
    BlockAt T b (i + shift) e (j + shift) ∧ j ≤ wall
  | .mk brace hs brace' _ => by
    obtain ⟨opened, opener⟩ := m.token brace Tag.noConfusion
    obtain ⟨inside, -⟩ := m.nextPast false opened
    obtain ⟨closed, closer⟩ := m.token brace' Tag.noConfusion
    obtain ⟨behind, le⟩ := m.next b closed
    rw [← behind]
    exact ⟨.mk opener (inside ▸ hs.moved m closed) closer (m.covers _ _), le⟩

/-- Statements before a brace: the brace keeps an `else` behind the stream away from them. -/
theorem StmtsAt.moved (m : Moved S T shift wall) {i ss j} : StmtsAt S i ss j → j < wall →
    StmtsAt T (i + shift) ss (j + shift)
  | .none, _ => .none
  | .more h ends hs, lt => by
    have lt' := Nat.lt_of_le_of_lt hs.le lt
    have stmt := h.moved m rfl ends lt'
    obtain ⟨behind, -⟩ := m.past (Nat.le_of_lt (Nat.lt_of_le_of_lt (S.le_past _) lt'))
    have ends' := m.tag (Nat.lt_of_le_of_lt (S.le_past _) lt') ▸ ends
    exact .more stmt ends' (behind ▸ hs.moved m lt)
  | .error flawed _ _ _, _ => absurd flawed m.sound

theorem StmtAt.moved (m : Moved S T shift wall) {c b i s j} : StmtAt S c b i s j → b = false →
    stmtBoundary.contains (S.tag j) = true → S.past j < wall → StmtAt T c b (i + shift) s (j + shift)
  | .letIn word h eq h' _, _, _, _ => by
    obtain ⟨lt, word'⟩ := m.token word Tag.noConfusion
    obtain ⟨behind, -⟩ := m.next b lt
    obtain ⟨pattern, -⟩ := h.moved m
    obtain ⟨lt', eq'⟩ := m.token eq Tag.noConfusion
    obtain ⟨behind', -⟩ := m.next b lt'
    obtain ⟨value, -⟩ := h'.moved m
    exact .letIn word' (behind ▸ pattern) eq' (behind' ▸ value) (m.covers _ _)
  | .conditional word h h' no _, _, _, inside => by
    obtain ⟨lt, word'⟩ := m.token word Tag.noConfusion
    obtain ⟨behind, -⟩ := m.next b lt
    obtain ⟨head, -⟩ := h.moved m
    obtain ⟨branch, -⟩ := h'.moved m
    exact .conditional word' (behind ▸ head) branch (mt (m.elseNext inside).1 no) (m.covers _ _)
  | .branches word h h' next h'' _, _, _, _ => by
    obtain ⟨lt, word'⟩ := m.token word Tag.noConfusion
    obtain ⟨behind, -⟩ := m.next b lt
    obtain ⟨head, -⟩ := h.moved m
    obtain ⟨branch, le⟩ := h'.moved m
    obtain ⟨lt', -⟩ := m.token next.past Tag.noConfusion
    obtain ⟨behind', -⟩ := m.next b lt'
    obtain ⟨other, -⟩ := h''.moved m
    refine .branches word' (behind ▸ head) branch ((m.elseNext lt').2 next) ?_ (m.covers _ _)
    rwa [(m.past le).1, behind']
  | .ask notLet notIf _ h arrow h' _, hb, _, _ => by
    obtain ⟨pattern, le⟩ := h.moved m
    obtain ⟨lt, arrow'⟩ := m.token arrow Tag.noConfusion
    obtain ⟨behind, -⟩ := m.nextPast b lt
    obtain ⟨value, -⟩ := h'.moved m
    have first := m.tag (Nat.lt_of_lt_of_le h.lt le)
    have ahead := PatternAt.ahead m.lenient.groups (hb ▸ pattern) arrow'
    exact .ask (first ▸ notLet) (first ▸ notIf) ahead pattern arrow' (behind ▸ value) (m.covers _ _)
  | .expr notLet notIf _ h _, _, ends, inside => by
    obtain ⟨value, le⟩ := h.moved m
    have first := m.tag (Nat.lt_of_lt_of_le h.lt le)
    have ends' := m.tag (Nat.lt_of_le_of_lt (S.le_past _) inside) ▸ ends
    have plain := value.not_ahead m.lenient.groups m.lenient.sound (t := .reserved .leftArrow) (by decide) ends'
    exact .expr (first ▸ notLet) (first ▸ notIf) plain value (m.covers _ _)

end

end Surface.Grammar
