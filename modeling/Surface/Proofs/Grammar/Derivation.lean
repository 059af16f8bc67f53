import Surface.Proofs.Grammar.Setting

/-!
# The grammar as rules

What the readers accept, said without them: rules that derive a node from the tokens between two
positions of a stream. A rule says which token stands where, in which context and line-break mode
its parts are derived, which span the node carries, and what must not follow, since the readers
take as much as they can.

Results:
* `PatternAt`, `ExprAt`, `BlockAt`, `StmtAt` and their parts: the rules.
-/

namespace Surface.Grammar

/-! ## Paths and patterns -/

section

variable (S : Setting)

/-- The names behind the first one of a path. -/
inductive SegmentsAt (b : Bool) : Nat → List Ident → Nat → Prop
  | stop {i} : ¬ S.Dotted i → SegmentsAt b i [] i
  | more {i x xs j} : S.Dotted i → S.NameAt (S.next b i) x →
      SegmentsAt b (S.next b (S.next b i)) xs j → SegmentsAt b i (x :: xs) j

/-- A path. -/
structure PathAt (b : Bool) (i : Nat) (p : Path) (j : Nat) : Prop where
  head : S.NameAt i p.head
  tail : SegmentsAt S b (S.next b i) p.tail j

mutual

/-- A pattern that can be an argument. -/
inductive AtomAt : Bool → Nat → Pattern → Nat → Prop
  | literal {b i m v} : (S.kind i).literal? = some v → S.covers (S.span i) m.span →
      AtomAt b i (.literal m v) (S.next b i)
  | path {b i m p j} : PathAt S b i p j → S.covers p.span m.span → AtomAt b i (.cons m p []) j
  | rest {b i m} : S.tag i = .reserved .dotDot → S.covers (S.span i) m.span →
      AtomAt b i (.rest m) (S.next b i)
  | group {b i p k} : S.tag i = .punct .openParen → PatternAt true (S.next true i) p k →
      S.tag k = .punct .closeParen → AtomAt b i p (S.next b k)

/-- A pattern. -/
inductive PatternAt : Bool → Nat → Pattern → Nat → Prop
  | cons {b i m p k args j} : PathAt S b i p k → PatternArgsAt b k args j →
      S.covers (p.span.merge (S.last j)) m.span → PatternAt b i (.cons m p args) j
  | atom {b i p j} : nameTags.contains (S.tag i) = false → AtomAt b i p j → PatternAt b i p j

/-- The arguments of a pattern. -/
inductive PatternArgsAt : Bool → Nat → List Pattern → Nat → Prop
  | stop {b i} : patternTags.contains (S.tag i) = false → PatternArgsAt b i [] i
  | more {b i p k ps j} : AtomAt b i p k → PatternArgsAt b k ps j → PatternArgsAt b i (p :: ps) j

end

/-! ## Expressions and statements -/

mutual

/-- An expression. -/
inductive ExprAt : Context → Bool → Nat → Expr → Nat → Prop
  | binary {c b i e j} : S.binds b i = false → ChainAt c b i e j → S.operator? c j = none →
      S.tag j ≠ .reserved .arrow → S.tag j ≠ .punct .colon → ExprAt c b i e j
  | arrow {c b i m d k e j} : S.binds b i = false → ChainAt c b i d k →
      S.tag k = .reserved .arrow → ExprAt c b (S.past (S.next b k)) e j →
      S.covers (d.span.merge e.span) m.span → ExprAt c b i (.arrow m d e) j
  | ascription {c b i m v k t j} : S.binds b i = false → ChainAt c b i v k →
      S.tag k = .punct .colon → ExprAt (c.union .type) b (S.next b k) t j →
      S.covers (v.span.merge t.span) m.span → ExprAt c b i (.ascription m v t) j
  | pi {c b i m ps tr k e j} : S.binds b i = true → S.tag i = .punct .openParen →
      ParamsAt (.punct .closeParen) c.nested true (S.next true i) ps tr k →
      S.tag k = .punct .closeParen → S.tag (S.next b k) = .reserved .arrow →
      ExprAt c b (S.past (S.next b (S.next b k))) e j →
      S.covers (((S.span i).merge (S.span k)).merge e.span) m.span → ExprAt c b i (.pi m ps e) j
  | sigma {c b i m ps tr k e j} : S.binds b i = true → S.tag i = .punct .openBracket →
      ParamsAt (.punct .closeBracket) c.nested true (S.next true i) ps tr k →
      S.tag k = .punct .closeBracket → S.tag (S.next b k) = .reserved .arrow →
      ExprAt c b (S.past (S.next b (S.next b k))) e j →
      S.covers (((S.span i).merge (S.span k)).merge e.span) m.span → ExprAt c b i (.sigma m ps e) j

/-- Applications joined by operators. -/
inductive ChainAt : Context → Bool → Nat → Expr → Nat → Prop
  | one {c b i e j} : ApplicationAt c b i e j → ChainAt c b i e j
  | more {c b i m l k op r j} : ChainAt c b i l k → S.operator? c k = some op.symbols →
      S.covers (S.span k) op.span → ApplicationAt c b (S.past (S.next b k)) r j →
      S.covers (l.span.merge r.span) m.span → ChainAt c b i (.binary m l op r) j

/-- An application, or a primary without arguments. -/
inductive ApplicationAt : Context → Bool → Nat → Expr → Nat → Prop
  | bare {c b i e j} : PrimaryAt c b i e j → Inner.argumentTags.contains (S.tag j) = false →
      ApplicationAt c b i e j
  | types {c b i m f k a as j} : c.inType = true → PrimaryAt c b i f k →
      ArgsAt c b k (a :: as) j → S.covers (f.span.merge (S.last j)) m.span →
      ApplicationAt c b i (.typeApp m f (a :: as)) j
  | plain {c b i m f k a as j} : c.inType = false → PrimaryAt c b i f k →
      ArgsAt c b k (a :: as) j → ¬ S.BlockNext c j →
      S.covers (f.span.merge (S.last j)) m.span → ApplicationAt c b i (.app m f (a :: as) none) j
  | block {c b i m f k a as l t j} : c.inType = false → PrimaryAt c b i f k →
      ArgsAt c b k (a :: as) l → S.BlockNext c l → BlockAt b l t j →
      S.covers (f.span.merge (S.last j)) m.span →
      ApplicationAt c b i (.app m f (a :: as) (some t)) j

/-- The arguments of an application. -/
inductive ArgsAt : Context → Bool → Nat → List Expr → Nat → Prop
  | stop {c b i} : Inner.argumentTags.contains (S.tag i) = false → ArgsAt c b i [] i
  | more {c b i e k es j} : Inner.argumentTags.contains (S.tag i) = true → PrimaryAt c b i e k →
      ArgsAt c b k es j → ArgsAt c b i (e :: es) j

/-- An expression that can be an argument, or a lambda. -/
inductive PrimaryAt : Context → Bool → Nat → Expr → Nat → Prop
  | literal {c b i m v} : (S.kind i).literal? = some v → S.covers (S.span i) m.span →
      PrimaryAt c b i (.literal m v) (S.next b i)
  | name {c b i m x j} : PathAt S b i ⟨x, []⟩ j → S.covers x.span m.span →
      PrimaryAt c b i (.name m x.name) j
  | path {c b i m x y ys j} : PathAt S b i ⟨x, y :: ys⟩ j →
      S.covers (Path.span ⟨x, y :: ys⟩) m.span → PrimaryAt c b i (.path m ⟨x, y :: ys⟩) j
  | tuple {c b i m es tr k} : S.tag i = .punct .openParen →
      ExprsAt (.punct .closeParen) c.nested true (S.next true i) es tr k →
      S.tag k = .punct .closeParen → S.covers ((S.span i).merge (S.span k)) m.span →
      PrimaryAt c b i (.tuple m es tr) (S.next b k)
  | array {c b i m es tr k} : S.tag i = .punct .openBracket →
      ExprsAt (.punct .closeBracket) c.nested true (S.next true i) es tr k →
      S.tag k = .punct .closeBracket → S.covers ((S.span i).merge (S.span k)) m.span →
      PrimaryAt c b i (.array m es) (S.next b k)
  | conditional {c b i m h k t l e j} : S.tag i = .keyword .ifKw →
      ExprAt (c.nested.union .head) b (S.next b i) h k → ThenAt c b k t l → S.ElseNext l →
      BodyAt c b (S.next b (S.past l)) e j → S.covers ((S.span i).merge (S.last j)) m.span →
      PrimaryAt c b i (.conditional m h t e) j
  | matchOn {c b i m h k arms l} : S.tag i = .keyword .matchKw →
      ExprAt (c.nested.union .head) b (S.next b i) h k → S.tag k = .punct .openBrace →
      ArmsAt (S.past (S.next false k)) arms l → S.tag l = .punct .closeBrace →
      S.covers ((S.span i).merge ((S.span k).merge (S.span l))) m.span →
      PrimaryAt c b i (.matchOn m h arms) (S.next b l)
  | returns {c b i m v j} : S.tag i = .keyword .returnKw → S.StartsExpr (S.next b i) →
      ExprAt c b (S.next b i) v j → S.covers ((S.span i).merge v.span) m.span →
      PrimaryAt c b i (.returned m (some v)) j
  | returnsNothing {c b i m} : S.tag i = .keyword .returnKw → ¬ S.StartsExpr (S.next b i) →
      S.covers (S.span i) m.span → PrimaryAt c b i (.returned m none) (S.next b i)
  | lambda {c b i m ps tr k e j} : S.kind i = .reserved .pipe →
      ParamsAt (.reserved .pipe) (c.union .lambdaParams) b (S.next b i) ps tr k →
      S.tag k = .reserved .pipe → ExprAt (c.without .lambdaParams) b (S.next b k) e j →
      S.covers ((S.span i).merge e.span) m.span → PrimaryAt c b i (.lambda m ps e) j
  | thunk {c b i m e j} : S.kind i = .operator "||" →
      ExprAt (c.without .lambdaParams) b (S.next b i) e j →
      S.covers ((S.span i).merge e.span) m.span → PrimaryAt c b i (.lambda m [] e) j

/-- Expressions with commas between them; the flag says whether one stands behind the last. -/
inductive ExprsAt : Tag → Context → Bool → Nat → List Expr → Bool → Nat → Prop
  | none {t c b i} : S.tag i = t → ExprsAt t c b i [] false i
  | last {t c b i e k} : ExprAt c b i e k → S.tag k = t → S.tag k ≠ .punct .comma →
      ExprsAt t c b i [e] false k
  | more {t c b i e k es tr j} : ExprAt c b i e k → S.tag k = .punct .comma →
      ExprsAt t c b (S.next b k) es tr j → ExprsAt t c b i (e :: es) (tr || es.isEmpty) j

/-- Parameters with commas between them. -/
inductive ParamsAt : Tag → Context → Bool → Nat → List Param → Bool → Nat → Prop
  | none {t c b i} : S.tag i = t → ParamsAt t c b i [] false i
  | last {t c b i p k} : ParamAt c b i p k → S.tag k = t → S.tag k ≠ .punct .comma →
      ParamsAt t c b i [p] false k
  | more {t c b i p k ps tr j} : ParamAt c b i p k → S.tag k = .punct .comma →
      ParamsAt t c b (S.next b k) ps tr j → ParamsAt t c b i (p :: ps) (tr || ps.isEmpty) j

/-- A pattern with a type or without. -/
inductive ParamAt : Context → Bool → Nat → Param → Nat → Prop
  | typed {c b i p k t j s} : PatternAt S b i p k → S.tag k = .punct .colon →
      ExprAt (c.union .type) b (S.next b k) t j → S.covers (p.span.merge (S.last j)) s →
      ParamAt c b i ⟨p, some t, s⟩ j
  | untyped {c b i p j s} : PatternAt S b i p j → S.tag j ≠ .punct .colon →
      S.covers (p.span.merge (S.last j)) s → ParamAt c b i ⟨p, none, s⟩ j

/-- What follows the condition of a conditional. -/
inductive ThenAt : Context → Bool → Nat → Body → Nat → Prop
  | block {c b i t j} : S.tag i = .punct .openBrace → BlockAt b i t j → ThenAt c b i (.block t) j
  | expr {c b i e j} : S.tag i = .keyword .thenKw → ExprAt c b (S.next b i) e j →
      ThenAt c b i (.expr e) j

/-- A block or an expression. -/
inductive BodyAt : Context → Bool → Nat → Body → Nat → Prop
  | block {c b i t j} : S.tag i = .punct .openBrace → BlockAt b i t j → BodyAt c b i (.block t) j
  | expr {c b i e j} : S.tag i ≠ .punct .openBrace → ExprAt c b i e j → BodyAt c b i (.expr e) j

/-- The arms of a match. -/
inductive ArmsAt : Nat → List Arm → Nat → Prop
  | none {i} : ArmsAt i [] i
  | comma {i a k as j} : ArmAt i a k → S.tag k = .punct .comma →
      ArmsAt (S.past (S.next false k)) as j → ArmsAt i (a :: as) j
  | broken {i a k as j} : ArmAt i a k → S.tag k = .lineBreak → ArmsAt (S.past k) as j →
      ArmsAt i (a :: as) j
  | last {i a k} : ArmAt i a k → S.tag k = .punct .closeBrace → ArmsAt i [a] k

/-- An arm of a match, up to what separates it from the next. -/
inductive ArmAt : Nat → Arm → Nat → Prop
  | mk {i p k t j s} : PatternAt S false i p k → S.tag k = .reserved .fatArrow →
      BodyAt .none false (S.past (S.next false k)) t j → S.covers (p.span.merge (S.last j)) s →
      ArmAt i ⟨p, t, s⟩ j

/-- Statements between braces. -/
inductive BlockAt : Bool → Nat → Block → Nat → Prop
  | mk {b i ss k s} : S.tag i = .punct .openBrace → StmtsAt (S.past (S.next false i)) ss k →
      S.tag k = .punct .closeBrace → S.covers ((S.span i).merge (S.span k)) s →
      BlockAt b i ⟨ss, s⟩ (S.next b k)

/-- The statements of a block, up to its brace. -/
inductive StmtsAt : Nat → List Stmt → Nat → Prop
  | none {i} : StmtsAt i [] i
  | more {i s k ss j} : StmtAt .none false i s k → stmtBoundary.contains (S.tag k) = true →
      StmtsAt (S.past k) ss j → StmtsAt i (s :: ss) j
  | error {i m k ss j} : S.flawed → i ≤ k → S.covers (skippedFrom (S.span i) (S.last k)) m.span →
      StmtsAt (S.past k) ss j → StmtsAt i (.error m :: ss) j

/-- A statement. -/
inductive StmtAt : Context → Bool → Nat → Stmt → Nat → Prop
  | letIn {c b i m p k v j} : S.tag i = .keyword .letKw → PatternAt S b (S.next b i) p k →
      S.tag k = .reserved .eq → ExprAt c b (S.next b k) v j →
      S.covers ((S.span i).merge (S.last j)) m.span → StmtAt c b i (.letIn m p v) j
  | conditional {c b i m h k t j} : S.tag i = .keyword .ifKw →
      ExprAt (c.nested.union .head) b (S.next b i) h k → ThenAt c b k t j → ¬ S.ElseNext j →
      S.covers ((S.span i).merge (S.last j)) m.span → StmtAt c b i (.conditional m h t none) j
  | branches {c b i m h k t l e j} : S.tag i = .keyword .ifKw →
      ExprAt (c.nested.union .head) b (S.next b i) h k → ThenAt c b k t l → S.ElseNext l →
      BodyAt c b (S.next b (S.past l)) e j → S.covers ((S.span i).merge (S.last j)) m.span →
      StmtAt c b i (.conditional m h t (some e)) j
  | ask {c b i m p k v j} : S.tag i ≠ .keyword .letKw → S.tag i ≠ .keyword .ifKw →
      S.ahead (.reserved .leftArrow) i = true → PatternAt S b i p k →
      S.tag k = .reserved .leftArrow → ExprAt c b (S.past (S.next b k)) v j →
      S.covers ((S.span i).merge (S.last j)) m.span → StmtAt c b i (.ask m p v) j
  | expr {c b i m v j} : S.tag i ≠ .keyword .letKw → S.tag i ≠ .keyword .ifKw →
      S.ahead (.reserved .leftArrow) i = false → ExprAt c b i v j →
      S.covers ((S.span i).merge (S.last j)) m.span → StmtAt c b i (.expr m v) j

end

end

/-! ## Progress

Every derivation of a single node takes a token. -/

section

variable {S : Setting}

theorem SegmentsAt.le {b i xs j} (h : SegmentsAt S b i xs j) : i ≤ j := by
  induction h with
  | stop _ => exact Nat.le_refl _
  | @more i _ _ _ _ _ _ ih =>
    have := S.lt_next b i
    have := S.lt_next b (S.next b i)
    omega

theorem PathAt.lt {b i p j} (h : PathAt S b i p j) : i < j :=
  Nat.lt_of_lt_of_le (S.lt_next b i) h.tail.le

mutual

theorem AtomAt.lt {b i p j} : AtomAt S b i p j → i < j
  | .literal _ _ | .rest _ _ => S.lt_next _ _
  | .path h _ => h.lt
  | .group (k := k) _ h _ => by
    have := S.lt_next true i
    have := S.lt_next b k
    have := h.lt
    omega

theorem PatternAt.lt {b i p j} : PatternAt S b i p j → i < j
  | .cons h hs _ => Nat.lt_of_lt_of_le h.lt hs.le
  | .atom _ h => h.lt

theorem PatternArgsAt.le {b i ps j} : PatternArgsAt S b i ps j → i ≤ j
  | .stop _ => Nat.le_refl _
  | .more h hs => Nat.le_trans (Nat.le_of_lt h.lt) hs.le

end

mutual

theorem ExprAt.lt {c b i e j} : ExprAt S c b i e j → i < j
  | .binary _ h _ _ _ => h.lt
  | .arrow (k := k) _ h _ h' _ => by
    have := h.lt
    have := S.lt_next b k
    have := S.le_past (S.next b k)
    have := h'.lt
    omega
  | .ascription (k := k) _ h _ h' _ => by
    have := h.lt
    have := S.lt_next b k
    have := h'.lt
    omega
  | .pi (k := k) _ _ h _ _ h' _ | .sigma (k := k) _ _ h _ _ h' _ => by
    have := S.lt_next true i
    have := h.le
    have := S.lt_next b k
    have := S.lt_next b (S.next b k)
    have := S.le_past (S.next b (S.next b k))
    have := h'.lt
    omega

theorem ChainAt.lt {c b i e j} : ChainAt S c b i e j → i < j
  | .one h => h.lt
  | .more (k := k) h _ _ h' _ => by
    have := h.lt
    have := S.lt_next b k
    have := S.le_past (S.next b k)
    have := h'.lt
    omega

theorem ApplicationAt.lt {c b i e j} : ApplicationAt S c b i e j → i < j
  | .bare h _ => h.lt
  | .types _ h h' _ | .plain _ h h' _ _ => Nat.lt_of_lt_of_le h.lt h'.le
  | .block _ h h' _ h'' _ => by
    have := h.lt
    have := h'.le
    have := h''.lt
    omega

theorem ArgsAt.le {c b i es j} : ArgsAt S c b i es j → i ≤ j
  | .stop _ => Nat.le_refl _
  | .more _ h h' => Nat.le_trans (Nat.le_of_lt h.lt) h'.le

theorem PrimaryAt.lt {c b i e j} : PrimaryAt S c b i e j → i < j
  | .literal _ _ | .returnsNothing _ _ _ => S.lt_next _ _
  | .name h _ | .path h _ => h.lt
  | .tuple (k := k) _ h _ _ | .array (k := k) _ h _ _ => by
    have := S.lt_next true i
    have := h.le
    have := S.lt_next b k
    omega
  | .conditional (l := l) _ h h' _ h'' _ => by
    have := S.lt_next b i
    have := h.lt
    have := h'.lt
    have := S.le_past l
    have := S.lt_next b (S.past l)
    have := h''.lt
    omega
  | .matchOn (k := k) (l := l) _ h _ h' _ _ => by
    have := S.lt_next b i
    have := h.lt
    have := S.lt_next false k
    have := S.le_past (S.next false k)
    have := h'.le
    have := S.lt_next b l
    omega
  | .returns _ _ h _ | .thunk _ h _ => Nat.lt_trans (S.lt_next b i) h.lt
  | .lambda (k := k) _ h _ h' _ => by
    have := S.lt_next b i
    have := h.le
    have := S.lt_next b k
    have := h'.lt
    omega

theorem ExprsAt.le {t c b i es tr j} : ExprsAt S t c b i es tr j → i ≤ j
  | .none _ => Nat.le_refl _
  | .last h _ _ => Nat.le_of_lt h.lt
  | .more (k := k) h _ h' => by
    have := h.lt
    have := S.lt_next b k
    have := h'.le
    omega

theorem ParamsAt.le {t c b i ps tr j} : ParamsAt S t c b i ps tr j → i ≤ j
  | .none _ => Nat.le_refl _
  | .last h _ _ => Nat.le_of_lt h.lt
  | .more (k := k) h _ h' => by
    have := h.lt
    have := S.lt_next b k
    have := h'.le
    omega

theorem ParamAt.lt {c b i p j} : ParamAt S c b i p j → i < j
  | .typed (k := k) h _ h' _ => by
    have := h.lt
    have := S.lt_next b k
    have := h'.lt
    omega
  | .untyped h _ _ => h.lt

theorem ThenAt.lt {c b i t j} : ThenAt S c b i t j → i < j
  | .block _ h => h.lt
  | .expr _ h => Nat.lt_trans (S.lt_next b i) h.lt

theorem BodyAt.lt {c b i t j} : BodyAt S c b i t j → i < j
  | .block _ h => h.lt
  | .expr _ h => h.lt

theorem ArmsAt.le {i as j} : ArmsAt S i as j → i ≤ j
  | .none => Nat.le_refl _
  | .comma (k := k) h _ h' => by
    have := h.lt
    have := S.lt_next false k
    have := S.le_past (S.next false k)
    have := h'.le
    omega
  | .broken (k := k) h _ h' => by
    have := h.lt
    have := S.le_past k
    have := h'.le
    omega
  | .last h _ => Nat.le_of_lt h.lt

theorem ArmAt.lt {i a j} : ArmAt S i a j → i < j
  | .mk (k := k) h _ h' _ => by
    have := h.lt
    have := S.lt_next false k
    have := S.le_past (S.next false k)
    have := h'.lt
    omega

theorem BlockAt.lt {b i t j} : BlockAt S b i t j → i < j
  | .mk (k := k) _ h _ _ => by
    have := S.lt_next false i
    have := S.le_past (S.next false i)
    have := h.le
    have := S.lt_next b k
    omega

theorem StmtsAt.le {i ss j} : StmtsAt S i ss j → i ≤ j
  | .none => Nat.le_refl _
  | .more (k := k) h _ h' => by
    have := h.lt
    have := S.le_past k
    have := h'.le
    omega
  | .error (k := k) _ h _ h' => by
    have := S.le_past k
    have := h'.le
    omega

theorem StmtAt.lt {c b i s j} : StmtAt S c b i s j → i < j
  | .letIn (k := k) _ h _ h' _ => by
    have := S.lt_next b i
    have := h.lt
    have := S.lt_next b k
    have := h'.lt
    omega
  | .conditional _ h h' _ _ => by
    have := S.lt_next b i
    have := h.lt
    have := h'.lt
    omega
  | .branches (l := l) _ h h' _ h'' _ => by
    have := S.lt_next b i
    have := h.lt
    have := h'.lt
    have := S.le_past l
    have := S.lt_next b (S.past l)
    have := h''.lt
    omega
  | .ask (k := k) _ _ _ h _ h' _ => by
    have := h.lt
    have := S.lt_next b k
    have := S.le_past (S.next b k)
    have := h'.lt
    omega
  | .expr _ _ _ h _ => h.lt

end

/-- Operands joined by operators, from the first operand on. -/
theorem ChainAt.induct {c b i} {motive : Expr → Nat → Prop}
    (one : ∀ {e j}, ApplicationAt S c b i e j → motive e j)
    (more : ∀ {m l k op r j}, motive l k → S.operator? c k = some op.symbols →
      ApplicationAt S c b (S.past (S.next b k)) r j → motive (.binary m l op r) j) :
    ∀ {e j}, ChainAt S c b i e j → motive e j
  | _, _, .one h => one h
  | _, _, .more h op _ r _ => more (h.induct one more) op r

/-! ## First tokens -/

theorem Setting.startsExpr_of_name {i : Nat} {x : String} (h : (S.kind i).name? = some x) :
    S.StartsExpr i := by
  have tag := Setting.tag_of_name h
  revert tag
  unfold Setting.StartsExpr
  generalize S.tag i = t
  intro tag
  left
  revert t
  decide

theorem PrimaryAt.starts {c b i e j} (h : PrimaryAt S c b i e j) : S.StartsExpr i := by
  have of_tag {t : Tag} (h : S.tag i = t) (ht : exprTags.contains t = true) : S.StartsExpr i :=
    .inl (by rwa [h])
  cases h with
  | literal hv _ =>
    rcases Setting.tag_of_literal hv with h | h | h <;> exact of_tag h (by decide)
  | name h _ => exact Setting.startsExpr_of_name h.head.1
  | path h _ => exact Setting.startsExpr_of_name h.head.1
  | tuple h _ _ _ => exact of_tag h (by decide)
  | array h _ _ _ => exact of_tag h (by decide)
  | conditional h _ _ _ _ _ => exact of_tag h (by decide)
  | matchOn h _ _ _ _ _ => exact of_tag h (by decide)
  | returns h _ _ _ => exact of_tag h (by decide)
  | returnsNothing h _ _ => exact of_tag h (by decide)
  | lambda h _ _ _ _ => exact .inr (by rw [h]; rfl)
  | thunk h _ _ => exact .inr (by rw [h]; rfl)

theorem ApplicationAt.starts {c b i e j} (h : ApplicationAt S c b i e j) : S.StartsExpr i := by
  cases h with
  | bare h _ => exact h.starts
  | types _ h _ _ => exact h.starts
  | plain _ h _ _ _ => exact h.starts
  | block _ h _ _ _ _ => exact h.starts

theorem ChainAt.starts {c b i e j} (h : ChainAt S c b i e j) : S.StartsExpr i :=
  h.induct (fun first => first.starts) fun starts _ _ => starts

theorem ExprAt.starts {c b i e j} (h : ExprAt S c b i e j) : S.StartsExpr i := by
  cases h with
  | binary _ h _ _ _ => exact h.starts
  | arrow _ h _ _ _ => exact h.starts
  | ascription _ h _ _ _ => exact h.starts
  | pi _ h _ _ _ _ _ => exact .inl (by rw [h]; decide)
  | sigma _ h _ _ _ _ _ => exact .inl (by rw [h]; decide)

/-- A token that an expression starts with has one of these tags. -/
theorem Setting.StartsExpr.tag {i : Nat} (h : S.StartsExpr i) :
    exprTags.contains (S.tag i) = true ∨ S.tag i = .operator := by
  rcases h with h | h
  · exact .inl h
  · rcases opensLambda_cases h with hk | hk <;> rw [← S.tag_kind, hk]
    · exact .inl (by decide)
    · exact .inr rfl

theorem AtomAt.starts {b i p j} (h : AtomAt S b i p j) : patternTags.contains (S.tag i) = true := by
  have of_name (h : nameTags.contains (S.tag i) = true) : patternTags.contains (S.tag i) = true := by
    revert h
    generalize S.tag i = t
    revert t
    decide
  cases h with
  | literal hv _ => rcases Setting.tag_of_literal hv with h | h | h <;> rw [h] <;> decide
  | path h _ => exact of_name (Setting.tag_of_name h.head.1)
  | rest h _ => rw [h]; decide
  | group h _ _ => rw [h]; decide

theorem PatternAt.starts {b i p j} (h : PatternAt S b i p j) :
    patternTags.contains (S.tag i) = true := by
  cases h with
  | cons h _ _ => exact (AtomAt.path (m := ⟨0, _⟩) h (S.covers_refl _)).starts
  | atom _ h => exact h.starts

theorem Setting.StartsExpr.ne {i : Nat} (h : S.StartsExpr i) {t : Tag}
    (ht : exprTags.contains t = false) (hop : t ≠ .operator) : S.tag i ≠ t := by
  rintro rfl
  rcases h.tag with h | h
  · rw [h] at ht
    cases ht
  · exact hop h

end

end Surface.Grammar
