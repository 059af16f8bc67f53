import Surface.Proofs.Tree.Between

/-!
# Spans nest and siblings stand in order

The tree of every text, with syntax errors or without, is in place: every span runs forward and
lies inside the text and inside the span of its parent, and the children of a node follow each
other. It holds of what the rules derive where the tokens of the stream stand in order.

Results:
* `AtomAt.treeIn`, `ExprAt.treeIn`, `StmtAt.treeIn` and their likes: what the rules of patterns,
  expressions and statements derive is in place.
-/

namespace Surface

/-! ## Spans of trees -/

theorem Path.span_tree (p : Path) : p.tree.span = p.span := rfl

theorem Pattern.span_tree (p : Pattern) : p.tree.span = p.span := by
  cases p <;> rfl

theorem Expr.span_tree (e : Expr) : e.tree.span = e.span := by
  cases e <;> rfl

/-- The documentation of an item; statements have none. -/
def Item.docs : Item → List DocString
  | decl d => d.docs
  | stmt _ => []

namespace Grammar

variable {S : Setting} {b : Bool} {i j k l : Nat}

/-! ## Names, paths and literals -/

theorem Setting.NameAt.ne_lineBreak {x : Ident} (h : S.NameAt i x) : S.tag i ≠ .lineBreak :=
  Setting.ne_of_contains (Setting.tag_of_name h.1) (by decide)

theorem Setting.NameAt.treeIn {x : Ident} (o : S.Ordered) (h : S.NameAt i x) :
    TreeIn S i (S.next b i) x.tree :=
  .token x.name o h.ne_lineBreak (o.exact _ _ h.2)

/-- The names behind a span that has been gathered up to position `i` lie in what it grows to. -/
theorem SegmentsAt.laid {xs : List Ident} (o : S.Ordered) (h : SegmentsAt S b i xs j) {s : Span}
    (hs : s.start ≤ s.stop) (hi : s.stop ≤ (S.last i).stop) :
    let r := xs.foldl (fun s x => s.merge x.span) s
    r.start = s.start ∧ r.stop ≤ (S.last j).stop
      ∧ Laid s.stop r.stop (allUnder "segment" (xs.map Ident.tree)) := by
  induction h generalizing s with
  | stop _ => exact ⟨rfl, hi, Nat.le_refl _⟩
  | @more i x xs j dot name rest ih =>
    have here := name.treeIn (b := b) o
    have from_ : (S.span (S.next b i)).start ≤ x.span.start := here.start
    have till : x.span.stop ≤ (S.last (S.next b (S.next b i))).stop := here.stop
    have forward : x.span.start ≤ x.span.stop := here.forward
    have := o.last_stop_le_start (S.le_next b i)
    have := Span.merge_start s x.span
    have := Span.merge_stop s x.span
    have merged : (s.merge x.span).stop = x.span.stop := by omega
    obtain ⟨start, stop, laid⟩ := ih (s := s.merge x.span) (by omega) (by omega)
    rw [merged] at laid
    exact ⟨by rw [List.foldl_cons, start]; omega, stop, rfl, here.nested,
      by show _ ≤ x.span.start; omega, forward, laid⟩

theorem PathAt.treeIn {p : Path} (o : S.Ordered) (h : PathAt S b i p j) : TreeIn S i j p.tree := by
  have head := h.head.treeIn (b := b) o
  obtain ⟨start, stop, laid⟩ := h.tail.laid o head.forward head.stop
  have first : (S.span i).start ≤ p.head.span.start := head.start
  refine .node ⟨rfl, head.nested, ?_, head.forward, laid⟩ ?_ stop
  · exact Nat.le_of_eq start
  · exact Nat.le_trans first (Nat.le_of_eq start.symm)

theorem literal_treeIn {kind field : String} (hk : Tree.isLiteralKind kind = true)
    (hf : isNumberPart field = false) {s : Span} {v : Literal} (o : S.Ordered)
    (h : (S.kind i).literal? = some v) (hs : s = S.span i) :
    TreeIn S i (S.next b i) (.node kind s (v.children field s)) := by
  subst hs
  have ne : S.tag i ≠ .lineBreak := by
    rcases Setting.tag_of_literal h with h | h | h <;> rw [h] <;> exact Tag.noConfusion
  exact ⟨Literal.nested hk hf (o.start_le_stop i) v, Nat.le_refl _,
    Nat.le_of_eq (congrArg Span.stop (Setting.last_next ne).symm)⟩

/-! ## Patterns -/

mutual

theorem AtomAt.treeIn (o : S.Ordered) {b i p j} : AtomAt S b i p j → TreeIn S i j p.tree
  | .literal hv hm => literal_treeIn rfl rfl o hv (o.exact _ _ hm)
  | .path h hm => .whole rfl (h.treeIn o) (o.exact _ _ hm)
  | .rest h hm =>
    .empty (.token ".." o (Setting.ne_of_tag h Tag.noConfusion) rfl) (o.exact _ _ hm)
  | .group _ hp _ => (hp.treeIn o).widen o (S.le_next true i) (S.le_next b _)

theorem PatternAt.treeIn (o : S.Ordered) {b i p j} : PatternAt S b i p j → TreeIn S i j p.tree
  | .cons h hs hm =>
    .spread o rfl (h.treeIn o) (Nat.le_refl _) hs.le (hs.childrenIn o)
      (Nat.lt_of_lt_of_le h.lt hs.le) h.head.ne_lineBreak (o.exact _ _ hm)
  | .atom _ h => h.treeIn o

theorem PatternArgsAt.childrenIn (o : S.Ordered) {b i ps j} :
    PatternArgsAt S b i ps j → ChildrenIn S i j (Pattern.argChildren ps)
  | .stop _ => .nil
  | .more h hs => .cons o rfl (h.treeIn o) (Nat.le_refl _) hs.le (hs.childrenIn o)

end

/-! ## Expressions and statements -/

theorem PatternAt.ne_lineBreak {p : Pattern} (h : PatternAt S b i p j) : S.tag i ≠ .lineBreak :=
  Setting.ne_of_contains h.starts (by decide)

theorem Setting.ne_lineBreak_of_operator {c : Context} {x : String} (h : S.operator? c i = some x) :
    S.tag i ≠ .lineBreak := by
  rw [← S.tag_kind]
  unfold Setting.operator? at h
  cases hk : S.kind i <;> rw [hk] at h <;> try cases h
  all_goals exact Tag.noConfusion

theorem trailingComma_treeIn {s : Span} (o : S.Ordered) (hi : i ≤ k)
    (hk : S.tag k = .punct .closeParen) (hs : s = (S.span i).merge (S.span k)) :
    TreeIn S k (S.next b k) (trailingComma s) := by
  have := o.nonempty k (by rw [hk]; exact Tag.noConfusion)
  rw [hs, o.merge_tokens hi]
  refine ⟨Tree.nested_token (Nat.le_refl _), ?_, ?_⟩
  · show (S.span k).start ≤ (S.span k).stop - 1
    omega
  · rw [Setting.last_next (Setting.ne_of_tag hk Tag.noConfusion)]
    exact Nat.sub_le _ _

theorem operator_treeIn {c : Context} {op : Operator} (o : S.Ordered)
    (h : S.operator? c i = some op.symbols) (hs : S.covers (S.span i) op.span) :
    TreeIn S i (S.next b i) (.token op.symbols op.span) :=
  .token op.symbols o (Setting.ne_lineBreak_of_operator h) (o.exact _ _ hs)

/-- What was given up between two positions. -/
theorem Setting.Ordered.skipped_bounds (o : S.Ordered) (hi : i ≤ k) {s : Span}
    (h : S.covers (skippedFrom (S.span i) (S.last k)) s) :
    s.start = (S.span i).start ∧ s.start ≤ s.stop ∧ s.stop ≤ (S.span k).start := by
  have := o.start_mono hi
  have := o.last_stop_le_start (Nat.le_refl k)
  rw [o.exact _ _ h]
  unfold skippedFrom
  split
  · next lt => exact ⟨rfl, Nat.le_of_lt lt, this⟩
  · exact ⟨rfl, Nat.le_refl _, o.start_mono hi⟩

theorem Setting.StartsExpr.ne_lineBreak (h : S.StartsExpr i) : S.tag i ≠ .lineBreak :=
  h.ne (by decide) Tag.noConfusion

mutual

theorem ExprAt.treeIn (o : S.Ordered) {c b i e j} : ExprAt S c b i e j → TreeIn S i j e.tree
  | .binary _ h _ _ _ => h.treeIn o
  | .arrow (k := k) (d := d) (e := e) _ h hk h' hm => by
    have le : k ≤ S.past (S.next b k) := Nat.le_trans (S.le_next b k) (S.le_past _)
    refine .pair o rfl rfl (h.treeIn o) le (h'.treeIn o) (Nat.le_of_lt h'.lt) ?_
    rw [Expr.span_tree, Expr.span_tree]
    exact o.exact _ _ hm
  | .ascription (k := k) _ h hk h' hm => by
    refine .pair o rfl rfl (h.treeIn o) (S.le_next b k) (h'.treeIn o) (Nat.le_of_lt h'.lt) ?_
    rw [Expr.span_tree, Expr.span_tree]
    exact o.exact _ _ hm
  | .pi (k := k) _ _ h _ _ h' hm | .sigma (k := k) _ _ h _ _ h' hm => by
    have lt : k < S.past (S.next b (S.next b k)) := Nat.lt_of_lt_of_le (S.lt_next b k)
      (Nat.le_trans (S.le_next b _) (S.le_past _))
    have le := Nat.le_trans (S.le_next true i) h.le
    have codomain := h'.treeIn o
    have span := o.exact _ _ hm
    rw [o.merge_tokens le, ← Expr.span_tree] at span
    have span := span.trans
      (codomain.merge_eq (k := k) o lt (Nat.le_trans (o.start_mono le) (o.start_le_stop k)) rfl)
    exact .opened o rfl (S.le_next true i) (h.childrenIn o) h.le (Nat.le_of_lt lt) codomain span

theorem ChainAt.treeIn (o : S.Ordered) {c b i e j} : ChainAt S c b i e j → TreeIn S i j e.tree
  | .one h => h.treeIn o
  | .more (k := k) h hk hop h' hm => by
    refine .joined o rfl rfl (h.treeIn o) (Nat.le_refl _) (.single o rfl (operator_treeIn o hk hop))
      (S.le_next b k) (S.le_past _) (h'.treeIn o) (Nat.le_of_lt h'.lt) ?_
    rw [Expr.span_tree, Expr.span_tree]
    exact o.exact _ _ hm

theorem ApplicationAt.treeIn (o : S.Ordered) {c b i e j} :
    ApplicationAt S c b i e j → TreeIn S i j e.tree
  | .bare h _ => h.treeIn o
  | .types _ h h' hm => by
    refine .spread o rfl (h.treeIn o) (Nat.le_refl _) h'.le (h'.childrenIn o)
      (Nat.lt_of_lt_of_le h.lt h'.le) h.starts.ne_lineBreak ?_
    rw [Expr.span_tree]
    exact o.exact _ _ hm
  | .plain _ h h' _ hm => by
    refine .spread o rfl (h.treeIn o) (Nat.le_refl _) h'.le ?_ (Nat.lt_of_lt_of_le h.lt h'.le)
      h.starts.ne_lineBreak ?_
    · exact .append o (h'.childrenIn o) h'.le (Nat.le_refl _) (Nat.le_refl _) .nil
    · rw [Expr.span_tree]
      exact o.exact _ _ hm
  | .block _ h h' _ h'' hm => by
    have le := Nat.le_trans h'.le (Nat.le_of_lt h''.lt)
    refine .spread o rfl (h.treeIn o) (Nat.le_refl _) le ?_ (Nat.lt_of_lt_of_le h.lt le)
      h.starts.ne_lineBreak ?_
    · exact .append o (h'.childrenIn o) h'.le (Nat.le_refl _) (Nat.le_of_lt h''.lt)
        (.single o rfl (h''.treeIn o))
    · rw [Expr.span_tree]
      exact o.exact _ _ hm

theorem ArgsAt.childrenIn (o : S.Ordered) {c b i es j} :
    ArgsAt S c b i es j → ChildrenIn S i j (Expr.children "argument" es)
  | .stop _ => .nil
  | .more _ h h' => .cons o rfl (h.treeIn o) (Nat.le_refl _) h'.le (h'.childrenIn o)

theorem PrimaryAt.treeIn (o : S.Ordered) {c b i e j} :
    PrimaryAt S c b i e j → TreeIn S i j e.tree
  | .literal hv hm => literal_treeIn rfl rfl o hv (o.exact _ _ hm)
  | .name h hm => .whole rfl (.renamed (h.treeIn o) (o.exact _ _ hm)) rfl
  | .path h hm => .whole rfl (h.treeIn o) (o.exact _ _ hm)
  | .tuple (k := k) hi h hk hm => by
    refine .closed o (S.le_next true i) ?_ (Nat.le_trans (S.le_next true i) h.le)
      (Setting.ne_of_tag hk Tag.noConfusion) (o.exact _ _ hm)
    refine .append o (h.childrenIn o rfl) h.le (Nat.le_refl _) (S.le_next b k) ?_
    split
    · have le := Nat.le_trans (S.le_next true i) h.le
      exact .single o rfl (trailingComma_treeIn o le hk (o.exact _ _ hm))
    · exact .nil
  | .array (k := k) hi h hk hm =>
    .closed o (S.le_next true i)
      ((h.childrenIn o rfl).widen o (Nat.le_refl _) (S.le_next b k))
      (Nat.le_trans (S.le_next true i) h.le) (Setting.ne_of_tag hk Tag.noConfusion)
      (o.exact _ _ hm)
  | .conditional (k := k) (l := l) hi h h' he h'' hm => by
    have le : l ≤ S.next b (S.past l) := Nat.le_trans (S.le_past l) (S.le_next b _)
    have lt := Nat.lt_of_le_of_lt le h''.lt
    refine .behind o (.cons o rfl (h.treeIn o) (Nat.le_refl _) (Nat.le_of_lt (Nat.lt_trans h'.lt lt))
      (.cons o rfl (h'.treeIn o) le (Nat.le_of_lt h''.lt) (.single o rfl (h''.treeIn o))))
      (S.le_next b i) ?_ (Setting.ne_of_tag hi Tag.noConfusion) (o.exact _ _ hm)
    have := S.lt_next b i
    have := h.lt
    have := h'.lt
    omega
  | .matchOn (k := k) (l := l) hi h hk h' hl hm => by
    have le : k ≤ S.past (S.next false k) := Nat.le_trans (S.le_next false k) (S.le_past _)
    have le' := Nat.le_trans le h'.le
    have first := Nat.le_trans (S.le_next b i) (Nat.le_of_lt h.lt)
    have last := Nat.le_trans h'.le (S.le_next b l)
    refine .closed o (S.le_next b i) (.cons o rfl (h.treeIn o) le last ?_)
      (Nat.le_trans first le') (Setting.ne_of_tag hl Tag.noConfusion) ?_
    · exact (h'.childrenIn o).widen o (Nat.le_refl _) (S.le_next b l)
    · rw [o.exact _ _ hm, o.merge_tokens le', o.merge_tokens (Nat.le_trans first le')]
      exact Span.merge_of_le (o.start_mono first) (o.stop_le_stop (Nat.le_trans first le'))
  | .returns hi hs h hm => by
    have value := h.treeIn o
    have span := o.exact _ _ hm
    rw [← Expr.span_tree, value.merge_eq o (S.lt_next b i) (o.start_le_stop i) rfl] at span
    exact .prefixed o rfl (S.le_next b i) value span
  | .returnsNothing hi hs hm =>
    .empty (.token "return" o (Setting.ne_of_tag hi Tag.noConfusion) rfl) (o.exact _ _ hm)
  | .lambda (k := k) hi h hk h' hm => by
    have le := Nat.le_trans (S.le_next b i) h.le
    have body := h'.treeIn o
    have span := o.exact _ _ hm
    rw [← Expr.span_tree, body.merge_eq o (Nat.lt_of_le_of_lt le (S.lt_next b k))
      (o.start_le_stop i) rfl] at span
    exact .opened o rfl (S.le_next b i) (h.childrenIn o) h.le (S.le_next b k) body span
  | .thunk hi h hm => by
    have body := h.treeIn o
    have span := o.exact _ _ hm
    rw [← Expr.span_tree, body.merge_eq o (S.lt_next b i) (o.start_le_stop i) rfl] at span
    exact .prefixed o rfl (S.le_next b i) body span

theorem ExprsAt.childrenIn (o : S.Ordered) {field t c b i es tr j}
    (hf : isNumberPart field = false) :
    ExprsAt S t c b i es tr j → ChildrenIn S i j (Expr.children field es)
  | .none _ => .nil
  | .last h _ _ => .single o hf (h.treeIn o)
  | .more (k := k) h _ h' =>
    .cons o hf (h.treeIn o) (S.le_next b k) h'.le (h'.childrenIn o hf)

theorem ParamsAt.childrenIn (o : S.Ordered) {t c b i ps tr j} :
    ParamsAt S t c b i ps tr j → ChildrenIn S i j (Param.children ps)
  | .none _ => .nil
  | .last h _ _ => .single o rfl (h.treeIn o)
  | .more (k := k) h _ h' => .cons o rfl (h.treeIn o) (S.le_next b k) h'.le (h'.childrenIn o)

theorem ParamAt.treeIn (o : S.Ordered) {c b i p j} : ParamAt S c b i p j → TreeIn S i j p.tree
  | .typed (k := k) h hk h' hm => by
    refine .spread o rfl (h.treeIn o) (S.le_next b k) (Nat.le_of_lt h'.lt)
      (.single o rfl (h'.treeIn o)) ?_ h.ne_lineBreak ?_
    · exact Nat.lt_trans h.lt (Nat.lt_of_le_of_lt (S.le_next b k) h'.lt)
    · rw [Pattern.span_tree]
      exact o.exact _ _ hm
  | .untyped h hj hm => by
    refine .spread o rfl (h.treeIn o) (Nat.le_refl _) (Nat.le_refl _) .nil h.lt h.ne_lineBreak ?_
    rw [Pattern.span_tree]
    exact o.exact _ _ hm

theorem ThenAt.treeIn (o : S.Ordered) {c b i t j} : ThenAt S c b i t j → TreeIn S i j t.tree
  | .block _ h => h.treeIn o
  | .expr _ h => (h.treeIn o).widen o (S.le_next b i) (Nat.le_refl _)

theorem BodyAt.treeIn (o : S.Ordered) {c b i t j} : BodyAt S c b i t j → TreeIn S i j t.tree
  | .block _ h => h.treeIn o
  | .expr _ h => h.treeIn o

theorem ArmsAt.childrenIn (o : S.Ordered) {i as j} :
    ArmsAt S i as j → ChildrenIn S i j (Arm.children as)
  | .none => .nil
  | .comma (k := k) h _ h' =>
    .cons o rfl (h.treeIn o) (Nat.le_trans (S.le_next false k) (S.le_past _)) h'.le
      (h'.childrenIn o)
  | .broken (k := k) h _ h' => .cons o rfl (h.treeIn o) (S.le_past k) h'.le (h'.childrenIn o)
  | .last h _ => .single o rfl (h.treeIn o)

theorem ArmAt.treeIn (o : S.Ordered) {i a j} : ArmAt S i a j → TreeIn S i j a.tree
  | .mk (k := k) h hk h' hm => by
    have le : k ≤ S.past (S.next false k) := Nat.le_trans (S.le_next false k) (S.le_past _)
    refine .spread o rfl (h.treeIn o) le (Nat.le_of_lt h'.lt) (.single o rfl (h'.treeIn o))
      (Nat.lt_trans h.lt (Nat.lt_of_le_of_lt le h'.lt)) h.ne_lineBreak ?_
    rw [Pattern.span_tree]
    exact o.exact _ _ hm

theorem BlockAt.treeIn (o : S.Ordered) {b i t j} : BlockAt S b i t j → TreeIn S i j t.tree
  | .mk (k := k) hi h hk hm => by
    have start := Nat.le_trans (S.le_next false i) (S.le_past _)
    have le := Nat.le_trans start h.le
    have last : (S.last (S.next b k)).stop = (S.span k).stop :=
      congrArg Span.stop (Setting.last_next (Setting.ne_of_tag hk Tag.noConfusion))
    have span := (o.exact _ _ hm).trans (o.merge_tokens le)
    subst span
    exact .node ((h.laid o).widen (o.start_mono start) (o.start_le_stop k)) (Nat.le_refl _)
      (Nat.le_of_eq last.symm)

theorem StmtsAt.laid (o : S.Ordered) {i ss j} :
    StmtsAt S i ss j → Laid (S.span i).start (S.span j).start (Stmt.children ss)
  | .none => Nat.le_refl _
  | .more (k := k) h _ h' => by
    have tree := h.treeIn o
    exact ⟨rfl, tree.nested, tree.start, tree.forward,
      (h'.laid o).widen (Nat.le_trans tree.stop (o.last_stop_le_start (S.le_past k))) (Nat.le_refl _)⟩
  | .error (k := k) _ h hm h' => by
    obtain ⟨start, forward, stop⟩ := o.skipped_bounds h hm
    exact ⟨rfl, Laid.nested forward, Nat.le_of_eq start.symm, forward,
      (h'.laid o).widen (Nat.le_trans stop (o.start_mono (S.le_past k))) (Nat.le_refl _)⟩

theorem StmtAt.treeIn (o : S.Ordered) {c b i s j} : StmtAt S c b i s j → TreeIn S i j s.tree
  | .letIn (k := k) hi h hk h' hm => by
    refine .behind o (.cons o rfl (h.treeIn o) (S.le_next b k) (Nat.le_of_lt h'.lt)
      (.single o rfl (h'.treeIn o))) (S.le_next b i) ?_
      (Setting.ne_of_tag hi Tag.noConfusion) (o.exact _ _ hm)
    exact (StmtAt.letIn (m := ⟨0, _⟩) (c := c) hi h hk h' (S.covers_refl _)).lt
  | .conditional hi h h' he hm => by
    refine .behind o (.cons o rfl (h.treeIn o) (Nat.le_refl _) (Nat.le_of_lt h'.lt)
      (.cons o rfl (h'.treeIn o) (Nat.le_refl _) (Nat.le_refl _) .nil)) (S.le_next b i) ?_
      (Setting.ne_of_tag hi Tag.noConfusion) (o.exact _ _ hm)
    exact Nat.lt_trans (S.lt_next b i) (Nat.lt_trans h.lt h'.lt)
  | .branches (l := l) hi h h' he h'' hm => by
    have le : l ≤ S.next b (S.past l) := Nat.le_trans (S.le_past l) (S.le_next b _)
    have lt := Nat.lt_of_le_of_lt le h''.lt
    refine .behind o (.cons o rfl (h.treeIn o) (Nat.le_refl _) (Nat.le_of_lt (Nat.lt_trans h'.lt lt))
      (.cons o rfl (h'.treeIn o) le (Nat.le_of_lt h''.lt) (.single o rfl (h''.treeIn o))))
      (S.le_next b i) ?_ (Setting.ne_of_tag hi Tag.noConfusion) (o.exact _ _ hm)
    exact Nat.lt_trans (S.lt_next b i) (Nat.lt_trans h.lt (Nat.lt_trans h'.lt lt))
  | .ask (k := k) _ _ _ h hk h' hm => by
    have le : k ≤ S.past (S.next b k) := Nat.le_trans (S.le_next b k) (S.le_past _)
    exact .behind o (.cons o rfl (h.treeIn o) le (Nat.le_of_lt h'.lt) (.single o rfl (h'.treeIn o)))
      (Nat.le_refl _) (Nat.lt_trans h.lt (Nat.lt_of_le_of_lt le h'.lt)) h.ne_lineBreak
      (o.exact _ _ hm)
  | .expr _ _ _ h hm =>
    .behind o (.single o rfl (h.treeIn o)) (Nat.le_refl _) h.lt h.starts.ne_lineBreak (o.exact _ _ hm)

end

/-! ## Declarations -/

theorem ParamListAt.treeIn {l : ParamList} (o : S.Ordered) (h : ParamListAt S i l j) :
    TreeIn S i j l.tree := by
  cases h with
  | explicit _ h hk hs =>
    exact .closed o (S.le_next true i) ((h.childrenIn o).widen o (Nat.le_refl _) (S.le_next false _))
      (Nat.le_trans (S.le_next true i) h.le) (Setting.ne_of_tag hk Tag.noConfusion) (o.exact _ _ hs)
  | implicit _ _ h hk hs =>
    exact .closed o (S.le_next true i) ((h.childrenIn o).widen o (Nat.le_refl _) (S.le_next false _))
      (Nat.le_trans (S.le_next true i) h.le) (Setting.ne_of_tag hk Tag.noConfusion) (o.exact _ _ hs)

theorem ParamListsAt.childrenIn {ls : List ParamList} (o : S.Ordered) (h : ParamListsAt S i ls j) :
    ChildrenIn S i j (allUnder "arguments" (ls.map ParamList.tree)) := by
  induction h with
  | stop _ => exact .nil
  | more h h' ih => exact .cons o rfl (h.treeIn o) (Nat.le_refl _) h'.le ih

theorem OptionalTypeAt.childrenIn {t : Option Expr} (o : S.Ordered) (h : OptionalTypeAt S i t j) :
    ChildrenIn S i j (Expr.optional "type" t) := by
  cases h with
  | some _ h => exact .single o rfl ((h.treeIn o).widen o (S.le_next false i) (Nat.le_refl _))
  | none _ => exact .nil

theorem OptionalBlockAt.childrenIn {t : Option Block} (o : S.Ordered) (h : OptionalBlockAt S i t j) :
    ChildrenIn S i j (Block.optional "value" t) := by
  cases h with
  | some _ h => exact .single o rfl (h.treeIn o)
  | none _ => exact .nil

/-- The name of a signature and what stands behind it. -/
theorem SignatureAt.parts {a : Signature} (o : S.Ordered) (h : SignatureAt S i a j) :
    ∃ k, TreeIn S i k a.name.tree ∧ k ≤ j ∧ ChildrenIn S k j
      (allUnder "arguments" (a.params.map ParamList.tree) ++ Expr.optional "type" a.type
        ++ Block.optional "value" a.value) := by
  obtain ⟨name, params, type, value, _⟩ := h
  refine ⟨_, name.treeIn o, Nat.le_trans params.le (Nat.le_trans type.le value.le), ?_⟩
  refine .append o (.append o (params.childrenIn o) params.le (Nat.le_refl _) type.le
    (type.childrenIn o)) ?_ (Nat.le_refl _) value.le (value.childrenIn o)
  exact Nat.le_trans params.le type.le

theorem SignatureAt.treeIn {a : Signature} (o : S.Ordered) (h : SignatureAt S i a j) :
    TreeIn S i j a.tree := by
  have lt := h.lt
  obtain ⟨k, name, le, rest⟩ := h.parts o
  obtain ⟨path, _, _, _, hs⟩ := h
  exact .spread o rfl name (Nat.le_refl _) le rest lt path.head.ne_lineBreak (o.exact _ _ hs)

theorem SignatureAt.childrenIn {a : Signature} (o : S.Ordered) (h : SignatureAt S i a j) :
    ChildrenIn S i j a.children := by
  obtain ⟨k, name, le, rest⟩ := h.parts o
  exact .cons o rfl name (Nat.le_refl _) le rest

theorem ClausePatternsAt.childrenIn {ps : List Pattern} (o : S.Ordered)
    (h : ClausePatternsAt S i ps j) : ChildrenIn S i j (Pattern.children ps) := by
  induction h with
  | stop _ => exact .nil
  | more _ h h' ih => exact .cons o rfl (h.treeIn o) (Nat.le_refl _) h'.le ih

theorem ClauseValueAt.childrenIn {v : Option Expr} (o : S.Ordered) (h : ClauseValueAt S i v j) :
    ChildrenIn S i j (Expr.optional "value" v) := by
  cases h with
  | some _ _ h => exact .single o rfl (h.treeIn o)
  | none _ => exact .nil

theorem ClauseAt.childrenIn {a : Clause} (o : S.Ordered) (h : ClauseAt S i a j) :
    ChildrenIn S i j a.children := by
  obtain ⟨name, patterns, value, _⟩ := h
  have le := Nat.le_trans patterns.le (Nat.le_trans (S.le_next false _) value.le)
  exact .cons o rfl (name.treeIn o) (Nat.le_refl _) le (.append o (patterns.childrenIn o) patterns.le
    (S.le_next false _) value.le (value.childrenIn o))

theorem Listed.childrenIn {α : Type} {P : Nat → α → Nat → Prop} {tree : α → Tree} {field : String}
    {t : Tag} {as : List α} {l : Bool} (o : S.Ordered) (hf : isNumberPart field = false)
    (hlt : ∀ i a j, P i a j → i < j) (hP : ∀ i a j, P i a j → TreeIn S i j (tree a))
    (h : Listed S t b P i as l j) : ChildrenIn S i j (allUnder field (as.map tree)) := by
  induction h with
  | none _ => exact .nil
  | last h _ _ => exact .single o hf (hP _ _ _ h)
  | more h _ h' ih => exact .cons o hf (hP _ _ _ h) (S.le_next b _) (h'.le hlt) ih

theorem CtorParamAt.treeIn {a : CtorParam} (o : S.Ordered) (h : CtorParamAt S i a j) :
    TreeIn S i j a.tree := by
  cases h with
  | named hx _ h =>
    refine .pair o rfl rfl (hx.treeIn o) (S.le_next true _) (h.treeIn o) (Nat.le_of_lt h.lt) ?_
    rw [Expr.span_tree]
    rfl
  | positional _ h => exact h.treeIn o

theorem CtorAt.treeIn {a : Ctor} (o : S.Ordered) (h : CtorAt S i a j) : TreeIn S i j a.tree := by
  obtain ⟨name, form, hs⟩ := h
  have lt := Nat.lt_of_lt_of_le name.lt form.le
  cases form with
  | typed _ h =>
    exact .spread o rfl (name.treeIn o) (S.le_next false _) (Nat.le_of_lt h.lt)
      (.single o rfl (h.treeIn o)) lt name.head.ne_lineBreak (o.exact _ _ hs)
  | params _ h _ =>
    have children : ChildrenIn S _ _ (allUnder "parameter" (_ : List Tree)) :=
      h.childrenIn o rfl (fun _ _ _ h => h.lt) (fun _ _ _ h => h.treeIn o)
    have le := h.le fun _ _ _ h => h.lt
    exact .spread o rfl (name.treeIn o) (S.le_next true _) (Nat.le_trans le (S.le_next false _))
      (children.widen o (Nat.le_refl _) (S.le_next false _)) lt name.head.ne_lineBreak
      (o.exact _ _ hs)
  | bare _ _ =>
    exact .spread o rfl (name.treeIn o) (Nat.le_refl _) (Nat.le_refl _) .nil lt
      name.head.ne_lineBreak (o.exact _ _ hs)

theorem CtorsAt.childrenIn {as : List Ctor} (o : S.Ordered) (h : CtorsAt S i as j) :
    ChildrenIn S i j (allUnder "constructor" (as.map Ctor.tree)) := by
  induction h with
  | none _ => exact .nil
  | last _ h he => exact .cons o rfl (h.treeIn o) (Nat.le_refl _) he.le .nil
  | more _ h _ _ h' ih =>
    exact .cons o rfl (h.treeIn o) (Nat.le_trans (Nat.le_succ _) (S.le_past _)) h'.le ih

theorem MethodsAt.childrenIn {as : List Signature} (o : S.Ordered) (h : MethodsAt S i as j) :
    ChildrenIn S i j (allUnder "method" (as.map Signature.tree)) := by
  induction h with
  | none _ => exact .nil
  | last _ h _ => exact .single o rfl (h.treeIn o)
  | more _ h _ h' ih => exact .cons o rfl (h.treeIn o) (S.le_past _) h'.le ih

theorem MembersAt.childrenIn {sort : TypeSort} {cs : List Ctor} {ms : List Signature}
    (o : S.Ordered) (h : MembersAt S i sort cs ms j) :
    ChildrenIn S i j (allUnder "constructor" (cs.map Ctor.tree)
      ++ allUnder "method" (ms.map Signature.tree)) := by
  cases h with
  | trait h => exact (h.childrenIn o).widen o (S.le_past i) (Nat.le_refl _)
  | methods _ _ h => exact (h.childrenIn o).widen o (S.le_past i) (Nat.le_refl _)
  | ctors _ _ h _ =>
    exact (ChildrenIn.append o (h.childrenIn o) h.le (Nat.le_refl _) (Nat.le_refl _) .nil).widen o
      (S.le_past i) (Nat.le_refl _)
  | both _ _ h _ h' =>
    exact (ChildrenIn.append o (h.childrenIn o) h.le (S.le_past _) h'.le (h'.childrenIn o)).widen o
      (S.le_past i) (Nat.le_refl _)

theorem VisibilityAt.childrenIn {v : Option (Visibility × Span)} (o : S.Ordered)
    (h : VisibilityAt S i v j) : ChildrenIn S i j
      (v.elim [] fun (v, span) => [("visibility", .token v.keyword.text span)]) := by
  cases h with
  | none _ => exact .nil
  | @some v s hv hs =>
    refine .single o rfl (.token _ o (fun tag => ?_) (o.exact _ _ hs))
    rw [tag] at hv
    cases hv

theorem TypeDeclAt.childrenIn {d : TypeDecl} (o : S.Ordered) (h : TypeDeclAt S i d j) :
    ChildrenIn S i j d.children := by
  obtain @⟨v, k₁, sort, n, k₂, ls, k₃, t, k₄, body, _, hv, sorts, name, params, type, hbody⟩ := h
  have members : ChildrenIn S k₄ j (body.elim [] fun b => [("body", b.tree)]) := by
    cases hbody with
    | none _ => exact .nil
    | @some cs ms k s hi h hk hs =>
      have le := Nat.le_trans h.le (S.le_past k)
      refine .single o rfl (.closed o (S.le_next false k₄) ?_
        (Nat.le_trans (S.le_next false k₄) le) (Setting.ne_of_tag hk Tag.noConfusion)
        (o.exact _ _ hs))
      exact (h.childrenIn o).widen o (Nat.le_refl _) (Nat.le_trans (S.le_past k) (S.le_next false _))
  have behind := Nat.le_trans params.le (Nat.le_trans type.le hbody.le)
  have parts := ChildrenIn.append o (.append o (params.childrenIn o) params.le (Nat.le_refl _) type.le
    (type.childrenIn o)) (Nat.le_trans params.le type.le) (Nat.le_refl _) hbody.le members
  have named := Nat.le_trans (Nat.le_of_lt name.lt) behind
  refine .append o (hv.childrenIn o) hv.le (S.le_next false k₁) named ?_
  exact .cons o rfl (name.treeIn o) (Nat.le_refl _) behind parts

theorem DeclFormAt.childrenIn {f : DeclForm} (o : S.Ordered) (h : DeclFormAt S i f j) :
    ChildrenIn S i j f.children := by
  cases h with
  | uses _ h => exact .single o rfl ((h.treeIn o).widen o (S.le_next false i) (Nat.le_refl _))
  | command _ hn has =>
    exact .cons o rfl ((hn.treeIn o).widen o (S.le_next false i) (Nat.le_refl _)) (Nat.le_refl _)
      has.le (has.childrenIn o)
  | type h => exact h.childrenIn o
  | clause _ _ h => exact h.childrenIn o
  | signature _ _ h => exact h.childrenIn o

theorem AttrAt.treeIn {a : Attribute} (o : S.Ordered) (h : AttrAt S i a j) : TreeIn S i j a.tree := by
  have lt := h.lt
  obtain @⟨_, k, as, _, _, hi, path, args, hs⟩ := h
  have children : ChildrenIn S k j (Expr.children "argument" (as.getD [])) := by
    cases args with
    | some _ h _ => exact (h.childrenIn o rfl).widen o (S.le_next true _) (S.le_next false _)
    | none _ => exact .nil
  exact .behind o (.cons o rfl (path.treeIn o) (Nat.le_refl _) args.le children) (S.le_next false i)
    lt (Setting.ne_of_tag hi Tag.noConfusion) (o.exact _ _ hs)

theorem AttrsAt.childrenIn {as : List Attribute} (o : S.Ordered) (h : AttrsAt S i as j) :
    ChildrenIn S i j (allUnder "attribute" (as.map Attribute.tree)) := by
  induction h with
  | stop _ => exact .nil
  | more h h' ih => exact .cons o rfl (h.treeIn o) (S.le_past _) h'.le ih

/-! ## Documentation and items -/

/-- Documentation comments as children. -/
theorem laid_docs {low high : Nat} {ds : List DocString}
    (h : Increasing low high (ds.map DocString.span)) :
    Laid low high (allUnder "doc" (ds.map DocString.tree)) := by
  induction ds generalizing low with
  | nil => exact h
  | cons d ds ih =>
    obtain ⟨hlow, lt, rest⟩ := h
    exact ⟨rfl, Tree.nested_token (Nat.le_of_lt lt), hlow, Nat.le_of_lt lt, ih rest⟩

/-- The comments of a setting stand in order. -/
def Setting.CommentsOrdered (S : Setting) : Prop :=
  ∃ low high, Increasing low high (S.input.comments.items.toList.map Comment.span)

theorem Setting.CommentsOrdered.docs (h : S.CommentsOrdered) {docsFrom : Nat}
    (hle : docsFrom ≤ (S.span i).start) :
    Increasing docsFrom (S.span i).start ((S.docs docsFrom i).map DocString.span) := by
  obtain ⟨low, high, h⟩ := h
  unfold Setting.docs
  split
  · rw [List.map_map]
    exact (Comments.increasing_inRange h hle).sublist (List.filter_sublist.map _)
  · exact hle

/-- A declaration starts with its documentation, if there is some. -/
theorem docs_from {low : Nat} {ds : List DocString} {first last : Span}
    (h : Increasing low first.start (ds.map DocString.span)) (hfirst : first.start ≤ first.stop)
    (hstart : first.start ≤ last.start) (hstop : first.stop ≤ last.stop) {s : Span}
    (hs : s = ((ds.head?.map DocString.span).getD first).merge last) :
    low ≤ s.start ∧ s.stop = last.stop ∧ Increasing s.start first.start (ds.map DocString.span) := by
  cases ds with
  | nil =>
    have merged : s = ⟨first.start, last.stop⟩ := hs.trans (Span.merge_of_le hstart hstop)
    rw [merged]
    exact ⟨h, rfl, Nat.le_refl _⟩
  | cons d ds =>
    obtain ⟨hlow, lt, rest⟩ := h
    have := rest.le
    have merged : s = ⟨d.span.start, last.stop⟩ :=
      hs.trans (Span.merge_of_le (a := d.span) (by omega) (by omega))
    rw [merged]
    exact ⟨hlow, rfl, Nat.le_refl _, lt, rest⟩

/-- Where spans are exact, documentation is kept as it stands. -/
theorem Setting.Ordered.docs_eq (o : S.Ordered) {ds ds' : List DocString}
    (h : List.Forall₂ (fun d d' => d'.content = d.content ∧ S.covers d.span d'.span) ds ds') :
    ds = ds' := by
  rw [← List.forall₂_eq_eq_eq]
  refine h.imp fun d d' h => ?_
  obtain ⟨content, span⟩ := d
  obtain ⟨content', span'⟩ := d'
  obtain ⟨rfl, hspan⟩ := h
  rw [show span' = span from o.exact _ _ hspan]

theorem DeclAt.laid {docsFrom : Nat} {d : Decl} (o : S.Ordered) (hc : S.CommentsOrdered)
    (hle : docsFrom ≤ (S.span i).start) (hi : S.tag i ≠ .lineBreak) (h : DeclAt S docsFrom i d j) :
    Laid docsFrom (S.last j).stop [("declaration", d.tree)] := by
  obtain @⟨docs, as, k, f, _, s, hdocs, attrs, form, hs⟩ := h
  have same : S.docs docsFrom i = docs := o.docs_eq hdocs
  rw [same] at hs
  have last := o.le_last (Nat.lt_of_le_of_lt attrs.le form.lt) hi
  obtain ⟨start, stop, order⟩ := docs_from (same ▸ hc.docs hle) (o.start_le_stop i) last.1 last.2
    (o.exact _ _ hs)
  have rest := ChildrenIn.append o (attrs.childrenIn o) attrs.le (Nat.le_refl _) (Nat.le_of_lt form.lt)
    (form.childrenIn o)
  have parts := (laid_docs order).append (rest (S.span i).start s.stop (Nat.le_refl _)
    (Nat.le_of_eq stop.symm) (stop ▸ Nat.le_trans (o.start_le_stop i) last.2))
  rw [← List.append_assoc] at parts
  exact ⟨rfl, parts.nested, start, parts.le, Nat.le_of_eq stop⟩

/-- What was given up runs from its first token to its last. -/
theorem Setting.Ordered.skippedFrom_eq (o : S.Ordered) (hi : S.tag i ≠ .lineBreak)
    (hend : S.tag i ≠ .eof) (lt : i < j) :
    (S.span i).start < (S.last j).stop
      ∧ skippedFrom (S.span i) (S.last j) = ⟨(S.span i).start, (S.last j).stop⟩ := by
  have := (o.le_last lt hi).2
  have := o.nonempty i hend
  have taken : (S.span i).start < (S.last j).stop := by omega
  exact ⟨taken, if_pos taken⟩

/-- An item that was given up covers its tokens. -/
theorem Setting.Ordered.skipped_laid {kind field : String} (o : S.Ordered)
    (hf : isNumberPart field = false) {docsFrom : Nat} (hle : docsFrom ≤ (S.span i).start)
    (hi : S.tag i ≠ .lineBreak) (hend : S.tag i ≠ .eof) (lt : i < j) {s : Span}
    (hs : S.covers (skippedFrom (S.span i) (S.last j)) s) :
    Laid docsFrom (S.last j).stop [(field, .node kind s [])] := by
  obtain ⟨taken, whole⟩ := o.skippedFrom_eq hi hend lt
  rw [(o.exact _ _ hs).trans whole]
  exact ⟨hf, Laid.nested (Nat.le_of_lt taken), hle, Nat.le_of_lt taken, Nat.le_refl _⟩

theorem ItemAt.laid {docsFrom : Nat} {a : Item} (o : S.Ordered) (hc : S.CommentsOrdered)
    (hle : docsFrom ≤ (S.span i).start) (hi : S.tag i ≠ .lineBreak) (hend : S.tag i ≠ .eof)
    (h : ItemAt S docsFrom i a j) : Laid docsFrom (S.last j).stop [a.child] := by
  cases h with
  | decl _ _ h _ => exact h.laid o hc hle hi
  | stmt _ _ h _ =>
    have tree := h.treeIn o
    exact ⟨rfl, tree.nested, Nat.le_trans hle tree.start, tree.forward, tree.stop⟩
  | errorDecl _ _ lt hs => exact o.skipped_laid rfl hle hi hend lt hs
  | errorStmt _ _ lt hs => exact o.skipped_laid rfl hle hi hend lt hs

/-- Items follow each other up to the end of the text. -/
theorem ItemsAt.laid {docsFrom : Nat} {as : List Item} (o : S.Ordered) (hc : S.CommentsOrdered)
    (h : ItemsAt S docsFrom i as) (hle : docsFrom ≤ (S.span i).start) (hi : S.tag i ≠ .lineBreak)
    (hj : S.tag j = .eof) : Laid docsFrom (S.span j).stop (as.map Item.child) := by
  induction h with
  | @stop docsFrom i hend =>
    show docsFrom ≤ (S.span j).stop
    have same : S.span j = S.span i := by
      rcases Nat.le_total i j with le | le
      · exact (o.ended i hend).2 j le
      · exact ((o.ended j hj).2 i le).symm
    rw [same]
    exact Nat.le_trans hle (o.start_le_stop i)
  | @more docsFrom i a k as hend h _ ih =>
    exact (h.laid o hc hle hi hend).append (ih (o.last_stop_le_start (S.le_past k)) (S.tag_past k))

theorem FileAt.nested {line : Option Shebang} {f : SourceFile} (o : S.Ordered)
    (hc : S.CommentsOrdered)
    (hline : ∀ l ∈ line, l.span.start ≤ l.span.stop ∧ l.span.stop ≤ (S.span 0).start)
    (h : FileAt S line f) : f.tree.Nested ∧ ∃ i, S.tag i = .eof ∧ f.span = ⟨0, (S.span i).stop⟩ := by
  obtain @⟨items, i, s, hitems, hend, hs⟩ := h
  have span := o.exact _ _ hs
  refine ⟨?_, i, hend, span⟩
  have first : Laid 0 ((line.map fun l => l.span.stop).getD 0)
      (line.elim [] fun l => [("shebang", .token "#!" l.span)]) := by
    cases line with
    | none => exact Nat.le_refl 0
    | some l =>
      obtain ⟨forward, _⟩ := hline l rfl
      exact ⟨rfl, Tree.nested_token forward, Nat.zero_le _, forward, Nat.le_refl _⟩
  have behind : (line.map fun l => l.span.stop).getD 0 ≤ (S.span (S.past 0)).start := by
    cases line with
    | none => exact Nat.zero_le _
    | some l => exact Nat.le_trans (hline l rfl).2 (o.start_mono (S.le_past 0))
  have laid := first.append (hitems.laid o hc behind (S.tag_past 0) hend)
  refine Laid.nested ?_
  rw [span]
  exact laid

end Grammar

/-! ## Whole texts -/

theorem Text.byteLength_toList (s : String) : Text.byteLength s.toList = s.utf8ByteSize := by
  have (cs : List Char) : Text.byteLength cs = (String.ofList cs).utf8ByteSize := by
    induction cs with
    | nil => rfl
    | cons c cs ih =>
      rw [Text.byteLength_cons, ih, String.ofList_cons, String.utf8ByteSize_append,
        String.utf8ByteSize_singleton]
  rw [this, String.ofList_toList]

/-- The first line starts with the text. -/
theorem span_shebang {cs : List Char} {names : NameTable} {l : Shebang}
    (h : (lexChars cs names).shebang = some l) : l.span = ⟨0, shebangLength cs⟩ := by
  have line : (lexChars cs names).shebang = (shebangOf cs).map
      fun l => ⟨String.ofList l, ⟨0, shebangLength cs⟩⟩ := rfl
  rw [line] at h
  obtain ⟨_, _, rfl⟩ := Option.map_eq_some_iff.1 h
  rfl

namespace Grammar

theorem ofText_commentsOrdered (cs : List Char) (dialect : Dialect) (flawed : Prop) :
    (Setting.ofText cs dialect flawed).CommentsOrdered :=
  ⟨_, _, lexChars_comments cs .empty⟩

/-- No token starts before the end of the first line. -/
theorem ofText_start (cs : List Char) (dialect : Dialect) (flawed : Prop) :
    shebangLength cs ≤ ((Setting.ofText cs dialect flawed).span 0).start := by
  obtain ⟨body, spacing, h, _, increasing⟩ := lexChars_tokens cs .empty
  cases hb : body with
  | nil =>
    have end' : (Setting.ofText cs dialect flawed).span 0 = .point (Text.byteLength cs) :=
      congrArg Token.span (tokens_get_end h (by rw [hb]; exact Nat.le_refl _))
    rw [end']
    exact increasing.le
  | cons t ts =>
    subst hb
    have first : (Setting.ofText cs dialect flawed).span 0 = t.span :=
      congrArg Token.span (tokens_get_body h (Nat.succ_pos _)).1
    rw [first]
    exact increasing.1

/-- The first line of a text ends before its first token. -/
theorem ofText_firstLine (cs : List Char) (dialect : Dialect) (flawed : Prop) :
    let S := Setting.ofText cs dialect flawed
    ∀ l ∈ S.firstLine (lexChars cs .empty).shebang,
      l.span.start ≤ l.span.stop ∧ l.span.stop ≤ (S.span 0).start := by
  intro S l hl
  have found : (lexChars cs .empty).shebang = some l := by
    unfold Setting.firstLine at hl
    split at hl
    · exact hl
    · cases hl
  rw [span_shebang found]
  exact ⟨Nat.zero_le _, ofText_start cs dialect flawed⟩

end Grammar

open Grammar in
/-- Every span of the tree of a text runs forward and lies inside the text and inside that of its
parent. The children of a node under one field follow each other, and so do all its children but
the parts of a number. -/
theorem tree_placed (source : String) (dialect : Dialect) :
    ∀ e ∈ (parseText source dialect).tree.entries,
      e.tree.Placed ∧ e.tree.span.stop ≤ source.utf8ByteSize := by
  intro e he
  have part := Tree.part_of_mem_entries he
  obtain ⟨nested, i, hend, span⟩ := (parse_derives source.toList dialect).nested
    (ofText_ordered ..) (ofText_commentsOrdered ..) (ofText_firstLine _ _ _)
  refine ⟨nested _ part, Nat.le_trans (part.within nested).2 ?_⟩
  have root : (parseText source dialect).tree.span = ⟨0, Text.byteLength source.toList⟩ :=
    span.trans (by rw [ofText_end _ _ _ hend]; rfl)
  rw [root]
  exact Nat.le_of_eq (Text.byteLength_toList source)

theorem root_placed_of_error : (parseText "(" .scripts).tree.Placed
    ∧ (parseText "(" .scripts).tree.span.stop ≤ "(".utf8ByteSize :=
  tree_placed "(" .scripts ⟨0, "", (parseText "(" .scripts).tree⟩ List.mem_cons_self

end Surface
