import Surface.Proofs.Parsing.Nesting
import Surface.Proofs.Tree.Leaves

/-!
# Leaves and tokens

Every leaf of a tree is a token of the text, the leaves stand in the order of the tokens, and
where no error is reported no token is left out: each name, literal and operator is one leaf, up
to the bars that open a function without parameters.

Results:
* `Gathers`: the leaves among the tokens between two positions.
* `ExprAt.gathers`, `StmtAt.gathers`, `DeclAt.gathers` and their likes: what the rules derive has
  the leaves that stand between its positions.
* `leaves_tokens`: leaves and tokens of whole texts.
-/

namespace Surface

namespace Grammar

/-! ## Tokens between two positions -/

/-- The leaves among the tokens between two positions; `B` holds where a function without
parameters starts. -/
inductive Gathers (S : Setting) (B : Nat → Prop) : Nat → Nat → List Leaf → Prop
  | done {i} : Gathers S B i i []
  | leaf {i j a as} : (S.kind i).leaf? = some (a.sort, a.text) → a.span = S.span i →
      Gathers S B (i + 1) j as → Gathers S B i j (a :: as)
  | silent {i j as} : leafTags.contains (S.tag i) = false → Gathers S B (i + 1) j as →
      Gathers S B i j as
  | bars {i j as} : S.kind i = .operator "||" → B (S.span i).start → Gathers S B (i + 1) j as →
      Gathers S B i j as
  | skipped {i j as} : S.flawed → Gathers S B (i + 1) j as → Gathers S B i j as

variable {S : Setting} {B B' : Nat → Prop} {b : Bool} {i j k l : Nat}

namespace Gathers

variable {as bs : List Leaf} {a : Leaf}

theorem le (h : Gathers S B i j as) : i ≤ j := by
  induction h with
  | done => exact Nat.le_refl _
  | leaf _ _ _ ih | silent _ _ ih | bars _ _ _ ih | skipped _ _ ih => exact Nat.le_of_succ_le ih

theorem mono (h : Gathers S B i j as) (hB : ∀ o, B o → B' o) : Gathers S B' i j as := by
  induction h with
  | done => exact .done
  | leaf hk hs _ ih => exact .leaf hk hs ih
  | silent ht _ ih => exact .silent ht ih
  | bars hk hb _ ih => exact .bars hk (hB _ hb) ih
  | skipped hf _ ih => exact .skipped hf ih

theorem append (h : Gathers S B i k as) (h' : Gathers S B k j bs) :
    Gathers S B i j (as ++ bs) := by
  induction h with
  | done => exact h'
  | leaf hk hs _ ih => exact .leaf hk hs (ih h')
  | silent ht _ ih => exact .silent ht (ih h')
  | bars hk hb _ ih => exact .bars hk hb (ih h')
  | skipped hf _ ih => exact .skipped hf (ih h')

theorem past (i : Nat) : Gathers S B i (S.past i) [] := by
  unfold Setting.past
  fun_induction pastBreaks S.input.tokens i with
  | case1 i h _ ih => exact .silent (by rw [show S.tag i = .lineBreak from h]; decide) ih
  | case2 i _ => exact .done

theorem next (h : Gathers S B i (i + 1) as) : Gathers S B i (S.next b i) as := by
  unfold Setting.next
  split
  · have := h.append (past (i + 1))
    rwa [List.append_nil] at this
  · exact h

theorem token {t : Tag} (h : S.tag i = t) (ht : leafTags.contains t = false) :
    Gathers S B i (S.next b i) [] :=
  next (.silent (by rw [h]; exact ht) .done)

/-- What was given up holds no leaves. -/
theorem given_up (hf : S.flawed) (h : i ≤ j) : Gathers S B i j [] := by
  obtain ⟨d, rfl⟩ := Nat.exists_eq_add_of_le h
  clear h
  induction d generalizing i with
  | zero => exact .done
  | succ d ih =>
    have rest := ih (i := i + 1)
    rw [Nat.add_right_comm] at rest
    exact .skipped hf rest

end Gathers

/-! ## Trees and children -/

/-- A tree under a field has the leaves that stand between two positions. -/
def TreeGathers (S : Setting) (field : String) (i j : Nat) (t : Tree) : Prop :=
  Gathers S t.Opens i j (t.leavesUnder field)

/-- A function without parameters among children starts at an offset. -/
def OpensIn (cs : Children) (offset : Nat) : Prop := ∃ c ∈ cs, c.2.Opens offset

/-- Children have the leaves that stand between two positions. -/
def ChildrenGather (S : Setting) (i j : Nat) (cs : Children) : Prop :=
  Gathers S (OpensIn cs) i j (Tree.childLeaves cs)

namespace ChildrenGather

variable {cs ds : Children} {t : Tree} {field : String}

theorem nil : ChildrenGather S i i [] := by
  unfold ChildrenGather
  rw [Tree.childLeaves]
  exact .done

theorem cons (ht : TreeGathers S field i k t) (h : ChildrenGather S k j cs) :
    ChildrenGather S i j ((field, t) :: cs) := by
  unfold ChildrenGather
  rw [Tree.childLeaves_cons]
  exact (Gathers.mono ht fun o ho => ⟨_, List.mem_cons_self, ho⟩).append
    (Gathers.mono h fun o ⟨c, hc, ho⟩ => ⟨c, List.mem_cons_of_mem _ hc, ho⟩)

theorem single (ht : TreeGathers S field i j t) : ChildrenGather S i j [(field, t)] := cons ht nil

theorem append (h : ChildrenGather S i k cs) (h' : ChildrenGather S k j ds) :
    ChildrenGather S i j (cs ++ ds) := by
  unfold ChildrenGather
  rw [Tree.childLeaves_append]
  exact (Gathers.mono h fun o ⟨c, hc, ho⟩ => ⟨c, List.mem_append_left _ hc, ho⟩).append
    (Gathers.mono h' fun o ⟨c, hc, ho⟩ => ⟨c, List.mem_append_right _ hc, ho⟩)

/-- Children behind tokens that are no leaves. -/
theorem behind (h : ∀ B, Gathers S B i k []) (h' : ChildrenGather S k j cs) :
    ChildrenGather S i j cs :=
  Gathers.append (h _) h'

/-- Children before tokens that are no leaves. -/
theorem before (h : ChildrenGather S i k cs) (h' : ∀ B, Gathers S B k j []) :
    ChildrenGather S i j cs := by
  have := Gathers.append h (h' _)
  rwa [List.append_nil] at this

end ChildrenGather

namespace TreeGathers

variable {t : Tree} {field : String}

/-- A token of the stream that is a leaf. -/
theorem leaf {sort : LeafSort} {text : String} {span : Span} (hf : leafSort? field = some sort)
    (hk : (S.kind i).leaf? = some (sort, text)) (hs : span = S.span i) :
    TreeGathers S field i (S.next b i) (.token text span) := by
  unfold TreeGathers
  rw [Tree.leavesUnder, hf]
  exact .next (.leaf (a := ⟨sort, text, span⟩) hk hs .done)

theorem behind (h : ∀ B, Gathers S B i k []) (h' : TreeGathers S field k j t) :
    TreeGathers S field i j t :=
  Gathers.append (h _) h'

theorem before (h : TreeGathers S field i k t) (h' : ∀ B, Gathers S B k j []) :
    TreeGathers S field i j t := by
  have := Gathers.append h (h' _)
  rwa [List.append_nil] at this

/-- A token that is no leaf in the place of tokens that are none. -/
theorem mark {text : String} {span : Span} (hf : leafSort? field = none)
    (h : ∀ B, Gathers S B i j []) : TreeGathers S field i j (.token text span) := by
  unfold TreeGathers
  rw [Tree.leavesUnder, hf]
  exact h _

theorem node {cs : Children} {kind : String} {span : Span} (h : ChildrenGather S i j cs) :
    TreeGathers S field i j (.node kind span cs) := by
  unfold TreeGathers
  rw [Tree.leavesUnder_node]
  exact Gathers.mono h fun o ⟨c, hc, ho⟩ => Tree.Opens.of_child hc ho

/-- A function without parameters, behind its bars. -/
theorem thunk {t : Tree} {span : Span} (hk : S.kind i = .operator "||")
    (hs : span.start = (S.span i).start) (h : TreeGathers S "body" (S.next b i) j t) :
    TreeGathers S field i j (.node "Lambda" span [("body", t)]) := by
  unfold TreeGathers
  rw [Tree.leavesUnder_node, Tree.childLeaves_cons, Tree.childLeaves, List.append_nil]
  have opens : Tree.Opens (.node "Lambda" span [("body", t)]) (S.span i).start :=
    ⟨_, .self, ⟨rfl, rfl⟩, hs⟩
  have first : Gathers S (Tree.Opens (.node "Lambda" span [("body", t)])) i (S.next b i) [] :=
    .next (.bars hk opens .done)
  exact first.append (Gathers.mono h fun o ho => Tree.Opens.of_child List.mem_cons_self ho)

end TreeGathers

/-! ## Names, paths and literals -/

theorem leafSort?_of_numberPart {field : String} (h : isNumberPart field = true) :
    leafSort? field = none := by
  unfold isNumberPart at h
  simp only [Bool.or_eq_true, beq_iff_eq] at h
  rcases h with (rfl | rfl) | rfl <;> rfl

theorem childLeaves_numberParts {cs : Children} {s : Span}
    (h : ∀ c ∈ cs, isNumberPart c.1 = true ∧ ∃ text, c.2 = .token text s) :
    Tree.childLeaves cs = [] := by
  induction cs with
  | nil => rw [Tree.childLeaves]
  | cons c cs ih =>
    obtain ⟨first, rest⟩ := List.forall_mem_cons.1 h
    obtain ⟨field, t⟩ := c
    obtain ⟨part, text, rfl⟩ := first
    rw [Tree.childLeaves_cons, ih rest, Tree.leavesUnder, leafSort?_of_numberPart part]
    rfl

theorem Setting.NameAt.gathers {x : Ident} {field : String} (o : S.Ordered) (h : S.NameAt i x)
    (hf : leafSort? field = some .name) : TreeGathers S field i (S.next b i) x.tree := by
  refine .leaf hf ?_ (o.exact _ _ h.2)
  have name := h.1
  cases hk : S.kind i <;> rw [hk] at name <;> cases name <;> rfl

theorem SegmentsAt.gathers {xs : List Ident} (o : S.Ordered) (h : SegmentsAt S b i xs j) :
    ChildrenGather S i j (allUnder "segment" (xs.map Ident.tree)) := by
  induction h with
  | stop _ => exact .nil
  | more dot name _ ih =>
    exact .behind (fun _ => .token dot.1 (by decide)) (.cons (name.gathers o rfl) ih)

theorem PathAt.gathers {p : Path} {field : String} (o : S.Ordered) (h : PathAt S b i p j) :
    TreeGathers S field i j p.tree :=
  .node (.cons (h.head.gathers o rfl) (h.tail.gathers o))

theorem literal_gathers {kind field field' : String} (hf : leafSort? field = some .literal)
    {s : Span} {v : Literal} (h : (S.kind i).literal? = some v) (hs : s = S.span i) :
    TreeGathers S field' i (S.next b i) (.node kind s (v.children field s)) := by
  refine .node ?_
  obtain ⟨rest, he, hrest, _⟩ := v.children_eq field s
  unfold ChildrenGather
  rw [he, Tree.childLeaves_cons, childLeaves_numberParts hrest, List.append_nil, Tree.leavesUnder, hf]
  refine .next (.leaf (a := ⟨.literal, v.text, s⟩) ?_ hs .done)
  cases hk : S.kind i <;> rw [hk] at h <;> cases h <;> rfl

/-! ## Patterns -/

mutual

theorem AtomAt.gathers (o : S.Ordered) {field b i p j} :
    AtomAt S b i p j → TreeGathers S field i j p.tree
  | .literal hv hm => literal_gathers rfl hv (o.exact _ _ hm)
  | .path h _ => .node (.single (h.gathers o))
  | .rest h _ => .node (.behind (fun _ => .token h (by decide)) .nil)
  | .group h hp hk =>
    .behind (fun _ => .token h (by decide)) (.before (hp.gathers o) fun _ => .token hk (by decide))

theorem PatternAt.gathers (o : S.Ordered) {field b i p j} :
    PatternAt S b i p j → TreeGathers S field i j p.tree
  | .cons h hs _ => .node (.cons (h.gathers o) (hs.gathers o))
  | .atom _ h => h.gathers o

theorem PatternArgsAt.gathers (o : S.Ordered) {b i ps j} :
    PatternArgsAt S b i ps j → ChildrenGather S i j (Pattern.argChildren ps)
  | .stop _ => .nil
  | .more h hs => .cons (h.gathers o) (hs.gathers o)

end

/-! ## Expressions and statements -/

theorem operator_gathers {c : Context} {op : Operator} (o : S.Ordered)
    (h : S.operator? c i = some op.symbols) (hs : S.covers (S.span i) op.span) :
    TreeGathers S "operator" i (S.next b i) (.token op.symbols op.span) := by
  refine .leaf rfl ?_ (o.exact _ _ hs)
  unfold Setting.operator? at h
  split at h
  · next symbols hk =>
    rw [hk]
    cases h
    rfl
  · next hk =>
    rw [hk]
    split at h
    · cases h
    · rw [← Option.some.inj h]
      rfl
  · cases h

mutual

theorem ExprAt.gathers (o : S.Ordered) {field c b i e j} :
    ExprAt S c b i e j → TreeGathers S field i j e.tree
  | .binary _ h _ _ _ => h.gathers o
  | .arrow _ h hk h' _ =>
    .node (.cons (h.gathers o) (.behind (fun _ => .token hk (by decide))
      (.behind (fun _ => .past _) (.single (h'.gathers o)))))
  | .ascription _ h hk h' _ =>
    .node (.cons (h.gathers o) (.behind (fun _ => .token hk (by decide)) (.single (h'.gathers o))))
  | .pi _ hi h hk ha h' _ | .sigma _ hi h hk ha h' _ =>
    .node (.behind (fun _ => .token hi (by decide)) (.append (h.gathers o)
      (.behind (fun _ => .token hk (by decide)) (.behind (fun _ => .token ha (by decide))
        (.behind (fun _ => .past _) (.single (h'.gathers o)))))))

theorem ChainAt.gathers (o : S.Ordered) {field c b i e j} :
    ChainAt S c b i e j → TreeGathers S field i j e.tree
  | .one h => h.gathers o
  | .more h hk hop h' _ =>
    .node (.cons (h.gathers o) (.cons (operator_gathers o hk hop)
      (.behind (fun _ => .past _) (.single (h'.gathers o)))))

theorem ApplicationAt.gathers (o : S.Ordered) {field c b i e j} :
    ApplicationAt S c b i e j → TreeGathers S field i j e.tree
  | .bare h _ => h.gathers o
  | .types _ h h' _ => .node (.cons (h.gathers o) (h'.gathers o))
  | .plain _ h h' _ _ => .node (.cons (h.gathers o) (.append (h'.gathers o) .nil))
  | .block _ h h' _ h'' _ =>
    .node (.cons (h.gathers o) (.append (h'.gathers o) (.single (h''.gathers o))))

theorem ArgsAt.gathers (o : S.Ordered) {c b i es j} :
    ArgsAt S c b i es j → ChildrenGather S i j (Expr.children "argument" es)
  | .stop _ => .nil
  | .more _ h h' => .cons (h.gathers o) (h'.gathers o)

theorem PrimaryAt.gathers (o : S.Ordered) {field c b i e j} :
    PrimaryAt S c b i e j → TreeGathers S field i j e.tree
  | .literal hv hm => literal_gathers rfl hv (o.exact _ _ hm)
  | .name h hm => by
    obtain ⟨head, tail⟩ := h
    cases tail with
    | stop _ =>
      refine .node (.single ?_)
      rw [o.exact _ _ hm]
      exact head.gathers o rfl
  | .path h _ => .node (.single (h.gathers o))
  | .tuple (k := k) hi h hk hm => by
    have closer (B : Nat → Prop) : Gathers S B k (S.next b k) [] := .token hk (by decide)
    refine .node (.behind (fun _ => .token hi (by decide)) (.append (h.gathers o) ?_))
    split
    · exact .single (.mark rfl closer)
    · exact .behind closer .nil
  | .array hi h hk _ =>
    .node (.behind (fun _ => .token hi (by decide))
      (.before (h.gathers o) fun _ => .token hk (by decide)))
  | .conditional hi h h' he h'' _ =>
    .node (.behind (fun _ => .token hi (by decide)) (.cons (h.gathers o) (.cons (h'.gathers o)
      (.behind (fun _ => .past _) (.behind (fun _ => .token he.past (by decide))
        (.single (h''.gathers o)))))))
  | .matchOn hi h hk h' hl _ =>
    .node (.behind (fun _ => .token hi (by decide)) (.cons (h.gathers o)
      (.behind (fun _ => .token hk (by decide)) (.behind (fun _ => .past _)
        (.before (h'.gathers o) fun _ => .token hl (by decide))))))
  | .returns hi _ h _ =>
    .node (.behind (fun _ => .token hi (by decide)) (.single (h.gathers o)))
  | .returnsNothing hi _ _ => .node (.behind (fun _ => .token hi (by decide)) .nil)
  | .lambda hi h hk h' _ => by
    have bar : S.tag i = .reserved .pipe := by rw [← S.tag_kind, hi]; rfl
    exact .node (.behind (fun _ => .token bar (by decide)) (.append (h.gathers o)
      (.behind (fun _ => .token hk (by decide)) (.single (h'.gathers o)))))
  | .thunk hi h hm => by
    have span := o.exact _ _ hm
    rw [← Expr.span_tree, (h.treeIn o).merge_eq o (S.lt_next b i) (o.start_le_stop i) rfl] at span
    exact .thunk hi (by rw [span]) (h.gathers o)

theorem ExprsAt.gathers (o : S.Ordered) {field t c b i es tr j} :
    ExprsAt S t c b i es tr j → ChildrenGather S i j (Expr.children field es)
  | .none _ => .nil
  | .last h _ _ => .single (h.gathers o)
  | .more h hk h' =>
    .cons (h.gathers o) (.behind (fun _ => .token hk (by decide)) (h'.gathers o))

theorem ParamsAt.gathers (o : S.Ordered) {t c b i ps tr j} :
    ParamsAt S t c b i ps tr j → ChildrenGather S i j (Param.children ps)
  | .none _ => .nil
  | .last h _ _ => .single (h.gathers o)
  | .more h hk h' =>
    .cons (h.gathers o) (.behind (fun _ => .token hk (by decide)) (h'.gathers o))

theorem ParamAt.gathers (o : S.Ordered) {field c b i p j} :
    ParamAt S c b i p j → TreeGathers S field i j p.tree
  | .typed h hk h' _ =>
    .node (.cons (h.gathers o) (.behind (fun _ => .token hk (by decide)) (.single (h'.gathers o))))
  | .untyped h _ _ => .node (.single (h.gathers o))

theorem ThenAt.gathers (o : S.Ordered) {field c b i t j} :
    ThenAt S c b i t j → TreeGathers S field i j t.tree
  | .block _ h => h.gathers o
  | .expr hi h => .behind (fun _ => .token hi (by decide)) (h.gathers o)

theorem BodyAt.gathers (o : S.Ordered) {field c b i t j} :
    BodyAt S c b i t j → TreeGathers S field i j t.tree
  | .block _ h => h.gathers o
  | .expr _ h => h.gathers o

theorem ArmsAt.gathers (o : S.Ordered) {i as j} :
    ArmsAt S i as j → ChildrenGather S i j (Arm.children as)
  | .none => .nil
  | .comma h hk h' =>
    .cons (h.gathers o) (.behind (fun _ => .token hk (by decide))
      (.behind (fun _ => .past _) (h'.gathers o)))
  | .broken h _ h' => .cons (h.gathers o) (.behind (fun _ => .past _) (h'.gathers o))
  | .last h _ => .single (h.gathers o)

theorem ArmAt.gathers (o : S.Ordered) {field i a j} :
    ArmAt S i a j → TreeGathers S field i j a.tree
  | .mk h hk h' _ =>
    .node (.cons (h.gathers o) (.behind (fun _ => .token hk (by decide))
      (.behind (fun _ => .past _) (.single (h'.gathers o)))))

theorem BlockAt.gathers (o : S.Ordered) {field b i t j} :
    BlockAt S b i t j → TreeGathers S field i j t.tree
  | .mk hi h hk _ =>
    .node (.behind (fun _ => .token hi (by decide)) (.behind (fun _ => .past _)
      (.before (h.gathers o) fun _ => .token hk (by decide))))

theorem StmtsAt.gathers (o : S.Ordered) {i ss j} :
    StmtsAt S i ss j → ChildrenGather S i j (Stmt.children ss)
  | .none => .nil
  | .more h _ h' => .cons (h.gathers o) (.behind (fun _ => .past _) (h'.gathers o))
  | .error hf h _ h' =>
    .cons (.node (.behind (fun _ => .given_up hf h) .nil)) (.behind (fun _ => .past _) (h'.gathers o))

theorem StmtAt.gathers (o : S.Ordered) {field c b i s j} :
    StmtAt S c b i s j → TreeGathers S field i j s.tree
  | .letIn hi h hk h' _ =>
    .node (.behind (fun _ => .token hi (by decide)) (.cons (h.gathers o)
      (.behind (fun _ => .token hk (by decide)) (.single (h'.gathers o)))))
  | .conditional hi h h' _ _ =>
    .node (.behind (fun _ => .token hi (by decide)) (.cons (h.gathers o)
      (.cons (h'.gathers o) .nil)))
  | .branches hi h h' he h'' _ =>
    .node (.behind (fun _ => .token hi (by decide)) (.cons (h.gathers o) (.cons (h'.gathers o)
      (.behind (fun _ => .past _) (.behind (fun _ => .token he.past (by decide))
        (.single (h''.gathers o)))))))
  | .ask _ _ _ h hk h' _ =>
    .node (.cons (h.gathers o) (.behind (fun _ => .token hk (by decide))
      (.behind (fun _ => .past _) (.single (h'.gathers o)))))
  | .expr _ _ _ h _ => .node (.single (h.gathers o))

end

/-! ## Declarations -/

theorem ParamListAt.gathers {a : ParamList} {field : String} (o : S.Ordered)
    (h : ParamListAt S i a j) : TreeGathers S field i j a.tree := by
  cases h with
  | explicit hi h hk _ | implicit hi _ h hk _ =>
    exact .node (.behind (fun _ => .token hi (by decide))
      (.before (h.gathers o) fun _ => .token hk (by decide)))

theorem ParamListsAt.gathers {as : List ParamList} (o : S.Ordered) (h : ParamListsAt S i as j) :
    ChildrenGather S i j (allUnder "arguments" (as.map ParamList.tree)) := by
  induction h with
  | stop _ => exact .nil
  | more h _ ih => exact .cons (h.gathers o) ih

theorem OptionalTypeAt.gathers {t : Option Expr} (o : S.Ordered) (h : OptionalTypeAt S i t j) :
    ChildrenGather S i j (Expr.optional "type" t) := by
  cases h with
  | some hi h => exact .behind (fun _ => .token hi (by decide)) (.single (h.gathers o))
  | none _ => exact .nil

theorem OptionalBlockAt.gathers {t : Option Block} (o : S.Ordered) (h : OptionalBlockAt S i t j) :
    ChildrenGather S i j (Block.optional "value" t) := by
  cases h with
  | some _ h => exact .single (h.gathers o)
  | none _ => exact .nil

theorem SignatureAt.gathers {a : Signature} (o : S.Ordered) (h : SignatureAt S i a j) :
    ChildrenGather S i j a.children := by
  obtain ⟨name, params, type, value, _⟩ := h
  exact .cons (name.gathers o)
    (.append (.append (params.gathers o) (type.gathers o)) (value.gathers o))

theorem ClausePatternsAt.gathers {ps : List Pattern} (o : S.Ordered)
    (h : ClausePatternsAt S i ps j) : ChildrenGather S i j (Pattern.children ps) := by
  induction h with
  | stop _ => exact .nil
  | more _ h _ ih => exact .cons (h.gathers o) ih

theorem ClausePatternsAt.tag_stop {ps : List Pattern} (h : ClausePatternsAt S i ps j) :
    S.tag j = .reserved .eq := by
  induction h with
  | stop h => exact h
  | more _ _ _ ih => exact ih

theorem ClauseAt.gathers {a : Clause} (o : S.Ordered) (h : ClauseAt S i a j) :
    ChildrenGather S i j a.children := by
  obtain @⟨n, k, ps, l, v, _, _, name, patterns, value, _⟩ := h
  have values : ChildrenGather S (S.next false l) j (Expr.optional "value" v) := by
    cases value with
    | some _ _ h => exact .single (h.gathers o)
    | none _ => exact .nil
  exact .cons (name.gathers o) (.append (patterns.gathers o)
    (.behind (fun _ => .token patterns.tag_stop (by decide)) values))

theorem Listed.gathers {α : Type} {P : Nat → α → Nat → Prop} {tree : α → Tree} {field : String}
    {t : Tag} {as : List α} {l : Bool}
    (hP : ∀ i a j, P i a j → TreeGathers S field i j (tree a)) (h : Listed S t b P i as l j) :
    ChildrenGather S i j (allUnder field (as.map tree)) := by
  induction h with
  | none _ => exact .nil
  | last h _ _ => exact .single (hP _ _ _ h)
  | more h hk _ ih => exact .cons (hP _ _ _ h) (.behind (fun _ => .token hk (by decide)) ih)

theorem CtorParamAt.gathers {a : CtorParam} {field : String} (o : S.Ordered)
    (h : CtorParamAt S i a j) : TreeGathers S field i j a.tree := by
  cases h with
  | named hx hc h =>
    have colon : S.tag (S.next true i) = .punct .colon := by
      have next : S.next true i = i + 1 := Setting.past_of_ne (by rw [hc]; exact Tag.noConfusion)
      rw [next, hc]
    exact .node (.cons (hx.gathers o rfl)
      (.behind (fun _ => .token colon (by decide)) (.single (h.gathers o))))
  | positional _ h => exact h.gathers o

theorem CtorAt.gathers {a : Ctor} {field : String} (o : S.Ordered) (h : CtorAt S i a j) :
    TreeGathers S field i j a.tree := by
  obtain ⟨name, form, _⟩ := h
  cases form with
  | typed hi h =>
    exact .node (.cons (name.gathers o)
      (.behind (fun _ => .token hi (by decide)) (.single (h.gathers o))))
  | params hi h hk =>
    exact .node (.cons (name.gathers o) (.behind (fun _ => .token hi (by decide))
      (.before (h.gathers fun _ _ _ h => h.gathers o) fun _ => .token hk (by decide))))
  | bare _ _ => exact .node (.single (name.gathers o))

theorem CtorsEndAt.gathers (h : CtorsEndAt S i j) : Gathers S B i j [] := by
  cases h with
  | comma hi _ => exact .silent (by rw [hi]; decide) .done
  | broken _ _ _ => exact .past i
  | semicolon _ | other _ _ => exact .done

theorem CtorsAt.gathers {as : List Ctor} (o : S.Ordered) (h : CtorsAt S i as j) :
    ChildrenGather S i j (allUnder "constructor" (as.map Ctor.tree)) := by
  induction h with
  | none _ => exact .nil
  | last _ h he => exact .cons (h.gathers o) (.behind (fun _ => he.gathers) .nil)
  | more _ h hk _ _ ih =>
    exact .cons (h.gathers o) (.behind (fun _ => .silent (by rw [hk]; decide) .done)
      (.behind (fun _ => .past _) ih))

theorem MethodsAt.gathers {as : List Signature} (o : S.Ordered) (h : MethodsAt S i as j) :
    ChildrenGather S i j (allUnder "method" (as.map Signature.tree)) := by
  induction h with
  | none _ => exact .nil
  | last _ h _ => exact .single (.node (h.gathers o))
  | more _ h _ _ ih => exact .cons (.node (h.gathers o)) (.behind (fun _ => .past _) ih)

theorem MembersAt.gathers {sort : TypeSort} {cs : List Ctor} {ms : List Signature}
    (o : S.Ordered) (h : MembersAt S i sort cs ms j) :
    ChildrenGather S i j (allUnder "constructor" (cs.map Ctor.tree)
      ++ allUnder "method" (ms.map Signature.tree)) := by
  cases h with
  | trait h | methods _ _ h => exact .behind (fun _ => .past i) (h.gathers o)
  | ctors _ _ h _ => exact .behind (fun _ => .past i) (.append (h.gathers o) .nil)
  | both _ _ h _ h' =>
    exact .behind (fun _ => .past i)
      (.append (h.gathers o) (.behind (fun _ => .past _) (h'.gathers o)))

theorem leafTags_of_type : ∀ {t : Tag}, typeTags.contains t = true → leafTags.contains t = false := by
  decide

theorem VisibilityAt.gathers {v : Option (Visibility × Span)} (h : VisibilityAt S i v j) :
    ChildrenGather S i j
      (v.elim [] fun (v, span) => [("visibility", .token v.keyword.text span)]) := by
  cases h with
  | none _ => exact .nil
  | some hv _ =>
    exact .single (.mark rfl fun _ => .token rfl (leafTags_of_type (typeTags_of_visibility hv)))

theorem TypeDeclAt.gathers {d : TypeDecl} (o : S.Ordered) (h : TypeDeclAt S i d j) :
    ChildrenGather S i j d.children := by
  obtain @⟨v, k₁, sort, n, k₂, ls, k₃, t, k₄, body, _, hv, hsort, name, params, type, hbody⟩ := h
  have keyword (B : Nat → Prop) : Gathers S B k₁ (S.next false k₁) [] :=
    .token rfl (leafTags_of_type (typeTags_of_typeSort hsort))
  have members : ChildrenGather S k₄ j (body.elim [] fun b => [("body", b.tree)]) := by
    cases hbody with
    | none _ => exact .nil
    | some hi h hk _ =>
      exact .single (.node (.behind (fun _ => .token hi (by decide)) (.before (h.gathers o)
        fun _ => (Gathers.past _).append (.token hk (by decide)))))
  exact .append hv.gathers (.behind keyword (.cons (name.gathers o)
    (.append (.append (params.gathers o) (type.gathers o)) members)))

theorem DeclFormAt.gathers {f : DeclForm} (o : S.Ordered) (h : DeclFormAt S i f j) :
    ChildrenGather S i j f.children := by
  cases h with
  | uses hi h => exact .behind (fun _ => .token hi (by decide)) (.single (h.gathers o))
  | command hi hn has =>
    exact .behind (fun _ => .token hi (by decide)) (.cons (hn.gathers o) (has.gathers o))
  | type h => exact h.gathers o
  | clause _ _ h => exact h.gathers o
  | signature _ _ h => exact h.gathers o

theorem AttrAt.gathers {a : Attribute} {field : String} (o : S.Ordered) (h : AttrAt S i a j) :
    TreeGathers S field i j a.tree := by
  obtain @⟨_, k, as, _, _, hi, path, args, _⟩ := h
  have children : ChildrenGather S k j (Expr.children "argument" (as.getD [])) := by
    cases args with
    | some hi h hk =>
      exact .behind (fun _ => .token hi (by decide))
        (.before (h.gathers o) fun _ => .token hk (by decide))
    | none _ => exact .nil
  exact .node (.behind (fun _ => .token hi (by decide)) (.cons (path.gathers o) children))

theorem AttrsAt.gathers {as : List Attribute} (o : S.Ordered) (h : AttrsAt S i as j) :
    ChildrenGather S i j (allUnder "attribute" (as.map Attribute.tree)) := by
  induction h with
  | stop _ => exact .nil
  | more h _ ih => exact .cons (h.gathers o) (.behind (fun _ => .past _) ih)

/-! ## Items and files -/

/-- Documentation comments are no leaves. -/
theorem docs_gather (ds : List DocString) :
    ChildrenGather S i i (allUnder "doc" (ds.map DocString.tree)) := by
  induction ds with
  | nil => exact .nil
  | cons d ds ih => exact .cons (.mark rfl fun _ => .done) ih

theorem ItemAt.gathers {docsFrom : Nat} {a : Item} (o : S.Ordered) (h : ItemAt S docsFrom i a j) :
    ChildrenGather S i j [a.child] := by
  cases h with
  | decl _ _ h _ =>
    obtain ⟨_, attrs, form, _⟩ := h
    exact .single (.node (.append (.append (docs_gather _) (attrs.gathers o)) (form.gathers o)))
  | stmt _ _ h _ => exact .single (h.gathers o)
  | errorDecl hf _ lt _ | errorStmt hf _ lt _ =>
    exact .single (.node (.behind (fun _ => .given_up hf (Nat.le_of_lt lt)) .nil))

theorem ItemsAt.gathers {docsFrom : Nat} {as : List Item} (o : S.Ordered)
    (h : ItemsAt S docsFrom i as) :
    ∃ j, S.tag j = .eof ∧ ChildrenGather S i j (as.map Item.child) := by
  induction h with
  | @stop _ i hi => exact ⟨i, hi, .nil⟩
  | more _ h _ ih =>
    obtain ⟨j, hj, rest⟩ := ih
    exact ⟨j, hj, .append (h.gathers o) (.behind (fun _ => .past _) rest)⟩

theorem FileAt.gathers {line : Option Shebang} {f : SourceFile} (o : S.Ordered)
    (h : FileAt S line f) : ∃ j, S.tag j = .eof ∧ TreeGathers S "" 0 j f.tree := by
  obtain ⟨hitems, _, _⟩ := h
  obtain ⟨j, hj, items⟩ := hitems.gathers o
  have first : ChildrenGather S 0 0
      (line.elim [] fun l => [("shebang", .token "#!" l.span)]) := by
    cases line with
    | none => exact .nil
    | some l => exact .single (.mark rfl fun _ => .done)
  exact ⟨j, hj, .node (.append first (.behind (fun _ => .past 0) items))⟩

/-! ## What is gathered -/

theorem Setting.ne_eof_of_leaf {x : LeafSort × String} (h : (S.kind i).leaf? = some x) :
    S.tag i ≠ .eof := by
  rw [← S.tag_kind]
  cases hk : S.kind i <;> rw [hk] at h <;> try exact Tag.noConfusion
  cases h

theorem Setting.Ordered.lt_of_ne_eof (o : S.Ordered) (hi : S.tag i ≠ .eof) (hj : S.tag j = .eof) :
    i < j := by
  by_contra h
  obtain ⟨point, same⟩ := o.ended j hj
  have := o.nonempty i hi
  rw [same i (by omega)] at this
  omega

theorem Setting.Ordered.eq_of_start_eq (o : S.Ordered) (hi : S.tag i ≠ .eof)
    (h : (S.span j).start = (S.span i).start) : j = i := by
  have := o.nonempty i hi
  rcases Nat.lt_trichotomy i j with lt | rfl | lt
  · have := o.stop_le_start lt
    omega
  · rfl
  · have hj : S.tag j ≠ .eof := fun hj => Nat.lt_asymm lt (o.lt_of_ne_eof hi hj)
    have := o.nonempty j hj
    have := o.stop_le_start lt
    omega

theorem Setting.Ordered.eq_of_span_eq (o : S.Ordered) (hi : S.tag i ≠ .eof)
    (h : S.span j = S.span i) : j = i :=
  o.eq_of_start_eq hi (congrArg Span.start h)

theorem Setting.exists_get?_of_ne_eof (h : S.tag i ≠ .eof) :
    ∃ t, S.input.tokens.get? i = some t :=
  ⟨_, Array.getElem?_eq_getElem (Tokens.lt_size_of_tag_ne_eof h)⟩

theorem Setting.token_of_get? {t : Token} (h : S.input.tokens.get? i = some t) :
    S.kind i = t.kind ∧ S.span i = t.span := by
  have : S.input.tokens.get i = t := by
    unfold Tokens.get
    rw [h]
    rfl
  unfold Setting.kind Setting.span
  rw [this]
  exact ⟨rfl, rfl⟩

theorem Setting.token_getElem {k : Nat} (hk : k < S.input.tokens.items.toList.length) :
    S.tag k = S.input.tokens.items.toList[k].tag
      ∧ S.span k = S.input.tokens.items.toList[k].span := by
  have get : S.input.tokens.get? k = some S.input.tokens.items.toList[k] := by
    unfold Tokens.get?
    rw [← Array.getElem?_toList, List.getElem?_eq_getElem hk]
  obtain ⟨kind, span⟩ := Setting.token_of_get? get
  rw [← S.tag_kind, kind]
  exact ⟨rfl, span⟩

theorem Setting.exists_of_mem {t : Token} (h : t ∈ S.input.tokens.items) :
    ∃ k, S.kind k = t.kind ∧ S.span k = t.span := by
  obtain ⟨k, lt, rfl⟩ := Array.mem_iff_getElem.1 h
  exact ⟨k, Setting.token_of_get? (Array.getElem?_eq_getElem lt)⟩

/-- Leaves in order have different spans. -/
theorem filter_span_eq {as : List Leaf} {low high : Nat}
    (h : Increasing low high (as.map Leaf.span)) {a : Leaf} (ha : a ∈ as) :
    as.filter (fun x => x.span = a.span) = [a] := by
  induction as generalizing low with
  | nil => cases ha
  | cons x xs ih =>
    obtain ⟨_, lt, rest⟩ := h
    have behind : ∀ y ∈ xs, x.span.stop ≤ y.span.start := fun y hy =>
      (rest.bounds (List.mem_map_of_mem hy)).1
    rcases List.mem_cons.1 ha with rfl | ha
    · have none : xs.filter (fun y => y.span = a.span) = [] := by
        refine List.filter_eq_nil_iff.2 fun y hy same => ?_
        have := behind y hy
        rw [of_decide_eq_true same] at this
        omega
      rw [List.filter_cons_of_pos (by simp), none]
    · have ne : x.span ≠ a.span := by
        intro same
        have := behind a ha
        rw [← same] at this
        omega
      rw [List.filter_cons_of_neg (by simpa using ne), ih rest ha]

namespace Gathers

variable {as : List Leaf}

theorem increasing (o : S.Ordered) (h : Gathers S B i j as) :
    Increasing (S.span i).start (S.span j).start (as.map Leaf.span) := by
  have lower {i : Nat} : (S.span i).start ≤ (S.span (i + 1)).start := o.start_mono (Nat.le_succ _)
  induction h with
  | done => exact Nat.le_refl _
  | @leaf i _ a _ hk hs _ ih =>
    have ne := Setting.ne_eof_of_leaf hk
    show Increasing _ _ (a.span :: _)
    rw [hs]
    exact ⟨Nat.le_refl _, o.nonempty i ne, ih.lower (o.next i ne)⟩
  | silent _ _ ih | bars _ _ _ ih | skipped _ _ ih => exact ih.lower lower

/-- Every leaf that is gathered is a token. -/
theorem token_of_mem (h : Gathers S B i j as) {a : Leaf} (ha : a ∈ as) :
    ∃ k, i ≤ k ∧ k < j ∧ (S.kind k).leaf? = some (a.sort, a.text) ∧ a.span = S.span k := by
  induction h with
  | done => cases ha
  | @leaf i _ _ _ hk hs rest ih =>
    rcases List.mem_cons.1 ha with rfl | ha
    · exact ⟨i, Nat.le_refl _, rest.le, hk, hs⟩
    · obtain ⟨k, hik, hkj, hk⟩ := ih ha
      exact ⟨k, by omega, hkj, hk⟩
  | silent _ _ ih | bars _ _ _ ih | skipped _ _ ih =>
    obtain ⟨k, hik, hkj, hk⟩ := ih ha
    exact ⟨k, by omega, hkj, hk⟩

/-- Where nothing is given up, every token is a leaf, opens a function, or is none of those that
are leaves. -/
theorem leaf_of_token (h : Gathers S B i j as) (hf : ¬ S.flawed) (hik : i ≤ k) (hkj : k < j)
    (ht : leafTags.contains (S.tag k) = true) :
    (∃ a ∈ as, (S.kind k).leaf? = some (a.sort, a.text) ∧ a.span = S.span k)
      ∨ S.kind k = .operator "||" ∧ B (S.span k).start := by
  induction h with
  | done => omega
  | @leaf i _ a _ hk hs _ ih =>
    rcases Nat.lt_or_eq_of_le hik with lt | rfl
    · refine (ih lt hkj).imp_left ?_
      rintro ⟨a, ha, hk⟩
      exact ⟨a, List.mem_cons_of_mem _ ha, hk⟩
    · exact .inl ⟨a, List.mem_cons_self, hk, hs⟩
  | silent hs _ ih =>
    rcases Nat.lt_or_eq_of_le hik with lt | rfl
    · exact ih lt hkj
    · rw [hs] at ht
      cases ht
  | bars hk hb _ ih =>
    rcases Nat.lt_or_eq_of_le hik with lt | rfl
    · exact ih lt hkj
    · exact .inr ⟨hk, hb⟩
  | skipped h => exact absurd h hf

end Gathers

end Grammar

/-! ## Whole texts -/

open Grammar in
/-- Leaves are not empty and stand in the order of the text, and each is a token of it, with the
same spelling, and the only token there. If no error is reported, each token that is a name, a
literal or an operator is one leaf, or opens a function without parameters. -/
theorem leaves_tokens (source : String) (dialect : Dialect) :
    let p := parseText source dialect
    let ts := (lex source .empty).tokens
    Increasing 0 source.utf8ByteSize (p.tree.leaves.map Leaf.span)
      ∧ (∀ a ∈ p.tree.leaves, ∃ k t, ts.get? k = some t ∧ t.span = a.span
          ∧ t.kind.leaf? = some (a.sort, a.text)
          ∧ ∀ k' t', ts.get? k' = some t' → t'.span = a.span → k' = k)
      ∧ (p.errors = [] → ∀ t ∈ ts.items, leafTags.contains t.tag = true →
          (∃ a, p.tree.leaves.filter (fun x => x.span = t.span) = [a]
            ∧ t.kind.leaf? = some (a.sort, a.text))
          ∨ t.kind = .operator "||" ∧ ∃ e ∈ p.tree.entries, e.tree.IsThunk
            ∧ e.tree.span.start = t.span.start) := by
  intro p ts
  let S := Setting.ofText source.toList dialect ((parseChars source.toList dialect).errors ≠ [])
  have o : S.Ordered := ofText_ordered ..
  obtain ⟨j, hj, gathers⟩ := (parse_derives source.toList dialect).gathers o
  have gathers : Gathers S p.tree.Opens 0 j p.tree.leaves := by
    rw [Tree.leaves_eq]
    exact gathers
  have order := gathers.increasing o
  refine ⟨?_, fun a ha => ?_, fun none t ht htag => ?_⟩
  · have ends : (S.span j).start = source.utf8ByteSize := by
      rw [show S.span j = .point _ from ofText_end _ _ _ hj, ← Text.byteLength_toList]
      rfl
    rw [← ends]
    exact order.lower (Nat.zero_le _)
  · obtain ⟨k, _, _, hk, hs⟩ := gathers.token_of_mem ha
    have ne := Setting.ne_eof_of_leaf hk
    obtain ⟨t, ht⟩ := Setting.exists_get?_of_ne_eof ne
    obtain ⟨kind, span⟩ := Setting.token_of_get? ht
    refine ⟨k, t, ht, by rw [hs, span], by rw [← hk, kind], fun k' t' ht' same => ?_⟩
    have span' := (Setting.token_of_get? (S := S) ht').2
    exact o.eq_of_span_eq ne (by rw [span', same, hs])
  · obtain ⟨k, hlt, hk⟩ := Array.mem_iff_getElem.1 ht
    have here : S.input.tokens.get? k = some t := hk ▸ Array.getElem?_eq_getElem hlt
    obtain ⟨kind, span⟩ := Setting.token_of_get? here
    have tag : leafTags.contains (S.tag k) = true := by
      rw [← S.tag_kind, kind]
      exact htag
    have before := o.lt_of_ne_eof (Setting.ne_of_contains tag (by decide)) hj
    rcases gathers.leaf_of_token (fun h => h none) (Nat.zero_le k) before tag with
      ⟨a, ha, hleaf, hs⟩ | ⟨hkind, u, part, thunk, start⟩
    · refine .inl ⟨a, ?_, kind ▸ hleaf⟩
      rw [← span, ← hs]
      exact filter_span_eq order ha
    · obtain ⟨e, he, rfl⟩ := Tree.mem_entries_of_part part
      exact .inr ⟨kind ▸ hkind, e, he, thunk, start.trans (by rw [span])⟩

end Surface
