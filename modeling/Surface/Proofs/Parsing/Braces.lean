import Surface.Proofs.Parsing.Skipped

/-!
# Blocks and their braces

A block starts at an opening brace and ends at a closing one. If the groups in what was given up in
it are whole, the brackets between the two nest properly, so that the brace at the end is the one that
matches, whatever is wrong in the block or elsewhere. Where statements that were given up end inside a
group this may fail.

Results:
* `Balanced`: the brackets between two positions nest properly.
* `ExprAt.balanced`, `BlockAt.balanced`, `StmtsAt.reduced`, `ItemsAt.reduced` and their likes: brackets
  nest in what the rules derive, up to what could not be read.
* `nests_of_skipsGroups`: the brackets of a text nest properly if those of what was given up do.
* `blocks_braced`: the blocks of all texts; `block_ends_early`: one that ends with a group inside of it.
-/

namespace Surface

namespace Grammar

/-! ## Brackets between two positions -/

/-- The brackets between two positions nest properly. -/
inductive Balanced (S : Setting) : Nat → Nat → Prop
  | done {i} : Balanced S i i
  | plain {i j} : (S.tag i).isBracket = false → Balanced S (i + 1) j → Balanced S i j
  | group {i k j p} : Groups.closing? (S.tag i) = some p → Balanced S (i + 1) k →
      S.tag k = .punct p → Balanced S (k + 1) j → Balanced S i j

variable {S : Setting} {b : Bool} {i j k l : Nat}

namespace Balanced

theorem append (h : Balanced S i k) (h' : Balanced S k j) : Balanced S i j := by
  induction h with
  | done => exact h'
  | plain ht _ ih => exact .plain ht (ih h')
  | group hi inside hk _ _ ih => exact .group hi inside hk (ih h')

theorem past (i : Nat) : Balanced S i (S.past i) := by
  unfold Setting.past
  fun_induction pastBreaks S.input.tokens i with
  | case1 i h _ ih => exact .plain (by rw [show S.tag i = .lineBreak from h]; rfl) ih
  | case2 i _ => exact .done

/-- What is passed over behind a token. -/
theorem behind (b : Bool) (i : Nat) : Balanced S (i + 1) (S.next b i) := by
  unfold Setting.next
  split
  · exact past (i + 1)
  · exact .done

theorem token {t : Tag} (h : S.tag i = t) (ht : t.isBracket = false) : Balanced S i (S.next b i) :=
  .plain (by rw [h]; exact ht) (behind b i)

/-- A group with what nests in it. -/
theorem enclosed {t : Tag} {p : Punct} {b b' : Bool} (hi : S.tag i = t)
    (hp : Groups.closing? t = some p) (h : Balanced S (S.next b i) k) (hk : S.tag k = .punct p) :
    Balanced S i (S.next b' k) :=
  .group (by rw [hi]; exact hp) ((behind b i).append h) hk (behind b' k)

/-- What nests between two positions makes no difference to whether brackets nest. -/
theorem nests (h : Balanced S i j) : ∃ inside,
    (Groups.tagsOf S.input.tokens).drop i = inside ++ (Groups.tagsOf S.input.tokens).drop j
      ∧ ∀ awaited ts, Groups.nests awaited (inside ++ ts) = Groups.nests awaited ts := by
  induction h with
  | done => exact ⟨[], rfl, fun _ _ => rfl⟩
  | @plain i j ht _ ih =>
    obtain ⟨inside, e, same⟩ := ih
    rcases S.drop_tagsOf i with ⟨none, -⟩ | one
    · exact ⟨inside, none.trans e, same⟩
    · refine ⟨S.tag i :: inside, by rw [one, e, List.cons_append], fun awaited ts => ?_⟩
      rw [List.cons_append, Groups.nests_plain ht, same]
  | @group i k j p hi _ hk _ ih ih' =>
    obtain ⟨inside, e, same⟩ := ih
    obtain ⟨inside', e', same'⟩ := ih'
    have here : S.tag i ≠ .eof := fun h => by rw [h] at hi; cases hi
    have there : S.tag k ≠ .eof := fun h => by rw [h] at hk; cases hk
    have one := (S.drop_tagsOf i).resolve_left fun h => here h.2
    have other := (S.drop_tagsOf k).resolve_left fun h => there h.2
    refine ⟨S.tag i :: (inside ++ .punct p :: inside'), ?_, fun awaited ts => ?_⟩
    · rw [one, e, other, hk, e', List.cons_append, List.append_assoc, List.cons_append]
    · rw [List.cons_append, Groups.nests_opener hi, List.append_assoc, same, List.cons_append,
        Groups.nests_closer (Groups.isCloser_of_closing hi), same', beq_self_eq_true, Bool.true_and]

/-- Tags that nest properly do so where they stand. -/
theorem of_nests {inside rest : List Tag} (nested : Groups.nests [] inside = true)
    (h : (Groups.tagsOf S.input.tokens).drop i = inside ++ rest) :
    Balanced S i (i + inside.length) := by
  induction n : inside.length using Nat.strongRecOn generalizing inside i rest with
  | ind n ih =>
    subst n
    cases inside with
    | nil => exact .done
    | cons t inside =>
      rw [List.cons_append] at h
      obtain ⟨here, behind⟩ := Setting.of_drop_tagsOf h
      rcases Groups.nests_cons nested with ⟨p, hp, nested⟩ | ⟨p, others, none, _⟩ | ⟨ho, hc, nested⟩
      · -- the group that opens here ends among the tags
        have entered : Groups.nests ([] ++ p :: []) inside = true := nested
        obtain ⟨as, bs, rfl, first, second⟩ := Groups.nests_enter entered
        rw [List.append_assoc, List.cons_append] at behind
        have closing := congrArg (List.drop as.length) behind
        rw [List.drop_drop, List.drop_left] at closing
        obtain ⟨there, others⟩ := Setting.of_drop_tagsOf closing
        have size : (t :: (as ++ .punct p :: bs)).length = as.length + bs.length + 2 := by
          simp only [List.length_cons, List.length_append]
          omega
        have inner := ih as.length (by omega) first behind rfl
        have outer := ih bs.length (by omega) second others rfl
        have whole := Balanced.group (here ▸ hp) inner there outer
        rwa [List.length_cons, List.length_append, List.length_cons,
          show i + (as.length + (bs.length + 1) + 1) = i + 1 + as.length + 1 + bs.length by omega]
      · cases none
      · have plain : (S.tag i).isBracket = false := by
          rw [here, Tag.isBracket, Bool.eq_false_iff.2 ho, Bool.eq_false_iff.2 hc]
          rfl
        have rest := ih inside.length (by simp) nested behind rfl
        rw [List.length_cons, Nat.add_comm inside.length, ← Nat.add_assoc]
        exact .plain plain rest

end Balanced

/-- Where brackets nest as those of a list that nests, they nest properly. -/
theorem Reduces.balanced {tags : List Tag} (h : Reduces S i j tags) (nested : Groups.nests [] tags = true)
    (hj : S.tag j ≠ .eof) : Balanced S i j := by
  obtain ⟨inside, split, same⟩ := h
  have whole := same [] []
  rw [List.append_nil, List.append_nil, nested] at whole
  have length := congrArg List.length split
  have within : j < (Groups.tagsOf S.input.tokens).length := by
    rw [Groups.length_tagsOf]
    exact Tokens.lt_size_of_tag_ne_eof hj
  rw [List.length_append, List.length_drop, List.length_drop] at length
  obtain rfl : j = i + inside.length := by omega
  exact .of_nests whole split

/-! ## Trees and children -/

/-- A block stands between two braces. If the groups in what could not be read are whole, brackets nest
between them. -/
def Braced (S : Setting) (t : Tree) : Prop := t.kind = "Block" → ∃ k m, k < m
  ∧ S.tag k = .punct .openBrace ∧ S.tag m = .punct .closeBrace
  ∧ t.span = ⟨(S.span k).start, (S.span m).stop⟩
  ∧ ((S.flawed → t.SkipsGroups S.input.tokens) → Balanced S (k + 1) m)

/-- Brackets nest between the positions of a tree if the groups in what could not be read are whole,
and its blocks stand between braces. -/
structure TreeBalanced (S : Setting) (i j : Nat) (t : Tree) : Prop where
  between : (S.flawed → t.SkipsGroups S.input.tokens) → Balanced S i j
  blocks : ∀ u, t.Part u → Braced S u

/-- Brackets nest between the positions of children if the groups in what could not be read are
whole, and their blocks stand between braces. -/
structure ChildrenBalanced (S : Setting) (i j : Nat) (cs : Children) : Prop where
  between : (S.flawed → ∀ c ∈ cs, c.2.SkipsGroups S.input.tokens) → Balanced S i j
  blocks : ∀ c ∈ cs, ∀ u, c.2.Part u → Braced S u

/-- Brackets nest between the positions of statements or items as those do that were given up, if the
groups in what could not be read of the others are whole, and their blocks stand between braces. -/
structure ChildrenReduced (S : Setting) (i j : Nat) (cs : Children) : Prop where
  between : (S.flawed → ∀ c ∈ cs, c.2.SkipsGroups S.input.tokens) →
    Reduces S i j (Tree.skipped S.input.tokens cs)
  read : ¬ S.flawed → Tree.skipped S.input.tokens cs = []
  blocks : ∀ c ∈ cs, ∀ u, c.2.Part u → Braced S u

theorem braced_other {t : Tree} (h : t.kind ≠ "Block") : Braced S t := fun h' => absurd h' h

variable {t : Tree} {cs ds : Children} {field kind : String} {span : Span}

namespace ChildrenBalanced

/-- Tokens as children. -/
theorem tokens (h : Balanced S i j) (hcs : ∀ c ∈ cs, ∃ text span, c.2 = .token text span) :
    ChildrenBalanced S i j cs := by
  refine ⟨fun _ => h, fun c hc u part => ?_⟩
  obtain ⟨text, span, e⟩ := hcs c hc
  rw [e] at part
  rcases part.cases_child with rfl | ⟨_, hmem, _⟩
  · exact braced_other (show "" ≠ "Block" by decide)
  · exact absurd hmem List.not_mem_nil

theorem nil : ChildrenBalanced S i i [] := ⟨fun _ => .done, fun _ hc => absurd hc List.not_mem_nil⟩

theorem append (h : ChildrenBalanced S i k cs) (h' : ChildrenBalanced S k j ds) :
    ChildrenBalanced S i j (cs ++ ds) where
  between read := (h.between fun hf c hc => read hf c (List.mem_append_left _ hc)).append
    (h'.between fun hf c hc => read hf c (List.mem_append_right _ hc))
  blocks c hc := (List.mem_append.1 hc).elim (h.blocks c) (h'.blocks c)

theorem single (h : TreeBalanced S i j t) : ChildrenBalanced S i j [(field, t)] where
  between read := h.between fun hf => read hf _ List.mem_cons_self
  blocks _ hc := by
    cases List.mem_singleton.1 hc
    exact h.blocks

theorem cons (ht : TreeBalanced S i k t) (h : ChildrenBalanced S k j cs) :
    ChildrenBalanced S i j ((field, t) :: cs) :=
  append (single ht) h

theorem behind (h : Balanced S i k) (h' : ChildrenBalanced S k j cs) : ChildrenBalanced S i j cs :=
  ⟨fun read => h.append (h'.between read), h'.blocks⟩

theorem before (h : ChildrenBalanced S i k cs) (h' : Balanced S k j) : ChildrenBalanced S i j cs :=
  ⟨fun read => (h.between read).append h', h.blocks⟩

/-- Children in a group. -/
theorem enclosed {o : Tag} {p : Punct} {b b' : Bool} (hi : S.tag i = o)
    (hp : Groups.closing? o = some p) (h : ChildrenBalanced S (S.next b i) k cs)
    (hk : S.tag k = .punct p) : ChildrenBalanced S i (S.next b' k) cs :=
  ⟨fun read => .enclosed hi hp (h.between read) hk, h.blocks⟩

end ChildrenBalanced

namespace ChildrenReduced

theorem nil : ChildrenReduced S i i [] :=
  ⟨fun _ => Balanced.done.nests, fun _ => rfl, fun _ hc => absurd hc List.not_mem_nil⟩

/-- Children that could be read. -/
theorem of_balanced (h : ChildrenBalanced S i j cs) (read : ∀ c ∈ cs, c.2.isPlaceholder = false) :
    ChildrenReduced S i j cs := by
  have none : Tree.skipped S.input.tokens cs = [] := Tree.skipped_eq_nil read
  exact ⟨fun whole => none ▸ (h.between whole).nests, fun _ => none, h.blocks⟩

theorem single (h : TreeBalanced S i j t) (read : t.isPlaceholder = false) :
    ChildrenReduced S i j [(field, t)] :=
  of_balanced (.single h) fun c hc => by
    cases List.mem_singleton.1 hc
    exact read

theorem append (h : ChildrenReduced S i k cs) (h' : ChildrenReduced S k j ds) :
    ChildrenReduced S i j (cs ++ ds) where
  between whole := by
    rw [Tree.skipped_append]
    exact (h.between fun hf c hc => whole hf c (List.mem_append_left _ hc)).append
      (h'.between fun hf c hc => whole hf c (List.mem_append_right _ hc))
  read ok := by rw [Tree.skipped_append, h.read ok, h'.read ok, List.append_nil]
  blocks c hc := (List.mem_append.1 hc).elim (h.blocks c) (h'.blocks c)

theorem behind (h : Balanced S i k) (h' : ChildrenReduced S k j cs) : ChildrenReduced S i j cs :=
  append (of_balanced (.before .nil h) fun _ hc => absurd hc List.not_mem_nil) h'

/-- What could not be read. -/
theorem unread (o : S.Ordered) (hf : S.flawed) (hk : Tree.IsPlaceholder kind) (le : i ≤ k)
    (hs : S.covers (skippedFrom (S.span i) (S.last k)) span) :
    ChildrenReduced S i k [(field, .node kind span [])] := by
  refine ⟨fun _ => ?_, fun ok => absurd hf ok, fun c hc u part => ?_⟩
  · have only : Tree.skipped S.input.tokens [(field, Tree.node kind span [])]
        = S.input.tokens.bracketsIn span := by
      rw [Tree.skipped, List.flatMap_singleton]
      exact if_pos (decide_eq_true hk)
    rw [only]
    exact o.reduces_skipped le hs
  · cases List.mem_singleton.1 hc
    rcases part.cases_child with rfl | ⟨_, hc, _⟩
    · have other : kind ≠ "Block" := by rcases hk with rfl | rfl <;> decide
      exact braced_other other
    · exact absurd hc List.not_mem_nil

/-- If the groups in what could not be read are whole, brackets nest. -/
theorem balanced (h : ChildrenReduced S i j cs)
    (whole : S.flawed → ∀ c ∈ cs, c.2.SkipsGroups S.input.tokens)
    (skipped : S.flawed → Groups.nests [] (Tree.skipped S.input.tokens cs) = true)
    (hj : S.tag j ≠ .eof) : Balanced S i j := by
  refine (h.between whole).balanced ?_ hj
  by_cases hf : S.flawed
  · exact skipped hf
  · rw [h.read hf]
    rfl

end ChildrenReduced

namespace TreeBalanced

theorem token {text : String} (h : Balanced S i j) : TreeBalanced S i j (.token text span) where
  between _ := h
  blocks u part := by
    have alone : ChildrenBalanced S i j [("", .token text span)] := .tokens h fun c hc => by
      cases List.mem_singleton.1 hc
      exact ⟨_, _, rfl⟩
    exact alone.blocks _ List.mem_cons_self u part

theorem behind (h : Balanced S i k) (h' : TreeBalanced S k j t) : TreeBalanced S i j t :=
  ⟨fun read => h.append (h'.between read), h'.blocks⟩

theorem enclosed {o : Tag} {p : Punct} {b b' : Bool} (hi : S.tag i = o)
    (hp : Groups.closing? o = some p) (h : TreeBalanced S (S.next b i) k t)
    (hk : S.tag k = .punct p) : TreeBalanced S i (S.next b' k) t :=
  ⟨fun read => .enclosed hi hp (h.between read) hk, h.blocks⟩

/-- A node that stands between braces if it is a block. -/
theorem of_braced (h : ChildrenBalanced S i j cs) (braced : Braced S (.node kind span cs)) :
    TreeBalanced S i j (.node kind span cs) := by
  refine ⟨fun read => h.between fun hf c hc => (read hf).child hc, fun u part => ?_⟩
  rcases part.cases_child with rfl | ⟨c, hc, part⟩
  · exact braced
  · exact h.blocks c hc u part

/-- A node that is no block. -/
theorem node (hk : kind ≠ "Block") (h : ChildrenBalanced S i j cs) :
    TreeBalanced S i j (.node kind span cs) :=
  of_braced h (braced_other hk)

/-- A block and its braces. -/
theorem block (o : S.Ordered) (hi : S.tag i = .punct .openBrace)
    (h : ChildrenReduced S (i + 1) k cs) (hk : S.tag k = .punct .closeBrace) (lt : i < k)
    (hs : span = (S.span i).merge (S.span k)) :
    TreeBalanced S i (S.next b k) (.node "Block" span cs) := by
  have between (whole : S.flawed → (Tree.node "Block" span cs).SkipsGroups S.input.tokens) :
      Balanced S (i + 1) k :=
    h.balanced (fun hf _ hc => (whole hf).child hc) (fun hf => (whole hf).nests)
      (hk ▸ Tag.noConfusion)
  refine ⟨fun whole => .group (hi ▸ rfl) (between whole) hk (.behind b k), fun u part => ?_⟩
  rcases part.cases_child with rfl | ⟨c, hc, part⟩
  · exact fun _ => ⟨i, k, lt, hi, hk, hs.trans (o.merge_tokens (Nat.le_of_lt lt)), between⟩
  · exact h.blocks c hc u part

end TreeBalanced

/-! ## Names, paths and literals -/

theorem isBracket_of_name : ∀ {t : Tag}, nameTags.contains t = true → t.isBracket = false := by
  decide

theorem Setting.NameAt.balanced {x : Ident} (h : S.NameAt i x) : Balanced S i (S.next b i) :=
  .token rfl (isBracket_of_name (Setting.tag_of_name h.1))

theorem SegmentsAt.balanced {xs : List Ident} (h : SegmentsAt S b i xs j) : Balanced S i j := by
  induction h with
  | stop _ => exact .done
  | more dot name _ ih => exact .append (.token dot.1 rfl) (.append name.balanced ih)

theorem PathAt.balanced {p : Path} (h : PathAt S b i p j) : TreeBalanced S i j p.tree := by
  refine .node (by decide) (.tokens (.append h.head.balanced h.tail.balanced) fun c hc => ?_)
  obtain ⟨x, _, rfl⟩ := mem_allUnder.1 hc
  exact ⟨_, _, rfl⟩

theorem literal_balanced {v : Literal} (hk : kind ≠ "Block") (h : (S.kind i).literal? = some v) :
    TreeBalanced S i (S.next b i) (.node kind span (v.children field span)) := by
  obtain ⟨rest, he, hrest, _⟩ := v.children_eq field span
  refine .node hk (.tokens (.token rfl ?_) fun c hc => ?_)
  · rcases Setting.tag_of_literal h with h | h | h <;> rw [h] <;> rfl
  · rw [he] at hc
    rcases List.mem_cons.1 hc with rfl | hc
    · exact ⟨_, _, rfl⟩
    · obtain ⟨_, text, e⟩ := hrest c hc
      exact ⟨text, _, e⟩

/-! ## Patterns -/

mutual

theorem AtomAt.balanced {b i p j} : AtomAt S b i p j → TreeBalanced S i j p.tree
  | .literal hv _ => literal_balanced (by decide) hv
  | .path h _ => .node (by decide) (.single h.balanced)
  | .rest h _ => .node (by decide) (.before .nil (.token h rfl))
  | .group h hp hk => .enclosed h rfl hp.balanced hk

theorem PatternAt.balanced {b i p j} : PatternAt S b i p j → TreeBalanced S i j p.tree
  | .cons h hs _ => .node (by decide) (.cons h.balanced hs.balanced)
  | .atom _ h => h.balanced

theorem PatternArgsAt.balanced {b i ps j} :
    PatternArgsAt S b i ps j → ChildrenBalanced S i j (Pattern.argChildren ps)
  | .stop _ => .nil
  | .more h hs => .cons h.balanced hs.balanced

end

/-! ## Expressions and statements -/

theorem operator_balanced {c : Context} {op : Operator} (h : S.operator? c i = some op.symbols) :
    TreeBalanced S i (S.next b i) (.token op.symbols op.span) := by
  refine .token (.token rfl ?_)
  rw [← S.tag_kind]
  unfold Setting.operator? at h
  split at h
  · next hk => rw [hk]; rfl
  · next hk => rw [hk]; rfl
  · cases h

theorem StmtAt.not_placeholder {c : Context} {s : Stmt} (h : StmtAt S c b i s j) :
    s.tree.isPlaceholder = false := by
  cases h <;> rfl

mutual

theorem ExprAt.balanced (o : S.Ordered) {c b i e j} :
    ExprAt S c b i e j → TreeBalanced S i j e.tree
  | .binary _ h _ _ _ => h.balanced o
  | .arrow _ h hk h' _ =>
    .node (by decide) (.cons (h.balanced o) (.behind (.token hk rfl)
      (.behind (.past _) (.single (h'.balanced o)))))
  | .ascription _ h hk h' _ =>
    .node (by decide) (.cons (h.balanced o) (.behind (.token hk rfl) (.single (h'.balanced o))))
  | .pi _ hi h hk ha h' _ | .sigma _ hi h hk ha h' _ =>
    .node (by decide) (.append (.enclosed hi rfl (h.balanced o) hk)
      (.behind (.token ha rfl) (.behind (.past _) (.single (h'.balanced o)))))

theorem ChainAt.balanced (o : S.Ordered) {c b i e j} :
    ChainAt S c b i e j → TreeBalanced S i j e.tree
  | .one h => h.balanced o
  | .more h hk _ h' _ =>
    .node (by decide) (.cons (h.balanced o) (.cons (operator_balanced hk)
      (.behind (.past _) (.single (h'.balanced o)))))

theorem ApplicationAt.balanced (o : S.Ordered) {c b i e j} :
    ApplicationAt S c b i e j → TreeBalanced S i j e.tree
  | .bare h _ => h.balanced o
  | .types _ h h' _ => .node (by decide) (.cons (h.balanced o) (h'.balanced o))
  | .plain _ h h' _ _ => .node (by decide) (.cons (h.balanced o) (.append (h'.balanced o) .nil))
  | .block _ h h' _ h'' _ =>
    .node (by decide) (.cons (h.balanced o) (.append (h'.balanced o) (.single (h''.balanced o))))

theorem ArgsAt.balanced (o : S.Ordered) {c b i es j} :
    ArgsAt S c b i es j → ChildrenBalanced S i j (Expr.children "argument" es)
  | .stop _ => .nil
  | .more _ h h' => .cons (h.balanced o) (h'.balanced o)

theorem PrimaryAt.balanced (o : S.Ordered) {c b i e j} :
    PrimaryAt S c b i e j → TreeBalanced S i j e.tree
  | .literal hv _ => literal_balanced (by decide) hv
  | .name h _ => by
    obtain ⟨head, tail⟩ := h
    cases tail with
    | stop _ => exact .node (by decide) (.single (.token head.balanced))
  | .path h _ => .node (by decide) (.single h.balanced)
  | .tuple (k := k) hi h hk _ => by
    have elements : ChildrenBalanced S i (S.next b k) (Expr.children "element" _) :=
      .enclosed hi rfl (h.balanced o) hk
    refine .node (by decide) (.append elements ?_)
    split
    · exact .single (.token .done)
    · exact .nil
  | .array hi h hk _ => .node (by decide) (.enclosed hi rfl (h.balanced o) hk)
  | .conditional hi h h' he h'' _ =>
    .node (by decide) (.behind (.token hi rfl) (.cons (h.balanced o) (.cons (h'.balanced o)
      (.behind (.past _) (.behind (.token he.past rfl) (.single (h''.balanced o)))))))
  | .matchOn hi h hk h' hl _ =>
    .node (by decide) (.behind (.token hi rfl) (.cons (h.balanced o)
      (.enclosed (b := false) hk rfl (.behind (.past _) (h'.balanced o)) hl)))
  | .returns hi _ h _ => .node (by decide) (.behind (.token hi rfl) (.single (h.balanced o)))
  | .returnsNothing hi _ _ => .node (by decide) (.behind (.token hi rfl) .nil)
  | .lambda hi h hk h' _ => by
    have bar : S.tag i = .reserved .pipe := by rw [← S.tag_kind, hi]; rfl
    exact .node (by decide) (.behind (.token bar rfl) (.append (h.balanced o)
      (.behind (.token hk rfl) (.single (h'.balanced o)))))
  | .thunk hi h _ => by
    have bars : S.tag i = .operator := by rw [← S.tag_kind, hi]; rfl
    exact .node (by decide) (.behind (.token bars rfl) (.single (h.balanced o)))

theorem ExprsAt.balanced (o : S.Ordered) {field t c b i es tr j} :
    ExprsAt S t c b i es tr j → ChildrenBalanced S i j (Expr.children field es)
  | .none _ => .nil
  | .last h _ _ => .single (h.balanced o)
  | .more h hk h' => .cons (h.balanced o) (.behind (.token hk rfl) (h'.balanced o))

theorem ParamsAt.balanced (o : S.Ordered) {t c b i ps tr j} :
    ParamsAt S t c b i ps tr j → ChildrenBalanced S i j (Param.children ps)
  | .none _ => .nil
  | .last h _ _ => .single (h.balanced o)
  | .more h hk h' => .cons (h.balanced o) (.behind (.token hk rfl) (h'.balanced o))

theorem ParamAt.balanced (o : S.Ordered) {c b i p j} :
    ParamAt S c b i p j → TreeBalanced S i j p.tree
  | .typed h hk h' _ =>
    .node (by decide) (.cons h.balanced (.behind (.token hk rfl) (.single (h'.balanced o))))
  | .untyped h _ _ => .node (by decide) (.single h.balanced)

theorem ThenAt.balanced (o : S.Ordered) {c b i t j} :
    ThenAt S c b i t j → TreeBalanced S i j t.tree
  | .block _ h => h.balanced o
  | .expr hi h => .behind (.token hi rfl) (h.balanced o)

theorem BodyAt.balanced (o : S.Ordered) {c b i t j} :
    BodyAt S c b i t j → TreeBalanced S i j t.tree
  | .block _ h => h.balanced o
  | .expr _ h => h.balanced o

theorem ArmsAt.balanced (o : S.Ordered) {i as j} :
    ArmsAt S i as j → ChildrenBalanced S i j (Arm.children as)
  | .none => .nil
  | .comma h hk h' =>
    .cons (h.balanced o) (.behind (.token hk rfl) (.behind (.past _) (h'.balanced o)))
  | .broken h _ h' => .cons (h.balanced o) (.behind (.past _) (h'.balanced o))
  | .last h _ => .single (h.balanced o)

theorem ArmAt.balanced (o : S.Ordered) {i a j} : ArmAt S i a j → TreeBalanced S i j a.tree
  | .mk h hk h' _ =>
    .node (by decide) (.cons h.balanced (.behind (.token hk rfl)
      (.behind (.past _) (.single (h'.balanced o)))))

theorem BlockAt.balanced (o : S.Ordered) {b i t j} :
    BlockAt S b i t j → TreeBalanced S i j t.tree
  | .mk hi h hk hs =>
    .block o hi (.behind (.behind false _) (.behind (.past _) (h.reduced o))) hk
      (Nat.lt_of_lt_of_le (S.lt_next false i) (Nat.le_trans (S.le_past _) h.le)) (o.exact _ _ hs)

theorem StmtsAt.reduced (o : S.Ordered) {i ss j} :
    StmtsAt S i ss j → ChildrenReduced S i j (Stmt.children ss)
  | .none => .nil
  | .more h _ h' => .append (.single (h.balanced o) h.not_placeholder) (.behind (.past _) (h'.reduced o))
  | .error hf le hs h' =>
    .append (.unread o hf (.inr rfl) le hs) (.behind (.past _) (h'.reduced o))

theorem StmtAt.balanced (o : S.Ordered) {c b i s j} :
    StmtAt S c b i s j → TreeBalanced S i j s.tree
  | .letIn hi h hk h' _ =>
    .node (by decide) (.behind (.token hi rfl) (.cons h.balanced
      (.behind (.token hk rfl) (.single (h'.balanced o)))))
  | .conditional hi h h' _ _ =>
    .node (by decide) (.behind (.token hi rfl) (.cons (h.balanced o) (.cons (h'.balanced o) .nil)))
  | .branches hi h h' he h'' _ =>
    .node (by decide) (.behind (.token hi rfl) (.cons (h.balanced o) (.cons (h'.balanced o)
      (.behind (.past _) (.behind (.token he.past rfl) (.single (h''.balanced o)))))))
  | .ask _ _ _ h hk h' _ =>
    .node (by decide) (.cons h.balanced (.behind (.token hk rfl)
      (.behind (.past _) (.single (h'.balanced o)))))
  | .expr _ _ _ h _ => .node (by decide) (.single (h.balanced o))

end

/-! ## Declarations -/

theorem ParamListAt.balanced {a : ParamList} (o : S.Ordered) (h : ParamListAt S i a j) :
    TreeBalanced S i j a.tree := by
  cases h with
  | explicit hi h hk _ =>
    exact .node (show "ExplicitArguments" ≠ "Block" by decide) (.enclosed hi rfl (h.balanced o) hk)
  | implicit hi _ h hk _ =>
    exact .node (show "ImplicitArguments" ≠ "Block" by decide) (.enclosed hi rfl (h.balanced o) hk)

theorem ParamListsAt.balanced {as : List ParamList} (o : S.Ordered) (h : ParamListsAt S i as j) :
    ChildrenBalanced S i j (allUnder "arguments" (as.map ParamList.tree)) := by
  induction h with
  | stop _ => exact .nil
  | more h _ ih => exact .cons (h.balanced o) ih

theorem OptionalTypeAt.balanced {t : Option Expr} (o : S.Ordered) (h : OptionalTypeAt S i t j) :
    ChildrenBalanced S i j (Expr.optional "type" t) := by
  cases h with
  | some hi h => exact .behind (.token hi rfl) (.single (h.balanced o))
  | none _ => exact .nil

theorem OptionalBlockAt.balanced {t : Option Block} (o : S.Ordered) (h : OptionalBlockAt S i t j) :
    ChildrenBalanced S i j (Block.optional "value" t) := by
  cases h with
  | some _ h => exact .single (h.balanced o)
  | none _ => exact .nil

theorem SignatureAt.balanced {a : Signature} (o : S.Ordered) (h : SignatureAt S i a j) :
    ChildrenBalanced S i j a.children := by
  obtain ⟨name, params, type, value, _⟩ := h
  exact .cons name.balanced
    (.append (.append (params.balanced o) (type.balanced o)) (value.balanced o))

theorem ClausePatternsAt.balanced {ps : List Pattern} (h : ClausePatternsAt S i ps j) :
    ChildrenBalanced S i (S.next false j) (Pattern.children ps) := by
  induction h with
  | stop hi => exact .behind (.token hi rfl) .nil
  | more _ h _ ih => exact .cons h.balanced ih

theorem ClauseAt.balanced {a : Clause} (o : S.Ordered) (h : ClauseAt S i a j) :
    ChildrenBalanced S i j a.children := by
  obtain @⟨n, k, ps, l, v, _, _, name, patterns, value, _⟩ := h
  have values : ChildrenBalanced S (S.next false l) j (Expr.optional "value" v) := by
    cases value with
    | some _ _ h => exact .single (h.balanced o)
    | none _ => exact .nil
  exact .cons name.balanced (.append patterns.balanced values)

theorem Listed.balanced {α : Type} {P : Nat → α → Nat → Prop} {tree : α → Tree} {field : String}
    {t : Tag} {as : List α} {l : Bool}
    (hP : ∀ i a j, P i a j → TreeBalanced S i j (tree a)) (h : Listed S t b P i as l j) :
    ChildrenBalanced S i j (allUnder field (as.map tree)) := by
  induction h with
  | none _ => exact .nil
  | last h _ _ => exact .single (hP _ _ _ h)
  | more h hk _ ih => exact .cons (hP _ _ _ h) (.behind (.token hk rfl) ih)

theorem CtorParamAt.balanced {a : CtorParam} (o : S.Ordered) (h : CtorParamAt S i a j) :
    TreeBalanced S i j a.tree := by
  cases h with
  | named hx hc h =>
    have colon : S.tag (S.next true i) = .punct .colon := by
      have next : S.next true i = i + 1 := Setting.past_of_ne (by rw [hc]; exact Tag.noConfusion)
      rw [next, hc]
    exact .node (by decide) (.cons (.token hx.balanced)
      (.behind (.token colon rfl) (.single (h.balanced o))))
  | positional _ h => exact h.balanced o

theorem CtorAt.balanced {a : Ctor} (o : S.Ordered) (h : CtorAt S i a j) :
    TreeBalanced S i j a.tree := by
  obtain ⟨name, form, _⟩ := h
  cases form with
  | typed hi h =>
    exact .node (by decide) (.cons name.balanced (.behind (.token hi rfl) (.single (h.balanced o))))
  | params hi h hk =>
    exact .node (by decide) (.cons name.balanced
      (.enclosed hi rfl (h.balanced fun _ _ _ h => h.balanced o) hk))
  | bare _ _ => exact .node (by decide) (.single name.balanced)

theorem CtorsEndAt.balanced (h : CtorsEndAt S i j) : Balanced S i j := by
  cases h with
  | comma hi _ => exact .token (b := false) hi rfl
  | broken _ _ _ => exact .past i
  | semicolon _ | other _ _ => exact .done

theorem CtorsAt.balanced {as : List Ctor} (o : S.Ordered) (h : CtorsAt S i as j) :
    ChildrenBalanced S i j (allUnder "constructor" (as.map Ctor.tree)) := by
  induction h with
  | none _ => exact .nil
  | last _ h he => exact .cons (h.balanced o) (.behind he.balanced .nil)
  | more _ h hk _ _ ih =>
    exact .cons (h.balanced o) (.behind (.token (b := false) hk rfl) (.behind (.past _) ih))

theorem MethodsAt.balanced {as : List Signature} (o : S.Ordered) (h : MethodsAt S i as j) :
    ChildrenBalanced S i j (allUnder "method" (as.map Signature.tree)) := by
  induction h with
  | none _ => exact .nil
  | last _ h _ => exact .single (.node (by decide) (h.balanced o))
  | more _ h _ _ ih => exact .cons (.node (by decide) (h.balanced o)) (.behind (.past _) ih)

theorem MembersAt.balanced {sort : TypeSort} {cs : List Ctor} {ms : List Signature}
    (o : S.Ordered) (h : MembersAt S i sort cs ms j) :
    ChildrenBalanced S i j (allUnder "constructor" (cs.map Ctor.tree)
      ++ allUnder "method" (ms.map Signature.tree)) := by
  cases h with
  | trait h | methods _ _ h => exact .behind (.past i) (h.balanced o)
  | ctors _ _ h _ => exact .behind (.past i) (.append (h.balanced o) .nil)
  | both _ _ h _ h' =>
    exact .behind (.past i) (.append (h.balanced o) (.behind (.past _) (h'.balanced o)))

theorem isBracket_of_type : ∀ {t : Tag}, typeTags.contains t = true → t.isBracket = false := by
  decide

theorem VisibilityAt.balanced {v : Option (Visibility × Span)} (h : VisibilityAt S i v j) :
    ChildrenBalanced S i j
      (v.elim [] fun (v, span) => [("visibility", .token v.keyword.text span)]) := by
  cases h with
  | none _ => exact .nil
  | some hv _ => exact .single (.token (.token rfl (isBracket_of_type (typeTags_of_visibility hv))))

theorem TypeDeclAt.balanced {d : TypeDecl} (o : S.Ordered) (h : TypeDeclAt S i d j) :
    ChildrenBalanced S i j d.children := by
  obtain @⟨v, k₁, sort, n, k₂, ls, k₃, t, k₄, body, _, hv, hsort, name, params, type, hbody⟩ := h
  have members : ChildrenBalanced S k₄ j (body.elim [] fun b => [("body", b.tree)]) := by
    cases hbody with
    | none _ => exact .nil
    | some hi h hk _ =>
      exact .single (.node (by decide) (.enclosed hi rfl (.before (h.balanced o) (.past _)) hk))
  have keyword : Balanced S k₁ (S.next false k₁) :=
    .token rfl (isBracket_of_type (typeTags_of_typeSort hsort))
  exact .append hv.balanced (.behind keyword (.cons name.balanced
    (.append (.append (params.balanced o) (type.balanced o)) members)))

theorem DeclFormAt.balanced {f : DeclForm} (o : S.Ordered) (h : DeclFormAt S i f j) :
    ChildrenBalanced S i j f.children := by
  cases h with
  | uses hi h => exact .behind (.token hi rfl) (.single h.balanced)
  | command hi hn has => exact .behind (.token hi rfl) (.cons hn.balanced (has.balanced o))
  | type h => exact h.balanced o
  | clause _ _ h => exact h.balanced o
  | signature _ _ h => exact h.balanced o

theorem AttrAt.balanced {a : Attribute} (o : S.Ordered) (h : AttrAt S i a j) :
    TreeBalanced S i j a.tree := by
  obtain @⟨_, k, as, _, _, hi, path, args, _⟩ := h
  have children : ChildrenBalanced S k j (Expr.children "argument" (as.getD [])) := by
    cases args with
    | some hi h hk => exact .enclosed hi rfl (h.balanced o) hk
    | none _ => exact .nil
  exact .node (by decide) (.behind (.token hi rfl) (.cons path.balanced children))

theorem AttrsAt.balanced {as : List Attribute} (o : S.Ordered) (h : AttrsAt S i as j) :
    ChildrenBalanced S i j (allUnder "attribute" (as.map Attribute.tree)) := by
  induction h with
  | stop _ => exact .nil
  | more h _ ih => exact .cons (h.balanced o) (.behind (.past _) ih)

/-! ## Items and files -/

theorem docs_balanced (ds : List DocString) :
    ChildrenBalanced S i i (allUnder "doc" (ds.map DocString.tree)) := by
  refine .tokens .done fun c hc => ?_
  obtain ⟨d, _, rfl⟩ := mem_allUnder.1 hc
  exact ⟨_, _, rfl⟩

theorem DeclForm.kind_ne_block (f : DeclForm) : f.kind ≠ "Block" := by
  cases f with
  | type d => cases h : d.sort <;> simp [DeclForm.kind, TypeSort.kind, h]
  | _ => simp [DeclForm.kind]

theorem DeclFormAt.not_placeholder {f : DeclForm} (h : DeclFormAt S i f j) :
    ¬ Tree.IsPlaceholder f.kind := by
  cases h with
  | @type d _ _ => cases h : d.sort <;> simp [DeclForm.kind, TypeSort.kind, h, Tree.IsPlaceholder]
  | _ => simp [DeclForm.kind, Tree.IsPlaceholder]

theorem ItemAt.reduced {docsFrom : Nat} {a : Item} (o : S.Ordered) (h : ItemAt S docsFrom i a j) :
    ChildrenReduced S i j [a.child] := by
  cases h with
  | decl _ _ h _ =>
    obtain ⟨_, attrs, form, _⟩ := h
    exact .single (.node (DeclForm.kind_ne_block _)
      (.append (.append (docs_balanced _) (attrs.balanced o)) (form.balanced o)))
      (decide_eq_false form.not_placeholder)
  | stmt _ _ h _ => exact .single (h.balanced o) h.not_placeholder
  | errorDecl hf _ lt hs => exact .unread o hf (.inl rfl) (Nat.le_of_lt lt) hs
  | errorStmt hf _ lt hs => exact .unread o hf (.inr rfl) (Nat.le_of_lt lt) hs

theorem ItemsAt.reduced {docsFrom : Nat} {as : List Item} (o : S.Ordered)
    (h : ItemsAt S docsFrom i as) :
    ∃ j, S.tag j = .eof ∧ ChildrenReduced S i j (as.map Item.child) := by
  induction h with
  | @stop _ i hi => exact ⟨i, hi, .nil⟩
  | more _ h _ ih =>
    obtain ⟨j, hj, rest⟩ := ih
    exact ⟨j, hj, .append (h.reduced o) (.behind (.past _) rest)⟩

theorem FileAt.reduced {line : Option Shebang} {f : SourceFile} (o : S.Ordered)
    (h : FileAt S line f) : ∃ j, S.tag j = .eof ∧ ChildrenReduced S 0 j f.tree.children := by
  obtain ⟨hitems, _, _⟩ := h
  obtain ⟨j, hj, items⟩ := hitems.reduced o
  have first : ChildrenReduced S 0 0
      (line.elim [] fun l => [("shebang", .token "#!" l.span)]) := by
    cases line with
    | none => exact .nil
    | some l => exact .single (.token .done) rfl
  exact ⟨j, hj, .append first (.behind (.past 0) items)⟩

theorem FileAt.braced {line : Option Shebang} {f : SourceFile} (o : S.Ordered)
    (h : FileAt S line f) (part : f.tree.Part t) : Braced S t := by
  obtain ⟨_, _, reduced⟩ := h.reduced o
  rcases part.cases_child with rfl | ⟨c, hc, part⟩
  · exact braced_other (show "SourceFile" ≠ "Block" by decide)
  · exact reduced.blocks c hc t part

/-- The brackets of a stream nest properly if no bracket stands at its end and the groups in what could
not be read are whole. -/
theorem FileAt.nests {line : Option Shebang} {f : SourceFile} (o : S.Ordered) (h : FileAt S line f)
    (whole : S.flawed → f.tree.SkipsGroups S.input.tokens)
    (plain : ∀ j, S.tag j = .eof → ∀ t ∈ (Groups.tagsOf S.input.tokens).drop j,
      ¬ t.isOpener = true ∧ ¬ t.isCloser = true) :
    Groups.nests [] (Groups.tagsOf S.input.tokens) = true := by
  obtain ⟨j, hj, reduced⟩ := h.reduced o
  obtain ⟨inside, split, same⟩ := reduced.between fun hf _ hc => (whole hf).child hc
  rw [List.drop_zero] at split
  rw [split, same, Groups.nests_append (plain j hj)]
  by_cases hf : S.flawed
  · exact (whole hf).nests
  · rw [reduced.read hf]
    rfl

/-- Nothing but the end stands at the end of a text. -/
theorem plain_at_end (cs : List Char) (dialect : Dialect) (flawed : Prop)
    (hj : (Setting.ofText cs dialect flawed).tag j = .eof) :
    ∀ t ∈ (Groups.tagsOf (lexChars cs .empty).tokens).drop j,
      ¬ t.isOpener = true ∧ ¬ t.isCloser = true := by
  obtain ⟨body, spacing, h, hbody, _⟩ := lexChars_tokens cs .empty
  have le : (body.map Token.tag).length ≤ j := by
    rw [List.length_map]
    exact length_le_of_eof h hbody hj
  unfold Groups.tagsOf
  rw [h, List.map_append, List.drop_append, List.drop_of_length_le le, List.nil_append]
  intro t ht
  cases List.mem_singleton.1 (List.mem_of_mem_drop ht)
  exact ⟨Bool.false_ne_true, Bool.false_ne_true⟩

end Grammar

/-! ## Whole texts -/

theorem extract_of_drop {α : Type} {as inside : List α} {i j : Nat} (hij : i ≤ j) (hj : j ≤ as.length)
    (h : as.drop i = inside ++ as.drop j) : as.extract i j = inside := by
  have length := congrArg List.length h
  rw [List.length_append, List.length_drop, List.length_drop] at length
  rw [List.extract_eq_take_drop, h]
  exact List.take_left' (by omega)

open Grammar

/-- Where no error is reported, or the groups in what was given up are whole, the brackets of a text
nest properly. -/
theorem nests_of_skipsGroups {source : String} {dialect : Dialect}
    (h : let p := parseText source dialect
      p.errors = [] ∨ p.tree.SkipsGroups (lex source .empty).tokens) :
    Groups.nests [] (Groups.tagsOf (lex source .empty).tokens) = true := by
  exact (parse_derives source.toList dialect).nests (ofText_ordered ..)
    (fun flawed => h.resolve_left flawed) fun _ => plain_at_end _ _ _

/-- A block stands between an opening brace and a closing one. If no error is reported, or the groups in
what was given up in the block are whole, the brackets between the two nest properly, so that they
match. -/
theorem blocks_braced (source : String) (dialect : Dialect) :
    let p := parseText source dialect
    let ts := (lex source .empty).tokens
    ∀ e ∈ p.tree.entries, e.tree.kind = "Block" → ∃ k m, k < m
      ∧ ts.tag k = .punct .openBrace ∧ ts.tag m = .punct .closeBrace
      ∧ e.tree.span = ⟨(ts.get k).span.start, (ts.get m).span.stop⟩
      ∧ (p.errors = [] ∨ e.tree.SkipsGroups ts →
        Groups.nests [] ((Groups.tagsOf ts).extract (k + 1) m) = true) := by
  intro p ts e he kind
  obtain ⟨k, m, lt, opens, closes, span, between⟩ := (parse_derives source.toList dialect).braced
    (ofText_ordered ..) (Tree.part_of_mem_entries he) kind
  have closes : ts.tag m = .punct .closeBrace := closes
  refine ⟨k, m, lt, opens, closes, span, fun h => ?_⟩
  obtain ⟨inside, split, same⟩ := (between fun flawed => h.resolve_left flawed).nests
  have inside_text : m < (Groups.tagsOf ts).length := by
    rw [Groups.length_tagsOf]
    exact Tokens.lt_size_of_tag_ne_eof (closes ▸ Tag.noConfusion)
  have nested := same [] []
  rw [List.append_nil] at nested
  rw [extract_of_drop lt (Nat.le_of_lt inside_text) split, nested]
  rfl

/-- A block goes on behind a statement that could not be read: here two of them give up the brackets of
one group between them. -/
theorem block_braced_around_errors :
    let p := parseText "f \x7b\n  (a = b\n  c)\n  z\n\x7d" .declarationFiles
    let ts := (lex "f \x7b\n  (a = b\n  c)\n  z\n\x7d" .empty).tokens
    p.errors ≠ [] ∧ ∃ e ∈ p.tree.entries, e.tree.kind = "Block" ∧ ∃ k m,
      e.tree.span = ⟨(ts.get k).span.start, (ts.get m).span.stop⟩
        ∧ Groups.nests [] ((Groups.tagsOf ts).extract (k + 1) m) = true := by
  intro p ts
  obtain ⟨errors, block⟩ : p.errors ≠ []
      ∧ (p.tree.entries.any fun e => e.tree.kind == "Block" && decide (e.tree.SkipsGroups ts)) = true := by
    decide +kernel
  obtain ⟨e, he, h⟩ := List.any_eq_true.1 block
  rw [Bool.and_eq_true, beq_iff_eq, decide_eq_true_eq] at h
  obtain ⟨k, m, _, _, _, span, nested⟩ :=
    blocks_braced "f \x7b\n  (a = b\n  c)\n  z\n\x7d" .declarationFiles e he h.1
  exact ⟨errors, e, he, h.1, k, m, span, nested (.inr h.2)⟩

/-- Where an error in a group inside of a block is given up with the group open, the block ends with
that group: its brace is matched by one that stands behind. -/
theorem block_ends_early :
    let p := parseText "f \x7b\n  match y \x7b a = b \x7d\n  z\n\x7d" .declarationFiles
    let ts := (lex "f \x7b\n  match y \x7b a = b \x7d\n  z\n\x7d" .empty).tokens
    Groups.nests [] (Groups.tagsOf ts) = true
      ∧ (∃ e ∈ p.tree.entries, e.tree.kind = "Block"
        ∧ e.tree.span = ⟨(ts.get 1).span.start, (ts.get 9).span.stop⟩)
      ∧ (Groups.ofTokens ts).closer? 1 = some 13 := by
  intro p ts
  obtain ⟨nests, block, closer⟩ : Groups.nests [] (Groups.tagsOf ts) = true
      ∧ (p.tree.entries.any fun e => e.tree.kind == "Block"
        && decide (e.tree.span = ⟨(ts.get 1).span.start, (ts.get 9).span.stop⟩)) = true
      ∧ (Groups.ofTokens ts).closer? 1 = some 13 := by
    decide +kernel
  obtain ⟨e, he, h⟩ := List.any_eq_true.1 block
  rw [Bool.and_eq_true, beq_iff_eq, decide_eq_true_eq] at h
  exact ⟨nests, ⟨e, he, h.1, h.2⟩, closer⟩

end Surface
