import Surface.Proofs.Parsing.Text
import Surface.Proofs.Tree.Placed

/-!
# Trees between positions of a stream

Where the tokens of a stream stand in order, a tree that is made of the tokens between two
positions lies between their offsets. The spans of nodes are put together from those of tokens
and of other nodes in a few ways only, and each keeps the parts of the node in their places.

Results:
* `TreeIn`, `ChildrenIn`: a tree and children between two positions.
* `TreeIn.spread`, `TreeIn.behind`, `TreeIn.joined`: nodes put together from their parts.
-/

namespace Surface

theorem Span.merge_start (a b : Span) : (a.merge b).start = min a.start b.start := rfl

theorem Span.merge_stop (a b : Span) : (a.merge b).stop = max a.stop b.stop := rfl

theorem Span.merge_of_le {a b : Span} (h : a.start ≤ b.start) (h' : a.stop ≤ b.stop) :
    a.merge b = ⟨a.start, b.stop⟩ := by
  unfold Span.merge
  rw [Nat.min_eq_left h, Nat.max_eq_right h']

namespace Grammar

variable {S : Setting} {b : Bool} {i j k l : Nat}

/-! ## Positions -/

namespace Setting

theorem ne_of_contains {ts : TagSet} {t : Tag} (h : ts.contains (S.tag i) = true)
    (ht : ts.contains t = false) : S.tag i ≠ t := by
  rintro rfl
  rw [ht] at h
  cases h

theorem ne_of_tag {t t' : Tag} (h : S.tag i = t) (ht : t ≠ t') : S.tag i ≠ t' := by
  rw [h]
  exact ht

variable (S) in
theorem last_past (i : Nat) : S.last (S.past i) = S.last i := Tokens.lastSpan_pastBreaks _ _

theorem last_next (h : S.tag i ≠ .lineBreak) : S.last (S.next b i) = S.span i := by
  have one : S.last (i + 1) = S.span i := if_neg h
  unfold next
  split
  · rw [last_past, one]
  · exact one

variable (S) in
theorem le_next (b : Bool) (i : Nat) : i ≤ S.next b i := Nat.le_of_lt (S.lt_next b i)

namespace Ordered

variable (h : S.Ordered)

include h

theorem start_mono (hij : i ≤ j) : (S.span i).start ≤ (S.span j).start := by
  rcases Nat.lt_or_eq_of_le hij with lt | rfl
  · exact Nat.le_trans (h.start_le_stop i) (h.stop_le_start lt)
  · exact Nat.le_refl _

theorem stop_mono (hij : i ≤ j) : (S.last i).stop ≤ (S.last j).stop := by
  induction j with
  | zero =>
    obtain rfl : i = 0 := by omega
    exact Nat.le_refl _
  | succ j ih =>
    rcases Nat.lt_or_eq_of_le hij with lt | rfl
    · have before := ih (by omega)
      have behind := h.last_stop_le_start (Nat.le_of_lt_succ lt)
      have := h.start_le_stop j
      show (S.last i).stop ≤ (S.input.tokens.lastSpan (j + 1)).stop
      unfold Tokens.lastSpan
      split
      · exact before
      · show (S.last i).stop ≤ (S.span j).stop
        omega
    · exact Nat.le_refl _

theorem stop_le_stop (hij : i ≤ j) : (S.span i).stop ≤ (S.span j).stop := by
  rcases Nat.lt_or_eq_of_le hij with lt | rfl
  · exact Nat.le_trans (h.stop_le_start lt) (h.start_le_stop j)
  · exact Nat.le_refl _

theorem merge_tokens (hij : i ≤ j) :
    (S.span i).merge (S.span j) = ⟨(S.span i).start, (S.span j).stop⟩ :=
  Span.merge_of_le (h.start_mono hij) (h.stop_le_stop hij)

end Ordered

end Setting

/-! ## Trees and children -/

/-- A tree that lies between two positions, with all its parts in place. -/
structure TreeIn (S : Setting) (i j : Nat) (t : Tree) : Prop where
  nested : t.Nested
  start : (S.span i).start ≤ t.span.start
  stop : t.span.stop ≤ (S.last j).stop

/-- Children that lie between two positions, each behind the one before. -/
def ChildrenIn (S : Setting) (i j : Nat) (cs : Children) : Prop :=
  ∀ low high, low ≤ (S.span i).start → (S.last j).stop ≤ high → low ≤ high → Laid low high cs

namespace TreeIn

variable {t : Tree}

theorem forward (h : TreeIn S i j t) : t.span.start ≤ t.span.stop := h.nested.placed.forward

/-- The span from a token to a tree behind it. -/
theorem merge_eq {span : Span} (o : S.Ordered) (h : TreeIn S i j t) (hk : k < i)
    (hs : span.start ≤ (S.span k).stop) (hs' : span.stop = (S.span k).stop) :
    span.merge t.span = ⟨span.start, t.span.stop⟩ := by
  have := o.stop_le_start hk
  have := h.start
  have := h.forward
  exact Span.merge_of_le (by omega) (by omega)

theorem widen {i' j' : Nat} (o : S.Ordered) (h : TreeIn S i j t) (hi : i' ≤ i) (hj : j ≤ j') :
    TreeIn S i' j' t :=
  ⟨h.nested, Nat.le_trans (o.start_mono hi) h.start, Nat.le_trans h.stop (o.stop_mono hj)⟩

theorem token (text : String) {span : Span} (o : S.Ordered) (h : S.tag i ≠ .lineBreak)
    (hs : span = S.span i) : TreeIn S i (S.next b i) (.token text span) := by
  subst hs
  exact ⟨Tree.nested_token (o.start_le_stop i), Nat.le_refl _,
    Nat.le_of_eq (congrArg Span.stop (Setting.last_next h).symm)⟩

end TreeIn

namespace ChildrenIn

variable {cs ds : Children} {t : Tree} {field : String}

theorem nil : ChildrenIn S i j [] := fun _ _ _ _ h => h

theorem widen {i' j' : Nat} (o : S.Ordered) (h : ChildrenIn S i j cs) (hi : i' ≤ i) (hj : j ≤ j') :
    ChildrenIn S i' j' cs := by
  intro low high hl hh le
  exact h low high (Nat.le_trans hl (o.start_mono hi)) (Nat.le_trans (o.stop_mono hj) hh) le

theorem cons (o : S.Ordered) (hf : isNumberPart field = false) (ht : TreeIn S i k t) (hk : k ≤ l)
    (hl : l ≤ j) (h : ChildrenIn S l j cs) : ChildrenIn S i j ((field, t) :: cs) := by
  intro low high hlow hhigh le
  have between := o.last_stop_le_start hk
  have inside := o.stop_mono (Nat.le_trans hk hl)
  have := ht.start
  have := ht.stop
  refine ⟨hf, ht.nested, by omega, ht.forward, h _ _ ?_ hhigh ?_⟩ <;> omega

theorem single (o : S.Ordered) (hf : isNumberPart field = false) (ht : TreeIn S i j t) :
    ChildrenIn S i j [(field, t)] :=
  cons o hf ht (Nat.le_refl _) (Nat.le_refl _) nil

theorem append (o : S.Ordered) (h : ChildrenIn S i k cs) (hik : i ≤ k) (hk : k ≤ l) (hl : l ≤ j)
    (h' : ChildrenIn S l j ds) : ChildrenIn S i j (cs ++ ds) := by
  intro low high hlow hhigh le
  have between := o.last_stop_le_start hk
  have inside := o.stop_mono (Nat.le_trans hk hl)
  have := o.start_mono (Nat.le_trans hik hk)
  refine Laid.append (h low (max low (S.last k).stop) hlow ?_ ?_) (h' _ high ?_ hhigh ?_) <;> omega

/-- Children start no earlier than the first token they are read from and end before what stands
behind them. -/
theorem bounds (o : S.Ordered) (h : ChildrenIn S i j cs) (le : i ≤ j) {c : String × Tree}
    (hc : c ∈ cs) : (S.span i).start ≤ c.2.span.start ∧ c.2.span.stop ≤ (S.span j).start := by
  have laid := h _ _ (Nat.le_refl _) (o.last_stop_le_start (Nat.le_refl j)) (o.start_mono le)
  obtain ⟨_, _, low, _, high⟩ := laid.mem hc
  exact ⟨low, high⟩

end ChildrenIn

/-! ## Nodes -/

namespace TreeIn

variable {t u : Tree} {cs : Children} {kind field field' : String} {i' j' k' : Nat}

theorem node {span : Span} (h : Laid span.start span.stop cs) (hi : (S.span i).start ≤ span.start)
    (hj : span.stop ≤ (S.last j).stop) : TreeIn S i j (.node kind span cs) :=
  ⟨h.nested, hi, hj⟩

/-- A node from its first part to the last token taken. -/
theorem spread {span : Span} (o : S.Ordered) (hf : isNumberPart field = false)
    (ht : TreeIn S i k t) (hk : k ≤ l) (hl : l ≤ j) (h : ChildrenIn S l j cs) (hi : i < j)
    (hb : S.tag i ≠ .lineBreak) (hs : span = t.span.merge (S.last j)) :
    TreeIn S i j (.node kind span ((field, t) :: cs)) := by
  subst hs
  have := Span.merge_start t.span (S.last j)
  have := Span.merge_stop t.span (S.last j)
  have := o.last_stop_le_start hk
  have := o.stop_mono (Nat.le_trans hk hl)
  have := o.le_last hi hb
  have := ht.start
  have := ht.stop
  have := ht.forward
  have rest : Laid t.span.stop (t.span.merge (S.last j)).stop cs :=
    h _ _ (by omega) (by omega) (by omega)
  exact node ⟨hf, ht.nested, by omega, ht.forward, rest⟩ (by omega) (by omega)

/-- A node from its first token to the last token taken. -/
theorem behind {span : Span} (o : S.Ordered) (h : ChildrenIn S k j cs) (hk : i ≤ k) (hi : i < j)
    (hb : S.tag i ≠ .lineBreak) (hs : span = (S.span i).merge (S.last j)) :
    TreeIn S i j (.node kind span cs) := by
  subst hs
  have := Span.merge_start (S.span i) (S.last j)
  have := Span.merge_stop (S.span i) (S.last j)
  have := o.le_last hi hb
  have := o.start_mono hk
  have := o.start_le_stop i
  exact node (h _ _ (by omega) (by omega) (by omega)) (by omega) (by omega)

/-- A node from its first part to its last. -/
theorem joined {span : Span} (o : S.Ordered) (hf : isNumberPart field = false)
    (hf' : isNumberPart field' = false) (ht : TreeIn S i k t) (hk : k ≤ k')
    (h : ChildrenIn S k' l cs) (hk' : k' ≤ l) (hl : l ≤ i') (hu : TreeIn S i' j u)
    (hj : i' ≤ j) (hs : span = t.span.merge u.span) :
    TreeIn S i j (.node kind span ((field, t) :: (cs ++ [(field', u)]))) := by
  subst hs
  have := Span.merge_start t.span u.span
  have := Span.merge_stop t.span u.span
  have := o.last_stop_le_start hk
  have := o.last_stop_le_start hl
  have := o.stop_mono (Nat.le_trans hk hk')
  have := o.stop_mono (Nat.le_trans hl hj)
  have := ht.start
  have := ht.stop
  have := ht.forward
  have := hu.start
  have := hu.stop
  have := hu.forward
  have middle : Laid t.span.stop (S.last l).stop cs := h _ _ (by omega) (by omega) (by omega)
  have last : Laid (S.last l).stop (t.span.merge u.span).stop [(field', u)] :=
    ⟨hf', hu.nested, by omega, hu.forward, by show _ ≤ _; omega⟩
  exact node ⟨hf, ht.nested, by omega, ht.forward, middle.append last⟩ (by omega) (by omega)

/-- A node from its first part to its last, with nothing between them. -/
theorem pair {span : Span} (o : S.Ordered) (hf : isNumberPart field = false)
    (hf' : isNumberPart field' = false) (ht : TreeIn S i k t) (hk : k ≤ i')
    (hu : TreeIn S i' j u) (hj : i' ≤ j) (hs : span = t.span.merge u.span) :
    TreeIn S i j (.node kind span [(field, t), (field', u)]) :=
  joined o hf hf' ht (Nat.le_refl k) .nil (Nat.le_refl k) hk hu hj hs

/-- A node from its first token to its last part. -/
theorem opened {span : Span} (o : S.Ordered) (hf : isNumberPart field = false) (hk : i ≤ k)
    (h : ChildrenIn S k l cs) (hl : k ≤ l) (hl' : l ≤ i') (hu : TreeIn S i' j u)
    (hs : span = ⟨(S.span i).start, u.span.stop⟩) :
    TreeIn S i j (.node kind span (cs ++ [(field, u)])) := by
  subst hs
  have := o.start_mono hk
  have := o.start_mono (Nat.le_trans hk (Nat.le_trans hl hl'))
  have := o.last_stop_le_start hl'
  have := hu.start
  have := hu.stop
  have := hu.forward
  have first : Laid (S.span i).start u.span.start cs := h _ _ (by omega) (by omega) (by omega)
  have last : Laid u.span.start u.span.stop [(field, u)] :=
    ⟨hf, hu.nested, Nat.le_refl _, hu.forward, Nat.le_refl _⟩
  exact node (first.append last) (Nat.le_refl _) hu.stop

/-- A node from its first token to its only part. -/
theorem prefixed {span : Span} (o : S.Ordered) (hf : isNumberPart field = false) (hi : i ≤ i')
    (hu : TreeIn S i' j u) (hs : span = ⟨(S.span i).start, u.span.stop⟩) :
    TreeIn S i j (.node kind span [(field, u)]) :=
  opened o hf (Nat.le_refl i) .nil (Nat.le_refl i) hi hu hs

/-- A node that is its only part. -/
theorem whole {span : Span} (hf : isNumberPart field = false) (ht : TreeIn S i j t)
    (hs : span = t.span) : TreeIn S i j (.node kind span [(field, t)]) := by
  subst hs
  exact node ⟨hf, ht.nested, Nat.le_refl _, ht.forward, Nat.le_refl _⟩ ht.start ht.stop

/-- A node without parts in the place of a tree. -/
theorem empty {span : Span} (ht : TreeIn S i j t) (hs : span = t.span) :
    TreeIn S i j (.node kind span []) := by
  subst hs
  exact node ht.forward ht.start ht.stop

/-- A token in the place of a tree. -/
theorem renamed {text : String} {span : Span} (ht : TreeIn S i j t) (hs : span = t.span) :
    TreeIn S i j (.token text span) := by
  subst hs
  exact ⟨Tree.nested_token ht.forward, ht.start, ht.stop⟩

/-- A node from its first token to a closing one. -/
theorem closed {span : Span} (o : S.Ordered) (hk : i ≤ k) (h : ChildrenIn S k (S.next b l) cs)
    (hl : i ≤ l) (hb : S.tag l ≠ .lineBreak) (hs : span = (S.span i).merge (S.span l)) :
    TreeIn S i (S.next b l) (.node kind span cs) := by
  have last : (S.last (S.next b l)).stop = (S.span l).stop :=
    congrArg Span.stop (Setting.last_next hb)
  rw [hs, o.merge_tokens hl]
  refine node (h _ _ (o.start_mono hk) ?_ ?_) (Nat.le_refl _) ?_
  · exact Nat.le_of_eq last
  · exact Nat.le_trans (o.start_mono hl) (o.start_le_stop l)
  · exact Nat.le_of_eq last.symm

end TreeIn

end Grammar

end Surface
