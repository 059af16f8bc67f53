import Surface.Proofs.Grammar.Brackets
import Surface.Proofs.Lexing.Tiling
import Surface.Proofs.Parsing.Leaves
import Surface.Proofs.Tree.Flawed
import Surface.Proofs.Tree.Leaves

/-!
# Brackets in what was given up

Where a statement or an item cannot be read, the tokens up to the next place where one may start are
given up, and a node without children stands for them. The groups among those tokens need not be whole:
a statement may be given up inside a group, and what is left of the group given up behind it.

Results:
* `Tokens.bracketsIn`: the brackets that a span covers.
* `Tree.SkipsGroups`: whatever was given up, its groups are whole; so in a tree of which all could be
  read (`Tree.Read.skipsGroups`).
* `Reduces`: brackets nest between two positions as those of a list do.
* `Setting.Ordered.reduces_skipped`: so do those of the span of what was given up.
-/

namespace Surface

/-! ## Brackets -/

/-- The tags that open or close a group. -/
def Tag.isBracket (t : Tag) : Bool := t.isOpener || t.isCloser

/-- The brackets among the tokens that a span covers. -/
def Tokens.bracketsIn (ts : Tokens) (s : Span) : List Tag :=
  ((ts.items.toList.filter fun t => s.containsSpan t.span).map Token.tag).filter Tag.isBracket

theorem Groups.nests_plain {t : Tag} (h : t.isBracket = false) (awaited : List Punct) (ts : List Tag) :
    nests awaited (t :: ts) = nests awaited ts := by
  obtain ⟨opens, closes⟩ := Bool.or_eq_false_iff.1 h
  exact nests_other (by rw [opens]; exact Bool.false_ne_true) (by rw [closes]; exact Bool.false_ne_true)

/-- What stands behind counts only by how it ends the groups that are open. -/
theorem Groups.nests_cons_congr {xs ys : List Tag}
    (h : ∀ awaited, nests awaited xs = nests awaited ys) (awaited : List Punct) (t : Tag) :
    nests awaited (t :: xs) = nests awaited (t :: ys) := by
  cases awaited <;> simp only [nests, h]

theorem Groups.nests_append_congr {xs ys : List Tag}
    (h : ∀ awaited, nests awaited xs = nests awaited ys) (awaited : List Punct) (ts : List Tag) :
    nests awaited (ts ++ xs) = nests awaited (ts ++ ys) := by
  induction ts generalizing awaited with
  | nil => exact h awaited
  | cons t ts ih => exact nests_cons_congr ih awaited t

/-- Brackets nest by themselves as they do among other tags. -/
theorem Groups.nests_filter_append (awaited : List Punct) (as ts : List Tag) :
    nests awaited (as.filter Tag.isBracket ++ ts) = nests awaited (as ++ ts) := by
  induction as generalizing awaited with
  | nil => rfl
  | cons t as ih =>
    cases bracket : t.isBracket with
    | false =>
      rw [List.filter_cons_of_neg (by rw [bracket]; exact Bool.false_ne_true), ih, List.cons_append,
        nests_plain bracket]
    | true =>
      rw [List.filter_cons_of_pos bracket]
      exact nests_cons_congr ih awaited t

/-- What is picked by a property that holds just between two positions is picked there. -/
theorem filter_eq_extract {α : Type} {as : List α} {p q : α → Bool} {i k : Nat} (le : i ≤ k)
    (h : ∀ n (hn : n < as.length), q as[n] = true → (p as[n] = true ↔ i ≤ n ∧ n < k)) :
    (as.filter p).filter q = (as.extract i k).filter q := by
  have at_pos (n : Nat) (hn : n < as.length) :
      (q as[n] && p as[n]) = true ↔ q as[n] = true ∧ i ≤ n ∧ n < k := by
    rw [Bool.and_eq_true]
    exact and_congr_right (h n hn)
  have split : as = as.take i ++ (as.extract i k ++ as.drop k) := by
    rw [List.extract_eq_take_drop, ← Nat.add_sub_of_le le, Nat.add_sub_cancel_left, ← List.drop_drop,
      List.take_append_drop, List.take_append_drop]
  have before : (as.take i).filter (fun a => q a && p a) = [] := by
    refine List.filter_eq_nil_iff.2 fun a ha => ?_
    obtain ⟨n, hn, rfl⟩ := List.mem_take_iff_getElem.1 ha
    rw [at_pos]
    omega
  have behind : (as.drop k).filter (fun a => q a && p a) = [] := by
    refine List.filter_eq_nil_iff.2 fun a ha => ?_
    obtain ⟨n, hn, rfl⟩ := List.mem_drop_iff_getElem.1 ha
    rw [at_pos]
    omega
  have inside : (as.extract i k).filter (fun a => q a && p a) = (as.extract i k).filter q := by
    refine List.filter_congr fun a ha => ?_
    rw [List.extract_eq_take_drop] at ha
    obtain ⟨n, hn, rfl⟩ := List.mem_take_iff_getElem.1 ha
    rw [List.length_drop] at hn
    rw [Bool.eq_iff_iff, List.getElem_drop, at_pos]
    exact and_iff_left (by omega)
  have parts := congrArg (List.filter fun a => q a && p a) split
  rw [List.filter_append, List.filter_append, before, behind, inside, List.append_nil,
    List.nil_append] at parts
  exact List.filter_filter.trans parts

/-! ## Trees -/

namespace Tree

/-- Nothing in a tree stands for what could not be read. -/
def Read (t : Tree) : Prop :=
  ∀ e ∈ t.entries, e.tree.kind ≠ "ErrorStmt" ∧ e.tree.kind ≠ "ErrorDecl"

instance (t : Tree) : Decidable t.Read :=
  inferInstanceAs (Decidable (∀ e ∈ t.entries, e.tree.kind ≠ "ErrorStmt" ∧ e.tree.kind ≠ "ErrorDecl"))

/-- The brackets in those of some children that stand for what could not be read. -/
def skipped (ts : Tokens) (cs : Children) : List Tag :=
  cs.flatMap fun c => if c.2.isPlaceholder then ts.bracketsIn c.2.span else []

/-- The groups in what could not be read are whole: what was given up among the children of one node,
taken together, has brackets that nest properly. -/
def SkipsGroups (ts : Tokens) (t : Tree) : Prop :=
  ∀ e ∈ t.entries, Groups.nests [] (skipped ts e.tree.children) = true

instance (ts : Tokens) (t : Tree) : Decidable (t.SkipsGroups ts) :=
  inferInstanceAs (Decidable (∀ e ∈ t.entries, Groups.nests [] (skipped ts e.tree.children) = true))

variable {ts : Tokens} {t : Tree} {c : String × Tree} {cs ds : Children}

/-- What holds of all parts of a tree holds of those of a child. -/
theorem entries_child (p : Tree → Prop) (h : ∀ e ∈ t.entries, p e.tree) (hc : c ∈ t.children) :
    ∀ e ∈ c.2.entries, p e.tree := by
  intro e he
  obtain ⟨e', he', same⟩ := mem_entries_of_part ((Part.child .self hc).trans (part_of_mem_entries he))
  rw [← same]
  exact h e' he'

/-- What holds of all parts of a tree holds of the tree. -/
theorem entries_self (p : Tree → Prop) (h : ∀ e ∈ t.entries, p e.tree) : p t := by
  obtain ⟨e, he, tree⟩ := mem_entries_of_part (.self : t.Part t)
  rw [← tree]
  exact h e he

theorem SkipsGroups.child (h : t.SkipsGroups ts) (hc : c ∈ t.children) : c.2.SkipsGroups ts :=
  entries_child (fun t => Groups.nests [] (skipped ts t.children) = true) h hc

theorem SkipsGroups.nests (h : t.SkipsGroups ts) :
    Groups.nests [] (skipped ts t.children) = true :=
  entries_self (fun t => Groups.nests [] (skipped ts t.children) = true) h

theorem skipped_append : skipped ts (cs ++ ds) = skipped ts cs ++ skipped ts ds := List.flatMap_append

theorem skipped_eq_nil (h : ∀ c ∈ cs, c.2.isPlaceholder = false) : skipped ts cs = [] := by
  refine List.flatMap_eq_nil_iff.2 fun c hc => ?_
  rw [h c hc, if_neg Bool.false_ne_true]

/-- Where all could be read, nothing was given up. -/
theorem Read.skipsGroups (h : t.Read) (ts : Tokens) : t.SkipsGroups ts := by
  intro e he
  have none : skipped ts e.tree.children = [] := by
    refine skipped_eq_nil fun c hc => ?_
    obtain ⟨e', he', same⟩ := mem_entries_of_part ((part_of_mem_entries he).trans (.child .self hc))
    have read := h e' he'
    rw [same] at read
    exact decide_eq_false fun kind => kind.elim read.2 read.1
  rw [none]
  rfl

end Tree

namespace Grammar

variable {S : Setting} {i j k : Nat}

/-! ## Brackets between two positions -/

variable (S) in
/-- The tags from a position on: one there and the others, or none. -/
theorem Setting.drop_tagsOf (i : Nat) : let tags := Groups.tagsOf S.input.tokens
    tags.drop i = tags.drop (i + 1) ∧ S.tag i = .eof ∨ tags.drop i = S.tag i :: tags.drop (i + 1) := by
  intro tags
  have tag : S.tag i = tags[i]?.getD .eof := Groups.tag_eq _ i
  have split : tags.drop i = tags[i]?.toList ++ tags.drop (i + 1) := List.drop_eq_getElem?_toList_append
  cases hi : tags[i]? with
  | none =>
    rw [hi] at split tag
    exact .inl ⟨split, tag⟩
  | some t =>
    rw [hi] at split tag
    exact .inr (by rw [split, tag]; rfl)

theorem Setting.of_drop_tagsOf {t : Tag} {ts : List Tag}
    (h : (Groups.tagsOf S.input.tokens).drop i = t :: ts) :
    S.tag i = t ∧ (Groups.tagsOf S.input.tokens).drop (i + 1) = ts := by
  rcases S.drop_tagsOf i with ⟨none, -⟩ | one
  · have length := congrArg List.length none
    rw [List.length_drop, List.length_drop] at length
    have here := congrArg List.length h
    rw [List.length_drop, List.length_cons] at here
    omega
  · exact List.cons.inj (one.symm.trans h)

/-- Brackets nest between two positions as those of a list do. -/
def Reduces (S : Setting) (i j : Nat) (tags : List Tag) : Prop := ∃ inside,
  (Groups.tagsOf S.input.tokens).drop i = inside ++ (Groups.tagsOf S.input.tokens).drop j
    ∧ ∀ awaited ts, Groups.nests awaited (inside ++ ts) = Groups.nests awaited (tags ++ ts)

theorem Reduces.append {as bs : List Tag} (h : Reduces S i k as) (h' : Reduces S k j bs) :
    Reduces S i j (as ++ bs) := by
  obtain ⟨inside, split, same⟩ := h
  obtain ⟨inside', split', same'⟩ := h'
  refine ⟨inside ++ inside', by rw [split, split', List.append_assoc], fun awaited ts => ?_⟩
  rw [List.append_assoc, List.append_assoc, same]
  exact Groups.nests_append_congr (fun awaited => same' awaited ts) awaited as

/-- What was given up between two positions covers the brackets between them. -/
theorem Setting.Ordered.skipped_contains (o : S.Ordered) (hik : i ≤ k) {s : Span}
    (hs : S.covers (skippedFrom (S.span i) (S.last k)) s) {n : Nat}
    (bracket : (S.tag n).isBracket = true) :
    s.containsSpan (S.span n) = true ↔ i ≤ n ∧ n < k := by
  have other {t : Tag} (h : t.isBracket = false) : S.tag n ≠ t := fun e => by
    rw [e, h] at bracket
    cases bracket
  have solid := o.nonempty n (other rfl)
  rw [Span.containsSpan_iff]
  constructor
  · rintro ⟨start, stop⟩
    obtain ⟨same, -, bound⟩ := o.skipped_bounds hik hs
    refine ⟨Nat.le_of_not_lt fun before => ?_, Nat.lt_of_not_le fun behind => ?_⟩
    · have := o.stop_le_start before
      omega
    · have := o.start_mono behind
      omega
  · rintro ⟨from_i, to_k⟩
    have first := o.start_mono from_i
    have last := (o.le_last to_k (other rfl)).2
    have taken : (S.span i).start < (S.last k).stop := by omega
    rw [o.exact _ _ hs, skippedFrom, if_pos taken]
    exact ⟨first, last⟩

/-- Between the positions of what was given up stand the brackets that its span covers. -/
theorem Setting.Ordered.reduces_skipped (o : S.Ordered) (hik : i ≤ k) {s : Span}
    (hs : S.covers (skippedFrom (S.span i) (S.last k)) s) :
    Reduces S i k (S.input.tokens.bracketsIn s) := by
  have picked : S.input.tokens.bracketsIn s
      = ((Groups.tagsOf S.input.tokens).extract i k).filter Tag.isBracket := by
    unfold Tokens.bracketsIn Groups.tagsOf
    rw [List.filter_map, List.extract_eq_take_drop, ← List.map_drop, ← List.map_take, List.filter_map,
      ← List.extract_eq_take_drop, filter_eq_extract hik fun n hn bracket => ?_]
    obtain ⟨tag, span⟩ := Setting.token_getElem hn
    rw [← span]
    exact o.skipped_contains hik hs (tag ▸ bracket)
  refine ⟨(Groups.tagsOf S.input.tokens).extract i k, ?_, fun awaited ts => ?_⟩
  · have behind := List.drop_drop (i := k - i) (j := i) (l := Groups.tagsOf S.input.tokens)
    rw [Nat.add_sub_of_le hik] at behind
    rw [List.extract_eq_take_drop, ← behind, List.take_append_drop]
  · rw [picked, Groups.nests_filter_append]

end Grammar

end Surface
