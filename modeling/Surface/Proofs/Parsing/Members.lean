import Surface.Proofs.Parsing.Text
import Surface.Proofs.Parsing.Unbroken

/-!
# Constructors before methods

A semicolon parts the members of a type: constructors stand before it and methods behind it. It has to
end a line. Where a constructor's line goes on behind it, it is passed over like any other line break,
and what follows belongs to the constructor.

Results:
* `Tokens.firstSeparator?`: the first semicolon that ends a line directly in a group.
* `MembersAt.parted`: what the rules derive is parted by such a semicolon, or has no methods.
* `ctors_before_methods`: the members of the types of whole texts.
-/

namespace Surface

namespace Tokens

/-- Whether at `i` stands a semicolon that ends a line directly in the group that opens at `k`. -/
def separatorIn (ts : Tokens) (k i : Nat) : Bool := ts.semicolonIn k i && !ts.goesOn i

/-- The first semicolon before `m` that ends a line directly in the group that opens at `k`. -/
def firstSeparator? (ts : Tokens) (k m : Nat) : Option Nat :=
  (List.range m).find? (ts.separatorIn k)

end Tokens

/-- The body of the type that an item declares, if there is one, and what sort of type it is. -/
def Item.typeBody? : Item → Option (TypeSort × TypeBody)
  | .decl ⟨.type t, _, _, _⟩ => t.body.map (t.sort, ·)
  | _ => none

/-- The bodies of all types that a file declares. -/
def SourceFile.typeBodies (f : SourceFile) : List (TypeSort × TypeBody) :=
  f.items.filterMap Item.typeBody?

/-- The constructors of a type end before a separator and its methods start behind it; where there is
no separator the type has no methods. -/
def TypeBody.PartedAt (body : TypeBody) (ts : Tokens) : Option Nat → Prop
  | none => body.methods = []
  | some x => (∀ a ∈ body.ctors, a.span.stop ≤ (ts.get x).span.start)
      ∧ ∀ a ∈ body.methods, (ts.get x).span.stop ≤ a.span.start

theorem Ctor.span_tree (a : Ctor) : a.tree.span = a.span := by
  obtain ⟨_, form, _⟩ := a
  cases form <;> rfl

namespace Grammar

variable {S : Setting} {i j k m x : Nat}

/-! ## The first separator -/

theorem separatorIn_iff : S.input.tokens.separatorIn k i = true ↔ k < i ∧ S.SemicolonAt i
    ∧ Groups.nests [] ((Groups.tagsOf S.input.tokens).extract (k + 1) i) = true
    ∧ S.input.tokens.goesOn i = false := by
  simp only [Tokens.separatorIn, Tokens.semicolonIn, Setting.SemicolonAt, Setting.tag,
    Bool.and_eq_true, decide_eq_true_eq, beq_iff_eq, Bool.not_eq_true', and_assoc]

/-- What is not broken has no separator. -/
theorem Unbroken.not_separator (h : Unbroken S S.SemicolonAt (k + 1) x) {y : Nat} (hy : y < x) :
    (!S.input.tokens.separatorIn k y) = true := by
  rw [Bool.not_eq_true', Bool.eq_false_iff]
  intro separator
  obtain ⟨low, semicolon, direct, ends⟩ := separatorIn_iff.1 separator
  rw [h.goesOn low hy semicolon.1 semicolon direct] at ends
  cases ends

theorem firstSeparator?_eq_none (h : Unbroken S S.SemicolonAt (k + 1) m) :
    S.input.tokens.firstSeparator? k m = none :=
  List.find?_range_eq_none.2 fun _ hy => h.not_separator hy

theorem firstSeparator?_eq_some (h : Unbroken S S.SemicolonAt (k + 1) x) (hx : x < m)
    (semicolon : S.SemicolonAt x) (ends : S.input.tokens.goesOn x = false) :
    S.input.tokens.firstSeparator? k m = some x := by
  have direct := h.balanced.nests_between
    (Setting.le_length (Setting.ne_of_tag semicolon.1 Tag.noConfusion))
  exact List.find?_range_eq_some.2 ⟨separatorIn_iff.2 ⟨h.balanced.le, semicolon, direct, ends⟩,
    List.mem_range.2 hx, fun _ hy => h.not_separator hy⟩

/-! ## Members -/

theorem CtorsEndAt.unbroken (apart : S.Apart) (h : CtorsEndAt S i j) :
    Unbroken S S.SemicolonAt i j := by
  cases h with
  | comma hi _ => exact .token (b := false) rfl hi (by decide)
  | semicolon _ | other _ _ => exact .done
  | broken _ no _ => exact .line apart no

theorem CtorsAt.unbroken {as : List Ctor} (o : S.Ordered) (apart : S.Apart) (h : CtorsAt S i as j) :
    ChildrenUnbroken S S.SemicolonAt false i j (allUnder "constructor" (as.map Ctor.tree)) := by
  induction h with
  | none _ => exact .nil
  | last _ h he => exact .cons (h.unbroken o apart) (.behind (fun _ => he.unbroken apart) .nil)
  | more _ h hk no _ ih =>
    exact .cons (h.unbroken o apart) (.behind (.token · hk (by decide))
      (.behind (fun _ => .line apart no) ih))

/-- Where a semicolon ends the constructors it ends a line. -/
theorem CtorsAt.endsAt {as : List Ctor} (h : CtorsAt S i as j) (hj : S.SemicolonAt j) :
    S.EndsAt j := by
  have line := hj.1
  induction h with
  | @none i hi =>
    refine absurd ⟨?_, ?_⟩ hi <;> rw [line] <;> exact Tag.noConfusion
  | @last i a k j _ h he =>
    cases he with
    | comma hi _ => exact Setting.endsAt_next (b := false) rfl hi (by decide)
    | semicolon _ => exact h.endsAt
    | broken _ _ _ => exact absurd line (S.tag_past k)
    | other _ no => exact absurd line no
  | more _ _ _ _ _ ih => exact ih hj line

/-- No line of methods starts with `else`. -/
theorem MethodsAt.not_else {as : List Signature} (h : MethodsAt S i as j) :
    S.tag i ≠ .keyword .elseKw := by
  intro tag
  have signature {a : Signature} {l : Nat} : ¬ SignatureAt S i a l := by
    rintro ⟨name, _⟩
    have := Setting.tag_of_name name.head.1
    rw [tag] at this
    exact absurd this (by decide)
  cases h with
  | none hi =>
    refine hi ⟨?_, ?_⟩ <;> rw [tag] <;> exact Tag.noConfusion
  | last _ h _ | more _ h _ _ => exact signature h

/-- Constructors end before what stands behind them. -/
theorem CtorsAt.before {as : List Ctor} (o : S.Ordered) (h : CtorsAt S i as j) :
    ∀ a ∈ as, a.span.stop ≤ (S.span j).start := by
  intro a ha
  rw [← a.span_tree]
  exact ((h.childrenIn o).bounds o h.le (mem_allUnder.2 ⟨a, ha, rfl⟩)).2

/-- Methods start behind the line break before them. -/
theorem MethodsAt.behind {as : List Signature} (o : S.Ordered) (h : MethodsAt S (S.past x) as j)
    (hx : S.tag x = .lineBreak) : ∀ a ∈ as, (S.span x).stop ≤ a.span.start := by
  intro a ha
  have lt : x < S.past x := by
    rw [Setting.past_of_lineBreak hx]
    exact S.le_past (x + 1)
  have bounds := (h.childrenIn o).bounds o h.le (mem_allUnder.2 ⟨a, ha, rfl⟩)
  exact Nat.le_trans (o.stop_le_start lt) bounds.1

/-- A semicolon between constructors and methods ends a line. -/
theorem MethodsAt.ends_line {as : List Signature} (apart : S.Apart) (h : MethodsAt S (S.past x) as j)
    (hx : S.SemicolonAt x) (before : S.EndsAt x) : S.input.tokens.goesOn x = false := by
  have next : S.past x = x + 1 := by
    rw [Setting.past_of_lineBreak hx.1, Setting.past_of_ne (apart x hx.1)]
  refine Bool.or_eq_false_iff.2 ⟨?_, beq_eq_false_iff_ne.2 (next ▸ h.not_else)⟩
  rw [Bool.eq_false_iff, Ne, List.contains_iff_mem]
  exact before

/-- The members of a class or of a data type are parted by a semicolon that ends a line, and nothing
before it is broken; or there are no methods, and nothing is broken. -/
theorem MembersAt.parted {sort : TypeSort} {cs : List Ctor} {ms : List Signature} (o : S.Ordered)
    (apart : S.Apart) (opens : S.tag k = .punct .openBrace) (h : MembersAt S (k + 1) sort cs ms j)
    (no : sort ≠ .trait)
    (whole : S.flawed → ∀ a ∈ cs, a.tree.SkipsGroups S.input.tokens) :
    (∃ x ≤ j, Unbroken S S.SemicolonAt (k + 1) x ∧ S.SemicolonAt x ∧ S.input.tokens.goesOn x = false
      ∧ (∀ a ∈ cs, a.span.stop ≤ (S.span x).start) ∧ ∀ a ∈ ms, (S.span x).stop ≤ a.span.start)
    ∨ ms = [] ∧ Unbroken S S.SemicolonAt (k + 1) (S.past j) := by
  have ctors {l : Nat} (first : ¬ S.SemicolonAt (k + 1)) (h : CtorsAt S (S.past (k + 1)) cs l) :
      Unbroken S S.SemicolonAt (k + 1) l := by
    refine (Unbroken.line apart first).append (h.unbroken o apart rfl fun hf c hc => ?_)
    obtain ⟨a, ha, rfl⟩ := mem_allUnder.1 hc
    exact whole hf a ha
  cases h with
  | trait _ => exact absurd rfl no
  | methods _ semicolon h =>
    have before : S.EndsAt (k + 1) := Setting.endsAt_next (b := false) rfl opens (by decide)
    exact .inl ⟨k + 1, Nat.le_trans (S.le_past _) h.le, .done, semicolon,
      h.ends_line apart semicolon before, fun _ ha => absurd ha List.not_mem_nil,
      h.behind o semicolon.1⟩
  | ctors _ first h last => exact .inr ⟨rfl, (ctors first h).append (.line apart last)⟩
  | @both _ _ x _ _ _ first h semicolon h' =>
    exact .inl ⟨x, Nat.le_trans (S.le_past _) h'.le, ctors first h, semicolon,
      h'.ends_line apart semicolon (h.endsAt semicolon), h.before o, h'.behind o semicolon.1⟩

/-- A body stands between braces that match if the groups in what could not be read are whole, and the
first semicolon between them that ends a line parts its members. -/
theorem OptionalBodyAt.parted {sort : TypeSort} {body : TypeBody} (o : S.Ordered) (apart : S.Apart)
    (h : OptionalBodyAt S sort i (.some body) j) (no : sort ≠ .trait)
    (whole : S.flawed → body.tree.SkipsGroups S.input.tokens) : ∃ m, i < m
      ∧ S.tag i = .punct .openBrace ∧ S.tag m = .punct .closeBrace
      ∧ body.span = ⟨(S.span i).start, (S.span m).stop⟩
      ∧ Groups.nests [] ((Groups.tagsOf S.input.tokens).extract (i + 1) m) = true
      ∧ body.PartedAt S.input.tokens (S.input.tokens.firstSeparator? i m) := by
  obtain @⟨cs, ms, k, s, opens, members, closes, hs⟩ := h
  have le : i + 1 ≤ S.past k := Nat.le_trans members.le (S.le_past k)
  have ctors : S.flawed → ∀ a ∈ cs, a.tree.SkipsGroups S.input.tokens := fun hf a ha => (whole hf).child
    (List.mem_append_left _ (mem_allUnder.2 ⟨a, ha, rfl⟩))
  have nested := (ChildrenBalanced.before (members.balanced o) (.past k)).between
    fun hf c hc => (whole hf).child hc
  have span := o.exact _ _ hs
  rw [o.merge_tokens (Nat.le_of_lt le)] at span
  refine ⟨S.past k, le, opens, closes, span, nested.nests_between
    (Setting.le_length (Setting.ne_of_tag closes Tag.noConfusion)), ?_⟩
  rcases members.parted o apart opens no ctors with ⟨x, hx, same, semicolon, ends, parts⟩ | ⟨none, same⟩
  · have lt : x < S.past k := by
      refine Nat.lt_of_le_of_ne (Nat.le_trans hx (S.le_past k)) ?_
      rintro rfl
      exact S.tag_past k semicolon.1
    rw [firstSeparator?_eq_some same lt semicolon ends]
    exact parts
  · rw [firstSeparator?_eq_none same]
    exact none

theorem ofText_apart (cs : List Char) (dialect : Dialect) (flawed : Prop) :
    (Setting.ofText cs dialect flawed).Apart := Setting.apart_of_kinds (lexChars_apart cs .empty)

/-- The body of a type stands at a position of its own. -/
theorem FileAt.body_of_mem {line : Option Shebang} {f : SourceFile} {sort : TypeSort}
    {body : TypeBody} (h : FileAt S line f) (hbody : (sort, body) ∈ f.typeBodies) :
    ∃ i j, OptionalBodyAt S sort i (some body) j := by
  have of_items {docsFrom i : Nat} {as : List Item} {a : Item} (h : ItemsAt S docsFrom i as)
      (ha : a ∈ as) : ∃ docsFrom i j, ItemAt S docsFrom i a j := by
    induction h with
    | stop _ => exact absurd ha List.not_mem_nil
    | more _ h _ ih =>
      rcases List.mem_cons.1 ha with rfl | ha
      · exact ⟨_, _, _, h⟩
      · exact ih ha
  obtain ⟨items, _, _⟩ := h
  obtain ⟨a, ha, typeBody⟩ := List.mem_filterMap.1 hbody
  obtain ⟨_, _, _, item⟩ := of_items items ha
  cases item with
  | stmt _ _ _ _ | errorStmt _ _ _ _ | errorDecl _ _ _ _ => cases typeBody
  | decl _ _ h _ =>
    obtain ⟨_, _, form, _⟩ := h
    cases form with
    | uses _ _ | command _ _ _ | clause _ _ _ | signature _ _ _ => cases typeBody
    | type h =>
      obtain ⟨body', hbody', same⟩ := Option.map_eq_some_iff.1 typeBody
      cases same
      obtain ⟨_, _, _, _, _, h⟩ := h
      cases hbody'
      exact ⟨_, _, h⟩

end Grammar

/-! ## Whole texts -/

open Grammar in
/-- The body of a class or of a data type stands between braces that match, and the first semicolon
between them that ends a line parts constructors from methods. Without one there are no methods. -/
theorem ctors_before_methods (source : String) (dialect : Dialect) {sort : TypeSort}
    {body : TypeBody} (h : (sort, body) ∈ (parseText source dialect).file.typeBodies)
    (no : sort ≠ .trait) (read : (parseText source dialect).errors = [] ∨ body.tree.Read) :
    let ts := (lex source .empty).tokens
    ∃ k m, k < m ∧ ts.tag k = .punct .openBrace ∧ ts.tag m = .punct .closeBrace
      ∧ body.span = ⟨(ts.get k).span.start, (ts.get m).span.stop⟩
      ∧ Groups.nests [] ((Groups.tagsOf ts).extract (k + 1) m) = true
      ∧ body.PartedAt ts (ts.firstSeparator? k m) := by
  obtain ⟨_, _, derived⟩ := (parse_derives source.toList dialect).body_of_mem h
  exact ⟨_, derived.parted (ofText_ordered ..) (ofText_apart _ _ _) no
    fun flawed => (read.resolve_left flawed).skipsGroups _⟩

/-- A semicolon behind an arrow is passed over, and the next one is the separator. -/
theorem ctors_before_methods_behind_arrow :
    let source := "data D \x7b A : x -> ; y ; m : x \x7d"
    let p := parseText source .declarationFiles
    let ts := (lex source .empty).tokens
    p.errors = [] ∧ ∃ body, (TypeSort.data, body) ∈ p.file.typeBodies ∧ body.methods.length = 1
      ∧ ∃ k m, body.span = ⟨(ts.get k).span.start, (ts.get m).span.stop⟩
        ∧ body.PartedAt ts (ts.firstSeparator? k m) := by
  intro source p ts
  obtain ⟨errors, found⟩ : p.errors = [] ∧ (p.file.typeBodies.any fun b => decide (b.1 = .data)
      && decide (b.2.methods.length = 1)) = true := by
    decide +kernel
  obtain ⟨⟨sort, body⟩, h, of⟩ := List.any_eq_true.1 found
  rw [Bool.and_eq_true, decide_eq_true_eq, decide_eq_true_eq] at of
  obtain ⟨rfl, methods⟩ := of
  obtain ⟨k, m, _, _, _, span, _, parted⟩ :=
    ctors_before_methods source .declarationFiles h (by decide) (.inl errors)
  exact ⟨errors, body, h, methods, k, m, span, parted⟩

/-- The first semicolon directly between the braces of a body may stand inside of a constructor, whose
line goes on behind an arrow. -/
theorem ctor_around_semicolon :
    let source := "data D \x7b A : x -> ; y \x7d"
    let p := parseText source .declarationFiles
    let ts := (lex source .empty).tokens
    p.errors = [] ∧ ∃ body, (TypeSort.data, body) ∈ p.file.typeBodies
      ∧ body.span = ⟨(ts.get 2).span.start, (ts.get 9).span.stop⟩
      ∧ (List.range 9).find? (ts.semicolonIn 2) = some 7
      ∧ ∃ a ∈ body.ctors, a.span.start < (ts.get 7).span.start
        ∧ (ts.get 7).span.stop < a.span.stop := by
  intro source p ts
  obtain ⟨errors, semicolon, found⟩ : p.errors = []
      ∧ (List.range 9).find? (ts.semicolonIn 2) = some 7
      ∧ (p.file.typeBodies.any fun b => decide (b.1 = .data)
        && decide (b.2.span = ⟨(ts.get 2).span.start, (ts.get 9).span.stop⟩)
        && b.2.ctors.any fun a => decide (a.span.start < (ts.get 7).span.start)
          && decide ((ts.get 7).span.stop < a.span.stop)) = true := by
    decide +kernel
  obtain ⟨⟨sort, body⟩, h, of⟩ := List.any_eq_true.1 found
  simp only [Bool.and_eq_true, decide_eq_true_eq, List.any_eq_true] at of
  obtain ⟨⟨rfl, span⟩, ctor⟩ := of
  exact ⟨errors, body, h, span, semicolon, ctor⟩

end Surface
