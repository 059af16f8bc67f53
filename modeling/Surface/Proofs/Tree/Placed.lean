import Surface.Tree.View

/-!
# Trees whose parts are in their places

A tree is in place when its span runs forward and holds those of its children, and the children
follow each other. Trees are built from lists of children that are laid out between two offsets,
and such lists are put together end to end.

Results:
* `Tree.Placed`, `Tree.Nested`: one tree in place, and all its parts.
* `Laid`: children laid out between two offsets; `Laid.append`, `Laid.nested`.
* `Tree.part_of_mem_entries`: what a walk meets is part of the tree.
* `Literal.nested`: a literal is in place although the parts of a number share its span.
-/

namespace Surface

/-- The fields under which the parts of a number stand beside its text. -/
def isNumberPart (field : String) : Bool :=
  field == "base" || field == "digits" || field == "suffix"

namespace Tree

/-- The kinds of node that a literal is stored in. -/
def isLiteralKind (kind : String) : Bool := kind == "Literal" || kind == "LiteralPattern"

/-- The span of a tree runs forward and holds those of its children. The children under one
field follow each other, and so do all children but the parts of a number, which are tokens
with the span of the literal. -/
structure Placed (t : Tree) : Prop where
  forward : t.span.start ≤ t.span.stop
  inside : ∀ c ∈ t.children, t.span.start ≤ c.2.span.start ∧ c.2.span.stop ≤ t.span.stop
  fields : ∀ field, (t.under field).Pairwise fun a b => a.span.stop ≤ b.span.start
  siblings : (t.children.filter fun c => !isNumberPart c.1).Pairwise
    fun a b => a.2.span.stop ≤ b.2.span.start
  parts : ∀ c ∈ t.children, isNumberPart c.1 = true →
    isLiteralKind t.kind = true ∧ c.2.isNode = false ∧ c.2.span = t.span

/-- A part of a tree: the tree itself or a part of a child. -/
inductive Part (t : Tree) : Tree → Prop
  | self : Part t t
  | child {u : Tree} {c : String × Tree} : Part t u → c ∈ u.children → Part t c.2

/-- All parts of a tree are in place. -/
def Nested (t : Tree) : Prop := ∀ u, t.Part u → u.Placed

theorem Part.trans {t u v : Tree} (h : t.Part u) (h' : u.Part v) : t.Part v := by
  induction h' with
  | self => exact h
  | child _ hc ih => exact .child ih hc

theorem Nested.placed {t : Tree} (h : t.Nested) : t.Placed := h t .self

/-- A part is the tree itself or a part of a child. -/
theorem Part.cases_child {t u : Tree} (h : t.Part u) : u = t ∨ ∃ c ∈ t.children, c.2.Part u := by
  induction h with
  | self => exact .inl rfl
  | child _ hc ih =>
    rcases ih with rfl | ⟨d, hd, hpart⟩
    · exact .inr ⟨_, hc, .self⟩
    · exact .inr ⟨d, hd, .child hpart hc⟩

theorem nested_of_children {t : Tree} (h : t.Placed) (hc : ∀ c ∈ t.children, c.2.Nested) :
    t.Nested := by
  intro u hu
  rcases hu.cases_child with rfl | ⟨c, hmem, hpart⟩
  · exact h
  · exact hc c hmem u hpart

theorem nested_token {text : String} {span : Span} (h : span.start ≤ span.stop) :
    (token text span).Nested := by
  refine nested_of_children ⟨h, ?_, fun _ => .nil, .nil, ?_⟩ ?_ <;>
    exact fun c hc => absurd hc List.not_mem_nil

/-! ## Walks -/

mutual

theorem part_of_mem_entriesOnto {depth : Nat} {field : String} :
    (t : Tree) → ∀ {rest : List Entry} {e : Entry}, e ∈ t.entriesOnto depth field rest →
      t.Part e.tree ∨ e ∈ rest
  | node kind span children, rest, e, h => by
    rw [entriesOnto, List.mem_cons] at h
    rcases h with rfl | h
    · exact .inl .self
    · rcases part_of_mem_childEntriesOnto children h with ⟨c, hc, hpart⟩ | h
      · exact .inl ((Part.child (u := node kind span children) .self hc).trans hpart)
      · exact .inr h
  | token text span, rest, e, h => by
    rw [entriesOnto, List.mem_cons] at h
    rcases h with rfl | h
    · exact .inl .self
    · exact .inr h

theorem part_of_mem_childEntriesOnto {depth : Nat} :
    (cs : List (String × Tree)) → ∀ {rest : List Entry} {e : Entry},
      e ∈ childEntriesOnto depth cs rest → (∃ c ∈ cs, c.2.Part e.tree) ∨ e ∈ rest
  | [], _, _, h => .inr h
  | (field, t) :: cs, _, _, h => by
    rw [childEntriesOnto] at h
    rcases part_of_mem_entriesOnto t h with hpart | h
    · exact .inl ⟨(field, t), List.mem_cons_self, hpart⟩
    · rcases part_of_mem_childEntriesOnto cs h with ⟨c, hc, hpart⟩ | h
      · exact .inl ⟨c, List.mem_cons_of_mem _ hc, hpart⟩
      · exact .inr h

end

/-- What a walk meets is part of the tree. -/
theorem part_of_mem_entries {t : Tree} {e : Entry} (h : e ∈ t.entries) : t.Part e.tree := by
  rcases part_of_mem_entriesOnto t h with h | h
  · exact h
  · exact absurd h List.not_mem_nil

theorem Part.within {t u : Tree} (h : t.Part u) (ht : t.Nested) :
    t.span.start ≤ u.span.start ∧ u.span.stop ≤ t.span.stop := by
  induction h with
  | self => exact ⟨Nat.le_refl _, Nat.le_refl _⟩
  | child hu hc ih =>
    have := (ht _ hu).inside _ hc
    omega

end Tree

/-! ## Children under one field -/

theorem mem_allUnder {α : Type} {field : String} {tree : α → Tree} {as : List α}
    {c : String × Tree} : c ∈ allUnder field (as.map tree) ↔ ∃ a ∈ as, (field, tree a) = c := by
  rw [allUnder, List.map_map, List.mem_map]
  rfl

/-! ## Children laid out -/

/-- Children that follow each other between two offsets, each of them in place. -/
def Laid (low high : Nat) : Children → Prop
  | [] => low ≤ high
  | (field, t) :: cs => isNumberPart field = false ∧ t.Nested ∧ low ≤ t.span.start
      ∧ t.span.start ≤ t.span.stop ∧ Laid t.span.stop high cs

namespace Laid

variable {low low' high high' mid : Nat} {cs ds : Children}

theorem le (h : Laid low high cs) : low ≤ high := by
  induction cs generalizing low with
  | nil => exact h
  | cons c cs ih =>
    obtain ⟨_, _, h₁, h₂, h₃⟩ := h
    have := ih h₃
    omega

theorem widen (h : Laid low high cs) (hl : low' ≤ low) (hh : high ≤ high') :
    Laid low' high' cs := by
  induction cs generalizing low low' with
  | nil => exact Nat.le_trans hl (Nat.le_trans h hh)
  | cons c cs ih =>
    obtain ⟨hf, ht, h₁, h₂, h₃⟩ := h
    exact ⟨hf, ht, Nat.le_trans hl h₁, h₂, ih h₃ (Nat.le_refl _)⟩

theorem append (h : Laid low mid cs) (h' : Laid mid high ds) : Laid low high (cs ++ ds) := by
  induction cs generalizing low with
  | nil => exact h'.widen h (Nat.le_refl _)
  | cons c cs ih =>
    obtain ⟨hf, ht, h₁, h₂, h₃⟩ := h
    exact ⟨hf, ht, h₁, h₂, ih h₃⟩

theorem mem (h : Laid low high cs) {c : String × Tree} (hc : c ∈ cs) :
    isNumberPart c.1 = false ∧ c.2.Nested ∧ low ≤ c.2.span.start
      ∧ c.2.span.start ≤ c.2.span.stop ∧ c.2.span.stop ≤ high := by
  induction cs generalizing low with
  | nil => cases hc
  | cons d cs ih =>
    obtain ⟨hf, ht, h₁, h₂, h₃⟩ := h
    rcases List.mem_cons.1 hc with rfl | hc
    · exact ⟨hf, ht, h₁, h₂, h₃.le⟩
    · obtain ⟨hf', ht', h₁', h₂', h₃'⟩ := ih h₃ hc
      exact ⟨hf', ht', by omega, h₂', h₃'⟩

theorem pairwise (h : Laid low high cs) :
    cs.Pairwise fun a b => a.2.span.stop ≤ b.2.span.start := by
  induction cs generalizing low with
  | nil => exact .nil
  | cons d cs ih =>
    obtain ⟨hf, ht, h₁, h₂, h₃⟩ := h
    exact List.pairwise_cons.2 ⟨fun c hc => (h₃.mem hc).2.2.1, ih h₃⟩

/-- A node is in place with all its parts when its children are laid out inside its span. -/
theorem nested {kind : String} {span : Span} (h : Laid span.start span.stop cs) :
    (Tree.node kind span cs).Nested := by
  refine Tree.nested_of_children ⟨h.le, ?_, ?_, ?_, ?_⟩ ?_
  · intro c hc
    obtain ⟨_, _, h₁, _, h₂⟩ := h.mem hc
    exact ⟨h₁, h₂⟩
  · intro field
    unfold Tree.under
    refine List.Pairwise.filterMap _ ?_ h.pairwise
    rintro ⟨f, a⟩ ⟨g, b⟩ hab a' ha b' hb
    simp only [Option.ite_none_right_eq_some, Option.some.injEq] at ha hb
    obtain ⟨_, rfl⟩ := ha
    obtain ⟨_, rfl⟩ := hb
    exact hab
  · exact h.pairwise.filter _
  · intro c hc hpart
    rw [(h.mem hc).1] at hpart
    cases hpart
  · exact fun c hc => (h.mem hc).2.1

end Laid

/-! ## Literals -/

/-- The parts of a number are tokens with the span of the literal, each under a field of its
own. -/
theorem Number.parts_fields (n : Number) (s : Span) :
    (∀ c ∈ n.parts s, isNumberPart c.1 = true ∧ ∃ text, c.2 = .token text s)
      ∧ ((n.parts s).map Prod.fst).Nodup := by
  unfold Number.parts
  split
  · exact ⟨fun c hc => absurd hc List.not_mem_nil, .nil⟩
  · split <;> cases n.suffix <;>
      simp [isNumberPart]

theorem Literal.children_eq (v : Literal) (field : String) (s : Span) : ∃ rest,
    v.children field s = (field, .token v.text s) :: rest
      ∧ (∀ c ∈ rest, isNumberPart c.1 = true ∧ ∃ text, c.2 = .token text s)
      ∧ (rest.map Prod.fst).Nodup := by
  cases v with
  | number n => exact ⟨_, rfl, Number.parts_fields n s⟩
  | _ => exact ⟨[], rfl, fun c hc => absurd hc List.not_mem_nil, .nil⟩

theorem Literal.nested {kind field : String} (hk : Tree.isLiteralKind kind = true)
    (hf : isNumberPart field = false) {s : Span} (hs : s.start ≤ s.stop) (v : Literal) :
    (Tree.node kind s (v.children field s)).Nested := by
  obtain ⟨rest, he, hrest, nodup⟩ := v.children_eq field s
  rw [he]
  have token : ∀ c ∈ (field, Tree.token v.text s) :: rest, ∃ text, c.2 = .token text s := by
    intro c hc
    rcases List.mem_cons.1 hc with rfl | hc
    · exact ⟨_, rfl⟩
    · exact (hrest c hc).2
  have distinct : ((field, Tree.token v.text s) :: rest).Pairwise fun a b => a.1 ≠ b.1 := by
    refine List.pairwise_cons.2 ⟨fun c hc hne => ?_, List.pairwise_map.1 nodup⟩
    have := (hrest c hc).1
    rw [← hne, hf] at this
    cases this
  refine Tree.nested_of_children ⟨hs, ?_, ?_, ?_, ?_⟩ ?_
  · intro c hc
    obtain ⟨text, e⟩ := token c hc
    rw [e]
    exact ⟨Nat.le_refl _, Nat.le_refl _⟩
  · intro f
    unfold Tree.under
    refine List.Pairwise.filterMap _ ?_ distinct
    rintro ⟨g, t⟩ ⟨g', t'⟩ hne u hu u' hu'
    simp only [Option.ite_none_right_eq_some, beq_iff_eq] at hu hu'
    exact absurd (hu.1.trans hu'.1.symm) hne
  · have none : rest.filter (fun c => !isNumberPart c.1) = [] := by
      rw [List.filter_eq_nil_iff]
      intro c hc
      simp [(hrest c hc).1]
    unfold Tree.children
    rw [List.filter_cons, none]
    split
    · exact List.pairwise_singleton _ _
    · exact .nil
  · intro c hc hpart
    obtain ⟨text, e⟩ := token c hc
    rw [e]
    exact ⟨hk, rfl, rfl⟩
  · intro c hc
    obtain ⟨text, e⟩ := token c hc
    rw [e]
    exact Tree.nested_token hs

end Surface
