import Surface.Proofs.Names.Tables
import Surface.Proofs.Parallel.Aligned
import Surface.Proofs.Parallel.Files

/-!
# Streams of the same spellings

Two streams of the same tokens are read alike, wherever the tokens stand in their texts and whatever else
is known about the blanks between them.

Results:
* `Lexed.SpelledLike`: streams of the same tokens.
* `naming`: the name table, as an invariant of all readers.
* `parse_spelledLike`: what comes of streams of the same tokens.
-/

namespace Surface

namespace Grammar

/-- A run records no name but that of the bar. -/
def naming : Invariant where
  rel _ s t := t.names = s.names ∨ t.names = s.names.record "|"
  admits _ _ := True
  admits_of _ _ _ _ := trivial
  admitsPattern _ _ := True
  admitsPattern_of _ _ _ := trivial
  refl _ _ := .inl rfl
  trans h h' := by
    rcases h with h | h <;> rcases h' with h' | h' <;> rw [h', h]
    · exact .inl rfl
    · exact .inr rfl
    · exact .inr rfl
    · exact .inr (NameTable.record_record ..)
  step _ _ := .inl rfl
  skipBreaks _ _ := .inl rfl
  skipping _ _ _ := .inl rfl
  resume _ _ _ := .inl rfl
  within := id
  expr _ _ _ _ := .inl rfl
  pattern _ _ _ _ := .inl rfl
  stmt _ _ _ := .inl rfl
  error _ _ _ := .inl rfl
  name _ _ := .inr rfl

end Grammar

/-! ## Streams of the same tokens -/

/-- Streams of equal length that end in their only end, without comments, whose tokens are the
same up to spans and to the blanks before them. -/
structure Lexed.SpelledLike (l l' : Lexed) : Prop where
  size : l'.tokens.size = l.tokens.size
  nonempty : 0 < l.tokens.size
  ended : ∀ i < l.tokens.size, (l.tokens.get i).kind = .eof ↔ i + 1 = l.tokens.size
  kind : ∀ i < l.tokens.size, (l'.tokens.get i).kind = (l.tokens.get i).kind
  semicolon : ∀ i < l.tokens.size, (l'.tokens.get i).spacing.contains Spacing.hasSemicolon
    = (l.tokens.get i).spacing.contains Spacing.hasSemicolon
  comments : l.comments = .empty
  comments' : l'.comments = .empty
  shebang : l'.shebang.isSome = l.shebang.isSome

/-- Errors that say the same, though perhaps about different places. -/
def SyntaxError.SaysSame (e e' : SyntaxError) : Prop :=
  e.problem.category = e'.problem.category ∧ e.problem.code = e'.problem.code
    ∧ e.problem.message = e'.problem.message ∧ e.context = e'.context
    ∧ e.problem.openedAt?.isSome = e'.problem.openedAt?.isSome

theorem SyntaxError.saysSame_of_alike {e e' : SyntaxError} (h : alike e e') : e.SaysSame e' := by
  obtain ⟨problem, _, context⟩ := e
  obtain ⟨problem', _, context'⟩ := e'
  obtain ⟨same, rfl⟩ := h
  have same : problem.bare = problem'.bare := same
  cases problem <;> cases problem' <;> cases same <;> exact ⟨rfl, rfl, rfl, rfl, rfl⟩

namespace Lexed.SpelledLike

variable {l l' : Lexed} (h : l.SpelledLike l')

include h

theorem kind_last : (l.tokens.get (l.tokens.size - 1)).kind = .eof := by
  have := h.nonempty
  exact (h.ended _ (by omega)).2 (by omega)

/-- The relation goes both ways. -/
theorem symm : l'.SpelledLike l where
  size := h.size.symm
  nonempty := by
    rw [h.size]
    exact h.nonempty
  ended i hi := by
    rw [h.size] at hi ⊢
    rw [h.kind i hi]
    exact h.ended i hi
  kind i hi := (h.kind i (h.size ▸ hi)).symm
  semicolon i hi := (h.semicolon i (h.size ▸ hi)).symm
  comments := h.comments'
  comments' := h.comments
  shebang := h.shebang.symm

theorem groups : Groups.ofTokens l'.tokens = Groups.ofTokens l.tokens := by
  have tags : Groups.tagsOf l'.tokens = Groups.tagsOf l.tokens := by
    refine List.ext_getElem ?_ fun i hi hi' => ?_
    · unfold Groups.tagsOf
      rw [List.length_map, List.length_map]
      exact h.size
    · have inside : i < l.tokens.size := by simpa [Groups.tagsOf, Tokens.size] using hi'
      have inside' : i < l'.tokens.size := by simpa [Groups.tagsOf, Tokens.size] using hi
      have kind := h.kind i inside
      unfold Tokens.get Tokens.get? at kind
      rw [Array.getElem?_eq_getElem inside, Array.getElem?_eq_getElem inside'] at kind
      simp only [Groups.tagsOf, List.getElem_map, Array.getElem_toList]
      exact congrArg TokenKind.tag kind
  rw [Groups.ofTokens_eq, Groups.ofTokens_eq, tags]

end Lexed.SpelledLike

namespace Grammar

/-- Streams of the same tokens, from end to end. -/
theorem aligned_of_spelled {l l' : Lexed} (h : l.SpelledLike l') (dialect : Dialect) :
    Aligned (.ofLexed l dialect h.kind_last) (.ofLexed l' dialect h.symm.kind_last) 0
      (l.tokens.size - 1) where
  kind p hp := h.kind p (by have := h.nonempty; omega)
  semicolon p hp := h.semicolon p (by omega)
  ended := by
    rw [← Setting.tag_kind]
    exact congrArg TokenKind.tag h.kind_last
  left_size := (Nat.sub_add_cancel h.nonempty).symm
  right_size := h.size.trans (Nat.sub_add_cancel h.nonempty).symm
  dialect := rfl
  left_docs := Setting.docs_of_empty h.comments
  right_docs := Setting.docs_of_empty h.comments'
  groups := rfl
  closer p _ := by
    show (Groups.ofTokens l'.tokens).closer? p = _
    rw [h.groups]
    exact Option.map_id'.symm
  flawed := trivial

end Grammar

/-! ## Whole streams -/

open Grammar in
/-- What comes of a stream depends on how its tokens are spelled and on nothing else: trees of the
same shape, as many nodes of each sort, and errors that say the same. The name table is the one
that was given, with the bar entered at most. -/
theorem parse_spelledLike {l l' : Lexed} (h : l.SpelledLike l') (dialect : Dialect) :
    let p := parse l dialect
    let p' := parse l' dialect
    p.tree.shape = p'.tree.shape
      ∧ p'.nodes.exprs.size = p.nodes.exprs.size
      ∧ p'.nodes.patterns.size = p.nodes.patterns.size
      ∧ p'.nodes.stmts.size = p.nodes.stmts.size
      ∧ List.Forall₂ SyntaxError.SaysSame p.errors p'.errors
      ∧ (p.names = l.names ∨ p.names = l.names.record "|")
      ∧ (p'.names = l'.names ∨ p'.names = l'.names.record "|") := by
  let B := Bridge.ofAligned (aligned_of_spelled h dialect)
  obtain ⟨f, s, run, parsed⟩ := parse_runs l dialect
  obtain ⟨f', s', run', parsed'⟩ := parse_runs l' dialect
  have start : Matched B 0 .none false 0 0 (.start l.names) (.start l'.names) :=
    ⟨⟨rfl, rfl, rfl, rfl, Nat.zero_le _⟩, ⟨rfl, rfl, rfl, rfl, Nat.zero_le _⟩,
      ⟨⟨Nat.le_refl _, Nat.zero_le _, nofun⟩, Nat.le_refl _, Nat.le_refl _⟩,
      fun _ => ⟨rfl, rfl, rfl, .nil⟩⟩
  have twin : Twin B 0 .none false 0 0 (file l.shebang) (file l'.shebang) false 0
      fun f f' _ => f.tree.bare = f'.tree.bare := file_twin h.shebang rfl trivial
  have named : naming.rel _ _ _ := Keeps.ok (R := naming) run
  have named' : naming.rel _ _ _ := Keeps.ok (R := naming) run'
  cases twin _ _ start with
  | error run₁ _ _ _ _ => exact absurd (run.symm.trans run₁) nofun
  | ok run₁ run₁' _ same matched =>
    obtain ⟨rfl, rfl⟩ := EStateM.Result.ok.inj (run.symm.trans run₁)
    obtain ⟨rfl, rfl⟩ := EStateM.Result.ok.inj (run'.symm.trans run₁')
    obtain ⟨exprs, patterns, stmts, errors⟩ := matched.same trivial
    dsimp only
    rw [parsed, parsed']
    refine ⟨Tree.shape_eq_of_bare same, exprs, patterns, stmts, ?_, named, named'⟩
    exact errors.imp fun _ _ => SyntaxError.saysSame_of_alike

end Surface
