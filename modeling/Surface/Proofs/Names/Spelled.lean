import Surface.Proofs.Names.Texts
import Surface.Proofs.Parallel.Spellings

/-!
# Only spellings matter

Two streams whose tokens are spelled alike are read alike, wherever the tokens stand in their texts,
whatever else is known about the blanks between them, and however their names are numbered. The name
of the bar, which is entered while reading goes on, may get another number on either side as well.

Results:
* `Lexed.SpelledAlike`: streams that are spelled alike, each under its own name table.
* `parse_of_spellings`: what comes of streams that are spelled alike.
-/

namespace Surface

/-- Streams of equal length that end in their only end, without comments, whose tokens are the same
up to spans, to the blanks before them and to the numbers of names: each name is looked up in the
table of its own stream, which holds it. -/
structure Lexed.SpelledAlike (l l' : Lexed Handle) : Prop where
  held : l.tokens.HeldBy l.names
  held' : l'.tokens.HeldBy l'.names
  size : l'.tokens.size = l.tokens.size
  nonempty : 0 < l.tokens.size
  ended : ∀ i < l.tokens.size, (l.tokens.get i).kind = .eof ↔ i + 1 = l.tokens.size
  kind : ∀ i < l.tokens.size, (l'.tokens.get i).kind.map (Naming.spell l'.names)
    = (l.tokens.get i).kind.map (Naming.spell l.names)
  semicolon : ∀ i < l.tokens.size, (l'.tokens.get i).spacing.contains Spacing.hasSemicolon
    = (l.tokens.get i).spacing.contains Spacing.hasSemicolon
  comments : l.comments = .empty
  comments' : l'.comments = .empty
  shebang : l'.shebang.isSome = l.shebang.isSome

namespace Lexed

variable (l : Lexed Handle)

@[simp] theorem resolved_size : l.resolved.tokens.size = l.tokens.size := l.tokens.size_map _

theorem resolved_get (i : Nat) : l.resolved.tokens.get i = (l.tokens.get i).map (Naming.spell l.names) :=
  l.tokens.get_map _ i

theorem resolved_comments (h : l.comments = .empty) : l.resolved.comments = .empty := by
  unfold resolved map
  rw [h]
  exact congrArg Comments.mk Array.map_empty

/-- With all names looked up the tokens are the same. -/
theorem SpelledAlike.resolved {l l' : Lexed Handle} (h : l.SpelledAlike l') :
    l.resolved.SpelledLike l'.resolved where
  size := by rw [resolved_size, resolved_size, h.size]
  nonempty := by rw [resolved_size]; exact h.nonempty
  ended i hi := by
    rw [resolved_size] at hi ⊢
    rw [resolved_get, ← h.ended i hi]
    exact (l.tokens.get i).kind.map_eq_eof _
  kind i hi := by
    rw [resolved_size] at hi
    rw [resolved_get, resolved_get]
    exact h.kind i hi
  semicolon i hi := by
    rw [resolved_size] at hi
    rw [resolved_get, resolved_get]
    exact h.semicolon i hi
  comments := l.resolved_comments h.comments
  comments' := l'.resolved_comments h.comments'
  shebang := h.shebang

/-- All names stand in the table. -/
theorem Held.of_tokens {l : Lexed Handle} (held : l.tokens.HeldBy l.names) (h : l.comments = .empty) :
    l.Held where
  tokens := held
  comments c inside := by
    rw [h] at inside
    exact absurd inside (Array.not_mem_empty c)

end Lexed

/-- What comes of a stream depends on how its tokens are spelled and on nothing else: trees of the
same shape when their names are looked up, as many nodes of each sort, and errors that say the same.
The name table is the one that was given, with the bar entered at most. -/
theorem parse_of_spellings {l l' : Lexed Handle} (h : l.SpelledAlike l') (dialect : Dialect) :
    let p := parse l dialect
    let p' := parse l' dialect
    p.resolved.tree.shape = p'.resolved.tree.shape
      ∧ p'.nodes.exprs.size = p.nodes.exprs.size
      ∧ p'.nodes.patterns.size = p.nodes.patterns.size
      ∧ p'.nodes.stmts.size = p.nodes.stmts.size
      ∧ List.Forall₂ SyntaxError.SaysSame p.errors p'.errors
      ∧ (p.names = l.names ∨ p.names = l.names.record "|")
      ∧ (p'.names = l'.names ∨ p'.names = l'.names.record "|") := by
  have read : (parse l dialect).resolved = parse l.resolved dialect :=
    parse_resolved (.of_tokens h.held h.comments) dialect
  have read' : (parse l' dialect).resolved = parse l'.resolved dialect :=
    parse_resolved (.of_tokens h.held' h.comments') dialect
  obtain ⟨shape, exprs, patterns, stmts, errors, names, names'⟩ := parse_spelledLike h.resolved dialect
  rw [← read, ← read'] at shape exprs patterns stmts errors
  rw [← read] at names
  rw [← read'] at names'
  have sizes (p : Parsed Handle) : p.resolved.nodes.exprs.size = p.nodes.exprs.size
      ∧ p.resolved.nodes.patterns.size = p.nodes.patterns.size
      ∧ p.resolved.nodes.stmts.size = p.nodes.stmts.size :=
    ⟨Array.size_map, Array.size_map, Array.size_map⟩
  rw [(sizes _).1, (sizes _).1] at exprs
  rw [(sizes _).2.1, (sizes _).2.1] at patterns
  rw [(sizes _).2.2, (sizes _).2.2] at stmts
  exact ⟨shape, exprs, patterns, stmts, errors, names, names'⟩

/-- Blanks and the numbers of names make no difference: in the second stream no name has the number
it has in the first. -/
theorem parse_of_renumbered_names :
    let l := lexCharsAs Handle "a | b".toList .empty
    let l' := lexCharsAs Handle "a   |b".toList (NameTable.empty.record "b")
    l.SpelledAlike l' ∧ (l'.tokens.get 0).kind ≠ (l.tokens.get 0).kind
      ∧ (l'.tokens.get 2).kind ≠ (l.tokens.get 2).kind
      ∧ (parse l .scripts).resolved.tree.shape = (parse l' .scripts).resolved.tree.shape := by
  intro l l'
  have spelled : l.SpelledAlike l' := {
    held := (lexCharsAs_held _ _).tokens
    held' := (lexCharsAs_held _ _).tokens
    size := by decide +kernel
    nonempty := by decide +kernel
    ended := by decide +kernel
    kind := by decide +kernel
    semicolon := by decide +kernel
    comments := by decide +kernel
    comments' := by decide +kernel
    shebang := by decide +kernel }
  exact ⟨spelled, by decide +kernel, by decide +kernel, (parse_of_spellings spelled .scripts).1⟩

end Surface
