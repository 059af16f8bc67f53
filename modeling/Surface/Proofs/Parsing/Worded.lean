import Surface.Proofs.Parsing.Forest

/-!
# Names, literals and operators come from the text

Whatever is built for a text, also for items that are given up, has its names, its literals and its
operators from tokens of the text. The only operator that is no operator token is the bar.

Results:
* `Node.Worded`: the words of a node that are not those of its parts are in a stream.
* `wording`: the log, as an invariant of all readers.
* `nodes_worded`: the nodes of whole texts.
-/

namespace Surface

/-- The words of a node that are not those of its parts are in a stream. -/
def Node.Worded (ts : Tokens) : Node → Prop
  | .expr e => e.Worded ts
  | .pattern p => p.Worded ts
  | .stmt _ => True

namespace Grammar

/-- All expressions and patterns that have been built are made of words of a stream. -/
structure State.Worded (ts : Tokens) (s : State) : Prop where
  exprs : ∀ e ∈ s.nodes.exprs, e.Worded ts
  patterns : ∀ p ∈ s.nodes.patterns, p.Worded ts

/-- Readers build expressions and patterns from the words of their stream. -/
def wording : Invariant where
  rel i s t := s.Worded i.tokens → t.Worded i.tokens
  admits ts e := e.Worded ts
  admits_of _ _ _ h := h
  admitsPattern ts p := p.Worded ts
  admitsPattern_of _ _ h := h
  refl _ _ := id
  trans h h' := h' ∘ h
  step _ _ h := ⟨h.exprs, h.patterns⟩
  skipBreaks _ _ h := ⟨h.exprs, h.patterns⟩
  skipping _ _ _ h := ⟨h.exprs, h.patterns⟩
  resume _ _ _ h := ⟨h.exprs, h.patterns⟩
  within kept h := ⟨(kept ⟨h.exprs, h.patterns⟩).exprs, (kept ⟨h.exprs, h.patterns⟩).patterns⟩
  expr _ _ _ he h :=
    ⟨fun x hx => (Array.mem_push.1 hx).elim (h.exprs x) fun same => same ▸ he, h.patterns⟩
  pattern _ _ _ hp h :=
    ⟨h.exprs, fun x hx => (Array.mem_push.1 hx).elim (h.patterns x) fun same => same ▸ hp⟩
  stmt _ _ _ h := ⟨h.exprs, h.patterns⟩
  error _ _ _ h := ⟨h.exprs, h.patterns⟩
  name _ _ h := ⟨h.exprs, h.patterns⟩

end Grammar

/-! ## Whole texts -/

open Grammar in
/-- All nodes that are built for a text, whether they end up in the tree or not, are made of its words. -/
theorem nodes_worded (source : String) (dialect : Dialect) {n : Node}
    (h : n ∈ (parseText source dialect).nodes.all) : n.Worded (lex source .empty).tokens := by
  obtain ⟨f, s, run, parsed⟩ := parse_runs (lex source .empty) dialect
  have parsed : parseText source dialect = _ := parsed
  have start : (State.start (lex source .empty).names).Worded (lex source .empty).tokens :=
    ⟨fun _ h => absurd h (Array.not_mem_empty _), fun _ h => absurd h (Array.not_mem_empty _)⟩
  have worded : s.Worded (lex source .empty).tokens := Keeps.ok (R := wording) run start
  rw [parsed] at h
  unfold NodeLog.all at h
  rcases List.mem_append.1 h with h | stmt
  · rcases List.mem_append.1 h with expr | pattern
    · obtain ⟨e, he, rfl⟩ := List.mem_map.1 expr
      exact worded.exprs e (Array.mem_toList_iff.1 he)
    · obtain ⟨p, hp, rfl⟩ := List.mem_map.1 pattern
      exact worded.patterns p (Array.mem_toList_iff.1 hp)
  · obtain ⟨t, -, rfl⟩ := List.mem_map.1 stmt
    exact trivial

end Surface
