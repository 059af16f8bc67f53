import Surface.Proofs.Canonical.Words
import Surface.Proofs.Grammar.Derivation
import Surface.Proofs.Lexing.Readings

/-!
# Streams that hold the words of a tree

Where the words of a tree stand in a stream, the rules derive the tree again. For patterns this needs
nothing but the words; expressions and declarations depend on what stands around them as well.

Results:
* `Spelt`: words stand between two positions of a stream.
* `Setting.Lenient`: streams in which nodes may carry any span.
* `Path.derived`, `Pattern.derived`: paths and patterns from their words.
-/

namespace Surface.Grammar

/-- Words stand between two positions of a stream. -/
def Spelt (T : Setting) : List Word → Nat → Nat → Prop
  | [], q, q' => q' = q
  | w :: ws, q, q' => (T.input.tokens.get q).reading = w ∧ Spelt T ws (q + 1) q'

/-- A setting in which nodes may carry any span and nothing is given up. -/
structure Setting.Lenient (T : Setting) : Prop where
  covers : ∀ a b, T.covers a b
  sound : ¬ T.flawed
  groups : T.input.groups = .ofTokens T.input.tokens

/-- No path goes on at a position, and there is no line break where line breaks are passed over. -/
structure Setting.Stops (T : Setting) (b : Bool) (q : Nat) : Prop where
  dot : T.tag q ≠ .reserved .dot
  edge : b = true → T.tag q ≠ .lineBreak

variable {T : Setting} {b : Bool} {q q' k : Nat} {ws ws' : List Word} {w : Word}

namespace Spelt

theorem append : Spelt T (ws ++ ws') q q' ↔ ∃ k, Spelt T ws q k ∧ Spelt T ws' k q' := by
  induction ws generalizing q with
  | nil =>
    refine ⟨fun h => ⟨q, rfl, h⟩, ?_⟩
    rintro ⟨k, rfl, h⟩
    exact h
  | cons w ws ih =>
    refine ⟨fun ⟨hw, h⟩ => ?_, fun ⟨k, ⟨hw, h⟩, h'⟩ => ⟨hw, ih.2 ⟨k, h, h'⟩⟩⟩
    obtain ⟨k, h, h'⟩ := ih.1 h
    exact ⟨k, ⟨hw, h⟩, h'⟩

theorem kind (h : Spelt T (w :: ws) q q') : T.kind q = w.1 := congrArg Prod.fst h.1

theorem tag (h : Spelt T (w :: ws) q q') : T.tag q = w.1.tag := by rw [← T.tag_kind, h.kind]

theorem semicolon (h : Spelt T (w :: ws) q q') :
    (T.input.tokens.get q).spacing.contains Spacing.hasSemicolon = w.2 := congrArg Prod.snd h.1

theorem tail (h : Spelt T (w :: ws) q q') : Spelt T ws (q + 1) q' := h.2

/-- One word. -/
theorem one (h : Spelt T [w] q q') : T.tag q = w.1.tag ∧ q' = q + 1 := ⟨h.tag, h.tail⟩

/-- Words, and one more behind them. -/
theorem snoc (h : Spelt T (ws ++ [w]) q q') : ∃ k, Spelt T ws q k ∧ T.tag k = w.1.tag ∧ q' = k + 1 := by
  obtain ⟨k, h, h'⟩ := append.1 h
  exact ⟨k, h, h'.one⟩

end Spelt

namespace Setting

theorem next_eq (h : b = true → T.tag (q + 1) ≠ .lineBreak) : T.next b q = q + 1 := by
  unfold next
  split
  · next hb => exact past_of_ne (h hb)
  · rfl

/-- The position behind a token that is followed by a token with another tag than a line break. -/
theorem next_of_tag {t : Tag} (h : T.tag (q + 1) = t) (ht : t ≠ .lineBreak) : T.next b q = q + 1 :=
  next_eq fun _ => by rwa [h]

theorem past_of_tag {t : Tag} (h : T.tag q = t) (ht : t ≠ .lineBreak) : T.past q = q :=
  past_of_ne (by rwa [h])

theorem Stops.not_dotted (h : T.Stops b q) : ¬ T.Dotted q := fun dotted => h.dot dotted.1

theorem Stops.next (h : T.Stops b (q + 1)) : T.next b q = q + 1 := next_eq h.edge

theorem Stops.of_tag {t : Tag} (h : T.tag q = t) (ht : t ≠ .reserved .dot ∧ t ≠ .lineBreak) :
    T.Stops b q := ⟨by rw [h]; exact ht.1, fun _ => by rw [h]; exact ht.2⟩

theorem Stops.of_contains {ts : TagSet} (h : ts.contains (T.tag q) = true)
    (ht : ts.contains (.reserved .dot) = false ∧ ts.contains .lineBreak = false) : T.Stops b q := by
  refine ⟨fun e => ?_, fun _ e => ?_⟩
  · rw [e, ht.1] at h
    cases h
  · rw [e, ht.2] at h
    cases h

end Setting

/-! ## Paths -/

variable (t : T.Lenient)

include t

theorem nameAt_derived {x : Ident} (h : T.kind q = nameKind x.name) : T.NameAt q x := by
  refine ⟨?_, t.covers _ _⟩
  rw [h]
  unfold nameKind
  split <;> rfl

theorem segments_derived {xs : List Ident} (h : Spelt T
      (xs.flatMap fun x => [.reserved .dot, .token (nameKind x.name)]) q q')
    (stops : T.Stops b q') : SegmentsAt T b q xs q' ∧ (b = true → T.tag q ≠ .lineBreak) := by
  induction xs generalizing q with
  | nil =>
    cases h
    exact ⟨.stop stops.not_dotted, stops.edge⟩
  | cons x xs ih =>
    have dot : T.tag q = .reserved .dot := h.tag
    have name := nameAt_derived t h.tail.kind
    obtain ⟨rest, edge⟩ := ih h.tail.tail
    have named := Setting.tag_of_name name.1
    have next : T.next b q = q + 1 := (Setting.Stops.of_contains named (by decide)).next
    have next' : T.next b (q + 1) = q + 1 + 1 := Setting.next_eq edge
    refine ⟨.more ⟨dot, named⟩ ?_ ?_, fun _ => by rw [dot]; exact Tag.noConfusion⟩
    · rwa [next]
    · rwa [next, next']

theorem Path.derived {p : Path} (h : Spelt T p.words q q') (stops : T.Stops b q') :
    PathAt T b q p q' := by
  obtain ⟨rest, edge⟩ := segments_derived t h.tail stops
  refine ⟨nameAt_derived t h.kind, ?_⟩
  rwa [Setting.next_eq edge]

/-! ## Patterns -/

omit t in
theorem PatternArgsAt.starts {ps : List Pattern} (h : PatternArgsAt T b q ps q') :
    q = q' ∨ patternTags.contains (T.tag q) = true := by
  cases h with
  | stop _ => exact .inl rfl
  | more h _ => exact .inr h.starts

omit t in
theorem tag_of_patternTags {t : Tag} (h : patternTags.contains t = true) :
    t ≠ .reserved .dot ∧ t ≠ .lineBreak := by
  revert h
  revert t
  decide

omit t in
theorem literal?_kind (v : Literal) : v.kind.literal? = some v := by cases v <;> rfl

theorem rest_derived {m : Mark} (h : Spelt T (Pattern.rest m).words q q') (stops : T.Stops b q') :
    AtomAt T b q (.rest m) q' := by
  obtain ⟨tag, rfl⟩ := h.one
  rw [← stops.next]
  exact .rest tag (t.covers _ _)

theorem literal_derived {m : Mark} {v : Literal} (h : Spelt T (Pattern.literal m v).words q q')
    (stops : T.Stops b q') : AtomAt T b q (.literal m v) q' := by
  have literal : (T.kind q).literal? = some v := by rw [h.kind]; exact literal?_kind v
  obtain ⟨-, rfl⟩ := h.one
  have next := stops.next
  rw [← next]
  exact .literal literal (t.covers _ _)

mutual

/-- A pattern is derived from its words, before what no pattern goes on with. -/
theorem Pattern.derived {b : Bool} {q q' : Nat} : (p : Pattern) → Spelt T p.words q q' →
    T.Stops b q' → patternTags.contains (T.tag q') = false → PatternAt T b q p q'
  | .cons m p args, h, stops, last => by
    obtain ⟨k, hp, hargs⟩ := Spelt.append.1 h
    have args := Pattern.argsDerived args hargs stops last
    have between : T.Stops b k := by
      rcases args.starts with rfl | tag
      · exact stops
      · exact .of_tag rfl (tag_of_patternTags tag)
    exact .cons (Path.derived t hp between) args (t.covers _ _)
  | .rest m, h, stops, _ => by
    have tag : T.tag q = .reserved .dotDot := h.one.1
    exact .atom (by rw [tag]; decide) (rest_derived t h stops)
  | .literal m v, h, stops, _ => by
    refine .atom ?_ (literal_derived t h stops)
    have literal : (T.kind q).literal? = some v := by rw [h.kind]; exact literal?_kind v
    rcases Setting.tag_of_literal literal with tag | tag | tag <;> rw [tag] <;> decide

/-- Arguments are derived from their words. -/
theorem Pattern.argsDerived {b : Bool} {q q' : Nat} : (ps : List Pattern) →
    Spelt T (Pattern.argWords ps) q q' → T.Stops b q' → patternTags.contains (T.tag q') = false →
    PatternArgsAt T b q ps q'
  | [], h, _, last => by
    cases h
    exact .stop last
  | p :: ps, h, stops, last => by
    obtain ⟨k, hp, hps⟩ := Spelt.append.1 h
    have rest := Pattern.argsDerived ps hps stops last
    have between : T.Stops b k := by
      rcases rest.starts with rfl | tag
      · exact stops
      · exact .of_tag rfl (tag_of_patternTags tag)
    refine .more ?_ rest
    cases args : p.hasArgs with
    | true =>
      -- between parentheses stands a whole pattern
      rw [args] at hp
      have paren : T.tag q = .punct .openParen := hp.tag
      obtain ⟨l, inside, close, rfl⟩ := hp.tail.snoc
      have whole := Pattern.derived (b := true) p inside (.of_tag close (by decide)) (by rw [close]; decide)
      have next : T.next true q = q + 1 := Setting.next_of_tag rfl (tag_of_patternTags whole.starts).2
      have group := AtomAt.group (b := b) paren (next ▸ whole) close
      rwa [between.next] at group
    | false =>
      rw [args] at hp
      cases p with
      | cons m p args' =>
        cases args' with
        | nil =>
          have hp : Spelt T (p.words ++ []) q k := hp
          rw [List.append_nil] at hp
          exact .path (Path.derived t hp between) (t.covers _ _)
        | cons _ _ => cases args
      | rest m => exact rest_derived t hp between
      | literal m v => exact literal_derived t hp between

end

end Surface.Grammar
