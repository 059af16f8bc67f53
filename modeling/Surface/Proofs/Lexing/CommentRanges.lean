import Mathlib.Data.List.Chain
import Surface.Proofs.Lexing.Order

/-!
# Comments between two offsets

Comments are looked up by two binary searches, one over the places where they start and one over those
where they end. Where comments follow each other, the two searches enclose exactly those that lie
between the offsets: a comment that only reaches over one of them is left out, and between an offset and
a smaller one there is nothing.

Results:
* `Comments.InOrder`: comments that follow each other.
* `inOrder_lex`: the comments of a text do.
* `inRange_encloses`: the comments that are found.
-/

namespace Surface

namespace Comments

/-- Every comment covers something and ends before the next one starts. -/
structure InOrder (cs : Comments) : Prop where
  covers : ∀ c ∈ cs.items.toList, c.span.start < c.span.stop
  apart : cs.items.toList.IsChain fun c d => c.span.stop ≤ d.span.start

/-- What holds of neighbours puts all of the spans in order. -/
theorem exists_increasing {cs : List Comment} (covers : ∀ c ∈ cs, c.span.start < c.span.stop)
    (apart : cs.IsChain fun c d => c.span.stop ≤ d.span.start) (low : Nat)
    (first : ∀ c ∈ cs.head?, low ≤ c.span.start) :
    ∃ high, Increasing low high (cs.map Comment.span) := by
  induction cs generalizing low with
  | nil => exact ⟨low, Nat.le_refl low⟩
  | cons c cs ih =>
    obtain ⟨covered, covers⟩ := List.forall_mem_cons.1 covers
    obtain ⟨next, apart⟩ := List.isChain_cons.1 apart
    obtain ⟨high, rest⟩ := ih covers apart c.span.stop next
    exact ⟨high, first c rfl, covered, rest⟩

theorem InOrder.increasing {cs : Comments} (h : cs.InOrder) :
    ∃ high, Increasing 0 high (cs.items.toList.map Comment.span) :=
  exists_increasing h.covers h.apart 0 fun _ _ => Nat.zero_le _

theorem inOrder_of_increasing {cs : Comments} {low high : Nat}
    (h : Increasing low high (cs.items.toList.map Comment.span)) : cs.InOrder where
  covers _ hc := (h.bounds (List.mem_map_of_mem hc)).2.1
  apart := (List.pairwise_map.1 h.pairwise).isChain

end Comments

/-- The comments of a text follow each other. -/
theorem inOrder_lex (source : String) (names : NameTable) : (lex source names).comments.InOrder :=
  Comments.inOrder_of_increasing (lexChars_comments source.toList names)

/-- Between two offsets, in whatever order they are given, those comments are found that start no
sooner than the first and end no later than the second, in their order; this holds wherever comments
follow each other, and in every text they do. -/
theorem inRange_encloses :
    (∀ cs : Comments, cs.InOrder → ∀ start stop, (cs.inRange start stop).toList
        = cs.items.toList.filter fun c => start ≤ c.span.start && c.span.stop ≤ stop)
      ∧ ∀ (source : String) (names : NameTable), (lex source names).comments.InOrder := by
  refine ⟨fun cs order start stop => ?_, inOrder_lex⟩
  obtain ⟨high, increasing⟩ := order.increasing
  exact Comments.toList_inRange increasing start stop

/-- Two comments reach over the bounds and are left out, and so is all between bounds the other way
round. -/
theorem inRange_encloses_inner :
    let cs := (lex "// a\n//! b\nx // c\n// d" .empty).comments
    cs.InOrder ∧ ((cs.inRange 2 20).toList.map Comment.content) = ["b", "c"]
      ∧ (cs.inRange 20 2).toList = [] := by
  intro cs
  have order : cs.InOrder := inRange_encloses.2 _ _
  refine ⟨order, ?_, ?_⟩
  · rw [inRange_encloses.1 cs order 2 20]
    decide +kernel
  · rw [inRange_encloses.1 cs order 20 2]
    decide +kernel

end Surface
