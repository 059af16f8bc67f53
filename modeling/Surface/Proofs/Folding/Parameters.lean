import Surface.Proofs.Folding.Streams
import Surface.Proofs.Parsing.Unbroken

/-!
# Where parameters of constructors start

Constructors stand between commas in the braces of a class or of a data type, and the parameters of one
between commas in the parentheses behind its path. The tokens before a position tell whether one of them
starts there.

Results:
* `Tokens.OpensMembers`, `Tokens.StartsCtor`, `Tokens.StartsCtorParam`: where the members of a type, one
  of its constructors and a parameter of a constructor start.
* `Setting.PartAt`, `Setting.CtorAhead`: what has been derived of a group ends where a part of it starts;
  the first part and the next ones.
* `opensMembers_of_head`, `PathAt.behindCtorPath`: what stands before the braces and before the
  parentheses.
-/

namespace Surface

open Groups Grammar

namespace Tokens

variable (ts : Tokens)

/-- Brackets nest between two positions: the second stands beside the first, or directly in the group
that opens there. -/
def Nests (k i : Nat) : Prop := k < i ∧ nests [] ((tagsOf ts).extract (k + 1) i) = true

/-- A part of the group that opens at `k` starts at `i`: before it stands the bracket, or a comma
directly in the group. -/
def StartsPart (k i : Nat) : Prop :=
  ∃ x < i, (x = k ∨ ts.tag x = .punct .comma ∧ ts.Nests k x) ∧ pastBreaks ts (x + 1) = i

/-- The braces that open at `j` hold the members of a class or of a data type: its keyword stands before
them where nothing is open, and the line goes on up to them. -/
def OpensMembers (j : Nat) : Prop :=
  ts.tag j = .punct .openBrace
    ∧ ∃ k < j, (typeSortOf? (ts.tag k) = some .cls ∨ typeSortOf? (ts.tag k) = some .data)
      ∧ ts.openAt k = [] ∧ ts.Nests k j
      ∧ ∀ x < j, ts.tag x = .lineBreak → ts.Nests k x → ts.goesOn x = true

/-- A constructor starts at `i`: a part of the braces that hold the members of a type does, and no
semicolon stands before it. -/
def StartsCtor (i : Nat) : Prop :=
  ∃ j < i, ts.OpensMembers j ∧ ts.StartsPart j i ∧ ts.semicolonIn j (i - 1) = false

/-- Before `i` stands the path with which a constructor starts, and nothing else of it. -/
def BehindCtorPath (i : Nat) : Prop :=
  ∃ k < i, ts.StartsCtor k
    ∧ ∀ x < i, k ≤ x → ts.tag x = .reserved .dot ∨ nameTags.contains (ts.tag x) = true

/-- A parameter of a constructor starts at `i`: a part of the parentheses behind its path does. -/
def StartsCtorParam (i : Nat) : Prop :=
  ∃ k < i, ts.tag k = .punct .openParen ∧ ts.BehindCtorPath k ∧ ts.StartsPart k i

instance (k i : Nat) : Decidable (ts.Nests k i) := inferInstanceAs (Decidable (_ ∧ _))

instance (k i : Nat) : Decidable (ts.StartsPart k i) := inferInstanceAs (Decidable (∃ x < i, _))

instance (j : Nat) : Decidable (ts.OpensMembers j) := inferInstanceAs (Decidable (_ ∧ ∃ k < j, _))

instance (i : Nat) : Decidable (ts.StartsCtor i) := inferInstanceAs (Decidable (∃ j < i, _))

instance (i : Nat) : Decidable (ts.BehindCtorPath i) := inferInstanceAs (Decidable (∃ k < i, _))

instance (i : Nat) : Decidable (ts.StartsCtorParam i) := inferInstanceAs (Decidable (∃ k < i, _))

end Tokens

namespace Grammar

variable {S : Setting} {i j k x : Nat}

theorem Balanced.nests_tokens (h : Balanced S (k + 1) i) (ne : S.tag i ≠ .eof) : S.input.tokens.Nests k i :=
  ⟨h.le, h.nests_between (Setting.le_length ne)⟩

/-! ## Parts of groups -/

/-- What stands in the group that opens at `k` nests up to `i`, where a part of it starts. -/
structure Setting.PartAt (S : Setting) (k i : Nat) : Prop where
  nested : Balanced S (k + 1) i
  starts : S.input.tokens.StartsPart k i

namespace Setting.PartAt

theorem first (S : Setting) (k : Nat) : S.PartAt k (S.past (k + 1)) :=
  ⟨.past (k + 1), k, S.le_past (k + 1), .inl rfl, rfl⟩

/-- Behind a comma another part starts. -/
theorem next (h : S.PartAt k i) (inside : Balanced S i x) (comma : S.tag x = .punct .comma) :
    S.PartAt k (S.past (x + 1)) := by
  have before := h.nested.append inside
  have nests := before.nests_tokens (by rw [comma]; exact Tag.noConfusion)
  exact ⟨before.append ((Balanced.token (b := false) comma rfl).append (.past (x + 1))),
    x, S.le_past (x + 1), .inr ⟨comma, nests⟩, rfl⟩

end Setting.PartAt

/-- No semicolon is passed over behind a token. -/
theorem not_semicolonIn_past (apart : S.Apart) (hx : S.tag x ≠ .lineBreak)
    (no : ¬ S.SemicolonAt (x + 1)) : S.input.tokens.semicolonIn k (S.past (x + 1) - 1) = false := by
  have no_semicolon {i : Nat} (h : ¬ S.SemicolonAt i) : S.input.tokens.semicolonIn k i = false := by
    rw [Bool.eq_false_iff]
    intro semicolon
    simp only [Tokens.semicolonIn, Bool.and_eq_true, beq_iff_eq] at semicolon
    exact h ⟨semicolon.1.1.2, semicolon.1.2⟩
  by_cases line : S.tag (x + 1) = .lineBreak
  · rw [Setting.past_of_lineBreak line, Setting.past_of_ne (apart _ line)]
    exact no_semicolon no
  · rw [Setting.past_of_ne line]
    exact no_semicolon fun semicolon => hx semicolon.1

/-- A part of the group that opens at `k` starts at `i`, and no semicolon stands before it. -/
structure Setting.CtorAhead (S : Setting) (k i : Nat) : Prop extends S.PartAt k i where
  plain : S.input.tokens.semicolonIn k (i - 1) = false

namespace Setting.CtorAhead

theorem first (apart : S.Apart) (opens : S.tag k = .punct .openBrace) (no : ¬ S.SemicolonAt (k + 1)) :
    S.CtorAhead k (S.past (k + 1)) :=
  ⟨.first S k, not_semicolonIn_past apart (by rw [opens]; exact Tag.noConfusion) no⟩

theorem next (h : S.CtorAhead k i) (apart : S.Apart) (inside : Balanced S i x)
    (comma : S.tag x = .punct .comma) (no : ¬ S.SemicolonAt (x + 1)) :
    S.CtorAhead k (S.past (x + 1)) :=
  ⟨h.toPartAt.next inside comma, not_semicolonIn_past apart (by rw [comma]; exact Tag.noConfusion) no⟩

end Setting.CtorAhead

/-! ## Types and constructors -/

/-- What stands between the keyword of a type and its braces is a single line. -/
theorem opensMembers_of_head {sort : TypeSort} {n : Path} {ls : List ParamList} {t : Option Expr}
    {l m : Nat} (o : S.Ordered) (apart : S.Apart) (read : ¬ S.flawed)
    (opened : S.input.tokens.openAt k = []) (tag : typeSortOf? (S.tag k) = some sort)
    (no : sort ≠ .trait) (name : PathAt S false (S.next false k) n l) (params : ParamListsAt S l ls m)
    (type : OptionalTypeAt S m t j) (brace : S.tag j = .punct .openBrace) :
    S.input.tokens.OpensMembers j := by
  have head : Unbroken S (fun _ => True) (k + 1) j :=
    .append (.of_clear name.clear (by decide)) (.append
      (params.unbroken o rfl fun hf => absurd hf read) (type.unbroken o apart rfl fun hf => absurd hf read))
  have nests := head.balanced.nests_tokens (by rw [brace]; exact Tag.noConfusion)
  refine ⟨brace, k, nests.1, ?_, opened, nests, fun x hx line here => ?_⟩
  · cases sort with
    | cls => exact .inl tag
    | data => exact .inr tag
    | trait => exact absurd rfl no
  · exact head.goesOn here.1 hx line trivial here.2

theorem SegmentsAt.tags {xs : List Ident} (h : SegmentsAt S false i xs j) :
    ∀ x < j, i ≤ x → S.tag x = .reserved .dot ∨ nameTags.contains (S.tag x) = true := by
  induction h with
  | stop _ => exact fun x high low => absurd high (Nat.not_lt.2 low)
  | @more i y ys j dotted name _ ih =>
    intro x high low
    rcases Nat.eq_or_lt_of_le low with rfl | low
    · exact .inl dotted.1
    rcases Nat.eq_or_lt_of_le (Nat.succ_le_of_lt low) with rfl | low
    · exact .inr (Setting.tag_of_name name.1)
    · exact ih x high low

theorem PathAt.behindCtorPath {n : Path} (h : PathAt S false i n j) (start : S.input.tokens.StartsCtor i) :
    S.input.tokens.BehindCtorPath j := by
  refine ⟨i, h.lt, start, fun x high low => ?_⟩
  rcases Nat.eq_or_lt_of_le low with rfl | low
  · exact .inr (Setting.tag_of_name h.head.1)
  · exact h.tail.tags x high low

end Grammar

end Surface
