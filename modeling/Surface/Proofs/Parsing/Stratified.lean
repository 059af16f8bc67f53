import Mathlib
import Surface.Proofs.Parsing.Text

/-!
# Every expression is on its level

Among all expressions that are built for a text, also for items that are given up, there is none
whose parts are on other levels than its form asks for: applications bind tighter than operators,
operators tighter than arrows and types, and no parentheses are ever needed to say so.

Results:
* `stratifying`: the log of expressions, as an invariant of all readers.
* `exprs_stratified`: the expressions of whole texts.
-/

namespace Surface

namespace Grammar

/-- All expressions that have been built are stratified. -/
def State.Stratified (s : State) : Prop := ∀ e ∈ s.nodes.exprs, e.Stratified

/-- Readers build stratified expressions only. -/
def stratifying : Invariant where
  rel _ s t := s.Stratified → t.Stratified
  admits _ := Expr.Stratified
  admits_of _ _ h _ := h
  admitsPattern _ _ := True
  admitsPattern_of _ _ _ := trivial
  refl _ _ := id
  trans h h' := h' ∘ h
  step _ _ := id
  skipBreaks _ _ := id
  skipping _ _ _ := id
  resume _ _ _ := id
  within := id
  expr _ _ _ he h x hx := (Array.mem_push.1 hx).elim (h x) fun same => same ▸ he
  pattern _ _ _ _ := id
  stmt _ _ _ := id
  error _ _ _ := id
  name _ _ := id

end Grammar

/-! ## Whole texts -/

open Grammar in
/-- Every expression that is built for a text, whether it ends up in the tree or not, has its parts
on the levels its form asks for. -/
theorem exprs_stratified (source : String) (dialect : Dialect) :
    ∀ e ∈ (parseText source dialect).nodes.exprs, e.Stratified := by
  have start : (State.start (lexChars source.toList .empty).names).Stratified :=
    fun _ h => absurd h (Array.not_mem_empty _)
  obtain ⟨f, s, run, parsed⟩ := parse_runs (lexChars source.toList .empty) dialect
  have parsed : parseText source dialect = _ := parsed
  rw [parsed]
  exact Keeps.ok (R := stratifying) run start

theorem application_stratified :
    let e : Expr := .app ⟨2, ⟨0, 3⟩⟩ (.name ⟨0, ⟨0, 1⟩⟩ "f") [.name ⟨1, ⟨2, 3⟩⟩ "x"] none
    e ∈ (parseText "f x" .scripts).nodes.exprs ∧ e.Stratified := by
  intro e
  have built : (parseText "f x" .scripts).nodes.exprs
      = #[.name ⟨0, ⟨0, 1⟩⟩ "f", .name ⟨1, ⟨2, 3⟩⟩ "x", e] := by
    cbv
  have mem : e ∈ (parseText "f x" .scripts).nodes.exprs := by
    rw [built]
    simp
  exact ⟨mem, exprs_stratified _ _ e mem⟩

end Surface
