import Surface.Proofs.Parsing.Tidy

/-!
# Every error leaves a visible mark

An error that is reported for a text leaves a placeholder behind: an error statement, or an error
declaration among the items of the file. What holds such a placeholder may itself be given up; then
another one stands in its place, so that a text with errors never looks as if it had none.

Results:
* `Booked`: as many errors as error statements have been added.
* `Settled`: as many errors as error statements and error declarations have been added.
* `accounts`: the ledger of errors and of what they leave behind.
* `file_accounts`: whole files.
* `errors_accounted`: the errors and placeholders of whole texts.
-/

namespace Surface

namespace Grammar

/-! ## Books -/

/-- The number of error statements that have been built, whether they ended up in the tree or
not. -/
def State.placeholders (s : State) : Nat := s.nodes.stmts.toList.countP Stmt.isError

/-- As many errors as error statements have been added. -/
structure Booked (s t : State) : Prop where
  errors : s.errors.size ≤ t.errors.size
  even : t.errors.size + s.placeholders = s.errors.size + t.placeholders

namespace Booked

variable {s t u : State}

theorem trans (h : Booked s t) (h' : Booked t u) : Booked s u := by
  have := h.errors
  have := h'.errors
  have := h.even
  have := h'.even
  exact ⟨by omega, by omega⟩

/-- Errors have been added if some were added first or some were added then. -/
theorem grown (h : Booked s t) (h' : Booked t u) :
    s.errors.size < t.errors.size ∨ t.errors.size < u.errors.size ↔ s.errors.size < u.errors.size := by
  have := h.errors
  have := h'.errors
  omega

/-- Neither errors nor statements are added. -/
theorem of_eq (errors : t.errors = s.errors) (stmts : t.nodes.stmts = s.nodes.stmts) : Booked s t := by
  refine ⟨Nat.le_of_eq (by rw [errors]), ?_⟩
  rw [errors, State.placeholders, State.placeholders, stmts]

/-- A node is added that is no error statement. -/
theorem push {n : Node} (plain : n.isError = false) (nodes : t.nodes = s.nodes.push n)
    (errors : t.errors = s.errors) : Booked s t := by
  cases n with
  | expr e => exact of_eq errors (by rw [nodes]; rfl)
  | pattern p => exact of_eq errors (by rw [nodes]; rfl)
  | stmt stmt =>
    have plain : stmt.isError = false := plain
    refine ⟨Nat.le_of_eq (by rw [errors]), ?_⟩
    rw [errors, State.placeholders, State.placeholders, nodes, NodeLog.push, Array.toList_push,
      List.countP_append, List.countP_cons_of_neg (by simp [plain]), List.countP_nil, Nat.add_zero]

/-- An error and its statement are added together. -/
theorem givenUp (h : Booked s t) (e : SyntaxError) (c : Cursor) (m : Mark) :
    let u := (t.recovered e c).withStmt (.error m)
    Booked s u ∧ s.errors.size < u.errors.size := by
  intro u
  have errors : u.errors.size = t.errors.size + 1 := Array.size_push _
  have placeholders : u.placeholders = t.placeholders + 1 := by
    unfold State.placeholders
    rw [show u.nodes.stmts = t.nodes.stmts.push (.error m) from rfl, Array.toList_push,
      List.countP_append, List.countP_cons_of_pos rfl, List.countP_nil]
  have := h.errors
  have := h.even
  exact ⟨⟨by omega, by omega⟩, by omega⟩

end Booked

variable {i : Input} {s t u : State}

/-- Between two states, as many errors have been added as error statements and error declarations,
and what has been read is flawed if errors have been added. -/
structure Settled (s t : State) (items : List Item) : Prop where
  errors : s.errors.size ≤ t.errors.size
  even : t.errors.size + s.placeholders
    = s.errors.size + t.placeholders + items.countP Item.isErrorDecl
  visible : (∃ a ∈ items, a.child.2.Flawed) ↔ s.errors.size < t.errors.size

namespace Settled

variable {as bs : List Item}

/-- Neither errors nor statements are added, and nothing is read. -/
theorem of_eq (errors : t.errors = s.errors) (stmts : t.nodes.stmts = s.nodes.stmts) :
    Settled s t [] := by
  obtain ⟨le, even⟩ := Booked.of_eq errors stmts
  refine ⟨le, even, iff_of_false (by simp) ?_⟩
  rw [errors]
  exact Nat.lt_irrefl _

/-- An item without an error of its own. -/
theorem of_booked {a : Item} (books : Booked s t) (read : a.isErrorDecl = false)
    (visible : AnyFlawed (roots a) ↔ s.errors.size < t.errors.size) : Settled s t [a] := by
  refine ⟨books.errors, ?_, ?_⟩
  · rw [List.countP_cons_of_neg (by simp [read]), List.countP_nil]
    exact books.even
  · rw [← visible]
    simp [a.flawed_iff, read]

/-- An error and an error declaration are added together. -/
theorem givenUp {span : Span} (books : Booked s t) (e : SyntaxError) (c : Cursor) :
    Settled s (t.recovered e c) [.decl ⟨.error, [], [], span⟩] := by
  have errors : (t.recovered e c).errors.size = t.errors.size + 1 := Array.size_push _
  have same : (t.recovered e c).placeholders = t.placeholders := rfl
  have := books.errors
  have := books.even
  refine ⟨by omega, ?_, iff_of_true ⟨_, .head _, (Item.flawed_iff _).2 (.inl rfl)⟩ (by omega)⟩
  rw [List.countP_cons_of_pos rfl, List.countP_nil]
  omega

theorem trans (h : Settled s t as) (h' : Settled t u bs) : Settled s u (as ++ bs) := by
  have := h.errors
  have := h'.errors
  have := h.even
  have := h'.even
  refine ⟨by omega, ?_, ?_⟩
  · rw [List.countP_append]
    omega
  · simp only [List.mem_append, or_and_right, exists_or, h.visible, h'.visible]
    omega

end Settled

/-- The ledger of errors and of what they leave behind: what waits is flawed if something was
flawed before or an error has been added. -/
def accounts : Ledger where
  kept s t as bs :=
    Booked s t ∧ (AnyFlawed bs ↔ AnyFlawed as ∨ s.errors.size < t.errors.size)
  filed := Settled
  trans := fun ⟨first, flaw⟩ ⟨second, flaw'⟩ =>
    ⟨first.trans second, by rw [flaw', flaw, or_assoc, Booked.grown first second]⟩
  frame p := fun ⟨books, flaw⟩ => ⟨books, by rw [anyFlawed_append, anyFlawed_append, flaw, or_assoc]⟩
  still nodes errors :=
    ⟨.of_eq errors (by rw [nodes]), by rw [errors, or_iff_left (Nat.lt_irrefl _)]⟩
  finish {s t n} plain nodes errors _ := by
    refine ⟨.push plain nodes errors, ?_⟩
    rw [anyFlawed_singleton, n.flawed_iff, plain, errors, or_iff_left (Nat.lt_irrefl _)]
    exact or_iff_right Bool.false_ne_true
  giveUp e c m := fun ⟨books, _⟩ _ => by
    obtain ⟨books, grown⟩ := books.givenUp e c m
    refine ⟨books, iff_of_true ?_ (.inr grown)⟩
    rw [anyFlawed_singleton, Node.flawed_iff]
    exact .inl rfl
  nil nodes errors := .of_eq errors (by rw [nodes])
  append := Settled.trans
  item read := fun ⟨books, flaw⟩ =>
    .of_booked books read (flaw.trans (or_iff_right not_anyFlawed_nil))
  giveUpDecl e c _ := fun ⟨books, _⟩ => .givenUp books e c

/-! ## Files -/

/-- A file from its first line on. -/
theorem file_accounts {line : Option Shebang} {f : SourceFile} (run : file line i s = .ok f t) :
    t.errors.size + s.placeholders = s.errors.size + t.placeholders
        + f.items.countP Item.isErrorDecl + (rejectsLine line i.dialect).toNat
      ∧ (s.errors.size < t.errors.size ↔ f.tree.Flawed ∨ rejectsLine line i.dialect = true) := by
  obtain ⟨u, nodes, errors, le, even, visible⟩ := file_filed accounts run
  have same : u.placeholders = s.placeholders :=
    congrArg (fun n : NodeLog => n.stmts.toList.countP Stmt.isError) nodes
  rw [same] at even
  refine ⟨by omega, ?_⟩
  rw [SourceFile.flawed_iff, visible]
  cases h : rejectsLine line i.dialect with
  | true =>
    rw [h, Bool.toNat_true] at errors
    exact iff_of_true (by omega) (.inr rfl)
  | false =>
    rw [h, Bool.toNat_false] at errors
    rw [errors]
    simp

end Grammar

/-- As many errors are reported for a text as there are error declarations among its items, error
statements among all that have been built, and first lines that the dialect rejects. Errors are
reported if and only if the tree has a part that could not be read or the first line is rejected. -/
theorem errors_accounted (source : String) (dialect : Dialect) :
    let p := parseText source dialect
    let rejected := Grammar.rejectsLine (lex source .empty).shebang dialect
    p.errors.length = p.file.items.countP Item.isErrorDecl + p.nodes.stmts.toList.countP Stmt.isError
        + (if rejected then 1 else 0)
      ∧ (p.hasErrors = true ↔ p.tree.Flawed ∨ rejected = true) := by
  intro p rejected
  obtain ⟨f, s, run, parsed⟩ := Grammar.parse_runs (lex source .empty) dialect
  have parsed : p = _ := parsed
  have even : s.errors.size + 0 = 0 + s.placeholders + f.items.countP Item.isErrorDecl
      + rejected.toNat := (Grammar.file_accounts run).1
  have visible : 0 < s.errors.size ↔ f.tree.Flawed ∨ rejected = true :=
    (Grammar.file_accounts run).2
  have errors : p.errors.length = s.errors.size := by rw [parsed, Array.length_toList]
  have file : p.file = f := by rw [parsed]
  have stmts : p.nodes.stmts.toList.countP Stmt.isError = s.placeholders := by
    rw [parsed]
    rfl
  refine ⟨?_, ?_⟩
  · have count : (if rejected then 1 else 0) = rejected.toNat := by cases rejected <;> rfl
    rw [errors, file, stmts, count]
    omega
  · have some : p.hasErrors = true ↔ 0 < s.errors.size := by
      rw [Parsed.hasErrors, Bool.not_eq_true', ← Bool.not_eq_true, List.isEmpty_iff,
        ← List.length_eq_zero_iff, errors, Nat.pos_iff_ne_zero]
    rw [some, Parsed.tree, file]
    exact visible

end Surface
