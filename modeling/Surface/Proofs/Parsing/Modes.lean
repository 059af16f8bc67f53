import Surface.Proofs.Parsing.Text
import Surface.Proofs.Reader.Procedures

/-!
# Contexts and line-break modes

Two things decide how tokens are read: the context, and whether line breaks are passed over. Both are
changed for a part of what is read and put back behind it. An error leaves the context as it was before,
but it can leave a group open and its mode behind; where reading goes on, the mode is set anew. So the
items of a file and the statements of a block always start in the same context and mode.

Results:
* `ItemStart`, `StmtStart`: where an item of a file and a statement of a block start.
* `ItemStart.plain`, `StmtStart.plain`: no special context, and line breaks carry meaning.
* `modes_restored`: what all procedures leave behind, and how items and statements start.
-/

namespace Surface.Grammar

variable {i : Input} {s t : State}

/-- There is no special context, and line breaks carry meaning. -/
structure State.Plain (s : State) : Prop where
  context : s.context = .none
  skips : s.skips = false

/-! ## Items -/

/-- A state in which an item of a file starts: behind the line breaks that the file begins with, or
behind another item and the line breaks there, whether that item was read or given up. -/
inductive ItemStart (i : Input) (line : Option Shebang) (names : NameTable) : State → Prop
  | first {line' s t} : shebang line i (.start names) = .ok line' s → skipBreaks i s = .ok () t →
      ItemStart i line names t
  | next {s docsFrom a t u} : ItemStart i line names s → s.cursor.tag i.tokens ≠ .eof →
      item docsFrom i s = .ok a t → skipBreaks i t = .ok () u → ItemStart i line names u

/-- What keeps context and mode when it succeeds. -/
theorem State.Plain.ok {α : Type} {r : Reader α} [Steady r] [Restores r] {a : α} (h : s.Plain)
    (run : r i s = .ok a t) : t.Plain :=
  ⟨(Steady.ok run).context.trans h.context, (Restores.mode run).trans h.skips⟩

theorem ItemStart.plain {line : Option Shebang} {names : NameTable} (h : ItemStart i line names s) :
    s.Plain := by
  induction h with
  | first line breaks =>
    have start : (State.start names).Plain := ⟨rfl, rfl⟩
    exact (start.ok line).ok breaks
  | next _ _ read breaks ih => exact (ih.ok read).ok breaks

theorem ItemStart.round {line : Option Shebang} {names : NameTable} {z : Array Item × Nat}
    {r : ForInStep (Array Item × Nat)} (h : ItemStart i line names s)
    (run : itemsRound z i s = .ok r t) : ItemStart i line names t := by
  obtain ⟨-, -, rfl⟩ | ⟨more, a, u, read, breaks, -⟩ := itemsRound_ok run
  · exact h
  · exact h.next more read breaks

/-- A file is read from item to item, and it ends where another one would start. -/
theorem ItemStart.of_file {line : Option Shebang} {names : NameTable} {f : SourceFile}
    (run : file line i (.start names) = .ok f t) : ItemStart i line names t := by
  obtain ⟨line', u, first, run⟩ := bind_ok.1 run
  obtain ⟨_, v, breaks, run⟩ := bind_ok.1 run
  obtain ⟨as, w, all, run⟩ := bind_ok.1 run
  cases run
  obtain ⟨z, w, rounds, all⟩ := bind_ok.1 all
  cases all
  exact repeated_ok (Q := fun _ => ItemStart i line names) (fun _ _ _ _ h => h.round)
    (.first first breaks) rounds

/-! ## Statements of blocks -/

/-- A state in which a statement of a block starts that is read from the state `s` on: behind the brace
and line breaks, or behind another statement, whether that one was read or given up. -/
inductive StmtStart (inner : Inner) (i : Input) (s : State) : State → Prop
  | first {group t u} : openBrace i s = .ok group t → skipBreaks i t = .ok () u →
      StmtStart inner i s (u.inContext .none)
  | next {t a u} : StmtStart inner i s t → Inner.isInBraces i t = .ok true t →
      inner.stmtOrError i t = .ok a u → StmtStart inner i s u

section

variable {inner : Inner} [inner.Restores]

/-- A statement of a block is read or given up, and line breaks are passed over behind it. -/
theorem stmtOrError_ok {inner : Inner} {a : Stmt} (run : inner.stmtOrError i s = .ok a t) :
    ∃ u, orElse inner.wholeStmt (fun error => do
        newStmt (← recover error (i.tokens.get s.cursor.position).span false stmtBoundary)
          fun m => .error m) i s = .ok a u
      ∧ t = u.moved (u.cursor.skipBreaks i.tokens) := by
  unfold Inner.stmtOrError at run
  rw [bind_of_ok (nextSpan_run i s)] at run
  obtain ⟨b, u, line, run⟩ := bind_ok.1 run
  rw [bind_of_ok (skipBreaks_run i u)] at run
  cases run
  exact ⟨u, line, rfl⟩

/-- A statement that is given up leaves line breaks with their meaning. -/
theorem skips_stmtOrError {a : Stmt} (h : s.skips = false) (run : inner.stmtOrError i s = .ok a t) :
    t.skips = false := by
  obtain ⟨u, line, rfl⟩ := stmtOrError_ok run
  have mode : u.skips = false := Restores.giveUp h line
  exact (Restores.mode (skipBreaks_run i u)).trans mode

theorem StmtStart.plain [inner.Steady] (h : StmtStart inner i s t) : t.Plain := by
  induction h with
  | first brace breaks =>
    rw [openBrace_run] at brace
    cases brace
    refine ⟨rfl, (Restores.mode breaks).trans ?_⟩
    exact skipsBreaks_step i.tokens (skipping false s.cursor)
  | next _ _ read ih => exact ⟨(Steady.ok read).context.trans ih.context, skips_stmtOrError ih.skips read⟩

end

theorem StmtStart.round {inner : Inner} {u : State} {as : Array Stmt} {r : ForInStep (Array Stmt)}
    (h : StmtStart inner i s t)
    (run : whileRound Inner.isInBraces inner.stmtOrError as i t = .ok r u) :
    StmtStart inner i s u := by
  obtain ⟨more, v, look, run⟩ := bind_ok.1 run
  obtain ⟨rfl, rfl⟩ := EStateM.Result.ok.inj ((isInBraces_run i t).symm.trans look)
  cases inside : !decide (t.cursor.tag i.tokens = .punct .closeBrace)
      && !decide (t.cursor.tag i.tokens = .eof) with
  | false =>
    rw [inside] at run
    cases run
    exact h
  | true =>
    rw [inside] at run look
    obtain ⟨⟨a, goOn⟩, w, row, run⟩ := bind_ok.1 run
    obtain ⟨a', x, read, row⟩ := bind_ok.1 row
    cases row
    cases run
    exact h.next look read

/-- The statements of a block are read one by one, and its brace closes where another one would
start. -/
theorem StmtStart.of_block {inner : Inner} {b : Block} (run : inner.blockOf i s = .ok b t) :
    ∃ group u, StmtStart inner i s u ∧ closeGroup group i (u.inContext s.context) = .ok b.span t := by
  unfold Inner.blockOf at run
  rw [bind_of_ok (isNotNext_run ..)] at run
  dsimp only at run
  split at run
  · obtain ⟨_, _, fails, _⟩ := bind_ok.1 run
    cases fails
  obtain ⟨group, u, brace, run⟩ := bind_ok.1 run
  obtain ⟨_, v, breaks, run⟩ := bind_ok.1 run
  obtain ⟨ss, w, stmts, run⟩ := bind_ok.1 run
  obtain ⟨span, x, close, run⟩ := bind_ok.1 run
  cases run
  obtain ⟨x, inside, rfl⟩ := within_ok.1 stmts
  have context : v.context = s.context := (Steady.ok breaks).context.trans (Steady.ok brace).context
  rw [collectWhile_eq] at inside
  obtain ⟨as, rounds, _⟩ := map_ok.1 inside
  refine ⟨group, x, ?_, context ▸ close⟩
  exact repeated_ok (Q := fun _ => StmtStart inner i s) (fun _ _ _ _ h => h.round)
    (.first brace breaks) rounds

/-! ## All procedures -/

/-- Whatever state a procedure of the grammar starts in: if it succeeds, context and line-break mode are
those it has found, and if it fails, the context is. However many errors there have been, every item of
a file and every statement of a block starts in no special context and with line breaks that carry
meaning: a file ends, and the brace of a block closes, where another one would start. -/
theorem modes_restored :
    (∀ {α : Type} {r : Reader α}, Procedure r → ∀ i s, match r i s with
      | .ok _ t => t.context = s.context ∧ t.cursor.skipsBreaks = s.cursor.skipsBreaks
      | .error _ t => t.context = s.context)
    ∧ (∀ {i line names s}, ItemStart i line names s →
      s.context = .none ∧ s.cursor.skipsBreaks = false)
    ∧ (∀ {i line names f t}, file line i (.start names) = .ok f t → ItemStart i line names t)
    ∧ (∀ {inner i s t}, inner.Knotted → StmtStart inner i s t →
      t.context = .none ∧ t.cursor.skipsBreaks = false)
    ∧ ∀ {inner i s b t}, inner.blockOf i s = .ok b t → ∃ group u, StmtStart inner i s u
      ∧ closeGroup group i (u.inContext s.context) = .ok b.span t := by
  refine ⟨fun {α r} h i s => ?_, fun h => ⟨h.plain.context, h.plain.skips⟩, .of_file,
    fun h start => ?_, StmtStart.of_block⟩
  · have := h.steady
    have := h.restores
    cases run : r i s with
    | ok a t => exact ⟨(Steady.ok run).context, Restores.mode run⟩
    | error e t => exact (Steady.error run).context
  · have := h.restores
    have := h.keeps (R := steady)
    exact ⟨start.plain.context, start.plain.skips⟩

/-- An item that fails between parentheses has another one behind it. -/
theorem modes_restored_behind_error :
    let lexed := lexChars "a = (]\nb".toList .empty
    ∃ s, ItemStart (Lexed.input lexed .declarationFiles) lexed.shebang lexed.names s
      ∧ s.errors.size = 1 ∧ s.cursor.tag lexed.tokens = .ident
      ∧ s.context = .none ∧ s.cursor.skipsBreaks = false := by
  intro lexed
  let i := Lexed.input lexed .declarationFiles
  let s : State := (State.start lexed.names).moved (Cursor.start.skipBreaks i.tokens)
  have first : ItemStart i lexed.shebang lexed.names s := .first rfl (skipBreaks_run ..)
  have failed : (match item 0 i s with
      | .ok _ t => t.errors.size == 1 && (t.cursor.skipBreaks i.tokens).tag i.tokens == .ident
      | .error _ _ => false) = true := by decide +kernel
  cases run : item 0 i s with
  | ok a t =>
    rw [run] at failed
    have second : ItemStart i lexed.shebang lexed.names (t.moved (t.cursor.skipBreaks i.tokens)) :=
      first.next (by decide +kernel) run (skipBreaks_run i t)
    simp only [Bool.and_eq_true, beq_iff_eq] at failed
    exact ⟨_, second, failed.1, failed.2, modes_restored.2.1 second⟩
  | error e t =>
    rw [run] at failed
    cases failed

end Surface.Grammar
