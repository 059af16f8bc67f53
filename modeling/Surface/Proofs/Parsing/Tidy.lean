import Surface.Proofs.Parsing.Text
import Surface.Proofs.Reader.Ledger

/-!
# All readers keep the ledgers

Whatever is read, a node that is finished takes all its children from nodes that were finished before
and have no parent yet, and what cannot be read leaves an error statement or an error declaration
behind. So all that is to be known of a file is known from the steps of a ledger.

Results:
* `Tidy`: one instance for every reader below the items of a file.
* `item_filed`, `items_filed`: the items of a file, whether they are read or given up.
* `shebang_reports`, `file_filed`: the first line and the items behind it.
-/

namespace Surface.Grammar

variable {L : Ledger}

/-! ## Names and patterns -/

instance : Tidy L ident := by
  refine ⟨.bind fun token => ?_⟩
  split
  · exact .bind fun _ => .pure (by simp)
  · exact .absent

instance : Tidy L isNameNext := inferInstanceAs (Tidy L (isNextIn nameTags))

instance : Tidy L path := by
  have segment : Tidy L (do let _ ← take; ident : Reader Ident) := ⟨.bind fun _ => .last (by simp)⟩
  exact ⟨.bind fun _ => .bind fun _ => .pure (by simp)⟩

instance {inner : Reader Pattern} [Tidy L inner] : Tidy L (atomicPatternOf inner) := by
  refine ⟨.bind fun token => ?_⟩
  split
  · exact .bind fun _ => .newPattern fun _ => ⟨rfl, by simp⟩
  · split
    · exact .bind fun _ => .newPattern fun _ => ⟨rfl, by simp⟩
    · exact .bind fun _ => .newPattern fun _ => ⟨rfl, by simp⟩
    · exact .bind fun _ => .newPattern fun _ => ⟨rfl, by simp⟩
    · have within : Tidy L (within (fun c => c.nested.union .pattern) inner) := ⟨.within Tidy.tallies⟩
      exact .bind fun _ => .bind fun _ => .bind fun _ => .pure (by simp)
    · exact .absent

instance {inner : Reader Pattern} [Tidy L inner] : Tidy L (patternOf inner) := by
  refine ⟨.within (.bind fun _ => .ite ?_ (.last (by simp)))⟩
  exact .bind fun _ => .bind fun _ => .bind fun _ => .newPattern fun _ => ⟨rfl, by simp⟩

instance patternUpTo_tidy (depth : Nat) : Tidy L (patternUpTo depth) := by
  induction depth with
  | zero => exact inferInstanceAs (Tidy L (absent _))
  | succ depth ih => exact inferInstanceAs (Tidy L (patternOf (patternUpTo depth)))

instance : Tidy L pattern := ⟨.of_runs fun _ => ⟨_, (patternUpTo_tidy _).tallies, fun _ => rfl⟩⟩

instance : Tidy L atomicPattern := inferInstanceAs (Tidy L (atomicPatternOf pattern))

/-! ## Types, parameters and bodies -/

/-- Readers of expressions and blocks all of whose nodes stand in what they return. -/
class Inner.Tidy (L : Ledger) (inner : Inner) : Prop where
  expr : Grammar.Tidy L inner.expr
  block : Grammar.Tidy L inner.block

section

variable {inner : Inner} [inner.Tidy L]

instance : Tidy L inner.expr := Inner.Tidy.expr

instance : Tidy L inner.block := Inner.Tidy.block

instance : Tidy L inner.type := ⟨.within Tidy.tallies⟩

instance : Tidy L inner.head := ⟨.within Tidy.tallies⟩

instance : Tidy L inner.param := by
  have type : Tidy L (some <$> inner.type) := .optional inferInstance
  refine ⟨.bind fun pattern => .bind fun colon => .ite ?_ ?_⟩
  · exact .bind fun type => .bind fun _ => .pure (by simp)
  · exact .bind fun type => .bind fun _ => .pure (by simp)

instance (nonEmpty : Bool) : Tidy L (inner.paramGroup nonEmpty) := by
  have params (group : Opened) : Tallies L [] (do
      let (params, _) ← nestedList (.punct group.close) inner.param
      return (params, ← closeGroup group) : Reader (List Param × Span)) :=
    .bind fun _ => .bind fun _ => .pure (by simp)
  refine ⟨.bind fun group => .bind fun stop => .ite .absent ?_⟩
  exact (params group).congr (by simp)

instance : Tidy L inner.thenBody := by
  refine ⟨.bind fun brace => .ite ?_ (.bind fun word => .ite ?_ .unexpected)⟩
  · exact .bind fun _ => .pure (by simp)
  · exact .bind fun _ => .pure (by simp)

instance : Tidy L inner.blockOrExpr := by
  refine ⟨.bind fun brace => .ite ?_ ?_⟩
  · exact .bind fun _ => .pure (by simp)
  · exact .bind fun _ => .pure (by simp)

instance : Tidy L inner.elseBody := by
  have body : Tidy L (some <$> inner.blockOrExpr) := .optional inferInstance
  refine ⟨.bind fun word => .ite (.bind fun _ => .bind fun _ => .last (by simp)) ?_⟩
  exact .pure (by simp)

/-! ## Primaries -/

instance : Tidy L inner.tuple :=
  ⟨.bind fun _ => .bind fun _ => .bind fun _ => .newExpr fun _ => ⟨rfl, by simp⟩⟩

instance : Tidy L inner.array :=
  ⟨.bind fun _ => .bind fun _ => .bind fun _ => .newExpr fun _ => ⟨rfl, by simp⟩⟩

instance : Tidy L inner.conditional := by
  refine ⟨.bind fun _ => .bind fun _ => .bind fun _ => .bind fun elseBody => ?_⟩
  cases elseBody with
  | none => exact .bind fun _ => .throw
  | some b => exact .bind fun _ => .newExpr fun _ => ⟨rfl, by simp⟩

instance : Tidy L inner.arm := by
  unfold Inner.arm
  refine ⟨.bind fun _ => .bind fun _ => .bind fun _ => .bind fun _ => .bind fun _ => .bind fun _ => ?_⟩
  refine .bind fun _ => .bind fun _ => .bind fun _ => .ite ?_ ?_
  · exact .bind fun _ => .pure (by simp)
  · exact .pure (by simp)

instance : Tidy L inner.matchOn := by
  have arms : Tidy L (within (fun _ => .none) (collectWhile Inner.isInBraces inner.arm)) :=
    ⟨.within Tidy.tallies⟩
  refine ⟨.bind fun _ => .bind fun _ => .bind fun _ => .ite ?_ ?_⟩
  · exact .bind fun _ => .bind fun _ => .bind fun _ => .bind fun _ => .bind fun _ =>
      .newExpr fun _ => ⟨rfl, by simp⟩
  · exact .bind fun _ => .bind fun _ => .bind fun _ => .bind fun _ => .newExpr fun _ => ⟨rfl, by simp⟩

instance : Tidy L inner.returned := by
  refine ⟨.bind fun _ => .bind fun _ => .bind fun _ => .ite ?_ (.newExpr fun _ => ⟨rfl, by simp⟩)⟩
  exact .bind fun _ => .newExpr fun _ => ⟨rfl, by simp⟩

instance : Tidy L inner.lambdaParams := by
  have params : Tidy L (within (fun c => c.union .lambdaParams)
      (commaList (.reserved .pipe) inner.param)) := ⟨.within Tidy.tallies⟩
  exact ⟨.bind fun _ => .bind fun _ => .pure (by simp)⟩

instance : Tidy L inner.lambda := by
  have body : Tidy L (within (fun c => c.without .lambdaParams) inner.expr) := ⟨.within Tidy.tallies⟩
  refine ⟨.bind fun bar => .ite ?_ ?_⟩
  · exact .bind fun _ => .bind fun _ => .newExpr fun _ => ⟨rfl, by simp⟩
  · exact .bind fun _ => .bind fun _ => .newExpr fun _ => ⟨rfl, by simp⟩

instance : Tidy L Inner.reference := by
  refine ⟨.bind fun _ => .newExpr fun _ => ?_⟩
  split <;> exact ⟨rfl, by simp⟩

instance : Tidy L inner.primary := by
  refine ⟨.bind fun token => ?_⟩
  split
  · exact .bind fun _ => .newExpr fun _ => ⟨rfl, by simp⟩
  · split
    · exact .last (by simp)
    · exact .last (by simp)
    · exact .last (by simp)
    · exact .last (by simp)
    · exact .last (by simp)
    · exact .last (by simp)
    · exact .last (by simp)
    · exact .bind fun _ => .ite (.last (by simp)) .absent

/-! ## Applications, operators and arrows -/

instance : Tidy L inner.trailingBlock := by
  have block : Tidy L (some <$> inner.block) := .optional inferInstance
  exact ⟨.bind fun _ => .bind fun _ => .ite (.last (by simp)) (.pure (by simp))⟩

instance : Tidy L inner.application := by
  refine ⟨.bind fun callee => .bind fun args => .iteOf (fun none => .pure ?_) fun _ =>
    .bind fun context => .ite ?_ ?_⟩
  · rw [List.isEmpty_iff.1 none]
    simp
  · exact .bind fun _ => .newExpr fun _ => ⟨rfl, by simp⟩
  · exact .bind fun _ => .bind fun _ => .newExpr fun _ => ⟨rfl, by simp⟩

instance : Tidy L Inner.operator? := by
  refine ⟨.bind fun token => ?_⟩
  split
  · exact .pure (by simp)
  · refine .bind fun context => .ite (.pure (by simp)) ?_
    exact .bind fun _ => .pure (by simp)
  · exact .pure (by simp)

/-- One more operator and its right side, beside what is on the left. -/
theorem operatorRound_tallies (lhs : Expr) : Tallies L (roots lhs) (operatorRound inner lhs) := by
  refine .bind fun op => ?_
  cases op with
  | none => exact .pure (by simp)
  | some op =>
    refine .bind fun _ => .bind fun _ => .bind fun rhs => .behind ?_ fun _ => .pure rfl
    exact .newExpr fun _ => ⟨rfl, by simp⟩

instance : Tidy L inner.binary :=
  ⟨.bind fun _ => .repeated (by simp) operatorRound_tallies⟩

instance : Tidy L inner.codomain := ⟨.bind fun _ => .last (by simp)⟩

instance (isSigma : Bool) : Tidy L (inner.binder isSigma) := by
  refine ⟨.bind fun params => .bind fun _ => .bind fun codomain => .newExpr fun m => ?_⟩
  cases isSigma <;> exact ⟨rfl, by simp⟩

instance : Tidy L inner.arrowOrAscription := by
  refine ⟨.bind fun lhs => .bind fun arrow => .ite ?_ (.bind fun colon => .ite ?_ (.pure (by simp)))⟩
  · exact .bind fun _ => .newExpr fun _ => ⟨rfl, by simp⟩
  · exact .bind fun _ => .newExpr fun _ => ⟨rfl, by simp⟩

instance : Tidy L inner.exprOf :=
  ⟨.bind fun _ => .ite (.bind fun _ => .last (by simp)) (.last (by simp))⟩

/-! ## Statements and blocks -/

/-- What becomes a statement with a mark has its children already. -/
instance : HasRoots (Mark → Stmt) := ⟨fun form => (Node.stmt (form default)).children⟩

@[simp] theorem roots_form (form : Mark → Stmt) : roots form = (Node.stmt (form default)).children := rfl

/-- What becomes a statement with a mark, which makes no difference to its children, and no error
statement. -/
def Stamped (form : Mark → Stmt) : Prop :=
  ∀ m, (form m).isError = false ∧ (form m).mark = m ∧ (Node.stmt (form m)).children = roots form

instance : Tidy L inner.letIn :=
  ⟨.bind fun _ => .bind fun _ => .bind fun _ => .bind fun _ => .pure (by simp)⟩

instance : Tidy L inner.conditionalStmt :=
  ⟨.bind fun _ => .bind fun _ => .bind fun _ => .bind fun _ => .pure (by simp)⟩

instance : Tidy L inner.ask :=
  ⟨.bind fun _ => .bind fun _ => .bind fun _ => .bind fun _ => .pure (by simp)⟩

instance : Tidy L inner.stmtForm := by
  refine ⟨.bind fun tag => ?_⟩
  split
  · exact .inConstruct (.last (by simp))
  · exact .last (by simp)
  · exact .bind fun _ => .ite (.last (by simp)) (.bind fun _ => .pure (by simp))

omit [inner.Tidy L] in
theorem stmtForm_stamped : Returns inner.stmtForm Stamped := by
  refine .bind fun tag => ?_
  have letIn : Returns inner.letIn Stamped :=
    .bind fun _ => .bind fun _ => .bind fun _ => .bind fun _ => .pure fun _ => ⟨rfl, rfl, rfl⟩
  split
  · exact fun i s form t run => letIn i s form t (inConstruct_ok.1 run)
  · exact .bind fun _ => .bind fun _ => .bind fun _ => .bind fun _ => .pure fun _ => ⟨rfl, rfl, rfl⟩
  · refine .bind fun _ => .ite (fun _ => ?_) fun _ => .bind fun _ => .pure fun _ => ⟨rfl, rfl, rfl⟩
    exact .bind fun _ => .bind fun _ => .bind fun _ => .bind fun _ => .pure fun _ => ⟨rfl, rfl, rfl⟩

instance : Tidy L inner.stmt := by
  refine ⟨.bind fun start => .bindOf stmtForm_stamped fun form stamped => .bind fun stop => ?_⟩
  exact .newStmt (fun m => (stamped m).1) fun m => ⟨(stamped m).2.1, (stamped m).2.2.trans (by simp)⟩

instance : Tidy L inner.wholeStmt :=
  ⟨.bind fun _ => .bind fun _ => .ite (.pure (by simp)) .unexpected⟩

instance : Tidy L inner.stmtOrError := by
  have stmt (start : Span) := tidy_giveUp (L := L) (r := inner.wholeStmt) start false stmtBoundary
  exact ⟨.bind fun start => .bind fun _ => .bind fun _ => .pure (by simp)⟩

instance : Tidy L inner.blockOf := by
  have stmts : Tidy L (within (fun _ => .none)
    (collectWhile Inner.isInBraces inner.stmtOrError)) := ⟨.within Tidy.tallies⟩
  refine ⟨.bind fun _ => .ite ?_ ?_⟩
  · exact .bind fun _ => .bind fun _ => .bind fun _ => .bind fun _ => .bind fun _ => .pure (by simp)
  · exact .bind fun _ => .bind fun _ => .bind fun _ => .bind fun _ => .pure (by simp)

end

instance innerUpTo_tidy (depth : Nat) : (innerUpTo depth).Tidy L := by
  induction depth with
  | zero =>
    rw [innerUpTo]
    exact ⟨inferInstance, inferInstance⟩
  | succ depth ih =>
    have expr : Tidy L (innerUpTo depth).exprOf := inferInstance
    have block : Tidy L (innerUpTo depth).blockOf := inferInstance
    rw [innerUpTo]
    exact ⟨expr, block⟩

instance : inner.Tidy L where
  expr := ⟨.of_runs fun i => ⟨_, (innerUpTo_tidy _).expr.tallies, inner_expr_run i⟩⟩
  block := ⟨.of_runs fun i => ⟨_, (innerUpTo_tidy _).block.tallies, inner_block_run i⟩⟩

instance : Tidy L expr := inferInstanceAs (Tidy L inner.expr)

instance : Tidy L block := inferInstanceAs (Tidy L inner.block)

instance : Tidy L stmt := inferInstanceAs (Tidy L inner.stmt)

/-! ## Declarations -/

instance : Tidy L attrArgs := by
  refine ⟨.bind fun _ => .ite ?_ (.pure (by simp))⟩
  exact .bind fun _ => .bind fun _ => .bind fun _ => .pure (by simp)

instance : Tidy L attr :=
  ⟨.bind fun _ => .bind fun _ => .bind fun _ => .bind fun _ => .bind fun _ => .pure (by simp)⟩

instance : Tidy L attrs := inferInstanceAs (Tidy L (collectWhile _ attr))

instance : Tidy L paramList := ⟨.bind fun _ => .bind fun _ => .pure (by simp)⟩

instance : Tidy L paramLists := inferInstanceAs (Tidy L (collectWhile _ paramList))

instance : Tidy L optionalType := by
  have type : Tidy L (some <$> inner.type) := .optional inferInstance
  exact ⟨.bind fun _ => .ite (.last (by simp)) (.pure (by simp))⟩

instance : Tidy L optionalBlock := by
  have block : Tidy L (some <$> block) := .optional inferInstance
  exact ⟨.bind fun _ => .ite (.last (by simp)) (.pure (by simp))⟩

instance : Tidy L signature :=
  ⟨.bind fun _ => .bind fun _ => .bind fun _ => .bind fun _ => .bind fun _ => .pure (by simp)⟩

instance : Tidy L clause := by
  have value : Tidy L (some <$> expr) := .optional inferInstance
  refine ⟨.bind fun _ => .bind fun _ => .bind fun _ => .bind fun _ => .bind fun _ => .ite ?_ ?_⟩
  · exact .bind fun _ => .bind fun _ => .pure (by simp)
  · exact .bind fun _ => .bind fun _ => .pure (by simp)

instance : Tidy L command := ⟨.bind fun _ => .bind fun _ => .bind fun _ => .pure (by simp)⟩

instance : Tidy L ctorParam := by
  refine ⟨.bind fun _ => .bind fun _ => .ite ?_ (.bind fun _ => .pure (by simp))⟩
  exact .bind fun _ => .bind fun _ => .bind fun _ => .pure (by simp)

instance : Tidy L ctorForm := by
  refine ⟨.bind fun _ => .ite (.bind fun _ => .pure (by simp)) ?_⟩
  refine .bind fun _ => .ite ?_ (.pure (by simp))
  exact .bind fun _ => .bind fun _ => .bind fun _ => .pure (by simp)

instance : Tidy L ctor := ⟨.bind fun _ => .bind fun _ => .bind fun _ => .pure (by simp)⟩

instance : Tidy L ctorItem := by
  refine ⟨.bind fun ctor => .bind fun comma => .bind fun semicolon => .ite (.pure (by simp)) ?_⟩
  refine .ite (.bind fun _ => .pure (by simp)) (.bind fun _ => .ite ?_ (.pure (by simp)))
  refine .bind fun _ => .bind fun _ => .ite ?_ (.pure (by simp))
  exact .bind fun _ => .bind fun _ => .pure (by simp)

instance : Tidy L ctors := ⟨.bind fun _ => .ite (.pure (by simp)) (.bind fun _ => .last (by simp))⟩

instance : Tidy L method := ⟨.bind fun _ => .bind fun _ => .bind fun _ => .pure (by simp)⟩

instance : Tidy L methods := inferInstanceAs (Tidy L (collect _ method))

instance (sort : TypeSort) : Tidy L (members sort) := by
  refine ⟨.ite (.bind fun _ => .bind fun _ => .pure (by simp)) (.bind fun ctors => ?_)⟩
  refine .bind fun _ => .ite ?_ (.pure (by simp))
  exact .bind fun _ => .bind fun _ => .pure (by simp)

instance (sort : TypeSort) : Tidy L (typeBody sort) := by
  have members : Tidy L (within (fun _ => .none) (members sort)) := ⟨.within Tidy.tallies⟩
  exact ⟨.bind fun _ => .bind fun _ => .bind fun _ => .pure (by simp)⟩

instance : Tidy L visibility := by
  refine ⟨.bind fun tag => ?_⟩
  split
  · exact .bind fun _ => .pure (by simp)
  · exact .pure (by simp)

instance : Tidy L typeSort := by
  refine ⟨.bind fun tag => ?_⟩
  split
  · exact .bind fun _ => .pure (by simp)
  · exact .unexpected

instance : Tidy L typeDecl := by
  have body (sort : TypeSort) : Tidy L (some <$> typeBody sort) := .optional inferInstance
  refine ⟨.bind fun _ => .bind fun sort => .bind fun _ => .bind fun _ => .bind fun _ => .bind fun _ => ?_⟩
  refine .ite ?_ ?_
  · exact .bind fun _ => .pure (by simp)
  · exact .bind fun _ => .pure (by simp)

instance : Tidy L declForm := by
  have type (t : Tag) : Tallies L ([] ++ roots t) (DeclForm.type <$> inConstruct .typeDeclaration typeDecl) :=
    .map (.inConstruct (.last (by simp))) roots_type
  have named (t : Tag) : Tallies L ([] ++ roots t) (do
      if ← isAhead (.reserved .eq) then DeclForm.clause <$> inConstruct .clause clause
      else DeclForm.signature <$> inConstruct .signature signature) := by
    refine .bind fun _ => .ite ?_ ?_
    · exact .map (.inConstruct (.last (by simp))) roots_clause_form
    · exact .map (.inConstruct (.last (by simp))) roots_signature_form
  refine ⟨.bind fun tag => ?_⟩
  split
  · exact .bind fun _ => .bind fun _ => .pure (by simp)
  · exact .last (by simp)
  · exact type _
  · exact type _
  · exact type _
  · exact type _
  · exact type _
  · exact type _
  · exact type _
  · exact named _
  · exact named _
  · exact .absent

instance (docsFrom : Nat) : Tidy L (decl docsFrom) :=
  ⟨.bind fun _ => .bind fun _ => .bind fun _ => .bind fun _ => .bind fun _ => .pure (by simp)⟩

/-! ## Items and files -/

instance (asDecl : Bool) (docsFrom : Nat) : Tidy L (wholeItem asDecl docsFrom) := by
  have decl : Tidy L (Item.decl <$> decl docsFrom) := ⟨.map Tidy.tallies roots_item_decl⟩
  have stmt : Tidy L (Item.stmt <$> stmt) := ⟨.map Tidy.tallies roots_item_stmt⟩
  refine ⟨.bind fun input => .ite ?_ (.ite ?_ ?_)⟩
  · exact .bind fun _ => .bind fun _ => .ite (.pure (by simp)) .unexpected
  · exact .bind fun _ => .bind fun _ => .ite (.pure (by simp)) .unexpected
  · exact .bind fun _ => .bind fun _ => .ite (.pure (by simp)) .unexpected

/-- A declaration that is read is no error declaration. -/
theorem decl_returns (docsFrom : Nat) : Returns (decl docsFrom) fun d => d.isError = false := by
  have form : Returns declForm (· ≠ .error) := by
    have made {α : Type} {form : α → DeclForm} {r : Reader α} (h : ∀ a, form a ≠ .error) :
        Returns (form <$> r) (· ≠ .error) := by
      intro i s f t run
      obtain ⟨a, _, rfl⟩ := map_ok.1 run
      exact h a
    refine .bind fun tag => ?_
    split
    · exact .bind fun _ => .bind fun _ => .pure nofun
    · exact .bind fun _ => .bind fun _ => .bind fun _ => .pure nofun
    all_goals first
      | exact .absent
      | exact made nofun
      | exact .bind fun _ => .ite (fun _ => made nofun) fun _ => made nofun
  refine .bind fun _ => .bind fun _ => .bind fun _ => .andThen form fun f hf => .bind fun _ => .pure ?_
  exact Bool.eq_false_iff.2 fun h => hf (Decl.isError_iff.1 h)

theorem wholeItem_returns (asDecl : Bool) (docsFrom : Nat) :
    Returns (wholeItem asDecl docsFrom) fun a => a.isErrorDecl = false := by
  have decl : Returns (Item.decl <$> decl docsFrom) fun a => a.isErrorDecl = false := by
    intro i s a t run
    obtain ⟨d, read, rfl⟩ := map_ok.1 run
    exact decl_returns docsFrom i s d t read
  have stmt : Returns (Item.stmt <$> stmt) fun a => a.isErrorDecl = false := by
    intro i s a t run
    obtain ⟨a, _, rfl⟩ := map_ok.1 run
    rfl
  have whole (a : Item) (h : a.isErrorDecl = false) :
      Returns (do if ← isNextIn itemBoundary then return a else unexpected itemBoundary)
        fun a => a.isErrorDecl = false :=
    .bind fun _ => .ite (fun _ => .pure h) fun _ => .bind fun _ => .throw
  refine .bind fun _ => .ite (fun _ => .andThen .absent whole) fun _ => .ite (fun _ => ?_) fun _ => ?_
  · exact .andThen decl whole
  · exact .andThen stmt whole

variable {i : Input} {s t : State}

/-- An item, whether it is read or given up. -/
theorem item_filed (L : Ledger) {docsFrom : Nat} {a : Item} (run : item docsFrom i s = .ok a t) :
    L.filed s t [a] := by
  unfold item at run
  rw [bind_of_ok (nextSpan_run ..), bind_of_ok (cursor_run ..)] at run
  obtain ⟨asDecl, u, looked, run⟩ := bind_ok.1 run
  have look : L.filed s u [] := by
    have stays := (inferInstance : Quiet isDeclNext)
    have nodes := stays.nodes i s
    have errors := stays.errors i s
    rw [looked] at nodes errors
    exact L.nil nodes errors
  refine L.append look ?_
  have tidy : Tidy L (wholeItem asDecl docsFrom) := inferInstance
  rw [orElse_run] at run
  cases read : wholeItem asDecl docsFrom i u with
  | ok b v =>
    rw [read] at run
    cases run
    exact L.item (wholeItem_returns asDecl docsFrom i u a t read) (tidy.tallies.ok read)
  | error e v =>
    rw [read] at run
    obtain ⟨span, w, recovered, run⟩ := bind_ok.1 run
    rw [recover_run] at recovered
    cases recovered
    obtain ⟨standing, kept⟩ := tidy.tallies.error read
    cases asDecl with
    | true =>
      cases run
      exact L.giveUpDecl e _ _ kept
    | false =>
      obtain ⟨stmt, built, rfl⟩ := map_ok.1 run
      cases built
      exact L.item rfl (L.giveUp e _ _ kept rfl)

theorem itemsRound_filed (L : Ledger) {z : Array Item × Nat} {r : ForInStep (Array Item × Nat)}
    (run : itemsRound z i s = .ok r t) :
    ∃ as, r.value.1.toList = z.1.toList ++ as ∧ L.filed s t as := by
  by_cases ended : s.cursor.tag i.tokens = .eof
  · rw [itemsRound_of_eof ended] at run
    cases run
    exact ⟨[], (List.append_nil _).symm, L.nil rfl rfl⟩
  · obtain ⟨a, u, read⟩ := item_total z.2 i s
    rw [itemsRound_of_item ended read (skipBreaks_run i u)] at run
    cases run
    have skipped : L.filed u (u.moved (u.cursor.skipBreaks i.tokens)) [] := L.nil rfl rfl
    exact ⟨[a], Array.toList_push, L.append (item_filed L read) skipped⟩

/-- The items of a file, beside those that have been read before. -/
theorem itemsRounds_filed (L : Ledger) {n : Nat} {z r : Array Item × Nat}
    (run : repeatUpTo itemsRound n z i s = .ok r t) :
    ∃ as, r.1.toList = z.1.toList ++ as ∧ L.filed s t as := by
  induction n generalizing z s with
  | zero =>
    cases run
    exact ⟨[], (List.append_nil _).symm, L.nil rfl rfl⟩
  | succ n ih =>
    obtain ⟨round, u, first, rest⟩ := bind_ok.1 run
    obtain ⟨as, read, filed⟩ := itemsRound_filed L first
    cases round with
    | done z' =>
      cases rest
      exact ⟨as, read, filed⟩
    | yield z' =>
      obtain ⟨bs, read', filed'⟩ := ih rest
      have read : z'.1.toList = z.1.toList ++ as := read
      exact ⟨as ++ bs, by rw [read', read, List.append_assoc], L.append filed filed'⟩

theorem items_filed (L : Ledger) {docsFrom : Nat} {as : List Item}
    (run : items docsFrom i s = .ok as t) : L.filed s t as := by
  obtain ⟨z, u, rounds, rest⟩ := bind_ok.1 run
  have rounds : repeated (#[], docsFrom) itemsRound i s = .ok z u := rounds
  cases rest
  obtain ⟨as, read, filed⟩ := itemsRounds_filed L rounds
  rw [read]
  exact filed

/-! ## The first line -/

/-- Whether a dialect rejects the first line of a text. -/
def rejectsLine (line : Option Shebang) (dialect : Dialect) : Bool := line.isSome && !dialect.shebang

theorem shebang_reports {line l : Option Shebang} (run : shebang line i s = .ok l t) :
    t.errors.size = s.errors.size + (rejectsLine line i.dialect).toNat ∧ t.nodes = s.nodes := by
  cases line with
  | none =>
    cases run
    exact ⟨rfl, rfl⟩
  | some first =>
    obtain ⟨_, _, ⟨⟩, run⟩ := bind_ok.1 run
    cases admitted : i.dialect.shebang with
    | true =>
      rw [admitted] at run
      cases run
      simp [rejectsLine, admitted]
    | false =>
      rw [admitted] at run
      cases run
      simp [rejectsLine, admitted]

/-- A file is its items behind the first line, which is reported if the dialect rejects it. -/
theorem file_filed (L : Ledger) {line : Option Shebang} {f : SourceFile}
    (run : file line i s = .ok f t) :
    ∃ u, u.nodes = s.nodes
      ∧ u.errors.size = s.errors.size + (rejectsLine line i.dialect).toNat ∧ L.filed u t f.items := by
  obtain ⟨l, u, first, run⟩ := bind_ok.1 run
  rw [bind_of_ok (skipBreaks_run ..)] at run
  obtain ⟨as, v, read, run⟩ := bind_ok.1 run
  cases run
  obtain ⟨errors, nodes⟩ := shebang_reports first
  have skipped : L.filed u (u.moved (u.cursor.skipBreaks i.tokens)) [] := L.nil rfl rfl
  exact ⟨u, nodes, errors, L.append skipped (items_filed L read)⟩

end Surface.Grammar
