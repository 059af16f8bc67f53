import Surface.Proofs.Reader.Restores

/-!
# The procedures of the grammar

The readers of the grammar one by one, so that something can be said of every one of them. Readers that
only look ahead are left out, and so is the reader of a statement that may be given up: it cannot fail,
and where it gives up it sets the line-break mode anew.

Results:
* `Inner.Knotted`: the readers of expressions and blocks that lie inside others.
* `Procedure`: the readers of the grammar.
* `Procedure.keeps`, `Procedure.steady`, `Procedure.restores`: none of them goes back or leaves another context behind,
  and those that succeed restore the line-break mode.
-/

namespace Surface.Grammar

variable {α : Type}

/-- Readers of expressions and blocks, with a bound on how deep they lie inside each other or without. -/
inductive Inner.Knotted : Inner → Prop
  | upTo (depth : Nat) : Knotted (innerUpTo depth)
  | whole : Knotted Grammar.inner

/-- A reader of the grammar. -/
inductive Procedure : {α : Type} → Reader α → Prop
  | expect (t : Tag) : Procedure (expect t)
  | commaList {α : Type} {item : Reader α} (close : Tag) : Procedure item → Procedure (commaList close item)
  | nestedList {α : Type} {item : Reader α} (close : Tag) :
      Procedure item → Procedure (nestedList close item)
  -- names and patterns
  | ident : Procedure ident
  | path : Procedure path
  | pattern : Procedure pattern
  | patternUpTo (depth : Nat) : Procedure (patternUpTo depth)
  | atomicPattern : Procedure atomicPattern
  | atomicPatternUpTo (depth : Nat) : Procedure (atomicPatternOf (patternUpTo depth))
  -- expressions
  | nestedExpr {inner : Inner} : inner.Knotted → Procedure inner.expr
  | nestedBlock {inner : Inner} : inner.Knotted → Procedure inner.block
  | type {inner : Inner} : inner.Knotted → Procedure inner.type
  | param {inner : Inner} : inner.Knotted → Procedure inner.param
  | paramGroup {inner : Inner} (nonEmpty : Bool) : inner.Knotted → Procedure (inner.paramGroup nonEmpty)
  | thenBody {inner : Inner} : inner.Knotted → Procedure inner.thenBody
  | blockOrExpr {inner : Inner} : inner.Knotted → Procedure inner.blockOrExpr
  | elseBody {inner : Inner} : inner.Knotted → Procedure inner.elseBody
  | head {inner : Inner} : inner.Knotted → Procedure inner.head
  | tuple {inner : Inner} : inner.Knotted → Procedure inner.tuple
  | array {inner : Inner} : inner.Knotted → Procedure inner.array
  | conditional {inner : Inner} : inner.Knotted → Procedure inner.conditional
  | arm {inner : Inner} : inner.Knotted → Procedure inner.arm
  | arms {inner : Inner} : inner.Knotted → Procedure (collectWhile Inner.isInBraces inner.arm)
  | matchOn {inner : Inner} : inner.Knotted → Procedure inner.matchOn
  | returned {inner : Inner} : inner.Knotted → Procedure inner.returned
  | lambdaParams {inner : Inner} : inner.Knotted → Procedure inner.lambdaParams
  | lambda {inner : Inner} : inner.Knotted → Procedure inner.lambda
  | reference : Procedure Inner.reference
  | primary {inner : Inner} : inner.Knotted → Procedure inner.primary
  | trailingBlock {inner : Inner} : inner.Knotted → Procedure inner.trailingBlock
  | application {inner : Inner} : inner.Knotted → Procedure inner.application
  | operator : Procedure Inner.operator?
  | binary {inner : Inner} : inner.Knotted → Procedure inner.binary
  | codomain {inner : Inner} : inner.Knotted → Procedure inner.codomain
  | binder {inner : Inner} (isSigma : Bool) : inner.Knotted → Procedure (inner.binder isSigma)
  | arrowOrAscription {inner : Inner} : inner.Knotted → Procedure inner.arrowOrAscription
  | exprOf {inner : Inner} : inner.Knotted → Procedure inner.exprOf
  | expr : Procedure expr
  -- statements and blocks
  | letIn {inner : Inner} : inner.Knotted → Procedure inner.letIn
  | conditionalStmt {inner : Inner} : inner.Knotted → Procedure inner.conditionalStmt
  | ask {inner : Inner} : inner.Knotted → Procedure inner.ask
  | stmtForm {inner : Inner} : inner.Knotted → Procedure inner.stmtForm
  | nestedStmt {inner : Inner} : inner.Knotted → Procedure inner.stmt
  | wholeStmt {inner : Inner} : inner.Knotted → Procedure inner.wholeStmt
  | blockOf {inner : Inner} : inner.Knotted → Procedure inner.blockOf
  | block : Procedure block
  | stmt : Procedure stmt
  -- declarations
  | attrArgs : Procedure attrArgs
  | attr : Procedure attr
  | attrs : Procedure attrs
  | paramList : Procedure paramList
  | paramLists : Procedure paramLists
  | optionalType : Procedure optionalType
  | optionalBlock : Procedure optionalBlock
  | signature : Procedure signature
  | clause : Procedure clause
  | command : Procedure command
  | ctorParam : Procedure ctorParam
  | ctorForm : Procedure ctorForm
  | ctor : Procedure ctor
  | ctorItem : Procedure ctorItem
  | ctors : Procedure ctors
  | method : Procedure method
  | methods : Procedure methods
  | members (sort : TypeSort) : Procedure (members sort)
  | typeBody (sort : TypeSort) : Procedure (typeBody sort)
  | visibility : Procedure visibility
  | typeSort : Procedure typeSort
  | typeDecl : Procedure typeDecl
  | declForm : Procedure declForm
  | decl (docsFrom : Nat) : Procedure (decl docsFrom)
  -- files
  | wholeItem (asDecl : Bool) (docsFrom : Nat) : Procedure (wholeItem asDecl docsFrom)
  | item (docsFrom : Nat) : Procedure (item docsFrom)
  | items (docsFrom : Nat) : Procedure (items docsFrom)
  | file (line : Option Shebang) : Procedure (file line)

/-! ## What holds of all of them -/

theorem Inner.Knotted.keeps {R : Invariant} {inner : Inner} (h : inner.Knotted) : inner.Keeps R := by
  cases h <;> infer_instance

theorem Inner.Knotted.restores {inner : Inner} (h : inner.Knotted) : inner.Restores := by
  cases h <;> infer_instance

/-- All procedures keep what may rest on any expression. -/
theorem Procedure.keeps {R : Invariant} (all : ∀ ts e, R.admits ts e) {r : Reader α}
    (h : Procedure r) : Keeps R r := by
  have (form : Mark → Expr) : Builds R form := ⟨fun ts m => all ts (form m)⟩
  induction h with
  | commaList close _ ih | nestedList close _ ih => infer_instance
  | binder isSigma knotted =>
    have := knotted.keeps (R := R)
    unfold Inner.binder
    infer_instance
  | _ =>
    first
    | infer_instance
    | rename_i knotted
      have := knotted.keeps (R := R)
      infer_instance

/-- No procedure goes back, and none leaves another context behind. -/
theorem Procedure.steady {r : Reader α} (h : Procedure r) : Steady r := h.keeps fun _ _ => trivial

/-- A procedure that succeeds leaves the mode it has found. -/
theorem Procedure.restores {r : Reader α} (h : Procedure r) : Restores r := by
  induction h with
  | commaList close _ ih | nestedList close _ ih => infer_instance
  | _ =>
    first
    | infer_instance
    | rename_i knotted
      have := knotted.restores
      infer_instance

end Surface.Grammar
