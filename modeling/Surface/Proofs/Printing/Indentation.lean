import Surface.Proofs.Parsing.Worded
import Surface.Proofs.Printing.Strokes
import Surface.Proofs.Printing.Visits

/-!
# How nodes are indented

A node of a text is printed in the same way however deep it stands: on a line that has been started it is
written as it is written alone, with the spaces of the level put in behind every line end. No line of it is
empty, and every line is as deep as blocks and matches are open where it starts.

Results:
* `Node.Fits`: nodes that are printed within a line; `Node.fits_of_children`: one node, for which its
  children are printed so.
* `nodes_fit`: all nodes of a text.
* `write_node`: how the nodes of a text are printed at every level.
-/

namespace Surface

/-- What could not be read prints nothing. -/
theorem Node.doc_of_isError {n : Node} (h : n.isError = true) : n.doc = .empty := by
  cases n with
  | expr e => cases h
  | pattern p => cases h
  | stmt s =>
    cases s with
    | error _ => rfl
    | _ => cases h

/-- A node is printed within a line and starts with a word, unless it could not be read. -/
def Node.Fits (n : Node) : Prop := n.isError = false → n.doc.Fits

/-! ## What nodes are made of -/

section

open Doc (spaced)

/-- All topmost nodes of something are printed within a line. -/
def Fitting {α : Type} [HasRoots α] (a : α) : Prop := ∀ n ∈ roots a, n.Fits

theorem Fitting.of_mem {α : Type} [HasRoots α] {as : List α} {a : α} (h : Fitting as) (ha : a ∈ as) :
    Fitting a := fun n hn => h n (List.mem_flatMap.2 ⟨a, ha, hn⟩)

theorem Fitting.expr {e : Expr} (h : Fitting e) : e.doc.Fits := h (.expr e) (List.mem_singleton_self _) rfl

theorem Fitting.pattern {p : Pattern} (h : Fitting p) : p.doc.Fits :=
  h (.pattern p) (List.mem_singleton_self _) rfl

theorem Fitting.stmt {s : Stmt} (h : Fitting s) (sound : s.isError = false) : s.doc.Fits :=
  h (.stmt s) (List.mem_singleton_self _) sound

theorem Fitting.argDocs {ps : List Pattern} (h : Fitting ps) : ∀ d ∈ Pattern.argDocs ps, d.Fits := by
  rw [Pattern.argDocs_eq]
  exact List.forall_mem_map.2 fun p hp => (h.of_mem hp).pattern.parenthesizedIf _

theorem Fitting.exprs {es : List Expr} (h : Fitting es) : ∀ d ∈ Expr.docs es, d.Fits := by
  rw [Expr.docs_eq]
  exact List.forall_mem_map.2 fun e he => (h.of_mem he).expr

theorem Fitting.optionalExpr {e : Option Expr} (h : Fitting e) : ∀ d ∈ Expr.optionalDocs e, d.Fits := by
  cases e with
  | none => exact List.forall_mem_nil _
  | some e => exact List.forall_mem_singleton.2 (Fitting.expr h)

theorem Fitting.stmts {ss : List Stmt} (h : Fitting ss) : ∀ d ∈ Stmt.docs ss, d.Fits := by
  rw [Stmt.docs_eq]
  refine List.forall_mem_map.2 fun s hs => ?_
  obtain ⟨mem, sound⟩ := List.mem_filter.1 hs
  exact (h.of_mem mem).stmt (Bool.eq_false_of_not_eq_true' sound)

theorem Fitting.block : {b : Block} → Fitting b → b.doc.Flows
  | ⟨_, _⟩, h => Doc.flows_braced _ (Fitting.stmts h)

theorem Fitting.body {b : Body} (h : Fitting b) : b.doc.Flows := by
  cases b with
  | block b => exact Fitting.block h
  | expr e => exact (Fitting.expr h).flows

theorem Fitting.optionalBlock {b : Option Block} (h : Fitting b) :
    (spaced (Block.optionalDocs b)).Flows := by
  cases b with
  | none => exact .empty
  | some b => exact .append (.append .space (Fitting.block h)) .empty

theorem Fitting.thenBody {b : Body} (h : Fitting b) : b.thenDoc.Flows := by
  cases b with
  | block b => exact .append .space (Fitting.block h)
  | expr e => exact .append (.text (by decide)) (Fitting.expr h).flows

theorem Fitting.elseBody {b : Option Body} (h : Fitting b) : (Body.optionalElse b).Flows := by
  cases b with
  | none => exact .empty
  | some b => exact .append (.text (by decide)) (Fitting.body h)

theorem Fitting.arms {as : List Arm} (h : Fitting as) : ∀ d ∈ Arm.docs as, d.Fits := by
  rw [Arm.docs_eq]
  refine List.forall_mem_map.2 fun ⟨p, b, _⟩ ha => ?_
  obtain ⟨pattern, body⟩ := List.forall_mem_append.1 (h.of_mem ha)
  exact (((Fitting.pattern pattern).append (.text (by decide))).append (Fitting.body body)).append
    (.text (by decide))

theorem Fitting.params {ps : List Param} (h : Fitting ps) : ∀ d ∈ Param.docs ps, d.Fits := by
  rw [Param.docs_eq]
  refine List.forall_mem_map.2 fun ⟨p, type, _⟩ hp => ?_
  obtain ⟨pattern, ascribed⟩ := List.forall_mem_append.1 (h.of_mem hp)
  refine (Fitting.pattern pattern).append ?_
  cases type with
  | none => exact .empty
  | some t => exact .append (.text (by decide)) (Fitting.expr ascribed).flows

end

/-! ## Nodes -/

section

variable {source : String} {names : NameTable}

theorem Pattern.fits {p : Pattern} (words : p.Worded (lex source names).tokens)
    (children : ∀ m ∈ (Node.pattern p).children, m.Fits) : p.doc.Fits := by
  cases p with
  | cons _ x ps => exact (Doc.Fits.text words.isWord).append (Doc.flows_spaced (Fitting.argDocs children))
  | rest _ => exact .text (by decide)
  | literal _ v => exact .text words.isWord

theorem Expr.fits {e : Expr} (words : e.Worded (lex source names).tokens)
    (children : ∀ m ∈ (Node.expr e).children, m.Fits) : e.doc.Fits := by
  cases e with
  | literal _ v => exact .text words.isWord
  | name _ n => exact .text words.isWord
  | path _ x => exact .text words.isWord
  | tuple _ es trailing =>
    have list := Doc.flows_commas (Fitting.exprs children)
    refine ((Doc.Fits.text (by decide)).append list).append ?_
    cases trailing with
    | false => exact .text (by decide)
    | true => exact .text (by decide)
  | array _ es =>
    have list := Doc.flows_commas (Fitting.exprs children)
    exact ((Doc.Fits.text (by decide)).append list).append (.text (by decide))
  | conditional _ c t e =>
    obtain ⟨both, otherwise⟩ := List.forall_mem_append.1 children
    obtain ⟨condition, consequent⟩ := List.forall_mem_append.1 both
    have first : (Doc.text "if " ++ c.doc).Fits :=
      (Doc.Fits.text (by decide)).append (Fitting.expr condition).flows
    exact ((first.append (Fitting.thenBody consequent)).append (.text (by decide))).append
      (Fitting.body otherwise)
  | matchOn _ s arms =>
    obtain ⟨scrutinee, arms⟩ := List.forall_mem_append.1 children
    exact (((Doc.Fits.text (by decide)).append (Fitting.expr scrutinee).flows).append .space).append
      (Doc.flows_braced _ (Fitting.arms arms))
  | returned _ v =>
    exact (Doc.Fits.text (by decide)).append (Doc.flows_spaced (Fitting.optionalExpr children))
  | app _ f es b =>
    obtain ⟨both, block⟩ := List.forall_mem_append.1 children
    obtain ⟨callee, args⟩ := List.forall_mem_append.1 both
    exact ((Fitting.expr callee).append (Doc.flows_spaced (Fitting.exprs args))).append
      (Fitting.optionalBlock block)
  | typeApp _ f es =>
    obtain ⟨callee, args⟩ := List.forall_mem_append.1 children
    exact (Fitting.expr callee).append (Doc.flows_spaced (Fitting.exprs args))
  | lambda _ ps e | pi _ ps e | sigma _ ps e =>
    obtain ⟨params, body⟩ := List.forall_mem_append.1 children
    have list := Doc.flows_commas (Fitting.params params)
    exact (((Doc.Fits.text (by decide)).append list).append (.text (by decide))).append
      (Fitting.expr body).flows
  | arrow _ a b | ascription _ a b =>
    obtain ⟨left, right⟩ := List.forall_mem_append.1 children
    exact ((Fitting.expr left).append (.text (by decide))).append (Fitting.expr right).flows
  | binary _ a op b =>
    obtain ⟨left, right⟩ := List.forall_mem_append.1 children
    exact ((((Fitting.expr left).append .space).append (.text words.isWord.isInline)).append
      .space).append (Fitting.expr right).flows

theorem Stmt.fits {s : Stmt} (sound : s.isError = false)
    (children : ∀ m ∈ (Node.stmt s).children, m.Fits) : s.doc.Fits := by
  cases s with
  | letIn _ p e =>
    obtain ⟨pattern, value⟩ := List.forall_mem_append.1 children
    exact (((Doc.Fits.text (by decide)).append (Fitting.pattern pattern).flows).append
      (.text (by decide))).append (Fitting.expr value).flows
  | conditional _ c t e =>
    obtain ⟨both, otherwise⟩ := List.forall_mem_append.1 children
    obtain ⟨condition, consequent⟩ := List.forall_mem_append.1 both
    exact (((Doc.Fits.text (by decide)).append (Fitting.expr condition).flows).append
      (Fitting.thenBody consequent)).append (Fitting.elseBody otherwise)
  | ask _ p e =>
    obtain ⟨pattern, value⟩ := List.forall_mem_append.1 children
    exact ((Fitting.pattern pattern).append (.text (by decide))).append (Fitting.expr value).flows
  | expr _ e => exact Fitting.expr children
  | error _ => cases sound

/-- A node whose words are those of a text is printed within a line if its children are. -/
theorem Node.fits_of_children {n : Node} (words : n.Worded (lex source names).tokens)
    (children : ∀ m ∈ n.children, m.Fits) : n.Fits := fun sound => by
  cases n with
  | expr e => exact Expr.fits words children
  | pattern p => exact Pattern.fits words children
  | stmt s => exact Stmt.fits sound children

end

/-- All nodes of a text are printed within a line. -/
theorem nodes_fit (source : String) (dialect : Dialect) {n : Node}
    (h : n ∈ (parseText source dialect).nodes.all) : n.Fits :=
  nodes_induction source dialect (fun _ hn => Node.fits_of_children (nodes_worded source dialect hn)) h

/-- On a line that has been started the nodes of a text are printed as they are printed alone, with the
spaces of the level behind every line end, and the level is as before. What could not be read prints
nothing; all else has no empty line. Every line starts with the spaces of the level and of the blocks and
matches that are open there, those that the line closes first left out, and goes on with something to
see. -/
theorem write_node (source : String) (dialect : Dialect) {n : Node}
    (h : n ∈ (parseText source dialect).nodes.all) {p : Page} (started : p.atLineStart = false) :
    let alone := (n.doc.write .blank).text.toList
    let text := indented p.level alone
    n.doc.write p = ⟨p.text ++ String.ofList text, p.level, false⟩
      ∧ (if n.isError then text = [] else NoEmptyLine text)
      ∧ ∀ before behind, text = before ++ '\n' :: behind →
        ∃ qs rs depth, n.doc.strokes = qs ++ .newline :: rs
          ∧ StartsLine 0 p.level qs rs before behind depth := by
  obtain ⟨written, level, start⟩ := p
  obtain rfl : start = false := started
  intro alone text
  have fits := nodes_fit source dialect h
  cases error : n.isError with
  | true =>
    have nothing : n.doc = .empty := n.doc_of_isError error
    have none : text = [] := by
      show indented level (n.doc.write .blank).text.toList = []
      rw [nothing]
      rfl
    rw [none, nothing]
    exact ⟨Doc.Lays.empty.write written level, rfl, fun before _ cut => by cases before <;> cases cut⟩
  | false =>
    obtain ⟨flows, begins⟩ := fits error
    obtain ⟨cs, lays⟩ := flows.lays
    have same : text = indented level cs := congrArg (indented level) (lays.write_blank begins)
    rw [same]
    exact ⟨lays.write written level, lays.noEmptyLine begins level, fun _ _ => lays.startsLine⟩

/-- A match in a block, one level deep. -/
theorem write_node_match :
    ∃ n ∈ (parseText "x f \x7b match y \x7b a => 1 \x7d \x7d" .scripts).nodes.all,
      let p : Page := ⟨"= ", 1, false⟩
      let alone := (n.doc.write .blank).text.toList
      let text := indented p.level alone
      p.atLineStart = false
        ∧ n.doc.write p
          = ⟨"= x f \x7b\n        match y \x7b\n            a => 1,\n        \x7d\n    \x7d", 1, false⟩
        ∧ n.doc.write p = ⟨p.text ++ String.ofList text, p.level, false⟩
        ∧ (if n.isError then text = [] else NoEmptyLine text)
        ∧ ∀ before behind, text = before ++ '\n' :: behind →
          ∃ qs rs depth, n.doc.strokes = qs ++ .newline :: rs
            ∧ StartsLine 0 p.level qs rs before behind depth := by
  have block : 5 < (parseText "x f \x7b match y \x7b a => 1 \x7d \x7d" .scripts).nodes.all.length := by
    decide +kernel
  have mem := List.get_mem _ ⟨5, block⟩
  refine ⟨_, mem, rfl, ?_, write_node _ _ mem rfl⟩
  clear mem
  revert block
  decide +kernel

end Surface
