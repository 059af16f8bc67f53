import Surface.Layout.Visits
import Surface.Proofs.Tree.Forest

/-!
# What is visited when a file is printed

Printing by what identifies the nodes meets every node that is reached from the file once, each before
its children, and what comes of it is the document of the tree. A statement that could not be read is
looked at and passed over.

Results:
* `Prints`: what is printed and which nodes are met.
* `Printer.node_prints`: one node, if its children are found and printed.
* `SourceFile.print_eq`: whole files.
-/

namespace Surface

/-! ## Printing and visiting -/

namespace Node

/-- The document of a node. -/
def doc : Node → Doc
  | expr e => e.doc
  | pattern p => p.doc
  | stmt s => s.doc

/-- What happens to a node on the way down. -/
def visit (n : Node) : Visit := if n.isError then .passed n.id else .printed n.id

end Node

/-- Printing yields `a`, and meets the nodes on the way down from `ns`. -/
def Prints {α : Type} (x : Printing α) (a : α) (ns : List Node) : Prop :=
  ∀ vs, Descent ns vs → ∀ met, x met = some (a, met ++ vs.map Node.visit)

namespace Prints

variable {α β : Type} {x : Printing α} {a : α} {k : α → Printing β} {b : β} {ns ms : List Node}

theorem pure (a : α) : Prints (Pure.pure a) a [] := by
  intro vs h met
  cases h
  rw [List.map_nil, List.append_nil]
  rfl

theorem bind (h : Prints x a ns) (h' : Prints (k a) b ms) : Prints (x >>= k) b (ns ++ ms) := by
  intro vs down met
  obtain ⟨us, ws, first, rest, rfl⟩ := down.split
  show (x met).bind (fun p => k p.1 p.2) = _
  rw [h us first met, Option.bind_some, h' ws rest, List.map_append, List.append_assoc]

/-- What is made of something that is printed. -/
theorem map {f : α → β} (h : Prints x a ns) : Prints (x >>= fun a => Pure.pure (f a)) (f a) ns := by
  have whole := h.bind (k := fun a => Pure.pure (f a)) (.pure (f a))
  rwa [List.append_nil] at whole

end Prints

/-- The nodes are found by what identifies them, and those that could be read are printed. -/
def Printer.Finds (printer : Printer) (ns : List Node) : Prop :=
  ∀ n ∈ ns, printer.look n.id = pure n
    ∧ (n.isError = false → Prints (printer.print n.id) n.doc [n])

/-! ## Documents one by one -/

theorem Pattern.argDocs_eq (ps : List Pattern) :
    Pattern.argDocs ps = ps.map fun p => parenthesizedIf p.hasArgs p.doc := by
  induction ps with
  | nil => rfl
  | cons p ps ih => rw [Pattern.argDocs, List.map_cons, ih]

theorem Expr.docs_eq (es : List Expr) : Expr.docs es = es.map Expr.doc := by
  induction es with
  | nil => rfl
  | cons e es ih => rw [Expr.docs, List.map_cons, ih]

theorem Stmt.docs_eq (ss : List Stmt) :
    Stmt.docs ss = (ss.filter fun s => !s.isError).map Stmt.doc := by
  induction ss with
  | nil => rfl
  | cons s ss ih =>
    rw [Stmt.docs, List.filter_cons]
    cases s.isError with
    | true => exact ih
    | false => exact congrArg (_ :: ·) ih

theorem Arm.docs_eq (as : List Arm) : Arm.docs as = as.map Arm.doc := by
  induction as with
  | nil => rfl
  | cons a as ih => rw [Arm.docs, List.map_cons, ih]

theorem Param.docs_eq (ps : List Param) : Param.docs ps = ps.map Param.doc := by
  induction ps with
  | nil => rfl
  | cons p ps ih => rw [Param.docs, List.map_cons, ih]

/-- The documents of what could be read. -/
theorem documents_eq {α : Type} (isError : α → Bool) (doc : α → Doc) (as : List α) :
    (as.map fun a => if isError a then none else some (doc a)).filterMap id
      = (as.filter fun a => !isError a).map doc := by
  rw [List.filterMap_map, ← List.filterMap_eq_map, List.filterMap_filter]
  refine List.filterMap_congr fun a _ => ?_
  dsimp only [Function.comp]
  cases isError a <;> rfl

/-! ## Parts of nodes -/

namespace Printer

variable {printer : Printer} {ns ms : List Node}

@[simp] theorem finds_append :
    printer.Finds (ns ++ ms) ↔ printer.Finds ns ∧ printer.Finds ms := List.forall_mem_append

/-- What is printed one by one. -/
theorem mapM_prints {α β : Type} [HasRoots α] {x : α → Printing β} {f : α → β} {as : List α}
    (each : ∀ a ∈ as, printer.Finds (roots a) → Prints (x a) (f a) (roots a))
    (h : printer.Finds (roots as)) : Prints (as.mapM x) (as.map f) (roots as) := by
  induction as with
  | nil => exact .pure []
  | cons a as ih =>
    obtain ⟨first, rest⟩ := finds_append.1 h
    rw [List.mapM_cons]
    exact (each a (.head _) first).bind (.map (ih (fun a ha => each a (.tail _ ha)) rest))

theorem expr_prints (e : Expr) (h : printer.Finds (roots e)) :
    Prints (printer.expr e) e.doc (roots e) := (h _ (.head _)).2 rfl

theorem pattern_prints (p : Pattern) (h : printer.Finds (roots p)) :
    Prints (printer.pattern p) p.doc (roots p) := (h _ (.head _)).2 rfl

theorem exprs_prints (es : List Expr) (h : printer.Finds (roots es)) :
    Prints (printer.exprs es) (Expr.docs es) (roots es) := by
  rw [Expr.docs_eq]
  exact mapM_prints (fun a _ => expr_prints a) h

theorem argument_prints (p : Pattern) (h : printer.Finds (roots p)) :
    Prints (printer.argument p) (parenthesizedIf p.hasArgs p.doc) (roots p) := by
  rw [argument, (h _ (.head _)).1, pure_bind]
  exact (pattern_prints p h).map

theorem arguments_prints (ps : List Pattern) (h : printer.Finds (roots ps)) :
    Prints (printer.arguments ps) (Pattern.argDocs ps) (roots ps) := by
  rw [Pattern.argDocs_eq]
  exact mapM_prints (fun a _ => argument_prints a) h

/-- The statements that could be read are printed one by one, and the others are passed over. -/
theorem stmt?_prints (s : Stmt) (h : printer.Finds (roots s)) :
    Prints (printer.stmt? s) (if s.isError then none else some s.doc) (roots s) := by
  obtain ⟨found, printed⟩ := h _ (.head _)
  rw [stmt?, found, pure_bind]
  show Prints (if s.isError = true then _ else _) _ _
  cases error : s.isError with
  | false => exact (printed error).map
  | true =>
    cases s with
    | error m =>
      intro vs down met
      obtain ⟨below, nothing, rfl⟩ := down.single
      rw [Descent.eq_nil nothing]
      rfl
    | _ => cases error

theorem block_prints (b : Block) (h : printer.Finds (roots b)) :
    Prints (printer.block b) b.doc (roots b) := by
  obtain ⟨stmts, span⟩ := b
  have lines := documents_eq Stmt.isError Stmt.doc stmts
  rw [← Stmt.docs_eq] at lines
  show Prints _ (braced stmts.isEmpty (Stmt.docs stmts)) _
  rw [← lines]
  exact (mapM_prints (fun a _ => stmt?_prints a) h).map

theorem body_prints (b : Body) (h : printer.Finds (roots b)) :
    Prints (printer.body b) b.doc (roots b) := by
  cases b with
  | block b => exact block_prints b h
  | expr e => exact expr_prints e h

theorem thenBody_prints (b : Body) (h : printer.Finds (roots b)) :
    Prints (printer.thenBody b) b.thenDoc (roots b) := by
  cases b with
  | block b => exact (block_prints b h).map
  | expr e => exact (expr_prints e h).map

theorem elseBody_prints (b : Option Body) (h : printer.Finds (roots b)) :
    Prints (printer.elseBody b) (Body.optionalElse b) (roots b) := by
  cases b with
  | none => exact .pure _
  | some b => exact (body_prints b h).map

theorem arm_prints (a : Arm) (h : printer.Finds (roots a)) :
    Prints (printer.arm a) a.doc (roots a) := by
  obtain ⟨p, b, span⟩ := a
  obtain ⟨hp, hb⟩ := finds_append.1 h
  exact (pattern_prints p hp).bind (body_prints b hb).map

theorem typeBehind_prints (mark : String) (type : Option Expr) (h : printer.Finds (roots type)) :
    Prints (printer.typeBehind mark type) (type.elim .empty fun t => .text mark ++ t.doc)
      (roots type) := by
  cases type with
  | none => exact .pure _
  | some t => exact (expr_prints t h).map

theorem param_prints (p : Param) (h : printer.Finds (roots p)) :
    Prints (printer.param p) p.doc (roots p) := by
  obtain ⟨q, type, span⟩ := p
  obtain ⟨hq, ht⟩ := finds_append.1 h
  have typed := typeBehind_prints ": " type ht
  refine (pattern_prints q hq).bind ?_
  cases type <;> exact typed.map

theorem params_prints (ps : List Param) (h : printer.Finds (roots ps)) :
    Prints (printer.params ps) (Param.docs ps) (roots ps) := by
  rw [Param.docs_eq]
  exact mapM_prints (fun a _ => param_prints a) h

/-- What may be absent is printed like a list of at most one. -/
theorem toList_prints {α β : Type} [HasRoots α] {x : α → Printing β} {f : α → β} {o : Option α}
    (each : ∀ a, printer.Finds (roots a) → Prints (x a) (f a) (roots a))
    (h : printer.Finds (roots o)) : Prints (o.toList.mapM x) (o.toList.map f) (roots o) := by
  have same : roots o = roots o.toList := by cases o <;> simp
  rw [same] at h ⊢
  exact mapM_prints (fun a _ => each a) h

theorem optional_prints (e : Option Expr) (h : printer.Finds (roots e)) :
    Prints (printer.optional e) (Expr.optionalDocs e) (roots e) := by
  have whole := toList_prints expr_prints h
  cases e <;> exact whole

theorem optionalBlock_prints (b : Option Block) (h : printer.Finds (roots b)) :
    Prints (printer.optionalBlock b) (Block.optionalDocs b) (roots b) := by
  have whole := toList_prints block_prints h
  cases b <;> exact whole

/-! ## Nodes -/

/-- A node is printed if its children are found and printed. -/
theorem node_prints (n : Node) (h : printer.Finds n.children) :
    Prints (printer.node n) n.doc n.children := by
  cases n with
  | expr e =>
    cases e with
    | literal _ l => exact .pure _
    | name _ n => exact .pure _
    | path _ p => exact .pure _
    | tuple _ es trailing => exact (exprs_prints es h).map
    | array _ es => exact (exprs_prints es h).map
    | conditional _ c t e =>
      simp only [Node.children, finds_append] at h ⊢
      rw [List.append_assoc]
      exact (expr_prints c h.1.1).bind ((thenBody_prints t h.1.2).bind (body_prints e h.2).map)
    | matchOn _ s arms =>
      simp only [Node.children, finds_append] at h ⊢
      have arms_print := mapM_prints (fun a _ => arm_prints a) h.2
      rw [← Arm.docs_eq] at arms_print
      exact (expr_prints s h.1).bind arms_print.map
    | returned _ v => exact (optional_prints v h).map
    | app _ f es b =>
      simp only [Node.children, finds_append] at h ⊢
      rw [List.append_assoc]
      exact (expr_prints f h.1.1).bind
        ((exprs_prints es h.1.2).bind (optionalBlock_prints b h.2).map)
    | typeApp _ f es =>
      obtain ⟨hf, hes⟩ := finds_append.1 h
      exact (expr_prints f hf).bind (exprs_prints es hes).map
    | lambda _ ps b | pi _ ps b | sigma _ ps b =>
      obtain ⟨hps, hb⟩ := finds_append.1 h
      exact (params_prints ps hps).bind (expr_prints b hb).map
    | arrow _ a b | ascription _ a b | binary _ a _ b =>
      obtain ⟨ha, hb⟩ := finds_append.1 h
      exact (expr_prints a ha).bind (expr_prints b hb).map
  | pattern p =>
    cases p with
    | cons _ p args => exact (arguments_prints args h).map
    | rest _ => exact .pure _
    | literal _ l => exact .pure _
  | stmt s =>
    cases s with
    | letIn _ p v | ask _ p v =>
      obtain ⟨hp, hv⟩ := finds_append.1 h
      exact (pattern_prints p hp).bind (expr_prints v hv).map
    | conditional _ c t e =>
      simp only [Node.children, finds_append] at h ⊢
      rw [List.append_assoc]
      exact (expr_prints c h.1.1).bind ((thenBody_prints t h.1.2).bind (elseBody_prints e h.2).map)
    | expr _ v => exact expr_prints v h
    | error _ => exact .pure _

/-! ## Declarations -/

theorem attr_prints (a : Attribute) (h : printer.Finds (roots a)) :
    Prints (printer.attr a) a.doc (roots a) := by
  obtain ⟨path, args, span⟩ := a
  cases args with
  | none => exact .map (.pure _)
  | some es => exact (exprs_prints es h).map.map

theorem paramList_prints (l : ParamList) (h : printer.Finds (roots l)) :
    Prints (printer.paramList l) l.doc (roots l) := (params_prints l.params h).map

theorem signature_prints (s : Signature) (h : printer.Finds (roots s)) :
    Prints (printer.signature s) s.doc (roots s) := by
  obtain ⟨name, params, type, value, span⟩ := s
  simp only [roots_signature, finds_append] at h ⊢
  rw [List.append_assoc]
  exact (mapM_prints (fun a _ => paramList_prints a) h.1.1).bind
    ((typeBehind_prints " : " type h.1.2).bind (optionalBlock_prints value h.2).map)

theorem clause_prints (c : Clause) (h : printer.Finds (roots c)) :
    Prints (printer.clause c) c.doc (roots c) := by
  obtain ⟨hp, hv⟩ := finds_append.1 h
  exact (arguments_prints c.patterns hp).bind (optional_prints c.value hv).map

theorem ctorParam_prints (p : CtorParam) (h : printer.Finds (roots p)) :
    Prints (printer.ctorParam p) p.doc (roots p) := by
  cases p with
  | positional t => exact expr_prints t h
  | named n t => exact (expr_prints t h).map

theorem ctor_prints (c : Ctor) (h : printer.Finds (roots c)) :
    Prints (printer.ctor c) c.doc (roots c) := by
  obtain ⟨name, form, span⟩ := c
  cases form with
  | typed t => exact (expr_prints t h).map.map
  | applied ps =>
    cases ps with
    | none => exact .map (.pure _)
    | some ps => exact (mapM_prints (fun a _ => ctorParam_prints a) h).map.map

theorem ctorLines_prints (cs : List Ctor) (h : printer.Finds (roots cs)) :
    Prints (printer.ctorLines cs) (Surface.ctorLines cs) (roots cs) := by
  induction cs with
  | nil => exact .pure _
  | cons c cs ih =>
    obtain ⟨first, rest⟩ := finds_append.1 h
    cases cs with
    | nil => exact (ctor_prints c first).bind (.pure _)
    | cons d cs => exact (ctor_prints c first).bind (ih rest).map

theorem typeBody_prints (sort : TypeSort) (b : TypeBody) (h : printer.Finds (roots b)) :
    Prints (printer.typeBody sort b) (b.doc sort) (roots b) := by
  obtain ⟨ctors, methods, span⟩ := b
  obtain ⟨hc, hm⟩ := finds_append.1 h
  unfold typeBody TypeBody.doc
  dsimp only
  cases none : ctors.isEmpty && methods.isEmpty with
  | false =>
    exact (ctorLines_prints ctors hc).bind (mapM_prints (fun a _ => signature_prints a) hm).map
  | true =>
    obtain ⟨noCtors, noMethods⟩ := Bool.and_eq_true_iff.1 none
    cases List.isEmpty_iff.1 noCtors
    cases List.isEmpty_iff.1 noMethods
    exact .pure _

theorem typeDecl_prints (d : TypeDecl) (h : printer.Finds (roots d)) :
    Prints (printer.typeDecl d) d.doc (roots d) := by
  obtain ⟨sort, visibility, name, params, type, body⟩ := d
  simp only [roots_typeDecl, finds_append] at h ⊢
  rw [List.append_assoc]
  have body_prints := toList_prints (typeBody_prints sort) h.2
  have same : body.toList.map (TypeBody.doc sort) = (body.map (TypeBody.doc sort)).toList := by
    cases body <;> rfl
  rw [same] at body_prints
  exact (mapM_prints (fun a _ => paramList_prints a) h.1.1).bind
    ((typeBehind_prints " : " type h.1.2).bind body_prints.map)

theorem declForm_prints (f : DeclForm) (h : printer.Finds (roots f)) :
    Prints (printer.declForm f) f.doc (roots f) := by
  cases f with
  | uses p => exact .pure _
  | command n args => exact (exprs_prints args h).map
  | type d => exact typeDecl_prints d h
  | signature s => exact signature_prints s h
  | clause c => exact clause_prints c h
  | error => exact .pure _

theorem decl_prints (d : Decl) (h : printer.Finds (roots d)) :
    Prints (printer.decl d) d.doc (roots d) := by
  obtain ⟨form, docs, attrs, span⟩ := d
  obtain ⟨ha, hf⟩ := finds_append.1 h
  exact (mapM_prints (fun a _ => attr_prints a) ha).bind (declForm_prints form hf).map

/-! ## Files -/

theorem item?_prints (a : Item) (bare : ∀ d, a = .decl d → d.isError = true → roots d = [])
    (h : printer.Finds (roots a)) :
    Prints (printer.item? a) (if a.isError then none else some a.doc) (roots a) := by
  cases a with
  | stmt s => exact stmt?_prints s h
  | decl d =>
    show Prints (if d.isError then _ else _) (if d.isError then _ else _) (roots d)
    cases error : d.isError with
    | false => exact (decl_prints d h).map
    | true =>
      rw [bare d rfl error]
      exact .pure _

theorem file_prints (f : SourceFile)
    (bare : ∀ d, .decl d ∈ f.items → d.isError = true → roots d = [])
    (h : printer.Finds (roots f)) : Prints (printer.file f) f.doc (roots f) := by
  have whole := mapM_prints (fun a ha => item?_prints a fun d hd => bare d (hd ▸ ha)) h
  rw [SourceFile.doc, ← documents_eq]
  exact whole.map

end Printer

/-- A log has all its nodes, and prints those that do not lie too deep: no node lies deeper than there are
nodes before it. -/
theorem NodeLog.printer_finds {log : NodeLog} {h pre post : List Node} (H : Logged h log)
    (split : h = pre ++ post) {depth : Nat} (enough : pre.length ≤ depth) :
    (log.printer depth).Finds pre := by
  induction depth generalizing pre post with
  | zero =>
    rw [List.eq_nil_of_length_eq_zero (Nat.le_zero.1 enough)]
    exact fun _ hn => absurd hn List.not_mem_nil
  | succ depth ih =>
    intro n hn
    have found : Printing.look log n.id = pure n := by
      funext met
      rw [Printing.look, H.get? (split ▸ List.mem_append_left _ hn)]
      rfl
    refine ⟨found, fun sound => ?_⟩
    obtain ⟨before, behind, rfl⟩ := List.append_of_mem hn
    have children : n.children ⊆ before := by
      rw [split, List.append_assoc, List.cons_append, List.append_cons] at H
      obtain ⟨_, upTo⟩ := H.of_append
      exact upTo.of_snoc.2
    rw [List.length_append, List.length_cons] at enough
    have below : (log.printer depth).Finds n.children := fun m hm =>
      ih (by rw [split, List.append_assoc]) (by omega) m (children hm)
    intro vs down met
    obtain ⟨vs, behind, rfl⟩ := down.single
    have printed : n.visit = .printed n.id := if_neg (by rw [sound]; exact Bool.false_ne_true)
    show (Printing.look log n.id >>= fun node => _) met = _
    rw [found, pure_bind]
    show (log.printer depth).node n (met ++ [.printed n.id]) = _
    rw [Printer.node_prints n below vs behind, List.map_cons, printed, List.append_assoc]
    rfl

/-- A file is printed by what identifies its nodes as it is printed as a tree, and the nodes on the way
down are met in their order, each once. -/
theorem SourceFile.print_eq {f : SourceFile} {log : NodeLog} {h visited : List Node} (H : Logged h log)
    (bare : ∀ d, .decl d ∈ f.items → d.isError = true → roots d = []) (held : roots f ⊆ h)
    (down : Descent (roots f) visited) : f.print log = some (f.doc, visited.map Node.visit) := by
  have size : h.length ≤ log.all.length := by
    have all := congrArg Multiset.card H.all
    rw [Multiset.coe_card, Multiset.coe_card] at all
    exact Nat.le_of_eq all.symm
  have finds := NodeLog.printer_finds H (List.append_nil h).symm size
  exact Printer.file_prints f bare (fun n hn => finds n (held hn)) visited down []

end Surface
