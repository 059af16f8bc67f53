import Surface.Proofs.Canonical.Details

/-!
# Trees without what could not be read

What could not be read is not printed, so that the tree that is read from the canonical layout is the tree
without it.

Results:
* `Expr.pruned`, ..., `SourceFile.pruned`: a tree without what could not be read.
* `Expr.pruned_eq`, ..., `SourceFile.pruned_eq`: a tree all of which could be read.
* `Expr.pruned_doc`, ..., `SourceFile.pruned_format`: the text of a tree is that of the tree without it.
-/

namespace Surface

mutual

/-- An expression without what could not be read. -/
def Expr.pruned : Expr → Expr
  | .literal m v => .literal m v
  | .name m n => .name m n
  | .path m p => .path m p
  | .tuple m es trailing => .tuple m (Expr.allPruned es) trailing
  | .array m es => .array m (Expr.allPruned es)
  | .conditional m c t e => .conditional m c.pruned t.pruned e.pruned
  | .matchOn m s arms => .matchOn m s.pruned (Arm.allPruned arms)
  | .returned m v => .returned m (Expr.optionalPruned v)
  | .app m f es b => .app m f.pruned (Expr.allPruned es) (Block.optionalPruned b)
  | .typeApp m f es => .typeApp m f.pruned (Expr.allPruned es)
  | .lambda m ps b => .lambda m (Param.allPruned ps) b.pruned
  | .arrow m d c => .arrow m d.pruned c.pruned
  | .pi m ps c => .pi m (Param.allPruned ps) c.pruned
  | .sigma m ps c => .sigma m (Param.allPruned ps) c.pruned
  | .ascription m v t => .ascription m v.pruned t.pruned
  | .binary m l op r => .binary m l.pruned op r.pruned

def Expr.allPruned : List Expr → List Expr
  | [] => []
  | e :: es => e.pruned :: Expr.allPruned es

def Expr.optionalPruned : Option Expr → Option Expr
  | none => none
  | some e => some e.pruned

/-- A statement without what could not be read. -/
def Stmt.pruned : Stmt → Stmt
  | .letIn m p v => .letIn m p v.pruned
  | .conditional m c t e => .conditional m c.pruned t.pruned (Body.optionalPruned e)
  | .ask m p v => .ask m p v.pruned
  | .expr m v => .expr m v.pruned
  | .error m => .error m

/-- The statements that could be read. -/
def Stmt.allPruned : List Stmt → List Stmt
  | [] => []
  | s :: ss => if s.isError then Stmt.allPruned ss else s.pruned :: Stmt.allPruned ss

/-- A block without what could not be read. -/
def Block.pruned : Block → Block
  | ⟨ss, m⟩ => ⟨Stmt.allPruned ss, m⟩

def Block.optionalPruned : Option Block → Option Block
  | none => none
  | some b => some b.pruned

/-- A body without what could not be read. -/
def Body.pruned : Body → Body
  | .block b => .block b.pruned
  | .expr e => .expr e.pruned

def Body.optionalPruned : Option Body → Option Body
  | none => none
  | some b => some b.pruned

/-- A match arm without what could not be read. -/
def Arm.pruned : Arm → Arm
  | ⟨p, b, m⟩ => ⟨p, b.pruned, m⟩

def Arm.allPruned : List Arm → List Arm
  | [] => []
  | a :: as => a.pruned :: Arm.allPruned as

/-- A parameter without what could not be read. -/
def Param.pruned : Param → Param
  | ⟨p, t, m⟩ => ⟨p, Expr.optionalPruned t, m⟩

def Param.allPruned : List Param → List Param
  | [] => []
  | p :: ps => p.pruned :: Param.allPruned ps

end

/-- An attribute without what could not be read. -/
def Attribute.pruned (a : Attribute) : Attribute := { a with args := a.args.map Expr.allPruned }

/-- A list of parameters without what could not be read. -/
def ParamList.pruned (l : ParamList) : ParamList := { l with params := Param.allPruned l.params }

/-- A signature without what could not be read. -/
def Signature.pruned (s : Signature) : Signature :=
  { s with
    params := s.params.map ParamList.pruned
    type := Expr.optionalPruned s.type
    value := Block.optionalPruned s.value }

/-- A clause without what could not be read. -/
def Clause.pruned (c : Clause) : Clause := { c with value := Expr.optionalPruned c.value }

/-- A parameter of a constructor without what could not be read. -/
def CtorParam.pruned : CtorParam → CtorParam
  | positional t => positional t.pruned
  | named x t => named x t.pruned

/-- What follows the name of a constructor, without what could not be read. -/
def CtorForm.pruned : CtorForm → CtorForm
  | typed t => typed t.pruned
  | applied ps => applied (ps.map (List.map CtorParam.pruned))

/-- A constructor without what could not be read. -/
def Ctor.pruned (c : Ctor) : Ctor := { c with form := c.form.pruned }

/-- The body of a type declaration without what could not be read. -/
def TypeBody.pruned (b : TypeBody) : TypeBody :=
  { b with ctors := b.ctors.map Ctor.pruned, methods := b.methods.map Signature.pruned }

/-- A type declaration without what could not be read. -/
def TypeDecl.pruned (d : TypeDecl) : TypeDecl :=
  { d with
    params := d.params.map ParamList.pruned
    type := Expr.optionalPruned d.type
    body := d.body.map TypeBody.pruned }

/-- What a declaration is, without what could not be read. -/
def DeclForm.pruned : DeclForm → DeclForm
  | uses p => uses p
  | command n args => command n (Expr.allPruned args)
  | type d => type d.pruned
  | signature s => signature s.pruned
  | clause c => clause c.pruned
  | error => error

/-- A declaration without what could not be read. -/
def Decl.pruned (d : Decl) : Decl :=
  { d with form := d.form.pruned, attributes := d.attributes.map Attribute.pruned }

/-- An item without what could not be read. -/
def Item.pruned : Item → Item
  | decl d => decl d.pruned
  | stmt s => stmt s.pruned

/-- The items that could be read. -/
def Item.readable (as : List Item) : List Item := as.filter fun a => !a.isError

/-- Items without what could not be read. -/
def Item.allPruned (as : List Item) : List Item := (Item.readable as).map Item.pruned

/-- A file without what could not be read. -/
def SourceFile.pruned (f : SourceFile) : SourceFile := { f with items := Item.allPruned f.items }

/-! ## What is kept -/

theorem Stmt.isError_pruned (s : Stmt) : s.pruned.isError = s.isError := by
  cases s <;> rfl

theorem Stmt.allPruned_isEmpty (ss : List Stmt) :
    (Stmt.allPruned ss).isEmpty = (ss.filter fun s => !s.isError).isEmpty := by
  induction ss with
  | nil => rfl
  | cons s ss ih =>
    unfold Stmt.allPruned
    cases h : s.isError with
    | true => rw [if_pos rfl, List.filter_cons_of_neg (by rw [h]; exact Bool.false_ne_true), ih]
    | false => rw [if_neg Bool.false_ne_true, List.filter_cons_of_pos (by rw [h]; rfl)]; rfl

theorem Param.allPruned_ne_nil {ps : List Param} (h : ps ≠ []) : Param.allPruned ps ≠ [] := by
  cases ps with
  | nil => exact absurd rfl h
  | cons p ps => exact List.cons_ne_nil p.pruned (Param.allPruned ps)

theorem Expr.isGroup_pruned (e : Expr) : e.pruned.isGroup = e.isGroup := by
  cases e with
  | tuple _ es _ | array _ es => cases es <;> rfl
  | _ => rfl

theorem Expr.isTypedName_pruned (e : Expr) : e.pruned.isTypedName = e.isTypedName := by
  cases e with
  | ascription _ v _ => cases v <;> rfl
  | _ => rfl

theorem Expr.isArgument_pruned (e : Expr) : e.pruned.isArgument = e.isArgument := by
  cases e <;> rfl

variable {a : Item} {as : List Item}

theorem Item.readable_of_error (h : a.isError = true) : Item.readable (a :: as) = Item.readable as :=
  List.filter_cons_of_neg (by rw [h]; exact Bool.false_ne_true)

theorem Item.readable_of_read (h : a.isError = false) :
    Item.readable (a :: as) = a :: Item.readable as :=
  List.filter_cons_of_pos (by rw [h]; rfl)

theorem Item.readable_eq (h : ∀ a ∈ as, a.isError = false) : Item.readable as = as :=
  List.filter_eq_self.2 fun a ha => by rw [h a ha]; rfl

theorem Item.isError_of_readable : ∀ a ∈ Item.readable as, a.isError = false := fun a ha => by
  have kept := (List.mem_filter.1 ha).2
  cases h : a.isError with
  | true => rw [h] at kept; cases kept
  | false => rfl

theorem Item.isError_pruned (a : Item) : a.pruned.isError = a.isError := by
  cases a with
  | decl d =>
    obtain ⟨form, _, _, _⟩ := d
    cases form <;> rfl
  | stmt s => exact s.isError_pruned

/-! ## Trees that could be read -/

/-- All statements of a block could be read. -/
def Detail.Whole : Detail → Prop
  | block ss => ∀ s ∈ ss, s.isError = false
  | _ => True

mutual

theorem Expr.pruned_eq : (e : Expr) → (∀ x ∈ e.details, x.Whole) → e.pruned = e
  | .literal _ _, _ | .name _ _, _ | .path _ _, _ => rfl
  | .tuple _ es _, h => by rw [Expr.pruned, Expr.allPruned_eq es h]
  | .array _ es, h => by rw [Expr.pruned, Expr.allPruned_eq es h]
  | .conditional _ c t e, h => by
    obtain ⟨hc, h⟩ := List.forall_mem_append.1 h
    obtain ⟨ht, he⟩ := List.forall_mem_append.1 h
    rw [Expr.pruned, c.pruned_eq hc, t.pruned_eq ht, e.pruned_eq he]
  | .matchOn _ s arms, h => by
    obtain ⟨hs, harms⟩ := List.forall_mem_append.1 h
    rw [Expr.pruned, s.pruned_eq hs, Arm.allPruned_eq arms harms]
  | .returned _ v, h => by rw [Expr.pruned, Expr.optionalPruned_eq v h]
  | .app _ f es b, h => by
    obtain ⟨hf, h⟩ := List.forall_mem_append.1 h
    obtain ⟨hes, hb⟩ := List.forall_mem_append.1 h
    rw [Expr.pruned, f.pruned_eq hf, Expr.allPruned_eq es hes, Block.optionalPruned_eq b hb]
  | .typeApp _ f es, h => by
    obtain ⟨hf, hes⟩ := List.forall_mem_append.1 h
    rw [Expr.pruned, f.pruned_eq hf, Expr.allPruned_eq es hes]
  | .lambda _ ps b, h => by
    obtain ⟨hps, hb⟩ := List.forall_mem_append.1 (List.forall_mem_cons.1 h).2
    rw [Expr.pruned, Param.allPruned_eq ps hps, b.pruned_eq hb]
  | .arrow _ d c, h => by
    obtain ⟨hd, hc⟩ := List.forall_mem_append.1 (List.forall_mem_cons.1 h).2
    rw [Expr.pruned, d.pruned_eq hd, c.pruned_eq hc]
  | .pi _ ps c, h => by
    obtain ⟨hps, hc⟩ := List.forall_mem_append.1 h
    rw [Expr.pruned, Param.allPruned_eq ps hps, c.pruned_eq hc]
  | .sigma _ ps c, h => by
    obtain ⟨hps, hc⟩ := List.forall_mem_append.1 h
    rw [Expr.pruned, Param.allPruned_eq ps hps, c.pruned_eq hc]
  | .ascription _ v t, h => by
    obtain ⟨hv, ht⟩ := List.forall_mem_append.1 h
    rw [Expr.pruned, v.pruned_eq hv, t.pruned_eq ht]
  | .binary _ l _ r, h => by
    obtain ⟨hl, hr⟩ := List.forall_mem_append.1 h
    rw [Expr.pruned, l.pruned_eq hl, r.pruned_eq hr]

theorem Expr.allPruned_eq : (es : List Expr) → (∀ x ∈ Expr.allDetails es, x.Whole) →
    Expr.allPruned es = es
  | [], _ => rfl
  | e :: es, h => by
    obtain ⟨first, rest⟩ := List.forall_mem_append.1 h
    rw [Expr.allPruned, e.pruned_eq first, Expr.allPruned_eq es rest]

theorem Expr.optionalPruned_eq : (e : Option Expr) → (∀ x ∈ Expr.optionalDetails e, x.Whole) →
    Expr.optionalPruned e = e
  | none, _ => rfl
  | some e, h => congrArg some (e.pruned_eq h)

theorem Stmt.pruned_eq : (s : Stmt) → (∀ x ∈ s.details, x.Whole) → s.pruned = s
  | .letIn _ _ v, h => by rw [Stmt.pruned, v.pruned_eq (List.forall_mem_append.1 h).2]
  | .conditional _ c t e, h => by
    obtain ⟨hc, h⟩ := List.forall_mem_append.1 h
    obtain ⟨ht, he⟩ := List.forall_mem_append.1 h
    rw [Stmt.pruned, c.pruned_eq hc, t.pruned_eq ht, Body.optionalPruned_eq e he]
  | .ask _ _ v, h => by rw [Stmt.pruned, v.pruned_eq (List.forall_mem_append.1 h).2]
  | .expr _ v, h => by rw [Stmt.pruned, v.pruned_eq h]
  | .error _, _ => rfl

theorem Stmt.allPruned_eq : (ss : List Stmt) → (∀ s ∈ ss, s.isError = false) →
    (∀ x ∈ Stmt.allDetails ss, x.Whole) → Stmt.allPruned ss = ss
  | [], _, _ => rfl
  | s :: ss, sound, h => by
    obtain ⟨read, sound⟩ := List.forall_mem_cons.1 sound
    obtain ⟨first, rest⟩ := List.forall_mem_append.1 h
    rw [Stmt.allPruned, if_neg (by rw [read]; exact Bool.false_ne_true), s.pruned_eq first,
      Stmt.allPruned_eq ss sound rest]

theorem Block.pruned_eq : (b : Block) → (∀ x ∈ b.details, x.Whole) → b.pruned = b
  | ⟨ss, _⟩, h => by
    obtain ⟨sound, h⟩ := List.forall_mem_cons.1 h
    rw [Block.pruned, Stmt.allPruned_eq ss sound h]

theorem Block.optionalPruned_eq : (b : Option Block) → (∀ x ∈ Block.optionalDetails b, x.Whole) →
    Block.optionalPruned b = b
  | none, _ => rfl
  | some b, h => congrArg some (b.pruned_eq h)

theorem Body.pruned_eq : (b : Body) → (∀ x ∈ b.details, x.Whole) → b.pruned = b
  | .block b, h => congrArg Body.block (b.pruned_eq h)
  | .expr e, h => congrArg Body.expr (e.pruned_eq h)

theorem Body.optionalPruned_eq : (b : Option Body) → (∀ x ∈ Body.optionalDetails b, x.Whole) →
    Body.optionalPruned b = b
  | none, _ => rfl
  | some b, h => congrArg some (b.pruned_eq h)

theorem Arm.pruned_eq : (a : Arm) → (∀ x ∈ a.details, x.Whole) → a.pruned = a
  | ⟨_, b, _⟩, h => by rw [Arm.pruned, b.pruned_eq (List.forall_mem_append.1 h).2]

theorem Arm.allPruned_eq : (as : List Arm) → (∀ x ∈ Arm.allDetails as, x.Whole) →
    Arm.allPruned as = as
  | [], _ => rfl
  | a :: as, h => by
    obtain ⟨first, rest⟩ := List.forall_mem_append.1 h
    rw [Arm.allPruned, a.pruned_eq first, Arm.allPruned_eq as rest]

theorem Param.pruned_eq : (p : Param) → (∀ x ∈ p.details, x.Whole) → p.pruned = p
  | ⟨_, t, _⟩, h => by rw [Param.pruned, Expr.optionalPruned_eq t (List.forall_mem_append.1 h).2]

theorem Param.allPruned_eq : (ps : List Param) → (∀ x ∈ Param.allDetails ps, x.Whole) →
    Param.allPruned ps = ps
  | [], _ => rfl
  | p :: ps, h => by
    obtain ⟨first, rest⟩ := List.forall_mem_append.1 h
    rw [Param.allPruned, p.pruned_eq first, Param.allPruned_eq ps rest]

end

/-- Parts are what they were without what could not be read, by their details. -/
theorem map_pruned {α β : Type} {pruned : α → α} {details : α → List Detail} {P : Detail → Prop}
    {read : α → β} (same : ∀ a, (∀ x ∈ details a, P x) → read (pruned a) = read a) {as : List α}
    (h : ∀ x ∈ as.flatMap details, P x) : (as.map pruned).map read = as.map read := by
  rw [List.map_map]
  exact List.map_congr_left fun a ha => same a (List.forall_mem_flatMap.1 h a ha)

theorem map_pruned_eq {α : Type} {pruned : α → α} {details : α → List Detail} {P : Detail → Prop}
    (same : ∀ a, (∀ x ∈ details a, P x) → pruned a = a) {as : List α}
    (h : ∀ x ∈ as.flatMap details, P x) : as.map pruned = as := by
  have all : (as.map pruned).map id = as.map id := map_pruned same h
  rwa [List.map_id, List.map_id] at all

theorem Attribute.pruned_eq (a : Attribute) (h : ∀ x ∈ a.details, x.Whole) : a.pruned = a := by
  obtain ⟨_, args, _⟩ := a
  cases args with
  | none => rfl
  | some es =>
    have same := Expr.allPruned_eq es (List.forall_mem_cons.1 h).2
    rw [Attribute.pruned, Option.map_some, same]

theorem ParamList.pruned_eq (l : ParamList) (h : ∀ x ∈ l.details, x.Whole) : l.pruned = l := by
  rw [ParamList.pruned, Param.allPruned_eq l.params h]

theorem Signature.pruned_eq (s : Signature) (h : ∀ x ∈ s.details, x.Whole) : s.pruned = s := by
  obtain ⟨hps, h⟩ := List.forall_mem_append.1 (List.forall_mem_cons.1 h).2
  obtain ⟨ht, hv⟩ := List.forall_mem_append.1 h
  rw [Signature.pruned, map_pruned_eq ParamList.pruned_eq hps, Expr.optionalPruned_eq s.type ht,
    Block.optionalPruned_eq s.value hv]

theorem Clause.pruned_eq (c : Clause) (h : ∀ x ∈ c.details, x.Whole) : c.pruned = c := by
  have value := (List.forall_mem_append.1 (List.forall_mem_cons.1 h).2).2
  rw [Clause.pruned, Expr.optionalPruned_eq c.value value]

theorem CtorParam.pruned_eq (a : CtorParam) (h : ∀ x ∈ a.details, x.Whole) : a.pruned = a := by
  cases a with
  | positional t => exact congrArg positional (t.pruned_eq (List.forall_mem_cons.1 h).2)
  | named x t => exact congrArg (named x) (t.pruned_eq (List.forall_mem_cons.1 h).2)

theorem CtorForm.pruned_eq (a : CtorForm) (h : ∀ x ∈ a.details, x.Whole) : a.pruned = a := by
  cases a with
  | typed t => exact congrArg typed (t.pruned_eq h)
  | applied ps =>
    cases ps with
    | none => rfl
    | some ps =>
      have same := map_pruned_eq CtorParam.pruned_eq h
      rw [CtorForm.pruned, Option.map_some, same]

theorem Ctor.pruned_eq (c : Ctor) (h : ∀ x ∈ c.details, x.Whole) : c.pruned = c := by
  rw [Ctor.pruned, c.form.pruned_eq (List.forall_mem_cons.1 h).2]

theorem TypeBody.pruned_eq (b : TypeBody) (h : ∀ x ∈ b.details, x.Whole) : b.pruned = b := by
  obtain ⟨hc, hm⟩ := List.forall_mem_append.1 h
  rw [TypeBody.pruned, map_pruned_eq Ctor.pruned_eq hc, map_pruned_eq Signature.pruned_eq hm]

theorem TypeDecl.pruned_eq (d : TypeDecl) (h : ∀ x ∈ d.details, x.Whole) : d.pruned = d := by
  obtain ⟨hps, h⟩ := List.forall_mem_append.1 (List.forall_mem_cons.1 h).2
  obtain ⟨ht, hb⟩ := List.forall_mem_append.1 h
  have body : d.body.map TypeBody.pruned = d.body := by
    cases hd : d.body with
    | none => rfl
    | some b =>
      rw [hd] at hb
      exact congrArg some (b.pruned_eq hb)
  rw [TypeDecl.pruned, map_pruned_eq ParamList.pruned_eq hps, Expr.optionalPruned_eq d.type ht, body]

theorem DeclForm.pruned_eq (a : DeclForm) (h : ∀ x ∈ a.details, x.Whole) : a.pruned = a := by
  cases a with
  | uses _ | error => rfl
  | command n es => exact congrArg (command n) (Expr.allPruned_eq es (List.forall_mem_cons.1 h).2)
  | type d => exact congrArg type (d.pruned_eq h)
  | signature s => exact congrArg signature (s.pruned_eq h)
  | clause c => exact congrArg clause (c.pruned_eq h)

theorem Item.pruned_eq (a : Item) (h : ∀ x ∈ a.details, x.Whole) : a.pruned = a := by
  cases a with
  | decl d =>
    obtain ⟨ha, hf⟩ := List.forall_mem_append.1 h
    refine congrArg decl ?_
    rw [Decl.pruned, d.form.pruned_eq hf, map_pruned_eq Attribute.pruned_eq ha]
  | stmt s => exact congrArg stmt (s.pruned_eq h)

theorem SourceFile.pruned_eq (f : SourceFile) (sound : ∀ a ∈ f.items, a.isError = false)
    (h : ∀ x ∈ f.details, x.Whole) : f.pruned = f := by
  rw [SourceFile.pruned, Item.allPruned, Item.readable_eq sound, map_pruned_eq Item.pruned_eq h]

/-! ## Texts -/

mutual

theorem Expr.pruned_doc : (e : Expr) → (∀ x ∈ e.details, x.Shown) → e.pruned.doc = e.doc
  | .literal _ _, _ | .name _ _, _ | .path _ _, _ => rfl
  | .tuple _ es _, h => by simp only [Expr.pruned, Expr.doc, Expr.pruned_docs es h]
  | .array _ es, h => by simp only [Expr.pruned, Expr.doc, Expr.pruned_docs es h]
  | .conditional _ c t e, h => by
    obtain ⟨hc, h⟩ := List.forall_mem_append.1 h
    obtain ⟨ht, he⟩ := List.forall_mem_append.1 h
    simp only [Expr.pruned, Expr.doc, c.pruned_doc hc, t.pruned_thenDoc ht, e.pruned_doc he]
  | .matchOn _ s arms, h => by
    obtain ⟨hs, harms⟩ := List.forall_mem_append.1 h
    obtain ⟨docs, isEmpty⟩ := Arm.pruned_docs arms harms
    simp only [Expr.pruned, Expr.doc, s.pruned_doc hs, docs, isEmpty]
  | .returned _ v, h => by simp only [Expr.pruned, Expr.doc, Expr.optionalPruned_docs v h]
  | .app _ f es b, h => by
    obtain ⟨hf, h⟩ := List.forall_mem_append.1 h
    obtain ⟨hes, hb⟩ := List.forall_mem_append.1 h
    simp only [Expr.pruned, Expr.doc, f.pruned_doc hf, Expr.pruned_docs es hes,
      Block.optionalPruned_docs b hb]
  | .typeApp _ f es, h => by
    obtain ⟨hf, hes⟩ := List.forall_mem_append.1 h
    simp only [Expr.pruned, Expr.doc, f.pruned_doc hf, Expr.pruned_docs es hes]
  | .lambda _ ps b, h => by
    obtain ⟨hps, hb⟩ := List.forall_mem_append.1 (List.forall_mem_cons.1 h).2
    simp only [Expr.pruned, Expr.doc, Param.pruned_docs ps hps, b.pruned_doc hb]
  | .arrow _ d c, h => by
    obtain ⟨hd, hc⟩ := List.forall_mem_append.1 (List.forall_mem_cons.1 h).2
    simp only [Expr.pruned, Expr.doc, d.pruned_doc hd, c.pruned_doc hc]
  | .pi _ ps c, h => by
    obtain ⟨hps, hc⟩ := List.forall_mem_append.1 h
    simp only [Expr.pruned, Expr.doc, Param.pruned_docs ps hps, c.pruned_doc hc]
  | .sigma _ ps c, h => by
    obtain ⟨hps, hc⟩ := List.forall_mem_append.1 h
    simp only [Expr.pruned, Expr.doc, Param.pruned_docs ps hps, c.pruned_doc hc]
  | .ascription _ v t, h => by
    obtain ⟨hv, ht⟩ := List.forall_mem_append.1 h
    simp only [Expr.pruned, Expr.doc, v.pruned_doc hv, t.pruned_doc ht]
  | .binary _ l _ r, h => by
    obtain ⟨hl, hr⟩ := List.forall_mem_append.1 h
    simp only [Expr.pruned, Expr.doc, l.pruned_doc hl, r.pruned_doc hr]

theorem Expr.pruned_docs : (es : List Expr) → (∀ x ∈ Expr.allDetails es, x.Shown) →
    Expr.docs (Expr.allPruned es) = Expr.docs es
  | [], _ => rfl
  | e :: es, h => by
    obtain ⟨first, rest⟩ := List.forall_mem_append.1 h
    simp only [Expr.allPruned, Expr.docs, e.pruned_doc first, Expr.pruned_docs es rest]

theorem Expr.optionalPruned_docs : (e : Option Expr) → (∀ x ∈ Expr.optionalDetails e, x.Shown) →
    Expr.optionalDocs (Expr.optionalPruned e) = Expr.optionalDocs e
  | none, _ => rfl
  | some e, h => congrArg ([·]) (e.pruned_doc h)

theorem Stmt.pruned_doc : (s : Stmt) → (∀ x ∈ s.details, x.Shown) → s.pruned.doc = s.doc
  | .letIn _ _ v, h => by
    simp only [Stmt.pruned, Stmt.doc, v.pruned_doc (List.forall_mem_append.1 h).2]
  | .conditional _ c t e, h => by
    obtain ⟨hc, h⟩ := List.forall_mem_append.1 h
    obtain ⟨ht, he⟩ := List.forall_mem_append.1 h
    simp only [Stmt.pruned, Stmt.doc, c.pruned_doc hc, t.pruned_thenDoc ht, Body.pruned_else e he]
  | .ask _ _ v, h => by
    simp only [Stmt.pruned, Stmt.doc, v.pruned_doc (List.forall_mem_append.1 h).2]
  | .expr _ v, h => v.pruned_doc h
  | .error _, _ => rfl

theorem Stmt.pruned_docs : (ss : List Stmt) → (∀ x ∈ Stmt.allDetails ss, x.Shown) →
    Stmt.docs (Stmt.allPruned ss) = Stmt.docs ss
  | [], _ => rfl
  | s :: ss, h => by
    obtain ⟨first, rest⟩ := List.forall_mem_append.1 h
    cases read : s.isError with
    | true => simp only [Stmt.allPruned, Stmt.docs, read, if_true, Stmt.pruned_docs ss rest]
    | false =>
      simp only [Stmt.allPruned, Stmt.docs, s.isError_pruned, read, Bool.false_eq_true, if_false,
        s.pruned_doc first, Stmt.pruned_docs ss rest]

theorem Block.pruned_doc : (b : Block) → (∀ x ∈ b.details, x.Shown) → b.pruned.doc = b.doc
  | ⟨ss, _⟩, h => by
    obtain ⟨shown, h⟩ := List.forall_mem_cons.1 h
    have isEmpty := (Stmt.allPruned_isEmpty ss).trans shown
    simp only [Block.pruned, Block.doc, Stmt.pruned_docs ss h, isEmpty]

theorem Block.optionalPruned_docs : (b : Option Block) → (∀ x ∈ Block.optionalDetails b, x.Shown) →
    Block.optionalDocs (Block.optionalPruned b) = Block.optionalDocs b
  | none, _ => rfl
  | some b, h => congrArg ([·]) (b.pruned_doc h)

theorem Body.pruned_doc : (b : Body) → (∀ x ∈ b.details, x.Shown) → b.pruned.doc = b.doc
  | .block b, h => b.pruned_doc h
  | .expr e, h => e.pruned_doc h

theorem Body.pruned_thenDoc : (b : Body) → (∀ x ∈ b.details, x.Shown) →
    b.pruned.thenDoc = b.thenDoc
  | .block b, h => by simp only [Body.pruned, Body.thenDoc, b.pruned_doc h]
  | .expr e, h => by simp only [Body.pruned, Body.thenDoc, e.pruned_doc h]

theorem Body.pruned_else : (b : Option Body) → (∀ x ∈ Body.optionalDetails b, x.Shown) →
    Body.optionalElse (Body.optionalPruned b) = Body.optionalElse b
  | none, _ => rfl
  | some b, h => by simp only [Body.optionalPruned, Body.optionalElse, b.pruned_doc h]

theorem Arm.pruned_doc : (a : Arm) → (∀ x ∈ a.details, x.Shown) → a.pruned.doc = a.doc
  | ⟨_, b, _⟩, h => by
    simp only [Arm.pruned, Arm.doc, b.pruned_doc (List.forall_mem_append.1 h).2]

theorem Arm.pruned_docs : (as : List Arm) → (∀ x ∈ Arm.allDetails as, x.Shown) →
    Arm.docs (Arm.allPruned as) = Arm.docs as ∧ (Arm.allPruned as).isEmpty = as.isEmpty
  | [], _ => ⟨rfl, rfl⟩
  | a :: as, h => by
    obtain ⟨first, rest⟩ := List.forall_mem_append.1 h
    refine ⟨?_, rfl⟩
    simp only [Arm.allPruned, Arm.docs, a.pruned_doc first, (Arm.pruned_docs as rest).1]

theorem Param.pruned_doc : (p : Param) → (∀ x ∈ p.details, x.Shown) → p.pruned.doc = p.doc
  | ⟨_, none, _⟩, _ => rfl
  | ⟨_, some t, _⟩, h => by
    have type := t.pruned_doc (List.forall_mem_append.1 h).2
    simp only [Param.pruned, Expr.optionalPruned, Param.doc, Param.typeDoc, type]

theorem Param.pruned_docs : (ps : List Param) → (∀ x ∈ Param.allDetails ps, x.Shown) →
    Param.docs (Param.allPruned ps) = Param.docs ps
  | [], _ => rfl
  | p :: ps, h => by
    obtain ⟨first, rest⟩ := List.forall_mem_append.1 h
    simp only [Param.allPruned, Param.docs, p.pruned_doc first, Param.pruned_docs ps rest]

end

theorem Attribute.pruned_doc (a : Attribute) (h : ∀ x ∈ a.details, x.Shown) : a.pruned.doc = a.doc := by
  obtain ⟨_, args, _⟩ := a
  cases args with
  | none => rfl
  | some es =>
    have same := Expr.pruned_docs es (List.forall_mem_cons.1 h).2
    simp only [Attribute.pruned, Attribute.doc, Option.map_some, Option.elim_some, same]

theorem ParamList.pruned_doc (l : ParamList) (h : ∀ x ∈ l.details, x.Shown) : l.pruned.doc = l.doc := by
  have same := Param.pruned_docs l.params h
  unfold ParamList.doc
  rw [ParamList.pruned, same]

theorem optionalType_pruned (t : Option Expr) (h : ∀ x ∈ Expr.optionalDetails t, x.Shown) :
    optionalTypeDoc (Expr.optionalPruned t) = optionalTypeDoc t := by
  cases t with
  | none => rfl
  | some t => simp only [Expr.optionalPruned, optionalTypeDoc, Option.elim_some, t.pruned_doc h]

theorem Signature.pruned_doc (s : Signature) (h : ∀ x ∈ s.details, x.Shown) : s.pruned.doc = s.doc := by
  obtain ⟨hps, h⟩ := List.forall_mem_append.1 (List.forall_mem_cons.1 h).2
  obtain ⟨ht, hv⟩ := List.forall_mem_append.1 h
  simp only [Signature.pruned, Signature.doc, map_pruned ParamList.pruned_doc hps,
    optionalType_pruned s.type ht, Block.optionalPruned_docs s.value hv]

theorem Clause.pruned_doc (c : Clause) (h : ∀ x ∈ c.details, x.Shown) : c.pruned.doc = c.doc := by
  have value := (List.forall_mem_append.1 (List.forall_mem_cons.1 h).2).2
  simp only [Clause.pruned, Clause.doc, Expr.optionalPruned_docs c.value value]

theorem CtorParam.pruned_doc (a : CtorParam) (h : ∀ x ∈ a.details, x.Shown) : a.pruned.doc = a.doc := by
  cases a with
  | positional t => exact t.pruned_doc (List.forall_mem_cons.1 h).2
  | named x t => simp only [CtorParam.pruned, CtorParam.doc, t.pruned_doc (List.forall_mem_cons.1 h).2]

theorem CtorForm.pruned_doc (a : CtorForm) (h : ∀ x ∈ a.details, x.Shown) : a.pruned.doc = a.doc := by
  cases a with
  | typed t => simp only [CtorForm.pruned, CtorForm.doc, t.pruned_doc h]
  | applied ps =>
    cases ps with
    | none => rfl
    | some ps =>
      simp only [CtorForm.pruned, Option.map_some, CtorForm.doc, map_pruned CtorParam.pruned_doc h]

theorem Ctor.pruned_doc (c : Ctor) (h : ∀ x ∈ c.details, x.Shown) : c.pruned.doc = c.doc := by
  simp only [Ctor.pruned, Ctor.doc, c.form.pruned_doc (List.forall_mem_cons.1 h).2]

theorem ctorLines_pruned (cs : List Ctor) (h : ∀ x ∈ cs.flatMap Ctor.details, x.Shown) :
    ctorLines (cs.map Ctor.pruned) = ctorLines cs := by
  induction cs with
  | nil => rfl
  | cons c cs ih =>
    obtain ⟨first, rest⟩ := List.forall_mem_append.1 h
    have others := ih rest
    cases cs with
    | nil => simp only [List.map_cons, List.map_nil, ctorLines, c.pruned_doc first]
    | cons c' cs => simp only [List.map_cons, ctorLines, c.pruned_doc first] at others ⊢; rw [others]

theorem TypeBody.pruned_doc (sort : TypeSort) (b : TypeBody) (h : ∀ x ∈ b.details, x.Shown) :
    b.pruned.doc sort = b.doc sort := by
  obtain ⟨hc, hm⟩ := List.forall_mem_append.1 h
  simp only [TypeBody.pruned, TypeBody.doc, List.isEmpty_map, ctorLines_pruned b.ctors hc,
    map_pruned Signature.pruned_doc hm]

theorem TypeDecl.pruned_doc (d : TypeDecl) (h : ∀ x ∈ d.details, x.Shown) : d.pruned.doc = d.doc := by
  obtain ⟨hps, h⟩ := List.forall_mem_append.1 (List.forall_mem_cons.1 h).2
  obtain ⟨ht, hb⟩ := List.forall_mem_append.1 h
  have body : (d.body.map TypeBody.pruned).map (TypeBody.doc d.sort)
      = d.body.map (TypeBody.doc d.sort) := by
    cases hd : d.body with
    | none => rfl
    | some b =>
      rw [hd] at hb
      exact congrArg some (b.pruned_doc d.sort hb)
  simp only [TypeDecl.pruned, TypeDecl.doc, map_pruned ParamList.pruned_doc hps,
    optionalType_pruned d.type ht, body]

theorem DeclForm.pruned_doc (a : DeclForm) (h : ∀ x ∈ a.details, x.Shown) : a.pruned.doc = a.doc := by
  cases a with
  | uses _ | error => rfl
  | command _ es =>
    simp only [DeclForm.pruned, DeclForm.doc, Expr.pruned_docs es (List.forall_mem_cons.1 h).2]
  | type d => exact d.pruned_doc h
  | signature s => exact s.pruned_doc h
  | clause c => exact c.pruned_doc h

theorem Item.pruned_doc (a : Item) (h : ∀ x ∈ a.details, x.Shown) : a.pruned.doc = a.doc := by
  cases a with
  | decl d =>
    obtain ⟨ha, hf⟩ := List.forall_mem_append.1 h
    simp only [Item.pruned, Item.doc, Decl.pruned, Decl.doc, d.form.pruned_doc hf,
      map_pruned Attribute.pruned_doc ha]
  | stmt s => exact s.pruned_doc h

/-- What could not be read is not printed. -/
theorem SourceFile.pruned_format (f : SourceFile) (h : ∀ x ∈ f.details, x.Shown) :
    f.pruned.format = f.format := by
  have items : (Item.readable (Item.allPruned f.items)).map Item.doc
      = (Item.readable f.items).map Item.doc := by
    have all : Item.readable (Item.allPruned f.items) = Item.allPruned f.items :=
      Item.readable_eq fun a ha => by
        obtain ⟨a', ha', rfl⟩ := List.mem_map.1 ha
        rw [a'.isError_pruned, Item.isError_of_readable a' ha']
    rw [all, Item.allPruned, List.map_map]
    refine List.map_congr_left fun a ha => a.pruned_doc ?_
    exact List.forall_mem_flatMap.1 h a (List.mem_of_mem_filter ha)
  have docs (g : SourceFile) : g.doc = lines (g.shebang.map Shebang.doc).toList
      ++ lines ((Item.readable g.items).map Item.doc) := rfl
  unfold SourceFile.format
  rw [docs, docs, SourceFile.pruned, items]

end Surface
