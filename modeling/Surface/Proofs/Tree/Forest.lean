import Mathlib.Algebra.Order.Group.Multiset
import Mathlib.Data.List.Induction
import Mathlib.Data.Multiset.Bind
import Mathlib.Logic.Relation
import Mathlib.Tactic.Abel
import Surface.Syntax.Node

/-!
# Nodes, their children and their log

Expressions, patterns and statements are the nodes that are logged. They refer to each other through
blocks, bodies, arms, parameters and declarations, which are not. A log that grows by one node at a
time, whose children it holds already, is a forest if no node is the child of two.

Results:
* `roots`, `Node.children`: the topmost nodes of what is no node itself, and the nodes directly below a
  node.
* `Logged`: the nodes of a log in the order in which they were finished.
* `Logged.get?`, `Logged.nodup`, `Logged.number_lt`: nodes are found by what identifies them, and what lies
  below a node is older.
* `Logged.induction`: what holds of a node if it holds of its children.
* `Logged.reached`: if every node has a parent or is a root, all are reached from the roots.
* `Descent`: the nodes met on the way down from some nodes.
* `NodeLog.walk`, `walk_visits`: following the children by number visits every node reached once.
-/

namespace Surface

/-! ## The topmost nodes of things -/

/-- What has nodes in it: the topmost ones, in the order in which they stand. -/
class HasRoots (α : Type) where
  roots : α → List Node

export HasRoots (roots)

/-- Things that have no nodes in them. -/
class Rootless (α : Type)

instance (priority := low) {α : Type} [Rootless α] : HasRoots α := ⟨fun _ => []⟩

@[simp] theorem roots_rootless {α : Type} [Rootless α] (a : α) : roots a = [] := rfl

instance : Rootless String := {}

instance : Rootless Span := {}

instance : Rootless Ident := {}

instance : Rootless Path := {}

instance : Rootless Operator := {}

instance : Rootless DocString := {}

instance : Rootless Visibility := {}

instance : Rootless TypeSort := {}

instance : Rootless Shebang := {}

instance : HasRoots Expr := ⟨fun e => [.expr e]⟩

instance : HasRoots Pattern := ⟨fun p => [.pattern p]⟩

instance : HasRoots Stmt := ⟨fun s => [.stmt s]⟩

instance {α : Type} [HasRoots α] : HasRoots (Option α) := ⟨fun o => o.elim [] roots⟩

instance {α : Type} [HasRoots α] : HasRoots (List α) := ⟨fun as => as.flatMap roots⟩

instance {α : Type} [HasRoots α] : HasRoots (Array α) := ⟨fun as => roots as.toList⟩

instance {α β : Type} [HasRoots α] [HasRoots β] : HasRoots (α × β) :=
  ⟨fun ab => roots ab.1 ++ roots ab.2⟩

instance : HasRoots Block := ⟨fun b => roots b.stmts⟩

instance : HasRoots Body where
  roots
    | .block b => roots b
    | .expr e => roots e

instance : HasRoots Arm := ⟨fun a => roots a.pattern ++ roots a.body⟩

instance : HasRoots Param := ⟨fun p => roots p.pattern ++ roots p.type⟩

instance : HasRoots Attribute := ⟨fun a => roots a.args⟩

instance : HasRoots ParamList := ⟨fun l => roots l.params⟩

instance : HasRoots CtorParam where
  roots
    | .positional t => roots t
    | .named _ t => roots t

instance : HasRoots CtorForm where
  roots
    | .typed t => roots t
    | .applied ps => roots ps

instance : HasRoots Ctor := ⟨fun c => roots c.form⟩

instance : HasRoots Signature := ⟨fun s => roots s.params ++ roots s.type ++ roots s.value⟩

instance : HasRoots TypeBody := ⟨fun b => roots b.ctors ++ roots b.methods⟩

instance : HasRoots TypeDecl := ⟨fun d => roots d.params ++ roots d.type ++ roots d.body⟩

instance : HasRoots Clause := ⟨fun c => roots c.patterns ++ roots c.value⟩

instance : HasRoots DeclForm where
  roots
    | .uses _ => []
    | .command _ as => roots as
    | .type d => roots d
    | .signature s => roots s
    | .clause c => roots c
    | .error => []

instance : HasRoots Decl := ⟨fun d => roots d.attributes ++ roots d.form⟩

instance : HasRoots Item where
  roots
    | .decl d => roots d
    | .stmt s => roots s

instance : HasRoots SourceFile := ⟨fun f => roots f.items⟩

section

variable {α β : Type} [HasRoots α] [HasRoots β]

@[simp] theorem roots_none : roots (none : Option α) = [] := rfl

@[simp] theorem roots_some (a : α) : roots (some a) = roots a := rfl

@[simp] theorem roots_nil : roots ([] : List α) = [] := rfl

@[simp] theorem roots_cons (a : α) (as : List α) : roots (a :: as) = roots a ++ roots as := rfl

@[simp] theorem roots_append (as bs : List α) : roots (as ++ bs) = roots as ++ roots bs :=
  List.flatMap_append

@[simp] theorem roots_toList (as : Array α) : roots as.toList = roots as := rfl

@[simp] theorem roots_empty : roots (#[] : Array α) = [] := rfl

@[simp] theorem roots_push (as : Array α) (a : α) : roots (as.push a) = roots as ++ roots a := by
  show roots (as.push a).toList = _
  rw [Array.toList_push, roots_append, roots_cons, roots_nil, List.append_nil]
  rfl

@[simp] theorem roots_pair (ab : α × β) : roots ab = roots ab.1 ++ roots ab.2 := rfl

end

section

variable {α β : Type} [Rootless α] [Rootless β]

@[simp] theorem roots_option_rootless (o : Option α) : roots o = [] := by
  cases o <;> rfl

@[simp] theorem roots_option_pair_rootless (o : Option (α × β)) :
    roots o = [] := by
  cases o <;> rfl

@[simp] theorem roots_list_rootless (as : List α) : roots as = [] := by
  induction as with
  | nil => rfl
  | cons a as ih => rw [roots_cons, ih, roots_rootless, List.nil_append]

end

@[simp] theorem roots_block (ss : List Stmt) (s : Span) : roots (Block.mk ss s) = roots ss := rfl

@[simp] theorem roots_body_block (b : Block) : roots (Body.block b) = roots b := rfl

@[simp] theorem roots_body_expr (e : Expr) : roots (Body.expr e) = roots e := rfl

@[simp] theorem roots_arm (p : Pattern) (b : Body) (s : Span) :
    roots (Arm.mk p b s) = roots p ++ roots b := rfl

@[simp] theorem roots_param (p : Pattern) (t : Option Expr) (s : Span) :
    roots (Param.mk p t s) = roots p ++ roots t := rfl

@[simp] theorem roots_attribute (p : Path) (as : Option (List Expr)) (s : Span) :
    roots (Attribute.mk p as s) = roots as := rfl

@[simp] theorem roots_paramList (b : Bool) (ps : List Param) (s : Span) :
    roots (ParamList.mk b ps s) = roots ps := rfl

@[simp] theorem roots_positional (t : Expr) : roots (CtorParam.positional t) = roots t := rfl

@[simp] theorem roots_named (x : Ident) (t : Expr) : roots (CtorParam.named x t) = roots t := rfl

@[simp] theorem roots_typed (t : Expr) : roots (CtorForm.typed t) = roots t := rfl

@[simp] theorem roots_applied (ps : Option (List CtorParam)) :
    roots (CtorForm.applied ps) = roots ps := rfl

@[simp] theorem roots_ctor (n : Path) (f : CtorForm) (s : Span) : roots (Ctor.mk n f s) = roots f := rfl

@[simp] theorem roots_signature (n : Path) (ls : List ParamList) (t : Option Expr) (v : Option Block)
    (s : Span) : roots (Signature.mk n ls t v s) = roots ls ++ roots t ++ roots v := rfl

@[simp] theorem roots_typeBody (cs : List Ctor) (ms : List Signature) (s : Span) :
    roots (TypeBody.mk cs ms s) = roots cs ++ roots ms := rfl

@[simp] theorem roots_typeDecl (sort : TypeSort) (v : Option (Visibility × Span)) (n : Path)
    (ls : List ParamList) (t : Option Expr) (b : Option TypeBody) :
    roots (TypeDecl.mk sort v n ls t b) = roots ls ++ roots t ++ roots b := rfl

@[simp] theorem roots_clause (n : Path) (ps : List Pattern) (v : Option Expr) (s : Span) :
    roots (Clause.mk n ps v s) = roots ps ++ roots v := rfl

@[simp] theorem roots_uses (p : Path) : roots (DeclForm.uses p) = [] := rfl

@[simp] theorem roots_command (n : Path) (as : List Expr) : roots (DeclForm.command n as) = roots as :=
  rfl

@[simp] theorem roots_type (d : TypeDecl) : roots (DeclForm.type d) = roots d := rfl

@[simp] theorem roots_signature_form (s : Signature) : roots (DeclForm.signature s) = roots s := rfl

@[simp] theorem roots_clause_form (c : Clause) : roots (DeclForm.clause c) = roots c := rfl

@[simp] theorem roots_error : roots (DeclForm.error : DeclForm) = [] := rfl

@[simp] theorem roots_decl (f : DeclForm) (ds : List DocString) (as : List Attribute) (s : Span) :
    roots (Decl.mk f ds as s) = roots as ++ roots f := rfl

@[simp] theorem roots_item_decl (d : Decl) : roots (Item.decl d) = roots d := rfl

@[simp] theorem roots_item_stmt (s : Stmt) : roots (Item.stmt s) = roots s := rfl

@[simp] theorem roots_file (l : Option Shebang) (as : List Item) (s : Span) :
    roots (SourceFile.mk l as s) = roots as := rfl

/-! ## Children -/

namespace Node

/-- The nodes directly below a node, in the order in which they stand. -/
@[simp] def children : Node → List Node
  | expr (.literal ..) | expr (.name ..) | expr (.path ..) => []
  | expr (.tuple _ es _) | expr (.array _ es) => roots es
  | expr (.conditional _ c t e) => roots c ++ roots t ++ roots e
  | expr (.matchOn _ e arms) => roots e ++ roots arms
  | expr (.returned _ v) => roots v
  | expr (.app _ f as b) => roots f ++ roots as ++ roots b
  | expr (.typeApp _ f as) => roots f ++ roots as
  | expr (.lambda _ ps e) | expr (.pi _ ps e) | expr (.sigma _ ps e) => roots ps ++ roots e
  | expr (.arrow _ a b) | expr (.ascription _ a b) | expr (.binary _ a _ b) => roots a ++ roots b
  | pattern (.cons _ _ ps) => roots ps
  | pattern (.rest _) | pattern (.literal ..) => []
  | stmt (.letIn _ p e) | stmt (.ask _ p e) => roots p ++ roots e
  | stmt (.conditional _ c t e) => roots c ++ roots t ++ roots e
  | stmt (.expr _ e) => roots e
  | stmt (.error _) => []

/-- The second node is a child of the first. -/
def IsParent (n m : Node) : Prop := m ∈ n.children

/-- The second node lies below the first. -/
def Below : Node → Node → Prop := Relation.TransGen IsParent

/-- A node is one of some nodes or lies below one of them. -/
def Reached (rs : List Node) (n : Node) : Prop := ∃ r ∈ rs, Relation.ReflTransGen IsParent r n

variable {n m : Node} {rs ss : List Node}

theorem Reached.root (h : n ∈ rs) : Reached rs n := ⟨n, h, .refl⟩

theorem Reached.child (h : Reached rs n) (hm : n.IsParent m) : Reached rs m := by
  obtain ⟨r, hr, path⟩ := h
  exact ⟨r, hr, path.tail hm⟩

theorem not_reached_nil : ¬ Reached [] n := by
  rintro ⟨r, hr, -⟩
  cases hr

/-- What is reached from one node more. -/
theorem reached_cons : Reached (n :: rs) m ↔ m = n ∨ Reached (n.children ++ rs) m := by
  constructor
  · rintro ⟨r, hr, path⟩
    rcases List.mem_cons.1 hr with rfl | hr
    · rcases path.cases_head with rfl | ⟨c, hc, path⟩
      · exact .inl rfl
      · exact .inr ⟨c, List.mem_append_left _ hc, path⟩
    · exact .inr ⟨r, List.mem_append_right _ hr, path⟩
  · rintro (rfl | ⟨c, hc, path⟩)
    · exact .root (.head _)
    · rcases List.mem_append.1 hc with hc | hr
      · exact ⟨n, .head _, .head hc path⟩
      · exact ⟨c, .tail _ hr, path⟩

end Node

/-! ## Logs -/

namespace NodeLog

/-- The number of nodes of a sort. -/
def size (log : NodeLog) : NodeSort → Nat
  | .expr => log.exprs.size
  | .pattern => log.patterns.size
  | .stmt => log.stmts.size

/-- The log with one more node. -/
def push (log : NodeLog) : Node → NodeLog
  | .expr e => { log with exprs := log.exprs.push e }
  | .pattern p => { log with patterns := log.patterns.push p }
  | .stmt s => { log with stmts := log.stmts.push s }

variable {log : NodeLog} {n m : Node} {id : NodeId}

theorem lt_size_of_get? (h : log.get? id = some n) : id.number < log.size id.sort := by
  obtain ⟨sort, number⟩ := id
  cases sort <;> obtain ⟨a, found, -⟩ := Option.map_eq_some_iff.1 h <;>
    exact (Array.getElem?_eq_some_iff.1 found).1

/-- A node that is pushed takes no number that has been given. -/
theorem get?_push_of_get? (h : log.get? id = some n) : (log.push m).get? id = some n := by
  have lt := lt_size_of_get? h
  rw [← h]
  obtain ⟨sort, number⟩ := id
  cases m <;> cases sort <;> first
    | rfl
    | exact congrArg (Option.map _) (Array.getElem?_push_lt lt |>.trans (Array.getElem?_eq_getElem lt).symm)

theorem get?_push (h : n.mark.number = log.size n.sort) : (log.push n).get? n.id = some n := by
  cases n with
  | expr e =>
    show ((log.exprs.push e)[e.mark.number]?).map Node.expr = _
    rw [show e.mark.number = log.exprs.size from h, Array.getElem?_push_size]
    rfl
  | pattern p =>
    show ((log.patterns.push p)[p.mark.number]?).map Node.pattern = _
    rw [show p.mark.number = log.patterns.size from h, Array.getElem?_push_size]
    rfl
  | stmt t =>
    show ((log.stmts.push t)[t.mark.number]?).map Node.stmt = _
    rw [show t.mark.number = log.stmts.size from h, Array.getElem?_push_size]
    rfl

theorem all_push : ((log.push n).all : Multiset Node) = ↑log.all + {n} := by
  cases n <;> simp only [push, all, Array.toList_push, List.map_append, List.map_cons, List.map_nil,
    ← Multiset.coe_add, Multiset.coe_singleton] <;> abel

end NodeLog

/-! ## The order in which nodes are finished -/

open Node

/-- The children of all nodes of a collection. -/
def offspring (ns : Multiset Node) : Multiset Node := ns.bind fun n => n.children

@[simp] theorem offspring_nil : offspring (([] : List Node) : Multiset Node) = 0 := Multiset.zero_bind _

@[simp] theorem offspring_cons (n : Node) (ns : Multiset Node) :
    offspring (n ::ₘ ns) = n.children + offspring ns :=
  Multiset.cons_bind ..

@[simp] theorem offspring_add (ms ns : Multiset Node) :
    offspring (ms + ns) = offspring ms + offspring ns :=
  Multiset.add_bind ..

theorem coe_flatMap_children (ns : List Node) :
    (ns.flatMap Node.children : Multiset Node) = offspring ns :=
  (Multiset.coe_bind ns Node.children).symm

theorem mem_offspring {m : Node} {ns : Multiset Node} : m ∈ offspring ns ↔ ∃ n ∈ ns, n.IsParent m :=
  Multiset.mem_bind

/-- The nodes of a log in the order in which they were finished: each has the next number of its
sort, and its children are there already. -/
inductive Logged : List Node → NodeLog → Prop
  | nil : Logged [] .empty
  | snoc {h : List Node} {log : NodeLog} {n : Node} (before : Logged h log)
      (number : n.mark.number = log.size n.sort) (children : n.children ⊆ h) :
      Logged (h ++ [n]) (log.push n)

namespace Logged

variable {h pre post : List Node} {log : NodeLog} {n m : Node}

theorem get? (H : Logged h log) (hn : n ∈ h) : log.get? n.id = some n := by
  induction H with
  | nil => cases hn
  | snoc _ number _ ih =>
    rcases List.mem_append.1 hn with hn | hn
    · exact NodeLog.get?_push_of_get? (ih hn)
    · cases List.mem_singleton.1 hn
      exact NodeLog.get?_push number

/-- What is there already has a smaller number than the next of its sort. -/
theorem lt_size (H : Logged h log) (hn : n ∈ h) : n.mark.number < log.size n.sort :=
  NodeLog.lt_size_of_get? (H.get? hn)

theorem nodup (H : Logged h log) : (h.map Node.id).Nodup := by
  induction H with
  | nil => exact List.nodup_nil
  | snoc before number _ ih =>
    rw [List.map_append, List.map_singleton, ← List.concat_eq_append]
    refine ih.concat fun hn => ?_
    obtain ⟨m, hm, same⟩ := List.mem_map.1 hn
    have lt := before.lt_size hm
    rw [show m.sort = Node.sort _ from congrArg NodeId.sort same, ← number,
      show m.mark.number = _ from congrArg NodeId.number same] at lt
    exact Nat.lt_irrefl _ lt

theorem all (H : Logged h log) : (log.all : Multiset Node) = h := by
  induction H with
  | nil => rfl
  | snoc _ _ _ ih => rw [NodeLog.all_push, ih, ← Multiset.coe_singleton, Multiset.coe_add]

theorem mem_all (H : Logged h log) : n ∈ log.all ↔ n ∈ h := by
  rw [← Multiset.mem_coe, H.all, Multiset.mem_coe]

/-- The nodes up to one of them. -/
theorem of_snoc (H : Logged (h ++ [n]) log) : (∃ log, Logged h log) ∧ n.children ⊆ h := by
  generalize whole : h ++ [n] = all at H
  cases H with
  | nil => simp at whole
  | snoc before _ children =>
    obtain ⟨rfl, last⟩ := List.append_inj' whole rfl
    cases List.singleton_inj.1 last
    exact ⟨⟨_, before⟩, children⟩

theorem of_append (H : Logged (pre ++ post) log) : ∃ log, Logged pre log := by
  induction post using List.reverseRecOn generalizing log with
  | nil => exact ⟨log, List.append_nil pre ▸ H⟩
  | append_singleton post n ih =>
    rw [← List.append_assoc] at H
    obtain ⟨⟨log, H⟩, -⟩ := H.of_snoc
    exact ih H

theorem children_subset (H : Logged h log) (hn : n ∈ h) : n.children ⊆ h := by
  induction H with
  | nil => cases hn
  | snoc _ _ children ih =>
    rcases List.mem_append.1 hn with hn | hn
    · exact fun m hm => List.mem_append_left _ (ih hn hm)
    · cases List.mem_singleton.1 hn
      exact fun m hm => List.mem_append_left _ (children hm)

/-- What holds of a node whenever it holds of its children holds of all nodes. -/
theorem induction {P : Node → Prop} (H : Logged h log)
    (step : ∀ n ∈ h, (∀ m ∈ n.children, P m) → P n) (hn : n ∈ h) : P n := by
  induction H generalizing n with
  | nil => cases hn
  | snoc _ _ children ih =>
    have before {m : Node} := ih (n := m) fun n hn => step n (List.mem_append_left _ hn)
    rcases List.mem_append.1 hn with old | new
    · exact before old
    · cases List.mem_singleton.1 new
      exact step _ hn fun m hm => before (children hm)

theorem mem_of_path (H : Logged h log) (hn : n ∈ h) (path : Relation.ReflTransGen IsParent n m) :
    m ∈ h := by
  induction path with
  | refl => exact hn
  | tail _ hm ih => exact H.children_subset ih hm

/-- What lies below a node has a smaller number than it, if it is of the same sort. -/
theorem number_lt (H : Logged h log) (hn : n ∈ h) (hm : n.Below m) (same : m.sort = n.sort) :
    m.mark.number < n.mark.number := by
  induction H with
  | nil => cases hn
  | snoc before number children ih =>
    rcases List.mem_append.1 hn with hn | hn
    · exact ih hn
    · cases List.mem_singleton.1 hn
      obtain ⟨c, hc, path⟩ := Relation.TransGen.head'_iff.1 hm
      rw [number, ← same]
      exact before.lt_size (before.mem_of_path (children hc) path)

/-- No node comes before its children. -/
theorem parent_after (H : Logged (pre ++ n :: post) log) (hm : m ∈ pre ++ n :: post)
    (hn : m.IsParent n) : m ∈ post := by
  rw [List.append_cons] at H hm
  obtain ⟨_, upTo⟩ := H.of_append
  obtain ⟨⟨_, before⟩, children⟩ := upTo.of_snoc
  have fresh : n ∉ pre := fun there => by
    have nodup := upTo.nodup
    rw [List.map_append, List.nodup_append'] at nodup
    exact nodup.2.2 (List.mem_map_of_mem there) (List.mem_singleton_self _)
  rcases List.mem_append.1 hm with hm | hm
  · rcases List.mem_append.1 hm with hm | hm
    · exact absurd (before.children_subset hm hn) fresh
    · cases List.mem_singleton.1 hm
      exact absurd (children hn) fresh
  · exact hm

/-- If every node is a root or has a parent, all are reached from the roots. -/
theorem reached {rs : List Node} (H : Logged h log)
    (held : ∀ n ∈ h, n ∈ rs ∨ ∃ m ∈ h, m.IsParent n) (hn : n ∈ h) : Reached rs n := by
  -- from the end on, since parents come later
  have from_end (post : List Node) : ∀ pre, pre ++ post = h → ∀ n ∈ post, Reached rs n := by
    induction post with
    | nil => nofun
    | cons n post ih =>
      intro pre whole m hm
      have later := ih (pre ++ [n]) (by rw [← whole, List.append_assoc, List.singleton_append])
      rcases List.mem_cons.1 hm with rfl | hm
      · subst whole
        rcases held m (List.mem_append_right _ (.head _)) with root | ⟨p, hp, parent⟩
        · exact .root root
        · exact (later p (H.parent_after hp parent)).child parent
      · exact later m hm
  exact from_end h [] rfl n hn

end Logged

/-! ## On the way down -/

/-- The nodes met on the way down from some nodes, each before its children. -/
inductive Descent : List Node → List Node → Prop
  | nil : Descent [] []
  | cons {n : Node} {ns below rest : List Node} (h : Descent n.children below)
      (h' : Descent ns rest) : Descent (n :: ns) (n :: (below ++ rest))

namespace Descent

variable {n : Node} {ns ms vs : List Node}

/-- Some nodes, and others behind them. -/
theorem split (h : Descent (ns ++ ms) vs) :
    ∃ us ws, Descent ns us ∧ Descent ms ws ∧ vs = us ++ ws := by
  induction ns generalizing vs with
  | nil => exact ⟨[], vs, .nil, h, rfl⟩
  | cons n ns ih =>
    cases h with
    | cons down behind =>
      obtain ⟨us, ws, h, h', rfl⟩ := ih behind
      exact ⟨_, ws, .cons down h, h', by simp⟩

/-- A node by itself. -/
theorem single (h : Descent [n] vs) : ∃ below, Descent n.children below ∧ vs = n :: below := by
  cases h with
  | cons down behind =>
    cases behind
    exact ⟨_, down, by rw [List.append_nil]⟩

theorem eq_nil (h : Descent [] vs) : vs = [] := by
  cases h
  rfl

/-- What is collected on the way down, node by node. -/
theorem flatMap_eq {α : Type} {f : Node → List α} {g : Node → α}
    (step : ∀ n, f n = g n :: n.children.flatMap f) (h : Descent ns vs) : ns.flatMap f = vs.map g := by
  induction h with
  | nil => rfl
  | cons _ _ ih ih' => rw [List.flatMap_cons, step, ih, ih', List.map_cons, List.map_append]; rfl

end Descent

/-! ## Walks -/

namespace NodeLog

/-- Follows the children of nodes by what identifies them, depth first; fails out of bounds and
when more than `fuel` nodes are visited. -/
def walk (log : NodeLog) : Nat → List NodeId → Option (List NodeId)
  | _, [] => some []
  | 0, _ :: _ => none
  | fuel + 1, next :: ids => do
    let n ← log.get? next
    let visited ← log.walk fuel (n.children.map Node.id ++ ids)
    return next :: visited

/-- If no node has two parents, a walk visits all nodes that are reached and none of them twice. It
meets them in the order in which they stand. -/
theorem walk_visits {log : NodeLog} {fuel : Nat} {rs : List Node} {ns : Multiset Node}
    (found : ∀ n ∈ ns, log.get? n.id = some n) (once : ↑rs + offspring ns ≤ ns)
    (enough : ns.card ≤ fuel) :
    ∃ visited : List Node, log.walk fuel (rs.map Node.id) = some (visited.map Node.id) ∧ ↑visited ≤ ns
      ∧ (∀ n, n ∈ visited ↔ Reached rs n) ∧ Descent rs visited := by
  induction fuel generalizing rs ns with
  | zero =>
    cases Multiset.card_eq_zero.1 (Nat.le_zero.1 enough)
    cases (Multiset.coe_eq_zero rs).1 (Multiset.le_zero.1 ((Multiset.le_add_right ..).trans once))
    exact ⟨[], rfl, le_refl _, fun n => iff_of_false List.not_mem_nil not_reached_nil, .nil⟩
  | succ fuel ih =>
    cases rs with
    | nil =>
      exact ⟨[], rfl, Multiset.zero_le _, fun n => iff_of_false List.not_mem_nil not_reached_nil, .nil⟩
    | cons n rs =>
      obtain ⟨ns, rfl⟩ := Multiset.exists_cons_of_mem
        (Multiset.mem_of_le ((Multiset.le_add_right ..).trans once) (Multiset.mem_cons_self n rs))
      have once : ↑(n.children ++ rs) + offspring ns ≤ ns := by
        rw [← Multiset.cons_coe, offspring_cons, Multiset.cons_add, Multiset.cons_le_cons_iff] at once
        rw [← Multiset.coe_add]
        calc _ = (rs : Multiset Node) + (↑n.children + offspring ns) := by abel
          _ ≤ ns := once
      rw [Multiset.card_cons] at enough
      have found' (m : Node) (hm : m ∈ ns) := found m (Multiset.mem_cons_of_mem hm)
      obtain ⟨visited, walked, le, all, down⟩ := ih found' once (by omega)
      refine ⟨n :: visited, ?_, ?_, ?_, ?_⟩
      · rw [List.map_append] at walked
        rw [List.map_cons, walk, found n (Multiset.mem_cons_self ..), Option.bind_eq_bind,
          Option.bind_some, walked]
        rfl
      · exact (Multiset.cons_le_cons_iff n).2 le
      · intro m
        rw [List.mem_cons, all, reached_cons]
      · obtain ⟨below, rest, first, behind, rfl⟩ := down.split
        exact .cons first behind

end NodeLog

end Surface
