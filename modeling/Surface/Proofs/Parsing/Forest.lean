import Surface.Proofs.Parsing.Tidy
import Surface.Proofs.Printing.Visits

/-!
# The nodes of a text form a forest

Whatever is read, a node that is finished takes all its children from nodes that were finished before
and have no parent yet. What is given up keeps the children it has taken, so that nodes without a
parent outside the file are left behind by errors only.

Results:
* `Grown`: between two states, the nodes that waited and those finished since are children once or
  still stand.
* `growth`: the ledger of these nodes.
* `file_logged`: all nodes of a file in the order in which they were finished.
* `nodes_form_forest`: the nodes of whole texts; `nodes_induction`: what holds of all of them.
-/

namespace Surface

namespace Grammar

/-! ## Between two states -/

/-- The nodes `new` are finished, in this order, while those of `waiting` wait for a parent. At the
end those of `standing` wait, and no node has been taken twice. Unless an error is added, no node has
been given up. -/
structure Grown (s t : State) (waiting standing new : List Node) : Prop where
  logged : ∀ h, Logged h s.nodes → waiting ⊆ h → Logged (h ++ new) t.nodes
  errors : s.errors.size ≤ t.errors.size
  once : ↑standing + offspring ↑new ≤ (↑waiting + ↑new : Multiset Node)
  whole : t.errors.size = s.errors.size →
    ↑standing + offspring ↑new = (↑waiting + ↑new : Multiset Node)

namespace Grown

variable {s t u : State} {waiting standing rest new new' h : List Node}

theorem of_balance (logged : ∀ h, Logged h s.nodes → waiting ⊆ h → Logged (h ++ new) t.nodes)
    (errors : s.errors.size ≤ t.errors.size)
    (balance : ↑standing + offspring ↑new = (↑waiting + ↑new : Multiset Node)) :
    Grown s t waiting standing new :=
  ⟨logged, errors, balance.le, fun _ => balance⟩

/-- No node is finished, and all wait on. -/
theorem of_nodes (nodes : t.nodes = s.nodes) (errors : s.errors.size ≤ t.errors.size) :
    Grown s t waiting waiting [] := by
  refine of_balance (fun h H _ => ?_) errors ?_
  · rw [List.append_nil, nodes]
    exact H
  · rw [offspring_nil, Multiset.coe_nil]

/-- A node is finished and takes all that wait. -/
theorem push {n : Node} (nodes : t.nodes = s.nodes.push n) (errors : t.errors = s.errors)
    (number : n.mark.number = s.nodes.size n.sort) (children : n.children = waiting) :
    Grown s t waiting [n] [n] := by
  refine of_balance (fun h H held => ?_) (by rw [errors]) ?_
  · rw [nodes]
    exact .snoc H number (children ▸ held)
  · rw [← Multiset.cons_coe, offspring_cons, offspring_nil, children]
    abel

/-- What stands at the end is finished. -/
theorem standing_subset (g : Grown s t waiting standing new) (held : waiting ⊆ h) :
    standing ⊆ h ++ new := by
  intro n hn
  have there : n ∈ (↑waiting + ↑new : Multiset Node) :=
    Multiset.mem_of_le g.once (Multiset.mem_add.2 (.inl hn))
  rcases Multiset.mem_add.1 there with old | fresh
  · exact List.mem_append_left _ (held old)
  · exact List.mem_append_right _ fresh

theorem trans (g : Grown s t waiting standing new) (g' : Grown t u standing rest new') :
    Grown s u waiting rest (new ++ new') := by
  have split : offspring ↑(new ++ new') = offspring ↑new + offspring ↑new' := by
    rw [← Multiset.coe_add, offspring_add]
  refine ⟨fun h H held => ?_, g.errors.trans g'.errors, ?_, fun same => ?_⟩
  · rw [← List.append_assoc]
    exact g'.logged _ (g.logged h H held) (g.standing_subset held)
  · rw [split, ← Multiset.coe_add]
    calc _ = ↑rest + offspring ↑new' + offspring ↑new := by abel
      _ ≤ ↑standing + ↑new' + offspring ↑new := add_le_add_left g'.once _
      _ = ↑standing + offspring ↑new + ↑new' := by abel
      _ ≤ ↑waiting + ↑new + ↑new' := add_le_add_left g.once _
      _ = _ := by abel
  · have := g.errors
    have := g'.errors
    rw [split, ← Multiset.coe_add]
    calc _ = ↑rest + offspring ↑new' + offspring ↑new := by abel
      _ = ↑standing + ↑new' + offspring ↑new := by rw [g'.whole (by omega)]
      _ = ↑standing + offspring ↑new + ↑new' := by abel
      _ = ↑waiting + ↑new + ↑new' := by rw [g.whole (by omega)]
      _ = _ := by abel

/-- Other nodes wait on. -/
theorem frame (g : Grown s t waiting standing new) (p : List Node) :
    Grown s t (p ++ waiting) (p ++ standing) new := by
  refine ⟨fun h H held => ?_, g.errors, ?_, fun same => ?_⟩
  · exact g.logged h H fun n hn => held (List.mem_append_right p hn)
  · rw [← Multiset.coe_add, ← Multiset.coe_add, add_assoc, add_assoc]
    exact add_le_add_right g.once _
  · rw [← Multiset.coe_add, ← Multiset.coe_add, add_assoc, add_assoc, g.whole same]

/-- All that stands is given up, and an error is added. -/
theorem recovered (g : Grown s t waiting standing new) (e : SyntaxError) (c : Cursor) :
    Grown s (t.recovered e c) waiting [] new := by
  have := g.errors
  have errors : (t.recovered e c).errors.size = t.errors.size + 1 := Array.size_push _
  refine ⟨g.logged, by omega, ?_, fun same => by omega⟩
  rw [Multiset.coe_nil, zero_add]
  exact (Multiset.le_add_left ..).trans g.once

end Grown

/-- The ledger of the nodes that wait and of those that have been finished. -/
def growth : Ledger where
  kept s t as bs := ∃ new, Grown s t as bs new
  filed s t items := ∃ new, Grown s t [] (roots items) new
  trans := fun ⟨_, g⟩ ⟨_, g'⟩ => ⟨_, g.trans g'⟩
  frame p := fun ⟨new, g⟩ => ⟨new, g.frame p⟩
  still nodes errors := ⟨[], .of_nodes nodes (by rw [errors])⟩
  finish _ nodes errors number := ⟨_, .push nodes errors number rfl⟩
  giveUp e c m := fun ⟨_, g⟩ number => ⟨_, (g.recovered e c).trans (.push rfl rfl number rfl)⟩
  nil nodes errors := ⟨[], .of_nodes nodes (by rw [errors])⟩
  append {s t u as bs} := fun ⟨_, g⟩ ⟨_, g'⟩ => by
    have behind := g'.frame (roots as)
    rw [List.append_nil, ← roots_append] at behind
    exact ⟨_, g.trans behind⟩
  item _ kept := by rwa [roots_cons, roots_nil, List.append_nil]
  giveUpDecl e c _ := fun ⟨new, g⟩ => ⟨new, g.recovered e c⟩

/-! ## Files -/

/-- All nodes of a file in the order in which they were finished, each the child of one other at
most. Unless an error is reported, each stands at the top of the file or has a parent. -/
theorem file_logged {line : Option Shebang} {i : Input} {names : NameTable} {f : SourceFile} {s : State}
    (run : file line i (.start names) = .ok f s) :
    ∃ h, Logged h s.nodes ∧ ↑(roots f) + offspring ↑h ≤ (h : Multiset Node)
      ∧ (s.errors = #[] → ∀ n ∈ h, n ∈ roots f ∨ ∃ m ∈ h, m.IsParent n) := by
  obtain ⟨u, nodes, -, h, g⟩ := file_filed growth run
  have once := g.once
  rw [Multiset.coe_nil, zero_add] at once
  have empty : Logged [] u.nodes := nodes ▸ .nil
  refine ⟨h, g.logged [] empty (List.nil_subset _), once, fun none n hn => ?_⟩
  have whole := g.whole (by
    have := g.errors
    rw [none] at this ⊢
    exact (Nat.le_zero.1 this).symm)
  rw [Multiset.coe_nil, zero_add] at whole
  have there : n ∈ (h : Multiset Node) := hn
  rw [← whole, Multiset.mem_add, mem_offspring] at there
  exact there

/-- A declaration that could not be read holds nothing. -/
theorem ItemsAt.roots_of_isError {S : Setting} {docsFrom i : Nat} {as : List Item}
    (h : ItemsAt S docsFrom i as) {d : Decl} (hd : .decl d ∈ as) (error : d.isError = true) :
    roots d = [] := by
  induction as generalizing docsFrom i with
  | nil => cases hd
  | cons a as ih =>
    cases h with
    | more _ first rest =>
      rcases List.mem_cons.1 hd with rfl | hd
      · cases first with
        | decl _ _ read _ =>
          obtain ⟨-, -, form, -⟩ := read
          exact absurd error (by cases form <;> exact Bool.false_ne_true)
        | errorDecl => rfl
      · exact ih rest hd

end Grammar

open Grammar in
/-- The nodes of a text form a forest. All nodes that stand in the file or below a node are found by
what identifies them, and none stands in two places. What lies below a node of its own sort has a
smaller number. Unless an error is reported, all nodes are reached from the file. Whoever follows them
from the file on by what identifies them visits every node reached once, never out of bounds, and
meets them in the order in which they stand in the tree. So does whoever prints the file by what
identifies the nodes: what comes of it is the document of the tree, and every node reached is met once,
never out of bounds; it is printed, or is a statement that could not be read and is passed over. -/
theorem nodes_form_forest (source : String) (dialect : Dialect) :
    let p := parseText source dialect
    let slots := roots p.file ++ p.nodes.all.flatMap Node.children
    (∀ n ∈ p.nodes.all ++ slots, p.nodes.get? n.id = some n)
      ∧ (slots.map Node.id).Nodup
      ∧ (∀ n ∈ p.nodes.all, ∀ m, n.Below m → m.sort = n.sort → m.mark.number < n.mark.number)
      ∧ (p.errors = [] → ∀ n ∈ p.nodes.all, Node.Reached (roots p.file) n)
      ∧ ∃ visited : List Node,
        p.nodes.walk p.nodes.all.length ((roots p.file).map Node.id) = some (visited.map Node.id)
          ∧ (visited.map Node.id).Nodup
          ∧ (∀ n, n ∈ visited ↔ Node.Reached (roots p.file) n)
          ∧ p.tree.forms = visited.map Node.tree
          ∧ p.file.print p.nodes = some (p.file.doc, visited.map Node.visit) := by
  intro p slots
  obtain ⟨f, s, run, parsed⟩ := Grammar.parse_runs (lex source .empty) dialect
  have parsed : p = _ := parsed
  obtain ⟨h, H, once, held⟩ := Grammar.file_logged run
  have file : p.file = f := by rw [parsed]
  have nodes : p.nodes = s.nodes := by rw [parsed]
  have all : (p.nodes.all : Multiset Node) = h := nodes ▸ H.all
  have mem (n : Node) : n ∈ p.nodes.all ↔ n ∈ h := by
    rw [← Multiset.mem_coe, all, Multiset.mem_coe]
  have get (n : Node) (hn : n ∈ h) : p.nodes.get? n.id = some n := nodes ▸ H.get? hn
  have places : (slots : Multiset Node) ≤ h := by
    rw [← Multiset.coe_add, coe_flatMap_children, all, file]
    exact once
  have distinct {ns : List Node} (le : (ns : Multiset Node) ≤ h) : (ns.map Node.id).Nodup := by
    have nodup : (Multiset.map Node.id h).Nodup := H.nodup
    exact Multiset.nodup_of_le (Multiset.map_le_map le) nodup
  have bare (d : Decl) (hd : .decl d ∈ p.file.items) (error : d.isError = true) : roots d = [] := by
    obtain ⟨-, items, -⟩ := (parse_derives source.toList dialect).items
    exact items.roots_of_isError hd error
  refine ⟨fun n hn => ?_, distinct places, fun n hn m hm => ?_, fun none n hn => ?_, ?_⟩
  · rcases List.mem_append.1 hn with hn | hn
    · exact get n ((mem n).1 hn)
    · exact get n (Multiset.mem_of_le places hn)
  · exact H.number_lt ((mem n).1 hn) hm
  · have none : s.errors = #[] := by
      rw [parsed] at none
      exact Array.toList_eq_nil_iff.1 none
    rw [file]
    exact H.reached (held none) ((mem n).1 hn)
  · have size : (h : Multiset Node).card ≤ p.nodes.all.length := by rw [← all, Multiset.coe_card]
    obtain ⟨visited, walked, le, reached, down⟩ := NodeLog.walk_visits get (file ▸ once) size
    refine ⟨visited, walked, distinct le, reached, ?_, ?_⟩
    · rw [Parsed.tree, SourceFile.forms_tree]
      exact down.flatMap_eq Node.forms_tree
    · exact SourceFile.print_eq (nodes ▸ H) bare (file ▸ fun n hn => Multiset.mem_of_le ((Multiset.le_add_right ..).trans once) hn) down

open Grammar in
/-- What holds of a node of a text whenever it holds of its children holds of all nodes of the text. -/
theorem nodes_induction {P : Node → Prop} (source : String) (dialect : Dialect)
    (step : ∀ n ∈ (parseText source dialect).nodes.all, (∀ m ∈ n.children, P m) → P n) {n : Node}
    (h : n ∈ (parseText source dialect).nodes.all) : P n := by
  obtain ⟨f, s, run, parsed⟩ := parse_runs (lex source .empty) dialect
  have parsed : parseText source dialect = _ := parsed
  obtain ⟨log, logged, -⟩ := file_logged run
  have mem {n : Node} : n ∈ (parseText source dialect).nodes.all ↔ n ∈ log := by
    rw [parsed]
    exact logged.mem_all
  exact logged.induction (fun n hn => step n (mem.2 hn)) (mem.1 h)

end Surface
