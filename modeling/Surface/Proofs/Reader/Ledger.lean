import Surface.Proofs.Reader.Quiet
import Surface.Proofs.Tree.Flawed

/-!
# Ledgers of the nodes that wait for a parent

While a reader runs, some nodes have been finished and wait to become children. Every node that is
finished takes all its children from those that wait, and waits itself; what is not taken stands in
what the reader returns. Nodes are given up only where an error is reported. Whatever is to be known
about nodes and errors can be kept in a ledger as long as it is kept in these steps.

Results:
* `Ledger`: what is known between two states about the nodes that wait, and the steps that keep it.
* `Tallies`: the judgment on readers, beside nodes that wait.
* `Tidy`: readers whose nodes all stand in what they return; `Tallies.bind`, `Tallies.newExpr`, ...
* `tidy_giveUp`: recovery, where nodes are given up and an error is added with its statement.
* `Tidy.collect`, `Tidy.commaList`: sequences.
-/

namespace Surface.Grammar

variable {α β : Type}

/-! ## Ledgers -/

/-- What is known between two states about the nodes that wait at first and those that wait at the
end, and about the items of a file that are read between them. -/
structure Ledger where
  kept : State → State → List Node → List Node → Prop
  filed : State → State → List Item → Prop
  trans {s t u : State} {as bs cs : List Node} : kept s t as bs → kept t u bs cs → kept s u as cs
  /-- Other nodes wait on. -/
  frame {s t : State} {as bs : List Node} (p : List Node) : kept s t as bs →
    kept s t (p ++ as) (p ++ bs)
  /-- Neither nodes nor errors are added. -/
  still {s t : State} {as : List Node} : t.nodes = s.nodes → t.errors = s.errors → kept s t as as
  /-- A node is finished and takes all that wait. -/
  finish {s t : State} {n : Node} : n.isError = false → t.nodes = s.nodes.push n →
    t.errors = s.errors → n.mark.number = s.nodes.size n.sort → kept s t n.children [n]
  /-- All that waits is given up for an error and an error statement. -/
  giveUp {s t : State} {as bs : List Node} (e : SyntaxError) (c : Cursor) (m : Mark) :
    kept s t as bs → m.number = t.nodes.stmts.size →
    kept s ((t.recovered e c).withStmt (.error m)) as [.stmt (.error m)]
  nil {s t : State} : t.nodes = s.nodes → t.errors = s.errors → filed s t []
  append {s t u : State} {as bs : List Item} : filed s t as → filed t u bs → filed s u (as ++ bs)
  /-- An item that has been read. -/
  item {s t : State} {a : Item} : a.isErrorDecl = false → kept s t [] (roots a) → filed s t [a]
  /-- All that waits is given up for an error and an error declaration. -/
  giveUpDecl {s t : State} {as : List Node} (e : SyntaxError) (c : Cursor) (span : Span) :
    kept s t [] as → filed s (t.recovered e c) [.decl ⟨.error, [], [], span⟩]

variable {L : Ledger}

/-- The context makes no difference. -/
theorem Ledger.inContext {s t : State} {c c' : Context} {as bs : List Node}
    (h : L.kept (s.inContext c) t as bs) : L.kept s (t.inContext c') as bs := by
  have before : L.kept s (s.inContext c) as as := L.still rfl rfl
  exact L.trans (L.trans before h) (L.still rfl rfl)

/-! ## The judgment -/

/-- A reader that runs while some nodes wait: those that still wait when it succeeds are the topmost
ones of what it returns. -/
structure Tallies (L : Ledger) [HasRoots α] (waiting : List Node) (r : Reader α) : Prop where
  ok : ∀ {i s a t}, r i s = .ok a t → L.kept s t waiting (roots a)
  error : ∀ {i s e t}, r i s = .error e t → ∃ standing, L.kept s t waiting standing

/-- A reader that runs while no nodes wait: all nodes that are left stand in what it returns. -/
class Tidy (L : Ledger) [HasRoots α] (r : Reader α) : Prop where
  tallies : Tallies L [] r

/-- The result of a round holds what it carries on. -/
instance [HasRoots β] : HasRoots (ForInStep β) := ⟨fun r => roots r.value⟩

@[simp] theorem roots_yield [HasRoots β] {b : β} : roots (ForInStep.yield b) = roots b := rfl

@[simp] theorem roots_done [HasRoots β] {b : β} : roots (ForInStep.done b) = roots b := rfl

namespace Tallies

variable [HasRoots α] [HasRoots β] {p q : List Node}

theorem congr {r : Reader α} (h : Tallies L p r) (hpq : p = q) : Tallies L q r := hpq ▸ h

/-- What is read last, if nothing waits before it. -/
theorem last {r : Reader α} [h : Tidy L r] (hp : p = []) : Tallies L p r := h.tallies.congr hp.symm

/-- Some of the nodes that wait go into what the first returns, and the rest is left to what comes
second, which may rest on what the first returns. -/
theorem seq {x : Reader α} {f : α → Reader β} {P : α → Prop} (hx : Tallies L q x) (hP : Returns x P)
    (hf : ∀ a, P a → Tallies L (p ++ roots a) (f a)) : Tallies L (p ++ q) (x >>= f) where
  ok {i s b u} run := by
    obtain ⟨a, t, first, rest⟩ := bind_ok.1 run
    exact L.trans (L.frame p (hx.ok first)) ((hf a (hP i s a t first)).ok rest)
  error {i s e u} run := by
    rw [bind_run] at run
    cases first : x i s with
    | ok a t =>
      rw [first] at run
      obtain ⟨standing, kept⟩ := (hf a (hP i s a t first)).error run
      exact ⟨standing, L.trans (L.frame p (hx.ok first)) kept⟩
    | error e' t =>
      rw [first] at run
      cases run
      obtain ⟨standing, kept⟩ := hx.error first
      exact ⟨_, L.frame p kept⟩

theorem bindOf {x : Reader α} {f : α → Reader β} {P : α → Prop} [hx : Tidy L x] (hP : Returns x P)
    (hf : ∀ a, P a → Tallies L (p ++ roots a) (f a)) : Tallies L p (x >>= f) :=
  (seq hx.tallies hP hf).congr (List.append_nil p)

theorem bind {x : Reader α} {f : α → Reader β} [Tidy L x]
    (hf : ∀ a, Tallies L (p ++ roots a) (f a)) : Tallies L p (x >>= f) :=
  bindOf (P := fun _ => True) (fun _ _ _ _ _ => trivial) fun a _ => hf a

/-- The first takes up all that waits. -/
theorem behind {x : Reader α} {f : α → Reader β} (hx : Tallies L p x)
    (hf : ∀ a, Tallies L (roots a) (f a)) : Tallies L p (x >>= f) :=
  seq (p := []) (P := fun _ => True) hx (fun _ _ _ _ _ => trivial) fun a _ => hf a

/-- What adds neither nodes nor errors. -/
theorem of_still {r : Reader α} (h : ∀ i s, (after (r i s)).nodes = s.nodes
      ∧ (after (r i s)).errors = s.errors)
    (hr : Returns r fun a => roots a = p) : Tallies L p r where
  ok {i s a t} run := by
    obtain ⟨nodes, errors⟩ := h i s
    rw [run] at nodes errors
    exact hr i s a t run ▸ L.still nodes errors
  error {i s e t} run := by
    obtain ⟨nodes, errors⟩ := h i s
    rw [run] at nodes errors
    exact ⟨p, L.still nodes errors⟩

theorem pure {a : α} (h : roots a = p) : Tallies L p (Pure.pure a : Reader α) :=
  of_still (fun _ _ => ⟨rfl, rfl⟩) (.pure h)

theorem throw {e : SyntaxError} : Tallies L p (throw e : Reader α) :=
  of_still (fun _ _ => ⟨rfl, rfl⟩) .throw

theorem absent {w : Wanted} : Tallies L p (Grammar.absent w : Reader α) :=
  of_still (fun _ _ => ⟨rfl, rfl⟩) .absent

theorem failWith {problem : Tag → Problem} : Tallies L p (Grammar.failWith problem : Reader α) :=
  of_still (fun _ _ => ⟨rfl, rfl⟩) (.bind fun _ => .throw)

theorem unexpected {tags : TagSet} : Tallies L p (Grammar.unexpected tags : Reader α) := failWith

/-- A reader that runs on every stream like one that tallies. -/
theorem of_runs {r : Reader α} (h : ∀ i, ∃ r', Tallies L p r' ∧ ∀ s, r i s = r' i s) :
    Tallies L p r where
  ok {i s _ _} run := by
    obtain ⟨r', good, same⟩ := h i
    exact good.ok ((same s).symm.trans run)
  error {i s _ _} run := by
    obtain ⟨r', good, same⟩ := h i
    exact good.error ((same s).symm.trans run)

theorem iteOf {c : Prop} [Decidable c] {x y : Reader α} (hx : c → Tallies L p x)
    (hy : ¬ c → Tallies L p y) : Tallies L p (if c then x else y) := by
  split
  · next h => exact hx h
  · next h => exact hy h

theorem ite {c : Prop} [Decidable c] {x y : Reader α} (hx : Tallies L p x) (hy : Tallies L p y) :
    Tallies L p (if c then x else y) :=
  iteOf (fun _ => hx) fun _ => hy

theorem map {f : α → β} {x : Reader α} (hx : Tallies L p x) (hf : ∀ a, roots (f a) = roots a) :
    Tallies L p (f <$> x) where
  ok run := by
    obtain ⟨a, first, rfl⟩ := map_ok.1 run
    rw [hf a]
    exact hx.ok first
  error {i s e t} run := by
    rw [map_run] at run
    cases first : x i s with
    | ok a u =>
      rw [first] at run
      cases run
    | error e' u =>
      rw [first] at run
      cases run
      exact hx.error first

theorem newExpr {span : Span} {form : Mark → Expr}
    (h : ∀ m, (form m).mark = m ∧ (Node.expr (form m)).children = p) :
    Tallies L p (Grammar.newExpr span form) where
  ok := by
    rintro i s _ _ ⟨⟩
    exact (h _).2 ▸ L.finish rfl rfl rfl (congrArg Mark.number (h _).1)
  error := nofun

theorem newPattern {span : Span} {form : Mark → Pattern}
    (h : ∀ m, (form m).mark = m ∧ (Node.pattern (form m)).children = p) :
    Tallies L p (Grammar.newPattern span form) where
  ok := by
    rintro i s _ _ ⟨⟩
    exact (h _).2 ▸ L.finish rfl rfl rfl (congrArg Mark.number (h _).1)
  error := nofun

theorem newStmt {span : Span} {form : Mark → Stmt} (plain : ∀ m, (form m).isError = false)
    (h : ∀ m, (form m).mark = m ∧ (Node.stmt (form m)).children = p) :
    Tallies L p (Grammar.newStmt span form) where
  ok := by
    rintro i s _ _ ⟨⟩
    exact (h _).2 ▸ L.finish (plain _) rfl rfl (congrArg Mark.number (h _).1)
  error := nofun

theorem within {derive : Context → Context} {r : Reader α} (h : Tallies L p r) :
    Tallies L p (Grammar.within derive r) where
  ok {i s a t} run := by
    obtain ⟨u, inside, rfl⟩ := within_ok.1 run
    exact L.inContext (h.ok inside)
  error {i s e t} run := by
    rw [within_run] at run
    cases first : r i (s.inContext (derive s.context)) with
    | ok a u =>
      rw [first] at run
      cases run
    | error e' u =>
      rw [first] at run
      cases run
      obtain ⟨standing, kept⟩ := h.error first
      exact ⟨standing, L.inContext kept⟩

theorem inConstruct {form : Construct} {r : Reader α} (h : Tallies L p r) :
    Tallies L p (Grammar.inConstruct form r) where
  ok run := h.ok (inConstruct_ok.1 run)
  error {i s e t} run := by
    rw [inConstruct_run] at run
    cases first : r i s with
    | ok a u =>
      rw [first] at run
      cases run
    | error e' u =>
      rw [first] at run
      cases run
      exact h.error first

/-- Rounds that put what was carried to them into what they carry on. -/
theorem repeatUpTo {round : β → Reader (ForInStep β)} (h : ∀ b, Tallies L (roots b) (round b))
    (n : Nat) (b : β) : Tallies L (roots b) (Grammar.repeatUpTo round n b) := by
  induction n generalizing b with
  | zero => exact pure rfl
  | succ n ih =>
    refine behind (h b) fun r => ?_
    cases r with
    | done b => exact pure rfl
    | yield b => exact ih b

theorem repeated {round : β → Reader (ForInStep β)} {b : β} (hp : roots b = p)
    (h : ∀ b, Tallies L (roots b) (round b)) : Tallies L p (Grammar.repeated b round) where
  ok {i s _ _} run := hp ▸ (repeatUpTo h (i.tokens.size - s.cursor.position + 1) b).ok run
  error {i s _ _} run := hp ▸ (repeatUpTo h (i.tokens.size - s.cursor.position + 1) b).error run

end Tallies

/-! ## Readers while no nodes wait -/

/-- Readers that neither finish nodes nor report, and return nothing that has nodes in it. -/
theorem Tidy.of_quiet [HasRoots α] {r : Reader α} [h : Quiet r] (hr : Returns r fun a => roots a = []) :
    Tidy L r where
  tallies := .of_still (fun i s => ⟨h.nodes i s, h.errors i s⟩) hr

instance : Rootless Unit := {}

instance : Rootless Bool := {}

instance : Rootless Nat := {}

instance : Rootless Tag := {}

instance : Rootless Token := {}

instance : Rootless Cursor := {}

instance : Rootless Context := {}

instance : Rootless Input := {}

instance : Rootless Opened := {}

instance [Rootless α] {r : Reader α} [Quiet r] : Tidy L r := .of_quiet fun _ _ _ _ _ => rfl

instance [HasRoots α] (e : SyntaxError) : Tidy L (throw e : Reader α) := ⟨.throw⟩

instance [HasRoots α] (tags : TagSet) : Tidy L (unexpected tags : Reader α) := ⟨.unexpected⟩

instance [HasRoots α] (what : Wanted) : Tidy L (absent what : Reader α) := ⟨.absent⟩

instance [HasRoots α] : Tidy L (pure none : Reader (Option α)) := ⟨.pure (by simp)⟩

instance [HasRoots α] : Tidy L (pure [] : Reader (List α)) := ⟨.pure (by simp)⟩

instance (tag : Tag) : Tidy L (takeIf tag) := .of_quiet fun _ _ _ _ _ => by simp

instance (start : Nat) : Tidy L (docStrings start) := .of_quiet fun _ _ _ _ _ => by simp

instance (tag : Tag) : Tidy L (accept tag) := ⟨.bind fun _ => .pure (by simp)⟩

instance (tag : Tag) : Tidy L (expect tag) := by
  refine ⟨.bind fun span => ?_⟩
  cases span with
  | some span => exact .pure (by simp)
  | none => exact .unexpected

instance (group : Opened) : Tidy L (closeGroup group) := by
  have closer : Tallies L [] (do
      setSkipsBreaks group.skipped
      match ← takeIf (.punct group.close) with
      | some stop => return group.openedAt.merge stop
      | none => failWith fun found => .unclosed group.close found group.openedAt : Reader Span) := by
    refine .bind fun _ => .bind fun stop => ?_
    cases stop with
    | some stop => exact .pure (by simp)
    | none => exact .failWith
  unfold closeGroup
  exact ⟨.ite (.bind fun _ => closer.congr (by simp)) closer⟩

/-- Something that may be absent. -/
theorem Tidy.optional [HasRoots α] {r : Reader α} (h : Tidy L r) : Tidy L (some <$> r) :=
  ⟨.map h.tallies roots_some⟩

/-! ## Sequences -/

section

variable [HasRoots α]

instance {more : Reader Bool} {item : Reader (α × Bool)} [Tidy L more] [Tidy L item] :
    Tidy L (collect more item) := by
  have round (items : Array α) : Tallies L (roots items) (collectRound more item items) := by
    refine .bind fun m => .ite (.bind fun (a, goOn) => .pure ?_) (.pure (by simp))
    cases goOn <;> simp
  rw [collect_eq]
  exact ⟨.map (.repeated (by simp) round) fun _ => roots_toList _⟩

instance {more : Reader Bool} {item : Reader α} [Tidy L more] [Tidy L item] :
    Tidy L (collectWhile more item) := by
  have one : Tidy L (do return (← item, true) : Reader (α × Bool)) :=
    ⟨.bind fun _ => .pure (by simp)⟩
  unfold collectWhile
  infer_instance

/-- The items without the marks beside them. -/
@[simp] theorem roots_map_fst (as : List (α × Bool)) : roots (as.map Prod.fst) = roots as := by
  induction as with
  | nil => rfl
  | cons a as ih =>
    rw [List.map_cons, roots_cons, roots_cons, ih, roots_pair, roots_rootless, List.append_nil]

instance {close : Tag} {item : Reader α} [Tidy L item] : Tidy L (commaList close item) := by
  have row : Tidy L (commaRow close item) := by
    refine ⟨.bind fun a => .bind fun comma => .bind fun stop => .ite ?_ (.pure (by simp))⟩
    exact .bind fun _ => .pure (by simp)
  rw [commaList_eq]
  exact ⟨.bind fun rows => .pure (by simp)⟩

instance {close : Tag} {item : Reader α} [Tidy L item] : Tidy L (nestedList close item) :=
  ⟨.within Tidy.tallies⟩

end

/-! ## Giving up -/

/-- A statement that is given up is reported, and an error statement takes its place. -/
theorem tidy_giveUp {r : Reader Stmt} [h : Tidy L r] (start : Span) (skips : Bool)
    (boundary : TagSet) : Tidy L (orElse r fun error => do
      newStmt (← recover error start skips boundary) fun m => .error m) where
  tallies := {
    ok := fun {i s a u} run => by
      rw [orElse_run] at run
      cases read : r i s with
      | ok b t =>
        rw [read] at run
        cases run
        exact h.tallies.ok read
      | error e t =>
        rw [read] at run
        cases run
        obtain ⟨standing, kept⟩ := h.tallies.error read
        exact L.giveUp e _ _ kept rfl
    error := fun {i s e' u} run => by
      rw [orElse_run] at run
      cases read : r i s <;> rw [read] at run <;> cases run }

end Surface.Grammar
