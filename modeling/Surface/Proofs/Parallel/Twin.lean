import Surface.Proofs.Parallel.Bridge
import Surface.Proofs.Reader.Quiet
import Surface.Proofs.Tree.Bare

/-!
# Two runs side by side

A judgment about two readers on the two sides of a bridge: from states at the same place, either
both succeed with like results, or both fail, and in either case the states they end in are at the
same place again. It is closed under every way readers are put together.

Results:
* `Matched`, `Stopped`: states at the same place, in the course of reading and after a failure.
* `Twin`: the judgment; `Twin.bind`, `Twin.look`, `Twin.within`, ...: readers put together.
* `Twin.openGroup`, `Twin.openBrace`, `Twin.closeGroup`: into a group and out.
* `Twin.recovered`: what cannot be read is given up on both sides.
* `Twin.repeated`, `Twin.collect`, `Twin.commaList`: sequences.
-/

namespace Surface

/-! ## Like errors -/

/-- A problem without the place of the group that is not closed. -/
def Problem.bare : Problem → Problem
  | .unclosed close found _ => .unclosed close found (.point 0)
  | p => p

instance : Alike SyntaxError :=
  ⟨fun e e' => e.problem.bare = e'.problem.bare ∧ e.context = e'.context⟩

namespace Grammar

variable {α β : Type}

/-! ## States at the same place -/

/-- As many nodes of each sort, and like errors. -/
structure Same (s s' : State) : Prop where
  exprs : s'.nodes.exprs.size = s.nodes.exprs.size
  patterns : s'.nodes.patterns.size = s.nodes.patterns.size
  stmts : s'.nodes.stmts.size = s.nodes.stmts.size
  errors : List.Forall₂ alike s.errors.toList s'.errors.toList

theorem Same.of_eq {s s' t t' : State} (h : Same s s') (hn : t.nodes = s.nodes)
    (hn' : t'.nodes = s'.nodes) (he : t.errors = s.errors) (he' : t'.errors = s'.errors) :
    Same t t' := by
  refine ⟨?_, ?_, ?_, ?_⟩
  · rw [hn, hn']
    exact h.exprs
  · rw [hn, hn']
    exact h.patterns
  · rw [hn, hn']
    exact h.stmts
  · rw [he, he']
    exact h.errors

/-- Inside the group around `o`, which is inside the group around `e`. -/
structure Bridge.Inside (B : Bridge) (e o : Nat) (b : Bool) (p : Nat) : Prop
    extends B.Within o b p where
  outer : e ≤ o
  outer_ceil : B.ceil o ≤ B.ceil e

theorem Bridge.Inside.of {B : Bridge} {e o : Nat} {b b' : Bool} {p q : Nat} (h : B.Inside e o b p)
    (h' : B.Within o b' q) : B.Inside e o b' q :=
  ⟨h', h.outer, h.outer_ceil⟩

/-- The states stand at the same place, inside the group around `o`. -/
structure Matched (B : Bridge) (e : Nat) (c : Context) (b : Bool) (o p : Nat) (s s' : State) :
    Prop where
  left : Standing B.left c b p s
  right : Standing B.right c b (p + B.shift) s'
  inside : B.Inside e o b p
  same : B.compared → Same s s'

/-- The states have come to the same place, inside the group around `e`. -/
structure Stopped (B : Bridge) (e q : Nat) (s s' : State) : Prop where
  left : s.cursor.position = q
  right : s'.cursor.position = q + B.shift
  base : e ≤ q
  below : q ≤ B.ceil e
  same : B.compared → Same s s'

variable {B : Bridge} {e o o' o'' p q : Nat} {c : Context} {b b' b'' : Bool} {s s' : State}

theorem Matched.stopped (h : Matched B e c b o p s s') : Stopped B e p s s' :=
  ⟨h.left.position, h.right.position, Nat.le_trans h.inside.outer h.inside.base,
    Nat.le_trans h.inside.below h.inside.outer_ceil, h.same⟩

theorem Runs.takeNext {S : Setting} {t : Tag} (h : S.tag p = t) (hne : t ≠ .eof) :
    Runs S (takeIf t) c b p (some (S.span p)) b (S.next b p) := by
  intro s hs
  exact ⟨_, by rw [takeIf_of_tag (by rw [hs.tag_eq, h]), hs.position]; rfl, hs.step (by rwa [h])⟩

theorem Runs.takeNone {S : Setting} {t : Tag} (h : S.tag p ≠ t) :
    Runs S (takeIf t) c b p none b p := by
  intro s hs
  exact ⟨s, takeIf_of_ne (by rwa [hs.tag_eq]), hs⟩

/-! ## The judgment -/

/-- Both runs have succeeded with like results, or both have failed. -/
inductive Ends (B : Bridge) (e : Nat) (c : Context) (b : Bool) (o p : Nat)
    (P : α → α → Nat → Prop) (r r' : EStateM.Result SyntaxError State α) : Prop
  | ok {a a' : α} {q : Nat} {t t' : State} : r = .ok a t → r' = .ok a' t' → p ≤ q → P a a' q →
      Matched B e c b o q t t' → Ends B e c b o p P r r'
  | error {x x' : SyntaxError} {q : Nat} {t t' : State} : r = .error x t → r' = .error x' t' →
      p ≤ q → (B.compared → alike x x') → Stopped B e q t t' → Ends B e c b o p P r r'

/-- From states at position `p` inside the group around `o`, in context `c` and mode `b`, two runs
end inside the group around `o'` in mode `b'`, with results of which `P` holds, or both fail inside
the group around `e`. -/
def Twin (B : Bridge) (e : Nat) (c : Context) (b : Bool) (o p : Nat) (x y : Reader α)
    (b' : Bool) (o' : Nat) (P : α → α → Nat → Prop) : Prop :=
  ∀ s s', Matched B e c b o p s s' →
    Ends B e c b' o' p P (x B.left.input s) (y B.right.input s')

/-- Like results, wherever they end. -/
def Like [Alike α] (a a' : α) (_ : Nat) : Prop := alike a a'

theorem Ends.later {P : α → α → Nat → Prop} {r r' : EStateM.Result SyntaxError State α}
    (h : Ends B e c b o q P r r') (hpq : p ≤ q) : Ends B e c b o p P r r' := by
  cases h with
  | ok run run' le hP m => exact .ok run run' (Nat.le_trans hpq le) hP m
  | error run run' le like stop => exact .error run run' (Nat.le_trans hpq le) like stop

namespace Twin

variable {x y : Reader α} {P : α → α → Nat → Prop}

/-- What is known about the place may be used. -/
theorem intro (h : B.Inside e o b p → Twin B e c b o p x y b' o' P) :
    Twin B e c b o p x y b' o' P :=
  fun s s' m => h m.inside s s' m

theorem mono {Q : α → α → Nat → Prop} (h : Twin B e c b o p x y b' o' P)
    (hPQ : ∀ a a' q, p ≤ q → P a a' q → Q a a' q) : Twin B e c b o p x y b' o' Q := by
  intro s s' m
  cases h s s' m with
  | ok run run' le hP m' => exact .ok run run' le (hPQ _ _ _ le hP) m'
  | error run run' le like stop => exact .error run run' le like stop

/-- What the first run yields is known as well. -/
theorem sound {Q : α → Nat → Prop} (h : Twin B e c b o p x y b' o' P)
    (hx : Yields B.left x c b p b' Q) :
    Twin B e c b o p x y b' o' fun a a' q => P a a' q ∧ Q a q := by
  intro s s' m
  cases h s s' m with
  | @ok a a' q t t' run run' le hP m' =>
    obtain ⟨j, there, hQ⟩ := hx s a t m.left run fun _ => B.flawed
    obtain rfl : q = j := m'.left.position.symm.trans there.position
    exact .ok run run' le ⟨hP, hQ⟩ m'
  | error run run' le like stop => exact .error run run' le like stop

/-- The first run is known to take a token. -/
theorem forward {Q : α → Nat → Prop} (h : Twin B e c b o p x y b' o' P)
    (hx : Yields B.left x c b p b' Q) (lt : ∀ a q, Q a q → p < q) :
    Twin B e c b o p x y b' o' fun a a' q => P a a' q ∧ p < q :=
  (h.sound hx).mono fun _ _ _ _ h => ⟨h.1, lt _ _ h.2⟩

/-! ## Putting readers together -/

theorem bind {f g : α → Reader β} {Q : β → β → Nat → Prop}
    (hx : Twin B e c b o p x y b' o' P)
    (hf : ∀ a a' q, p ≤ q → B.Inside e o' b' q → P a a' q →
      Twin B e c b' o' q (f a) (g a') b'' o'' Q) :
    Twin B e c b o p (x >>= f) (y >>= g) b'' o'' Q := by
  intro s s' m
  cases hx s s' m with
  | @ok a a' q t t' run run' le hP m' =>
    rw [bind_of_ok run, bind_of_ok run']
    exact (hf a a' q le m'.inside hP t t' m').later le
  | error run run' le like stop =>
    refine .error ?_ ?_ le like stop
    · rw [bind_run, run]
    · rw [bind_run, run']

/-- Readers that are known to run on both sides. -/
theorem of_runs [quiet : Quiet x] [quiet' : Quiet y] {a a' : α} (hx : Runs B.left x c b p a b' q)
    (hy : Runs B.right y c b (p + B.shift) a' b' (q + B.shift)) (le : p ≤ q)
    (inside : B.Inside e o b p → B.Inside e o' b' q) (hP : P a a' q) :
    Twin B e c b o p x y b' o' P := by
  intro s s' m
  obtain ⟨t, run, ht⟩ := hx s m.left
  obtain ⟨t', run', ht'⟩ := hy s' m.right
  have same : B.compared → Same t t' := by
    have nodes := quiet.nodes B.left.input s
    have errors := quiet.errors B.left.input s
    have nodes' := quiet'.nodes B.right.input s'
    have errors' := quiet'.errors B.right.input s'
    rw [run] at nodes errors
    rw [run'] at nodes' errors'
    exact fun compared => (m.same compared).of_eq nodes nodes' errors errors'
  exact .ok run run' le hP ⟨ht, ht', inside m.inside, same⟩

/-- First readers that are known to run on both sides. -/
theorem ran [Quiet x] [Quiet y] {f g : α → Reader β} {a a' : α} {Q : β → β → Nat → Prop}
    (hx : Runs B.left x c b p a b' q) (hy : Runs B.right y c b (p + B.shift) a' b' (q + B.shift))
    (le : p ≤ q) (inside : B.Inside e o b p → B.Inside e o' b' q)
    (h : Twin B e c b' o' q (f a) (g a') b'' o'' Q) :
    Twin B e c b o p (x >>= f) (y >>= g) b'' o'' Q := by
  refine bind (of_runs (P := fun u u' j => u = a ∧ u' = a' ∧ j = q) hx hy le inside ⟨rfl, rfl, rfl⟩)
    ?_
  rintro _ _ _ - - ⟨rfl, rfl, rfl⟩
  exact h

/-- First readers that only look. -/
theorem look [Quiet x] [Quiet y] {f g : α → Reader β} {a a' : α} {Q : β → β → Nat → Prop}
    (hx : Runs B.left x c b p a b p) (hy : Runs B.right y c b (p + B.shift) a' b (p + B.shift))
    (h : Twin B e c b o p (f a) (g a') b'' o'' Q) :
    Twin B e c b o p (x >>= f) (y >>= g) b'' o'' Q :=
  ran hx hy (Nat.le_refl _) id h

theorem pure {a a' : α} (h : P a a' p) :
    Twin B e c b o p (Pure.pure a : Reader α) (Pure.pure a' : Reader α) b o P :=
  fun _ _ m => .ok rfl rfl (Nat.le_refl _) h m

theorem map {f : α → β} {Q : β → β → Nat → Prop}
    (hx : Twin B e c b o p x y b' o' P) (h : ∀ a a' q, P a a' q → Q (f a) (f a') q) :
    Twin B e c b o p (f <$> x) (f <$> y) b' o' Q := by
  intro s s' m
  cases hx s s' m with
  | ok run run' le hP m' =>
    exact .ok (map_ok.2 ⟨_, run, rfl⟩) (map_ok.2 ⟨_, run', rfl⟩) le (h _ _ _ hP) m'
  | error run run' le like stop =>
    refine .error ?_ ?_ le like stop
    · rw [map_run, run]
    · rw [map_run, run']

theorem optional [Alike α] (hx : Twin B e c b o p x y b' o' Like) :
    Twin B e c b o p (some <$> x) (some <$> y) b' o' Like :=
  map hx fun _ _ _ h => Option.Rel.some h

theorem ite {r : Prop} [Decidable r] {x₂ y₂ : Reader α}
    (hx : r → Twin B e c b o p x y b' o' P) (hy : ¬ r → Twin B e c b o p x₂ y₂ b' o' P) :
    Twin B e c b o p (if r then x else x₂) (if r then y else y₂) b' o' P := by
  split
  · next h => exact hx h
  · next h => exact hy h

theorem within {derive : Context → Context} (h : Twin B e (derive c) b o p x y b' o' P) :
    Twin B e c b o p (Grammar.within derive x) (Grammar.within derive y) b' o' P := by
  intro s s' m
  have moved : Matched B e (derive c) b o p (s.inContext (derive s.context))
      (s'.inContext (derive s'.context)) :=
    ⟨⟨congrArg derive m.left.context, m.left.skips, m.left.position, m.left.previous, m.left.inside⟩,
      ⟨congrArg derive m.right.context, m.right.skips, m.right.position, m.right.previous,
        m.right.inside⟩, m.inside, fun h => (m.same h).of_eq rfl rfl rfl rfl⟩
  cases h _ _ moved with
  | ok run run' le hP n =>
    refine .ok (within_ok.2 ⟨_, run, rfl⟩) (within_ok.2 ⟨_, run', rfl⟩) le hP ?_
    exact ⟨⟨m.left.context, n.left.skips, n.left.position, n.left.previous, n.left.inside⟩,
      ⟨m.right.context, n.right.skips, n.right.position, n.right.previous, n.right.inside⟩,
      n.inside, fun h => (n.same h).of_eq rfl rfl rfl rfl⟩
  | @error err err' q t t' run run' le like stop =>
    have left : Grammar.within derive x B.left.input s = .error err (t.inContext s.context) := by
      rw [within_run, run]
    have right : Grammar.within derive y B.right.input s' = .error err' (t'.inContext s'.context) := by
      rw [within_run, run']
    exact .error left right le like
      ⟨stop.left, stop.right, stop.base, stop.below, fun h => (stop.same h).of_eq rfl rfl rfl rfl⟩

theorem inConstruct {form : Construct} (h : Twin B e c b o p x y b' o' P) :
    Twin B e c b o p (Grammar.inConstruct form x) (Grammar.inConstruct form y) b' o' P := by
  intro s s' m
  cases h s s' m with
  | ok run run' le hP n => exact .ok (inConstruct_ok.2 run) (inConstruct_ok.2 run') le hP n
  | @error err err' q t t' run run' le like stop =>
    have left : Grammar.inConstruct form x B.left.input s = .error (err.within form) t := by
      rw [inConstruct_run, run]
    have right : Grammar.inConstruct form y B.right.input s' = .error (err'.within form) t' := by
      rw [inConstruct_run, run']
    refine .error left right le (fun compared => ?_) stop
    obtain ⟨problem, context⟩ := like compared
    exact ⟨problem, by simp only [SyntaxError.within, context]⟩

/-! ## Failing -/

/-- Readers that fail where they stand, with like errors. -/
theorem fails {err err' : State → SyntaxError} (hx : ∀ s, x B.left.input s = .error (err s) s)
    (hy : ∀ s, y B.right.input s = .error (err' s) s)
    (h : ∀ s s', Matched B e c b o p s s' → B.compared → alike (err s) (err' s')) :
    Twin B e c b o p x y b' o' P :=
  fun s s' m => .error (hx s) (hy s') (Nat.le_refl _) (h s s' m) m.stopped

theorem failWith {problem problem' : Tag → Problem}
    (h : ∀ t, (problem t).bare = (problem' t).bare) :
    Twin B e c b o p (Grammar.failWith problem : Reader α) (Grammar.failWith problem') b' o' P := by
  refine fails (fun s => failWith_run problem _ s) (fun s => failWith_run problem' _ s)
    fun s s' m compared => ?_
  have kind : B.right.kind (p + B.shift) = B.left.kind p :=
    Bridge.kind_of_exact m.inside.le_wall (B.exact_of_compared compared)
  rw [m.left.position, m.right.position]
  unfold Setting.kind at kind
  unfold SyntaxError.atToken
  rw [kind]
  split
  · exact ⟨rfl, rfl⟩
  · exact ⟨h _, rfl⟩

theorem unexpected {ts : TagSet} :
    Twin B e c b o p (Grammar.unexpected ts : Reader α) (Grammar.unexpected ts) b' o' P :=
  failWith fun _ => rfl

theorem absent {w : Wanted} :
    Twin B e c b o p (Grammar.absent w : Reader α) (Grammar.absent w) b' o' P :=
  failWith fun _ => rfl

/-! ## Building -/

theorem newExpr {span span' : Span} {form form' : Mark → Expr} (h : alike form form') :
    Twin B e c b o p (Grammar.newExpr span form) (Grammar.newExpr span' form') b o Like := by
  intro s s' m
  obtain ⟨l₁, l₂, l₃, l₄, l₅⟩ := m.left
  obtain ⟨r₁, r₂, r₃, r₄, r₅⟩ := m.right
  refine .ok (newExpr_run ..) (newExpr_run ..) (Nat.le_refl _) (h _ _)
    ⟨⟨l₁, l₂, l₃, l₄, l₅⟩, ⟨r₁, r₂, r₃, r₄, r₅⟩, m.inside, fun compared => ?_⟩
  obtain ⟨exprs, patterns, stmts, errors⟩ := m.same compared
  exact ⟨by simp only [Array.size_push, exprs], patterns, stmts, errors⟩

theorem newPattern {span span' : Span} {form form' : Mark → Pattern} (h : alike form form') :
    Twin B e c b o p (Grammar.newPattern span form) (Grammar.newPattern span' form') b o Like := by
  intro s s' m
  obtain ⟨l₁, l₂, l₃, l₄, l₅⟩ := m.left
  obtain ⟨r₁, r₂, r₃, r₄, r₅⟩ := m.right
  refine .ok (newPattern_run ..) (newPattern_run ..) (Nat.le_refl _) (h _ _)
    ⟨⟨l₁, l₂, l₃, l₄, l₅⟩, ⟨r₁, r₂, r₃, r₄, r₅⟩, m.inside, fun compared => ?_⟩
  obtain ⟨exprs, patterns, stmts, errors⟩ := m.same compared
  exact ⟨exprs, by simp only [Array.size_push, patterns], stmts, errors⟩

theorem newStmt {span span' : Span} {form form' : Mark → Stmt} (h : alike form form') :
    Twin B e c b o p (Grammar.newStmt span form) (Grammar.newStmt span' form') b o Like := by
  intro s s' m
  obtain ⟨l₁, l₂, l₃, l₄, l₅⟩ := m.left
  obtain ⟨r₁, r₂, r₃, r₄, r₅⟩ := m.right
  refine .ok (newStmt_run ..) (newStmt_run ..) (Nat.le_refl _) (h _ _)
    ⟨⟨l₁, l₂, l₃, l₄, l₅⟩, ⟨r₁, r₂, r₃, r₄, r₅⟩, m.inside, fun compared => ?_⟩
  obtain ⟨exprs, patterns, stmts, errors⟩ := m.same compared
  exact ⟨exprs, patterns, by simp only [Array.size_push, stmts], errors⟩

/-! ## Taking tokens -/

theorem take (ht : stopTags.contains (B.left.tag p) = false) :
    Twin B e c b o p Grammar.take Grammar.take b o fun a a' q =>
      alike a a' ∧ q = B.left.next b p := by
  refine intro fun h => ?_
  obtain ⟨lt, below⟩ := h.lt_ceil ht
  obtain ⟨same, inside⟩ := h.next below
  have ne : B.left.tag p ≠ .eof := (Bridge.ne_of_stop ht).2
  have right := Runs.take (c := c) (b := b) (S := B.right) (i := p + B.shift)
    (by rwa [Bridge.tag lt])
  rw [same] at right
  exact of_runs (Runs.take ne) right (Nat.le_of_lt (B.left.lt_next b p)) (fun h => h.of inside)
    ⟨(B.kind p lt).symm, rfl⟩

theorem skipBreaks (hf : B.Inside e o b p → B.Free p) :
    Twin B e c b o p Grammar.skipBreaks Grammar.skipBreaks b o fun _ _ q => q = B.left.past p := by
  refine intro fun h => ?_
  obtain ⟨same, inside, -⟩ := h.past (hf h)
  have right := Runs.skipBreaks (c := c) (b := b) (S := B.right) (i := p + B.shift)
  rw [same] at right
  exact of_runs Runs.skipBreaks right (B.left.le_past p) (fun h => h.of inside) rfl

/-- Either the token is taken on both sides, or on neither. -/
theorem takeIf {t : Tag} (ht : stopTags.contains t = false) :
    Twin B e c b o p (Grammar.takeIf t) (Grammar.takeIf t) b o fun a a' q =>
      (∃ span span', a = some span ∧ a' = some span' ∧ B.left.tag p = t ∧ q = B.left.next b p)
        ∨ a = none ∧ a' = none ∧ B.left.tag p ≠ t ∧ q = p := by
  refine intro fun h => ?_
  obtain ⟨hl, he⟩ := Bridge.ne_of_stop ht
  have agree := Bridge.tag_eq_iff h.le_wall hl he
  by_cases next : B.left.tag p = t
  · obtain ⟨lt, below⟩ := h.lt_ceil (next ▸ ht)
    obtain ⟨same, inside⟩ := h.next below
    have right := Runs.takeNext (S := B.right) (c := c) (b := b) (p := p + B.shift) (t := t)
      (by rw [Bridge.tag lt, next]) he
    rw [same] at right
    exact of_runs (Runs.takeNext next he) right (Nat.le_of_lt (B.left.lt_next b p))
      (fun h => h.of inside) (.inl ⟨_, _, rfl, rfl, next, rfl⟩)
  · rw [decide_eq_false next] at agree
    exact of_runs (Runs.takeNone next) (Runs.takeNone (of_decide_eq_false agree))
      (Nat.le_refl _) id (.inr ⟨rfl, rfl, next, rfl⟩)

theorem accept {t : Tag} (ht : stopTags.contains t = false) :
    Twin B e c b o p (Grammar.accept t) (Grammar.accept t) b o fun a a' q =>
      a' = a ∧ if a then B.left.tag p = t ∧ q = B.left.next b p else B.left.tag p ≠ t ∧ q = p := by
  refine bind (takeIf ht) ?_
  rintro _ _ q - - (⟨span, span', rfl, rfl, next⟩ | ⟨rfl, rfl, none⟩)
  · exact pure ⟨rfl, next⟩
  · exact pure ⟨rfl, none⟩

theorem expect {t : Tag} (ht : stopTags.contains t = false) :
    Twin B e c b o p (Grammar.expect t) (Grammar.expect t) b o fun _ _ q =>
      B.left.tag p = t ∧ q = B.left.next b p := by
  refine bind (takeIf ht) ?_
  rintro _ _ q - - (⟨span, span', rfl, rfl, next⟩ | ⟨rfl, rfl, -⟩)
  · exact pure next
  · exact unexpected

/-! ## Brackets -/

end Twin

/-- The group at `i` has been opened on both sides, inside the group around `o` and in mode `b`. -/
structure Bridge.Entered (B : Bridge) (e o : Nat) (b : Bool) (i : Nat) (g g' : Opened) : Prop where
  outer : B.Inside e o b i
  lt : i < B.wall
  opener : (B.left.tag i).isOpener = true
  close : g'.close = g.close
  closer : g.close.isCloser = true
  skipped : g.skipped = b
  skipped' : g'.skipped = b

/-- The group behind an opener, in either mode. -/
theorem Bridge.Inside.enter {i : Nat} (h : B.Inside e o b i) (lt : i < B.wall)
    (opener : (B.left.tag i).isOpener = true) (b' : Bool) : B.Inside e (i + 1) b' (i + 1) where
  base := Nat.le_refl _
  below := B.le_ceil _ lt
  free _ := (B.opened i lt opener).1
  outer := Nat.le_succ_of_le (Nat.le_trans h.outer h.base)
  outer_ceil := by
    have notCloser : (B.left.tag i).isCloser = false := by
      cases ht : B.left.tag i with
      | punct q =>
        cases q <;> simp [ht, Tag.isOpener, Tag.isCloser, Punct.isOpener, Punct.isCloser] at opener ⊢
      | _ => rfl
    have inner : B.ceil (i + 1) ≤ B.ceil i := B.ceil_ceil i _ (Nat.le_succ i) (B.lt_ceil i lt notCloser)
    exact Nat.le_trans inner (Nat.le_trans h.ceil_le h.outer_ceil)

namespace Twin

theorem openGroup (h : B.left.tag p = .punct .openParen ∨ B.left.tag p = .punct .openBracket) :
    Twin B e c b o p Grammar.openGroup Grammar.openGroup true (p + 1) fun g g' q =>
      B.Entered e o b p g g' ∧ p < q
        ∧ g.close = if B.left.tag p = .punct .openBracket then .closeBracket else .closeParen := by
  refine intro fun inside => ?_
  have no_stop : stopTags.contains (B.left.tag p) = false := by
    rcases h with h | h <;> rw [h] <;> decide
  have opener : (B.left.tag p).isOpener = true := by rcases h with h | h <;> rw [h] <;> rfl
  obtain ⟨lt, -⟩ := inside.lt_ceil no_stop
  have ne := (Bridge.ne_of_stop no_stop).2
  have tag := Bridge.tag (B := B) lt
  have entered := inside.enter lt opener true
  obtain ⟨same, there, -⟩ := entered.past ((entered.free rfl).mono entered.below)
  have left := Runs.openGroup (c := c) (b := b) (S := B.left) (i := p) ne
  have right := Runs.openGroup (c := c) (b := b) (S := B.right) (i := p + B.shift) (by rwa [tag])
  rw [show B.right.next true (p + B.shift) = B.left.next true p + B.shift by
    simp only [Setting.next, if_true, Nat.add_right_comm p B.shift 1, same], tag] at right
  refine of_runs left right (Nat.le_of_lt (B.left.lt_next true p))
    (fun h => ⟨?_, entered.outer, entered.outer_ceil⟩)
    ⟨⟨inside, lt, opener, rfl, ?_, rfl, rfl⟩, B.left.lt_next true p, rfl⟩
  · exact there
  · show Punct.isCloser (if _ then _ else _) = true
    split <;> rfl

theorem openBrace (h : B.left.tag p = .punct .openBrace) :
    Twin B e c b o p Grammar.openBrace Grammar.openBrace false (p + 1) fun g g' q =>
      B.Entered e o b p g g' ∧ q = p + 1 ∧ g.close = .closeBrace := by
  refine intro fun inside => ?_
  have no_stop : stopTags.contains (B.left.tag p) = false := by
    rw [h]
    decide
  have opener : (B.left.tag p).isOpener = true := by
    rw [h]
    rfl
  obtain ⟨lt, -⟩ := inside.lt_ceil no_stop
  have ne := (Bridge.ne_of_stop no_stop).2
  have entered := inside.enter lt opener false
  have right := Runs.openBrace (c := c) (b := b) (S := B.right) (i := p + B.shift)
    (by rwa [Bridge.tag lt])
  rw [show B.right.next false (p + B.shift) = p + 1 + B.shift from Nat.add_right_comm p B.shift 1]
    at right
  exact of_runs (Runs.openBrace ne) right (Nat.le_succ p) (fun _ => entered)
    ⟨⟨inside, lt, opener, rfl, rfl, rfl, rfl⟩, rfl, rfl⟩

/-- The closer that is asked for, or an error at the token in its place. -/
theorem takeCloser {g g' : Opened} {i : Nat} (h : B.Entered e o b i g g') :
    Twin B e c b (i + 1) p (Grammar.takeIf (.punct g.close)) (Grammar.takeIf (.punct g.close)) b
      (if B.left.tag p = .punct g.close then o else i + 1) fun a a' _ =>
        (∃ span span', a = some span ∧ a' = some span' ∧ B.left.tag p = .punct g.close)
          ∨ a = none ∧ a' = none := by
  refine intro fun inside => ?_
  have agree := Bridge.tag_eq_iff inside.le_wall (t := .punct g.close) Tag.noConfusion Tag.noConfusion
  by_cases next : B.left.tag p = .punct g.close
  · have closer : (B.left.tag p).isCloser = true := by
      rw [next]
      exact h.closer
    have below := (B.opened i h.lt h.opener).2 p inside.base inside.below closer
    have outside : B.Inside e o b p :=
      h.outer.of (h.outer.upTo (Nat.le_trans (Nat.le_of_lt below) h.outer.ceil_le)
        (Nat.le_of_lt inside.base))
    obtain ⟨same, there⟩ := outside.next (Nat.lt_of_lt_of_le below h.outer.ceil_le)
    have right := Runs.takeNext (S := B.right) (c := c) (b := b) (p := p + B.shift)
      (of_decide_eq_true (agree.trans (decide_eq_true next))) Tag.noConfusion
    rw [same] at right
    rw [if_pos next]
    exact of_runs (Runs.takeNext next Tag.noConfusion) right (Nat.le_of_lt (B.left.lt_next b p))
      (fun _ => outside.of there) (.inl ⟨_, _, rfl, rfl, next⟩)
  · rw [decide_eq_false next] at agree
    rw [if_neg next]
    exact of_runs (Runs.takeNone next) (Runs.takeNone (of_decide_eq_false agree))
      (Nat.le_refl _) id (.inr ⟨rfl, rfl⟩)

/-- The closer, where it must stand, restores the mode around the group. -/
theorem closer {g g' : Opened} {i : Nat} (h : B.Entered e o b i g g') :
    Twin B e c b' (i + 1) p (do
      setSkipsBreaks b
      match ← Grammar.takeIf (.punct g.close) with
      | some stop => return g.openedAt.merge stop
      | none => Grammar.failWith fun found => .unclosed g.close found g.openedAt) (do
      setSkipsBreaks b
      match ← Grammar.takeIf (.punct g.close) with
      | some stop => return g'.openedAt.merge stop
      | none => Grammar.failWith fun found => .unclosed g.close found g'.openedAt) b o Like := by
  have free : B.Free (B.ceil (i + 1)) := (B.opened i h.lt h.opener).1
  refine ran Runs.setSkipsBreaks Runs.setSkipsBreaks (Nat.le_refl _)
    (fun h => h.of ⟨h.base, h.below, fun _ => free⟩) (bind (takeCloser h) ?_)
  rintro _ _ j - - (⟨span, span', rfl, rfl, next⟩ | ⟨rfl, rfl⟩)
  · rw [if_pos next]
    exact pure trivial
  · exact failWith fun _ => rfl

theorem closeGroup {g g' : Opened} {i : Nat} (h : B.Entered e o b i g g') :
    Twin B e c b' (i + 1) p (Grammar.closeGroup g) (Grammar.closeGroup g') b o Like := by
  have free : B.Free (B.ceil (i + 1)) := (B.opened i h.lt h.opener).1
  unfold Grammar.closeGroup
  rw [h.close, h.skipped, h.skipped']
  refine ite (fun _ => ?_) fun _ => closer h
  exact bind (skipBreaks fun h => free.mono h.below) fun _ _ j _ _ _ => closer h

end Twin

/-! ## Looking ahead -/

/-- A reader that looks ahead and sees the same on both sides. -/
def Looks (B : Bridge) (x : Reader α) (c : Context) (b : Bool) (o p : Nat) (a : α) : Prop :=
  B.Within o b p → Runs B.left x c b p a b p ∧ Runs B.right x c b (p + B.shift) a b (p + B.shift)

namespace Looks

theorem of_eq {x : Reader α} {f : Setting → Nat → α} (hx : ∀ S i, Runs S x c b i (f S i) b i)
    (h : B.Within o b p → f B.right (p + B.shift) = f B.left p) :
    Looks B x c b o p (f B.left p) := by
  intro inside
  have right := hx B.right (p + B.shift)
  rw [h inside] at right
  exact ⟨hx B.left p, right⟩

theorem isNext {t : Tag} (hl : t ≠ .lineBreak) (he : t ≠ .eof) :
    Looks B (isNext t) c b o p (decide (B.left.tag p = t)) :=
  of_eq (f := fun S i => decide (S.tag i = t)) (fun _ _ => Runs.isNext)
    fun h => Bridge.tag_eq_iff h.le_wall hl he

theorem isNext_of_free {t : Tag} (hf : B.Within o b p → B.Free p) :
    Looks B (Grammar.isNext t) c b o p (decide (B.left.tag p = t)) :=
  of_eq (f := fun S i => decide (S.tag i = t)) (fun _ _ => Runs.isNext)
    fun h => by rw [(hf h).tag h.le_wall]

theorem isNotNext {t : Tag} (hl : t ≠ .lineBreak) (he : t ≠ .eof) :
    Looks B (isNotNext t) c b o p (!decide (B.left.tag p = t)) :=
  of_eq (f := fun S i => !decide (S.tag i = t)) (fun _ _ => Runs.isNotNext)
    fun h => by rw [Bridge.tag_eq_iff h.le_wall hl he]

theorem isNextIn {ts : TagSet} (h : ts.contains .lineBreak = ts.contains .eof) :
    Looks B (isNextIn ts) c b o p (ts.contains (B.left.tag p)) :=
  of_eq (f := fun S i => ts.contains (S.tag i)) (fun _ _ => Runs.isNextIn)
    fun inside => Bridge.contains_eq inside.le_wall h

theorem isNameNext : Looks B isNameNext c b o p (nameTags.contains (B.left.tag p)) :=
  isNextIn (by decide)

theorem isAhead {t : Tag} : Looks B (isAhead t) c b o p (B.left.ahead t p) :=
  of_eq (f := fun S i => S.ahead t i) (fun _ _ => Runs.isAhead) fun h => Bridge.ahead_eq h.le_wall

theorem isBinderNext : Looks B isBinderNext c b o p (B.left.binds b p) :=
  of_eq (f := fun S i => S.binds b i) (fun _ _ => Runs.isBinderNext) Bridge.binds_eq

theorem isLambdaNext : Looks B Inner.isLambdaNext c b o p (opensLambda (B.left.kind p)) :=
  of_eq (f := fun S i => opensLambda (S.kind i)) (fun _ _ => Runs.isLambdaNext)
    fun h => Bridge.kind_congr h.le_wall opensLambda rfl

theorem isSegmentNext : Looks B isSegmentNext c b o p
    (decide (B.left.tag p = .reserved .dot) && nameTags.contains (B.left.tag (p + 1))) := by
  refine of_eq (f := fun S i => decide (S.tag i = .reserved .dot) && nameTags.contains (S.tag (i + 1)))
    (fun _ _ => Runs.isSegmentNext) fun h => ?_
  rw [Bridge.tag_eq_iff h.le_wall Tag.noConfusion Tag.noConfusion]
  by_cases dot : B.left.tag p = .reserved .dot
  · have lt := Bridge.lt_wall h.le_wall (by rw [dot]; exact Tag.noConfusion)
      (by rw [dot]; exact Tag.noConfusion)
    rw [Nat.add_right_comm, Bridge.contains_eq lt (by decide)]
  · rw [decide_eq_false dot, Bool.false_and, Bool.false_and]

theorem isElseNext : Looks B (isNextPastBreak (.keyword .elseKw)) c b o p
    (if B.left.tag p = .lineBreak then decide (B.left.tag (p + 1) = .keyword .elseKw)
      else decide (B.left.tag p = .keyword .elseKw)) := by
  refine of_eq (f := fun S i => if S.tag i = .lineBreak then decide (S.tag (i + 1) = .keyword .elseKw)
    else decide (S.tag i = .keyword .elseKw)) (fun _ _ => Runs.isNextPastBreak) fun h => ?_
  rcases Nat.lt_or_eq_of_le h.le_wall with lt | rfl
  · rw [Bridge.tag lt, Nat.add_right_comm,
      Bridge.tag_eq_iff (Nat.succ_le_of_lt lt) Tag.noConfusion Tag.noConfusion]
  · -- at the wall neither stream goes on with `else`
    have left : (if B.left.tag B.wall = .lineBreak then
        decide (B.left.tag (B.wall + 1) = .keyword .elseKw)
        else decide (B.left.tag B.wall = .keyword .elseKw)) = false := by
      rcases B.left_wall with wall | ⟨-, wall⟩
      · simp [wall]
      · simp [wall, B.left_else]
    have right : (if B.right.tag (B.wall + B.shift) = .lineBreak then
        decide (B.right.tag (B.wall + B.shift + 1) = .keyword .elseKw)
        else decide (B.right.tag (B.wall + B.shift) = .keyword .elseKw)) = false := by
      rcases B.right_wall with wall | ⟨-, wall⟩
      · simp [wall]
      · simp [wall, B.right_else wall]
    exact right.trans left.symm

theorem isInBraces (hf : B.Within o b p → B.Free p) : Looks B Inner.isInBraces c b o p
    (!decide (B.left.tag p = .punct .closeBrace) && !decide (B.left.tag p = .eof)) :=
  of_eq (f := fun S i => !decide (S.tag i = .punct .closeBrace) && !decide (S.tag i = .eof))
    (fun _ _ => Runs.isInBraces) fun h => by rw [(hf h).tag h.le_wall]

theorem isSemicolonNext (hf : B.Within o b p → B.Free p) : Looks B isSemicolonNext c b o p
    (decide (B.left.tag p = .lineBreak)
      && (B.left.input.tokens.get p).spacing.contains Spacing.hasSemicolon) := by
  refine of_eq (f := fun S i => decide (S.tag i = .lineBreak)
    && (S.input.tokens.get i).spacing.contains Spacing.hasSemicolon) (fun S i => ?_) fun h => ?_
  · have run := Runs.isSemicolonNext (S := S) (c := c) (b := b) (i := i)
    rwa [S.closed] at run
  · rcases Nat.lt_or_eq_of_le h.le_wall with lt | rfl
    · rw [Bridge.tag lt, B.semicolon p lt]
    · -- both streams end here
      rcases hf h with exact | lt
      · rw [B.left_wall.resolve_right fun l => l.1 exact, B.right_wall.resolve_right fun r => r.1 exact]
        rfl
      · exact absurd lt (Nat.lt_irrefl _)

end Looks

namespace Twin

variable {x y : Reader α} {P : α → α → Nat → Prop}

/-- First readers that see the same. -/
theorem looks [Quiet x] {f g : α → Reader β} {a : α} {Q : β → β → Nat → Prop}
    (hx : Looks B x c b o p a) (h : Twin B e c b o p (f a) (g a) b'' o'' Q) :
    Twin B e c b o p (x >>= f) (x >>= g) b'' o'' Q :=
  intro fun inside => look (hx inside.toWithin).1 (hx inside.toWithin).2 h

/-! ## Recovery -/

/-- What cannot be read is given up on both sides, up to the same place. -/
theorem recovered [Steady x] [Steady y] {boundary : TagSet} {start start' : Span}
    {k k' : Span → Reader α} (hx : Twin B o c false o p x y false o P)
    (hb : boundary = itemBoundary ∧ B.ceil o = B.wall
      ∨ boundary = stmtBoundary ∧ ∃ g < B.wall, o = g + 1 ∧ B.left.tag g = .punct .openBrace)
    (hk : ∀ q span span', p ≤ q →
      (B.left.tag p ≠ .eof → boundary.contains (B.left.tag p) = false → p < q) →
      Twin B e c false o q (k span) (k' span') false o P) :
    Twin B e c false o p (orElse x fun err => do k (← recover err start false boundary))
      (orElse y fun err => do k' (← recover err start' false boundary)) false o P := by
  intro s s' m
  have outer : B.Inside o o false p := ⟨m.inside.toWithin, Nat.le_refl o, Nat.le_refl _⟩
  cases hx s s' ⟨m.left, m.right, outer, m.same⟩ with
  | ok run run' le hP m' =>
    refine .ok ?_ ?_ le hP ⟨m'.left, m'.right, m.inside.of m'.inside.toWithin, m'.same⟩
    · rw [orElse_run, run]
    · rw [orElse_run, run']
  | @error err err' q t t' run run' le like stop =>
    have steps := Steady.error run
    have left := steps.recovered err boundary false m.left
    have right := (Steady.error run').recovered err' boundary false m.right
    obtain ⟨same, below⟩ := B.resume boundary o q (skipping false t.cursor) (skipping false t'.cursor)
      hb stop.base stop.below stop.left stop.right rfl rfl
    rw [same] at right
    have far : p ≤ ((skipping false t.cursor).resume B.left.input.tokens boundary).position := by
      have resumed := position_le_resumeAt B.left.input.tokens boundary 0 (skipping false t.cursor)
      rw [skipping_position, stop.left] at resumed
      exact Nat.le_trans le resumed
    rw [orElse_run, orElse_run, run, run']
    dsimp only
    rw [bind_of_ok (recover_run ..), bind_of_ok (recover_run ..)]
    refine (hk _ _ _ far (steps.lt_resume boundary false m.left) _ _
      ⟨left, right, m.inside.of (m.inside.upTo below far), fun compared => ?_⟩).later far
    obtain ⟨exprs, patterns, stmts, errors⟩ := stop.same compared
    refine ⟨exprs, patterns, stmts, ?_⟩
    show List.Forall₂ alike (t.errors.push err).toList (t'.errors.push err').toList
    rw [Array.toList_push, Array.toList_push]
    exact List.rel_append errors (.cons (like compared) .nil)

/-! ## Sequences -/

/-- What a round may lead to: the end, or another round further on. -/
def Round (I Q : β → β → Nat → Prop) (p : Nat) : ForInStep β → ForInStep β → Nat → Prop
  | .done y, .done y', q => Q y y' q
  | .yield y, .yield y', q => I y y' q ∧ p < q
  | _, _, _ => False

theorem repeatUpTo {round round' : β → Reader (ForInStep β)} {I Q : β → β → Nat → Prop}
    (hround : ∀ x x' q, p ≤ q → B.Inside e o b q → I x x' q →
      Twin B e c b o q (round x) (round' x') b o (Round I Q q))
    (n n' : Nat) (z z' : β) (q : Nat) (hpq : p ≤ q) (hn : B.wall < n + q) (hn' : B.wall < n' + q)
    (hz : I z z' q) :
    Twin B e c b o q (Grammar.repeatUpTo round n z) (Grammar.repeatUpTo round' n' z') b o Q := by
  induction n generalizing n' z z' q with
  | zero => exact intro fun h => absurd h.le_wall (by omega)
  | succ n ih =>
    cases n' with
    | zero => exact intro fun h => absurd h.le_wall (by omega)
    | succ n' =>
      refine intro fun inside => bind (hround z z' q hpq inside hz) fun r r' j hj _ hr => ?_
      cases r with
      | done w =>
        cases r' with
        | done w' => exact pure hr
        | yield w' => exact hr.elim
      | yield w =>
        cases r' with
        | done w' => exact hr.elim
        | yield w' =>
          have := hr.2
          exact ih n' w w' j (by omega) (by omega) (by omega) hr.1

/-- Rounds that keep an invariant, each of which but the last takes a token. -/
theorem repeated {round round' : β → Reader (ForInStep β)} {I Q : β → β → Nat → Prop} {z z' : β}
    (hround : ∀ x x' q, p ≤ q → B.Inside e o b q → I x x' q →
      Twin B e c b o q (round x) (round' x') b o (Round I Q q))
    (hz : I z z' p) :
    Twin B e c b o p (Grammar.repeated z round) (Grammar.repeated z' round') b o Q := by
  intro s s' m
  have le := m.inside.le_wall
  have := B.left_size
  have := B.right_size
  have run := repeatUpTo hround (B.left.input.tokens.size - s.cursor.position + 1)
    (B.right.input.tokens.size - s'.cursor.position + 1) z z' p (Nat.le_refl p)
    (by rw [m.left.position]; omega) (by rw [m.right.position]; omega) hz s s' m
  exact run

/-- Items, as many on both sides. -/
theorem collect [Alike α] {more : Reader Bool} [Quiet more] {test : Nat → Bool}
    {item item' : Reader (α × Bool)}
    (hmore : ∀ q, p ≤ q → Looks B more c b o q (test q))
    (hitem : ∀ q, p ≤ q → B.Inside e o b q → test q = true →
      Twin B e c b o q item item' b o fun r r' j => alike r r' ∧ q < j) :
    Twin B e c b o p (Grammar.collect more item) (Grammar.collect more item') b o Like := by
  have pushed {as as' : Array α} {a a' : α} (h : alike as.toList as'.toList) (ha : alike a a') :
      alike (as.push a).toList (as'.push a').toList := by
    rw [Array.toList_push, Array.toList_push]
    exact alike_append h (.cons ha .nil)
  have all : Twin B e c b o p (Grammar.repeated #[] (collectRound more item))
      (Grammar.repeated #[] (collectRound more item')) b o
      fun as as' _ => alike as.toList as'.toList := by
    refine repeated (I := fun as as' _ => alike as.toList as'.toList) (fun as as' q hpq inside h => ?_)
      List.Forall₂.nil
    refine looks (hmore q hpq) (ite (fun ht => ?_) fun _ => pure h)
    refine bind (hitem q hpq inside ht) fun r r' j _ _ hr => ?_
    obtain ⟨a, goOn⟩ := r
    obtain ⟨a', goOn'⟩ := r'
    obtain ⟨⟨ha, rfl⟩, lt⟩ := hr
    cases goOn with
    | true => exact pure ⟨pushed h ha, lt⟩
    | false => exact pure (pushed h ha)
  rw [collect_eq, collect_eq]
  exact map all fun as as' j h => h

theorem collectWhile [Alike α] {more : Reader Bool} [Quiet more] {test : Nat → Bool}
    {item item' : Reader α}
    (hmore : ∀ q, p ≤ q → Looks B more c b o q (test q))
    (hitem : ∀ q, p ≤ q → B.Inside e o b q → test q = true →
      Twin B e c b o q item item' b o fun a a' j => alike a a' ∧ q < j) :
    Twin B e c b o p (Grammar.collectWhile more item) (Grammar.collectWhile more item') b o Like :=
  collect hmore fun q hpq inside ht => bind (hitem q hpq inside ht) fun _ _ _ _ _ h =>
    pure ⟨⟨h.1, rfl⟩, h.2⟩

theorem commaList [Alike α] {t : Tag} (ht : stopTags.contains t = false ∨ ∃ q, t = .punct q)
    {item item' : Reader α}
    (hitem : ∀ q, p ≤ q → B.Inside e o b q →
      Twin B e c b o q item item' b o fun a a' j => alike a a' ∧ q < j) :
    Twin B e c b o p (Grammar.commaList t item) (Grammar.commaList t item') b o Like := by
  have plain : t ≠ .lineBreak ∧ t ≠ .eof := by
    rcases ht with ht | ⟨q, rfl⟩
    · exact Bridge.ne_of_stop ht
    · exact ⟨Tag.noConfusion, Tag.noConfusion⟩
  have row (q : Nat) (hpq : p ≤ q) (inside : B.Inside e o b q) :
      Twin B e c b o q (commaRow t item) (commaRow t item') b o fun r r' j => alike r r' ∧ q < j := by
    refine bind (hitem q hpq inside) fun a a' k _ _ ha => ?_
    refine bind (accept (by decide)) fun comma comma' j hj _ hcomma => ?_
    obtain ⟨rfl, -⟩ := hcomma
    refine looks (.isNotNext plain.1 plain.2) (ite (fun _ => ?_) fun _ => ?_)
    · have fails : Twin B e c b o j (Grammar.unexpected {.punct .comma, t} : Reader Unit)
          (Grammar.unexpected {.punct .comma, t}) b o fun _ _ _ => False := unexpected
      exact bind fails fun _ _ _ _ _ h => h.elim
    · exact pure ⟨⟨ha.1, rfl⟩, Nat.lt_of_lt_of_le ha.2 hj⟩
  rw [commaList_eq, commaList_eq]
  refine bind (collectWhile (fun _ _ => .isNotNext plain.1 plain.2)
    fun q hpq inside _ => row q hpq inside) fun rows rows' j _ _ h => pure ⟨alike_map_fst h, ?_⟩
  have flags := alike_map_snd h
  show (rows.getLast?.map Prod.snd).getD false = (rows'.getLast?.map Prod.snd).getD false
  rw [← List.getLast?_map, flags, List.getLast?_map]

theorem nestedList [Alike α] {t : Punct} {item item' : Reader α}
    (hitem : ∀ q, p ≤ q → B.Inside e o b q →
      Twin B e c.nested b o q item item' b o fun a a' j => alike a a' ∧ q < j) :
    Twin B e c b o p (Grammar.nestedList (.punct t) item) (Grammar.nestedList (.punct t) item') b o Like :=
  within (commaList (.inr ⟨t, rfl⟩) hitem)

end Twin

end Grammar

end Surface
