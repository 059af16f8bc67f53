import Surface.Proofs.Parsing.Leaves

/-!
# Items tile the stream

The items of a file follow each other, and each covers all tokens between the positions it was read
from and to, whether it could be read or was given up. No token is left between two items, so that
each lies in exactly one, up to the line breaks that separate items and the end.

Results:
* `ItemSpan`, `ItemAt.itemSpan`: what an item covers and which documentation it takes.
* `ItemsAt.increasing`, `ItemsAt.exists_covering`: items follow each other and leave nothing out.
* `GivesUp`, `givesUp_of_steady`: what is given up covers what has been read and what is skipped.
* `items_tile`: the items of whole texts.
-/

namespace Surface

/-! ## What an item covers -/

/-- An item that takes documentation: a declaration that could be read. -/
def Item.isDocumented : Item → Bool
  | .decl d => !d.isError
  | .stmt _ => false

namespace Grammar

variable {S : Setting} {docsFrom i j k : Nat} {a : Item} {as : List Item}

/-- An item covers the tokens between two positions, and the documentation it takes from an offset
on. -/
structure ItemSpan (S : Setting) (docsFrom i : Nat) (a : Item) (j : Nat) : Prop where
  lt : i < j
  from_le : docsFrom ≤ a.span.start
  start_le : a.span.start ≤ (S.span i).start
  stop : a.span.stop = (S.last j).stop
  docs : a.docs = if a.isDocumented then S.docs docsFrom i else []

theorem DeclAt.itemSpan {d : Decl} (o : S.Ordered) (hc : S.CommentsOrdered)
    (hle : docsFrom ≤ (S.span i).start) (hi : S.tag i ≠ .lineBreak) (h : DeclAt S docsFrom i d j) :
    ItemSpan S docsFrom i (.decl d) j := by
  obtain @⟨docs, as, k, f, _, s, hdocs, attrs, form, hs⟩ := h
  have same : S.docs docsFrom i = docs := o.docs_eq hdocs
  have lt : i < j := Nat.lt_of_le_of_lt attrs.le form.lt
  have last := o.le_last lt hi
  obtain ⟨start, stop, order⟩ := docs_from (hc.docs hle) (o.start_le_stop i) last.1 last.2
    (o.exact _ _ hs)
  refine ⟨lt, start, order.le, stop, ?_⟩
  have read : Item.isDocumented (.decl ⟨f, docs, as, s⟩) = true := by
    have := form.ne_error
    cases f <;> first | rfl | contradiction
  rw [read]
  exact same.symm

/-- An item without documentation. -/
theorem ItemSpan.of_bare (hle : docsFrom ≤ (S.span i).start) (lt : i < j)
    (span : a.span = ⟨(S.span i).start, (S.last j).stop⟩)
    (docs : a.docs = if a.isDocumented then S.docs docsFrom i else []) :
    ItemSpan S docsFrom i a j where
  lt := lt
  from_le := by rwa [span]
  start_le := Nat.le_of_eq (by rw [span])
  stop := by rw [span]
  docs := docs

/-- What was given up takes no documentation. -/
theorem itemSpan_of_skipped (o : S.Ordered) (hle : docsFrom ≤ (S.span i).start)
    (hi : S.tag i ≠ .lineBreak) (hend : S.tag i ≠ .eof) (lt : i < j)
    (hs : S.covers (skippedFrom (S.span i) (S.last j)) a.span) (plain : a.isDocumented = false)
    (none : a.docs = []) : ItemSpan S docsFrom i a j := by
  refine .of_bare hle lt ((o.exact _ _ hs).trans (o.skippedFrom_eq hi hend lt).2) ?_
  rw [none, plain]
  rfl

theorem StmtAt.span_eq {c : Context} {b : Bool} {t : Stmt} (o : S.Ordered)
    (hi : S.tag i ≠ .lineBreak) (h : StmtAt S c b i t j) :
    t.span = ⟨(S.span i).start, (S.last j).stop⟩ := by
  have last := o.le_last h.lt hi
  have merged := Span.merge_of_le last.1 last.2
  cases h <;> exact (o.exact _ _ ‹_›).trans merged

theorem ItemAt.itemSpan (o : S.Ordered) (hc : S.CommentsOrdered) (hle : docsFrom ≤ (S.span i).start)
    (hi : S.tag i ≠ .lineBreak) (hend : S.tag i ≠ .eof) (h : ItemAt S docsFrom i a j) :
    ItemSpan S docsFrom i a j := by
  cases h with
  | decl _ _ h _ => exact h.itemSpan o hc hle hi
  | stmt _ _ h _ => exact .of_bare hle h.lt (h.span_eq o hi) rfl
  | errorDecl _ _ lt hs => exact itemSpan_of_skipped o hle hi hend lt hs rfl rfl
  | errorStmt _ _ lt hs => exact itemSpan_of_skipped o hle hi hend lt hs rfl rfl

/-- An item covers every token between its positions. -/
theorem ItemSpan.covers (h : ItemSpan S docsFrom i a j) (o : S.Ordered) (hik : i ≤ k) (hkj : k < j)
    (hk : S.tag k ≠ .lineBreak) : a.span.containsSpan (S.span k) = true := by
  have := o.start_mono hik
  have := (o.le_last hkj hk).2
  have := h.start_le
  have := h.stop
  simp only [Span.containsSpan, Bool.and_eq_true, decide_eq_true_eq]
  omega

theorem ItemSpan.start_lt_stop (h : ItemSpan S docsFrom i a j) (o : S.Ordered)
    (hi : S.tag i ≠ .lineBreak) (hend : S.tag i ≠ .eof) : (S.span i).start < a.span.stop := by
  rw [h.stop]
  exact (o.skippedFrom_eq hi hend h.lt).1

/-! ## Items -/

/-- There is nothing but line breaks where line breaks are passed over. -/
theorem Setting.tag_of_lt_past (hjk : j ≤ k) (hk : k < S.past j) : S.tag k = .lineBreak := by
  revert hk
  unfold Setting.past
  fun_induction pastBreaks S.input.tokens j with
  | case1 j tag _ ih =>
    intro hk
    rcases Nat.lt_or_eq_of_le hjk with lt | rfl
    · exact ih lt hk
    · exact tag
  | case2 j _ =>
    intro hk
    omega

/-- No token stands behind the end. -/
theorem Setting.Ordered.tag_behind_end (o : S.Ordered) (hi : S.tag i = .eof) (hij : i ≤ j) :
    S.tag j = .eof := by
  by_contra hj
  exact absurd (o.lt_of_ne_eof hj hi) (Nat.not_lt.2 hij)

theorem ItemsAt.increasing (o : S.Ordered) (hc : S.CommentsOrdered) (h : ItemsAt S docsFrom i as)
    (hle : docsFrom ≤ (S.span i).start) (hi : S.tag i ≠ .lineBreak) (hj : S.tag j = .eof) :
    Increasing docsFrom (S.span j).stop (as.map Item.span) := by
  induction h with
  | @stop docsFrom i hend =>
    have same : S.span j = S.span i := by
      rcases Nat.le_total i j with le | le
      · exact (o.ended i hend).2 j le
      · exact ((o.ended j hj).2 i le).symm
    show docsFrom ≤ (S.span j).stop
    rw [same]
    exact Nat.le_trans hle (o.start_le_stop i)
  | @more docsFrom i a k as hend h _ ih =>
    have span := h.itemSpan o hc hle hi hend
    have rest := ih (o.last_stop_le_start (S.le_past k)) (S.tag_past k)
    rw [← span.stop] at rest
    exact ⟨span.from_le, Nat.lt_of_le_of_lt span.start_le (span.start_lt_stop o hi hend), rest⟩

/-- Every token from the first item on lies in some item, unless it is a line break or the end. -/
theorem ItemsAt.exists_covering (o : S.Ordered) (hc : S.CommentsOrdered)
    (h : ItemsAt S docsFrom i as) (hle : docsFrom ≤ (S.span i).start) (hi : S.tag i ≠ .lineBreak)
    (hik : i ≤ k) (hk : S.tag k ≠ .lineBreak) (hend : S.tag k ≠ .eof) :
    ∃ a ∈ as, a.span.containsSpan (S.span k) = true := by
  induction h with
  | stop ends => exact absurd (o.tag_behind_end ends hik) hend
  | @more docsFrom i a l as more h _ ih =>
    have span := h.itemSpan o hc hle hi more
    rcases Nat.lt_or_ge k l with lt | le
    · exact ⟨a, List.mem_cons_self, span.covers o hik lt hk⟩
    · have behind : S.past l ≤ k := by
        by_contra before
        exact hk (Setting.tag_of_lt_past le (Nat.not_le.1 before))
      obtain ⟨a', mem, covers⟩ := ih (o.last_stop_le_start (S.le_past l)) (S.tag_past l) behind
      exact ⟨a', List.mem_cons_of_mem _ mem, covers⟩

end Grammar

/-- Where items follow each other, a span that is not empty lies in one of them at most. -/
theorem filter_containsSpan {low high : Nat} {as : List Item} {s : Span}
    (h : Increasing low high (as.map Item.span)) (hs : s.start < s.stop) {a : Item} (ha : a ∈ as)
    (covers : a.span.containsSpan s = true) :
    as.filter (fun x => x.span.containsSpan s) = [a] := by
  have inside {x : Item} (hx : x.span.containsSpan s = true) :
      x.span.start ≤ s.start ∧ s.stop ≤ x.span.stop := by
    simpa only [Span.containsSpan, Bool.and_eq_true, decide_eq_true_eq] using hx
  induction as generalizing low with
  | nil => cases ha
  | cons x xs ih =>
    obtain ⟨_, _, rest⟩ := h
    have behind (y : Item) (hy : y ∈ xs) : x.span.stop ≤ y.span.start :=
      (rest.bounds (List.mem_map_of_mem hy)).1
    rcases List.mem_cons.1 ha with rfl | ha
    · have none : xs.filter (fun y => y.span.containsSpan s) = [] := by
        refine List.filter_eq_nil_iff.2 fun y hy hs' => ?_
        have := behind y hy
        have := inside covers
        have := inside hs'
        omega
      rw [List.filter_cons_of_pos (by exact covers), none]
    · have out : ¬ x.span.containsSpan s = true := by
        intro hx
        have := behind a ha
        have := inside covers
        have := inside hx
        omega
      rw [List.filter_cons_of_neg (by exact out), ih rest ha]

/-! ## Recovery -/

namespace Grammar

/-- Wherever a reader fails, what is given up covers every token from where it started to where
reading goes on, and reading does not go back. -/
def GivesUp {α : Type} (input : Input) (reader : Reader α) (boundary : TagSet) : Prop :=
  ∀ (s t : State) (e : SyntaxError) (skips : Bool), Coherent input s.cursor →
    reader input s = .error e t → ∃ span u,
      recover e (input.tokens.get s.cursor.position).span skips boundary input t = .ok span u
        ∧ t.cursor.position ≤ u.cursor.position
        ∧ ∀ k, s.cursor.position ≤ k → k < u.cursor.position → input.tokens.tag k ≠ .lineBreak →
          span.containsSpan (input.tokens.get k).span = true

theorem givesUp_of_steady {α : Type} {reader : Reader α} [Steady reader] {S : Setting}
    (o : S.Ordered) (boundary : TagSet) : GivesUp S.input reader boundary := by
  intro s t e skips coherent fails
  have steps := Steady.error fails
  refine ⟨_, _, recover_run .., ?_, fun k hk hku hbreak => ?_⟩
  · exact position_le_resumeAt S.input.tokens boundary 0 (skipping skips t.cursor)
  · -- the last token passed is the last one before the place where reading goes on
    have last : Coherent S.input ((skipping skips t.cursor).resume S.input.tokens boundary) :=
      coherent_resumeAt (c := skipping skips t.cursor) boundary 0 (steps.coherent coherent)
    have start : (S.span s.cursor.position).start ≤ (S.span k).start := o.start_mono hk
    have stop := (o.le_last hku hbreak).2
    have previous : ((skipping skips t.cursor).resume S.input.tokens boundary).previous
        = S.last ((skipping skips t.cursor).resume S.input.tokens boundary).position := last
    rw [previous]
    show (skippedFrom (S.span s.cursor.position) (S.last _)).containsSpan (S.span k) = true
    unfold skippedFrom
    simp only [Span.containsSpan, Bool.and_eq_true, decide_eq_true_eq]
    split
    · exact ⟨start, stop⟩
    · next nothing =>
      show (S.span s.cursor.position).start ≤ (S.span k).start
        ∧ (S.span k).stop ≤ (S.span s.cursor.position).start
      exact ⟨start, Nat.le_trans stop (Nat.not_lt.1 nothing)⟩

end Grammar

/-! ## Whole texts -/

open Grammar in
/-- The items of a text are derived from behind its first line up to its end. -/
theorem items_of_text (cs : List Char) (dialect : Dialect) :
    let S := Setting.ofText cs dialect ((parseChars cs dialect).errors ≠ [])
    let f := (parseChars cs dialect).file
    let start := (f.shebang.map fun l => l.span.stop).getD 0
    ItemsAt S start (S.past 0) f.items ∧ start ≤ (S.span (S.past 0)).start ∧ ∃ j, S.tag j = .eof := by
  intro S f start
  obtain ⟨line, items, ends⟩ := (parse_derives cs dialect).items
  have line : f.shebang = S.firstLine (lexChars cs .empty).shebang := line
  have start_eq : start = ((S.firstLine (lexChars cs .empty).shebang).map fun l => l.span.stop).getD 0 := by
    rw [← line]
  rw [start_eq]
  refine ⟨items, ?_, ends⟩
  have := (ofText_ordered cs dialect ((parseChars cs dialect).errors ≠ [])).start_mono (S.le_past 0)
  cases first : S.firstLine (lexChars cs .empty).shebang with
  | none => exact Nat.zero_le _
  | some l => exact Nat.le_trans (ofText_firstLine _ _ _ l first).2 this

open Grammar in
/-- The items of a text follow each other, and every token lies in exactly one of them, unless it is
a line break or the end, which is reached. Wherever an item or a statement of a block is given up,
what stands in its place covers all that has been read and all that is skipped, and nothing is read
again. -/
theorem items_tile (source : String) (dialect : Dialect) :
    let p := parseText source dialect
    let lexed := lex source .empty
    let input := Lexed.input lexed dialect
    Increasing 0 source.utf8ByteSize (p.file.items.map Item.span)
      ∧ (∀ t ∈ lexed.tokens.items, t.tag ≠ .lineBreak → t.tag ≠ .eof →
          ∃ a, p.file.items.filter (fun x => x.span.containsSpan t.span) = [a])
      ∧ (∃ f s, file lexed.shebang input (.start lexed.names) = .ok f s ∧ p.file = f
          ∧ s.cursor.tag lexed.tokens = .eof)
      ∧ (∀ asDecl docsFrom, GivesUp input (wholeItem asDecl docsFrom) itemBoundary)
      ∧ ∀ depth, GivesUp input (innerUpTo depth).wholeStmt stmtBoundary := by
  intro p lexed input
  let S := Setting.ofText source.toList dialect ((parseChars source.toList dialect).errors ≠ [])
  have o : S.Ordered := ofText_ordered ..
  have hc : S.CommentsOrdered := ofText_commentsOrdered ..
  obtain ⟨derived, first, j, hj⟩ := items_of_text source.toList dialect
  have order : Increasing _ (S.span j).stop (p.file.items.map Item.span) :=
    derived.increasing o hc first (S.tag_past 0) hj
  refine ⟨?_, fun t ht hbreak hend => ?_, ?_, fun _ _ => givesUp_of_steady o _,
    fun _ => givesUp_of_steady o _⟩
  · rw [show S.span j = .point _ from ofText_end _ _ _ hj] at order
    rw [← Text.byteLength_toList]
    exact order.lower (Nat.zero_le _)
  · obtain ⟨k, kind, span⟩ := Setting.exists_of_mem (S := S) ht
    have tag : S.tag k = t.tag := by
      rw [← S.tag_kind, kind]
      rfl
    rw [← tag] at hbreak hend
    have behind : S.past 0 ≤ k := by
      by_contra before
      exact hbreak (Setting.tag_of_lt_past (Nat.zero_le k) (Nat.not_le.1 before))
    obtain ⟨a, ha, covers⟩ := derived.exists_covering o hc first (S.tag_past 0) behind hbreak hend
    rw [← span]
    exact ⟨a, filter_containsSpan order (o.nonempty k hend) ha covers⟩
  · -- where nodes may be flawed, the run alone says that the end is reached
    let T := Setting.ofText source.toList dialect True
    obtain ⟨f, s, run, parsed⟩ := parse_runs lexed dialect
    have standing : Standing T .none false 0 (.start lexed.names) :=
      ⟨rfl, rfl, rfl, rfl, Nat.zero_le _⟩
    obtain ⟨i, ends, -, hi⟩ := file_yields_to_end _ _ f s standing run fun _ => trivial
    refine ⟨f, s, run, congrArg Parsed.file parsed, ?_⟩
    show T.input.tokens.tag s.cursor.position = .eof
    rw [ends.position]
    exact hi

end Surface
