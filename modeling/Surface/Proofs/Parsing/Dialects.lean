import Surface.Proofs.Parsing.Accounting
import Surface.Proofs.Parsing.Lookahead

/-!
# Mixed files extend scripts and files of declarations

A dialect that admits both declarations and statements sorts each item by a look at its first line. A
statement that is read whole is never taken for a declaration: it starts with none of the words of
declarations, and if it starts with a name, no equals sign stands in it outside of groups. A declaration
is always taken for one, unless it is a signature without attributes, which looks like an expression.
So where one of the narrow dialects reads a text without errors, the mixed one does, in the same run.

Results:
* `StmtAt.not_declAhead`, `DeclAt.declAhead`: what a look at the first line of an item sees.
* `item_inDialect`, `itemsRounds_inDialect`: an item and all items, read in another dialect.
* `mixed_files_extend`: what scripts and files of declarations accept, mixed files read the same.
-/

namespace Surface

/-- Whether an item is a signature without attributes, which looks like an expression. -/
def Item.isBareSignature : Item → Bool
  | .decl ⟨.signature _, _, [], _⟩ => true
  | _ => false

namespace Grammar

/-! ## What is seen ahead of an item -/

section

variable {S : Setting} {i j : Nat}

/-- Whether what starts at a position looks like a declaration. -/
def Setting.declAhead (S : Setting) (i : Nat) : Bool :=
  declOnlyTags.contains (S.tag i) || nameTags.contains (S.tag i) && S.ahead (.reserved .eq) i

theorem not_declOnly_of_pattern : ∀ {t : Tag}, patternTags.contains t = true →
    declOnlyTags.contains t = false := by
  decide

theorem not_declOnly_of_expr : ∀ {t : Tag}, exprTags.contains t = true ∨ t = .operator →
    declOnlyTags.contains t = false := by
  decide

/-- A statement that ends its line does not look like a declaration. -/
theorem StmtAt.not_declAhead {c : Context} {s : Stmt} (groups : S.input.groups = .ofTokens S.input.tokens)
    (ok : ¬ S.flawed) (h : StmtAt S c false i s j) (ends : stmtBoundary.contains (S.tag j) = true) :
    S.declAhead i = false := by
  have word {k : Keyword} (hi : S.tag i = .keyword k)
      (hk : declOnlyTags.contains (.keyword k) = false ∧ nameTags.contains (.keyword k) = false) :
      S.declAhead i = false := by
    unfold Setting.declAhead
    rw [hi, hk.1, hk.2]
    rfl
  -- what starts with no word of statements has no equals sign outside of groups
  have unbound (start : declOnlyTags.contains (S.tag i) = false)
      (clear : Clear S [.reserved .eq] i j) : S.declAhead i = false := by
    unfold Setting.declAhead
    rw [start, clear.not_ahead groups (.head _) ends, Bool.and_false]
    rfl
  cases h with
  | letIn hi _ _ _ _ => exact word hi (by decide)
  | conditional hi _ _ _ _ => exact word hi (by decide)
  | branches hi _ _ _ _ _ => exact word hi (by decide)
  | ask _ _ _ h hk h' _ =>
    refine unbound (not_declOnly_of_pattern h.starts) ?_
    exact .append (h.binds.mono (by decide)) (.append (.token (b := false) nofun hk (by decide))
      (.append (.past (by decide) _) ((h'.clear ok).mono (by decide))))
  | expr _ _ _ h _ =>
    exact unbound (not_declOnly_of_expr h.starts.tag) ((h.clear ok).mono (by decide))

theorem declOnly_of_type : ∀ {t : Tag}, typeTags.contains t = true → declOnlyTags.contains t = true := by
  decide

/-- A declaration that is no signature without attributes looks like one. -/
theorem DeclAt.declAhead {docsFrom : Nat} {d : Decl} (h : DeclAt S docsFrom i d j)
    (marked : (Item.decl d).isBareSignature = false) : S.declAhead i = true := by
  have word (start : declOnlyTags.contains (S.tag i) = true) : S.declAhead i = true := by
    unfold Setting.declAhead
    rw [start, Bool.true_or]
  obtain ⟨_, attrs, form, _⟩ := h
  cases attrs with
  | more h _ =>
    obtain ⟨hi, _, _, _⟩ := h
    exact word (by rw [hi]; decide)
  | stop _ =>
    cases form with
    | uses hi _ => exact word (by rw [hi]; decide)
    | command hi _ _ => exact word (by rw [hi]; decide)
    | type h =>
      obtain ⟨visible, sort, _, _, _, _⟩ := h
      cases visible with
      | some hv _ => exact word (declOnly_of_type (typeTags_of_visibility hv))
      | none _ => exact word (declOnly_of_type (typeTags_of_typeSort sort))
    | clause name found _ =>
      unfold Setting.declAhead
      rw [name, found, Bool.and_true, Bool.or_true]
    | signature _ _ _ => cases marked

end

/-! ## Items in another dialect -/

/-- What the next item is read as, in full. -/
theorem isDeclNext_eq (i : Input) (s : State) : isDeclNext i s = .ok (!i.dialect.statements
    || i.dialect.declarations && (declOnlyTags.contains (s.cursor.tag i.tokens)
      || nameTags.contains (s.cursor.tag i.tokens)
        && occursBeforeBreak i.tokens i.groups (.reserved .eq) s.cursor.position)) s := by
  unfold isDeclNext
  rw [bind_of_ok (read_run i s)]
  cases i.dialect.statements with
  | false => rfl
  | true =>
    cases i.dialect.declarations with
    | false => rfl
    | true =>
      show (isNextIn declOnlyTags >>= fun only => if only = true then pure true else _) i s = _
      rw [bind_of_ok (isNextIn_run ..)]
      cases declOnlyTags.contains (s.cursor.tag i.tokens) with
      | true => rfl
      | false =>
        show (isNameNext >>= fun name => _) i s = _
        rw [bind_of_ok (isNameNext_run i s)]
        cases nameTags.contains (s.cursor.tag i.tokens) <;> rfl

/-- A dialect admits something as an item. -/
def AdmitsItems (d : Dialect) : Prop := d.declarations = true ∨ d.statements = true

/-- Two dialects that differ at most in what they admit as an item, and admit some. -/
structure Sibling (d d' : Dialect) : Prop where
  docs : d'.docs = d.docs
  shebang : d'.shebang = d.shebang
  admits : AdmitsItems d
  admits' : AdmitsItems d'

variable {i : Input} {s t : State} {d : Dialect}

theorem wholeItem_inDialect (h : Sibling i.dialect d) (asDecl : Bool) (docsFrom : Nat) (s : State) :
    wholeItem asDecl docsFrom (i.inDialect d) s = wholeItem asDecl docsFrom i s := by
  have rest : Indifferent (do
      let item ← if asDecl then .decl <$> decl docsFrom else .stmt <$> stmt
      if ← isNextIn itemBoundary then return item else unexpected itemBoundary : Reader Item) :=
    inferInstance
  have some {j : Input} (hj : AdmitsItems j.dialect) : wholeItem asDecl docsFrom j s = (do
      let item ← if asDecl then .decl <$> decl docsFrom else .stmt <$> stmt
      if ← isNextIn itemBoundary then return item else unexpected itemBoundary : Reader Item) j s := by
    have admits : (!j.dialect.declarations && !j.dialect.statements) = false := by
      rcases hj with h | h <;> simp [h]
    unfold wholeItem
    rw [bind_of_ok (read_run j s), admits]
    rfl
  rw [some h.admits, some (show AdmitsItems (i.inDialect d).dialect from h.admits')]
  exact rest.inDialect h.docs s

/-- An item that is read as the same sort in two dialects is read the same. -/
theorem item_inDialect (h : Sibling i.dialect d) (docsFrom : Nat)
    (same : isDeclNext (i.inDialect d) s = isDeclNext i s) :
    item docsFrom (i.inDialect d) s = item docsFrom i s := by
  have given (asDecl : Bool) (start : Span) (skips : Bool) (e : SyntaxError) : Indifferent (do
      errorItem asDecl (← recover e start skips itemBoundary)) := inferInstance
  have run := isDeclNext_eq i s
  have run' := same.trans run
  unfold item
  rw [bind_of_ok (nextSpan_run ..), bind_of_ok (nextSpan_run ..), bind_of_ok (cursor_run ..),
    bind_of_ok (cursor_run ..), bind_of_ok run, bind_of_ok run', orElse_run, orElse_run,
    wholeItem_inDialect h]
  cases wholeItem _ docsFrom i s with
  | ok a t => rfl
  | error e t => exact (given _ _ _ e).inDialect h.docs t

/-! ## Files in another dialect -/

section

variable {S : Setting} {p : Nat}

/-- Every item that is derived at a position from which `Q` holds of it is read as the same sort in
both dialects. -/
def SortsAlike (S : Setting) (d : Dialect) (Q : Item → Prop) : Prop :=
  ∀ docsFrom p a j s, Standing S .none false p s → ItemAt S docsFrom p a j → Q a →
    isDeclNext (S.input.inDialect d) s = isDeclNext S.input s

/-- Items that are read without errors, and sorted alike in both dialects, are read the same. -/
theorem itemsRounds_inDialect {Q : Item → Prop} (h : Sibling S.input.dialect d)
    (alike : SortsAlike S d Q) {n : Nat} {z r : Array Item × Nat} (hs : Standing S .none false p s)
    (hp : S.past p = p) (run : repeatUpTo itemsRound n z S.input s = .ok r t) (fine : Fine S t)
    (all : ∀ a ∈ r.1.toList, Q a) :
    repeatUpTo itemsRound n z (S.input.inDialect d) s = .ok r t := by
  induction n generalizing z s p with
  | zero => exact run
  | succ n ih =>
    rw [repeatUpTo] at run ⊢
    by_cases ended : s.cursor.tag S.input.tokens = .eof
    · have ended' : s.cursor.tag (S.input.inDialect d).tokens = .eof := ended
      rw [bind_of_ok (itemsRound_of_eof ended)] at run
      rw [bind_of_ok (itemsRound_of_eof ended')]
      exact run
    · obtain ⟨a, u, read⟩ := item_total z.2 S.input s
      have round := itemsRound_of_item ended read (skipBreaks_run S.input u)
      rw [bind_of_ok round] at run
      change repeatUpTo itemsRound n _ S.input (u.moved _) = .ok r t at run
      have fine_u : Fine S u := fun some => (fine.before run : Fine S (u.moved _)) some
      have tag : S.tag p ≠ .eof := by
        rw [← hs.tag_eq]
        exact ended
      obtain ⟨j, stands, derived⟩ := item_yields z.2 hp tag s a u hs read fine_u
      obtain ⟨as, e, -⟩ := itemsRounds_filed accounts run
      have admitted : Q a := all a (by rw [e]; simp)
      have read' : item z.2 (S.input.inDialect d) s = .ok a u :=
        (item_inDialect h z.2 (alike _ _ _ _ _ hs derived admitted)).trans read
      have round' := itemsRound_of_item (i := S.input.inDialect d) ended read'
        (skipBreaks_run (S.input.inDialect d) u)
      rw [bind_of_ok round']
      exact ih (stands.skipBreaks) (S.past_past j) run

/-- The first line is read the same in both dialects, and reading it moves nothing. -/
theorem shebang_inDialect {i : Input} {line l : Option Shebang} (h : d.shebang = i.dialect.shebang)
    (run : shebang line i s = .ok l t) :
    shebang line (i.inDialect d) s = .ok l t ∧ t.cursor = s.cursor ∧ t.context = s.context := by
  cases line with
  | none =>
    cases run
    exact ⟨rfl, rfl, rfl⟩
  | some first =>
    obtain ⟨_, _, ⟨⟩, run⟩ := bind_ok.1 run
    have same : (i.inDialect d).dialect.shebang = i.dialect.shebang := h
    unfold shebang
    dsimp only
    rw [bind_of_ok (read_run ..), same]
    rw [ite_run] at run ⊢
    refine ⟨run, ?_⟩
    split at run <;> cases run <;> exact ⟨rfl, rfl⟩

/-- A file that is read without errors, with items that are sorted alike in both dialects, is read the
same. -/
theorem file_inDialect {Q : Item → Prop} (h : Sibling S.input.dialect d) (alike : SortsAlike S d Q)
    {line : Option Shebang} {f : SourceFile} (hs : Standing S .none false 0 s)
    (run : file line S.input s = .ok f t) (fine : Fine S t) (all : ∀ a ∈ f.items, Q a) :
    file line (S.input.inDialect d) s = .ok f t := by
  obtain ⟨l, u, first, run⟩ := bind_ok.1 run
  obtain ⟨first', cursor, context⟩ := shebang_inDialect h.shebang first
  have stands : Standing S .none false 0 u :=
    ⟨context.trans hs.context, cursor ▸ hs.skips, cursor ▸ hs.position, cursor ▸ hs.previous, hs.inside⟩
  rw [bind_of_ok (skipBreaks_run ..)] at run
  obtain ⟨as, v, read, run⟩ := bind_ok.1 run
  obtain ⟨r, w, rounds, rest⟩ := bind_ok.1 read
  cases rest
  cases run
  have rounds' := itemsRounds_inDialect h alike stands.skipBreaks (S.past_past 0) rounds fine all
  have read' : items ((l.map fun l => l.span.stop).getD 0) (S.input.inDialect d)
      (u.moved (u.cursor.skipBreaks S.input.tokens)) = .ok r.1.toList t :=
    bind_ok.2 ⟨r, t, rounds', rfl⟩
  unfold file
  rw [bind_of_ok first', bind_of_ok (skipBreaks_run ..)]
  exact bind_of_ok read'

/-- What a look ahead settles at a position. -/
theorem Standing.isDeclNext (hs : Standing S .none false p s) (d : Dialect) :
    isDeclNext (S.input.inDialect d) s
      = .ok (!d.statements || d.declarations && S.declAhead p) s := by
  have looks := isDeclNext_eq (S.input.inDialect d) s
  have tag : s.cursor.tag (S.input.inDialect d).tokens = S.tag p := hs.tag_eq
  rw [tag, hs.position] at looks
  exact looks

/-- The items of scripts are sorted alike in mixed files. -/
theorem scripts_sortAlike (groups : S.input.groups = .ofTokens S.input.tokens) (ok : ¬ S.flawed)
    (hd : S.input.dialect.declarations = false ∧ S.input.dialect.statements = true)
    (hd' : d.declarations = true ∧ d.statements = true) : SortsAlike S d fun _ => True := by
  intro docsFrom p a j s hs derived _
  have narrow := hs.isDeclNext S.input.dialect
  refine (hs.isDeclNext d).trans (Eq.trans ?_ narrow.symm)
  have statement : S.declAhead p = false := by
    cases derived with
    | decl _ admitted _ _ => exact absurd admitted (by rw [hd.1]; exact Bool.false_ne_true)
    | stmt _ _ h ends => exact h.not_declAhead groups ok (stmtBoundary_of_item ends)
    | errorDecl flawed _ _ _ | errorStmt flawed _ _ _ => exact absurd flawed ok
  rw [statement, hd.1, hd.2, hd'.1, hd'.2]
  rfl

/-- The items of files of declarations are sorted alike in mixed files, signatures without attributes
apart. -/
theorem declarations_sortAlike (ok : ¬ S.flawed)
    (hd : S.input.dialect.declarations = true ∧ S.input.dialect.statements = false)
    (hd' : d.declarations = true ∧ d.statements = true) : SortsAlike S d fun a =>
      a.isBareSignature = false := by
  intro docsFrom p a j s hs derived marked
  have narrow := hs.isDeclNext S.input.dialect
  refine (hs.isDeclNext d).trans (Eq.trans ?_ narrow.symm)
  have declaration : S.declAhead p = true := by
    cases derived with
    | decl _ _ h _ => exact h.declAhead marked
    | stmt _ admitted _ _ => exact absurd admitted (by rw [hd.2]; exact Bool.false_ne_true)
    | errorDecl flawed _ _ _ | errorStmt flawed _ _ _ => exact absurd flawed ok
  rw [declaration, hd.1, hd.2, hd'.1, hd'.2]
  rfl

end

/-- A text that a dialect reads without errors, with items that are sorted alike in another one, is
read the same in that one. -/
theorem parseText_inDialect {source : String} {d d' : Dialect} {Q : Item → Prop} (h : Sibling d d')
    (alike : SortsAlike (Setting.ofText source.toList d False) d' Q)
    (accepted : (parseText source d).errors = []) (all : ∀ a ∈ (parseText source d).file.items, Q a) :
    parseText source d' = parseText source d := by
  obtain ⟨f, t, run, parsed⟩ := parse_runs (lex source .empty) d
  have parsed : parseText source d = _ := parsed
  obtain ⟨f', t', run', parsed'⟩ := parse_runs (lex source .empty) d'
  have parsed' : parseText source d' = _ := parsed'
  have fine : Fine (Setting.ofText source.toList d False) t := by
    intro some
    rw [parsed] at accepted
    have none := congrArg List.length accepted
    rw [Array.length_toList] at none
    exact absurd none (Nat.ne_of_gt some)
  have stands : Standing (Setting.ofText source.toList d False) .none false 0
      (.start (lex source .empty).names) := ⟨rfl, rfl, rfl, rfl, Nat.zero_le _⟩
  have same := file_inDialect h alike stands run fine (by rw [parsed] at all; exact all)
  cases run'.symm.trans same
  rw [parsed, parsed']

end Grammar

open Grammar

/-- What one of the narrow dialects accepts, mixed files accept as well and read the same: every script,
and every file of declarations in which no item is a signature without attributes. -/
theorem mixed_files_extend (source : String) (docs shebang : Bool) :
    let mixed := parseText source ⟨true, true, docs, shebang⟩
    let script := parseText source ⟨false, true, docs, shebang⟩
    let decls := parseText source ⟨true, false, docs, shebang⟩
    (script.errors = [] → mixed.errors = [] ∧ mixed.tree = script.tree)
      ∧ (decls.errors = [] → (∀ a ∈ decls.file.items, a.isBareSignature = false) →
        mixed.errors = [] ∧ mixed.tree = decls.tree) := by
  intro mixed script decls
  refine ⟨fun accepted => ?_, fun accepted marked => ?_⟩
  · have siblings : Sibling ⟨false, true, docs, shebang⟩ ⟨true, true, docs, shebang⟩ :=
      ⟨rfl, rfl, .inr rfl, .inr rfl⟩
    have same : mixed = script :=
      parseText_inDialect siblings (scripts_sortAlike rfl id ⟨rfl, rfl⟩ ⟨rfl, rfl⟩) accepted
        fun _ _ => trivial
    rw [same]
    exact ⟨accepted, rfl⟩
  · have siblings : Sibling ⟨true, false, docs, shebang⟩ ⟨true, true, docs, shebang⟩ :=
      ⟨rfl, rfl, .inl rfl, .inl rfl⟩
    have same : mixed = decls :=
      parseText_inDialect siblings (declarations_sortAlike id ⟨rfl, rfl⟩ ⟨rfl, rfl⟩) accepted
        marked
    rw [same]
    exact ⟨accepted, rfl⟩

/-- A statement that asks and one on two lines, a clause and a signature with an attribute. -/
theorem mixed_files_extend_both :
    (parseText "x <- f\ny +\n  z" .scripts).errors = []
      ∧ (parseText "x <- f\ny +\n  z" ⟨true, true, false, true⟩).tree
        = (parseText "x <- f\ny +\n  z" .scripts).tree
      ∧ (parseText "f (x) = y\n@a g : T" .declarationFiles).errors = []
      ∧ (parseText "f (x) = y\n@a g : T" .mixedFiles).tree
        = (parseText "f (x) = y\n@a g : T" .declarationFiles).tree := by
  have script : (parseText "x <- f\ny +\n  z" .scripts).errors = [] := by decide +kernel
  have decls : (parseText "f (x) = y\n@a g : T" .declarationFiles).errors = [] := by decide +kernel
  have marked : ∀ a ∈ (parseText "f (x) = y\n@a g : T" .declarationFiles).file.items,
      a.isBareSignature = false := by decide +kernel
  exact ⟨script, ((mixed_files_extend _ false true).1 script).2, decls,
    ((mixed_files_extend _ true true).2 decls marked).2⟩

end Surface
