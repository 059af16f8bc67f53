import Surface.Grammar.File
import Surface.Proofs.Names.Streams
import Surface.Proofs.Names.Tables
import Surface.Proofs.Reader.Run
import Surface.Syntax.Renamed

/-!
# Reading numbers and reading spellings

A judgment about two readers, one of streams whose names are numbers and one of streams whose names
are spellings: when the numbers stand for spellings of the name table, the second does on the
spellings what the first does on the numbers. The numbers are looked up in the table the first ends
with; that tables only grow is part of the judgment. It is closed under every way readers are put
together.

Results:
* `Input.map`, `State.map`, `Ending.map`: what a reader is given and what it comes to, under other
  names.
* `Resolves`: the judgment; `Resolves.bind`, `Resolves.within`, ...: readers put together.
* `Resolves.enterName`, `Resolves.isLambdaNext`: the two readers that ask the name table.
-/

namespace Surface

/-- An error is in the same place and says the same under other names. -/
theorem SyntaxError.atToken_map {ν μ : Type} (f : ν → μ) (t : Token ν) (problem : Tag → Problem) :
    atToken (t.map f) problem = atToken t problem := by
  obtain ⟨kind, span, spacing⟩ := t
  cases kind <;> rfl

namespace Grammar

variable {α α' β β' ν μ : Type}

/-! ## Under other names -/

/-- What is read, under other names. -/
def Input.map (f : ν → μ) (i : Input ν) : Input μ :=
  ⟨i.tokens.map f, i.groups, i.comments.map f, i.dialect⟩

/-- The state of reading under other names. The name table is the same. -/
def State.map (f : ν → μ) (s : State ν) : State μ :=
  ⟨s.cursor, s.context, s.nodes.map f, s.errors, s.names⟩

/-- What a run comes to: a result or an error, and a state. -/
abbrev Ending (ν α : Type) := EStateM.Result SyntaxError (State ν) α

namespace Ending

/-- The state a run ends in. -/
def state : Ending ν α → State ν
  | .ok _ s => s
  | .error _ s => s

/-- What a run comes to under other names, given what becomes of its result. -/
def map (f : ν → μ) (F : α → β) : Ending ν α → Ending μ β
  | .ok a s => .ok (F a) (s.map f)
  | .error e s => .error e (s.map f)

end Ending

/-! ## Where a lambda starts -/

/-- Whether a token of this kind starts a lambda, its name being looked up. -/
def barsIn [Naming ν] (names : NameTable) : TokenKind ν → Bool
  | .reserved .pipe => true
  | .operator symbols => Naming.spell names symbols == "||"
  | _ => false

theorem isLambdaNext_eq [Naming ν] (i : Input ν) (s : State ν) :
    Inner.isLambdaNext i s = .ok (barsIn s.names (i.tokens.get s.cursor.position).kind) s := by
  unfold Inner.isLambdaNext
  rw [bind_of_ok (nextToken_run i s)]
  generalize (i.tokens.get s.cursor.position).kind = kind
  cases kind with
  | reserved r => cases r <;> rfl
  | _ => rfl

/-! ## The judgment -/

/-- The second reader does on spellings what the first does on numbers: once the numbers are looked
up, its result is the image of the first one's. -/
structure Resolves (f : Handle → String) (F : α → β) (x : ReaderOf Handle α) (y : Reader β) : Prop where
  grows : ∀ (i : Input Handle) (s : State Handle), s.names.GrowsTo (Ending.state (x i s)).names
  reads : ∀ (i : Input Handle) (s : State Handle), i.tokens.HeldBy s.names →
    Denotes f (Ending.state (x i s)).names → y (i.map f) (s.map f) = Ending.map f F (x i s)

namespace Resolves

variable {f : Handle → String} {F : α → α'} {G : β → β'}

/-- Readers that leave the state as it is. -/
theorem look {x : ReaderOf Handle α} {y : Reader α'} {v : Input Handle → State Handle → α}
    {w : Input → State → α'} (hx : ∀ i s, x i s = .ok (v i s) s) (hy : ∀ i s, y i s = .ok (w i s) s)
    (same : ∀ i s, w (i.map f) (s.map f) = F (v i s)) : Resolves f F x y where
  grows i s := by
    rw [hx]
    exact .refl _
  reads i s _ _ := by
    rw [hx, hy, same]
    rfl

theorem pure {a : α} {b : α'} (h : b = F a) : Resolves f F (pure a) (pure b) :=
  .look (fun _ _ => rfl) (fun _ _ => rfl) fun _ _ => h

theorem throw (e : SyntaxError) : Resolves f F (throw e) (throw e) where
  grows _ _ := .refl _
  reads _ _ _ _ := rfl

theorem bind {x : ReaderOf Handle α} {y : Reader α'} {g : α → ReaderOf Handle β}
    {h : α' → Reader β'} (first : Resolves f F x y) (second : ∀ a, Resolves f G (g a) (h (F a))) :
    Resolves f G (x >>= g) (y >>= h) where
  grows i s := by
    have grows := first.grows i s
    rw [bind_run]
    cases run : x i s with
    | ok a t =>
      rw [run] at grows
      exact grows.trans ((second a).grows i t)
    | error e t =>
      rw [run] at grows
      exact grows
  reads i s held := by
    have grows := first.grows i s
    have reads := first.reads i s held
    rw [bind_run, bind_run]
    cases run : x i s with
    | ok a t =>
      rw [run] at grows reads
      intro denotes
      have before : Denotes f t.names := Denotes.of_growsTo denotes ((second a).grows i t)
      rw [reads before]
      exact (second a).reads i t (held.of_growsTo grows) denotes
    | error e t =>
      rw [run] at reads
      intro denotes
      rw [reads denotes]
      rfl

/-- Where the first reader only tells something that is the same under other names. -/
theorem looks {x : ReaderOf Handle α} {y : Reader α} {g : α → ReaderOf Handle β} {h : α → Reader β'}
    (first : Resolves f id x y) (second : ∀ a, Resolves f G (g a) (h a)) :
    Resolves f G (x >>= g) (y >>= h) := first.bind second

theorem map {x : ReaderOf Handle α} {y : Reader α'} {g : α → β} {h : α' → β'}
    (reads : Resolves f F x y) (same : ∀ a, h (F a) = G (g a)) : Resolves f G (g <$> x) (h <$> y) := by
  rw [← bind_pure_comp, ← bind_pure_comp]
  exact reads.bind fun a => .pure (same a)

theorem ite {p : Prop} [Decidable p] {x x' : ReaderOf Handle α} {y y' : Reader α'}
    (h : p → Resolves f F x y) (h' : ¬p → Resolves f F x' y') :
    Resolves f F (if p then x else x') (if p then y else y') := by
  by_cases hp : p
  · rw [if_pos hp, if_pos hp]
    exact h hp
  · rw [if_neg hp, if_neg hp]
    exact h' hp

/-- A change of the cursor that is the same under other names. -/
theorem moveCursor {g : Tokens Handle → Cursor → Cursor} {h : Tokens → Cursor → Cursor}
    (same : ∀ ts c, h (ts.map f) c = g ts c) : Resolves f id (moveCursor g) (moveCursor h) where
  grows _ _ := .refl _
  reads i s _ _ := by
    show EStateM.Result.ok () { s.map f with cursor := h (i.tokens.map f) s.cursor } = _
    rw [same]
    rfl

theorem report (e : SyntaxError) : Resolves f id
    (modify fun s : State Handle => { s with errors := s.errors.push e })
    (modify fun s : State => { s with errors := s.errors.push e }) where
  grows _ _ := .refl _
  reads _ _ _ _ := rfl

/-! ## Looking at the next token -/

theorem read : Resolves f (Input.map f) read read :=
  .look (fun _ _ => rfl) (fun _ _ => rfl) fun _ _ => rfl

theorem cursor : Resolves f id cursor cursor := .look cursor_run cursor_run fun _ _ => rfl

theorem context : Resolves f id context context := .look context_run context_run fun _ _ => rfl

theorem nextToken : Resolves f (Token.map f) nextToken nextToken :=
  .look nextToken_run nextToken_run fun i s => i.tokens.get_map f s.cursor.position

theorem nextSpan : Resolves f id nextSpan nextSpan :=
  .look nextSpan_run nextSpan_run fun i s => congrArg Token.span (i.tokens.get_map f s.cursor.position)

theorem nextTag : Resolves f id nextTag nextTag :=
  .look nextTag_run nextTag_run fun i s => s.cursor.tag_map f i.tokens

theorem tagBehind : Resolves f id tagBehind tagBehind :=
  .look tagBehind_run tagBehind_run fun i s => i.tokens.tag_map f (s.cursor.position + 1)

theorem previousSpan : Resolves f id previousSpan previousSpan :=
  .look previousSpan_run previousSpan_run fun _ _ => rfl

theorem isNext (t : Tag) : Resolves f id (isNext t) (isNext t) := nextTag.looks fun _ => .pure rfl

theorem isNotNext (t : Tag) : Resolves f id (isNotNext t) (isNotNext t) :=
  (isNext t).looks fun _ => .pure rfl

theorem isNextIn (ts : TagSet) : Resolves f id (isNextIn ts) (isNextIn ts) :=
  nextTag.looks fun _ => .pure rfl

theorem isNameNext : Resolves f id isNameNext isNameNext := isNextIn nameTags

theorem isSegmentNext : Resolves f id isSegmentNext isSegmentNext :=
  (isNext _).looks fun _ => tagBehind.looks fun _ => .pure rfl

theorem isNextPastBreak (t : Tag) : Resolves f id (isNextPastBreak t) (isNextPastBreak t) :=
  (isNext _).looks fun _ => .ite (fun _ => tagBehind.looks fun _ => .pure rfl) fun _ => isNext t

theorem isAhead (t : Tag) : Resolves f id (isAhead t) (isAhead t) :=
  .look (isAhead_run t) (isAhead_run t) fun i s =>
    occursBeforeBreak_map f i.tokens i.groups t s.cursor.position

theorem isBinderNext : Resolves f id isBinderNext isBinderNext :=
  .look isBinderNext_run isBinderNext_run fun i s =>
    arrowFollowsGroup_map f i.tokens i.groups s.cursor.skipsBreaks s.cursor.position

theorem isInBraces : Resolves f id Inner.isInBraces Inner.isInBraces :=
  (isNotNext _).looks fun _ => (isNotNext _).looks fun _ => .pure rfl

/-! ## Taking tokens -/

theorem take : Resolves f (Token.map f) take take :=
  nextToken.bind fun _ => (moveCursor fun ts c => c.step_map f ts).looks fun _ => .pure rfl

theorem skipBreaks : Resolves f id skipBreaks skipBreaks :=
  .moveCursor fun ts c => c.skipBreaks_map f ts

theorem setSkipsBreaks (b : Bool) : Resolves f id (setSkipsBreaks b) (setSkipsBreaks b) :=
  .moveCursor fun _ _ => rfl

theorem takeIf (t : Tag) : Resolves f id (takeIf t) (takeIf t) :=
  (isNext t).looks fun _ => .ite (fun _ => take.bind fun _ => .pure rfl) fun _ => .pure rfl

theorem accept (t : Tag) : Resolves f id (accept t) (accept t) := (takeIf t).looks fun _ => .pure rfl

/-! ## Failing -/

theorem failWith (problem : Tag → Problem) : Resolves f F (failWith problem) (failWith problem) :=
  nextToken.bind fun t => by
    rw [SyntaxError.atToken_map]
    exact .throw _

theorem unexpected (expected : TagSet) : Resolves f F (unexpected expected) (unexpected expected) :=
  failWith _

theorem absent (what : Wanted) : Resolves f F (absent what) (absent what) := failWith _

theorem expect (t : Tag) : Resolves f id (expect t) (expect t) :=
  (takeIf t).looks fun taken => by
    cases taken with
    | some span => exact .pure rfl
    | none => exact unexpected {t}

/-! ## Contexts, constructs and recovery -/

section

variable {x : ReaderOf Handle α} {y : Reader α'}

theorem within (derive : Context → Context) (h : Resolves f F x y) :
    Resolves f F (within derive x) (within derive y) where
  grows i s := by
    have grows := h.grows i (s.inContext (derive s.context))
    rw [within_run]
    cases run : x i (s.inContext (derive s.context)) <;> rw [run] at grows <;> exact grows
  reads i s held := by
    have reads := h.reads i (s.inContext (derive s.context)) held
    rw [within_run, within_run, show (s.map f).inContext (derive (s.map f).context)
      = (s.inContext (derive s.context)).map f from rfl]
    cases run : x i (s.inContext (derive s.context)) <;> rw [run] at reads <;> intro denotes <;>
      rw [reads denotes] <;> rfl

theorem inConstruct (form : Construct) (h : Resolves f F x y) :
    Resolves f F (inConstruct form x) (inConstruct form y) where
  grows i s := by
    have grows := h.grows i s
    unfold Grammar.inConstruct
    cases run : x i s <;> rw [run] at grows <;> exact grows
  reads i s held := by
    have reads := h.reads i s held
    unfold Grammar.inConstruct
    cases run : x i s <;> rw [run] at reads <;> intro denotes <;> rw [reads denotes] <;> rfl

theorem orElse {replace : SyntaxError → ReaderOf Handle α} {replace' : SyntaxError → Reader α'}
    (h : Resolves f F x y) (h' : ∀ e, Resolves f F (replace e) (replace' e)) :
    Resolves f F (orElse x replace) (orElse y replace') where
  grows i s := by
    have grows := h.grows i s
    rw [orElse_run]
    cases run : x i s with
    | ok a t =>
      rw [run] at grows
      exact grows
    | error e t =>
      rw [run] at grows
      exact grows.trans ((h' e).grows i t)
  reads i s held := by
    have grows := h.grows i s
    have reads := h.reads i s held
    rw [orElse_run, orElse_run]
    cases run : x i s with
    | ok a t =>
      rw [run] at reads
      intro denotes
      rw [reads denotes]
      rfl
    | error e t =>
      rw [run] at grows reads
      intro denotes
      have before : Denotes f t.names := Denotes.of_growsTo denotes ((h' e).grows i t)
      rw [reads before]
      exact (h' e).reads i t (held.of_growsTo grows) denotes

end

theorem recover (e : SyntaxError) (start : Span) (skips : Bool) (boundary : TagSet) :
    Resolves f id (recover e start skips boundary) (recover e start skips boundary) :=
  (report e).looks fun _ =>
    (setSkipsBreaks skips).looks fun _ =>
      (moveCursor fun ts c => c.resume_map f ts boundary).looks fun _ =>
        previousSpan.looks fun _ => .pure rfl

/-! ## Finishing nodes -/

theorem newExpr {span : Span} {form : Mark → Expr Handle} {form' : Mark → Expr}
    (same : ∀ m, form' m = (form m).map f) :
    Resolves f (Expr.map f) (newExpr span form) (newExpr span form') where
  grows _ _ := .refl _
  reads i s _ _ := by
    rw [newExpr_run, newExpr_run, same]
    simp only [Ending.map, State.map, NodeLog.map, Array.size_map, Array.map_push]

theorem newPattern {span : Span} {form : Mark → Pattern Handle} {form' : Mark → Pattern}
    (same : ∀ m, form' m = (form m).map f) :
    Resolves f (Pattern.map f) (newPattern span form) (newPattern span form') where
  grows _ _ := .refl _
  reads i s _ _ := by
    rw [newPattern_run, newPattern_run, same]
    simp only [Ending.map, State.map, NodeLog.map, Array.size_map, Array.map_push]

theorem newStmt {span : Span} {form : Mark → Stmt Handle} {form' : Mark → Stmt}
    (same : ∀ m, form' m = (form m).map f) :
    Resolves f (Stmt.map f) (newStmt span form) (newStmt span form') where
  grows _ _ := .refl _
  reads i s _ _ := by
    rw [newStmt_run, newStmt_run, same]
    simp only [Ending.map, State.map, NodeLog.map, Array.size_map, Array.map_push]

/-! ## Groups -/

theorem openGroup : Resolves f id openGroup openGroup :=
  (isNext _).looks fun _ => cursor.looks fun _ => (setSkipsBreaks true).looks fun _ =>
    take.bind fun _ => .pure rfl

theorem openBrace : Resolves f id openBrace openBrace :=
  cursor.looks fun _ => (setSkipsBreaks false).looks fun _ => take.bind fun _ => .pure rfl

theorem closeGroup (group : Opened) : Resolves f id (closeGroup group) (closeGroup group) := by
  unfold Grammar.closeGroup
  refine .ite (fun _ => skipBreaks.looks fun _ => ?_) fun _ => ?_
  all_goals
    refine (setSkipsBreaks group.skipped).looks fun _ => (takeIf _).looks fun taken => ?_
    cases taken with
    | some stop => exact .pure rfl
    | none => exact failWith _

/-! ## Sequences -/

/-- What a round comes to, under other names. -/
def stepMap (F : β → β') : ForInStep β → ForInStep β'
  | .done b => .done (F b)
  | .yield b => .yield (F b)

theorem repeatUpTo {round : β → ReaderOf Handle (ForInStep β)} {round' : β' → Reader (ForInStep β')}
    (h : ∀ b, Resolves f (stepMap G) (round b) (round' (G b))) (n : Nat) (b : β) :
    Resolves f G (repeatUpTo round n b) (repeatUpTo round' n (G b)) := by
  induction n generalizing b with
  | zero => exact .pure rfl
  | succ n ih =>
    refine (h b).bind fun step => ?_
    cases step with
    | done b => exact .pure rfl
    | yield b => exact ih b

theorem repeated {round : β → ReaderOf Handle (ForInStep β)} {round' : β' → Reader (ForInStep β')}
    {b : β} {b' : β'} (start : b' = G b) (h : ∀ b, Resolves f (stepMap G) (round b) (round' (G b))) :
    Resolves f G (repeated b round) (repeated b' round') := by
  subst start
  refine read.bind fun i => cursor.looks fun c => ?_
  rw [show (i.map f).tokens.size = i.tokens.size from i.tokens.size_map f]
  exact repeatUpTo h _ b

section

variable {item : ReaderOf Handle α} {item' : Reader α'}

theorem collect {more : ReaderOf Handle Bool} {more' : Reader Bool} {item : ReaderOf Handle (α × Bool)}
    {item' : Reader (α' × Bool)} (hm : Resolves f id more more')
    (h : Resolves f (Prod.map F id) item item') :
    Resolves f (List.map F) (collect more item) (collect more' item') := by
  refine .bind (F := Array.map F) (.repeated Array.map_empty.symm fun items => ?_) fun items =>
    .pure Array.toList_map
  refine hm.looks fun more => .ite (fun _ => h.bind fun row => ?_) fun _ => .pure rfl
  obtain ⟨a, goOn⟩ := row
  cases goOn with
  | true => exact .pure (congrArg ForInStep.yield Array.map_push.symm)
  | false => exact .pure (congrArg ForInStep.done Array.map_push.symm)

theorem collectWhile {more : ReaderOf Handle Bool} {more' : Reader Bool} (hm : Resolves f id more more')
    (h : Resolves f F item item') :
    Resolves f (List.map F) (collectWhile more item) (collectWhile more' item') :=
  .collect hm (h.bind fun _ => .pure rfl)

theorem commaList (close : Tag) (h : Resolves f F item item') :
    Resolves f (Prod.map (List.map F) id) (commaList close item) (commaList close item') := by
  have row (a : α) (comma : Bool) : Resolves f (Prod.map F id)
      (do
        if !comma && (← Grammar.isNotNext close) then Grammar.unexpected {.punct .comma, close}
        return (a, comma))
      (do
        if !comma && (← Grammar.isNotNext close) then Grammar.unexpected {.punct .comma, close}
        return (F a, comma)) :=
    (isNotNext close).looks fun _ => .ite (fun _ => (unexpected _).looks fun _ => .pure rfl) fun _ =>
      .pure rfl
  refine .bind (F := List.map (Prod.map F id))
    (.collectWhile (isNotNext close) (h.bind fun a => (accept _).looks fun comma => row a comma))
    fun rows => .pure ?_
  rw [List.getLast?_map, Option.map_map, List.map_map]
  show _ = (_, _)
  rw [List.map_map]
  rfl

theorem nestedList (close : Tag) (h : Resolves f F item item') :
    Resolves f (Prod.map (List.map F) id) (nestedList close item) (nestedList close item') :=
  (h.commaList close).within _

end

/-! ## Readers that ask the name table -/

theorem enterName (spelling : String) :
    Resolves f f (Inner.enterName spelling) (Inner.enterName spelling) where
  grows _ s := s.names.growsTo_record spelling
  reads i s _ denotes := by
    have same : f (Naming.enter s.names spelling).1 = spelling := Denotes.enter denotes
    show EStateM.Result.ok spelling _ = EStateM.Result.ok (f (Naming.enter s.names spelling).1) _
    rw [same]
    rfl

theorem isLambdaNext : Resolves f id Inner.isLambdaNext Inner.isLambdaNext where
  grows i s := by
    rw [isLambdaNext_eq]
    exact .refl _
  reads i s held denotes := by
    rw [isLambdaNext_eq] at denotes
    have denotes : Denotes f s.names := denotes
    rw [isLambdaNext_eq, isLambdaNext_eq]
    refine congrArg (EStateM.Result.ok · (s.map f)) ?_
    show barsIn s.names ((i.tokens.map f).get s.cursor.position).kind = _
    rw [i.tokens.get_map f]
    have names := held.get s.cursor.position
    generalize i.tokens.get s.cursor.position = t at names ⊢
    obtain ⟨kind, span, spacing⟩ := t
    cases kind with
    | operator symbols =>
      show (f symbols == "||") = (Naming.spell s.names symbols == "||")
      rw [denotes.spell (names symbols (List.mem_singleton_self symbols))]
    | reserved r => cases r <;> rfl
    | _ => rfl

end Resolves

end Grammar

end Surface
