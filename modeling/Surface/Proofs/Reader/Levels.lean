import Surface.Proofs.Reader.Run

/-!
# Levels of expressions

An expression is read on one of several levels: what can be an argument, what stands alone, what
an operator takes on its right, and what operators join. What a reader returns is on the level it
reads, wherever it starts and whatever went wrong before. The names, literals and operators in it are
those of the stream.

Results:
* `Expr.isArgument`, `Expr.isPrimary`, `Expr.isOperand`, `Expr.isChain`: the levels.
* `Expr.Stratified`: the parts of an expression are on the levels its form asks for.
* `Expr.Worded`, `Pattern.Worded`: the words of an expression or a pattern are those of a stream.
* `Returns`: what holds of all that a reader returns.
* `repeated_ok`: what every round of a loop keeps; `itemsRound_ok`: what one round of items does.
* `path_ok`, `operator?_ok`: the words that readers return.
* `primary_returns`, `arguments_return`, `binary_returns`: the readers of each level.
-/

namespace Surface

/-! ## Levels -/

namespace Expr

/-- What stands alone: everything but applications, operators, arrows and types. -/
def isPrimary : Expr → Bool
  | literal _ _ | name _ _ | path _ _ | tuple _ _ _ | array _ _ | conditional _ _ _ _
  | matchOn _ _ _ | returned _ _ | lambda _ _ _ => true
  | _ => false

/-- What can be an argument: everything that stands alone but lambdas. -/
def isArgument : Expr → Bool
  | lambda _ _ _ => false
  | e => e.isPrimary

/-- What an operator takes on its right. -/
def isOperand : Expr → Bool
  | app _ _ _ _ | typeApp _ _ _ => true
  | e => e.isPrimary

/-- Operands joined by operators, or one operand. -/
def isChain : Expr → Bool
  | binary _ _ _ _ => true
  | e => e.isOperand

/-- The parts of an expression are on the levels its form asks for, and none of them is missing. -/
def Stratified : Expr → Prop
  | path _ p => 2 ≤ p.segments.length
  | app _ f as _ | typeApp _ f as =>
    f.isPrimary = true ∧ as ≠ [] ∧ ∀ a ∈ as, a.isArgument = true
  | binary _ l _ r => l.isChain = true ∧ r.isOperand = true
  | arrow _ d _ => d.isChain = true
  | ascription _ v _ => v.isChain = true
  | pi _ ps _ | sigma _ ps _ => ps ≠ []
  | _ => True

theorem isOperand_of_isPrimary {e : Expr} (h : e.isPrimary = true) : e.isOperand = true := by
  cases e <;> first | rfl | exact h

theorem isChain_of_isOperand {e : Expr} (h : e.isOperand = true) : e.isChain = true := by
  cases e <;> first | rfl | exact h

end Expr

/-! ## Words -/

namespace Tokens

variable (ts : Tokens)

/-- A token of the stream is a name with this text. -/
def HasName (n : String) : Prop := ∃ p, (ts.get p).kind.name? = some n

/-- A token of the stream is this literal. -/
def HasLiteral (v : Literal) : Prop := ∃ p, (ts.get p).kind.literal? = some v

/-- A token of the stream is an operator with this text, or it is that of the bar. -/
def HasOperator (symbols : String) : Prop :=
  symbols = Reserved.pipe.text ∨ ∃ p, (ts.get p).kind = .operator symbols

/-- All names of a path are in the stream. -/
def HasPath (p : Path) : Prop := ∀ x ∈ p.segments, ts.HasName x.name

end Tokens

/-- The words of an expression that are not those of its parts are in the stream. -/
def Expr.Worded (ts : Tokens) : Expr → Prop
  | literal _ v => ts.HasLiteral v
  | name _ n => ts.HasName n
  | path _ p => ts.HasPath p
  | binary _ _ op _ => ts.HasOperator op.symbols
  | _ => True

/-- The words of a pattern that are not those of its arguments are in the stream. -/
def Pattern.Worded (ts : Tokens) : Pattern → Prop
  | cons _ p _ => ts.HasPath p
  | literal _ v => ts.HasLiteral v
  | rest _ => True

namespace Grammar

variable {α β : Type}

/-! ## What readers return -/

/-- All that a reader returns has a property. -/
def Returns (r : Reader α) (P : α → Prop) : Prop := ∀ i s a t, r i s = .ok a t → P a

namespace Returns

variable {P : α → Prop} {Q : β → Prop}

theorem pure {a : α} (h : P a) : Returns (Pure.pure a) P := by
  rintro i s _ _ ⟨⟩
  exact h

theorem bind {x : Reader β} {f : β → Reader α} (h : ∀ b, Returns (f b) P) :
    Returns (x >>= f) P := by
  intro i s a t run
  obtain ⟨b, u, _, rest⟩ := bind_ok.1 run
  exact h b i u a t rest

/-- What the second reader returns where the first has returned something with a property. -/
theorem andThen {x : Reader β} {f : β → Reader α} (hx : Returns x Q)
    (h : ∀ b, Q b → Returns (f b) P) : Returns (x >>= f) P := by
  intro i s a t run
  obtain ⟨b, u, first, rest⟩ := bind_ok.1 run
  exact h b (hx i s b u first) i u a t rest

theorem ite {p : Prop} [Decidable p] {x y : Reader α} (hx : p → Returns x P)
    (hy : ¬ p → Returns y P) : Returns (if p then x else y) P := by
  split
  · next h => exact hx h
  · next h => exact hy h

theorem absent {what : Wanted} : Returns (Grammar.absent what) P :=
  fun _ _ _ _ h => absurd h absent_ne_ok

theorem throw {e : SyntaxError} : Returns (throw e : Reader α) P := by
  rintro i s a t ⟨⟩

theorem newExpr {span : Span} {form : Mark → Expr} {P : Expr → Prop} (h : ∀ m, P (form m)) :
    Returns (Grammar.newExpr span form) P := by
  rintro i s _ _ ⟨⟩
  exact h _

end Returns

/-- What every round of a run keeps, of its value and of the state, holds at the end. -/
theorem repeatUpTo_ok {round : β → Reader (ForInStep β)} {Q : β → State → Prop} {i : Input}
    (h : ∀ b s r t, Q b s → round b i s = .ok r t → Q r.value t) {n : Nat} {b b' : β} {s t : State}
    (hb : Q b s) (run : repeatUpTo round n b i s = .ok b' t) : Q b' t := by
  induction n generalizing b s with
  | zero =>
    cases run
    exact hb
  | succ n ih =>
    obtain ⟨r, u, first, rest⟩ := bind_ok.1 run
    have kept := h b s r u hb first
    cases r with
    | done b =>
      cases rest
      exact kept
    | yield b => exact ih kept rest

theorem repeated_ok {round : β → Reader (ForInStep β)} {Q : β → State → Prop} {i : Input}
    (h : ∀ b s r t, Q b s → round b i s = .ok r t → Q r.value t) {b b' : β} {s t : State}
    (hb : Q b s) (run : repeated b round i s = .ok b' t) : Q b' t :=
  repeatUpTo_ok h hb (show repeatUpTo round _ b i s = _ from run)

theorem Returns.repeated {round : β → Reader (ForInStep β)} {Q : β → Prop}
    (h : ∀ b, Q b → Returns (round b) fun r => Q r.value) {b : β} (hb : Q b) :
    Returns (Grammar.repeated b round) Q :=
  fun _ _ _ _ run =>
    repeated_ok (Q := fun b _ => Q b) (fun b s r t hb first => h b hb _ s r t first) hb run

/-! ## Sequences -/

/-- One round of a sequence. -/
def collectRound (more : Reader Bool) (item : Reader (α × Bool)) (items : Array α) :
    Reader (ForInStep (Array α)) := do
  if ← more then
    let (a, goOn) ← item
    return if goOn then .yield (items.push a) else .done (items.push a)
  else return .done items

theorem collect_eq (more : Reader Bool) (item : Reader (α × Bool)) :
    collect more item = Array.toList <$> repeated #[] (collectRound more item) := by
  unfold collect collectRound
  simp only [map_eq_pure_bind]

/-- One round of a sequence that goes on as long as there are more items. -/
abbrev whileRound (more : Reader Bool) (item : Reader α) : Array α → Reader (ForInStep (Array α)) :=
  collectRound more do return (← item, true)

theorem collectWhile_eq (more : Reader Bool) (item : Reader α) :
    collectWhile more item = Array.toList <$> repeated #[] (whileRound more item) :=
  collect_eq more _

/-- Reads an item of a list and the comma behind it. -/
def commaRow (close : Tag) (item : Reader α) : Reader (α × Bool) := do
  let a ← item
  let comma ← accept (.punct .comma)
  if !comma && (← isNotNext close) then unexpected {.punct .comma, close}
  return (a, comma)

/-- A list with commas is read in rows. -/
theorem commaList_eq (close : Tag) (item : Reader α) :
    commaList close item = (do
      let rows ← collectWhile (isNotNext close) (commaRow close item)
      return (rows.map Prod.fst, (rows.getLast?.map Prod.snd).getD false)) := rfl

/-- A round that adds an item starts where there is one. -/
theorem collectRound_ok {more : Reader Bool} {item : Reader (α × Bool)} {items : Array α}
    {i : Input} {s t : State} {r : ForInStep (Array α)}
    (h : collectRound more item items i s = .ok r t) :
    r.value = items ∨ ∃ u a goOn, more i s = .ok true u ∧ item i u = .ok (a, goOn) t
      ∧ r.value = items.push a := by
  obtain ⟨m, u, hm, h⟩ := bind_ok.1 h
  cases m with
  | false =>
    cases h
    exact .inl rfl
  | true =>
    obtain ⟨⟨a, goOn⟩, v, ha, h⟩ := bind_ok.1 h
    cases h
    refine .inr ⟨u, a, goOn, hm, ha, ?_⟩
    cases goOn <;> rfl

/-- Every item of a sequence is read where there is one. -/
theorem collect_ok {more : Reader Bool} {item : Reader (α × Bool)} {P : α → Prop} {i : Input}
    (h : ∀ s u a goOn t, more i s = .ok true u → item i u = .ok (a, goOn) t → P a) {s t : State}
    {as : List α} (run : collect more item i s = .ok as t) : ∀ a ∈ as, P a := by
  rw [collect_eq] at run
  obtain ⟨items, rounds, rfl⟩ := map_ok.1 run
  refine repeated_ok (Q := fun (items : Array α) _ => ∀ a ∈ items.toList, P a)
    (fun items s r t hi hr => ?_) (fun _ ha => absurd ha List.not_mem_nil) rounds
  rcases collectRound_ok hr with same | ⟨u, a, goOn, hm, ha, added⟩
  · rw [same]
    exact hi
  · rw [added, Array.toList_push]
    intro x hx
    rcases List.mem_append.1 hx with hx | hx
    · exact hi x hx
    · rw [List.mem_singleton.1 hx]
      exact h s u a goOn t hm ha

theorem collectWhile_ok {more : Reader Bool} {item : Reader α} {P : α → Prop} {i : Input}
    (h : ∀ s u a t, more i s = .ok true u → item i u = .ok a t → P a) {s t : State} {as : List α}
    (run : collectWhile more item i s = .ok as t) : ∀ a ∈ as, P a := by
  refine collect_ok (fun s u a goOn t hm read => ?_) run
  obtain ⟨a, v, ha, rest⟩ := bind_ok.1 read
  cases rest
  exact h s u a _ hm ha

/-- A sequence that starts where there is an item is not empty. -/
theorem collectWhile_ne_nil {more : Reader Bool} {item : Reader α} {i : Input} {s u t : State}
    {as : List α} (hm : more i s = .ok true u) (h : collectWhile more item i s = .ok as t) :
    as ≠ [] := by
  have kept : ∀ items : Array α, items.toList ≠ [] → Returns
      (whileRound more item items) fun r => r.value.toList ≠ [] := by
    intro items hi j v r w hr
    rcases collectRound_ok hr with same | ⟨_, a, _, _, _, added⟩
    · rw [same]
      exact hi
    · rw [added, Array.toList_push]
      exact List.append_ne_nil_of_right_ne_nil _ (List.cons_ne_nil _ _)
  rw [collectWhile_eq] at h
  obtain ⟨items, run, rfl⟩ := map_ok.1 h
  -- the first of at least one round adds an item
  obtain ⟨r, v, first, rest⟩ := bind_ok.1 (show repeatUpTo _ (_ + 1) _ i s = _ from run)
  have added : r.value.toList ≠ [] := by
    obtain ⟨m, w, hm', first⟩ := bind_ok.1 first
    rw [hm] at hm'
    cases hm'
    obtain ⟨⟨a, goOn⟩, _, _, first⟩ := bind_ok.1 first
    cases first
    cases goOn <;> exact List.cons_ne_nil _ _
  cases r with
  | done items =>
    cases rest
    exact added
  | yield items =>
    exact repeatUpTo_ok (Q := fun (items : Array α) _ => items.toList ≠ [])
      (fun items s r t hi first => kept items hi i s r t first) added rest

/-- One round of reading items: an item and the line breaks behind it, unless the stream ends. -/
def itemsRound (r : Array Item × Nat) : Reader (ForInStep (Array Item × Nat)) := do
  if ← isNext .eof then return .done (r.1, r.2)
  else
    let item ← item r.2
    let stop := (← previousSpan).stop
    skipBreaks
    return .yield (r.1.push item, stop)

theorem itemsRound_of_eof {z : Array Item × Nat} {i : Input} {s : State}
    (h : s.cursor.tag i.tokens = .eof) : itemsRound z i s = .ok (.done z) s := by
  unfold itemsRound
  rw [bind_of_ok (isNext_run ..), if_pos (by simpa using h)]
  rfl

theorem itemsRound_of_item {z : Array Item × Nat} {i : Input} {s t u : State} {a : Item}
    (h : s.cursor.tag i.tokens ≠ .eof) (read : item z.2 i s = .ok a t) (skip : skipBreaks i t = .ok () u) :
    itemsRound z i s = .ok (.yield (z.1.push a, t.cursor.previous.stop)) u := by
  unfold itemsRound
  rw [bind_of_ok (isNext_run ..), if_neg (by simpa using h), bind_of_ok read,
    bind_of_ok (previousSpan_run ..), bind_of_ok skip]
  rfl

/-- A round is the last at the end, and only there. -/
theorem itemsRound_ok {z : Array Item × Nat} {r : ForInStep (Array Item × Nat)} {i : Input}
    {s t : State} (h : itemsRound z i s = .ok r t) :
    (s.cursor.tag i.tokens = .eof ∧ r = .done z ∧ t = s)
      ∨ (s.cursor.tag i.tokens ≠ .eof ∧ ∃ a u, item z.2 i s = .ok a u ∧ skipBreaks i u = .ok () t
        ∧ r = .yield (z.1.push a, u.cursor.previous.stop)) := by
  by_cases ended : s.cursor.tag i.tokens = .eof
  · rw [itemsRound_of_eof ended] at h
    cases h
    exact .inl ⟨ended, rfl, rfl⟩
  · unfold itemsRound at h
    rw [bind_of_ok (isNext_run ..), if_neg (by simpa using ended)] at h
    obtain ⟨a, u, read, h⟩ := bind_ok.1 h
    rw [bind_of_ok (previousSpan_run ..)] at h
    obtain ⟨_, v, breaks, h⟩ := bind_ok.1 h
    cases h
    exact .inr ⟨ended, a, u, read, breaks, rfl⟩

/-! ## Primaries and arguments -/

section

variable {inner : Inner}

theorem tuple_returns : Returns inner.tuple fun e => e.isArgument = true :=
  .bind fun _ => .bind fun _ => .bind fun _ => .newExpr fun _ => rfl

theorem array_returns : Returns inner.array fun e => e.isArgument = true :=
  .bind fun _ => .bind fun _ => .bind fun _ => .newExpr fun _ => rfl

theorem conditional_returns : Returns inner.conditional fun e => e.isArgument = true := by
  refine .bind fun _ => .bind fun _ => .bind fun _ => .bind fun elseBody => ?_
  cases elseBody with
  | none => exact .bind fun _ => .throw
  | some b => exact .bind fun _ => .newExpr fun _ => rfl

theorem matchOn_returns : Returns inner.matchOn fun e => e.isArgument = true := by
  refine .bind fun _ => .bind fun _ => .bind fun _ => .ite (fun _ => ?_) fun _ => ?_
  · exact .bind fun _ => .bind fun _ => .bind fun _ => .bind fun _ => .bind fun _ => .newExpr fun _ => rfl
  · exact .bind fun _ => .bind fun _ => .bind fun _ => .bind fun _ => .newExpr fun _ => rfl

theorem returned_returns : Returns inner.returned fun e => e.isArgument = true :=
  .bind fun _ => .bind fun _ => .bind fun _ =>
    .ite (fun _ => .bind fun _ => .newExpr fun _ => rfl) fun _ => .newExpr fun _ => rfl

theorem lambda_returns : Returns inner.lambda fun e => e.isPrimary = true := by
  refine .bind fun _ => .ite (fun _ => ?_) fun _ => ?_ <;>
    exact .bind fun _ => .bind fun _ => .newExpr fun _ => rfl

theorem reference_returns : Returns Inner.reference fun e => e.isArgument = true := by
  refine .bind fun _ => .newExpr fun _ => ?_
  split <;> rfl

theorem Returns.mono {r : Reader α} {P Q : α → Prop} (h : Returns r P) (hPQ : ∀ a, P a → Q a) :
    Returns r Q :=
  fun i s a t run => hPQ a (h i s a t run)

theorem isPrimary_of_isArgument {e : Expr} (h : e.isArgument = true) : e.isPrimary = true := by
  cases e <;> first | rfl | exact h

/-- The words that a type declaration starts with. -/
def typeTags : TagSet :=
  {.keyword .publicKw, .keyword .sealedKw, .keyword .privateKw, .keyword .internalKw,
    .keyword .classKw, .keyword .traitKw, .keyword .dataKw}

theorem typeTags_of_visibility {t : Tag} {v : Visibility} (h : visibilityOf? t = some v) :
    typeTags.contains t = true := by
  revert t
  cases v <;> decide

theorem typeTags_of_typeSort {t : Tag} {sort : TypeSort} (h : typeSortOf? t = some sort) :
    typeTags.contains t = true := by
  revert t
  cases sort <;> decide

/-- The tags an argument starts with. -/
theorem argumentTags_cases : ∀ {t : Tag}, Inner.argumentTags.contains t = true →
    t = .ident ∨ t = .symbolIdent ∨ t = .number ∨ t = .string ∨ t = .char
      ∨ t = .punct .openParen ∨ t = .punct .openBracket ∨ t = .keyword .ifKw
      ∨ t = .keyword .matchKw ∨ t = .keyword .returnKw := by
  decide

/-- A token inside the stream is the one its tag tells of. -/
theorem tag_get_of_ne_eof {ts : Tokens} {p : Nat} (h : ts.tag p ≠ .eof) :
    (ts.get p).tag = ts.tag p := by
  unfold Tokens.tag at *
  unfold Tokens.get
  cases hp : ts.get? p with
  | none =>
    rw [hp] at h
    exact absurd rfl h
  | some t => rfl

theorem primary_returns : Returns inner.primary fun e => e.isPrimary = true := by
  refine .bind fun token => ?_
  split
  · exact .bind fun _ => .newExpr fun _ => rfl
  · have argument {r : Reader Expr} (h : Returns r fun e => e.isArgument = true) :
        Returns r fun e => e.isPrimary = true := h.mono fun _ => isPrimary_of_isArgument
    split
    · exact argument reference_returns
    · exact argument reference_returns
    · exact argument tuple_returns
    · exact argument array_returns
    · exact argument conditional_returns
    · exact argument matchOn_returns
    · exact argument returned_returns
    · exact .bind fun _ => .ite (fun _ => lambda_returns) fun _ => .absent

/-- What is read where an argument starts is no lambda. -/
theorem primary_ok_isArgument {i : Input} {s t : State} {e : Expr}
    (hs : Inner.argumentTags.contains (s.cursor.tag i.tokens) = true)
    (h : inner.primary i s = .ok e t) : e.isArgument = true := by
  have tag : (i.tokens.get s.cursor.position).tag = s.cursor.tag i.tokens := by
    refine tag_get_of_ne_eof fun he => ?_
    rw [show s.cursor.tag i.tokens = .eof from he] at hs
    exact absurd hs (by decide)
  obtain ⟨token, u, first, rest⟩ := bind_ok.1 h
  obtain ⟨rfl, rfl⟩ := EStateM.Result.ok.inj (first.symm.trans (nextToken_run i s))
  rw [← tag] at hs
  refine (?_ : Returns _ fun e => e.isArgument = true) i u e t rest
  clear h first rest
  generalize i.tokens.get u.cursor.position = token at hs
  split
  · exact .bind fun _ => .newExpr fun _ => rfl
  · next none =>
    split
    · exact reference_returns
    · exact reference_returns
    · exact tuple_returns
    · exact array_returns
    · exact conditional_returns
    · exact matchOn_returns
    · exact returned_returns
    · -- every other tag an argument starts with is that of a literal
      exfalso
      have literal : token.tag = .number ∨ token.tag = .string ∨ token.tag = .char := by
        rcases argumentTags_cases hs with h | h | h | h | h | h | h | h | h | h <;>
          first | exact .inl h | exact .inr (.inl h) | exact .inr (.inr h) | contradiction
      unfold Token.tag at literal
      cases hk : token.kind <;> rw [hk] at none literal <;> try cases none
      all_goals rcases literal with h | h | h <;> cases h

/-- The arguments of an application, or none. -/
theorem arguments_return :
    Returns (collectWhile (isNextIn Inner.argumentTags) inner.primary)
      fun as => ∀ a ∈ as, a.isArgument = true := by
  refine fun i _ _ _ => collectWhile_ok fun s u a t hm ha => ?_
  obtain ⟨hs, rfl⟩ := EStateM.Result.ok.inj ((isNextIn_run _ i s).symm.trans hm)
  exact primary_ok_isArgument hs ha

/-! ## Words of the stream -/

theorem ident_ok {i : Input} {s t : State} {x : Ident} (h : ident i s = .ok x t) :
    i.tokens.HasName x.name := by
  unfold ident at h
  rw [bind_of_ok (nextToken_run i s)] at h
  cases name : (i.tokens.get s.cursor.position).kind.name? with
  | none =>
    rw [name] at h
    exact absurd h absent_ne_ok
  | some n =>
    rw [name] at h
    obtain ⟨_, _, _, rest⟩ := bind_ok.1 h
    cases rest
    exact ⟨_, name⟩

/-- The names of a path are in the stream. -/
theorem path_ok {i : Input} {s t : State} {p : Path} (h : path i s = .ok p t) : i.tokens.HasPath p := by
  unfold path at h
  obtain ⟨x, u, first, rest⟩ := bind_ok.1 h
  obtain ⟨xs, v, others, rest⟩ := bind_ok.1 rest
  cases rest
  refine List.forall_mem_cons.2 ⟨ident_ok first, collectWhile_ok (fun s u x t _ read => ?_) others⟩
  obtain ⟨_, _, _, read⟩ := bind_ok.1 read
  exact ident_ok read

/-- An operator is in the stream, or it is a bar. -/
theorem operator?_ok {i : Input} {s t : State} {op : Operator}
    (h : Inner.operator? i s = .ok (some op) t) : i.tokens.HasOperator op.symbols := by
  unfold Inner.operator? at h
  rw [bind_of_ok (nextToken_run i s)] at h
  cases kind : (i.tokens.get s.cursor.position).kind <;> rw [kind] at h
  case operator symbols =>
    cases h
    exact .inr ⟨_, kind⟩
  case reserved r =>
    cases r
    case pipe =>
      obtain ⟨c, u, _, rest⟩ := bind_ok.1 h
      rw [ite_run] at rest
      split at rest
      · cases rest
      · obtain ⟨_, _, entered, rest⟩ := bind_ok.1 rest
        cases entered
        cases rest
        exact .inl rfl
    all_goals cases h
  all_goals cases h

/-! ## Applications and operators -/

theorem application_returns : Returns inner.application fun e => e.isOperand = true := by
  refine .andThen primary_returns fun callee hc => .bind fun args => .ite (fun _ => ?_) fun _ => ?_
  · exact .pure (Expr.isOperand_of_isPrimary hc)
  · refine .bind fun _ => .ite (fun _ => ?_) fun _ => ?_
    · exact .bind fun _ => .newExpr fun _ => rfl
    · exact .bind fun _ => .bind fun _ => .newExpr fun _ => rfl

/-- One more operator and its right side, if there is one. -/
def operatorRound {ν : Type} [Naming ν] (inner : Inner ν) (lhs : Expr ν) :
    ReaderOf ν (ForInStep (Expr ν)) := do
  match ← Inner.operator? with
  | some op =>
    let _ ← take
    skipBreaks
    let rhs ← inner.application
    return .yield (← newExpr (lhs.span.merge rhs.span) fun m => .binary m lhs op rhs)
  | none => return .done lhs

theorem operatorRound_returns {lhs : Expr} (h : lhs.isChain = true) :
    Returns (operatorRound inner lhs) fun r => r.value.isChain = true := by
  refine .bind fun op => ?_
  cases op with
  | none => exact .pure h
  | some op =>
    refine .bind fun _ => .bind fun _ => .bind fun rhs => .andThen (Q := fun e => e.isChain = true) ?_
      fun e he => .pure he
    exact .newExpr fun _ => rfl

theorem binary_returns : Returns inner.binary fun e => e.isChain = true :=
  .andThen application_returns fun _ h =>
    .repeated (fun _ => operatorRound_returns) (Expr.isChain_of_isOperand h)

/-! ## Parameters -/

theorem commaList_ne_nil {close : Tag} {item : Reader α} {i : Input} {s t : State}
    {r : List α × Bool} (hs : s.cursor.tag i.tokens ≠ close)
    (h : commaList close item i s = .ok r t) : r.1 ≠ [] := by
  obtain ⟨rows, u, run, rest⟩ := bind_ok.1 h
  cases rest
  have more : isNotNext close i s = .ok true s := by
    rw [isNotNext_run, decide_eq_false hs]
    rfl
  exact fun empty => collectWhile_ne_nil more run (List.map_eq_nil_iff.1 empty)

/-- The cursor behind an opening parenthesis or bracket. -/
theorem position_opened {i : Input} {s : State} (h : s.cursor.tag i.tokens ≠ .eof) :
    ((skipping true s.cursor).step i.tokens).position
      = pastBreaks i.tokens (s.cursor.position + 1) := by
  unfold Cursor.step
  rw [if_neg (show (skipping true s.cursor).tag i.tokens ≠ .eof from h)]
  rfl

/-- A group in front of an arrow starts with something that is not its closer. -/
theorem tag_opened_of_arrowFollowsGroup {i : Input} {s : State} {b : Bool}
    (h : arrowFollowsGroup i.tokens i.groups b s.cursor.position = true) :
    ((skipping true s.cursor).step i.tokens).tag i.tokens ≠ .punct
      (if s.cursor.tag i.tokens = .punct .openBracket then .closeBracket else .closeParen) := by
  unfold arrowFollowsGroup at h
  dsimp only at h
  split at h
  · next paren =>
    have tag : s.cursor.tag i.tokens = .punct .openParen := paren
    unfold Cursor.tag
    rw [position_opened (by rw [tag]; exact Tag.noConfusion), paren, if_neg (by decide)]
    intro closed
    rw [if_pos closed] at h
    cases h
  · next bracket =>
    have tag : s.cursor.tag i.tokens = .punct .openBracket := bracket
    unfold Cursor.tag
    rw [position_opened (by rw [tag]; exact Tag.noConfusion), bracket, if_pos rfl]
    intro closed
    rw [if_pos closed] at h
    cases h
  · cases h

/-- A group in front of an arrow has parameters. -/
theorem params_ne_nil {i : Input} {s t : State} {r : List Param × Span}
    (hs : arrowFollowsGroup i.tokens i.groups s.cursor.skipsBreaks s.cursor.position = true)
    (h : inner.paramGroup false i s = .ok r t) : r.1 ≠ [] := by
  unfold Inner.paramGroup at h
  rw [bind_of_ok (openGroup_run i s), bind_of_ok (isNext_run _ i _)] at h
  obtain ⟨⟨params, trailing⟩, u, run, rest⟩ := bind_ok.1 h
  obtain ⟨span, v, _, rest⟩ := bind_ok.1 rest
  cases rest
  obtain ⟨w, inside, rfl⟩ := within_ok.1 run
  refine commaList_ne_nil ?_ inside
  exact tag_opened_of_arrowFollowsGroup hs

end

end Grammar

end Surface
