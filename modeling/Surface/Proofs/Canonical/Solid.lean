import Surface.Proofs.Canonical.Words
import Surface.Proofs.Lexing.Readings

/-!
# The tokens of words

Words are written as signs and come back as tokens. Line breaks that follow each other are joined, and
those at either end belong to what stands around; so words come back as they are if line breaks stand
between other words only. The words of a node are like that.

Results:
* `Word.signs`: how a word is written.
* `Solid.told`, `Solid.untold`: the tokens of solid words.
* `Expr.solid`, `Stmt.solid`, `Decl.solid`, `Item.solid`: the words of nodes are solid.
-/

namespace Surface

open Lexeme (Sign told untold pendingBreak)

/-- How a word is written; a line break with a semicolon in it is a semicolon on a line of its own. -/
def Word.signs : Word → List Sign
  | (.lineBreak, false) => [.separator false]
  | (.lineBreak, true) => [.separator false, .separator true, .separator false]
  | (k, _) => [.token k]

theorem Word.signs_token {k : TokenKind} (h : k ≠ .lineBreak) : (Word.token k).signs = [.token k] := by
  cases k <;> first | rfl | exact absurd rfl h

theorem Word.signs_lineBreak (b : Bool) (ss : List Sign) :
    told none (Word.signs (.lineBreak, b) ++ ss) = told (some b) ss
      ∧ untold none (Word.signs (.lineBreak, b) ++ ss) = untold (some b) ss := by
  cases b <;> exact ⟨rfl, rfl⟩

/-- Words with line breaks between other words only. -/
inductive Solid : List Word → Prop
  | token {k : TokenKind} : k ≠ .lineBreak → Solid [.token k]
  | append {ws ws' : List Word} : Solid ws → Solid ws' → Solid (ws ++ ws')
  | line {ws ws' : List Word} (b : Bool) : Solid ws → Solid ws' → Solid (ws ++ (.lineBreak, b) :: ws')

namespace Solid

variable {ws ws' : List Word} {k : TokenKind}

/-- Solid words come back as they are, behind a line break that is pending before them. -/
theorem told_eq (h : Solid ws) : ∀ pending : Option Bool,
    told pending (ws.flatMap Word.signs) = pendingBreak pending ++ ws
      ∧ untold pending (ws.flatMap Word.signs) = none := by
  induction h with
  | token hk =>
    intro pending
    rw [List.flatMap_singleton, Word.signs_token hk]
    exact ⟨rfl, rfl⟩
  | append _ _ ih ih' =>
    intro pending
    rw [List.flatMap_append, Lexeme.told_append, Lexeme.untold_append, (ih pending).1, (ih pending).2,
      (ih' none).1, (ih' none).2, List.append_assoc]
    exact ⟨rfl, rfl⟩
  | line b _ _ ih ih' =>
    intro pending
    rw [List.flatMap_append, List.flatMap_cons, Lexeme.told_append, Lexeme.untold_append, (ih pending).1,
      (ih pending).2, (Word.signs_lineBreak b _).1, (Word.signs_lineBreak b _).2, (ih' _).1, (ih' _).2,
      List.append_assoc]
    exact ⟨rfl, rfl⟩

theorem cons (hk : k ≠ .lineBreak) (h : Solid ws) : Solid (.token k :: ws) := (token hk).append h

theorem snoc (h : Solid ws) (hk : k ≠ .lineBreak) : Solid (ws ++ [.token k]) := h.append (token hk)

theorem starts (h : Solid ws) : ∃ k ws', k ≠ .lineBreak ∧ ws = .token k :: ws' := by
  induction h with
  | token hk => exact ⟨_, [], hk, rfl⟩
  | append _ _ ih _ | line _ _ _ ih _ =>
    obtain ⟨k, ws', hk, rfl⟩ := ih
    exact ⟨k, _, hk, List.cons_append⟩

theorem ends (h : Solid ws) : ∃ ws' k, k ≠ .lineBreak ∧ ws = ws' ++ [.token k] := by
  induction h with
  | token hk => exact ⟨[], _, hk, rfl⟩
  | append _ _ _ ih =>
    obtain ⟨ws', k, hk, rfl⟩ := ih
    exact ⟨_, k, hk, (List.append_assoc _ _ _).symm⟩
  | @line ws _ b _ _ _ ih =>
    obtain ⟨ws', k, hk, rfl⟩ := ih
    exact ⟨ws ++ (.lineBreak, b) :: ws', k, hk, by rw [List.append_assoc, List.cons_append]⟩

/-- A word between solid words. -/
theorem between (h : Solid ws) (hk : k ≠ .lineBreak) (h' : Solid ws') :
    Solid (ws ++ .token k :: ws') := h.append (h'.cons hk)

end Solid

/-- No words, or solid ones. -/
def Loose (ws : List Word) : Prop := ws = [] ∨ Solid ws

namespace Loose

variable {ws ws' : List Word} {k : TokenKind}

theorem nil : Loose [] := .inl rfl

theorem behind (h : Solid ws) (h' : Loose ws') : Solid (ws ++ ws') := by
  obtain rfl | h' := h'
  · rwa [List.append_nil]
  · exact h.append h'

theorem before (h : Loose ws) (h' : Solid ws') : Solid (ws ++ ws') := by
  obtain rfl | h := h
  · exact h'
  · exact h.append h'

theorem cons (hk : k ≠ .lineBreak) (h : Loose ws) : Solid (.token k :: ws) := behind (.token hk) h

end Loose

/-! ## Lists of words -/

variable {wss : List (List Word)}

theorem loose_flatten (h : ∀ ws ∈ wss, Solid ws) : Loose wss.flatten := by
  induction wss with
  | nil => exact .nil
  | cons ws wss ih =>
    obtain ⟨first, rest⟩ := List.forall_mem_cons.1 h
    exact .inr (Loose.behind first (ih rest))

theorem loose_commas (h : ∀ ws ∈ wss, Solid ws) : Loose (Word.commas wss) := by
  induction wss with
  | nil => exact .nil
  | cons ws wss ih =>
    obtain ⟨first, rest⟩ := List.forall_mem_cons.1 h
    cases wss with
    | nil => exact .inr first
    | cons _ _ => exact .inr (Loose.behind first (.inr ((ih rest).cons (TokenKind.ne_of_tag Tag.noConfusion))))

/-- Words with commas between them between brackets. -/
theorem solid_enclosed {k k' : TokenKind} (hk : k ≠ .lineBreak) (h : ∀ ws ∈ wss, Solid ws)
    (hk' : k' ≠ .lineBreak) : Solid (.token k :: Word.commas wss ++ [.token k']) :=
  ((loose_commas h).cons hk).snoc hk'

/-- Lines behind solid words. -/
theorem solid_lines {ws : List Word} (h : Solid ws) (hs : ∀ ws ∈ wss, Solid ws) :
    Solid (ws ++ wss.flatMap fun ws => .lineBreak :: ws) := by
  induction wss generalizing ws with
  | nil => rwa [List.flatMap_nil, List.append_nil]
  | cons ws' wss ih =>
    obtain ⟨first, rest⟩ := List.forall_mem_cons.1 hs
    have all := ih (h.line false first) rest
    rwa [List.append_assoc] at all

theorem solid_braced {isEmpty : Bool} (h : ∀ ws ∈ wss, Solid ws) : Solid (Word.braced isEmpty wss) := by
  have opens : Solid [.punct .openBrace] := .token (TokenKind.ne_of_tag Tag.noConfusion)
  have closes : Solid [.punct .closeBrace] := .token (TokenKind.ne_of_tag Tag.noConfusion)
  unfold Word.braced
  split
  · exact opens.append closes
  · exact (solid_lines opens h).line false closes

/-! ## Names, paths and patterns -/

theorem nameKind_ne (n : String) : nameKind n ≠ .lineBreak := by
  unfold nameKind
  split <;> exact TokenKind.ne_of_tag Tag.noConfusion

theorem Literal.kind_ne (v : Literal) : v.kind ≠ .lineBreak := by
  cases v <;> exact TokenKind.ne_of_tag Tag.noConfusion

theorem operatorKind_ne (symbols : String) : operatorKind symbols ≠ .lineBreak := by
  unfold operatorKind
  split <;> exact TokenKind.ne_of_tag Tag.noConfusion

theorem Path.solid (p : Path) : Solid p.words := by
  have segments : ∀ xs : List Ident,
      Loose (xs.flatMap fun x => [.reserved .dot, .token (nameKind x.name)]) := by
    intro xs
    induction xs with
    | nil => exact .nil
    | cons x xs ih => exact .inr ((ih.cons (nameKind_ne _)).cons (TokenKind.ne_of_tag Tag.noConfusion))
  exact (segments p.tail).cons (nameKind_ne _)

theorem solid_parenthesizedIf {b : Bool} {ws : List Word} (h : Solid ws) :
    Solid (Word.parenthesizedIf b ws) := by
  unfold Word.parenthesizedIf
  split
  · exact (h.cons (TokenKind.ne_of_tag Tag.noConfusion)).snoc (TokenKind.ne_of_tag Tag.noConfusion)
  · exact h

mutual

theorem Pattern.solid : (p : Pattern) → Solid p.words
  | .cons _ p args => Loose.behind p.solid (Pattern.argsLoose args)
  | .rest _ => .token (TokenKind.ne_of_tag Tag.noConfusion)
  | .literal _ v => .token v.kind_ne

theorem Pattern.argsLoose : (ps : List Pattern) → Loose (Pattern.argWords ps)
  | [] => .nil
  | p :: ps => .inr (Loose.behind (solid_parenthesizedIf p.solid) (Pattern.argsLoose ps))

end

/-! ## Expressions and statements -/

mutual

theorem Expr.solid : (e : Expr) → Solid e.words
  | .literal _ v => .token v.kind_ne
  | .name _ n => .token (nameKind_ne n)
  | .path _ p => p.solid
  | .tuple _ es trailing => by
    have comma : Loose (if trailing then [.punct .comma] else []) := by
      split
      · exact .inr (.token (TokenKind.ne_of_tag Tag.noConfusion))
      · exact .nil
    have front := (loose_commas (Expr.allSolid es)).cons (k := .punct .openParen) (TokenKind.ne_of_tag Tag.noConfusion)
    exact (Loose.behind front comma).snoc (TokenKind.ne_of_tag Tag.noConfusion)
  | .array _ es => solid_enclosed (TokenKind.ne_of_tag Tag.noConfusion) (Expr.allSolid es) (TokenKind.ne_of_tag Tag.noConfusion)
  | .conditional _ c t e =>
    ((c.solid.cons (TokenKind.ne_of_tag Tag.noConfusion)).append t.thenSolid).between (TokenKind.ne_of_tag Tag.noConfusion) e.solid
  | .matchOn _ s arms =>
    (s.solid.cons (TokenKind.ne_of_tag Tag.noConfusion)).append (solid_braced (Arm.allSolid arms))
  | .returned _ v => (Expr.optionalLoose v).cons (TokenKind.ne_of_tag Tag.noConfusion)
  | .app _ f es b =>
    Loose.behind (Loose.behind f.solid (loose_flatten (Expr.allSolid es))) (Block.optionalLoose b)
  | .typeApp _ f es => Loose.behind f.solid (loose_flatten (Expr.allSolid es))
  | .lambda _ [] b => b.solid.cons (TokenKind.ne_of_tag Tag.noConfusion)
  | .lambda _ (p :: ps) b =>
    ((loose_commas (Param.allSolid (p :: ps))).cons (TokenKind.ne_of_tag Tag.noConfusion)).between
      (TokenKind.ne_of_tag Tag.noConfusion) b.solid
  | .arrow _ d c => d.solid.between (TokenKind.ne_of_tag Tag.noConfusion) c.solid
  | .pi _ ps c =>
    ((loose_commas (Param.allSolid ps)).cons (TokenKind.ne_of_tag Tag.noConfusion)).between (TokenKind.ne_of_tag Tag.noConfusion)
      (c.solid.cons (TokenKind.ne_of_tag Tag.noConfusion))
  | .sigma _ ps c =>
    ((loose_commas (Param.allSolid ps)).cons (TokenKind.ne_of_tag Tag.noConfusion)).between (TokenKind.ne_of_tag Tag.noConfusion)
      (c.solid.cons (TokenKind.ne_of_tag Tag.noConfusion))
  | .ascription _ v t => v.solid.between (TokenKind.ne_of_tag Tag.noConfusion) t.solid
  | .binary _ l op r => l.solid.between (operatorKind_ne op.symbols) r.solid

theorem Expr.allSolid : (es : List Expr) → ∀ ws ∈ Expr.wordLists es, Solid ws
  | [] => nofun
  | e :: es => List.forall_mem_cons.2 ⟨e.solid, Expr.allSolid es⟩

theorem Expr.optionalLoose : (e : Option Expr) → Loose (Expr.optionalWords e)
  | none => .nil
  | some e => .inr e.solid

theorem Stmt.solid : (s : Stmt) → s.isError = false → Solid s.words
  | .letIn _ p v, _ => (p.solid.cons (TokenKind.ne_of_tag Tag.noConfusion)).between (TokenKind.ne_of_tag Tag.noConfusion) v.solid
  | .conditional _ c t e, _ =>
    Loose.behind ((c.solid.cons (TokenKind.ne_of_tag Tag.noConfusion)).append t.thenSolid) (Body.elseLoose e)
  | .ask _ p v, _ => p.solid.between (TokenKind.ne_of_tag Tag.noConfusion) v.solid
  | .expr _ v, _ => v.solid

theorem Stmt.allSolid : (ss : List Stmt) → ∀ ws ∈ Stmt.wordLists ss, Solid ws
  | [] => nofun
  | s :: ss => by
    unfold Stmt.wordLists
    cases h : s.isError with
    | true =>
      rw [if_pos rfl]
      exact Stmt.allSolid ss
    | false =>
      rw [if_neg Bool.false_ne_true]
      exact List.forall_mem_cons.2 ⟨s.solid h, Stmt.allSolid ss⟩

theorem Block.solid : (b : Block) → Solid b.words
  | ⟨ss, _⟩ => solid_braced (Stmt.allSolid ss)

theorem Block.optionalLoose : (b : Option Block) → Loose (Block.optionalWords b)
  | none => .nil
  | some b => .inr b.solid

theorem Body.solid : (b : Body) → Solid b.words
  | .block b => b.solid
  | .expr e => e.solid

theorem Body.thenSolid : (b : Body) → Solid b.thenWords
  | .block b => b.solid
  | .expr e => e.solid.cons (TokenKind.ne_of_tag Tag.noConfusion)

theorem Body.elseLoose : (b : Option Body) → Loose (Body.elseWords b)
  | none => .nil
  | some b => .inr (b.solid.cons (TokenKind.ne_of_tag Tag.noConfusion))

theorem Arm.solid : (a : Arm) → Solid a.words
  | ⟨p, b, _⟩ => (p.solid.between (TokenKind.ne_of_tag Tag.noConfusion) b.solid).snoc (TokenKind.ne_of_tag Tag.noConfusion)

theorem Arm.allSolid : (as : List Arm) → ∀ ws ∈ Arm.wordLists as, Solid ws
  | [] => nofun
  | a :: as => List.forall_mem_cons.2 ⟨a.solid, Arm.allSolid as⟩

theorem Param.typeLoose : (t : Option Expr) → Loose (Param.typeWords t)
  | none => .nil
  | some t => .inr (t.solid.cons (TokenKind.ne_of_tag Tag.noConfusion))

theorem Param.solid : (p : Param) → Solid p.words
  | ⟨p, t, _⟩ => Loose.behind p.solid (Param.typeLoose t)

theorem Param.allSolid : (ps : List Param) → ∀ ws ∈ Param.wordLists ps, Solid ws
  | [] => nofun
  | p :: ps => List.forall_mem_cons.2 ⟨p.solid, Param.allSolid ps⟩

end

/-! ## Declarations -/

theorem Attribute.solid (a : Attribute) : Solid a.words := by
  have args : Loose (a.args.elim [] fun es =>
      .punct .openParen :: Word.commas (Expr.wordLists es) ++ [.punct .closeParen]) := by
    cases a.args with
    | none => exact .nil
    | some es => exact .inr (solid_enclosed (TokenKind.ne_of_tag Tag.noConfusion) (Expr.allSolid es) (TokenKind.ne_of_tag Tag.noConfusion))
  exact Loose.behind (a.path.solid.cons (TokenKind.ne_of_tag Tag.noConfusion)) args

theorem ParamList.solid (a : ParamList) : Solid a.words :=
  solid_enclosed (TokenKind.ne_of_tag Tag.noConfusion) (Param.allSolid a.params) (TokenKind.ne_of_tag Tag.noConfusion)

theorem ParamList.allLoose (as : List ParamList) : Loose (as.flatMap ParamList.words) := by
  rw [List.flatMap_def]
  exact loose_flatten (List.forall_mem_map.2 fun a _ => a.solid)

theorem Signature.solid (a : Signature) : Solid a.words :=
  Loose.behind (Loose.behind (Loose.behind a.name.solid (ParamList.allLoose a.params))
    (Param.typeLoose a.type)) (Block.optionalLoose a.value)

theorem Clause.solid (a : Clause) : Solid a.words :=
  (Loose.behind a.name.solid (Pattern.argsLoose a.patterns)).append
    ((Expr.optionalLoose a.value).cons (TokenKind.ne_of_tag Tag.noConfusion))

theorem CtorParam.solid : (a : CtorParam) → Solid a.words
  | positional t => t.solid
  | named x t => (t.solid.cons (TokenKind.ne_of_tag Tag.noConfusion)).cons (nameKind_ne x.name)

theorem Ctor.solid (a : Ctor) : Solid a.words := by
  refine Loose.behind a.name.solid ?_
  cases a.form with
  | typed t => exact .inr (t.solid.cons (TokenKind.ne_of_tag Tag.noConfusion))
  | applied ps =>
    cases ps with
    | none => exact .nil
    | some ps =>
      exact .inr (solid_enclosed (TokenKind.ne_of_tag Tag.noConfusion) (List.forall_mem_map.2 fun a _ => a.solid)
        (TokenKind.ne_of_tag Tag.noConfusion))

theorem ctorWords_solid {as : List Ctor} (some : as ≠ []) : Solid (ctorWords as) := by
  induction as with
  | nil => exact absurd rfl some
  | cons a as ih =>
    cases as with
    | nil => exact a.solid
    | cons a' as =>
      have all := (a.solid.snoc (k := .punct .comma) (TokenKind.ne_of_tag Tag.noConfusion)).line false
        (ih (List.cons_ne_nil _ _))
      rwa [List.append_assoc] at all

theorem methodWords_solid {ws : List Word} (h : Solid ws) (semicolon : Bool) (as : List Signature) :
    Solid (ws ++ methodWords semicolon as) := by
  induction as generalizing ws semicolon with
  | nil => rwa [methodWords, List.append_nil]
  | cons a as ih =>
    have all := ih (h.line semicolon a.solid) false
    rwa [List.append_assoc] at all

theorem TypeBody.solid (sort : TypeSort) (a : TypeBody) : Solid (a.words sort) := by
  have opens : Solid [.punct .openBrace] := .token (TokenKind.ne_of_tag Tag.noConfusion)
  have closes : Solid [.punct .closeBrace] := .token (TokenKind.ne_of_tag Tag.noConfusion)
  unfold TypeBody.words
  split
  · exact opens.append closes
  · refine (methodWords_solid ?_ _ _).line false closes
    cases h : a.ctors with
    | nil => exact opens
    | cons c cs => exact opens.line false (ctorWords_solid (List.cons_ne_nil c cs))

theorem TypeDecl.solid (a : TypeDecl) : Solid a.words := by
  have visibility : Loose (a.visibility.elim [] fun v => [.keyword v.1.keyword]) := by
    cases a.visibility with
    | none => exact .nil
    | some v => exact .inr (.token (TokenKind.ne_of_tag Tag.noConfusion))
  have body : Loose (a.body.elim [] (TypeBody.words a.sort)) := by
    cases a.body with
    | none => exact .nil
    | some b => exact .inr (b.solid a.sort)
  exact visibility.before ((Loose.behind (Loose.behind (Loose.behind a.name.solid
    (ParamList.allLoose a.params)) (Param.typeLoose a.type)) body).cons (TokenKind.ne_of_tag Tag.noConfusion))

theorem DeclForm.solid {a : DeclForm} (h : a ≠ .error) : Solid a.words := by
  cases a with
  | uses p => exact p.solid.cons (TokenKind.ne_of_tag Tag.noConfusion)
  | command n args =>
    exact Loose.behind (n.solid.cons (TokenKind.ne_of_tag Tag.noConfusion)) (loose_flatten (Expr.allSolid args))
  | type d => exact d.solid
  | signature s => exact s.solid
  | clause c => exact c.solid
  | error => exact absurd rfl h

theorem Decl.solid {a : Decl} (h : a.form ≠ .error) : Solid a.words := by
  have lines : ∀ as : List Attribute,
      Solid ((as.flatMap fun a => a.words ++ [.lineBreak]) ++ a.form.words) := by
    intro as
    induction as with
    | nil => exact DeclForm.solid h
    | cons a as ih =>
      have all := a.solid.line false ih
      rwa [List.flatMap_cons, List.append_assoc, List.append_assoc]
  exact lines a.attributes

theorem Item.solid {a : Item} (h : a.isError = false) : Solid a.words := by
  cases a with
  | decl d =>
    refine Decl.solid fun error => ?_
    have sound : d.isError = false := h
    unfold Decl.isError at sound
    rw [error] at sound
    cases sound
  | stmt s => exact s.solid h

end Surface
