import Surface.Proofs.Canonical.Texts
import Surface.Proofs.Printing.Contents

/-!
# The content of words

Where nothing is given up the words of a node have the names, literals and operators of the tokens that the
node is derived from. What the canonical layout leaves out or adds is no content: parentheses of patterns,
commas and line breaks.

Results:
* `Word.contents`: the content of words.
* `ExprAt.carries`, ..., `ItemsAt.carries`: the content of the words of nodes.
-/

namespace Surface

namespace Word

/-- The content of words in order. -/
def contents (ws : List Word) : List TokenKind := ws.flatMap fun w => w.1.content

variable (ws ws' : List Word) (wss : List (List Word))

theorem contents_append : contents (ws ++ ws') = contents ws ++ contents ws' := List.flatMap_append

/-- A word that is no content between others. -/
theorem contents_mid {w : Word} (h : w.1.content = []) :
    contents (ws ++ w :: ws') = contents ws ++ contents ws' := by
  rw [contents_append]
  show _ ++ (w.1.content ++ contents ws') = _
  rw [h]
  rfl

theorem contents_commas : contents (commas wss) = wss.flatMap contents := by
  induction wss with
  | nil => rfl
  | cons ws wss ih =>
    cases wss with
    | nil => exact (List.append_nil _).symm
    | cons ws' wss => exact (contents_mid ws _ rfl).trans (congrArg (contents ws ++ ·) ih)

/-- Words with commas between them, between brackets or bars. -/
theorem contents_enclosed {w w' : Word} (h : w.1.content = []) (h' : w'.1.content = []) :
    contents (w :: commas wss ++ w' :: ws) = wss.flatMap contents ++ contents ws :=
  (contents_mid _ _ h').trans (congrArg (· ++ contents ws)
    ((contents_mid [] _ h).trans (contents_commas wss)))

theorem contents_parenthesizedIf (b : Bool) : contents (parenthesizedIf b ws) = contents ws := by
  cases b with
  | true => exact (contents_mid ws [] rfl).trans (List.append_nil _)
  | false => rfl

theorem contents_lines : contents (wss.flatMap fun ws => .lineBreak :: ws) = wss.flatMap contents := by
  induction wss with
  | nil => rfl
  | cons ws wss ih => rw [List.flatMap_cons, contents_append, ih]; rfl

theorem contents_braced {isEmpty : Bool} (h : isEmpty = true → wss = []) :
    contents (braced isEmpty wss) = wss.flatMap contents := by
  cases isEmpty with
  | true =>
    rw [h rfl]
    rfl
  | false => exact (contents_mid _ _ rfl).trans ((List.append_nil _).trans (contents_lines wss))

end Word

namespace Grammar

variable {S : Setting} {b : Bool} {i j k l : Nat} {ks : List TokenKind} {ws ws' : List Word}
  {wss : List (List Word)}

/-! ## Names, operators and patterns -/

namespace Carries

/-- A token that is read as a word. -/
theorem word {w : TokenKind} (h : S.kind i = w) (error : w.tag ≠ .error) :
    Carries S i (S.next b i) w.content := by
  subst h
  exact .one (by rwa [← S.tag_kind])

/-- Words behind others. -/
theorem words (h : Carries S i k (Word.contents ws)) (h' : Carries S k j (Word.contents ws')) :
    Carries S i j (Word.contents (ws ++ ws')) := by
  rw [Word.contents_append]
  exact h.append h'

/-- Words behind others and a word that is no content. -/
theorem between {w : Word} (hw : w.1.content = []) (h : Carries S i k (Word.contents ws))
    (h' : Carries S k j (Word.contents ws')) : Carries S i j (Word.contents (ws ++ w :: ws')) := by
  rw [Word.contents_mid ws ws' hw]
  exact h.append h'

/-- Behind what is no content. -/
theorem behind (h : Carries S i k []) (h' : Carries S k j ks) : Carries S i j ks := h.append h'

end Carries

theorem Setting.NameAt.carries {x : Ident} (s : S.Source) (h : S.NameAt i x) :
    Carries S i (S.next b i) (nameKind x.name).content := by
  refine .word (h.kind_eq s) ?_
  unfold nameKind
  split <;> exact Tag.noConfusion

theorem SegmentsAt.carries {xs : List Ident} (s : S.Source) (h : SegmentsAt S b i xs j) :
    Carries S i j (Word.contents (xs.flatMap fun x => [.reserved .dot, .token (nameKind x.name)])) := by
  induction h with
  | stop _ => exact .done
  | more dotted hx _ ih => exact (Carries.reserved dotted.1).append ((hx.carries s).append ih)

theorem PathAt.carries {p : Path} (s : S.Source) (h : PathAt S b i p j) :
    Carries S i j (Word.contents p.words) := (h.head.carries s).append (h.tail.carries s)

theorem literal_carries {v : Literal} (h : (S.kind i).literal? = some v) :
    Carries S i (S.next b i) (Word.contents [.token v.kind]) := by
  refine (Carries.word (kind_of_literal? h).1.symm ?_).append .done
  cases v <;> exact Tag.noConfusion

/-- An operator, or a bar where bars do not end parameters; a bar is no content. -/
theorem operator_carries {c : Context} {symbols : String} (s : S.Source)
    (h : S.operator? c i = some symbols) : Carries S i (S.next b i) (operatorKind symbols).content := by
  refine .word (s.kind_of_operator h) ?_
  unfold operatorKind
  split <;> exact Tag.noConfusion

mutual

theorem AtomAt.carries (s : S.Source) {b i p j} : AtomAt S b i p j → Carries S i j (Word.contents p.words)
  | .literal hv _ => literal_carries hv
  | .path h _ => (h.carries s).words .done
  | .rest h _ => .reserved h
  | .group h hp hk => .behind (.punct h) ((hp.carries s).before (.punct hk))

theorem PatternAt.carries (s : S.Source) {b i p j} :
    PatternAt S b i p j → Carries S i j (Word.contents p.words)
  | .cons h hs _ => (h.carries s).words (hs.carries s)
  | .atom _ h => h.carries s

theorem PatternArgsAt.carries (s : S.Source) {b i ps j} :
    PatternArgsAt S b i ps j → Carries S i j (Word.contents (Pattern.argWords ps))
  | .stop _ => .done
  | .more h hs => by
    rw [Pattern.argWords, Word.contents_append, Word.contents_parenthesizedIf]
    exact (h.carries s).append (hs.carries s)

end

/-! ## Lists between brackets and lines between braces -/

/-- What stands between brackets, with commas between the parts. -/
theorem Carries.enclosed {p : Punct} {w : Word} (hi : S.tag i = .punct p)
    (h : Carries S (S.next true i) k (wss.flatMap Word.contents)) (hw : w.1.content = [])
    (h' : Carries S k j (Word.contents ws)) :
    Carries S i j (Word.contents (.punct p :: Word.commas wss ++ w :: ws)) := by
  rw [Word.contents_enclosed ws wss rfl hw]
  exact (Carries.punct hi).append (h.append h')

/-- Lines between braces. -/
theorem Carries.braced {isEmpty : Bool} (hi : S.tag i = .punct .openBrace)
    (h : Carries S (S.past (S.next false i)) k (wss.flatMap Word.contents)) (he : isEmpty = true → wss = [])
    (hk : S.tag k = .punct .closeBrace) :
    Carries S i (S.next b k) (Word.contents (Word.braced isEmpty wss)) := by
  rw [Word.contents_braced wss he]
  exact .behind (.punct hi) ((Carries.past _).append (h.before (.punct hk)))

theorem Arm.wordLists_of_isEmpty {as : List Arm} (h : as.isEmpty = true) : Arm.wordLists as = [] := by
  rw [List.isEmpty_iff.1 h]
  rfl

theorem Stmt.wordLists_of_isEmpty {ss : List Stmt} (h : ss.isEmpty = true) : Stmt.wordLists ss = [] := by
  rw [List.isEmpty_iff.1 h]
  rfl

theorem tuple_carries {m : Mark} {es : List Expr} {trailing : Bool} (hi : S.tag i = .punct .openParen)
    (h : Carries S (S.next true i) k ((Expr.wordLists es).flatMap Word.contents))
    (hk : S.tag k = .punct .closeParen) :
    Carries S i (S.next b k) (Word.contents (Expr.tuple m es trailing).words) := by
  have closes : Carries S k (S.next b k) [] := .punct hk
  rw [Expr.words, List.append_assoc]
  cases trailing with
  | true => exact .enclosed (w := .punct .comma) hi h rfl closes
  | false => exact .enclosed (w := .punct .closeParen) hi h rfl closes

/-- The bars of a function, one token for both if it has no parameters. -/
theorem lambda_carries {m : Mark} {ps : List Param} {e : Expr} (h : Carries S i k
      ((Param.wordLists ps).flatMap Word.contents)) (h' : Carries S k j (Word.contents e.words)) :
    Carries S i j (Word.contents (Expr.lambda m ps e).words) := by
  cases ps with
  | nil => exact h.append h'
  | cons p ps =>
    rw [Expr.words, Word.contents_enclosed _ _ rfl rfl]
    · exact h.append h'
    · exact nofun

/-! ## Expressions and statements -/

mutual

theorem ExprAt.carries (s : S.Source) (ok : ¬ S.flawed) {c b i e j} :
    ExprAt S c b i e j → Carries S i j (Word.contents e.words)
  | .binary _ h _ _ _ => h.carries s ok
  | .arrow _ h hk h' _ => .between rfl (h.carries s ok)
    (.behind (.reserved hk) ((Carries.past _).append (h'.carries s ok)))
  | .ascription _ h hk h' _ => .between rfl (h.carries s ok) (.behind (.punct hk) (h'.carries s ok))
  | .pi _ hi h hk ha h' _ | .sigma _ hi h hk ha h' _ => .enclosed hi (h.carries s ok) rfl
    (.behind (.punct hk) (.behind (.reserved ha) ((Carries.past _).append (h'.carries s ok))))

theorem ChainAt.carries (s : S.Source) (ok : ¬ S.flawed) {c b i e j} :
    ChainAt S c b i e j → Carries S i j (Word.contents e.words)
  | .one h => h.carries s ok
  | .more h hk _ h' _ => (h.carries s ok).words
    ((operator_carries s hk).append ((Carries.past _).append (h'.carries s ok)))

theorem ApplicationAt.carries (s : S.Source) (ok : ¬ S.flawed) {c b i e j} :
    ApplicationAt S c b i e j → Carries S i j (Word.contents e.words)
  | .bare h _ => h.carries s ok
  | .types _ h h' _ => (h.carries s ok).words (h'.carries s ok)
  | .plain _ h h' _ _ => ((h.carries s ok).words (h'.carries s ok)).words .done
  | .block _ h h' _ h'' _ => ((h.carries s ok).words (h'.carries s ok)).words (h''.carries s ok)

theorem ArgsAt.carries (s : S.Source) (ok : ¬ S.flawed) {c b i es j} :
    ArgsAt S c b i es j → Carries S i j (Word.contents (Expr.wordLists es).flatten)
  | .stop _ => .done
  | .more _ h h' => (h.carries s ok).words (h'.carries s ok)

theorem PrimaryAt.carries (s : S.Source) (ok : ¬ S.flawed) {c b i e j} :
    PrimaryAt S c b i e j → Carries S i j (Word.contents e.words)
  | .literal hv _ => literal_carries hv
  | .name h _ => by
    have name := h.carries s
    rwa [Path.words, List.flatMap_nil] at name
  | .path h _ => h.carries s
  | .tuple hi h hk _ => tuple_carries hi (h.carries s ok) hk
  | .array hi h hk _ => .enclosed hi (h.carries s ok) rfl (.punct hk)
  | .conditional hi h h' he h'' _ => .behind (.keyword hi) (.between rfl
    ((h.carries s ok).words (h'.carries s ok))
    ((Carries.past _).append (.behind (.keyword he.past) (h''.carries s ok))))
  | .matchOn hi h hk h' hl _ =>
    .behind (.keyword hi) ((h.carries s ok).words (.braced hk (h'.carries s ok) Arm.wordLists_of_isEmpty hl))
  | .returns hi _ h _ => .behind (.keyword hi) (h.carries s ok)
  | .returnsNothing hi _ _ => .keyword hi
  | .lambda hi h hk h' _ =>
    lambda_carries (.behind (.word hi Tag.noConfusion) (h.carries s ok))
      (.behind (.reserved hk) (h'.carries s ok))
  | .thunk hi h _ => lambda_carries (.word hi Tag.noConfusion) (h.carries s ok)

theorem ExprsAt.carries (s : S.Source) (ok : ¬ S.flawed) {t c b i es tr j} :
    ExprsAt S t c b i es tr j → Carries S i j ((Expr.wordLists es).flatMap Word.contents)
  | .none _ => .done
  | .last h _ _ => (h.carries s ok).append .done
  | .more h hk h' => (h.carries s ok).append (.behind (.punct hk) (h'.carries s ok))

theorem ParamsAt.carries (s : S.Source) (ok : ¬ S.flawed) {t c b i ps tr j} :
    ParamsAt S t c b i ps tr j → Carries S i j ((Param.wordLists ps).flatMap Word.contents)
  | .none _ => .done
  | .last h _ _ => (h.carries s ok).append .done
  | .more h hk h' => (h.carries s ok).append (.behind (.punct hk) (h'.carries s ok))

theorem ParamAt.carries (s : S.Source) (ok : ¬ S.flawed) {c b i a j} :
    ParamAt S c b i a j → Carries S i j (Word.contents a.words)
  | .typed h hk h' _ => .between rfl (h.carries s) (.behind (.punct hk) (h'.carries s ok))
  | .untyped h _ _ => (h.carries s).words .done

theorem ThenAt.carries (s : S.Source) (ok : ¬ S.flawed) {c b i t j} :
    ThenAt S c b i t j → Carries S i j (Word.contents t.thenWords)
  | .block _ h => h.carries s ok
  | .expr hi h => .behind (.keyword hi) (h.carries s ok)

theorem BodyAt.carries (s : S.Source) (ok : ¬ S.flawed) {c b i t j} :
    BodyAt S c b i t j → Carries S i j (Word.contents t.words)
  | .block _ h => h.carries s ok
  | .expr _ h => h.carries s ok

theorem ArmsAt.carries (s : S.Source) (ok : ¬ S.flawed) {i as j} :
    ArmsAt S i as j → Carries S i j ((Arm.wordLists as).flatMap Word.contents)
  | .none => .done
  | .comma h hk h' =>
    (h.carries s ok).append (.behind (.punct hk) ((Carries.past _).append (h'.carries s ok)))
  | .broken h _ h' => (h.carries s ok).append ((Carries.past _).append (h'.carries s ok))
  | .last h _ => (h.carries s ok).append .done

theorem ArmAt.carries (s : S.Source) (ok : ¬ S.flawed) {i a j} :
    ArmAt S i a j → Carries S i j (Word.contents a.words)
  | .mk h hk h' _ => .between rfl
    (.between rfl (h.carries s) (.behind (.reserved hk) ((Carries.past _).append (h'.carries s ok)))) .done

theorem BlockAt.carries (s : S.Source) (ok : ¬ S.flawed) {b i t j} :
    BlockAt S b i t j → Carries S i j (Word.contents t.words)
  | .mk hi h hk _ => .braced hi (h.carries s ok) Stmt.wordLists_of_isEmpty hk

theorem StmtsAt.carries (s : S.Source) (ok : ¬ S.flawed) {i ss j} :
    StmtsAt S i ss j → Carries S i j ((Stmt.wordLists ss).flatMap Word.contents)
  | .none => .done
  | .more h _ h' => by
    rw [Stmt.wordLists, if_neg (by rw [h.isError_eq]; exact Bool.false_ne_true)]
    exact (h.carries s ok).append ((Carries.past _).append (h'.carries s ok))
  | .error hf _ _ _ => absurd hf ok

theorem StmtAt.carries (s : S.Source) (ok : ¬ S.flawed) {c b i a j} :
    StmtAt S c b i a j → Carries S i j (Word.contents a.words)
  | .letIn hi h hk h' _ =>
    .behind (.keyword hi) (.between rfl (h.carries s) (.behind (.reserved hk) (h'.carries s ok)))
  | .conditional hi h h' _ _ => .behind (.keyword hi) (((h.carries s ok).words (h'.carries s ok)).words .done)
  | .branches hi h h' he h'' _ => .behind (.keyword hi) (((h.carries s ok).words (h'.carries s ok)).words
    ((Carries.past _).append (.behind (.keyword he.past) (h''.carries s ok))))
  | .ask _ _ _ h hk h' _ => .between rfl (h.carries s)
    (.behind (.reserved hk) ((Carries.past _).append (h'.carries s ok)))
  | .expr _ _ _ h _ => h.carries s ok

end

/-! ## Parts of declarations -/

variable (s : S.Source) (ok : ¬ S.flawed)

include s ok

theorem ParamListAt.carries {a : ParamList} (h : ParamListAt S i a j) :
    Carries S i j (Word.contents a.words) := by
  cases h with
  | explicit hi h hk _ => exact .enclosed hi (h.carries s ok) rfl (.punct hk)
  | implicit hi _ h hk _ => exact .enclosed hi (h.carries s ok) rfl (.punct hk)

theorem ParamListsAt.carries {as : List ParamList} (h : ParamListsAt S i as j) :
    Carries S i j (Word.contents (as.flatMap ParamList.words)) := by
  induction h with
  | stop _ => exact .done
  | more h _ ih => exact (h.carries s ok).words ih

theorem OptionalTypeAt.carries {t : Option Expr} (h : OptionalTypeAt S i t j) :
    Carries S i j (Word.contents (Param.typeWords t)) := by
  cases h with
  | some hi h => exact .behind (.punct hi) (h.carries s ok)
  | none _ => exact .done

theorem SignatureAt.carries {a : Signature} (h : SignatureAt S i a j) :
    Carries S i j (Word.contents a.words) := by
  obtain ⟨name, params, type, value, _⟩ := h
  refine (((name.carries s).words (params.carries s ok)).words (type.carries s ok)).words ?_
  cases value with
  | some _ h => exact h.carries s ok
  | none _ => exact .done

omit ok in
theorem ClausePatternsAt.carries {ps : List Pattern} (h : ClausePatternsAt S i ps j) :
    Carries S i j (Word.contents (Pattern.argWords ps)) ∧ S.tag j = .reserved .eq := by
  induction h with
  | stop h => exact ⟨.done, h⟩
  | more _ h _ ih =>
    rw [Pattern.argWords, Word.contents_append, Word.contents_parenthesizedIf]
    exact ⟨(h.carries s).append ih.1, ih.2⟩

theorem ClauseAt.carries {a : Clause} (h : ClauseAt S i a j) : Carries S i j (Word.contents a.words) := by
  obtain ⟨name, patterns, value, _⟩ := h
  obtain ⟨patterns, eq⟩ := patterns.carries s
  refine .between rfl ((name.carries s).words patterns) (.behind (.reserved (b := false) eq) ?_)
  cases value with
  | some _ _ h => exact h.carries s ok
  | none _ => exact .done

omit s ok in
theorem Listed.carries {α : Type} {P : Nat → α → Nat → Prop} {words : α → List Word} {t : Tag}
    {as : List α} {f : Bool} (hP : ∀ i a j, P i a j → Carries S i j (Word.contents (words a)))
    (h : Listed S t b P i as f j) : Carries S i j ((as.map words).flatMap Word.contents) := by
  induction h with
  | none _ => exact .done
  | last h _ _ => exact (hP _ _ _ h).append .done
  | more h hk _ ih => exact (hP _ _ _ h).append (.behind (.punct hk) ih)

theorem CtorParamAt.carries {a : CtorParam} (h : CtorParamAt S i a j) :
    Carries S i j (Word.contents a.words) := by
  cases h with
  | named hx hc h =>
    have colon : S.tag (S.next true i) = .punct .colon := by
      rw [S.next_of_tag hc Tag.noConfusion, hc]
    exact (hx.carries s).append (.behind (.punct colon) (h.carries s ok))
  | positional _ h => exact h.carries s ok

theorem CtorAt.carries {a : Ctor} (h : CtorAt S i a j) : Carries S i j (Word.contents a.words) := by
  obtain ⟨name, form, _⟩ := h
  refine (name.carries s).words ?_
  cases form with
  | typed hi h => exact .behind (.punct hi) (h.carries s ok)
  | params hi h hk =>
    exact .enclosed hi (h.carries fun _ _ _ h => h.carries s ok) rfl (.punct hk)
  | bare _ _ => exact .done

omit s ok in
theorem CtorsEndAt.carries (h : CtorsEndAt S i j) : Carries S i j [] := by
  cases h with
  | comma hi _ => exact .silent hi (by decide)
  | broken _ _ _ => exact .past i
  | semicolon _ | other _ _ => exact .done

theorem CtorsAt.carries {as : List Ctor} (h : CtorsAt S i as j) :
    Carries S i j (Word.contents (ctorWords as)) := by
  induction h with
  | none _ => exact .done
  | last _ h he => exact (h.carries s ok).before he.carries
  | @more i a k as j _ h hk _ _ ih =>
    have behind : Carries S k (S.past (k + 1)) [] := (Carries.silent hk (by decide)).append (.past _)
    cases as with
    | nil => exact (h.carries s ok).before (behind.append ih)
    | cons a' as => exact .between rfl (h.carries s ok) (behind.append ih)

theorem MethodsAt.carries {as : List Signature} (h : MethodsAt S i as j) (semicolon : Bool) :
    Carries S i j (Word.contents (methodWords semicolon as)) := by
  induction h generalizing semicolon with
  | none _ => exact .done
  | last _ h _ => exact (h.carries s ok).words .done
  | more _ h _ _ ih => exact (h.carries s ok).words ((Carries.past _).append (ih false))

theorem MembersAt.carries {sort : TypeSort} {cs : List Ctor} {ms : List Signature}
    (h : MembersAt S i sort cs ms j) :
    Carries S i j (Word.contents ((if cs.isEmpty then [] else .lineBreak :: ctorWords cs)
      ++ methodWords (sort != .trait) ms)) := by
  have ctors {cs : List Ctor} {k : Nat} (h : CtorsAt S (S.past i) cs k) :
      Carries S i k (Word.contents (if cs.isEmpty then [] else .lineBreak :: ctorWords cs)) := by
    have all := (Carries.past i).append (h.carries s ok)
    cases cs <;> exact all
  have methods {ms : List Signature} {k : Nat} (h : MethodsAt S (S.past k) ms j) :
      Carries S k j (Word.contents (methodWords (sort != .trait) ms)) :=
    (Carries.past k).append (h.carries s ok _)
  cases h with
  | trait h | methods _ _ h => exact methods h
  | ctors _ _ h _ => exact (ctors h).words .done
  | both _ _ h _ h' => exact (ctors h).words (methods h')

theorem OptionalBodyAt.carries {sort : TypeSort} {t : Option TypeBody} (h : OptionalBodyAt S sort i t j) :
    Carries S i j (Word.contents (t.elim [] (TypeBody.words sort))) := by
  cases h with
  | none _ => exact .done
  | @some cs ms k _ hi h hk _ =>
    have closes : Carries S k (S.next false (S.past k)) [] := (Carries.past k).append (.punct hk)
    have members := Carries.behind (.punct hi) ((h.carries s ok).before closes)
    show Carries S i _ (Word.contents (TypeBody.words sort _))
    unfold TypeBody.words
    split
    · next none =>
      rw [Bool.and_eq_true, List.isEmpty_iff, List.isEmpty_iff] at none
      obtain ⟨rfl, rfl⟩ : cs = [] ∧ ms = [] := none
      exact members
    · have front : Carries S i _ (Word.contents (.punct .openBrace :: _)) := members
      exact .between rfl front .done

theorem TypeDeclAt.carries {a : TypeDecl} (h : TypeDeclAt S i a j) :
    Carries S i j (Word.contents a.words) := by
  obtain ⟨visible, sort, name, params, type, body⟩ := h
  have keyword := Carries.mark (S := S) (b := false) rfl (contentTags_of_type (typeTags_of_typeSort sort))
  refine .between rfl ?_ (keyword.append
    ((((name.carries s).words (params.carries s ok)).words (type.carries s ok)).words (body.carries s ok)))
  cases visible with
  | none _ => exact .done
  | some h _ => exact .mark rfl (contentTags_of_type (typeTags_of_visibility h))

/-! ## Declarations and items -/

theorem DeclFormAt.carries {a : DeclForm} (h : DeclFormAt S i a j) :
    Carries S i j (Word.contents a.words) := by
  cases h with
  | uses hi h => exact .behind (.keyword hi) (h.carries s)
  | command hi hn has => exact .behind (.punct hi) ((hn.carries s).words (has.carries s ok))
  | type h => exact h.carries s ok
  | clause _ _ h => exact h.carries s ok
  | signature _ _ h => exact h.carries s ok

theorem AttrAt.carries {a : Attribute} (h : AttrAt S i a j) : Carries S i j (Word.contents a.words) := by
  obtain ⟨hi, path, args, _⟩ := h
  refine .behind (.punct hi) ((path.carries s).words ?_)
  cases args with
  | some hi h hk => exact .enclosed hi (h.carries s ok) rfl (.punct hk)
  | none _ => exact .done

theorem AttrsAt.carries {as : List Attribute} (h : AttrsAt S i as j) :
    Carries S i j (Word.contents (as.flatMap fun a => a.words ++ [.lineBreak])) := by
  induction h with
  | stop _ => exact .done
  | more h _ ih => exact (Carries.between rfl (h.carries s ok) (.past _)).words ih

theorem ItemAt.carries {docsFrom : Nat} {a : Item} (h : ItemAt S docsFrom i a j) :
    Carries S i j (Word.contents a.words) := by
  cases h with
  | decl _ _ h _ =>
    obtain ⟨_, attrs, form, _⟩ := h
    exact (attrs.carries s ok).words (form.carries s ok)
  | stmt _ _ h _ => exact h.carries s ok
  | errorDecl hf _ _ _ | errorStmt hf _ _ _ => exact absurd hf ok

theorem ItemsAt.carries {docsFrom : Nat} {as : List Item} (h : ItemsAt S docsFrom i as) :
    ∃ j, S.tag j = .eof ∧ Carries S i j (as.flatMap fun a => Word.contents a.words) := by
  induction h with
  | @stop _ i hi => exact ⟨i, hi, .done⟩
  | more _ h _ ih =>
    obtain ⟨j, hj, rest⟩ := ih
    exact ⟨j, hj, (h.carries s ok).append ((Carries.past _).append rest)⟩

end Grammar

end Surface
