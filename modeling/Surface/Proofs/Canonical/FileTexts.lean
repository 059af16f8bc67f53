import Surface.Proofs.Canonical.Files
import Surface.Proofs.Canonical.Texts

/-!
# Texts of declarations and files

The documents of declarations spell the words of the declaration, and the document of a file spells
that of its items one by one, each on a line of its own.

Results:
* `SignatureAt.renders`, `TypeDeclAt.renders`, `DeclAt.renders`: declarations.
* `ItemsAt.renders`: items.
-/

namespace Surface

open Lexeme (signs Sign)
open Doc (commas concat spaced)

namespace Renders

variable {A B Z : Edge} {d : Doc} {ds : List Doc} {ws ws' : List Word}

/-- Documents on lines of their own, one line more. -/
theorem lines_cons (h : Renders A B d ws) (h' : Renders A A (lines ds) ws') :
    Renders A A (lines (d :: ds)) ((ws ++ [.lineBreak]) ++ ws') := by
  rw [Doc.lines_cons]
  exact (h.append .newline).append h'

theorem lines_nil : Renders A A (lines []) [] := .empty A.refl

end Renders

namespace Grammar

variable {S : Setting} {A Z : Edge} {b : Bool} {i j k : Nat}

/-! ## Parts of declarations -/

theorem ParamListAt.renders {a : ParamList} (s : S.Source) (h : ParamListAt S i a j)
    (hd : ∀ x ∈ a.details, x.Apart) : Renders .any Z a.doc a.words := by
  cases h with
  | explicit _ h _ _ =>
    have opens : Renders .any .any (.text "(") [.punct .openParen] :=
      .word (TokenKind.ne_of_tag Tag.noConfusion) (.punct .openParen (Edge.any_takes _))
    exact .enclosed opens (Renders.listed (h.renders s hd)) (close_renders (s := ")") .closeParen rfl)
  | implicit _ _ h _ _ =>
    have opens : Renders .any .any (.text "[") [.punct .openBracket] :=
      .word (TokenKind.ne_of_tag Tag.noConfusion) (.punct .openBracket (Edge.any_takes _))
    exact .enclosed opens (Renders.listed (h.renders s hd)) (close_renders (s := "]") .closeBracket rfl)

theorem ParamListsAt.renders {as : List ParamList} (s : S.Source) (h : ParamListsAt S i as j)
    (hd : ∀ x ∈ as.flatMap ParamList.details, x.Apart) :
    Extends (spaced (as.map ParamList.doc)) (as.flatMap ParamList.words) := by
  induction h with
  | stop _ => exact .spaced_nil
  | more h _ ih =>
    obtain ⟨first, rest⟩ := List.forall_mem_append.1 hd
    exact .spaced_cons (h.renders s first) (ih rest)

theorem OptionalTypeAt.renders {t : Option Expr} (s : S.Source) (h : OptionalTypeAt S i t j)
    (hd : ∀ x ∈ Expr.optionalDetails t, x.Apart) : Extends (optionalTypeDoc t) (Param.typeWords t) := by
  cases h with
  | some _ h => exact .of_renders (spaced_colon_renders.behind (h.renders s hd))
  | none _ => exact .empty

theorem OptionalBlockAt.renders {t : Option Block} (s : S.Source) (h : OptionalBlockAt S i t j)
    (hd : ∀ x ∈ Block.optionalDetails t, x.Apart) :
    Extends (spaced (Block.optionalDocs t)) (Block.optionalWords t) := by
  cases h with
  | some _ h => exact .spaced_one (h.renders s hd)
  | none _ => exact .spaced_nil

theorem SignatureAt.renders {a : Signature} (s : S.Source) (h : SignatureAt S i a j)
    (hd : ∀ x ∈ a.details, x.Apart) : Renders (.fresh False) (.ends a.words) a.doc a.words := by
  obtain ⟨name, params, type, value, _⟩ := h
  obtain ⟨path, hd⟩ := List.forall_mem_cons.1 hd
  obtain ⟨first, hd⟩ := List.forall_mem_append.1 hd
  obtain ⟨second, third⟩ := List.forall_mem_append.1 hd
  have front := (name.renders s path).left (Edge.fresh_le False.elim)
  exact ((front.extend (params.renders s first)).extend (type.renders s second)).extend
    (value.renders s third)

theorem ClausePatternsAt.renders {ps : List Pattern} (s : S.Source) (h : ClausePatternsAt S i ps j)
    (hd : ∀ x ∈ Pattern.allDetails ps, x.Apart) :
    Extends (spaced (Pattern.argDocs ps)) (Pattern.argWords ps) := by
  induction h with
  | stop _ => exact .spaced_nil
  | more _ h _ ih =>
    obtain ⟨first, rest⟩ := List.forall_mem_append.1 hd
    exact .spaced_cons (parenthesizedIf_renders (h.renders s first)) (ih rest)

theorem ClauseAt.renders {a : Clause} (s : S.Source) (h : ClauseAt S i a j)
    (hd : ∀ x ∈ a.details, x.Apart) : Renders (.fresh False) .apart a.doc a.words := by
  obtain @⟨n, k, ps, l, v, _, _, name, patterns, value, _⟩ := h
  obtain ⟨path, hd⟩ := List.forall_mem_cons.1 hd
  obtain ⟨first, second⟩ := List.forall_mem_append.1 hd
  have equals {A : Edge} : Renders A .apart (.text " =") [.reserved .eq] :=
    .word (TokenKind.ne_of_tag Tag.noConfusion) (.blank_append
      ((Spells.reserved .eq (A := .any) fun _ => trivial).right Edge.apart_le_symbolEnd))
  have values : Renders .apart .apart (spaced (Expr.optionalDocs v)) (Expr.optionalWords v) := by
    cases value with
    | some _ _ h =>
      have one := Renders.append (A := .apart) .space ((h.renders s second).right Edge.apart_le_ends)
      rw [← List.append_nil (Expr.optionalWords _)]
      exact one.append (.empty (Edge.refl _))
    | none _ => exact .empty (Edge.refl _)
  have front := (name.renders s path).left (Edge.fresh_le False.elim)
  have all := ((front.extend (patterns.renders s first)).append equals).append values
  rwa [List.append_assoc _ [Word.reserved .eq]] at all

theorem Listed.renders {α : Type} {P : Nat → α → Nat → Prop} {doc : α → Doc} {words : α → List Word}
    {details : α → List Detail} {t : Tag} {as : List α} {f : Bool}
    (hP : ∀ i a j, P i a j → (∀ x ∈ details a, x.Apart) → Renders A .apart (doc a) (words a))
    (h : Listed S t b P i as f j) (hd : ∀ x ∈ as.flatMap details, x.Apart) :
    List.Forall₂ (Renders A .apart) (as.map doc) (as.map words) := by
  induction h with
  | none _ => exact .nil
  | last h _ _ => exact .cons (hP _ _ _ h (List.forall_mem_append.1 hd).1) .nil
  | more h _ _ ih =>
    obtain ⟨first, rest⟩ := List.forall_mem_append.1 hd
    exact .cons (hP _ _ _ h first) (ih rest)

theorem CtorParamAt.renders {a : CtorParam} (s : S.Source) (h : CtorParamAt S i a j)
    (hd : ∀ x ∈ a.details, x.Apart) : Renders (.fresh False) (.ends a.words) a.doc a.words := by
  cases h with
  | named hx _ h =>
    obtain ⟨path, rest⟩ := List.forall_mem_cons.1 hd
    have name := (hx.renders s path).left (Edge.fresh_le False.elim)
    exact name.between colon_renders (h.renders s rest)
  | positional _ h => exact h.renders s (List.forall_mem_cons.1 hd).2

theorem CtorFormAt.renders {a : CtorForm} (s : S.Source) (h : CtorFormAt S i a j)
    (hd : ∀ x ∈ a.details, x.Apart) : Extends a.doc a.words := by
  cases h with
  | typed _ h => exact .of_renders (spaced_colon_renders.behind (h.renders s hd))
  | params _ h _ =>
    intro front
    have opens : Renders (.ends front) .any (.text "(") [.punct .openParen] :=
      .word (TokenKind.ne_of_tag Tag.noConfusion) (.punct .openParen (Edge.ends_takes _))
    have param : ∀ i a j, CtorParamAt S i a j → (∀ x ∈ a.details, x.Apart) →
        Renders (.fresh False) .apart a.doc a.words := fun _ _ _ h hd =>
      (h.renders s hd).right Edge.apart_le_ends
    have params := h.renders param hd
    exact .enclosed opens params (close_renders .closeParen rfl)
  | bare _ _ => exact .empty

theorem CtorAt.renders {a : Ctor} (s : S.Source) (h : CtorAt S i a j) (hd : ∀ x ∈ a.details, x.Apart) :
    Renders (.fresh False) (.ends a.words) a.doc a.words := by
  obtain ⟨name, form, _⟩ := h
  obtain ⟨path, hd⟩ := List.forall_mem_cons.1 hd
  exact ((name.renders s path).left (Edge.fresh_le False.elim)).extend (form.renders s hd)

/-- Constructors on lines of their own. -/
theorem ctorLines_renders {as : List Ctor} (h : ∀ a ∈ as, Renders .any .apart a.doc a.words) :
    Renders .any .any (ctorLines as) (if as.isEmpty then [] else ctorWords as ++ [.lineBreak]) := by
  induction as with
  | nil => exact .empty (Edge.refl _)
  | cons a as ih =>
    obtain ⟨first, rest⟩ := List.forall_mem_cons.1 h
    cases as with
    | nil => exact first.append .newline
    | cons a' as =>
      have comma : Renders .apart .any (.text ",") [.punct .comma] := close_renders .comma rfl
      have all := ((first.append comma).append .newline).append (ih rest)
      rw [List.append_assoc, List.append_assoc] at all
      have words : ctorWords (a :: a' :: as)
          = a.words ++ ([.punct .comma] ++ ([.lineBreak] ++ ctorWords (a' :: as))) := rfl
      rw [List.isEmpty_cons, if_neg Bool.false_ne_true] at all ⊢
      rwa [words, List.append_assoc, List.append_assoc, List.append_assoc]

/-- Methods on lines of their own. -/
theorem methodLines_render {as : List Signature} (h : ∀ a ∈ as, Renders .any .apart a.doc a.words) :
    Renders .any .any (lines (as.map Signature.doc)) (as.flatMap fun a => a.words ++ [.lineBreak]) := by
  induction as with
  | nil => exact .lines_nil
  | cons a as ih =>
    obtain ⟨first, rest⟩ := List.forall_mem_cons.1 h
    exact first.lines_cons (ih rest)

theorem lineBreak_methodWords (as : List Signature) :
    Word.lineBreak :: (as.flatMap fun a => a.words ++ [.lineBreak])
      = methodWords false as ++ [.lineBreak] := by
  induction as with
  | nil => rfl
  | cons a as ih =>
    rw [List.flatMap_cons, List.append_assoc, List.singleton_append, ih, methodWords, List.cons_append,
      List.cons_append, List.append_assoc]
    rfl

/-- A line break before methods; a semicolon on a line between is part of it. -/
theorem methodWords_signs (semicolon : Bool) (as : List Signature) :
    Word.signs .lineBreak ++ ((if semicolon && !as.isEmpty then [.separator true, .separator false] else [])
        ++ (as.flatMap fun a => a.words ++ [Word.lineBreak]).flatMap Word.signs)
      = (methodWords semicolon as ++ [Word.lineBreak]).flatMap Word.signs := by
  cases as with
  | nil => cases semicolon <;> rfl
  | cons a as =>
    have behind := congrArg (List.flatMap Word.signs) (lineBreak_methodWords as)
    rw [List.flatMap_cons, List.append_assoc a.words, List.singleton_append, List.flatMap_append, behind,
      ← List.flatMap_append, methodWords, List.cons_append, List.cons_append, List.append_assoc,
      List.flatMap_cons]
    cases semicolon <;> rfl

theorem separator_shows (sort : TypeSort) (ms : List Signature) :
    Shows .any .any (if sort ≠ .trait ∧ !ms.isEmpty then .text ";" ++ .newline else .empty)
      (if (sort != .trait) && !ms.isEmpty then [.separator true, .separator false] else []) := by
  by_cases h : sort ≠ .trait ∧ (!ms.isEmpty) = true
  · have both : ((sort != .trait) && !ms.isEmpty) = true := Bool.and_eq_true_iff.2 ⟨bne_iff_ne.2 h.1, h.2⟩
    rw [if_pos h, if_pos both]
    have semicolon : Spells .any .any ";".toList [.separator true] :=
      fun rest _ => ⟨trivial, Lexeme.signs_cons ';' rest⟩
    exact (Shows.text semicolon).append fun _ => ⟨['\n'], String.toList_append, .newline⟩
  · have both : ¬ ((sort != .trait) && !ms.isEmpty) = true := fun both =>
      h ((Bool.and_eq_true_iff.1 both).imp_left bne_iff_ne.1)
    rw [if_neg h, if_neg both]
    exact fun _ => ⟨[], (List.append_nil _).symm, .nil (Edge.refl _)⟩

/-- The members of a type, without the braces. -/
theorem members_render (sort : TypeSort) {cs : List Ctor} {ms : List Signature}
    (hcs : ∀ a ∈ cs, Renders .any .apart a.doc a.words)
    (hms : ∀ a ∈ ms, Renders .any .apart a.doc a.words) :
    Renders .any .any (.newline ++ ctorLines cs
        ++ (if sort ≠ .trait ∧ !ms.isEmpty then .text ";" ++ .newline else .empty)
        ++ lines (ms.map Signature.doc))
      ((if cs.isEmpty then [] else .lineBreak :: ctorWords cs)
        ++ (methodWords (sort != .trait) ms ++ [.lineBreak])) := by
  have front : Renders .any .any (.newline ++ ctorLines cs)
      ((if cs.isEmpty then [] else .lineBreak :: ctorWords cs) ++ [.lineBreak]) := by
    have all := Renders.append (A := .any) .newline (ctorLines_renders hcs)
    cases cs <;> exact all
  have all := Shows.append (Shows.append front (separator_shows sort ms)) (methodLines_render hms)
  unfold Renders
  rw [List.flatMap_append, ← methodWords_signs]
  rwa [List.flatMap_append, List.flatMap_singleton, List.append_assoc, List.append_assoc] at all

theorem typeBody_renders {sort : TypeSort} {a : TypeBody}
    (hcs : ∀ c ∈ a.ctors, Renders .any .apart c.doc c.words)
    (hms : ∀ m ∈ a.methods, Renders .any .apart m.doc m.words) :
    Renders .any Z (a.doc sort) (a.words sort) := by
  have opens : Renders .any .any (.text "\x7b") [.punct .openBrace] :=
    .word (TokenKind.ne_of_tag Tag.noConfusion) (.punct .openBrace (Edge.any_takes _))
  have closes : Renders .any Z (.text "\x7d") [.punct .closeBrace] :=
    .word (TokenKind.ne_of_tag Tag.noConfusion) (.punct .closeBrace (Edge.any_takes _))
  unfold TypeBody.doc TypeBody.words
  split
  · exact .pair (s := "\x7b\x7d") ⟨(TokenKind.ne_of_tag Tag.noConfusion), (TokenKind.ne_of_tag Tag.noConfusion)⟩
      (.punct_append .openBrace (Edge.any_takes _) (.punct .closeBrace (Edge.any_takes _)))
  · have all := (opens.append (members_render sort hcs hms).nest).append closes
    simpa only [List.append_assoc, List.cons_append, List.nil_append] using all

theorem OptionalBodyAt.renders {sort : TypeSort} {t : Option TypeBody} (s : S.Source)
    (h : OptionalBodyAt S sort i t j) (hd : ∀ x ∈ t.elim [] TypeBody.details, x.Apart) :
    Extends (spaced ((t.map (TypeBody.doc sort)).toList)) (t.elim [] (TypeBody.words sort)) := by
  cases h with
  | none _ => exact .spaced_nil
  | some _ h _ _ =>
    obtain ⟨first, second⟩ := List.forall_mem_append.1 hd
    obtain ⟨-, ctors, methods⟩ := h.each
    refine .spaced_one (typeBody_renders (fun c hc => ?_) fun m hm => ?_)
    · obtain ⟨_, _, h⟩ := ctors c hc
      have ctor := h.renders s (List.forall_mem_flatMap.1 first c hc)
      exact (ctor.left (Edge.le_any _)).right Edge.apart_le_ends
    · obtain ⟨_, _, h⟩ := methods m hm
      have method := h.renders s (List.forall_mem_flatMap.1 second m hm)
      exact (method.left (Edge.le_any _)).right Edge.apart_le_ends

theorem VisibilityAt.renders {v : Option (Visibility × Span)} (h : VisibilityAt S i v j) :
    Renders (.fresh False) (.fresh False) (v.elim .empty fun (v, _) => .text v.keyword.text ++ .space)
      (v.elim [] fun v => [.keyword v.1.keyword]) := by
  cases h with
  | none _ => exact .empty (Edge.refl _)
  | some _ _ =>
    exact (Renders.word (TokenKind.ne_of_tag Tag.noConfusion) (.keyword _ (Edge.fresh_keyword _))).append .space

theorem TypeDeclAt.renders {a : TypeDecl} (s : S.Source) (h : TypeDeclAt S i a j)
    (hd : ∀ x ∈ a.details, x.Apart) : Renders (.fresh False) .apart a.doc a.words := by
  obtain @⟨v, k₁, sort, n, k₂, ls, k₃, t, k₄, body, _, hv, hsort, name, params, type, hbody⟩ := h
  obtain ⟨path, hd⟩ := List.forall_mem_cons.1 hd
  obtain ⟨first, hd⟩ := List.forall_mem_append.1 hd
  obtain ⟨second, third⟩ := List.forall_mem_append.1 hd
  have keyword : Renders (.fresh False) .wordEnd (.text sort.keyword.text) [.keyword sort.keyword] :=
    .word (TokenKind.ne_of_tag Tag.noConfusion) (.keyword _ (Edge.fresh_keyword _))
  have named := ((hv.renders.append keyword).append .space).behind (name.renders s path)
  have all := (((named.extend (params.renders s first)).extend (type.renders s second)).extend
    (hbody.renders s third)).right Edge.apart_le_ends
  unfold TypeDecl.doc TypeDecl.words
  simpa only [List.append_assoc, List.cons_append, List.nil_append] using all

/-- A hash before a name does not start a first line. -/
theorem hash_renders : Renders .item (.fresh True) (.text "#") [.punct .hash] := by
  refine .word (TokenKind.ne_of_tag Tag.noConfusion) fun rest hr => ⟨fun rest' e => ?_, ?_⟩
  · obtain ⟨-, rfl⟩ := List.cons.inj e
    exact absurd ((hr '!' rfl).2 trivial) (by decide)
  · exact (Spells.punct .hash (A := .any) (Z := .any) (Edge.any_takes _) rest trivial).2

theorem DeclFormAt.renders {a : DeclForm} (s : S.Source) (h : DeclFormAt S i a j)
    (hd : ∀ x ∈ a.details, x.Apart) : Renders .item .apart a.doc a.words := by
  cases h with
  | uses _ h =>
    have word : Renders (.fresh False) (.fresh True) (.text "use ") [.keyword .useKw] :=
      keyword_renders .useKw rfl
    have path := (h.renders s (List.forall_mem_singleton.1 hd)).right Edge.apart_le_ends
    exact (word.left Edge.fresh_le_item).append path
  | command _ hn has =>
    obtain ⟨path, args⟩ := List.forall_mem_cons.1 hd
    have all := (hash_renders.behind (hn.renders s path)).extend (has.renders s args)
    exact all.right Edge.apart_le_ends
  | type h => exact (h.renders s hd).left Edge.fresh_le_item
  | clause _ _ h => exact (h.renders s hd).left Edge.fresh_le_item
  | signature _ _ h => exact ((h.renders s hd).left Edge.fresh_le_item).right Edge.apart_le_ends

/-! ## Attributes -/

theorem AttrAt.renders {a : Attribute} (s : S.Source) (h : AttrAt S i a j)
    (hd : ∀ x ∈ a.details, x.Apart) : Renders .item .apart a.doc a.words := by
  obtain @⟨_, k, as, _, _, _, path, args, _⟩ := h
  obtain ⟨name, hd⟩ := List.forall_mem_cons.1 hd
  have sign : Renders .item (.fresh True) (.text "@") [.punct .atSign] :=
    (open_renders (by decide) rfl).left Edge.fresh_le_item
  refine ((sign.behind (path.renders s name)).extend ?_).right Edge.apart_le_ends
  cases args with
  | some _ h _ =>
    intro front
    have opens : Renders (.ends front) .any (.text "(") [.punct .openParen] :=
      .word (TokenKind.ne_of_tag Tag.noConfusion) (.punct .openParen (Edge.ends_takes _))
    exact .enclosed opens (h.renders s hd) (close_renders .closeParen rfl)
  | none _ => exact .empty

theorem AttrsAt.renders {as : List Attribute} (s : S.Source) (h : AttrsAt S i as j)
    (hd : ∀ x ∈ as.flatMap Attribute.details, x.Apart) :
    Renders .item .item (lines (as.map Attribute.doc)) (as.flatMap fun a => a.words ++ [.lineBreak]) := by
  induction h with
  | stop _ => exact .lines_nil
  | more h _ ih =>
    obtain ⟨first, rest⟩ := List.forall_mem_append.1 hd
    exact (h.renders s first).lines_cons (ih rest)

end Grammar

/-! ## Documentation -/

theorem signs_docComment {cs : List Char} (h : ∀ c ∈ cs, Lexeme.endsLine c = false) :
    signs ('/' :: '/' :: '!' :: cs) = [.doc (String.ofList (Text.trim cs))] := by
  have length : Lexeme.lineRest ('/' :: '!' :: cs) = ('/' :: '!' :: cs).length := by
    have alone : Lexeme.lineRest (('/' :: '!' :: cs) ++ []) = ('/' :: '!' :: cs).length :=
      Lexeme.runLength_append (by simpa using ⟨by decide, by decide, h⟩) nofun
    rwa [List.append_nil] at alone
  have boundary : Lexeme.boundary '/' ('/' :: '!' :: cs)
      = (.docComment, ('/' :: '!' :: cs).length) := congrArg _ length
  rw [Lexeme.signs_cons, boundary, List.drop_length, Lexeme.signs_nil, List.take_length]
  rfl

/-- Documentation that is written on one line and comes back as it is. -/
def DocString.Proper (a : DocString) : Prop :=
  (∀ c ∈ a.content.toList, Lexeme.endsLine c = false) ∧ Text.trim a.content.toList = a.content.toList

/-- What a documentation comment on a line of its own means. -/
def DocString.signs (a : DocString) : List Sign := [.doc a.content, .separator false]

/-- A documentation comment on a line of its own. -/
theorem docString_shows {a : DocString} (h : a.Proper) : Shows .item .any (a.doc ++ .newline) a.signs := by
  intro p
  have first : p.emit "//! " = { p with text := p.text ++ p.margin ++ "//! ", atLineStart := false } :=
    rfl
  refine ⟨p.margin.toList ++ ('/' :: '/' :: '!' :: ' ' :: (a.content.toList ++ ['\n'])), ?_, ?_⟩
  · show (((p.emit "//! ").emit a.content).text ++ "\n").toList = _
    rw [String.toList_append, text_emit (by rw [first]), first]
    simp
  · refine (Spells.margin p).append fun rest _ => ⟨nofun, ?_⟩
    have line : '/' :: '/' :: '!' :: ' ' :: (a.content.toList ++ ['\n']) ++ rest
        = ('/' :: '/' :: '!' :: ' ' :: a.content.toList) ++ '\n' :: rest := by simp
    have trimmed : Text.trim (' ' :: a.content.toList) = Text.trim a.content.toList := rfl
    rw [line, Lexeme.signs_append_line, signs_docComment, trimmed, h.2, String.ofList_toList]
    · rfl
    · exact List.forall_mem_cons.2 ⟨by decide, h.1⟩

theorem docs_show {as : List DocString} (h : ∀ a ∈ as, a.Proper) :
    Shows .item .item (lines (as.map DocString.doc)) (as.flatMap DocString.signs) := by
  induction as with
  | nil => exact fun _ => ⟨[], (List.append_nil _).symm, .nil (Edge.refl _)⟩
  | cons a as ih =>
    obtain ⟨first, rest⟩ := List.forall_mem_cons.1 h
    rw [List.map_cons, Doc.lines_cons, List.flatMap_cons]
    exact ((docString_shows first).right (Edge.le_any _)).append (ih rest)

/-! ## Items -/

/-- How an item is written. -/
def Item.signs (a : Item) : List Sign := a.docs.flatMap DocString.signs ++ a.words.flatMap Word.signs

namespace Grammar

variable {S : Setting} {i j docsFrom : Nat}

/-- Documentation is the content of comments. -/
theorem Setting.mem_docs {a : DocString} (h : a ∈ S.docs docsFrom i) :
    ∃ c ∈ S.input.comments.items, c.content = a.content := by
  unfold Setting.docs at h
  split at h
  · obtain ⟨c, hc, rfl⟩ := List.mem_map.1 h
    refine ⟨c, Array.mem_toList_iff.1 ?_, rfl⟩
    have inside := (List.mem_filter.1 hc).1
    unfold Comments.inRange at inside
    rw [Array.toList_extract, List.extract_eq_take_drop] at inside
    exact List.mem_of_mem_drop (List.mem_of_mem_take inside)
  · cases h

theorem DeclAt.docs_proper {a : Decl} (s : S.Source) (h : DeclAt S docsFrom i a j) :
    ∀ d ∈ a.docs, d.Proper := by
  obtain ⟨docs, _, _, _⟩ := h
  have given : ∀ d ∈ S.docs docsFrom i, d.Proper := fun d hd => by
    obtain ⟨c, hc, same⟩ := Setting.mem_docs hd
    unfold DocString.Proper
    rw [← same]
    exact ⟨s.lines c hc, s.trimmed c hc⟩
  generalize S.docs docsFrom i = ds at docs given
  induction docs with
  | nil => exact nofun
  | cons same _ ih =>
    obtain ⟨first, rest⟩ := List.forall_mem_cons.1 given
    refine List.forall_mem_cons.2 ⟨?_, ih rest⟩
    unfold DocString.Proper
    rw [same.1]
    exact first

theorem ItemAt.shows {a : Item} (s : S.Source) (h : ItemAt S docsFrom i a j)
    (hd : ∀ x ∈ a.details, x.Apart) (read : a.isError = false) :
    Shows .item .apart a.doc a.signs := by
  cases h with
  | decl _ _ h _ =>
    obtain ⟨first, second⟩ := List.forall_mem_append.1 hd
    have docs := h.docs_proper s
    obtain ⟨_, attrs, form, _⟩ := h
    have all := ((docs_show docs).append (attrs.renders s first)).append (form.renders s second)
    rwa [List.append_assoc, ← List.flatMap_append] at all
  | stmt _ _ h _ => exact ((h.renders s hd).left Edge.fresh_le_item).right Edge.apart_le_ends
  | errorDecl _ _ _ _ | errorStmt _ _ _ _ => cases read

theorem ItemsAt.shows {as : List Item} (s : S.Source) (h : ItemsAt S docsFrom i as)
    (hd : ∀ x ∈ as.flatMap Item.details, x.Apart) :
    Shows .item .item (lines ((Item.readable as).map Item.doc))
      ((Item.readable as).flatMap fun a => a.signs ++ [.separator false]) := by
  induction h with
  | stop _ => exact fun _ => ⟨[], (List.append_nil _).symm, .nil (Edge.refl _)⟩
  | @more _ _ a _ _ _ h _ ih =>
    obtain ⟨first, rest⟩ := List.forall_mem_append.1 hd
    cases read : a.isError with
    | true =>
      rw [Item.readable_of_error read]
      exact ih rest
    | false =>
      rw [Item.readable_of_read read, List.map_cons, Doc.lines_cons, List.flatMap_cons]
      have newline : Shows .apart .item .newline [.separator false] := fun _ =>
        ⟨['\n'], String.toList_append, .newline⟩
      exact ((h.shows s first read).append newline).append (ih rest)

end Grammar

end Surface
