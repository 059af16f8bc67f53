import Mathlib.Data.List.Forall2
import Surface.Proofs.Grammar.Yields

/-!
# The grammar of declarations and files as rules

Declarations are read where line breaks carry meaning and in no special context; their rules
say so by the settings they use.

Results:
* `SignatureAt`, `ClauseAt`, `TypeDeclAt`, `DeclAt`: the rules of declarations.
* `ItemAt`, `ItemsAt`, `FileAt`: the rules of items and files.
-/

namespace Surface.Grammar

section

variable (S : Setting)

namespace Setting

/-- A line break with a semicolon in it. -/
def SemicolonAt (i : Nat) : Prop :=
  S.tag i = .lineBreak ∧ (S.input.tokens.get i).spacing.contains Spacing.hasSemicolon

/-- Neither a closing brace nor the end. -/
def InBraces (i : Nat) : Prop := S.tag i ≠ .punct .closeBrace ∧ S.tag i ≠ .eof

/-- What the next item is read as. -/
def DeclNext (i : Nat) : Prop :=
  S.input.dialect.statements = false ∨ S.input.dialect.declarations = true
    ∧ (declOnlyTags.contains (S.tag i) ∨ nameTags.contains (S.tag i) ∧ S.ahead (.reserved .eq) i)

/-- The documentation between an offset and a position. -/
def docs (docsFrom i : Nat) : List DocString :=
  if S.input.dialect.docs then
    ((S.input.comments.inRange docsFrom (S.span i).start).toList.filter Comment.isDoc).map
      fun c => ⟨c.content, c.span⟩
  else []

end Setting

/-! ## Attributes -/

/-- The arguments of an attribute, if it has parentheses. -/
inductive AttrArgsAt (i : Nat) : Option (List Expr) → Nat → Prop
  | some {es tr k} : S.tag i = .punct .openParen →
      ExprsAt S (.punct .closeParen) Context.none.nested true (S.next true i) es tr k →
      S.tag k = .punct .closeParen → AttrArgsAt i (some es) (S.next false k)
  | none : S.tag i ≠ .punct .openParen → AttrArgsAt i none i

/-- An attribute. -/
inductive AttrAt (i : Nat) : Attribute → Nat → Prop
  | mk {p k as j s} : S.tag i = .punct .atSign → PathAt S false (S.next false i) p k →
      AttrArgsAt S k as j → S.covers ((S.span i).merge (S.last j)) s → AttrAt i ⟨p, as, s⟩ j

/-- Attributes and the line breaks behind each. -/
inductive AttrsAt : Nat → List Attribute → Nat → Prop
  | stop {i} : S.tag i ≠ .punct .atSign → AttrsAt i [] i
  | more {i a k as j} : AttrAt S i a k → AttrsAt (S.past k) as j → AttrsAt i (a :: as) j

/-! ## Parts -/

/-- A list of parameters; one between brackets is not empty. -/
inductive ParamListAt (i : Nat) : ParamList → Nat → Prop
  | explicit {ps tr k s} : S.tag i = .punct .openParen →
      ParamsAt S (.punct .closeParen) Context.none.nested true (S.next true i) ps tr k →
      S.tag k = .punct .closeParen → S.covers ((S.span i).merge (S.span k)) s →
      ParamListAt i ⟨false, ps, s⟩ (S.next false k)
  | implicit {ps tr k s} : S.tag i = .punct .openBracket →
      S.tag (S.next true i) ≠ .punct .closeBracket →
      ParamsAt S (.punct .closeBracket) Context.none.nested true (S.next true i) ps tr k →
      S.tag k = .punct .closeBracket → S.covers ((S.span i).merge (S.span k)) s →
      ParamListAt i ⟨true, ps, s⟩ (S.next false k)

/-- Lists of parameters. -/
inductive ParamListsAt : Nat → List ParamList → Nat → Prop
  | stop {i} : paramListTags.contains (S.tag i) = false → ParamListsAt i [] i
  | more {i l k ls j} : ParamListAt S i l k → ParamListsAt k ls j → ParamListsAt i (l :: ls) j

/-- A colon and a type, if a colon comes next. -/
inductive OptionalTypeAt (i : Nat) : Option Expr → Nat → Prop
  | some {t j} : S.tag i = .punct .colon → ExprAt S (Context.none.union .type) false (S.next false i) t j →
      OptionalTypeAt i (some t) j
  | none : S.tag i ≠ .punct .colon → OptionalTypeAt i none i

/-- A block, if a brace comes next. -/
inductive OptionalBlockAt (i : Nat) : Option Block → Nat → Prop
  | some {t j} : S.tag i = .punct .openBrace → BlockAt S false i t j → OptionalBlockAt i (some t) j
  | none : S.tag i ≠ .punct .openBrace → OptionalBlockAt i none i

/-- A name with parameters, type and definition. -/
inductive SignatureAt (i : Nat) : Signature → Nat → Prop
  | mk {n k ls l t m v j s} : PathAt S false i n k → ParamListsAt S k ls l →
      OptionalTypeAt S l t m → OptionalBlockAt S m v j → S.covers (n.span.merge (S.last j)) s →
      SignatureAt i ⟨n, ls, t, v, s⟩ j

/-- The patterns of a clause, up to its equals sign. -/
inductive ClausePatternsAt : Nat → List Pattern → Nat → Prop
  | stop {i} : S.tag i = .reserved .eq → ClausePatternsAt i [] i
  | more {i p k ps j} : S.tag i ≠ .reserved .eq → AtomAt S false i p k →
      ClausePatternsAt k ps j → ClausePatternsAt i (p :: ps) j

/-- The value of a clause, which starts on the same line, if there is one. -/
inductive ClauseValueAt (i : Nat) : Option Expr → Nat → Prop
  | some {v j} : S.tag i ≠ .lineBreak → S.tag i ≠ .eof → ExprAt S .none false i v j →
      ClauseValueAt i (some v) j
  | none : S.tag i = .lineBreak ∨ S.tag i = .eof → ClauseValueAt i none i

/-- A name applied to patterns, an equals sign, and a value. -/
inductive ClauseAt (i : Nat) : Clause → Nat → Prop
  | mk {n k ps l v j s} : PathAt S false i n k → ClausePatternsAt S k ps l →
      ClauseValueAt S (S.next false l) v j → S.covers (n.span.merge (S.last j)) s →
      ClauseAt i ⟨n, ps, v, s⟩ j

/-! ## Type declarations -/

/-- A parameter of a constructor, which stands between parentheses. -/
inductive CtorParamAt (i : Nat) : CtorParam → Nat → Prop
  | named {x t j} : S.NameAt i x → S.tag (i + 1) = .punct .colon →
      ExprAt S (Context.none.nested.union .type) true (S.next true (S.next true i)) t j →
      CtorParamAt i (.named x t) j
  | positional {t j} : ¬ (nameTags.contains (S.tag i) ∧ S.tag (i + 1) = .punct .colon) →
      ExprAt S (Context.none.nested.union .type) true i t j → CtorParamAt i (.positional t) j

/-- What follows the name of a constructor. -/
inductive CtorFormAt (i : Nat) : CtorForm → Nat → Prop
  | typed {t j} : S.tag i = .punct .colon → ExprAt S (Context.none.union .type) false (S.next false i) t j →
      CtorFormAt i (.typed t) j
  | params {ps tr k} : S.tag i = .punct .openParen →
      Listed S (.punct .closeParen) true (CtorParamAt S) (S.next true i) ps tr k →
      S.tag k = .punct .closeParen → CtorFormAt i (.applied (some ps)) (S.next false k)
  | bare : S.tag i ≠ .punct .colon → S.tag i ≠ .punct .openParen →
      CtorFormAt i (.applied none) i

/-- A constructor. -/
inductive CtorAt (i : Nat) : Ctor → Nat → Prop
  | mk {n k f j s} : PathAt S false i n k → CtorFormAt S k f j →
      S.covers (n.span.merge (S.last j)) s → CtorAt i ⟨n, f, s⟩ j

/-- What follows the last constructor. -/
inductive CtorsEndAt (i : Nat) : Nat → Prop
  | comma : S.tag i = .punct .comma → S.SemicolonAt (i + 1) → CtorsEndAt i (i + 1)
  | semicolon : S.SemicolonAt i → CtorsEndAt i i
  | broken : S.tag i = .lineBreak → ¬ S.SemicolonAt i → nameTags.contains (S.tag (i + 1)) = false →
      CtorsEndAt i (S.past i)
  | other : S.tag i ≠ .punct .comma → S.tag i ≠ .lineBreak → CtorsEndAt i i

/-- The constructors of a type. -/
inductive CtorsAt : Nat → List Ctor → Nat → Prop
  | none {i} : ¬ S.InBraces i → CtorsAt i [] i
  | last {i a k j} : S.InBraces i → CtorAt S i a k → CtorsEndAt S k j → CtorsAt i [a] j
  | more {i a k as j} : S.InBraces i → CtorAt S i a k → S.tag k = .punct .comma →
      ¬ S.SemicolonAt (k + 1) → CtorsAt (S.past (k + 1)) as j → CtorsAt i (a :: as) j

/-- Methods on lines of their own. -/
inductive MethodsAt : Nat → List Signature → Nat → Prop
  | none {i} : ¬ S.InBraces i → MethodsAt i [] i
  | last {i a k} : S.InBraces i → SignatureAt S i a k → S.tag k ≠ .lineBreak → MethodsAt i [a] k
  | more {i a k as j} : S.InBraces i → SignatureAt S i a k → S.tag k = .lineBreak →
      MethodsAt (S.past k) as j → MethodsAt i (a :: as) j

/-- The members of a type. -/
inductive MembersAt (i : Nat) : TypeSort → List Ctor → List Signature → Nat → Prop
  | trait {ms j} : MethodsAt S (S.past i) ms j → MembersAt i .trait [] ms j
  | methods {sort ms j} : sort ≠ .trait → S.SemicolonAt i → MethodsAt S (S.past i) ms j →
      MembersAt i sort [] ms j
  | ctors {sort cs j} : sort ≠ .trait → ¬ S.SemicolonAt i → CtorsAt S (S.past i) cs j →
      ¬ S.SemicolonAt j → MembersAt i sort cs [] j
  | both {sort cs k ms j} : sort ≠ .trait → ¬ S.SemicolonAt i → CtorsAt S (S.past i) cs k →
      S.SemicolonAt k → MethodsAt S (S.past k) ms j → MembersAt i sort cs ms j

/-- The members of a type between braces, if a brace comes next. -/
inductive OptionalBodyAt (sort : TypeSort) (i : Nat) : Option TypeBody → Nat → Prop
  | some {cs ms k s} : S.tag i = .punct .openBrace → MembersAt S (S.next false i) sort cs ms k →
      S.tag (S.past k) = .punct .closeBrace → S.covers ((S.span i).merge (S.span (S.past k))) s →
      OptionalBodyAt sort i (some ⟨cs, ms, s⟩) (S.next false (S.past k))
  | none : S.tag i ≠ .punct .openBrace → OptionalBodyAt sort i none i

/-- A visibility, if one comes next. -/
inductive VisibilityAt (i : Nat) : Option (Visibility × Span) → Nat → Prop
  | some {v s} : visibilityOf? (S.tag i) = some v → S.covers (S.span i) s →
      VisibilityAt i (some (v, s)) (S.next false i)
  | none : visibilityOf? (S.tag i) = none → VisibilityAt i none i

/-- A type declaration. -/
inductive TypeDeclAt (i : Nat) : TypeDecl → Nat → Prop
  | mk {v k₁ sort n k₂ ls k₃ t k₄ b j} : VisibilityAt S i v k₁ →
      typeSortOf? (S.tag k₁) = some sort → PathAt S false (S.next false k₁) n k₂ →
      ParamListsAt S k₂ ls k₃ → OptionalTypeAt S k₃ t k₄ → OptionalBodyAt S sort k₄ b j →
      TypeDeclAt i ⟨sort, v, n, ls, t, b⟩ j

/-! ## Declarations -/

/-- What a declaration is, behind its attributes. -/
inductive DeclFormAt (i : Nat) : DeclForm → Nat → Prop
  | uses {p j} : S.tag i = .keyword .useKw → PathAt S false (S.next false i) p j →
      DeclFormAt i (.uses p) j
  | command {n k as j} : S.tag i = .punct .hash → PathAt S false (S.next false i) n k →
      ArgsAt S .none false k as j → DeclFormAt i (.command n as) j
  | type {d j} : TypeDeclAt S i d j → DeclFormAt i (.type d) j
  | clause {a j} : nameTags.contains (S.tag i) → S.ahead (.reserved .eq) i = true →
      ClauseAt S i a j → DeclFormAt i (.clause a) j
  | signature {a j} : nameTags.contains (S.tag i) → S.ahead (.reserved .eq) i = false →
      SignatureAt S i a j → DeclFormAt i (.signature a) j

/-- A declaration with the documentation that starts behind an offset. -/
inductive DeclAt (docsFrom i : Nat) : Decl → Nat → Prop
  | mk {docs as k f j s} :
      List.Forall₂ (fun d d' => d'.content = d.content ∧ S.covers d.span d'.span)
        (S.docs docsFrom i) docs →
      AttrsAt S i as k → DeclFormAt S k f j →
      S.covers ((((S.docs docsFrom i).head?.map DocString.span).getD (S.span i)).merge (S.last j)) s →
      DeclAt docsFrom i ⟨f, docs, as, s⟩ j

/-- An item, or an error item in its place. -/
inductive ItemAt (docsFrom i : Nat) : Item → Nat → Prop
  | decl {d j} : S.DeclNext i → S.input.dialect.declarations = true → DeclAt S docsFrom i d j →
      itemBoundary.contains (S.tag j) = true → ItemAt docsFrom i (.decl d) j
  | stmt {t j} : ¬ S.DeclNext i → S.input.dialect.statements = true → StmtAt S .none false i t j →
      itemBoundary.contains (S.tag j) = true → ItemAt docsFrom i (.stmt t) j
  | errorDecl {s j} : S.flawed → S.DeclNext i → i < j →
      S.covers (skippedFrom (S.span i) (S.last j)) s →
      ItemAt docsFrom i (.decl ⟨.error, [], [], s⟩) j
  | errorStmt {m j} : S.flawed → ¬ S.DeclNext i → i < j →
      S.covers (skippedFrom (S.span i) (S.last j)) m.span → ItemAt docsFrom i (.stmt (.error m)) j

/-- Items and the line breaks behind each, up to the end. -/
inductive ItemsAt : Nat → Nat → List Item → Prop
  | stop {docsFrom i} : S.tag i = .eof → ItemsAt docsFrom i []
  | more {docsFrom i a k as} : S.tag i ≠ .eof → ItemAt S docsFrom i a k →
      ItemsAt (S.last k).stop (S.past k) as → ItemsAt docsFrom i (a :: as)

/-- A whole file behind its first line. -/
inductive FileAt (line : Option Shebang) : SourceFile → Prop
  | mk {items i s} : ItemsAt S ((line.map fun l => l.span.stop).getD 0) (S.past 0) items →
      S.tag i = .eof → S.covers ⟨0, (S.span i).stop⟩ s → FileAt line ⟨line, items, s⟩

end

variable {S : Setting}

theorem DeclFormAt.ne_error {i j : Nat} {f : DeclForm} (h : DeclFormAt S i f j) : f ≠ .error := by
  cases h <;> exact nofun

theorem FileAt.items {line : Option Shebang} {f : SourceFile} (h : FileAt S line f) :
    f.shebang = line ∧ ItemsAt S ((line.map fun l => l.span.stop).getD 0) (S.past 0) f.items
      ∧ ∃ j, S.tag j = .eof := by
  obtain ⟨items, ends, _⟩ := h
  exact ⟨rfl, items, _, ends⟩

end Surface.Grammar
