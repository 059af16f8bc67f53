import Surface.Proofs.Names.Readers

/-!
# Files of numbers and files of spellings

Declarations and whole files are read alike, whether their names are numbers or the spellings these
stand for.

Results:
* `decl_resolves`, `item_resolves`, `file_resolves`.
-/

namespace Surface.Grammar

variable {f : Handle → String}

/-! ## Attributes -/

theorem attrArgs_resolves : Resolves f (Option.map (List.map (Expr.map f))) attrArgs attrArgs :=
  .looks (.isNext _) fun _ => .ite
    (fun _ => .looks .openGroup fun group => .bind (.nestedList _ expr_resolves) fun _ =>
      .looks (.closeGroup group) fun _ => .pure rfl)
    fun _ => .pure rfl

theorem attr_resolves : Resolves f (Attribute.map f) attr attr :=
  .bind .take fun _ => .bind path_resolves fun _ => .bind attrArgs_resolves fun _ =>
    .looks .previousSpan fun _ => .looks .skipBreaks fun _ => .pure rfl

theorem attrs_resolves : Resolves f (List.map (Attribute.map f)) attrs attrs :=
  .collectWhile (.isNext _) attr_resolves

/-! ## Parts -/

theorem paramList_resolves : Resolves f (ParamList.map f) paramList paramList :=
  .looks (.isNext _) fun implicit =>
    .bind (paramGroup_resolves inner_resolves implicit) fun _ => .pure rfl

theorem paramLists_resolves : Resolves f (List.map (ParamList.map f)) paramLists paramLists :=
  .collectWhile (.isNextIn _) paramList_resolves

theorem optionalType_resolves : Resolves f (Option.map (Expr.map f)) optionalType optionalType :=
  .looks (.accept _) fun _ => .ite (fun _ => (type_resolves inner_resolves).map fun _ => rfl) fun _ =>
    .pure rfl

theorem optionalBlock_resolves : Resolves f (Option.map (Block.map f)) optionalBlock optionalBlock :=
  .looks (.isNext _) fun _ => .ite (fun _ => block_resolves.map fun _ => rfl) fun _ => .pure rfl

theorem signature_resolves : Resolves f (Signature.map f) signature signature := by
  refine .bind path_resolves fun name => .bind paramLists_resolves fun params => ?_
  refine .bind optionalType_resolves fun type => .bind optionalBlock_resolves fun value => ?_
  rw [Path.span_map]
  exact .looks .previousSpan fun _ => .pure rfl

theorem clause_resolves : Resolves f (Clause.map f) clause clause := by
  refine .bind path_resolves fun name => ?_
  refine .bind (.collectWhile (.isNotNext _) atomicPattern_resolves) fun patterns => ?_
  refine .bind .take fun _ => .looks (.isNext _) fun _ => .looks (.isNext _) fun _ => ?_
  have valued (value : Option (Expr Handle)) : Resolves f (Clause.map f)
      (do return ⟨name, patterns, value, name.span.merge (← previousSpan)⟩)
      (do return ⟨name.map f, patterns.map (Pattern.map f), value.map (Expr.map f),
        (name.map f).span.merge (← previousSpan)⟩) := by
    rw [Path.span_map]
    exact .looks .previousSpan fun _ => .pure rfl
  have value : Resolves f (Option.map (Expr.map f)) (some <$> expr) (some <$> expr) :=
    expr_resolves.map fun _ => rfl
  exact .ite (fun _ => valued none) fun _ => value.bind valued

theorem command_resolves : Resolves f (DeclForm.map f) command command :=
  .bind .take fun _ => .bind path_resolves fun _ =>
    .bind (.collectWhile (.isNextIn _) (primary_resolves inner_resolves)) fun _ => .pure rfl

/-! ## Type declarations -/

theorem ctorParam_resolves : Resolves f (CtorParam.map f) ctorParam ctorParam :=
  .looks .isNameNext fun _ => .looks .tagBehind fun _ => .ite
    (fun _ => .bind ident_resolves fun _ => .bind .take fun _ =>
      .bind (type_resolves inner_resolves) fun _ => .pure rfl)
    fun _ => .bind (type_resolves inner_resolves) fun _ => .pure rfl

theorem ctorForm_resolves : Resolves f (CtorForm.map f) ctorForm ctorForm :=
  .looks (.accept _) fun _ => .ite (fun _ => .bind (type_resolves inner_resolves) fun _ => .pure rfl)
    fun _ => .looks (.isNext _) fun _ => .ite
      (fun _ => .looks .openGroup fun group => .bind (.nestedList _ ctorParam_resolves) fun _ =>
        .looks (.closeGroup group) fun _ => .pure rfl)
      fun _ => .pure rfl

theorem ctor_resolves : Resolves f (Ctor.map f) ctor ctor := by
  refine .bind path_resolves fun name => .bind ctorForm_resolves fun form => ?_
  rw [Path.span_map]
  exact .looks .previousSpan fun _ => .pure rfl

theorem isSemicolonNext_resolves : Resolves f id isSemicolonNext isSemicolonNext := by
  refine .bind .nextToken fun token => .pure ?_
  rw [token.tag_map f]
  rfl

theorem ctorItem_resolves : Resolves f (Prod.map (Ctor.map f) id) ctorItem ctorItem := by
  refine .bind ctor_resolves fun ctor => .looks (.accept _) fun comma => ?_
  refine .looks isSemicolonNext_resolves fun _ => .ite (fun _ => .pure rfl) fun _ => ?_
  refine .ite (fun _ => .looks .skipBreaks fun _ => .pure rfl) fun _ => ?_
  refine .looks (.isNext _) fun _ => .ite (fun _ => ?_) fun _ => .pure rfl
  refine .looks .tagBehind fun _ => .looks .skipBreaks fun _ => .ite (fun _ => ?_) fun _ => .pure rfl
  exact .looks .nextSpan fun _ => .looks (.throw _) fun _ => .pure rfl

theorem ctors_resolves : Resolves f (List.map (Ctor.map f)) ctors ctors :=
  .looks isSemicolonNext_resolves fun _ => .ite (fun _ => .pure rfl) fun _ =>
    .looks .skipBreaks fun _ => .collect .isInBraces ctorItem_resolves

theorem method_resolves : Resolves f (Prod.map (Signature.map f) id) method method :=
  .bind signature_resolves fun _ => .looks (.isNext _) fun _ => .looks .skipBreaks fun _ => .pure rfl

theorem methods_resolves : Resolves f (List.map (Signature.map f)) methods methods :=
  .collect .isInBraces method_resolves

theorem members_resolves (sort : TypeSort) :
    Resolves f (Prod.map (List.map (Ctor.map f)) (List.map (Signature.map f))) (members sort)
      (members sort) :=
  .ite (fun _ => .looks .skipBreaks fun _ => .bind methods_resolves fun _ => .pure rfl) fun _ =>
    .bind ctors_resolves fun _ => .looks isSemicolonNext_resolves fun _ => .ite
      (fun _ => .looks .skipBreaks fun _ => .bind methods_resolves fun _ => .pure rfl) fun _ => .pure rfl

theorem typeBody_resolves (sort : TypeSort) :
    Resolves f (TypeBody.map f) (typeBody sort) (typeBody sort) :=
  .looks .openBrace fun group => .bind ((members_resolves sort).within _) fun _ =>
    .looks (.closeGroup group) fun _ => .pure rfl

theorem visibility_resolves : Resolves f id visibility visibility := by
  refine .looks .nextTag fun tag => ?_
  cases visibilityOf? tag with
  | some v => exact .bind .take fun _ => .pure rfl
  | none => exact .pure rfl

theorem typeSort_resolves : Resolves f id typeSort typeSort := by
  refine .looks .nextTag fun tag => ?_
  cases typeSortOf? tag with
  | some sort => exact .bind .take fun _ => .pure rfl
  | none => exact .unexpected _

theorem typeDecl_resolves : Resolves f (TypeDecl.map f) typeDecl typeDecl := by
  refine .looks visibility_resolves fun visibility => .looks typeSort_resolves fun sort => ?_
  refine .bind path_resolves fun name => .bind paramLists_resolves fun params => ?_
  refine .bind optionalType_resolves fun type => .looks (.isNext _) fun _ => ?_
  have body : Resolves f (Option.map (TypeBody.map f)) (some <$> typeBody sort)
      (some <$> typeBody sort) := (typeBody_resolves sort).map fun _ => rfl
  exact .ite (fun _ => body.bind fun _ => .pure rfl) fun _ => .pure rfl

/-! ## Declarations -/

theorem declForm_resolves : Resolves f (DeclForm.map f) declForm declForm := by
  have type : Resolves f (DeclForm.map f) (.type <$> inConstruct .typeDeclaration typeDecl)
      (.type <$> inConstruct .typeDeclaration typeDecl) :=
    (typeDecl_resolves.inConstruct _).map fun _ => rfl
  have named : Resolves f (DeclForm.map f)
      (do
        if ← isAhead (.reserved .eq) then .clause <$> inConstruct .clause clause
        else .signature <$> inConstruct .signature signature)
      (do
        if ← isAhead (.reserved .eq) then .clause <$> inConstruct .clause clause
        else .signature <$> inConstruct .signature signature) :=
    .looks (.isAhead _) fun _ => .ite (fun _ => (clause_resolves.inConstruct _).map fun _ => rfl) fun _ =>
      (signature_resolves.inConstruct _).map fun _ => rfl
  refine .looks .nextTag fun tag => ?_
  split
  · exact .bind .take fun _ => .bind path_resolves fun _ => .pure rfl
  · exact command_resolves
  all_goals first | exact type | exact named | exact .absent .declaration

theorem docStrings_resolves (start : Nat) :
    Resolves f (List.map (DocString.map f)) (docStrings start) (docStrings start) := by
  refine .bind .read fun i => .ite (fun _ => ?_) fun _ => .pure rfl
  refine .looks .nextSpan fun span => .pure ?_
  rw [show (i.map f).comments.inRange start span.start
    = (i.comments.inRange start span.start).map (Comment.map f) from i.comments.inRange_map f ..]
  rw [Array.toList_map, List.filter_map, List.map_map, List.map_map]
  rfl

theorem decl_resolves (docsFrom : Nat) : Resolves f (Decl.map f) (decl docsFrom) (decl docsFrom) := by
  refine .bind (docStrings_resolves docsFrom) fun docs => .looks .nextSpan fun span => ?_
  refine .bind attrs_resolves fun attrs => .bind declForm_resolves fun form => ?_
  refine .looks .previousSpan fun _ => .pure ?_
  cases docs <;> rfl

/-! ## Items -/

theorem isDeclNext_resolves : Resolves f id isDeclNext isDeclNext := by
  refine .bind .read fun i => .ite (fun _ => .pure rfl) fun _ => .ite (fun _ => .pure rfl) fun _ => ?_
  refine .looks (.isNextIn _) fun _ => .ite (fun _ => .pure rfl) fun _ => ?_
  exact .looks .isNameNext fun _ => .looks (.isAhead _) fun _ => .pure rfl

theorem wholeItem_resolves (asDecl : Bool) (docsFrom : Nat) :
    Resolves f (Item.map f) (wholeItem asDecl docsFrom) (wholeItem asDecl docsFrom) := by
  have whole (item : Item Handle) : Resolves f (Item.map f)
      (do if ← isNextIn itemBoundary then return item else unexpected itemBoundary)
      (do if ← isNextIn itemBoundary then return item.map f else unexpected itemBoundary) :=
    .looks (.isNextIn _) fun _ => .ite (fun _ => .pure rfl) fun _ => .unexpected _
  have decl : Resolves f (Item.map f) (.decl <$> decl docsFrom) (.decl <$> decl docsFrom) :=
    (decl_resolves docsFrom).map fun _ => rfl
  have stmt : Resolves f (Item.map f) (.stmt <$> stmt) (.stmt <$> stmt) := stmt_resolves.map fun _ => rfl
  refine .bind .read fun i => .ite (fun _ => .bind (.absent .item) whole) fun _ => ?_
  exact .ite (fun _ => decl.bind whole) fun _ => stmt.bind whole

theorem errorItem_resolves (asDecl : Bool) (span : Span) :
    Resolves f (Item.map f) (errorItem asDecl span) (errorItem asDecl span) :=
  .ite (fun _ => .pure rfl) fun _ => (Resolves.newStmt fun _ => rfl).map fun _ => rfl

theorem item_resolves (docsFrom : Nat) : Resolves f (Item.map f) (item docsFrom) (item docsFrom) :=
  .looks .nextSpan fun _ => .looks .cursor fun _ => .looks isDeclNext_resolves fun asDecl =>
    (wholeItem_resolves asDecl docsFrom).orElse fun _ => .looks (.recover ..) fun span =>
      errorItem_resolves asDecl span

theorem items_resolves (docsFrom : Nat) :
    Resolves f (List.map (Item.map f)) (items docsFrom) (items docsFrom) := by
  have start : (#[], docsFrom) = Prod.map (Array.map (Item.map f)) id (#[], docsFrom) := by
    rw [Prod.map_apply, Array.map_empty, id]
  refine .bind (.repeated start fun (items, docsFrom) => ?_) fun _ => .pure Array.toList_map
  refine .looks (.isNext _) fun _ => .ite (fun _ => .pure rfl) fun _ => ?_
  refine .bind (item_resolves docsFrom) fun item => .looks .previousSpan fun stop => ?_
  exact .looks .skipBreaks fun _ => .pure (congrArg (fun xs => ForInStep.yield (xs, stop.stop))
    Array.map_push.symm)

theorem shebang_resolves (line : Option Shebang) : Resolves f id (shebang line) (shebang line) := by
  cases line with
  | none => exact .pure rfl
  | some l =>
    exact .bind .read fun i => .ite (fun _ => .pure rfl) fun _ => .looks (.report _) fun _ => .pure rfl

theorem file_resolves (line : Option Shebang) : Resolves f (SourceFile.map f) (file line) (file line) :=
  .looks (shebang_resolves line) fun _ => .looks .skipBreaks fun _ => .bind (items_resolves _) fun _ =>
    .looks .nextSpan fun _ => .pure rfl

end Surface.Grammar
