import Surface.Proofs.Canonical.Carried
import Surface.Proofs.Canonical.RoundTrip

/-!
# What the canonical layout keeps of a text without errors

A text that is read without errors and laid out keeps its names, literals and operators if the details of
its tree keep apart. It is read again as the same tree if no name is made of symbols, no parameter of a
function is two dots and no colon starts a line, as long as the bar behind the parameters of a function
ends them.

Results:
* `tokens_format`: printing fuses and splits no tokens.
* `parse_format`: the text of a tree is read as the tree.
-/

namespace Surface

open Lexeme (Sign)

/-! ## The content of a printed file -/

theorem Word.content_signs (w : Word) : w.signs.flatMap Sign.content = w.1.content := by
  obtain ⟨k, semicolon⟩ := w
  cases k with
  | lineBreak => cases semicolon <;> rfl
  | _ => exact List.append_nil _

theorem Word.contents_signs (ws : List Word) :
    (ws.flatMap Word.signs).flatMap Sign.content = Word.contents ws := by
  rw [List.flatMap_assoc]
  exact congrArg (ws.flatMap ·) (funext Word.content_signs)

theorem Tokenless.contents_eq {ss : List Sign} (h : Tokenless ss) : ss.flatMap Sign.content = [] := by
  refine List.flatMap_eq_nil_iff.2 fun s hs => ?_
  rcases h s hs with rfl | ⟨_, rfl⟩ <;> rfl

theorem contents_itemSigns (as : List Item) :
    (itemSigns as).flatMap Sign.content = as.flatMap fun a => Word.contents a.words := by
  unfold itemSigns
  rw [List.flatMap_assoc]
  refine congrArg (as.flatMap ·) (funext fun a => ?_)
  unfold Item.signs
  rw [List.flatMap_append, List.flatMap_append, (tokenless_docs a.docs).contents_eq, Word.contents_signs]
  exact List.append_nil _

namespace Grammar

variable {S : Setting} {cs : List Char}

/-- A file in the canonical layout has the content of its tokens. -/
theorem FileAt.contents_format {f : SourceFile} (s : S.Source) (ok : ¬ S.flawed)
    (h : FileAt S (S.firstLine (lexChars cs .empty).shebang) f) (apart : ∀ x ∈ f.details, x.Apart) :
    ∃ j, S.tag j = .eof ∧ Carries S 0 j (Lexeme.contents (behindShebang f.format.toList)) := by
  have first := firstLine_cases S (lexChars cs .empty).shebang
  generalize S.firstLine (lexChars cs .empty).shebang = line at h first
  obtain @⟨items, i, span, items, _, _⟩ := h
  obtain ⟨⟨tail, ht, meaning⟩, -⟩ := signs_format (f := ⟨line, _, span⟩) (items.shows s apart)
    (shebangOf_firstLine first)
  obtain ⟨j, hj, carries⟩ := items.carries s ok
  refine ⟨j, hj, ?_⟩
  unfold Lexeme.contents
  rw [meaning, List.flatMap_append, List.flatMap_append, (tokenless_line line).contents_eq, ht.contents_eq,
    contents_itemSigns, Item.readable_eq (items.isError_eq ok), List.append_nil, List.nil_append]
  exact (Carries.past 0).append carries

end Grammar

open Grammar in
/-- Printing fuses and splits no tokens. When a text has no errors and its details keep apart, the text in
the canonical layout has the same names, numbers, strings, characters and operators in the same order, and
no token that cannot be read. -/
theorem tokens_format (source : String) (dialect : Dialect)
    (accepted : (parseText source dialect).errors = [])
    (apart : ∀ x ∈ (parseText source dialect).file.details, x.Apart) :
    let printed := (lex (parseText source dialect).file.format .empty).tokens
    printed.contents = (lex source .empty).tokens.contents
      ∧ ∀ t ∈ printed.items.toList, t.tag ≠ .error := by
  intro printed
  obtain ⟨j, hj, carries⟩ := (parse_derives source.toList dialect).contents_format (ofText_source _ _ _)
    (not_not.2 accepted) apart
  obtain ⟨body, spacing, h, hbody, _⟩ := lexChars_tokens source.toList .empty
  obtain ⟨same, fine⟩ := carries.contents h rfl (length_le_of_eof h hbody hj)
  rw [List.drop_zero] at same fine
  have ofSource : (lex source .empty).tokens.contents = body.flatMap fun t => t.kind.content := by
    show (lexChars source.toList .empty).tokens.contents = _
    unfold Tokens.contents
    rw [h, List.flatMap_append]
    exact List.append_nil _
  have ofPrinted : printed.contents = body.flatMap fun t => t.kind.content :=
    (contents_lexChars _ _).trans same
  refine ⟨ofPrinted.trans ofSource.symm, fun t ht error => ?_⟩
  have content : t.kind.isContent = true := by
    revert error
    unfold Token.tag
    cases t.kind <;> first | exact fun _ => rfl | exact nofun
  have mem : t.kind ∈ printed.contents := List.mem_flatMap.2 ⟨t, ht, TokenKind.mem_content_self content⟩
  rw [ofPrinted] at mem
  obtain ⟨t', ht', inside⟩ := List.mem_flatMap.1 mem
  refine fine t' ht' ?_
  unfold Token.tag
  rwa [← TokenKind.mem_content inside]

/-- Spaces are added and left out, and what is written stays the same. -/
theorem tokens_format_clause :
    let source := "f x=  |y|A.g(y 0x1Fu8)+'c'"
    let parsed := parseText source .declarationFiles
    let printed := (lex parsed.file.format .empty).tokens
    parsed.errors = [] ∧ (∀ x ∈ parsed.file.details, x.Apart)
      ∧ printed.contents = (lex source .empty).tokens.contents
      ∧ ∀ t ∈ printed.items.toList, t.tag ≠ .error := by
  intro source parsed printed
  obtain ⟨accepted, apart⟩ : parsed.errors = [] ∧ ∀ x ∈ parsed.file.details, x.Apart := by
    decide +kernel
  exact ⟨accepted, apart, tokens_format source .declarationFiles accepted apart⟩

/-- A name made of symbols runs into the dot behind it, which the printer puts there without a
space. -/
theorem tokens_format_fused :
    let p := parseText "`+ . b" .scripts
    p.errors = [] ∧ (lex p.file.format .empty).tokens.contents = [.symbolIdent "+.", .ident "b"]
      ∧ (lex "`+ . b" .empty).tokens.contents = [.symbolIdent "+", .ident "b"] := by
  decide +kernel

/-! ## The last word of an expression -/

/-- Words of which the last one is not two dots. -/
def EndsOtherwise (ws : List Word) : Prop := ∃ front w, ws = front ++ [w] ∧ w.1.tag ≠ .reserved .dotDot

namespace EndsOtherwise

variable {ws ws' : List Word} {w : Word}

theorem one (h : w.1.tag ≠ .reserved .dotDot) : EndsOtherwise [w] := ⟨[], w, rfl, h⟩

theorem append (h : EndsOtherwise ws') : EndsOtherwise (ws ++ ws') := by
  obtain ⟨front, w, rfl, last⟩ := h
  exact ⟨ws ++ front, w, (List.append_assoc _ _ _).symm, last⟩

theorem cons (h : EndsOtherwise ws) : EndsOtherwise (w :: ws) := by
  obtain ⟨front, last, rfl, other⟩ := h
  exact ⟨w :: front, last, rfl, other⟩

/-- Words with what may follow them. -/
theorem extend (h : EndsOtherwise ws) (h' : ws' = [] ∨ EndsOtherwise ws') : EndsOtherwise (ws ++ ws') := by
  rcases h' with rfl | h'
  · rwa [List.append_nil]
  · exact h'.append

theorem braced (isEmpty : Bool) (lines : List (List Word)) : EndsOtherwise (Word.braced isEmpty lines) := by
  have closes : EndsOtherwise [.punct .closeBrace] := one Tag.noConfusion
  unfold Word.braced
  split
  · exact closes.cons
  · exact closes.cons.append

theorem commas {wss : List (List Word)} (h : ∀ ws ∈ wss, EndsOtherwise ws) :
    Word.commas wss = [] ∨ EndsOtherwise (Word.commas wss) := by
  induction wss with
  | nil => exact .inl rfl
  | cons ws wss ih =>
    obtain ⟨first, rest⟩ := List.forall_mem_cons.1 h
    cases wss with
    | nil => exact .inr first
    | cons ws' wss =>
      have comma : EndsOtherwise [.punct .comma] := one Tag.noConfusion
      exact .inr (comma.extend (ih rest)).append

end EndsOtherwise

theorem nameKind_endsOtherwise (n : String) : EndsOtherwise [.token (nameKind n)] := by
  refine .one ?_
  unfold nameKind Word.token
  split <;> exact Tag.noConfusion

theorem Literal.endsOtherwise (v : Literal) : EndsOtherwise [.token v.kind] := by
  cases v <;> exact .one Tag.noConfusion

theorem Path.endsOtherwise (p : Path) : EndsOtherwise p.words := by
  obtain ⟨x, xs⟩ := p
  induction xs generalizing x with
  | nil => exact nameKind_endsOtherwise x.name
  | cons y ys ih => exact (ih y).cons.cons

theorem Block.endsOtherwise (b : Block) : EndsOtherwise b.words := by
  obtain ⟨ss, _⟩ := b
  exact .braced _ _

mutual

theorem Expr.endsOtherwise : (e : Expr) → EndsOtherwise e.words
  | .literal _ v => v.endsOtherwise
  | .name _ n => nameKind_endsOtherwise n
  | .path _ p => p.endsOtherwise
  | .tuple _ _ _ | .array _ _ => .append (.one Tag.noConfusion)
  | .conditional _ _ _ e => .append (.cons e.endsOtherwise)
  | .matchOn _ _ _ => .append (.braced _ _)
  | .returned _ none => .one Tag.noConfusion
  | .returned _ (some v) => .cons v.endsOtherwise
  | .app _ f es none => .extend (.extend f.endsOtherwise (Expr.allEndOtherwise es)) (.inl rfl)
  | .app _ _ _ (some b) => .append b.endsOtherwise
  | .typeApp _ f es => .extend f.endsOtherwise (Expr.allEndOtherwise es)
  | .lambda _ [] b => .cons b.endsOtherwise
  | .lambda _ (_ :: _) b => .append (.cons b.endsOtherwise)
  | .arrow _ _ c => .append (.cons c.endsOtherwise)
  | .pi _ _ c | .sigma _ _ c => .append (.cons (.cons c.endsOtherwise))
  | .ascription _ _ t => .append (.cons t.endsOtherwise)
  | .binary _ _ _ r => .append (.cons r.endsOtherwise)

theorem Expr.allEndOtherwise : (es : List Expr) →
    (Expr.wordLists es).flatten = [] ∨ EndsOtherwise (Expr.wordLists es).flatten
  | [] => .inl rfl
  | e :: es => .inr (.extend e.endsOtherwise (Expr.allEndOtherwise es))

theorem Body.endsOtherwise : (b : Body) → EndsOtherwise b.words
  | .block b => b.endsOtherwise
  | .expr e => e.endsOtherwise

end

/-! ## Reading a printed file again -/

/-- No parameter of a function is two dots or holds them. -/
def Detail.Restless : Detail → Prop
  | function ps => ∀ a ∈ ps, Word.reserved .dotDot ∉ a.pattern.words
  | _ => True

instance : DecidablePred Detail.Restless
  | .function ps => inferInstanceAs (Decidable (∀ a ∈ ps, _ ∉ _))
  | .path _ | .domain _ | .block _ | .parameter _ => .isTrue trivial

namespace Grammar

variable {S : Setting}

/-- No token is a name made of symbols or a single quote. -/
structure Setting.PlainNames (S : Setting) : Prop where
  letters : ∀ i, S.tag i ≠ .symbolIdent
  unquoted : ∀ i, S.kind i ≠ .ident "'"

/-- Where no token is a name made of symbols, no word of parameters is one. -/
theorem ParamsAt.ne_symbolIdent (s : S.Source) (ok : ¬ S.flawed) (plain : S.PlainNames)
    {t c b i ps tr j} (h : ParamsAt S t c b i ps tr j) :
    ∀ w ∈ Word.commas (Param.wordLists ps), w.1.tag ≠ .symbolIdent := by
  intro w hw symbols
  have content : w.1 ∈ (Param.wordLists ps).flatMap Word.contents := by
    rw [← Word.contents_commas]
    refine List.mem_flatMap.2 ⟨w, hw, TokenKind.mem_content_self ?_⟩
    revert symbols
    cases w.1 <;> first | exact fun _ => rfl | exact nofun
  obtain ⟨m, hm⟩ := (h.carries s ok).exists_kind content
  exact plain.letters m (by rw [← S.tag_kind, hm, symbols])

end Grammar

theorem Pattern.endsOtherwise {p : Pattern} (h : Word.reserved .dotDot ∉ p.words) :
    EndsOtherwise p.words := by
  obtain ⟨ws, k, -, words⟩ := p.solid.ends
  rw [words] at h ⊢
  refine ⟨ws, .token k, rfl, fun dots => h ?_⟩
  have dots : k = .reserved .dotDot := TokenKind.eq_reserved dots
  exact List.mem_append_right _ (List.mem_singleton.2 (congrArg Word.token dots.symm))

theorem Param.endsOtherwise {a : Param} (h : Word.reserved .dotDot ∉ a.pattern.words) :
    EndsOtherwise a.words := by
  obtain ⟨p, t, _⟩ := a
  refine (Pattern.endsOtherwise h).extend ?_
  cases t with
  | none => exact .inl rfl
  | some t => exact .inr t.endsOtherwise.cons

theorem Word.prefix_commas (ws : List Word) (wss : List (List Word)) : ws <+: commas (ws :: wss) := by
  cases wss with
  | nil => exact List.prefix_refl ws
  | cons ws' wss => exact List.prefix_append _ _

/-- A parameter of a function starts with the first word of its pattern. -/
theorem Param.head?_commas {a : Param} {as : List Param} (h : Word.reserved .dotDot ∉ a.pattern.words) :
    (Word.commas (Param.wordLists (a :: as))).head? ≠ some (.reserved .dotDot) := by
  obtain ⟨p, t, _⟩ := a
  obtain ⟨k, ws, -, words⟩ := p.solid.starts
  obtain ⟨rest, all⟩ := Word.prefix_commas (p.words ++ Param.typeWords t) (Param.wordLists as)
  rw [Param.wordLists, Param.words, ← all, words]
  rintro ⟨⟩
  exact h (by rw [words]; exact List.mem_cons_self)

namespace Grammar

variable {S : Setting}

/-- The parameters of a function keep apart where none of them is two dots. -/
theorem Setting.Derives.function_apart (s : S.Source) (ok : ¬ S.flawed) (plain : S.PlainNames)
    {ps : List Param} (h : S.Derives (.function ps)) (rest : Detail.Restless (.function ps)) :
    Detail.Apart (.function ps) := by
  obtain ⟨t, c, b, i, tr, j, h⟩ := h
  have symbols := h.ne_symbolIdent s ok plain
  constructor
  · cases ps with
    | nil => exact (Option.some_ne_none _).symm
    | cons a as => exact Param.head?_commas (rest a List.mem_cons_self)
  · have ends : ∀ ws ∈ Param.wordLists ps, EndsOtherwise ws := by
      clear h symbols
      induction ps with
      | nil => exact List.forall_mem_nil _
      | cons a as ih =>
        obtain ⟨first, others⟩ := List.forall_mem_cons.1 rest
        exact List.forall_mem_cons.2 ⟨Param.endsOtherwise first, ih others⟩
    unfold Word.runsOn
    rcases EndsOtherwise.commas ends with none | ⟨front, w, words, last⟩
    · rw [none]
      rfl
    · rw [words] at symbols ⊢
      have symbol := symbols w (List.mem_append_right _ List.mem_cons_self)
      simp [symbol, last]

/-- A name of a path is the name of a token. -/
theorem Setting.Derives.path_apart (s : S.Source) (plain : S.PlainNames)
    {ns : List String} (h : S.Derives (.path ns)) : Detail.Apart (.path ns) := by
  have kinds : ∀ n ∈ ns, ∃ i, S.kind i = nameKind n := fun n hn => by
    obtain ⟨i, name⟩ := h n hn
    exact ⟨i, (nameKind_of_written name (s.named i n name)).symm⟩
  refine ⟨fun quote => ?_, fun n hn symbols => ?_⟩
  · obtain ⟨i, kind⟩ := kinds _ quote
    exact plain.unquoted i kind
  · obtain ⟨i, kind⟩ := kinds n (List.dropLast_subset _ hn)
    exact plain.letters i (by rw [← S.tag_kind, kind, symbols])

/-- Where no name is made of symbols or a single quote and no parameter of a function is two dots all
details keep apart. -/
theorem Setting.Derives.apart (s : S.Source) (ok : ¬ S.flawed) (plain : S.PlainNames) {x : Detail}
    (h : S.Derives x) (rest : x.Restless) : x.Apart := by
  cases x with
  | path ns => exact h.path_apart s plain
  | function ps => exact h.function_apart s ok plain rest
  | _ => trivial

end Grammar

/-- No colon starts a line. -/
def Tokens.ColonsInside (ts : Tokens) : Prop :=
  (Groups.tagsOf ts).IsChain fun t t' => ¬ (t = .lineBreak ∧ t' = .punct .colon)

instance (ts : Tokens) : Decidable ts.ColonsInside :=
  inferInstanceAs (Decidable (List.IsChain _ _))

theorem Grammar.ofText_colons {cs : List Char} {dialect : Dialect} {flawed : Prop}
    (h : (lexChars cs .empty).tokens.ColonsInside) : (Setting.ofText cs dialect flawed).ColonsInside := by
  intro m line colon
  obtain ⟨_, first⟩ := List.getElem?_eq_some_iff.1 (Groups.getElem?_tagsOf line Tag.noConfusion)
  obtain ⟨inside, second⟩ :=
    List.getElem?_eq_some_iff.1 (Groups.getElem?_tagsOf colon Tag.noConfusion)
  exact List.isChain_iff_getElem.1 h m inside ⟨first, second⟩

theorem Grammar.ofText_plainNames {cs : List Char} {dialect : Dialect} {flawed : Prop}
    (h : ∀ t ∈ (lexChars cs .empty).tokens.items.toList, t.tag ≠ .symbolIdent ∧ t.kind ≠ .ident "'") :
    (Setting.ofText cs dialect flawed).PlainNames := by
  have kind := ofText_kind cs dialect flawed
  refine ⟨fun i symbols => ?_, fun i quote => ?_⟩
  · obtain ⟨t, ht, same⟩ := kind i
    rw [← Setting.tag_kind, same] at symbols
    exact (h t ht).1 symbols
  · obtain ⟨t, ht, same⟩ := kind i
    exact (h t ht).2 (same.symm.trans quote)

open Grammar in
/-- A text that is read without errors and laid out is read again without errors, as a tree of the same
shape. This needs that no name is made of symbols or a single quote, that no parameter of a function is
two dots, that no colon starts a line, and that no type of a last parameter runs into the bar behind
it. -/
theorem parse_format (source : String) (dialect : Dialect)
    (accepted : (parseText source dialect).errors = [])
    (plain : ∀ t ∈ (lex source .empty).tokens.items.toList, t.tag ≠ .symbolIdent ∧ t.kind ≠ .ident "'")
    (restless : ∀ x ∈ (parseText source dialect).file.details, x.Restless)
    (colons : (lex source .empty).tokens.ColonsInside)
    (closed : ∀ x ∈ (parseText source dialect).file.details, x.Closed) :
    let first := (parseText source dialect).file
    let again := parseText first.format dialect
    again.errors = [] ∧ again.file.tree.shape = first.tree.shape := by
  intro first again
  have derived := parse_derives source.toList dialect
  have ok : ¬ (parseChars source.toList dialect).errors ≠ [] := not_not.2 accepted
  have fromText := ofText_source source.toList dialect ((parseChars source.toList dialect).errors ≠ [])
  have apart : ∀ x ∈ first.details, x.Apart := fun x hx =>
    (derived.derives x hx).apart fromText ok (ofText_plainNames plain) (restless x hx)
  have kept : ∀ x ∈ first.details, x.Kept := fun x hx =>
    (derived.derives x hx).kept fromText ok (ofText_colons colons) (closed x hx)
  have read : again.ReadAs first.pruned := parseChars_format source.toList dialect apart kept
  have whole : first.pruned = first := derived.pruned_eq ok
  rw [whole] at read
  exact ⟨read.errors, Tree.shape_eq_of_bare read.tree⟩

/-- Commas are left out, one of them before the bar that ends parameters. -/
theorem parse_format_commas :
    let source := "//!  Two.\n@inline\ndata P(a)\x7bQ(x:a,);f(x):P\x7d\ng y=h(|x:a,|y) match y\x7b.. =>z\x7d"
    let first := (parseText source .declarationFiles).file
    (parseText source .declarationFiles).errors = []
      ∧ (∀ t ∈ (lex source .empty).tokens.items.toList, t.tag ≠ .symbolIdent ∧ t.kind ≠ .ident "'")
      ∧ (∀ x ∈ first.details, x.Restless) ∧ (lex source .empty).tokens.ColonsInside
      ∧ (∀ x ∈ first.details, x.Closed)
      ∧ (parseText first.format .declarationFiles).errors = []
      ∧ (parseText first.format .declarationFiles).file.tree.shape = first.tree.shape := by
  intro source first
  obtain ⟨accepted, plain, restless, colons, closed⟩ : (parseText source .declarationFiles).errors = []
      ∧ (∀ t ∈ (lex source .empty).tokens.items.toList, t.tag ≠ .symbolIdent ∧ t.kind ≠ .ident "'")
      ∧ (∀ x ∈ first.details, x.Restless) ∧ (lex source .empty).tokens.ColonsInside
      ∧ ∀ x ∈ first.details, x.Closed := by
    decide +kernel
  exact ⟨accepted, plain, restless, colons, closed,
    parse_format source .declarationFiles accepted plain restless colons closed⟩

/-- Where the last parameter has a function for a type, the bar behind it becomes part of that function
once the comma between them is left out. -/
theorem parse_format_open :
    (parseText "|x: |y| z,| w" .scripts).errors = []
      ∧ (∀ t ∈ (lex "|x: |y| z,| w" .empty).tokens.items.toList,
        t.tag ≠ .symbolIdent ∧ t.kind ≠ .ident "'" ∧ t.tag ≠ .reserved .dotDot)
      ∧ (lex "|x: |y| z,| w" .empty).tokens.ColonsInside
      ∧ (parseText "|x: |y| z,| w" .scripts).file.format = "|x: |y| z| w\n"
      ∧ (parseText "|x: |y| z| w\n" .scripts).errors ≠ [] := by
  decide +kernel

end Surface
