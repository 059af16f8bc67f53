import Surface.Proofs.Canonical.Printed

/-!
# Reading a file in the canonical layout

A text that is laid out is read again without errors, as the tree without what could not be read, and laid
out as the same text. This needs that the details of the tree keep apart and are kept where they are
printed; the text may have errors.

Results:
* `ofText_source`: tokens and comments that come from a text.
* `FileAt.reread`, `parseChars_format`: the text of a tree is read as the tree (`Parsed.ReadAs`).
* `format_format`: the text of a tree is laid out as it stands.
-/

namespace Surface

open Lexeme (Sign signs told untold pendingBreak position)

/-! ## Tokens and comments of a text -/

/-- One bar is no operator but the bar of a function. -/
theorem ne_bar_of_lexChars {cs : List Char} {names : NameTable} {t : Token}
    (h : t ∈ (lexChars cs names).tokens.items.toList) : t.kind ≠ .operator Reserved.pipe.text := by
  intro bar
  rcases kind_of_lexChars h with none | none | ⟨l, -, hk⟩
  · cases bar.symm.trans none
  · cases bar.symm.trans none
  · rw [bar] at hk
    obtain ⟨k, text⟩ := l
    cases k with
    | symbols =>
      have same : Lexeme.symbolsKind text = _ := Option.some.inj hk
      unfold Lexeme.symbolsKind at same
      dsimp only at same
      split at same
      · cases same
      · next none =>
        rw [TokenKind.operator.inj same] at none
        cases none
    | word =>
      have same : Lexeme.wordKind text = _ := Option.some.inj hk
      rcases Lexing.wordKind_cases text with ⟨_, e⟩ | e <;> rw [e] at same <;> cases same
    | char =>
      unfold Lexeme.kind? at hk
      dsimp only at hk
      split at hk <;> cases hk
    | _ => cases hk

theorem trimmed_lexChars (cs : List Char) (names : NameTable) :
    ∀ c ∈ (lexChars cs names).comments.items, Text.trim c.content.toList = c.content.toList := by
  intro c hc
  have mem := Array.mem_toList_iff.2 hc
  rw [(lexChars_placed cs names).2] at mem
  obtain ⟨p, -, comment⟩ := List.mem_filterMap.1 mem
  unfold Placed.comment? at comment
  split at comment <;> cases comment
  · rw [String.toList_ofList, Text.trim_trim]
  · rw [String.toList_ofList, Text.trim_trim]

namespace Grammar

variable {cs : List Char} {dialect : Dialect} {flawed : Prop}

theorem ofText_kind (cs : List Char) (dialect : Dialect) (flawed : Prop) (i : Nat) :
    ∃ t ∈ (lexChars cs .empty).tokens.items.toList,
      (Setting.ofText cs dialect flawed).kind i = t.kind := by
  obtain ⟨body, spacing, h, _⟩ := lexChars_tokens cs .empty
  by_cases hi : i < body.length
  · refine ⟨body[i], ?_, congrArg Token.kind (tokens_get_body h hi).1⟩
    rw [h]
    exact List.mem_append_left _ (List.getElem_mem hi)
  · refine ⟨_, ?_, congrArg Token.kind (tokens_get_end h (Nat.le_of_not_lt hi))⟩
    rw [h]
    exact List.mem_append_right _ List.mem_cons_self

/-- Tokens and comments that come from a text are printed as they were written. -/
theorem ofText_source (cs : List Char) (dialect : Dialect) (flawed : Prop) :
    (Setting.ofText cs dialect flawed).Source where
  groups := rfl
  bars i := by
    obtain ⟨t, ht, kind⟩ := ofText_kind cs dialect flawed i
    rw [kind]
    exact ne_bar_of_lexChars ht
  legible i error lineBreak eof quote := by
    obtain ⟨t, ht, kind⟩ := ofText_kind cs dialect flawed i
    rw [← Setting.tag_kind, kind] at error lineBreak eof
    rw [kind] at quote ⊢
    rcases kind_of_lexChars ht with none | none | ⟨l, hl, hk⟩
    · exact absurd (by rw [none]; rfl) lineBreak
    · exact absurd (by rw [none]; rfl) eof
    · exact Lexeme.legible_of_mem hl hk error quote
  named i n hn := by
    obtain ⟨t, ht, kind⟩ := ofText_kind cs dialect flawed i
    rw [kind] at hn ⊢
    rcases kind_of_lexChars ht with none | none | ⟨l, hl, hk⟩
    · rw [none] at hn
      cases hn
    · rw [none] at hn
      cases hn
    · exact Lexeme.nameText_of_mem hl hk hn
  numbers i n hn := by
    obtain ⟨t, ht, kind⟩ := ofText_kind cs dialect flawed i
    rw [hn] at kind
    rcases kind_of_lexChars ht with none | none | ⟨l, hl, hk⟩
    · cases kind.trans none
    · cases kind.trans none
    · exact Lexeme.proper_of_mem hl (by rw [hk, kind])
  lines := onLines_lexChars cs .empty
  trimmed := trimmed_lexChars cs .empty

/-- Where a dialect has no documentation items that could be read have none. -/
theorem ItemsAt.undocumented {S : Setting} {docsFrom i : Nat} {as : List Item}
    (h : ItemsAt S docsFrom i as) (none : S.input.dialect.docs = false) : ∀ a ∈ Item.readable as, a.docs = [] := by
  induction h with
  | stop _ => exact nofun
  | @more _ _ a _ _ _ h _ ih =>
    cases read : a.isError with
    | true => rwa [Item.readable_of_error read]
    | false =>
      rw [Item.readable_of_read read]
      refine List.forall_mem_cons.2 ⟨?_, ih⟩
      cases h with
      | decl _ _ h _ =>
        obtain ⟨docs, _, _, _⟩ := h
        unfold Setting.docs at docs
        rw [if_neg (by rw [none]; exact Bool.false_ne_true)] at docs
        exact List.forall₂_nil_left_iff.1 docs
      | stmt _ _ _ _ => rfl
      | errorDecl _ _ _ _ | errorStmt _ _ _ _ => cases read

theorem tokenless_line (line : Option Shebang) : Tokenless (lineSigns line) := by
  unfold lineSigns
  split
  · exact List.forall_mem_singleton.2 (.inl rfl)
  · exact nofun

/-- Items are derived from a text that means those of them that could be read. -/
theorem items_of_signs {S : Setting} {items : List Item} {line : Option Shebang} {tail : List Sign}
    {m i : Nat} (source : S.Source) (h : ItemsAt S m i items)
    (kept : ∀ x ∈ items.flatMap Item.details, x.Kept)
    (meaning : signs (behindShebang cs) = lineSigns line ++ (itemSigns (Item.readable items) ++ tail))
    (ht : Tokenless tail) :
    let T := Setting.lenient cs S.input.dialect
    ItemsAt T (shebangLength cs) (T.past 0) (Item.allPruned items) ∧ ∃ j, T.tag j = .eof := by
  intro T
  have read : ∀ a ∈ Item.readable items, a.isError = false := Item.isError_of_readable
  obtain ⟨nothing, -⟩ := (tokenless_line line).told_eq none
  obtain ⟨pending, words, -, first⟩ := told_items read ht (untold none (lineSigns line))
  have readings : T.input.tokens.readings
      = pendingBreak pending ++ (itemWords (Item.readable items) ++ [(.eof, false)]) := by
    refine (lexChars_readings cs .empty).trans ?_
    rw [meaning, Lexeme.told_append, Lexeme.untold_append, nothing, List.nil_append,
      ← List.append_assoc, words, List.append_assoc]
  have hw := Spelt.of_readings readings
  have ends : T.tag ((pendingBreak pending).length + (itemWords (Item.readable items)).length) = .eof :=
    Tokens.tag_of_readings (r := (.eof, false)) (by rw [readings]; simp)
  have docs : Documented T (shebangLength cs) (pendingBreak pending).length (Item.readable items) := by
    refine documented_of_signs read h.undocumented [] _ rfl
      ((signs_placed cs).trans meaning) ?_ nofun (fun x hx => ?_) fun a ha => ?_
    · unfold lineSigns
      split <;> rfl
    · exact ((increasing_placed cs).bounds (List.mem_map_of_mem hx)).1
    · obtain ⟨nothing', -⟩ := (tokenless_docs a.docs).told_eq (untold none (lineSigns line))
      show _ = position (lineSigns line ++ _)
      rw [position, Lexeme.told_append, Lexeme.untold_append, nothing, nothing', first a ha]
      rfl
  obtain ⟨again, lineBreak, -⟩ := h.again source lenient_ofText rfl docs hw ends kept
  refine ⟨?_, _, ends⟩
  have start : T.past 0 = (pendingBreak pending).length := by
    cases pending with
    | none => exact T.past_of_ne lineBreak
    | some b =>
      have line : T.tag 0 = .lineBreak :=
        Tokens.tag_of_readings (r := (.lineBreak, b)) (by rw [readings]; rfl)
      exact past_of_line line lineBreak
  rwa [start]

/-- The first line of a text. -/
theorem lexChars_line (cs : List Char) (names : NameTable) : (lexChars cs names).shebang
    = (shebangOf cs).map fun l => ⟨String.ofList l, ⟨0, shebangLength cs⟩⟩ := rfl

theorem lineStart (cs : List Char) (names : NameTable) :
    ((lexChars cs names).shebang.map fun l => l.span.stop).getD 0 = shebangLength cs := by
  rw [lexChars_line]
  unfold shebangLength
  cases shebangOf cs <;> rfl

theorem firstLine_cases (S : Setting) (line : Option Shebang) :
    S.firstLine line = none ∨ S.firstLine line = line := by
  unfold Setting.firstLine
  split
  · exact .inr rfl
  · exact .inl rfl

/-- The first line that is kept is one of the text. -/
theorem shebangOf_firstLine {line : Option Shebang}
    (first : line = none ∨ line = (lexChars cs .empty).shebang) :
    ∀ l ∈ line, ∃ cs, shebangOf cs = some l.text.toList := fun l hl => by
  rcases first with rfl | rfl
  · cases hl
  rw [lexChars_line] at hl
  obtain ⟨text, first, rfl⟩ := Option.map_eq_some_iff.1 hl
  exact ⟨cs, first.trans (congrArg some String.toList_ofList.symm)⟩

/-- What is derived from a text, but for what could not be read, is derived from its canonical layout,
with the first line as it is there. -/
theorem file_again {S : Setting} {f : SourceFile} (source : S.Source)
    (h : FileAt S (S.firstLine (lexChars cs .empty).shebang) f) (apart : ∀ x ∈ f.details, x.Apart)
    (kept : ∀ x ∈ f.details, x.Kept) :
    (∃ s, FileAt (Setting.lenient f.format.toList S.input.dialect) (lexChars f.format.toList .empty).shebang
        ⟨(lexChars f.format.toList .empty).shebang, f.pruned.items, s⟩)
      ∧ (lexChars f.format.toList .empty).shebang.map Shebang.text
        = f.shebang.map fun l => String.ofList (Text.trimEnd l.text.toList) := by
  have first := firstLine_cases S (lexChars cs .empty).shebang
  generalize S.firstLine (lexChars cs .empty).shebang = line at h first
  obtain @⟨items, i, s, items, _, _⟩ := h
  obtain ⟨⟨tail, ht, meaning⟩, same⟩ := signs_format (f := ⟨line, _, s⟩) (items.shows source apart)
    (shebangOf_firstLine first)
  obtain ⟨again, j, ends⟩ := items_of_signs source items kept meaning ht
  refine ⟨⟨.point 0, .mk (by rwa [lineStart]) ends trivial⟩, ?_⟩
  rw [lexChars_line, same, Option.map_map, Option.map_map]
  rfl

end Grammar

/-! ## Round trips -/

/-- Trees of files with the same items differ in spans at most if both have a first line or neither. -/
theorem SourceFile.tree_bare_eq {f g : SourceFile} (items : f.items = g.items)
    (line : f.shebang.isSome = g.shebang.isSome) : f.tree.bare = g.tree.bare := by
  refine Tree.bare_node rfl ?_ _ _
  rw [items, Tree.bareChildren_append, Tree.bareChildren_append]
  cases hf : f.shebang <;> cases hg : g.shebang <;> rw [hf, hg] at line <;> first | rfl | cases line

theorem SourceFile.format_eq {f g : SourceFile} (items : f.items = g.items)
    (line : f.shebang.map Shebang.doc = g.shebang.map Shebang.doc) : f.format = g.format := by
  unfold format doc
  rw [items, line]

/-- A first line without the blanks at its end is laid out in the same way. -/
theorem Shebang.docs_eq {line line' : Option Shebang}
    (h : line'.map text = line.map fun l => String.ofList (Text.trimEnd l.text.toList)) :
    line'.map doc = line.map doc := by
  have trimmed (t : String) : Text.trimEnd (String.ofList (Text.trimEnd t.toList)).toList
      = Text.trimEnd t.toList := by
    rw [String.toList_ofList]
    exact Text.dropEndWhile_dropEndWhile _ _
  have docs (l : Shebang) : l.doc = .text (String.ofList (Text.trimEnd l.text.toList)) := rfl
  cases line with
  | none =>
    rw [Option.map_none, Option.map_eq_none_iff] at h
    rw [h]
  | some l =>
    obtain ⟨l', rfl, text⟩ := Option.map_eq_some_iff.1 h
    rw [Option.map_some, Option.map_some, docs, docs, text, trimmed]

/-- A text that has been read without errors, as the tree and with the canonical layout of a file. -/
structure Parsed.ReadAs (p : Parsed) (f : SourceFile) : Prop where
  errors : p.errors = []
  tree : p.file.tree.bare = f.tree.bare
  format : p.file.format = f.format

namespace Grammar

theorem FileAt.shebang_eq {S : Setting} {line : Option Shebang} {f : SourceFile} (h : FileAt S line f) :
    f.shebang = line := by
  cases h
  rfl

/-- What is derived from a text, but for what could not be read, is read again from its canonical layout
without errors. -/
theorem FileAt.reread {S : Setting} {cs : List Char} {f : SourceFile} (source : S.Source)
    (h : FileAt S (S.firstLine (lexChars cs .empty).shebang) f) (apart : ∀ x ∈ f.details, x.Apart)
    (kept : ∀ x ∈ f.details, x.Kept) :
    (parseChars f.format.toList S.input.dialect).ReadAs f.pruned := by
  obtain ⟨⟨s, derived⟩, line⟩ := file_again source h apart kept
  have isSome : (lexChars f.format.toList .empty).shebang.isSome = f.shebang.isSome := by
    have both := congrArg Option.isSome line
    rwa [Option.isSome_map, Option.isSome_map] at both
  have admitted : rejectsLine (lexChars f.format.toList .empty).shebang S.input.dialect = false := by
    unfold rejectsLine
    rw [isSome, h.shebang_eq, Setting.firstLine]
    cases S.input.dialect.shebang
    · rfl
    · exact Bool.and_false _
  obtain ⟨errors, same⟩ := FileAt.parsed not_false rfl admitted derived
  refine ⟨errors, ?_, ?_⟩
  · rw [← SourceFile.bare_tree, same, SourceFile.bare_tree]
    exact SourceFile.tree_bare_eq rfl isSome
  · rw [← SourceFile.bare_format, same, SourceFile.bare_format]
    exact SourceFile.format_eq rfl (Shebang.docs_eq line)

end Grammar

open Grammar in
/-- A text whose details keep apart and are kept is read again from its canonical layout without errors, as
all of the tree that could be read. -/
theorem parseChars_format (cs : List Char) (dialect : Dialect) :
    let first := (parseChars cs dialect).file
    (∀ x ∈ first.details, x.Apart) → (∀ x ∈ first.details, x.Kept) →
      (parseChars first.format.toList dialect).ReadAs first.pruned := by
  intro first apart kept
  have again := (parse_derives cs dialect).reread (ofText_source _ _ _) apart kept
  exact again

/-- A text that is laid out is laid out as it stands, with errors or without, if its details keep apart,
are kept and shown. -/
theorem format_format (source : String) (dialect : Dialect)
    (apart : ∀ x ∈ (parseText source dialect).file.details, x.Apart)
    (kept : ∀ x ∈ (parseText source dialect).file.details, x.Kept)
    (shown : ∀ x ∈ (parseText source dialect).file.details, x.Shown) :
    (parseText (parseText source dialect).file.format dialect).file.format
      = (parseText source dialect).file.format := by
  have again := parseChars_format source.toList dialect apart kept
  exact again.format.trans ((parseText source dialect).file.pruned_format shown)

/-- The first line loses its blanks, parentheses of patterns are left out, lines are added and what could
not be read is dropped, all of it once. -/
theorem format_format_script :
    let source := "#!run \nlet x=match y\x7bA(z)=>\x7bw\n)\x7d,(..)=>v\x7d; x\n]"
    let first := (parseText source .scripts).file
    (parseText source .scripts).errors ≠ [] ∧ (∀ x ∈ first.details, x.Apart)
      ∧ (∀ x ∈ first.details, x.Kept) ∧ (∀ x ∈ first.details, x.Shown)
      ∧ (parseText first.format .scripts).file.format = first.format := by
  intro source first
  obtain ⟨rejected, apart, kept, shown⟩ : (parseText source .scripts).errors ≠ []
      ∧ (∀ x ∈ first.details, x.Apart) ∧ (∀ x ∈ first.details, x.Kept)
      ∧ ∀ x ∈ first.details, x.Shown := by
    decide +kernel
  exact ⟨rejected, apart, kept, shown, format_format source .scripts apart kept shown⟩

/-- A block of which no statement could be read is printed over two lines, and as an empty block
when that text is read and printed again. -/
theorem format_again_skipped :
    (parseText "f \x7b ) \x7d" .declarationFiles).file.format = "f \x7b\n\x7d\n"
      ∧ (parseText "f \x7b\n\x7d\n" .declarationFiles).file.format = "f \x7b\x7d\n" := by
  decide +kernel

end Surface
