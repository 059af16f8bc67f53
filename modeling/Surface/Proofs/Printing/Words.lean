import Surface.Proofs.Lexing.SymbolNames
import Surface.Proofs.Printing.Names
import Surface.Proofs.Reader.Levels

/-!
# Words of a text as they are printed

What is printed for a name, a literal or an operator of a text stands on one line and starts with
something to see, which is no brace.

Results:
* `IsWord`: such texts.
* `HasName.isWord`, `HasLiteral.isWord`, `HasOperator.isWord`, `HasPath.isWord`: what is printed for the
  words of a text.
-/

namespace Surface

/-- A text on one line that starts with something to see, which is no brace. -/
def IsWord (w : String) : Prop :=
  '\n' ∉ w.toList ∧ ∃ c cs, w.toList = c :: cs ∧ c ≠ ' ' ∧ c ≠ '\x7b' ∧ c ≠ '\x7d'

/-- The characters that words start with. -/
def startsVisible (c : Char) : Bool := c != ' ' && c != '\x7b' && c != '\x7d'

theorem isWord_iff (w : String) : IsWord w ↔
    (w.toList.all (· != '\n') && w.toList.head?.any startsVisible) = true := by
  unfold IsWord
  rw [Bool.and_eq_true, List.all_eq_true]
  refine and_congr ⟨fun h c hc => bne_iff_ne.2 fun same => h (same ▸ hc),
    fun h mem => bne_iff_ne.1 (h _ mem) rfl⟩ ?_
  cases w.toList <;> simp [startsVisible, and_assoc]

instance (w : String) : Decidable (IsWord w) := decidable_of_iff _ (isWord_iff w).symm

/-- A word starts with something to see. -/
theorem IsWord.exists_cons {w : String} (h : IsWord w) :
    ∃ c cs, w.toList = c :: cs ∧ c ≠ ' ' ∧ c ≠ '\n' := by
  obtain ⟨line, c, cs, text, visible, -⟩ := h
  refine ⟨c, cs, text, visible, ?_⟩
  rintro rfl
  exact line (by rw [text]; exact List.mem_cons_self)

/-! ## What words are made of -/

/-- The characters of names, numbers and operators. -/
def isInk (c : Char) : Bool :=
  Lexeme.continuesWord c || Lexeme.isSymbol c || c == Lexeme.backtick

theorem isInk_of_continuesWord {c : Char} (h : Lexeme.continuesWord c = true) : isInk c = true := by
  rw [isInk, h]
  rfl

theorem isInk_of_isSymbol {c : Char} (h : Lexeme.isSymbol c = true) : isInk c = true := by
  rw [isInk, h, Bool.or_true]
  rfl

theorem ne_of_isInk {c d : Char} (h : isInk c = true) (hd : isInk d = false) : c ≠ d := by
  rintro rfl
  rw [h] at hd
  cases hd

theorem isWord_of_isInk {w : String} (nonempty : w.toList ≠ []) (h : ∀ c ∈ w.toList, isInk c = true) :
    IsWord w := by
  obtain ⟨c, cs, text⟩ := List.exists_cons_of_ne_nil nonempty
  have first : isInk c = true := h c (by rw [text]; exact List.mem_cons_self)
  exact ⟨fun mem => ne_of_isInk (h '\n' mem) (by decide) rfl, c, cs, text, ne_of_isInk first (by decide),
    ne_of_isInk first (by decide), ne_of_isInk first (by decide)⟩

namespace Lexeme

variable {cs : List Char} {k : TokenKind} {l : Lexeme}

theorem continuesWord_of_startsWord {c : Char} (h : startsWord c = true) : continuesWord c = true := by
  unfold startsWord at h
  unfold continuesWord
  simp only [Bool.or_eq_true] at h ⊢
  tauto

/-- A word consists of characters of words. -/
theorem continuesWord_of_word (hl : l ∈ lexemes cs) (hk : l.kind = .word) :
    ∀ c ∈ l.text, continuesWord c = true := by
  obtain ⟨c, ds, rfl⟩ := mem_lexemes hl
  have kind : (boundary c ds).1 = .word := hk
  have opens := boundary_opensKind c ds
  rw [kind] at opens
  have opens : startsWord c = true := opens
  have rest := (take_of_word opens (Prod.ext kind rfl)).1
  dsimp only
  rw [rest]
  exact List.forall_mem_cons.2 ⟨continuesWord_of_startsWord opens, of_mem_takeWhile⟩

theorem isInk_of_isDigit {c : Char} {b : Base} (h : b.isDigit c = true) : isInk c = true :=
  isInk_of_continuesWord (continuesWord_of_isDigit h)

theorem isInk_of_suffixChars {s : Option Suffix} : ∀ c ∈ suffixChars s, isInk c = true := by
  cases s with
  | none => exact List.forall_mem_nil _
  | some x => exact fun c hc => isInk_of_continuesWord (continuesWord_of_suffix x c hc)

theorem isInk_of_digits {b : Base} {m : Mantissa} {f : Bool} {ds : List Char} (h : Digits b m f ds) :
    ∀ c ∈ ds, isInk c = true := by
  intro c hc
  cases h with
  | marked _ digits | integral digits => exact isInk_of_isDigit (digits c hc)
  | fractional digits digits' =>
    rcases List.mem_append.1 hc with hc | hc
    · exact isInk_of_isDigit (digits c hc)
    · rcases List.mem_cons.1 hc with rfl | hc
      · rfl
      · exact isInk_of_isDigit (digits' c hc)

/-- The characters of a number. -/
theorem isInk_of_proper {n : Number} (h : n.Proper) : ∀ c ∈ n.text.toList, isInk c = true := by
  obtain @⟨b, m, f, ds, s, digits, -⟩ := h
  have mark : ∀ c ∈ b.mark.toList, isInk c = true := by
    cases b <;> exact List.all_eq_true.1 rfl
  rw [toList_text]
  exact List.forall_mem_append.2
    ⟨mark, List.forall_mem_append.2 ⟨isInk_of_digits digits, isInk_of_suffixChars⟩⟩

end Lexeme

/-! ## Names, literals and operators of a text -/

variable {source : String} {names : NameTable} {t : Token}

/-- The name of a token as it is printed. -/
theorem isWord_of_name {n : String} (h : t ∈ (lex source names).tokens.items.toList)
    (hn : t.kind.name? = some n) : IsWord (Layout.nameText n) := by
  rcases kind_of_lexChars h with none | none | ⟨l, hl, hk⟩
  · rw [none] at hn
    cases hn
  · rw [none] at hn
    cases hn
  have text := Lexeme.nameText_of_mem hl hk hn
  rcases Lexeme.name_of_kind? hk hn with ⟨kind, ident, same⟩ | ⟨-, symbols, -⟩
  · rw [ident] at text
    have text : (Layout.nameText n).toList = l.text := text.trans same
    refine isWord_of_isInk ?_ fun c hc => ?_
    · rw [text]
      exact Lexeme.text_ne_nil l hl
    · rw [text] at hc
      exact isInk_of_continuesWord (Lexeme.continuesWord_of_word hl kind c hc)
  · rw [symbols] at text
    have text : (Layout.nameText n).toList = Lexeme.backtick :: n.toList := text
    refine isWord_of_isInk (by rw [text]; exact List.cons_ne_nil _ _) ?_
    rw [text]
    exact List.forall_mem_cons.2 ⟨by decide, fun c hc =>
      isInk_of_isSymbol ((isSymbol_of_symbolIdent h symbols).2 c hc)⟩

/-- A quotation has no newline in it. -/
theorem isWord_delimited {d : Char} (hd : d = '"' ∨ d = '\'') (cs : List Char) :
    IsWord (Layout.delimited d cs) := by
  have first : '\n' ≠ d ∧ d ≠ ' ' ∧ d ≠ '\x7b' ∧ d ≠ '\x7d' := by
    rcases hd with rfl | rfl <;> decide
  have plain (c : Char) : '\n' ∉ Layout.delimitedChar d c := by
    unfold Layout.delimitedChar
    split
    · decide
    · next newline =>
      have other : '\n' ≠ c := Ne.symm newline
      repeat' split
      all_goals simp [other]
  refine ⟨?_, d, _, String.toList_ofList, first.2⟩
  rw [Layout.delimited, String.toList_ofList, List.mem_cons, List.mem_append, List.mem_flatMap,
    List.mem_singleton]
  rintro (same | ⟨c, -, mem⟩ | same)
  · exact first.1 same
  · exact plain c mem
  · exact first.1 same

/-- The literal of a token as it is printed. -/
theorem isWord_of_literal {v : Literal} (h : t ∈ (lex source names).tokens.items.toList)
    (hv : t.kind.literal? = some v) : IsWord (Layout.literalText v) := by
  cases v with
  | string s => exact isWord_delimited (.inl rfl) _
  | char c => exact isWord_delimited (.inr rfl) _
  | number n =>
    have kind : t.kind = .number n := by
      cases k : t.kind <;> rw [k] at hv <;> cases hv
      rfl
    rcases kind_of_lexChars h with none | none | ⟨l, hl, hk⟩
    · cases none.symm.trans kind
    · cases none.symm.trans kind
    have proper := Lexeme.proper_of_mem hl (hk.trans (congrArg some kind))
    obtain ⟨c, cs, text, -⟩ := Lexeme.isDigit_text proper
    have nonempty : n.text.toList ≠ [] := by
      rw [text]
      exact List.cons_ne_nil c cs
    exact isWord_of_isInk nonempty (Lexeme.isInk_of_proper proper)

/-- The text of an operator. -/
theorem isWord_of_operator {s : String} (h : t ∈ (lex source names).tokens.items.toList)
    (hk : t.kind = .operator s) : IsWord s := by
  obtain ⟨nonempty, run⟩ := symbolRun_of_operator h hk
  exact isWord_of_isInk (mt String.toList_eq_nil_iff.1 nonempty) fun c hc =>
    isInk_of_isSymbol ((Lexeme.symbolRun_eq_length_iff.1 run).1 c hc)

/-! ## Words of a stream -/

namespace Tokens

/-- A token that is not the end is one of the stream. -/
theorem get_mem {ts : Tokens} {p : Nat} (h : (ts.get p).kind ≠ .eof) : ts.get p ∈ ts.items.toList := by
  unfold get at h ⊢
  cases here : ts.get? p with
  | some t => exact Array.mem_toList_iff.2 (Array.mem_of_getElem? here)
  | none =>
    cases last : ts.last? with
    | some t => exact Array.mem_toList_iff.2 (Array.mem_of_back? last)
    | none =>
      rw [here, last] at h
      exact absurd rfl h

theorem HasName.isWord {n : String} (h : (lex source names).tokens.HasName n) :
    IsWord (Layout.nameText n) := by
  obtain ⟨p, name⟩ := h
  refine isWord_of_name (get_mem fun eof => ?_) name
  rw [eof] at name
  cases name

theorem HasLiteral.isWord {v : Literal} (h : (lex source names).tokens.HasLiteral v) :
    IsWord (Layout.literalText v) := by
  obtain ⟨p, literal⟩ := h
  refine isWord_of_literal (get_mem fun eof => ?_) literal
  rw [eof] at literal
  cases literal

theorem HasOperator.isWord {s : String} (h : (lex source names).tokens.HasOperator s) : IsWord s := by
  rcases h with rfl | ⟨p, operator⟩
  · decide
  · refine isWord_of_operator (get_mem fun eof => ?_) operator
    rw [eof] at operator
    cases operator

/-- A path is printed as its names with dots between them. -/
theorem HasPath.isWord {x : Path} (h : (lex source names).tokens.HasPath x) :
    IsWord (Layout.pathText x) := by
  obtain ⟨x, xs⟩ := x
  obtain ⟨first, rest⟩ := List.forall_mem_cons.1 h
  obtain ⟨line, c, cs, text, starts⟩ := first.isWord
  unfold IsWord
  rw [Grammar.toList_pathText]
  refine ⟨?_, c, _, by rw [text]; rfl, starts⟩
  rw [List.mem_append, List.mem_flatMap, not_or]
  refine ⟨line, fun ⟨y, hy, mem⟩ => ?_⟩
  rcases List.mem_cons.1 mem with dot | mem
  · exact absurd dot (by decide)
  · exact (rest y hy).isWord.1 mem

end Tokens

end Surface
