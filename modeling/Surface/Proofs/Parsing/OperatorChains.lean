import Surface.Proofs.Canonical.Printed
import Surface.Proofs.Lexing.SymbolNames
import Surface.Proofs.Parsing.Lookahead

/-!
# Chains of operators

Operands with operators between them, as they are written: an operand is a name or a name with names
behind it, an operator is any run of symbols that is not reserved, and lines may end behind operators.
All operators bind alike, and to the left.

Results:
* `PlainName`, `PlainOperator`, `Operand`, `Link`: the parts of a chain; `chainText`: its text.
* `links_derived`: what stands before a chain of operators becomes its leftmost operand.
* `parse_chain`: a chain is read as one expression that nests to the left.
-/

namespace Surface

open Lexeme (Sign signs told untold pendingBreak isLetter continuesWord isSymbol HeadIn)

/-! ## Chains as they are written -/

/-- A word that starts with a letter and is no keyword. -/
structure PlainName where
  text : String
  letter : text.toList.head?.any isLetter = true
  word : ∀ c ∈ text.toList, continuesWord c = true
  free : Keyword.ofText? text = none

/-- A run of symbols that no comment starts in and that is not reserved, or is a bar. -/
structure PlainOperator where
  text : String
  nonempty : text ≠ ""
  symbols : ∀ c ∈ text.toList, isSymbol c = true
  uncommented : ¬ "//".toList <:+: text.toList
  free : text ∉ ["=", "->", "=>", "<-", ".", ".."]

/-- Blanks, one more than `n`. -/
def blanks (n : Nat) : List Char := List.replicate (n + 1) ' '

/-- A name and the names behind it, with blanks before each of those. -/
structure Operand where
  first : PlainName
  args : List (Nat × PlainName)

/-- Blanks and newlines, at least one character. -/
structure Gap where
  chars : List Char
  nonempty : chars ≠ []
  blank : ∀ c ∈ chars, c = ' ' ∨ c = '\n'

/-- An operator with blanks before it, a gap behind it, and its right operand. -/
structure Link where
  before : Nat
  operator : PlainOperator
  gap : Gap
  operand : Operand

namespace Operand

/-- The names of an operand. -/
def names (a : Operand) : List PlainName := a.first :: a.args.map Prod.snd

/-- An operand as it is written. -/
def chars (a : Operand) : List Char :=
  a.first.text.toList ++ a.args.flatMap fun x => blanks x.1 ++ x.2.text.toList

/-- The expression that an operand is: a name, or an application of a name to names. -/
def expr (a : Operand) : Expr :=
  if a.args.isEmpty then .name .none a.first.text
  else .app .none (.name .none a.first.text) (a.args.map fun x => .name .none x.2.text) none

end Operand

namespace Link

/-- An operator and its right operand as they are written. -/
def chars (l : Link) : List Char :=
  blanks l.before ++ (l.operator.text.toList ++ (l.gap.chars ++ l.operand.chars))

/-- What stands before an operator, joined to its right operand. -/
def join (left : Expr) (l : Link) : Expr :=
  .binary .none left ⟨l.operator.text, .point 0⟩ l.operand.expr

end Link

/-- A chain as it is written. -/
def chainText (first : Operand) (links : List Link) : String :=
  String.ofList (first.chars ++ links.flatMap Link.chars)

/-- A chain nests to the left. -/
def chainExpr (first : Operand) (links : List Link) : Expr := links.foldl Link.join first.expr

/-! ## The words of a chain -/

namespace PlainOperator

/-- The token that an operator is. -/
def kind (o : PlainOperator) : TokenKind := operatorKind o.text

end PlainOperator

namespace Operand

/-- The tokens that the names of an operand are. -/
def kinds (a : Operand) : List TokenKind := a.names.map fun x => .ident x.text

end Operand

namespace Link

/-- The words of an operator, the line break behind it and its right operand. -/
def words (l : Link) : List Word :=
  .token l.operator.kind
    :: ((if l.gap.chars.count '\n' = 0 then [] else [.lineBreak]) ++ l.operand.kinds.map .token)

end Link

/-- The words of a chain. -/
def chainWords (first : Operand) (links : List Link) : List Word :=
  first.kinds.map .token ++ links.flatMap Link.words

/-! ## The lexer on a chain -/

section

variable {rest : List Char}

theorem PlainName.starts (x : PlainName) :
    ∃ c cs, x.text.toList = c :: cs ∧ Lexeme.startsWord c = true ∧ c ≠ '\'' := by
  have letter := x.letter
  cases text : x.text.toList with
  | nil =>
    rw [text] at letter
    cases letter
  | cons c cs =>
    rw [text] at letter
    change isLetter c = true at letter
    refine ⟨c, cs, rfl, by rw [Lexeme.startsWord, letter]; rfl, ?_⟩
    rintro rfl
    cases letter

theorem PlainName.signs (x : PlainName) (hr : HeadIn (fun c => continuesWord c = false) rest) :
    signs (x.text.toList ++ rest) = .token (.ident x.text) :: signs rest := by
  obtain ⟨c, cs, text, starts, quote⟩ := x.starts
  have kind : Lexeme.wordKind (c :: cs) = .ident x.text := by
    rw [← text, Lexeme.wordKind, String.ofList_toList]
    simp only [x.free]
  have word : ∀ d ∈ c :: cs, continuesWord d = true := text ▸ x.word
  exact Lexeme.Legible.word (k := .ident x.text) text kind (fun _ h => h) starts
    (fun d hd => word d (.tail _ hd)) (fun h => absurd h quote) rest hr

theorem PlainOperator.symbolsKind (o : PlainOperator) :
    Lexeme.symbolsKind o.text.toList = o.kind := by
  unfold PlainOperator.kind operatorKind
  rcases Lexeme.symbolsKind_spelled o.text with operator | ⟨r, spelled, reserved⟩
  · rw [if_neg, operator]
    intro bar
    rw [bar] at operator
    cases operator
  · have free := o.free
    rw [← spelled] at free
    rw [reserved, ← spelled]
    cases r with
    | pipe => rfl
    | _ => exact absurd free (by decide)

theorem PlainOperator.kind_cases (o : PlainOperator) :
    o.kind = .operator o.text ∨ o.text = Reserved.pipe.text ∧ o.kind = .reserved .pipe := by
  unfold PlainOperator.kind operatorKind
  split
  · next bar => exact .inr ⟨bar, rfl⟩
  · exact .inl rfl

theorem PlainOperator.written (o : PlainOperator) : o.kind.written = o.text.toList := by
  rcases o.kind_cases with kind | ⟨bar, kind⟩
  · rw [kind]
    rfl
  · rw [kind, bar]
    rfl

theorem PlainOperator.endsBefore (o : PlainOperator) (c : Char) :
    o.kind.EndsBefore c ↔ isSymbol c = false := by
  rcases o.kind_cases with kind | ⟨-, kind⟩ <;> rw [kind] <;> exact Iff.rfl

theorem PlainOperator.signs (o : PlainOperator) (hr : HeadIn (fun c => isSymbol c = false) rest) :
    signs (o.text.toList ++ rest) = .token o.kind :: signs rest := by
  have slashes := o.uncommented
  have written := o.written
  have symbolsKind := o.symbolsKind
  have symbols := o.symbols
  cases text : o.text.toList with
  | nil => exact absurd (String.toList_eq_nil_iff.1 text) o.nonempty
  | cons c cs =>
    rw [text] at slashes written symbolsKind symbols
    obtain ⟨symbol, behind⟩ := List.forall_mem_cons.1 symbols
    rw [List.infix_cons_iff, Lexeme.slashes_isPrefix_iff, not_or, Bool.not_eq_true] at slashes
    have run : Lexeme.symbolRun 0 cs = cs.length :=
      Lexeme.symbolRun_eq_length_iff.2 ⟨behind, slashes.2⟩
    have legible : Lexeme.Legible o.kind :=
      .symbols written symbolsKind (fun x => (o.endsBefore x).1) symbol slashes.1 run
    rw [← written]
    exact legible rest fun x hx => (o.endsBefore x).2 (hr x hx)

theorem signs_blanks (n : Nat) (rest : List Char) : signs (blanks n ++ rest) = signs rest := by
  unfold blanks
  induction n with
  | zero => exact Lexeme.signs_blank rfl (by simp)
  | succ n ih =>
    rw [List.replicate_succ, List.cons_append, Lexeme.signs_blank rfl (by simp)]
    exact ih

/-- Newlines in a gap are separators. -/
theorem signs_gap {gap : List Char} (h : ∀ c ∈ gap, c = ' ' ∨ c = '\n') (rest : List Char) :
    signs (gap ++ rest) = List.replicate (gap.count '\n') (.separator false) ++ signs rest := by
  induction gap with
  | nil => rfl
  | cons c gap ih =>
    obtain ⟨here, behind⟩ := List.forall_mem_cons.1 h
    rw [List.cons_append]
    rcases here with rfl | rfl
    · rw [Lexeme.signs_blank rfl (by simp), ih behind, List.count_cons_of_ne (by decide)]
    · rw [Lexeme.signs_newline, ih behind, List.count_cons_self, List.replicate_succ]
      rfl

/-- A name is followed by a blank or by what follows the operand. -/
theorem headIn_args {p : Char → Prop} (blank : p ' ') (args : List (Nat × PlainName))
    (hr : HeadIn p rest) :
    HeadIn p ((args.flatMap fun x => blanks x.1 ++ x.2.text.toList) ++ rest) := by
  cases args with
  | nil => exact hr
  | cons x args =>
    rintro c ⟨⟩
    exact blank

theorem Operand.signs (a : Operand) (hr : HeadIn (fun c => continuesWord c = false) rest) :
    signs (a.chars ++ rest) = a.kinds.map .token ++ signs rest := by
  obtain ⟨first, args⟩ := a
  unfold Operand.chars Operand.kinds Operand.names
  dsimp only
  rw [List.append_assoc, first.signs (headIn_args (p := fun c => continuesWord c = false) rfl args hr)]
  refine congrArg (_ :: ·) ?_
  induction args with
  | nil => rfl
  | cons x args ih =>
    rw [List.flatMap_cons, List.append_assoc, List.append_assoc, signs_blanks,
      x.2.signs (headIn_args (p := fun c => continuesWord c = false) rfl args hr), ih]
    rfl

/-- What the lexer makes of an operator and its right operand. -/
def Link.signs (l : Link) : List Sign :=
  .token l.operator.kind :: (List.replicate (l.gap.chars.count '\n') (.separator false)
    ++ l.operand.kinds.map .token)

theorem Link.signs_chars (l : Link) (hr : HeadIn (fun c => continuesWord c = false) rest) :
    Lexeme.signs (l.chars ++ rest) = l.signs ++ Lexeme.signs rest := by
  have gap : HeadIn (fun c => isSymbol c = false) (l.gap.chars ++ (l.operand.chars ++ rest)) := by
    obtain ⟨chars, nonempty, blank⟩ := l.gap
    cases chars with
    | nil => exact absurd rfl nonempty
    | cons c chars =>
      rintro _ ⟨⟩
      rcases blank c List.mem_cons_self with rfl | rfl <;> rfl
  unfold Link.chars Link.signs
  rw [List.append_assoc, List.append_assoc, List.append_assoc, signs_blanks, l.operator.signs gap,
    signs_gap l.gap.blank, l.operand.signs hr, List.cons_append, List.append_assoc]

theorem signs_links (links : List Link) :
    Lexeme.signs (links.flatMap Link.chars) = links.flatMap Link.signs
      ∧ HeadIn (fun c => continuesWord c = false) (links.flatMap Link.chars) := by
  induction links with
  | nil => exact ⟨Lexeme.signs_nil, nofun⟩
  | cons l links ih =>
    refine ⟨?_, ?_⟩
    · rw [List.flatMap_cons, List.flatMap_cons, l.signs_chars ih.2, ih.1]
    · rintro _ ⟨⟩
      rfl

end

/-! ## What the lexer tells of a chain -/

theorem told_tokens (ks : List TokenKind) (ss : List Sign) :
    told none (ks.map .token ++ ss) = ks.map Word.token ++ told none ss := by
  induction ks with
  | nil => rfl
  | cons k ks ih => exact congrArg ((k, false) :: ·) ih

theorem untold_tokens (ks : List TokenKind) (ss : List Sign) :
    untold none (ks.map .token ++ ss) = untold none ss := by
  induction ks with
  | nil => rfl
  | cons k ks ih => exact ih

/-- Separators are one line break, which is told with the token behind them. -/
theorem told_separators (n : Nat) (k : TokenKind) (ss : List Sign) :
    let signs := List.replicate n (.separator false) ++ .token k :: ss
    told none signs = (if n = 0 then [] else [Word.lineBreak]) ++ Word.token k :: told none ss
      ∧ untold none signs = untold none ss := by
  have more (n : Nat) : let signs := List.replicate n (.separator false) ++ .token k :: ss
      told (some false) signs = Word.lineBreak :: Word.token k :: told none ss
        ∧ untold (some false) signs = untold none ss := by
    induction n with
    | zero => exact ⟨rfl, rfl⟩
    | succ n ih => exact ih
  cases n with
  | zero => exact ⟨rfl, rfl⟩
  | succ n => exact more n

theorem Link.told_signs (l : Link) (ss : List Sign) :
    told none (l.signs ++ ss) = l.words ++ told none ss
      ∧ untold none (l.signs ++ ss) = untold none ss := by
  let args := (l.operand.args.map Prod.snd).map fun x => TokenKind.ident x.text
  obtain ⟨told_eq, untold_eq⟩ := told_separators (l.gap.chars.count '\n')
    (.ident l.operand.first.text) (args.map .token ++ ss)
  have split : l.signs ++ ss = .token l.operator.kind
      :: (List.replicate (l.gap.chars.count '\n') (.separator false)
        ++ .token (.ident l.operand.first.text) :: (args.map .token ++ ss)) := by
    unfold Link.signs
    rw [List.cons_append, List.append_assoc]
    rfl
  rw [split]
  constructor
  · show Word.token l.operator.kind :: told none _ = _
    rw [told_eq, told_tokens]
    unfold Link.words
    rw [List.cons_append, List.append_assoc]
    rfl
  · exact untold_eq.trans (untold_tokens args ss)

theorem told_links (links : List Link) :
    told none (links.flatMap Link.signs) = links.flatMap Link.words
      ∧ untold none (links.flatMap Link.signs) = none := by
  induction links with
  | nil => exact ⟨rfl, rfl⟩
  | cons l links ih =>
    rw [List.flatMap_cons, List.flatMap_cons, (l.told_signs _).1, (l.told_signs _).2, ih.1]
    exact ⟨rfl, ih.2⟩

/-- The text of a chain starts with a letter. -/
theorem chainText_letter (first : Operand) (links : List Link) :
    ¬ "#!".toList <+: (chainText first links).toList := by
  obtain ⟨c, cs, text, starts, -⟩ := first.first.starts
  have letter : (chainText first links).toList.head? = some c := by
    rw [chainText, String.toList_ofList, Operand.chars, text]
    rfl
  rintro ⟨rest, line⟩
  rw [← line] at letter
  obtain rfl : '#' = c := Option.some.inj letter
  cases starts

/-- The tokens of a chain. -/
theorem chain_readings (first : Operand) (links : List Link) (names : NameTable) :
    (lex (chainText first links) names).tokens.readings
      = chainWords first links ++ [(.eof, false)] := by
  refine (lexChars_readings _ names).trans ?_
  have meaning : signs (chainText first links).toList
      = first.kinds.map .token ++ links.flatMap Link.signs := by
    rw [chainText, String.toList_ofList, first.signs (signs_links links).2, (signs_links links).1]
  rw [(behindShebang_eq_self (chainText_letter first links)).2, meaning, told_tokens, untold_tokens,
    (told_links links).1, (told_links links).2]
  rfl

/-! ## The rules on a chain -/

namespace Grammar

variable {T : Setting} (t : T.Lenient) {q q' k : Nat}

/-- What stands behind a name in a chain. -/
structure Setting.EndsName (T : Setting) (q : Nat) : Prop where
  dot : T.tag q ≠ .reserved .dot
  brace : T.tag q ≠ .punct .openBrace

/-- What stands behind an operand. -/
structure Setting.EndsOperand (T : Setting) (q : Nat) : Prop extends T.EndsName q where
  argument : Inner.argumentTags.contains (T.tag q) = false

include t

/-- A single name is a path. -/
theorem ident_path {x : String} (h : T.kind q = .ident x) (dot : T.tag (q + 1) ≠ .reserved .dot) :
    PathAt T false q ⟨⟨x, .point 0⟩, []⟩ (q + 1) :=
  ⟨⟨by rw [h]; rfl, t.covers _ _⟩, .stop fun dotted => dot dotted.1⟩

theorem name_derived {x : PlainName} (h : T.kind q = .ident x.text) (ends : T.EndsName (q + 1)) :
    PrimaryAt T .none false q (.name .none x.text) (q + 1) :=
  .name (ident_path t h ends.dot) (t.covers _ _)

theorem args_derived {xs : List PlainName}
    (h : Spelt T (xs.map fun x => Word.token (.ident x.text)) q q') (ends : T.EndsOperand q') :
    ArgsAt T .none false q (xs.map fun x => .name .none x.text) q' ∧ T.EndsName q := by
  induction xs generalizing q with
  | nil =>
    cases h
    exact ⟨.stop ends.argument, ends.toEndsName⟩
  | cons x xs ih =>
    obtain ⟨args, next⟩ := ih h.tail
    have tag : T.tag q = .ident := h.tag
    have named := name_derived t h.kind next
    exact ⟨.more (by rw [tag]; decide) named args, by rw [tag]; decide, by rw [tag]; decide⟩

theorem operand_derived {a : Operand} (h : Spelt T (a.kinds.map .token) q q')
    (ends : T.EndsOperand q') : ApplicationAt T .none false q a.expr q' := by
  obtain ⟨x, args⟩ := a
  have words : Spelt T ((args.map Prod.snd).map fun x => Word.token (.ident x.text)) (q + 1) q' := by
    have behind : Spelt T (((args.map Prod.snd).map fun x => .ident x.text).map Word.token) (q + 1) q' :=
      h.tail
    rwa [List.map_map] at behind
  obtain ⟨derived, next⟩ := args_derived t words ends
  have callee := name_derived t h.kind next
  cases args with
  | nil =>
    cases words
    exact .bare callee ends.argument
  | cons y args =>
    rw [List.map_map] at derived
    exact .plain rfl callee derived (fun block => ends.brace block.2) (t.covers _ _)

omit t in
theorem operator?_plain {o : PlainOperator} (h : T.kind q = o.kind) :
    T.operator? .none q = some o.text := by
  unfold Setting.operator?
  rcases o.kind_cases with kind | ⟨bar, kind⟩
  · rw [h, kind]
  · rw [h, kind, bar]
    rfl

omit t in
/-- An operand ends before an operator and at the end of the chain. -/
theorem endsOperand_links {links : List Link} (h : Spelt T (links.flatMap Link.words) k q')
    (ends : T.tag q' = .eof) : T.EndsOperand k := by
  have of_tag (h : T.tag k = .eof ∨ T.tag k = .operator ∨ T.tag k = .reserved .pipe) :
      T.EndsOperand k := by
    rcases h with tag | tag | tag <;>
      exact ⟨⟨by rw [tag]; decide, by rw [tag]; decide⟩, by rw [tag]; decide⟩
  cases links with
  | nil =>
    cases h
    exact of_tag (.inl ends)
  | cons l links =>
    have tag : T.tag k = l.operator.kind.tag := h.tag
    rcases l.operator.kind_cases with kind | ⟨-, kind⟩
    · exact of_tag (.inr (.inl (by rw [tag, kind]; rfl)))
    · exact of_tag (.inr (.inr (by rw [tag, kind]; rfl)))

/-- What stands before operators and operands becomes the leftmost operand. -/
theorem links_derived {i : Nat} {e : Expr} {links : List Link} (first : ChainAt T .none false i e k)
    (h : Spelt T (links.flatMap Link.words) k q') (ends : T.tag q' = .eof) :
    ChainAt T .none false i (links.foldl Link.join e) q' := by
  induction links generalizing e k with
  | nil =>
    cases h
    exact first
  | cons l links ih =>
    rw [List.flatMap_cons] at h
    obtain ⟨m, link, rest⟩ := Spelt.append.1 h
    obtain ⟨o, line, operand⟩ := Spelt.append.1 link.tail
    have ident : T.tag o = .ident := operand.tag
    have start : T.past (k + 1) = o := by
      split at line
      · cases line
        exact Setting.past_of_ne (by rw [ident]; decide)
      · obtain ⟨tag, rfl⟩ := line.one
        rw [Setting.past_of_lineBreak tag]
        exact Setting.past_of_ne (by rw [ident]; decide)
    have right := operand_derived t operand (endsOperand_links rest ends)
    have joined : ChainAt T .none false i (l.join e) m :=
      .more first (operator?_plain link.kind) (t.covers _ _) (start ▸ right) (t.covers _ _)
    exact ih joined rest

omit t in
/-- A chain at the end of a text is an expression. -/
theorem ChainAt.whole {i : Nat} {e : Expr} (h : ChainAt T .none false i e q') (none : T.binds false i = false)
    (ends : T.tag q' = .eof) : ExprAt T .none false i e q' := by
  refine .binary none h (Setting.operator?_of_tag ?_) ?_ ?_ <;> rw [ends] <;> decide

/-- A chain is one expression. -/
theorem chain_derived {first : Operand} {links : List Link}
    (h : Spelt T (chainWords first links) q q') (ends : T.tag q' = .eof) :
    ExprAt T .none false q (chainExpr first links) q' := by
  obtain ⟨k, operand, rest⟩ := Spelt.append.1 h
  have tag : T.tag q = .ident := operand.tag
  have left := ChainAt.one (operand_derived t operand (endsOperand_links rest ends))
  exact (links_derived t left rest ends).whole (Setting.binds_of_tag tag (by decide)) ends

end Grammar

/-! ## Chains as scripts -/

open Grammar

theorem Operand.bare_expr (a : Operand) : a.expr.bare = a.expr := by
  unfold Operand.expr
  split
  · rfl
  · rw [Expr.bare, Expr.bares_eq, List.map_map]
    rfl

/-- The expression of a chain has no marks. -/
theorem chainExpr_bare (first : Operand) (links : List Link) :
    (chainExpr first links).bare = chainExpr first links := by
  have fold (e : Expr) (h : e.bare = e) : (links.foldl Link.join e).bare = links.foldl Link.join e := by
    induction links generalizing e with
    | nil => exact h
    | cons l links ih => exact ih _ (by rw [Link.join, Expr.bare, h, l.operand.bare_expr]; rfl)
  exact fold _ first.bare_expr

/-- A statement that the rules derive from all tokens of a text is what is read as a script. -/
theorem Grammar.StmtAt.parsed {cs : List Char} {a : Stmt} {j : Nat} (plain : ¬ "#!".toList <+: cs)
    (h : StmtAt (.lenient cs .scripts) .none false 0 a j)
    (starts : (Setting.lenient cs .scripts).tag 0 ≠ .lineBreak ∧ (Setting.lenient cs .scripts).tag 0 ≠ .eof)
    (ends : (Setting.lenient cs .scripts).tag j = .eof) :
    (parseChars cs .scripts).errors = []
      ∧ (parseChars cs .scripts).file.bare = ⟨none, [.stmt a.bare], .point 0⟩ := by
  let T := Setting.lenient cs .scripts
  have line : (lexChars cs .empty).shebang = none := shebang_eq_none plain .empty
  have item : ItemAt T 0 0 (.stmt a) j :=
    .stmt (by rintro (none | ⟨none, -⟩) <;> cases none) rfl h (by rw [ends]; decide)
  have start : T.past 0 = 0 := Setting.past_of_ne starts.1
  have behind : T.past j = j := Setting.past_of_ne (by rw [ends]; exact Tag.noConfusion)
  have items : ItemsAt T 0 (T.past 0) [.stmt a] := by
    rw [start]
    exact .more starts.2 item (.stop (by rw [behind, ends]))
  have file : FileAt T (lexChars cs .empty).shebang ⟨none, [.stmt a], .point 0⟩ := by
    rw [line]
    exact .mk items ends trivial
  exact FileAt.parsed not_false rfl (by rw [line]; rfl) file

/-- Operators of any spelling bind alike and to the left: a chain is read without an error as one
expression, in which the first operand is joined to the second one, the result to the third one, and so
on. Lines may end behind operators. -/
theorem parse_chain (first : Operand) (links : List Link) :
    let parsed := parseText (chainText first links) .scripts
    parsed.errors = []
      ∧ parsed.file.bare = ⟨none, [.stmt (.expr .none (links.foldl Link.join first.expr))], .point 0⟩ := by
  intro parsed
  let cs := (chainText first links).toList
  let T := Setting.lenient cs .scripts
  have readings : T.input.tokens.readings = [] ++ (chainWords first links ++ [(.eof, false)]) :=
    chain_readings first links .empty
  have words : Spelt T (chainWords first links) 0 (chainWords first links).length := by
    have spelt : Spelt T _ _ _ := Spelt.of_readings readings
    rwa [List.length_nil, Nat.zero_add] at spelt
  have ends : T.tag (chainWords first links).length = .eof :=
    Tokens.tag_of_readings (r := (.eof, false)) (by rw [readings]; simp)
  have ident : T.tag 0 = .ident := words.tag
  have derived := chain_derived lenient_ofText words ends
  have plain : T.ahead (.reserved .leftArrow) 0 = false :=
    derived.not_ahead rfl not_false (by decide) (by rw [ends]; decide)
  have stmt : StmtAt T .none false 0 (.expr .none (chainExpr first links)) _ :=
    .expr (by rw [ident]; decide) (by rw [ident]; decide) plain derived trivial
  obtain ⟨errors, same⟩ := stmt.parsed (chainText_letter first links) (by rw [ident]; decide) ends
  refine ⟨errors, same.trans ?_⟩
  show SourceFile.mk _ [.stmt (.expr .none (chainExpr first links).bare)] _ = _
  rw [chainExpr_bare]
  rfl

/-- Bars join operands like all other operators, on one line or over several. -/
theorem parse_chain_bars :
    let name (x : String) : Expr := .name .none x
    let call : Expr := .app .none (name "f") [name "x"] none
    let left : Expr := .binary .none call ⟨"|", .point 0⟩ (name "y")
    (parseText "f x |\n\n y || z" .scripts).errors = []
      ∧ (parseText "f x |\n\n y || z" .scripts).file.bare
        = ⟨none, [.stmt (.expr .none (.binary .none left ⟨"||", .point 0⟩ (name "z")))], .point 0⟩ := by
  intro name call left
  let f : PlainName := ⟨"f", by decide, List.all_eq_true.1 (by decide), by decide⟩
  let x : PlainName := ⟨"x", by decide, List.all_eq_true.1 (by decide), by decide⟩
  let y : PlainName := ⟨"y", by decide, List.all_eq_true.1 (by decide), by decide⟩
  let z : PlainName := ⟨"z", by decide, List.all_eq_true.1 (by decide), by decide⟩
  let bar : PlainOperator := ⟨"|", by decide, List.all_eq_true.1 (by decide), by decide, by decide⟩
  let bars : PlainOperator := ⟨"||", by decide, List.all_eq_true.1 (by decide), by decide, by decide⟩
  let lines : Gap := ⟨['\n', '\n', ' '], by decide, by simp⟩
  let blank : Gap := ⟨[' '], by decide, by simp⟩
  let links : List Link := [⟨0, bar, lines, ⟨y, []⟩⟩, ⟨0, bars, blank, ⟨z, []⟩⟩]
  have text : chainText ⟨f, [(0, x)]⟩ links = "f x |\n\n y || z" := by decide +kernel
  rw [← text]
  exact parse_chain ⟨f, [(0, x)]⟩ links

end Surface
