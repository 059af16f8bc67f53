import Surface.Proofs.Grammar.Failures
import Surface.Proofs.Lexing.Behind
import Surface.Proofs.Parallel.Moved
import Surface.Proofs.Parsing.Clear
import Surface.Proofs.Parsing.OperatorChains

/-!
# Conditionals as statements and as values

A conditional may lack its second branch where it is a statement, but not where it is a value. The
condition and the first branch are read in the same way at both places, so that the statement becomes a
value by writing `else` behind it, whatever its first branch ends with.

Results:
* `tokensIn`: the tokens of a text; `tokensIn_let`, `tokensIn_else`: of a text with more around it.
* `LoneIf`: a script that is a conditional without a second branch; `LoneIf.moved`: behind other tokens.
* `unpaired_reported`, `paired_parsed`: a conditional behind `let`, without a second branch and with one.
* `conditional_as_value`: such a script as the value of a `let`, without a second branch and with one.
-/

namespace Surface

open Lexeme (Sign signs told untold pendingBreak)
open Text (byteLength)

/-! ## The tokens of a text with more around it -/

/-- The tokens of a text, up to its end. -/
def tokensIn (cs : List Char) : List (TokenKind × Bool) :=
  told none (signs cs) ++ pendingBreak (untold none (signs cs))

/-- The word `let`, a name and a sign that wait for a value. -/
def letKinds : List TokenKind := [.keyword .letKw, .ident "x", .reserved .eq]

/-- The word `else` and a name. -/
def elseKinds : List TokenKind := [.keyword .elseKw, .ident "y"]

variable {cs : List Char}

theorem readings_tokensIn (plain : ¬ "#!".toList <+: cs) (names : NameTable) :
    (lexChars cs names).tokens.readings = tokensIn cs ++ [(.eof, false)] := by
  rw [lexChars_readings, (behindShebang_eq_self plain).2, tokensIn, List.append_assoc]

theorem tokensIn_proper : ∀ r ∈ tokensIn cs, r.1 ≠ .eof := by
  intro r hr
  rcases List.mem_append.1 hr with hr | hr
  · exact Lexeme.ne_eof_of_told (Lexeme.proper_signs cs) r hr
  · cases h : untold none (signs cs) <;> rw [h] at hr
    · cases hr
    · rw [List.mem_singleton.1 hr]
      exact TokenKind.ne_of_tag Tag.noConfusion

theorem letChars : "let x = ".toList = ['l', 'e', 't', ' ', 'x', ' ', '=', ' '] := by decide +kernel

theorem tokensIn_let (cs : List Char) :
    tokensIn ("let x = ".toList ++ cs) = letKinds.map Word.token ++ tokensIn cs := by
  have blank (rest : List Char) : signs (' ' :: rest) = signs rest := Lexeme.signs_blank rfl (by simp)
  have letWord (rest : List Char) : signs ('l' :: 'e' :: 't' :: ' ' :: rest)
      = .token (.keyword .letKw) :: signs (' ' :: rest) := Lexeme.signs_cons 'l' ('e' :: 't' :: ' ' :: rest)
  have name (rest : List Char) : signs ('x' :: ' ' :: rest) = .token (.ident "x") :: signs (' ' :: rest) :=
    Lexeme.signs_cons 'x' (' ' :: rest)
  have eq (rest : List Char) : signs ('=' :: ' ' :: rest) = .token (.reserved .eq) :: signs (' ' :: rest) :=
    Lexeme.signs_cons '=' (' ' :: rest)
  have words : signs ("let x = ".toList ++ cs) = letKinds.map .token ++ signs cs := by
    rw [letChars]
    show signs ('l' :: 'e' :: 't' :: ' ' :: 'x' :: ' ' :: '=' :: ' ' :: cs) = _
    rw [letWord, blank, name, blank, eq, blank]
    rfl
  rw [tokensIn, words, told_tokens, untold_tokens, List.append_assoc]
  rfl

theorem tokensIn_else (closed : ∀ l ∈ (Lexeme.lexemes cs).getLast?, l.kind.isOpen = false) :
    tokensIn (cs ++ " else y".toList) = tokensIn cs ++ elseKinds.map Word.token := by
  have words : signs (cs ++ " else y".toList) = signs cs ++ elseKinds.map .token := by
    have chars : " else y".toList = ' ' :: "else y".toList := by decide +kernel
    have behind : signs "else y".toList = elseKinds.map .token := by decide +kernel
    rw [chars, Lexeme.signs_front (by decide) closed, behind]
  have told (pending : Option Bool) : told pending (elseKinds.map .token)
      = pendingBreak pending ++ elseKinds.map Word.token := rfl
  have untold (pending : Option Bool) : untold pending (elseKinds.map .token) = none := rfl
  rw [tokensIn, words, Lexeme.told_append, Lexeme.untold_append, told, untold, tokensIn, pendingBreak,
    List.append_nil, List.append_assoc]

namespace Grammar

/-! ## A text within another one -/

/-- The token behind others. -/
theorem tag_behind {cs : List Char} {ws before behind : List Word} {w : Word}
    (h : (lexChars cs .empty).tokens.readings = before ++ (ws ++ w :: behind)) :
    (lexChars cs .empty).tokens.tag (ws.length + before.length) = w.1.tag := by
  refine Tokens.tag_of_readings ?_
  rw [h, List.getElem?_append_right (Nat.le_add_left _ _), Nat.add_sub_cancel,
    List.getElem?_append_right (Nat.le_refl _), Nat.sub_self]
  rfl

/-- Where the tokens of a text stand in another text, up to its end or to the word `else`. -/
theorem Moved.of_readings {cs cs' : List Char} {dialect : Dialect} {ws before behind : List Word} {w : Word}
    (h : (lexChars cs .empty).tokens.readings = ws ++ [(.eof, false)])
    (h' : (lexChars cs' .empty).tokens.readings = before ++ (ws ++ w :: behind))
    (hw : w.1 = .eof ∨ w.1 = .keyword .elseKw) :
    Moved (.ofText cs dialect False) (.lenient cs' dialect) before.length ws.length where
  kind p lt := by
    have here : (lexChars cs .empty).tokens.readings[p]? = some ws[p] := by
      rw [h, List.getElem?_append_left lt, List.getElem?_eq_getElem lt]
    have there : (lexChars cs' .empty).tokens.readings[p + before.length]? = some ws[p] := by
      rw [h', List.getElem?_append_right (Nat.le_add_left _ _), Nat.add_sub_cancel,
        List.getElem?_append_left lt, List.getElem?_eq_getElem lt]
    exact congrArg Prod.fst ((Tokens.get_of_readings there).trans (Tokens.get_of_readings here).symm)
  ended p le := by
    rcases Nat.lt_or_eq_of_le le with lt | rfl
    · refine Tokens.tag_of_readings_none ((congrArg (·[p]?) h).trans (List.getElem?_eq_none ?_))
      rw [List.length_append]
      exact lt
    · exact Tokens.tag_of_readings ((congrArg (·[ws.length]?) h).trans List.getElem?_concat_length)
  beyond := by
    have tag : (Setting.lenient cs' dialect).tag (ws.length + before.length) = w.1.tag := tag_behind h'
    rw [tag]
    exact hw.imp (congrArg TokenKind.tag) (congrArg TokenKind.tag)
  sound := not_false
  groups := rfl
  lenient := lenient_ofText

/-! ## The statement -/

/-- The setting of a script, in which nodes may carry any spans. -/
abbrev Setting.script (cs : List Char) : Setting := .lenient cs .scripts

/-- A conditional without a second branch from the first token on, with nothing behind its line. -/
structure LoneIf (S : Setting) (h : Expr) (t : Body) (k j : Nat) : Prop where
  word : S.tag 0 = .keyword .ifKw
  condition : ExprAt S (Context.none.nested.union .head) false 1 h k
  branch : ThenAt S .none false k t j
  ends : itemBoundary.contains (S.tag j) = true
  last : S.tag (S.past j) = .eof

/-- A script that is read as one conditional without a second branch is derived as one. -/
theorem loneIf_of_accepted {cs : List Char} {m : Mark} {h : Expr} {t : Body}
    (accepted : (parseChars cs .scripts).errors = [])
    (statement : (parseChars cs .scripts).file.items = [.stmt (.conditional m h t none)])
    (starts : (Setting.ofText cs .scripts False).tag 0 ≠ .lineBreak) :
    ∃ k j, LoneIf (.ofText cs .scripts False) h t k j := by
  have derived := (Derivable.of_accepted accepted).derived
  generalize (parseChars cs .scripts).file = f at derived statement
  cases derived with
  | mk items _ _ =>
    cases statement
    rw [Setting.past_of_ne starts] at items
    cases items with
    | more _ item rest =>
      cases item with
      | stmt _ _ stmt ends =>
        cases stmt with
        | conditional word condition branch =>
          cases rest with
          | stop last => exact ⟨_, _, word, condition, branch, ends, last⟩

section

variable {S T : Setting} {h : Expr} {t : Body} {k j wall : Nat} (m : Moved S T 3 wall)
  (lone : LoneIf S h t k j)

include m lone

/-- The statement stands behind the tokens of a `let` as it stands alone. -/
theorem LoneIf.moved : T.tag 3 = .keyword .ifKw
    ∧ ExprAt T (Context.none.nested.union .head) false (T.next false 3) h (k + 3)
    ∧ ThenAt T .none false (k + 3) t (j + 3) ∧ j ≤ wall := by
  obtain ⟨lt, word⟩ := m.token lone.word Tag.noConfusion
  obtain ⟨condition, -⟩ := lone.condition.moved m
  obtain ⟨branch, le⟩ := lone.branch.moved m
  rw [Nat.zero_add] at word
  exact ⟨word, condition, branch, le⟩

/-- Behind it stands what stands behind all tokens of its text. -/
theorem LoneIf.past_eq (proper : ∀ p < wall, S.tag p ≠ .eof) :
    S.past j = wall ∧ T.past (j + 3) = wall + 3 := by
  obtain ⟨-, -, -, le⟩ := lone.moved m
  obtain ⟨moved, le'⟩ := m.past le
  have := Nat.le_of_not_lt fun lt => proper _ lt lone.last
  omega

/-- The word `else` comes next if it stands behind all tokens, also where a line break is the last. -/
theorem LoneIf.elseNext (proper : ∀ p < wall, S.tag p ≠ .eof)
    (apart : ∀ p, S.tag p = .lineBreak → S.tag (p + 1) ≠ .lineBreak)
    (word : T.tag (wall + 3) = .keyword .elseKw) : T.ElseNext (j + 3) := by
  obtain ⟨past, -⟩ := lone.past_eq m proper
  unfold Setting.ElseNext
  by_cases line : S.tag j = .lineBreak
  · obtain ⟨-, line'⟩ := m.token line Tag.noConfusion
    rw [Setting.past_of_lineBreak line, Setting.past_of_ne (apart j line)] at past
    rw [if_pos line', Nat.add_right_comm, past, word]
  · rw [Setting.past_of_ne line] at past
    rw [past, word]
    rfl

/-- Without this word the line ends behind the statement. -/
theorem LoneIf.ends_moved (ends : T.tag (wall + 3) = .eof) :
    itemBoundary.contains (T.tag (j + 3)) = true := by
  obtain ⟨-, -, -, le⟩ := lone.moved m
  rcases Nat.lt_or_eq_of_le le with lt | rfl
  · rw [m.tag lt]
    exact lone.ends
  · rw [ends]
    decide

/-- Without this word it has no second branch. -/
theorem LoneIf.unpaired (proper : ∀ p < wall, S.tag p ≠ .eof) (ends : T.tag (wall + 3) = .eof) :
    Unpaired T .none false 3 (j + 3) := by
  obtain ⟨word, condition, branch, -⟩ := lone.moved m
  refine ⟨word, ⟨_, _, _, condition, branch⟩, fun next => ?_⟩
  have tag := next.past
  rw [(lone.past_eq m proper).2, ends] at tag
  cases tag

end

/-! ## Behind the tokens of a `let` -/

section

variable {cs : List Char} (plain : ¬ "#!".toList <+: cs) {T : Setting} {e : Expr} {i j : Nat}

/-- The name that a `let` gives a value. -/
def letName : Pattern := .cons .none ⟨⟨"x", .point 0⟩, []⟩ []

theorem let_spelt {behind : List Word}
    (h : T.input.tokens.readings = letKinds.map Word.token ++ behind) :
    Spelt T (letKinds.map Word.token) 0 3 := by
  have front : T.input.tokens.readings = [] ++ (letKinds.map Word.token ++ behind) := h
  exact Spelt.of_readings front

theorem letName_derived (lenient : T.Lenient) (words : Spelt T (letKinds.map Word.token) 0 3) :
    T.tag 0 = .keyword .letKw ∧ PatternAt T false 1 letName 2 ∧ T.tag 2 = .reserved .eq := by
  have eq : T.tag 2 = .reserved .eq := words.tail.tail.tag
  have name : T.kind 1 = .ident "x" := words.tail.kind
  have path := ident_path lenient name (by rw [eq]; decide)
  exact ⟨words.tag, .cons path (.stop (by rw [eq]; decide)) (lenient.covers _ _), eq⟩

include plain

/-- As the value of a `let`, a conditional without a second branch is reported, and nothing else. -/
theorem unpaired_reported (words : Spelt (.script cs) (letKinds.map Word.token) 0 3)
    (h : Unpaired (.script cs) .none false 3 j)
    (ends : itemBoundary.contains ((Setting.script cs).tag j) = true)
    (last : (Setting.script cs).tag ((Setting.script cs).past j) = .eof) :
    (parseChars cs .scripts).errors = [(Setting.script cs).missingElse 3 j]
      ∧ ∃ m, (parseChars cs .scripts).file.items = [.stmt (.error m)] := by
  let T := Setting.script cs
  have line : (lexChars cs .empty).shebang = none := shebang_eq_none plain .empty
  obtain ⟨word, name, eq⟩ := letName_derived lenient_ofText words
  have fails : Fails T stmt .none false 0 (T.missingElse 3 j) j := let_fails not_false word name eq h
  have admitted : T.firstLine (lexChars cs .empty).shebang = (lexChars cs .empty).shebang := by
    rw [line]
    rfl
  have reports := file_reports ⟨rfl, rfl⟩ admitted fails (Nat.zero_lt_of_lt h.lt) (by rw [word]; decide)
    ends last
  obtain ⟨f, s, run, -, errors, m, items⟩ := reports _ (standing_start T (lexChars cs .empty).names)
  have parsed : parseChars cs .scripts = _ := parse_of_run run
  rw [parsed]
  exact ⟨congrArg Array.toList errors, m, items⟩

omit plain in
/-- A primary expression at the end of a text is an expression. -/
theorem PrimaryAt.whole (h : PrimaryAt T .none false i e j) (none : T.binds false i = false)
    (ends : T.tag j = .eof) : ExprAt T .none false i e j :=
  (ChainAt.one (.bare h (by rw [ends]; decide))).whole none ends

omit plain in
/-- A second branch that is a name at the end of a text. -/
theorem elseBranch_derived (lenient : T.Lenient) (words : Spelt T (elseKinds.map Word.token) i j)
    (ends : T.tag j = .eof) :
    T.next false i = i + 1 ∧ BodyAt T .none false (i + 1) (.expr (.name .none "y")) j := by
  have tag : T.tag (i + 1) = .ident := words.tail.tag
  have name : T.kind (i + 1) = .ident "y" := words.tail.kind
  obtain rfl : j = i + 1 + 1 := words.tail.one.2
  have path := ident_path lenient name (by rw [ends]; exact Tag.noConfusion)
  have whole := (PrimaryAt.name path (m := .none) (lenient.covers _ _)).whole
    (Setting.binds_of_tag tag (by decide)) ends
  exact ⟨rfl, .expr (by rw [tag]; decide) whole⟩

/-- As the value of a `let`, a conditional with `else` and a name behind it is read without an error. -/
theorem paired_parsed {h : Expr} {t : Body} {k l : Nat}
    (words : Spelt (.script cs) (letKinds.map Word.token) 0 3)
    (word : (Setting.script cs).tag 3 = .keyword .ifKw)
    (condition : ExprAt (.script cs) (Context.none.nested.union .head) false
      ((Setting.script cs).next false 3) h k)
    (branch : ThenAt (.script cs) .none false k t l) (next : (Setting.script cs).ElseNext l)
    (behind : Spelt (.script cs) (elseKinds.map Word.token) ((Setting.script cs).past l) j)
    (ends : (Setting.script cs).tag j = .eof) :
    (parseChars cs .scripts).errors = []
      ∧ (parseChars cs .scripts).file.bare = ⟨none, [.stmt (.letIn .none letName
        (.conditional .none h.bare t.bare (.expr (.name .none "y"))))], .point 0⟩ := by
  obtain ⟨start, name, eq⟩ := letName_derived lenient_ofText words
  obtain ⟨behindElse, other⟩ := elseBranch_derived lenient_ofText behind ends
  rw [← behindElse] at other
  have conditional : PrimaryAt (.script cs) .none false 3
      (.conditional .none h t (.expr (.name .none "y"))) j :=
    .conditional word condition branch next other trivial
  have value := conditional.whole (Setting.binds_of_tag word (by decide)) ends
  have stmt : StmtAt (.script cs) .none false 0 (.letIn .none letName _) j :=
    .letIn start name eq value trivial
  exact stmt.parsed plain (by rw [start]; decide) ends

end

/-! ## The statement as a value -/

section

variable {cs : List Char} (plain : ¬ "#!".toList <+: cs) {h : Expr} {t : Body} {k j : Nat}
  (lone : LoneIf (.ofText cs .scripts False) h t k j)

include plain in
theorem tag_proper : ∀ p < (tokensIn cs).length, (Setting.ofText cs .scripts False).tag p ≠ .eof := by
  intro p lt
  have here : (lexChars cs .empty).tokens.readings[p]? = some (tokensIn cs)[p] := by
    rw [readings_tokensIn plain, List.getElem?_append_left lt, List.getElem?_eq_getElem lt]
  have tag : (Setting.ofText cs .scripts False).tag p = (tokensIn cs)[p].1.tag :=
    Tokens.tag_of_readings here
  rw [tag]
  exact fun eof => tokensIn_proper _ (List.getElem_mem lt) (TokenKind.eq_eof eof)

/-- A text behind `let` starts no first line that is set apart. -/
theorem let_plain (cs : List Char) : ¬ "#!".toList <+: "let x = ".toList ++ cs := by
  rw [letChars]
  rintro ⟨rest, start⟩
  cases (List.cons.inj start).1

include plain lone

/-- As the value of a `let` the statement is reported, from its first token to its last. -/
theorem let_reported :
    let text := "let x = ".toList ++ cs
    let ts := (lexChars text .empty).tokens
    (ts.get 3).kind = .keyword .ifKw
      ∧ (parseChars text .scripts).errors
        = [⟨.missingElse, (ts.get 3).span.merge (ts.lastSpan (ts.size - 1)), some .ifExpression⟩]
      ∧ ∃ m, (parseChars text .scripts).file.items = [.stmt (.error m)] := by
  intro text ts
  have readings : ts.readings = letKinds.map Word.token ++ (tokensIn cs ++ [(.eof, false)]) := by
    rw [readings_tokensIn (let_plain cs), tokensIn_let, List.append_assoc]
  have m : Moved (.ofText cs .scripts False) (.script text) 3 (tokensIn cs).length :=
    .of_readings (readings_tokensIn plain .empty) readings (.inl rfl)
  have words : Spelt (.script text) (letKinds.map Word.token) 0 3 := let_spelt readings
  have size : ts.size = (tokensIn cs).length + 3 + 1 := by
    have length := congrArg List.length readings
    rw [Tokens.readings, List.length_map, Array.length_toList, List.length_append, List.length_append,
      Nat.add_comm] at length
    exact length
  have ends : (Setting.script text).tag ((tokensIn cs).length + 3) = .eof := tag_behind readings
  have unpaired := lone.unpaired m (tag_proper plain) ends
  have past := (lone.past_eq m (tag_proper plain)).2
  have word : (Setting.script text).tag 3 = .keyword .ifKw := unpaired.word
  have last : ts.lastSpan (j + 3) = ts.lastSpan (ts.size - 1) := by
    rw [← Tokens.lastSpan_pastBreaks, size]
    exact congrArg ts.lastSpan past
  obtain ⟨errors, items⟩ := unpaired_reported (let_plain cs) words unpaired
    (lone.ends_moved m ends) (by rw [past]; exact ends)
  refine ⟨TokenKind.eq_keyword (((Setting.script text).tag_kind 3).trans word), ?_, items⟩
  rw [errors, ← last]
  rfl

/-- As the value of a `let`, with a second branch behind it, the statement is read. -/
theorem let_read (closed : ∀ l ∈ (Lexeme.lexemes cs).getLast?, l.kind.isOpen = false) :
    let text := "let x = ".toList ++ (cs ++ " else y".toList)
    (parseChars text .scripts).errors = []
      ∧ (parseChars text .scripts).file.bare = ⟨none, [.stmt (.letIn .none letName
        (.conditional .none h.bare t.bare (.expr (.name .none "y"))))], .point 0⟩ := by
  intro text
  have readings : (lexChars text .empty).tokens.readings
      = letKinds.map Word.token ++ (tokensIn cs ++ (elseKinds.map Word.token ++ [(.eof, false)])) := by
    rw [readings_tokensIn (let_plain _), tokensIn_let, tokensIn_else closed, List.append_assoc,
      List.append_assoc]
  have m : Moved (.ofText cs .scripts False) (.script text) 3 (tokensIn cs).length :=
    .of_readings (readings_tokensIn plain .empty) readings (.inr rfl)
  have next : (Setting.script text).ElseNext (j + 3) :=
    lone.elseNext m (tag_proper plain) (fun _ => tag_behind_line) (tag_behind readings)
  have past := (lone.past_eq m (tag_proper plain)).2
  have split : (lexChars text .empty).tokens.readings = (letKinds.map Word.token ++ tokensIn cs)
      ++ (elseKinds.map Word.token ++ [(.eof, false)]) := by
    rw [readings, List.append_assoc]
  have behind : Spelt (.script text) (elseKinds.map Word.token) ((Setting.script text).past (j + 3))
      ((tokensIn cs).length + 3 + 2) := by
    have spelt : Spelt (.script text) _ _ _ := Spelt.of_readings split
    rw [List.length_append, Nat.add_comm] at spelt
    rw [past]
    exact spelt
  have place : (elseKinds.map Word.token).length + (letKinds.map Word.token ++ tokensIn cs).length
      = (tokensIn cs).length + 3 + 2 := by
    rw [List.length_append, Nat.add_comm, Nat.add_comm (letKinds.map Word.token).length]
    rfl
  have ends : (Setting.script text).tag ((tokensIn cs).length + 3 + 2) = .eof := place ▸ tag_behind split
  obtain ⟨word, condition, branch, -⟩ := lone.moved m
  exact paired_parsed (let_plain _) (let_spelt readings) word condition branch next behind ends

end

end Grammar

open Grammar

/-- A text that starts with a word starts with no line break. -/
theorem tag_of_word {c : Char} {ds : List Char} (word : Lexeme.startsWord c = true) (quote : c ≠ '\'')
    (plain : ¬ "#!".toList <+: c :: ds) : (lexChars (c :: ds) .empty).tokens.tag 0 ≠ .lineBreak := by
  obtain ⟨k, ss, first⟩ : ∃ k ss, signs (c :: ds) = .token k :: ss := by
    refine ⟨Lexeme.wordKind (c :: ds.take (Lexeme.runLength Lexeme.continuesWord ds)),
      signs (ds.drop (Lexeme.runLength Lexeme.continuesWord ds)), ?_⟩
    rw [Lexeme.signs_cons, Lexeme.boundary_of_startsWord word quote]
    rfl
  have tag : (lexChars (c :: ds) .empty).tokens.tag 0 = k.tag := by
    refine Tokens.tag_of_readings (r := (k, false)) ?_
    rw [readings_tokensIn plain, tokensIn, first]
    rfl
  rw [tag]
  exact fun line => (Lexeme.proper_signs (c :: ds) k (first ▸ List.mem_cons_self)).2
    (TokenKind.eq_lineBreak line)

/-- A conditional without a second branch is a statement and no value. Where a text that starts with `if`
and ends with a token is accepted as a script of one statement of this sort, it is rejected as the value of
a `let`, with one error that reaches from the word `if` to the last token that is no line break, and with
an error statement for all of it. With `else` and a name behind the text it is accepted as a value that
has the condition and the first branch of the statement. -/
theorem conditional_as_value (source : String) (m : Mark) (h : Expr) (t : Body)
    (starts : "if".toList <+: source.toList)
    (ends : ∃ token ∈ (lex source .empty).tokens.items.toList, token.kind ≠ .eof
      ∧ token.span.stop = byteLength source.toList)
    (accepted : (parseText source .scripts).errors = [])
    (statement : (parseText source .scripts).file.items = [.stmt (.conditional m h t none)]) :
    (let text := "let x = " ++ source
      let ts := (lex text .empty).tokens
      (ts.get 3).kind = .keyword .ifKw
        ∧ (∃ e, (parseText text .scripts).errors = [e] ∧ e.problem.category = .missingMandatoryBranch
          ∧ e.problem.code.text = "E1010"
          ∧ e.span = (ts.get 3).span.merge (ts.lastSpan (ts.size - 1)))
        ∧ ∃ m, (parseText text .scripts).file.items = [.stmt (.error m)])
      ∧ (let parsed := parseText ("let x = " ++ source ++ " else y") .scripts
        parsed.errors = []
          ∧ parsed.file.bare = ⟨none, [.stmt (.letIn .none (.cons .none ⟨⟨"x", .point 0⟩, []⟩ [])
            (.conditional .none h.bare t.bare (.expr (.name .none "y"))))], .point 0⟩) := by
  obtain ⟨rest, start⟩ := starts
  have chars : "if".toList = ['i', 'f'] := by decide +kernel
  rw [chars] at start
  have plain : ¬ "#!".toList <+: source.toList := by
    rw [← start]
    rintro ⟨_, line⟩
    cases (List.cons.inj line).1
  have first : (Setting.ofText source.toList .scripts False).tag 0 ≠ .lineBreak := by
    rw [← start] at plain ⊢
    exact tag_of_word rfl (by decide) plain
  obtain ⟨k, j, lone⟩ := loneIf_of_accepted accepted statement first
  obtain ⟨token, mem, solid, stop⟩ := ends
  have closed := closed_of_last mem solid (lexed_of_accepted accepted token mem) stop
  rw [(behindShebang_eq_self plain).2] at closed
  obtain ⟨word, errors, items⟩ := let_reported plain lone
  obtain ⟨clean, same⟩ := let_read plain lone closed
  unfold parseText lex
  dsimp only
  rw [String.toList_append, String.toList_append, String.toList_append, List.append_assoc]
  exact ⟨⟨word, ⟨_, errors, rfl, rfl, rfl⟩, items⟩, clean, same⟩

/-- Whether items are one conditional without a second branch. -/
def isLoneIf : List Item → Bool
  | [.stmt (.conditional _ _ _ none)] => true
  | _ => false

theorem isLoneIf_iff {items : List Item} :
    isLoneIf items = true ↔ ∃ m h t, items = [.stmt (.conditional m h t none)] := by
  unfold isLoneIf
  split
  · exact iff_of_true rfl ⟨_, _, _, rfl⟩
  · next other =>
    refine iff_of_false Bool.false_ne_true ?_
    rintro ⟨m, h, t, rfl⟩
    exact other m h t rfl

/-- A first branch with a conditional at its end, which takes no second branch from behind its block. -/
theorem conditional_as_value_nested :
    let source := "if f x \x7b\n  if b then c\n\x7d"
    ∃ m h t, ((parseText source .scripts).errors = []
        ∧ (parseText source .scripts).file.items = [.stmt (.conditional m h t none)])
      ∧ (∃ e, (parseText ("let x = " ++ source) .scripts).errors = [e] ∧ e.problem.code.text = "E1010")
      ∧ (parseText ("let x = " ++ source ++ " else y") .scripts).file.bare
        = ⟨none, [.stmt (.letIn .none (.cons .none ⟨⟨"x", .point 0⟩, []⟩ [])
          (.conditional .none h.bare t.bare (.expr (.name .none "y"))))], .point 0⟩ := by
  intro source
  let brace : Token := ⟨.punct .closeBrace, ⟨23, 24⟩, .of false true false false⟩
  obtain ⟨accepted, shape, starts, last, ends⟩ : (parseText source .scripts).errors = []
      ∧ isLoneIf (parseText source .scripts).file.items = true ∧ "if".toList <+: source.toList
      ∧ brace ∈ (lex source .empty).tokens.items.toList
      ∧ brace.span.stop = byteLength source.toList := by
    decide +kernel
  obtain ⟨m, h, t, statement⟩ := isLoneIf_iff.1 shape
  obtain ⟨⟨-, ⟨e, errors, -, code, -⟩, -⟩, -, same⟩ := conditional_as_value source m h t starts
    ⟨brace, last, (TokenKind.ne_of_tag Tag.noConfusion), ends⟩ accepted statement
  exact ⟨m, h, t, ⟨accepted, statement⟩, ⟨e, errors, code⟩, same⟩

end Surface
