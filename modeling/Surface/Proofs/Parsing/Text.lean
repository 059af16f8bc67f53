import Surface.Parsed
import Surface.Proofs.Grammar.FileSoundness
import Surface.Proofs.Lexing.Order

/-!
# The rules and whole texts

Reading a file never fails, so that every text has a file, and the rules derive it from the
tokens of the text.

Results:
* `Total`, `file_total`: reading a file always succeeds.
* `Setting.ofText`: the setting of a text, in which spans are exact.
* `parse_derives`: the file of every text is one the rules derive.
* `Setting.Ordered`, `ofText_ordered`: the tokens of a text stand in order.
-/

namespace Surface

namespace Grammar

variable {α β : Type}

/-! ## Files can always be read -/

/-- A reader that never fails. -/
def Total (r : Reader α) : Prop := ∀ i s, ∃ a s', r i s = .ok a s'

namespace Total

theorem pure (a : α) : Total (Pure.pure a : Reader α) := fun _ s => ⟨a, s, rfl⟩

theorem bind {x : Reader α} {f : α → Reader β} (hx : Total x) (hf : ∀ a, Total (f a)) :
    Total (x >>= f) := by
  intro i s
  obtain ⟨a, t, h⟩ := hx i s
  rw [bind_of_ok h]
  exact hf a i t

theorem map {x : Reader α} {f : α → β} (hx : Total x) : Total (f <$> x) := by
  intro i s
  obtain ⟨a, t, h⟩ := hx i s
  exact ⟨f a, t, map_ok.2 ⟨a, h, rfl⟩⟩

theorem ite {p : Prop} [Decidable p] {x y : Reader α} (hx : Total x) (hy : Total y) :
    Total (if p then x else y) := by
  split
  · exact hx
  · exact hy

theorem orElse {reader : Reader α} {replace : SyntaxError → Reader α}
    (h : ∀ e, Total (replace e)) : Total (Grammar.orElse reader replace) := by
  intro i s
  rw [orElse_run]
  cases reader i s with
  | ok a t => exact ⟨a, t, rfl⟩
  | error e t => exact h e i t

theorem repeatUpTo {round : β → Reader (ForInStep β)} (h : ∀ b, Total (round b)) (n : Nat) (b : β) :
    Total (Grammar.repeatUpTo round n b) := by
  induction n generalizing b with
  | zero => exact pure b
  | succ n ih =>
    refine bind (h b) fun r => ?_
    cases r with
    | done b => exact pure b
    | yield b => exact ih b

theorem repeated {round : β → Reader (ForInStep β)} (h : ∀ b, Total (round b)) (b : β) :
    Total (Grammar.repeated b round) :=
  bind (fun i s => ⟨i, s, rfl⟩) fun _ => bind (fun _ s => ⟨s.cursor, s, rfl⟩) fun _ =>
    repeatUpTo h _ b

end Total

theorem item_total (docsFrom : Nat) : Total (item docsFrom) := by
  have looks : Total isDeclNext := by
    refine .bind (fun i s => ⟨i, s, rfl⟩) fun i => .ite (.pure _) (.ite (.pure _) ?_)
    refine .bind (fun _ s => ⟨_, s, rfl⟩) fun _ => .ite (.pure _) ?_
    exact .bind (fun _ s => ⟨_, s, rfl⟩) fun _ => .bind (fun _ s => ⟨_, s, rfl⟩) fun _ => .pure _
  refine .bind (fun _ s => ⟨_, s, rfl⟩) fun start => .bind (fun _ s => ⟨_, s, rfl⟩) fun c => ?_
  refine .bind looks fun asDecl => .orElse fun e => .bind (fun _ s => ⟨_, _, rfl⟩) fun span => ?_
  exact .ite (.pure _) (.map fun _ s => ⟨_, _, rfl⟩)

theorem file_total (line : Option Shebang) : Total (file line) := by
  have first : Total (shebang line) := by
    cases line with
    | none => exact .pure none
    | some l =>
      exact .bind (fun i s => ⟨i, s, rfl⟩) fun _ => .ite (.pure _)
        (.bind (fun _ _ => ⟨(), _, rfl⟩) fun _ => .pure none)
  refine .bind first fun l => .bind (fun _ _ => ⟨(), _, rfl⟩) fun _ => .bind ?_ fun as => ?_
  · refine .bind (.repeated (fun r => ?_) _) fun _ => .pure _
    refine .bind (fun _ s => ⟨_, s, rfl⟩) fun _ => .ite (.pure _) (.bind (item_total _) fun _ => ?_)
    exact .bind (fun _ s => ⟨_, s, rfl⟩) fun _ => .bind (fun _ s => ⟨(), _, rfl⟩) fun _ => .pure _
  · exact .bind (fun _ s => ⟨_, s, rfl⟩) fun _ => .pure _

end Grammar

/-! ## The end of a stream -/

namespace Tokens

variable {ts : Tokens} {i : Nat}

theorem tag_of_lt (h : i < ts.size) : ts.tag i = (ts.get i).kind.tag := by
  unfold tag get get?
  rw [Array.getElem?_eq_getElem h]
  rfl

theorem tag_of_size_le (h : ts.size ≤ i) : ts.tag i = .eof := by
  unfold tag get?
  rw [Array.getElem?_eq_none h]
  rfl

theorem get_of_size_le (h : ts.size ≤ i) : ts.get i = ts.get (ts.size - 1) := by
  have out : ts.get? i = none := Array.getElem?_eq_none h
  have last : ts.last? = ts.get? (ts.size - 1) := rfl
  unfold get
  rw [out, last]
  cases ts.get? (ts.size - 1) <;> rfl

/-- Behind the end a stream reads as its end. -/
theorem get_tag (hend : (ts.get (ts.size - 1)).kind = .eof) (i : Nat) : (ts.get i).tag = ts.tag i := by
  by_cases h : i < ts.size
  · exact (tag_of_lt h).symm
  · rw [get_of_size_le (Nat.not_lt.1 h), tag_of_size_le (Nat.not_lt.1 h)]
    exact congrArg TokenKind.tag hend

end Tokens

namespace Grammar

theorem tokens_get_body {ts : Tokens} {body : List Token} {end' : Token}
    (h : ts.items.toList = body ++ [end']) {i : Nat} (hi : i < body.length) :
    ts.get i = body[i] ∧ ts.tag i = body[i].tag := by
  have get : ts.get? i = some body[i] := by
    unfold Tokens.get?
    rw [← Array.getElem?_toList, h, List.getElem?_append_left hi, List.getElem?_eq_getElem hi]
  unfold Tokens.get Tokens.tag
  rw [get]
  exact ⟨rfl, rfl⟩

theorem tokens_get_end {ts : Tokens} {body : List Token} {end' : Token}
    (h : ts.items.toList = body ++ [end']) {i : Nat} (hi : body.length ≤ i) : ts.get i = end' := by
  have last : ts.last? = some end' := by
    unfold Tokens.last?
    rw [← Array.getLast?_toList, h, List.getLast?_concat]
  have get : ts.get? i = some end' ∨ ts.get? i = none := by
    unfold Tokens.get?
    rw [← Array.getElem?_toList, h, List.getElem?_append_right hi]
    cases i - body.length with
    | zero => exact .inl rfl
    | succ n => exact .inr rfl
  unfold Tokens.get
  rcases get with get | get <;> rw [get, last] <;> rfl

theorem length_le_of_eof {ts : Tokens} {body : List Token} {end' : Token}
    (h : ts.items.toList = body ++ [end']) (hbody : ∀ t ∈ body, t.kind ≠ .eof) {i : Nat}
    (hi : ts.tag i = .eof) : body.length ≤ i := by
  by_contra hlt
  have hlt : i < body.length := by omega
  have tag : body[i].tag = .eof := (tokens_get_body h hlt).2.symm.trans hi
  refine hbody body[i] (List.getElem_mem hlt) ?_
  unfold Token.tag at tag
  cases hk : body[i].kind <;> rw [hk] at tag <;> first | rfl | cases tag

/-! ## The setting of a text -/

/-- What the readers are given for what has been lexed. -/
def Lexed.input {ν : Type} (lexed : Lexed ν) (dialect : Dialect) : Input ν :=
  ⟨lexed.tokens, .ofTokens lexed.tokens, lexed.comments, dialect⟩

/-- What the readers are given for a text. -/
def inputOf (cs : List Char) (dialect : Dialect) : Input := Lexed.input (lexChars cs .empty) dialect

/-- A run that succeeds gives what comes of what has been lexed. -/
theorem parse_of_run {ν : Type} [Naming ν] {lexed : Lexed ν} {dialect : Dialect} {f : SourceFile ν}
    {s : State ν} (h : file lexed.shebang (Lexed.input lexed dialect) (.start lexed.names) = .ok f s) :
    parse lexed dialect = ⟨f, s.nodes, s.names, lexed.comments, s.errors.toList⟩ := by
  unfold parse
  unfold Lexed.input at h
  simp only [h]

/-- What comes of what has been lexed is the result of a run that succeeds. -/
theorem parse_runs (lexed : Lexed) (dialect : Dialect) : ∃ f s,
    file lexed.shebang (Lexed.input lexed dialect) (.start lexed.names) = .ok f s
      ∧ parse lexed dialect = ⟨f, s.nodes, s.names, lexed.comments, s.errors.toList⟩ := by
  obtain ⟨f, s, h⟩ := file_total lexed.shebang (Lexed.input lexed dialect) (.start lexed.names)
  exact ⟨f, s, h, parse_of_run h⟩

/-- The setting of a stream, in which nodes may carry any spans. -/
def Setting.ofLexed (l : Lexed) (dialect : Dialect)
    (hend : (l.tokens.get (l.tokens.size - 1)).kind = .eof) : Setting where
  input := Lexed.input l dialect
  covers _ _ := True
  covers_refl _ := trivial
  flawed := True
  closed := Tokens.get_tag hend

/-- The setting of a text in which spans are exact. -/
def Setting.ofText (cs : List Char) (dialect : Dialect) (flawed : Prop) : Setting where
  input := inputOf cs dialect
  covers a b := b = a
  covers_refl _ := rfl
  flawed := flawed
  closed i := by
    obtain ⟨body, spacing, h, _⟩ := lexChars_tokens cs .empty
    have size : (lexChars cs .empty).tokens.size = body.length + 1 := by
      show Array.size _ = _
      rw [← Array.length_toList, h, List.length_append, List.length_singleton]
    exact Tokens.get_tag (congrArg Token.kind (tokens_get_end h (by omega))) i

/-- The file of a text is one the rules derive; it holds error nodes only if there are errors. -/
theorem parse_derives (cs : List Char) (dialect : Dialect) :
    let S := Setting.ofText cs dialect ((parseChars cs dialect).errors ≠ [])
    FileAt S (S.firstLine (lexChars cs .empty).shebang) (parseChars cs dialect).file := by
  intro S
  obtain ⟨f, s, h, parsed⟩ := parse_runs (lexChars cs .empty) dialect
  have parsed : parseChars cs dialect = _ := parsed
  have standing : Standing S .none false 0 (.start (lexChars cs .empty).names) :=
    ⟨rfl, rfl, rfl, rfl, Nat.zero_le _⟩
  have fine : Fine S s := by
    intro pos none
    rw [parsed] at none
    have : s.errors.toList.length = 0 := congrArg List.length none
    rw [Array.length_toList] at this
    omega
  obtain ⟨_, _, derived⟩ := file_yields _ _ f s standing h fine
  rw [parsed]
  exact derived

/-! ## Tokens in order -/

/-- Spans are exact, tokens but the end are not empty, and they stand in order. -/
structure Setting.Ordered (S : Setting) : Prop where
  exact : ∀ a b, S.covers a b → b = a
  nonempty : ∀ i, S.tag i ≠ .eof → (S.span i).start < (S.span i).stop
  next : ∀ i, S.tag i ≠ .eof → (S.span i).stop ≤ (S.span (i + 1)).start
  ended : ∀ i, S.tag i = .eof → (S.span i).start = (S.span i).stop ∧ ∀ j, i ≤ j → S.span j = S.span i

theorem ofText_end (cs : List Char) (dialect : Dialect) (flawed : Prop) {i : Nat}
    (hi : (Setting.ofText cs dialect flawed).tag i = .eof) :
    (Setting.ofText cs dialect flawed).span i = .point (Text.byteLength cs) := by
  obtain ⟨body, spacing, h, hbody, _⟩ := lexChars_tokens cs .empty
  exact congrArg Token.span (tokens_get_end h (length_le_of_eof h hbody hi))

/-- A stream whose tokens stand in order, with its end behind them. -/
theorem Setting.ordered_of_end {S : Setting} {body : List Token} {spacing : Spacing} {low n : Nat}
    (exact_spans : ∀ a b, S.covers a b → b = a)
    (h : S.input.tokens.items.toList = body ++ [⟨.eof, .point n, spacing⟩])
    (hbody : ∀ t ∈ body, t.kind ≠ .eof) (increasing : Increasing low n (body.map Token.span)) :
    S.Ordered := by
  have inside (i : Nat) (hi : S.tag i ≠ .eof) : ∃ hi : i < body.length, S.span i = body[i].span := by
    have hlt : i < body.length := by
      by_contra hge
      apply hi
      rw [← S.tag_kind]
      exact congrArg Token.tag (tokens_get_end h (by omega))
    exact ⟨hlt, congrArg Token.span (tokens_get_body h hlt).1⟩
  have outside (i : Nat) (hi : body.length ≤ i) : S.span i = .point n :=
    congrArg Token.span (tokens_get_end h hi)
  have mem (i : Nat) (hi : i < body.length) : body[i].span ∈ body.map Token.span :=
    List.mem_map_of_mem (List.getElem_mem hi)
  refine ⟨exact_spans, fun i hi => ?_, fun i hi => ?_, fun i hi => ?_⟩
  · obtain ⟨hlt, span⟩ := inside i hi
    rw [span]
    exact (increasing.bounds (mem i hlt)).2.1
  · obtain ⟨hlt, span⟩ := inside i hi
    rw [span]
    by_cases hnext : i + 1 < body.length
    · have next : S.span (i + 1) = body[i + 1].span :=
        congrArg Token.span (tokens_get_body h hnext).1
      rw [next]
      have := List.pairwise_iff_getElem.1 increasing.pairwise i (i + 1) (by simpa using hlt)
        (by simpa using hnext) (Nat.lt_succ_self i)
      simpa using this
    · rw [outside (i + 1) (by omega)]
      exact (increasing.bounds (mem i hlt)).2.2
  · have hge := length_le_of_eof h hbody hi
    rw [outside i hge]
    exact ⟨rfl, fun j hj => outside j (by omega)⟩

theorem ofText_ordered (cs : List Char) (dialect : Dialect) (flawed : Prop) :
    (Setting.ofText cs dialect flawed).Ordered := by
  obtain ⟨body, spacing, h, hbody, increasing⟩ := lexChars_tokens cs .empty
  exact Setting.ordered_of_end (fun _ _ h => h) h hbody increasing

namespace Setting.Ordered

variable {S : Setting} (h : S.Ordered)

include h

theorem start_le_stop (i : Nat) : (S.span i).start ≤ (S.span i).stop := by
  by_cases hi : S.tag i = .eof
  · exact Nat.le_of_eq (h.ended i hi).1
  · exact Nat.le_of_lt (h.nonempty i hi)

theorem stop_le_start {i j : Nat} (hij : i < j) : (S.span i).stop ≤ (S.span j).start := by
  obtain ⟨d, rfl⟩ := Nat.exists_eq_add_of_lt hij
  clear hij
  have one (i : Nat) : (S.span i).stop ≤ (S.span (i + 1)).start := by
    by_cases hi : S.tag i = .eof
    · obtain ⟨point, same⟩ := h.ended i hi
      rw [same (i + 1) (Nat.le_succ i)]
      exact Nat.le_of_eq point.symm
    · exact h.next i hi
  induction d with
  | zero => exact one i
  | succ d ih =>
    have := h.start_le_stop (i + d + 1)
    have := one (i + d + 1)
    show (S.span i).stop ≤ (S.span (i + d + 1 + 1)).start
    omega

/-- The last token before a position ends before any token from there on starts. -/
theorem last_stop_le_start {k k' : Nat} (hk : k ≤ k') : (S.last k).stop ≤ (S.span k').start := by
  unfold Setting.last
  induction k with
  | zero => exact Nat.zero_le _
  | succ k ih =>
    unfold Tokens.lastSpan
    split
    · exact ih (by omega)
    · exact h.stop_le_start (Nat.lt_of_succ_le hk)

/-- The last token before `j` is not before one at `i` that is no line break. -/
theorem le_last {i j : Nat} (hij : i < j) (hi : S.tag i ≠ .lineBreak) :
    (S.span i).start ≤ (S.last j).start ∧ (S.span i).stop ≤ (S.last j).stop := by
  unfold Setting.last
  induction j with
  | zero => omega
  | succ j ih =>
    unfold Tokens.lastSpan
    rcases Nat.lt_or_eq_of_le (Nat.le_of_lt_succ hij) with lt | rfl
    · split
      · exact ih lt
      · have := h.stop_le_start lt
        have := h.start_le_stop i
        have := h.start_le_stop j
        show (S.span i).start ≤ (S.span j).start ∧ (S.span i).stop ≤ (S.span j).stop
        omega
    · rw [if_neg (by exact hi)]
      exact ⟨Nat.le_refl _, Nat.le_refl _⟩

end Setting.Ordered

end Grammar

end Surface
