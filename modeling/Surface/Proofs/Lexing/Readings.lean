import Mathlib.Data.List.Chain
import Surface.Proofs.Lexing.Lines
import Surface.Proofs.Lexing.Order

/-!
# What lexemes mean for tokens

Blanks and comments leave no token behind, and separators that follow each other make one line
break. The kinds of all tokens follow from what the lexemes mean.

Results:
* `Tokens.readings`: what the grammar sees of tokens.
* `told`, `untold`: the tokens that signs lead to, and the line break that is pending behind them.
* `lexChars_readings`, `lexChars_docs`: the tokens and the documentation of a text.
* `tag_behind_line`: no line break stands right behind another one.
-/

namespace Surface

/-! ## Kinds that a tag determines -/

namespace TokenKind

variable {k : TokenKind}

theorem eq_lineBreak (h : k.tag = .lineBreak) : k = .lineBreak := by
  cases k <;> first | rfl | cases h

theorem eq_eof (h : k.tag = .eof) : k = .eof := by
  cases k <;> first | rfl | cases h

theorem eq_keyword {w : Keyword} (h : k.tag = .keyword w) : k = .keyword w := by
  cases k <;> first | (cases h; rfl) | cases h

theorem eq_reserved {r : Reserved} (h : k.tag = .reserved r) : k = .reserved r := by
  cases k <;> first | (cases h; rfl) | cases h

theorem eq_punct {p : Punct} (h : k.tag = .punct p) : k = .punct p := by
  cases k <;> first | (cases h; rfl) | cases h

end TokenKind

/-! ## Tokens of signs -/

/-- What the grammar sees of a token: its kind, and whether a semicolon is part of it. -/
def Token.reading (t : Token) : TokenKind × Bool :=
  (t.kind, t.spacing.contains Spacing.hasSemicolon)

/-- What the grammar sees of a stream. -/
def Tokens.readings (ts : Tokens) : List (TokenKind × Bool) := ts.items.toList.map Token.reading

namespace Tokens

variable {ts : Tokens} {i : Nat} {r : TokenKind × Bool}

theorem get?_of_readings (h : ts.readings[i]? = some r) : ∃ t, ts.get? i = some t ∧ t.reading = r := by
  unfold readings at h
  rw [List.getElem?_map, Array.getElem?_toList] at h
  exact Option.map_eq_some_iff.1 h

theorem get_of_readings (h : ts.readings[i]? = some r) : (ts.get i).reading = r := by
  obtain ⟨t, ht, e⟩ := get?_of_readings h
  unfold get
  rw [ht]
  exact e

theorem tag_of_readings (h : ts.readings[i]? = some r) : ts.tag i = r.1.tag := by
  obtain ⟨t, ht, rfl⟩ := get?_of_readings h
  unfold tag
  rw [ht]
  rfl

theorem tag_of_readings_none (h : ts.readings[i]? = none) : ts.tag i = .eof := by
  unfold readings at h
  rw [List.getElem?_map, Option.map_eq_none_iff, Array.getElem?_toList] at h
  unfold tag get?
  rw [h]
  rfl

end Tokens

namespace Lexeme

/-- The documentation that a sign is. -/
def Sign.doc? : Sign → Option String
  | .doc content => some content
  | _ => none

/-- The line break that is pending, if one is. -/
def pendingBreak : Option Bool → List (TokenKind × Bool)
  | some isSemicolon => [(.lineBreak, isSemicolon)]
  | none => []

/-- The tokens that signs lead to. A line break is told with the token behind it; one that is
pending before the signs may or may not have a semicolon. -/
def told (pending : Option Bool) : List Sign → List (TokenKind × Bool)
  | [] => []
  | .token kind :: ss => pendingBreak pending ++ (kind, false) :: told none ss
  | .separator isSemicolon :: ss => told (some (pending.getD false || isSemicolon)) ss
  | .doc _ :: ss => told pending ss

/-- The line break that is pending behind signs. -/
def untold (pending : Option Bool) : List Sign → Option Bool
  | [] => pending
  | .token _ :: ss => untold none ss
  | .separator isSemicolon :: ss => untold (some (pending.getD false || isSemicolon)) ss
  | .doc _ :: ss => untold pending ss

variable {pending : Option Bool}

theorem told_append (ss ss' : List Sign) :
    told pending (ss ++ ss') = told pending ss ++ told (untold pending ss) ss' := by
  induction ss generalizing pending with
  | nil => rfl
  | cons s ss ih =>
    cases s with
    | token kind =>
      show pendingBreak pending ++ (kind, false) :: told none (ss ++ ss') = _
      rw [ih, ← List.cons_append, ← List.append_assoc]
      rfl
    | separator isSemicolon => exact ih
    | doc _ => exact ih

theorem untold_append (ss ss' : List Sign) :
    untold pending (ss ++ ss') = untold (untold pending ss) ss' := by
  induction ss generalizing pending with
  | nil => rfl
  | cons s ss ih => cases s <;> exact ih

/-- No sign stands for a line break or the end. -/
def Proper (ss : List Sign) : Prop := ∀ kind, .token kind ∈ ss → kind ≠ .eof ∧ kind ≠ .lineBreak

theorem Proper.tail {s : Sign} {ss : List Sign} (h : Proper (s :: ss)) : Proper ss :=
  fun kind hk => h kind (.tail _ hk)

/-- The tokens among the signs of a text are those that its lexemes stand for. -/
theorem mem_signs {cs : List Char} {kind : TokenKind} (h : .token kind ∈ signs cs) :
    ∃ l ∈ lexemes cs, l.kind? = some kind := by
  obtain ⟨l, hl, h⟩ := List.mem_filterMap.1 h
  refine ⟨l, hl, ?_⟩
  unfold sign? at h
  split at h
  case h_6 =>
    obtain ⟨kind', h', e⟩ := Option.map_eq_some_iff.1 h
    cases e
    exact h'
  all_goals cases h

theorem proper_signs (cs : List Char) : Proper (signs cs) := fun _ h =>
  let ⟨_, _, hk⟩ := mem_signs h
  Lexing.kind?_plain hk

/-- What signs lead to are line breaks and the tokens among them. -/
theorem mem_told {ss : List Sign} {r : TokenKind × Bool} (h : r ∈ told pending ss) :
    r.1 = .lineBreak ∨ .token r.1 ∈ ss := by
  induction ss generalizing pending with
  | nil => cases h
  | cons s ss ih =>
    cases s with
    | token kind =>
      rcases List.mem_append.1 h with h | h
      · cases pending with
        | none => cases h
        | some b => exact .inl (by rw [List.mem_singleton.1 h])
      · rcases List.mem_cons.1 h with rfl | h
        · exact .inr List.mem_cons_self
        · exact (ih h).imp_right (List.mem_cons_of_mem _)
    | separator isSemicolon => exact (ih h).imp_right (List.mem_cons_of_mem _)
    | doc _ => exact (ih h).imp_right (List.mem_cons_of_mem _)

theorem ne_eof_of_told {ss : List Sign} (h : Proper ss) :
    ∀ r ∈ told pending ss, r.1 ≠ .eof := by
  intro r hr
  rcases mem_told hr with lineBreak | sign
  · rw [lineBreak]
    exact TokenKind.ne_of_tag Tag.noConfusion
  · exact (h _ sign).1

/-- A line break is told only if something follows. -/
theorem last_told {ss : List Sign} (h : Proper ss) :
    ∀ r, (told pending ss).getLast? = some r → r.1 ≠ .lineBreak := by
  induction ss generalizing pending with
  | nil => exact nofun
  | cons s ss ih =>
    cases s with
    | token kind =>
      intro r hr
      have last : (told pending (.token kind :: ss)).getLast?
          = some ((told none ss).getLast?.getD (kind, false)) := by
        rw [told, List.getLast?_append, List.getLast?_cons]
        rfl
      rw [last] at hr
      cases hm : (told none ss).getLast? with
      | none =>
        rw [hm] at hr
        cases hr
        exact (h kind (.head _)).2
      | some r' =>
        rw [hm] at hr
        cases hr
        exact ih h.tail _ hm
    | separator isSemicolon => exact ih h.tail
    | doc _ => exact ih h.tail

/-- Readings of which no two that follow each other are line breaks. -/
def LinesApart (rs : List (TokenKind × Bool)) : Prop :=
  rs.IsChain fun r r' => r.1 = .lineBreak → r'.1 ≠ .lineBreak

theorem told_apart {ss : List Sign} (h : Proper ss) :
    LinesApart (told pending ss ++ (pendingBreak (untold pending ss) ++ [(.eof, false)])) := by
  induction ss generalizing pending with
  | nil => cases pending <;> simp [LinesApart, told, untold, pendingBreak]
  | cons s ss ih =>
    cases s with
    | token kind =>
      have plain := (h kind (.head _)).2
      have behind : LinesApart ((kind, false)
          :: (told none ss ++ (pendingBreak (untold none ss) ++ [(.eof, false)]))) :=
        List.isChain_cons.2 ⟨fun _ _ lineBreak => absurd lineBreak plain, ih h.tail⟩
      show LinesApart ((pendingBreak pending ++ (kind, false) :: told none ss) ++ _)
      rw [List.append_assoc]
      cases pending with
      | none => exact behind
      | some b => exact List.isChain_cons_cons.2 ⟨fun _ => plain, behind⟩
    | separator isSemicolon => exact ih h.tail
    | doc _ => exact ih h.tail

/-- The tokens of a text from the first one on that is no line break, and how line breaks from
before join those at its start. -/
theorem told_joined {ss : List Sign} (h : Proper ss) : ∃ rest m,
    (∀ r, (rest ++ [(.eof, false)]).head? = some r → r.1 ≠ .lineBreak)
      ∧ told none ss ++ (pendingBreak (untold none ss) ++ [(.eof, false)])
        = pendingBreak m ++ (rest ++ [(.eof, false)])
      ∧ ∀ b, ∃ b', told (some b) ss ++ (pendingBreak (untold (some b) ss) ++ [(.eof, false)])
        = (.lineBreak, b') :: (rest ++ [(.eof, false)]) := by
  induction ss with
  | nil =>
    refine ⟨[], none, fun r hr => ?_, rfl, fun b => ⟨b, rfl⟩⟩
    cases hr
    exact TokenKind.ne_of_tag Tag.noConfusion
  | cons s ss ih =>
    cases s with
    | token kind =>
      refine ⟨(kind, false) :: told none ss ++ pendingBreak (untold none ss), none, fun r hr => ?_, ?_,
        fun b => ⟨b, ?_⟩⟩
      · cases hr
        exact (h kind (.head _)).2
      · rw [List.append_assoc]
        rfl
      · rw [List.append_assoc]
        rfl
    | separator isSemicolon =>
      obtain ⟨rest, m, first, -, joined⟩ := ih h.tail
      obtain ⟨b', e⟩ := joined (false || isSemicolon)
      exact ⟨rest, some b', first, e, fun b => joined (b || isSemicolon)⟩
    | doc _ => exact ih h.tail

end Lexeme

/-! ## Semicolons in spacing -/

namespace Spacing

theorem contains_set {s : Spacing} {flag : UInt8} (h : flag &&& hasSemicolon = 0) :
    (s.set flag).contains hasSemicolon = s.contains hasSemicolon := by
  have bits : (s.bits ||| flag) &&& hasSemicolon = s.bits &&& hasSemicolon := by
    refine UInt8.toBitVec_inj.1 (BitVec.eq_of_getElem_eq fun i hi => ?_)
    have none := congrArg (fun b : UInt8 => b.toBitVec[i]) h
    have zero : (UInt8.toBitVec 0)[i] = false := BitVec.getElem_zero hi
    simp only [UInt8.toBitVec_and, UInt8.toBitVec_or, BitVec.getElem_and, BitVec.getElem_or] at none ⊢
    rw [Bool.and_or_distrib_right, none, zero, Bool.or_false]
  unfold contains set
  rw [bits]

theorem contains_set_self (s : Spacing) : (s.set hasSemicolon).contains hasSemicolon = true := by
  have bits : (s.bits ||| hasSemicolon) &&& hasSemicolon = hasSemicolon := by
    refine UInt8.toBitVec_inj.1 (BitVec.eq_of_getElem_eq fun i hi => ?_)
    simp only [UInt8.toBitVec_and, UInt8.toBitVec_or, BitVec.getElem_and, BitVec.getElem_or]
    rw [Bool.and_or_distrib_right, Bool.and_self]
    cases s.bits.toBitVec[i] <;> simp
  unfold contains set
  rw [bits]
  rfl

end Spacing

/-! ## One pass over the lexemes -/

namespace Lexing

open Lexeme (Sign told untold pendingBreak sign?)

/-- A semicolon is marked on line breaks only. -/
structure Plain (st : Lexing) : Prop where
  spacing : st.spacing.contains Spacing.hasSemicolon = false
  pending : ∀ b, st.pending = some b → b.spacing.contains Spacing.hasSemicolon = false

/-- Whether the line break that is pending has a semicolon, if one is pending. -/
def awaits (st : Lexing) : Option Bool := st.pending.map PendingBreak.hasSemicolon

/-- The documentation so far. -/
def docs (st : Lexing) : List String :=
  (st.comments.items.toList.filter Comment.isDoc).map Comment.content

variable {st : Lexing}

theorem reading_breakToken {b : PendingBreak} (h : b.spacing.contains Spacing.hasSemicolon = false) :
    (breakToken b).reading = (.lineBreak, b.hasSemicolon) := by
  unfold Token.reading breakToken Spacing.setIf
  cases b.hasSemicolon with
  | false => rw [if_neg Bool.false_ne_true, h]
  | true => rw [if_pos rfl, Spacing.contains_set_self]

theorem readings_emit (h : st.Plain) (kind : TokenKind) (span : Span) :
    (st.emit kind span).tokens.readings
      = st.tokens.readings ++ (pendingBreak st.awaits ++ [(kind, false)]) := by
  unfold emit awaits Tokens.readings
  cases hp : st.pending with
  | none =>
    simp only [Tokens.push, Array.toList_push, List.map_append, Option.map_none, pendingBreak,
      List.nil_append, List.map_cons, List.map_nil, Token.reading, h.spacing]
  | some b =>
    simp only [Tokens.push, Array.toList_push, List.map_append, Option.map_some, pendingBreak,
      List.map_cons, List.map_nil, reading_breakToken (h.pending b hp), List.append_assoc]
    simp only [Token.reading, h.spacing]

/-- What one lexeme does: it tells tokens, or changes the line break that is pending. -/
structure Steps (st st' : Lexing) (ss : List Sign) : Prop where
  plain : st'.Plain
  readings : st'.tokens.readings = st.tokens.readings ++ told st.awaits ss
  awaits : st'.awaits = untold st.awaits ss
  docs : st'.docs = st.docs ++ ss.filterMap Sign.doc?

theorem Steps.trans {st' st'' : Lexing} {ss ss' : List Sign} (h : Steps st st' ss)
    (h' : Steps st' st'' ss') : Steps st st'' (ss ++ ss') where
  plain := h'.plain
  readings := by rw [h'.readings, h.readings, h.awaits, Lexeme.told_append, List.append_assoc]
  awaits := by rw [h'.awaits, h.awaits, Lexeme.untold_append]
  docs := by rw [h'.docs, h.docs, List.filterMap_append, List.append_assoc]

theorem steps_separate (h : st.Plain) (span : Span) (b : Bool) {offset : Nat} :
    Steps st { st.separate span b with offset := offset } [.separator b] := by
  have plain : (Spacing.none.setIf (!b) Spacing.newlineBefore).contains Spacing.hasSemicolon = false := by
    cases b <;> decide
  have more : (st.spacing.setIf (!b) Spacing.newlineBefore).contains Spacing.hasSemicolon = false := by
    cases b with
    | false => exact (Spacing.contains_set (by decide)).trans h.spacing
    | true => exact h.spacing
  unfold separate
  cases hp : st.pending with
  | none =>
    refine ⟨⟨plain, fun _ e => ?_⟩, (List.append_nil _).symm, ?_, (List.append_nil _).symm⟩
    · cases e
      exact h.spacing
    · unfold awaits
      rw [hp]
      rfl
  | some b' =>
    refine ⟨⟨more, fun _ e => ?_⟩, (List.append_nil _).symm, ?_, (List.append_nil _).symm⟩
    · cases e
      exact h.pending b' hp
    · unfold awaits
      rw [hp]
      rfl

theorem sign_token {l : Lexeme} {kind : TokenKind} (h : l.kind? = some kind) :
    sign? l = some (.token kind) := by
  obtain ⟨k, text⟩ := l
  cases k <;> first | (unfold sign?; dsimp only; rw [h]; rfl) | cases h

theorem steps_take (h : st.Plain) (l : Lexeme) : Steps st (st.take l) (sign? l).toList := by
  rcases take_cases st l with ⟨hk, e⟩ | ⟨b, hk, e⟩ | ⟨k, n, hk, e⟩ | ⟨kind, names, hk, e⟩ <;> rw [e]
  · have sign : sign? l = none := by
      unfold sign?
      rw [hk]
    rw [sign]
    refine ⟨⟨?_, h.pending⟩, (List.append_nil _).symm, rfl, (List.append_nil _).symm⟩
    exact (Spacing.contains_set (by decide)).trans h.spacing
  · have sign : sign? l = some (.separator b) := by
      unfold sign?
      rcases hk with ⟨hk, rfl⟩ | ⟨hk, rfl⟩ <;> rw [hk]
    rw [sign]
    exact steps_separate h ⟨st.offset, _⟩ b
  · have sign : told st.awaits (sign? l).toList = [] ∧ untold st.awaits (sign? l).toList = st.awaits
        ∧ (sign? l).toList.filterMap Sign.doc?
          = if k = .doc then [String.ofList (Text.trim (l.text.drop n))] else [] := by
      unfold sign?
      rcases hk with ⟨hk, rfl, -⟩ | ⟨hk, rfl, rfl⟩ <;> rw [hk] <;> exact ⟨rfl, rfl, rfl⟩
    refine ⟨⟨(Spacing.contains_set (by decide)).trans h.spacing, h.pending⟩, ?_, sign.2.1.symm, ?_⟩
    · rw [sign.1, List.append_nil]
      rfl
    · rw [sign.2.2]
      show ((st.comments.push _).items.toList.filter Comment.isDoc).map Comment.content = _
      unfold Comments.push
      rw [Array.toList_push, List.filter_append, List.map_append]
      cases k <;> rfl
  · rw [sign_token hk]
    have named : ({ st with names := names } : Lexing).Plain := ⟨h.spacing, h.pending⟩
    refine ⟨⟨show Spacing.none.contains Spacing.hasSemicolon = false by decide, nofun⟩, ?_, rfl,
      (List.append_nil _).symm⟩
    exact readings_emit named kind ⟨st.offset, _⟩

theorem steps_foldl (h : st.Plain) (ls : List Lexeme) :
    Steps st (ls.foldl take st) (ls.filterMap sign?) := by
  induction ls generalizing st with
  | nil => exact ⟨h, (List.append_nil _).symm, rfl, (List.append_nil _).symm⟩
  | cons l ls ih =>
    have first := steps_take h l
    have all := first.trans (ih first.plain)
    rw [List.foldl_cons, List.filterMap_cons]
    cases hs : sign? l with
    | none =>
      rw [hs] at all
      exact all
    | some s =>
      rw [hs] at all
      exact all

end Lexing

/-! ## Whole texts -/

/-- A text behind its first line, if that starts with `#!`. -/
def behindShebang (cs : List Char) : List Char := cs.drop ((shebangOf cs).getD []).length

theorem shebangOf_plain {cs : List Char} (h : ¬ "#!".toList <+: cs) :
    shebangOf cs = none := by
  unfold shebangOf
  split
  · next rest => exact absurd ⟨rest, rfl⟩ h
  · rfl

theorem behindShebang_eq_self {cs : List Char} (h : ¬ "#!".toList <+: cs) :
    shebangLength cs = 0 ∧ behindShebang cs = cs := by
  unfold shebangLength behindShebang
  rw [shebangOf_plain h]
  exact ⟨rfl, rfl⟩

theorem shebang_eq_none {cs : List Char} (h : ¬ "#!".toList <+: cs) (names : NameTable) :
    (lexChars cs names).shebang = none :=
  congrArg (Option.map _) (shebangOf_plain h)

open Lexeme (Sign signs told untold pendingBreak)

theorem steps_lexemes (cs : List Char) (names : NameTable) (offset : Nat) :
    Lexing.Steps (.start names offset) ((Lexeme.lexemes cs).foldl Lexing.take (.start names offset))
      (signs cs) :=
  Lexing.steps_foldl ⟨show Spacing.none.contains Spacing.hasSemicolon = false by decide,
    fun _ (e : none = some _) => nomatch e⟩ _

/-- The tokens of a text are those that its signs lead to, and then the end. -/
theorem lexChars_readings (cs : List Char) (names : NameTable) :
    (lexChars cs names).tokens.readings = told none (signs (behindShebang cs))
      ++ (pendingBreak (untold none (signs (behindShebang cs))) ++ [(.eof, false)]) := by
  have steps := steps_lexemes (behindShebang cs) names (shebangLength cs)
  refine (Lexing.readings_emit steps.plain .eof (.point _)).trans ?_
  rw [steps.readings, steps.awaits]
  rfl

/-- Behind a line break stands no other one. -/
theorem tag_behind_line {cs : List Char} {names : NameTable} {p : Nat}
    (h : (lexChars cs names).tokens.tag p = .lineBreak) :
    (lexChars cs names).tokens.tag (p + 1) ≠ .lineBreak := by
  have apart : Lexeme.LinesApart (lexChars cs names).tokens.readings :=
    (lexChars_readings cs names).symm ▸ Lexeme.told_apart (Lexeme.proper_signs _)
  generalize (lexChars cs names).tokens = ts at h apart ⊢
  cases here : ts.readings[p]? with
  | none =>
    rw [Tokens.tag_of_readings_none here] at h
    cases h
  | some r =>
    cases behind : ts.readings[p + 1]? with
    | none =>
      rw [Tokens.tag_of_readings_none behind]
      exact Tag.noConfusion
    | some r' =>
      obtain ⟨lt, rfl⟩ := List.getElem?_eq_some_iff.1 here
      obtain ⟨lt', rfl⟩ := List.getElem?_eq_some_iff.1 behind
      rw [Tokens.tag_of_readings here] at h
      rw [Tokens.tag_of_readings behind]
      exact fun line => List.isChain_iff_getElem.1 apart p lt' (TokenKind.eq_lineBreak h)
        (TokenKind.eq_lineBreak line)

/-- The documentation of a text is what its lexemes say. -/
theorem lexChars_docs (cs : List Char) (names : NameTable) :
    ((lexChars cs names).comments.items.toList.filter Comment.isDoc).map Comment.content
      = (signs (behindShebang cs)).filterMap Sign.doc? :=
  (steps_lexemes (behindShebang cs) names (shebangLength cs)).docs

/-! ## Texts line by line -/

theorem shebangOf_eq_none {c d : Char} {cs : List Char} (h : ¬ (c = '#' ∧ d = '!')) :
    shebangOf (c :: d :: cs) = none := by
  unfold shebangOf
  split
  · next e =>
    obtain ⟨hc, tail⟩ := List.cons.inj e
    exact absurd ⟨hc, (List.cons.inj tail).1⟩ h
  · rfl

theorem shebangOf_line (cs rest : List Char) : shebangOf (cs ++ '\n' :: rest) = shebangOf cs := by
  match cs with
  | [] =>
    cases rest with
    | nil => rfl
    | cons => exact shebangOf_eq_none (by simp)
  | [c] =>
    have one : shebangOf [c] = none := by
      unfold shebangOf
      split
      · cases ‹_›
      · rfl
    exact (shebangOf_eq_none (by simp)).trans one.symm
  | c :: d :: cs =>
    by_cases h : c = '#' ∧ d = '!'
    · obtain ⟨rfl, rfl⟩ := h
      exact congrArg some (Lexeme.takeWhile_behind (Lexeme.headIn_cons rfl) ('#' :: '!' :: cs))
    · exact (shebangOf_eq_none h).trans (shebangOf_eq_none h).symm

theorem behindShebang_append_line (cs rest : List Char) :
    behindShebang (cs ++ '\n' :: rest) = behindShebang cs ++ '\n' :: rest := by
  have within : ((shebangOf cs).getD []).length ≤ cs.length := by
    cases h : shebangOf cs with
    | none => exact Nat.zero_le _
    | some line => exact (isPrefix_shebangOf h).length_le
  rw [behindShebang, shebangOf_line, List.drop_append_of_le_length within]
  rfl

theorem signs_behind_line (cs rest : List Char) :
    signs (behindShebang (cs ++ '\n' :: rest))
      = signs (behindShebang cs) ++ .separator false :: signs rest := by
  rw [behindShebang_append_line, Lexeme.signs_append_line]

end Surface
