import Surface.Proofs.Lexing.Places

/-!
# Gaps between tokens

What lies between a token and the one before it, line breaks apart, is a gap of blanks, comments and
separators. Whether a line break stands before the token, where it lies, and what the flags of both
say is determined by the gap.

Results:
* `Spacing.of`: the spacing with some flags and no others.
* `gapBefore`: the gap in front of a token.
* `Joined`, `Broken`: tokens behind a gap without and with separators.
* `Waits.snoc`, `Follows.take`: what one lexeme adds to a gap and to the tokens.
* `lex_gaps`: every token of a text stands behind its gap.
-/

namespace Surface

open Text (byteLength)

/-! ## Flags -/

namespace Spacing

/-- The spacing with the flags that are asked for and no others. -/
def of (space newline trivia semicolon : Bool) : Spacing :=
  (((none.setIf space spaceBefore).setIf newline newlineBefore).setIf trivia triviaBefore).setIf
    semicolon hasSemicolon

variable (space newline trivia : Bool)

theorem of_none : of false false false false = none := rfl

theorem set_space : (of space newline trivia false).set spaceBefore = of true newline trivia false := by
  cases space <;> cases newline <;> cases trivia <;> rfl

theorem set_trivia : (of space newline trivia false).set triviaBefore = of space newline true false := by
  cases space <;> cases newline <;> cases trivia <;> rfl

theorem setIf_newline (b : Bool) : (of space newline trivia false).setIf b newlineBefore
    = of space (newline || b) trivia false := by
  cases space <;> cases newline <;> cases trivia <;> cases b <;> rfl

theorem setIf_semicolon (b : Bool) :
    (of space newline trivia false).setIf b hasSemicolon = of space newline trivia b := by
  cases space <;> cases newline <;> cases trivia <;> cases b <;> rfl

end Spacing

/-! ## Gaps -/

namespace Placed

variable (p : Placed)

/-- A run of blanks. -/
def isBlank : Bool := p.lexeme.kind == .blanks

/-- A comment of either sort. -/
def isComment : Bool := p.lexeme.kind == .lineComment || p.lexeme.kind == .docComment

def isNewline : Bool := p.lexeme.kind == .newline

def isSemicolon : Bool := p.lexeme.kind == .semicolon

/-- A newline or a semicolon. -/
def isSeparator : Bool := p.isNewline || p.isSemicolon

variable {p}

theorem plain_of_isSeparator (h : p.isSeparator = true) : p.isBlank = false ∧ p.isComment = false := by
  obtain ⟨⟨kind, text⟩, span⟩ := p
  cases kind <;> first | exact ⟨rfl, rfl⟩ | cases h

end Placed

/-- Where the last of some tokens stops, line breaks apart. -/
def lastStop (start : Nat) (ts : List Token) : Nat :=
  ((ts.filter fun t => !t.isBreak).getLast?.map fun t => t.span.stop).getD start

/-- Of lexemes from `start` on, those between a token and the one before it, line breaks apart. -/
def gapBefore (start : Nat) (ps : List Placed) (earlier : List Token) (t : Token) : List Placed :=
  ps.filter fun p => lastStop start earlier ≤ p.span.start && p.span.stop ≤ t.span.start

/-- A token behind a gap without separators. -/
structure Joined (gap : List Placed) (earlier : List Token) (t : Token) : Prop where
  unseparated : ∀ p ∈ gap, p.isSeparator = false
  /-- There is no line break before the token. -/
  unbroken : ∀ b ∈ earlier.getLast?, b.isBreak = false
  /-- Its flags tell of blanks and comments in the gap, and there are no others. -/
  spacing : t.spacing = .of (gap.any Placed.isBlank) false (gap.any Placed.isComment) false

/-- A token behind a gap with separators, the first of which stands behind `ahead` and in front of
`behind`; the line break before the token is `b`, and the tokens before that are `before`. -/
structure Broken (gap : List Placed) (earlier : List Token) (t : Token)
    (ahead : List Placed) (first : Placed) (behind : List Placed) (before : List Token) (b : Token) :
    Prop where
  parts : gap = ahead ++ first :: behind
  unseparated : ∀ p ∈ ahead, p.isSeparator = false
  separator : first.isSeparator = true
  /-- There is a line break before the token, -/
  tokens : earlier = before ++ [b]
  lineBreak : b.kind = .lineBreak
  /-- and only one. -/
  unbroken : ∀ b' ∈ before.getLast?, b'.isBreak = false
  /-- It reaches from the first separator to the last. -/
  span : ∃ last, ((first :: behind).filter Placed.isSeparator).getLast? = some last
    ∧ b.span = ⟨first.span.start, last.span.stop⟩
  /-- Its flags tell of blanks and comments before the first separator, and of semicolons; there are
  no others. -/
  breakSpacing : b.spacing = .of (ahead.any Placed.isBlank) false (ahead.any Placed.isComment)
    ((first :: behind).any Placed.isSemicolon)
  /-- The flags of the token tell of blanks and comments behind the first separator, and of newlines;
  there are no others. -/
  spacing : t.spacing = .of (behind.any Placed.isBlank) ((first :: behind).any Placed.isNewline)
    (behind.any Placed.isComment) false

/-- A token behind a gap. -/
def Stands (gap : List Placed) (earlier : List Token) (t : Token) : Prop :=
  Joined gap earlier t ∨ ∃ ahead first behind before b, Broken gap earlier t ahead first behind before b

/-! ## Inside a gap -/

/-- What is pending behind a part of a gap, and which flags have been gathered for the next token. -/
inductive Waits : List Placed → Option PendingBreak → Spacing → Prop
  | joined {gap : List Placed} (unseparated : ∀ p ∈ gap, p.isSeparator = false) :
      Waits gap none (.of (gap.any Placed.isBlank) false (gap.any Placed.isComment) false)
  | broken {ahead behind : List Placed} {first last : Placed}
      (unseparated : ∀ p ∈ ahead, p.isSeparator = false) (separator : first.isSeparator = true)
      (ends : ((first :: behind).filter Placed.isSeparator).getLast? = some last) :
      Waits (ahead ++ first :: behind)
        (some ⟨⟨first.span.start, last.span.stop⟩, (first :: behind).any Placed.isSemicolon,
          .of (ahead.any Placed.isBlank) false (ahead.any Placed.isComment) false⟩)
        (.of (behind.any Placed.isBlank) ((first :: behind).any Placed.isNewline)
          (behind.any Placed.isComment) false)

namespace Waits

variable {gap : List Placed} {pending : Option PendingBreak} {spacing : Spacing} {x : Placed}

theorem nil : Waits [] none .none := .joined nofun

theorem getLast?_snoc_of_false (xs : List Placed) (hx : x.isSeparator = false) :
    ((xs ++ [x]).filter Placed.isSeparator).getLast? = (xs.filter Placed.isSeparator).getLast? := by
  rw [List.filter_append, List.filter_cons_of_neg (by simp [hx]), List.filter_nil, List.append_nil]

theorem getLast?_snoc (xs : List Placed) (hx : x.isSeparator = true) :
    ((xs ++ [x]).filter Placed.isSeparator).getLast? = some x := by
  rw [List.filter_append, List.filter_cons_of_pos hx, List.filter_nil, List.getLast?_concat]

/-- A blank or a comment changes no more than the flags. -/
theorem snoc (h : Waits gap pending spacing) (hx : x.isSeparator = false) {spacing' : Spacing}
    (hs : ∀ a n c, spacing = .of a n c false →
      spacing' = .of (a || x.isBlank) n (c || x.isComment) false) :
    Waits (gap ++ [x]) pending spacing' := by
  have plain := Bool.or_eq_false_iff.1 hx
  cases h with
  | joined unseparated =>
    have joined : Waits (gap ++ [x]) _ _ :=
      .joined (List.forall_mem_append.2 ⟨unseparated, List.forall_mem_singleton.2 hx⟩)
    rw [hs _ _ _ rfl]
    simpa only [List.any_append, List.any_cons, List.any_nil, Bool.or_false] using joined
  | @broken ahead behind first last unseparated separator ends =>
    have broken : Waits (ahead ++ first :: (behind ++ [x])) _ _ := .broken unseparated separator
      ((getLast?_snoc_of_false (first :: behind) hx).trans ends)
    rw [hs _ _ _ rfl]
    simpa only [List.append_assoc, List.cons_append, List.any_append, List.any_cons, List.any_nil,
      Bool.or_false, plain.1, plain.2] using broken

/-- A separator starts a line break or joins the one that is pending. -/
theorem separate {st : Lexing} (h : Waits gap st.pending st.spacing) {b : Bool}
    (newline : x.isNewline = !b) (semicolon : x.isSemicolon = b)
    (order : ∀ p ∈ gap, p.span.start ≤ x.span.start ∧ p.span.stop ≤ x.span.stop) :
    Waits (gap ++ [x]) (st.separate x.span b).pending (st.separate x.span b).spacing := by
  have separator : x.isSeparator = true := by
    rw [Placed.isSeparator, newline, semicolon, Bool.not_or_self]
  obtain ⟨offset, names, tokens, comments, spacing, pending⟩ := st
  cases h with
  | joined unseparated =>
    have broken : Waits (gap ++ x :: []) _ _ :=
      .broken unseparated separator (getLast?_snoc [] separator)
    simp only [List.any_cons, List.any_nil, Bool.or_false, newline, semicolon] at broken
    have flags := Spacing.setIf_newline false false false (!b)
    rw [Spacing.of_none, Bool.false_or] at flags
    show Waits _ (some ⟨x.span, b, _⟩) (Spacing.none.setIf (!b) Spacing.newlineBefore)
    rwa [flags]
  | @broken ahead behind first last unseparated first_separator ends =>
    have broken : Waits (ahead ++ first :: (behind ++ [x])) _ _ :=
      .broken unseparated first_separator (getLast?_snoc (first :: behind) separator)
    have last_mem : last ∈ first :: behind := List.mem_of_mem_filter (List.mem_of_getLast? ends)
    have first_order := order first (List.mem_append_right _ List.mem_cons_self)
    have last_order := order last (List.mem_append_right _ last_mem)
    have merged : (Span.mk first.span.start last.span.stop).merge x.span
        = ⟨first.span.start, x.span.stop⟩ := by
      rw [Span.merge, Nat.min_eq_left first_order.1, Nat.max_eq_right last_order.2]
    have none := Placed.plain_of_isSeparator separator
    show Waits _ (some ⟨(Span.mk first.span.start last.span.stop).merge x.span,
      (first :: behind).any Placed.isSemicolon || b,
      .of (ahead.any Placed.isBlank) false (ahead.any Placed.isComment) false⟩)
      ((Spacing.of (behind.any Placed.isBlank) ((first :: behind).any Placed.isNewline)
        (behind.any Placed.isComment) false).setIf (!b) Spacing.newlineBefore)
    rw [merged, Spacing.setIf_newline]
    simpa only [List.append_assoc, List.cons_append, List.any_append, List.any_cons, List.any_nil,
      Bool.or_false, Bool.or_assoc, newline, semicolon, none.1, none.2] using broken

end Waits

/-! ## Tokens behind gaps -/

theorem lastStop_append_break (start : Nat) (ts : List Token) {b : Token} (hb : b.isBreak = true) :
    lastStop start (ts ++ [b]) = lastStop start ts := by
  rw [lastStop, List.filter_append, List.filter_cons_of_neg (by simp [hb]), List.filter_nil,
    List.append_nil]
  rfl

theorem lastStop_append (start : Nat) (ts : List Token) {t : Token} (ht : t.isBreak = false) :
    lastStop start (ts ++ [t]) = t.span.stop := by
  rw [lastStop, List.filter_append, List.filter_cons_of_pos (by simp [ht]), List.filter_nil,
    List.getLast?_concat]
  rfl

theorem gapBefore_snoc {start : Nat} {ps : List Placed} {earlier : List Token} {t : Token} {x : Placed}
    (h : t.span.start < x.span.stop) : gapBefore start (ps ++ [x]) earlier t = gapBefore start ps earlier t := by
  rw [gapBefore, List.filter_append, List.filter_cons_of_neg (by simp [h]), List.filter_nil,
    List.append_nil]
  rfl

namespace Lexing

/-- The line break that is pending, as a token. -/
def pendingTokens (st : Lexing) : List Token := (st.pending.map breakToken).toList

theorem tokens_emit (st : Lexing) (kind : TokenKind) (s : Span) :
    (st.emit kind s).tokens.items.toList
      = st.tokens.items.toList ++ st.pendingTokens ++ [⟨kind, s, st.spacing⟩] := by
  unfold emit pendingTokens
  cases st.pending <;> simp [Tokens.push]

theorem isBreak_pendingTokens (st : Lexing) : ∀ b ∈ st.pendingTokens, b.isBreak = true := by
  unfold pendingTokens
  cases st.pending with
  | none => exact List.forall_mem_nil _
  | some b => exact List.forall_mem_singleton.2 rfl

theorem lastStop_pendingTokens (start : Nat) (ts : List Token) (st : Lexing) :
    lastStop start (ts ++ st.pendingTokens) = lastStop start ts := by
  unfold pendingTokens
  cases st.pending with
  | none => rw [Option.map_none, Option.toList_none, List.append_nil]
  | some b => exact lastStop_append_break start ts rfl

/-- The next token stands behind the gap in front of it. -/
theorem stands_of_waits {gap : List Placed} {st : Lexing} (h : Waits gap st.pending st.spacing)
    {earlier : List Token} (unbroken : ∀ b ∈ earlier.getLast?, b.isBreak = false) (kind : TokenKind)
    (s : Span) : Stands gap (earlier ++ st.pendingTokens) ⟨kind, s, st.spacing⟩ := by
  obtain ⟨offset, names, tokens, comments, spacing, pending⟩ := st
  cases h with
  | joined unseparated =>
    refine .inl ⟨unseparated, ?_, rfl⟩
    rwa [pendingTokens, Option.map_none, Option.toList_none, List.append_nil]
  | broken unseparated separator ends =>
    exact .inr ⟨_, _, _, earlier, _, rfl, unseparated, separator, rfl, rfl, unbroken, ⟨_, ends, rfl⟩,
      Spacing.setIf_semicolon _ _ _ _, rfl⟩

/-- Behind the lexemes `done`, every token stands behind its gap, and what is pending comes from those
behind the last token. -/
structure Follows (start : Nat) (done : List Placed) (st : Lexing) : Prop where
  placed : Increasing start st.offset (done.map Placed.span)
  tokens : ∀ t ∈ st.tokens.items.toList, t.isBreak = false → t.span.start ≤ st.offset
  stop : lastStop start st.tokens.items.toList ≤ st.offset
  unbroken : ∀ b ∈ st.tokens.items.toList.getLast?, b.isBreak = false
  waits : Waits (done.filter fun p => lastStop start st.tokens.items.toList ≤ p.span.start) st.pending
    st.spacing
  stands : ∀ earlier t later, st.tokens.items.toList = earlier ++ t :: later → t.isBreak = false →
    Stands (gapBefore start done earlier t) earlier t

namespace Follows

variable {start : Nat} {done : List Placed} {st st' : Lexing} {x : Placed}

/-- A lexeme that is no token goes on with the gap. -/
theorem gap (h : st.Follows start done) (hx : x.span.start = st.offset) (pos : x.span.start < x.span.stop)
    (tokens : st'.tokens = st.tokens) (offset : st'.offset = x.span.stop)
    (waits : ∀ gap, (∀ p ∈ gap, p.span.start ≤ x.span.start ∧ p.span.stop ≤ x.span.stop) →
      Waits gap st.pending st.spacing → Waits (gap ++ [x]) st'.pending st'.spacing) :
    st'.Follows start (done ++ [x]) where
  placed := by
    rw [offset, List.map_append]
    exact h.placed.snoc (Nat.le_of_eq hx.symm) pos
  tokens := by
    rw [tokens, offset]
    intro t ht solid
    have := h.tokens t ht solid
    omega
  stop := by
    rw [tokens, offset]
    have := h.stop
    omega
  unbroken := by
    rw [tokens]
    exact h.unbroken
  waits := by
    have behind := h.stop
    rw [tokens, List.filter_append, List.filter_cons_of_pos (by simpa [hx] using behind), List.filter_nil]
    refine waits _ (fun p hp => ?_) h.waits
    have := h.placed.bounds (List.mem_map_of_mem (List.mem_of_mem_filter hp))
    omega
  stands := by
    rw [tokens]
    intro earlier t later parts ht
    have := h.tokens t (by rw [parts]; exact List.mem_append_right _ List.mem_cons_self) ht
    rw [gapBefore_snoc (by omega)]
    exact h.stands earlier t later parts ht

/-- A token that is emitted where the gap ends stands behind it, and the tokens before it stand behind
their gaps as before. -/
theorem emit (h : st.Follows start done) {kind : TokenKind} (stop : Nat)
    {earlier later : List Token} {t : Token}
    (parts : (st.emit kind ⟨st.offset, stop⟩).tokens.items.toList = earlier ++ t :: later)
    (ht : t.isBreak = false) : Stands (gapBefore start done earlier t) earlier t := by
  rw [tokens_emit] at parts
  rcases List.eq_nil_or_concat later with rfl | ⟨later, last, rfl⟩
  · obtain ⟨rfl, one⟩ := List.append_inj' parts rfl
    cases one
    have gap : gapBefore start done (st.tokens.items.toList ++ st.pendingTokens)
        ⟨kind, ⟨st.offset, stop⟩, st.spacing⟩
          = done.filter fun p => lastStop start st.tokens.items.toList ≤ p.span.start := by
      refine List.filter_congr fun p hp => ?_
      have bounds := h.placed.bounds (List.mem_map_of_mem hp)
      rw [lastStop_pendingTokens, decide_eq_true bounds.2.2, Bool.and_true]
    rw [gap]
    exact stands_of_waits h.waits h.unbroken _ _
  · have parts : st.tokens.items.toList ++ st.pendingTokens = earlier ++ t :: later := by
      rw [List.concat_eq_append, ← List.cons_append, ← List.append_assoc] at parts
      exact (List.append_inj' parts rfl).1
    cases hp : st.pending with
    | none =>
      rw [pendingTokens, hp] at parts
      exact h.stands _ _ _ ((List.append_nil _).symm.trans parts) ht
    | some p =>
      rw [pendingTokens, hp] at parts
      rcases List.eq_nil_or_concat later with rfl | ⟨later, last, rfl⟩
      · cases (List.append_inj' parts rfl).2
        cases ht
      · rw [List.concat_eq_append, ← List.cons_append, ← List.append_assoc] at parts
        exact h.stands _ _ _ (List.append_inj' parts rfl).1 ht

/-- A token starts a new gap. -/
theorem token (h : st.Follows start done) {kind : TokenKind} (hk : kind ≠ .lineBreak)
    (hx : x.span.start = st.offset) (pos : x.span.start < x.span.stop)
    (tokens : st'.tokens = (st.emit kind x.span).tokens) (offset : st'.offset = x.span.stop)
    (waits : st'.pending = none ∧ st'.spacing = .none) : st'.Follows start (done ++ [x]) := by
  have solid : (Token.mk kind x.span st.spacing).isBreak = false := isBreak_solid hk _ _
  have stop : lastStop start st'.tokens.items.toList = x.span.stop := by
    rw [tokens, tokens_emit, lastStop_append _ _ solid]
  have starts : ∀ t ∈ st'.tokens.items.toList, t.isBreak = false → t.span.start ≤ st.offset := by
    rw [tokens, tokens_emit]
    intro t ht plain
    rcases List.mem_append.1 ht with ht | ht
    · rcases List.mem_append.1 ht with ht | ht
      · exact h.tokens t ht plain
      · rw [isBreak_pendingTokens st t ht] at plain
        cases plain
    · rw [List.mem_singleton.1 ht]
      exact Nat.le_of_eq hx
  refine ⟨?_, fun t ht plain => ?_, by rw [stop, offset], ?_, ?_, ?_⟩
  · rw [offset, List.map_append]
    exact h.placed.snoc (Nat.le_of_eq hx.symm) pos
  · have := starts t ht plain
    omega
  · rw [tokens, tokens_emit, List.getLast?_concat]
    rintro b ⟨⟩
    exact solid
  · have fresh : (done ++ [x]).filter (fun p => lastStop start st'.tokens.items.toList ≤ p.span.start)
        = [] := by
      refine List.filter_eq_nil_iff.2 fun p hp => ?_
      rw [stop, decide_eq_true_eq]
      rcases List.mem_append.1 hp with hp | hp
      · have := h.placed.bounds (List.mem_map_of_mem hp)
        omega
      · rw [List.mem_singleton.1 hp]
        omega
    rw [fresh, waits.1, waits.2]
    exact .nil
  · intro earlier t later parts ht
    have := starts t (by rw [parts]; exact List.mem_append_right _ List.mem_cons_self) ht
    rw [gapBefore_snoc (by omega)]
    exact h.emit x.span.stop (by rw [← parts, tokens, ← hx]) ht

/-- Every lexeme goes on with the gap or ends it. -/
theorem take (h : st.Follows start done) {l : Lexeme} (hl : l.text ≠ []) :
    (st.take l).Follows start (done ++ [⟨l, ⟨st.offset, st.offset + byteLength l.text⟩⟩]) := by
  have pos := Text.byteLength_pos hl
  have lt : st.offset < st.offset + byteLength l.text := Nat.lt_add_of_pos_right pos
  rcases take_cases st l with ⟨hk, e⟩ | ⟨b, hk, e⟩ | ⟨k, n, hk, e⟩ | ⟨kind, names, hk, e⟩ <;> rw [e]
  · have sorts : ∀ s, (Placed.mk l s).isSeparator = false ∧ (Placed.mk l s).isBlank = true
        ∧ (Placed.mk l s).isComment = false := fun s => by
      simp [Placed.isSeparator, Placed.isNewline, Placed.isSemicolon, Placed.isBlank, Placed.isComment,
        hk]
    refine h.gap rfl lt rfl rfl fun gap _ waits => waits.snoc (sorts _).1 fun a n c flags => ?_
    rw [(sorts _).2.1, (sorts _).2.2, Bool.or_true, Bool.or_false]
    exact (congrArg (Spacing.set · Spacing.spaceBefore) flags).trans (Spacing.set_space _ _ _)
  · have sorts : ∀ s, (Placed.mk l s).isNewline = !b ∧ (Placed.mk l s).isSemicolon = b := fun s => by
      rcases hk with ⟨hk, rfl⟩ | ⟨hk, rfl⟩ <;> simp [Placed.isNewline, Placed.isSemicolon, hk]
    exact h.gap rfl lt rfl rfl fun gap order waits => waits.separate (sorts _).1 (sorts _).2 order
  · have sorts : ∀ s, (Placed.mk l s).isSeparator = false ∧ (Placed.mk l s).isBlank = false
        ∧ (Placed.mk l s).isComment = true := fun s => by
      rcases hk with ⟨hk, -⟩ | ⟨hk, -⟩ <;> simp [Placed.isSeparator, Placed.isNewline,
        Placed.isSemicolon, Placed.isBlank, Placed.isComment, hk]
    refine h.gap rfl lt rfl rfl fun gap _ waits => waits.snoc (sorts _).1 fun a n c flags => ?_
    rw [(sorts _).2.1, (sorts _).2.2, Bool.or_true, Bool.or_false]
    exact (congrArg (Spacing.set · Spacing.triviaBefore) flags).trans (Spacing.set_trivia _ _ _)
  · exact h.token (kind?_plain hk).2 rfl lt rfl rfl ⟨rfl, rfl⟩

/-- All lexemes together. -/
theorem foldl {ls : List Lexeme} (h : st.Follows start done) (hls : ∀ l ∈ ls, l.text ≠ []) :
    (ls.foldl Lexing.take st).Follows start (done ++ Lexeme.placed st.offset ls) := by
  induction ls generalizing st done with
  | nil =>
    rw [Lexeme.placed, List.append_nil]
    exact h
  | cons l ls ih =>
    obtain ⟨first, others⟩ := List.forall_mem_cons.1 hls
    have rest := ih (h.take first) others
    rwa [List.append_assoc] at rest

end Follows

end Lexing

/-! ## Whole texts -/

/-- Line breaks and flags tell exactly of what lies between tokens. Every token of a text that is no
line break, the end included, stands behind the gap between it and the one before it: without a
separator in the gap there is no line break before the token, and otherwise there is one, and the
flags of both are those that the gap calls for. -/
theorem lex_gaps (source : String) (names : NameTable) (earlier later : List Token) (t : Token)
    (parts : (lex source names).tokens.items.toList = earlier ++ t :: later)
    (ht : t.kind ≠ .lineBreak) :
    let cs := source.toList
    Stands (gapBefore (shebangLength cs) (placedLexemes cs) earlier t) earlier t := by
  intro cs
  have start : (Lexing.start names (shebangLength cs)).Follows (shebangLength cs) [] :=
    ⟨Nat.le_refl _, List.forall_mem_nil _, Nat.le_refl _,
      fun b last => absurd last (Option.not_mem_none b), .nil, fun earlier t later parts =>
        absurd parts.symm (List.append_ne_nil_of_right_ne_nil _ (List.cons_ne_nil t later))⟩
  have follows := start.foldl (@Lexeme.text_ne_nil (behindShebang cs))
  rw [List.nil_append] at follows
  exact follows.emit _ parts (by simpa [Token.isBreak] using ht)

/-- A semicolon and a newline around a comment. -/
theorem lex_gaps_comment :
    let source := "a ; // c\n\tb"
    let earlier : List Token := [⟨.ident "a", ⟨0, 1⟩, .none⟩, ⟨.lineBreak, ⟨2, 9⟩, .of true false false true⟩]
    let t : Token := ⟨.ident "b", ⟨10, 11⟩, .of true true true false⟩
    (lex source .empty).tokens.items.toList = earlier ++ t :: [⟨.eof, .point 11, .none⟩]
      ∧ t.kind ≠ .lineBreak
      ∧ Stands (gapBefore 0 (placedLexemes source.toList) earlier t) earlier t := by
  intro source earlier t
  have parts : (lex source .empty).tokens.items.toList = earlier ++ t :: [⟨.eof, .point 11, .none⟩] := by
    decide +kernel
  have solid : t.kind ≠ .lineBreak := (TokenKind.ne_of_tag Tag.noConfusion)
  exact ⟨parts, solid, lex_gaps source .empty earlier _ t parts solid⟩

end Surface
