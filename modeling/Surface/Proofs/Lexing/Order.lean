import Surface.Parsed

/-!
# Tokens stand in order

The tokens of a text cover stretches of it that are not empty, do not overlap and stand in the
order of the stream; the end is the last token and the only one of its kind. Comments stand in
order in the same way.

Results:
* `Increasing`: spans in order between two offsets.
* `Lexing.Ordered`, `ordered_take`: what one step of the lexer keeps.
* `lexChars_tokens`, `lexChars_comments`: the tokens and comments of a text.
-/

namespace Surface

open Text (byteLength)

/-! ## Spans in order -/

/-- Spans that are not empty and follow each other between two offsets. -/
def Increasing (low high : Nat) : List Span → Prop
  | [] => low ≤ high
  | s :: ss => low ≤ s.start ∧ s.start < s.stop ∧ Increasing s.stop high ss

namespace Increasing

variable {low high high' : Nat} {s t : Span} {ss : List Span}

theorem le (h : Increasing low high ss) : low ≤ high := by
  induction ss generalizing low with
  | nil => exact h
  | cons s ss ih =>
    obtain ⟨h₁, h₂, h₃⟩ := h
    have := ih h₃
    omega

theorem widen (h : Increasing low high ss) (hle : high ≤ high') : Increasing low high' ss := by
  induction ss generalizing low with
  | nil => exact Nat.le_trans h hle
  | cons s ss ih =>
    obtain ⟨h₁, h₂, h₃⟩ := h
    exact ⟨h₁, h₂, ih h₃⟩

theorem lower {low' : Nat} (h : Increasing low high ss) (hle : low' ≤ low) :
    Increasing low' high ss := by
  cases ss with
  | nil => exact Nat.le_trans hle h
  | cons s ss => exact ⟨Nat.le_trans hle h.1, h.2⟩

/-- Spans in order in front of others. -/
theorem append {mid : Nat} {ts : List Span} (h : Increasing low mid ss) (h' : Increasing mid high ts) :
    Increasing low high (ss ++ ts) := by
  induction ss generalizing low with
  | nil => exact h'.lower h
  | cons s ss ih =>
    obtain ⟨h₁, h₂, h₃⟩ := h
    exact ⟨h₁, h₂, ih h₃⟩

theorem snoc (h : Increasing low high ss) (hs : high ≤ s.start) (hlt : s.start < s.stop) :
    Increasing low s.stop (ss ++ [s]) :=
  h.append ⟨hs, hlt, Nat.le_refl _⟩

/-- The last span can be stretched. -/
theorem stretch (h : Increasing low high (ss ++ [s])) (hstart : t.start = s.start)
    (hstop : s.stop ≤ t.stop) : Increasing low t.stop (ss ++ [t]) := by
  induction ss generalizing low with
  | nil =>
    obtain ⟨h₁, h₂, _⟩ := h
    exact ⟨by omega, by omega, Nat.le_refl _⟩
  | cons r ss ih =>
    obtain ⟨h₁, h₂, h₃⟩ := h
    exact ⟨h₁, h₂, ih h₃⟩

theorem bounds (h : Increasing low high ss) (hs : s ∈ ss) :
    low ≤ s.start ∧ s.start < s.stop ∧ s.stop ≤ high := by
  induction ss generalizing low with
  | nil => cases hs
  | cons t ss ih =>
    obtain ⟨h₁, h₂, h₃⟩ := h
    rcases List.mem_cons.1 hs with rfl | hs
    · exact ⟨h₁, h₂, h₃.le⟩
    · have := ih h₃ hs
      omega

theorem pairwise (h : Increasing low high ss) : ss.Pairwise fun s t => s.stop ≤ t.start := by
  induction ss generalizing low with
  | nil => exact .nil
  | cons t ss ih =>
    obtain ⟨h₁, h₂, h₃⟩ := h
    exact List.pairwise_cons.2 ⟨fun s hs => (h₃.bounds hs).1, ih h₃⟩

/-- Spans in order start and end in order. -/
theorem sorted (h : Increasing low high ss) :
    ss.Pairwise fun s t => s.start < t.start ∧ s.stop < t.stop := by
  induction ss generalizing low with
  | nil => exact .nil
  | cons t ss ih =>
    obtain ⟨h₁, h₂, h₃⟩ := h
    refine List.pairwise_cons.2 ⟨fun s hs => ?_, ih h₃⟩
    have := h₃.bounds hs
    omega

theorem sublist {ts : List Span} (h : Increasing low high ss) (hts : ts.Sublist ss) :
    Increasing low high ts := by
  induction hts generalizing low with
  | slnil => exact h
  | cons t _ ih =>
    obtain ⟨h₁, h₂, h₃⟩ := h
    exact (ih h₃).lower (by omega)
  | cons_cons t _ ih =>
    obtain ⟨h₁, h₂, h₃⟩ := h
    exact ⟨h₁, h₂, ih h₃⟩

/-- Spans in order stand between any two offsets that enclose each of them. -/
theorem between {low' : Nat} (h : Increasing low high ss) (hle : low' ≤ high')
    (hss : ∀ s ∈ ss, low' ≤ s.start ∧ s.stop ≤ high') : Increasing low' high' ss := by
  induction ss generalizing low low' with
  | nil => exact hle
  | cons t ss ih =>
    obtain ⟨h₁, h₂, h₃⟩ := h
    obtain ⟨first, rest⟩ := List.forall_mem_cons.1 hss
    exact ⟨first.1, h₂, ih h₃ first.2 fun s hs => ⟨(h₃.bounds hs).1, (rest s hs).2⟩⟩

end Increasing

/-! ## Comments between two offsets -/

/-- The first elements of a list, as many as satisfy a test, are those that do, if they come first. -/
theorem take_countP {α : Type} {q : α → Bool} {xs : List α}
    (hq : xs.Pairwise fun x y => q y → q x) : xs.take (xs.countP q) = xs.filter q := by
  induction xs with
  | nil => rfl
  | cons x xs ih =>
    obtain ⟨first, rest⟩ := List.pairwise_cons.1 hq
    by_cases hx : q x
    · rw [List.countP_cons_of_pos hx, List.take_succ_cons, List.filter_cons_of_pos hx, ih rest]
    · have none : ∀ y ∈ xs, ¬ q y := fun y hy h => hx (first y hy h)
      rw [List.countP_cons_of_neg hx, List.filter_cons_of_neg hx, List.countP_eq_zero.2 none,
        List.filter_eq_nil_iff.2 none, List.take_zero]

/-- What lies between two partition points fails the first test and passes the second, and there is
nothing else that does. -/
theorem toList_extract_partitionPoint {α : Type} {p q : α → Bool} {xs : Array α}
    (hp : xs.toList.Pairwise fun x y => p y → p x) (hq : xs.toList.Pairwise fun x y => q y → q x) :
    (xs.extract (partitionPoint p xs) (partitionPoint q xs)).toList
      = xs.toList.filter fun x => !p x && q x := by
  rw [partitionPoint_eq_countP hp, partitionPoint_eq_countP hq, Array.toList_extract,
    List.extract_eq_take_drop]
  generalize xs.toList = xs at hp hq
  induction xs with
  | nil => rfl
  | cons x xs ih =>
    obtain ⟨firstP, restP⟩ := List.pairwise_cons.1 hp
    obtain ⟨firstQ, restQ⟩ := List.pairwise_cons.1 hq
    by_cases hx : p x
    · rw [List.countP_cons_of_pos hx, List.drop_succ_cons, List.filter_cons_of_neg (by simp [hx]),
        ← ih restP restQ]
      by_cases hy : q x
      · rw [List.countP_cons_of_pos hy, Nat.add_sub_add_right]
      · have none : ∀ y ∈ xs, ¬ q y := fun y hy' h => hy (firstQ y hy' h)
        rw [List.countP_cons_of_neg hy, List.countP_eq_zero.2 none, Nat.zero_sub, Nat.zero_sub]
    · have none : ∀ y ∈ x :: xs, ¬ p y :=
        List.forall_mem_cons.2 ⟨hx, fun y hy h => hx (firstP y hy h)⟩
      rw [List.countP_eq_zero.2 none, List.drop_zero, Nat.sub_zero, take_countP hq]
      refine List.filter_congr fun y hy => ?_
      rw [Bool.eq_false_iff.2 (none y hy)]
      rfl

/-- The comments between two offsets are those that neither start before the first nor end behind
the second. -/
theorem Comments.toList_inRange {cs : Comments} {low high : Nat}
    (h : Increasing low high (cs.items.toList.map Comment.span)) (start stop : Nat) :
    (cs.inRange start stop).toList
      = cs.items.toList.filter fun c => start ≤ c.span.start && c.span.stop ≤ stop := by
  have sorted := List.pairwise_map.1 h.sorted
  unfold Comments.inRange
  rw [toList_extract_partitionPoint
    (sorted.imp fun {a b} hab hb => by simp only [decide_eq_true_eq] at hb ⊢; omega)
    (sorted.imp fun {a b} hab hb => by simp only [decide_eq_true_eq] at hb ⊢; omega)]
  refine List.filter_congr fun c _ => ?_
  rw [← decide_not, decide_eq_decide.2 Nat.not_lt]

/-- The comments between two offsets stand in order between them. -/
theorem Comments.increasing_inRange {cs : Comments} {low high start stop : Nat}
    (h : Increasing low high (cs.items.toList.map Comment.span)) (hle : start ≤ stop) :
    Increasing start stop ((cs.inRange start stop).toList.map Comment.span) := by
  rw [Comments.toList_inRange h]
  refine (h.sublist (.map _ List.filter_sublist)).between hle ?_
  intro s hs
  obtain ⟨c, hc, rfl⟩ := List.mem_map.1 hs
  simpa using (List.mem_filter.1 hc).2

/-! ## One step of the lexer -/

namespace Lexing

/-- The spans of what has been emitted and of what is pending. -/
def spans (st : Lexing) : List Span :=
  st.tokens.items.toList.map Token.span ++ st.pending.toList.map PendingBreak.span

/-- Between two lexemes everything stands in order and no end has been emitted. -/
structure Ordered (low : Nat) (st : Lexing) : Prop where
  tokens : Increasing low st.offset st.spans
  comments : Increasing low st.offset (st.comments.items.toList.map Comment.span)
  open_ended : ∀ t ∈ st.tokens.items.toList, t.kind ≠ .eof

variable {low : Nat} {st : Lexing} {s : Span}

theorem spans_emit (st : Lexing) (kind : TokenKind) (s : Span) :
    (st.emit kind s).spans = st.spans ++ [s] := by
  unfold emit spans
  cases st.pending <;> simp [Tokens.push, breakToken]

theorem ordered_emit {kind : TokenKind} (h : st.Ordered low) (hstart : st.offset ≤ s.start)
    (hlt : s.start < s.stop) (hkind : kind ≠ .eof) :
    ({ st.emit kind s with offset := s.stop } : Lexing).Ordered low where
  tokens := by
    show Increasing low s.stop (st.emit kind s).spans
    rw [spans_emit]
    exact h.tokens.snoc hstart hlt
  comments := h.comments.widen (Nat.le_trans hstart (Nat.le_of_lt hlt))
  open_ended := by
    intro t ht
    have : t ∈ (st.emit kind s).tokens.items.toList := ht
    unfold emit at this
    cases hp : st.pending with
    | none =>
      simp only [hp, Tokens.push, Array.toList_push, List.mem_append, List.mem_singleton] at this
      rcases this with ht | rfl
      · exact h.open_ended t ht
      · exact hkind
    | some b =>
      simp only [hp, Tokens.push, Array.toList_push, List.mem_append, List.mem_singleton] at this
      rcases this with (ht | rfl) | rfl
      · exact h.open_ended t ht
      · exact TokenKind.ne_of_tag Tag.noConfusion
      · exact hkind

theorem ordered_separate (h : st.Ordered low) (hstart : st.offset ≤ s.start)
    (hlt : s.start < s.stop) (isSemicolon : Bool) :
    ({ st.separate s isSemicolon with offset := s.stop } : Lexing).Ordered low where
  tokens := by
    show Increasing low s.stop (st.separate s isSemicolon).spans
    have tokens := h.tokens
    unfold separate spans at *
    cases hp : st.pending with
    | none =>
      simp only [hp, Option.toList_none, List.map_nil, List.append_nil] at tokens
      exact tokens.snoc hstart hlt
    | some b =>
      simp only [hp, Option.toList_some, List.map_cons, List.map_nil] at tokens
      have last := tokens.bounds (List.mem_append_right _ (List.mem_singleton_self _))
      have merged : b.span.merge s = ⟨b.span.start, s.stop⟩ := by
        unfold Span.merge
        congr 1 <;> omega
      show Increasing low s.stop (st.tokens.items.toList.map Token.span ++ [b.span.merge s])
      rw [merged]
      have stretched := tokens.stretch (t := ⟨b.span.start, s.stop⟩) rfl (by
        show b.span.stop ≤ s.stop
        omega)
      exact stretched
  comments := h.comments.widen (Nat.le_trans hstart (Nat.le_of_lt hlt))
  open_ended := h.open_ended

theorem ordered_comment (h : st.Ordered low) (hstart : st.offset ≤ s.start)
    (hlt : s.start < s.stop) (kind : CommentKind) (marker : Nat) (text : List Char) :
    ({ st.comment kind marker text s with offset := s.stop } : Lexing).Ordered low where
  tokens := h.tokens.widen (Nat.le_trans hstart (Nat.le_of_lt hlt))
  comments := by
    show Increasing low s.stop ((st.comments.push _).items.toList.map Comment.span)
    simp only [Comments.push, Array.toList_push, List.map_append, List.map_cons, List.map_nil]
    exact h.comments.snoc hstart hlt
  open_ended := h.open_ended

theorem ordered_moved (h : st.Ordered low) {stop : Nat} (hle : st.offset ≤ stop)
    {spacing : Spacing} : ({ st with spacing := spacing, offset := stop } : Lexing).Ordered low where
  tokens := h.tokens.widen hle
  comments := h.comments.widen hle
  open_ended := h.open_ended

theorem wordKind_cases (text : List Char) : (∃ w, Lexeme.wordKind text = .keyword w)
    ∨ Lexeme.wordKind text = .ident (String.ofList text) := by
  unfold Lexeme.wordKind
  dsimp only
  split
  · exact .inl ⟨_, rfl⟩
  · exact .inr rfl

theorem symbolsKind_cases (text : List Char) : (∃ r, Lexeme.symbolsKind text = .reserved r)
    ∨ Lexeme.symbolsKind text = .operator (String.ofList text) := by
  unfold Lexeme.symbolsKind
  dsimp only
  split
  · exact .inl ⟨_, rfl⟩
  · exact .inr rfl

/-- No lexeme stands for a line break or the end. -/
theorem kind?_plain {l : Lexeme} {kind : TokenKind} (h : l.kind? = some kind) :
    kind ≠ .eof ∧ kind ≠ .lineBreak := by
  obtain ⟨k, text⟩ := l
  cases k with
  | word =>
    obtain rfl : Lexeme.wordKind text = kind := Option.some.inj h
    rcases wordKind_cases text with ⟨w, keyword⟩ | name
    · rw [keyword]
      exact ⟨(TokenKind.ne_of_tag Tag.noConfusion), (TokenKind.ne_of_tag Tag.noConfusion)⟩
    · rw [name]
      exact ⟨(TokenKind.ne_of_tag Tag.noConfusion), (TokenKind.ne_of_tag Tag.noConfusion)⟩
  | symbols =>
    obtain rfl : Lexeme.symbolsKind text = kind := Option.some.inj h
    rcases symbolsKind_cases text with ⟨r, reserved⟩ | operator
    · rw [reserved]
      exact ⟨(TokenKind.ne_of_tag Tag.noConfusion), (TokenKind.ne_of_tag Tag.noConfusion)⟩
    · rw [operator]
      exact ⟨(TokenKind.ne_of_tag Tag.noConfusion), (TokenKind.ne_of_tag Tag.noConfusion)⟩
  | char =>
    simp only [Lexeme.kind?] at h
    split at h <;> cases h <;> exact ⟨(TokenKind.ne_of_tag Tag.noConfusion), (TokenKind.ne_of_tag Tag.noConfusion)⟩
  | _ => cases h <;> exact ⟨(TokenKind.ne_of_tag Tag.noConfusion), (TokenKind.ne_of_tag Tag.noConfusion)⟩

theorem accept_token {l : Lexeme} {kind : TokenKind} (h : l.kind? = some kind) (st : Lexing)
    (span : Span) :
    ∃ names, st.accept l span = ({ st with names := names } : Lexing).emit kind span := by
  unfold accept
  cases hk : l.kind <;> simp only [h] <;> first
    | (unfold Lexeme.kind? at h
       rw [hk] at h
       cases h; done)
    | (cases kind <;> exact ⟨_, rfl⟩)

theorem take_cases (st : Lexing) (l : Lexeme) :
    let stop := st.offset + byteLength l.text
    let span : Span := ⟨st.offset, stop⟩
    (l.kind = .blanks ∧ st.take l
        = { st with spacing := st.spacing.set Spacing.spaceBefore, offset := stop })
    ∨ (∃ b, (l.kind = .newline ∧ b = false ∨ l.kind = .semicolon ∧ b = true)
        ∧ st.take l = { st.separate span b with offset := stop })
    ∨ (∃ k n, (l.kind = .lineComment ∧ k = .line ∧ n = 2 ∨ l.kind = .docComment ∧ k = .doc ∧ n = 3)
        ∧ st.take l = { st.comment k n l.text span with offset := stop })
    ∨ (∃ kind names, l.kind? = some kind
        ∧ st.take l = { ({ st with names := names } : Lexing).emit kind span with offset := stop }) := by
  intro stop span
  cases hk : l.kind? with
  | some kind =>
    obtain ⟨names, e⟩ := accept_token hk st span
    exact .inr (.inr (.inr ⟨kind, names, rfl,
      congrArg (fun st : Lexing => { st with offset := stop }) e⟩))
  | none =>
    obtain ⟨kind, text⟩ := l
    cases kind with
    | blanks => exact .inl ⟨rfl, rfl⟩
    | newline => exact .inr (.inl ⟨false, .inl ⟨rfl, rfl⟩, rfl⟩)
    | semicolon => exact .inr (.inl ⟨true, .inr ⟨rfl, rfl⟩, rfl⟩)
    | lineComment => exact .inr (.inr (.inl ⟨.line, 2, .inl ⟨rfl, rfl, rfl⟩, rfl⟩))
    | docComment => exact .inr (.inr (.inl ⟨.doc, 3, .inr ⟨rfl, rfl, rfl⟩, rfl⟩))
    | char =>
      simp only [Lexeme.kind?] at hk
      split at hk <;> cases hk
    | _ => cases hk

/-- Every lexeme keeps the order. -/
theorem ordered_take {l : Lexeme} (h : st.Ordered low) (hl : l.text ≠ []) :
    (st.take l).Ordered low := by
  have pos : 0 < byteLength l.text := by
    obtain ⟨c, cs, hc⟩ := List.exists_cons_of_ne_nil hl
    have := c.utf8Size_pos
    rw [hc, Text.byteLength_cons]
    omega
  have lt : st.offset < st.offset + byteLength l.text := Nat.lt_add_of_pos_right pos
  rcases take_cases st l with ⟨_, e⟩ | ⟨_, _, e⟩ | ⟨_, _, _, e⟩ | ⟨kind, names, hk, e⟩ <;> rw [e]
  · exact ordered_moved h (Nat.le_of_lt lt)
  · exact ordered_separate (s := ⟨_, _⟩) h (Nat.le_refl _) lt _
  · exact ordered_comment (s := ⟨_, _⟩) h (Nat.le_refl _) lt _ _ _
  · have named : ({ st with names := names } : Lexing).Ordered low :=
      ⟨h.tokens, h.comments, h.open_ended⟩
    exact ordered_emit (s := ⟨_, _⟩) named (Nat.le_refl _) lt (kind?_plain hk).1

theorem offset_take (st : Lexing) (l : Lexeme) :
    (st.take l).offset = st.offset + byteLength l.text := rfl

/-- All lexemes together keep the order. -/
theorem ordered_foldl {ls : List Lexeme} (hls : ∀ l ∈ ls, l.text ≠ []) {st : Lexing}
    (h : st.Ordered low) : (ls.foldl take st).Ordered low
      ∧ (ls.foldl take st).offset = st.offset + byteLength (ls.flatMap Lexeme.text) := by
  induction ls generalizing st with
  | nil => exact ⟨h, rfl⟩
  | cons l ls ih =>
    have ⟨first, rest⟩ := List.forall_mem_cons.1 hls
    obtain ⟨h₁, h₂⟩ := ih rest (ordered_take h first)
    refine ⟨h₁, ?_⟩
    rw [List.foldl_cons, h₂, offset_take, List.flatMap_cons, Text.byteLength_append, Nat.add_assoc]

end Lexing

/-! ## Whole texts -/

theorem Lexeme.text_ne_nil {cs : List Char} : ∀ l ∈ Lexeme.lexemes cs, l.text ≠ [] := by
  have cut (done : Array Lexeme) (h : ∀ l ∈ done.toList, l.text ≠ []) (cs : List Char) :
      ∀ l ∈ (Lexeme.cut done cs).toList, l.text ≠ [] := by
    fun_induction Lexeme.cut done cs with
    | case1 done => exact h
    | case2 done c cs kind n _ ih =>
      apply ih
      intro l hl
      rw [Array.toList_push, List.mem_append, List.mem_singleton] at hl
      rcases hl with hl | rfl
      · exact h l hl
      · exact List.cons_ne_nil _ _
  exact cut #[] (by simp) cs

theorem isPrefix_shebangOf {cs line : List Char} (h : shebangOf cs = some line) : line <+: cs := by
  unfold shebangOf at h
  split at h
  · cases h
    exact List.takeWhile_prefix _
  · cases h

/-- The number of bytes of the first line of a text, if it starts with `#!`. -/
def shebangLength (cs : List Char) : Nat := byteLength ((shebangOf cs).getD [])

theorem byteLength_behind_shebang (cs : List Char) :
    shebangLength cs + byteLength (cs.drop ((shebangOf cs).getD []).length) = byteLength cs := by
  have isPrefix : (shebangOf cs).getD [] <+: cs := by
    cases h : shebangOf cs with
    | none => exact List.nil_prefix
    | some line => exact isPrefix_shebangOf h
  obtain ⟨rest, hrest⟩ := isPrefix
  rw [shebangLength, ← Text.byteLength_append]
  have drop : cs.drop ((shebangOf cs).getD []).length = rest :=
    List.append_cancel_left ((List.prefix_iff_eq_append.1 ⟨rest, hrest⟩).trans hrest.symm)
  rw [drop, hrest]

theorem ordered_lexemes (cs : List Char) (names : NameTable) :
    let st := (Lexeme.lexemes (cs.drop ((shebangOf cs).getD []).length)).foldl Lexing.take
      (.start names (shebangLength cs))
    st.Ordered (shebangLength cs) ∧ st.offset = byteLength cs := by
  intro st
  have start : (Lexing.start names (shebangLength cs)).Ordered (shebangLength cs) :=
    ⟨Nat.le_refl _, Nat.le_refl _, by simp [Lexing.start, Tokens.empty]⟩
  obtain ⟨ordered, offset⟩ := Lexing.ordered_foldl (Lexeme.text_ne_nil) start
  refine ⟨ordered, offset.trans ?_⟩
  rw [Lexeme.flatMap_text_lexemes]
  exact byteLength_behind_shebang cs

/-- The tokens of a text: stretches in order behind the first line, and then the end. -/
theorem lexChars_tokens (cs : List Char) (names : NameTable) : ∃ body spacing,
    (lexChars cs names).tokens.items.toList = body ++ [⟨.eof, .point (byteLength cs), spacing⟩]
      ∧ (∀ t ∈ body, t.kind ≠ .eof)
      ∧ Increasing (shebangLength cs) (byteLength cs) (body.map Token.span) := by
  obtain ⟨ordered, offset⟩ := ordered_lexemes cs names
  unfold lexChars lexCharsAs
  dsimp only
  rw [← shebangLength]
  revert ordered offset
  generalize ((Lexeme.lexemes (cs.drop ((shebangOf cs).getD []).length)).foldl Lexing.take
    (.start names (shebangLength cs)) : Lexing) = st
  intro ordered offset
  have spans := ordered.tokens
  unfold Lexing.spans at spans
  unfold Lexing.finish Lexing.emit
  rw [offset] at spans ⊢
  cases hp : st.pending with
  | none =>
    rw [hp] at spans
    exact ⟨st.tokens.items.toList, st.spacing, by simp [Tokens.push], ordered.open_ended,
      by simpa using spans⟩
  | some b =>
    rw [hp] at spans
    refine ⟨st.tokens.items.toList ++ [Lexing.breakToken b], st.spacing, by simp [Tokens.push], ?_,
      by simpa [Lexing.breakToken] using spans⟩
    intro t ht
    rcases List.mem_append.1 ht with ht | ht
    · exact ordered.open_ended t ht
    · rw [List.mem_singleton.1 ht]
      exact TokenKind.ne_of_tag Tag.noConfusion

/-- The comments of a text: stretches in order behind the first line. -/
theorem lexChars_comments (cs : List Char) (names : NameTable) :
    Increasing (shebangLength cs) (byteLength cs)
      ((lexChars cs names).comments.items.toList.map Comment.span) := by
  obtain ⟨ordered, offset⟩ := ordered_lexemes cs names
  rw [← offset]
  exact ordered.comments

end Surface
