import Mathlib.Data.List.Chain
import Surface.Proofs.Lexing.Readings

/-!
# The pieces of a text

Nothing of a text is lost in its tokens and comments. Behind the first line a text falls into
pieces that follow each other without gaps: tokens, comments, separators that lie inside a line
break, and single blanks.

Results:
* `Lexeme.boundary_cases`: where blanks and separators end.
* `Piece`, `Tiles`: a text cut into pieces; `Tiles.exists_unique`: a byte is in one piece only.
* `Lexing.tiles_lexemes`: what lexemes add to a state, piece by piece.
* `lex_lossless`: the tokens, comments and pieces of a whole text.
-/

namespace Surface

open Text (byteLength)

/-! ## Where blanks and separators end -/

namespace Lexeme

/-- The kinds of lexeme that stand for a token or a comment. -/
def IsSolid (k : LexemeKind) : Prop := k ≠ .blanks ∧ k ≠ .newline ∧ k ≠ .semicolon

/-- A blank, in front of a text: a carriage return is one unless a newline follows it. -/
def IsBlankBefore (c : Char) (behind : List Char) : Prop :=
  isHorizontal c = true ∨ c = '\r' ∧ behind.head? ≠ some '\n'

/-- The ways in which separators are written. -/
def separators : List (List Char) := [['\n'], ['\r', '\n'], [';']]

theorem solid_ite {r : Prop} [Decidable r] {u v : LexemeKind × Nat} (hu : IsSolid u.1)
    (hv : IsSolid v.1) : IsSolid (if r then u else v).1 := by
  split
  · exact hu
  · exact hv

theorem solid_stringRest (taken : Nat) (cs : List Char) : IsSolid (stringRest taken cs).1 := by
  fun_induction stringRest taken cs <;> first
    | assumption
    | simp [IsSolid]

theorem solid_quoteRest (cs : List Char) : IsSolid (quoteRest cs).1 := by
  unfold quoteRest
  dsimp only
  split
  · simp [IsSolid]
  · exact solid_ite (by simp [IsSolid]) (solid_ite (by simp [IsSolid]) (by simp [IsSolid]))
  · exact solid_ite (by simp [IsSolid]) (by simp [IsSolid])
  · simp [IsSolid]

theorem solid_numberRest (c : Char) (cs : List Char) : IsSolid (numberRest c cs).1 := by
  unfold numberRest
  split
  · simp [IsSolid]
  · dsimp only
    split
    · exact solid_ite (by simp [IsSolid]) (by simp [IsSolid])
    · simp [IsSolid]

/-- A lexeme is a separator, a run of blanks, or stands for a token or a comment. -/
theorem boundary_cases (c : Char) (cs : List Char) :
    (c = '\r' ∧ cs.head? = some '\n' ∧ boundary c cs = (.newline, 1))
      ∨ (IsBlankBefore c cs ∧ boundary c cs = (.blanks, blankRun 0 cs))
      ∨ (c = '\n' ∧ boundary c cs = (.newline, 0))
      ∨ (c = ';' ∧ boundary c cs = (.semicolon, 0))
      ∨ IsSolid (boundary c cs).1 := by
  by_cases carriage : (c == '\r' && cs.head? == some '\n') = true
  · rw [boundary, if_pos carriage]
    rw [Bool.and_eq_true, beq_iff_eq, beq_iff_eq] at carriage
    exact .inl ⟨carriage.1, carriage.2, rfl⟩
  by_cases blank : (isHorizontal c || c == '\r') = true
  · refine .inr (.inl ⟨?_, boundary_blank blank carriage⟩)
    rw [Bool.or_eq_true, beq_iff_eq] at blank
    rw [Bool.and_eq_true, beq_iff_eq, beq_iff_eq, not_and] at carriage
    exact blank.imp id fun hc => ⟨hc, carriage hc⟩
  rw [boundary, if_neg carriage, if_neg blank]
  by_cases newline : (c == '\n') = true
  · rw [if_pos newline]
    exact .inr (.inr (.inl ⟨beq_iff_eq.1 newline, rfl⟩))
  by_cases semicolon : (c == ';') = true
  · rw [if_neg newline, if_pos semicolon]
    exact .inr (.inr (.inr (.inl ⟨beq_iff_eq.1 semicolon, rfl⟩)))
  rw [if_neg newline, if_neg semicolon]
  refine .inr (.inr (.inr (.inr ?_)))
  refine solid_ite (solid_quoteRest cs) (solid_ite (by simp [IsSolid]) ?_)
  refine solid_ite (solid_numberRest c cs) (solid_ite (solid_stringRest 0 cs) ?_)
  refine solid_ite (solid_ite (by simp [IsSolid]) (by simp [IsSolid])) ?_
  refine solid_ite ?_ (solid_ite (by simp [IsSolid]) ?_)
  · dsimp only
    split <;> simp [IsSolid]
  · split <;> simp [IsSolid]

theorem blank_of_boundary {c : Char} {cs : List Char} (h : (boundary c cs).1 = .blanks) :
    IsBlankBefore c cs ∧ (boundary c cs).2 = blankRun 0 cs := by
  rcases boundary_cases c cs with ⟨-, -, e⟩ | ⟨blank, e⟩ | ⟨-, e⟩ | ⟨-, e⟩ | solid
  · rw [e] at h
    cases h
  · exact ⟨blank, by rw [e]⟩
  · rw [e] at h
    cases h
  · rw [e] at h
    cases h
  · exact absurd h solid.1

theorem separator_of_boundary {c : Char} {cs : List Char}
    (h : (boundary c cs).1 = .newline ∨ (boundary c cs).1 = .semicolon) :
    c :: cs.take (boundary c cs).2 ∈ separators := by
  rcases boundary_cases c cs with ⟨rfl, head, e⟩ | ⟨-, e⟩ | ⟨rfl, e⟩ | ⟨rfl, e⟩ | solid
  · obtain ⟨ds, rfl⟩ := List.head?_eq_some_iff.1 head
    rw [e]
    simp [separators]
  · rw [e] at h
    rcases h with h | h <;> cases h
  · rw [e]
    simp [separators]
  · rw [e]
    simp [separators]
  · rcases h with h | h
    · exact absurd h solid.2.1
    · exact absurd h solid.2.2

end Lexeme

/-! ## Pieces -/

/-- What a piece of a text is. -/
inductive Piece.Role
  | token (t : Token)
  | comment (c : Comment)
  /-- A newline or a semicolon. -/
  | separator
  | blank

/-- A piece of a text in its place. -/
structure Piece where
  role : Piece.Role
  text : List Char
  span : Span

namespace Piece

/-- The token that a piece is. -/
def token? (p : Piece) : Option Token :=
  match p.role with
  | .token t => some t
  | _ => none

/-- The comment that a piece is. -/
def comment? (p : Piece) : Option Comment :=
  match p.role with
  | .comment c => some c
  | _ => none

/-- A piece plays its role in front of a text: tokens and comments have its span, a separator
lies inside one of the line breaks, and a blank is a single character. -/
def Fits (breaks : List Span) (behind : List Char) (p : Piece) : Prop :=
  match p.role with
  | .token t => t.span = p.span
  | .comment c => c.span = p.span
  | .separator => p.text ∈ Lexeme.separators ∧ ∃ b ∈ breaks, b.containsSpan p.span = true
  | .blank => ∃ c, p.text = [c] ∧ Lexeme.IsBlankBefore c behind

end Piece

/-- Pieces that follow each other without gaps from an offset on, and together are a text. -/
inductive Tiles (breaks : List Span) : Nat → List Char → List Piece → Prop
  | nil (offset : Nat) : Tiles breaks offset [] []
  | cons {offset : Nat} {p : Piece} {cs : List Char} {ps : List Piece} (nonempty : p.text ≠ [])
      (place : p.span = ⟨offset, offset + byteLength p.text⟩) (fits : p.Fits breaks cs)
      (rest : Tiles breaks (offset + byteLength p.text) cs ps) :
      Tiles breaks offset (p.text ++ cs) (p :: ps)

namespace Text

theorem byteLength_pos {cs : List Char} (h : cs ≠ []) : 0 < byteLength cs := by
  obtain ⟨c, cs, rfl⟩ := List.exists_cons_of_ne_nil h
  have := c.utf8Size_pos
  rw [byteLength_cons]
  omega

/-- An offset at which a character starts or the text ends. -/
def IsBoundary (cs : List Char) (n : Nat) : Prop := (dropBytes? n cs).isSome = true

theorem isBoundary_append (as bs : List Char) : IsBoundary (as ++ bs) (byteLength as) := by
  rw [IsBoundary, dropBytes?_append]
  rfl

end Text

namespace Tiles

variable {breaks : List Span} {offset : Nat} {cs : List Char} {ps : List Piece}

/-- Put together, the pieces are the text. -/
theorem flatMap_text (h : Tiles breaks offset cs ps) : ps.flatMap Piece.text = cs := by
  induction h with
  | nil => rfl
  | cons _ _ _ _ ih => rw [List.flatMap_cons, ih]

theorem increasing (h : Tiles breaks offset cs ps) :
    Increasing offset (offset + byteLength cs) (ps.map Piece.span) := by
  induction h with
  | nil => exact Nat.le_refl _
  | cons nonempty place _ _ ih =>
    have pos := Text.byteLength_pos nonempty
    rw [Text.byteLength_append, ← Nat.add_assoc, List.map_cons, place]
    exact ⟨Nat.le_refl _, Nat.lt_add_of_pos_right pos, ih⟩

/-- Two pieces do not overlap. -/
theorem apart (h : Tiles breaks offset cs ps) {p q : Piece} (hp : p ∈ ps) (hq : q ∈ ps) :
    p = q ∨ p.span.stop ≤ q.span.start ∨ q.span.stop ≤ p.span.start := by
  induction h with
  | nil => cases hp
  | @cons offset r cs ps _ place _ rest ih =>
    have behind {s : Piece} (hs : s ∈ ps) : r.span.stop ≤ s.span.start := by
      rw [place]
      exact (rest.increasing.bounds (List.mem_map_of_mem hs)).1
    rcases List.mem_cons.1 hp with rfl | hp' <;> rcases List.mem_cons.1 hq with rfl | hq'
    · exact .inl rfl
    · exact .inr (.inl (behind hq'))
    · exact .inr (.inr (behind hp'))
    · exact ih hp' hq'

theorem exists_mem (h : Tiles breaks offset cs ps) {n : Nat} (low : offset ≤ n)
    (high : n < offset + byteLength cs) : ∃ p ∈ ps, p.span.contains n = true := by
  induction h with
  | nil => simp only [Text.byteLength_nil] at high; omega
  | @cons offset p cs ps _ place _ _ ih =>
    rw [Text.byteLength_append] at high
    by_cases first : n < offset + byteLength p.text
    · refine ⟨p, .head _, ?_⟩
      rw [place, Span.contains, Bool.and_eq_true, decide_eq_true_eq, decide_eq_true_eq]
      exact ⟨low, first⟩
    · obtain ⟨q, hq, within⟩ := ih (by omega) (by omega)
      exact ⟨q, .tail _ hq, within⟩

/-- Every byte of the text is in a piece, and in no other. -/
theorem exists_unique (h : Tiles breaks offset cs ps) {n : Nat} (low : offset ≤ n)
    (high : n < offset + byteLength cs) :
    ∃ p ∈ ps, p.span.contains n = true ∧ ∀ q ∈ ps, q.span.contains n = true → q = p := by
  obtain ⟨p, hp, within⟩ := h.exists_mem low high
  refine ⟨p, hp, within, fun q hq within' => ?_⟩
  simp only [Span.contains, Bool.and_eq_true, decide_eq_true_eq] at within within'
  rcases h.apart hq hp with e | before | behind
  · exact e
  · omega
  · omega

theorem fits (h : Tiles breaks offset cs ps) {p : Piece} (hp : p ∈ ps) :
    ∃ behind, p.Fits breaks behind := by
  induction h with
  | nil => cases hp
  | @cons _ _ cs _ _ _ fits _ ih =>
    rcases List.mem_cons.1 hp with rfl | hp
    · exact ⟨cs, fits⟩
    · exact ih hp

/-- Comments and tokens among the pieces do not overlap. -/
theorem comment_token (h : Tiles breaks offset cs ps) {c : Comment} {t : Token}
    (hc : c ∈ ps.filterMap Piece.comment?) (ht : t ∈ ps.filterMap Piece.token?) :
    c.span.stop ≤ t.span.start ∨ t.span.stop ≤ c.span.start := by
  obtain ⟨p, hp, comment⟩ := List.mem_filterMap.1 hc
  obtain ⟨q, hq, token⟩ := List.mem_filterMap.1 ht
  obtain ⟨_, fitsp⟩ := h.fits hp
  obtain ⟨_, fitsq⟩ := h.fits hq
  have apart := h.apart hp hq
  obtain ⟨_ | c | _ | _, _, _⟩ := p <;> cases comment
  obtain ⟨t | _ | _ | _, _, _⟩ := q <;> cases token
  cases fitsp
  cases fitsq
  rcases apart with same | apart
  · cases same
  · exact apart

/-- A run of blanks is cut into single characters. -/
theorem blanks {c : Char} (hc : Lexeme.IsBlankBefore c cs)
    (h : Tiles breaks (offset + byteLength (c :: cs.take (Lexeme.blankRun 0 cs)))
      (cs.drop (Lexeme.blankRun 0 cs)) ps) :
    ∃ bs, (∀ p ∈ bs, p.role = .blank) ∧ Tiles breaks offset (c :: cs) (bs ++ ps) := by
  have single {ds : List Char} {qs : List Piece} {c : Char} {offset : Nat}
      (hc : Lexeme.IsBlankBefore c ds) (rest : Tiles breaks (offset + byteLength [c]) ds qs) :
      Tiles breaks offset (c :: ds) (⟨.blank, [c], ⟨offset, offset + byteLength [c]⟩⟩ :: qs) :=
    .cons (p := ⟨.blank, [c], _⟩) (List.cons_ne_nil _ _) rfl ⟨c, rfl, hc⟩ rest
  induction cs generalizing c offset with
  | nil => exact ⟨[_], by simp, single hc h⟩
  | cons d ds ih =>
    rw [Lexeme.blankRun] at h
    split at h
    · next more =>
      rw [Lexeme.blankRun_eq, Nat.zero_add, Nat.add_comm 1, List.take_succ_cons,
        List.drop_succ_cons, Text.byteLength_cons, ← Nat.add_assoc] at h
      rw [Bool.or_eq_true, Bool.and_eq_true, beq_iff_eq, bne_iff_ne] at more
      obtain ⟨bs, blank, tiles⟩ := ih more h
      exact ⟨_ :: bs, List.forall_mem_cons.2 ⟨rfl, blank⟩, single hc tiles⟩
    · exact ⟨[_], by simp, single hc h⟩

end Tiles

/-! ## What lexemes add to a state -/

/-- Whether a token is a line break. -/
def Token.isBreak (t : Token) : Bool := t.kind == .lineBreak

namespace Tokens

/-- The spans of the line breaks of a stream. -/
def breaks (ts : Tokens) : List Span := (ts.items.toList.filter Token.isBreak).map Token.span

/-- The tokens of a stream that are no line breaks. -/
def solids (ts : Tokens) : List Token := ts.items.toList.filter fun t => !t.isBreak

variable (ts : Tokens) {t : Token}

theorem breaks_push_break (h : t.isBreak = true) : (ts.push t).breaks = ts.breaks ++ [t.span] := by
  simp [breaks, push, h]

theorem breaks_push_solid (h : t.isBreak = false) : (ts.push t).breaks = ts.breaks := by
  simp [breaks, push, h]

theorem solids_push_break (h : t.isBreak = true) : (ts.push t).solids = ts.solids := by
  simp [solids, push, h]

theorem solids_push_solid (h : t.isBreak = false) : (ts.push t).solids = ts.solids ++ [t] := by
  simp [solids, push, h]

end Tokens

theorem Span.containsSpan_iff {a b : Span} :
    a.containsSpan b = true ↔ a.start ≤ b.start ∧ b.stop ≤ a.stop := by
  rw [containsSpan, Bool.and_eq_true, decide_eq_true_eq, decide_eq_true_eq]

theorem Span.containsSpan_merge {a s : Span} (b : Span) (h : a.containsSpan s = true) :
    (a.merge b).containsSpan s = true := by
  rw [containsSpan_iff] at h ⊢
  exact ⟨Nat.le_trans (Nat.min_le_left _ _) h.1, Nat.le_trans h.2 (Nat.le_max_left _ _)⟩

theorem Span.merge_containsSpan (a b : Span) : (a.merge b).containsSpan b = true :=
  containsSpan_iff.2 ⟨Nat.min_le_right _ _, Nat.le_max_right _ _⟩

namespace Lexing

/-- The spans of the line breaks that have been emitted or are pending. -/
def breaks (st : Lexing) : List Span :=
  st.tokens.breaks ++ st.pending.toList.map PendingBreak.span

/-- A span lies inside a line break. -/
def Covers (st : Lexing) (s : Span) : Prop := ∃ b ∈ st.breaks, b.containsSpan s = true

variable {st : Lexing} {kind : TokenKind} {r : Span}

theorem isBreak_solid (hk : kind ≠ .lineBreak) (s : Span) (spacing : Spacing) :
    (Token.mk kind s spacing).isBreak = false :=
  beq_eq_false_iff_ne.2 hk

/-- The line break that a token brings out was pending before. -/
theorem breaks_emit (hk : kind ≠ .lineBreak) (st : Lexing) (s : Span) :
    (st.emit kind s).tokens.breaks = st.breaks := by
  unfold emit breaks
  dsimp only
  rw [Tokens.breaks_push_solid _ (isBreak_solid hk s _)]
  cases st.pending with
  | none => exact (List.append_nil _).symm
  | some b => exact Tokens.breaks_push_break _ rfl

theorem solids_emit (hk : kind ≠ .lineBreak) (st : Lexing) (s : Span) :
    (st.emit kind s).tokens.solids = st.tokens.solids ++ [⟨kind, s, st.spacing⟩] := by
  unfold emit
  dsimp only
  rw [Tokens.solids_push_solid _ (isBreak_solid hk s _)]
  cases st.pending with
  | none => rfl
  | some b => exact congrArg (· ++ _) (Tokens.solids_push_break _ rfl)

/-- What lay inside a line break still does when a separator joins it. -/
theorem covers_separate (h : st.Covers r) (s : Span) (b : Bool) : (st.separate s b).Covers r := by
  obtain ⟨outer, hm, hc⟩ := h
  unfold Covers breaks separate at *
  cases hp : st.pending with
  | none =>
    rw [hp] at hm
    exact ⟨outer, List.mem_append_left _ (by simpa using hm), hc⟩
  | some pending =>
    rw [hp] at hm
    rcases List.mem_append.1 hm with hm | hm
    · exact ⟨outer, List.mem_append_left _ hm, hc⟩
    · rw [Option.toList_some, List.map_singleton, List.mem_singleton] at hm
      exact ⟨pending.span.merge s, List.mem_append_right _ (.head _),
        Span.containsSpan_merge s (hm ▸ hc)⟩

/-- A separator lies inside the line break that it joins or starts. -/
theorem covers_separated (st : Lexing) (s : Span) (b : Bool) : (st.separate s b).Covers s := by
  unfold Covers breaks separate
  cases st.pending with
  | none =>
    exact ⟨s, List.mem_append_right _ (.head _),
      Span.containsSpan_iff.2 ⟨Nat.le_refl _, Nat.le_refl _⟩⟩
  | some pending =>
    exact ⟨pending.span.merge s, List.mem_append_right _ (.head _), Span.merge_containsSpan _ s⟩

theorem covers_take (h : st.Covers r) (l : Lexeme) : (st.take l).Covers r := by
  rcases take_cases st l with ⟨_, e⟩ | ⟨b, _, e⟩ | ⟨_, _, _, e⟩ | ⟨kind, names, hk, e⟩ <;> rw [e]
  · exact h
  · exact covers_separate h _ b
  · exact h
  · obtain ⟨outer, hm, hc⟩ := h
    refine ⟨outer, ?_, hc⟩
    refine List.mem_append_left _ ?_
    rw [breaks_emit (kind?_plain hk).2]
    exact hm

theorem covers_foldl (h : st.Covers r) (ls : List Lexeme) : (ls.foldl take st).Covers r := by
  induction ls generalizing st with
  | nil => exact h
  | cons l ls ih => exact ih (covers_take h l)

/-- What the pieces `ps` of a text add to a state. -/
structure Adds (st st' : Lexing) (ps : List Piece) : Prop where
  tokens : st'.tokens.solids = st.tokens.solids ++ ps.filterMap Piece.token?
  comments : st'.comments.items.toList = st.comments.items.toList ++ ps.filterMap Piece.comment?

theorem Adds.trans {st' st'' : Lexing} {ps qs : List Piece} (h : Adds st st' ps)
    (h' : Adds st' st'' qs) : Adds st st'' (ps ++ qs) where
  tokens := by rw [h'.tokens, h.tokens, List.filterMap_append, List.append_assoc]
  comments := by rw [h'.comments, h.comments, List.filterMap_append, List.append_assoc]

theorem adds_nothing {ps : List Piece} (hps : ∀ p ∈ ps, p.role = .blank ∨ p.role = .separator)
    {st' : Lexing} (tokens : st'.tokens = st.tokens) (comments : st'.comments = st.comments) :
    Adds st st' ps := by
  have silent : ps.filterMap Piece.token? = [] ∧ ps.filterMap Piece.comment? = [] := by
    constructor <;>
    · refine List.filterMap_eq_nil_iff.2 fun p hp => ?_
      rcases hps p hp with e | e <;> simp [Piece.token?, Piece.comment?, e]
  constructor
  · rw [tokens, silent.1, List.append_nil]
  · rw [comments, silent.2, List.append_nil]

/-- A lexeme that is no run of blanks is a piece: it fits wherever the line breaks behind it still
cover what they covered. -/
theorem piece_of_take {c : Char} {cs : List Char} {l : Lexeme} (st : Lexing)
    (hl : l = ⟨(Lexeme.boundary c cs).1, c :: cs.take (Lexeme.boundary c cs).2⟩)
    (hk : l.kind ≠ .blanks) : ∃ p : Piece, p.text = l.text
      ∧ p.span = ⟨st.offset, st.offset + byteLength l.text⟩
      ∧ (∀ (last : Lexing) (behind : List Char), (∀ r, (st.take l).Covers r → last.Covers r) →
          p.Fits last.breaks behind)
      ∧ Adds st (st.take l) [p] := by
  let span : Span := ⟨st.offset, st.offset + byteLength l.text⟩
  rcases take_cases st l with ⟨blank, _⟩ | ⟨b, kind, e⟩ | ⟨k, n, _, e⟩ | ⟨kind, names, plain, e⟩
  · exact absurd blank hk
  · refine ⟨⟨.separator, l.text, span⟩, rfl, rfl, fun last _ covered => ⟨?_, covered _ ?_⟩, ?_⟩
    · rw [hl] at kind ⊢
      exact Lexeme.separator_of_boundary (kind.imp And.left And.left)
    · rw [e]
      exact covers_separated st span b
    · rw [e]
      exact adds_nothing (by simp) rfl rfl
  · let comment : Comment := ⟨String.ofList (Text.trim (l.text.drop n)), span, k⟩
    refine ⟨⟨.comment comment, l.text, span⟩, rfl, rfl, fun _ _ _ => rfl, ?_⟩
    rw [e]
    exact ⟨(List.append_nil _).symm, Array.toList_push⟩
  · refine ⟨⟨.token ⟨kind, span, st.spacing⟩, l.text, span⟩, rfl, rfl, fun _ _ _ => rfl, ?_⟩
    rw [e]
    exact ⟨solids_emit (kind?_plain plain).2 { st with names := names } _, (List.append_nil _).symm⟩

/-- The lexemes of a text add the tokens and comments among its pieces, and the separators lie
inside line breaks. -/
theorem tiles_lexemes (cs : List Char) (st : Lexing) :
    ∃ ps, Tiles ((Lexeme.lexemes cs).foldl take st).breaks st.offset cs ps
      ∧ Adds st ((Lexeme.lexemes cs).foldl take st) ps := by
  generalize hn : cs.length = n
  induction n using Nat.strongRecOn generalizing cs st with
  | ind n ih =>
    cases cs with
    | nil =>
      rw [Lexeme.lexemes_nil]
      exact ⟨[], .nil _, adds_nothing (by simp) rfl rfl⟩
    | cons c cs =>
      obtain ⟨l, hl⟩ : ∃ l : Lexeme,
          l = ⟨(Lexeme.boundary c cs).1, c :: cs.take (Lexeme.boundary c cs).2⟩ := ⟨_, rfl⟩
      rw [Lexeme.lexemes_cons, List.foldl_cons, ← hl]
      obtain ⟨ps, tiles, adds⟩ := ih _ (by
        rw [← hn, List.length_drop, List.length_cons]
        omega) (cs.drop (Lexeme.boundary c cs).2) (st.take l) rfl
      rw [offset_take] at tiles
      by_cases blank : l.kind = .blanks
      · have same : (st.take l).tokens = st.tokens ∧ (st.take l).comments = st.comments := by
          unfold take accept
          rw [blank]
          exact ⟨rfl, rfl⟩
        obtain ⟨first, run⟩ := Lexeme.blank_of_boundary (hl ▸ blank)
        rw [show l.text = _ from congrArg Lexeme.text hl, run] at tiles
        obtain ⟨bs, roles, whole⟩ := tiles.blanks first
        have silent : Adds st (st.take l) bs :=
          adds_nothing (fun p hp => .inl (roles p hp)) same.1 same.2
        rw [run] at adds ⊢
        exact ⟨bs ++ ps, whole, silent.trans adds⟩
      · obtain ⟨p, text, place, fits, added⟩ := piece_of_take st hl blank
        have whole : c :: cs = p.text ++ cs.drop (Lexeme.boundary c cs).2 := by
          rw [text, hl, List.cons_append, List.take_append_drop]
        rw [← text] at tiles place
        have nonempty : p.text ≠ [] := by
          rw [text, hl]
          exact List.cons_ne_nil _ _
        refine ⟨p :: ps, ?_, added.trans adds⟩
        rw [whole]
        exact .cons nonempty place (fits _ _ fun r hr => covers_foldl hr _) tiles

/-! ## Where tokens start and end -/

/-- The spans of tokens start and end where lexemes do. -/
theorem forall_spans_take {B : Nat → Prop} (h : ∀ s ∈ st.spans, B s.start ∧ B s.stop) {l : Lexeme}
    (before : B st.offset) (behind : B (st.take l).offset) :
    ∀ s ∈ (st.take l).spans, B s.start ∧ B s.stop := by
  rw [offset_take] at behind
  rcases take_cases st l with ⟨_, e⟩ | ⟨b, _, e⟩ | ⟨_, _, _, e⟩ | ⟨kind, names, hk, e⟩ <;> rw [e]
  · exact h
  · intro s hs
    unfold spans separate at *
    cases hp : st.pending with
    | none =>
      rw [hp] at h hs
      rcases List.mem_append.1 hs with hs | hs
      · exact h s (List.mem_append_left _ hs)
      · rw [List.mem_singleton.1 hs]
        exact ⟨before, behind⟩
    | some pending =>
      rw [hp] at h hs
      rcases List.mem_append.1 hs with hs | hs
      · exact h s (List.mem_append_left _ hs)
      · have ⟨start, stop⟩ := h pending.span (List.mem_append_right _ (.head _))
        rw [List.mem_singleton.1 hs]
        refine ⟨?_, ?_⟩
        · show B (min _ _)
          rcases Nat.le_total pending.span.start st.offset with le | le
          · rwa [Nat.min_eq_left le]
          · rwa [Nat.min_eq_right le]
        · show B (max _ _)
          rcases Nat.le_total pending.span.stop (st.offset + byteLength l.text) with le | le
          · rwa [Nat.max_eq_right le]
          · rwa [Nat.max_eq_left le]
  · exact h
  · intro s hs
    have emitted : s ∈ st.spans ++ [⟨st.offset, st.offset + byteLength l.text⟩] :=
      spans_emit { st with names := names } kind _ ▸ hs
    rcases List.mem_append.1 emitted with hs | hs
    · exact h s hs
    · rw [List.mem_singleton.1 hs]
      exact ⟨before, behind⟩

/-- Lexemes start and end where characters do, and so do the spans of tokens. -/
theorem isBoundary_foldl {text done : List Char} {ls : List Lexeme} {st : Lexing}
    (htext : done ++ ls.flatMap Lexeme.text = text) (hoffset : st.offset = byteLength done)
    (h : ∀ s ∈ st.spans, Text.IsBoundary text s.start ∧ Text.IsBoundary text s.stop) :
    ∀ s ∈ (ls.foldl take st).spans, Text.IsBoundary text s.start ∧ Text.IsBoundary text s.stop := by
  induction ls generalizing done st with
  | nil => exact h
  | cons l ls ih =>
    rw [List.flatMap_cons, ← List.append_assoc] at htext
    have offset : (st.take l).offset = byteLength (done ++ l.text) := by
      rw [offset_take, hoffset, Text.byteLength_append]
    refine ih htext offset (forall_spans_take h ?_ ?_)
    · rw [hoffset, ← htext, List.append_assoc]
      exact Text.isBoundary_append _ _
    · rw [offset, ← htext]
      exact Text.isBoundary_append _ _

end Lexing

/-! ## Line breaks stand apart -/

open Lexeme (Sign told untold pendingBreak Proper)

/-- Two kinds that are not both line breaks. -/
def Apart (k k' : TokenKind) : Prop := ¬ (k = .lineBreak ∧ k' = .lineBreak)

/-- A line break is told in front of a token, so two of them are never told in a row. -/
theorem isChain_told {ss : List Sign} (h : Proper ss) (pending : Option Bool) :
    ((told pending ss ++ (pendingBreak (untold pending ss) ++ [(TokenKind.eof, false)])).map
      Prod.fst).IsChain Apart := by
  have led (pending : Option Bool) {kind : TokenKind} {rs : List (TokenKind × Bool)}
      (hk : kind ≠ .lineBreak) (hrs : (rs.map Prod.fst).IsChain Apart) :
      ((pendingBreak pending ++ (kind, false) :: rs).map Prod.fst).IsChain Apart := by
    have token : (kind :: rs.map Prod.fst).IsChain Apart := by
      cases rs with
      | nil => exact .singleton _
      | cons r rs => exact .cons_cons (fun both => hk both.1) hrs
    cases pending with
    | none => exact token
    | some b => exact .cons_cons (fun both => hk both.2) token
  induction ss generalizing pending with
  | nil => exact led pending (TokenKind.ne_of_tag Tag.noConfusion) .nil
  | cons s ss ih =>
    cases s with
    | token kind =>
      rw [told, List.append_assoc]
      exact led pending (h kind (.head _)).2 (ih h.tail none)
    | separator isSemicolon => exact ih h.tail _
    | doc _ => exact ih h.tail _

theorem lexChars_apart (cs : List Char) (names : NameTable) :
    ((lexChars cs names).tokens.items.toList.map Token.kind).IsChain Apart := by
  have readings := lexChars_readings cs names
  have kinds : (lexChars cs names).tokens.items.toList.map Token.kind
      = (lexChars cs names).tokens.readings.map Prod.fst := by
    rw [Tokens.readings, List.map_map]
    rfl
  rw [kinds, readings]
  exact isChain_told (Lexeme.proper_signs _) none

/-! ## Whole texts -/

/-- The offset behind the first line, if that has been set apart. -/
def Lexed.bodyStart (out : Lexed) : Nat := (out.shebang.map fun line => line.span.stop).getD 0

/-- What has been read from a text loses nothing of it: the tokens `body` and the end, the comments,
and the `pieces` behind the first line. -/
structure Lexed.Lossless (text : List Char) (out : Lexed) (body : List Token)
    (pieces : List Piece) : Prop where
  /-- The stream ends in a token for the end of the text, -/
  tokens : ∃ spacing, out.tokens.items.toList
    = body ++ [⟨.eof, .point (byteLength text), spacing⟩]
  /-- which is the only one of its kind. -/
  open_ended : ∀ t ∈ body, t.kind ≠ .eof
  /-- No line break follows another. -/
  apart : (out.tokens.items.toList.map Token.kind).IsChain Apart
  /-- Tokens are not empty, stand in order behind the first line and do not overlap. -/
  ordered : Increasing out.bodyStart (byteLength text) (body.map Token.span)
  /-- Tokens start and end where characters do. -/
  boundaries : ∀ t ∈ out.tokens.items.toList,
    Text.IsBoundary text t.span.start ∧ Text.IsBoundary text t.span.stop
  /-- Comments are not empty, stand in order behind the first line and do not overlap, -/
  comments : Increasing out.bodyStart (byteLength text) (out.comments.items.toList.map Comment.span)
  /-- and overlap with no token but line breaks. -/
  disjoint : ∀ c ∈ out.comments.items.toList, ∀ t ∈ body, t.kind ≠ .lineBreak →
    c.span.stop ≤ t.span.start ∨ t.span.stop ≤ c.span.start
  /-- The pieces follow each other from the first line on and are what is behind it, -/
  tiles : ∃ behind, Text.dropBytes? out.bodyStart text = some behind
    ∧ Tiles out.tokens.breaks out.bodyStart behind pieces
  /-- among them exactly the tokens that are no line breaks, -/
  tokenPieces : pieces.filterMap Piece.token? = body.filter fun t => !t.isBreak
  /-- and exactly the comments. -/
  commentPieces : pieces.filterMap Piece.comment? = out.comments.items.toList
  /-- Every byte behind the first line is in one piece and in no other. -/
  bytes : ∀ n, out.bodyStart ≤ n → n < byteLength text →
    ∃ p ∈ pieces, p.span.contains n = true ∧ ∀ q ∈ pieces, q.span.contains n = true → q = p
  /-- The text can be put together again from its first line and the pieces. -/
  rebuilt : text = ((out.shebang.map fun line => line.text.toList).getD [])
    ++ pieces.flatMap Piece.text

theorem append_behindShebang (cs : List Char) : (shebangOf cs).getD [] ++ behindShebang cs = cs := by
  unfold behindShebang
  cases h : shebangOf cs with
  | none => rfl
  | some line => exact (List.prefix_iff_eq_append.1 (isPrefix_shebangOf h))

theorem bodyStart_lexChars (cs : List Char) (names : NameTable) :
    (lexChars cs names).bodyStart = shebangLength cs := by
  unfold Lexed.bodyStart lexChars lexCharsAs shebangLength
  cases shebangOf cs <;> rfl

/-- The state behind the last lexeme of a text. -/
def Lexing.last (cs : List Char) (names : NameTable) : Lexing :=
  (Lexeme.lexemes (behindShebang cs)).foldl Lexing.take (.start names (shebangLength cs))

theorem lexChars_last (cs : List Char) (names : NameTable) :
    (lexChars cs names).tokens = (Lexing.last cs names).finish.tokens
      ∧ (lexChars cs names).comments = (Lexing.last cs names).comments :=
  ⟨rfl, rfl⟩

theorem isBoundary_lexChars (cs : List Char) (names : NameTable) :
    ∀ t ∈ (lexChars cs names).tokens.items.toList,
      Text.IsBoundary cs t.span.start ∧ Text.IsBoundary cs t.span.stop := by
  have offset : (Lexing.last cs names).offset = byteLength cs := (ordered_lexemes cs names).2
  have within : ∀ s ∈ (Lexing.last cs names).spans, _ ∧ _ :=
    Lexing.isBoundary_foldl (by rw [Lexeme.flatMap_text_lexemes, append_behindShebang cs]) rfl
      (by simp [Lexing.start, Lexing.spans, Tokens.empty])
  have spans := Lexing.spans_emit (Lexing.last cs names) .eof (.point (byteLength cs))
  intro t ht
  rw [(lexChars_last cs names).1, Lexing.finish, offset] at ht
  have ht := List.mem_append_left
    (((Lexing.last cs names).emit .eof (.point (byteLength cs))).pending.toList.map PendingBreak.span)
    (List.mem_map_of_mem (f := Token.span) ht)
  rw [← Lexing.spans, spans] at ht
  rcases List.mem_append.1 ht with ht | ht
  · exact within t.span ht
  · rw [List.mem_singleton.1 ht]
    have last := Text.isBoundary_append cs []
    rw [List.append_nil] at last
    exact ⟨last, last⟩

/-- Reading a text loses nothing of it. -/
theorem lex_lossless (source : String) (names : NameTable) :
    ∃ body pieces, (lex source names).Lossless source.toList body pieces := by
  unfold lex
  generalize source.toList = cs
  obtain ⟨body, spacing, tokens, open_ended, ordered⟩ := lexChars_tokens cs names
  obtain ⟨pieces, tiles, adds⟩ := Lexing.tiles_lexemes (behindShebang cs) (.start names (shebangLength cs))
  rw [← Lexing.last] at tiles adds
  have ⟨last, comments⟩ := lexChars_last cs names
  have first := bodyStart_lexChars cs names
  have breaks : (lexChars cs names).tokens.breaks = (Lexing.last cs names).breaks := by
    rw [last, Lexing.finish, Lexing.breaks_emit (TokenKind.ne_of_tag Tag.noConfusion)]
  have tokenPieces : pieces.filterMap Piece.token? = body.filter fun t => !t.isBreak := by
    have solids : (Lexing.last cs names).finish.tokens.solids = _ :=
      Lexing.solids_emit (TokenKind.ne_of_tag Tag.noConfusion) (Lexing.last cs names) (.point (Lexing.last cs names).offset)
    rw [← last, Tokens.solids, tokens, List.filter_append, adds.tokens] at solids
    exact (List.append_inj_left' solids rfl).symm
  have commentPieces : pieces.filterMap Piece.comment? = (lexChars cs names).comments.items.toList := by
    rw [comments, adds.comments]
    rfl
  have bytes := byteLength_behind_shebang cs
  refine ⟨body, pieces, ⟨⟨spacing, tokens⟩, open_ended, lexChars_apart cs names, ?_,
    isBoundary_lexChars cs names, ?_, ?_, ⟨behindShebang cs, ?_, ?_⟩, tokenPieces, commentPieces,
    ?_, ?_⟩⟩
  · rwa [first]
  · rw [first]
    exact lexChars_comments cs names
  · intro c hc t ht hk
    refine tiles.comment_token (commentPieces ▸ hc) ?_
    rw [tokenPieces]
    exact List.mem_filter.2 ⟨ht, by simp [Token.isBreak, hk]⟩
  · have cut := Text.dropBytes?_append ((shebangOf cs).getD []) (behindShebang cs)
    rwa [append_behindShebang, ← shebangLength, ← first] at cut
  · rw [first, breaks]
    exact tiles
  · rw [first]
    intro n low high
    refine tiles.exists_unique low ?_
    rw [← bytes] at high
    exact high
  · have line : ((lexChars cs names).shebang.map fun line => line.text.toList).getD []
        = (shebangOf cs).getD [] := by
      unfold lexChars lexCharsAs
      cases shebangOf cs with
      | none => rfl
      | some line => exact String.toList_ofList
    rw [line, tiles.flatMap_text, append_behindShebang]

end Surface
