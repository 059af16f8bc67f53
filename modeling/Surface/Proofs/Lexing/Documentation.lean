import Surface.Proofs.Lexing.Places

/-!
# Where documentation stands

The lexemes of a text stand in order, and what they mean is told in this order. So the documentation
between two offsets is what the lexemes between them say, and a token of the stream has the span of the
lexeme that it comes from.

Results:
* `signs_placed`, `increasing_placed`: the lexemes of a text in their places.
* `docs_between`: the documentation between two offsets.
* `span_of_sign`: where the token of a lexeme stands.
-/

namespace Surface

open Text (byteLength)
open Lexeme (Sign signs told untold pendingBreak placed)

/-- What a placed lexeme means. -/
def Placed.sign? (p : Placed) : Option Sign := Lexeme.sign? p.lexeme

theorem signs_placed (cs : List Char) :
    (placedLexemes cs).filterMap Placed.sign? = signs (behindShebang cs) := by
  have general (ls : List Lexeme) (offset : Nat) :
      (placed offset ls).filterMap Placed.sign? = ls.filterMap Lexeme.sign? := by
    induction ls generalizing offset with
    | nil => rfl
    | cons l ls ih =>
      rw [placed, List.filterMap_cons, List.filterMap_cons, ih]
      rfl
  exact general _ _

theorem increasing_placed (cs : List Char) :
    Increasing (shebangLength cs) (byteLength cs) ((placedLexemes cs).map Placed.span) := by
  have general (ls : List Lexeme) (hls : ∀ l ∈ ls, l.text ≠ []) (offset : Nat) :
      Increasing offset (offset + byteLength (ls.flatMap Lexeme.text))
        ((placed offset ls).map Placed.span) := by
    induction ls generalizing offset with
    | nil => exact Nat.le_refl _
    | cons l ls ih =>
      obtain ⟨first, rest⟩ := List.forall_mem_cons.1 hls
      have pos := Text.byteLength_pos first
      have behind := ih rest (offset + byteLength l.text)
      rw [List.flatMap_cons, Text.byteLength_append, ← Nat.add_assoc]
      exact ⟨Nat.le_refl _, by show offset < offset + byteLength l.text; omega, behind⟩
  have all := general (Lexeme.lexemes (behindShebang cs)) Lexeme.text_ne_nil (shebangLength cs)
  rw [Lexeme.flatMap_text_lexemes] at all
  exact all.widen (Nat.le_of_eq (byteLength_behind_shebang cs))

/-- A lexeme stands behind those before it, and those behind it stand behind it. -/
theorem bounds_of_split {cs : List Char} {before behind : List Placed} {p : Placed}
    (split : placedLexemes cs = before ++ p :: behind) : p.span.start < p.span.stop
      ∧ (∀ x ∈ before, x.span.start < x.span.stop ∧ x.span.stop ≤ p.span.start)
      ∧ ∀ x ∈ behind, p.span.stop ≤ x.span.start ∧ x.span.start < x.span.stop := by
  have increasing := increasing_placed cs
  rw [split] at increasing
  have nonempty (x) (hx : x ∈ before ++ p :: behind) : x.span.start < x.span.stop :=
    (increasing.bounds (List.mem_map_of_mem hx)).2.1
  obtain ⟨-, rest, across⟩ := List.pairwise_append.1 (List.pairwise_map.1 increasing.pairwise)
  exact ⟨nonempty p (by simp), fun x hx => ⟨nonempty x (by simp [hx]), across x hx p List.mem_cons_self⟩,
    fun x hx => ⟨(List.pairwise_cons.1 rest).1 x hx, nonempty x (by simp [hx])⟩⟩

/-! ## Comments between two offsets -/

/-- Comments that are split where two offsets split them. -/
theorem Comments.inRange_eq {cs : Comments} {before inside behind : List Comment} {start stop : Nat}
    (split : cs.items.toList = before ++ (inside ++ behind))
    (hbefore : ∀ c ∈ before, c.span.start < start ∧ c.span.stop ≤ stop)
    (hinside : ∀ c ∈ inside, start ≤ c.span.start ∧ c.span.stop ≤ stop)
    (hbehind : ∀ c ∈ behind, start ≤ c.span.start ∧ stop < c.span.stop)
    {low high : Nat} (increasing : Increasing low high (cs.items.toList.map Comment.span)) :
    (cs.inRange start stop).toList = inside := by
  have sorted := List.pairwise_map.1 increasing.sorted
  have first : cs.items.toList.countP (fun c => c.span.start < start) = before.length := by
    rw [split, List.countP_append, List.countP_append,
      List.countP_eq_length.2 fun c hc => decide_eq_true (hbefore c hc).1,
      List.countP_eq_zero.2 fun c hc => by simpa using (hinside c hc).1,
      List.countP_eq_zero.2 fun c hc => by simpa using (hbehind c hc).1]
    rfl
  have last : cs.items.toList.countP (fun c => c.span.stop ≤ stop) = before.length + inside.length := by
    rw [split, List.countP_append, List.countP_append,
      List.countP_eq_length.2 fun c hc => decide_eq_true (hbefore c hc).2,
      List.countP_eq_length.2 fun c hc => decide_eq_true (hinside c hc).2,
      List.countP_eq_zero.2 fun c hc => by simpa using (hbehind c hc).2]
    rfl
  unfold Comments.inRange
  rw [partitionPoint_eq_countP, partitionPoint_eq_countP, first, last, Array.toList_extract,
    List.extract_eq_take_drop, split, List.drop_left, Nat.add_sub_cancel_left, List.take_left]
  · exact sorted.imp fun {a b} hab hb => by simp only [decide_eq_true_eq] at hb ⊢; omega
  · exact sorted.imp fun {a b} hab hb => by simp only [decide_eq_true_eq] at hb ⊢; omega

/-! ## Tokens in their places -/

/-- The token that a sign is. -/
def Lexeme.Sign.kind? : Sign → Option TokenKind
  | .token k => some k
  | _ => none

/-- The kinds of tokens that are no line breaks. -/
def wordKinds (rs : List (TokenKind × Bool)) : List TokenKind :=
  (rs.filter fun r => r.1 != .lineBreak && r.1 != .eof).map Prod.fst

theorem wordKinds_append (rs rs' : List (TokenKind × Bool)) :
    wordKinds (rs ++ rs') = wordKinds rs ++ wordKinds rs' := by
  unfold wordKinds
  rw [List.filter_append, List.map_append]

theorem wordKinds_pendingBreak (pending : Option Bool) : wordKinds (pendingBreak pending) = [] := by
  cases pending <;> rfl

theorem wordKinds_told {ss : List Sign} (h : Lexeme.Proper ss) (pending : Option Bool) :
    wordKinds (told pending ss) = ss.filterMap Sign.kind? := by
  induction ss generalizing pending with
  | nil => rfl
  | cons s ss ih =>
    cases s with
    | token k =>
      obtain ⟨eof, lineBreak⟩ := h k (.head _)
      have first : wordKinds ((k, false) :: told none ss) = k :: wordKinds (told none ss) := by
        unfold wordKinds
        rw [List.filter_cons_of_pos (by simp [eof, lineBreak])]
        rfl
      rw [told, wordKinds_append, wordKinds_pendingBreak, List.nil_append, first, ih h.tail]
      rfl
    | separator isSemicolon => exact ih h.tail _
    | doc _ => exact ih h.tail _

namespace Placed

theorem word?_eq (p : Placed) : p.word? = (p.sign?.bind Sign.kind?).map fun k => (k, p.span) := by
  unfold word? sign? Lexeme.sign?
  obtain ⟨⟨k, text⟩, s⟩ := p
  cases k <;> first | rfl | (dsimp only; cases Lexeme.kind? _ <;> rfl)

theorem words_kinds (ps : List Placed) : (ps.filterMap word?).map Prod.fst
    = (ps.filterMap sign?).filterMap Sign.kind? := by
  induction ps with
  | nil => rfl
  | cons p ps ih =>
    have word := p.word?_eq
    rw [List.filterMap_cons, List.filterMap_cons, word]
    cases hs : p.sign? with
    | none => exact ih
    | some s =>
      rw [Option.bind_some, List.filterMap_cons]
      cases hk : s.kind? with
      | none => exact ih
      | some k => exact congrArg (k :: ·) ih

end Placed

/-- The position of a token behind signs. -/
def Lexeme.position (ss : List Sign) : Nat := (told none ss ++ pendingBreak (untold none ss)).length

/-- The token that a sign is stands behind the tokens that are told before it. -/
theorem readings_of_sign {cs : List Char} {ss ss' : List Sign} {k : TokenKind}
    (h : signs (behindShebang cs) = ss ++ .token k :: ss') (names : NameTable) :
    ∃ rs, (lexChars cs names).tokens.readings
      = (told none ss ++ pendingBreak (untold none ss)) ++ (k, false) :: rs := by
  refine ⟨told none ss' ++ (pendingBreak (untold none ss') ++ [(.eof, false)]), ?_⟩
  rw [lexChars_readings, h, Lexeme.told_append, Lexeme.untold_append]
  simp only [told, untold, List.append_assoc, List.cons_append]

/-- The token of a lexeme has the span of the lexeme. -/
theorem span_of_sign {cs : List Char} {before behind : List Placed} {p : Placed} {k : TokenKind}
    (split : placedLexemes cs = before ++ p :: behind) (hp : p.sign? = some (.token k))
    (names : NameTable) : ((lexChars cs names).tokens.get
      (Lexeme.position (before.filterMap Placed.sign?))).span = p.span := by
  have all := signs_placed cs
  rw [split, List.filterMap_append, List.filterMap_cons_some hp] at all
  have proper : Lexeme.Proper (before.filterMap Placed.sign?) := fun k' hk' =>
    Lexeme.proper_signs (behindShebang cs) k' (by rw [← all]; exact List.mem_append_left _ hk')
  have plain := Lexeme.proper_signs (behindShebang cs) k (by rw [← all]; simp)
  obtain ⟨rs, readings⟩ := readings_of_sign all.symm names
  obtain ⟨first, rest, items, firsts, rests⟩ := List.map_eq_append_iff.1 readings
  obtain ⟨t, others, rfl, reading, -⟩ := List.map_eq_cons_iff.1 rests
  have kind : t.kind = k := congrArg Prod.fst reading
  have here : (lexChars cs names).tokens.get (Lexeme.position (before.filterMap Placed.sign?)) = t := by
    have length : Lexeme.position (before.filterMap Placed.sign?) = first.length := by
      rw [Lexeme.position, ← firsts, List.length_map]
    unfold Tokens.get Tokens.get?
    rw [length, ← Array.getElem?_toList, items, List.getElem?_append_right (Nat.le_refl _), Nat.sub_self]
    rfl
  -- as many words stand before the token as before the lexeme
  have words := (lexChars_placed cs names).1
  have word : p.word? = some (k, p.span) := by rw [p.word?_eq, hp]; rfl
  unfold Tokens.words at words
  rw [items, split, List.filter_append, List.map_append, List.filterMap_append,
    List.filterMap_cons_some word, List.filter_cons_of_pos (by simp [kind, plain])] at words
  have count : ((first.filter fun t => t.kind != .lineBreak && t.kind != .eof).map
      fun t => (t.kind, t.span)).length = (before.filterMap Placed.word?).length := by
    have kinds := Placed.words_kinds before
    rw [← wordKinds_told proper none, ← List.append_nil (wordKinds _),
      ← wordKinds_pendingBreak (untold none (before.filterMap Placed.sign?)), ← wordKinds_append, ← firsts]
      at kinds
    have lengths := congrArg List.length kinds
    unfold wordKinds at lengths
    rw [List.filter_map, List.length_map, List.length_map, List.length_map] at lengths
    rw [List.length_map]
    exact lengths.symm
  obtain ⟨-, same⟩ := List.append_inj words count
  rw [here]
  exact congrArg Prod.snd (List.cons.inj same).1

/-- The lexeme of a token among signs. -/
theorem split_at_token {ps : List Placed} {ss ss' : List Sign} {k : TokenKind}
    (h : ps.filterMap Placed.sign? = ss ++ .token k :: ss') : ∃ before p behind,
      ps = before ++ p :: behind ∧ before.filterMap Placed.sign? = ss ∧ p.sign? = some (.token k)
        ∧ behind.filterMap Placed.sign? = ss' := by
  obtain ⟨before, others, rfl, rfl, rest⟩ := List.filterMap_eq_append_iff.1 h
  obtain ⟨nothing, p, behind, rfl, none, hp, rest⟩ := List.filterMap_eq_cons_iff.1 rest
  refine ⟨before ++ nothing, p, behind, (List.append_assoc _ _ _).symm, ?_, hp, rest⟩
  rw [List.filterMap_append, List.filterMap_eq_nil_iff.2 none, List.append_nil]

/-! ## Documentation between tokens -/

/-- The comments of lexemes between two offsets are documentation if the lexemes say so. -/
theorem docs_of_placed (ps : List Placed) :
    ((ps.filterMap Placed.comment?).filter Comment.isDoc).map Comment.content
      = (ps.filterMap Placed.sign?).filterMap Sign.doc? := by
  induction ps with
  | nil => rfl
  | cons p ps ih =>
    have one : ((p.comment?.toList).filter Comment.isDoc).map Comment.content
        = (p.sign?.toList).filterMap Sign.doc? := by
      unfold Placed.comment? Placed.sign? Lexeme.sign?
      obtain ⟨⟨k, text⟩, s⟩ := p
      cases k <;> first | rfl | (dsimp only; cases Lexeme.kind? _ <;> rfl)
    have split {α β : Type} (f : α → Option β) (x : α) (xs : List α) :
        (x :: xs).filterMap f = (f x).toList ++ xs.filterMap f := by
      rw [List.filterMap_cons]
      cases f x <;> rfl
    rw [split, split, List.filter_append, List.map_append, List.filterMap_append, one, ih]

theorem span_of_comment {p : Placed} {c : Comment} (h : p.comment? = some c) : c.span = p.span := by
  unfold Placed.comment? at h
  split at h <;> cases h <;> rfl

/-- The documentation between an offset, which splits the lexemes, and a token behind it. -/
theorem docs_between {cs : List Char} {before inside behind : List Placed} {p : Placed} {k : TokenKind}
    (split : placedLexemes cs = before ++ (inside ++ p :: behind)) (hp : p.sign? = some (.token k))
    {start : Nat} (hbefore : ∀ x ∈ before, x.span.start < start)
    (hinside : ∀ x ∈ inside ++ p :: behind, start ≤ x.span.start) (names : NameTable) :
    (((lexChars cs names).comments.inRange start p.span.start).toList.filter Comment.isDoc).map
      Comment.content = (inside.filterMap Placed.sign?).filterMap Sign.doc? := by
  obtain ⟨size, above, below⟩ := bounds_of_split (split.trans (List.append_assoc _ _ _).symm)
  have comments := (lexChars_placed cs names).2
  have none : p.comment? = none := by
    have word : p.word? = some (k, p.span) := by rw [p.word?_eq, hp]; rfl
    unfold Placed.word? at word
    unfold Placed.comment?
    split
    · next comment => rw [Lexeme.kind?, comment] at word; cases word
    · next comment => rw [Lexeme.kind?, comment] at word; cases word
    · rfl
  rw [split, List.filterMap_append, List.filterMap_append, List.filterMap_cons_none none] at comments
  rw [Comments.inRange_eq comments ?_ ?_ ?_ (lexChars_comments cs names), docs_of_placed]
  all_goals
    intro c hc
    obtain ⟨x, hx, h⟩ := List.mem_filterMap.1 hc
    rw [span_of_comment h]
  · exact ⟨hbefore x hx, (above x (List.mem_append_left _ hx)).2⟩
  · exact ⟨hinside x (List.mem_append_left _ hx), (above x (List.mem_append_right _ hx)).2⟩
  · have behind := below x hx
    exact ⟨hinside x (by simp [hx]), by omega⟩

end Surface
