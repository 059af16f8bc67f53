import Surface.Proofs.Grammar.Brackets
import Surface.Proofs.Lexing.Readings
import Surface.Proofs.Parallel.Aligned

/-!
# A stream that goes on in another line

Where a stream ends, another one may go on in a new line. Both hold the same tokens up to there. If
brackets nest properly among these tokens and nothing at the end of them asks for more, reading does
the same on both sides and stops before the new line.

Results:
* `Walled`: a stream that goes on where another one ends.
* `pastBreaks_walled`, `resumeAt_walled`: line breaks and recovery do not lead over the end.
* `Bridge.ofWalled`: the bridge between the two.
-/

namespace Surface

open Groups (nests groupEnd tagsOf)

/-! ## What the grammar sees of a stream -/

namespace Tokens

theorem size_eq (ts : Tokens) : ts.size = ts.readings.length := (List.length_map ..).symm

theorem tagsOf_eq (ts : Tokens) : tagsOf ts = ts.readings.map fun r => r.1.tag := by
  unfold tagsOf readings
  rw [List.map_map]
  rfl

end Tokens

/-! ## Up to the end of what is shared -/

section

variable {ts ts' : Tokens} {wall : Nat} (tag : ∀ p < wall, ts'.tag p = ts.tag p)

include tag

/-- Line breaks inside lead to a place inside, before the end of the group. -/
theorem pastBreaks_walled {stop q : Nat} (last : ∀ p, p + 1 = wall → ts.tag p ≠ .lineBreak)
    (hstop : stop < wall → ts.tag stop ≠ .lineBreak) (hle : q ≤ stop) (lt : q < wall) :
    pastBreaks ts' q = pastBreaks ts q ∧ pastBreaks ts q ≤ stop ∧ pastBreaks ts q < wall := by
  generalize hn : wall - q = n
  induction n using Nat.strongRecOn generalizing q with
  | ind n ih =>
    rw [pastBreaks_step ts', pastBreaks_step ts, tag q lt]
    by_cases hb : ts.tag q = .lineBreak
    · have ne : q ≠ stop := by
        rintro rfl
        exact hstop lt hb
      have more : q + 1 ≠ wall := fun e => last q e hb
      rw [if_pos hb, if_pos hb]
      exact ih (wall - (q + 1)) (by omega) (by omega) (by omega) rfl
    · rw [if_neg hb, if_neg hb]
      exact ⟨rfl, hle, lt⟩

/-- Recovery stops at a place that ends it, if it starts among tags before that place which nest. -/
theorem resumeAt_walled {stop : Nat} {boundary : TagSet} {inside : List Tag} {awaited : List Punct}
    {depth : Nat} {c c' : Cursor}
    (ends : ∀ ts'' : Tokens, ts'' = ts ∨ ts'' = ts' →
      ts''.tag stop = .eof ∨ (ts''.tag stop).isOpener = false ∧ boundary.contains (ts''.tag stop) = true)
    (hstop : stop ≤ wall) (htags : ∀ i t, inside[i]? = some t → ts.tag (c.position + i) = t)
    (hlen : c.position + inside.length = stop) (nested : nests awaited inside = true)
    (hd : depth ≤ awaited.length) (hc : c'.position = c.position)
    (hs : c.skipsBreaks = false) (hs' : c'.skipsBreaks = false) :
    (c'.resumeAt ts' boundary depth).position = (c.resumeAt ts boundary depth).position
      ∧ (c.resumeAt ts boundary depth).position ≤ stop := by
  induction inside generalizing awaited depth c c' with
  | nil =>
    have none : awaited = [] := by
      cases awaited with
      | nil => rfl
      | cons => cases nested
    rw [none, List.length_nil, Nat.le_zero] at hd
    have here (ts'' : Tokens) (h : ts'' = ts ∨ ts'' = ts') {c'' : Cursor} (hc : c''.position = stop) :
        c''.resumeAt ts'' boundary 0 = c'' := by
      rw [c''.resumeAt_step]
      unfold Cursor.tag
      rw [hc]
      rcases ends ts'' h with he | ⟨ho, hb⟩
      · rw [if_pos he]
      · rw [ho, hb]
        simp
    subst hd
    rw [here ts (.inl rfl) hlen, here ts' (.inr rfl) (hc.trans hlen)]
    exact ⟨hc, Nat.le_of_eq hlen⟩
  | cons t inside ih =>
    rw [List.length_cons] at hlen
    have here : ts.tag c.position = t := htags 0 t rfl
    have here' : c'.tag ts' = t := by
      unfold Cursor.tag
      rw [hc, tag _ (by omega), here]
    have here : c.tag ts = t := here
    have stay : c'.position = c.position ∧ c.position ≤ stop := ⟨hc, by omega⟩
    rw [c'.resumeAt_step, c.resumeAt_step, here, here']
    by_cases he : t = .eof
    · rw [if_pos he, if_pos he]
      exact stay
    rw [if_neg he, if_neg he]
    have go {d : Nat} {awaited' : List Punct} (nested : nests awaited' inside = true)
        (hd : d ≤ awaited'.length) :
        ((c'.step ts').resumeAt ts' boundary d).position = ((c.step ts).resumeAt ts boundary d).position
          ∧ ((c.step ts).resumeAt ts boundary d).position ≤ stop := by
      have next : (c.step ts).position = c.position + 1 := by
        rw [Grammar.step_of_ne_eof (here ▸ he), hs]
        rfl
      have next' : (c'.step ts').position = c.position + 1 := by
        rw [Grammar.step_of_ne_eof (here' ▸ he), hs', ← hc]
        rfl
      refine ih (fun i u hu => ?_) (by omega) nested hd (next'.trans next.symm)
        (by rw [Grammar.skipsBreaks_step, hs]) (by rw [Grammar.skipsBreaks_step, hs'])
      rw [next, Nat.add_assoc, Nat.add_comm 1]
      exact htags (i + 1) u hu
    rcases Groups.nests_cons nested with ⟨p, hp, h⟩ | ⟨p, others, rfl, rfl, hcl, h⟩ | ⟨ho, hcl, h⟩
    · rw [if_pos (Groups.isOpener_of_closing hp), if_pos (Groups.isOpener_of_closing hp)]
      exact go h (Nat.succ_le_succ hd)
    · have ho : ¬ (Tag.punct p).isOpener = true := by
        rw [Tag.isOpener_of_isCloser hcl]
        exact Bool.false_ne_true
      rw [if_neg ho, if_neg ho, if_pos hcl, if_pos hcl]
      rw [List.length_cons] at hd
      split
      · exact stay
      · exact go h (by omega)
    · rw [if_neg ho, if_neg hcl, if_neg ho, if_neg hcl]
      split
      · exact stay
      · exact go h hd

end

namespace Grammar

/-! ## A stream that goes on in another line -/

/-- The second stream goes on in another line where the first one ends, behind tokens among which
brackets nest, without attributes, and which ask for nothing more at their end. -/
structure Walled (left right : Setting) (core : List (TokenKind × Bool)) : Prop where
  left_readings : ∃ b, left.input.tokens.readings = core ++ (Lexeme.pendingBreak b ++ [(.eof, false)])
  right_readings : ∃ b rest, right.input.tokens.readings = core ++ (.lineBreak, b) :: rest
    ∧ ∀ r, rest.head? = some r → r.1 ≠ .lineBreak ∧ r.1 ≠ .keyword .elseKw
  nested : nests [] (core.map fun r => r.1.tag) = true
  plain : ∀ r ∈ core, r.1 ≠ .eof ∧ r.1 ≠ .punct .atSign
  last : ∀ r, core.getLast? = some r → r.1 ≠ .lineBreak ∧ runOnTags.contains r.1.tag = false
  dialect : right.input.dialect = left.input.dialect
  left_docs : ∀ docsFrom p, left.docs docsFrom p = []
  right_docs : ∀ docsFrom p, right.docs docsFrom p = []
  left_groups : left.input.groups = .ofTokens left.input.tokens
  right_groups : right.input.groups = .ofTokens right.input.tokens
  flawed : left.flawed

namespace Walled

variable {left right : Setting} {core : List (TokenKind × Bool)} (h : Walled left right core)

include h

theorem left_shared {p : Nat} (hp : p < core.length) : left.input.tokens.readings[p]? = some core[p] := by
  obtain ⟨b, e⟩ := h.left_readings
  rw [e, List.getElem?_append_left hp, List.getElem?_eq_getElem hp]

theorem right_shared {p : Nat} (hp : p < core.length) :
    right.input.tokens.readings[p]? = some core[p] := by
  obtain ⟨b, rest, e, -⟩ := h.right_readings
  rw [e, List.getElem?_append_left hp, List.getElem?_eq_getElem hp]

theorem left_tag {p : Nat} (hp : p < core.length) : left.tag p = core[p].1.tag :=
  Tokens.tag_of_readings (h.left_shared hp)

theorem tag {p : Nat} (hp : p < core.length) : right.tag p = left.tag p :=
  (Tokens.tag_of_readings (h.right_shared hp)).trans (h.left_tag hp).symm

theorem tags_get {p : Nat} (hp : p < core.length) :
    (core.map fun r => r.1.tag)[p]? = some (left.tag p) := by
  rw [List.getElem?_map, List.getElem?_eq_getElem hp, h.left_tag hp, Option.map_some]

theorem tag_of_tags {p : Nat} {t : Tag} (ht : (core.map fun r => r.1.tag)[p]? = some t) :
    left.tag p = t := by
  have lt := (List.getElem?_eq_some_iff.1 ht).1
  rw [List.length_map] at lt
  rw [h.tags_get lt] at ht
  exact Option.some.inj ht

theorem left_wall : left.tag core.length = .eof ∨ left.tag core.length = .lineBreak := by
  obtain ⟨b, e⟩ := h.left_readings
  cases b with
  | none => exact .inl (Tokens.tag_of_readings (r := (.eof, false)) (by simp [e, Lexeme.pendingBreak]))
  | some b =>
    exact .inr (Tokens.tag_of_readings (r := (.lineBreak, b)) (by simp [e, Lexeme.pendingBreak]))

theorem left_behind : left.tag (core.length + 1) = .eof := by
  obtain ⟨b, e⟩ := h.left_readings
  cases b with
  | none => exact Tokens.tag_of_readings_none (by simp [e, Lexeme.pendingBreak])
  | some b =>
    exact Tokens.tag_of_readings (r := (.eof, false)) (by
      rw [e, List.getElem?_append_right (show core.length ≤ core.length + 1 from Nat.le_succ _),
        Nat.add_sub_cancel_left]
      rfl)

theorem right_wall : right.tag core.length = .lineBreak := by
  obtain ⟨b, rest, e, -⟩ := h.right_readings
  exact Tokens.tag_of_readings (r := (.lineBreak, b)) (by simp [e])

theorem right_behind : right.tag (core.length + 1) ≠ .lineBreak
    ∧ right.tag (core.length + 1) ≠ .keyword .elseKw := by
  obtain ⟨b, rest, e, first⟩ := h.right_readings
  have behind : right.input.tokens.readings[core.length + 1]? = rest.head? := by
    rw [e, List.getElem?_append_right (show core.length ≤ core.length + 1 from Nat.le_succ _),
      Nat.add_sub_cancel_left,
      List.getElem?_cons_succ, List.head?_eq_getElem?]
  cases hr : rest.head? with
  | none =>
    have tag : right.tag (core.length + 1) = .eof := Tokens.tag_of_readings_none (behind.trans hr)
    rw [tag]
    exact ⟨Tag.noConfusion, Tag.noConfusion⟩
  | some r =>
    have tag : right.tag (core.length + 1) = r.1.tag := Tokens.tag_of_readings (behind.trans hr)
    obtain ⟨no_break, no_else⟩ := first r hr
    rw [tag]
    constructor <;> intro e
    · exact no_break (TokenKind.eq_lineBreak e)
    · exact no_else (TokenKind.eq_keyword e)

theorem last_tag {p : Nat} (hp : p + 1 = core.length) :
    left.tag p ≠ .lineBreak ∧ runOnTags.contains (left.tag p) = false := by
  have lt : p < core.length := by omega
  have get : core.getLast? = some core[p] := by
    rw [List.getLast?_eq_getElem?, ← hp, Nat.add_sub_cancel, List.getElem?_eq_getElem lt]
  obtain ⟨no_break, no_more⟩ := h.last _ get
  rw [h.left_tag lt]
  exact ⟨fun e => no_break (TokenKind.eq_lineBreak e), no_more⟩

theorem closers {p : Nat} (hp : p < core.length) :
    left.input.groups.closer? p = (if (left.tag p).isOpener = true
        then some (groupEnd (core.map fun r => r.1.tag) (p + 1)) else none)
      ∧ right.input.groups.closer? p = left.input.groups.closer? p := by
  have inside : p < (core.map fun r => r.1.tag).length := by rwa [List.length_map]
  obtain ⟨b, l⟩ := h.left_readings
  obtain ⟨b', rest, r, -⟩ := h.right_readings
  have on_left := Groups.closer?_of_nests left.input.tokens
    (by rw [Tokens.tagsOf_eq, l, List.map_append]) h.nested inside
  have on_right := Groups.closer?_of_nests right.input.tokens
    (by rw [Tokens.tagsOf_eq, r, List.map_append]) h.nested inside
  rw [h.left_groups, h.right_groups, on_left, on_right, show right.input.tokens.tag p = _ from h.tag hp]
  exact ⟨rfl, rfl⟩

/-- The group around a place ends with a closing bracket or with what is shared. -/
theorem no_break_at_end {p : Nat} (hp : p ≤ core.length)
    (hlt : groupEnd (core.map fun r => r.1.tag) p < core.length) :
    left.tag (groupEnd (core.map fun r => r.1.tag) p) ≠ .lineBreak := by
  obtain ⟨t, ht, closes⟩ := Groups.isCloser_groupEnd (core.map fun r => r.1.tag) p
    (by rwa [List.length_map]) (by rwa [List.length_map])
  rw [h.tags_get hlt] at ht
  cases ht
  intro e
  rw [e] at closes
  cases closes

/-- An item that is given up ends before the new line. -/
theorem resume_item {c c' : Cursor} (hq : c.position ≤ core.length) (hc : c'.position = c.position)
    (hs : c.skipsBreaks = false) (hs' : c'.skipsBreaks = false) :
    (c'.resume right.input.tokens itemBoundary).position
        = (c.resume left.input.tokens itemBoundary).position
      ∧ (c.resume left.input.tokens itemBoundary).position ≤ core.length := by
  obtain ⟨awaited, nested⟩ := Groups.nests_drop h.nested c.position
  refine resumeAt_walled (fun _ => h.tag) ?_ (Nat.le_refl _) (fun i t ht => ?_) ?_ nested
    (Nat.zero_le _) hc hs hs'
  · rintro _ (rfl | rfl)
    · refine h.left_wall.imp_right fun e => ?_
      rw [show left.input.tokens.tag core.length = _ from e]
      exact ⟨rfl, by decide⟩
    · rw [show right.input.tokens.tag core.length = _ from h.right_wall]
      exact .inr ⟨rfl, by decide⟩
  · rw [List.getElem?_drop] at ht
    exact h.tag_of_tags ht
  · rw [List.length_drop, List.length_map]
    omega

/-- A statement that is given up ends before the brace that closes its block. -/
theorem resume_stmt {c c' : Cursor} {g : Nat} (lt : g < core.length)
    (hg : left.tag g = .punct .openBrace) (hpq : g + 1 ≤ c.position)
    (hq : c.position ≤ groupEnd (core.map fun r => r.1.tag) (g + 1)) (hc : c'.position = c.position)
    (hs : c.skipsBreaks = false) (hs' : c'.skipsBreaks = false) :
    (c'.resume right.input.tokens stmtBoundary).position
        = (c.resume left.input.tokens stmtBoundary).position
      ∧ (c.resume left.input.tokens stmtBoundary).position
          ≤ groupEnd (core.map fun r => r.1.tag) (g + 1) := by
  have opens := h.tags_get lt
  rw [hg] at opens
  obtain ⟨inside, rest, e, nested⟩ := Groups.nests_at h.nested opens (p := .closeBrace) rfl
  have ends := Groups.groupEnd_of_inside (by rw [List.length_map]; exact lt) e nested rfl
  rw [ends] at hq ⊢
  have inner {i : Nat} : inside[i]? = none ∨ inside[i]? = (core.map fun r => r.1.tag)[g + 1 + i]? := by
    rw [← List.getElem?_drop, e]
    rcases Nat.lt_or_ge i inside.length with hi | hi
    · exact .inr (List.getElem?_append_left hi).symm
    · exact .inl (List.getElem?_eq_none hi)
  have brace : (core.map fun r => r.1.tag)[g + 1 + inside.length]? = some (.punct .closeBrace) := by
    rw [← List.getElem?_drop, e, List.getElem?_append_right (Nat.le_refl _), Nat.sub_self]
    rfl
  have stop : g + 1 + inside.length < core.length := by
    have := (List.getElem?_eq_some_iff.1 brace).1
    rwa [List.length_map] at this
  have left_brace := h.tag_of_tags brace
  obtain ⟨awaited, nested⟩ := Groups.nests_drop nested (c.position - (g + 1))
  refine resumeAt_walled (fun _ => h.tag) ?_ (Nat.le_of_lt stop) (fun i t ht => ?_) ?_ nested
    (Nat.zero_le _) hc hs hs'
  · rintro _ (rfl | rfl)
    · rw [show left.input.tokens.tag _ = _ from left_brace]
      exact .inr ⟨rfl, by decide⟩
    · rw [show right.input.tokens.tag _ = _ from (h.tag stop).trans left_brace]
      exact .inr ⟨rfl, by decide⟩
  · rw [List.getElem?_drop] at ht
    rcases inner (i := c.position - (g + 1) + i) with none | same
    · rw [none] at ht
      cases ht
    · rw [same, show g + 1 + (c.position - (g + 1) + i) = c.position + i by omega] at ht
      exact h.tag_of_tags ht
  · rw [List.length_drop]
    omega

end Walled

/-- The bridge between a stream and one that goes on where it ends. -/
def Bridge.ofWalled {left right : Setting} {core : List (TokenKind × Bool)}
    (h : Walled left right core) : Bridge where
  left := left
  right := right
  shift := 0
  wall := core.length
  exact := False
  compared := False
  exact_of_compared := id
  flawed := h.flawed
  ceil := groupEnd (core.map fun r => r.1.tag)
  kind p hp := by
    have same := (Tokens.get_of_readings (h.right_shared hp)).trans
      (Tokens.get_of_readings (h.left_shared hp)).symm
    exact congrArg Prod.fst same
  semicolon p hp := by
    have same := (Tokens.get_of_readings (h.right_shared hp)).trans
      (Tokens.get_of_readings (h.left_shared hp)).symm
    exact congrArg Prod.snd same
  left_wall := h.left_wall.imp_right fun h => ⟨id, h⟩
  right_wall := .inr ⟨id, h.right_wall⟩
  left_else := by
    rw [h.left_behind]
    exact Tag.noConfusion
  right_else _ := h.right_behind.2
  left_size := by
    obtain ⟨b, e⟩ := h.left_readings
    rw [Tokens.size_eq, e, List.length_append, List.length_append, List.length_singleton]
    omega
  right_size := by
    obtain ⟨b, rest, e, -⟩ := h.right_readings
    rw [Tokens.size_eq, e, List.length_append, List.length_cons]
    omega
  dialect := h.dialect
  left_docs := h.left_docs
  right_docs := h.right_docs
  closer p hp := (h.closers hp).2.trans Option.map_id'.symm
  closer_lt p hp j hj := by
    rw [(h.closers hp).1] at hj
    split at hj
    · next opens =>
      cases hj
      exact ⟨Groups.le_groupEnd (by rw [List.length_map]; exact hp), Groups.groupEnd_succ_lt
        (h.tags_get hp) opens (Groups.groupEnd_of_nests h.nested (h.tags_get hp) opens)⟩
    · cases hj
  ceil_le p := Nat.le_trans (Groups.groupEnd_le _ p) (Nat.le_of_eq (List.length_map ..))
  le_ceil p hp := Groups.le_groupEnd (by rwa [List.length_map])
  ceil_ceil _ _ := Groups.groupEnd_groupEnd
  lt_ceil p hp hc := Groups.lt_groupEnd (h.tags_get hp) hc
  opened p hp ho := by
    have ends := Groups.groupEnd_of_nests h.nested (h.tags_get hp) ho
    refine ⟨.inr (Nat.lt_of_lt_of_eq ends (List.length_map ..)), fun q _ hq _ => ?_⟩
    exact Nat.lt_of_le_of_lt hq (Groups.groupEnd_succ_lt (h.tags_get hp) ho ends)
  past p q hpq hq hf := by
    have lt : q < core.length := hf.resolve_left id
    obtain ⟨same, le, free⟩ := pastBreaks_walled (fun _ => h.tag) (fun _ hp => (h.last_tag hp).1)
      (h.no_break_at_end (Nat.le_trans hpq (Nat.le_of_lt lt))) hq lt
    exact ⟨same, le, .inr free⟩
  runOn p hp hr := by
    refine .inr (Nat.lt_of_le_of_ne hp fun e => ?_)
    rw [(h.last_tag e).2] at hr
    cases hr
  atSign p hp hs := by
    rw [h.left_tag hp] at hs
    exact absurd (TokenKind.eq_punct hs) (h.plain core[p] (List.getElem_mem hp)).2
  resume boundary p q c c' hb hpq hq hc hc' hs hs' := by
    subst hc
    rcases hb with ⟨rfl, hp⟩ | ⟨rfl, g, lt, rfl, hg⟩
    · rw [hp]
      exact h.resume_item (Nat.le_trans hq (Nat.le_of_eq hp)) hc' hs hs'
    · exact h.resume_stmt lt hg hpq hq hc' hs hs'

end Grammar

end Surface
