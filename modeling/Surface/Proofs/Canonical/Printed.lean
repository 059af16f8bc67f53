import Surface.Proofs.Canonical.FileTexts
import Surface.Proofs.Lexing.Documentation
import Surface.Proofs.Parsing.Accepted

/-!
# The tokens of a printed file

A file in the canonical layout is read as the words of its items, a line break behind each, and its
documentation stands where it stood.

Results:
* `told_items`: the tokens of items.
* `signs_format`: what the text of a file means.
* `documented_of_signs`: the documentation of items stands in front of them.
-/

namespace Surface

open Lexeme (Sign signs told untold pendingBreak position)

/-! ## The tokens of items -/

/-- Signs that tell no token: documentation, and line breaks without a semicolon. -/
def Tokenless (ss : List Sign) : Prop := ∀ s ∈ ss, s = .separator false ∨ ∃ content, s = .doc content

/-- How items are written, each on lines of its own. -/
def itemSigns (as : List Item) : List Sign := as.flatMap fun a => a.signs ++ [.separator false]

/-- The words of items, each on lines of its own. -/
def itemWords (as : List Item) : List Word := as.flatMap fun a => a.words ++ [.lineBreak]

theorem Tokenless.told_eq {ss : List Sign} (h : Tokenless ss) (pending : Option Bool) :
    told pending ss = [] ∧ ∀ b, pending = some b → untold pending ss = some b := by
  induction ss generalizing pending with
  | nil => exact ⟨rfl, fun _ h => h⟩
  | cons s ss ih =>
    obtain ⟨first, rest⟩ := List.forall_mem_cons.1 h
    obtain rfl | ⟨content, rfl⟩ := first
    · obtain ⟨nothing, kept⟩ := ih rest (some (pending.getD false || false))
      refine ⟨nothing, ?_⟩
      rintro b rfl
      exact kept b (congrArg some (Bool.or_false b))
    · exact ih rest pending

theorem tokenless_docs (ds : List DocString) : Tokenless (ds.flatMap DocString.signs) := by
  intro s hs
  obtain ⟨d, -, hs⟩ := List.mem_flatMap.1 hs
  rcases List.mem_cons.1 hs with rfl | hs
  · exact .inr ⟨_, rfl⟩
  · exact .inl (List.mem_singleton.1 hs)

/-- Items come back as their words, behind a line break that is pending before them or that their
documentation brings. -/
theorem told_items {as : List Item} (sound : ∀ a ∈ as, a.isError = false) {tail : List Sign}
    (ht : Tokenless tail) (pending : Option Bool) : ∃ pending',
    told pending (itemSigns as ++ tail) ++ pendingBreak (untold pending (itemSigns as ++ tail))
        = pendingBreak pending' ++ itemWords as
      ∧ (∀ b, pending = some b → pending' = some b)
      ∧ ∀ a ∈ as.head?, pending' = untold pending (a.docs.flatMap DocString.signs) := by
  induction as generalizing pending with
  | nil =>
    obtain ⟨nothing, kept⟩ := ht.told_eq pending
    refine ⟨untold pending tail, ?_, kept, nofun⟩
    show told pending tail ++ pendingBreak (untold pending tail) = _
    rw [nothing]
    exact (List.append_nil _).symm
  | cons a as ih =>
    obtain ⟨first, rest⟩ := List.forall_mem_cons.1 sound
    obtain ⟨nothing, kept⟩ := (tokenless_docs a.docs).told_eq pending
    obtain ⟨same, ends⟩ := (Item.solid first).told_eq (untold pending (a.docs.flatMap DocString.signs))
    obtain ⟨pending', others, broken, -⟩ := ih rest (some false)
    have split : itemSigns (a :: as) ++ tail = a.docs.flatMap DocString.signs
        ++ (a.words.flatMap Word.signs ++ .separator false :: (itemSigns as ++ tail)) := by
      unfold itemSigns Item.signs
      simp only [List.flatMap_cons, List.append_assoc, List.cons_append, List.nil_append]
    refine ⟨untold pending (a.docs.flatMap DocString.signs), ?_, kept, fun a' ha' => ?_⟩
    · rw [split, Lexeme.told_append, Lexeme.untold_append, nothing, List.nil_append, Lexeme.told_append,
        Lexeme.untold_append, same, ends, List.append_assoc]
      show _ ++ (told (some false) (itemSigns as ++ tail)
        ++ pendingBreak (untold (some false) (itemSigns as ++ tail))) = _
      rw [others, broken false rfl, List.append_assoc]
      unfold itemWords
      rw [List.flatMap_cons, List.append_assoc]
      rfl
    · cases ha'
      rfl

/-! ## The text of a file -/

/-- What a first line means. -/
def lineSigns (line : Option Shebang) : List Sign := if line.isSome then [.separator false] else []

/-- Items do not end in two line breaks. -/
theorem itemSigns_ends {as : List Item} (sound : ∀ a ∈ as, a.isError = false) (line : Option Shebang)
    (ss : List Sign) : lineSigns line ++ itemSigns as ≠ ss ++ [.separator false, .separator false] := by
  intro e
  rcases List.eq_nil_or_concat' as with rfl | ⟨as, a, rfl⟩
  · have length := congrArg List.length e
    unfold lineSigns itemSigns at length
    split at length <;> simp at length
  · obtain ⟨ws, k, hk, words⟩ := (Item.solid (sound a (by simp))).ends
    have last : lineSigns line ++ itemSigns (as ++ [a])
        = (lineSigns line ++ (itemSigns as ++ (a.docs.flatMap DocString.signs ++ ws.flatMap Word.signs)))
          ++ [.token k, .separator false] := by
      unfold itemSigns Item.signs
      rw [List.flatMap_append, List.flatMap_singleton, words, List.flatMap_append, List.flatMap_singleton,
        Word.signs_token hk]
      simp only [List.append_assoc, List.cons_append, List.nil_append]
    rw [last] at e
    cases (List.append_inj_right' e rfl)

/-- A text that is closed ends in one newline. -/
theorem closeText_eq {s : String} (h : s.toList ≠ []) : ∃ cs n,
    s.toList = cs ++ List.replicate n '\n' ∧ (closeText s).toList = cs ++ ['\n'] := by
  obtain ⟨ds, split, newlines⟩ := Text.dropEndWhile_eq (fun c => c = '\n') s.toList
  refine ⟨Text.dropEndWhile (fun c => c = '\n') s.toList, ds.length, ?_, ?_⟩
  · rwa [← List.eq_replicate_of_mem fun c hc => of_decide_eq_true (newlines c hc)]
  · unfold closeText
    rw [if_neg fun none => h (by rw [String.isEmpty_iff.1 none]; rfl), String.toList_append,
      String.toList_ofList]
    rfl

theorem signs_newlines (n : Nat) : signs (List.replicate n '\n') = List.replicate n (.separator false) := by
  induction n with
  | zero => exact Lexeme.signs_nil
  | succ n ih => rw [List.replicate_succ, Lexeme.signs_newline, ih, List.replicate_succ]

/-- Closing a text that does not end in two line breaks adds a line break at most. -/
theorem signs_closeText {s : String} (h : ∀ ss, signs (behindShebang s.toList)
    ≠ ss ++ [.separator false, .separator false]) : ∃ tail, Tokenless tail
      ∧ signs (behindShebang (closeText s).toList) = signs (behindShebang s.toList) ++ tail := by
  by_cases none : s.toList = []
  · have empty : s.isEmpty = true := String.isEmpty_iff.2 (String.toList_inj.1 none)
    refine ⟨[], nofun, ?_⟩
    rw [closeText, if_pos empty, List.append_nil]
  obtain ⟨cs, n, split, closed⟩ := closeText_eq none
  rw [closed, split, signs_behind_line, Lexeme.signs_nil]
  match n, split with
  | 0, _ =>
    exact ⟨_, List.forall_mem_singleton.2 (.inl rfl), by rw [List.replicate_zero, List.append_nil]⟩
  | 1, _ =>
    refine ⟨[], nofun, ?_⟩
    rw [List.append_nil, List.replicate_one, signs_behind_line, Lexeme.signs_nil]
  | n + 2, split =>
    refine absurd ?_ (h (signs (behindShebang cs) ++ List.replicate n (.separator false)))
    rw [split, List.replicate_succ, signs_behind_line, signs_newlines, ← List.replicate_succ,
      List.append_assoc]
    exact congrArg _ (List.replicate_append_replicate (n := n) (m := 2)).symm

theorem shebangOf_closeText (s : String) : shebangOf (closeText s).toList = shebangOf s.toList := by
  by_cases none : s.toList = []
  · have empty : s.isEmpty = true := String.isEmpty_iff.2 (String.toList_inj.1 none)
    rw [closeText, if_pos empty]
  obtain ⟨cs, n, split, closed⟩ := closeText_eq none
  rw [closed, split, shebangOf_line]
  cases n with
  | zero => rw [List.replicate_zero, List.append_nil]
  | succ n => rw [List.replicate_succ, shebangOf_line]

/-- What a file writes: its first line, and its items. -/
theorem file_writes (line : Option Shebang) {items : Doc} {ss : List Sign} {Z : Edge}
    (h : Shows .item Z items ss) (ends : Z.admits []) : ∃ w, signs w = ss ∧ Edge.item.admits w
      ∧ ((lines (line.map Shebang.doc).toList ++ items).write .blank).text.toList
        = line.elim w fun l => Text.trimEnd l.text.toList ++ '\n' :: w := by
  have whole (w : List Char) (h : Spells .item Z w ss) : signs w = ss ∧ Edge.item.admits w := by
    obtain ⟨edge, same⟩ := h [] ends
    rw [Lexeme.signs_nil, List.append_nil, List.append_nil] at same
    rw [List.append_nil] at edge
    exact ⟨same, edge⟩
  cases line with
  | none =>
    obtain ⟨w, text, spells⟩ := h .blank
    obtain ⟨same, edge⟩ := whole w spells
    exact ⟨w, same, edge, text⟩
  | some l =>
    obtain ⟨w, text, spells⟩ := h ((l.doc ++ .newline).write .blank)
    obtain ⟨same, edge⟩ := whole w spells
    refine ⟨w, same, edge, text.trans ?_⟩
    rw [l.doc_write, List.append_assoc]
    rfl

/-- What a file in the canonical layout means, and its first line. -/
theorem signs_format {f : SourceFile}
    (h : Shows .item .item (lines ((Item.readable f.items).map Item.doc))
      (itemSigns (Item.readable f.items)))
    (hl : ∀ l ∈ f.shebang, ∃ cs, shebangOf cs = some l.text.toList) :
    (∃ tail, Tokenless tail ∧ signs (behindShebang f.format.toList)
        = lineSigns f.shebang ++ (itemSigns (Item.readable f.items) ++ tail))
      ∧ shebangOf f.format.toList = f.shebang.map fun l => Text.trimEnd l.text.toList := by
  obtain ⟨w, same, edge, text⟩ := file_writes f.shebang h nofun
  have written : (f.doc.write .blank).text.toList = _ := text
  have meaning : signs (behindShebang (f.doc.write .blank).text.toList)
      = lineSigns f.shebang ++ itemSigns (Item.readable f.items) := by
    rw [written]
    cases hs : f.shebang with
    | none =>
      show signs (behindShebang w) = _
      rw [behindShebang_of_item edge, same]
      rfl
    | some l =>
      obtain ⟨cs, first⟩ := hl l hs
      show signs (behindShebang (Text.trimEnd l.text.toList ++ '\n' :: w)) = _
      rw [signs_behind_line, behindShebang_trimEnd first, Lexeme.signs_nil, same]
      rfl
  have format : f.format = closeText (f.doc.write .blank).text := rfl
  constructor
  · obtain ⟨tail, ht, closed⟩ := signs_closeText (s := (f.doc.write .blank).text) fun ss => by
      rw [meaning]
      exact itemSigns_ends Item.isError_of_readable f.shebang ss
    exact ⟨tail, ht, by rw [format, closed, meaning, List.append_assoc]⟩
  · rw [format, shebangOf_closeText, written]
    cases hs : f.shebang with
    | none =>
      show shebangOf w = none
      unfold shebangOf
      split
      · next rest => exact absurd rfl (edge rest)
      · rfl
    | some l =>
      obtain ⟨cs, first⟩ := hl l hs
      show shebangOf (Text.trimEnd l.text.toList ++ '\n' :: w) = some (Text.trimEnd l.text.toList)
      rw [shebangOf_line, shebangOf_trimEnd first]

/-! ## Words and documentation in their places -/

namespace Grammar

open Text (byteLength)

theorem Spelt.length {T : Setting} {ws : List Word} {q q' : Nat} (h : Spelt T ws q q') :
    q' = q + ws.length := by
  induction ws generalizing q with
  | nil => exact h
  | cons w ws ih =>
    rw [ih h.tail, List.length_cons]
    omega

theorem Spelt.of_readings {T : Setting} {before ws behind : List Word}
    (h : T.input.tokens.readings = before ++ (ws ++ behind)) :
    Spelt T ws before.length (before.length + ws.length) := by
  induction ws generalizing before with
  | nil => rfl
  | cons w ws ih =>
    have split : T.input.tokens.readings = (before ++ [w]) ++ (ws ++ behind) := by
      rw [h, List.append_assoc]
      rfl
    have rest := ih split
    rw [List.length_append, List.length_singleton, Nat.add_assoc, Nat.add_comm 1] at rest
    exact ⟨Tokens.get_of_readings (by simp [h]), rest⟩

/-- The setting of a text in which nodes may carry any spans and nothing is given up. -/
def Setting.lenient (cs : List Char) (dialect : Dialect) : Setting :=
  { Setting.ofText cs dialect False with covers := fun _ _ => True, covers_refl := fun _ => trivial }

variable {cs : List Char} {dialect : Dialect}

theorem lenient_ofText : (Setting.lenient cs dialect).Lenient :=
  ⟨fun _ _ => trivial, not_false, rfl⟩

theorem position_token (ss : List Sign) (k : TokenKind) :
    (told none (ss ++ [.token k])).length = position ss + 1 := by
  rw [Lexeme.told_append, position, List.length_append, List.length_append]
  show _ + (pendingBreak _ ++ [(k, false)]).length = _
  rw [List.length_append]
  rfl

theorem position_words {ws : List Word} (h : Solid ws) (ss : List Sign) :
    (told none (ss ++ ws.flatMap Word.signs)).length = position ss + ws.length := by
  rw [Lexeme.told_append, (h.told_eq _).1, position, List.length_append, List.length_append,
    List.length_append, Nat.add_assoc]

/-- A token behind a line break. -/
theorem position_separator {ss' : List Sign} (h : Tokenless ss') (ss : List Sign) :
    position (ss ++ .separator false :: ss') = (told none ss).length + 1 := by
  obtain ⟨nothing, broken⟩ := h.told_eq (some ((untold none ss).getD false || false))
  rw [position, Lexeme.told_append, Lexeme.untold_append]
  show (_ ++ told (some _) ss' ++ pendingBreak (untold (some _) ss')).length = _
  rw [nothing, broken _ rfl, List.append_nil, List.length_append]
  rfl

theorem docs_of_signs (ds : List DocString) :
    (ds.flatMap DocString.signs).filterMap Sign.doc? = ds.map DocString.content := by
  induction ds with
  | nil => rfl
  | cons d ds ih => exact congrArg (d.content :: ·) ih

/-- The documentation in front of a position. -/
theorem lenient_docs (n q : Nat) : ((Setting.lenient cs dialect).docs n q).map DocString.content
    = if dialect.docs then (((lexChars cs .empty).comments.inRange n
        ((Setting.lenient cs dialect).span q).start).toList.filter Comment.isDoc).map Comment.content
      else [] := by
  show List.map _ (if dialect.docs then _ else _) = _
  split
  · rw [List.map_map]
    rfl
  · rfl

theorem forall₂_of_contents {ds ds' : List DocString}
    (h : ds.map DocString.content = ds'.map DocString.content) :
    List.Forall₂ (fun d d' => d'.content = d.content) ds ds' := by
  rw [← List.forall₂_eq_eq_eq, List.forall₂_map_left_iff, List.forall₂_map_right_iff] at h
  exact h.imp fun _ _ => Eq.symm

/-- The documentation of an item stands in front of it. -/
theorem docs_of_item {before behind : List Placed} {seps ss : List Sign} {a : Item} {n : Nat}
    (split : placedLexemes cs = before ++ behind)
    (signs : behind.filterMap Placed.sign? = (seps ++ a.docs.flatMap DocString.signs)
      ++ (a.words.flatMap Word.signs ++ ss)) (plain : seps.filterMap Sign.doc? = [])
    (hbefore : ∀ x ∈ before, x.span.start < n) (hbehind : ∀ x ∈ behind, n ≤ x.span.start)
    (solid : Solid a.words) (hdocs : dialect.docs = false → a.docs = []) :
    List.Forall₂ (fun d d' => d'.content = d.content) ((Setting.lenient cs dialect).docs n
      (position (before.filterMap Placed.sign? ++ (seps ++ a.docs.flatMap DocString.signs)))) a.docs := by
  obtain ⟨k, ws, hk, starts⟩ := solid.starts
  rw [starts, List.flatMap_cons, Word.signs_token hk] at signs
  obtain ⟨inside, p, others, rfl, within, hp, -⟩ := split_at_token signs
  have span := span_of_sign (by rw [split, List.append_assoc]) hp .empty
  rw [List.filterMap_append, within] at span
  refine forall₂_of_contents ?_
  rw [lenient_docs, show (Setting.lenient cs dialect).span _ = p.span from span]
  split
  · rw [docs_between split hp hbefore hbehind, within, List.filterMap_append, plain, docs_of_signs]
    rfl
  · next none => rw [hdocs (Bool.eq_false_iff.2 none)]; rfl

/-- The last word of some words stands where its lexeme stands. -/
theorem last_of_words {before behind : List Placed} {lead ss : List Sign} {ws : List Word}
    (split : placedLexemes cs = before ++ behind)
    (signs : behind.filterMap Placed.sign? = lead ++ (ws.flatMap Word.signs ++ ss)) (solid : Solid ws) :
    ∃ inside p others, behind = inside ++ p :: others
      ∧ (inside ++ [p]).filterMap Placed.sign? = lead ++ ws.flatMap Word.signs
      ∧ others.filterMap Placed.sign? = ss
      ∧ ∀ q', Spelt (Setting.lenient cs dialect) ws (position (before.filterMap Placed.sign? ++ lead)) q' →
        (Setting.lenient cs dialect).last q' = p.span := by
  have words := position_words solid (before.filterMap Placed.sign? ++ lead)
  obtain ⟨ws, k, hk, rfl⟩ := solid.ends
  have last : (ws ++ [Word.token k]).flatMap Word.signs = ws.flatMap Word.signs ++ [.token k] := by
    rw [List.flatMap_append, List.flatMap_singleton, Word.signs_token hk]
  rw [last] at signs words ⊢
  rw [List.append_assoc _ [_], ← List.append_assoc lead, List.singleton_append] at signs
  obtain ⟨inside, p, others, rfl, within, hp, remain⟩ := split_at_token signs
  refine ⟨inside, p, others, rfl, ?_, remain, fun q' spelt => ?_⟩
  · rw [List.filterMap_append, within, List.filterMap_cons_some hp, List.append_assoc]
    rfl
  · have span := span_of_sign (by rw [split, List.append_assoc]) hp .empty
    rw [List.filterMap_append, within] at span
    rw [← spelt.length, ← List.append_assoc, position_token] at words
    obtain ⟨_, _, tag, rfl⟩ := spelt.snoc
    rw [← List.append_assoc, Nat.succ_inj.1 words] at span
    exact (if_neg fun line => hk (TokenKind.eq_lineBreak (tag.symm.trans line))).trans span

/-- The documentation of items stands in front of them. -/
theorem documented_of_signs {items : List Item} (sound : ∀ a ∈ items, a.isError = false)
    (hdocs : dialect.docs = false → ∀ a ∈ items, a.docs = []) {tail : List Sign} :
    ∀ (before : List Placed) {behind : List Placed} (seps : List Sign) {n q : Nat},
    placedLexemes cs = before ++ behind →
    behind.filterMap Placed.sign? = seps ++ (itemSigns items ++ tail) → seps.filterMap Sign.doc? = [] →
    (∀ x ∈ before, x.span.start < n) → (∀ x ∈ behind, n ≤ x.span.start) →
    (∀ a ∈ items.head?, q
      = position (before.filterMap Placed.sign? ++ (seps ++ a.docs.flatMap DocString.signs))) →
    Documented (Setting.lenient cs dialect) n q items := by
  induction items with
  | nil => intros; trivial
  | cons a as ih =>
    intro before behind seps n q split signs plain hbefore hbehind hq
    obtain ⟨first, rest⟩ := List.forall_mem_cons.1 sound
    have solid := Item.solid first
    obtain rfl := hq a rfl
    have signs : behind.filterMap Placed.sign? = (seps ++ a.docs.flatMap DocString.signs)
        ++ (a.words.flatMap Word.signs ++ .separator false :: (itemSigns as ++ tail)) := by
      rw [signs]
      unfold itemSigns Item.signs
      simp only [List.flatMap_cons, List.append_assoc, List.cons_append, List.nil_append]
    refine ⟨docs_of_item split signs plain hbefore hbehind solid fun none =>
      hdocs none a List.mem_cons_self, fun q' spelt => ?_⟩
    obtain ⟨inside, p, others, rfl, within, remain, last⟩ := last_of_words split signs solid
    rw [last q' spelt]
    have all : placedLexemes cs = (before ++ (inside ++ [p])) ++ others := by
      rw [split]
      simp only [List.append_assoc, List.cons_append, List.nil_append]
    obtain ⟨size, above, below⟩ := bounds_of_split (split.trans (List.append_assoc _ _ _).symm)
    refine ih rest (fun none a ha => hdocs none a (List.mem_cons_of_mem _ ha)) _ [.separator false]
      all remain rfl ?_ (fun x hx => (below x hx).1) ?_
    · intro x hx
      rw [← List.append_assoc] at hx
      rcases List.mem_append.1 hx with hx | hx
      · have before := above x hx
        omega
      · rw [List.mem_singleton.1 hx]
        exact size
    · intro a' _
      have behind : (before ++ (inside ++ [p])).filterMap Placed.sign?
          ++ ([.separator false] ++ a'.docs.flatMap DocString.signs)
          = (before.filterMap Placed.sign? ++ (seps ++ a.docs.flatMap DocString.signs)
            ++ a.words.flatMap Word.signs) ++ .separator false :: a'.docs.flatMap DocString.signs := by
        rw [List.filterMap_append, within]
        simp only [List.append_assoc, List.cons_append, List.nil_append]
      rw [behind, position_separator (tokenless_docs _), position_words solid, spelt.length]

end Grammar

end Surface
