import Surface.Proofs.Parallel.Files
import Surface.Proofs.Parallel.Walled

/-!
# Parts of a file

What goes wrong in one part of a file does not show in another. If brackets nest properly in a text
and nothing at its end asks for more, the items of that text and those of the lines behind it are
the items of both, whatever errors they contain.

Results:
* `items_walled`: where a stream goes on in another line, its items come first.
* `Closes`, `Starts`: texts that ask for nothing behind them, and that nothing before asks for.
* `itemShapes_append`: the items of two parts of a file.
-/

namespace Surface

namespace Grammar

variable {left right : Setting} {core : List (TokenKind × Bool)}

/-! ## Reading up to the new line -/

/-- Reading the first stream and the one that goes on where it ends stand before the same item, or
the first one is at its end and the other before the first item in the new line. -/
inductive Abreast (h : Walled left right core) (q : Nat) (s s' : State) : Prop
  | inside (lt : q < core.length) (no_break : left.past q = q)
      (matched : Matched (Bridge.ofWalled h) 0 .none false 0 q s s') : Abreast h q s s'
  | behind (ended : left.tag q = .eof) (standing : Standing left .none false q s)
      (standing' : Standing right .none false (core.length + 1) s') : Abreast h q s s'

variable (h : Walled left right core) {q : Nat} {s s' : State}

theorem Abreast.standing {h : Walled left right core} (there : Abreast h q s s') :
    Standing left .none false q s := by
  cases there with
  | inside _ _ m => exact m.left
  | behind _ standing _ => exact standing

/-- Behind line breaks reading stands before items. -/
theorem abreast_skipBreaks (m : Matched (Bridge.ofWalled h) 0 .none false 0 q s s') :
    ∃ q' t t', q ≤ q' ∧ skipBreaks left.input s = .ok () t ∧ skipBreaks right.input s' = .ok () t'
      ∧ Abreast h q' t t' := by
  obtain ⟨t, run, ht⟩ := Runs.skipBreaks s m.left
  obtain ⟨t', run', ht'⟩ := Runs.skipBreaks s' m.right
  refine ⟨left.past q, t, t', left.le_past q, run, run', ?_⟩
  have within : q ≤ core.length := m.inside.le_wall
  rcases Nat.lt_or_eq_of_le within with lt | rfl
  · obtain ⟨same, there, free⟩ := m.inside.past (.inr lt)
    rw [same] at ht'
    exact .inside (free.resolve_left id) (left.past_past q)
      ⟨ht, ht', m.inside.of there, fun compared => compared.elim⟩
  · have past : right.past core.length = core.length + 1 := by
      rw [Setting.past_of_lineBreak h.right_wall, Setting.past_of_ne h.right_behind.1]
    have ended : left.tag (left.past core.length) = .eof := by
      rcases h.left_wall with e | e
      · rw [Setting.past_of_ne (by rw [e]; exact Tag.noConfusion), e]
      · rw [Setting.past_of_lineBreak e, Setting.past_of_ne (by rw [h.left_behind]; exact Tag.noConfusion),
          h.left_behind]
    have ht' : Standing right .none false (right.past core.length) t' := ht'
    rw [past] at ht'
    exact .behind ended ht ht'

/-- Before an item both streams hold that item, and behind it reading stands before items again. -/
theorem abreast_round (lt : q < core.length) (no_break : left.past q = q)
    (m : Matched (Bridge.ofWalled h) 0 .none false 0 q s s') (z z' : Array Item × Nat) :
    ∃ a a' stop stop' q' t t', q < q' ∧ alike a a' ∧ Abreast h q' t t'
      ∧ itemsRound z left.input s = .ok (.yield (z.1.push a, stop)) t
      ∧ itemsRound z' right.input s' = .ok (.yield (z'.1.push a', stop')) t' := by
  have more : left.tag q ≠ .eof := by
    rw [h.left_tag lt]
    exact fun e => (h.plain core[q] (List.getElem_mem lt)).1 (TokenKind.eq_eof e)
  have standing : Standing left .none false q s := m.left
  have standing' : Standing right .none false q s' := m.right
  have more' : s'.cursor.tag right.input.tokens ≠ .eof := by
    rw [standing'.tag_eq, h.tag lt]
    exact more
  have all : (Bridge.ofWalled h).ceil 0 = (Bridge.ofWalled h).wall :=
    (Groups.groupEnd_zero h.nested).trans (List.length_map ..)
  have read := (item_twin (B := Bridge.ofWalled h) (e := 0) (o := 0) (p := q) z.2 z'.2 all).forward
    (item_yields z.2 no_break more) fun _ _ h => h.lt
  cases read s s' m with
  | error run _ _ _ _ =>
    obtain ⟨_, _, total⟩ := item_total z.2 left.input s
    exact absurd (total.symm.trans run) nofun
  | @ok a a' j t t' run run' _ like m' =>
    obtain ⟨q', u, u', le, skip, skip', there⟩ := abreast_skipBreaks h m'
    exact ⟨a, a', _, _, q', u, u', Nat.lt_of_lt_of_le like.2 le, like.1, there,
      itemsRound_of_item (standing.tag_eq ▸ more) run skip, itemsRound_of_item more' run' skip'⟩

/-- Where a stream goes on in another line, its items come first. -/
theorem items_walled (n' : Nat) (z' : Array Item × Nat) {n : Nat} {z r : Array Item × Nat} {t : State}
    (there : Abreast h q s s')
    (hn : left.input.tokens.size < n + q) (hn' : right.input.tokens.size < n' + s'.cursor.position)
    (run : repeatUpTo itemsRound n z left.input s = .ok r t) :
    ∃ m y as as' t', repeatUpTo itemsRound n' z' right.input s' = repeatUpTo itemsRound m y right.input t'
      ∧ r.1.toList = z.1.toList ++ as ∧ y.1.toList = z'.1.toList ++ as' ∧ alike as as'
      ∧ Standing right .none false (core.length + 1) t'
      ∧ right.input.tokens.size < m + (core.length + 1) := by
  induction n generalizing n' q s s' z z' with
  | zero =>
    cases there with
    | inside lt _ m =>
      have standing : Standing left .none false q s := m.left
      have := standing.inside
      omega
    | behind _ _ standing' =>
      cases run
      rw [standing'.position] at hn'
      exact ⟨n', z', [], [], s', rfl, (List.append_nil _).symm, (List.append_nil _).symm, .nil,
        standing', hn'⟩
  | succ n ih =>
    cases there with
    | inside lt no_break m =>
      obtain ⟨a, a', stop, stop', q', u, u', far, same, there, round, round'⟩ :=
        abreast_round h lt no_break m z z'
      have standing' : Standing right .none false q s' := m.right
      have inside' := standing'.inside
      have position' := standing'.position
      obtain ⟨k, rfl⟩ : ∃ k, n' = k + 1 := ⟨n' - 1, by omega⟩
      have run : repeatUpTo itemsRound n (z.1.push a, stop) left.input u = .ok r t := by
        rw [repeatUpTo, bind_of_ok round] at run
        exact run
      have far' : s'.cursor.position < u'.cursor.position := by
        rw [position']
        cases there with
        | inside _ _ m' =>
          have position : u'.cursor.position = q' := m'.right.position
          rwa [position]
        | behind _ _ standing =>
          rw [standing.position]
          omega
      obtain ⟨m, y, as, as', t', run', read, read', like, standing, hm⟩ :=
        ih k (z'.1.push a', stop') there (by omega) (by omega) run
      refine ⟨m, y, a :: as, a' :: as', t', ?_, ?_, ?_, .cons same like, standing, hm⟩
      · rw [repeatUpTo, bind_of_ok round']
        exact run'
      · rw [read, Array.toList_push, List.append_assoc]
        rfl
      · rw [read', Array.toList_push, List.append_assoc]
        rfl
    | behind ended standing standing' =>
      rw [repeatUpTo, bind_of_ok (itemsRound_of_eof (standing.tag_eq.trans ended))] at run
      cases run
      rw [standing'.position] at hn'
      exact ⟨n', z', [], [], s', rfl, (List.append_nil _).symm, (List.append_nil _).symm, .nil,
        standing', hn'⟩

/-! ## Whole streams -/

theorem shebang_stays {line l : Option Shebang} {i : Input} {s t : State}
    (run : shebang line i s = .ok l t) : t.cursor = s.cursor ∧ t.context = s.context := by
  cases line with
  | none =>
    cases run
    exact ⟨rfl, rfl⟩
  | some first =>
    unfold shebang at run
    dsimp only at run
    rw [bind_of_ok (read_run i s), ite_run] at run
    split at run <;> cases run <;> exact ⟨rfl, rfl⟩

/-- A file is read from its first item on. -/
theorem items_of_file {S : Setting} {line : Option Shebang} {names : NameTable} {f : SourceFile} {t : State}
    (run : file line S.input (.start names) = .ok f t) : ∃ docsFrom s u v,
      Standing S .none false 0 s ∧ skipBreaks S.input s = .ok () u
      ∧ items docsFrom S.input u = .ok f.items v := by
  unfold file at run
  obtain ⟨l, s, first, run⟩ := bind_ok.1 run
  obtain ⟨_, u, skip, run⟩ := bind_ok.1 run
  obtain ⟨as, v, read, run⟩ := bind_ok.1 run
  rw [bind_of_ok (nextSpan_run ..)] at run
  cases run
  obtain ⟨cursor, context⟩ := shebang_stays first
  refine ⟨_, s, u, _, ⟨context, ?_, ?_, ?_, Nat.zero_le _⟩, skip, read⟩ <;> rw [cursor] <;> rfl

theorem items_ok {docsFrom : Nat} {i : Input} {s t : State} {as : List Item}
    (run : items docsFrom i s = .ok as t) : ∃ r, as = r.1.toList ∧
      repeatUpTo itemsRound (i.tokens.size - s.cursor.position + 1) (#[], docsFrom) i s = .ok r t := by
  obtain ⟨r, u, rounds, run⟩ := bind_ok.1 run
  cases run
  exact ⟨r, rfl, rounds⟩

/-- The items of a stream are like those of another one that is read from its first token on. -/
def ItemsOf (S : Setting) (as : List Item) : Prop :=
  ∃ r u, repeatUpTo itemsRound (S.input.tokens.size + 1) (#[], 0) S.input (.start .empty) = .ok r u
    ∧ alike r.1.toList as

/-- Where the end of a stream is another stream, the items read from there on are those of it. -/
theorem items_aligned {rest : Setting} {shift wall n : Nat} {z r : Array Item × Nat} {s t : State}
    (h : Aligned rest right shift wall) (first : rest.past 0 = 0)
    (standing : Standing right .none false shift s) (hn : right.input.tokens.size < n + shift)
    (run : repeatUpTo itemsRound n z right.input s = .ok r t) :
    ∃ as, r.1.toList = z.1.toList ++ as ∧ ItemsOf rest as := by
  let B := (Bridge.ofAligned h).uncompared
  have size := h.right_size
  have size' := h.left_size
  have rounds : Twin B 0 .none false 0 0 (repeatUpTo itemsRound (rest.input.tokens.size + 1) (#[], 0))
      (repeatUpTo itemsRound n z) false 0 fun r r' _ => ∃ as as', r.1.toList = [] ++ as
        ∧ r'.1.toList = z.1.toList ++ as' ∧ alike as as' :=
    itemsRounds_twin (B := B) rfl trivial first _ _ (show wall < rest.input.tokens.size + 1 + 0 by omega)
      (show wall < n + 0 by omega) (#[], 0) z
  have start : Matched B 0 .none false 0 0 (.start .empty) s :=
    ⟨⟨rfl, rfl, rfl, rfl, Nat.zero_le _⟩, (Nat.zero_add shift).symm ▸ standing,
      ⟨⟨Nat.le_refl _, Nat.zero_le _, nofun⟩, Nat.le_refl _, Nat.le_refl _⟩, fun compared => compared.elim⟩
  cases rounds _ _ start with
  | error _ run' _ _ _ => exact absurd (run.symm.trans run') nofun
  | ok run₁ run₂ _ same _ =>
    obtain ⟨rfl, rfl⟩ := EStateM.Result.ok.inj (run.symm.trans run₂)
    obtain ⟨as, as', read, read', like⟩ := same
    refine ⟨as', read', _, _, run₁, ?_⟩
    rw [read]
    exact like

/-- Line breaks before the first item make no difference. -/
theorem items_behind_breaks {rest : Setting} {line : Option Shebang} {names : NameTable}
    {f : SourceFile} {t : State} {shift wall : Nat} (h : Aligned rest right shift wall)
    (first : rest.past 0 = 0) (breaks : right.past 0 = shift)
    (run : file line right.input (.start names) = .ok f t) : ItemsOf rest f.items := by
  obtain ⟨docsFrom, s, u, v, standing, skip, read⟩ := items_of_file run
  obtain ⟨r, items, rounds⟩ := items_ok read
  obtain ⟨u', skip', there⟩ := Runs.skipBreaks s standing
  obtain ⟨-, rfl⟩ := EStateM.Result.ok.inj (skip.symm.trans skip')
  rw [breaks] at there
  have inside := there.inside
  have position := there.position
  obtain ⟨as, read, like⟩ := items_aligned h first there (by omega) rounds
  rw [items, read]
  exact like

/-- The items of a stream that goes on where another one ends are those of the other, and then those
of what follows. -/
theorem items_parts {rest : Setting} {line line' : Option Shebang} {names names' : NameTable}
    {f f' : SourceFile} {t t' : State} {wall : Nat} (h : Walled left right core)
    (ha : Aligned rest right (core.length + 1) wall) (first : rest.past 0 = 0)
    (run : file line left.input (.start names) = .ok f t)
    (run' : file line' right.input (.start names') = .ok f' t') :
    ∃ as bs, f'.items = as ++ bs ∧ alike f.items as ∧ ItemsOf rest bs := by
  obtain ⟨docsFrom, s, u, v, standing, skip, read⟩ := items_of_file run
  obtain ⟨docsFrom', s', u', v', standing', skip', read'⟩ := items_of_file run'
  obtain ⟨r, items, rounds⟩ := items_ok read
  obtain ⟨r', items', rounds'⟩ := items_ok read'
  have start : Matched (Bridge.ofWalled h) 0 .none false 0 0 s s' :=
    ⟨standing, standing', ⟨⟨Nat.le_refl _, Nat.zero_le _, nofun⟩, Nat.le_refl _, Nat.le_refl _⟩,
      fun compared => compared.elim⟩
  obtain ⟨q, w, w', -, skip₁, skip₂, there⟩ := abreast_skipBreaks h start
  obtain ⟨-, rfl⟩ := EStateM.Result.ok.inj (skip.symm.trans skip₁)
  obtain ⟨-, rfl⟩ := EStateM.Result.ok.inj (skip'.symm.trans skip₂)
  have position := there.standing.position
  obtain ⟨m, y, as, as', x, walled, read, read', like, behind, hm⟩ :=
    items_walled h (right.input.tokens.size - u'.cursor.position + 1) (#[], docsFrom') there (by omega)
      (by omega) rounds
  rw [walled] at rounds'
  obtain ⟨bs, read_rest, follow⟩ := items_aligned ha first behind hm rounds'
  refine ⟨as', bs, ?_, ?_, follow⟩
  · rw [items', read_rest, read']
    rfl
  · rw [items, read]
    exact like

/-! ## Texts -/

/-- The second of two streams whose tokens from some place on are those of the first. -/
theorem aligned_of_readings {left right : Setting} {shift : Nat} {pre : List (TokenKind × Bool)}
    (hleft : left.input.tokens.readings = pre ++ [(.eof, false)])
    (hright : right.input.tokens.readings.drop shift = left.input.tokens.readings)
    (dialect : right.input.dialect = left.input.dialect)
    (left_docs : ∀ docsFrom p, left.docs docsFrom p = [])
    (right_docs : ∀ docsFrom p, right.docs docsFrom p = [])
    (left_groups : left.input.groups = .ofTokens left.input.tokens)
    (right_groups : right.input.groups = .ofTokens right.input.tokens) (flawed : left.flawed) :
    Aligned left right shift pre.length := by
  have reading {p : Nat} (hp : p ≤ pre.length) :
      (right.input.tokens.get (p + shift)).reading = (left.input.tokens.get p).reading := by
    have lt : p < left.input.tokens.readings.length := by
      rw [hleft, List.length_append, List.length_singleton]
      omega
    have get := List.getElem?_eq_getElem lt
    have get' : right.input.tokens.readings[p + shift]? = some left.input.tokens.readings[p] := by
      rw [Nat.add_comm, ← List.getElem?_drop, hright, get]
    exact (Tokens.get_of_readings get').trans (Tokens.get_of_readings get).symm
  have size : left.input.tokens.size = pre.length + 1 := by
    rw [Tokens.size_eq, hleft, List.length_append, List.length_singleton]
  refine ⟨fun p hp => congrArg Prod.fst (reading hp),
    fun p hp => congrArg Prod.snd (reading (Nat.le_of_lt hp)),
    ?_, size, ?_, dialect, left_docs, right_docs, left_groups, fun p _ => ?_, flawed⟩
  · exact Tokens.tag_of_readings (r := (.eof, false)) (by simp [hleft])
  · have length := congrArg List.length hright
    rw [List.length_drop, ← Tokens.size_eq, ← Tokens.size_eq, size] at length
    omega
  · rw [left_groups, right_groups]
    refine Groups.closer?_drop ?_ p
    rw [Tokens.tagsOf_eq, Tokens.tagsOf_eq, ← List.map_drop, hright]

theorem Setting.docs_of_plain {S : Setting} (h : S.input.comments.items.toList.any Comment.isDoc = false)
    (docsFrom p : Nat) : S.docs docsFrom p = [] := by
  unfold Setting.docs
  split
  · rw [List.map_eq_nil_iff, List.filter_eq_nil_iff]
    intro c hc isDoc
    have mem : c ∈ S.input.comments.items.toList := by
      unfold Comments.inRange at hc
      rw [Array.toList_extract, List.extract_eq_take_drop] at hc
      exact List.mem_of_mem_drop (List.mem_of_mem_take hc)
    rw [List.any_eq_false] at h
    exact h c mem isDoc
  · rfl

end Grammar

/-- The tags behind which a text may go on in the next line. -/
def openEnded : TagSet :=
  {.operator, .reserved .pipe, .reserved .arrow, .reserved .leftArrow, .reserved .fatArrow}

/-- The tags of the tokens of a text, the end among them. -/
def tagsOfText (source : String) : List Tag := Groups.tagsOf (lex source .empty).tokens

/-- Whether a text has documentation. -/
def documented (source : String) : Bool := (lex source .empty).comments.items.toList.any Comment.isDoc

/-- Texts that ask for nothing in the lines behind them: there is no documentation, brackets nest
properly, there are no attributes, and no line break is passed over behind the last token. -/
structure Closes (source : String) : Prop where
  docs : documented source = false
  nested : Groups.nests [] (tagsOfText source) = true
  attributes : .punct .atSign ∉ tagsOfText source
  last : ((tagsOfText source).filter fun t => t != .lineBreak && t != .eof).getLast?.any
    openEnded.contains = false

/-- Texts that nothing in the lines before them asks for: there is no documentation, they do not
start with `#!`, and their first token is not `else`. -/
structure Starts (source : String) : Prop where
  docs : documented source = false
  shebang : ¬ ['#', '!'] <+: source.toList
  first : ((tagsOfText source).filter fun t => t != .lineBreak).head? ≠ some (.keyword .elseKw)

open Lexeme (Sign signs told untold pendingBreak)

open Grammar (Setting Walled runOnTags)

theorem tagsOfText_eq (source : String) : tagsOfText source
    = (told none (signs (behindShebang source.toList))).map (fun r => r.1.tag)
      ++ (pendingBreak (untold none (signs (behindShebang source.toList)))
        ++ [((.eof : TokenKind), false)]).map fun r => r.1.tag := by
  unfold tagsOfText
  rw [Tokens.tagsOf_eq, ← List.map_append]
  exact congrArg (List.map _) (lexChars_readings source.toList .empty)

theorem plain_iff (cs : List Char) (names : NameTable) :
    (lexChars cs names).comments.items.toList.any Comment.isDoc = false
      ↔ (signs (behindShebang cs)).filterMap Sign.doc? = [] := by
  rw [← lexChars_docs cs names, List.map_eq_nil_iff, List.filter_eq_nil_iff, List.any_eq_false]

namespace Starts

variable {source : String} (h : Starts source)

include h

theorem behindShebang_eq : behindShebang source.toList = source.toList := by
  have none : shebangOf source.toList = none := by
    unfold shebangOf
    split
    · next rest e => exact absurd ⟨rest, e.symm⟩ h.shebang
    · rfl
  unfold behindShebang
  rw [none]
  rfl

theorem first_ne {rest : List (TokenKind × Bool)} {m : Option Bool}
    (alone : (lexChars source.toList .empty).tokens.readings = pendingBreak m ++ rest)
    (no_break : ∀ r, rest.head? = some r → r.1 ≠ .lineBreak) :
    ∀ r, rest.head? = some r → r.1 ≠ .keyword .elseKw := by
  intro r hr e
  obtain ⟨more, rfl⟩ := List.head?_eq_some_iff.1 hr
  have tags : tagsOfText source = (pendingBreak m).map (fun r => r.1.tag)
      ++ .keyword .elseKw :: more.map fun r => r.1.tag := by
    unfold tagsOfText
    rw [Tokens.tagsOf_eq, show (lex source .empty).tokens.readings = _ from alone, List.map_append,
      List.map_cons, e]
    rfl
  refine h.first ?_
  rw [tags]
  cases m <;> rfl

end Starts

theorem not_runOn : ∀ {t : Tag}, openEnded.contains t = false → runOnTags.contains t = false := by
  decide

namespace Closes

variable {source : String} (h : Closes source)

include h

theorem nests_told :
    Groups.nests [] ((told none (signs (behindShebang source.toList))).map fun r => r.1.tag) = true := by
  have nested := h.nested
  rw [tagsOfText_eq, Groups.nests_append] at nested
  · exact nested
  · intro t ht
    cases hm : untold none (signs (behindShebang source.toList)) with
    | none =>
      rw [hm] at ht
      cases List.mem_singleton.1 ht
      exact ⟨Bool.false_ne_true, Bool.false_ne_true⟩
    | some b =>
      rw [hm] at ht
      rcases List.mem_cons.1 ht with rfl | ht
      · exact ⟨Bool.false_ne_true, Bool.false_ne_true⟩
      · cases List.mem_singleton.1 ht
        exact ⟨Bool.false_ne_true, Bool.false_ne_true⟩

theorem last_told {r : TokenKind × Bool}
    (hr : (told none (signs (behindShebang source.toList))).getLast? = some r) :
    r.1 ≠ .lineBreak ∧ openEnded.contains r.1.tag = false := by
  have no_break := Lexeme.last_told (Lexeme.proper_signs _) r hr
  have no_end := Lexeme.ne_eof_of_told (Lexeme.proper_signs _) r (List.mem_of_getLast? hr)
  obtain ⟨others, e⟩ := List.getLast?_eq_some_iff.1 hr
  have kept : ([r.1.tag].filter fun t => t != .lineBreak && t != .eof) = [r.1.tag] := by
    refine List.filter_eq_self.2 fun t ht => ?_
    rw [List.mem_singleton.1 ht, Bool.and_eq_true, bne_iff_ne, bne_iff_ne]
    exact ⟨fun tag => no_break (TokenKind.eq_lineBreak tag), fun tag => no_end (TokenKind.eq_eof tag)⟩
  have dropped (m : Option Bool) : (((pendingBreak m ++ [((.eof : TokenKind), false)]).map fun r => r.1.tag).filter
      fun t => t != .lineBreak && t != .eof) = [] := by cases m <;> rfl
  have last := h.last
  rw [tagsOfText_eq, List.filter_append, dropped, List.append_nil, e, List.map_append,
    List.filter_append, List.map_singleton, kept, List.getLast?_concat, Option.any_some] at last
  exact ⟨no_break, last⟩

end Closes

/-- A text that closes, and a text that starts in the line behind it. -/
theorem walled_of_texts {first second : String} (h : Closes first) (h' : Starts second)
    (dialect : Dialect) : ∃ core rest m,
      Walled (.ofText first.toList dialect True)
        (.ofText (first.toList ++ '\n' :: second.toList) dialect True) core
      ∧ (lexChars (first.toList ++ '\n' :: second.toList) .empty).tokens.readings.drop (core.length + 1)
        = rest ++ [(.eof, false)]
      ∧ (lexChars second.toList .empty).tokens.readings = pendingBreak m ++ (rest ++ [(.eof, false)])
      ∧ ∀ r, (rest ++ [(.eof, false)]).head? = some r → r.1 ≠ .lineBreak := by
  have left := lexChars_readings first.toList .empty
  have right := lexChars_readings (first.toList ++ '\n' :: second.toList) .empty
  have alone := lexChars_readings second.toList .empty
  obtain ⟨rest, m, no_break, joined, behind⟩ := Lexeme.told_joined (Lexeme.proper_signs second.toList)
  rw [h'.behindShebang_eq, joined] at alone
  rw [signs_behind_line, Lexeme.told_append, Lexeme.untold_append, List.append_assoc] at right
  obtain ⟨b, e⟩ := behind ((untold none (signs (behindShebang first.toList))).getD false || false)
  have right : _ = told none (signs (behindShebang first.toList))
      ++ (.lineBreak, b) :: (rest ++ [(.eof, false)]) :=
    right.trans (congrArg (_ ++ ·) e)
  refine ⟨told none (signs (behindShebang first.toList)), rest, m, ?_, ?_, alone, no_break⟩
  · exact {
      left_readings := ⟨_, left⟩
      right_readings := ⟨b, _, right, fun r hr => ⟨no_break r hr, h'.first_ne alone no_break r hr⟩⟩
      nested := h.nests_told
      plain := fun r hr => ⟨Lexeme.ne_eof_of_told (Lexeme.proper_signs _) r hr, fun e => h.attributes (by
        rw [tagsOfText_eq]
        exact List.mem_append_left _ (List.mem_map.2 ⟨r, hr, congrArg TokenKind.tag e⟩))⟩
      last := fun r hr => (h.last_told hr).imp_right not_runOn
      dialect := rfl
      left_docs := Setting.docs_of_plain h.docs
      right_docs := Setting.docs_of_plain ((plain_iff _ .empty).2 (by
        have plain := (plain_iff second.toList .empty).1 h'.docs
        rw [h'.behindShebang_eq] at plain
        rw [signs_behind_line, List.filterMap_append, (plain_iff first.toList .empty).1 h.docs]
        exact plain))
      left_groups := rfl
      right_groups := rfl
      flawed := trivial }
  · rw [right, List.drop_append, List.drop_of_length_le (Nat.le_succ _), Nat.add_sub_cancel_left]
    rfl

/-! ## The items of two parts -/

/-- The shape of an item, with the field it is stored under. -/
def Item.shape (a : Item) : String × String := (a.child.1, a.child.2.shape)

/-- The shapes of all items. -/
def Parsed.itemShapes (p : Parsed) : List (String × String) := p.file.items.map Item.shape

theorem Item.shapes_of_alike {as bs : List Item} (h : alike as bs) :
    as.map Item.shape = bs.map Item.shape := by
  induction h with
  | nil => rfl
  | cons h _ ih =>
    rw [List.map_cons, List.map_cons, ih]
    exact congrArg (· :: _) (Prod.ext h.1 (Tree.shape_eq_of_bare h.2))

namespace Grammar

theorem ItemsOf.shapes {S : Setting} {as bs : List Item} (h : ItemsOf S as) (h' : ItemsOf S bs) :
    as.map Item.shape = bs.map Item.shape := by
  obtain ⟨r, u, run, like⟩ := h
  obtain ⟨r', u', run', like'⟩ := h'
  obtain ⟨rfl, rfl⟩ := EStateM.Result.ok.inj (run.symm.trans run')
  rw [← Item.shapes_of_alike like, Item.shapes_of_alike like']

/-- The setting of the tokens behind some others. -/
theorem exists_rest {l : Lexed} {dropped rest : List (TokenKind × Bool)} (dialect : Dialect)
    (h : l.tokens.readings = dropped ++ (rest ++ [(.eof, false)])) : ∃ R : Setting,
      R.input.tokens.readings = rest ++ [(.eof, false)] ∧ R.input.dialect = dialect
      ∧ R.input.groups = .ofTokens R.input.tokens ∧ (∀ docsFrom p, R.docs docsFrom p = [])
      ∧ R.flawed := by
  let tokens : Tokens := ⟨(l.tokens.items.toList.drop dropped.length).toArray⟩
  have readings : tokens.readings = rest ++ [(.eof, false)] := by
    unfold Tokens.readings at h ⊢
    rw [List.toList_toArray, List.map_drop, h, List.drop_left]
  have ended : (tokens.get (tokens.size - 1)).kind = .eof := by
    refine congrArg Prod.fst (Tokens.get_of_readings (r := (.eof, false)) ?_)
    rw [Tokens.size_eq, readings, List.length_append, List.length_singleton, Nat.add_sub_cancel]
    simp
  exact ⟨.ofLexed ⟨tokens, .empty, none, .empty⟩ dialect ended, readings, rfl, rfl,
    Setting.docs_of_empty rfl, trivial⟩

end Grammar

open Grammar in
/-- What goes wrong in one part of a file does not show in another: behind a text that closes, the
items are those of that text, and then those of what starts in the next line. -/
theorem itemShapes_append {first second : String} (h : Closes first) (h' : Starts second)
    (dialect : Dialect) : (parseText (first ++ "\n" ++ second) dialect).itemShapes
      = (parseText first dialect).itemShapes ++ (parseText second dialect).itemShapes := by
  obtain ⟨core, rest, m, walled, behind, alone, no_break⟩ := walled_of_texts h h' dialect
  have text : (first ++ "\n" ++ second).toList = first.toList ++ '\n' :: second.toList := by
    simp [String.toList_append]
  obtain ⟨f, s, run, parsed⟩ := parse_runs (lexChars first.toList .empty) dialect
  obtain ⟨f', s', run', parsed'⟩ := parse_runs (lexChars second.toList .empty) dialect
  obtain ⟨f'', s'', run'', parsed''⟩ :=
    parse_runs (lexChars (first.toList ++ '\n' :: second.toList) .empty) dialect
  obtain ⟨R, readings, dialect_eq, groups, docs, flawed⟩ := exists_rest dialect alone
  have tag : R.tag 0 ≠ .lineBreak := by
    cases hr : (rest ++ [((.eof : TokenKind), false)]).head? with
    | none => simp at hr
    | some r =>
      have first : R.tag 0 = r.1.tag :=
        Tokens.tag_of_readings (by rw [readings, ← List.head?_eq_getElem?, hr])
      rw [first]
      exact fun e => no_break r hr (TokenKind.eq_lineBreak e)
  have joined : Aligned R (.ofText (first.toList ++ '\n' :: second.toList) dialect True) (core.length + 1)
      rest.length :=
    aligned_of_readings readings (behind.trans readings.symm) dialect_eq.symm docs walled.right_docs groups
      rfl flawed
  have apart : Aligned R (.ofText second.toList dialect True) (pendingBreak m).length rest.length :=
    aligned_of_readings readings (by
      show (lexChars second.toList .empty).tokens.readings.drop _ = _
      rw [alone, List.drop_left, readings]) dialect_eq.symm docs
      (Setting.docs_of_plain h'.docs) groups rfl flawed
  have breaks : (Setting.ofText second.toList dialect True).past 0 = (pendingBreak m).length := by
    have behind := apart.tag 0 (Nat.zero_le _)
    rw [Nat.zero_add] at behind
    cases m with
    | none => exact Setting.past_of_ne (behind ▸ tag)
    | some b =>
      have first : (Setting.ofText second.toList dialect True).tag 0 = .lineBreak :=
        Tokens.tag_of_readings (r := (.lineBreak, b)) (by
          show (lexChars second.toList .empty).tokens.readings[0]? = _
          rw [alone]
          rfl)
      rw [Setting.past_of_lineBreak first]
      exact Setting.past_of_ne (behind ▸ tag)
  obtain ⟨as, bs, items, like, follow⟩ := items_parts walled joined (Setting.past_of_ne tag) run run''
  have follow' := items_behind_breaks apart (Setting.past_of_ne tag) breaks run'
  unfold Parsed.itemShapes parseText parseChars
  rw [text, parsed, parsed', parsed'', items, List.map_append, Item.shapes_of_alike like,
    follow.shapes follow']

/-- A statement that cannot be read and a bracket that closes nothing stay in their parts. -/
theorem itemShapes_append_unread : Closes "f \x7b\n  let\n\x7d" ∧ Starts "g )\nh = 1"
    ∧ (parseText ("f \x7b\n  let\n\x7d" ++ "\n" ++ "g )\nh = 1") .declarationFiles).itemShapes
      = (parseText "f \x7b\n  let\n\x7d" .declarationFiles).itemShapes
        ++ (parseText "g )\nh = 1" .declarationFiles).itemShapes := by
  have closes : Closes "f \x7b\n  let\n\x7d" :=
    ⟨by decide +kernel, by decide +kernel, by decide +kernel, by decide +kernel⟩
  have starts : Starts "g )\nh = 1" := ⟨by decide +kernel, by decide +kernel, by decide +kernel⟩
  exact ⟨closes, starts, itemShapes_append closes starts .declarationFiles⟩

end Surface
