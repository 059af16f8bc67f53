import Surface.Proofs.Names.Files
import Surface.Proofs.Parsing.Text
import Surface.Resolved

/-!
# Texts whose names are numbers

Lexing and parsing with numbers as names and then looking the numbers up is lexing and parsing with
the spellings themselves. All that is proved of spellings so holds of numbers.

Results:
* `lexCharsAs_resolved`, `lexCharsAs_held`: what has been lexed with numbers.
* `parse_resolved`: what has been parsed with numbers.
* `parseText_resolved`: whole texts.
-/

namespace Surface

/-! ## Names of tokens -/

/-- A later table, which the names of a kind do not leave. -/
theorem TokenKind.enter_grows (names : NameTable) (k : TokenKind) :
    names.GrowsTo (k.enter names : TokenKind Handle × NameTable).2 := by
  cases k with
  | ident s | symbolIdent s | operator s | string s => exact names.growsTo_record s
  | number n => exact names.growsTo_record n.digits
  | _ => exact .refl names

theorem TokenKind.enter_held (names : NameTable) (k : TokenKind) :
    ∀ n ∈ (k.enter names : TokenKind Handle × NameTable).1.names,
      n.number < (k.enter names : TokenKind Handle × NameTable).2.size := by
  have entered (s : String) (n : Handle) (h : n ∈ [(Naming.enter names s : Handle × NameTable).1]) :
      n.number < (names.record s).size := by
    obtain rfl := List.mem_singleton.1 h
    exact names.intern_lt s
  cases k with
  | ident s | symbolIdent s | operator s | string s => exact entered s
  | number n => exact entered n.digits
  | _ => exact fun n h => absurd h List.not_mem_nil

theorem TokenKind.enter_map {f : Handle → String} {names : NameTable} {k : TokenKind}
    (denotes : Denotes f (k.enter names : TokenKind Handle × NameTable).2) :
    (k.enter names : TokenKind × NameTable)
      = ((k.enter names : TokenKind Handle × NameTable).1.map f,
        (k.enter names : TokenKind Handle × NameTable).2) := by
  have entered {s : String} (h : Denotes f (names.record s)) :
      s = f (Naming.enter names s : Handle × NameTable).1 := (Denotes.enter h).symm
  cases k with
  | ident s => exact congrArg (fun s' => (ident s', names.record s)) (entered denotes)
  | symbolIdent s => exact congrArg (fun s' => (symbolIdent s', names.record s)) (entered denotes)
  | operator s => exact congrArg (fun s' => (operator s', names.record s)) (entered denotes)
  | string s => exact congrArg (fun s' => (string s', names.record s)) (entered denotes)
  | number n =>
    exact congrArg (fun s' => (number { n with digits := s' }, names.record n.digits)) (entered denotes)
  | _ => rfl

/-! ## Steps of the lexer -/

namespace Lexing

/-- The state between two lexemes under other names. -/
def map (f : Handle → String) (st : Lexing Handle) : Lexing :=
  ⟨st.offset, st.names, st.tokens.map f, st.comments.map f, st.spacing, st.pending⟩

variable {f : Handle → String} {st : Lexing Handle}

/-- All names so far stand in the table. -/
structure Held (st : Lexing Handle) : Prop where
  tokens : st.tokens.HeldBy st.names
  comments : st.comments.HeldBy st.names

/-- A step of the lexer with numbers, beside the step with spellings: the table grows, and once the
numbers are looked up the states are the same. -/
structure Advance (f : Handle → String) (st next : Lexing Handle) (next' : Lexing) : Prop where
  grows : st.names.GrowsTo next.names
  held : st.Held → next.Held
  reads : Denotes f next.names → next' = next.map f

theorem emit_map (st : Lexing Handle) (kind : TokenKind Handle) (span : Span) :
    (st.map f).emit (kind.map f) span = (st.emit kind span).map f := by
  obtain ⟨offset, names, tokens, comments, spacing, pending⟩ := st
  cases pending <;> simp only [emit, map, Tokens.map, Tokens.push, Array.map_push] <;> rfl

theorem emit_held {kind : TokenKind Handle} {span : Span} (h : st.Held)
    (held : ∀ n ∈ kind.names, n.number < st.names.size) : (st.emit kind span).Held := by
  obtain ⟨offset, names, tokens, comments, spacing, pending⟩ := st
  cases pending with
  | none => exact ⟨h.tokens.push held, h.comments⟩
  | some b => exact ⟨Tokens.HeldBy.push (h.tokens.push nofun) held, h.comments⟩

theorem separate_advance (span : Span) (isSemicolon : Bool) :
    Advance f st (st.separate span isSemicolon) ((st.map f).separate span isSemicolon) := by
  obtain ⟨offset, names, tokens, comments, spacing, pending⟩ := st
  cases pending <;> exact ⟨.refl _, fun h => ⟨h.tokens, h.comments⟩, fun _ => rfl⟩

theorem comment_advance (kind : CommentKind) (marker : Nat) (text : List Char) (span : Span) :
    Advance f st (st.comment kind marker text span) ((st.map f).comment kind marker text span) where
  grows := st.names.growsTo_record _
  held h := by
    refine ⟨h.tokens.of_growsTo (st.names.growsTo_record _), fun c inside => ?_⟩
    rcases Array.mem_push.1 inside with old | rfl
    · exact h.comments.of_growsTo (st.names.growsTo_record _) c old
    · exact NameTable.intern_lt ..
  reads denotes := by
    let content := String.ofList (Text.trim (text.drop marker))
    have same : f (Naming.enter st.names content).1 = content := Denotes.enter denotes
    have pushed : (st.comments.map f).push ⟨content, span, kind⟩
        = (st.comments.push ⟨(Naming.enter st.names content).1, span, kind⟩).map f := by
      refine congrArg Comments.mk (Eq.trans ?_ Array.map_push.symm)
      rw [Comment.map, same]
      rfl
    exact congrArg (Lexing.mk st.offset (st.names.record content) (st.tokens.map f) ·
      (st.spacing.set Spacing.triviaBefore) st.pending) pushed

theorem accept_advance (l : Lexeme) (span : Span) :
    Advance f st (st.accept l span) ((st.map f).accept l span) := by
  unfold accept
  generalize l.kind = k
  split
  · exact ⟨.refl _, fun h => ⟨h.tokens, h.comments⟩, fun _ => rfl⟩
  · exact separate_advance span false
  · exact separate_advance span true
  · exact comment_advance .line 2 l.text span
  · exact comment_advance .doc 3 l.text span
  · cases l.kind? with
    | none => exact ⟨.refl _, id, fun _ => rfl⟩
    | some kind =>
      have grows := kind.enter_grows st.names
      refine ⟨grows, fun h => emit_held ⟨h.tokens.of_growsTo grows, h.comments.of_growsTo grows⟩
        (kind.enter_held st.names), fun denotes => ?_⟩
      have entered := TokenKind.enter_map denotes
      let r : TokenKind Handle × NameTable := kind.enter st.names
      let emitted (r : TokenKind × NameTable) := ({ st.map f with names := r.2 } : Lexing).emit r.1 span
      exact (congrArg emitted entered).trans (emit_map { st with names := r.2 } r.1 span)

theorem take_advance (l : Lexeme) : Advance f st (st.take l) ((st.map f).take l) := by
  have step : Advance f st (st.accept l ⟨st.offset, st.offset + Text.byteLength l.text⟩)
      ((st.map f).accept l ⟨st.offset, st.offset + Text.byteLength l.text⟩) := accept_advance l _
  refine ⟨step.grows, fun h => ⟨(step.held h).tokens, (step.held h).comments⟩, fun denotes => ?_⟩
  exact congrArg (fun next : Lexing => { next with offset := st.offset + Text.byteLength l.text })
    (step.reads denotes)

theorem start_map (names : NameTable) (offset : Nat) :
    (start names offset : Lexing Handle).map f = start names offset := by
  unfold start map Tokens.map Comments.map Tokens.empty Comments.empty
  rw [Array.map_empty, Array.map_empty]

/-- A whole run of the lexer. -/
theorem foldl_advance (ls : List Lexeme) (st : Lexing Handle) :
    Advance f st (ls.foldl take st) (ls.foldl take (st.map f)) := by
  induction ls generalizing st with
  | nil => exact ⟨.refl _, id, fun _ => rfl⟩
  | cons l ls ih =>
    have first : Advance f st (st.take l) ((st.map f).take l) := take_advance l
    have rest := ih (st.take l)
    refine ⟨first.grows.trans rest.grows, rest.held ∘ first.held, fun denotes => ?_⟩
    rw [List.foldl_cons, first.reads (denotes.of_growsTo rest.grows)]
    exact rest.reads denotes

end Lexing

/-! ## Whole texts -/

section

variable (cs : List Char) (names : NameTable)

/-- All names are numbers of the table that lexing ends with. -/
theorem lexCharsAs_held : (lexCharsAs Handle cs names).Held := by
  have start : (Lexing.start names (Text.byteLength ((shebangOf cs).getD [])) : Lexing Handle).Held :=
    ⟨fun t inside => absurd inside (Array.not_mem_empty t),
      fun c inside => absurd inside (Array.not_mem_empty c)⟩
  let ls := Lexeme.lexemes (cs.drop ((shebangOf cs).getD []).length)
  have run := (Lexing.foldl_advance (f := Naming.spell names) ls _).held start
  have finished : (ls.foldl Lexing.take (.start names _) : Lexing Handle).finish.Held :=
    Lexing.emit_held run fun n h => absurd h List.not_mem_nil
  exact ⟨finished.tokens, finished.comments⟩

/-- Lexing with numbers, which are then looked up, is lexing with spellings. -/
theorem lexCharsAs_resolved : (lexCharsAs Handle cs names).resolved = lexChars cs names := by
  let offset := Text.byteLength ((shebangOf cs).getD [])
  let ls := Lexeme.lexemes (cs.drop ((shebangOf cs).getD []).length)
  let st : Lexing Handle := ls.foldl Lexing.take (.start names offset)
  have run : ls.foldl Lexing.take (.start names offset) = st.map (Naming.spell st.names) := by
    rw [← Lexing.start_map]
    exact (Lexing.foldl_advance ls _).reads (denotes_spell _)
  have finished : (ls.foldl Lexing.take (.start names offset)).finish
      = st.finish.map (Naming.spell st.names) := by
    rw [run]
    exact st.emit_map .eof (.point st.offset)
  exact congrArg (fun st : Lexing => Lexed.mk st.tokens st.comments
    ((shebangOf cs).map fun l => ⟨String.ofList l, ⟨0, offset⟩⟩) st.names) finished.symm

end

namespace Grammar

variable {l : Lexed Handle}

/-- What the readers are given for a stream whose names are looked up. -/
theorem input_resolved {f : Handle → String} (denotes : Denotes f l.names) (held : l.Held)
    (dialect : Dialect) : Lexed.input l.resolved dialect = (Lexed.input l dialect).map f := by
  unfold Lexed.input Lexed.resolved Lexed.map Input.map
  rw [denotes.tokens_eq held.tokens, denotes.comments_eq held.comments, Groups.ofTokens_map]

theorem start_resolved (f : Handle → String) (names : NameTable) :
    (State.start names : State Handle).map f = .start names := by
  unfold State.start State.map NodeLog.map NodeLog.empty
  simp only [Array.map_empty]

end Grammar

open Grammar in
/-- Parsing with numbers, which are then looked up, is parsing with the spellings they stand for. -/
theorem parse_resolved {l : Lexed Handle} (held : l.Held) (dialect : Dialect) :
    (parse l dialect).resolved = parse l.resolved dialect := by
  obtain ⟨out, same⟩ : ∃ out,
    Grammar.file l.shebang (Lexed.input l dialect) (.start l.names) = out := ⟨_, rfl⟩
  let f : Handle → String := Naming.spell (Ending.state out).names
  have resolves : Resolves f (SourceFile.map f) (Grammar.file l.shebang) (Grammar.file l.shebang) :=
    file_resolves l.shebang
  have grows := resolves.grows (Lexed.input l dialect) (.start l.names)
  have reads := resolves.reads (Lexed.input l dialect) (.start l.names) held.tokens
  rw [same] at grows reads
  have before : Denotes f l.names := (denotes_spell _).of_growsTo grows
  have reads : Grammar.file l.shebang (Lexed.input l.resolved dialect) (.start l.names)
      = Ending.map f (SourceFile.map f) out := by
    rw [input_resolved before held, ← start_resolved f]
    exact reads (denotes_spell _)
  cases out with
  | ok file s =>
    rw [parse_of_run same, parse_of_run reads]
    have comments : l.comments.map (Naming.spell l.names) = l.comments.map f :=
      before.comments_eq held.comments
    exact congrArg (Parsed.mk (file.map f) (s.nodes.map f) s.names · s.errors.toList) comments.symm
  | error e s =>
    obtain ⟨_, _, run, _⟩ := parse_runs l.resolved dialect
    exact absurd (reads.symm.trans run) nofun

/-- A text is read as with numbers for its names. -/
theorem parseText_resolved (source : String) (dialect : Dialect) :
    (parse (lexCharsAs Handle source.toList .empty) dialect).resolved = parseText source dialect := by
  rw [parse_resolved (lexCharsAs_held _ _), lexCharsAs_resolved]
  rfl

end Surface
