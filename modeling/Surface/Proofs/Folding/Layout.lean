import Surface.Proofs.Folding.Files

/-!
# Line breaks in groups are layout

Directly inside parentheses and square brackets line breaks carry no meaning, except where one hides
what stands behind it from a look at single tokens.

Results:
* `Lexed.folded`: what has been lexed, without the line breaks in groups.
* `parse_folded`: what comes of both is the same.
-/

namespace Surface

open Groups

/-- What has been lexed, without the line breaks directly inside parentheses or square brackets. -/
def Lexed.folded (l : Lexed) : Lexed := { l with tokens := l.tokens.folded }

namespace Tokens

variable {ts : Tokens} {body : List Token} {last : Token}

/-- The end is kept. -/
theorem folded_of_end (h : ts.items.toList = body ++ [last]) (hl : last.tag ≠ .lineBreak) :
    ts.folded.items.toList = foldBreaks [] body ++ [last] := by
  rw [folded_toList, h, foldBreaks_append, foldBreaks_kept fun d => hl d.2]
  rfl

theorem last_of_end (h : ts.items.toList = body ++ [last]) : ts.last? = some last := by
  unfold last?
  rw [← Array.getLast?_toList, h, List.getLast?_concat]

/-- A stream that has been lexed ends in its end. -/
theorem kind_of_end (h : ts.items.toList = body ++ [last]) : ts.get (ts.size - 1) = last := by
  refine Grammar.tokens_get_end h ?_
  have size : ts.size = ts.items.toList.length := Array.length_toList.symm
  rw [size, h, List.length_append, List.length_singleton]
  omega

theorem lt_size_of_splits {i : Nat} (h : ts.Splits i) : i < ts.size := by
  have lineBreak : ts.tag (i + 1) = .lineBreak := h.1.2
  have inside : i + 1 < ts.size := lt_size_of_tag_ne_eof (by rw [lineBreak]; exact Tag.noConfusion)
  omega

end Tokens

theorem Parsed.hasErrors_of_pos {p : Parsed} (h : 0 < p.errors.length) : p.hasErrors = true := by
  rw [hasErrors, Bool.not_eq_true', ← Bool.not_eq_true, List.isEmpty_iff]
  exact List.ne_nil_of_length_pos h

namespace Grammar

/-- What has been lexed, beside the same without the line breaks in groups. -/
theorem exists_folding (source : String) (names : NameTable) (dialect : Dialect)
    (whole : ∀ i < (lex source names).tokens.size, ¬ (lex source names).tokens.Splits i) :
    ∃ F : Folding, F.left.input = Lexed.input (lex source names) dialect
      ∧ F.right.input = Lexed.input (lex source names).folded dialect := by
  unfold lex at whole ⊢
  obtain ⟨body, spacing, tokens, proper, increasing⟩ := lexChars_tokens source.toList names
  have folded := Tokens.folded_of_end tokens Tag.noConfusion
  -- only runs without errors are compared, so that no error nodes are admitted
  let left : Setting := { Setting.ofLexed (lexChars source.toList names) dialect
      (by rw [Tokens.kind_of_end tokens]) with
    covers := fun a b => b = a
    covers_refl := fun _ => rfl
    flawed := False }
  refine ⟨{
    left
    right := .ofLexed (lexChars source.toList names).folded dialect
      (congrArg Token.kind (Tokens.kind_of_end folded))
    tokens := rfl
    left_groups := rfl
    right_groups := rfl
    comments := rfl
    dialect := rfl
    last := (Tokens.last_of_end folded).trans (Tokens.last_of_end tokens).symm
    whole := fun i splits => whole i (Tokens.lt_size_of_splits splits) splits
    ordered := Setting.ordered_of_end (fun _ _ h => h) tokens proper increasing
    apart := Setting.apart_of_kinds (lexChars_apart source.toList names)
    read := not_false }, rfl, rfl⟩

end Grammar

/-! ## Whole texts -/

open Grammar in
/-- Where no line break in a group stands between a dot and a name, or between the name of a parameter of
a constructor and its colon, the line breaks in groups are layout only: with them and without them errors
are reported or not alike, and if there are none, the same comes of both. -/
theorem parse_folded (source : String) (names : NameTable) (dialect : Dialect)
    (whole : ∀ i < (lex source names).tokens.size, ¬ (lex source names).tokens.Splits i) :
    let p := parse (lex source names) dialect
    let p' := parse (lex source names).folded dialect
    p'.hasErrors = p.hasErrors ∧ (p.hasErrors = false → p' = p) := by
  obtain ⟨F, left, right⟩ := exists_folding source names dialect whole
  obtain ⟨f, s, run, parsed⟩ := parse_runs (lex source names) dialect
  obtain ⟨f', s', run', parsed'⟩ := parse_runs (lex source names).folded dialect
  have start : F.At .none [] 0 (.start (lex source names).names) :=
    ⟨⟨rfl, rfl, rfl, rfl, Nat.zero_le _⟩, rfl, Folding.not_dropped_of_open rfl⟩
  have outcome := file_folds (F := F) (lex source names).shebang _ start (Nat.le_add_right _ _)
  have run' : file (lex source names).shebang F.right.input (F.other (.start (lex source names).names))
      = .ok f' s' := right ▸ run'
  rw [left, run, run'] at outcome
  intro p p'
  have parsed : p = _ := parsed
  have parsed' : p' = _ := parsed'
  cases outcome with
  | ok => exact ⟨by rw [parsed, parsed']; rfl, fun _ => by rw [parsed, parsed']; rfl⟩
  | flawed some some' =>
    have errors : p.hasErrors = true := by
      rw [parsed]
      exact Parsed.hasErrors_of_pos some
    have errors' : p'.hasErrors = true := by
      rw [parsed']
      exact Parsed.hasErrors_of_pos some'
    exact ⟨errors'.trans errors.symm, fun none => absurd (errors.symm.trans none) Bool.noConfusion⟩

/-- Between the name of a method's parameter and its type a line break is layout, and so is one before a
bracket that closes a group. -/
theorem parse_folded_parameters :
    let l := lex "data D \x7b C(a : A)\n; m (x\n: A) : g [y\n] \x7d" .empty
    (∀ i < l.tokens.size, ¬ l.tokens.Splits i)
      ∧ (parse l .declarationFiles).hasErrors = false
      ∧ parse l.folded .declarationFiles = parse l .declarationFiles := by
  intro l
  have whole : ∀ i < l.tokens.size, ¬ l.tokens.Splits i := by decide +kernel
  have no_errors : (parse l .declarationFiles).hasErrors = false := by decide +kernel
  exact ⟨whole, no_errors, (parse_folded _ _ _ whole).2 no_errors⟩

/-- A line break that hides the colon of a constructor's parameter makes the parameter another one. -/
theorem parse_folded_constructor :
    let l := lex "data D \x7b C(x\n: A) \x7d" .empty
    let p := parse l .declarationFiles
    let p' := parse l.folded .declarationFiles
    p.hasErrors = false ∧ p'.hasErrors = false ∧ p.tree.shape ≠ p'.tree.shape := by
  decide +kernel

end Surface
