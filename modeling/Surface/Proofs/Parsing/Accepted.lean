import Surface.Proofs.Grammar.FileCompleteness
import Surface.Proofs.Parsing.Accounting
import Surface.Proofs.Tree.Marks

/-!
# What is accepted is what the rules derive

The readers and the rules describe the same language: a text is read without errors exactly if the
rules derive a file from its tokens, and they never derive two files that differ in more than their
marks. So whatever the readers decide by looking ahead, they never miss a derivation.

Results:
* `FileAt.unambiguous`: the rules derive no two different files from a stream.
* `Derivable`: the rules derive a file from the tokens of a text.
* `Derivable.parsed`, `Derivable.format`: what can be derived from a text is what is read, and its
  text in the canonical layout is that of what is read.
* `accepted_iff_derivable`: a text is accepted exactly if a file can be derived from it.
-/

namespace Surface

namespace Grammar

variable {S : Setting} {line : Option Shebang} {f f' : SourceFile}

theorem standing_start (S : Setting) (names : NameTable) :
    Standing S .none false 0 (.start names) := ⟨rfl, rfl, rfl, rfl, Nat.zero_le _⟩

/-- Where error statements are not admitted the rules derive no two files that differ in more than
their marks. -/
theorem FileAt.unambiguous (ok : ¬ S.flawed) (hline : S.firstLine line = line)
    (h : FileAt S line f) (h' : FileAt S line f') : f.bare = f'.bare := by
  obtain ⟨_, leads⟩ := file_leads ok hline h
  obtain ⟨_, leads'⟩ := file_leads ok hline h'
  obtain ⟨a, s, run, _, _, same⟩ := leads _ (standing_start S .empty)
  obtain ⟨a', s', run', _, _, same'⟩ := leads' _ (standing_start S .empty)
  rw [run] at run'
  cases run'
  exact same.symm.trans same'

/-- A first line that the dialect does not reject is kept. -/
theorem firstLine_of_admitted (h : rejectsLine line S.input.dialect = false) :
    S.firstLine line = line := by
  unfold Setting.firstLine
  unfold rejectsLine at h
  cases line <;> cases hd : S.input.dialect.shebang <;> simp_all

/-- What the rules derive from the tokens of a text, whatever spans its nodes carry, is what is read,
without an error. -/
theorem FileAt.parsed {cs : List Char} {dialect : Dialect} (ok : ¬ S.flawed)
    (input : S.input = inputOf cs dialect)
    (admitted : rejectsLine (lexChars cs .empty).shebang dialect = false)
    (h : FileAt S (lexChars cs .empty).shebang f) :
    (parseChars cs dialect).errors = [] ∧ (parseChars cs dialect).file.bare = f.bare := by
  have line : S.firstLine (lexChars cs .empty).shebang = (lexChars cs .empty).shebang :=
    firstLine_of_admitted (by rw [input]; exact admitted)
  obtain ⟨_, leads⟩ := file_leads ok line h
  obtain ⟨a, s, run, _, errors, same⟩ := leads _ (standing_start _ (lexChars cs .empty).names)
  rw [input] at run
  have parsed : parseChars cs dialect = _ := parse_of_run run
  rw [parsed]
  exact ⟨congrArg Array.toList errors, same⟩

end Grammar

open Grammar

/-- The first line of a text is admitted and the rules derive a file from its tokens, all of them
and with nothing given up. -/
structure Derivable (cs : List Char) (dialect : Dialect) (f : SourceFile) : Prop where
  admitted : rejectsLine (lexChars cs .empty).shebang dialect = false
  derived : FileAt (.ofText cs dialect False) (lexChars cs .empty).shebang f

/-- What can be derived from a text is what is read, without an error. -/
theorem Derivable.parsed {cs : List Char} {dialect : Dialect} {f : SourceFile}
    (h : Derivable cs dialect f) :
    (parseChars cs dialect).errors = [] ∧ (parseChars cs dialect).file.bare = f.bare :=
  FileAt.parsed not_false rfl h.admitted h.derived

/-- What can be derived from a text determines the tree that is read up to spans, and the text in the
canonical layout. -/
theorem Derivable.format {cs : List Char} {dialect : Dialect} {f : SourceFile}
    (h : Derivable cs dialect f) :
    (parseChars cs dialect).file.tree.bare = f.tree.bare
      ∧ (parseChars cs dialect).file.format = f.format := by
  have same := h.parsed.2
  constructor
  · rw [← SourceFile.bare_tree, same, SourceFile.bare_tree]
  · rw [← SourceFile.bare_format, same, SourceFile.bare_format]

/-- What is read from a text without errors can be derived from it. -/
theorem Derivable.of_accepted {cs : List Char} {dialect : Dialect}
    (accepted : (parseChars cs dialect).errors = []) :
    Derivable cs dialect (parseChars cs dialect).file := by
  have derived := parse_derives cs dialect
  have flawless : ((parseChars cs dialect).errors ≠ []) = False := eq_false (not_not_intro accepted)
  rw [flawless] at derived
  obtain ⟨f, s, run, parsed⟩ := parse_runs (lexChars cs .empty) dialect
  have parsed : parseChars cs dialect = _ := parsed
  rw [parsed] at accepted
  have none : s.errors.size = 0 := congrArg List.length accepted
  have admitted : rejectsLine (lexChars cs .empty).shebang dialect = false := by
    refine Bool.eq_false_iff.2 fun rejected => ?_
    have grown := (file_accounts run).2.2 (.inr rejected)
    omega
  change FileAt _ (Setting.firstLine _ _) _ at derived
  rw [firstLine_of_admitted admitted] at derived
  exact ⟨admitted, derived⟩

/-- A text is accepted exactly if the rules derive a file from its tokens. -/
theorem accepted_iff_derivable (cs : List Char) (dialect : Dialect) :
    (parseChars cs dialect).errors = [] ↔ ∃ f, Derivable cs dialect f :=
  ⟨fun accepted => ⟨_, .of_accepted accepted⟩, fun ⟨_, h⟩ => h.parsed.1⟩

end Surface
