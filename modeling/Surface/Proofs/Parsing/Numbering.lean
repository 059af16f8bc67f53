import Mathlib.Data.List.Forall2
import Surface.Proofs.Parallel.Spellings

/-!
# How names are numbered

A name table is only ever changed by numbering another text. Whatever has been numbered before, and
whatever will be, a text has one number and a number one text; the texts stand in the table in the
order in which they were numbered first.

Results:
* `NameTable.numberAll`: texts numbered one after the other.
* `NameTable.numbered_numberAll`, `NameTable.spellings_recordAll`: the numbers of all texts, and the table.
* `Lexing.recorded_foldl`, `recorded_parse`: lexing and parsing number texts and do nothing else to the
  table.
* `names_by_first_use`: all that is known about a table that starts out empty.
-/

namespace Surface

namespace NameTable

/-! ## Texts one after the other -/

theorem number_recordAll {t : NameTable} {r : String} {n : Nat} (h : t.number? r = some n)
    (ss : List String) : (t.recordAll ss).number? r = some n := by
  induction ss generalizing t with
  | nil => exact h
  | cons s ss ih => exact ih (number_record_of_number h)

/-- The numbers of texts that are numbered one after the other, and the table that holds them. -/
def numberAll (t : NameTable) : List String → List Nat × NameTable
  | [] => ([], t)
  | s :: ss =>
    let rest := (t.intern s).2.numberAll ss
    ((t.intern s).1 :: rest.1, rest.2)

theorem numberAll_snd (t : NameTable) (ss : List String) : (t.numberAll ss).2 = t.recordAll ss := by
  induction ss generalizing t with
  | nil => rfl
  | cons s ss ih => exact ih (t.record s)

theorem recordAll_append (t : NameTable) (ss rs : List String) :
    t.recordAll (ss ++ rs) = (t.recordAll ss).recordAll rs := List.foldl_append

/-- Each text has the number that was given out for it, also when others are numbered afterwards. -/
theorem numbered_numberAll (t : NameTable) (ss later : List String) :
    List.Forall₂ (fun s n => (t.recordAll (ss ++ later)).number? s = some n) ss (t.numberAll ss).1 := by
  induction ss generalizing t with
  | nil => exact .nil
  | cons s ss ih =>
    refine .cons (number_recordAll (number_intern t s) (ss ++ later)) ?_
    exact ih (t.record s)

/-- The table holds the texts in the order of their first occurrence. -/
theorem spellings_recordAll {t : NameTable} {rs : List String} (h : t.spellings.toList = rs.eraseDups)
    (ss : List String) : (t.recordAll ss).spellings.toList = (rs ++ ss).eraseDups := by
  induction ss generalizing t rs with
  | nil => rw [List.append_nil]; exact h
  | cons s ss ih =>
    have one : (t.record s).spellings.toList = (rs ++ [s]).eraseDups := by
      rw [spellings_record, h, List.eraseDups_append]
      by_cases old : s ∈ rs <;> simp [old, List.removeAll, List.eraseDups_cons]
    rw [List.append_cons, ← ih one]
    rfl

end NameTable

/-! ## Lexing and parsing -/

/-- The second table comes from the first by numbering texts. -/
def NameTable.Recorded (t t' : NameTable) : Prop := ∃ ss, t' = t.recordAll ss

theorem NameTable.Recorded.trans {t u v : NameTable} (h : t.Recorded u) (h' : u.Recorded v) :
    t.Recorded v := by
  obtain ⟨ss, rfl⟩ := h
  obtain ⟨rs, rfl⟩ := h'
  exact ⟨ss ++ rs, (t.recordAll_append ss rs).symm⟩

theorem Lexing.recorded_take (st : Lexing) (l : Lexeme) : st.names.Recorded (st.take l).names := by
  unfold Lexing.take Lexing.accept
  dsimp only
  split
  · exact ⟨[], rfl⟩
  · exact ⟨[], rfl⟩
  · exact ⟨[], rfl⟩
  · exact ⟨[_], rfl⟩
  · exact ⟨[_], rfl⟩
  · split
    · next kind _ =>
      cases kind <;> first | exact ⟨[], rfl⟩ | exact ⟨[_], rfl⟩
    · exact ⟨[], rfl⟩

theorem Lexing.recorded_foldl (st : Lexing) (ls : List Lexeme) :
    st.names.Recorded (ls.foldl Lexing.take st).names := by
  induction ls generalizing st with
  | nil => exact ⟨[], rfl⟩
  | cons l ls ih => exact (st.recorded_take l).trans (ih (st.take l))

theorem recorded_lex (source : String) (names : NameTable) :
    names.Recorded (lex source names).names :=
  Lexing.recorded_foldl (.start names _) _

/-- Reading tokens numbers nothing but the bar. -/
theorem recorded_parse (l : Lexed) (dialect : Dialect) : l.names.Recorded (parse l dialect).names := by
  obtain ⟨f, s, run, parsed⟩ := Grammar.parse_runs l dialect
  have named : Grammar.naming.rel _ _ _ := Grammar.Keeps.ok (R := Grammar.naming) run
  rw [parsed]
  rcases named with same | bar
  · exact ⟨[], same⟩
  · exact ⟨["|"], bar⟩

/-! ## Tables that start out empty -/

theorem map_spelling_of_numbered {t : NameTable} {ss : List String} {ns : List Nat}
    (h : List.Forall₂ (fun s n => t.number? s = some n) ss ns) : ns.map t.spelling = ss := by
  induction h with
  | nil => rfl
  | cons first _ ih => rw [List.map_cons, NameTable.spelling_of_number first, ih]

/-- Texts and their numbers are the same at the same places. -/
theorem getElem?_eq_iff_of_numbered {t : NameTable} {ss : List String} {ns : List Nat}
    (h : List.Forall₂ (fun s n => t.number? s = some n) ss ns) (i j : Nat) :
    ns[i]? = ns[j]? ↔ ss[i]? = ss[j]? := by
  -- the numbers are those of the texts, which are told apart by them
  have texts : ss = ns.map t.spelling := (map_spelling_of_numbered h).symm
  have numbers : ns.map some = ss.map t.number? := by
    clear texts
    induction h with
    | nil => rfl
    | cons first _ ih => rw [List.map_cons, List.map_cons, first, ih]
  constructor <;> intro same
  · rw [texts, List.getElem?_map, List.getElem?_map, same]
  · have images : (ns.map some)[i]? = (ns.map some)[j]? := by
      rw [numbers, List.getElem?_map, List.getElem?_map, same]
    rw [List.getElem?_map, List.getElem?_map] at images
    exact Option.map_injective (fun _ _ => Option.some.inj) images

/-- Texts are numbered one after the other, from an empty table on, and others afterwards. Then the
empty text has number 0, each number that was given out is that of its text and of no other, and the
table holds the texts in the order of their first occurrence. The table that a text leaves behind when
it is read in a dialect comes about in this way, whatever has been numbered before. -/
theorem names_by_first_use :
    (∀ ss later : List String,
      let t : NameTable := (NameTable.empty.numberAll (ss ++ later)).2
      let ns : List Nat := (NameTable.empty.numberAll ss).1
      t.spellings[0]? = some ""
        ∧ ns.map t.spelling = ss
        ∧ (∀ i j : Nat, ns[i]? = ns[j]? ↔ ss[i]? = ss[j]?)
        ∧ t.spellings.toList = ("" :: (ss ++ later)).eraseDups)
      ∧ ∀ (preload : List String) (source : String) (dialect : Dialect), ∃ ss,
        (parse (lex source (NameTable.empty.numberAll preload).2) dialect).names
          = (NameTable.empty.numberAll (preload ++ ss)).2 := by
  refine ⟨fun ss later => ?_, fun preload source dialect => ?_⟩
  · intro t ns
    have table : t = NameTable.empty.recordAll (ss ++ later) := NameTable.numberAll_snd _ _
    have numbered := NameTable.numbered_numberAll .empty ss later
    rw [← table] at numbered
    refine ⟨t.first, map_spelling_of_numbered numbered, getElem?_eq_iff_of_numbered numbered, ?_⟩
    rw [table]
    have first : NameTable.empty.spellings.toList = [""].eraseDups := rfl
    exact NameTable.spellings_recordAll first (ss ++ later)
  · obtain ⟨ss, hss⟩ := (recorded_lex source _).trans (recorded_parse (lex source _) dialect)
    refine ⟨ss, hss.trans ?_⟩
    rw [NameTable.numberAll_snd, NameTable.numberAll_snd, NameTable.recordAll_append]

end Surface
