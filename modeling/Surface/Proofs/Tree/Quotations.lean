import Surface.Text.Escaped

/-!
# Reading quotations

An escaped quotation can be read from the left: what stands for a character tells the character and
where the next one starts, and a quotation mark that stands for itself ends the quotation. What follows
does not matter.

Results:
* `ofHex_toDigits`: hexadecimal digits tell their number.
* `readEscaped_escapeChar`: what stands for a character is read as that character.
* `quoted_append_injective`: a quotation tells its text and where it ends.
-/

namespace Surface.Text

/-- Where two texts split into characters that satisfy `p` and a rest that does not go on with one, they
split alike. -/
theorem split_injective {p : Char → Bool} {as bs : List Char} {c d : Char} {cs ds : List Char}
    (ha : ∀ x ∈ as, p x = true) (hb : ∀ x ∈ bs, p x = true) (hc : p c = false) (hd : p d = false)
    (h : as ++ c :: cs = bs ++ d :: ds) : as = bs ∧ c :: cs = d :: ds := by
  induction as generalizing bs with
  | nil =>
    cases bs with
    | nil => exact ⟨rfl, h⟩
    | cons b bs =>
      have same : c = b := (List.cons.inj h).1
      rw [same, hb b List.mem_cons_self] at hc
      cases hc
  | cons a as ih =>
    cases bs with
    | nil =>
      have same : a = d := (List.cons.inj h).1
      rw [← same, ha a List.mem_cons_self] at hd
      cases hd
    | cons b bs =>
      obtain ⟨rfl, rest⟩ := List.cons.inj h
      obtain ⟨rfl, behind⟩ := ih (fun x hx => ha x (List.mem_cons_of_mem a hx))
        (fun x hx => hb x (List.mem_cons_of_mem a hx)) rest
      exact ⟨rfl, behind⟩

/-! ## Hexadecimal digits -/

/-- The value of a hexadecimal digit. -/
def hexValue (c : Char) : Nat := if c.toNat < 'a'.toNat then c.toNat - '0'.toNat else c.toNat - 'a'.toNat + 10

/-- The number that hexadecimal digits stand for. -/
def ofHex (cs : List Char) : Nat := cs.foldl (fun n c => 16 * n + hexValue c) 0

theorem hexValue_digitChar {d : Nat} (h : d < 16) : hexValue d.digitChar = d := by
  decide +revert

theorem digitChar_ne_brace {d : Nat} (h : d < 16) : d.digitChar ≠ '\x7d' := by
  decide +revert

theorem ofHex_toDigits (n : Nat) : ofHex (Nat.toDigits 16 n) = n := by
  induction n using Nat.strongRecOn with
  | ind n ih =>
    rw [Nat.toDigits_eq_if (by decide)]
    split
    · next small => rw [ofHex, List.foldl_cons, List.foldl_nil, hexValue_digitChar small]; omega
    · next large =>
      have last : n % 16 < 16 := Nat.mod_lt _ (by decide)
      have front := ih (n / 16) (by omega)
      rw [ofHex] at front ⊢
      rw [List.foldl_append, front, List.foldl_cons, List.foldl_nil, hexValue_digitChar last]
      omega

theorem ne_brace_of_mem_toDigits {n : Nat} {c : Char} (h : c ∈ Nat.toDigits 16 n) : c ≠ '\x7d' := by
  induction n using Nat.strongRecOn with
  | ind n ih =>
    rw [Nat.toDigits_eq_if (by decide)] at h
    split at h
    · next small =>
      rw [List.mem_singleton.1 h]
      exact digitChar_ne_brace small
    · next large =>
      rcases List.mem_append.1 h with front | last
      · exact ih (n / 16) (by omega) front
      · rw [List.mem_singleton.1 last]
        exact digitChar_ne_brace (Nat.mod_lt _ (by decide))

/-! ## Characters and quotations -/

/-- Reads what stands for a character in a quotation. -/
def readEscaped : List Char → Option (Char × List Char)
  | '\\' :: '0' :: cs => some ('\x00', cs)
  | '\\' :: 't' :: cs => some ('\t', cs)
  | '\\' :: 'r' :: cs => some ('\r', cs)
  | '\\' :: 'n' :: cs => some ('\n', cs)
  | '\\' :: 'u' :: '\x7b' :: cs =>
    some (Char.ofNat (ofHex (cs.takeWhile (· ≠ '\x7d'))), (cs.dropWhile (· ≠ '\x7d')).drop 1)
  | '\\' :: c :: cs => some (c, cs)
  | c :: cs => some (c, cs)
  | [] => none

theorem readEscaped_codePointEscape (c : Char) (cs : List Char) :
    readEscaped (codePointEscape c ++ cs) = some (c, cs) := by
  have digits : ∀ d ∈ Nat.toDigits 16 c.toNat, decide (d ≠ '\x7d') = true := fun d hd =>
    decide_eq_true (ne_brace_of_mem_toDigits hd)
  have text : codePointEscape c ++ cs
      = '\\' :: 'u' :: '\x7b' :: (Nat.toDigits 16 c.toNat ++ '\x7d' :: cs) := by
    simp [codePointEscape]
  rw [text, readEscaped, List.takeWhile_append_of_pos digits, List.dropWhile_append_of_pos digits,
    List.takeWhile_cons_of_neg (by decide), List.dropWhile_cons_of_neg (by decide), List.append_nil,
    ofHex_toDigits, Char.ofNat_toNat]
  rfl

/-- What stands for a character between double quotes is read as it. -/
theorem readEscaped_escapeChar (c : Char) (cs : List Char) :
    readEscaped (escapeChar '"' c ++ cs) = some (c, cs) := by
  unfold escapeChar
  by_cases null : c = '\x00'
  · rw [if_pos null, null]; rfl
  by_cases tab : c = '\t'
  · rw [if_neg null, if_pos tab, tab]; rfl
  by_cases ret : c = '\r'
  · rw [if_neg null, if_neg tab, if_pos ret, ret]; rfl
  by_cases newline : c = '\n'
  · rw [if_neg null, if_neg tab, if_neg ret, if_pos newline, newline]; rfl
  rw [if_neg null, if_neg tab, if_neg ret, if_neg newline]
  by_cases mark : c = '\\' ∨ c = '"'
  · rw [if_pos (by simpa using mark)]
    rcases mark with rfl | rfl <;> rfl
  rw [if_neg (by simpa using mark)]
  split
  · rw [not_or] at mark
    rw [List.singleton_append, readEscaped.eq_def]
    split <;> simp_all
  · exact readEscaped_codePointEscape c cs

/-- No character stands as a quotation mark alone. -/
theorem escapeChar_ne_quote (c : Char) (cs ds : List Char) : escapeChar '"' c ++ cs ≠ '"' :: ds := by
  intro h
  have read := readEscaped_escapeChar c cs
  rw [h] at read
  obtain rfl : '"' = c := (Prod.mk.inj (Option.some.inj read)).1
  exact absurd (List.cons.inj h).1 (by decide)

/-- The characters of a quotation tell the text and what follows it. -/
theorem quoted_append_injective {s t : String} {cs ds : List Char}
    (h : (quoted s).toList ++ cs = (quoted t).toList ++ ds) : s = t ∧ cs = ds := by
  have escaped (as bs : List Char)
      (h : as.flatMap (escapeChar '"') ++ '"' :: cs = bs.flatMap (escapeChar '"') ++ '"' :: ds) :
      as = bs ∧ cs = ds := by
    induction as generalizing bs with
    | nil =>
      cases bs with
      | nil => exact ⟨rfl, (List.cons.inj h).2⟩
      | cons b bs =>
        rw [List.flatMap_cons, List.append_assoc] at h
        exact absurd h.symm (escapeChar_ne_quote b _ cs)
    | cons a as ih =>
      cases bs with
      | nil =>
        rw [List.flatMap_cons, List.append_assoc] at h
        exact absurd h (escapeChar_ne_quote a _ ds)
      | cons b bs =>
        have read := congrArg readEscaped h
        rw [List.flatMap_cons, List.flatMap_cons, List.append_assoc, List.append_assoc,
          readEscaped_escapeChar, readEscaped_escapeChar, Option.some_inj, Prod.mk.injEq] at read
        obtain ⟨rfl, rest⟩ := read
        obtain ⟨rfl, behind⟩ := ih bs rest
        exact ⟨rfl, behind⟩
  simp only [quoted, String.toList_ofList, List.cons_append, List.append_assoc, List.nil_append] at h
  obtain ⟨same, behind⟩ := escaped _ _ (List.cons.inj h).2
  exact ⟨String.toList_inj.1 same, behind⟩

end Surface.Text
