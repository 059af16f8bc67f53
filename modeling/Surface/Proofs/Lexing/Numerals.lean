import Surface.Proofs.Lexing.Legible

/-!
# Numbers that are read as they are written

A number is written as the mark of its base, its digits and its suffix. Nothing is asked of what
these are called beyond what the form of the number asks: digits of the base, two runs of digits
around a dot, a suffix that the form may carry.

Results:
* `Digits`, `Number.Proper`: the numbers that can be written.
* `SuffixAt`: the suffix at the start of a text; `exists_suffixAt`: it is the one that is cut.
* `NumberAt`: the number at the start of a text, with what it must not leave over;
  `exists_numberAt`: it is the one that is cut.
* `proper_numberOf`: whatever is cut from a text as a number can be written.
* `legible_number`: the numbers that can be written are legible.
-/

namespace Surface

/-- The ways of writing the mark of a base: its letter in either case. -/
def Base.marks : Base → List (List Char)
  | decimal => [[]]
  | octal => ["0o".toList, "0O".toList]
  | hex => ["0x".toList, "0X".toList]
  | binary => ["0b".toList, "0B".toList]

/-- What the digits of a number are, as far as its suffix goes. -/
def Number.mantissa (n : Number) : Lexeme.Mantissa :=
  if n.base = .decimal then if n.isFloat then .fractional else .integral else .marked

namespace Lexeme

/-! ## Suffixes and digits -/

/-- A suffix as it is written, if there is one. -/
def suffixChars (s : Option Suffix) : List Char := (s.map fun x => x.text.toList).getD []

/-- Whether a number may carry a suffix. -/
def Mantissa.Carries : Mantissa → Suffix → Prop
  | marked, s => s.isFloat = false
  | integral, _ => True
  | fractional, s => s.isFloat = true

/-- What stands between the mark of the base and the suffix of a number. -/
inductive Digits : Base → Mantissa → Bool → List Char → Prop
  | marked {base d ds} : base ≠ .decimal → (∀ c ∈ d :: ds, base.isDigit c = true) →
      Digits base .marked false (d :: ds)
  | integral {d ds} : (∀ c ∈ d :: ds, isDigit c = true) → Digits .decimal .integral false (d :: ds)
  | fractional {d ds d' ds'} : (∀ c ∈ d :: ds, isDigit c = true) →
      (∀ c ∈ d' :: ds', isDigit c = true) →
      Digits .decimal .fractional true (d :: ds ++ '.' :: d' :: ds')

variable {c d : Char} {cs ds rest : List Char} {m : Mantissa} {s : Option Suffix} {b : Base} {f : Bool}

theorem continuesWord_of_suffix (x : Suffix) : ∀ c ∈ x.text.toList, continuesWord c = true := by
  cases x <;> exact List.all_eq_true.1 rfl

/-- The longest suffix is the whole one, unless a word goes on behind it. -/
theorem longestAt?_append {allow : Bool} (hs : ∀ x ∈ s, allow = true ∨ x.isFloat = false)
    (hr : HeadIn (fun c => continuesWord c = false) rest) :
    Suffix.longestAt? allow (suffixChars s ++ rest) = s := by
  have spelled (x : Suffix) :
      x.text.toList.isPrefixOf (suffixChars s ++ rest) = x.text.toList.isPrefixOf (suffixChars s) := by
    refine isPrefixOf_behind (fun c hc hm => ?_) _
    exact absurd (continuesWord_of_suffix x c hm) (by simp [hr c hc])
  unfold Suffix.longestAt? Suffix.longestWhere?
  simp only [spelled]
  cases s with
  | none => cases allow <;> rfl
  | some x =>
    have := hs x rfl
    cases allow <;> cases x <;> first | rfl | simp [Suffix.isFloat] at this

theorem Mantissa.Carries.allowed {x : Suffix} (h : m.Carries x) :
    (m != .marked) = true ∨ x.isFloat = false := by
  cases m with
  | marked => exact .inr h
  | integral => exact .inl rfl
  | fractional => exact .inl rfl

theorem suffixLength_append (hs : ∀ x ∈ s, m.Carries x)
    (hr : HeadIn (fun c => continuesWord c = false) rest) :
    suffixLength m (suffixChars s ++ rest) = (suffixChars s).length := by
  unfold suffixLength
  rw [longestAt?_append (fun x hx => (hs x hx).allowed) hr]
  cases s with
  | none => rfl
  | some x =>
    have fits : ¬ (m == .fractional && !x.isFloat) = true := by
      have := hs x rfl
      cases m with
      | fractional => rw [show x.isFloat = true from this]; decide
      | _ => exact nofun
    dsimp only
    rw [if_neg fits]
    exact String.length_toList.symm

/-! ### The suffix at the start of a text -/

/-- The suffix at the start of a text behind the digits of a number: of those that the number may carry
the longest that is spelled there, if one is. -/
structure SuffixAt (m : Mantissa) (cs : List Char) (s : Option Suffix) : Prop where
  none_iff : s = none ↔ ∀ x, m.Carries x → ¬ x.text.toList <+: cs
  fits : ∀ x ∈ s, m.Carries x
  spelled : suffixChars s <+: cs
  longest : ∀ x ∈ s, ∀ y, m.Carries y → y.text.toList <+: cs → y.text.length ≤ x.text.length

/-- The suffix that is found is the longest that is spelled. -/
theorem of_longestAt? {allow : Bool} {x : Suffix} (h : Suffix.longestAt? allow cs = some x) :
    (allow = true ∨ x.isFloat = false) ∧ x.text.toList <+: cs
      ∧ ∀ y : Suffix, allow = true ∨ y.isFloat = false → y.text.toList <+: cs →
        y.text.length ≤ x.text.length := by
  have sorted : Suffix.longestFirst.Pairwise fun x y => y.text.length ≤ x.text.length := by decide
  obtain ⟨found, before, behind, split, others⟩ := List.find?_eq_some_iff_append.1 h
  rw [Bool.and_eq_true, Bool.or_eq_true, Bool.not_eq_true', List.isPrefixOf_iff_prefix] at found
  refine ⟨found.1, found.2, fun y allowed spelled => ?_⟩
  have mem : y ∈ Suffix.longestFirst := by cases y <;> decide
  rw [split] at mem sorted
  rcases List.mem_append.1 mem with first | rest
  · have other := others y first
    rw [Bool.not_eq_true', Bool.and_eq_false_iff, List.isPrefixOf_iff_prefix.2 spelled] at other
    rcases other with other | other
    · rcases allowed with allowed | allowed <;> simp [allowed] at other
    · cases other
  · rcases List.mem_cons.1 rest with rfl | last
    · exact Nat.le_refl _
    · exact (List.pairwise_cons.1 (List.pairwise_append.1 sorted).2.1).1 y last

theorem of_longestAt?_eq_none {allow : Bool} (h : Suffix.longestAt? allow cs = none) (y : Suffix)
    (allowed : allow = true ∨ y.isFloat = false) : ¬ y.text.toList <+: cs := by
  intro spelled
  have mem : y ∈ Suffix.longestFirst := by cases y <;> decide
  have other := List.find?_eq_none.1 h y mem
  rw [List.isPrefixOf_iff_prefix.2 spelled, Bool.and_true] at other
  rcases allowed with allowed | allowed <;> simp [allowed] at other

/-- Where the suffix of a floating-point type is spelled no other suffix is. -/
theorem isFloat_eq_of_spelled {x y : Suffix} (hx : x.text.toList <+: cs) (hy : y.text.toList <+: cs) :
    x.isFloat = y.isFloat := by
  have first (x : Suffix) (hx : x.text.toList <+: cs) : x.isFloat = (cs.head? == some 'f') := by
    obtain ⟨rest, rfl⟩ := hx
    cases x <;> rfl
  rw [first x hx, first y hy]

/-- What is cut as a suffix is the suffix there. -/
theorem exists_suffixAt (m : Mantissa) (cs : List Char) :
    ∃ s, SuffixAt m cs s ∧ cs.take (suffixLength m cs) = suffixChars s := by
  unfold suffixLength
  cases h : Suffix.longestAt? (m != .marked) cs with
  | none =>
    have none (x : Suffix) (carried : m.Carries x) : ¬ x.text.toList <+: cs :=
      of_longestAt?_eq_none h x carried.allowed
    exact ⟨.none, ⟨iff_of_true rfl none, nofun, List.nil_prefix, nofun⟩, List.take_zero⟩
  | some x =>
    obtain ⟨allowed, spelled, longest⟩ := of_longestAt? h
    dsimp only
    split
    · next misfit =>
      rw [Bool.and_eq_true, beq_iff_eq, Bool.not_eq_true'] at misfit
      obtain ⟨rfl, integer⟩ := misfit
      have none (y : Suffix) (carried : Mantissa.fractional.Carries y) : ¬ y.text.toList <+: cs := by
        intro other
        have same := isFloat_eq_of_spelled spelled other
        rw [integer, show y.isFloat = true from carried] at same
        cases same
      exact ⟨.none, ⟨iff_of_true rfl none, nofun, List.nil_prefix, nofun⟩, List.take_zero⟩
    · next fits =>
      have carried : m.Carries x := by
        cases m with
        | marked => exact (by simpa using allowed : x.isFloat = false)
        | integral => trivial
        | fractional => exact (by simpa using fits : x.isFloat = true)
      refine ⟨some x, ⟨?_, fun y hy => ?_, spelled, fun y hy z hz => ?_⟩, ?_⟩
      · exact iff_of_false nofun fun none => none x carried spelled
      · cases hy
        exact carried
      · cases hy
        exact longest z hz.allowed
      · rw [← String.length_toList]
        exact (List.prefix_iff_eq_take.1 spelled).symm

/-! ### The parts of a number -/

theorem isDigit_of_suffix {x : Suffix} (h : b = .hex → x.isFloat = false) :
    HeadIn (fun c => b.isDigit c = false ∧ c ≠ '.') (x.text.toList ++ rest) := by
  intro c hc
  cases x <;> cases hc <;> cases b <;> first
    | decide
    | exact absurd (h rfl) (by decide)

theorem continuesWord_of_isDigit (h : b.isDigit c = true) : continuesWord c = true := by
  have range {x y : Char} (h : (decide (x ≤ c) && decide (c ≤ y)) = true) : x ≤ c ∧ c ≤ y := by
    simpa using h
  have letter (h : isLetter c = true) : continuesWord c = true := by simp [continuesWord, h]
  have digit {y : Char} (h : '0' ≤ c ∧ c ≤ y) (hy : y ≤ '9') : continuesWord c = true := by
    have : isDigit c = true := by
      simpa [isDigit, Base.isDigit] using ⟨h.1, Char.le_trans h.2 hy⟩
    simp [continuesWord, this]
  cases b with
  | decimal => exact digit (range h) (by decide)
  | octal => exact digit (range h) (by decide)
  | hex =>
    unfold Base.isDigit at h
    rw [Bool.or_eq_true, Bool.or_eq_true] at h
    rcases h with (h | h) | h
    · exact digit (range h) (by decide)
    · refine letter (Bool.or_eq_true_iff.2 (.inl ?_))
      simpa using ⟨(range h).1, Char.le_trans (range h).2 (by decide)⟩
    · refine letter (Bool.or_eq_true_iff.2 (.inr ?_))
      simpa using ⟨(range h).1, Char.le_trans (range h).2 (by decide)⟩
  | binary =>
    unfold Base.isDigit at h
    rw [Bool.or_eq_true, beq_iff_eq, beq_iff_eq] at h
    rcases h with rfl | rfl <;> rfl

/-- Behind the digits of a number stands none. -/
theorem isDigit_behind (hs : ∀ x ∈ s, b = .hex → x.isFloat = false)
    (hr : HeadIn (fun c => continuesWord c = false ∧ c ≠ '.') rest) :
    HeadIn (fun c => b.isDigit c = false ∧ c ≠ '.') (suffixChars s ++ rest) := by
  cases s with
  | some x => exact isDigit_of_suffix (hs x rfl)
  | none =>
    intro c hc
    obtain ⟨word, dot⟩ := hr c hc
    refine ⟨?_, dot⟩
    cases h : b.isDigit c with
    | false => rfl
    | true => exact absurd (continuesWord_of_isDigit h) (by simp [word])

theorem numberOf_append {mark : List Char} (hm : mark.length = if b = .decimal then 0 else 2)
    (hds : ∀ c ∈ ds, b.isDigit c = true ∨ f = true ∧ c = '.')
    (hs : ∀ x ∈ s, b = .hex → x.isFloat = false) :
    numberOf b f (mark ++ (ds ++ suffixChars s)) = ⟨b, String.ofList ds, s, f⟩ := by
  have body : (if b = .decimal then mark ++ (ds ++ suffixChars s)
      else (mark ++ (ds ++ suffixChars s)).drop 2) = ds ++ suffixChars s := by
    split at hm
    · rw [if_pos ‹_›, List.length_eq_zero_iff.1 hm, List.nil_append]
    · rw [if_neg ‹_›, ← hm, List.drop_left]
  have digits : ∀ c ∈ ds, (b.isDigit c || (f && c == '.')) = true := fun c hc => by
    rcases hds c hc with h | ⟨rfl, rfl⟩
    · rw [h, Bool.true_or]
    · exact Bool.or_true _
  have behind : HeadIn (fun c => (b.isDigit c || (f && c == '.')) = false) (suffixChars s) := by
    have alone : HeadIn _ (suffixChars s ++ []) := isDigit_behind hs nofun
    rw [List.append_nil] at alone
    intro c hc
    obtain ⟨digit, dot⟩ := alone c hc
    rw [digit, beq_false_of_ne dot, Bool.and_false, Bool.or_false]
  have suffix : Suffix.ofText? (suffixChars s) = s := by
    cases s with
    | none => rfl
    | some x => cases x <;> rfl
  unfold numberOf
  dsimp only
  rw [body, takeWhile_append digits behind, dropWhile_append digits behind, suffix]

/-! ### Cutting numbers -/

theorem isLetter_of_isDigit (h : isDigit c = true) : isLetter c = false := by
  have below : c.val ≤ '9'.val := (of_decide_eq_true (Bool.and_eq_true_iff.1 h).2 : c ≤ '9')
  have lower : ¬ 'a' ≤ c := fun above =>
    absurd (UInt32.le_trans (show 'a'.val ≤ c.val from above) below) (by decide)
  have upper : ¬ 'A' ≤ c := fun above =>
    absurd (UInt32.le_trans (show 'A'.val ≤ c.val from above) below) (by decide)
  simp [isLetter, lower, upper]

theorem boundary_of_isDigit (h : isDigit c = true) (cs : List Char) :
    boundary c cs = numberRest c cs := by
  have ne {x : Char} (hx : isDigit x = false) : (c == x) = false := beq_of_class h hx
  have word : startsWord c = false := by
    unfold startsWord
    rw [isLetter_of_isDigit h, ne (x := '_') rfl, ne (x := '\'') rfl]
    rfl
  simp [boundary, isHorizontal, h, word, ne (x := ' ') rfl, ne (x := '\t') rfl,
    ne (x := '\x0b') rfl, ne (x := '\x0c') rfl, ne (x := '\r') rfl, ne (x := '\n') rfl,
    ne (x := ';') rfl, ne (x := '\'') rfl]

theorem numberRest_marked (h : markedBase? c cs = some b) : numberRest c cs =
    (.number b false, 1 + runLength b.isDigit (cs.drop 1)
      + suffixLength .marked (cs.drop (1 + runLength b.isDigit (cs.drop 1)))) := by
  unfold numberRest
  rw [h]

theorem numberRest_integral (h : markedBase? c cs = none)
    (hd : ∀ d ds, cs.drop (runLength isDigit cs) = '.' :: d :: ds → isDigit d = false) :
    numberRest c cs = (.number .decimal false, runLength isDigit cs
      + suffixLength .integral (cs.drop (runLength isDigit cs))) := by
  unfold numberRest
  rw [h]
  dsimp only
  split
  · next d ds e => rw [hd d ds e, if_neg Bool.false_ne_true, e]
  · rfl

theorem numberRest_fractional (h : markedBase? c cs = none)
    (ht : cs.drop (runLength isDigit cs) = '.' :: d :: ds) (hd : isDigit d = true) :
    numberRest c cs = (.number .decimal true, runLength isDigit cs + 2 + runLength isDigit ds
      + suffixLength .fractional (cs.drop (runLength isDigit cs + 2 + runLength isDigit ds))) := by
  unfold numberRest
  rw [h]
  dsimp only
  rw [ht]
  exact if_pos hd

end Lexeme

/-- A number as it can be written. -/
inductive Number.Proper : Number → Prop
  | mk {b m f ds s} : Lexeme.Digits b m f ds → (∀ x ∈ s, m.Carries x) →
      Proper ⟨b, String.ofList ds, s, f⟩

namespace Lexeme

variable {c d : Char} {cs ds rest : List Char} {m : Mantissa} {s : Option Suffix} {b : Base} {f : Bool}

theorem mem_marks_iff (hb : b ≠ .decimal) {mark : List Char} :
    mark ∈ b.marks ↔ ∃ x, mark = ['0', x] ∧ Base.ofLetter? x = some b := by
  constructor
  · intro h
    cases b with
    | decimal => exact absurd rfl hb
    | octal | hex | binary =>
      rcases List.mem_cons.1 h with rfl | h
      · exact ⟨_, rfl, rfl⟩
      · rw [List.mem_singleton.1 h]
        exact ⟨_, rfl, rfl⟩
  · rintro ⟨x, rfl, letter⟩
    have either {p q : Char} (h : (x == p || x == q) = true) : x = p ∨ x = q := by simpa using h
    unfold Base.ofLetter? at letter
    split at letter
    · next h =>
      cases letter
      rcases either h with rfl | rfl <;> decide
    split at letter
    · next h =>
      cases letter
      rcases either h with rfl | rfl <;> decide
    split at letter
    · next h =>
      cases letter
      rcases either h with rfl | rfl <;> decide
    · cases letter

theorem markedBase?_cases (h : markedBase? c cs = some b) :
    c = '0' ∧ b ≠ .decimal ∧ ∃ x d ds, cs = x :: d :: ds ∧ ['0', x] ∈ b.marks
      ∧ b.isDigit d = true := by
  unfold markedBase? at h
  split at h
  · next x d ds =>
    obtain ⟨letter, digit⟩ := Option.filter_eq_some_iff.1 h
    have marked : b ≠ .decimal := by
      rintro rfl
      revert letter
      unfold Base.ofLetter?
      repeat' split
      all_goals exact nofun
    exact ⟨rfl, marked, x, d, ds, rfl, (mem_marks_iff marked).2 ⟨x, rfl, letter⟩, digit⟩
  · cases h

/-- A text that starts with a mark and a digit of the base starts with a number of this base. -/
theorem not_isPrefix_of_unmarked (h : markedBase? c cs = none) (hb : b ≠ .decimal) {mark : List Char}
    (hm : mark ∈ b.marks) (hd : b.isDigit d = true) : ¬ mark ++ [d] <+: c :: cs := by
  obtain ⟨x, rfl, letter⟩ := (mem_marks_iff hb).1 hm
  rintro ⟨rest, e⟩
  obtain ⟨rfl, rfl⟩ := List.cons.inj e
  have found : markedBase? '0' (x :: d :: rest) = some b := by
    show (Base.ofLetter? x).filter (fun base => base.isDigit d) = _
    rw [letter, Option.filter_some, if_pos hd]
  cases h.symm.trans found

theorem Digits.proper (h : Digits b m f ds) {mark : List Char}
    (hm : mark.length = if b = .decimal then 0 else 2) (hs : ∀ x ∈ s, m.Carries x) :
    numberOf b f (mark ++ (ds ++ suffixChars s)) = ⟨b, String.ofList ds, s, f⟩ := by
  refine numberOf_append hm (fun c hc => ?_) fun x hx hex => ?_
  · cases h with
    | marked _ digits | integral digits => exact .inl (digits c hc)
    | fractional digits digits' =>
      rcases List.mem_append.1 hc with hc | hc
      · exact .inl (digits c hc)
      · rcases List.mem_cons.1 hc with rfl | hc
        · exact .inr ⟨rfl, rfl⟩
        · exact .inl (digits' c hc)
  · cases h with
    | marked _ _ => exact hs x hx
    | integral _ | fractional _ _ => cases hex

/-- The number at the start of a text: the mark of its base, its digits and its suffix, with no digit
left over behind its digits, where the text `behind` starts. -/
structure NumberAt (n : Number) (mark behind : List Char) : Prop where
  marked : mark ∈ n.base.marks
  digits : Digits n.base n.mantissa n.isFloat n.digits.toList
  /-- The digits go on as far as there are any, -/
  maximal : HeadIn (fun c => n.base.isDigit c = false) behind
  /-- and the fraction is not left over, -/
  fraction : n.mantissa = .integral → ∀ d ds, behind = '.' :: d :: ds → isDigit d = false
  /-- nor is the mark of another base that a digit follows. -/
  unmarked : n.base = .decimal → ∀ b ≠ Base.decimal, ∀ mark ∈ b.marks, ∀ d, b.isDigit d = true →
    ¬ mark ++ [d] <+: n.digits.toList ++ behind
  suffix : SuffixAt n.mantissa behind n.suffix

theorem Digits.mantissa (h : Digits b m f ds) (t : String) (s : Option Suffix) :
    (Number.mk b t s f).mantissa = m := by
  cases h with
  | marked hb _ => exact if_neg hb
  | integral _ | fractional _ _ => rfl

theorem Digits.length_mark (h : Digits b m f ds) {mark : List Char} (hm : mark ∈ b.marks) :
    mark.length = if b = .decimal then 0 else 2 := by
  by_cases hb : b = .decimal
  · rw [if_pos hb]
    subst hb
    rw [List.mem_singleton.1 hm]
    rfl
  · obtain ⟨x, rfl, -⟩ := (mem_marks_iff hb).1 hm
    rw [if_neg hb]
    rfl

/-- A number is cut where its digits end: the suffix there belongs to it, and the text goes on behind
the suffix. -/
theorem numberAt_of_digits {mark : List Char} {k : Nat} (ds : List Char) (hm : mark ∈ b.marks)
    (digits : Digits b m f ds) (text : c :: cs.take k = mark ++ ds)
    (maximal : HeadIn (fun c => b.isDigit c = false) (cs.drop k))
    (fraction : m = .integral → ∀ d ds, cs.drop k = '.' :: d :: ds → isDigit d = false)
    (unmarked : b = .decimal → markedBase? c cs = none) :
    let stop := k + suffixLength m (cs.drop k)
    let n := numberOf b f (c :: cs.take stop)
    c :: cs.take stop = mark ++ (n.digits.toList ++ suffixChars n.suffix)
      ∧ NumberAt n mark (suffixChars n.suffix ++ cs.drop stop) := by
  intro stop n
  obtain ⟨s, suffix, cut⟩ := exists_suffixAt m (cs.drop k)
  have behind : suffixChars s ++ cs.drop stop = cs.drop k := by
    rw [← cut, ← List.drop_drop, List.take_append_drop]
  have whole : c :: cs.take stop = mark ++ (ds ++ suffixChars s) := by
    rw [List.take_add, cut, ← List.cons_append, text, List.append_assoc]
  have parts : n = ⟨b, String.ofList ds, s, f⟩ := by
    show numberOf b f (c :: cs.take stop) = _
    rw [whole]
    exact digits.proper (digits.length_mark hm) suffix.fits
  have mantissa : n.mantissa = m := by
    rw [parts]
    exact digits.mantissa _ _
  rw [parts] at mantissa ⊢
  rw [String.toList_ofList, behind]
  refine ⟨whole, hm, ?_, maximal, ?_, ?_, ?_⟩
  · rw [mantissa, String.toList_ofList]
    exact digits
  · rw [mantissa]
    exact fraction
  · intro decimal b' other mark' hmark d hd
    have decimal : b = .decimal := decimal
    subst decimal
    obtain rfl := List.mem_singleton.1 hm
    rw [String.toList_ofList, ← List.nil_append ds, ← text, List.cons_append, List.take_append_drop]
    exact not_isPrefix_of_unmarked (unmarked rfl) other hmark hd
  · rw [mantissa]
    exact suffix

/-- A number that is cut from a text is the number at its start. -/
theorem exists_numberAt (hc : isDigit c = true) {stop : Nat}
    (h : numberRest c cs = (.number b f, stop)) :
    let n := numberOf b f (c :: cs.take stop)
    ∃ mark, c :: cs.take stop = mark ++ (n.digits.toList ++ suffixChars n.suffix)
      ∧ NumberAt n mark (suffixChars n.suffix ++ cs.drop stop) := by
  cases hm : markedBase? c cs with
  | some base =>
    obtain ⟨rfl, marked, x, d, ds, rfl, mark, digit⟩ := markedBase?_cases hm
    rw [numberRest_marked hm, List.drop_one, List.tail_cons, Nat.add_comm 1] at h
    cases h
    refine ⟨['0', x], numberAt_of_digits ((d :: ds).takeWhile b.isDigit) mark ?_ ?_ ?_ nofun
      fun decimal => absurd decimal marked⟩
    · have all : ∀ c ∈ (d :: ds).takeWhile b.isDigit, b.isDigit c = true := of_mem_takeWhile
      rw [List.takeWhile_cons_of_pos digit] at all ⊢
      exact .marked marked all
    · rw [List.take_succ_cons, take_runLength]
      rfl
    · rw [List.drop_succ_cons, drop_runLength]
      exact headIn_dropWhile b.isDigit (d :: ds)
  | none =>
    by_cases fraction : ∃ d ds, cs.drop (runLength isDigit cs) = '.' :: d :: ds ∧ isDigit d = true
    · obtain ⟨d, ds, tail, digit⟩ := fraction
      rw [numberRest_fractional hm tail digit] at h
      cases h
      refine ⟨[], numberAt_of_digits
        (c :: cs.takeWhile isDigit ++ '.' :: d :: ds.takeWhile isDigit)
        (List.mem_singleton_self _) ?_ ?_ ?_ nofun fun _ => hm⟩
      · exact .fractional (List.forall_mem_cons.2 ⟨hc, of_mem_takeWhile⟩)
          (List.forall_mem_cons.2 ⟨digit, of_mem_takeWhile⟩)
      · rw [List.nil_append, Nat.add_assoc, List.take_add, take_runLength, tail, Nat.add_comm 2,
          List.take_succ_cons, List.take_succ_cons, take_runLength]
        rfl
      · rw [Nat.add_assoc, ← List.drop_drop, tail, Nat.add_comm 2, List.drop_succ_cons,
          List.drop_succ_cons, drop_runLength]
        exact headIn_dropWhile isDigit ds
    · have plain : ∀ d ds, cs.drop (runLength isDigit cs) = '.' :: d :: ds → isDigit d = false :=
        fun d ds tail => Bool.eq_false_iff.2 fun digit => fraction ⟨d, ds, tail, digit⟩
      rw [numberRest_integral hm plain] at h
      cases h
      refine ⟨[], numberAt_of_digits (c :: cs.takeWhile isDigit) (List.mem_singleton_self _)
        (.integral (List.forall_mem_cons.2 ⟨hc, of_mem_takeWhile⟩)) ?_ ?_ (fun _ => plain)
        fun _ => hm⟩
      · rw [take_runLength]
        rfl
      · rw [drop_runLength]
        exact headIn_dropWhile isDigit cs

/-- A number that is cut from a text can be written. -/
theorem proper_numberOf (hc : isDigit c = true) {n : Nat} (h : numberRest c cs = (.number b f, n)) :
    (numberOf b f (c :: cs.take n)).Proper := by
  obtain ⟨mark, -, number⟩ := exists_numberAt hc h
  have proper := Number.Proper.mk number.digits number.suffix.fits
  rwa [String.ofList_toList] at proper

/-! ### Reading numbers back -/

theorem markedBase?_eq_none (h : HeadIn (fun d => Base.ofLetter? d = none) cs) :
    markedBase? c cs = none := by
  unfold markedBase?
  split
  · next x d ds =>
    rw [h x rfl]
    rfl
  · rfl

theorem ofLetter?_of_isDigit (h : isDigit c = true) : Base.ofLetter? c = none := by
  have ne {x : Char} (hx : isDigit x = false) : (c == x) = false := beq_of_class h hx
  simp [Base.ofLetter?, ne (x := 'x') rfl, ne (x := 'X') rfl, ne (x := 'o') rfl,
    ne (x := 'O') rfl, ne (x := 'b') rfl, ne (x := 'B') rfl]

theorem ofLetter?_behind (hr : HeadIn (fun c => continuesWord c = false ∧ c ≠ '.') rest) :
    HeadIn (fun d => Base.ofLetter? d = none) (suffixChars s ++ rest) := by
  cases s with
  | some x =>
    intro c hc
    cases x <;> cases hc <;> rfl
  | none =>
    intro c hc
    have word := (hr c hc).1
    have ne {x : Char} (hx : continuesWord x = true) : (c == x) = false := by
      rw [beq_eq_false_iff_ne]
      rintro rfl
      rw [hx] at word
      cases word
    simp [Base.ofLetter?, ne (x := 'x') rfl, ne (x := 'X') rfl, ne (x := 'o') rfl,
      ne (x := 'O') rfl, ne (x := 'b') rfl, ne (x := 'B') rfl]

theorem mark_of_marked (h : b ≠ .decimal) :
    ∃ x, b.mark.toList = ['0', x] ∧ Base.ofLetter? x = some b := by
  cases b with
  | decimal => exact absurd rfl h
  | octal => exact ⟨'o', rfl, rfl⟩
  | hex => exact ⟨'x', rfl, rfl⟩
  | binary => exact ⟨'b', rfl, rfl⟩

theorem numberRest_of_marked {x : Char} (hx : Base.ofLetter? x = some b)
    (hd : ∀ c ∈ d :: ds, b.isDigit c = true) (hs : ∀ x ∈ s, Mantissa.marked.Carries x)
    (hr : HeadIn (fun c => continuesWord c = false ∧ c ≠ '.') rest) :
    numberRest '0' (x :: (d :: ds ++ (suffixChars s ++ rest)))
      = (.number b false, 1 + (d :: ds).length + (suffixChars s).length) := by
  have base : markedBase? '0' (x :: (d :: ds ++ (suffixChars s ++ rest))) = some b := by
    show (Base.ofLetter? x).filter (fun base => base.isDigit d) = _
    rw [hx, Option.filter_some, if_pos (hd d List.mem_cons_self)]
  have length : runLength b.isDigit (d :: ds ++ (suffixChars s ++ rest)) = (d :: ds).length :=
    runLength_append hd fun c hc => (isDigit_behind (fun y hy _ => hs y hy) hr c hc).1
  rw [numberRest_marked base, List.drop_one, List.tail_cons, length, Nat.add_comm 1,
    List.drop_succ_cons, List.drop_left, suffixLength_append hs fun c hc => (hr c hc).1]

theorem numberRest_of_integral (hd : ∀ c ∈ d :: ds, isDigit c = true)
    (hr : HeadIn (fun c => continuesWord c = false ∧ c ≠ '.') rest) :
    numberRest d (ds ++ (suffixChars s ++ rest))
      = (.number .decimal false, ds.length + (suffixChars s).length) := by
  have behind := isDigit_behind (b := .decimal) (s := s) (fun _ _ hex => by cases hex) hr
  have digits := (List.forall_mem_cons.1 hd).2
  have length : runLength isDigit (ds ++ (suffixChars s ++ rest)) = ds.length :=
    runLength_append digits fun c hc => (behind c hc).1
  have base : markedBase? d (ds ++ (suffixChars s ++ rest)) = none := by
    refine markedBase?_eq_none ?_
    cases ds with
    | nil => exact ofLetter?_behind hr
    | cons x ds =>
      intro c hc
      cases hc
      exact ofLetter?_of_isDigit (digits x List.mem_cons_self)
  have fits : ∀ x ∈ s, Mantissa.integral.Carries x := fun _ _ => trivial
  rw [numberRest_integral base ?_, length, List.drop_left,
    suffixLength_append fits fun c hc => (hr c hc).1]
  intro x xs e
  rw [length, List.drop_left] at e
  exact absurd rfl (behind '.' (by rw [e]; rfl)).2

theorem numberRest_of_fractional {d' : Char} {ds' : List Char}
    (hd : ∀ c ∈ d :: ds, isDigit c = true) (hd' : ∀ c ∈ d' :: ds', isDigit c = true)
    (hs : ∀ x ∈ s, Mantissa.fractional.Carries x)
    (hr : HeadIn (fun c => continuesWord c = false ∧ c ≠ '.') rest) :
    numberRest d (ds ++ '.' :: d' :: (ds' ++ (suffixChars s ++ rest)))
      = (.number .decimal true, ds.length + 2 + ds'.length + (suffixChars s).length) := by
  have behind := isDigit_behind (b := .decimal) (s := s) (fun _ _ hex => by cases hex) hr
  have digits := (List.forall_mem_cons.1 hd).2
  have length : runLength isDigit (ds ++ '.' :: d' :: (ds' ++ (suffixChars s ++ rest))) = ds.length :=
    runLength_append digits fun c hc => by cases hc; rfl
  have length' : runLength isDigit (ds' ++ (suffixChars s ++ rest)) = ds'.length :=
    runLength_append (List.forall_mem_cons.1 hd').2 fun c hc => (behind c hc).1
  have base : markedBase? d (ds ++ '.' :: d' :: (ds' ++ (suffixChars s ++ rest))) = none := by
    refine markedBase?_eq_none fun c hc => ?_
    cases ds with
    | nil =>
      cases hc
      rfl
    | cons y ds =>
      cases hc
      exact ofLetter?_of_isDigit (digits _ List.mem_cons_self)
  have tail : (ds ++ '.' :: d' :: (ds' ++ (suffixChars s ++ rest))).drop (ds.length + 2 + ds'.length)
      = suffixChars s ++ rest := by
    have whole : ds ++ '.' :: d' :: (ds' ++ (suffixChars s ++ rest))
        = (ds ++ '.' :: d' :: ds') ++ (suffixChars s ++ rest) := by simp
    rw [whole]
    exact List.drop_left' (by simp; omega)
  rw [numberRest_fractional base (by rw [length, List.drop_left]) (hd' d' List.mem_cons_self), length,
    length', tail, suffixLength_append hs fun c hc => (hr c hc).1]

theorem toList_text (b : Base) (ds : List Char) (s : Option Suffix) (f : Bool) :
    (Number.text ⟨b, String.ofList ds, s, f⟩).toList = b.mark.toList ++ (ds ++ suffixChars s) := by
  unfold Number.text
  rw [String.toList_append, String.toList_append, String.toList_ofList, List.append_assoc]
  cases s <;> rfl

theorem isDigit_text {n : Number} (h : n.Proper) :
    ∃ c cs, n.text.toList = c :: cs ∧ isDigit c = true := by
  obtain @⟨b, m, f, ds, s, digits, -⟩ := h
  rw [toList_text]
  cases digits with
  | marked marked _ =>
    obtain ⟨x, mark, -⟩ := mark_of_marked marked
    rw [mark]
    exact ⟨'0', _, rfl, rfl⟩
  | integral digits | fractional digits _ => exact ⟨_, _, rfl, digits _ List.mem_cons_self⟩

theorem mark_mem_marks (b : Base) : b.mark.toList ∈ b.marks := by cases b <;> decide

/-- A number is read as far as its suffix, however the mark of its base is written. -/
theorem numberRest_of_digits (h : Digits b m f ds) {mark : List Char} (hm : mark ∈ b.marks)
    (hs : ∀ x ∈ s, m.Carries x) (text : c :: cs = mark ++ (ds ++ suffixChars s))
    (hr : HeadIn (fun c => continuesWord c = false ∧ c ≠ '.') rest) :
    isDigit c = true ∧ numberRest c (cs ++ rest) = (.number b f, cs.length) := by
  cases h with
  | @marked _ d ds marked digits =>
    obtain ⟨x, rfl, letter⟩ := (mem_marks_iff marked).1 hm
    obtain ⟨rfl, rfl⟩ := List.cons.inj text
    refine ⟨rfl, ?_⟩
    show numberRest '0' ((x :: (d :: ds ++ suffixChars s)) ++ rest)
      = (.number b false, (x :: (d :: ds ++ suffixChars s)).length)
    rw [List.cons_append, List.append_assoc, numberRest_of_marked letter digits hs hr]
    simp only [List.length_cons, List.length_append]
    congr 1
    omega
  | @integral d ds digits =>
    obtain rfl := List.mem_singleton.1 hm
    obtain ⟨rfl, rfl⟩ := List.cons.inj text
    refine ⟨digits c List.mem_cons_self, ?_⟩
    rw [List.append_eq, List.append_assoc, numberRest_of_integral digits hr, List.length_append]
  | @fractional d ds d' ds' digits digits' =>
    obtain rfl := List.mem_singleton.1 hm
    obtain ⟨rfl, rfl⟩ := List.cons.inj text
    refine ⟨digits c List.mem_cons_self, ?_⟩
    simp only [List.append_eq, List.append_assoc, List.cons_append,
      numberRest_of_fractional digits digits' hs hr, List.length_append, List.length_cons]
    congr 1
    omega

theorem legible_number {n : Number} (h : n.Proper) : Legible (.number n) := by
  obtain ⟨c, cs, text, -⟩ := isDigit_text h
  obtain @⟨b, m, f, ds, s, digits, hs⟩ := h
  have parts := text.symm.trans (toList_text b ds s f)
  have kind : numberOf b f (c :: cs) = ⟨b, String.ofList ds, s, f⟩ := by
    rw [parts]
    exact digits.proper (digits.length_mark (mark_mem_marks b)) hs
  refine legible_of_boundary (.number b f) text
    (congrArg (fun n => some (TokenKind.number n)) kind) fun rest hr => ?_
  obtain ⟨digit, cut⟩ := numberRest_of_digits digits (mark_mem_marks b) hs parts hr
  rw [boundary_of_isDigit digit, cut]

end Lexeme

end Surface
