import Surface.Lexed

/-!
# Lexemes and lines

No lexeme goes on behind a newline, except that a newline may have a carriage return before it. A
text can therefore be cut line by line.

Results:
* `boundary_le`: a lexeme takes no more than there is.
* `Neutral`: characters in front of which words, numbers and operators end.
* `boundary_front`: where a lexeme ends does not depend on the lines behind it, nor on the text behind the
  one that it is within or that it ends as a closed one.
* `endsWithNewline`: the lexemes of a line in front of other lines.
* `Sign`, `signs`: what the lexemes of a text mean; `signs_append_line`: texts line by line.
-/

namespace Surface

/-- The kinds of lexemes that anything on their line may go on with: blanks, comments and what lacks its
closing quote. -/
def LexemeKind.isOpen : LexemeKind → Bool
  | .blanks | .lineComment | .docComment | .openString | .openChar => true
  | _ => false

namespace Lexeme

variable {p : Char → Bool} {c x : Char} {cs rest : List Char} {taken : Nat}

/-! ## Extents -/

theorem runLength_le (p : Char → Bool) (cs : List Char) : runLength p cs ≤ cs.length :=
  (List.takeWhile_prefix p).length_le

theorem symbolRun_le (taken : Nat) (cs : List Char) : symbolRun taken cs ≤ taken + cs.length := by
  fun_induction symbolRun taken cs with
  | case1 taken => exact Nat.le_refl _
  | case2 taken c cs _ ih =>
    rw [List.length_cons]
    omega
  | case3 taken c cs _ => exact Nat.le_add_right _ _

theorem blankRun_le (taken : Nat) (cs : List Char) : blankRun taken cs ≤ taken + cs.length := by
  fun_induction blankRun taken cs with
  | case1 taken => exact Nat.le_refl _
  | case2 taken c cs _ ih =>
    rw [List.length_cons]
    omega
  | case3 taken c cs _ => exact Nat.le_add_right _ _

theorem stringRest_le (taken : Nat) (cs : List Char) : (stringRest taken cs).2 ≤ taken + cs.length := by
  fun_induction stringRest taken cs <;> simp only [List.length_cons, List.length_nil] at * <;> omega

theorem quoteRest_le (cs : List Char) : (quoteRest cs).2 ≤ cs.length := by
  have word := runLength_le continuesWord cs
  unfold quoteRest
  dsimp only
  split
  · exact Nat.le_refl _
  · next c rest =>
    split
    · exact Nat.succ_le_succ (Nat.zero_le _)
    · split
      · next closed =>
        cases rest with
        | nil => cases closed
        | cons => simp
      · exact Nat.succ_le_succ (Nat.succ_le_succ (Nat.zero_le _))
  · split
    · exact word
    · exact Nat.succ_le_succ (Nat.succ_le_succ (Nat.zero_le _))
  · exact word

theorem suffixLength_le (mantissa : Mantissa) (cs : List Char) :
    suffixLength mantissa cs ≤ cs.length := by
  unfold suffixLength
  cases hs : Suffix.longestAt? (mantissa != .marked) cs with
  | none => exact Nat.zero_le _
  | some s =>
    have spelled := List.find?_some hs
    rw [Bool.and_eq_true, List.isPrefixOf_iff_prefix] at spelled
    dsimp only
    split
    · exact Nat.zero_le _
    · rw [← String.length_toList]
      exact spelled.2.length_le

theorem numberRest_le (c : Char) (cs : List Char) : (numberRest c cs).2 ≤ cs.length := by
  have suffix (mantissa : Mantissa) {n : Nat} (hn : n ≤ cs.length) :
      n + suffixLength mantissa (cs.drop n) ≤ cs.length := by
    have := suffixLength_le mantissa (cs.drop n)
    rw [List.length_drop] at this
    omega
  have digits := runLength_le isDigit cs
  unfold numberRest
  split
  · next base h =>
    have marked : cs ≠ [] := by
      rintro rfl
      simp [markedBase?] at h
    have more := runLength_le base.isDigit (cs.drop 1)
    have pos := List.length_pos_iff.2 marked
    rw [List.length_drop] at more
    exact suffix _ (by omega)
  · dsimp only
    split
    · next d rest h =>
      split
      · have fraction := runLength_le isDigit rest
        have length := congrArg List.length h
        rw [List.length_drop, List.length_cons, List.length_cons] at length
        exact suffix _ (by omega)
      · exact suffix _ digits
    · exact suffix _ digits

theorem snd_ite_le {r : Prop} [Decidable r] {u v : LexemeKind × Nat} {n : Nat}
    (hu : r → u.2 ≤ n) (hv : ¬ r → v.2 ≤ n) : (if r then u else v).2 ≤ n := by
  split
  · next h => exact hu h
  · next h => exact hv h

/-- A lexeme takes no more than there is. -/
theorem boundary_le (c : Char) (cs : List Char) : (boundary c cs).2 ≤ cs.length := by
  have blanks := blankRun_le 0 cs
  have string := stringRest_le 0 cs
  have symbols := symbolRun_le 0 cs
  rw [Nat.zero_add] at blanks string symbols
  refine snd_ite_le (fun h => ?_) fun _ => ?_
  · -- a carriage return with its newline
    cases cs with
    | nil => exact absurd (Bool.and_eq_true_iff.1 h).2 (by decide)
    | cons => exact Nat.succ_le_succ (Nat.zero_le _)
  refine snd_ite_le (fun _ => blanks) fun _ => ?_
  refine snd_ite_le (fun _ => Nat.zero_le _) fun _ => ?_
  refine snd_ite_le (fun _ => Nat.zero_le _) fun _ => ?_
  refine snd_ite_le (fun _ => quoteRest_le cs) fun _ => ?_
  refine snd_ite_le (fun _ => runLength_le _ cs) fun _ => ?_
  refine snd_ite_le (fun _ => numberRest_le c cs) fun _ => ?_
  refine snd_ite_le (fun _ => string) fun _ => ?_
  refine snd_ite_le (fun _ => ?_) fun _ => ?_
  · exact snd_ite_le (fun _ => Nat.zero_le _) fun _ => runLength_le _ cs
  refine snd_ite_le (fun _ => runLength_le _ cs) fun _ => ?_
  refine snd_ite_le (fun _ => symbols) fun _ => ?_
  cases Punct.ofChar? c with
  | some p => exact Nat.zero_le _
  | none => exact runLength_le _ cs

/-! ## The first line -/

/-- A text that starts with one of some characters, unless it is empty. -/
def HeadIn (p : Char → Prop) (cs : List Char) : Prop := ∀ c ∈ cs.head?, p c

theorem takeWhile_behind (hr : HeadIn (fun c => p c = false) rest) (cs : List Char) :
    (cs ++ rest).takeWhile p = cs.takeWhile p := by
  induction cs with
  | nil =>
    cases rest with
    | nil => rfl
    | cons d ds => exact List.takeWhile_cons_of_neg (by simp [hr d rfl])
  | cons c cs ih => rw [List.cons_append, List.takeWhile_cons, List.takeWhile_cons, ih]

theorem isPrefixOf_behind {w : List Char} (hr : HeadIn (fun c => c ∉ w) rest) (cs : List Char) :
    w.isPrefixOf (cs ++ rest) = w.isPrefixOf cs := by
  induction cs generalizing w with
  | nil =>
    cases w with
    | nil => rfl
    | cons c w =>
      cases rest with
      | nil => rfl
      | cons d ds =>
        have : c ≠ d := fun e => hr d rfl (e ▸ .head _)
        simp [List.isPrefixOf, this]
  | cons d cs ih =>
    cases w with
    | nil => rfl
    | cons c w =>
      rw [List.cons_append, List.isPrefixOf, List.isPrefixOf,
        ih fun d hd hm => hr d hd (.tail _ hm)]

theorem headIn_nil {p : Char → Prop} : HeadIn p [] := nofun

theorem headIn_cons {p : Char → Prop} (h : p c) : HeadIn p (c :: rest) := fun d hd => by
  cases hd
  exact h

/-- A character that goes on with no word, number or operator and that no look ahead asks for. -/
structure Neutral (z : Char) : Prop where
  word : continuesWord z = false
  symbol : isSymbol z = false
  unknown : startsNothing z = false
  digit : ∀ base : Base, base.isDigit z = false
  base : Base.ofLetter? z = none
  suffix : ∀ s : Suffix, z ∉ s.text.toList

theorem neutral_newline : Neutral '\n' :=
  ⟨rfl, rfl, rfl, fun base => by cases base <;> rfl, rfl, fun s => by cases s <;> decide⟩

theorem neutral_blank : Neutral ' ' :=
  ⟨rfl, rfl, rfl, fun base => by cases base <;> rfl, rfl, fun s => by cases s <;> decide⟩

section

variable {z : Char}

theorem runLength_front (h : p z = false) : runLength p (cs ++ z :: rest) = runLength p cs :=
  congrArg List.length (takeWhile_behind (headIn_cons h) cs)

/-- A run that ends within a text does not depend on what stands behind the text. -/
theorem runLength_within {behind : List Char} (h : runLength p cs < cs.length) :
    runLength p (cs ++ behind) = runLength p cs := by
  exact congrArg List.length (List.takeWhile_append.trans (if_neg (Nat.ne_of_lt h)))

theorem head_front (h : x ≠ z) : ((cs ++ z :: rest).head? == some x) = (cs.head? == some x) := by
  cases cs with
  | nil =>
    have : ¬ some z = some x := fun e => h (Option.some.inj e).symm
    simpa using h.symm
  | cons => rfl

variable (hz : Neutral z)

include hz

theorem Neutral.ne (h : continuesWord x = true ∨ isSymbol x = true ∨ startsNothing x = true) : x ≠ z := by
  rintro rfl
  rcases h with h | h | h
  · exact Bool.false_ne_true (hz.word.symm.trans h)
  · exact Bool.false_ne_true (hz.symbol.symm.trans h)
  · exact Bool.false_ne_true (hz.unknown.symm.trans h)

theorem symbolRun_front (taken : Nat) (cs : List Char) :
    symbolRun taken (cs ++ z :: rest) = symbolRun taken cs := by
  have slash : '/' ≠ z := hz.ne (.inr (.inl rfl))
  fun_induction symbolRun taken cs with
  | case1 taken =>
    rw [List.nil_append, symbolRun, hz.symbol]
    rfl
  | case2 taken c cs h ih =>
    rw [List.cons_append, symbolRun, head_front slash, if_pos h, ih]
  | case3 taken c cs h =>
    rw [List.cons_append, symbolRun, head_front slash, if_neg h]

end

theorem stringRest_plain (hq : c ≠ '"') (he : c ≠ '\\') (taken : Nat) (cs : List Char) :
    stringRest taken (c :: cs)
      = if endsLine c then (.openString, taken) else stringRest (taken + 1) cs :=
  stringRest.eq_5 taken c cs hq (fun e => absurd e he) fun _ _ e => absurd e he

/-- A string goes on behind the end of a text if it is not closed, but not behind the end of a line. -/
theorem stringRest_front {z : Char} (taken : Nat) (cs : List Char) (h : endsLine z = true
      ∨ ((stringRest taken cs).1 = .openString → (stringRest taken cs).2 < taken + cs.length)) :
    stringRest taken (cs ++ z :: rest) = stringRest taken cs := by
  fun_induction stringRest taken cs with
  | case1 taken =>
    have line := h.resolve_right fun inside => absurd (inside rfl) (Nat.lt_irrefl _)
    have plain : z ≠ '"' ∧ z ≠ '\\' := by constructor <;> rintro rfl <;> cases line
    rw [List.nil_append, stringRest_plain plain.1 plain.2, if_pos line]
  | case2 taken cs => rfl
  | case3 taken =>
    have line := h.resolve_right fun inside => absurd (inside rfl) (Nat.lt_irrefl _)
    exact if_pos line
  | case4 taken c cs line => exact if_pos line
  | case5 taken c cs inside ih =>
    refine (if_neg inside).trans (ih (h.imp_right fun ends e => ?_))
    have := ends e
    simp only [List.length_cons] at this
    omega
  | case6 taken c cs quote last escape line =>
    have plain : c ≠ '\\' := fun e => by
      cases cs <;> first | exact last e rfl | exact escape _ _ e rfl
    rw [List.cons_append, stringRest_plain quote plain, if_pos line]
  | case7 taken c cs quote last escape inside ih =>
    have plain : c ≠ '\\' := fun e => by
      cases cs <;> first | exact last e rfl | exact escape _ _ e rfl
    rw [List.cons_append, stringRest_plain quote plain, if_neg inside]
    refine ih (h.imp_right fun ends e => ?_)
    have := ends e
    rw [List.length_cons] at this
    omega

theorem quoteRest_word (he : c ≠ '\\') (hx : x ≠ '\'') (cs : List Char) :
    quoteRest (c :: x :: cs) = (.word, runLength continuesWord (c :: x :: cs)) := by
  unfold quoteRest
  split <;> simp_all

theorem quoteRest_quoted (he : c ≠ '\\') (cs : List Char) :
    quoteRest (c :: '\'' :: cs) = if c == '\'' || endsLine c || cs.head?.any continuesWord
      then (.word, runLength continuesWord (c :: '\'' :: cs)) else (.char, 2) := by
  unfold quoteRest
  split <;> simp_all

section

variable {z : Char} (hz : Neutral z)

include hz

/-- Behind a single quote, a character in front of which the text is cut may still be quoted or escaped,
unless it ends the line. -/
theorem quoteRest_front {cs : List Char} (h : endsLine z = true ∨ rest.head? ≠ some '\'' ∧ cs ≠ ['\\']) :
    quoteRest (cs ++ z :: rest) = quoteRest cs := by
  have word (cs : List Char) : runLength continuesWord (cs ++ z :: rest) = runLength continuesWord cs :=
    runLength_front hz.word
  have quote : '\'' ≠ z := hz.ne (.inl rfl)
  have escape : '\\' ≠ z := hz.ne (.inr (.inr rfl))
  match cs with
  | [] =>
    cases rest with
    | nil =>
      have alone : quoteRest [z] = (.word, runLength continuesWord [z]) := by
        unfold quoteRest
        split <;> simp_all
      exact alone.trans (congrArg _ (word []))
    | cons x rest =>
      by_cases hx : x = '\''
      · subst hx
        rcases h with line | ⟨no, -⟩
        · rw [List.nil_append, quoteRest_quoted escape.symm, line, Bool.or_true, Bool.true_or, if_pos rfl]
          exact congrArg _ (word [])
        · exact absurd rfl no
      · exact (quoteRest_word escape.symm hx rest).trans (congrArg _ (word []))
  | [c] =>
    by_cases he : c = '\\'
    · subst he
      rcases h with line | ⟨-, no⟩
      · show (if endsLine z then (LexemeKind.openChar, 1) else _) = _
        rw [if_pos line]
        rfl
      · exact absurd rfl no
    · have plain : quoteRest [c] = (.word, runLength continuesWord [c]) := by
        unfold quoteRest
        split <;> simp_all
      exact (quoteRest_word he quote.symm rest).trans ((congrArg _ (word [c])).trans plain.symm)
  | c :: x :: cs =>
    by_cases he : c = '\\'
    · subst he
      show (if endsLine x then (LexemeKind.openChar, 1)
        else if (cs ++ z :: rest).head? == some '\'' then (.char, 3) else (.openChar, 2)) = _
      rw [head_front quote]
      rfl
    · by_cases hx : x = '\''
      · subst hx
        have behind : (cs ++ z :: rest).head?.any continuesWord = cs.head?.any continuesWord := by
          cases cs with
          | nil => exact hz.word
          | cons => rfl
        have := word (c :: '\'' :: cs)
        rw [List.cons_append, List.cons_append] at this ⊢
        rw [quoteRest_quoted he, quoteRest_quoted he, behind, this]
      · have := word (c :: x :: cs)
        rw [List.cons_append, List.cons_append] at this ⊢
        rw [quoteRest_word he hx, quoteRest_word he hx, this]

theorem suffixLength_front (mantissa : Mantissa) (cs : List Char) :
    suffixLength mantissa (cs ++ z :: rest) = suffixLength mantissa cs := by
  have spelled (s : Suffix) : s.text.toList.isPrefixOf (cs ++ z :: rest) = s.text.toList.isPrefixOf cs :=
    isPrefixOf_behind (headIn_cons (hz.suffix s)) cs
  unfold suffixLength Suffix.longestAt? Suffix.longestWhere?
  simp only [spelled]

theorem markedBase_front (c : Char) (cs : List Char) :
    markedBase? c (cs ++ z :: rest) = markedBase? c cs := by
  by_cases hc : c = '0'
  · subst hc
    match cs with
    | [] =>
      cases rest with
      | nil => rfl
      | cons x rest =>
        show (Base.ofLetter? z).filter _ = _
        rw [hz.base]
        rfl
    | [x] =>
      show (Base.ofLetter? x).filter (fun base => base.isDigit z) = none
      simp [hz.digit]
    | x :: d :: cs => rfl
  · unfold markedBase?
    split
    · exact absurd rfl hc
    · split
      · exact absurd rfl hc
      · rfl

theorem numberRest_front (c : Char) (cs : List Char) :
    numberRest c (cs ++ z :: rest) = numberRest c cs := by
  have suffix (mantissa : Mantissa) {n : Nat} (hn : n ≤ cs.length) :
      suffixLength mantissa ((cs ++ z :: rest).drop n) = suffixLength mantissa (cs.drop n) := by
    rw [List.drop_append_of_le_length hn, suffixLength_front hz]
  have digits (base : Base) (cs : List Char) :
      runLength base.isDigit (cs ++ z :: rest) = runLength base.isDigit cs :=
    runLength_front (hz.digit base)
  have plain := runLength_le isDigit cs
  have dot : '.' ≠ z := hz.ne (.inr (.inl rfl))
  unfold numberRest
  rw [markedBase_front hz, show runLength isDigit (cs ++ z :: rest) = runLength isDigit cs from
    digits .decimal cs]
  cases hm : markedBase? c cs with
  | some base =>
    have marked : 1 ≤ cs.length := by
      cases cs with
      | nil => simp [markedBase?] at hm
      | cons => exact Nat.succ_le_succ (Nat.zero_le _)
    have more := runLength_le base.isDigit (cs.drop 1)
    rw [List.length_drop] at more
    dsimp only
    rw [List.drop_append_of_le_length marked, digits, suffix _ (by omega)]
  | none =>
    dsimp only
    rw [List.drop_append_of_le_length plain]
    match ht : cs.drop (runLength isDigit cs) with
    | [] =>
      have none : suffixLength .integral ([] ++ z :: rest) = _ := suffixLength_front hz .integral []
      dsimp only [List.nil_append] at none ⊢
      split
      · next e => exact absurd (List.cons.inj e).1 dot.symm
      · rw [none]
    | [x] =>
      have none : suffixLength .integral ([x] ++ z :: rest) = _ := suffixLength_front hz .integral [x]
      by_cases hx : x = '.'
      · subst hx
        have plain : isDigit z = false := hz.digit .decimal
        show (if isDigit z then _ else (LexemeKind.number .decimal false, _)) = _
        rw [plain, if_neg Bool.false_ne_true, none]
        rfl
      · dsimp only [List.cons_append, List.nil_append] at none ⊢
        split
        · next e => exact absurd (List.cons.inj e).1 hx
        · split
          · next e => exact absurd (List.cons.inj e).1 hx
          · rw [none]
    | x :: d :: tail =>
      have whole : suffixLength .integral (x :: d :: tail ++ z :: rest) = _ :=
        suffixLength_front hz .integral (x :: d :: tail)
      by_cases hx : x = '.'
      · subst hx
        have length := congrArg List.length ht
        have fraction := runLength_le isDigit tail
        rw [List.length_drop, List.length_cons, List.length_cons] at length
        show (if isDigit d then
            let n := runLength isDigit cs + 2 + runLength isDigit (tail ++ z :: rest)
            (LexemeKind.number .decimal true,
              n + suffixLength .fractional ((cs ++ z :: rest).drop n))
          else (.number .decimal false, _ + suffixLength .integral ('.' :: d :: tail ++ z :: rest)))
          = _
        rw [show runLength isDigit (tail ++ z :: rest) = runLength isDigit tail from
          digits .decimal tail, whole]
        dsimp only
        rw [suffix _ (by omega)]
        rfl
      · dsimp only [List.cons_append] at whole ⊢
        split
        · next e => exact absurd (List.cons.inj e).1 hx
        · split
          · next e => exact absurd (List.cons.inj e).1 hx
          · rw [whole]

end

/-- Where a lexeme that does not start with a blank ends is not changed by what stands behind the end of
its line, nor by what stands behind a text that it is within or that it ends as a closed one. -/
theorem boundary_front {z : Char} (hz : Neutral z) (solid : isHorizontal c = false) (hr : c ≠ '\r')
    {cs : List Char} (h : endsLine z = true ∨ rest.head? ≠ some '\''
      ∧ ((boundary c cs).1.isOpen = true → (boundary c cs).2 < cs.length)) :
    boundary c (cs ++ z :: rest) = boundary c cs := by
  by_cases quote : c = '\''
  · subst quote
    refine quoteRest_front hz (h.imp_right fun ⟨plain, ends⟩ => ⟨plain, ?_⟩)
    rintro rfl
    exact absurd (ends rfl) (Nat.lt_irrefl _)
  by_cases string : c = '"'
  · subst string
    refine stringRest_front 0 cs (h.imp_right fun ⟨_, ends⟩ unclosed => ?_)
    have within : (stringRest 0 cs).2 < cs.length := ends (by
      show (stringRest 0 cs).1.isOpen = true
      rw [unclosed]
      rfl)
    rwa [Nat.zero_add]
  have slash : '/' ≠ z := hz.ne (.inr (.inl rfl))
  by_cases slashes : (c == '/' && cs.head? == some '/') = true
  · obtain ⟨first, second⟩ := Bool.and_eq_true_iff.1 slashes
    obtain ⟨behind, rfl⟩ := List.head?_eq_some_iff.1 (beq_iff_eq.1 second)
    obtain rfl := beq_iff_eq.1 first
    have comment (xs : List Char) : boundary '/' ('/' :: xs)
        = (if xs.head? == some '!' then .docComment else .lineComment, lineRest xs + 1) := rfl
    have line : lineRest (behind ++ z :: rest) = lineRest behind := by
      rcases h with line | ⟨-, ends⟩
      · exact runLength_front (by rw [line]; rfl)
      · refine runLength_within (Nat.lt_of_succ_lt_succ (ends ?_))
        rw [comment]
        dsimp only
        split <;> rfl
    rw [List.cons_append, comment, comment, line, head_front (hz.ne (.inr (.inl rfl)))]
  · have carriage (ds : List Char) : ¬ (c == '\r' && ds.head? == some '\n') = true := by simp [hr]
    have blank : ¬ (isHorizontal c || c == '\r') = true := by simp [solid, hr]
    have quote' : ¬ (c == '\'') = true := by simpa using quote
    have string' : ¬ (c == '"') = true := by simpa using string
    unfold boundary
    rw [if_neg (carriage _), if_neg (carriage _), if_neg blank, if_neg blank, if_neg quote',
      if_neg quote', runLength_front hz.word, numberRest_front hz, if_neg string', if_neg string',
      runLength_front hz.symbol, head_front slash, if_neg slashes, if_neg slashes, symbolRun_front hz,
      runLength_front hz.unknown]

/-! ## What lexemes mean -/

/-- What a lexeme says about the tokens of a text and about its documentation. -/
inductive Sign
  | separator (isSemicolon : Bool)
  | doc (content : String)
  | token (kind : TokenKind)
deriving DecidableEq

/-- What a lexeme means; blanks and plain comments mean nothing. -/
def sign? (l : Lexeme) : Option Sign :=
  match l.kind with
  | .blanks | .lineComment => none
  | .newline => some (.separator false)
  | .semicolon => some (.separator true)
  | .docComment => some (.doc (String.ofList (Text.trim (l.text.drop 3))))
  | _ => l.kind?.map .token

/-- What the lexemes of a text mean. -/
def signs (cs : List Char) : List Sign := (lexemes cs).filterMap sign?

theorem cut_eq (done : Array Lexeme) (cs : List Char) :
    (cut done cs).toList = done.toList ++ (cut #[] cs).toList := by
  generalize hn : cs.length = n
  induction n using Nat.strongRecOn generalizing done cs with
  | ind n ih =>
    cases cs with
    | nil => rw [cut, cut, List.append_nil]
    | cons c cs =>
      have behind (done : Array Lexeme) := ih (cs.drop (boundary c cs).2).length (by
        rw [← hn, List.length_drop, List.length_cons]
        omega) done _ rfl
      rw [cut, cut]
      dsimp only
      rw [behind, behind (#[].push _), Array.toList_push, Array.toList_push, List.append_assoc]
      rfl

theorem lexemes_cons (c : Char) (cs : List Char) : lexemes (c :: cs) =
    ⟨(boundary c cs).1, c :: cs.take (boundary c cs).2⟩ :: lexemes (cs.drop (boundary c cs).2) := by
  unfold lexemes
  rw [cut, cut_eq]
  rfl

theorem lexemes_nil : lexemes [] = [] := by
  rw [lexemes, cut]

theorem signs_nil : signs [] = [] := by
  rw [signs, lexemes_nil]
  rfl

theorem signs_cons (c : Char) (cs : List Char) : signs (c :: cs) =
    (sign? ⟨(boundary c cs).1, c :: cs.take (boundary c cs).2⟩).toList
      ++ signs (cs.drop (boundary c cs).2) := by
  unfold signs
  rw [lexemes_cons, List.filterMap_cons]
  cases sign? ⟨(boundary c cs).1, c :: cs.take (boundary c cs).2⟩ <;> rfl

/-! ## Texts line by line -/

theorem signs_newline (cs : List Char) : signs ('\n' :: cs) = .separator false :: signs cs :=
  signs_cons '\n' cs

theorem boundary_blank (h : (isHorizontal c || c == '\r') = true)
    (hn : ¬ (c == '\r' && cs.head? == some '\n') = true) :
    boundary c cs = (.blanks, blankRun 0 cs) := by
  rw [boundary, if_neg hn, if_pos h]

theorem blankRun_eq (taken : Nat) (cs : List Char) : blankRun taken cs = taken + blankRun 0 cs := by
  induction cs generalizing taken with
  | nil => rfl
  | cons c cs ih =>
    rw [blankRun, blankRun]
    split
    · rw [ih (taken + 1), ih (0 + 1)]
      omega
    · rfl

/-- Blanks mean nothing, one by one. -/
theorem signs_blank (h : (isHorizontal c || c == '\r') = true)
    (hn : ¬ (c == '\r' && cs.head? == some '\n') = true) : signs (c :: cs) = signs cs := by
  have whole {c : Char} {cs : List Char} (h : (isHorizontal c || c == '\r') = true)
      (hn : ¬ (c == '\r' && cs.head? == some '\n') = true) :
      signs (c :: cs) = signs (cs.drop (blankRun 0 cs)) := by
    rw [signs_cons, boundary_blank h hn]
    rfl
  rw [whole h hn]
  cases cs with
  | nil => rfl
  | cons d ds =>
    rw [blankRun]
    split
    · next more =>
      rw [blankRun_eq, Nat.zero_add, Nat.add_comm, List.drop_succ_cons]
      refine (whole ?_ ?_).symm
      · rw [Bool.or_eq_true, Bool.and_eq_true] at more
        exact Bool.or_eq_true_iff.2 (more.imp_right And.left)
      · intro newline
        rw [Bool.and_eq_true, beq_iff_eq, beq_iff_eq] at newline
        obtain ⟨rfl, head⟩ := newline
        rw [head] at more
        exact absurd more (by decide)
    · rfl

/-- Blanks at the end of a line reach as far as at the end of a text, but a carriage return there
belongs to the newline. -/
theorem blankRun_line (cs rest : List Char) :
    blankRun 0 (cs ++ '\n' :: rest) = blankRun 0 cs
      ∨ ∃ ds, cs = ds ++ ['\r'] ∧ blankRun 0 cs = cs.length
        ∧ blankRun 0 (cs ++ '\n' :: rest) = ds.length := by
  induction cs with
  | nil => exact .inl rfl
  | cons c cs ih =>
    by_cases last : c = '\r' ∧ cs = []
    · obtain ⟨rfl, rfl⟩ := last
      exact .inr ⟨[], rfl, rfl, rfl⟩
    have same : (c == '\r' && (cs ++ '\n' :: rest).head? != some '\n')
        = (c == '\r' && cs.head? != some '\n') := by
      cases cs with
      | nil =>
        have : (c == '\r') = false := by simpa using last
        rw [this, Bool.false_and, Bool.false_and]
      | cons => rfl
    rw [List.cons_append, blankRun, blankRun, same]
    split
    · rw [blankRun_eq (0 + 1), blankRun_eq (0 + 1) cs]
      rcases ih with e | ⟨ds, e, e', e''⟩
      · exact .inl (by rw [e])
      · refine .inr ⟨c :: ds, by rw [e, List.cons_append], ?_, ?_⟩
        · rw [e', List.length_cons]
          omega
        · rw [e'', List.length_cons]
          omega
    · exact .inl rfl

/-- In front of a newline a line has the lexemes that it has alone, except that blanks at its end may
leave a carriage return to the newline. -/
def EndsWithNewline (cs rest : List Char) : Prop :=
  ∃ ls blanks blanks' newline, lexemes cs = ls ++ blanks
    ∧ lexemes (cs ++ '\n' :: rest) = ls ++ (blanks' ++ newline :: lexemes rest)
    ∧ (∀ l ∈ blanks ++ blanks', l.kind = .blanks) ∧ newline.kind = .newline

/-- A lexeme that ends where it ends on its line alone goes in front. -/
theorem EndsWithNewline.cons (h : boundary c (cs ++ '\n' :: rest) = boundary c cs)
    (behind : EndsWithNewline (cs.drop (boundary c cs).2) rest) : EndsWithNewline (c :: cs) rest := by
  obtain ⟨ls, blanks, blanks', newline, e, e', kinds⟩ := behind
  have within := boundary_le c cs
  refine ⟨⟨(boundary c cs).1, c :: cs.take (boundary c cs).2⟩ :: ls, blanks, blanks', newline, ?_, ?_,
    kinds⟩
  · rw [lexemes_cons, e, List.cons_append]
  · rw [List.cons_append, lexemes_cons, h, List.take_append_of_le_length within,
      List.drop_append_of_le_length within, e', List.cons_append]

/-- A line has the lexemes that it has alone, whatever is on the lines behind it. -/
theorem endsWithNewline (cs rest : List Char) : EndsWithNewline cs rest := by
  generalize hn : cs.length = n
  induction n using Nat.strongRecOn generalizing cs with
  | ind n ih =>
    match cs with
    | [] => exact ⟨[], [], [], _, lexemes_nil, lexemes_cons '\n' rest, nofun, rfl⟩
    | c :: cs =>
      rw [List.length_cons] at hn
      have step (h : boundary c (cs ++ '\n' :: rest) = boundary c cs) : EndsWithNewline (c :: cs) rest :=
        .cons h (ih _ (by rw [List.length_drop]; omega) _ rfl)
      by_cases blank : (isHorizontal c || c == '\r') = true
      · by_cases carriage : (c == '\r' && cs.head? == some '\n') = true
        · -- a carriage return with a newline of the line's own
          have carriage' : (c == '\r' && (cs ++ '\n' :: rest).head? == some '\n') = true := by
            cases cs with
            | nil => exact absurd (Bool.and_eq_true_iff.1 carriage).2 (by decide)
            | cons => exact carriage
          exact step (by rw [boundary, if_pos carriage', boundary, if_pos carriage])
        by_cases last : c = '\r' ∧ cs = []
        · -- the newline takes the carriage return before it
          obtain ⟨rfl, rfl⟩ := last
          refine ⟨[], [⟨.blanks, ['\r']⟩], [], _, ?_, lexemes_cons '\r' ('\n' :: rest), ?_, rfl⟩
          · rw [lexemes_cons, List.drop_nil, lexemes_nil]
            rfl
          · exact List.forall_mem_singleton.2 rfl
        have carriage' : ¬ (c == '\r' && (cs ++ '\n' :: rest).head? == some '\n') = true := by
          cases cs with
          | nil => exact fun h => last ⟨beq_iff_eq.1 (Bool.and_eq_true_iff.1 h).1, rfl⟩
          | cons => exact carriage
        have alone := boundary_blank blank carriage
        have before := boundary_blank blank carriage'
        rcases blankRun_line cs rest with e | ⟨ds, rfl, e, e'⟩
        · exact step (by rw [before, e, alone])
        · -- blanks up to a carriage return that the newline takes
          have split : ds ++ ['\r'] ++ '\n' :: rest = ds ++ '\r' :: '\n' :: rest := by simp
          refine ⟨[], [⟨.blanks, c :: (ds ++ ['\r'])⟩], [⟨.blanks, c :: ds⟩], ⟨.newline, ['\r', '\n']⟩,
            ?_, ?_, ?_, rfl⟩
          · rw [lexemes_cons, alone, e, List.take_length, List.drop_length, lexemes_nil]
            rfl
          · rw [List.cons_append, lexemes_cons, before, e', split, List.take_left, List.drop_left]
            exact congrArg _ (lexemes_cons '\r' ('\n' :: rest))
          · exact List.forall_mem_cons.2 ⟨rfl, List.forall_mem_singleton.2 rfl⟩
      · rw [Bool.or_eq_true, beq_iff_eq, not_or, Bool.not_eq_true] at blank
        exact step (boundary_front neutral_newline blank.1 blank.2 (.inl rfl))

/-- A line means what it means alone, whatever is on the lines behind it. -/
theorem signs_append_line (cs rest : List Char) :
    signs (cs ++ '\n' :: rest) = signs cs ++ .separator false :: signs rest := by
  obtain ⟨ls, blanks, blanks', newline, e, e', kinds, kind⟩ := endsWithNewline cs rest
  have silent : ∀ l ∈ blanks ++ blanks', sign? l = none := fun l hl => by
    unfold sign?
    rw [kinds l hl]
  have ends : sign? newline = some (.separator false) := by
    unfold sign?
    rw [kind]
  obtain ⟨none, none'⟩ := List.forall_mem_append.1 silent
  unfold signs
  rw [e, e', List.filterMap_append, List.filterMap_append, List.filterMap_append,
    List.filterMap_eq_nil_iff.2 none, List.filterMap_eq_nil_iff.2 none', List.filterMap_cons_some ends,
    List.append_nil]
  rfl

end Lexeme

end Surface
