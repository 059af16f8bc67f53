import Mathlib.Order.Bounds.Basic
import Surface.Proofs.Grammar.Groups

/-!
# Groups found by counting

The stack that matches brackets is built once for a whole stream, with whatever stray closing bracket
and unclosed group the stream holds. What it says of one bracket can nevertheless be counted: a group
ends where, behind its opener, the closing brackets first outnumber the opening ones. The search that
steps over whole groups in one move finds therefore what a scan finds that looks at every tag and
only keeps the number of groups that are open.

Results:
* `closer?_eq_some_iff_isLeast`: where a group ends.
* `scan_inside`: a scan inside of groups goes on where the innermost of them ends.
* `occursBeforeBreak_eq_scan`, `scan_eq_true_iff`: what the search finds.
* `matching_by_counting`: the three together, on every stream.
-/

namespace Surface

/-- A tag that is no bracket and ends neither a line nor a stream. -/
structure Tag.Inert (t : Tag) : Prop where
  opens : ¬ t.isOpener = true
  closes : ¬ t.isCloser = true
  breaks : t ≠ .lineBreak
  ends : t ≠ .eof

namespace Groups

/-! ## Counting brackets -/

/-- How many tags open a group. -/
def opened (tags : List Tag) : Nat := tags.countP Tag.isOpener

/-- How many tags close a group. -/
def closed (tags : List Tag) : Nat := tags.countP Tag.isCloser

section

variable {t : Tag} {ts : List Tag}

theorem opened_opener (h : t.isOpener = true) : opened (t :: ts) = opened ts + 1 :=
  List.countP_cons_of_pos h

theorem opened_other (h : ¬ t.isOpener = true) : opened (t :: ts) = opened ts :=
  List.countP_cons_of_neg h

theorem closed_closer (h : t.isCloser = true) : closed (t :: ts) = closed ts + 1 :=
  List.countP_cons_of_pos h

theorem closed_other (h : ¬ t.isCloser = true) : closed (t :: ts) = closed ts :=
  List.countP_cons_of_neg h

theorem not_isCloser_of_isOpener (h : t.isOpener = true) : ¬ t.isCloser = true := fun hc =>
  Bool.false_ne_true ((Tag.isOpener_of_isCloser hc).symm.trans h)

theorem not_isOpener_of_isCloser (h : t.isCloser = true) : ¬ t.isOpener = true := by
  rw [Tag.isOpener_of_isCloser h]
  exact Bool.false_ne_true

/-- A bracket opens a group, closes one, or is none. -/
theorem bracket_cases (t : Tag) : (t.isOpener = true ∧ ¬ t.isCloser = true)
    ∨ (¬ t.isOpener = true ∧ t.isCloser = true) ∨ (¬ t.isOpener = true ∧ ¬ t.isCloser = true) := by
  by_cases ho : t.isOpener = true
  · exact .inl ⟨ho, not_isCloser_of_isOpener ho⟩
  by_cases hc : t.isCloser = true
  · exact .inr (.inl ⟨ho, hc⟩)
  · exact .inr (.inr ⟨ho, hc⟩)

end

section

variable {depth : Nat} {ts : List Tag}

/-- Up to the end of a group no more groups end than have been entered. -/
theorem closed_le_opened {n : Nat} (h : n ≤ reach depth ts) :
    closed (ts.take n) ≤ opened (ts.take n) + depth := by
  induction ts generalizing depth n with
  | nil =>
    rw [List.take_nil]
    exact Nat.zero_le _
  | cons t ts ih =>
    cases n with
    | zero => exact Nat.zero_le _
    | succ n =>
      rw [List.take_succ_cons]
      rcases bracket_cases t with ⟨ho, hc⟩ | ⟨ho, hc⟩ | ⟨ho, hc⟩
      · rw [reach_opener ho] at h
        have := ih (Nat.le_of_succ_le_succ h)
        rw [opened_opener ho, closed_other hc]
        omega
      · cases depth with
        | zero =>
          rw [reach_closer hc] at h
          cases h
        | succ depth =>
          rw [reach_closer_succ hc] at h
          have := ih (Nat.le_of_succ_le_succ h)
          rw [opened_other ho, closed_closer hc]
          omega
      · rw [reach_other ho hc] at h
        rw [opened_other ho, closed_other hc]
        exact ih (Nat.le_of_succ_le_succ h)

/-- With the end of a group one more has ended than has been entered. -/
theorem closed_reach (h : reach depth ts < ts.length) :
    closed (ts.take (reach depth ts + 1)) = opened (ts.take (reach depth ts + 1)) + depth + 1 := by
  induction ts generalizing depth with
  | nil => cases h
  | cons t ts ih =>
    rw [List.take_succ_cons]
    rcases bracket_cases t with ⟨ho, hc⟩ | ⟨ho, hc⟩ | ⟨ho, hc⟩
    · rw [reach_opener ho] at h ⊢
      rw [opened_opener ho, closed_other hc, ih (Nat.lt_of_succ_lt_succ h)]
      omega
    · cases depth with
      | zero =>
        rw [reach_closer hc, opened_other ho, closed_closer hc]
        rfl
      | succ depth =>
        rw [reach_closer_succ hc] at h ⊢
        rw [opened_other ho, closed_closer hc, ih (Nat.lt_of_succ_lt_succ h)]
        omega
    · rw [reach_other ho hc] at h ⊢
      rw [opened_other ho, closed_other hc]
      exact ih (Nat.lt_of_succ_lt_succ h)

/-- The end of a group is the first tag with which more groups have ended than have been entered. -/
theorem isLeast_reach (h : reach depth ts < ts.length) :
    IsLeast {n | closed (ts.take (n + 1)) = opened (ts.take (n + 1)) + depth + 1} (reach depth ts) := by
  refine ⟨closed_reach h, fun n hn => ?_⟩
  by_contra before
  have : closed (ts.take (n + 1)) = opened (ts.take (n + 1)) + depth + 1 := hn
  have : closed (ts.take (n + 1)) ≤ opened (ts.take (n + 1)) + depth :=
    closed_le_opened (Nat.not_le.1 before)
  omega

/-- Where a group has no end, no more groups end than have been entered. -/
theorem closed_le_of_unclosed (h : ¬ reach depth ts < ts.length) (n : Nat) :
    closed (ts.take n) ≤ opened (ts.take n) + depth := by
  have all : reach depth ts = ts.length := Nat.le_antisymm (reach_le_length depth ts) (Nat.not_lt.1 h)
  rcases Nat.le_total n ts.length with inside | behind
  · exact closed_le_opened (by rwa [all])
  · rw [List.take_of_length_le behind, ← List.take_length (l := ts)]
    exact closed_le_opened (Nat.le_of_eq all.symm)

end

/-! ## Closers -/

/-- The tags behind position `i`, up to position `j` and with it. -/
def behind (ts : Tokens) (i j : Nat) : List Tag := ((tagsOf ts).drop (i + 1)).take (j - i)

/-- The positions behind `i` with which one more group has ended than has been entered since. -/
def endsBehind (ts : Tokens) (i : Nat) : Set Nat :=
  {j | i < j ∧ closed (behind ts i j) = opened (behind ts i j) + 1}

theorem mem_endsBehind {ts : Tokens} {i n : Nat} : i + 1 + n ∈ endsBehind ts i ↔
    closed (((tagsOf ts).drop (i + 1)).take (n + 1))
      = opened (((tagsOf ts).drop (i + 1)).take (n + 1)) + 0 + 1 := by
  have length : i + 1 + n - i = n + 1 := by omega
  show (i < i + 1 + n ∧ closed (((tagsOf ts).drop (i + 1)).take (i + 1 + n - i))
    = opened (((tagsOf ts).drop (i + 1)).take (i + 1 + n - i)) + 1) ↔ _
  rw [length]
  exact and_iff_right (by omega)

theorem exists_of_mem_endsBehind {ts : Tokens} {i j : Nat} (h : j ∈ endsBehind ts i) :
    ∃ n, j = i + 1 + n :=
  ⟨j - (i + 1), by have := h.1; omega⟩

/-- A group ends where, behind its opener, closing brackets first outnumber opening ones. -/
theorem closer?_eq_some_iff_isLeast (ts : Tokens) (i j : Nat) : (ofTokens ts).closer? i = some j ↔
    (ts.tag i).isOpener = true ∧ IsLeast (endsBehind ts i) j := by
  have least (h : reach 0 ((tagsOf ts).drop (i + 1)) < ((tagsOf ts).drop (i + 1)).length) :
      IsLeast (endsBehind ts i) (i + 1 + reach 0 ((tagsOf ts).drop (i + 1))) := by
    obtain ⟨ends, first⟩ := isLeast_reach h
    refine ⟨mem_endsBehind.2 ends, fun k hk => ?_⟩
    obtain ⟨n, rfl⟩ := exists_of_mem_endsBehind hk
    exact Nat.add_le_add_left (first (mem_endsBehind.1 hk)) _
  rw [closer?_eq]
  constructor
  · intro h
    split at h
    · next opens =>
      cases h
      exact ⟨opens.1, least opens.2⟩
    · cases h
  · rintro ⟨opens, ends⟩
    obtain ⟨n, rfl⟩ := exists_of_mem_endsBehind ends.1
    have closes : reach 0 ((tagsOf ts).drop (i + 1)) < ((tagsOf ts).drop (i + 1)).length := by
      by_contra unclosed
      have := closed_le_of_unclosed unclosed (n + 1)
      have := mem_endsBehind.1 ends.1
      omega
    rw [if_pos ⟨opens, closes⟩, (least closes).unique ends]

/-! ## A scan tag by tag -/

/-- Whether `target` occurs outside of groups before the end of the line or of the group around the
tags, where `depth` groups are open. Inside of groups lines end without ending the scan, and so does
a stream, behind whose end nothing follows. -/
def scan (target : Tag) : Nat → List Tag → Bool
  | _, [] => false
  | 0, t :: ts =>
    if t = target then true
    else if t = .lineBreak ∨ t = .eof then false
    else if t.isOpener then scan target 1 ts
    else if t.isCloser then false
    else scan target 0 ts
  | depth + 1, t :: ts =>
    if t.isOpener then scan target (depth + 2) ts
    else if t.isCloser then scan target depth ts
    else scan target (depth + 1) ts

section

variable {target t : Tag} {depth : Nat} {ts : List Tag}

theorem scan_zero : scan target 0 (t :: ts) =
    if t = target then true
    else if t = .lineBreak ∨ t = .eof then false
    else if t.isOpener then scan target 1 ts
    else if t.isCloser then false
    else scan target 0 ts := rfl

theorem scan_succ : scan target (depth + 1) (t :: ts) =
    if t.isOpener then scan target (depth + 2) ts
    else if t.isCloser then scan target depth ts
    else scan target (depth + 1) ts := rfl

theorem scan_opener (ht : ¬ t = target) (ho : t.isOpener = true) :
    scan target depth (t :: ts) = scan target (depth + 1) ts := by
  cases depth with
  | zero =>
    have goesOn : ¬ (t = .lineBreak ∨ t = .eof) := by
      rintro (rfl | rfl) <;> cases ho
    rw [scan_zero, if_neg ht, if_neg goesOn, if_pos ho]
  | succ depth => rw [scan_succ, if_pos ho]

theorem scan_closer (hc : t.isCloser = true) :
    scan target (depth + 1) (t :: ts) = scan target depth ts := by
  rw [scan_succ, if_neg (not_isOpener_of_isCloser hc), if_pos hc]

theorem scan_other (ho : ¬ t.isOpener = true) (hc : ¬ t.isCloser = true) :
    scan target (depth + 1) (t :: ts) = scan target (depth + 1) ts := by
  rw [scan_succ, if_neg ho, if_neg hc]

/-- Inside of groups a scan goes on where the innermost of them ends. -/
theorem scan_inside (target : Tag) (depth k : Nat) (ts : List Tag) :
    scan target (depth + k + 1) ts = scan target depth (ts.drop (reach k ts + 1)) := by
  induction ts generalizing k with
  | nil =>
    rw [List.drop_nil]
    cases depth <;> rfl
  | cons t ts ih =>
    rw [List.drop_succ_cons]
    rcases bracket_cases t with ⟨ho, hc⟩ | ⟨ho, hc⟩ | ⟨ho, hc⟩
    · rw [scan_succ, if_pos ho, reach_opener ho]
      exact ih (k + 1)
    · rw [scan_closer hc]
      cases k with
      | zero => rw [reach_closer hc, List.drop_zero, Nat.add_zero]
      | succ k =>
        rw [reach_closer_succ hc]
        exact ih k
    · rw [scan_other ho hc, reach_other ho hc]
      exact ih k

end

theorem drop_tagsOf {ts : Tokens} {i : Nat} (h : ts.tag i ≠ .eof) :
    (tagsOf ts).drop i = ts.tag i :: (tagsOf ts).drop (i + 1) := by
  obtain ⟨inside, tag⟩ := List.getElem?_eq_some_iff.1 (getElem?_tagsOf rfl h)
  rw [List.drop_eq_getElem_cons inside, tag]

/-- The search that steps over whole groups finds what a scan finds that looks at every tag. -/
theorem occursBeforeBreak_eq_scan {target : Tag} (inert : target.Inert) (ts : Tokens) (i : Nat) :
    occursBeforeBreak ts (ofTokens ts) target i = scan target 0 ((tagsOf ts).drop i) := by
  fun_induction occursBeforeBreak ts (ofTokens ts) target i with
  | case1 i ends =>
    -- the end of the line or of the stream
    rcases ends with e | e
    · cases drop : (tagsOf ts).drop i with
      | nil => rfl
      | cons t rest =>
        have tag : t = .eof := by
          rw [tag_eq, ← List.head?_drop, drop] at e
          exact e
        rw [scan_zero, tag, if_neg (Ne.symm inert.ends), if_pos (.inr rfl)]
    · rw [drop_tagsOf (by rw [e]; exact nofun), e, scan_zero, if_neg (Ne.symm inert.breaks), if_pos (.inl rfl)]
  | case2 i goesOn inside opens j closer forward ih =>
    have ne : ¬ ts.tag i = target := fun e => inert.opens (e ▸ opens)
    rw [closer?_eq] at closer
    split at closer
    · cases closer
      rw [ih, drop_tagsOf (fun e => goesOn (.inl e)), scan_opener ne opens, scan_inside target 0 0,
        List.drop_drop]
      rfl
    · cases closer
  | case3 i goesOn inside opens j closer backward => exact absurd (Nat.le_of_lt (closer_spec closer).1) backward
  | case4 i goesOn inside opens unclosed =>
    have ne : ¬ ts.tag i = target := fun e => inert.opens (e ▸ opens)
    rw [closer?_eq] at unclosed
    split at unclosed
    · cases unclosed
    · next never =>
      rw [drop_tagsOf (fun e => goesOn (.inl e)), scan_opener ne opens, scan_inside target 0 0,
        List.drop_eq_nil_of_le (Nat.le_succ_of_le (Nat.not_lt.1 fun h => never ⟨opens, h⟩))]
      rfl
  | case5 i goesOn inside opens closes =>
    have ne : ¬ ts.tag i = target := fun e => inert.closes (e ▸ closes)
    rw [drop_tagsOf (fun e => goesOn (.inl e)), scan_zero, if_neg ne, if_neg (fun e => goesOn e.symm),
      if_neg opens, if_pos closes]
  | case6 i goesOn inside opens closes found =>
    rw [drop_tagsOf (fun e => goesOn (.inl e)), scan_zero, if_pos found]
  | case7 i goesOn inside opens closes other ih =>
    rw [ih, drop_tagsOf (fun e => goesOn (.inl e)), scan_zero, if_neg other, if_neg (fun e => goesOn e.symm),
      if_neg opens, if_neg closes]

/-! ## What a scan finds -/

/-- After `n` of some tags, `depth` groups having been open before, as many have ended as have been
entered. -/
def Outside (depth : Nat) (ts : List Tag) (n : Nat) : Prop :=
  closed (ts.take n) = opened (ts.take n) + depth

/-- The target stands at `n`, outside of groups, and before it there is neither a closing bracket
of a group around the tags nor, outside of groups, the end of the line or of the stream. -/
structure Meets (target : Tag) (depth : Nat) (ts : List Tag) (n : Nat) : Prop where
  tag : ts[n]? = some target
  outside : Outside depth ts n
  closed_le : ∀ m ≤ n, closed (ts.take m) ≤ opened (ts.take m) + depth
  sameLine : ∀ m < n, Outside depth ts m → ts[m]? ≠ some .lineBreak ∧ ts[m]? ≠ some .eof

section

variable {target t : Tag} {depth depth' : Nat} {ts : List Tag} {n : Nat}

theorem Meets.zero : Meets target 0 (target :: ts) 0 where
  tag := rfl
  outside := rfl
  closed_le m hm := by
    cases hm
    exact Nat.zero_le _
  sameLine m hm := nomatch hm

theorem Meets.depth_zero (h : Meets target depth ts 0) : depth = 0 := by
  have : (0 : Nat) = 0 + depth := h.outside
  omega

theorem Meets.goesOn (h : Meets target 0 (t :: ts) (n + 1)) : t ≠ .lineBreak ∧ t ≠ .eof := by
  obtain ⟨breaks, ends⟩ := h.sameLine 0 (Nat.succ_pos n) rfl
  exact ⟨fun e => breaks (congrArg some e), fun e => ends (congrArg some e)⟩

/-- In front of a tag that leads from one depth to another one. -/
theorem Meets.cons (step : ∀ us, closed (t :: us) + (opened us + depth') = closed us + (opened (t :: us) + depth))
    (goesOn : depth = 0 → t ≠ .lineBreak ∧ t ≠ .eof) (h : Meets target depth' ts n) :
    Meets target depth (t :: ts) (n + 1) where
  tag := h.tag
  outside := by
    have := h.outside
    have := step (ts.take n)
    unfold Outside at *
    rw [List.take_succ_cons]
    omega
  closed_le m hm := by
    cases m with
    | zero => exact Nat.zero_le _
    | succ m =>
      have := h.closed_le m (Nat.le_of_succ_le_succ hm)
      have := step (ts.take m)
      rw [List.take_succ_cons]
      omega
  sameLine m hm outside := by
    cases m with
    | zero =>
      have top : depth = 0 := by
        have : (0 : Nat) = 0 + depth := outside
        omega
      exact ⟨fun e => (goesOn top).1 (Option.some.inj e), fun e => (goesOn top).2 (Option.some.inj e)⟩
    | succ m =>
      refine h.sameLine m (Nat.lt_of_succ_lt_succ hm) ?_
      have := step (ts.take m)
      unfold Outside at *
      rw [List.take_succ_cons] at outside
      omega

/-- Behind a tag that leads from one depth to another one. -/
theorem Meets.tail (step : ∀ us, closed (t :: us) + (opened us + depth') = closed us + (opened (t :: us) + depth))
    (h : Meets target depth (t :: ts) (n + 1)) : Meets target depth' ts n where
  tag := h.tag
  outside := by
    have outside := h.outside
    have := step (ts.take n)
    unfold Outside at *
    rw [List.take_succ_cons] at outside
    omega
  closed_le m hm := by
    have le := h.closed_le (m + 1) (Nat.succ_le_succ hm)
    have := step (ts.take m)
    rw [List.take_succ_cons] at le
    omega
  sameLine m hm outside := by
    refine h.sameLine (m + 1) (Nat.succ_lt_succ hm) ?_
    have := step (ts.take m)
    unfold Outside at *
    rw [List.take_succ_cons]
    omega

/-- No more is met in some tags than behind the first of them, unless the first one is met. -/
theorem exists_meets_cons
    (step : ∀ us, closed (t :: us) + (opened us + depth') = closed us + (opened (t :: us) + depth))
    (goesOn : depth = 0 → t ≠ target ∧ t ≠ .lineBreak ∧ t ≠ .eof) :
    (∃ n, Meets target depth (t :: ts) n) ↔ ∃ n, Meets target depth' ts n := by
  constructor
  · rintro ⟨n, h⟩
    cases n with
    | zero => exact absurd (Option.some.inj h.tag) (goesOn h.depth_zero).1
    | succ n => exact ⟨n, h.tail step⟩
  · rintro ⟨n, h⟩
    exact ⟨n + 1, h.cons step fun top => (goesOn top).2⟩

end

/-- A scan finds a target that stands outside of groups before the line, the stream or the group
around the tags ends. -/
theorem scan_eq_true_iff {target : Tag} (inert : target.Inert) (depth : Nat) (ts : List Tag) :
    scan target depth ts = true ↔ ∃ n, Meets target depth ts n := by
  induction ts generalizing depth with
  | nil =>
    constructor
    · intro h
      cases depth <;> cases h
    · rintro ⟨n, h⟩
      cases h.tag
  | cons t ts ih =>
    rcases bracket_cases t with ⟨ho, hc⟩ | ⟨ho, hc⟩ | ⟨ho, hc⟩
    · have ne : t ≠ target := fun e => inert.opens (e ▸ ho)
      rw [scan_opener ne ho, ih, exists_meets_cons]
      · intro us
        rw [opened_opener ho, closed_other hc]
        omega
      · refine fun _ => ⟨ne, ?_, ?_⟩ <;> rintro rfl <;> cases ho
    · cases depth with
      | zero =>
        -- the group around the tags ends
        refine ⟨fun h => ?_, fun ⟨n, h⟩ => ?_⟩
        · have ne : ¬ t = target := fun e => inert.closes (e ▸ hc)
          rw [scan_zero, if_neg ne, if_neg ho, if_pos hc, ite_self] at h
          cases h
        · cases n with
          | zero => exact absurd (Option.some.inj h.tag ▸ hc) inert.closes
          | succ n =>
            have le : closed [t] ≤ opened [t] + 0 := h.closed_le 1 (Nat.succ_pos n)
            rw [closed_closer hc, opened_other ho] at le
            cases le
      | succ depth =>
        rw [scan_closer hc, ih, exists_meets_cons]
        · intro us
          rw [opened_other ho, closed_closer hc]
          omega
        · exact nofun
    · have step (depth : Nat) (us : List Tag) :
          closed (t :: us) + (opened us + depth) = closed us + (opened (t :: us) + depth) := by
        rw [opened_other ho, closed_other hc]
      cases depth with
      | zero =>
        by_cases found : t = target
        · rw [scan_zero, if_pos found, found]
          exact ⟨fun _ => ⟨0, .zero⟩, fun _ => rfl⟩
        by_cases ends : t = .lineBreak ∨ t = .eof
        · rw [scan_zero, if_neg found, if_pos ends]
          refine ⟨nofun, fun ⟨n, h⟩ => ?_⟩
          cases n with
          | zero => exact absurd (Option.some.inj h.tag) found
          | succ n => exact absurd ends (not_or.2 h.goesOn)
        · rw [scan_zero, if_neg found, if_neg ends, if_neg ho, if_neg hc, ih, exists_meets_cons (step 0)]
          exact fun _ => ⟨found, not_or.1 ends⟩
      | succ depth =>
        rw [scan_other ho hc, ih, exists_meets_cons (step _)]
        exact nofun

/-! ## All streams -/

/-- On every stream, however its brackets stand, groups are what counting finds. A group that starts
at `i` ends at the least position with which, behind `i`, one more group has ended than has been
entered, and whatever stands in front of a stream, its groups end where they did. What is looked for
outside of groups is what a scan of every tag finds: a target with as many groups entered as ended
before it, where until then no group ended that had not been entered and no line or stream ended
outside of groups. -/
theorem matching_by_counting (ts : Tokens) :
    (∀ i j, (ofTokens ts).closer? i = some j ↔
      (ts.tag i).isOpener = true ∧ IsLeast (endsBehind ts i) j)
    ∧ (∀ (ts' : Tokens) (shift : Nat), (tagsOf ts').drop shift = tagsOf ts →
      ∀ i, (ofTokens ts').closer? (i + shift) = ((ofTokens ts).closer? i).map (· + shift))
    ∧ ∀ target : Tag, target.Inert → ∀ i,
      occursBeforeBreak ts (ofTokens ts) target i = scan target 0 ((tagsOf ts).drop i)
      ∧ (occursBeforeBreak ts (ofTokens ts) target i = true ↔
        ∃ n, Meets target 0 ((tagsOf ts).drop i) n) := by
  refine ⟨closer?_eq_some_iff_isLeast ts, fun ts' shift => closer?_drop, fun target inert i => ?_⟩
  have search := occursBeforeBreak_eq_scan inert ts i
  refine ⟨search, ?_⟩
  rw [search]
  exact scan_eq_true_iff inert 0 _

/-- Two groups, the outer one of which ends with a bracket of another sort, a sign behind them and a
group that does not end. -/
def mismatched : List Token :=
  [.punct .openBracket, .punct .openParen, .lineBreak, .punct .closeBrace, .punct .closeParen,
    .reserved .eq, .punct .openBrace].map fun kind => ⟨kind, .point 0, .none⟩

/-- The end of a group that was not entered. -/
def strayCloser : Token := ⟨.punct .closeParen, .point 0, .none⟩

theorem sign_behind_mismatched_groups : Tag.Inert (.reserved .eq)
    ∧ (tagsOf ⟨(strayCloser :: mismatched).toArray⟩).drop 1 = tagsOf ⟨mismatched.toArray⟩
    ∧ (ofTokens ⟨(strayCloser :: mismatched).toArray⟩).closer? 1 = some 5
    ∧ occursBeforeBreak ⟨(strayCloser :: mismatched).toArray⟩
      (ofTokens ⟨(strayCloser :: mismatched).toArray⟩) (.reserved .eq) 1 = true := by
  have inert : Tag.Inert (.reserved .eq) := ⟨nofun, nofun, nofun, nofun⟩
  refine ⟨inert, rfl, ?_, ?_⟩
  · rw [(matching_by_counting ⟨mismatched.toArray⟩).2.1 ⟨(strayCloser :: mismatched).toArray⟩ 1 rfl 0]
    rfl
  · rw [((matching_by_counting ⟨(strayCloser :: mismatched).toArray⟩).2.2 _ inert 1).1]
    rfl

end Groups

end Surface
