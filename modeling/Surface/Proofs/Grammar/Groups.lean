import Surface.Groups

/-!
# How brackets are matched

Every bracket is looked at once, from left to right, and what has been matched is never changed
later. The closer of a group is therefore the first closing bracket behind its opener that closes
none of the groups opened in between, and nothing before the opener matters.

Results:
* `reach`: how many tags stand before the end of the group around them.
* `closer?_eq`: where the closer of a group stands; `closer_spec`, `closer?_drop`.
-/

namespace Surface

theorem Tag.isOpener_of_isCloser {t : Tag} (h : t.isCloser = true) : t.isOpener = false := by
  cases t with
  | punct p => cases p <;> first | rfl | cases h
  | _ => rfl

namespace Groups

/-! ## The end of the group around some tags -/

/-- The number of tags before the closing bracket of the group around them; `depth` of the groups
that are open were entered on the way. -/
def reach : Nat → List Tag → Nat
  | _, [] => 0
  | depth, t :: ts =>
    if t.isOpener then reach (depth + 1) ts + 1
    else if t.isCloser then
      match depth with
      | 0 => 0
      | depth + 1 => reach depth ts + 1
    else reach depth ts + 1

variable {depth : Nat} {t : Tag} {ts : List Tag}

theorem reach_cons (depth : Nat) (t : Tag) (ts : List Tag) : reach depth (t :: ts) =
    if t.isOpener then reach (depth + 1) ts + 1
    else if t.isCloser then
      match depth with
      | 0 => 0
      | depth + 1 => reach depth ts + 1
    else reach depth ts + 1 := by
  cases depth <;> rfl

theorem reach_opener (h : t.isOpener = true) : reach depth (t :: ts) = reach (depth + 1) ts + 1 := by
  rw [reach_cons, if_pos h]

theorem reach_closer (h : t.isCloser = true) : reach 0 (t :: ts) = 0 := by
  rw [reach_cons, if_neg (by rw [Tag.isOpener_of_isCloser h]; exact Bool.false_ne_true), if_pos h]

theorem reach_closer_succ (h : t.isCloser = true) :
    reach (depth + 1) (t :: ts) = reach depth ts + 1 := by
  rw [reach_cons, if_neg (by rw [Tag.isOpener_of_isCloser h]; exact Bool.false_ne_true), if_pos h]

theorem reach_other (ho : ¬ t.isOpener = true) (hc : ¬ t.isCloser = true) :
    reach depth (t :: ts) = reach depth ts + 1 := by
  rw [reach_cons, if_neg ho, if_neg hc]

theorem reach_le_length (depth : Nat) (ts : List Tag) : reach depth ts ≤ ts.length := by
  induction ts generalizing depth with
  | nil => exact Nat.le_refl 0
  | cons t ts ih =>
    rw [List.length_cons, reach_cons]
    split
    · exact Nat.succ_le_succ (ih _)
    · split
      · cases depth with
        | zero => exact Nat.zero_le _
        | succ depth => exact Nat.succ_le_succ (ih _)
      · exact Nat.succ_le_succ (ih _)

/-- An outer group ends behind all that lie inside. -/
theorem reach_lt_succ (h : reach depth ts < ts.length) : reach depth ts < reach (depth + 1) ts := by
  induction ts generalizing depth with
  | nil => cases h
  | cons t ts ih =>
    by_cases ho : t.isOpener = true
    · rw [reach_opener ho, List.length_cons] at h
      rw [reach_opener ho, reach_opener ho]
      exact Nat.succ_lt_succ (ih (Nat.lt_of_succ_lt_succ h))
    by_cases hc : t.isCloser = true
    · cases depth with
      | zero =>
        rw [reach_closer hc, reach_closer_succ hc]
        exact Nat.succ_pos _
      | succ depth =>
        rw [reach_closer_succ hc, List.length_cons] at h
        rw [reach_closer_succ hc, reach_closer_succ hc]
        exact Nat.succ_lt_succ (ih (Nat.lt_of_succ_lt_succ h))
    · rw [reach_other ho hc, List.length_cons] at h
      rw [reach_other ho hc, reach_other ho hc]
      exact Nat.succ_lt_succ (ih (Nat.lt_of_succ_lt_succ h))

theorem reach_le_succ (depth : Nat) (ts : List Tag) : reach depth ts ≤ reach (depth + 1) ts := by
  induction ts generalizing depth with
  | nil => exact Nat.le_refl 0
  | cons t ts ih =>
    by_cases ho : t.isOpener = true
    · rw [reach_opener ho, reach_opener ho]
      exact Nat.succ_le_succ (ih _)
    by_cases hc : t.isCloser = true
    · cases depth with
      | zero =>
        rw [reach_closer hc]
        exact Nat.zero_le _
      | succ depth =>
        rw [reach_closer_succ hc, reach_closer_succ hc]
        exact Nat.succ_le_succ (ih _)
    · rw [reach_other ho hc, reach_other ho hc]
      exact Nat.succ_le_succ (ih _)

theorem reach_zero_le (depth : Nat) (ts : List Tag) : reach 0 ts ≤ reach depth ts := by
  induction depth with
  | zero => exact Nat.le_refl _
  | succ depth ih => exact Nat.le_trans ih (reach_le_succ depth ts)

/-- A group ends with a closing bracket. -/
theorem tag_reach (h : reach depth ts < ts.length) :
    ∃ t, ts[reach depth ts]? = some t ∧ t.isCloser = true := by
  induction ts generalizing depth with
  | nil => cases h
  | cons t ts ih =>
    by_cases ho : t.isOpener = true
    · rw [reach_opener ho] at h ⊢
      exact ih (Nat.lt_of_succ_lt_succ h)
    by_cases hc : t.isCloser = true
    · cases depth with
      | zero =>
        rw [reach_closer hc]
        exact ⟨t, rfl, hc⟩
      | succ depth =>
        rw [reach_closer_succ hc] at h ⊢
        exact ih (Nat.lt_of_succ_lt_succ h)
    · rw [reach_other ho hc] at h ⊢
      exact ih (Nat.lt_of_succ_lt_succ h)

theorem reach_append {us : List Tag} (h : reach depth ts < ts.length) :
    reach depth (ts ++ us) = reach depth ts := by
  induction ts generalizing depth with
  | nil => cases h
  | cons t ts ih =>
    rw [List.cons_append]
    by_cases ho : t.isOpener = true
    · rw [reach_opener ho] at h
      rw [reach_opener ho, reach_opener ho, ih (Nat.lt_of_succ_lt_succ h)]
    by_cases hc : t.isCloser = true
    · cases depth with
      | zero => rw [reach_closer hc, reach_closer hc]
      | succ depth =>
        rw [reach_closer_succ hc] at h
        rw [reach_closer_succ hc, reach_closer_succ hc, ih (Nat.lt_of_succ_lt_succ h)]
    · rw [reach_other ho hc] at h
      rw [reach_other ho hc, reach_other ho hc, ih (Nat.lt_of_succ_lt_succ h)]

/-- On the way to the end of a group only groups inside of it are open. -/
theorem reach_drop {n : Nat} (h : n ≤ reach depth ts) :
    ∃ depth', reach depth ts = n + reach depth' (ts.drop n) := by
  induction n generalizing depth ts with
  | zero => exact ⟨depth, (Nat.zero_add _).symm⟩
  | succ n ih =>
    cases ts with
    | nil => cases h
    | cons t ts =>
      have step {d : Nat} (hd : reach depth (t :: ts) = reach d ts + 1) :
          ∃ depth', reach depth (t :: ts) = n + 1 + reach depth' ((t :: ts).drop (n + 1)) := by
        rw [hd] at h
        obtain ⟨depth', e⟩ := ih (Nat.le_of_succ_le_succ h)
        refine ⟨depth', ?_⟩
        rw [hd, e, List.drop_succ_cons]
        omega
      by_cases ho : t.isOpener = true
      · exact step (reach_opener ho)
      by_cases hc : t.isCloser = true
      · cases depth with
        | zero =>
          rw [reach_closer hc] at h
          cases h
        | succ depth => exact step (reach_closer_succ hc)
      · exact step (reach_other ho hc)

/-! ## Matching -/

/-- The matching of some more tags. -/
def matchAll (m : Matching) (tags : List Tag) : Matching := tags.foldl Matching.take m

/-- Nothing has been looked at. -/
def Matching.start : Matching := ⟨#[], []⟩

/-- The tags of a stream. -/
def tagsOf (ts : Tokens) : List Tag := ts.items.toList.map Token.tag

theorem ofTokens_eq (ts : Tokens) : ofTokens ts = ⟨(matchAll .start (tagsOf ts)).closers⟩ := by
  unfold ofTokens matchAll tagsOf Matching.start
  rw [List.foldl_map, Array.foldl_toList]

theorem tag_eq (ts : Tokens) (i : Nat) : ts.tag i = (tagsOf ts)[i]?.getD .eof := by
  unfold Tokens.tag Tokens.get? tagsOf
  rw [List.getElem?_map, Array.getElem?_toList]

/-- A tag that is not the end's is one of a stream's own. -/
theorem getElem?_tagsOf {ts : Tokens} {i : Nat} {t : Tag} (h : ts.tag i = t) (ht : t ≠ .eof) :
    (tagsOf ts)[i]? = some t := by
  rw [tag_eq] at h
  cases get : (tagsOf ts)[i]? with
  | none =>
    rw [get] at h
    exact absurd h.symm ht
  | some t' =>
    rw [get] at h
    exact congrArg some h

theorem length_tagsOf (ts : Tokens) : (tagsOf ts).length = ts.size := List.length_map ..

namespace Matching

variable {m : Matching}

theorem take_opener (h : t.isOpener = true) :
    m.take t = ⟨m.closers.push none, m.closers.size :: m.waiting⟩ := if_pos h

theorem take_closer (h : t.isCloser = true) : m.take t = match m.waiting with
    | opener :: waiting => ⟨(m.closers.push none).setIfInBounds opener (some m.closers.size), waiting⟩
    | [] => ⟨m.closers.push none, []⟩ := by
  unfold take
  rw [if_neg (by rw [Tag.isOpener_of_isCloser h]; exact Bool.false_ne_true)]
  exact if_pos h

theorem take_other (ho : ¬ t.isOpener = true) (hc : ¬ t.isCloser = true) :
    m.take t = ⟨m.closers.push none, m.waiting⟩ := by
  unfold take
  rw [if_neg ho]
  exact if_neg hc

theorem size_take (m : Matching) (t : Tag) : (m.take t).closers.size = m.closers.size + 1 := by
  unfold take
  split
  · exact Array.size_push _
  · split
    · split <;> simp
    · exact Array.size_push _

/-- Groups that wait are different ones, and their closers have not been found. -/
structure Fresh (m : Matching) : Prop where
  nodup : m.waiting.Nodup
  unmatched : ∀ p ∈ m.waiting, m.closers[p]? = some none

theorem Fresh.lt (h : m.Fresh) {p : Nat} (hp : p ∈ m.waiting) : p < m.closers.size :=
  (Array.getElem?_eq_some_iff.1 (h.unmatched p hp)).1

theorem Fresh.pushed (h : m.Fresh) {p : Nat} (hp : p ∈ m.waiting) :
    (m.closers.push none)[p]? = some none := by
  rw [Array.getElem?_push, if_neg (Nat.ne_of_lt (h.lt hp))]
  exact h.unmatched p hp

theorem Fresh.take (h : m.Fresh) (t : Tag) : (m.take t).Fresh := by
  by_cases ho : t.isOpener = true
  · rw [take_opener ho]
    refine ⟨List.nodup_cons.2 ⟨fun hp => Nat.lt_irrefl _ (h.lt hp), h.nodup⟩, fun p hp => ?_⟩
    rcases List.mem_cons.1 hp with rfl | hp
    · exact Array.getElem?_push_size
    · exact h.pushed hp
  by_cases hc : t.isCloser = true
  · rw [take_closer hc]
    cases hw : m.waiting with
    | nil => exact ⟨List.nodup_nil, nofun⟩
    | cons opener waiting =>
      have nodup := h.nodup
      rw [hw] at nodup
      obtain ⟨other, nodup⟩ := List.nodup_cons.1 nodup
      refine ⟨nodup, fun p hp => ?_⟩
      have ne : opener ≠ p := by
        rintro rfl
        exact other hp
      rw [Array.getElem?_setIfInBounds_ne ne]
      exact h.pushed (by rw [hw]; exact .tail _ hp)
  · rw [take_other ho hc]
    exact ⟨h.nodup, fun p hp => h.pushed hp⟩

theorem Fresh.matchAll (h : m.Fresh) (tags : List Tag) : (matchAll m tags).Fresh := by
  induction tags generalizing m with
  | nil => exact h
  | cons t tags ih => exact ih (h.take t)

end Matching

variable {m : Matching} {i k : Nat}

theorem size_matchAll (m : Matching) (tags : List Tag) :
    (matchAll m tags).closers.size = m.closers.size + tags.length := by
  induction tags generalizing m with
  | nil => rfl
  | cons t tags ih =>
    rw [matchAll, List.foldl_cons, ← matchAll, ih, Matching.size_take, List.length_cons]
    omega

/-- What does not wait is not changed any more. -/
theorem closers_matchAll (hi : i < m.closers.size) (h : i ∉ m.waiting) (tags : List Tag) :
    (matchAll m tags).closers[i]? = m.closers[i]? := by
  induction tags generalizing m with
  | nil => rfl
  | cons t tags ih =>
    have inside : i < (m.take t).closers.size := by
      rw [Matching.size_take]
      omega
    have pushed : (m.closers.push none)[i]? = m.closers[i]? := by
      rw [Array.getElem?_push, if_neg (Nat.ne_of_lt hi)]
    have unchanged : i ∉ (m.take t).waiting ∧ (m.take t).closers[i]? = m.closers[i]? := by
      by_cases ho : t.isOpener = true
      · rw [Matching.take_opener ho]
        refine ⟨fun hm => ?_, pushed⟩
        rcases List.mem_cons.1 hm with rfl | hm
        · exact Nat.lt_irrefl _ hi
        · exact h hm
      by_cases hc : t.isCloser = true
      · rw [Matching.take_closer hc]
        cases hw : m.waiting with
        | nil => exact ⟨List.not_mem_nil, pushed⟩
        | cons opener waiting =>
          rw [hw] at h
          have ne : opener ≠ i := by
            rintro rfl
            exact h (.head _)
          exact ⟨fun hm => h (.tail _ hm), by rw [Array.getElem?_setIfInBounds_ne ne]; exact pushed⟩
      · rw [Matching.take_other ho hc]
        exact ⟨h, pushed⟩
    exact (ih inside unchanged.1).trans unchanged.2

/-- A group that waits ends where the groups entered since have ended. -/
theorem closers_matchAll_of_waiting (hm : m.Fresh) (h : m.waiting[k]? = some i) (tags : List Tag) :
    (matchAll m tags).closers[i]? = some
      (if reach k tags < tags.length then some (m.closers.size + reach k tags) else none) := by
  induction tags generalizing m k with
  | nil => exact hm.unmatched i (List.mem_of_getElem? h)
  | cons t tags ih =>
    -- the group waits still, as the one at `k'`
    have waits {k' : Nat} (hk : (m.take t).waiting[k']? = some i)
        (hr : reach k (t :: tags) = reach k' tags + 1) :
        (matchAll m (t :: tags)).closers[i]? = some (if reach k (t :: tags) < (t :: tags).length
          then some (m.closers.size + reach k (t :: tags)) else none) := by
      refine (ih (hm.take t) hk).trans ?_
      rw [hr, Matching.size_take, List.length_cons]
      by_cases lt : reach k' tags < tags.length
      · rw [if_pos lt, if_pos (Nat.succ_lt_succ lt)]
        congr 2
        omega
      · rw [if_neg lt, if_neg (by omega)]
    by_cases ho : t.isOpener = true
    · refine waits ?_ (reach_opener ho)
      rw [Matching.take_opener ho]
      exact h
    by_cases hc : t.isCloser = true
    · cases hw : m.waiting with
      | nil =>
        rw [hw] at h
        cases h
      | cons opener waiting =>
        have take := Matching.take_closer (m := m) hc
        rw [hw] at h take
        cases k with
        | zero =>
          -- its closer is found here
          cases h
          have nodup := hm.nodup
          rw [hw] at nodup
          have lt : i < m.closers.size := hm.lt (by rw [hw]; exact .head _)
          rw [reach_closer hc, if_pos (show 0 < (t :: tags).length from Nat.succ_pos _)]
          show (matchAll (m.take t) tags).closers[i]? = _
          rw [take, closers_matchAll (by simp; omega) (List.nodup_cons.1 nodup).1,
            Array.getElem?_setIfInBounds_self_of_lt (by simp; omega)]
          rfl
        | succ k =>
          refine waits ?_ (reach_closer_succ hc)
          rw [take]
          exact h
    · refine waits ?_ (reach_other ho hc)
      rw [Matching.take_other ho hc]
      exact h

theorem closers_start (before rest : List Tag) (t : Tag) :
    (matchAll .start (before ++ t :: rest)).closers[before.length]? = some
      (if t.isOpener = true ∧ reach 0 rest < rest.length
        then some (before.length + 1 + reach 0 rest) else none) := by
  have fresh : (matchAll .start before).Fresh :=
    Matching.Fresh.matchAll (m := .start) ⟨List.nodup_nil, nofun⟩ before
  have size : (matchAll .start before).closers.size = before.length := by
    rw [size_matchAll]
    exact Nat.zero_add _
  have split : matchAll .start (before ++ t :: rest) = matchAll ((matchAll .start before).take t) rest := by
    unfold matchAll
    rw [List.foldl_append]
    rfl
  rw [split]
  by_cases ho : t.isOpener = true
  · have waits : ((matchAll .start before).take t).waiting[0]? = some before.length := by
      rw [Matching.take_opener ho, size]
      rfl
    rw [closers_matchAll_of_waiting (fresh.take t) waits, Matching.size_take, size]
    simp only [ho, true_and]
  · rw [if_neg fun h => ho h.1]
    have lt : before.length < ((matchAll .start before).take t).closers.size := by
      rw [Matching.size_take, size]
      exact Nat.lt_succ_self _
    have pushed : ((matchAll .start before).closers.push none)[before.length]? = some none := by
      rw [← size]
      exact Array.getElem?_push_size
    -- a bracket that opens nothing never waits
    have unmatched : before.length ∉ ((matchAll .start before).take t).waiting
        ∧ ((matchAll .start before).take t).closers[before.length]? = some none := by
      by_cases hc : t.isCloser = true
      · rw [Matching.take_closer hc]
        cases hw : (matchAll .start before).waiting with
        | nil => exact ⟨List.not_mem_nil, pushed⟩
        | cons opener waiting =>
          have below (p : Nat) (hp : p ∈ opener :: waiting) : p ≠ before.length := by
            have := fresh.lt (hw ▸ hp)
            omega
          refine ⟨fun hp => below _ (.tail _ hp) rfl, ?_⟩
          rw [Array.getElem?_setIfInBounds_ne (below _ (.head _))]
          exact pushed
      · rw [Matching.take_other ho hc]
        exact ⟨fun hp => Nat.lt_irrefl _ (size ▸ fresh.lt hp), pushed⟩
    exact (closers_matchAll lt unmatched.1 rest).trans unmatched.2

/-! ## Closers -/

/-- The closer of a group is the first closing bracket behind the opener that closes none of the
groups opened in between. -/
theorem closer?_eq (ts : Tokens) (i : Nat) : (ofTokens ts).closer? i =
    if (ts.tag i).isOpener = true ∧ reach 0 ((tagsOf ts).drop (i + 1)) < ((tagsOf ts).drop (i + 1)).length
    then some (i + 1 + reach 0 ((tagsOf ts).drop (i + 1))) else none := by
  rw [ofTokens_eq, tag_eq]
  unfold closer?
  by_cases hi : i < (tagsOf ts).length
  · have split : (tagsOf ts).take i ++ (tagsOf ts)[i] :: (tagsOf ts).drop (i + 1) = tagsOf ts := by
      rw [List.getElem_cons_drop, List.take_append_drop]
    have closers := closers_start ((tagsOf ts).take i) ((tagsOf ts).drop (i + 1)) (tagsOf ts)[i]
    rw [split, List.length_take_of_le (Nat.le_of_lt hi)] at closers
    rw [closers, List.getElem?_eq_getElem hi]
    rfl
  · rw [List.getElem?_eq_none (Nat.not_lt.1 hi), if_neg fun h => Bool.false_ne_true h.1]
    have out : (matchAll .start (tagsOf ts)).closers[i]? = none := by
      rw [Array.getElem?_eq_none_iff, size_matchAll]
      have : (Matching.start.closers.size) = 0 := rfl
      omega
    rw [out]
    rfl

/-- The closer of a group is a closing bracket behind its opener. -/
theorem closer_spec {ts : Tokens} {i j : Nat} (h : (ofTokens ts).closer? i = some j) :
    i < j ∧ j < ts.size ∧ (ts.tag j).isCloser = true := by
  rw [closer?_eq] at h
  split at h
  · next opens =>
    cases h
    obtain ⟨t, tag, closes⟩ := tag_reach opens.2
    have inside := opens.2
    rw [List.getElem?_drop] at tag
    rw [List.length_drop, length_tagsOf] at inside
    refine ⟨by omega, by omega, ?_⟩
    rw [tag_eq, tag]
    exact closes
  · cases h

/-- Nothing before a group matters. -/
theorem closer?_drop {ts ts' : Tokens} {shift : Nat} (h : (tagsOf ts').drop shift = tagsOf ts)
    (p : Nat) :
    (ofTokens ts').closer? (p + shift) = ((ofTokens ts).closer? p).map (· + shift) := by
  have tag : ts'.tag (p + shift) = ts.tag p := by
    rw [tag_eq, tag_eq, ← h, List.getElem?_drop, Nat.add_comm]
  have rest : (tagsOf ts').drop (p + shift + 1) = (tagsOf ts).drop (p + 1) := by
    rw [← h, List.drop_drop]
    congr 1
    omega
  rw [closer?_eq, closer?_eq, tag, rest]
  split
  · rw [Option.map_some]
    congr 1
    omega
  · rfl

end Groups

end Surface
