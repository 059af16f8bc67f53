import Surface.BinarySearch

/-!
# Sets of code points

A set of code points is given by its ranges in increasing order, both ends included. Halving
finds the one range that can hold a code point (`contains`), and the code points found are those
that lie in some range (`contains_eq_any`).
-/

namespace Surface.Text

/-- Whether the ranges start at `low` or above, none is empty, and each ends before the next one
starts. -/
def areAscending (low : Nat) : List (Nat × Nat) → Bool
  | [] => true
  | r :: rs => low ≤ r.1 && r.1 ≤ r.2 && areAscending (r.2 + 1) rs

/-- Ranges of code points, in increasing order and apart from each other. -/
structure CodePoints where
  ranges : Array (Nat × Nat)
  ascending : areAscending 0 ranges.toList = true := by decide +kernel

/-- A code point is in the set when the first range that does not end before it starts no later. -/
def CodePoints.contains (s : CodePoints) (n : Nat) : Bool :=
  s.ranges[partitionPoint (fun r => r.2 < n) s.ranges]?.any fun r => r.1 ≤ n

/-! ## The code points in a set -/

theorem le_of_areAscending {low : Nat} {rs : List (Nat × Nat)} (h : areAscending low rs = true) :
    ∀ r ∈ rs, low ≤ r.1 ∧ r.1 ≤ r.2 := by
  induction rs generalizing low with
  | nil => simp
  | cons r rs ih =>
    simp only [areAscending, Bool.and_eq_true, decide_eq_true_eq] at h
    intro s hs
    rcases List.mem_cons.1 hs with rfl | hs
    · exact h.1
    · have := ih h.2 s hs
      omega

theorem pairwise_of_areAscending {low : Nat} {rs : List (Nat × Nat)}
    (h : areAscending low rs = true) : rs.Pairwise fun r s => r.2 < s.1 := by
  induction rs generalizing low with
  | nil => exact .nil
  | cons r rs ih =>
    simp only [areAscending, Bool.and_eq_true, decide_eq_true_eq] at h
    exact List.pairwise_cons.2 ⟨fun s hs => (le_of_areAscending h.2 s hs).1, ih h.2⟩

/-- Behind the ranges that end before `n` stands the only one that can hold it. -/
theorem any_getElem?_countP {low n : Nat} {rs : List (Nat × Nat)}
    (h : areAscending low rs = true) :
    (rs[rs.countP fun r => r.2 < n]?.any fun r => r.1 ≤ n) =
      rs.any fun r => r.1 ≤ n && n ≤ r.2 := by
  induction rs generalizing low with
  | nil => rfl
  | cons r rs ih =>
    simp only [areAscending, Bool.and_eq_true, decide_eq_true_eq] at h
    have bounds := le_of_areAscending h.2
    by_cases before : r.2 < n
    · have : ¬ n ≤ r.2 := by omega
      simpa [before, this] using ih h.2
    · have none : rs.countP (fun r => r.2 < n) = 0 :=
        List.countP_eq_zero.2 fun s hs => by
          have := bounds s hs
          simp only [decide_eq_true_eq]
          omega
      have later : (rs.any fun r => r.1 ≤ n && n ≤ r.2) = false :=
        List.any_eq_false.2 fun s hs => by
          have := bounds s hs
          simp only [Bool.and_eq_true, decide_eq_true_eq]
          omega
      have : n ≤ r.2 := by omega
      simp [before, none, later, this]

/-- The code points in the set are those that lie in one of its ranges. -/
theorem CodePoints.contains_eq_any (s : CodePoints) (n : Nat) :
    s.contains n = s.ranges.toList.any fun r => r.1 ≤ n && n ≤ r.2 := by
  have sorted : s.ranges.toList.Pairwise fun x y => decide (y.2 < n) → decide (x.2 < n) := by
    refine (pairwise_of_areAscending s.ascending).imp_of_mem fun {x y} _ hy lt => ?_
    have := le_of_areAscending s.ascending y hy
    simp only [decide_eq_true_eq]
    omega
  rw [contains, partitionPoint_eq_countP sorted, ← Array.getElem?_toList,
    any_getElem?_countP s.ascending]

end Surface.Text
