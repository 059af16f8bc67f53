/-!
# Binary search

`partitionPoint p xs` is the number of leading elements of `xs` that satisfy `p`, found by
halving. It is that number whenever no element that fails `p` stands before one that
satisfies it (`partitionPoint_eq`, `partitionPoint_eq_countP`); for any other array it is where
the halving ends.
-/

namespace Surface

variable {α : Type}

/-- Narrows `size` positions from `base` on to one position: to the upper half when the element
in the middle satisfies `p`, to the lower half otherwise. -/
def narrow (p : α → Bool) (xs : Array α) (base size : Nat) : Nat :=
  if size ≤ 1 then base
  else
    let half := size / 2
    narrow p xs (if xs[base + half]?.any p then base + half else base) (size - half)
termination_by size

/-- The number of leading elements that satisfy `p`, if those that do come first. -/
def partitionPoint (p : α → Bool) (xs : Array α) : Nat :=
  let base := narrow p xs 0 xs.size
  if xs[base]?.any p then base + 1 else base

/-! ## The number of leading elements -/

/-- Narrowing keeps the border between the elements that satisfy `p` and the others in reach: it
ends at the border or one before it. -/
theorem narrow_bounds {p : α → Bool} {xs : Array α} {k : Nat}
    (hp : ∀ i : Nat, xs[i]?.any p = decide (i < k)) (base size : Nat) (le : base ≤ k)
    (reach : k ≤ base + size) :
    narrow p xs base size ≤ k ∧ k ≤ narrow p xs base size + 1 := by
  fun_induction narrow p xs base size with
  | case1 base size small => omega
  | case2 base size large half ih =>
    simp only [hp, decide_eq_true_eq] at ih ⊢
    by_cases h : base + half < k
    · simp only [h, dite_true, if_true] at ih ⊢
      exact ih (by omega) (by omega)
    · simp only [h, dite_false, if_false] at ih ⊢
      exact ih le (by omega)

/-- When exactly the first `k` elements satisfy `p`, the partition point is `k`. -/
theorem partitionPoint_eq {p : α → Bool} {xs : Array α} {k : Nat}
    (hp : ∀ i : Nat, xs[i]?.any p = decide (i < k)) : partitionPoint p xs = k := by
  have le_size : k ≤ xs.size := by
    have h := hp xs.size
    rw [Array.getElem?_eq_none (Nat.le_refl _)] at h
    simpa using h
  have ⟨le, reach⟩ := narrow_bounds hp 0 xs.size (Nat.zero_le k) (by omega)
  unfold partitionPoint
  simp only [hp, decide_eq_true_eq]
  split <;> omega

/-- In a list where no element that fails `p` stands before one that satisfies it, the first
elements satisfy `p`, as many as do at all. -/
theorem getElem?_any_eq {p : α → Bool} {xs : List α} (hp : xs.Pairwise fun x y => p y → p x)
    (i : Nat) : xs[i]?.any p = decide (i < xs.countP p) := by
  induction xs generalizing i with
  | nil => simp
  | cons x xs ih =>
    have ⟨first, rest⟩ := List.pairwise_cons.1 hp
    by_cases hx : p x
    · cases i with
      | zero => simp [hx]
      | succ i => simpa [hx] using ih rest i
    · have none : xs.countP p = 0 := List.countP_eq_zero.2 fun y hy h => hx (first y hy h)
      cases i with
      | zero => simp [hx, none]
      | succ i => simpa [hx, none] using ih rest i

/-- When no element that fails `p` stands before one that satisfies it, the partition point is
the number of elements that satisfy `p`. -/
theorem partitionPoint_eq_countP {p : α → Bool} {xs : Array α}
    (hp : xs.toList.Pairwise fun x y => p y → p x) :
    partitionPoint p xs = xs.toList.countP p :=
  partitionPoint_eq fun i => by rw [← Array.getElem?_toList, getElem?_any_eq hp]

end Surface
