/-!
# ScriptIndent.Search

Binary search over the indexes `0 … n - 1`.

`partitionPoint n p` halves the interval until it is empty.  When `p` holds on
an initial stretch of the indexes and nowhere after it, the answer is the
length of that stretch (`partitionPoint_eq`); on any other `p` the answer is
still determined, by the indexes that the halving visits.
-/

namespace ScriptIndent

/-- Halve `[lo, hi)` at its middle, keeping the upper part where `p` holds. -/
def partitionPointFrom (p : Nat → Bool) (lo hi : Nat) : Nat :=
  if lo < hi then
    let mid := (lo + hi) / 2
    if p mid then partitionPointFrom p (mid + 1) hi else partitionPointFrom p lo mid
  else lo
termination_by hi - lo

/-- The length of the initial stretch of `0 … n - 1` on which `p` holds. -/
def partitionPoint (n : Nat) (p : Nat → Bool) : Nat := partitionPointFrom p 0 n

private theorem partitionPointFrom_eq {p : Nat → Bool} {k lo hi : Nat} (hlo : lo ≤ k) (hhi : k ≤ hi)
    (hp : ∀ i, lo ≤ i → i < hi → (p i = true ↔ i < k)) : partitionPointFrom p lo hi = k := by
  fun_induction partitionPointFrom p lo hi with
  | case1 lo hi hlt mid hmid ih =>
    have := (hp mid (by omega) (by omega)).1 hmid
    exact ih (by omega) hhi fun i h₁ h₂ => hp i (by omega) h₂
  | case2 lo hi hlt mid hmid ih =>
    have : ¬mid < k := fun h => hmid ((hp mid (by omega) (by omega)).2 h)
    exact ih hlo (by omega) fun i h₁ h₂ => hp i h₁ (by omega)
  | case3 lo hi hlt => omega

/-- The search finds the boundary of a predicate that holds exactly below it. -/
theorem partitionPoint_eq {n k : Nat} {p : Nat → Bool} (hk : k ≤ n)
    (hp : ∀ i, i < n → (p i = true ↔ i < k)) : partitionPoint n p = k :=
  partitionPointFrom_eq (Nat.zero_le k) hk fun i _ h => hp i h

private theorem partitionPointFrom_le {p : Nat → Bool} {lo hi : Nat} (h : lo ≤ hi) :
    partitionPointFrom p lo hi ≤ hi := by
  fun_induction partitionPointFrom p lo hi with
  | case1 lo hi hlt mid hmid ih => exact ih (by omega)
  | case2 lo hi hlt mid hmid ih => exact Nat.le_trans (ih (by omega)) (by omega)
  | case3 lo hi hlt => exact h

/-- The search stays inside its interval. -/
theorem partitionPoint_le (n : Nat) (p : Nat → Bool) : partitionPoint n p ≤ n :=
  partitionPointFrom_le (Nat.zero_le n)

/-- Membership in a set of ranges, written as the ascending list of their
boundaries: first member, first non-member, first member and so on. -/
def inRanges (boundaries : Array Nat) (x : Nat) : Bool :=
  partitionPoint boundaries.size (fun i => boundaries[i]?.any (· ≤ x)) % 2 == 1

end ScriptIndent
