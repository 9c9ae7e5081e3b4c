import Mathlib.Algebra.BigOperators.Group.Finset.Basic
import Mathlib.Algebra.Order.BigOperators.Group.Finset
import Mathlib.Algebra.Order.Ring.Nat

/-!
# Weighted quorums

Voters carry weights, and a quorum is a list of distinct voters that together carry
more than half of the total. Any two of them meet in a voter who carries some.

* `weightOf_le_total` — distinct voters carry at most the total;
* `exists_common`     — two lists that together carry more than the total share a
  voter of positive weight.
-/

namespace WeightedQuorum

variable {V : Type} [Fintype V] [DecidableEq V] {weight : V → Nat} {xs ys : List V}

/-- What the voters of a list carry together. -/
def weightOf (weight : V → Nat) (xs : List V) : Nat := (xs.map weight).sum

omit [Fintype V] in
theorem weightOf_eq_sum (hxs : xs.Nodup) : weightOf weight xs = ∑ v ∈ xs.toFinset, weight v :=
  (List.sum_toFinset weight hxs).symm

/-- Distinct voters carry at most the total. -/
theorem weightOf_le_total (hxs : xs.Nodup) : weightOf weight xs ≤ ∑ v, weight v := by
  rw [weightOf_eq_sum hxs]
  exact Finset.sum_le_sum_of_subset (Finset.subset_univ _)

/-- **Quorums meet.** -/
theorem exists_common (hxs : xs.Nodup) (hys : ys.Nodup)
    (hsum : ∑ v, weight v < weightOf weight xs + weightOf weight ys) :
    ∃ v ∈ xs, v ∈ ys ∧ 0 < weight v := by
  by_contra hnone
  push Not at hnone
  -- whoever is on both lists carries nothing, so the lists do not count anyone twice
  have hmeet : ∑ v ∈ xs.toFinset ∩ ys.toFinset, weight v = 0 := by
    apply Finset.sum_eq_zero
    intro v hv
    rw [Finset.mem_inter, List.mem_toFinset, List.mem_toFinset] at hv
    exact Nat.le_zero.mp (hnone v hv.1 hv.2)
  have hunion : ∑ v ∈ xs.toFinset ∪ ys.toFinset, weight v ≤ ∑ v, weight v :=
    Finset.sum_le_sum_of_subset (Finset.subset_univ _)
  have hsplit := @Finset.sum_union_inter _ _ xs.toFinset ys.toFinset _ weight _
  rw [weightOf_eq_sum hxs, weightOf_eq_sum hys] at hsum
  omega

end WeightedQuorum
