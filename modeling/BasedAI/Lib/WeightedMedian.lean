import Mathlib.Algebra.BigOperators.Group.List.Basic
import Mathlib.Algebra.Order.Ring.Int
import Mathlib.Data.List.Perm.Basic
import Mathlib.Order.Basic

/-!
# Weighted lower medians

Entries carry a value and a weight. The lower median is the first value, in order, at which
half of the weight is reached; `pick` finds it in a sorted list.

* `pick_spec`                   — what `pick` finds is the lower median;
* `IsLowerMedian.le_of_reached` — it is the least value at which half is reached;
* `IsLowerMedian.within`        — entries that outweigh the others have it among their values.
-/

namespace WeightedMedian

variable {α : Type}

/-- What all the entries weigh. -/
def total (l : List (α × Int)) : Int := (l.map Prod.snd).sum

/-- What the entries whose value has a property weigh. -/
def weightOf (p : α → Prop) [DecidablePred p] : List (α × Int) → Int
  | [] => 0
  | e :: l => (if p e.1 then e.2 else 0) + weightOf p l

section Weights

variable {p q : α → Prop} [DecidablePred p] [DecidablePred q] {l l' : List (α × Int)}

@[simp] theorem total_nil : total ([] : List (α × Int)) = 0 := rfl

@[simp] theorem total_cons (e : α × Int) (l : List (α × Int)) :
    total (e :: l) = e.2 + total l := List.sum_cons

theorem total_append (l l' : List (α × Int)) : total (l ++ l') = total l + total l' := by
  rw [total, List.map_append, List.sum_append, total, total]

theorem total_perm (h : l.Perm l') : total l = total l' := (h.map Prod.snd).sum_eq

theorem weightOf_append (l l' : List (α × Int)) :
    weightOf p (l ++ l') = weightOf p l + weightOf p l' := by
  induction l with
  | nil => exact (Int.zero_add _).symm
  | cons e l ih =>
    rw [List.cons_append, weightOf, weightOf, ih]
    exact (Int.add_assoc _ _ _).symm

theorem weightOf_perm (h : l.Perm l') : weightOf p l = weightOf p l' := by
  induction h with
  | nil => rfl
  | cons e _ ih => rw [weightOf, weightOf, ih]
  | swap e f l =>
    rw [weightOf, weightOf, weightOf, weightOf]
    exact Int.add_left_comm _ _ _
  | trans _ _ ih ih' => exact ih.trans ih'

theorem weightOf_nonneg (hl : ∀ e ∈ l, 0 ≤ e.2) : 0 ≤ weightOf p l := by
  induction l with
  | nil => exact le_rfl
  | cons e l ih =>
    obtain ⟨he, hl⟩ := List.forall_mem_cons.mp hl
    have hrest := ih hl
    rw [weightOf]
    split <;> omega

theorem weightOf_mono (hl : ∀ e ∈ l, 0 ≤ e.2) (hpq : ∀ a, p a → q a) :
    weightOf p l ≤ weightOf q l := by
  induction l with
  | nil => exact le_rfl
  | cons e l ih =>
    obtain ⟨he, hl⟩ := List.forall_mem_cons.mp hl
    have hrest := ih hl
    rw [weightOf, weightOf]
    by_cases hp : p e.1
    · rw [if_pos hp, if_pos (hpq e.1 hp)]
      omega
    · rw [if_neg hp]
      split <;> omega

theorem weightOf_le_total (hl : ∀ e ∈ l, 0 ≤ e.2) : weightOf p l ≤ total l := by
  induction l with
  | nil => exact le_rfl
  | cons e l ih =>
    obtain ⟨he, hl⟩ := List.forall_mem_cons.mp hl
    have hrest := ih hl
    rw [weightOf, total_cons]
    split <;> omega

theorem weightOf_eq_total (hp : ∀ e ∈ l, p e.1) : weightOf p l = total l := by
  induction l with
  | nil => rfl
  | cons e l ih =>
    obtain ⟨he, hl⟩ := List.forall_mem_cons.mp hp
    rw [weightOf, if_pos he, ih hl, total_cons]

theorem weightOf_eq_zero (hp : ∀ e ∈ l, ¬ p e.1) : weightOf p l = 0 := by
  induction l with
  | nil => rfl
  | cons e l ih =>
    obtain ⟨he, hl⟩ := List.forall_mem_cons.mp hp
    rw [weightOf, if_neg he, ih hl]
    rfl

end Weights

/-! ## The median -/

section Median

variable [LinearOrder α]

/-- Half of the weight is reached at `m`, and not before. -/
structure IsLowerMedian (l : List (α × Int)) (m : α) : Prop where
  mem : m ∈ l.map Prod.fst
  reached : total l ≤ 2 * weightOf (· ≤ m) l
  not_before : 2 * weightOf (· < m) l < total l

/-- The first value at which half of `weight` is reached, `acc` being what the entries before
weigh. -/
def pick (weight : Int) (last : α) : Int → List (α × Int) → α
  | _, [] => last
  | acc, (v, w) :: rest =>
    if weight ≤ (acc + w) * 2 then v else pick weight last (acc + w) rest

variable {l : List (α × Int)} {m lo hi : α}

/-- The rest of a sorted list, where half of the weight was not reached before. -/
theorem pick_from (pre : List (α × Int)) {rest : List (α × Int)} (last : α)
    (hsorted : (pre ++ rest).Pairwise fun a b => a.1 ≤ b.1)
    (hnonneg : ∀ e ∈ pre ++ rest, 0 ≤ e.2) (hbefore : 2 * total pre < total (pre ++ rest)) :
    IsLowerMedian (pre ++ rest) (pick (total (pre ++ rest)) last (total pre) rest) := by
  induction rest generalizing pre with
  | nil =>
    -- all of the weight is reached
    rw [List.append_nil] at hbefore hnonneg
    have htotal : 0 ≤ total pre :=
      (weightOf_nonneg (p := fun _ => True) hnonneg).trans (weightOf_le_total hnonneg)
    omega
  | cons e rest ih =>
    obtain ⟨v, w⟩ := e
    rw [pick]
    split
    case isTrue hreached =>
      obtain ⟨-, hrest, hle⟩ := List.pairwise_append.mp hsorted
      obtain ⟨hafter, -⟩ := List.pairwise_cons.mp hrest
      constructor
      · exact List.mem_map.mpr ⟨(v, w), List.mem_append_right _ List.mem_cons_self, rfl⟩
      · -- the entries before are at most `v`
        have hpre : weightOf (· ≤ v) pre = total pre :=
          weightOf_eq_total fun e he => hle e he (v, w) List.mem_cons_self
        have hrest : 0 ≤ weightOf (· ≤ v) rest := weightOf_nonneg fun e he =>
          hnonneg e (List.mem_append_right _ (List.mem_cons_of_mem _ he))
        rw [weightOf_append, weightOf, if_pos le_rfl, hpre]
        show total (pre ++ (v, w) :: rest) ≤ 2 * (total pre + (w + weightOf (· ≤ v) rest))
        omega
      · -- and those from it on are not below
        have hpre : weightOf (· < v) pre ≤ total pre :=
          weightOf_le_total fun e he => hnonneg e (List.mem_append_left _ he)
        have hrest : weightOf (· < v) rest = 0 :=
          weightOf_eq_zero fun e he => not_lt_of_ge (hafter e he)
        rw [weightOf_append, weightOf, if_neg (lt_irrefl v), hrest]
        omega
    case isFalse hnot =>
      have hsplit : pre ++ (v, w) :: rest = (pre ++ [(v, w)]) ++ rest := List.append_cons _ _ _
      have htotal : total (pre ++ [(v, w)]) = total pre + w := by
        rw [total_append, total_cons, total_nil, Int.add_zero]
      rw [hsplit] at hsorted hnonneg hnot ⊢
      rw [← htotal] at hnot ⊢
      apply ih _ hsorted hnonneg
      omega

/-- **The median of a sorted list.** -/
theorem pick_spec (last : α) (hsorted : l.Pairwise fun a b => a.1 ≤ b.1)
    (hnonneg : ∀ e ∈ l, 0 ≤ e.2) (hpos : 0 < total l) :
    IsLowerMedian l (pick (total l) last 0 l) :=
  pick_from [] last hsorted hnonneg hpos

theorem IsLowerMedian.perm {l' : List (α × Int)} (h : IsLowerMedian l m) (hperm : l.Perm l') :
    IsLowerMedian l' m where
  mem := (hperm.map Prod.fst).mem_iff.mp h.mem
  reached := by
    rw [← total_perm hperm, ← weightOf_perm hperm]
    exact h.reached
  not_before := by
    rw [← total_perm hperm, ← weightOf_perm hperm]
    exact h.not_before

/-- Half of the weight is reached at no smaller value. -/
theorem IsLowerMedian.le_of_reached (h : IsLowerMedian l m) (hl : ∀ e ∈ l, 0 ≤ e.2) {v : α}
    (hreached : total l ≤ 2 * weightOf (· ≤ v) l) : m ≤ v := by
  by_contra hlow
  have hless : weightOf (· ≤ v) l ≤ weightOf (· < m) l :=
    weightOf_mono hl fun a hav => lt_of_le_of_lt hav (not_le.mp hlow)
  have hbefore := h.not_before
  omega

/-- **Who outweighs the others sets the median.** -/
theorem IsLowerMedian.within {good bad : List (α × Int)} (h : IsLowerMedian (good ++ bad) m)
    (hgood : ∀ e ∈ good, 0 ≤ e.2 ∧ lo ≤ e.1 ∧ e.1 ≤ hi) (hbad : ∀ e ∈ bad, 0 ≤ e.2)
    (hmajority : total bad < total good) : lo ≤ m ∧ m ≤ hi := by
  have hreached := h.reached
  have hbefore := h.not_before
  rw [total_append, weightOf_append] at hreached hbefore
  constructor
  · -- below `lo` there is only what the others weigh
    by_contra hlow
    have hnone : weightOf (· ≤ m) good = 0 :=
      weightOf_eq_zero fun e he hle => hlow ((hgood e he).2.1.trans hle)
    have hothers : weightOf (· ≤ m) bad ≤ total bad := weightOf_le_total hbad
    omega
  · -- above `hi` all of the majority has been reached before
    by_contra hhigh
    have hall : weightOf (· < m) good = total good :=
      weightOf_eq_total fun e he => lt_of_le_of_lt (hgood e he).2.2 (not_le.mp hhigh)
    have hothers : 0 ≤ weightOf (· < m) bad := weightOf_nonneg hbad
    omega

end Median

end WeightedMedian
