import Mathlib.Algebra.BigOperators.Ring.Finset
import Mathlib.Algebra.Order.BigOperators.Group.Finset
import Mathlib.Tactic.Linarith
import Mathlib.Tactic.LinearCombination
import Mathlib.Tactic.Ring
import Mathlib.Tactic.Zify

/-!
# Share pools

A pool holds `A` units of assets against `S` shares; `x` shares are worth
`x * A / S`, rounded down. The rounding is what the lemmas are about: claims
rounded down separately never exceed the pool, how small a holding has to be
before paying it out costs the other holders nothing, which operations can
lower the price `A / S` of a share, and how little is left of an amount that is
split by weights.
-/

namespace ShareMath

/-- What `x` of `S` shares in a pool of `A` assets are worth, rounded down.
An empty pool (`S = 0`) is worth nothing. -/
def value (x A S : Nat) : Nat := x * A / S

/-- The shares a deposit of `amount` mints, rounded down; the first deposit
mints one share a unit. -/
def mint (amount A S : Nat) : Nat :=
  if S = 0 ∨ A = 0 then amount else amount * S / A

/-- The shares worth at least `amount`, rounded up. -/
def mintUp (amount A S : Nat) : Nat :=
  if S = 0 ∨ A = 0 then amount else (amount * S + A - 1) / A

@[simp] theorem value_zero_shares (A S : Nat) : value 0 A S = 0 := by
  simp [value]

/-- No holding is worth more than the pool. -/
theorem value_le {x A S : Nat} (h : x ≤ S) : value x A S ≤ A := by
  apply Nat.div_le_of_le_mul
  exact Nat.mul_le_mul_right A h

/-- All the shares together are worth the whole pool. -/
theorem value_all {A S : Nat} (h : 0 < S) : value S A S = A :=
  Nat.mul_div_cancel_left A h

theorem sum_div_le {ι : Type} (s : Finset ι) (f : ι → Nat) (d : Nat) :
    ∑ i ∈ s, f i / d ≤ (∑ i ∈ s, f i) / d := by
  classical
  induction s using Finset.induction_on with
  | empty => simp
  | insert a s ha ih =>
    rw [Finset.sum_insert ha, Finset.sum_insert ha]
    calc f a / d + ∑ i ∈ s, f i / d ≤ f a / d + (∑ i ∈ s, f i) / d :=
          Nat.add_le_add_left ih _
      _ ≤ (f a + ∑ i ∈ s, f i) / d := Nat.div_add_div_le_add_div

/-- Holdings that together are at most all the shares are together worth at
most the pool, although each is rounded on its own. -/
theorem sum_value_le {ι : Type} (s : Finset ι) (f : ι → Nat) {A S : Nat}
    (h : ∑ i ∈ s, f i ≤ S) : ∑ i ∈ s, value (f i) A S ≤ A := by
  calc ∑ i ∈ s, value (f i) A S ≤ (∑ i ∈ s, f i * A) / S := sum_div_le s _ S
    _ = value (∑ i ∈ s, f i) A S := by rw [value, Finset.sum_mul]
    _ ≤ A := value_le h

/-- Two halves of one holding are worth at most the whole. -/
theorem value_add_le (x y A S : Nat) : value x A S + value y A S ≤ value (x + y) A S := by
  unfold value
  rw [Nat.add_mul]
  exact Nat.div_add_div_le_add_div

/-- **Light holdings.** A holding of `x` shares is light against `R` further
shares when `x * (s - 1) < R`. Paying it out of a pool that has grown from `s`
to `s + e` assets, with at least those `R` other shares left, costs at most the
growth `e`. -/
theorem value_le_of_light {x s e R S : Nat} (hs : 0 < s) (hlight : x * (s - 1) < R)
    (hS : R + x ≤ S) : value x (s + e) S ≤ e := by
  -- write `s = p + 1`, so that the subtraction disappears
  obtain ⟨p, rfl⟩ : ∃ p, s = p + 1 := ⟨s - 1, by omega⟩
  have hlight' : x * p < R := by simpa using hlight
  have hpos : 0 < S := by omega
  apply Nat.le_of_lt_succ
  rw [value, Nat.div_lt_iff_lt_mul hpos]
  -- worth at most `e` means below `e + 1` units, that is `x * (s + e) < (e + 1) * S`
  calc x * (p + 1 + e) = x * p + x * (e + 1) := by ring
    _ < R * (e + 1) + x * (e + 1) := by
        have hR : R ≤ R * (e + 1) := Nat.le_mul_of_pos_right R (Nat.succ_pos e)
        omega
    _ = (R + x) * (e + 1) := by ring
    _ ≤ S * (e + 1) := Nat.mul_le_mul_right _ hS
    _ = e.succ * S := by rw [Nat.mul_comm]

/-! ## The price of a share -/

/-- The floor of a holding's value, multiplied out. -/
theorem value_mul_le (x A S : Nat) : value x A S * S ≤ x * A := Nat.div_mul_le_self _ _

/-- A holding is worth no less where assets per share are no less. -/
theorem value_le_of_price {x A S A' S' : Nat} (hS : 0 < S) (hS' : 0 < S')
    (hprice : A * S' ≤ A' * S) : value x A S ≤ value x A' S' := by
  unfold value
  rw [Nat.le_div_iff_mul_le hS']
  have hfloor : value x A S * S ≤ x * A := value_mul_le x A S
  unfold value at hfloor
  -- compare after multiplying by the old number of shares
  refine Nat.le_of_mul_le_mul_right ?_ hS
  calc x * A / S * S' * S = x * A / S * S * S' := by ring
    _ ≤ x * A * S' := Nat.mul_le_mul_right S' hfloor
    _ = x * (A * S') := by ring
    _ ≤ x * (A' * S) := Nat.mul_le_mul_left x hprice
    _ = x * A' * S := by ring

/-- A deposit does not lower the price, as the shares it mints are rounded down. -/
theorem mint_price {amount A S : Nat} (hempty : S = 0 → A = 0) :
    A * (S + mint amount A S) ≤ (A + amount) * S := by
  unfold mint
  split
  case isTrue hfirst =>
    have hA : A = 0 := hfirst.elim hempty id
    rw [hA, Nat.zero_mul]
    exact Nat.zero_le _
  case isFalse hlater =>
    have hfloor : A * (amount * S / A) ≤ amount * S := Nat.mul_div_le _ _
    calc A * (S + amount * S / A) = A * S + A * (amount * S / A) := Nat.mul_add ..
      _ ≤ A * S + amount * S := Nat.add_le_add_left hfloor _
      _ = (A + amount) * S := (Nat.add_mul ..).symm

/-- A payout does not lower the price, as it is rounded down. -/
theorem payout_price (x A S : Nat) : A * (S - x) ≤ (A - value x A S) * S := by
  have hfloor : value x A S * S ≤ x * A := value_mul_le x A S
  calc A * (S - x) = A * S - x * A := by rw [Nat.mul_sub, Nat.mul_comm A x]
    _ ≤ A * S - value x A S * S := Nat.sub_le_sub_left hfloor _
    _ = (A - value x A S) * S := (Nat.sub_mul ..).symm

/-- **Asking and pricing**: the shares asked for an amount, rounded up, are the fewest that are
worth the amount, rounded down. -/
theorem mintUp_le_iff {amount n A S : Nat} (hA : 0 < A) (hS : 0 < S) :
    mintUp amount A S ≤ n ↔ amount ≤ value n A S := by
  unfold mintUp value
  rw [if_neg (by omega), Nat.le_div_iff_mul_le hS, ← Nat.lt_succ_iff, Nat.div_lt_iff_lt_mul hA,
    Nat.succ_mul]
  omega

/-- The shares asked for an amount, rounded up, are worth at least the amount. -/
theorem le_value_mintUp {amount A S : Nat} (hA : 0 < A) (hS : 0 < S) :
    amount ≤ value (mintUp amount A S) A S :=
  (mintUp_le_iff hA hS).mp le_rfl

/-- Two halves of one holding are worth at most a unit less than the whole. -/
theorem value_add_ge {x y A S : Nat} (hS : 0 < S) :
    value (x + y) A S ≤ value x A S + value y A S + 1 := by
  unfold value
  have hx := Nat.lt_div_mul_add hS (a := x * A)
  have hy := Nat.lt_div_mul_add hS (a := y * A)
  have hsum : (x * A / S + y * A / S + 1 + 1) * S = x * A / S * S + y * A / S * S + S + S := by
    ring
  apply Nat.le_of_lt_succ
  rw [Nat.div_lt_iff_lt_mul hS, Nat.succ_eq_add_one, hsum, Nat.add_mul]
  omega

/-- Shares asked for an amount and capped at a holding are worth the amount or the
holding, whichever is less. -/
theorem min_le_value_exit {amount x A S : Nat} (hS : 0 < S) :
    min amount (value x A S) ≤ value (min (mintUp amount A S) x) A S := by
  rcases Nat.eq_zero_or_pos A with hzero | hA
  · -- a pool without assets owes nothing
    have hvalue : value x A S = 0 := by rw [value, hzero, Nat.mul_zero, Nat.zero_div]
    rw [hvalue, Nat.min_zero]
    exact Nat.zero_le _
  · rcases Nat.le_total (mintUp amount A S) x with hle | hle
    · rw [Nat.min_eq_left hle]
      exact (Nat.min_le_left _ _).trans (le_value_mintUp hA hS)
    · rw [Nat.min_eq_right hle]
      exact Nat.min_le_right _ _

/-- **What a depositor gets.** Into a pool of `s + o` shares, `s` of them the depositor's, an
amount `a` is paid, for which `a * (s + o) / A` shares are minted. The depositor is worth the
amount more, up to `k` units, just when what the others get of the share that was rounded away
is covered by those units and by what rounding had cost the depositor before. -/
theorem deposit_gain_iff {s o a k A : Nat} (hS : 0 < s + o) (hk : k ≤ a) :
    value s A (s + o) + a ≤
        value (s + a * (s + o) / A) (A + a) (s + o + a * (s + o) / A) + k ↔
      a * (s + o) % A * o ≤ (s + o + a * (s + o) / A) * (k * (s + o) + s * A % (s + o)) := by
  obtain ⟨m, rfl⟩ : ∃ m, a = k + m := ⟨a - k, by omega⟩
  -- the two divisions, with their remainders
  have hvalue : s * A = value s A (s + o) * (s + o) + s * A % (s + o) := by
    rw [value, Nat.mul_comm _ (s + o)]
    exact (Nat.div_add_mod _ _).symm
  have hminted : (k + m) * (s + o) = A * ((k + m) * (s + o) / A) + (k + m) * (s + o) % A :=
    (Nat.div_add_mod _ _).symm
  generalize value s A (s + o) = q at *
  generalize s * A % (s + o) = t at *
  generalize (k + m) * (s + o) / A = d at *
  generalize (k + m) * (s + o) % A = r at *
  have hless : q + (k + m) ≤ value (s + d) (A + (k + m)) (s + o + d) + k ↔
      (q + m) * (s + o + d) ≤ (s + d) * (A + (k + m)) := by
    rw [← Nat.le_div_iff_mul_le (Nat.add_pos_left hS d)]
    unfold value
    omega
  rw [hless]
  zify at hvalue hminted hS ⊢
  -- both sides differ by the same, after multiplying by the shares
  have hsame : ((s : Int) + o) * ((s + d) * (A + (k + m)) - (q + m) * (s + o + d)) =
      (s + o + d) * (k * (s + o) + t) - r * o := by
    linear_combination (s + o + d : Int) * hvalue - (o : Int) * hminted
  constructor
  · intro h
    have hpos := mul_nonneg hS.le (sub_nonneg.mpr h)
    rw [hsame] at hpos
    linarith only [hpos]
  · intro h
    have hpos : 0 ≤ ((s : Int) + o) * ((s + d) * (A + (k + m)) - (q + m) * (s + o + d)) := by
      rw [hsame]
      linarith only [h]
    exact sub_nonneg.mp (nonneg_of_mul_nonneg_right hpos hS)

/-! ## Splitting an amount -/

/-- The part of `amount` that falls to a weight out of `total`, rounded down. -/
def part (amount total weight : Nat) : Nat := amount * weight / total

@[simp] theorem part_zero (amount total : Nat) : part amount total 0 = 0 := by
  simp [part]

theorem sum_part_mul_le (amount total : Nat) (weights : List Nat) :
    (weights.map (part amount total)).sum * total ≤ amount * weights.sum := by
  induction weights with
  | nil => simp
  | cons x weights ih =>
    have hx : part amount total x * total ≤ amount * x := Nat.div_mul_le_self _ _
    rw [List.map_cons, List.sum_cons, List.sum_cons, Nat.add_mul, Nat.mul_add]
    exact Nat.add_le_add hx ih

/-- The parts are together at most the amount. -/
theorem sum_part_le {amount : Nat} {weights : List Nat} (h : 0 < weights.sum) :
    (weights.map (part amount weights.sum)).sum ≤ amount :=
  Nat.le_of_mul_le_mul_right (sum_part_mul_le amount weights.sum weights) h

/-- Each weight that is not zero loses less than a unit to rounding. -/
theorem mul_sum_le_sum_part {amount total : Nat} (weights : List Nat) (h : 0 < total) :
    amount * weights.sum + weights.countP (0 < ·) ≤
      ((weights.map (part amount total)).sum + weights.countP (0 < ·)) * total := by
  induction weights with
  | nil => simp
  | cons x weights ih =>
    rw [List.map_cons, List.sum_cons, List.sum_cons]
    rcases Nat.eq_zero_or_pos x with rfl | hx
    · rw [part_zero, List.countP_cons_of_neg (by simp)]
      simpa using ih
    · -- a floor is less than a unit below
      have hfloor : amount * x + 1 ≤ (part amount total x + 1) * total := by
        have hlt := Nat.lt_div_mul_add h (a := amount * x)
        unfold part
        rw [Nat.add_mul, Nat.one_mul]
        omega
      rw [List.countP_cons_of_pos (by simpa using hx)]
      calc amount * (x + weights.sum) + (weights.countP (0 < ·) + 1)
          = (amount * x + 1) + (amount * weights.sum + weights.countP (0 < ·)) := by ring
        _ ≤ (part amount total x + 1) * total +
            ((weights.map (part amount total)).sum + weights.countP (0 < ·)) * total :=
          Nat.add_le_add hfloor ih
        _ = (part amount total x + (weights.map (part amount total)).sum +
            (weights.countP (0 < ·) + 1)) * total := by ring

/-- What the parts leave of the amount is less than the number of weights that are not
zero. -/
theorem lt_sum_part_add {amount : Nat} {weights : List Nat} (h : 0 < weights.sum) :
    amount < (weights.map (part amount weights.sum)).sum + weights.countP (0 < ·) := by
  have hbound := @mul_sum_le_sum_part amount _ weights h
  -- some weight is not zero, so the bound is strict
  have hpos : 0 < weights.countP (0 < ·) := by
    rw [List.countP_pos_iff]
    by_contra hnone
    have hzero : weights.sum = 0 := by
      apply List.sum_eq_zero
      intro x hx
      by_contra hne
      exact hnone ⟨x, hx, by simpa using Nat.pos_of_ne_zero hne⟩
    omega
  refine Nat.lt_of_mul_lt_mul_right (a := weights.sum) ?_
  omega

end ShareMath
