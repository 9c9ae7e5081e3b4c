import Mathlib.Algebra.BigOperators.Fin
import Mathlib.Algebra.BigOperators.Group.Finset.Basic
import Mathlib.Algebra.Order.BigOperators.Group.Finset
import Mathlib.Data.Fintype.BigOperators

/-!
# Total maps with finitely many keys

A storage mapping is a total function with a default value. Writing one entry
of a one-, two- or three-level mapping is `set`, `set₂`, `set₃`; the lemmas say
what every entry reads after the write, and how a sum over all keys moves when
one entry does.
-/

namespace Mapping

variable {K K₁ K₂ K₃ V : Type} [DecidableEq K] [DecidableEq K₁] [DecidableEq K₂]
  [DecidableEq K₃]

/-- Write one entry. -/
def set (f : K → V) (k : K) (v : V) : K → V :=
  fun k' => if k' = k then v else f k'

/-- Write one entry of a two-level mapping. -/
def set₂ (f : K₁ → K₂ → V) (a : K₁) (b : K₂) (v : V) : K₁ → K₂ → V :=
  fun a' b' => if a' = a ∧ b' = b then v else f a' b'

/-- Write one entry of a three-level mapping. -/
def set₃ (f : K₁ → K₂ → K₃ → V) (a : K₁) (b : K₂) (c : K₃) (v : V) :
    K₁ → K₂ → K₃ → V :=
  fun a' b' c' => if a' = a ∧ b' = b ∧ c' = c then v else f a' b' c'

@[simp] theorem set_same (f : K → V) (k : K) (v : V) : set f k v k = v := by
  simp [set]

theorem set_apply (f : K → V) (k k' : K) (v : V) :
    set f k v k' = if k' = k then v else f k' := rfl

theorem set_of_ne (f : K → V) {k k' : K} (v : V) (h : k' ≠ k) : set f k v k' = f k' := by
  simp [set, h]

theorem set_set (f : K → V) (k : K) (v w : V) : set (set f k v) k w = set f k w := by
  funext k'
  rw [set_apply, set_apply, set_apply]
  split
  case isTrue => rfl
  case isFalse => rfl

theorem set_self (f : K → V) (k : K) : set f k (f k) = f := by
  funext k'
  rw [set_apply]
  split
  case isTrue h => rw [h]
  case isFalse => rfl

@[simp] theorem set₂_same (f : K₁ → K₂ → V) (a : K₁) (b : K₂) (v : V) :
    set₂ f a b v a b = v := by
  simp [set₂]

theorem set₂_apply (f : K₁ → K₂ → V) (a a' : K₁) (b b' : K₂) (v : V) :
    set₂ f a b v a' b' = if a' = a ∧ b' = b then v else f a' b' := rfl

theorem set₂_of_ne (f : K₁ → K₂ → V) {a a' : K₁} {b b' : K₂} (v : V)
    (h : ¬ (a' = a ∧ b' = b)) : set₂ f a b v a' b' = f a' b' := by
  simp [set₂, h]

theorem set₃_apply (f : K₁ → K₂ → K₃ → V) (a a' : K₁) (b b' : K₂) (c c' : K₃) (v : V) :
    set₃ f a b c v a' b' c' = if a' = a ∧ b' = b ∧ c' = c then v else f a' b' c' := rfl

theorem set₂_self (f : K₁ → K₂ → V) (a : K₁) (b : K₂) : set₂ f a b (f a b) = f := by
  funext a' b'
  rw [set₂_apply]
  split
  case isTrue h =>
    obtain ⟨rfl, rfl⟩ := h
    rfl
  case isFalse => rfl

theorem set₃_self (f : K₁ → K₂ → K₃ → V) (a : K₁) (b : K₂) (c : K₃) :
    set₃ f a b c (f a b c) = f := by
  funext a' b' c'
  rw [set₃_apply]
  split
  case isTrue h =>
    obtain ⟨rfl, rfl, rfl⟩ := h
    rfl
  case isFalse => rfl

/-- Raising one entry lowers none. -/
theorem le_set₂_add (f : K₁ → K₂ → Nat) (a a' : K₁) (b b' : K₂) (n : Nat) :
    f a' b' ≤ set₂ f a b (f a b + n) a' b' := by
  rw [set₂_apply]
  split
  case isTrue h =>
    obtain ⟨rfl, rfl⟩ := h
    exact Nat.le_add_right _ _
  case isFalse => exact le_rfl

/-- Lowering one entry raises none. -/
theorem set₂_sub_le (f : K₁ → K₂ → Nat) (a a' : K₁) (b b' : K₂) (n : Nat) :
    set₂ f a b (f a b - n) a' b' ≤ f a' b' := by
  rw [set₂_apply]
  split
  case isTrue h =>
    obtain ⟨rfl, rfl⟩ := h
    exact Nat.sub_le _ _
  case isFalse => exact le_rfl

theorem set₃_of_ne (f : K₁ → K₂ → K₃ → V) {a a' : K₁} {b b' : K₂} {c c' : K₃} (v : V)
    (h : ¬ (a' = a ∧ b' = b ∧ c' = c)) : set₃ f a b c v a' b' c' = f a' b' c' := by
  rw [set₃_apply, if_neg h]

/-- A row of a two-level mapping after a write is the row with one entry
written, or untouched. -/
theorem set₂_row (f : K₁ → K₂ → V) (a a' : K₁) (b : K₂) (v : V) :
    set₂ f a b v a' = if a' = a then set (f a') b v else f a' := by
  funext b'
  by_cases h : a' = a <;> simp [set₂, set, h]

/-- The last level of a three-level mapping after a write. -/
theorem set₃_row (f : K₁ → K₂ → K₃ → V) (a a' : K₁) (b b' : K₂) (c : K₃) (v : V) :
    set₃ f a b c v a' b' = if a' = a ∧ b' = b then set (f a' b') c v else f a' b' := by
  funext c'
  by_cases h : a' = a ∧ b' = b
  · simp [set₃, set, h]
  · -- outside the row no entry is written, whatever its last key
    have h3 : ¬ (a' = a ∧ b' = b ∧ c' = c) := fun h' => h ⟨h'.1, h'.2.1⟩
    simp [set₃, h, h3]

/-! ## Sums over all keys -/

variable [Fintype K]

/-- The sum over all keys after one entry moved from `f k` to `v`. -/
theorem sum_set_add (f : K → Nat) (k : K) (v : Nat) :
    (∑ x, set f k v x) + f k = (∑ x, f x) + v := by
  -- both sums are the entry at `k` plus the same sum over the other keys
  have hset : ∑ x, set f k v x = v + ∑ x ∈ Finset.univ.erase k, f x := by
    rw [← Finset.add_sum_erase _ _ (Finset.mem_univ k), set_same]
    congr 1
    exact Finset.sum_congr rfl fun x hx => set_of_ne f v (Finset.ne_of_mem_erase hx)
  have hsum := Finset.add_sum_erase Finset.univ f (Finset.mem_univ k)
  omega

/-- A write adds at most the value written. -/
theorem sum_set_le (f : K → Nat) (k : K) (v : Nat) : ∑ x, set f k v x ≤ (∑ x, f x) + v := by
  have hsum := sum_set_add f k v
  omega

/-- Row totals kept beside a two-level mapping stay right when one entry and
its row's total move together. -/
theorem row_sum_set₂ [Fintype K₂] {g : K₁ → Nat} {f : K₁ → K₂ → Nat}
    (h : ∀ a, g a = ∑ b, f a b) {a : K₁} {b : K₂} {v w : Nat}
    (hmove : w + f a b = g a + v) (a' : K₁) :
    set g a w a' = ∑ b', set₂ f a b v a' b' := by
  rw [set_apply, set₂_row]
  split
  case isTrue ha =>
    -- the written row: its total moved by what its entry moved
    subst ha
    have hsum := sum_set_add (f a') b v
    have hrow := h a'
    omega
  case isFalse => exact h a'

/-- The same one level deeper. -/
theorem row_sum_set₃ [Fintype K₃] {g : K₁ → K₂ → Nat} {f : K₁ → K₂ → K₃ → Nat}
    (h : ∀ a b, g a b = ∑ c, f a b c) {a : K₁} {b : K₂} {c : K₃} {v w : Nat}
    (hmove : w + f a b c = g a b + v) (a' : K₁) (b' : K₂) :
    set₂ g a b w a' b' = ∑ c', set₃ f a b c v a' b' c' := by
  rw [set₂_apply, set₃_row]
  split
  case isTrue hab =>
    obtain ⟨rfl, rfl⟩ := hab
    have hsum := sum_set_add (f a' b') c v
    have hrow := h a' b'
    omega
  case isFalse => exact h a' b'

omit [DecidableEq K] in
theorem le_sum (f : K → Nat) (k : K) : f k ≤ ∑ x, f x :=
  Finset.single_le_sum (fun _ _ => Nat.zero_le _) (Finset.mem_univ k)

end Mapping
