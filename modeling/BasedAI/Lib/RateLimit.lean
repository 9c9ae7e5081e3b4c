import Mathlib.Algebra.Order.Ring.Nat

/-!
# Amounts that change a little at a time

An amount is changed at moments at least `d` apart: never to nothing, to no less than the
`c`-th part of what it was, rounded down, and to no more than `c` times as much. So in any
stretch of time it changes by a power of `c` at most, with one factor for every `d` that fits
in, and one more, as the stretch need not begin with a change.

* `Within`       — what can become of an amount in a number of changes;
* `Paced`        — a number of changes that a stretch of time has room for;
* `Drift`        — what can become of it in that time;
* `Drift.within` — how far it gets.
-/

namespace RateLimit

variable {c d m n a x x' start stop last now : Nat}

/-! ## Changes -/

/-- What can become of `a` in `m` changes. -/
structure Within (c m a x : Nat) : Prop where
  le : x ≤ c ^ m * a
  ge : max 1 (a / c ^ m) ≤ x

theorem Within.refl (ha : 0 < a) : Within c 0 a a where
  le := by rw [Nat.pow_zero, Nat.one_mul]
  ge := by
    rw [Nat.pow_zero, Nat.div_one]
    exact Nat.max_le.mpr ⟨ha, Nat.le_refl a⟩

/-- One more change. -/
theorem Within.change (h : Within c m a x) (hle : x' ≤ x * c) (hge : x / c ≤ x')
    (hpos : 0 < x') : Within c (m + 1) a x' where
  le := by
    calc x' ≤ x * c := hle
      _ ≤ c ^ m * a * c := Nat.mul_le_mul_right c h.le
      _ = c ^ (m + 1) * a := by rw [Nat.mul_right_comm, ← Nat.pow_succ]
  ge := by
    have hold : a / c ^ m ≤ x := (Nat.max_le.mp h.ge).2
    refine Nat.max_le.mpr ⟨hpos, ?_⟩
    -- rounding down twice is rounding down once
    calc a / c ^ (m + 1) = a / c ^ m / c := by rw [Nat.pow_succ, Nat.div_div_eq_div_mul]
      _ ≤ x / c := Nat.div_le_div_right hold
      _ ≤ x' := hge

theorem Within.mono (h : Within c m a x) (hc : 0 < c) (hmn : m ≤ n) : Within c n a x where
  le := by
    calc x ≤ c ^ m * a := h.le
      _ ≤ c ^ n * a := Nat.mul_le_mul_right a (Nat.pow_le_pow_right hc hmn)
  ge := by
    obtain ⟨hpos, hpart⟩ := Nat.max_le.mp h.ge
    have hpow : c ^ m ≤ c ^ n := Nat.pow_le_pow_right hc hmn
    refine Nat.max_le.mpr ⟨hpos, ?_⟩
    calc a / c ^ n ≤ a / c ^ m := Nat.div_le_div_left hpow (Nat.pow_pos hc)
      _ ≤ x := hpart

/-! ## Moments -/

/-- A number of changes between `start` and `stop`, the last of them at `last`. -/
def Paced (d start stop last : Nat) : Nat → Prop
  | 0 => True
  | m + 1 => start + m * d ≤ last ∧ last ≤ stop

/-- The next change comes when `d` has passed since the last. -/
theorem Paced.next (h : Paced d start stop last m) (hcooled : last + d ≤ now)
    (hstart : start ≤ now) (hstop : now ≤ stop) : Paced d start stop now (m + 1) := by
  refine ⟨?_, hstop⟩
  cases m with
  | zero =>
    -- the first one may come at any time
    rw [Nat.zero_mul]
    exact hstart
  | succ m =>
    obtain ⟨hlast, -⟩ := h
    rw [Nat.succ_mul]
    omega

/-- **As many as fit in**, and one more. -/
theorem Paced.le (h : Paced d start stop last m) (hd : 0 < d) :
    m ≤ (stop - start) / d + 1 := by
  cases m with
  | zero => exact Nat.zero_le _
  | succ m =>
    obtain ⟨hlast, hstop⟩ := h
    have hroom : m * d ≤ stop - start := by omega
    exact Nat.succ_le_succ ((Nat.le_div_iff_mul_le hd).mpr hroom)

/-! ## Amounts in time -/

/-- What can become of `a` between `start` and `stop`, if it was changed last at `last`. -/
def Drift (c d start stop a x last : Nat) : Prop :=
  ∃ m, Paced d start stop last m ∧ Within c m a x

theorem Drift.refl (ha : 0 < a) : Drift c d start stop a a last := ⟨0, trivial, .refl ha⟩

theorem Drift.change (h : Drift c d start stop a x last) (hcooled : last + d ≤ now)
    (hstart : start ≤ now) (hstop : now ≤ stop) (hle : x' ≤ x * c) (hge : x / c ≤ x')
    (hpos : 0 < x') : Drift c d start stop a x' now := by
  obtain ⟨m, hpaced, hwithin⟩ := h
  exact ⟨m + 1, hpaced.next hcooled hstart hstop, hwithin.change hle hge hpos⟩

/-- **How far an amount gets.** -/
theorem Drift.within (h : Drift c d start stop a x last) (hc : 0 < c) (hd : 0 < d) :
    Within c ((stop - start) / d + 1) a x := by
  obtain ⟨m, hpaced, hwithin⟩ := h
  exact hwithin.mono hc (hpaced.le hd)

end RateLimit
