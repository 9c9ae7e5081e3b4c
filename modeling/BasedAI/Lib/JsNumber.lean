import BasedAI.Lib.PyJson

/-!
# JavaScript numbers

Every number of a JavaScript program that is not a `bigint` is an IEEE double, and
`JSON.parse` reads an integer of any length as the double nearest to it. This module
has that rounding: which integers survive it, and what `BigInt` makes of the result.

* `fits_roundBits`    — a rounded number has at most `p` significant bits;
* `roundBits_eq_iff`  — rounding changes nothing exactly where that was so before;
* `ofInt_toInt`       — a double that is an integer is the double of that integer.
-/

namespace Js

open Python

/-! ## Rounding to `p` bits -/

/-- At most `p` significant bits: a number below `2 ^ p`, shifted. -/
def Fits (p n : Nat) : Prop := ∃ m e, m < 2 ^ p ∧ n = m * 2 ^ e

/-- The nearest multiple of `2 ^ e`, the even one of two. -/
def roundAt (e n : Nat) : Nat :=
  let q := n / 2 ^ e
  let r := n % 2 ^ e
  if 2 * r < 2 ^ e then q * 2 ^ e
  else if 2 ^ e < 2 * r then (q + 1) * 2 ^ e
  -- halfway
  else if q % 2 = 0 then q * 2 ^ e
  else (q + 1) * 2 ^ e

/-- The bits of `n` beyond the first `p`. -/
def excess (p n : Nat) : Nat := n.log2 + 1 - p

/-- Round to `p` significant bits. -/
def roundBits (p n : Nat) : Nat := roundAt (excess p n) n

theorem roundAt_cases (e n : Nat) :
    roundAt e n = n / 2 ^ e * 2 ^ e ∨ roundAt e n = (n / 2 ^ e + 1) * 2 ^ e := by
  unfold roundAt
  dsimp only
  split_ifs
  · exact .inl rfl
  · exact .inr rfl
  · exact .inl rfl
  · exact .inr rfl

theorem roundAt_of_dvd {e n : Nat} (h : 2 ^ e ∣ n) : roundAt e n = n := by
  have hrest : n % 2 ^ e = 0 := Nat.mod_eq_zero_of_dvd h
  have hpos : 0 < 2 ^ e := Nat.two_pow_pos e
  unfold roundAt
  dsimp only
  -- nothing is left over, so it is the first case
  rw [hrest, Nat.mul_zero, if_pos hpos]
  exact Nat.div_mul_cancel h

/-- What is left of `n` without the excess bits is below `2 ^ p`. -/
theorem div_excess_lt (p n : Nat) : n / 2 ^ excess p n < 2 ^ p := by
  rw [Nat.div_lt_iff_lt_mul (Nat.two_pow_pos _), ← Nat.pow_add]
  calc n < 2 ^ (n.log2 + 1) := Nat.lt_log2_self
    _ ≤ 2 ^ (p + excess p n) := Nat.pow_le_pow_right (by decide) (by unfold excess; omega)

/-- **A rounded number fits.** -/
theorem fits_roundBits {p : Nat} (hp : 0 < p) (n : Nat) : Fits p (roundBits p n) := by
  have hlt : n / 2 ^ excess p n < 2 ^ p := div_excess_lt p n
  unfold roundBits
  rcases roundAt_cases (excess p n) n with hdown | hup
  · exact ⟨_, _, hlt, hdown⟩
  · by_cases hcarry : n / 2 ^ excess p n + 1 < 2 ^ p
    · exact ⟨_, _, hcarry, hup⟩
    · -- the carry ran through all the bits: a power of two is left
      have hall : n / 2 ^ excess p n + 1 = 2 ^ p := by omega
      refine ⟨1, p + excess p n, Nat.one_lt_two_pow (by omega), ?_⟩
      rw [hup, hall, Nat.one_mul, Nat.pow_add]

/-- **Rounding keeps exactly the numbers that fit.** -/
theorem roundBits_eq_iff {p : Nat} (hp : 0 < p) (n : Nat) : roundBits p n = n ↔ Fits p n := by
  constructor
  · intro h
    rw [← h]
    exact fits_roundBits hp n
  · rintro ⟨m, e, hm, rfl⟩
    apply roundAt_of_dvd
    by_cases hzero : m = 0
    · rw [hzero, Nat.zero_mul]
      exact Nat.dvd_zero _
    · -- the excess is within the shift
      have hlog : (m * 2 ^ e).log2 < p + e := by
        rw [Nat.log2_lt (Nat.mul_ne_zero hzero (Nat.two_pow_pos e).ne'), Nat.pow_add]
        exact Nat.mul_lt_mul_of_pos_right hm (Nat.two_pow_pos e)
      have hexcess : excess p (m * 2 ^ e) ≤ e := by
        unfold excess
        omega
      exact Nat.dvd_mul_left_of_dvd (Nat.pow_dvd_pow 2 hexcess) m

/-- Rounding moves a number by less than its size again, or so. -/
theorem roundBits_le (p n : Nat) : roundBits p n ≤ 3 * n + 2 := by
  have hpos : 0 < 2 ^ excess p n := Nat.two_pow_pos _
  have hdown : n / 2 ^ excess p n * 2 ^ excess p n ≤ n := Nat.div_mul_le_self _ _
  have hpow : 2 ^ excess p n ≤ 2 * n + 2 := by
    calc 2 ^ excess p n ≤ 2 ^ (n.log2 + 1) :=
          Nat.pow_le_pow_right (by decide) (by unfold excess; omega)
      _ = 2 * 2 ^ n.log2 := by rw [Nat.pow_succ, Nat.mul_comm]
      _ ≤ 2 * (n + 1) := by
          by_cases hzero : n = 0
          · rw [hzero]
            decide
          · have hself : 2 ^ n.log2 ≤ n := Nat.log2_self_le hzero
            omega
      _ = 2 * n + 2 := by omega
  -- down to a multiple of the power, or up to the next
  rcases roundAt_cases (excess p n) n with h | h
  · rw [roundBits, h]
    omega
  · rw [roundBits, h, Nat.add_mul, Nat.one_mul]
    omega

example : roundBits 53 9007199254740993 = 9007199254740992 := by decide +kernel

/-! ## Doubles -/

instance (n : Nat) : Decidable (Fits 53 n) :=
  decidable_of_iff (roundBits 53 n = n) (roundBits_eq_iff (by decide) n)

/-- The values of a double: 53 bits over a power of two. Subnormal numbers are the
multiples of `2 ^ -1074`. -/
def IsDouble : PyFloat → Prop
  | .finite q => q.den ∣ 2 ^ 1074 ∧ Fits 53 q.num.natAbs ∧ q.num.natAbs < 2 ^ 1024 * q.den
  | _ => True

instance : DecidablePred IsDouble
  | .finite q =>
    inferInstanceAs (Decidable (q.den ∣ 2 ^ 1074 ∧ Fits 53 q.num.natAbs ∧
      q.num.natAbs < 2 ^ 1024 * q.den))
  | .inf => isTrue trivial
  | .negInf => isTrue trivial
  | .nan => isTrue trivial

/-- A number: the two zeros are one. -/
structure Number where
  value : PyFloat
  isDouble : IsDouble value
  deriving DecidableEq

/-- The integers that are doubles. -/
theorem isDouble_int {n : Int} :
    IsDouble (.finite n) ↔ Fits 53 n.natAbs ∧ n.natAbs < 2 ^ 1024 := by
  show (n : Rat).den ∣ 2 ^ 1074 ∧ Fits 53 (n : Rat).num.natAbs ∧
    (n : Rat).num.natAbs < 2 ^ 1024 * (n : Rat).den ↔ _
  rw [Rat.den_intCast, Rat.num_intCast, Nat.mul_one]
  exact and_iff_right (Nat.one_dvd _)

/-- An integer rounded to 53 bits. -/
def roundInt (n : Int) : Int :=
  if 0 ≤ n then (roundBits 53 n.natAbs : Nat) else -(roundBits 53 n.natAbs : Nat)

theorem natAbs_roundInt (n : Int) : (roundInt n).natAbs = roundBits 53 n.natAbs := by
  unfold roundInt
  split
  · rw [Int.natAbs_natCast]
  · rw [Int.natAbs_neg, Int.natAbs_natCast]

theorem roundInt_natCast (n : Nat) : roundInt n = (roundBits 53 n : Nat) := by
  rw [roundInt, if_pos (Int.natCast_nonneg n), Int.natAbs_natCast]

theorem roundInt_of_fits {n : Int} (h : Fits 53 n.natAbs) : roundInt n = n := by
  rw [roundInt, (roundBits_eq_iff (by decide) _).mpr h]
  split
  · omega
  · omega

namespace Number

/-- The double nearest to an integer, or an infinity. -/
def ofInt (n : Int) : Number :=
  if h : (roundInt n).natAbs < 2 ^ 1024 then
    ⟨.finite (roundInt n),
      isDouble_int.mpr ⟨natAbs_roundInt n ▸ fits_roundBits (by decide) _, h⟩⟩
  else if 0 ≤ n then ⟨.inf, trivial⟩
  else ⟨.negInf, trivial⟩

/-- `BigInt(x)`; `none` is `RangeError`. -/
def toInt (x : Number) : Option Int :=
  match x.value with
  | .finite q => if q.den = 1 then some q.num else none
  | _ => none

/-- `x === y`. -/
def strictEq (x y : Number) : Bool := x.value ≠ .nan ∧ x = y

theorem ext_value {x y : Number} (h : x.value = y.value) : x = y := by
  cases x
  cases y
  cases h
  rfl

theorem toInt_ofInt {n : Int} (h : (roundInt n).natAbs < 2 ^ 1024) :
    (ofInt n).toInt = some (roundInt n) := by
  rw [ofInt, dif_pos h, toInt]
  exact if_pos rfl

/-- A word is rounded to an integer. -/
theorem toInt_ofInt_word {n : Nat} (h : n < 2 ^ 256) :
    (ofInt n).toInt = some ((roundBits 53 n : Nat) : Int) := by
  have hsmall : roundBits 53 n < 4 * 2 ^ 256 := by
    have hle : roundBits 53 n ≤ 3 * n + 2 := roundBits_le 53 n
    omega
  have hword : 4 * 2 ^ 256 ≤ 2 ^ 1024 := by decide +kernel
  have hlt : (roundInt n).natAbs < 2 ^ 1024 := by
    rw [natAbs_roundInt, Int.natAbs_natCast]
    exact hsmall.trans_le hword
  rw [toInt_ofInt hlt, roundInt_natCast]

theorem value_of_toInt {x : Number} {n : Int} (h : x.toInt = some n) :
    x.value = .finite n := by
  unfold toInt at h
  split at h
  · rename_i q hq
    split at h
    · rename_i hden
      rw [hq, ← Option.some.inj h, (Rat.den_eq_one_iff q).mp hden]
    · cases h
  · cases h

/-- **A double that is an integer is the double of that integer.** -/
theorem ofInt_toInt {x : Number} {n : Int} (h : x.toInt = some n) : ofInt n = x := by
  have hvalue : x.value = .finite n := value_of_toInt h
  obtain ⟨hfits, hbound⟩ := isDouble_int.mp (hvalue ▸ x.isDouble)
  have hround : roundInt n = n := roundInt_of_fits hfits
  apply ext_value
  rw [hvalue, ofInt, dif_pos (hround.symm ▸ hbound)]
  exact congrArg (fun k : Int => PyFloat.finite k) hround

/-- A number that is an integer equals itself. -/
theorem strictEq_self {x : Number} {n : Int} (h : x.toInt = some n) : x.strictEq x = true := by
  rw [strictEq, value_of_toInt h]
  exact decide_eq_true ⟨PyFloat.noConfusion, rfl⟩

end Number

end Js
