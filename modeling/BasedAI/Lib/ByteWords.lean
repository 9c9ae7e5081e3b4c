import Mathlib.Data.List.Basic
import Mathlib.Data.List.Induction
import Mathlib.Algebra.Order.Ring.Nat
import Mathlib.Tactic.Ring

/-!
# Big-endian words

Fixed-width big-endian encoding of natural numbers into bytes, and its
injectivity: on one word below the modulus, and on a sequence of words of known
length. A message laid out as consecutive words is determined by its bytes.

* `bigEndian_inj` — equal encodings of representable numbers are equal numbers;
* `words_inj`     — equal layouts of equally many words are equal field by field.
-/

namespace ByteWords

/-- `n` on `k` bytes, most significant byte first, modulo `256 ^ k`. -/
def bigEndian : Nat → Nat → List UInt8
  | 0, _ => []
  | k + 1, n => bigEndian k (n / 256) ++ [UInt8.ofNat n]

/-- The number a big-endian byte string spells. -/
def spelled (bytes : List UInt8) : Nat :=
  bytes.foldl (fun acc byte => acc * 256 + byte.toNat) 0

@[simp] theorem length_bigEndian (k n : Nat) : (bigEndian k n).length = k := by
  induction k generalizing n with
  | zero => rfl
  | succ k ih => simp [bigEndian, ih]

theorem spelled_concat (bytes : List UInt8) (byte : UInt8) :
    spelled (bytes ++ [byte]) = spelled bytes * 256 + byte.toNat := by
  rw [spelled, List.foldl_append]
  rfl

theorem spelled_append (bytes tail : List UInt8) :
    spelled (bytes ++ tail) = spelled bytes * 256 ^ tail.length + spelled tail := by
  -- bytes are read from the left, so the induction peels off the last one
  induction tail using List.reverseRecOn with
  | nil => simp [spelled]
  | append_singleton tail byte ih =>
    rw [← List.append_assoc, spelled_concat, spelled_concat, ih, List.length_append,
      List.length_singleton, pow_succ]
    ring

theorem spelled_lt (bytes : List UInt8) : spelled bytes < 256 ^ bytes.length := by
  induction bytes using List.reverseRecOn with
  | nil => exact Nat.one_pos
  | append_singleton bytes byte ih =>
    have hbyte : byte.toNat < 256 := byte.toNat_lt
    rw [spelled_concat, List.length_append, List.length_singleton, pow_succ]
    omega

/-- The encoding keeps what fits. -/
theorem spelled_bigEndian_mod (k n : Nat) : spelled (bigEndian k n) = n % 256 ^ k := by
  induction k generalizing n with
  | zero =>
    rw [pow_zero, Nat.mod_one]
    rfl
  | succ k ih =>
    -- the leading bytes spell the quotient, the last byte the remainder
    have hlow : (UInt8.ofNat n).toNat = n % 256 := rfl
    rw [bigEndian, spelled_concat, ih, hlow, pow_succ, Nat.mul_comm (256 ^ k), Nat.mod_mul]
    omega

/-- Decoding the encoding of a representable number gives it back. -/
theorem spelled_bigEndian {k n : Nat} (h : n < 256 ^ k) : spelled (bigEndian k n) = n := by
  rw [spelled_bigEndian_mod, Nat.mod_eq_of_lt h]

/-- Encoding what bytes spell gives them back. -/
theorem bigEndian_spelled (bytes : List UInt8) :
    bigEndian bytes.length (spelled bytes) = bytes := by
  induction bytes using List.reverseRecOn with
  | nil => rfl
  | append_singleton bytes byte ih =>
    have hbyte : byte.toNat < 256 := byte.toNat_lt
    have hquot : (spelled bytes * 256 + byte.toNat) / 256 = spelled bytes := by omega
    have hlow : UInt8.ofNat (spelled bytes * 256 + byte.toNat) = byte := by
      apply UInt8.toNat_inj.mp
      show (spelled bytes * 256 + byte.toNat) % 256 = byte.toNat
      omega
    rw [List.length_append, List.length_singleton, bigEndian, spelled_concat, hquot, hlow, ih]

theorem bigEndian_inj {k m n : Nat} (hm : m < 256 ^ k) (hn : n < 256 ^ k)
    (h : bigEndian k m = bigEndian k n) : m = n := by
  rw [← spelled_bigEndian hm, h, spelled_bigEndian hn]

/-- A sequence of words of `k` bytes each. -/
def words (k : Nat) (ns : List Nat) : List UInt8 :=
  ns.flatMap (bigEndian k)

@[simp] theorem words_cons (k n : Nat) (ns : List Nat) :
    words k (n :: ns) = bigEndian k n ++ words k ns := rfl

/-- **Layouts are injective.** -/
theorem words_inj {k : Nat} : ∀ {ms ns : List Nat}, ms.length = ns.length →
    (∀ m ∈ ms, m < 256 ^ k) → (∀ n ∈ ns, n < 256 ^ k) →
    words k ms = words k ns → ms = ns
  | [], [], _, _, _, _ => rfl
  | m :: ms, n :: ns, hlen, hms, hns, h => by
    rw [words_cons, words_cons] at h
    -- words are of one length, so the layouts agree word by word
    obtain ⟨hhead, htail⟩ := List.append_inj h (by simp)
    have hm : m < 256 ^ k := hms m (List.mem_cons_self ..)
    have hn : n < 256 ^ k := hns n (List.mem_cons_self ..)
    have hrest := words_inj (by simpa using hlen)
      (fun x hx => hms x (List.mem_cons_of_mem _ hx))
      (fun x hx => hns x (List.mem_cons_of_mem _ hx)) htail
    rw [bigEndian_inj hm hn hhead, hrest]

end ByteWords
