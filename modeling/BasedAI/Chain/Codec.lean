import BasedAI.Chain.Crypto
import BasedAI.Lib.PyJson

/-!
# BasedAI — addresses, integers and hashes as the Python side writes them

Off chain an address is a text and an integer is unbounded. This module has the
conversions the clients and the validator go through before anything is signed:
which texts are addresses, the mixed-case checksum, the range checks of the ABI
encoder, and Keccak of texts.

* `hexAddress_toChecksum` — the checksummed text of an address denotes it;
* `hexAddress_eq_of_lower` — two address texts equal up to case denote one address.
-/

namespace BasedAI

open Fallible ByteWords Python

/-- An account with its key: the address and the signature on a digest. -/
structure Account where
  address : Address
  sign : Bytes32 → Bytes

/-! ## Address texts -/

/-- `remove_0x_prefix`. -/
def remove0xPrefix : Text → Text
  | a :: b :: rest =>
    if a.val = 0x30 ∧ (b.val = 0x78 ∨ b.val = 0x58) then rest else a :: b :: rest
  | t => t

/-- The address a text denotes: 40 digits in either case, `0x` optional. -/
def hexAddress (t : Text) : Option Address := do
  let digits := remove0xPrefix t
  if digits.length = 40 then
    let bytes ← unhexlify digits
    return Fin.ofNat _ (spelled bytes)
  else none

def nibbles (bytes : Bytes) : List Nat :=
  bytes.flatMap fun byte => [byte.toNat / 16, byte.toNat % 16]

def checksumChar (c : CodePoint) (nibble : Nat) : CodePoint :=
  if 8 ≤ nibble then upperAscii c else c

/-- The 40 digits of the checksummed form: the hash of the lower-case digits decides
which letters are capitals. -/
def checksumDigits (crypto : Crypto) (a : Address) : Text :=
  let digits := hexlify (bigEndian 20 a.val)
  let hash := crypto.keccak256 (digits.map fun c => UInt8.ofNat c.val)
  List.zipWith checksumChar digits (nibbles (wordBytes hash))

/-- The checksummed form of an address. -/
def toChecksum (crypto : Crypto) (a : Address) : Text :=
  text "0x" ++ checksumDigits crypto a

/-- `Web3.to_checksum_address`. An integer is read as its hexadecimal digits. -/
def toChecksumAddress (crypto : Crypto) : Json → Py Text
  | .str t => (orRaise .conversionError (hexAddress t)).map (toChecksum crypto)
  | .int n =>
    -- only a number of exactly 40 digits looks like an address
    if 16 ^ 39 ≤ n ∧ n < 16 ^ 40 then .ok (toChecksum crypto (Fin.ofNat _ n.toNat))
    else .error .conversionError
  | .bool _ => .error .conversionError
  | _ => .error .typeError

/-! ## The ABI encoder -/

/-- An `address` argument, in any case: a checksum is not asked for. -/
def encodeAddress : Json → Py Address
  | .str t => orRaise .encodingError (hexAddress t)
  | _ => .error .encodingError

/-- A `uint` argument of `w` bits. -/
def encodeUint (w : Nat) (n : Int) : Py (Fin (2 ^ w)) :=
  if h : 0 ≤ n ∧ n < (2 ^ w : Nat) then .ok ⟨n.toNat, by omega⟩ else .error .encodingError

/-- A `bytes32` argument: exactly 32 bytes. -/
def encodeBytes32 (bytes : Bytes) : Py Bytes32 :=
  if bytes.length = 32 then .ok (Fin.ofNat _ (spelled bytes)) else .error .encodingError

/-! ## Hashing texts -/

/-- `"0x" + value.hex()` of a 32-byte value. -/
def hexText (w : Bytes32) : Text := text "0x" ++ hexlify (wordBytes w)

/-- `Web3.keccak(text=value)`. -/
def keccakText (crypto : Crypto) : Json → Py Bytes32
  | .str t => do
    let bytes ← orRaise .unicodeEncodeError (utf8 t)
    return crypto.keccak256 bytes
  | _ => .error .typeError

/-- `Web3.keccak(hexstr=t)` for a text of an even number of digits. -/
def keccakHexstr (crypto : Crypto) (t : Text) : Py Bytes32 := do
  let bytes ← orRaise .conversionError (unhexlify (remove0xPrefix t))
  return crypto.keccak256 bytes

/-! ## Case does not change what an address text denotes -/

theorem remove0xPrefix_lowerAscii (t : Text) :
    remove0xPrefix (t.map lowerAscii) = (remove0xPrefix t).map lowerAscii := by
  match t with
  | [] => rfl
  | [_] => rfl
  | a :: b :: rest =>
    -- lower case neither makes nor unmakes the two characters of a prefix
    have hzero : (lowerAscii a).val = 0x30 ↔ a.val = 0x30 := by
      unfold lowerAscii
      split
      · show (a.val + 32) % 0x110000 = 0x30 ↔ a.val = 0x30
        omega
      · exact Iff.rfl
    have hx : (lowerAscii b).val = 0x78 ∨ (lowerAscii b).val = 0x58 ↔
        b.val = 0x78 ∨ b.val = 0x58 := by
      unfold lowerAscii
      split
      · show (b.val + 32) % 0x110000 = 0x78 ∨ (b.val + 32) % 0x110000 = 0x58 ↔ _
        omega
      · exact Iff.rfl
    rw [List.map_cons, List.map_cons, remove0xPrefix, remove0xPrefix]
    simp only [hzero, hx]
    split
    · rfl
    · rfl

theorem hexAddress_lowerAscii (t : Text) : hexAddress (t.map lowerAscii) = hexAddress t := by
  unfold hexAddress
  dsimp only
  rw [remove0xPrefix_lowerAscii, unhexlify_lowerAscii, List.length_map]

theorem isAscii_of_remove0xPrefix {t : Text} (h : isAscii (remove0xPrefix t) = true) :
    isAscii t = true := by
  match t with
  | [] => rfl
  | [_] => exact h
  | a :: b :: rest =>
    rw [remove0xPrefix] at h
    split at h
    · rename_i hprefix
      -- the two characters removed are `0` and `x`
      have ha : a.val < 0x80 := by omega
      have hb : b.val < 0x80 := by omega
      unfold isAscii at h ⊢
      rw [List.all_cons, List.all_cons, h, decide_eq_true ha, decide_eq_true hb]
      rfl
    · exact h

/-- An address text is ASCII. -/
theorem isAscii_of_hexAddress {t : Text} {a : Address} (h : hexAddress t = some a) :
    isAscii t = true := by
  unfold hexAddress at h
  dsimp only at h
  split at h
  · rw [Option.bind_eq_bind, Option.bind_eq_some_iff] at h
    obtain ⟨bytes, hbytes, -⟩ := h
    exact isAscii_of_remove0xPrefix (isAscii_of_unhexlify hbytes)
  · exact absurd h (by simp)

/-! ## The checksummed form -/

theorem lowerAscii_hexChar {n : Nat} (h : n < 16) : lowerAscii (hexChar n) = hexChar n := by
  have hall : ∀ n : Fin 16, lowerAscii (hexChar n.val) = hexChar n.val := by decide
  exact hall ⟨n, h⟩

theorem lowerAscii_upperAscii_hexChar {n : Nat} (h : n < 16) :
    lowerAscii (upperAscii (hexChar n)) = hexChar n := by
  have hall : ∀ n : Fin 16, lowerAscii (upperAscii (hexChar n.val)) = hexChar n.val := by
    decide
  exact hall ⟨n, h⟩

theorem lowerAscii_checksumChar {n : Nat} (h : n < 16) (nibble : Nat) :
    lowerAscii (checksumChar (hexChar n) nibble) = hexChar n := by
  unfold checksumChar
  split
  · exact lowerAscii_upperAscii_hexChar h
  · exact lowerAscii_hexChar h

theorem length_nibbles (bytes : Bytes) : (nibbles bytes).length = 2 * bytes.length := by
  induction bytes with
  | nil => rfl
  | cons byte rest ih =>
    unfold nibbles at ih ⊢
    rw [List.flatMap_cons, List.length_append, ih, List.length_cons]
    show 2 + 2 * rest.length = 2 * (rest.length + 1)
    omega

/-- Forgetting the case of the checksummed digits leaves the plain ones. -/
theorem zipWith_checksumChar_lower (bytes : Bytes) (hash : List Nat)
    (hlen : 2 * bytes.length ≤ hash.length) :
    (List.zipWith checksumChar (hexlify bytes) hash).map lowerAscii = hexlify bytes := by
  -- each byte uses up two nibbles of the hash
  induction bytes generalizing hash with
  | nil => rfl
  | cons byte rest ih =>
    match hash with
    | [] => exact absurd hlen (by simp)
    | [_] =>
      rw [List.length_cons, List.length_singleton] at hlen
      omega
    | h :: h' :: hash =>
      have hbyte : byte.toNat < 256 := byte.toNat_lt
      have hhi : byte.toNat / 16 < 16 := by omega
      have hlo : byte.toNat % 16 < 16 := Nat.mod_lt _ (by decide)
      have hrest : 2 * rest.length ≤ hash.length := by
        simp only [List.length_cons] at hlen
        omega
      rw [hexlify, List.zipWith_cons_cons, List.zipWith_cons_cons, List.map_cons,
        List.map_cons, lowerAscii_checksumChar hhi, lowerAscii_checksumChar hlo, ih hash hrest]

theorem checksumDigits_lower (crypto : Crypto) (a : Address) :
    (checksumDigits crypto a).map lowerAscii = hexlify (bigEndian 20 a.val) := by
  unfold checksumDigits
  apply zipWith_checksumChar_lower
  -- the 64 nibbles of the hash are enough for the 40 digits
  rw [length_nibbles, length_bigEndian, wordBytes, length_bigEndian]
  decide

theorem unhexlify_checksumDigits (crypto : Crypto) (a : Address) :
    unhexlify (checksumDigits crypto a) = some (bigEndian 20 a.val) := by
  rw [← unhexlify_lowerAscii, checksumDigits_lower, unhexlify_hexlify]

theorem remove0xPrefix_text_0x (t : Text) : remove0xPrefix (text "0x" ++ t) = t := rfl

theorem two_pow_160 : (2 : Nat) ^ 160 = 256 ^ 20 := by norm_num

/-- **The checksummed text of an address denotes it.** -/
theorem hexAddress_toChecksum (crypto : Crypto) (a : Address) :
    hexAddress (toChecksum crypto a) = some a := by
  have hbytes : unhexlify (checksumDigits crypto a) = some (bigEndian 20 a.val) :=
    unhexlify_checksumDigits crypto a
  have hlen : (checksumDigits crypto a).length = 40 := by
    rw [unhexlify_length hbytes, length_bigEndian]
  have ha : a.val < 256 ^ 20 := a.isLt.trans_eq two_pow_160
  unfold hexAddress toChecksum
  rw [remove0xPrefix_text_0x]
  dsimp only
  rw [if_pos hlen, hbytes]
  show some (Fin.ofNat _ (spelled (bigEndian 20 a.val))) = some a
  rw [spelled_bigEndian ha, Fin.ofNat_val_eq_self]

/-- **Address texts equal up to case denote one address.** -/
theorem hexAddress_eq_of_lower {u : Unicode} {s t : Text} {a b : Address}
    (hs : hexAddress s = some a) (ht : hexAddress t = some b)
    (h : lower u s = lower u t) : a = b := by
  -- both texts are ASCII, so Python's lower case is the ASCII one
  have hlower : s.map lowerAscii = t.map lowerAscii := by
    rw [← lower_ascii (isAscii_of_hexAddress hs), ← lower_ascii (isAscii_of_hexAddress ht), h]
  have hsame : hexAddress s = hexAddress t := by
    rw [← hexAddress_lowerAscii s, hlower, hexAddress_lowerAscii t]
  rw [hs, ht] at hsame
  exact Option.some.inj hsame

/-- The digits of an address text, in lower case. -/
theorem map_lowerAscii_of_hexAddress {t : Text} {a : Address}
    (h : hexAddress (text "0x" ++ t) = some a) :
    t.map lowerAscii = hexlify (bigEndian 20 a.val) := by
  unfold hexAddress at h
  rw [remove0xPrefix_text_0x] at h
  dsimp only at h
  split at h
  · rename_i hlen
    rw [Option.bind_eq_bind, Option.bind_eq_some_iff] at h
    obtain ⟨bytes, hbytes, ha⟩ := h
    have htwenty : bytes.length = 20 := by
      have htwice : t.length = 2 * bytes.length := unhexlify_length hbytes
      omega
    -- twenty bytes spell a number below the width of an address
    have hval : a.val = spelled bytes := by
      have hlt : spelled bytes < 256 ^ bytes.length := spelled_lt bytes
      rw [htwenty, ← two_pow_160] at hlt
      rw [← Option.some.inj ha]
      exact Nat.mod_eq_of_lt hlt
    rw [map_lowerAscii_of_unhexlify hbytes, hval, ← htwenty, bigEndian_spelled]
  · exact absurd h (by simp)

/-- **The checksummed form differs only in case** from any `0x` form of an address. -/
theorem lower_toChecksum {crypto : Crypto} {u : Unicode} {t : Text} {a : Address}
    (h : hexAddress (text "0x" ++ t) = some a) :
    lower u (toChecksum crypto a) = lower u (text "0x" ++ t) := by
  have hascii : isAscii (toChecksum crypto a) = true :=
    isAscii_of_hexAddress (hexAddress_toChecksum crypto a)
  rw [lower_ascii hascii, lower_ascii (isAscii_of_hexAddress h), toChecksum, List.map_append,
    List.map_append, checksumDigits_lower, map_lowerAscii_of_hexAddress h]

/-- `Web3.to_checksum_address` returns the text of an address. -/
theorem toChecksumAddress_ok {crypto : Crypto} {v : Json} {t : Text}
    (h : toChecksumAddress crypto v = .ok t) : ∃ a, t = toChecksum crypto a := by
  unfold toChecksumAddress at h
  split at h
  · obtain ⟨a, -, ha⟩ := map_ok.mp h
    exact ⟨a, ha.symm⟩
  · split at h
    · exact ⟨_, (Except.ok.inj h).symm⟩
    · cases h
  · cases h
  · cases h

/-- The encoder takes a checksummed address. -/
theorem encodeAddress_toChecksum (crypto : Crypto) (a : Address) :
    encodeAddress (.str (toChecksum crypto a)) = .ok a := by
  rw [encodeAddress, hexAddress_toChecksum]
  rfl

theorem encodeUint_eq {w n : Nat} (h : n < 2 ^ w) : encodeUint w n = .ok ⟨n, h⟩ := by
  have hrange : (0 : Int) ≤ n ∧ (n : Int) < (2 ^ w : Nat) := ⟨by omega, by exact_mod_cast h⟩
  rw [encodeUint, dif_pos hrange]
  rfl

/-! ## Hashes and their texts -/

theorem encodeBytes32_wordBytes (w : Bytes32) : encodeBytes32 (wordBytes w) = .ok w := by
  have hw : w.val < 256 ^ 32 := w.isLt.trans_eq two_pow_256
  unfold encodeBytes32 wordBytes
  rw [if_pos (length_bigEndian 32 w.val), spelled_bigEndian hw, Fin.ofNat_val_eq_self]

theorem remove0xPrefix_hexlify (bytes : Bytes) :
    remove0xPrefix (hexlify bytes) = hexlify bytes := by
  cases bytes with
  | nil => rfl
  | cons byte rest =>
    -- no hexadecimal digit is an `x`
    have hall : ∀ n : Fin 16, (hexChar n.val).val ≠ 0x78 ∧ (hexChar n.val).val ≠ 0x58 := by
      decide
    obtain ⟨hx, hX⟩ := hall ⟨byte.toNat % 16, Nat.mod_lt _ (by decide)⟩
    rw [hexlify, remove0xPrefix, if_neg]
    rintro ⟨-, h | h⟩
    · exact hx h
    · exact hX h

/-- Hashing the digits of bytes hashes the bytes. -/
theorem keccakHexstr_hexlify (crypto : Crypto) (bytes : Bytes) :
    keccakHexstr crypto (hexlify bytes) = .ok (crypto.keccak256 bytes) := by
  unfold keccakHexstr
  rw [remove0xPrefix_hexlify, unhexlify_hexlify]
  rfl

theorem hexText_drop (w : Bytes32) : (hexText w).drop 2 = hexlify (wordBytes w) := by
  have htwo : (text "0x").length = 2 := by decide
  rw [hexText, List.drop_left' htwo]

theorem isAscii_hexText (w : Bytes32) : isAscii (hexText w) = true := by
  have hdigits : isAscii (hexlify (wordBytes w)) = true :=
    isAscii_of_unhexlify (unhexlify_hexlify _)
  unfold isAscii at hdigits ⊢
  rw [hexText, List.all_append, hdigits, Bool.and_true]
  decide

theorem map_lowerAscii_hexlify (bytes : Bytes) :
    (hexlify bytes).map lowerAscii = hexlify bytes :=
  map_lowerAscii_of_unhexlify (unhexlify_hexlify bytes)

/-- A hash is written in lower case. -/
theorem lower_hexText (u : Unicode) (w : Bytes32) : lower u (hexText w) = hexText w := by
  have hprefix : (text "0x").map lowerAscii = text "0x" := by decide
  rw [lower_ascii (isAscii_hexText w), hexText, List.map_append, hprefix,
    map_lowerAscii_hexlify]

theorem hexText_inj {v w : Bytes32} (h : hexText v = hexText w) : v = w := by
  have hdigits : hexlify (wordBytes v) = hexlify (wordBytes w) := List.append_cancel_left h
  have hbytes : some (wordBytes v) = some (wordBytes w) := by
    rw [← unhexlify_hexlify (wordBytes v), hdigits, unhexlify_hexlify]
  exact wordBytes_inj (Option.some.inj hbytes)

/-! ## Inversion of the encoder -/

theorem encodeAddress_ok {v : Json} {a : Address} (h : encodeAddress v = .ok a) :
    ∃ t, v = .str t ∧ hexAddress t = some a := by
  cases v with
  | str t => exact ⟨t, rfl, orRevert_ok.mp h⟩
  | _ => exact absurd h (by simp [encodeAddress])

theorem encodeUint_ok {w : Nat} {n : Int} {m : Fin (2 ^ w)} (h : encodeUint w n = .ok m) :
    (m.val : Int) = n := by
  unfold encodeUint at h
  split at h
  · rename_i hrange
    cases h
    show ((n.toNat : Nat) : Int) = n
    omega
  · exact absurd h (by simp)

end BasedAI
