import Mathlib.Algebra.Order.Ring.Nat
import Mathlib.Data.List.Basic
import Mathlib.Data.Option.Basic

/-!
# Python texts

A `str` is a list of code points, lone surrogates included, so that encoding it
can fail. This module has the operations on texts that decide what a program
accepts: UTF-8, lower case, `int()` and the two hexadecimal decoders.

ASCII is handled exactly. What Python looks up in the Unicode database for other
code points is a parameter (`Unicode`).

* `unhexlify_hexlify`       — decoding the hexadecimal form of bytes gives them back;
* `unhexlify_lowerAscii`    — decoding does not see the case of the digits;
* `lower_ascii`             — lower case of an ASCII text needs no database;
* `fromHex_lowerAscii`, `countP_of_fromHex` — the same with white space between the bytes.
-/

namespace Python

abbrev CodePoint := Fin 0x110000

abbrev Text := List CodePoint

instance neZero_codePoints : NeZero 0x110000 := inferInstance

instance lawfulBEq_text : LawfulBEq Text := inferInstanceAs (LawfulBEq (List CodePoint))

/-- The text of a literal. -/
def text (s : String) : Text := s.toList.map fun c => Fin.ofNat _ c.toNat

/-- What the Unicode database says beyond ASCII: the lower case of a text (which
is not a matter of single code points), the decimal digits and the white space. -/
structure Unicode where
  lower : Text → Text
  digit : CodePoint → Option (Fin 10)
  isSpace : CodePoint → Bool

/-! ## Case -/

def isAscii (t : Text) : Bool := t.all fun c => c.val < 0x80

def lowerAscii (c : CodePoint) : CodePoint :=
  if 0x41 ≤ c.val ∧ c.val ≤ 0x5A then Fin.ofNat _ (c.val + 32) else c

def upperAscii (c : CodePoint) : CodePoint :=
  if 0x61 ≤ c.val ∧ c.val ≤ 0x7A then Fin.ofNat _ (c.val - 32) else c

/-- `str.lower`. -/
def lower (u : Unicode) (t : Text) : Text :=
  if isAscii t then t.map lowerAscii else u.lower t

theorem lower_ascii {u : Unicode} {t : Text} (h : isAscii t = true) :
    lower u t = t.map lowerAscii :=
  if_pos h

/-! ## UTF-8 -/

/-- The UTF-8 bytes of a code point; a surrogate has none. -/
def utf8Char (c : CodePoint) : Option (List UInt8) :=
  let n := c.val
  if n < 0x80 then some [UInt8.ofNat n]
  else if n < 0x800 then some [UInt8.ofNat (0xC0 + n / 64), UInt8.ofNat (0x80 + n % 64)]
  -- a lone surrogate cannot be encoded
  else if 0xD800 ≤ n ∧ n ≤ 0xDFFF then none
  else if n < 0x10000 then
    some [UInt8.ofNat (0xE0 + n / 4096), UInt8.ofNat (0x80 + n / 64 % 64),
      UInt8.ofNat (0x80 + n % 64)]
  else
    some [UInt8.ofNat (0xF0 + n / 262144), UInt8.ofNat (0x80 + n / 4096 % 64),
      UInt8.ofNat (0x80 + n / 64 % 64), UInt8.ofNat (0x80 + n % 64)]

/-- `str.encode("utf-8")`; `none` is `UnicodeEncodeError`. -/
def utf8 : Text → Option (List UInt8)
  | [] => some []
  | c :: rest => do
    let bytes ← utf8Char c
    let tail ← utf8 rest
    return bytes ++ tail

/-! ## Decimal integers -/

def isAsciiSpace (c : CodePoint) : Bool := c.val = 0x20 ∨ 9 ≤ c.val ∧ c.val ≤ 13

def isSpace (u : Unicode) (c : CodePoint) : Bool :=
  if c.val < 0x80 then isAsciiSpace c else u.isSpace c

def decimalDigit (u : Unicode) (c : CodePoint) : Option Nat :=
  if c.val < 0x80 then
    if 0x30 ≤ c.val ∧ c.val ≤ 0x39 then some (c.val - 0x30) else none
  -- `int` also reads the decimal digits of other scripts
  else (u.digit c).map Fin.val

/-- Decimal digits, with single underscores allowed between them. -/
def decimalDigits (u : Unicode) : Text → Option (List Nat)
  | [] => none
  | [c] => (decimalDigit u c).map fun d => [d]
  | c :: c' :: rest => do
    let d ← decimalDigit u c
    -- an underscore has to be followed by a digit again
    let ds ← if c'.val = 0x5F then decimalDigits u rest else decimalDigits u (c' :: rest)
    return d :: ds

def strip (u : Unicode) (t : Text) : Text :=
  (((t.dropWhile (isSpace u)).reverse).dropWhile (isSpace u)).reverse

/-- White space to `str.split`, which also knows the ASCII separators. -/
def isSplitSpace (u : Unicode) (c : CodePoint) : Bool :=
  if c.val < 0x80 then isAsciiSpace c || decide (0x1C ≤ c.val ∧ c.val ≤ 0x1F)
  else u.isSpace c

/-- `str.split()`. -/
def splitWords (u : Unicode) (t : Text) : List Text :=
  (t.splitOnP (isSplitSpace u)).filter (· ≠ [])

/-- The longest digit string `int` converts. -/
def MAX_STR_DIGITS : Nat := 4300

def signSplit : Text → Int × Text
  | [] => (1, [])
  | c :: rest =>
    if c.val = 0x2D then (-1, rest) else if c.val = 0x2B then (1, rest) else (1, c :: rest)

/-- `int` of a text; `none` is `ValueError`. -/
def intOfText (u : Unicode) (t : Text) : Option Int := do
  let (sign, digits) := signSplit (strip u t)
  let ds ← decimalDigits u digits
  -- the sign is not counted among the digits
  if MAX_STR_DIGITS < ds.length then none
  else return sign * (ds.foldl (fun acc d => acc * 10 + d) 0 : Nat)

/-! ## Hexadecimal -/

def hexDigit (c : CodePoint) : Option Nat :=
  let n := c.val
  if 0x30 ≤ n ∧ n ≤ 0x39 then some (n - 0x30)
  else if 0x41 ≤ n ∧ n ≤ 0x46 then some (n - 0x37)
  else if 0x61 ≤ n ∧ n ≤ 0x66 then some (n - 0x57)
  else none

/-- The lower-case digit of a nibble. -/
def hexChar (n : Nat) : CodePoint := Fin.ofNat _ (if n < 10 then 0x30 + n else 0x57 + n)

/-- The lower-case hexadecimal form of bytes, without a prefix. -/
def hexlify : List UInt8 → Text
  | [] => []
  | byte :: rest => hexChar (byte.toNat / 16) :: hexChar (byte.toNat % 16) :: hexlify rest

def hexByte (hi lo : CodePoint) : Option UInt8 := do
  let h ← hexDigit hi
  let l ← hexDigit lo
  return UInt8.ofNat (16 * h + l)

/-- `binascii.unhexlify`: pairs of digits and nothing else. -/
def unhexlify : Text → Option (List UInt8)
  | [] => some []
  | [_] => none
  | hi :: lo :: rest => do
    let byte ← hexByte hi lo
    let tail ← unhexlify rest
    return byte :: tail

/-- `bytes.fromhex`: pairs of digits, with ASCII white space before, between and
after the pairs. -/
def fromHex : Text → Option (List UInt8)
  | [] => some []
  | [c] => if isAsciiSpace c then some [] else none
  | hi :: lo :: rest =>
    -- white space may stand between the pairs, never inside one
    if isAsciiSpace hi then fromHex (lo :: rest)
    else do
      let byte ← hexByte hi lo
      let tail ← fromHex rest
      return byte :: tail

theorem hexDigit_hexChar {n : Nat} (h : n < 16) : hexDigit (hexChar n) = some n := by
  have hall : ∀ n : Fin 16, hexDigit (hexChar n.val) = some n.val := by decide
  exact hall ⟨n, h⟩

theorem hexDigit_lowerAscii (c : CodePoint) : hexDigit (lowerAscii c) = hexDigit c := by
  by_cases hupper : 0x41 ≤ c.val ∧ c.val ≤ 0x5A
  · -- a capital moves up by 32; the comparisons below are over that number
    have hval : (lowerAscii c).val = c.val + 32 := by
      rw [lowerAscii, if_pos hupper]
      show (c.val + 32) % 0x110000 = c.val + 32
      omega
    unfold hexDigit
    rw [hval]
    dsimp only
    -- an upper-case letter and its lower-case form are the same digit, or none
    by_cases hdigit : c.val ≤ 0x46
    · rw [if_neg (by omega), if_neg (by omega), if_pos (by omega), if_neg (by omega),
        if_pos (by omega)]
      congr 1
    · rw [if_neg (by omega), if_neg (by omega), if_neg (by omega), if_neg (by omega),
        if_neg (by omega), if_neg (by omega)]
  · rw [lowerAscii, if_neg hupper]

theorem hexByte_lowerAscii (hi lo : CodePoint) :
    hexByte (lowerAscii hi) (lowerAscii lo) = hexByte hi lo := by
  unfold hexByte
  rw [hexDigit_lowerAscii, hexDigit_lowerAscii]

/-- Decoding does not see the case of the digits. -/
theorem unhexlify_lowerAscii (t : Text) : unhexlify (t.map lowerAscii) = unhexlify t := by
  induction t using unhexlify.induct with
  | case1 => rfl
  | case2 c => rfl
  | case3 hi lo rest ih =>
    rw [List.map_cons, List.map_cons, unhexlify, unhexlify, hexByte_lowerAscii, ih]

theorem hexByte_hexChar (byte : UInt8) :
    hexByte (hexChar (byte.toNat / 16)) (hexChar (byte.toNat % 16)) = some byte := by
  have hbyte : byte.toNat < 256 := byte.toNat_lt
  have hhi : byte.toNat / 16 < 16 := by omega
  have hlo : byte.toNat % 16 < 16 := Nat.mod_lt _ (by decide)
  rw [hexByte, hexDigit_hexChar hhi, hexDigit_hexChar hlo]
  show some (UInt8.ofNat (16 * (byte.toNat / 16) + byte.toNat % 16)) = some byte
  rw [Nat.div_add_mod, UInt8.ofNat_toNat]

/-- **Hexadecimal round trip.** -/
theorem unhexlify_hexlify (bytes : List UInt8) : unhexlify (hexlify bytes) = some bytes := by
  induction bytes with
  | nil => rfl
  | cons byte rest ih =>
    rw [hexlify, unhexlify, hexByte_hexChar, ih]
    rfl

theorem hexlify_append (bytes tail : List UInt8) :
    hexlify (bytes ++ tail) = hexlify bytes ++ hexlify tail := by
  induction bytes with
  | nil => rfl
  | cons byte rest ih => rw [List.cons_append, hexlify, hexlify, ih]; rfl

theorem isAsciiSpace_hexChar {n : Nat} (h : n < 16) : isAsciiSpace (hexChar n) = false := by
  have hall : ∀ n : Fin 16, isAsciiSpace (hexChar n.val) = false := by decide
  exact hall ⟨n, h⟩

/-- `bytes.fromhex` reads the plain form too. -/
theorem fromHex_hexlify (bytes : List UInt8) : fromHex (hexlify bytes) = some bytes := by
  induction bytes with
  | nil => rfl
  | cons byte rest ih =>
    have hbyte : byte.toNat < 256 := byte.toNat_lt
    have hspace : isAsciiSpace (hexChar (byte.toNat / 16)) = false :=
      isAsciiSpace_hexChar (by omega)
    rw [hexlify, fromHex, hspace, hexByte_hexChar, ih]
    rfl

/-- A code point takes a byte at least. -/
theorem length_le_of_utf8 {t : Text} {bytes : List UInt8} (h : utf8 t = some bytes) :
    t.length ≤ bytes.length := by
  induction t generalizing bytes with
  | nil => exact Nat.zero_le _
  | cons c rest ih =>
    simp only [utf8, Option.bind_eq_bind, Option.bind_eq_some_iff, Option.pure_def,
      Option.some.injEq] at h
    obtain ⟨first, hfirst, tail, htail, rfl⟩ := h
    have hpos : 0 < first.length := by
      unfold utf8Char at hfirst
      dsimp only at hfirst
      split_ifs at hfirst <;> (obtain rfl := Option.some.inj hfirst; exact Nat.succ_pos _)
    have hrest : rest.length ≤ tail.length := ih htail
    rw [List.length_cons, List.length_append]
    omega

theorem unhexlify_length {t : Text} {bytes : List UInt8} (h : unhexlify t = some bytes) :
    t.length = 2 * bytes.length := by
  induction t using unhexlify.induct generalizing bytes with
  | case1 =>
    obtain rfl : [] = bytes := Option.some.inj h
    rfl
  | case2 c => exact absurd h (by simp [unhexlify])
  | case3 hi lo rest ih =>
    simp only [unhexlify, Option.bind_eq_bind, Option.bind_eq_some_iff, Option.pure_def,
      Option.some.injEq] at h
    -- two digits for each byte
    obtain ⟨byte, -, tail, htail, rfl⟩ := h
    rw [List.length_cons, List.length_cons, ih htail, List.length_cons]
    omega

theorem lowerAscii_eq_hexChar {c : CodePoint} {n : Nat} (h : hexDigit c = some n) :
    lowerAscii c = hexChar n := by
  -- one case for each of the three kinds of digits
  unfold hexDigit at h
  dsimp only at h
  apply Fin.ext
  split_ifs at h with hdecimal hupper hlower
  · obtain rfl := Option.some.inj h
    rw [lowerAscii, if_neg (by omega), hexChar, if_pos (by omega)]
    show c.val = (0x30 + (c.val - 0x30)) % 0x110000
    omega
  · obtain rfl := Option.some.inj h
    rw [lowerAscii, if_pos (by omega), hexChar, if_neg (by omega)]
    show (c.val + 32) % 0x110000 = (0x57 + (c.val - 0x37)) % 0x110000
    omega
  · obtain rfl := Option.some.inj h
    rw [lowerAscii, if_neg (by omega), hexChar, if_neg (by omega)]
    show c.val = (0x57 + (c.val - 0x57)) % 0x110000
    omega

theorem hexDigit_lt {c : CodePoint} {n : Nat} (h : hexDigit c = some n) : n < 16 := by
  unfold hexDigit at h
  dsimp only at h
  split_ifs at h with hdecimal hupper hlower
  · have heq : c.val - 0x30 = n := Option.some.inj h
    omega
  · have heq : c.val - 0x37 = n := Option.some.inj h
    omega
  · have heq : c.val - 0x57 = n := Option.some.inj h
    omega

/-- In lower case, what decodes to bytes is their plain form. -/
theorem map_lowerAscii_of_unhexlify {t : Text} {bytes : List UInt8}
    (h : unhexlify t = some bytes) : t.map lowerAscii = hexlify bytes := by
  induction t using unhexlify.induct generalizing bytes with
  | case1 =>
    obtain rfl : [] = bytes := Option.some.inj h
    rfl
  | case2 c => exact absurd h (by simp [unhexlify])
  | case3 hi lo rest ih =>
    simp only [unhexlify, hexByte, Option.bind_eq_bind, Option.bind_eq_some_iff,
      Option.pure_def, Option.some.injEq] at h
    obtain ⟨byte, ⟨m, hhi, n, hlo, rfl⟩, tail, htail, rfl⟩ := h
    have hm : m < 16 := hexDigit_lt hhi
    have hn : n < 16 := hexDigit_lt hlo
    -- two digits below 16 fit in a byte
    have hbyte : (UInt8.ofNat (16 * m + n)).toNat = 16 * m + n := by
      show (16 * m + n) % 256 = 16 * m + n
      omega
    have hquot : (16 * m + n) / 16 = m := by omega
    have hrest : (16 * m + n) % 16 = n := by omega
    rw [List.map_cons, List.map_cons, lowerAscii_eq_hexChar hhi, lowerAscii_eq_hexChar hlo,
      ih htail, hexlify, hbyte, hquot, hrest]

theorem isAscii_of_hexDigit {c : CodePoint} {n : Nat} (h : hexDigit c = some n) :
    c.val < 0x80 := by
  unfold hexDigit at h
  dsimp only at h
  split_ifs at h <;> omega

/-- What decodes is ASCII. -/
theorem isAscii_of_unhexlify {t : Text} {bytes : List UInt8} (h : unhexlify t = some bytes) :
    isAscii t = true := by
  induction t using unhexlify.induct generalizing bytes with
  | case1 => rfl
  | case2 c => exact absurd h (by simp [unhexlify])
  | case3 hi lo rest ih =>
    simp only [unhexlify, hexByte, Option.bind_eq_bind, Option.bind_eq_some_iff,
      Option.pure_def] at h
    obtain ⟨byte, ⟨m, hhi, n, hlo, -⟩, tail, htail, -⟩ := h
    -- a pair that decodes is two digits, and digits are ASCII
    have hrest : isAscii rest = true := ih htail
    unfold isAscii at hrest ⊢
    rw [List.all_cons, List.all_cons, hrest, Bool.and_true, Bool.and_eq_true,
      decide_eq_true_eq, decide_eq_true_eq]
    exact ⟨isAscii_of_hexDigit hhi, isAscii_of_hexDigit hlo⟩

/-! ## Digits with white space between the bytes -/

theorem isAsciiSpace_lowerAscii (c : CodePoint) :
    isAsciiSpace (lowerAscii c) = isAsciiSpace c := by
  by_cases hupper : 0x41 ≤ c.val ∧ c.val ≤ 0x5A
  · have hval : (lowerAscii c).val = c.val + 32 := by
      rw [lowerAscii, if_pos hupper]
      show (c.val + 32) % 0x110000 = c.val + 32
      omega
    -- neither a capital nor a small letter is white space
    unfold isAsciiSpace
    rw [hval]
    apply decide_eq_decide.mpr
    omega
  · rw [lowerAscii, if_neg hupper]

theorem lowerAscii_lowerAscii (c : CodePoint) : lowerAscii (lowerAscii c) = lowerAscii c := by
  by_cases hupper : 0x41 ≤ c.val ∧ c.val ≤ 0x5A
  · have hval : (lowerAscii c).val = c.val + 32 := by
      rw [lowerAscii, if_pos hupper]
      show (c.val + 32) % 0x110000 = c.val + 32
      omega
    rw [lowerAscii, if_neg (by omega)]
  · have hsame : lowerAscii c = c := if_neg hupper
    rw [hsame, hsame]

/-- `bytes.fromhex` does not see the case of the digits. -/
theorem fromHex_lowerAscii (t : Text) : fromHex (t.map lowerAscii) = fromHex t := by
  induction t using fromHex.induct with
  | case1 => rfl
  | case2 c h => rw [List.map_singleton, fromHex, fromHex, isAsciiSpace_lowerAscii]
  | case3 c h => rw [List.map_singleton, fromHex, fromHex, isAsciiSpace_lowerAscii]
  | case4 hi lo rest h ih =>
    rw [List.map_cons, List.map_cons, fromHex, fromHex, isAsciiSpace_lowerAscii, if_pos h,
      if_pos h, ← ih, List.map_cons]
  | case5 hi lo rest h ih =>
    rw [List.map_cons, List.map_cons, fromHex, fromHex, isAsciiSpace_lowerAscii, if_neg h,
      if_neg h, hexByte_lowerAscii, ih]

theorem isAscii_of_isAsciiSpace {c : CodePoint} (h : isAsciiSpace c = true) : c.val < 0x80 := by
  unfold isAsciiSpace at h
  have hspace := of_decide_eq_true h
  omega

/-- Digits are not white space. -/
theorem isAsciiSpace_of_hexDigit {c : CodePoint} {n : Nat} (h : hexDigit c = some n) :
    isAsciiSpace c = false := by
  unfold hexDigit at h
  dsimp only at h
  unfold isAsciiSpace
  apply decide_eq_false
  split_ifs at h <;> omega

theorem fromHex_cons {hi lo : CodePoint} {rest : Text} {bytes : List UInt8}
    (hspace : isAsciiSpace hi = false) (h : fromHex (hi :: lo :: rest) = some bytes) :
    ∃ m n tail, hexDigit hi = some m ∧ hexDigit lo = some n ∧ fromHex rest = some tail ∧
      bytes.length = tail.length + 1 := by
  rw [fromHex, hspace, if_neg Bool.false_ne_true] at h
  simp only [hexByte, Option.bind_eq_bind, Option.bind_eq_some_iff, Option.pure_def,
    Option.some.injEq] at h
  obtain ⟨byte, ⟨m, hhi, n, hlo, rfl⟩, tail, htail, rfl⟩ := h
  exact ⟨m, n, tail, hhi, hlo, htail, List.length_cons⟩

/-- Two digits for each byte, and white space. -/
theorem countP_of_fromHex {t : Text} {bytes : List UInt8} (h : fromHex t = some bytes) :
    t.countP (fun c => !isAsciiSpace c) = 2 * bytes.length := by
  induction t using fromHex.induct generalizing bytes with
  | case1 =>
    obtain rfl : [] = bytes := Option.some.inj h
    rfl
  | case2 c hspace =>
    rw [fromHex, if_pos hspace] at h
    obtain rfl := Option.some.inj h
    rw [List.countP_singleton, hspace]
    rfl
  | case3 c hspace =>
    rw [fromHex, if_neg hspace] at h
    cases h
  -- white space stands before a pair of digits, never inside one
  | case4 hi lo rest hspace ih =>
    rw [fromHex, if_pos hspace] at h
    rw [List.countP_cons_of_neg (by simpa using hspace), ih h]
  | case5 hi lo rest hspace ih =>
    obtain ⟨m, n, tail, hhi, hlo, htail, hlen⟩ := fromHex_cons (by simpa using hspace) h
    rw [List.countP_cons_of_pos (by simpa using hspace),
      List.countP_cons_of_pos (by rw [isAsciiSpace_of_hexDigit hlo]; rfl), ih htail, hlen]
    omega

theorem isAscii_cons {c : CodePoint} {t : Text} :
    isAscii (c :: t) = true ↔ c.val < 0x80 ∧ isAscii t = true := by
  unfold isAscii
  rw [List.all_cons, Bool.and_eq_true, decide_eq_true_eq]

theorem isAscii_of_fromHex {t : Text} {bytes : List UInt8} (h : fromHex t = some bytes) :
    isAscii t = true := by
  induction t using fromHex.induct generalizing bytes with
  | case1 => rfl
  | case2 c hspace => exact isAscii_cons.mpr ⟨isAscii_of_isAsciiSpace hspace, rfl⟩
  | case3 c hspace =>
    rw [fromHex, if_neg hspace] at h
    cases h
  | case4 hi lo rest hspace ih =>
    rw [fromHex, if_pos hspace] at h
    exact isAscii_cons.mpr ⟨isAscii_of_isAsciiSpace hspace, ih h⟩
  | case5 hi lo rest hspace ih =>
    obtain ⟨m, n, tail, hhi, hlo, htail, -⟩ := fromHex_cons (by simpa using hspace) h
    exact isAscii_cons.mpr ⟨isAscii_of_hexDigit hhi,
      isAscii_cons.mpr ⟨isAscii_of_hexDigit hlo, ih htail⟩⟩

/-! ## UTF-8 is injective -/

/-- The first code point of UTF-8 bytes, and the bytes behind it. -/
def utf8Head : List UInt8 → Option (Nat × List UInt8)
  | [] => none
  | a :: rest =>
    -- the first byte says how many follow
    if a.toNat < 0x80 then some (a.toNat, rest)
    else if a.toNat < 0xE0 then
      match rest with
      | b :: rest => some ((a.toNat - 0xC0) * 64 + (b.toNat - 0x80), rest)
      | _ => none
    else if a.toNat < 0xF0 then
      match rest with
      | b :: c :: rest =>
        some ((a.toNat - 0xE0) * 4096 + (b.toNat - 0x80) * 64 + (c.toNat - 0x80), rest)
      | _ => none
    else
      match rest with
      | b :: c :: d :: rest =>
        some ((a.toNat - 0xF0) * 262144 + (b.toNat - 0x80) * 4096 + (c.toNat - 0x80) * 64 +
          (d.toNat - 0x80), rest)
      | _ => none

theorem toNat_ofNat_byte {n : Nat} (h : n < 256) : (UInt8.ofNat n).toNat = n :=
  Nat.mod_eq_of_lt h

/-- The bytes of a code point are read back, whatever follows them. -/
theorem utf8Head_append {c : CodePoint} {bytes : List UInt8} (h : utf8Char c = some bytes)
    (rest : List UInt8) : utf8Head (bytes ++ rest) = some (c.val, rest) := by
  have hc := c.isLt
  unfold utf8Char at h
  dsimp only at h
  -- one case for each number of bytes
  split_ifs at h with h₁ h₂ h₃ h₄
  · obtain rfl := Option.some.inj h
    have ha := @toNat_ofNat_byte c.val (by omega)
    simp only [List.cons_append, List.nil_append, utf8Head, ha, if_pos h₁]
  · obtain rfl := Option.some.inj h
    have ha := @toNat_ofNat_byte (0xC0 + c.val / 64) (by omega)
    have hb := @toNat_ofNat_byte (0x80 + c.val % 64) (by omega)
    simp only [List.cons_append, List.nil_append, utf8Head, ha, hb]
    rw [if_neg (by omega), if_pos (by omega)]
    have hvalue : (0xC0 + c.val / 64 - 0xC0) * 64 + (0x80 + c.val % 64 - 0x80) = c.val := by
      omega
    rw [hvalue]
  · obtain rfl := Option.some.inj h
    have ha := @toNat_ofNat_byte (0xE0 + c.val / 4096) (by omega)
    have hb := @toNat_ofNat_byte (0x80 + c.val / 64 % 64) (by omega)
    have hd := @toNat_ofNat_byte (0x80 + c.val % 64) (by omega)
    simp only [List.cons_append, List.nil_append, utf8Head, ha, hb, hd]
    rw [if_neg (by omega), if_neg (by omega), if_pos (by omega)]
    have hvalue : (0xE0 + c.val / 4096 - 0xE0) * 4096 + (0x80 + c.val / 64 % 64 - 0x80) * 64 +
        (0x80 + c.val % 64 - 0x80) = c.val := by omega
    rw [hvalue]
  · obtain rfl := Option.some.inj h
    have ha := @toNat_ofNat_byte (0xF0 + c.val / 262144) (by omega)
    have hb := @toNat_ofNat_byte (0x80 + c.val / 4096 % 64) (by omega)
    have hd := @toNat_ofNat_byte (0x80 + c.val / 64 % 64) (by omega)
    have he := @toNat_ofNat_byte (0x80 + c.val % 64) (by omega)
    simp only [List.cons_append, List.nil_append, utf8Head, ha, hb, hd, he]
    rw [if_neg (by omega), if_neg (by omega), if_neg (by omega)]
    have hvalue : (0xF0 + c.val / 262144 - 0xF0) * 262144 +
        (0x80 + c.val / 4096 % 64 - 0x80) * 4096 + (0x80 + c.val / 64 % 64 - 0x80) * 64 +
        (0x80 + c.val % 64 - 0x80) = c.val := by omega
    rw [hvalue]

theorem utf8_cons {c : CodePoint} {rest : Text} {bytes : List UInt8} :
    utf8 (c :: rest) = some bytes ↔
      ∃ first tail, utf8Char c = some first ∧ utf8 rest = some tail ∧ bytes = first ++ tail := by
  simp only [utf8, Option.bind_eq_bind, Option.bind_eq_some_iff, Option.pure_def,
    Option.some.injEq]
  constructor
  · rintro ⟨first, hfirst, tail, htail, rfl⟩
    exact ⟨first, tail, hfirst, htail, rfl⟩
  · rintro ⟨first, tail, hfirst, htail, rfl⟩
    exact ⟨first, hfirst, tail, htail, rfl⟩

/-- A text is determined by its bytes. -/
theorem utf8_inj {s t : Text} {bytes : List UInt8} (hs : utf8 s = some bytes)
    (ht : utf8 t = some bytes) : s = t := by
  induction s generalizing t bytes with
  | nil =>
    obtain rfl : [] = bytes := Option.some.inj hs
    have hlen := length_le_of_utf8 ht
    exact (List.length_eq_zero_iff.mp (Nat.le_zero.mp hlen)).symm
  | cons c s ih =>
    obtain ⟨first, tail, hfirst, htail, rfl⟩ := utf8_cons.mp hs
    -- the bytes say where the first character ends
    have hhead := utf8Head_append hfirst tail
    cases t with
    | nil =>
      have hnil : [] = first ++ tail := Option.some.inj ht
      rw [← hnil] at hhead
      cases hhead
    | cons c' t =>
      obtain ⟨first', tail', hfirst', htail', hbytes⟩ := utf8_cons.mp ht
      rw [hbytes, utf8Head_append hfirst' tail'] at hhead
      obtain ⟨hc, rfl⟩ := Prod.mk.inj (Option.some.inj hhead)
      rw [Fin.ext hc, ih htail htail']
end Python
