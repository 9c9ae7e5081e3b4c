import BasedAI.Validator.CanonicalRoots
import BasedAI.Validator.CommitmentAggregator

/-!
# BasedAI — the spellings of a root

`bytes.fromhex` reads a root in either case, with or without `0x` (which the code takes off)
and with white space between its bytes. The aggregator keeps a root under the text it came
in, in lower case, and drops the first two characters of that text when it proposes it.

* `rootOfText_normalize` — the text a root is kept under denotes it;
* `fromHex_drop`         — what is left of it without its first two characters.
-/

namespace BasedAI

open Fallible Python ByteWords

/-! ## The text a root is kept under -/

section Normalize

variable {u : Unicode} {r : RootArg} {t : Text} {root : Bytes32}

theorem not_fromHex_0x (rest : Text) : fromHex (text "0x" ++ rest) = none := by
  have hx : hexByte 0x30 0x78 = none := by decide
  show fromHex (0x30 :: 0x78 :: rest) = none
  rw [fromHex, if_neg (by decide), hx]
  rfl

theorem rootOfText_prefixed (rest : Text) : rootOfText (text "0x" ++ rest) = (do
    let bytes ← orRaise .conversionError (fromHex rest)
    rootOfBytes bytes) := by
  unfold rootOfText
  rw [if_pos (isPrefixOf_0x rest), drop_0x]

theorem rootOfText_plain (h : (text "0x").isPrefixOf t = false) : rootOfText t = (do
    let bytes ← orRaise .conversionError (fromHex t)
    rootOfBytes bytes) := by
  unfold rootOfText
  rw [if_neg (by rw [h]; decide)]

theorem prefix_or_plain (t : Text) :
    (∃ rest, t = text "0x" ++ rest) ∨ (text "0x").isPrefixOf t = false := by
  cases h : (text "0x").isPrefixOf t with
  | false => exact .inr rfl
  | true =>
    obtain ⟨rest, rfl⟩ := List.isPrefixOf_iff_prefix.mp h
    exact .inl ⟨rest, rfl⟩

/-- Lower case neither makes nor unmakes the prefix of a root. -/
theorem rootOfText_lowerAscii (h : rootOfText t = .ok root) :
    isAscii t = true ∧ rootOfText (t.map lowerAscii) = .ok root := by
  rcases prefix_or_plain t with ⟨rest, rfl⟩ | hplain
  · have hlower : (text "0x" ++ rest).map lowerAscii = text "0x" ++ rest.map lowerAscii := by
      rw [List.map_append]
      rfl
    rw [rootOfText_prefixed] at h
    rw [hlower, rootOfText_prefixed, fromHex_lowerAscii]
    obtain ⟨bytes, hbytes, -⟩ := bind_ok.mp h
    have hrest : isAscii rest = true := isAscii_of_fromHex (orRevert_ok.mp hbytes)
    exact ⟨isAscii_cons.mpr ⟨by decide, isAscii_cons.mpr ⟨by decide, hrest⟩⟩, h⟩
  · rw [rootOfText_plain hplain] at h
    obtain ⟨bytes, hbytes, -⟩ := bind_ok.mp h
    have hdigits := orRevert_ok.mp hbytes
    refine ⟨isAscii_of_fromHex hdigits, ?_⟩
    rcases prefix_or_plain (t.map lowerAscii) with ⟨rest, hrest⟩ | hlower
    · -- an `X` is no digit either
      rw [← fromHex_lowerAscii, hrest, not_fromHex_0x] at hdigits
      cases hdigits
    · rw [rootOfText_plain hlower, fromHex_lowerAscii]
      exact h

/-- **The text a root is kept under denotes it.** -/
theorem rootOfText_normalize (h : r.asRootBytes = .ok root) :
    rootOfText (r.normalize u) = .ok root ∧ lower u (r.normalize u) = r.normalize u := by
  have hspelled : ∃ t, r.normalize u = lower u t ∧ rootOfText t = .ok root := by
    cases r with
    | str t => exact ⟨t, rfl, h⟩
    | bytes b =>
      refine ⟨text "0x" ++ hexlify b, rfl, ?_⟩
      rw [rootOfText_prefixed, fromHex_hexlify]
      exact h
  obtain ⟨t, hnormal, hroot⟩ := hspelled
  obtain ⟨hascii, hlower⟩ := rootOfText_lowerAscii hroot
  obtain ⟨hascii', hlower'⟩ := rootOfText_lowerAscii hlower
  have hidem : (t.map lowerAscii).map lowerAscii = t.map lowerAscii := by
    rw [List.map_map]
    exact List.map_congr_left fun c _ => lowerAscii_lowerAscii c
  rw [hnormal, lower_ascii hascii, lower_ascii hascii', hidem]
  exact ⟨hlower, rfl⟩

end Normalize

/-! ## Without the first two characters -/

section Drop

variable {t : Text} {root : Bytes32}

/-- The first two characters are not digits of the root: `0x`, or white space. -/
def Whole (t : Text) : Prop :=
  (text "0x").isPrefixOf t = true ∨ (t.take 2).all isAsciiSpace = true

/-- White space, and then half a byte. -/
def Skewed (t : Text) : Prop :=
  (t.take 2).any isAsciiSpace = true ∧ (t.take 2).all isAsciiSpace = false

instance : DecidablePred Whole := fun t =>
  inferInstanceAs (Decidable ((text "0x").isPrefixOf t = true ∨
    (t.take 2).all isAsciiSpace = true))

instance : DecidablePred Skewed := fun t =>
  inferInstanceAs (Decidable ((t.take 2).any isAsciiSpace = true ∧
    (t.take 2).all isAsciiSpace = false))

theorem rootOfBytes_length {bytes : Bytes} (h : rootOfBytes bytes = .ok root) :
    bytes.length = 32 := by
  unfold rootOfBytes at h
  simp only [bind_ok, revertIf_ok, not_not] at h
  obtain ⟨-, hlen, -⟩ := h
  exact hlen

/-- The encoder takes the bytes of a root for the root. -/
theorem encodeBytes32_of_rootOfBytes {bytes : Bytes} (h : rootOfBytes bytes = .ok root) :
    encodeBytes32 bytes = .ok root := by
  have hlen := rootOfBytes_length h
  unfold rootOfBytes at h
  simp only [bind_ok, return_ok] at h
  obtain ⟨-, -, rfl⟩ := h
  exact if_pos hlen

/-- **What is left of the text of a root without its first two characters**: the root, nothing
that can be read, or a byte less. -/
theorem fromHex_drop (h : rootOfText t = .ok root) :
    (Whole t ∧ ∃ bytes, fromHex (t.drop 2) = some bytes ∧ encodeBytes32 bytes = .ok root) ∨
    (Skewed t ∧ ¬ Whole t ∧ fromHex (t.drop 2) = none) ∨
    (¬ Whole t ∧ ¬ Skewed t ∧ ∃ bytes, fromHex (t.drop 2) = some bytes ∧ bytes.length = 31) := by
  rcases prefix_or_plain t with ⟨rest, rfl⟩ | hplain
  · rw [rootOfText_prefixed] at h
    obtain ⟨bytes, hbytes, hroot⟩ := bind_ok.mp h
    refine .inl ⟨.inl (isPrefixOf_0x rest), bytes, orRevert_ok.mp hbytes, ?_⟩
    exact encodeBytes32_of_rootOfBytes hroot
  · rw [rootOfText_plain hplain] at h
    obtain ⟨bytes, hbytes, hroot⟩ := bind_ok.mp h
    replace hbytes := orRevert_ok.mp hbytes
    have hlen := rootOfBytes_length hroot
    have hcount := countP_of_fromHex hbytes
    match t with
    | [] => simp [hlen] at hcount
    | [c] =>
      have hle := List.countP_le_length (p := fun c => !isAsciiSpace c) (l := [c])
      rw [hcount, hlen, List.length_singleton] at hle
      omega
    | a :: c :: rest =>
      have hbytes32 := encodeBytes32_of_rootOfBytes hroot
      by_cases ha : isAsciiSpace a = true
      · rw [fromHex, if_pos ha] at hbytes
        rw [List.countP_cons_of_neg (by simpa using ha)] at hcount
        by_cases hc : isAsciiSpace c = true
        · refine .inl ⟨.inr ?_, bytes, ?_, hbytes32⟩
          · simp [ha, hc]
          · cases rest with
            | nil => simp [hc, hlen] at hcount
            | cons d rest =>
              rw [fromHex, if_pos hc] at hbytes
              exact hbytes
        · -- an odd number of digits is left
          refine .inr (.inl ⟨?_, ?_, ?_⟩)
          · simp [Skewed, ha, hc]
          · rintro (hstart | hblank)
            · rw [hplain] at hstart
              cases hstart
            · simp [hc] at hblank
          · show fromHex rest = none
            cases hrest : fromHex rest with
            | none => rfl
            | some bytes' =>
              rw [List.countP_cons_of_pos (by simpa using hc), countP_of_fromHex hrest] at hcount
              omega
      · obtain ⟨m, n, tail, hdigit, hdigit', htail, hless⟩ :=
          fromHex_cons (by simpa using ha) hbytes
        have hc := isAsciiSpace_of_hexDigit hdigit'
        refine .inr (.inr ⟨?_, ?_, tail, htail, by omega⟩)
        · rintro (hstart | hblank)
          · rw [hplain] at hstart
            cases hstart
          · simp [hc] at hblank
        · simp [Skewed, ha, hc]

theorem Skewed.not_whole (h : Skewed t) : ¬ Whole t := by
  rintro (hstart | hblank)
  · obtain ⟨rest, rfl⟩ := List.isPrefixOf_iff_prefix.mp hstart
    have hdigits : ((text "0x" ++ rest).take 2).any isAsciiSpace = false := rfl
    rw [Skewed, hdigits] at h
    exact Bool.false_ne_true h.1
  · rw [h.2] at hblank
    cases hblank

/-- Nothing can be read exactly where half a byte is missing. -/
theorem skewed_iff (h : rootOfText t = .ok root) : Skewed t ↔ fromHex (t.drop 2) = none := by
  rcases fromHex_drop h with ⟨hwhole, bytes, hbytes, -⟩ | ⟨hskewed, -, hnone⟩ |
    ⟨-, hnot, bytes, hbytes, -⟩
  · rw [hbytes]
    exact ⟨fun hskewed => absurd hwhole hskewed.not_whole, fun h => nomatch h⟩
  · exact ⟨fun _ => hnone, fun _ => hskewed⟩
  · rw [hbytes]
    exact ⟨fun hskewed => absurd hskewed hnot, fun h => nomatch h⟩

end Drop

end BasedAI
