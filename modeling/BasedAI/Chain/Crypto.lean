import BasedAI.Chain.Primitives
import BasedAI.Lib.ByteWords
import Mathlib.Data.List.Nodup
import Mathlib.Data.Set.Function

/-!
# BasedAI — hashing and signatures

Keccak-256 and ECDSA recovery are parameters. What the protocol relies on is
stated where it is used, and only about the inputs that occur: a hash of 32
bytes cannot be injective on everything, but it is assumed free of collisions on
the byte strings of a run (`CollisionFree`), and a signature of the run that
recovers to an account is assumed to be one its key holder made (`Unforged`).

The ABI layouts are concrete byte strings, so that what a digest binds is
proved, not assumed.
-/

namespace BasedAI

open ByteWords

/-- The two primitives. `recover` is `none` where `ECDSA.recover` reverts. -/
structure Crypto where
  keccak256 : Bytes → Bytes32
  recover : Bytes32 → Bytes → Option Address

/-- `abi.encode` of arguments of static types, one 32-byte word each. -/
def abiEncode (fields : List Nat) : Bytes := words 32 fields

/-- The 32 bytes of a word, as `abi.encodePacked` lays them out. -/
def wordBytes (w : Bytes32) : Bytes := bigEndian 32 w.val

/-- The bytes of an ASCII text. -/
def asciiBytes (text : String) : Bytes := text.toList.map fun c => UInt8.ofNat c.toNat

namespace Crypto

variable (c : Crypto)

/-- What `toEthSignedMessageHash` hashes: the EIP-191 prefix and the digest. -/
def ethSignedMessage (digest : Bytes32) : Bytes :=
  asciiBytes "\x19Ethereum Signed Message:\n32" ++ wordBytes digest

/-- `MessageHashUtils.toEthSignedMessageHash`. -/
def toEthSignedMessageHash (digest : Bytes32) : Bytes32 :=
  c.keccak256 (ethSignedMessage digest)

/-- The digest an account signs to authorise the byte string `m`. -/
def messageDigest (m : Bytes) : Bytes32 := c.toEthSignedMessageHash (c.keccak256 m)

/-- The hash has no collision among the byte strings of `S`. -/
def CollisionFree (S : Set Bytes) : Prop := Set.InjOn c.keccak256 S

/-- Neither of the two hashes of a message digest has a collision among the
messages of `S`. -/
def DigestsCollisionFree (S : Set Bytes) : Prop :=
  c.CollisionFree S ∧ c.CollisionFree ((fun m => ethSignedMessage (c.keccak256 m)) '' S)

/-- The signatures `presented` next to their messages are not forged: where one
recovers to an account, the account has signed that digest. -/
def Unforged (signedBy : Address → Set Bytes) (presented : Set (Bytes × Bytes)) : Prop :=
  ∀ m sig u, (m, sig) ∈ presented → c.recover (c.messageDigest m) sig = some u →
    ∃ m' ∈ signedBy u, c.messageDigest m' = c.messageDigest m

end Crypto

/-! ## Layouts determine their fields -/

theorem two_pow_256 : (2 : Nat) ^ 256 = 256 ^ 32 := by norm_num

@[simp] theorem length_wordBytes (w : Bytes32) : (wordBytes w).length = 32 :=
  length_bigEndian 32 w.val

@[simp] theorem length_abiEncode (fields : List Nat) :
    (abiEncode fields).length = 32 * fields.length := by
  induction fields with
  | nil => rfl
  | cons n rest ih =>
    rw [abiEncode, words_cons, List.length_append, length_bigEndian, List.length_cons,
      Nat.mul_succ, Nat.add_comm]
    exact congrArg (· + 32) ih

theorem address_lt_word (a : Address) : a.val < 2 ^ 256 :=
  lt_of_lt_of_le a.isLt (Nat.pow_le_pow_right (by decide) (by decide))

theorem uint64_lt_word (n : Fin (2 ^ 64)) : n.val < 2 ^ 256 :=
  lt_of_lt_of_le n.isLt (Nat.pow_le_pow_right (by decide) (by decide))

theorem abiEncode_inj {ms ns : List Nat} (hlen : ms.length = ns.length)
    (hms : ∀ m ∈ ms, m < 2 ^ 256) (hns : ∀ n ∈ ns, n < 2 ^ 256)
    (h : abiEncode ms = abiEncode ns) : ms = ns := by
  rw [two_pow_256] at hms hns
  exact words_inj hlen hms hns h

/-- The first words of two layouts can be told apart, whatever follows. -/
theorem abiEncode_head {m n : Nat} {ms ns : List Nat} {rest rest' : Bytes} (hm : m < 2 ^ 256)
    (hn : n < 2 ^ 256)
    (h : abiEncode (m :: ms) ++ rest = abiEncode (n :: ns) ++ rest') : m = n := by
  rw [abiEncode, abiEncode, words_cons, words_cons, List.append_assoc, List.append_assoc] at h
  have hlen : (bigEndian 32 m).length = (bigEndian 32 n).length := by
    rw [length_bigEndian, length_bigEndian]
  rw [two_pow_256] at hm hn
  exact bigEndian_inj hm hn (List.append_inj h hlen).1

theorem wordBytes_inj {v w : Bytes32} (h : wordBytes v = wordBytes w) : v = w := by
  apply Fin.ext
  apply bigEndian_inj (k := 32) _ _ h
  · rw [← two_pow_256]
    exact v.isLt
  · rw [← two_pow_256]
    exact w.isLt

theorem ethSignedMessage_inj {v w : Bytes32}
    (h : Crypto.ethSignedMessage v = Crypto.ethSignedMessage w) : v = w :=
  wordBytes_inj (List.append_cancel_left h)

/-! ## Digests determine their messages -/

namespace Crypto

variable {c : Crypto} {S : Set Bytes}

theorem DigestsCollisionFree.injOn (h : c.DigestsCollisionFree S) :
    Set.InjOn c.messageDigest S := by
  intro m hm m' hm' heq
  -- undo the outer hash, then the prefix, then the inner hash
  have heth : ethSignedMessage (c.keccak256 m) = ethSignedMessage (c.keccak256 m') :=
    h.2 (Set.mem_image_of_mem _ hm) (Set.mem_image_of_mem _ hm') heq
  exact h.1 hm hm' (ethSignedMessage_inj heth)

/-- A single message collides with nothing. -/
theorem digestsCollisionFree_of_subsingleton (h : S.Subsingleton) :
    c.DigestsCollisionFree S :=
  ⟨h.injOn _, (h.image _).injOn _⟩

theorem DigestsCollisionFree.mono {S' : Set Bytes} (h : c.DigestsCollisionFree S')
    (hsub : S ⊆ S') : c.DigestsCollisionFree S :=
  ⟨Set.InjOn.mono hsub h.1, Set.InjOn.mono (Set.image_mono hsub) h.2⟩

/-- Strings with different hashes do not collide. -/
theorem collisionFree_of_nodup {strings : List Bytes} (h : (strings.map c.keccak256).Nodup) :
    c.CollisionFree {m | m ∈ strings} :=
  fun _ hm _ hm' heq => List.inj_on_of_nodup_map h hm hm' heq

/-- The same of messages with different digests. -/
theorem digestsCollisionFree_of_nodup {strings : List Bytes}
    (h : (strings.map c.messageDigest).Nodup) : c.DigestsCollisionFree {m | m ∈ strings} := by
  constructor
  · intro m hm m' hm' heq
    have hdigest : c.messageDigest m = c.messageDigest m' := congrArg c.toEthSignedMessageHash heq
    exact List.inj_on_of_nodup_map h hm hm' hdigest
  · rintro _ ⟨m, hm, rfl⟩ _ ⟨m', hm', rfl⟩ heq
    rw [List.inj_on_of_nodup_map h hm hm' heq]

/-- A presented signature that recovers to an account is on a message the account
signed. -/
theorem Unforged.signed {signedBy : Address → Set Bytes} {presented : Set (Bytes × Bytes)}
    (h : c.Unforged signedBy presented) (hfree : c.DigestsCollisionFree S)
    (hsigned : ∀ u, signedBy u ⊆ S) {m sig : Bytes} {u : Address}
    (hm : (m, sig) ∈ presented) (hmS : m ∈ S)
    (hrecover : c.recover (c.messageDigest m) sig = some u) : m ∈ signedBy u := by
  -- the account has signed some message with this digest, and it is `m`
  obtain ⟨m', hm', heq⟩ := h m sig u hm hrecover
  rwa [hfree.injOn (hsigned u hm') hmS heq] at hm'

end Crypto

/-! ## A toy instance -/

/-- Primitives small enough to run: the hash keeps the last 32 bytes of its
input, and a signature is the signer's byte next to the low byte of the digest
it signs. -/
def toyCrypto : Crypto where
  keccak256 bytes := Fin.ofNat _ (spelled bytes)
  recover digest sig :=
    match sig with
    | [signer, low] =>
      if low.toNat = digest.val % 256 then some (Fin.ofNat _ signer.toNat) else none
    | _ => none

/-- The toy hash of anything that ends in a word is that word. -/
theorem toyCrypto_keccak (bytes : Bytes) (w : Bytes32) :
    toyCrypto.keccak256 (bytes ++ wordBytes w) = w := by
  have hw : w.val < 256 ^ 32 := w.isLt.trans_eq two_pow_256
  apply Fin.ext
  calc spelled (bytes ++ bigEndian 32 w.val) % 2 ^ 256
      = (spelled bytes * 256 ^ 32 + w.val) % 2 ^ 256 := by
        rw [spelled_append, length_bigEndian, spelled_bigEndian hw]
    _ = (spelled bytes * 256 ^ 32 + w.val) % 256 ^ 32 :=
        congrArg (_ % ·) two_pow_256
    _ = w.val := Nat.mul_add_mod_of_lt hw

theorem toyCrypto_keccak_abiEncode (fields : List Nat) (w : Bytes32) :
    toyCrypto.keccak256 (abiEncode (fields ++ [w.val])) = w := by
  have hsplit : abiEncode (fields ++ [w.val]) = abiEncode fields ++ wordBytes w := by
    simp [abiEncode, words, wordBytes]
  rw [hsplit, toyCrypto_keccak]

@[simp] theorem toyCrypto_toEthSignedMessageHash (digest : Bytes32) :
    toyCrypto.toEthSignedMessageHash digest = digest :=
  toyCrypto_keccak _ digest

end BasedAI
