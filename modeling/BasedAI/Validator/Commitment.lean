import BasedAI.Chain.Offchain
import BasedAI.Validator.Merkle

/-!
# BasedAI — commitments, off chain

`commitment.py`: the digest of an epoch commitment as the validators and the
aggregator compute it, signing it and recovering its signer. The values a digest
was taken over are kept next to the signature.

* `signCommitment_ok`      — what was signed is what the arguments denote;
* `commitmentPreimage_inj` — the bytes of a commitment determine it.
-/

namespace BasedAI

open Fallible Python ByteWords

/-- The chain and the registry a commitment is for, as configured. -/
structure CommitmentDomain where
  chainId : Int
  scoringRegistry : Text

/-- The values under a commitment digest. -/
structure Commitment where
  chainId : Fin (2 ^ 256)
  scoringRegistry : Address
  epoch : Fin (2 ^ 64)
  brainId : BrainId
  root : Bytes32
  deriving DecidableEq

structure SignedCommitment where
  commitment : Commitment
  signature : Bytes
  deriving DecidableEq

section Commitment

variable (o : Offchain) (domain : CommitmentDomain)

/-- The bytes of a commitment. -/
def Commitment.preimage (crypto : Crypto) (c : Commitment) : Bytes :=
  abiEncode [(crypto.keccak256 (asciiBytes "BasedAI:ScoringRegistry:v2")).val, c.chainId.val,
    c.scoringRegistry.val, c.epoch.val, c.brainId.val, c.root.val]

/-- `_as_root_bytes` of 32 bytes already checked. -/
def rootOfBytes (bytes : Bytes) : Py Bytes32 := do
  raiseIf (bytes.length ≠ 32) (.valueError "merkle root must be 32 bytes")
  return Fin.ofNat _ (spelled bytes)

/-- `_as_root_bytes` of a text. -/
def rootOfText (root : Text) : Py Bytes32 := do
  let digits := if (text "0x").isPrefixOf root then root.drop 2 else root
  let bytes ← orRaise .conversionError (fromHex digits)
  rootOfBytes bytes

/-- The values `commitment_digest` encodes. -/
def encodeCommitment (epoch brainId : Int) (root : Bytes32) : Py Commitment := do
  let chainId ← encodeUint 256 domain.chainId
  let registry ← orRaise .conversionError (hexAddress domain.scoringRegistry)
  let epoch ← encodeUint 64 epoch
  let brainId ← encodeUint 256 brainId
  return ⟨chainId, registry, epoch, brainId, root⟩

/-- `sign_commitment`. -/
def signCommitment (account : Account) (epoch brainId : Int) (root : Bytes32) :
    Py SignedCommitment := do
  let c ← encodeCommitment domain epoch brainId root
  return ⟨c, account.sign (o.crypto.messageDigest (c.preimage o.crypto))⟩

/-- `recover_commitment_signer`. -/
def recoverCommitmentSigner (epoch brainId : Int) (root : Bytes32) (signature : Text) :
    Py Text := do
  let c ← encodeCommitment domain epoch brainId root
  let bytes ← hexBytes signature
  let signer ← orRaise .badSignature
    (o.recoverMessage (o.crypto.messageDigest (c.preimage o.crypto)) bytes)
  return toChecksum o.crypto signer

end Commitment

variable {o : Offchain} {domain : CommitmentDomain} {account : Account}

theorem encodeCommitment_ok {epoch brainId : Int} {root : Bytes32} {c : Commitment}
    (h : encodeCommitment domain epoch brainId root = .ok c) :
    (c.chainId.val : Int) = domain.chainId ∧
    hexAddress domain.scoringRegistry = some c.scoringRegistry ∧
    (c.epoch.val : Int) = epoch ∧ (c.brainId.val : Int) = brainId ∧ c.root = root := by
  unfold encodeCommitment at h
  simp only [bind_ok, orRevert_ok, return_ok] at h
  obtain ⟨chainId, hchain, registry, hregistry, epoch', hepoch, brainId', hbrain, rfl⟩ := h
  exact ⟨encodeUint_ok hchain, hregistry, encodeUint_ok hepoch, encodeUint_ok hbrain, rfl⟩

theorem signCommitment_ok {epoch brainId : Int} {root : Bytes32} {s : SignedCommitment}
    (h : signCommitment o domain account epoch brainId root = .ok s) :
    encodeCommitment domain epoch brainId root = .ok s.commitment := by
  unfold signCommitment at h
  simp only [bind_ok, return_ok] at h
  obtain ⟨c, hc, rfl⟩ := h
  exact hc

/-- The bytes of a commitment determine it. -/
theorem commitmentPreimage_inj {crypto : Crypto} {c c' : Commitment}
    (h : c.preimage crypto = c'.preimage crypto) : c = c' := by
  have hlt : ∀ c : Commitment, ∀ w ∈ [(crypto.keccak256 (asciiBytes
      "BasedAI:ScoringRegistry:v2")).val, c.chainId.val,
      c.scoringRegistry.val, c.epoch.val, c.brainId.val, c.root.val], w < 2 ^ 256 := by
    intro c
    simp only [List.forall_mem_cons, List.not_mem_nil, false_imp_iff, implies_true, and_true]
    exact ⟨Fin.isLt _, Fin.isLt _, address_lt_word _, uint64_lt_word _, Fin.isLt _,
      Fin.isLt _⟩
  have hwords := abiEncode_inj (by rfl) (hlt c) (hlt c') h
  simp only [List.cons.injEq, Fin.val_inj, and_true, true_and] at hwords
  obtain ⟨chainId, registry, epoch, brainId, root⟩ := c
  obtain ⟨rfl, rfl, rfl, rfl, rfl⟩ := hwords
  rfl

end BasedAI
