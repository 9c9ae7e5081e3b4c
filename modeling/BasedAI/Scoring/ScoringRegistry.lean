import BasedAI.Chain.Crypto
import BasedAI.Lib.Transition
import BasedAI.Staking.VaultCalls

/-!
# BasedAI — the scoring registry

`ScoringRegistry.sol`: one Merkle root of miner scores per epoch and Brain,
accepted when validators holding more than half of the Brain's stake signed it,
final after a challenge window, and voided by a proof that one of its signers
also signed a different root.

The registry reads stakes from the vault and slashes through it, so its state is
kept next to the vault's, and the last section is the transition system of the
two contracts together.
-/

namespace BasedAI

open Fallible Mapping

/-! ## Storage -/

/-- A 64-bit epoch number. -/
abbrev Epoch := Fin (2 ^ 64)

def uint32 (n : Nat) : Nat := n % 2 ^ 32

/-- `IScoringRegistry.EpochCommitment`. -/
structure EpochCommitment where
  /-- root over the score leaves; `0` where nothing was accepted -/
  merkleRoot : Bytes32
  /-- the timestamp the commitment was accepted at -/
  proposedAt : Nat
  /-- `0` until finalized -/
  finalizedAt : Nat
  signerCount : Nat
  signerStake : Nat
  invalidated : Bool

/-- The storage of `ScoringRegistry`. -/
structure ScoringRegistry where
  epochs : Epoch → BrainId → EpochCommitment
  signedRoots : Epoch → BrainId → Address → Bytes32
  isCommitmentSigner : Epoch → BrainId → Address → Bool

/-- The registry as deployed. -/
def ScoringRegistry.deploy : ScoringRegistry where
  epochs _ _ := ⟨0, 0, 0, 0, 0, false⟩
  signedRoots _ _ _ := 0
  isCommitmentSigner _ _ _ := false

/-- What the registry is deployed with: the primitives, the vault it is wired
to, its own address, the chain id and its genesis. -/
structure ScoringEnv (T : Type) where
  crypto : Crypto
  staking : VaultEnv T
  self : Address
  chainId : Fin (2 ^ 256)
  genesisTimestamp : Fin (2 ^ 64)

/-- The registry next to the vault, and the timestamp of the last block that
touched them. -/
structure ScoringState (T : Type) where
  now : Nat
  staking : VaultState T
  registry : ScoringRegistry

/-- Both contracts freshly deployed. -/
def ScoringState.deploy {T : Type} (now : Nat) (token : T) (admin : Address) :
    ScoringState T where
  now := now
  staking := ⟨token, .deploy admin⟩
  registry := .deploy

/-! ## Merkle proofs -/

namespace MerkleProof

variable (crypto : Crypto)

/-- `Hashes.commutativeKeccak256`: the smaller word goes first. -/
def commutativeKeccak256 (a b : Bytes32) : Bytes32 :=
  if a < b then crypto.keccak256 (wordBytes a ++ wordBytes b)
  else crypto.keccak256 (wordBytes b ++ wordBytes a)

/-- `MerkleProof.verify`. -/
def verify (proof : List Bytes32) (root leaf : Bytes32) : Bool :=
  decide (proof.foldl (commutativeKeccak256 crypto) leaf = root)

end MerkleProof

/-! ## The contract -/

namespace ScoringRegistry

def EPOCH_LENGTH : Nat := 60 * 60
def CHALLENGE_WINDOW : Nat := 60 * 60
/-- strictly greater than 50% -/
def MIN_QUORUM_BPS : Nat := 5001

section Digests

variable {T : Type} (env : ScoringEnv T)

def DOMAIN_TAG : Bytes32 := env.crypto.keccak256 (asciiBytes "BasedAI:ScoringRegistry:v2")

/-- What `commitmentDigest` hashes first. -/
def commitmentPreimage (epoch : Epoch) (brainId : BrainId) (merkleRoot : Bytes32) : Bytes :=
  abiEncode [(DOMAIN_TAG env).val, env.chainId.val, env.self.val, epoch.val, brainId.val,
    merkleRoot.val]

/-- The domain-separated EIP-191 digest validators sign. -/
def commitmentDigest (epoch : Epoch) (brainId : BrainId) (merkleRoot : Bytes32) : Bytes32 :=
  env.crypto.toEthSignedMessageHash
    (env.crypto.keccak256 (commitmentPreimage env epoch brainId merkleRoot))

/-- The leaf of one miner's score. -/
def scoreLeaf (brainId : BrainId) (miner : Address) (score : Fin (2 ^ 256)) : Bytes32 :=
  env.crypto.keccak256 (wordBytes
    (env.crypto.keccak256 (abiEncode [brainId.val, miner.val, score.val])))

end Digests

/-- What one accepted signature writes. -/
def markSigner (epoch : Epoch) (brainId : BrainId) (merkleRoot : Bytes32)
    (r : ScoringRegistry) (signer : Address) : ScoringRegistry :=
  { r with
    signedRoots := set₃ r.signedRoots epoch brainId signer merkleRoot
    isCommitmentSigner := set₃ r.isCommitmentSigner epoch brainId signer true }

/-- Write a commitment record. -/
def withEpoch (r : ScoringRegistry) (epoch : Epoch) (brainId : BrainId)
    (c : EpochCommitment) : ScoringRegistry :=
  { r with epochs := set₂ r.epochs epoch brainId c }

section Calls

variable {T : Type} (env : ScoringEnv T) (blk : Block)

def currentEpoch : Nat :=
  if blk.timestamp < env.genesisTimestamp.val then 0
  else uint64 ((blk.timestamp - env.genesisTimestamp.val) / EPOCH_LENGTH)

/-- The loop of `proposeEpoch` over the signers and their signatures: `last` is
the previous signer, `stakeSum` the stake counted so far. -/
def countSigners (vault : StakingVault) (digest : Bytes32) (epoch : Epoch)
    (brainId : BrainId) (merkleRoot : Bytes32) :
    Address → Nat → ScoringRegistry → List (Address × Bytes) → Exec (Nat × ScoringRegistry)
  | _, stakeSum, r, [] => .ok (stakeSum, r)
  | last, stakeSum, r, (signer, signature) :: rest => do
    -- sorted ascending, to prevent duplicates
    revertIf (signer ≤ last) (.require "signers not sorted")
    let recovered ← orRevert .ecdsaInvalidSignature (env.crypto.recover digest signature)
    revertIf (recovered ≠ signer) .invalidSignature
    let stakeSum ← add256 stakeSum (vault.validatorStake brainId signer)
    countSigners vault digest epoch brainId merkleRoot signer stakeSum
      (r.markSigner epoch brainId merkleRoot signer) rest

def proposeEpoch (epoch : Epoch) (brainId : BrainId) (merkleRoot : Bytes32)
    (signers : List Address) (signatures : List Bytes) (s : ScoringState T) :
    Exec (ScoringState T) := do
  revertIf (merkleRoot = 0) .zeroRoot
  revertIf (currentEpoch env blk < epoch.val) .epochInTheFuture
  -- only a completed epoch may be committed
  revertIf (epoch.val = currentEpoch env blk) .epochNotComplete
  revertIf ((s.registry.epochs epoch brainId).merkleRoot ≠ 0) .epochAlreadyProposed
  revertIf (signers.length ≠ signatures.length) (.require "length mismatch")
  revertIf (signers.length = 0) .noSigners
  let digest := commitmentDigest env epoch brainId merkleRoot
  let (stakeSum, registry) ← countSigners env s.staking.vault digest epoch brainId merkleRoot
    0 0 s.registry (signers.zip signatures)
  let totalStaked := s.staking.vault.brainStake brainId
  revertIf (totalStaked = 0) .emptyQuorum
  let product ← mul256 totalStaked MIN_QUORUM_BPS
  let bumped ← add256 product 9999
  let minStake := bumped / 10000 -- round up
  revertIf (stakeSum < minStake) .insufficientSignerStake
  let commitment : EpochCommitment := {
    merkleRoot := merkleRoot
    proposedAt := uint64 blk.timestamp
    finalizedAt := 0
    signerCount := uint32 signers.length
    signerStake := stakeSum
    invalidated := false }
  return { s with registry := registry.withEpoch epoch brainId commitment }

def finalizeEpoch (epoch : Epoch) (brainId : BrainId) (s : ScoringState T) :
    Exec (ScoringState T) := do
  let c := s.registry.epochs epoch brainId
  revertIf (c.merkleRoot = 0) .epochNotProposed
  revertIf (c.invalidated = true) .epochAlreadyInvalidated
  if c.finalizedAt ≠ 0 then return s
  -- the window is anchored to the proposal
  let closesAt ← add64 c.proposedAt CHALLENGE_WINDOW
  revertIf (blk.timestamp < closesAt) .challengeWindowOpen
  let finalized := { c with finalizedAt := uint64 blk.timestamp }
  return { s with registry := s.registry.withEpoch epoch brainId finalized }

def challengeEquivocation (epoch : Epoch) (brainId : BrainId) (rootA : Bytes32)
    (sigA : Bytes) (rootB : Bytes32) (sigB : Bytes) (validator : Address)
    (s : ScoringState T) : Exec (ScoringState T) := do
  revertIf (rootA = rootB) (.require "same root")
  let c := s.registry.epochs epoch brainId
  revertIf (c.merkleRoot = 0) .epochNotProposed
  revertIf (c.invalidated = true) .epochAlreadyInvalidated
  revertIf (s.registry.isCommitmentSigner epoch brainId validator = false) .notACommitmentSigner
  revertIf (rootA ≠ c.merkleRoot ∧ rootB ≠ c.merkleRoot) .notEquivocation
  let recoveredA ← orRevert .ecdsaInvalidSignature
    (env.crypto.recover (commitmentDigest env epoch brainId rootA) sigA)
  revertIf (recoveredA ≠ validator) .invalidSignature
  let recoveredB ← orRevert .ecdsaInvalidSignature
    (env.crypto.recover (commitmentDigest env epoch brainId rootB) sigB)
  revertIf (recoveredB ≠ validator) .invalidSignature
  let registry := s.registry.withEpoch epoch brainId { c with invalidated := true }
  let vStake := s.staking.vault.validatorStake brainId validator
  if vStake > 0 then
    let staking ← StakingVault.slash env.staking blk env.self brainId validator vStake s.staking
    return { s with registry := registry, staking := staking }
  else return { s with registry := registry }

end Calls

def getEpoch (r : ScoringRegistry) (epoch : Epoch) (brainId : BrainId) : EpochCommitment :=
  r.epochs epoch brainId

def verifyScore {T : Type} (env : ScoringEnv T) (r : ScoringRegistry) (epoch : Epoch)
    (brainId : BrainId) (miner : Address) (score : Fin (2 ^ 256)) (proof : List Bytes32) :
    Bool :=
  let c := r.epochs epoch brainId
  if c.merkleRoot = 0 ∨ c.finalizedAt = 0 ∨ c.invalidated = true then false
  else MerkleProof.verify env.crypto proof c.merkleRoot (scoreLeaf env brainId miner score)

end ScoringRegistry

/-! ## The two contracts as a transition system -/

/-- A call to one of the registry's entry points, none of which looks at its
sender. -/
inductive ScoringCall
  | proposeEpoch (epoch : Epoch) (brainId : BrainId) (merkleRoot : Bytes32)
      (signers : List Address) (signatures : List Bytes)
  | finalizeEpoch (epoch : Epoch) (brainId : BrainId)
  | challengeEquivocation (epoch : Epoch) (brainId : BrainId) (rootA : Bytes32)
      (sigA : Bytes) (rootB : Bytes32) (sigB : Bytes) (validator : Address)

/-- Execute a call in block `blk`. -/
def ScoringCall.exec {T : Type} (env : ScoringEnv T) (blk : Block) (s : ScoringState T) :
    ScoringCall → Exec (ScoringState T)
  | .proposeEpoch e b root signers signatures =>
    ScoringRegistry.proposeEpoch env blk e b root signers signatures s
  | .finalizeEpoch e b => ScoringRegistry.finalizeEpoch blk e b s
  | .challengeEquivocation e b rootA sigA rootB sigB validator =>
    ScoringRegistry.challengeEquivocation env blk e b rootA sigA rootB sigB validator s

/-- What can happen to the two contracts. -/
inductive ScoringLabel
  | registry (blk : Block) (c : ScoringCall)
  | vault (blk : Block) (caller : Address) (c : VaultCall)
  | received (amount : Nat)

/-- Calls that revert are not steps; time does not run backwards; neither
contract sends a call of its own accord. -/
inductive ScoringStep {T : Type} (env : ScoringEnv T) :
    ScoringState T → ScoringLabel → ScoringState T → Prop
  | registry {s s' : ScoringState T} (blk : Block) (c : ScoringCall) :
      s.now ≤ blk.timestamp → c.exec env blk s = .ok s' →
      ScoringStep env s (.registry blk c) { s' with now := blk.timestamp }
  | vault {s : ScoringState T} {staking : VaultState T} (blk : Block) (caller : Address)
      (c : VaultCall) :
      s.now ≤ blk.timestamp → caller ≠ env.self → caller ≠ env.staking.self →
      c.exec env.staking blk caller s.staking = .ok staking →
      ScoringStep env s (.vault blk caller c)
        { s with staking := staking, now := blk.timestamp }
  | received {s : ScoringState T} {t : T} {amount : Nat} :
      env.staking.token.balanceOf t env.staking.self =
        env.staking.token.balanceOf s.staking.token env.staking.self + amount →
      ScoringStep env s (.received amount) { s with staking := { s.staking with token := t } }

end BasedAI
