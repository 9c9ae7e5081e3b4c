import BasedAI.Lib.Fallible
import Mathlib.Algebra.Order.Ring.Nat

/-!
# BasedAI — the chain the contracts run on

Machine types, the block a transaction is executed in, and the reasons a
transaction can revert. Amounts are natural numbers whose arithmetic is checked
on 256 bits where the source's is; identifiers are fixed-width words.

Events are not part of the state: no contract reads them back.
-/

namespace BasedAI

open Fallible

/-- A 160-bit account or contract address. `0` is Solidity's `address(0)`. -/
abbrev Address := Fin (2 ^ 160)

/-- A 256-bit Brain id. -/
abbrev BrainId := Fin (2 ^ 256)

/-- A `bytes32` word. -/
abbrev Bytes32 := Fin (2 ^ 256)

-- a numeral of a fixed-width type is read through these
instance neZero_uint16 : NeZero (2 ^ 16) := inferInstance
instance neZero_uint64 : NeZero (2 ^ 64) := inferInstance
instance neZero_uint160 : NeZero (2 ^ 160) := inferInstance
instance neZero_uint256 : NeZero (2 ^ 256) := inferInstance

/-- A byte string. -/
abbrev Bytes := List UInt8

/-- The block a transaction is executed in. Block headers carry a 64-bit
timestamp, which is why the contracts cast it to `uint64` freely. -/
structure Block where
  timestamp : Nat
  timestamp_lt : timestamp < 2 ^ 64

def uint48 (n : Nat) : Nat := n % 2 ^ 48
def uint64 (n : Nat) : Nat := n % 2 ^ 64
def uint208 (n : Nat) : Nat := n % 2 ^ 208

@[simp] theorem uint64_timestamp (blk : Block) : uint64 blk.timestamp = blk.timestamp :=
  Nat.mod_eq_of_lt blk.timestamp_lt

/-- Why a transaction reverts: a `require` message, an arithmetic panic, an
OpenZeppelin error, or one of the contracts' own errors. Two contracts that
declare an error of the same name revert with the same selector. -/
inductive Revert
  -- Solidity and OpenZeppelin
  | require (message : String)
  | overflow
  | underflow
  | accessControlUnauthorizedAccount
  | accessControlBadConfirmation
  | safeERC20FailedOperation
  | checkpointUnorderedInsertion
  | ecdsaInvalidSignature
  | enforcedPause
  | expectedPause
  -- StakingVault
  | invalidAmount
  | unstakeNotReady
  | insufficientStake
  | noPendingUnstake
  | pendingUnstakeExists
  | noStakeToReward
  | poolInsolvent
  | zeroShares
  -- ScoringRegistry
  | epochAlreadyProposed
  | epochNotProposed
  | challengeWindowOpen
  | insufficientSignerStake
  | invalidSignature
  | epochInTheFuture
  | epochNotComplete
  | noSigners
  | emptyQuorum
  | zeroRoot
  | epochAlreadyInvalidated
  | notACommitmentSigner
  | notEquivocation
  -- ComputeUnitMarket
  | insufficientBalance
  | expiredReceipt
  | receiptLifetimeTooLong
  | emptyResponse
  | nonceUsed
  | noPendingWithdrawal
  | withdrawalNotReady
  | reservationExceedsCap
  -- RewardDistributor
  | notMarket
  | zeroAmount
  | nothingToDistribute
  | incompleteValidatorSet
  | validatorsNotSorted
  | notAValidator
  | noValidatorStake
  -- SubnetRegistry
  | notBrainOwner
  | erc721NonexistentToken
  | subnetInactive
  | subnetAlreadyActive
  | alreadyRegistered
  | notRegistered
  | capacityReached
  | invalidSplit
  | feeExceedsMax
  -- BrainNFT
  | maxSupplyReached
  | stakeLockNotElapsed
  | wrongMintMethod
  | invalidStakeAmount
  | reentrancyGuardReentrantCall
  | erc721InvalidSender
  | erc721IncorrectOwner
  | erc721InsufficientApproval
  | erc721InvalidApprover
  | erc721InvalidOperator
  -- BrainNFTL2
  | transferRestricted
  | erc721InvalidOwner
  | erc721InvalidReceiver
  | erc721OutOfBoundsIndex
  -- BasedGovernor
  | governorNonexistentProposal
  | governorUnexpectedProposalState
  | governorAlreadyCastVote
  | governorInvalidVoteType
  | governorInvalidVoteParams
  deriving DecidableEq, Repr

/-- The result of a transaction: a revert leaves no state behind. -/
abbrev Exec := Except Revert

/-- Checked `uint256` arithmetic. -/
def add256 (a b : Nat) : Exec Nat := checkedAdd 256 .overflow a b
def mul256 (a b : Nat) : Exec Nat := checkedMul 256 .overflow a b
def sub256 (a b : Nat) : Exec Nat := checkedSub .underflow a b

/-- Checked `uint64` addition. -/
def add64 (a b : Nat) : Exec Nat := checkedAdd 64 .overflow a b

@[simp] theorem add256_ok {a b r : Nat} :
    add256 a b = .ok r ↔ a + b < 2 ^ 256 ∧ r = a + b := checkedAdd_ok

@[simp] theorem mul256_ok {a b r : Nat} :
    mul256 a b = .ok r ↔ a * b < 2 ^ 256 ∧ r = a * b := checkedMul_ok

@[simp] theorem sub256_ok {a b r : Nat} :
    sub256 a b = .ok r ↔ b ≤ a ∧ r = a - b := checkedSub_ok

@[simp] theorem add64_ok {a b r : Nat} :
    add64 a b = .ok r ↔ a + b < 2 ^ 64 ∧ r = a + b := checkedAdd_ok

end BasedAI
