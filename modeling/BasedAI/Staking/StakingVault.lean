import BasedAI.Chain.AccessControl
import BasedAI.Chain.Token
import BasedAI.Lib.ShareMath

/-!
# BasedAI — the staking vault

`StakingVault.sol`: BASED staked to (Brain, validator) pools with share-based
accounting. A pool's assets rise with deposits and rewards and fall with
slashing and claims; shares are minted by deposits and burned by claims only, so
every holder of a pool bears a slash pro rata. Shares in the unstake cooldown
stay in the pool until they are claimed.

Each function is the source's function, line by line, on the vault's storage
and the token's state. `nonReentrant` has no counterpart: the token makes no
calls back.
-/

namespace BasedAI

open Fallible Mapping

/-! ## Storage -/

/-- A pending (cooling-down) unstake; `shares = 0` is the deleted entry. -/
structure PendingUnstake where
  shares : Nat
  unlockAt : Nat
  deriving DecidableEq, Repr

/-- One entry of an OpenZeppelin `Checkpoints.Trace208`. -/
structure Checkpoint where
  key : Nat
  value : Nat
  deriving DecidableEq, Repr

/-- A trace, newest checkpoint first. -/
abbrev Trace208 := List Checkpoint

/-- `Checkpoints.push`: overwrite the newest checkpoint if it has the same key,
append if the key is larger, revert otherwise. -/
def Trace208.push (trace : Trace208) (key value : Nat) : Exec Trace208 :=
  match trace with
  | [] => .ok [⟨key, value⟩]
  | last :: older =>
    -- a trace only grows forward in time
    if key < last.key then .error .checkpointUnorderedInsertion
    else if key = last.key then .ok (⟨key, value⟩ :: older)
    else .ok (⟨key, value⟩ :: last :: older)

/-- `Checkpoints.upperLookupRecent`: the value at the newest key not above
`key`, `0` if there is none. -/
def Trace208.upperLookupRecent (trace : Trace208) (key : Nat) : Nat :=
  match trace.find? (fun c => decide (c.key ≤ key)) with
  | some c => c.value
  | none => 0

inductive VaultRole
  | defaultAdmin
  | slasher
  | rewarder
  deriving DecidableEq, Repr

/-- The storage of `StakingVault`. -/
structure StakingVault where
  /-- assets backing a (brain, validator) pool -/
  vAssets : BrainId → Address → Nat
  /-- total shares in a pool, active and pending -/
  vShares : BrainId → Address → Nat
  /-- a staker's active shares -/
  stakerShares : BrainId → Address → Address → Nat
  /-- a staker's pending unstake -/
  pending : BrainId → Address → Address → PendingUnstake
  totalAssets : Nat
  brainAssets : BrainId → Nat
  totalHistory : Trace208
  brainHistory : BrainId → Trace208
  roles : AccessControl VaultRole

/-- The vault as deployed. -/
def StakingVault.deploy (admin : Address) : StakingVault where
  vAssets _ _ := 0
  vShares _ _ := 0
  stakerShares _ _ _ := 0
  pending _ _ _ := ⟨0, 0⟩
  totalAssets := 0
  brainAssets _ := 0
  totalHistory := []
  brainHistory _ := []
  roles := .single .defaultAdmin admin

namespace StakingVault

def UNSTAKE_COOLDOWN : Nat := 14 * 24 * 60 * 60
def CENTRALIZATION_CAP_BPS : Nat := 50

/-- Slashed stake is burned by sending it here. -/
def BURN_ADDRESS : Address := 0x000000000000000000000000000000000000dEaD

theorem one_ne_burn : (1 : Address) ≠ BURN_ADDRESS := by decide

end StakingVault

/-- What a vault is deployed with: the token it holds and its own address,
which is not the burn address. -/
structure VaultEnv (T : Type) where
  token : Token T
  self : Address
  self_ne_burn : self ≠ StakingVault.BURN_ADDRESS

/-- The vault's storage next to the state of the token it moves. -/
structure VaultState (T : Type) where
  token : T
  vault : StakingVault

namespace StakingVault

/-! ## Internal share math -/

def assetsToShares (v : StakingVault) (brainId : BrainId) (validator : Address)
    (amount : Nat) : Exec Nat := do
  let shares := v.vShares brainId validator
  let assets := v.vAssets brainId validator
  if shares = 0 ∨ assets = 0 then return amount -- 1:1 bootstrap
  let product ← mul256 amount shares
  return product / assets

def assetsToSharesUp (v : StakingVault) (brainId : BrainId) (validator : Address)
    (amount : Nat) : Exec Nat := do
  let shares := v.vShares brainId validator
  let assets := v.vAssets brainId validator
  if shares = 0 ∨ assets = 0 then return amount
  let product ← mul256 amount shares
  let bumped ← add256 product assets
  let numerator ← sub256 bumped 1
  return numerator / assets -- round up

def sharesToAssets (v : StakingVault) (brainId : BrainId) (validator : Address)
    (shares : Nat) : Exec Nat := do
  let totalShares := v.vShares brainId validator
  if totalShares = 0 then return 0
  let product ← mul256 shares (v.vAssets brainId validator)
  return product / totalShares

def clock (blk : Block) : Nat := uint48 blk.timestamp

def checkpoint (blk : Block) (brainId : BrainId) (v : StakingVault) : Exec StakingVault := do
  let total ← v.totalHistory.push (clock blk) (uint208 v.totalAssets)
  let brain ← (v.brainHistory brainId).push (clock blk) (uint208 (v.brainAssets brainId))
  return { v with totalHistory := total, brainHistory := set v.brainHistory brainId brain }

/-! ## Mutations -/

section Mutations

variable {T : Type} (env : VaultEnv T) (blk : Block) (caller : Address)

def stake (brainId : BrainId) (validator : Address) (amount : Nat) (s : VaultState T) :
    Exec (VaultState T) := do
  revertIf (amount = 0) .invalidAmount
  revertIf (validator = 0) .invalidAmount
  -- shares left in a pool slashed to nothing could not be priced
  revertIf (s.vault.vShares brainId validator ≠ 0 ∧ s.vault.vAssets brainId validator = 0)
    .poolInsolvent
  -- the shares are minted at the rate before the deposit
  let token ← safeTransferFrom env.token s.token env.self caller env.self amount
  let shares ← s.vault.assetsToShares brainId validator amount
  revertIf (shares = 0) .zeroShares
  let stakerShares ← add256 (s.vault.stakerShares brainId validator caller) shares
  let vShares ← add256 (s.vault.vShares brainId validator) shares
  let vAssets ← add256 (s.vault.vAssets brainId validator) amount
  let brainAssets ← add256 (s.vault.brainAssets brainId) amount
  let totalAssets ← add256 s.vault.totalAssets amount
  let vault ← checkpoint blk brainId { s.vault with
    stakerShares := set₃ s.vault.stakerShares brainId validator caller stakerShares
    vShares := set₂ s.vault.vShares brainId validator vShares
    vAssets := set₂ s.vault.vAssets brainId validator vAssets
    brainAssets := set s.vault.brainAssets brainId brainAssets
    totalAssets := totalAssets }
  return ⟨token, vault⟩

def requestUnstake (brainId : BrainId) (validator : Address) (amount : Nat)
    (s : VaultState T) : Exec (VaultState T) := do
  revertIf (amount = 0) .invalidAmount
  -- one outstanding cooldown at a time
  revertIf ((s.vault.pending brainId validator caller).shares ≠ 0) .pendingUnstakeExists
  let owned := s.vault.stakerShares brainId validator caller
  let rounded ← s.vault.assetsToSharesUp brainId validator amount
  -- rounding up may ask for one share more than there is
  let shares := if rounded > owned then owned else rounded
  revertIf (shares = 0) .insufficientStake
  let unlockAt ← add64 (uint64 blk.timestamp) UNSTAKE_COOLDOWN
  let vault := { s.vault with
    stakerShares := set₃ s.vault.stakerShares brainId validator caller (owned - shares)
    pending := set₃ s.vault.pending brainId validator caller ⟨shares, unlockAt⟩ }
  -- the event's amount; an overflow in it reverts the call
  let _ ← vault.sharesToAssets brainId validator shares
  return { s with vault := vault }

def claimUnstake (brainId : BrainId) (validator : Address) (s : VaultState T) :
    Exec (VaultState T) := do
  let p := s.vault.pending brainId validator caller
  revertIf (p.shares = 0) .noPendingUnstake
  revertIf (blk.timestamp < p.unlockAt) .unstakeNotReady
  -- priced at the claim, so a slash during the cooldown is shared
  let amount ← s.vault.sharesToAssets brainId validator p.shares
  let vShares ← sub256 (s.vault.vShares brainId validator) p.shares
  let vAssets ← sub256 (s.vault.vAssets brainId validator) amount
  let brainAssets ← sub256 (s.vault.brainAssets brainId) amount
  let totalAssets ← sub256 s.vault.totalAssets amount
  let vault ← checkpoint blk brainId { s.vault with
    pending := set₃ s.vault.pending brainId validator caller ⟨0, 0⟩
    vShares := set₂ s.vault.vShares brainId validator vShares
    vAssets := set₂ s.vault.vAssets brainId validator vAssets
    brainAssets := set s.vault.brainAssets brainId brainAssets
    totalAssets := totalAssets }
  let token ← safeTransfer env.token s.token env.self caller amount
  return ⟨token, vault⟩

/-- The amount a slash takes: all that was asked for, or the whole pool. -/
def slashed (v : StakingVault) (brainId : BrainId) (validator : Address) (amount : Nat) : Nat :=
  if amount > v.vAssets brainId validator then v.vAssets brainId validator else amount

def slash (brainId : BrainId) (validator : Address) (amount : Nat) (s : VaultState T) :
    Exec (VaultState T) := do
  s.vault.roles.onlyRole .slasher caller
  let pool := s.vault.vAssets brainId validator
  let amount := s.vault.slashed brainId validator amount
  -- nothing to take: no checkpoint and no transfer
  if amount = 0 then return s
  -- only assets go down; the shares stay and are worth less
  let vAssets ← sub256 pool amount
  let brainAssets ← sub256 (s.vault.brainAssets brainId) amount
  let totalAssets ← sub256 s.vault.totalAssets amount
  let vault ← checkpoint blk brainId { s.vault with
    vAssets := set₂ s.vault.vAssets brainId validator vAssets
    brainAssets := set s.vault.brainAssets brainId brainAssets
    totalAssets := totalAssets }
  let token ← safeTransfer env.token s.token env.self BURN_ADDRESS amount
  return ⟨token, vault⟩

def notifyReward (brainId : BrainId) (validator : Address) (amount : Nat)
    (s : VaultState T) : Exec (VaultState T) := do
  s.vault.roles.onlyRole .rewarder caller
  revertIf (amount = 0) .invalidAmount
  revertIf (validator = 0) .invalidAmount
  revertIf (s.vault.vShares brainId validator = 0) .noStakeToReward
  let token ← safeTransferFrom env.token s.token env.self caller env.self amount
  -- assets without shares: the reward raises the value of every share
  let vAssets ← add256 (s.vault.vAssets brainId validator) amount
  let brainAssets ← add256 (s.vault.brainAssets brainId) amount
  let totalAssets ← add256 s.vault.totalAssets amount
  let vault ← checkpoint blk brainId { s.vault with
    vAssets := set₂ s.vault.vAssets brainId validator vAssets
    brainAssets := set s.vault.brainAssets brainId brainAssets
    totalAssets := totalAssets }
  return ⟨token, vault⟩

end Mutations

/-! ## Views -/

def totalStaked (v : StakingVault) : Nat := v.totalAssets

def brainStake (v : StakingVault) (brainId : BrainId) : Nat := v.brainAssets brainId

def validatorStake (v : StakingVault) (brainId : BrainId) (validator : Address) : Nat :=
  v.vAssets brainId validator

def stakerBalance (v : StakingVault) (brainId : BrainId) (validator staker : Address) :
    Exec Nat :=
  v.sharesToAssets brainId validator (v.stakerShares brainId validator staker)

def pendingBalance (v : StakingVault) (brainId : BrainId) (validator staker : Address) :
    Exec Nat :=
  v.sharesToAssets brainId validator (v.pending brainId validator staker).shares

def effectiveBrainStake (v : StakingVault) (brainId : BrainId) : Exec Nat := do
  let raw := v.brainAssets brainId
  let product ← mul256 v.totalAssets CENTRALIZATION_CAP_BPS
  let cap := product / 10000
  return if raw > cap then cap else raw

def getPastBrainStake (v : StakingVault) (brainId : BrainId) (timepoint : Nat) : Nat :=
  (v.brainHistory brainId).upperLookupRecent timepoint

def getPastTotalStaked (v : StakingVault) (timepoint : Nat) : Nat :=
  v.totalHistory.upperLookupRecent timepoint

end StakingVault

/-! ## Transactions -/

/-- A call to one of the vault's entry points. -/
inductive VaultCall
  | stake (brainId : BrainId) (validator : Address) (amount : Nat)
  | requestUnstake (brainId : BrainId) (validator : Address) (amount : Nat)
  | claimUnstake (brainId : BrainId) (validator : Address)
  | slash (brainId : BrainId) (validator : Address) (amount : Nat)
  | notifyReward (brainId : BrainId) (validator : Address) (amount : Nat)
  | grantRole (role : VaultRole) (account : Address)
  | revokeRole (role : VaultRole) (account : Address)
  | renounceRole (role : VaultRole) (callerConfirmation : Address)

/-- Replace the role table. -/
def VaultState.withRoles {T : Type} (s : VaultState T) (roles : AccessControl VaultRole) :
    VaultState T :=
  { s with vault := { s.vault with roles := roles } }

/-- Execute a call sent by `caller` in block `blk`. -/
def VaultCall.exec {T : Type} (env : VaultEnv T) (blk : Block) (caller : Address)
    (s : VaultState T) : VaultCall → Exec (VaultState T)
  | .stake b v amount => StakingVault.stake env blk caller b v amount s
  | .requestUnstake b v amount => StakingVault.requestUnstake blk caller b v amount s
  | .claimUnstake b v => StakingVault.claimUnstake env blk caller b v s
  | .slash b v amount => StakingVault.slash env blk caller b v amount s
  | .notifyReward b v amount => StakingVault.notifyReward env blk caller b v amount s
  | .grantRole role account =>
    s.withRoles <$> s.vault.roles.grantRole .defaultAdmin caller role account
  | .revokeRole role account =>
    s.withRoles <$> s.vault.roles.revokeRole .defaultAdmin caller role account
  | .renounceRole role confirmation =>
    s.withRoles <$> s.vault.roles.renounceRole caller role confirmation

end BasedAI
