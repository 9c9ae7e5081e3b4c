import BasedAI.Chain.Erc20
import BasedAI.Market.MarketCalls
import BasedAI.Staking.Snapshots
import BasedAI.Subnet.Membership

/-!
# BasedAI — the contracts together

The market, the subnet registry, the staking vault and the reward distributor on one
chain, deployed and wired as `Deploy.s.sol` does it. The market sends the validators'
share of every redemption to the distributor and has it recorded; `distribute` pushes
what has been recorded for a Brain into the pools of its registered validators, pro rata
to their stake.

Every call of every contract is a step, by any caller but the contracts themselves; what
those call is part of the step. Other traffic may do anything to the token but spend what
the contracts hold, and the Brains' NFTs may change hands at any time. Governance may
grant and revoke roles, as long as the wiring stays.
-/

namespace BasedAI

open Fallible Mapping

/-! ## What is deployed -/

/-- What the contracts are deployed with, and where. -/
structure SystemEnv (T : Type) where
  crypto : Crypto
  token : Erc20 T
  market : Address
  registry : Address
  vault : Address
  distributor : Address
  chainId : Fin (2 ^ 256)
  vault_ne_zero : vault ≠ 0
  vault_ne_burn : vault ≠ StakingVault.BURN_ADDRESS
  distributor_ne_zero : distributor ≠ 0
  distributor_ne_market : distributor ≠ market
  distributor_ne_vault : distributor ≠ vault
  vault_ne_market : vault ≠ market

namespace SystemEnv

variable {T : Type} (env : SystemEnv T)

def marketEnv : MarketEnv T where
  crypto := env.crypto
  token := env.token.toToken
  self := env.market
  distributor := env.distributor
  chainId := env.chainId

def vaultEnv : VaultEnv T where
  token := env.token.toToken
  self := env.vault
  self_ne_burn := env.vault_ne_burn

def registryEnv : RegistryEnv T where
  token := env.token.toToken
  self := env.registry

def balanceOf (t : T) (a : Address) : Nat := env.token.balanceOf t a

/-- An account that can send transactions of its own. -/
structure External (a : Address) : Prop where
  ne_zero : a ≠ 0
  ne_market : a ≠ env.market
  ne_vault : a ≠ env.vault
  ne_distributor : a ≠ env.distributor

end SystemEnv

/-- The storage of the four contracts, next to the token and the NFT. -/
structure SystemState (T : Type) extends MarketState T where
  members : SubnetMembers
  vault : StakingVault

namespace SystemState

variable {T : Type} (s : SystemState T)

/-- What the vault sees of the state. -/
def staking : VaultState T := ⟨s.token, s.vault⟩

def withStaking (v : VaultState T) : SystemState T :=
  { s with token := v.token, vault := v.vault }

/-- What the registry sees of it. -/
def registry : RegistryState T := ⟨s.token, s.subnets, s.members, s.brainOwners⟩

def withRegistry (r : RegistryState T) : SystemState T :=
  { s with
    token := r.token
    subnets := r.subnets
    members := r.members
    brainOwners := r.brainOwners }

def withMarket (m : MarketState T) : SystemState T := { s with toMarketState := m }

/-- The block of the last transaction. -/
def at_ (blk : Block) : SystemState T := { s with now := blk.timestamp }

def pendingValidatorFees (b : BrainId) : Nat := s.distributor.pendingValidatorFees b

end SystemState

/-! ## The reward distributor -/

namespace RewardDistributor

variable {T : Type}

/-- The first loop of `distribute`: the list is strictly ascending and registered, and
the stakes are read and summed. `last` and `totalStake` are the loop's variables. -/
def collectStakes (members : SubnetMembers) (vault : StakingVault) (brainId : BrainId) :
    List Address → Address → Nat → Exec (List Nat × Nat)
  | [], _, totalStake => return ([], totalStake)
  | v :: validators, last, totalStake => do
    revertIf (v ≤ last) .validatorsNotSorted
    revertIf (members.isValidator brainId v = false) .notAValidator
    let stake := vault.validatorStake brainId v
    let totalStake ← add256 totalStake stake
    let (stakes, totalStake) ← collectStakes members vault brainId validators v totalStake
    return (stake :: stakes, totalStake)

/-- The second loop: every validator's share goes into its pool. A validator whose share
is nothing is skipped, as the vault refuses a reward of zero. -/
def pushShares (env : SystemEnv T) (blk : Block) (brainId : BrainId)
    (pending totalStake : Nat) :
    List (Address × Nat) → VaultState T → Nat → Exec (VaultState T × Nat)
  | [], staking, distributed => return (staking, distributed)
  | (v, stake) :: rest, staking, distributed =>
    if stake = 0 then pushShares env blk brainId pending totalStake rest staking distributed
    else do
      let product ← mul256 pending stake
      let share := product / totalStake
      if share = 0 then pushShares env blk brainId pending totalStake rest staking distributed
      else
        let distributed ← add256 distributed share
        let staking ←
          StakingVault.notifyReward env.vaultEnv blk env.distributor brainId v share staking
        pushShares env blk brainId pending totalStake rest staking distributed

def distribute (env : SystemEnv T) (blk : Block) (brainId : BrainId)
    (validators : List Address) (s : SystemState T) : Exec (SystemState T) := do
  let pending := s.distributor.pendingValidatorFees brainId
  revertIf (pending = 0) .nothingToDistribute
  -- nobody may be left out of the list
  let n := s.members.validatorCount brainId
  revertIf (n = 0 ∨ validators.length ≠ n) .incompleteValidatorSet
  let (stakes, totalStake) ← collectStakes s.members s.vault brainId validators 0 0
  revertIf (totalStake = 0) .noValidatorStake
  let fees := set s.distributor.pendingValidatorFees brainId 0
  -- the vault may pull what is pending, and nothing once the loop is through
  let token ← forceApprove env.token s.token env.distributor env.vault pending
  let (staking, distributed) ←
    pushShares env blk brainId pending totalStake (validators.zip stakes) ⟨token, s.vault⟩ 0
  let token ← forceApprove env.token staking.token env.distributor env.vault 0
  -- what rounding leaves is carried forward
  let dust ← sub256 pending distributed
  let fees := if dust > 0 then set fees brainId dust else fees
  return { s with
    token := token
    vault := staking.vault
    distributor := { s.distributor with pendingValidatorFees := fees } }

end RewardDistributor

/-- A call to one of the distributor's entry points. -/
inductive DistributorCall
  | recordFees (brainId : BrainId) (amount : Nat)
  | distribute (brainId : BrainId) (validators : List Address)
  | grantRole (role : DistributorRole) (account : Address)
  | revokeRole (role : DistributorRole) (account : Address)
  | renounceRole (role : DistributorRole) (callerConfirmation : Address)

/-- Replace the distributor's role table. -/
def SystemState.withRewardRoles {T : Type} (s : SystemState T)
    (roles : AccessControl DistributorRole) : SystemState T :=
  { s with distributor := { s.distributor with roles := roles } }

/-- Execute a call sent by `caller` in block `blk`. -/
def DistributorCall.exec {T : Type} (env : SystemEnv T) (blk : Block) (caller : Address)
    (s : SystemState T) : DistributorCall → Exec (SystemState T)
  | .recordFees b amount => do
    let distributor ← s.distributor.recordFees caller b amount
    return { s with distributor := distributor }
  | .distribute b validators => RewardDistributor.distribute env blk b validators s
  | .grantRole role account =>
    s.withRewardRoles <$> s.distributor.roles.grantRole .defaultAdmin caller role account
  | .revokeRole role account =>
    s.withRewardRoles <$> s.distributor.roles.revokeRole .defaultAdmin caller role account
  | .renounceRole role confirmation =>
    s.withRewardRoles <$> s.distributor.roles.renounceRole caller role confirmation

/-- The calls that only change a role of the distributor. -/
def DistributorCall.forRoles : DistributorCall → Bool
  | .grantRole _ _ | .revokeRole _ _ | .renounceRole _ _ => true
  | _ => false

/-! ## Deployment -/

/-- The accounts and the prices `Deploy.s.sol` is run with; a guardian is optional. -/
structure DeployConfig where
  deployer : Address
  scoring : Address
  timelock : Address
  guardian : Option Address
  maxReservation : Nat
  pricePerByte : Nat
  pricePerRequest : Nat

/-- A guardian, if there is one, may pause the market. -/
def DeployConfig.grantGuardian (cfg : DeployConfig) (pausers : AccessControl MarketRole) :
    Exec (AccessControl MarketRole) :=
  match cfg.guardian with
  | some guardian => pausers.grantRole .defaultAdmin cfg.deployer .pauser guardian
  | none => return pausers

/-- `runWithConfig` of `Deploy.s.sol`: deploy the contracts, wire their roles, and hand
the administration over to the timelock. -/
def SystemState.deploy {T : Type} (env : SystemEnv T) (cfg : DeployConfig) (blk : Block)
    (token : T) (brainOwners : BrainOwners) : Exec (SystemState T) := do
  let market ← ComputeUnitMarket.deploy cfg.maxReservation cfg.pricePerByte
    cfg.pricePerRequest cfg.deployer
  let vault := StakingVault.deploy cfg.deployer
  let distributor := RewardDistributor.deploy cfg.deployer
  -- the wiring: slashes from scoring, fees from the market, rewards from the distributor
  let staking ← vault.roles.grantRole .defaultAdmin cfg.deployer .slasher cfg.scoring
  let rewards ← distributor.roles.grantRole .defaultAdmin cfg.deployer .market env.market
  let staking ← staking.grantRole .defaultAdmin cfg.deployer .rewarder env.distributor
  let pausers ← market.roles.grantRole .defaultAdmin cfg.deployer .pauser cfg.timelock
  let pausers ← cfg.grantGuardian pausers
  -- the deployer gives up every role it held
  let staking ← staking.grantRole .defaultAdmin cfg.deployer .defaultAdmin cfg.timelock
  let staking ← staking.renounceRole cfg.deployer .defaultAdmin cfg.deployer
  let pausers ← pausers.grantRole .defaultAdmin cfg.deployer .defaultAdmin cfg.timelock
  let pausers ← pausers.renounceRole cfg.deployer .defaultAdmin cfg.deployer
  let rewards ← rewards.grantRole .defaultAdmin cfg.deployer .defaultAdmin cfg.timelock
  let rewards ← rewards.renounceRole cfg.deployer .defaultAdmin cfg.deployer
  return {
    now := blk.timestamp
    token := token
    market := { market with roles := pausers }
    subnets := .deploy
    brainOwners := brainOwners
    distributor := { distributor with roles := rewards }
    members := .deploy
    vault := { vault with roles := staking } }

/-! ## The system as a transition system -/

/-- The roles by which the contracts call each other: only the market records fees, and
the distributor may reward. -/
structure Wired {T : Type} (env : SystemEnv T) (s : SystemState T) : Prop where
  market : ∀ a, s.distributor.roles.hasRole .market a = true ↔ a = env.market
  rewarder : s.vault.roles.hasRole .rewarder env.distributor = true

/-- A call to one of the contracts. -/
inductive SystemCall
  | market (c : MarketCall)
  | registry (c : RegistryCall)
  | vault (c : VaultCall)
  | distributor (c : DistributorCall)

def SystemCall.exec {T : Type} (env : SystemEnv T) (blk : Block) (caller : Address)
    (s : SystemState T) : SystemCall → Exec (SystemState T)
  | .market c => s.withMarket <$> c.exec env.marketEnv blk caller s.toMarketState
  | .registry c => s.withRegistry <$> c.exec env.registryEnv blk caller s.registry
  | .vault c => s.withStaking <$> c.exec env.vaultEnv blk caller s.staking
  | .distributor c => c.exec env blk caller s

/-- A change of the distributor's roles touches nothing else. -/
theorem rewardRoles_ok {T : Type} {env : SystemEnv T} {blk : Block} {caller : Address}
    {s s' : SystemState T} {c : DistributorCall}
    (h : (SystemCall.distributor c).exec env blk caller s = .ok s') (hc : c.forRoles = true) :
    ∃ roles, s' = s.withRewardRoles roles := by
  cases c with
  | grantRole role account =>
    obtain ⟨roles, -, rfl⟩ := map_ok.mp h
    exact ⟨roles, rfl⟩
  | revokeRole role account =>
    obtain ⟨roles, -, rfl⟩ := map_ok.mp h
    exact ⟨roles, rfl⟩
  | renounceRole role confirmation =>
    obtain ⟨roles, -, rfl⟩ := map_ok.mp h
    exact ⟨roles, rfl⟩
  | _ => cases hc

inductive SystemLabel
  | call (blk : Block) (caller : Address) (c : SystemCall)
  | elsewhere

/-- Calls that revert are not steps; time does not run backwards. -/
inductive SystemStep {T : Type} (env : SystemEnv T) :
    SystemState T → SystemLabel → SystemState T → Prop
  | call {s s' : SystemState T} (blk : Block) (caller : Address) (c : SystemCall) :
      s.now ≤ blk.timestamp → env.External caller → c.exec env blk caller s = .ok s' →
      Wired env s' → SystemStep env s (.call blk caller c) (s'.at_ blk)
  | elsewhere {s : SystemState T} (token : T) (brainOwners : BrainOwners) :
      (∀ a, ¬ env.External a → env.balanceOf s.token a ≤ env.balanceOf token a) →
      SystemStep env s .elsewhere
        { s with token := token, brainOwners := brainOwners }

end BasedAI
