import BasedAI.System.Authority

/-!
# BasedAI — the deployment script

`Deploy.s.sol` creates the contracts on Ink with its deployer as their administrator, wires
them, checks that they can be governed, and hands them over: to the timelock, which the
governor proposes to and anyone executes for. `SystemState.deploy` is its part about the
market, the vault and the distributor. What the script runs through before and after is here,
with the timelock's own roles, as OpenZeppelin's `TimelockController` has them.

* `runWithConfig_ok_iff` — the configurations the script accepts;
* `runWithConfig_ok`     — what it leaves, role by role;
* `deployment_governed`  — what stays of that over whole runs.
-/

namespace BasedAI

open Fallible Mapping Transition AccessControl

/-! ## What is created -/

inductive TimelockRole
  | defaultAdmin
  | proposer
  | canceller
  | executor
  deriving DecidableEq, Repr

/-- A timelock created without proposers and executors administers itself, next to `admin`. -/
def TimelockController.deploy (self_ admin : Address) : AccessControl TimelockRole where
  hasRole r a := decide (r = .defaultAdmin ∧ (a = self_ ∨ a = admin ∧ admin ≠ 0))

/-- The L1 token that `BrainNFTL2` stands for, and the bridge that mints it. -/
structure RemoteToken where
  BRIDGE : Address
  REMOTE_CHAIN_ID : Nat
  REMOTE_TOKEN : Address

/-- The constructor of `BrainNFTL2`. -/
def BrainNFTL2.construct (bridge : Address) (remoteChainId : Nat) (remoteToken : Address) :
    Exec RemoteToken := do
  revertIf (bridge = 0) (.require "BrainNFTL2: bridge zero")
  revertIf (remoteChainId = 0) (.require "BrainNFTL2: remote chain id zero")
  revertIf (remoteToken = 0) (.require "BrainNFTL2: remote token zero")
  return ⟨bridge, remoteChainId, remoteToken⟩

/-- What the governor is created with, next to the contracts it reads. -/
structure GovernorParams where
  BRAIN_SUPPLY_CAP : Nat
  quorumVotes : Nat

/-! ## The script -/

/-- `Deploy.Config`, with the account of the key in place of the key. -/
structure ScriptConfig where
  deployer : Address
  quorumVotes : Nat
  minDelay : Nat
  l2Erc721Bridge : Address
  l1BrainNFT : Address
  l1RemoteChainId : Nat
  guardian : Address
  maxReservation : Nat
  pricePerByte : Nat
  pricePerRequest : Nat

/-- What is read from the environment of `run`, where it is set. -/
structure ScriptVars where
  quorumVotes : Option Nat
  minDelay : Option Nat
  l2Erc721Bridge : Option Address
  l1BrainNFT : Option Address
  l1RemoteChainId : Option Nat
  guardian : Option Address
  maxReservation : Option Nat
  pricePerByte : Option Nat
  pricePerRequest : Option Nat

/-- The configuration of `run`, with its defaults. -/
def ScriptVars.config (deployer : Address) (vars : ScriptVars) : ScriptConfig where
  deployer := deployer
  quorumVotes := vars.quorumVotes.getD 4
  minDelay := vars.minDelay.getD (2 * 24 * 60 * 60)
  l2Erc721Bridge := vars.l2Erc721Bridge.getD 0x4200000000000000000000000000000000000014
  l1BrainNFT := vars.l1BrainNFT.getD 0
  l1RemoteChainId := vars.l1RemoteChainId.getD 1
  guardian := vars.guardian.getD 0
  maxReservation := vars.maxReservation.getD (10 ^ 18)
  pricePerByte := vars.pricePerByte.getD (10 ^ 9)
  pricePerRequest := vars.pricePerRequest.getD (10 ^ 14)

/-- The addresses of the contracts the script creates, next to the four of the system. -/
structure ScriptEnv (T : Type) extends SystemEnv T where
  scoring : Address
  timelock : Address
  governor : Address

/-- What the script leaves. -/
structure Deployment (T : Type) where
  brainNFT : RemoteToken
  genesisTimestamp : Nat
  system : SystemState T
  timelock : AccessControl TimelockRole
  minDelay : Nat
  governor : GovernorParams

section Script

variable {T : Type} (env : ScriptEnv T)

/-- What is left of the configuration for the market, the vault and the distributor. -/
def ScriptConfig.deployConfig (cfg : ScriptConfig) : DeployConfig where
  deployer := cfg.deployer
  scoring := env.scoring
  timelock := env.timelock
  guardian := if cfg.guardian = 0 then none else some cfg.guardian
  maxReservation := cfg.maxReservation
  pricePerByte := cfg.pricePerByte
  pricePerRequest := cfg.pricePerRequest

/-- A guardian, if there is one, may cancel what is queued. -/
def ScriptConfig.grantCanceller (cfg : ScriptConfig) (timelock : AccessControl TimelockRole) :
    Exec (AccessControl TimelockRole) :=
  if cfg.guardian = 0 then return timelock
  else timelock.grantRole .defaultAdmin cfg.deployer .canceller cfg.guardian

/-- `runWithConfig`. What it does for the market, the vault and the distributor is done at
once: nothing that stands in between reads it. -/
def Deploy.runWithConfig (cfg : ScriptConfig) (blk : Block) (token : T)
    (brainOwners : BrainOwners) : Exec (Deployment T) := do
  revertIf (cfg.l1BrainNFT = 0) (.require ("L1_BRAIN_NFT required: L2 Brains are minted only " ++
    "by bridging from L1; without it governance can never reach quorum after renounce"))
  revertIf (cfg.l2Erc721Bridge = 0) (.require "L2_ERC721_BRIDGE required")
  revertIf (¬ (cfg.quorumVotes > 0 ∧ cfg.quorumVotes ≤ 64))
    (.require "GOV_QUORUM_VOTES must be in (0, 64]")
  let brainNFT ← BrainNFTL2.construct cfg.l2Erc721Bridge cfg.l1RemoteChainId cfg.l1BrainNFT
  let genesisTimestamp := uint64 blk.timestamp
  let system ←
    SystemState.deploy env.toSystemEnv (cfg.deployConfig env) blk token brainOwners
  let timelock := TimelockController.deploy env.timelock cfg.deployer
  let governor : GovernorParams := ⟨64, cfg.quorumVotes⟩
  -- the governor drives the timelock, and anyone may execute
  let timelock ← timelock.grantRole .defaultAdmin cfg.deployer .proposer env.governor
  let timelock ← timelock.grantRole .defaultAdmin cfg.deployer .canceller env.governor
  let timelock ← timelock.grantRole .defaultAdmin cfg.deployer .executor 0
  let timelock ← cfg.grantCanceller timelock
  -- what governance depends on is checked before the keys are dropped
  revertIf (brainNFT.BRIDGE ≠ cfg.l2Erc721Bridge) (.require "L2 Brain minter (bridge) not wired")
  revertIf (brainNFT.REMOTE_TOKEN ≠ cfg.l1BrainNFT)
    (.require "L1 Brain remote token not wired: no Brains bridgeable")
  revertIf (timelock.hasRole .proposer env.governor = false) (.require "governor cannot propose")
  revertIf (timelock.hasRole .executor 0 = false) (.require "execution not open")
  let timelock ← timelock.renounceRole cfg.deployer .defaultAdmin cfg.deployer
  return {
    brainNFT := brainNFT
    genesisTimestamp := genesisTimestamp
    system := system
    timelock := timelock
    minDelay := cfg.minDelay
    governor := governor }

end Script

/-! ## What it leaves -/

/-- The configurations that are accepted. -/
structure ScriptConfig.Deployable (cfg : ScriptConfig) : Prop where
  l1BrainNFT : cfg.l1BrainNFT ≠ 0
  l2Erc721Bridge : cfg.l2Erc721Bridge ≠ 0
  quorum_pos : 0 < cfg.quorumVotes
  quorum_le : cfg.quorumVotes ≤ 64
  l1RemoteChainId : cfg.l1RemoteChainId ≠ 0
  priced : 0 < cfg.pricePerByte ∨ 0 < cfg.pricePerRequest

section HandedOver

variable {T : Type} (env : ScriptEnv T) (cfg : ScriptConfig)

/-- Who holds the roles of the timelock. -/
def TimelockRole.Holder : TimelockRole → Address → Prop
  | .defaultAdmin, a => a = env.timelock
  | .proposer, a => a = env.governor
  | .canceller, a => a = env.governor ∨ cfg.guardian ≠ 0 ∧ a = cfg.guardian
  -- a role of the zero address is everyone's
  | .executor, a => a = 0

/-- `a` is the address of no contract that the script gives a role. -/
structure ScriptEnv.Outside (a : Address) : Prop where
  timelock : env.timelock ≠ a
  governor : env.governor ≠ a
  scoring : env.scoring ≠ a
  market : env.market ≠ a
  distributor : env.distributor ≠ a

/-- `a` holds a role of some contract. -/
def Deployment.HoldsRole (d : Deployment T) (a : Address) : Prop :=
  (∃ r, d.system.market.roles.hasRole r a = true) ∨
    (∃ r, d.system.vault.roles.hasRole r a = true) ∨
    (∃ r, d.system.distributor.roles.hasRole r a = true) ∨ ∃ r, d.timelock.hasRole r a = true

/-- The roles are with those that are to hold them, and with nobody else. -/
structure HandedOver (d : Deployment T) : Prop where
  market : ∀ r a, d.system.market.roles.hasRole r a = true ↔ r.Holder (cfg.deployConfig env) a
  vault : ∀ r a, d.system.vault.roles.hasRole r a = true ↔
    r.Holder env.toSystemEnv (cfg.deployConfig env) a
  distributor : ∀ r a, d.system.distributor.roles.hasRole r a = true ↔
    r.Holder env.toSystemEnv (cfg.deployConfig env) a
  timelock : ∀ r a, d.timelock.hasRole r a = true ↔ r.Holder env cfg a

end HandedOver

section Results

variable {T : Type} {env : ScriptEnv T} {cfg : ScriptConfig} {blk : Block} {token : T}
  {brainOwners : BrainOwners} {d : Deployment T} {system : SystemState T}

/-- The part of the system fails for a market without a price only. -/
theorem systemDeploy_ok_iff {env : SystemEnv T} {cfg : DeployConfig} :
    (∃ s, SystemState.deploy env cfg blk token brainOwners = .ok s) ↔
      0 < cfg.pricePerByte ∨ 0 < cfg.pricePerRequest := by
  simp only [SystemState.deploy, ComputeUnitMarket.deploy, DeployConfig.grantGuardian, bind_ok,
    return_ok, grantRole_iff, renounceRole, revertIf_ok]
  constructor
  · rintro ⟨_, _, ⟨_, hpriced, -⟩, -⟩
    exact not_not.mp hpriced
  · intro hpriced
    cases cfg.guardian with
    | none =>
      simp [hpriced, StakingVault.deploy, RewardDistributor.deploy, single, set₂_apply]
    | some guardian =>
      simp [hpriced, StakingVault.deploy, RewardDistributor.deploy, single, set₂_apply,
        grantRole_iff]

/-- The market's pausers, where the guardian may be none. -/
theorem grantGuardian_hasRole {cfg : DeployConfig} {pausers pausers' : AccessControl MarketRole}
    (h : cfg.grantGuardian pausers = .ok pausers') (r : MarketRole) (a : Address) :
    pausers'.hasRole r a = true ↔
      pausers.hasRole r a = true ∨ r = .pauser ∧ cfg.guardian = some a := by
  unfold DeployConfig.grantGuardian at h
  cases hguardian : cfg.guardian with
  | none =>
    rw [hguardian] at h
    obtain rfl := return_ok.mp h
    simp
  | some guardian =>
    rw [hguardian] at h
    rw [grantRole_hasRole h, Option.some.injEq, eq_comm (a := a)]

/-- The roles of the system, once it is handed over. -/
theorem systemDeploy_roles {env : SystemEnv T} {cfg : DeployConfig}
    (hfresh : cfg.timelock ≠ cfg.deployer)
    (h : SystemState.deploy env cfg blk token brainOwners = .ok system) :
    (∀ r a, system.market.roles.hasRole r a = true ↔ MarketRole.Holder cfg r a) ∧
    (∀ r a, system.vault.roles.hasRole r a = true ↔ VaultRole.Holder env cfg r a) ∧
    (∀ r a, system.distributor.roles.hasRole r a = true ↔
      DistributorRole.Holder env cfg r a) := by
  simp only [SystemState.deploy, ComputeUnitMarket.deploy, bind_ok, return_ok] at h
  obtain ⟨market, ⟨_, -, rfl⟩, slasher, hslasher, recorder, hrecorder, rewarder, hrewarder,
    pausers, hpausers, guarded, hguarded, stakingAdmin, hstakingAdmin, staking, hstaking,
    marketAdmin, hmarketAdmin, market, hmarket, rewardsAdmin, hrewardsAdmin, rewards, hrewards,
    rfl⟩ := h
  -- each table is the deployer's, with what was granted, less what it gave up
  refine ⟨fun r a => ?_, fun r a => ?_, fun r a => ?_⟩
  · show market.hasRole r a = true ↔ _
    rw [renounceRole_hasRole hmarket, grantRole_hasRole hmarketAdmin,
      grantGuardian_hasRole hguarded, grantRole_hasRole hpausers, hasRole_single]
    cases r with
    | defaultAdmin => simpa [MarketRole.Holder] using succeeds hfresh
    | pauser => simp [MarketRole.Holder]
  · show staking.hasRole r a = true ↔ _
    rw [renounceRole_hasRole hstaking, grantRole_hasRole hstakingAdmin,
      grantRole_hasRole hrewarder, grantRole_hasRole hslasher, StakingVault.deploy,
      hasRole_single]
    cases r with
    | defaultAdmin => simpa [VaultRole.Holder] using succeeds hfresh
    | slasher => simp [VaultRole.Holder]
    | rewarder => simp [VaultRole.Holder]
  · show rewards.hasRole r a = true ↔ _
    rw [renounceRole_hasRole hrewards, grantRole_hasRole hrewardsAdmin,
      grantRole_hasRole hrecorder, RewardDistributor.deploy, hasRole_single]
    cases r with
    | defaultAdmin => simpa [DistributorRole.Holder] using succeeds hfresh
    | market => simp [DistributorRole.Holder]

/-- Those who may cancel, where the guardian may be none. -/
theorem grantCanceller_hasRole {timelock timelock' : AccessControl TimelockRole}
    (h : cfg.grantCanceller timelock = .ok timelock') (r : TimelockRole) (a : Address) :
    timelock'.hasRole r a = true ↔ timelock.hasRole r a = true ∨
      r = .canceller ∧ cfg.guardian ≠ 0 ∧ a = cfg.guardian := by
  unfold ScriptConfig.grantCanceller at h
  split at h
  case isTrue hnone =>
    obtain rfl := return_ok.mp h
    simp [hnone]
  case isFalse hsome =>
    rw [grantRole_hasRole h]
    simp [hsome]

/-- **What the script leaves.** Every role is with the accounts that are to hold it, and with
nobody else. -/
theorem runWithConfig_ok (hfresh : env.timelock ≠ cfg.deployer)
    (h : Deploy.runWithConfig env cfg blk token brainOwners = .ok d) :
    cfg.Deployable ∧ HandedOver env cfg d ∧
      SystemState.deploy env.toSystemEnv (cfg.deployConfig env) blk token brainOwners =
        .ok d.system ∧
      d.brainNFT = ⟨cfg.l2Erc721Bridge, cfg.l1RemoteChainId, cfg.l1BrainNFT⟩ ∧
      d.governor = ⟨64, cfg.quorumVotes⟩ ∧ d.minDelay = cfg.minDelay ∧
      d.genesisTimestamp = blk.timestamp := by
  simp only [Deploy.runWithConfig, BrainNFTL2.construct, bind_ok, revertIf_ok, return_ok,
    exists_const, not_not] at h
  obtain ⟨hl1, hbridge, hquorum, brainNFT, ⟨-, hchain, -, rfl⟩, system, hsystem, proposers,
    hproposers, cancellers, hcancellers, executors, hexecutors, guarded, hguarded, -, -, -, -,
    timelock, htimelock, rfl⟩ := h
  have hpriced := systemDeploy_ok_iff.mp ⟨system, hsystem⟩
  obtain ⟨hmarket, hvault, hdistributor⟩ := systemDeploy_roles hfresh hsystem
  refine ⟨⟨hl1, hbridge, hquorum.1, hquorum.2, hchain, hpriced⟩,
    ⟨hmarket, hvault, hdistributor, fun r a => ?_⟩, hsystem, rfl, rfl, rfl, uint64_timestamp _⟩
  show timelock.hasRole r a = true ↔ _
  rw [renounceRole_hasRole htimelock, grantCanceller_hasRole hguarded,
    grantRole_hasRole hexecutors, grantRole_hasRole hcancellers, grantRole_hasRole hproposers]
  cases r with
  | defaultAdmin =>
    have hadmin := succeeds (a := a) hfresh
    simp only [TimelockController.deploy, TimelockRole.Holder]
    simp
    grind
  | proposer => simp [TimelockController.deploy, TimelockRole.Holder]
  | canceller => simp [TimelockController.deploy, TimelockRole.Holder]
  | executor => simp [TimelockController.deploy, TimelockRole.Holder]

theorem runWithConfig_ok_iff (hdeployer : cfg.deployer ≠ 0)
    (hfresh : env.timelock ≠ cfg.deployer) :
    (∃ d, Deploy.runWithConfig env cfg blk token brainOwners = .ok d) ↔ cfg.Deployable := by
  constructor
  · rintro ⟨d, h⟩
    exact (runWithConfig_ok hfresh h).1
  · intro h
    have hsystem : ∃ s, SystemState.deploy env.toSystemEnv (cfg.deployConfig env) blk token
        brainOwners = .ok s := systemDeploy_ok_iff.mpr h.priced
    simp only [Deploy.runWithConfig, BrainNFTL2.construct, bind_ok, revertIf_ok, return_ok,
      exists_const, not_not, ScriptConfig.grantCanceller, renounceRole_self]
    -- the deployer administers the timelock until the end
    by_cases hguardian : cfg.guardian = 0
    · simp [hguardian, h.l1BrainNFT, h.l2Erc721Bridge, h.quorum_pos, h.quorum_le,
        h.l1RemoteChainId, grantRole_iff, TimelockController.deploy, hdeployer, set₂_apply,
        hsystem]
    · simp [hguardian, h.l1BrainNFT, h.l2Erc721Bridge, h.quorum_pos, h.quorum_le,
        h.l1RemoteChainId, grantRole_iff, TimelockController.deploy, hdeployer, set₂_apply,
        hsystem]

/-- The defaults of `run` are accepted, once it is told the L1 token. -/
theorem defaults_deployable {deployer l1BrainNFT : Address} (h : l1BrainNFT ≠ 0) :
    (ScriptVars.config deployer
      ⟨none, none, none, some l1BrainNFT, none, none, none, none, none⟩).Deployable where
  l1BrainNFT := h
  l2Erc721Bridge := by simp [ScriptVars.config]
  quorum_pos := by simp [ScriptVars.config]
  quorum_le := by simp [ScriptVars.config]
  l1RemoteChainId := by simp [ScriptVars.config]
  priced := by simp [ScriptVars.config]

/-- An account that is none of the contracts has a role just as the guardian. -/
theorem HandedOver.holdsRole_iff (h : HandedOver env cfg d) {a : Address} (ha : a ≠ 0)
    (hout : env.Outside a) : d.HoldsRole a ↔ cfg.guardian = a := by
  -- the zero address as guardian stands for none, and is not `a`
  have hguardian : (cfg.deployConfig env).guardian = some a ↔ cfg.guardian = a := by
    rw [ScriptConfig.deployConfig]
    split
    case isTrue hnone => exact ⟨nofun, fun heq => absurd (heq.symm.trans hnone) ha⟩
    case isFalse => exact Option.some_inj
  constructor
  · rintro (⟨r, hr⟩ | ⟨r, hr⟩ | ⟨r, hr⟩ | ⟨r, hr⟩)
    · have hholder := (h.market r a).mp hr
      cases r with
      | defaultAdmin => exact absurd hholder.symm hout.timelock
      | pauser => exact hguardian.mp (hholder.resolve_left fun heq => hout.timelock heq.symm)
    · have hholder := (h.vault r a).mp hr
      cases r with
      | defaultAdmin => exact absurd hholder.symm hout.timelock
      | slasher => exact absurd hholder.symm hout.scoring
      | rewarder => exact absurd hholder.symm hout.distributor
    · have hholder := (h.distributor r a).mp hr
      cases r with
      | defaultAdmin => exact absurd hholder.symm hout.timelock
      | market => exact absurd hholder.symm hout.market
    · have hholder := (h.timelock r a).mp hr
      cases r with
      | defaultAdmin => exact absurd hholder.symm hout.timelock
      | proposer => exact absurd hholder.symm hout.governor
      | canceller => exact (hholder.resolve_left fun heq => hout.governor heq.symm).2.symm
      -- the zero address stands for everyone
      | executor => exact absurd hholder ha
  · intro heq
    exact .inl ⟨.pauser, (h.market .pauser a).mpr (.inr (hguardian.mpr heq))⟩

/-- Everyone has what it was left. -/
theorem HandedOver.keptBy (h : HandedOver env cfg d) (a : Address) :
    KeptBy env.toSystemEnv (cfg.deployConfig env) a d.system :=
  ⟨fun r => (h.market r a).mpr, fun r => (h.vault r a).mpr, fun r => (h.distributor r a).mpr⟩

/-- The roles are where the runs begin from. -/
theorem HandedOver.authority (h : HandedOver env cfg d) :
    AuthorityInv env.toSystemEnv (cfg.deployConfig env) d.system where
  market r a hheld := (h.market r a).mp hheld
  vault r a hheld := (h.vault r a).mp hheld
  distributor r a hheld := (h.distributor r a).mp hheld
  rewarder := (h.vault .rewarder _).mpr rfl
  recorder := (h.distributor .market _).mpr rfl

/--
**The script hands the protocol over.** It goes through just for the configurations that name
an L1 token, a bridge, its chain, a quorum the Brains can reach and a price. Then every role of
the market, the vault, the distributor and the timelock is held by exactly the accounts it is
meant for, and the deployer, who is none of the contracts, keeps one just if it has named itself
the guardian.
-/
theorem script_hands_over (hdeployer : cfg.deployer ≠ 0) (hfresh : env.timelock ≠ cfg.deployer) :
    ((∃ d, Deploy.runWithConfig env cfg blk token brainOwners = .ok d) ↔ cfg.Deployable) ∧
    ∀ d, Deploy.runWithConfig env cfg blk token brainOwners = .ok d →
      HandedOver env cfg d ∧
        (env.Outside cfg.deployer → (d.HoldsRole cfg.deployer ↔ cfg.guardian = cfg.deployer)) ∧
        d.brainNFT = ⟨cfg.l2Erc721Bridge, cfg.l1RemoteChainId, cfg.l1BrainNFT⟩ ∧
        d.governor = ⟨64, cfg.quorumVotes⟩ ∧ d.minDelay = cfg.minDelay ∧
        d.genesisTimestamp = blk.timestamp := by
  refine ⟨runWithConfig_ok_iff hdeployer hfresh, ?_⟩
  intro d h
  obtain ⟨-, hroles, -, hbrainNFT, hgovernor, hdelay, hgenesis⟩ := runWithConfig_ok hfresh h
  exact ⟨hroles, hroles.holdsRole_iff hdeployer, hbrainNFT, hgovernor, hdelay, hgenesis⟩

/--
**Governed by the timelock alone.** In every run of the deployed contracts in which the
timelock calls for no role, by whomever and in whatever order they are called, nobody comes to a
role that the script did not leave it with, whoever renounces none keeps those it was left with,
the contracts stay wired to each other, so that the run is one of `SystemStep`, and every
privileged call of the run is made by a holder of its role: the timelock, a guardian that
pauses, or scoring that slashes.
-/
theorem deployment_governed {s : SystemState T} {ls : List SystemLabel}
    (hfresh : env.timelock ≠ cfg.deployer)
    (hdeploy : Deploy.runWithConfig env cfg blk token brainOwners = .ok d)
    (hrun : Run (DeployedStep env.toSystemEnv) d.system ls s)
    (hquiet : ∀ l ∈ ls, l.Quiet (cfg.deployConfig env)) :
    AuthorityInv env.toSystemEnv (cfg.deployConfig env) s ∧
      (∀ a, (∀ l ∈ ls, ¬ l.GivesUp a) →
        KeptBy env.toSystemEnv (cfg.deployConfig env) a s) ∧
      Run (SystemStep env.toSystemEnv) d.system ls s ∧
      ∀ l ∈ ls, l.Authorized env.toSystemEnv (cfg.deployConfig env) := by
  obtain ⟨-, hroles, -⟩ := runWithConfig_ok hfresh hdeploy
  obtain ⟨hinv, hsystem, hauthorized⟩ := authority_run hroles.authority hrun hquiet
  exact ⟨hinv, fun a => authority_keeps hroles.authority (hroles.keptBy a) hrun hquiet, hsystem,
    hauthorized⟩

end Results

/-! ## An example -/

/-- The toy system, with a guardian. -/
def toyScriptEnv : ScriptEnv Ledger :=
  { toySystem with scoring := 8, timelock := 10, governor := 11 }

def toyScript : ScriptConfig where
  deployer := 9
  quorumVotes := 4
  minDelay := 172800
  l2Erc721Bridge := 30
  l1BrainNFT := 31
  l1RemoteChainId := 1
  guardian := 12
  maxReservation := 50
  pricePerByte := 1
  pricePerRequest := 0

theorem toyScript_handed : ∃ d,
    Deploy.runWithConfig toyScriptEnv toyScript ⟨0, by decide⟩ toyLedger toyOwners = .ok d ∧
      HandedOver toyScriptEnv toyScript d ∧ ¬ d.HoldsRole 9 := by
  have hdeployer : toyScript.deployer ≠ 0 := by decide
  have hfresh : toyScriptEnv.timelock ≠ toyScript.deployer := by decide
  have hresult := @script_hands_over _ toyScriptEnv toyScript ⟨0, by decide⟩ toyLedger toyOwners
    hdeployer hfresh
  obtain ⟨d, hd⟩ := hresult.1.mpr
    ⟨by decide, by decide, by decide, by decide, by decide, by decide⟩
  obtain ⟨hroles, hkeeps, -⟩ := hresult.2 d hd
  have hout : toyScriptEnv.Outside 9 :=
    ⟨by decide, by decide, by decide, by decide, by decide⟩
  have hguardian : toyScript.guardian ≠ 9 := by decide
  exact ⟨d, hd, hroles, fun hheld => hguardian ((hkeeps hout).mp hheld)⟩

/-- The guardian pauses the market, and the timelock unpauses it. -/
def toyPause : List (Address × SystemCall) := [(12, .market .pause), (10, .market .unpause)]

theorem toyPause_plain : ∀ tx ∈ toyPause, toySystem.External tx.1 ∧ tx.2.setsRoles = false := by
  have hplain : ∀ tx ∈ toyPause, (tx.1 ≠ 0 ∧ tx.1 ≠ 20 ∧ tx.1 ≠ 23 ∧ tx.1 ≠ 21) ∧
      tx.2.setsRoles = false := by
    simp [toyPause, SystemCall.setsRoles]
  intro tx htx
  obtain ⟨⟨hzero, hmarket, hvault, hdistributor⟩, hroles⟩ := hplain tx htx
  exact ⟨⟨hzero, hmarket, hvault, hdistributor⟩, hroles⟩

theorem toyPause_quiet : ∀ l ∈ toyPause.map fun tx => SystemLabel.call ⟨150, by decide⟩ tx.1 tx.2,
    l.Quiet (toyScript.deployConfig toyScriptEnv) := by
  intro l hl
  obtain ⟨tx, htx, rfl⟩ := List.mem_map.mp hl
  have hnone : ∀ tx ∈ toyPause, tx.2.administers = false := by
    simp [toyPause, SystemCall.administers, MarketCall.administers]
  exact fun _ => hnone tx htx

theorem toyPause_governed : ∃ d s,
    Deploy.runWithConfig toyScriptEnv toyScript ⟨0, by decide⟩ toyLedger toyOwners = .ok d ∧
      Run (SystemStep toySystem) d.system
        (toyPause.map fun tx => .call ⟨150, by decide⟩ tx.1 tx.2) s ∧
      AuthorityInv toySystem (toyScript.deployConfig toyScriptEnv) s ∧
      s.market.roles.hasRole .pauser 12 = true := by
  have hruns : (do
      let d ← Deploy.runWithConfig toyScriptEnv toyScript ⟨0, by decide⟩ toyLedger toyOwners
      let s ← SystemState.mine toySystem ⟨150, by decide⟩ toyPause d.system
      return (d.system.now, s.market.paused) : Exec (Nat × Bool)).toOption =
        some (0, false) := by
    decide +kernel
  have hruns := toOption_ok.mp hruns
  simp only [bind_ok, return_ok, Prod.mk.injEq] at hruns
  obtain ⟨d, hdeploy, s, hmine, hnow, -⟩ := hruns
  have hfresh : toyScriptEnv.timelock ≠ toyScript.deployer := by decide
  obtain ⟨-, hroles, -⟩ := runWithConfig_ok hfresh hdeploy
  have hstart : d.system.now ≤ 150 := by omega
  have hrun := mine_run hroles.authority.wired hstart toyPause_plain hmine
  obtain ⟨hinv, hkeeps, hsystem, -⟩ := deployment_governed hfresh hdeploy
    (hrun.mono fun hstep => hstep.deployed) toyPause_quiet
  have hkept : KeptBy toySystem (toyScript.deployConfig toyScriptEnv) 12 s :=
    hkeeps 12 (by simp [toyPause, SystemLabel.GivesUp, SystemCall.renounces, MarketCall.renounces])
  exact ⟨d, s, hdeploy, hsystem, hinv, hkept.market .pauser (.inr rfl)⟩

end BasedAI
