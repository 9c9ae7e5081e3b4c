import BasedAI.Chain.Authority
import BasedAI.System.FeeConservation

/-!
# BasedAI — who may do what

The privileged calls of the four contracts, and the holders the deployment leaves the roles
with: the timelock administers, a guardian may pause, scoring slashes, the distributor rewards
and the market records fees. `DeployedStep` is a step of the contracts whatever becomes of
their roles.

* `exec_guarded`  — a privileged call is made by a holder of its role, and only an
  administrator's call gives a role to anyone;
* `AuthorityInv`  — nobody has a role but those the deployment left it with;
* `authority_run` — it stays so, and the wiring with it, as long as the timelock calls for no
  role;
* `authority_keeps` — and then who gives no role up keeps what it was left.
-/

namespace BasedAI

open Fallible Mapping Transition

/-! ## Privileged calls -/

/-- The role a call needs. -/
def MarketCall.needs : MarketCall → Option MarketRole
  | .pause | .unpause => some .pauser
  | .setMaxReservation _ | .setPricing _ _ => some .defaultAdmin
  | .grantRole _ _ | .revokeRole _ _ => some .defaultAdmin
  | _ => none

/-- The calls by which an administrator changes a role table. -/
def MarketCall.administers : MarketCall → Bool
  | .grantRole _ _ | .revokeRole _ _ => true
  | _ => false

/-- The call by which an account gives a role up. -/
def MarketCall.renounces : MarketCall → Bool
  | .renounceRole _ _ => true
  | _ => false

def VaultCall.needs : VaultCall → Option VaultRole
  | .slash _ _ _ => some .slasher
  | .notifyReward _ _ _ => some .rewarder
  | .grantRole _ _ | .revokeRole _ _ => some .defaultAdmin
  | _ => none

def VaultCall.administers : VaultCall → Bool
  | .grantRole _ _ | .revokeRole _ _ => true
  | _ => false

def VaultCall.renounces : VaultCall → Bool
  | .renounceRole _ _ => true
  | _ => false

def DistributorCall.needs : DistributorCall → Option DistributorRole
  | .recordFees _ _ => some .market
  | .grantRole _ _ | .revokeRole _ _ => some .defaultAdmin
  | _ => none

def DistributorCall.administers : DistributorCall → Bool
  | .grantRole _ _ | .revokeRole _ _ => true
  | _ => false

def DistributorCall.renounces : DistributorCall → Bool
  | .renounceRole _ _ => true
  | _ => false

/-- The role a call of the system needs, where it is one of the market's. -/
def SystemCall.marketRole : SystemCall → Option MarketRole
  | .market c => c.needs
  | _ => none

def SystemCall.vaultRole : SystemCall → Option VaultRole
  | .vault c => c.needs
  | _ => none

def SystemCall.distributorRole : SystemCall → Option DistributorRole
  | .distributor c => c.needs
  | _ => none

def SystemCall.administers : SystemCall → Bool
  | .market c => c.administers
  | .registry _ => false
  | .vault c => c.administers
  | .distributor c => c.administers

def SystemCall.renounces : SystemCall → Bool
  | .market c => c.renounces
  | .registry _ => false
  | .vault c => c.renounces
  | .distributor c => c.renounces

section Guards

open ComputeUnitMarket AccessControl

variable {T : Type} {blk : Block} {caller : Address}

theorem MarketCall.guarded {env : MarketEnv T} {s s' : MarketState T} {c : MarketCall}
    (h : c.exec env blk caller s = .ok s') :
    Guarded caller c.needs c.administers c.renounces s.market.roles s'.market.roles := by
  cases c with
  | deposit amount =>
    obtain ⟨-, -, token, -, rfl⟩ := deposit_ok h
    exact guarded_free rfl
  | requestWithdraw amount =>
    obtain ⟨-, -, rfl⟩ := requestWithdraw_ok h
    exact guarded_free rfl
  | cancelWithdraw =>
    obtain rfl := cancelWithdraw_ok h
    exact guarded_free rfl
  | withdraw =>
    obtain ⟨-, -, -, token, -, rfl⟩ := withdraw_ok h
    exact guarded_free rfl
  | redeem r userSig =>
    obtain ⟨-, token, distributor, rfl, -⟩ := redeem_ok h
    exact guarded_free rfl
  | pause =>
    simp only [MarketCall.exec, ComputeUnitMarket.pause, bind_ok, onlyRole_ok, return_ok] at h
    obtain ⟨_, hrole, _, -, rfl⟩ := h
    exact guarded_onlyRole hrole rfl
  | unpause =>
    simp only [MarketCall.exec, ComputeUnitMarket.unpause, bind_ok, onlyRole_ok, return_ok] at h
    obtain ⟨_, hrole, _, -, rfl⟩ := h
    exact guarded_onlyRole hrole rfl
  | setMaxReservation newMax =>
    simp only [MarketCall.exec, ComputeUnitMarket.setMaxReservation, bind_ok, onlyRole_ok,
      return_ok, exists_const] at h
    obtain ⟨hrole, rfl⟩ := h
    exact guarded_onlyRole hrole rfl
  | setPricing perByte perRequest =>
    simp only [MarketCall.exec, ComputeUnitMarket.setPricing, bind_ok, onlyRole_ok, return_ok] at h
    obtain ⟨_, hrole, _, -, rfl⟩ := h
    exact guarded_onlyRole hrole rfl
  | grantRole role account =>
    obtain ⟨roles, hroles, rfl⟩ := map_ok.mp h
    exact guarded_grantRole hroles
  | revokeRole role account =>
    obtain ⟨roles, hroles, rfl⟩ := map_ok.mp h
    exact guarded_revokeRole hroles
  | renounceRole role confirmation =>
    obtain ⟨roles, hroles, rfl⟩ := map_ok.mp h
    exact guarded_renounceRole hroles

theorem VaultCall.guarded {env : VaultEnv T} {s s' : VaultState T} {c : VaultCall}
    (h : c.exec env blk caller s = .ok s') :
    Guarded caller c.needs c.administers c.renounces s.vault.roles s'.vault.roles := by
  cases c with
  | slash b w amount =>
    obtain ⟨hrole, -⟩ := StakingVault.slash_ok h
    exact guarded_onlyRole hrole (exec_roles h rfl)
  | notifyReward b w amount =>
    obtain ⟨token, total, brain, hrole, -⟩ := StakingVault.notifyReward_ok h
    exact guarded_onlyRole hrole (exec_roles h rfl)
  | grantRole role account =>
    obtain ⟨roles, hroles, rfl⟩ := map_ok.mp h
    exact guarded_grantRole hroles
  | revokeRole role account =>
    obtain ⟨roles, hroles, rfl⟩ := map_ok.mp h
    exact guarded_revokeRole hroles
  | renounceRole role confirmation =>
    obtain ⟨roles, hroles, rfl⟩ := map_ok.mp h
    exact guarded_renounceRole hroles
  -- stakers need no role
  | stake | requestUnstake | claimUnstake => exact guarded_free (exec_roles h rfl)

theorem DistributorCall.guarded {env : SystemEnv T} {s s' : SystemState T} {c : DistributorCall}
    (h : c.exec env blk caller s = .ok s') :
    Guarded caller c.needs c.administers c.renounces s.distributor.roles
      s'.distributor.roles := by
  cases c with
  | recordFees b amount =>
    simp only [DistributorCall.exec, bind_ok, return_ok] at h
    obtain ⟨d, hd, rfl⟩ := h
    obtain ⟨hrole, -, rfl⟩ := RewardDistributor.recordFees_ok hd
    exact guarded_onlyRole hrole rfl
  | distribute b validators =>
    obtain ⟨-, -, -, -, -, hdone⟩ := distribute_ok h
    exact guarded_free hdone.rewardRoles
  | grantRole role account =>
    obtain ⟨roles, hroles, rfl⟩ := map_ok.mp h
    exact guarded_grantRole hroles
  | revokeRole role account =>
    obtain ⟨roles, hroles, rfl⟩ := map_ok.mp h
    exact guarded_revokeRole hroles
  | renounceRole role confirmation =>
    obtain ⟨roles, hroles, rfl⟩ := map_ok.mp h
    exact guarded_renounceRole hroles

/-- What a call says about the three role tables, and does to them. -/
structure SystemCall.Guards (caller : Address) (c : SystemCall) (s s' : SystemState T) :
    Prop where
  market : Guarded caller c.marketRole c.administers c.renounces s.market.roles
    s'.market.roles
  vault : Guarded caller c.vaultRole c.administers c.renounces s.vault.roles s'.vault.roles
  distributor : Guarded caller c.distributorRole c.administers c.renounces
    s.distributor.roles s'.distributor.roles

/-- **One call.** Privileged calls are made by the holders of their roles, and only an
administrator's calls give a role to anyone. -/
theorem exec_guarded {env : SystemEnv T} {s s' : SystemState T} {c : SystemCall}
    (h : c.exec env blk caller s = .ok s') : c.Guards caller s s' := by
  cases c with
  | market c =>
    obtain ⟨m, hm, rfl⟩ := map_ok.mp h
    obtain ⟨b, fee, hacc⟩ := exec_accrued hm
    have hroles : m.distributor.roles = s.distributor.roles := by rw [hacc.fees]
    exact ⟨MarketCall.guarded hm, guarded_free rfl, guarded_free hroles⟩
  | registry c =>
    obtain ⟨r, -, rfl⟩ := map_ok.mp h
    exact ⟨guarded_free rfl, guarded_free rfl,
      guarded_free rfl⟩
  | vault c =>
    obtain ⟨v, hv, rfl⟩ := map_ok.mp h
    exact ⟨guarded_free rfl, VaultCall.guarded hv, guarded_free rfl⟩
  | distributor c =>
    have hown := DistributorCall.guarded h
    -- a distribution calls the vault, which it is wired to
    cases c with
    | recordFees b amount =>
      simp only [SystemCall.exec, DistributorCall.exec, bind_ok, return_ok] at h
      obtain ⟨d, -, rfl⟩ := h
      exact ⟨guarded_free rfl, guarded_free rfl, hown⟩
    | distribute b validators =>
      obtain ⟨-, -, -, -, -, hdone⟩ := distribute_ok h
      exact ⟨guarded_free (congrArg _ hdone.market),
        guarded_free hdone.pushed.roles, hown⟩
    | _ =>
      obtain ⟨roles, rfl⟩ := rewardRoles_ok h rfl
      exact ⟨guarded_free rfl, guarded_free rfl, hown⟩

end Guards

/-! ## The holders -/

/-- Who the deployment leaves the roles with. -/
def MarketRole.Holder (cfg : DeployConfig) : MarketRole → Address → Prop
  | .defaultAdmin, a => a = cfg.timelock
  | .pauser, a => a = cfg.timelock ∨ cfg.guardian = some a

def VaultRole.Holder {T : Type} (env : SystemEnv T) (cfg : DeployConfig) :
    VaultRole → Address → Prop
  | .defaultAdmin, a => a = cfg.timelock
  | .slasher, a => a = cfg.scoring
  | .rewarder, a => a = env.distributor

def DistributorRole.Holder {T : Type} (env : SystemEnv T) (cfg : DeployConfig) :
    DistributorRole → Address → Prop
  | .defaultAdmin, a => a = cfg.timelock
  | .market, a => a = env.market

/-- A privileged call is made by one of them. -/
structure SystemCall.Authorized {T : Type} (env : SystemEnv T) (cfg : DeployConfig)
    (caller : Address) (c : SystemCall) : Prop where
  market : ∀ r, c.marketRole = some r → r.Holder cfg caller
  vault : ∀ r, c.vaultRole = some r → r.Holder env cfg caller
  distributor : ∀ r, c.distributorRole = some r → r.Holder env cfg caller

/-! ## Runs of the deployed contracts -/

/-- The roles are with nobody but those the deployment leaves them with. The two by which the
contracts call each other are not given up, as contracts make no transactions. -/
structure AuthorityInv {T : Type} (env : SystemEnv T) (cfg : DeployConfig) (s : SystemState T) :
    Prop where
  market : s.market.roles.Within (MarketRole.Holder cfg)
  vault : s.vault.roles.Within (VaultRole.Holder env cfg)
  distributor : s.distributor.roles.Within (DistributorRole.Holder env cfg)
  rewarder : s.vault.roles.hasRole .rewarder env.distributor = true
  recorder : s.distributor.roles.hasRole .market env.market = true

/-- `a` has every role the deployment leaves it with. -/
structure KeptBy {T : Type} (env : SystemEnv T) (cfg : DeployConfig) (a : Address)
    (s : SystemState T) : Prop where
  market : ∀ r, MarketRole.Holder cfg r a → s.market.roles.hasRole r a = true
  vault : ∀ r, VaultRole.Holder env cfg r a → s.vault.roles.hasRole r a = true
  distributor : ∀ r, DistributorRole.Holder env cfg r a →
    s.distributor.roles.hasRole r a = true

/-- A step of the contracts, whatever becomes of their roles. -/
inductive DeployedStep {T : Type} (env : SystemEnv T) :
    SystemState T → SystemLabel → SystemState T → Prop
  | call {s s' : SystemState T} (blk : Block) (caller : Address) (c : SystemCall) :
      s.now ≤ blk.timestamp → env.External caller → c.exec env blk caller s = .ok s' →
      DeployedStep env s (.call blk caller c) (s'.at_ blk)
  | elsewhere {s : SystemState T} (token : T) (brainOwners : BrainOwners) :
      (∀ a, ¬ env.External a → env.balanceOf s.token a ≤ env.balanceOf token a) →
      DeployedStep env s .elsewhere
        { s with token := token, brainOwners := brainOwners }

/-- Where the wiring stays, it is a step like any other. -/
theorem SystemStep.deployed {T : Type} {env : SystemEnv T} {s s' : SystemState T}
    {l : SystemLabel} (h : SystemStep env s l s') : DeployedStep env s l s' := by
  cases h with
  | call blk caller c hnow hext hexec _ => exact .call blk caller c hnow hext hexec
  | elsewhere token brainOwners hkept => exact .elsewhere token brainOwners hkept

/-- A call is no grant and no revocation of the timelock. -/
def SystemLabel.Quiet (cfg : DeployConfig) : SystemLabel → Prop
  | .call _ caller c => caller = cfg.timelock → c.administers = false
  | .elsewhere => True

/-- `a` gives a role up. -/
def SystemLabel.GivesUp (a : Address) : SystemLabel → Prop
  | .call _ caller c => caller = a ∧ c.renounces = true
  | .elsewhere => False

/-- Every privileged call is made by a holder of its role. -/
def SystemLabel.Authorized {T : Type} (env : SystemEnv T) (cfg : DeployConfig) :
    SystemLabel → Prop
  | .call _ caller c => c.Authorized env cfg caller
  | .elsewhere => True

section Runs

open AccessControl

variable {T : Type} {env : SystemEnv T} {cfg : DeployConfig} {s s' : SystemState T}
  {l : SystemLabel} {ls : List SystemLabel} {caller : Address} {c : SystemCall}

/-- The wiring is part of it. -/
theorem AuthorityInv.wired (h : AuthorityInv env cfg s) : Wired env s := by
  refine ⟨fun a => ⟨fun hheld => h.distributor _ a hheld, ?_⟩, h.rewarder⟩
  rintro rfl
  exact h.recorder

theorem AuthorityInv.authorized (h : AuthorityInv env cfg s) (hg : c.Guards caller s s') :
    c.Authorized env cfg caller where
  market _ hr := hg.market.caller_allowed h.market hr
  vault _ hr := hg.vault.caller_allowed h.vault hr
  distributor _ hr := hg.distributor.caller_allowed h.distributor hr

/-- Nobody but the timelock can administer. -/
theorem AuthorityInv.quiet (h : AuthorityInv env cfg s) (hg : c.Guards caller s s')
    (hquiet : caller = cfg.timelock → c.administers = false) : c.administers = false := by
  have hauthorized := h.authorized hg
  by_contra hadmin
  rw [Bool.not_eq_false] at hadmin
  -- an administrator's call needs the role that only the timelock has
  have hcaller : caller = cfg.timelock := by
    cases c with
    | registry c => cases hadmin
    | market c =>
      cases c with
      | grantRole | revokeRole => exact hauthorized.market .defaultAdmin rfl
      | _ => cases hadmin
    | vault c =>
      cases c with
      | grantRole | revokeRole => exact hauthorized.vault .defaultAdmin rfl
      | _ => cases hadmin
    | distributor c =>
      cases c with
      | grantRole | revokeRole => exact hauthorized.distributor .defaultAdmin rfl
      | _ => cases hadmin
  rw [hquiet hcaller] at hadmin
  cases hadmin

/-- **One step.** -/
theorem AuthorityInv.step (h : AuthorityInv env cfg s) (hstep : DeployedStep env s l s')
    (hquiet : l.Quiet cfg) :
    AuthorityInv env cfg s' ∧ SystemStep env s l s' ∧ l.Authorized env cfg := by
  cases hstep with
  | @call t blk caller c hnow hext hexec =>
    have hg := exec_guarded hexec
    have hnone := h.quiet hg hquiet
    have hinv : AuthorityInv env cfg t := by
      refine ⟨hg.market.within hnone h.market, hg.vault.within hnone h.vault,
        hg.distributor.within hnone h.distributor, ?_, ?_⟩
      · exact hg.vault.kept hnone _ _ (fun heq => absurd heq.symm hext.ne_distributor)
          h.rewarder
      · exact hg.distributor.kept hnone _ _ (fun heq => absurd heq.symm hext.ne_market)
          h.recorder
    exact ⟨⟨hinv.market, hinv.vault, hinv.distributor, hinv.rewarder, hinv.recorder⟩,
      .call blk caller c hnow hext hexec hinv.wired, h.authorized hg⟩
  | elsewhere token brainOwners hkept =>
    exact ⟨⟨h.market, h.vault, h.distributor, h.rewarder, h.recorder⟩,
      .elsewhere token brainOwners hkept, trivial⟩

/-- An account loses no role in a step in which it gives none up. -/
theorem KeptBy.step {a : Address} (hkept : KeptBy env cfg a s) (h : AuthorityInv env cfg s)
    (hstep : DeployedStep env s l s') (hquiet : l.Quiet cfg) (hgives : ¬ l.GivesUp a) :
    KeptBy env cfg a s' := by
  cases hstep with
  | @call t blk caller c hnow hext hexec =>
    have hg := exec_guarded hexec
    have hnone := h.quiet hg hquiet
    -- the call of another takes nothing from it, and its own only what it renounces
    have hown : a = caller → c.renounces = false := by
      intro heq
      by_contra hgiven
      exact hgives ⟨heq.symm, by simpa using hgiven⟩
    exact ⟨fun r hr => hg.market.kept hnone r a hown (hkept.market r hr),
      fun r hr => hg.vault.kept hnone r a hown (hkept.vault r hr),
      fun r hr => hg.distributor.kept hnone r a hown (hkept.distributor r hr)⟩
  | elsewhere token brainOwners _ => exact ⟨hkept.market, hkept.vault, hkept.distributor⟩

/-- **Whole runs.** As long as the timelock calls for no role, nobody comes to one, the
contracts stay wired to each other, and privileged calls are made by the holders only. -/
theorem authority_run (h : AuthorityInv env cfg s) (hrun : Run (DeployedStep env) s ls s')
    (hquiet : ∀ l ∈ ls, l.Quiet cfg) :
    AuthorityInv env cfg s' ∧ Run (SystemStep env) s ls s' ∧ ∀ l ∈ ls, l.Authorized env cfg := by
  induction hrun with
  | nil s => exact ⟨h, .nil s, fun l hl => absurd hl List.not_mem_nil⟩
  | @cons s t s' l ls hstep hrest ih =>
    obtain ⟨hinv, hsystem, hauthorized⟩ := h.step hstep (hquiet l List.mem_cons_self)
    obtain ⟨hinv', hrun', hall⟩ := ih hinv fun k hk => hquiet k (List.mem_cons_of_mem _ hk)
    refine ⟨hinv', .cons hsystem hrun', ?_⟩
    intro k hk
    rcases List.mem_cons.mp hk with rfl | hk
    · exact hauthorized
    · exact hall k hk

/-- An account that gives nothing up in such a run has in the end what it had. -/
theorem authority_keeps {a : Address} (h : AuthorityInv env cfg s) (hkept : KeptBy env cfg a s)
    (hrun : Run (DeployedStep env) s ls s') (hquiet : ∀ l ∈ ls, l.Quiet cfg)
    (hgives : ∀ l ∈ ls, ¬ l.GivesUp a) : KeptBy env cfg a s' := by
  induction hrun with
  | nil s => exact hkept
  | @cons s t s' l ls hstep hrest ih =>
    have hfirst := hquiet l List.mem_cons_self
    exact ih (h.step hstep hfirst).1 (hkept.step h hstep hfirst (hgives l List.mem_cons_self))
      (fun k hk => hquiet k (List.mem_cons_of_mem _ hk))
      fun k hk => hgives k (List.mem_cons_of_mem _ hk)

end Runs

end BasedAI
