import BasedAI.Market.Solvency
import BasedAI.System.Distribution

/-!
# BasedAI — validator fees end to end

The same tokens stand in three books: the market splits a redemption, the distributor
records the validators' part, and the vault holds what was distributed. This module shows
that the books agree over whole runs of the system.

* `SystemInv`, `systemStep_inv` — what every call of every contract keeps;
* `redeem_accrues`  — a redemption is recorded as what was transferred;
* `distribute_pays` — a distribution pays floors and leaves less than one unit a payee;
* `fees_conserved`  — fees are conserved in every reachable state.
-/

namespace BasedAI

open Fallible Mapping ShareMath Transition ComputeUnitMarket

/-! ## The invariant -/

/-- What holds between the contracts' books. -/
structure SystemInv {T : Type} (env : SystemEnv T) (s : SystemState T) : Prop where
  wired : Wired env s
  vault : VaultInv s.vault
  validators : s.members.validators.Counted
  staked : s.vault.totalAssets ≤ env.balanceOf s.token env.vault
  fees : ∑ b, s.pendingValidatorFees b ≤ env.balanceOf s.token env.distributor

section Deploy

variable {T : Type} {env : SystemEnv T} {cfg : DeployConfig} {blk : Block} {token : T}
  {brainOwners : BrainOwners} {s : SystemState T}

/-- The system is deployed with its wiring and without stakes, members or fees. -/
theorem deploy_ok (h : SystemState.deploy env cfg blk token brainOwners = .ok s) :
    Wired env s ∧ s.token = token ∧ s.members = .deploy ∧
      s.distributor.pendingValidatorFees = (fun _ => 0) ∧
      ∃ roles, s.vault = { StakingVault.deploy cfg.deployer with roles := roles } := by
  simp only [SystemState.deploy, bind_ok, return_ok] at h
  obtain ⟨market, -, slasher, hslasher, rewards, hrewards, rewarder, hrewarder, _, -, _, -,
    admin, hadmin, staking, hstaking, _, -, _, -, handed, hhanded, left, hleft, rfl⟩ := h
  have hslasher := AccessControl.grantRole_ok hslasher
  have hrewards := AccessControl.grantRole_ok hrewards
  have hrewarder := AccessControl.grantRole_ok hrewarder
  have hadmin := AccessControl.grantRole_ok hadmin
  have hstaking := AccessControl.renounceRole_ok hstaking
  have hhanded := AccessControl.grantRole_ok hhanded
  have hleft := AccessControl.renounceRole_ok hleft
  -- the roles granted on the way, minus the two the deployer gives up
  subst hleft hhanded hrewards hstaking hadmin hrewarder hslasher
  refine ⟨⟨fun a => ?_, ?_⟩, rfl, rfl, rfl, _, rfl⟩
  · simp [set₂_apply, RewardDistributor.deploy, AccessControl.single]
  · simp [set₂_apply]

theorem systemInv_deploy (h : SystemState.deploy env cfg blk token brainOwners = .ok s) :
    SystemInv env s := by
  obtain ⟨hwired, -, hmembers, hfees, roles, hvault⟩ := deploy_ok h
  have hinv := vaultInv_deploy cfg.deployer
  refine ⟨hwired, ?_, ?_, ?_, ?_⟩
  · rw [hvault]
    exact ⟨hinv.shares_sum, hinv.brain_sum, hinv.total_sum, hinv.no_shares⟩
  · rw [hmembers]
    exact Roster.counted_empty
  · rw [hvault]
    exact Nat.zero_le _
  · unfold SystemState.pendingValidatorFees
    rw [hfees, Finset.sum_const_zero]
    exact Nat.zero_le _

end Deploy

/-! ## One call -/

section Calls

variable {T : Type} {env : SystemEnv T} {blk : Block} {caller : Address}
  {s s' : SystemState T}

/-- The contracts are not external accounts. -/
theorem SystemEnv.External.not_vault {env : SystemEnv T} : ¬ env.External env.vault :=
  fun h => h.ne_vault rfl

theorem SystemEnv.External.not_distributor {env : SystemEnv T} :
    ¬ env.External env.distributor :=
  fun h => h.ne_distributor rfl

theorem market_inv {m : MarketState T} {c : MarketCall} (hi : SystemInv env s)
    (hext : env.External caller)
    (h : c.exec env.marketEnv blk caller s.toMarketState = .ok m)
    (hwired : Wired env (s.withMarket m)) : SystemInv env (s.withMarket m) := by
  obtain ⟨b, fee, hacc⟩ := exec_accrued h
  have hvault : env.balanceOf s.token env.vault ≤ env.balanceOf m.token env.vault :=
    (Nat.le_add_right _ _).trans (hacc.balance env.vault env.vault_ne_market hext.ne_vault.symm)
  have hdist : env.balanceOf s.token env.distributor + fee ≤
      env.balanceOf m.token env.distributor := by
    have hbal := hacc.balance env.distributor env.distributor_ne_market
      hext.ne_distributor.symm
    have hself : env.distributor = env.marketEnv.distributor := rfl
    rw [if_pos hself] at hbal
    exact hbal
  refine ⟨hwired, hi.vault, hi.validators, hi.staked.trans hvault, ?_⟩
  -- what is recorded has been received
  have hsum := sum_set_add s.distributor.pendingValidatorFees b
    (s.distributor.pendingValidatorFees b + fee)
  have hfees := hi.fees
  unfold SystemState.pendingValidatorFees at hfees ⊢
  show ∑ b, m.distributor.pendingValidatorFees b ≤ env.balanceOf m.token env.distributor
  rw [hacc.fees]
  dsimp only
  omega

theorem registry_inv {r : RegistryState T} {c : RegistryCall} (hi : SystemInv env s)
    (hext : env.External caller)
    (h : c.exec env.registryEnv blk caller s.registry = .ok r)
    (hwired : Wired env (s.withRegistry r)) : SystemInv env (s.withRegistry r) := by
  have hkept := exec_kept hext.ne_zero h
  exact ⟨hwired, hi.vault, hkept.validators hi.validators,
    hi.staked.trans (hkept.balance _ hext.ne_vault.symm),
    hi.fees.trans (hkept.balance _ hext.ne_distributor.symm)⟩

theorem vault_inv {v : VaultState T} {c : VaultCall} (hi : SystemInv env s)
    (hext : env.External caller)
    (h : c.exec env.vaultEnv blk caller s.staking = .ok v)
    (hwired : Wired env (s.withStaking v)) : SystemInv env (s.withStaking v) := by
  have hbacked : Backed env.vaultEnv
      (env.balanceOf s.token env.vault - s.vault.totalAssets) s.staking := by
    have hstaked := hi.staked
    show env.balanceOf s.token env.vault = s.vault.totalAssets + _
    omega
  have hbacked' : env.balanceOf v.token env.vault = v.vault.totalAssets + _ :=
    exec_backed h hext.ne_vault hbacked
  have hdist : env.balanceOf s.token env.distributor ≤ env.balanceOf v.token env.distributor :=
    exec_balance h env.distributor_ne_vault hext.ne_distributor.symm
  refine ⟨hwired, exec_inv h hi.vault, hi.validators, ?_, hi.fees.trans hdist⟩
  show v.vault.totalAssets ≤ env.balanceOf v.token env.vault
  omega

/-- A distribution takes out of the books what it takes out of the balance. -/
theorem distributed_inv {b : BrainId} {validators : List Address} (hi : SystemInv env s)
    (hstake : 0 < s.listStake b validators) (h : Distributed env b validators s s')
    (hwired : Wired env s') : SystemInv env s' := by
  -- the vault received what its pools gained
  have hstaked : s'.vault.totalAssets ≤ env.balanceOf s'.token env.vault := by
    have hbacked := h.pushed.backed (env.balanceOf s.token env.vault - s.vault.totalAssets)
    unfold Backed at hbacked
    have hstaked := hi.staked
    have hafter : env.balanceOf s'.token env.vault = s'.vault.totalAssets + _ := hbacked (by
      show env.balanceOf s.token env.vault = s.vault.totalAssets + _
      omega)
    omega
  refine ⟨hwired, h.pushed.inv hi.vault, h.members ▸ hi.validators, hstaked, ?_⟩
  have hle := sum_shares_le hstake
  have hspent : env.balanceOf s'.token env.distributor +
      (validators.map (s.share b validators)).sum = env.balanceOf s.token env.distributor :=
    h.pushed.spent
  have hsum := sum_set_add s.distributor.pendingValidatorFees b
    (s.pendingValidatorFees b - (validators.map (s.share b validators)).sum)
  have hfees := hi.fees
  unfold SystemState.pendingValidatorFees at hfees hle hsum ⊢
  rw [h.fees]
  unfold SystemState.pendingValidatorFees
  omega

theorem exec_systemInv {c : SystemCall} (hi : SystemInv env s) (hext : env.External caller)
    (h : c.exec env blk caller s = .ok s') (hwired : Wired env s') : SystemInv env s' := by
  cases c with
  | market c =>
    obtain ⟨m, hm, rfl⟩ := map_ok.mp h
    exact market_inv hi hext hm hwired
  | registry c =>
    obtain ⟨r, hr, rfl⟩ := map_ok.mp h
    exact registry_inv hi hext hr hwired
  | vault c =>
    obtain ⟨v, hv, rfl⟩ := map_ok.mp h
    exact vault_inv hi hext hv hwired
  | distributor c =>
    cases c with
    | recordFees b amount =>
      -- nobody but the market has the role, and the market makes no transactions
      simp only [SystemCall.exec, DistributorCall.exec, bind_ok] at h
      obtain ⟨d, hd, -⟩ := h
      obtain ⟨hrole, -⟩ := RewardDistributor.recordFees_ok hd
      exact absurd ((hi.wired.market caller).mp hrole) hext.ne_market
    | distribute b validators =>
      obtain ⟨-, -, -, -, hstake, hdone⟩ := distribute_ok h
      exact distributed_inv hi hstake hdone hwired
    | _ =>
      obtain ⟨roles, rfl⟩ := rewardRoles_ok h rfl
      exact ⟨hwired, hi.vault, hi.validators, hi.staked, hi.fees⟩

theorem systemStep_inv {l : SystemLabel} (h : SystemStep env s l s') (hi : SystemInv env s) :
    SystemInv env s' := by
  cases h with
  | call blk caller c _ hext hexec hwired =>
    have hafter := exec_systemInv hi hext hexec hwired
    exact ⟨⟨hwired.market, hwired.rewarder⟩, hafter.vault, hafter.validators, hafter.staked,
      hafter.fees⟩
  | elsewhere token brainOwners hkept =>
    exact ⟨⟨hi.wired.market, hi.wired.rewarder⟩, hi.vault, hi.validators,
      hi.staked.trans (hkept _ SystemEnv.External.not_vault),
      hi.fees.trans (hkept _ SystemEnv.External.not_distributor)⟩

theorem systemRun_inv {ls : List SystemLabel} (h : Run (SystemStep env) s ls s')
    (hi : SystemInv env s) : SystemInv env s' :=
  h.invariant (I := SystemInv env) systemStep_inv hi

/-! ## Redemptions and distributions -/

/-- The validators' part of a redemption; an inactive Brain has none. -/
def SystemState.validatorFee (s : SystemState T) (r : Receipt) : Nat :=
  let subnet := s.subnets.getSubnet s.brainOwners r.brainId
  if subnet.active then validatorShare subnet r.amount.val else 0

/-- What a redemption of `r` does to the distributor: its books for the Brain rise by the
validators' part, and so does its balance, unless it is paid as the owner besides. -/
structure Redeemed (env : SystemEnv T) (r : Receipt) (s s' : SystemState T) : Prop where
  fees : s'.distributor.pendingValidatorFees = set s.distributor.pendingValidatorFees
    r.brainId (s.pendingValidatorFees r.brainId + s.validatorFee r)
  received : env.balanceOf s.token env.distributor + s.validatorFee r ≤
    env.balanceOf s'.token env.distributor
  transferred : env.distributor ≠ (s.subnets.getSubnet s.brainOwners r.brainId).owner →
    env.balanceOf s'.token env.distributor =
      env.balanceOf s.token env.distributor + s.validatorFee r
  vault : s'.vault = s.vault

theorem redeem_accrues {r : Receipt} {userSig : Bytes} (hext : env.External caller)
    (h : SystemCall.exec env blk caller s (.market (.redeem r userSig)) = .ok s') :
    Redeemed env r s s' := by
  obtain ⟨m, hm, rfl⟩ := map_ok.mp h
  have hredeem : redeem env.marketEnv blk caller r userSig s.toMarketState = .ok m := hm
  obtain ⟨hchecks, -⟩ := redeem_ok hredeem
  rw [redeem_eq_settle hchecks] at hredeem
  -- the miner sends the redemption itself, so it is not the distributor
  obtain ⟨-, -, -, -, -, -, -, -, -, hminer, -⟩ := redeemChecks_ok.mp hchecks
  obtain ⟨token, fee, rfl, rfl, hbal, hexact⟩ := settle_fees hredeem
  refine ⟨rfl, ?_, fun howner => ?_, rfl⟩
  · have hreceived := hbal env.distributor env.distributor_ne_market
    have hself : env.distributor = env.marketEnv.distributor := rfl
    rw [if_pos hself] at hreceived
    exact hreceived
  · exact hexact env.distributor_ne_market (hminer ▸ hext.ne_distributor.symm) howner

/-- The floor of a validator's part of what is pending, by the stakes on the list. -/
def SystemState.floorShare (s : SystemState T) (b : BrainId) (validators : List Address)
    (v : Address) : Nat :=
  s.pendingValidatorFees b * s.vault.validatorStake b v /
    (validators.map (s.vault.validatorStake b)).sum

/-- What a distribution for `b` over the list does: every pool on it receives the floor
of its part, from the distributor, and nobody else's pool or books change; what is left
pending is the rest, less than the number of validators with stake. -/
structure Paid (env : SystemEnv T) (b : BrainId) (validators : List Address)
    (s s' : SystemState T) : Prop where
  pool : ∀ v ∈ validators,
    s'.vault.vAssets b v = s.vault.vAssets b v + s.floorShare b validators v
  other : ∀ b' w, ¬ (b' = b ∧ w ∈ validators) → s'.vault.vAssets b' w = s.vault.vAssets b' w
  spent : env.balanceOf s'.token env.distributor +
    (validators.map (s.floorShare b validators)).sum = env.balanceOf s.token env.distributor
  remainder : s'.pendingValidatorFees b + (validators.map (s.floorShare b validators)).sum =
    s.pendingValidatorFees b
  dust : s'.pendingValidatorFees b < validators.countP fun v => 0 < s.vault.validatorStake b v
  books : ∀ b', b' ≠ b → s'.pendingValidatorFees b' = s.pendingValidatorFees b'

theorem distribute_pays {b : BrainId} {validators : List Address}
    (h : RewardDistributor.distribute env blk b validators s = .ok s') :
    Paid env b validators s s' := by
  obtain ⟨-, -, -, -, hstake, hdone⟩ := distribute_ok h
  have hle := sum_shares_le hstake
  have hlt := lt_sum_shares_add hstake
  -- what is pending loses what the shares add up to
  have hleft : s'.pendingValidatorFees b =
      s.pendingValidatorFees b - (validators.map (s.share b validators)).sum := by
    unfold SystemState.pendingValidatorFees
    rw [hdone.fees, set_same]
    rfl
  refine ⟨hdone.pushed.pool, hdone.pushed.other, hdone.pushed.spent, ?_, ?_, fun b' hb' => ?_⟩
  · rw [hleft]
    exact Nat.sub_add_cancel hle
  · rw [hleft]
    have hcount : s.pendingValidatorFees b - (validators.map (s.share b validators)).sum <
        validators.countP fun v => 0 < s.stakeOf b v := by omega
    exact hcount
  · unfold SystemState.pendingValidatorFees
    rw [hdone.fees, set_of_ne _ _ hb']

end Calls

/-! ## Whole blocks -/

section Wiring

variable {T : Type} {env : SystemEnv T} {blk : Block} {caller : Address}
  {s s' : SystemState T}

/-- The calls for the role tables that the wiring rests on. -/
def SystemCall.setsRoles : SystemCall → Bool
  | .vault c => c.forRoles
  | .distributor c => c.forRoles
  | _ => false

/-- Only those calls can undo the wiring. -/
theorem exec_wired {c : SystemCall} (hw : Wired env s) (h : c.exec env blk caller s = .ok s')
    (hc : c.setsRoles = false) : Wired env s' := by
  cases c with
  | market c =>
    obtain ⟨m, hm, rfl⟩ := map_ok.mp h
    obtain ⟨b, fee, hacc⟩ := exec_accrued hm
    have hroles : m.distributor.roles = s.distributor.roles := by rw [hacc.fees]
    exact ⟨fun a => hroles ▸ hw.market a, hw.rewarder⟩
  | registry c =>
    obtain ⟨r, -, rfl⟩ := map_ok.mp h
    exact ⟨hw.market, hw.rewarder⟩
  | vault c =>
    obtain ⟨v, hv, rfl⟩ := map_ok.mp h
    -- neither do the vault's calls, those for roles apart
    have hroles : v.vault.roles = s.vault.roles := exec_roles hv hc
    exact ⟨hw.market, hroles ▸ hw.rewarder⟩
  | distributor c =>
    cases c with
    | recordFees b amount =>
      simp only [SystemCall.exec, DistributorCall.exec, bind_ok, return_ok] at h
      obtain ⟨d, hd, rfl⟩ := h
      obtain ⟨-, -, rfl⟩ := RewardDistributor.recordFees_ok hd
      exact ⟨hw.market, hw.rewarder⟩
    | distribute b validators =>
      obtain ⟨-, -, -, -, -, hdone⟩ := distribute_ok h
      have hroles : s'.vault.roles = s.vault.roles := hdone.pushed.roles
      exact ⟨fun a => hdone.rewardRoles ▸ hw.market a, hroles ▸ hw.rewarder⟩
    | grantRole | revokeRole | renounceRole => cases hc

/-- The transactions of one block, in order. -/
def SystemState.mine (env : SystemEnv T) (blk : Block) :
    List (Address × SystemCall) → SystemState T → Exec (SystemState T)
  | [], s => return s
  | (caller, c) :: txs, s => do
    let s ← c.exec env blk caller s
    mine env blk txs (s.at_ blk)

/-- A block without calls for roles is a run. -/
theorem mine_run {txs : List (Address × SystemCall)} (hw : Wired env s)
    (hnow : s.now ≤ blk.timestamp)
    (htxs : ∀ tx ∈ txs, env.External tx.1 ∧ tx.2.setsRoles = false)
    (h : SystemState.mine env blk txs s = .ok s') :
    Run (SystemStep env) s (txs.map fun tx => .call blk tx.1 tx.2) s' := by
  -- the wiring survives each call, so the next is a step as well
  induction txs generalizing s with
  | nil =>
    obtain rfl := return_ok.mp h
    exact .nil s
  | cons tx txs ih =>
    obtain ⟨caller, c⟩ := tx
    simp only [SystemState.mine, bind_ok] at h
    obtain ⟨t, ht, hrest⟩ := h
    obtain ⟨hext, hroles⟩ := htxs _ (List.mem_cons_self ..)
    have hwired := exec_wired hw ht hroles
    exact .cons (.call blk caller c hnow hext ht hwired)
      (ih ⟨hwired.market, hwired.rewarder⟩ (le_refl blk.timestamp)
        (fun tx htx => htxs tx (List.mem_cons_of_mem _ htx)) hrest)

end Wiring

/-- The toy market with a registry and a vault beside it. -/
def toySystem : SystemEnv Ledger where
  crypto := toyCrypto
  token := ledgerErc20
  market := 20
  registry := 22
  vault := 23
  distributor := 21
  chainId := 1
  vault_ne_zero := by decide
  vault_ne_burn := by decide
  distributor_ne_zero := by decide
  distributor_ne_market := by decide
  distributor_ne_vault := by decide
  vault_ne_market := by decide

def toyConfig : DeployConfig where
  deployer := 9
  scoring := 8
  timelock := 10
  guardian := none
  maxReservation := 50
  pricePerByte := 1
  pricePerRequest := 0

/-- Account 4 owns Brain 3. -/
def toyOwners : BrainOwners := fun b => if b = 3 then some 4 else none

/-- The accounts 6 and 7 validate for the Brain with the stakes of the accounts 5 and 2, and
account 2 pays account 7 for a request. -/
def toyBlock : List (Address × SystemCall) :=
  [(4, .registry (.activate 3 1 "")), (4, .registry (.setRegistrationFee 3 0)),
    (6, .registry (.registerValidator 3 0)), (7, .registry (.registerValidator 3 0)),
    (5, .vault (.stake 3 6 700)), (2, .vault (.stake 3 7 1000)),
    (2, .market (.deposit 1000)), (7, .market (.redeem toyReceipt [2, 3]))]

theorem toyBlock_plain :
    ∀ tx ∈ toyBlock, toySystem.External tx.1 ∧ tx.2.setsRoles = false := by
  have hplain : ∀ tx ∈ toyBlock, (tx.1 ≠ 0 ∧ tx.1 ≠ 20 ∧ tx.1 ≠ 23 ∧ tx.1 ≠ 21) ∧
      tx.2.setsRoles = false := by
    simp [toyBlock, SystemCall.setsRoles, VaultCall.forRoles, DistributorCall.forRoles]
  intro tx htx
  obtain ⟨⟨hzero, hmarket, hvault, hdistributor⟩, hroles⟩ := hplain tx htx
  exact ⟨⟨hzero, hmarket, hvault, hdistributor⟩, hroles⟩

/-- The block succeeds on what was deployed, and leaves 9 pending for the Brain. They are
distributed but for 1. -/
theorem toyBlock_run : ∃ s₀ s s',
    SystemState.deploy toySystem toyConfig ⟨0, by decide⟩ toyLedger toyOwners = .ok s₀ ∧
    Run (SystemStep toySystem) s₀
      (toyBlock.map fun tx => .call ⟨150, by decide⟩ tx.1 tx.2) s ∧
    s.pendingValidatorFees 3 = 9 ∧
    SystemCall.exec toySystem ⟨150, by decide⟩ 5 s (.distributor (.distribute 3 [6, 7])) =
      .ok s' ∧
    s'.pendingValidatorFees 3 = 1 := by
  have hruns : (do
      let s₀ ← SystemState.deploy toySystem toyConfig ⟨0, by decide⟩ toyLedger toyOwners
      let s ← SystemState.mine toySystem ⟨150, by decide⟩ toyBlock s₀
      let s' ← SystemCall.exec toySystem ⟨150, by decide⟩ 5 s
        (.distributor (.distribute 3 [6, 7]))
      return (s₀.now, s.pendingValidatorFees 3, s'.pendingValidatorFees 3) :
      Exec (Nat × Nat × Nat)).toOption = some (0, 9, 1) := by
    decide +kernel
  have hruns := toOption_ok.mp hruns
  simp only [bind_ok, return_ok, Prod.mk.injEq] at hruns
  obtain ⟨s₀, hdeploy, s, hmine, s', hpay, hnow, hfees, hleft⟩ := hruns
  have hstart : s₀.now ≤ 150 := by omega
  exact ⟨s₀, s, s', hdeploy, mine_run (deploy_ok hdeploy).1 hstart toyBlock_plain hmine, hfees,
    hpay, hleft⟩

/-! ## The result -/

/--
**Fees are conserved end to end.** In every state the system reaches from its deployment
the distributor holds at least what is pending. From there, a redemption raises what is
pending for its Brain by exactly the validators' part, which the distributor receives;
nobody but the market can have fees recorded; and a distribution moves to every listed
pool the floor of its part, leaves the rest pending, less than one unit for every
validator with stake, and touches no other pool and no other Brain's books.
-/
theorem fees_conserved {T : Type} {env : SystemEnv T} {cfg : DeployConfig} {blk₀ : Block}
    {token : T} {brainOwners : BrainOwners} {s₀ s : SystemState T} {ls : List SystemLabel}
    (hdeploy : SystemState.deploy env cfg blk₀ token brainOwners = .ok s₀)
    (h : Run (SystemStep env) s₀ ls s) :
    ∑ b, s.pendingValidatorFees b ≤ env.balanceOf s.token env.distributor ∧
    (∀ blk caller r userSig s', env.External caller →
      SystemCall.exec env blk caller s (.market (.redeem r userSig)) = .ok s' →
      Redeemed env r s s') ∧
    (∀ blk caller b amount s', caller ≠ env.market →
      SystemCall.exec env blk caller s (.distributor (.recordFees b amount)) ≠ .ok s') ∧
    (∀ blk caller b validators s',
      SystemCall.exec env blk caller s (.distributor (.distribute b validators)) = .ok s' →
      Paid env b validators s s') := by
  have hi : SystemInv env s := systemRun_inv h (systemInv_deploy hdeploy)
  refine ⟨hi.fees, ?_, ?_, ?_⟩
  · intro blk caller r userSig s' hext hexec
    exact redeem_accrues hext hexec
  · intro blk caller b amount s' hcaller hexec
    simp only [SystemCall.exec, DistributorCall.exec, bind_ok] at hexec
    obtain ⟨d, hd, -⟩ := hexec
    -- recording takes the market's role
    obtain ⟨hrole, -⟩ := RewardDistributor.recordFees_ok hd
    exact hcaller ((hi.wired.market caller).mp hrole)
  · intro blk caller b validators s' hexec
    exact distribute_pays hexec

/-- Account 7 redeems for a Brain with two validators: the fees are held, they are
distributed, both are paid the floor of their part, and 1 stays pending. -/
theorem fees_conserved_redeemed : ∃ s s' : SystemState Ledger,
    s.pendingValidatorFees 3 = 9 ∧
    ∑ b, s.pendingValidatorFees b ≤ toySystem.balanceOf s.token toySystem.distributor ∧
    SystemCall.exec toySystem ⟨150, by decide⟩ 5 s (.distributor (.distribute 3 [6, 7])) =
      .ok s' ∧
    Paid toySystem 3 [6, 7] s s' ∧ s'.pendingValidatorFees 3 = 1 := by
  obtain ⟨s₀, s, s', hdeploy, hrun, hfees, hpay, hleft⟩ := toyBlock_run
  obtain ⟨hheld, -, -, hpays⟩ := fees_conserved hdeploy hrun
  exact ⟨s, s', hfees, hheld, hpay, hpays _ 5 3 [6, 7] s' hpay, hleft⟩

end BasedAI
