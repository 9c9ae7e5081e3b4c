import BasedAI.Subnet.Registrations
import BasedAI.System.FeeConservation

/-!
# BasedAI — settlements go through

`_settle` divides what a receipt is worth between the Brain's owner, its validators and the
miner, by splits the registry keeps within bounds, and hands the validators' part to a
contract that refuses amounts of nothing. None of its lines can fail where the contracts
are wired together, and what it pays out is exactly what it was given.

* `splitOf`               — the three parts, and that they are the whole;
* `settle_pays`           — a settlement pays them, whoever the recipients are;
* `settlement_conserves`  — every settlement of the system, in every state it reaches.
-/

namespace BasedAI

open Fallible Mapping Transition ComputeUnitMarket

/-! ## The three parts -/

/-- What a settlement pays to whom. -/
structure Parts where
  owner : Nat
  miner : Nat
  validators : Nat

/-- The parts of `amount` on a Brain: all for the miner where the Brain is not active, and
the owner's for the miner where there is no owner. -/
def splitOf (sn : Subnet) (amount : Nat) : Parts :=
  if sn.active = false then ⟨0, amount, 0⟩
  else
    let ownerAmount := amount * sn.ownerSplitBps.val / BPS_DENOMINATOR
    let nodeShare := amount - ownerAmount
    let minerAmount := nodeShare * sn.minerShareBps.val / BPS_DENOMINATOR
    if sn.owner = 0 then ⟨0, minerAmount + ownerAmount, nodeShare - minerAmount⟩
    else ⟨ownerAmount, minerAmount, nodeShare - minerAmount⟩

/-- The two products of a settlement fit a word. -/
def ProductsFit (sn : Subnet) (amount : Nat) : Prop :=
  sn.active = true →
    amount * sn.ownerSplitBps.val < 2 ^ 256 ∧
      (amount - amount * sn.ownerSplitBps.val / BPS_DENOMINATOR) * sn.minerShareBps.val <
        2 ^ 256

/-- A floor of `n` basis points of an amount is no more than that of it, and no more than
the amount where `n` is no more than all. -/
theorem bps_le {amount n : Nat} (h : n ≤ BPS_DENOMINATOR) :
    amount * n / BPS_DENOMINATOR ≤ amount :=
  calc amount * n / BPS_DENOMINATOR
      ≤ amount * BPS_DENOMINATOR / BPS_DENOMINATOR :=
        Nat.div_le_div_right (Nat.mul_le_mul_left amount h)
    _ = amount := Nat.mul_div_cancel amount (by decide)

section Split

variable {sn : Subnet} {amount : Nat}

theorem splitOf_inactive (h : sn.active = false) : splitOf sn amount = ⟨0, amount, 0⟩ :=
  if_pos h

/-- The owner's part before it is known whether there is an owner, and the miner's. -/
def ownerCut (sn : Subnet) (amount : Nat) : Nat := amount * sn.ownerSplitBps.val / BPS_DENOMINATOR

def minerCut (sn : Subnet) (amount : Nat) : Nat :=
  (amount - ownerCut sn amount) * sn.minerShareBps.val / BPS_DENOMINATOR

theorem splitOf_active (h : ¬ sn.active = false) :
    splitOf sn amount =
      { owner := if sn.owner = 0 then 0 else ownerCut sn amount
        miner := if sn.owner = 0 then minerCut sn amount + ownerCut sn amount
          else minerCut sn amount
        validators := amount - ownerCut sn amount - minerCut sn amount } := by
  unfold splitOf
  rw [if_neg h]
  dsimp only
  split_ifs
  · rfl
  · rfl

theorem ownerCut_le (h : sn.SplitsBounded) : ownerCut sn amount ≤ amount := by
  have hmax : sn.ownerSplitBps.val ≤ 1500 := h.1
  exact bps_le (hmax.trans (by decide))

theorem minerCut_le (h : sn.SplitsBounded) :
    minerCut sn amount ≤ amount - ownerCut sn amount :=
  bps_le h.2

/-- The parts are the whole. -/
theorem splitOf_sum (h : sn.SplitsBounded) :
    (splitOf sn amount).owner + (splitOf sn amount).miner + (splitOf sn amount).validators =
      amount := by
  by_cases hinactive : sn.active = false
  · rw [splitOf_inactive hinactive]
    dsimp only
    omega
  · have hcut := @ownerCut_le sn amount h
    have hnode := @minerCut_le sn amount h
    rw [splitOf_active hinactive]
    dsimp only
    split_ifs
    · omega
    · omega

/-- The owner never gets more than the registry's cap. -/
theorem splitOf_owner_le (h : sn.SplitsBounded) :
    (splitOf sn amount).owner * 10000 ≤ amount * 1500 := by
  have hmax : sn.ownerSplitBps.val ≤ 1500 := h.1
  have hcut : ownerCut sn amount * 10000 ≤ amount * 1500 :=
    (Nat.div_mul_le_self _ _).trans (Nat.mul_le_mul_left amount hmax)
  have hle : (splitOf sn amount).owner ≤ ownerCut sn amount := by
    by_cases hinactive : sn.active = false
    · rw [splitOf_inactive hinactive]
      exact Nat.zero_le _
    · rw [splitOf_active hinactive]
      dsimp only
      split_ifs
      · exact Nat.zero_le _
      · exact le_rfl
  exact (Nat.mul_le_mul_right 10000 hle).trans hcut

end Split

/-! ## Paying them -/

section Pays

variable {T : Type} {env : MarketEnv T} {token : T}

/-- The owner is paid, or the miner is to be. -/
theorem payOwner_pays (hpay : env.token.Payable) (hself : env.self ≠ 0) {owner : Address}
    {ownerAmount minerAmount : Nat} (hheld : ownerAmount ≤ env.token.balanceOf token env.self)
    (hfits : minerAmount + ownerAmount < 2 ^ 256) :
    ∃ token', payOwner env owner ownerAmount minerAmount token =
        .ok (token', if owner = 0 then minerAmount + ownerAmount else minerAmount) ∧
      env.token.balanceOf token' = moved (env.token.balanceOf token) env.self owner
        (if owner = 0 then 0 else ownerAmount) := by
  unfold payOwner
  by_cases hpos : ownerAmount > 0
  · rw [if_pos hpos]
    by_cases howner : owner = 0
    · have hpass : ¬ owner ≠ 0 := not_not.mpr howner
      rw [if_neg hpass, if_pos howner, if_pos howner, moved_zero, add256, checkedAdd_eq hfits]
      exact ⟨token, rfl, rfl⟩
    · rw [if_pos howner, if_neg howner, if_neg howner]
      obtain ⟨token', htransfer⟩ := hpay.safeTransfer hself howner hheld
      obtain ⟨-, hbal⟩ := safeTransfer_ok htransfer
      rw [htransfer]
      exact ⟨token', rfl, hbal⟩
  · -- there is nothing to pay
    have hzero : ownerAmount = 0 := Nat.eq_zero_of_not_pos hpos
    rw [if_neg hpos, hzero, Nat.add_zero, ite_self, ite_self, moved_zero]
    exact ⟨token, rfl, rfl⟩

/-- The validators' part reaches the distributor, and its books; nothing is recorded of a
part of nothing, which the distributor would refuse. -/
theorem payValidators_pays (hpay : env.token.Payable) (hself : env.self ≠ 0)
    (hdistributor : env.distributor ≠ 0) {brainId : BrainId} {validatorAmount : Nat}
    {d : RewardDistributor} (hrole : d.roles.hasRole .market env.self = true)
    (hheld : validatorAmount ≤ env.token.balanceOf token env.self)
    (hfits : d.pendingValidatorFees brainId + validatorAmount < 2 ^ 256) :
    ∃ token', payValidators env brainId validatorAmount token d =
        .ok (token', { d with
          pendingValidatorFees := set d.pendingValidatorFees brainId
            (d.pendingValidatorFees brainId + validatorAmount) }) ∧
      env.token.balanceOf token' =
        moved (env.token.balanceOf token) env.self env.distributor validatorAmount := by
  unfold payValidators
  by_cases hpos : validatorAmount > 0
  · obtain ⟨token', htransfer⟩ := hpay.safeTransfer hself hdistributor hheld
    obtain ⟨-, hbal⟩ := safeTransfer_ok htransfer
    -- none of the checks stops it
    have hgranted : ¬ d.roles.hasRole .market env.self = false := by
      rw [hrole]
      exact Bool.noConfusion
    rw [if_pos hpos, htransfer, ok_bind, RewardDistributor.recordFees, revertIf_neg hgranted,
      ok_bind, revertIf_neg (Nat.ne_of_gt hpos), ok_bind, add256, checkedAdd_eq hfits]
    exact ⟨token', rfl, hbal⟩
  · have hzero : validatorAmount = 0 := Nat.eq_zero_of_not_pos hpos
    rw [if_neg hpos, hzero, Nat.add_zero, set_self, moved_zero]
    exact ⟨token, rfl, rfl⟩

/-- What a settlement of `amount` for `miner` does: it pays the three parts, in this order,
and has the validators' part recorded. -/
structure Settles (env : MarketEnv T) (brainId : BrainId) (miner : Address) (amount : Nat)
    (s s' : MarketState T) : Prop where
  paid : let sn := s.subnets.getSubnet s.brainOwners brainId
    env.token.balanceOf s'.token =
      moved (moved (moved (env.token.balanceOf s.token) env.self sn.owner
        (splitOf sn amount).owner) env.self env.distributor (splitOf sn amount).validators)
        env.self miner (splitOf sn amount).miner
  recorded : s'.distributor = { s.distributor with
    pendingValidatorFees := set s.distributor.pendingValidatorFees brainId
      (s.distributor.pendingValidatorFees brainId +
        (splitOf (s.subnets.getSubnet s.brainOwners brainId) amount).validators) }
  rest : s'.market = s.market ∧ s'.subnets = s.subnets ∧ s'.brainOwners = s.brainOwners

/-- The live owner of a Brain leaves its splits alone. -/
theorem getSubnet_splits {r : SubnetRegistry} {ownerOf : BrainOwners} {brainId : BrainId}
    (h : (r.subnets brainId).SplitsBounded) : (r.getSubnet ownerOf brainId).SplitsBounded := by
  unfold SubnetRegistry.getSubnet
  dsimp only
  split
  · split
    · exact h
    · exact h
  · exact h

theorem settle_inactive (hpay : env.token.Payable) (hself : env.self ≠ 0) {s : MarketState T}
    {brainId : BrainId} {miner : Address} {amount : Nat} (hminer : miner ≠ 0)
    (hheld : amount ≤ env.token.balanceOf s.token env.self)
    (hinactive : (s.subnets.getSubnet s.brainOwners brainId).active = false) :
    ∃ s', settle env brainId miner amount s = .ok s' ∧
      Settles env brainId miner amount s s' := by
  obtain ⟨token', htransfer⟩ := hpay.safeTransfer hself hminer hheld
  obtain ⟨-, hbal⟩ := safeTransfer_ok htransfer
  refine ⟨{ s with token := token' }, ?_, ?_, ?_, rfl, rfl, rfl⟩
  · unfold settle
    dsimp only
    rw [if_pos hinactive, htransfer]
    rfl
  · dsimp only
    -- all of it goes to the miner
    rw [splitOf_inactive hinactive, moved_zero, moved_zero]
    exact hbal
  · rw [splitOf_inactive hinactive]
    dsimp only
    rw [Nat.add_zero, set_self]

theorem settle_active (hpay : env.token.Payable) (hself : env.self ≠ 0)
    (hdistributor : env.distributor ≠ 0) {s : MarketState T} {brainId : BrainId}
    {miner : Address} {amount : Nat} (hminer : miner ≠ 0) {sn : Subnet}
    (hsn : s.subnets.getSubnet s.brainOwners brainId = sn) (hactive : ¬ sn.active = false)
    (hsplits : sn.SplitsBounded)
    (hrole : s.distributor.roles.hasRole .market env.self = true)
    (hheld : amount ≤ env.token.balanceOf s.token env.self)
    (hroom : s.distributor.pendingValidatorFees brainId + amount < 2 ^ 256)
    (hproducts : ProductsFit sn amount) :
    ∃ s', settle env brainId miner amount s = .ok s' ∧
      Settles env brainId miner amount s s' := by
  have hcut : ownerCut sn amount ≤ amount := ownerCut_le hsplits
  have hnode : minerCut sn amount ≤ amount - ownerCut sn amount := minerCut_le hsplits
  obtain ⟨hfits, hfits'⟩ := hproducts (Bool.not_eq_false _ ▸ hactive)
  -- each transfer finds at least what is still to be paid
  obtain ⟨token₁, hpaid, hbal₁⟩ := @payOwner_pays _ env s.token hpay hself sn.owner
    (ownerCut sn amount) (minerCut sn amount) (by omega) (by omega)
  have hleft₁ := le_moved_add (env.token.balanceOf s.token) env.self sn.owner env.self
    (if sn.owner = 0 then 0 else ownerCut sn amount)
  rw [← hbal₁] at hleft₁
  obtain ⟨token₂, hvalidators, hbal₂⟩ := @payValidators_pays _ env token₁ hpay hself
    hdistributor brainId (amount - ownerCut sn amount - minerCut sn amount) s.distributor hrole
    (by split at hleft₁ <;> omega) (by omega)
  have hleft₂ := le_moved_add (env.token.balanceOf token₁) env.self env.distributor env.self
    (amount - ownerCut sn amount - minerCut sn amount)
  rw [← hbal₂] at hleft₂
  have hleft : (if sn.owner = 0 then minerCut sn amount + ownerCut sn amount
      else minerCut sn amount) ≤ env.token.balanceOf token₂ env.self := by
    split
    case isTrue hnobody =>
      rw [if_pos hnobody] at hleft₁
      omega
    case isFalse howner =>
      rw [if_neg howner] at hleft₁
      omega
  obtain ⟨token₃, htransfer⟩ := hpay.safeTransfer hself hminer hleft
  obtain ⟨-, hbal₃⟩ := safeTransfer_ok htransfer
  refine ⟨{ s with
    token := token₃
    distributor := { s.distributor with
      pendingValidatorFees := set s.distributor.pendingValidatorFees brainId
        (s.distributor.pendingValidatorFees brainId +
          (amount - ownerCut sn amount - minerCut sn amount)) } }, ?_, ?_, ?_, rfl, rfl, rfl⟩
  · unfold settle
    dsimp only
    rw [hsn, if_neg hactive]
    simp only [bind_ok, mul256_ok, sub256_ok, return_ok]
    exact ⟨_, ⟨hfits, rfl⟩, _, ⟨hcut, rfl⟩, _, ⟨hfits', rfl⟩, _, ⟨hnode, rfl⟩, _, hpaid, _,
      hvalidators, token₃, htransfer, rfl⟩
  · dsimp only
    rw [hsn, splitOf_active hactive, hbal₃, hbal₂, hbal₁]
  · rw [hsn, splitOf_active hactive]

/-- **No settlement fails.** Splitting an amount the market holds and paying its parts goes
through, whatever the splits within their bounds and whoever the recipients. -/
theorem settle_pays (hpay : env.token.Payable) (hself : env.self ≠ 0)
    (hdistributor : env.distributor ≠ 0) {s : MarketState T} {brainId : BrainId}
    {miner : Address} {amount : Nat} (hminer : miner ≠ 0)
    (hrole : s.distributor.roles.hasRole .market env.self = true)
    (hsplits : (s.subnets.subnets brainId).SplitsBounded)
    (hheld : amount ≤ env.token.balanceOf s.token env.self)
    (hroom : s.distributor.pendingValidatorFees brainId + amount < 2 ^ 256)
    (hproducts : ProductsFit (s.subnets.getSubnet s.brainOwners brainId) amount) :
    ∃ s', settle env brainId miner amount s = .ok s' ∧
      Settles env brainId miner amount s s' := by
  by_cases hinactive : (s.subnets.getSubnet s.brainOwners brainId).active = false
  · exact settle_inactive hpay hself hminer hheld hinactive
  · exact settle_active hpay hself hdistributor hminer rfl hinactive (getSubnet_splits hsplits)
      hrole hheld hroom hproducts

end Pays

/-! ## The system -/

section System

variable {T : Type} {env : SystemEnv T} {cfg : DeployConfig} {blk : Block} {caller : Address}
  {s s' : SystemState T}

theorem registryInv_of_same {r r' : RegistryState T} (hr : RegistryInv r)
    (hmembers : r'.members = r.members) (hsubnets : r'.subnets = r.subnets) :
    RegistryInv r' :=
  ⟨hmembers ▸ hr.roster, hsubnets ▸ hr.splits⟩

theorem exec_registryInv {c : SystemCall} (hi : RegistryInv s.registry)
    (h : c.exec env blk caller s = .ok s') : RegistryInv s'.registry := by
  -- only the registry's own calls write what the invariant is about
  cases c with
  | market c =>
    obtain ⟨m, hm, rfl⟩ := map_ok.mp h
    obtain ⟨b, fee, hacc⟩ := exec_accrued hm
    exact registryInv_of_same hi rfl hacc.subnets
  | registry c =>
    obtain ⟨r, hr, rfl⟩ := map_ok.mp h
    exact hi.call hr
  | vault c =>
    obtain ⟨v, -, rfl⟩ := map_ok.mp h
    exact registryInv_of_same hi rfl rfl
  | distributor c =>
    cases c with
    | recordFees b amount =>
      simp only [SystemCall.exec, DistributorCall.exec, bind_ok, return_ok] at h
      obtain ⟨d, -, rfl⟩ := h
      exact registryInv_of_same hi rfl rfl
    | distribute b validators =>
      obtain ⟨-, -, -, -, -, hdone⟩ := distribute_ok h
      exact registryInv_of_same hi hdone.members hdone.subnets
    | _ =>
      obtain ⟨roles, rfl⟩ := rewardRoles_ok h rfl
      exact registryInv_of_same hi rfl rfl

theorem systemStep_registryInv {l : SystemLabel} (h : SystemStep env s l s')
    (hi : RegistryInv s.registry) : RegistryInv s'.registry := by
  cases h with
  | call blk caller c _ _ hexec _ => exact registryInv_of_same (exec_registryInv hi hexec) rfl rfl
  | elsewhere token brainOwners _ => exact registryInv_of_same hi rfl rfl

theorem deploy_registryInv {token : T} {brainOwners : BrainOwners}
    (h : SystemState.deploy env cfg blk token brainOwners = .ok s) : RegistryInv s.registry := by
  simp only [SystemState.deploy, bind_ok, return_ok] at h
  obtain ⟨_, -, _, -, _, -, _, -, _, -, _, -, _, -, _, -, _, -, _, -, _, -, _, -, rfl⟩ := h
  exact registryInv_deploy token brainOwners

/-- What is pending for a Brain fits a word next to what the market holds. -/
theorem SystemInv.room (hi : SystemInv env s)
    (hsupply : ∑ a, env.balanceOf s.token a < 2 ^ 256) {brainId : BrainId} {amount : Nat}
    (hheld : amount ≤ env.balanceOf s.token env.market) :
    s.distributor.pendingValidatorFees brainId + amount < 2 ^ 256 := by
  have hpending : s.distributor.pendingValidatorFees brainId ≤
      env.balanceOf s.token env.distributor :=
    (le_sum s.distributor.pendingValidatorFees brainId).trans hi.fees
  -- the two balances are two accounts' of the supply
  have htwo : env.balanceOf s.token env.distributor + env.balanceOf s.token env.market ≤
      ∑ a, env.balanceOf s.token a := by
    rw [← Finset.sum_pair env.distributor_ne_market]
    exact Finset.sum_le_sum_of_subset (Finset.subset_univ _)
  omega

/--
**Settlement conserves.** In every state the system reaches from its deployment, whatever
has become of the Brains and their NFTs, settling any amount the market holds goes through
on every Brain, and so does redeeming a receipt over it that passes the checks. The parts
paid to the owner, the miner and the distributor are the whole amount, the owner's is at
most 15% of it, the distributor is paid what is recorded as pending, and on an inactive
Brain all of it is the miner's.
-/
theorem settlement_conserves {blk₀ : Block} {token : T} {brainOwners : BrainOwners}
    {s₀ : SystemState T} {ls : List SystemLabel} (hpay : env.token.Payable)
    (hmarket : env.market ≠ 0)
    (hdeploy : SystemState.deploy env cfg blk₀ token brainOwners = .ok s₀)
    (h : Run (SystemStep env) s₀ ls s) (hsupply : ∑ a, env.balanceOf s.token a < 2 ^ 256)
    {brainId : BrainId} {miner : Address} {amount : Nat} (hminer : miner ≠ 0)
    (hheld : amount ≤ env.balanceOf s.token env.market)
    (hproducts : ProductsFit (s.subnets.getSubnet s.brainOwners brainId) amount) :
    (∃ m, settle env.marketEnv brainId miner amount s.toMarketState = .ok m ∧
      Settles env.marketEnv brainId miner amount s.toMarketState m) ∧
    (∀ blk (r : Receipt) userSig, r.brainId = brainId → r.miner = miner →
      r.amount.val = amount →
      redeemChecks env.marketEnv blk miner s.market r userSig = .ok () →
      ∃ s', SystemCall.exec env blk miner s (.market (.redeem r userSig)) = .ok s') ∧
    let parts := splitOf (s.subnets.getSubnet s.brainOwners brainId) amount
    parts.owner + parts.miner + parts.validators = amount ∧
      parts.owner * 10000 ≤ amount * 1500 ∧
      ((s.subnets.getSubnet s.brainOwners brainId).active = false →
        parts = ⟨0, amount, 0⟩) := by
  have hi : SystemInv env s := systemRun_inv h (systemInv_deploy hdeploy)
  have hregistry : RegistryInv s.registry :=
    h.invariant (I := fun s => RegistryInv s.registry) systemStep_registryInv
      (deploy_registryInv hdeploy)
  have hrole : s.distributor.roles.hasRole .market env.market = true :=
    (hi.wired.market env.market).mpr rfl
  have hsplits : (s.subnets.subnets brainId).SplitsBounded := hregistry.splits brainId
  have hroom := @SystemInv.room _ _ _ hi hsupply brainId _ hheld
  refine ⟨?_, ?_, ?_, ?_, ?_⟩
  · exact settle_pays hpay hmarket env.distributor_ne_zero hminer hrole hsplits hheld hroom
      hproducts
  · rintro blk r userSig rfl rfl rfl hchecks
    have hredeem := redeem_eq_settle hchecks
    -- the debit is in the market's own books
    obtain ⟨m, hm, -⟩ := @settle_pays _ env.marketEnv hpay hmarket env.distributor_ne_zero
      { s.toMarketState with
        market := s.market.debited r (s.market.balances r.user - r.amount.val) }
      r.brainId r.miner r.amount.val hminer hrole hsplits hheld hroom hproducts
    exact ⟨s.withMarket m, map_ok.mpr ⟨m, hredeem.trans hm, rfl⟩⟩
  · exact splitOf_sum (getSubnet_splits hsplits)
  · exact splitOf_owner_le (getSubnet_splits hsplits)
  · exact splitOf_inactive

end System

theorem toyLedger_supply : ∑ a, toySystem.balanceOf toyLedger a < 2 ^ 256 := by
  have hall : ∀ a, toySystem.balanceOf toyLedger a = 5000 := fun _ => rfl
  simp only [hall, Finset.sum_const, Finset.card_univ, Fintype.card_fin, smul_eq_mul]
  decide

/-- A transaction of Brain 3's owner to the registry. -/
theorem toyRegistry_step {s s' : SystemState Ledger} {c : RegistryCall}
    (hw : Wired toySystem s) (hnow : s.now ≤ 150)
    (h : SystemCall.exec toySystem ⟨150, by decide⟩ 4 s (.registry c) = .ok s') :
    SystemStep toySystem s (.call ⟨150, by decide⟩ 4 (.registry c))
      (s'.at_ ⟨150, by decide⟩) :=
  .call _ _ _ hnow ⟨by decide, by decide, by decide, by decide⟩ h (exec_wired hw h rfl)

/-- The NFT of a Brain is burned after its activation, and 100 is settled on it: the owner
at its activation is still paid, and 22 is recorded for the validators. -/
theorem settlement_conserves_burned : ∃ s : SystemState Ledger, s.brainOwners 3 = none ∧
    ∃ m, settle toySystem.marketEnv 3 7 100 s.toMarketState = .ok m ∧
      m.distributor.pendingValidatorFees 3 = 22 ∧
      Settles toySystem.marketEnv 3 7 100 s.toMarketState m := by
  have hdeploy : SystemState.deploy toySystem toyConfig ⟨0, by decide⟩ toyLedger toyOwners =
    .ok _ := rfl
  have hactivate := @toyRegistry_step _ _ (.activate 3 1 "") (deploy_ok hdeploy).1
    (Nat.zero_le _) rfl
  have hrun := Run.cons hactivate
    (.single (.elsewhere toyLedger (fun _ => none) fun a _ => le_rfl))
  obtain ⟨⟨m, hm, hsettles⟩, -, -⟩ := @settlement_conserves _ toySystem _ _ _ _ _ _ _
    ledgerToken_payable (by decide) hdeploy hrun toyLedger_supply 3 7 100 (by decide)
    (by decide) (fun _ => by decide)
  refine ⟨_, rfl, m, hm, ?_, hsettles⟩
  rw [hsettles.recorded]
  rfl

end BasedAI
