import BasedAI.Market.MarketCalls

/-!
# BasedAI — the market is solvent

The market keeps one balance per user and one token balance for all of them. This
module shows that the second always covers the first: deposits raise both,
withdrawals and redemptions never take more out of the market than they take off
a user, whoever is paid.

* `Solvent`            — the tokens held cover every balance;
* `exec_solvent`, `marketStep_solvent` — the step lemma;
* `settle_covered`     — a settlement of tokens that are held is never short;
* `market_solvency`    — solvency of every reachable state.
-/

namespace BasedAI

open Fallible Mapping Transition ComputeUnitMarket

variable {T : Type} {env : MarketEnv T} {s s' : MarketState T}

/-- The storage of a market that has just been deployed. -/
def MarketDeployed (m : ComputeUnitMarket) : Prop :=
  ∃ maxReservation pricePerByte pricePerRequest admin,
    ComputeUnitMarket.deploy maxReservation pricePerByte pricePerRequest admin = .ok m

/-- A new market has no accounts. -/
theorem MarketDeployed.accounts {m : ComputeUnitMarket} (h : MarketDeployed m) :
    (∀ u, m.balances u = 0) ∧ (∀ u n, m.usedNonces u n = false) ∧
      ∀ u, m.pendingWithdrawals u = ⟨0, 0⟩ := by
  obtain ⟨_, _, _, _, hdeploy⟩ := h
  unfold ComputeUnitMarket.deploy at hdeploy
  simp only [bind_ok, return_ok] at hdeploy
  obtain ⟨_, -, rfl⟩ := hdeploy
  exact ⟨fun _ => rfl, fun _ _ => rfl, fun _ => rfl⟩

/-- The tokens the market holds cover the balances of all its users. -/
def Solvent (env : MarketEnv T) (s : MarketState T) : Prop :=
  ∑ u, s.market.balances u ≤ env.token.balanceOf s.token env.self

theorem Solvent.balance_le (hs : Solvent env s) (u : Address) :
    s.market.balances u ≤ env.token.balanceOf s.token env.self :=
  (le_sum s.market.balances u).trans hs

/-! ## Every call keeps the market solvent -/

section Steps

variable {blk : Block} {caller : Address}

theorem deposit_solvent {amount : Nat} (h : deposit env caller amount s = .ok s')
    (hcaller : caller ≠ env.self) (hs : Solvent env s) : Solvent env s' := by
  obtain ⟨-, -, token, htoken, rfl⟩ := deposit_ok h
  obtain ⟨-, hbal⟩ := safeTransferFrom_ok htoken
  have hsum := sum_set_add s.market.balances caller (s.market.balances caller + amount)
  unfold Solvent at hs ⊢
  rw [hbal, moved_dst hcaller]
  dsimp only
  omega

theorem withdraw_solvent (h : withdraw env blk caller s = .ok s') (hs : Solvent env s) :
    Solvent env s' := by
  obtain ⟨-, -, -, token, htoken, rfl⟩ := withdraw_ok h
  obtain ⟨-, hbal⟩ := safeTransfer_ok htoken
  have hpaid := le_moved_add (env.token.balanceOf s.token) env.self caller env.self
    (s.market.payout caller)
  have hle : s.market.payout caller ≤ s.market.balances caller := min_le_right _ _
  have hsum := sum_set_add s.market.balances caller
    (s.market.balances caller - s.market.payout caller)
  unfold Solvent at hs ⊢
  rw [hbal]
  dsimp only
  omega

theorem redeem_solvent {r : Receipt} {userSig : Bytes}
    (h : redeem env blk caller r userSig s = .ok s') (hs : Solvent env s) :
    Solvent env s' := by
  obtain ⟨hchecks, token, distributor, rfl, hspent⟩ := redeem_ok h
  obtain ⟨-, -, -, -, -, -, -, -, hle, -, -⟩ := redeemChecks_ok.mp hchecks
  have hsum := sum_set_add s.market.balances r.user
    (s.market.balances r.user - r.amount.val)
  unfold Solvent at hs ⊢
  dsimp only [debited]
  omega

/-- The entry points that move no balance and no token. -/
theorem solvent_of_same (hbalances : s'.market.balances = s.market.balances)
    (htoken : s'.token = s.token) (hs : Solvent env s) : Solvent env s' := by
  unfold Solvent at hs ⊢
  rw [hbalances, htoken]
  exact hs

theorem exec_solvent {c : MarketCall} (h : c.exec env blk caller s = .ok s')
    (hcaller : caller ≠ env.self) (hs : Solvent env s) : Solvent env s' := by
  cases c with
  | deposit amount => exact deposit_solvent h hcaller hs
  | withdraw => exact withdraw_solvent h hs
  | redeem r userSig => exact redeem_solvent h hs
  | requestWithdraw amount =>
    obtain ⟨-, -, rfl⟩ := requestWithdraw_ok h
    exact solvent_of_same rfl rfl hs
  | cancelWithdraw =>
    have heq := cancelWithdraw_ok h
    subst heq
    exact solvent_of_same rfl rfl hs
  | _ =>
    obtain ⟨market, rfl, hbalances, -, -⟩ := administrative_ok h rfl
    exact solvent_of_same hbalances rfl hs

theorem marketStep_solvent {l : MarketLabel} (h : MarketStep env s l s')
    (hs : Solvent env s) : Solvent env s' := by
  cases h with
  | call blk caller c _ hcaller hexec =>
    have hkept := exec_solvent hexec hcaller hs
    exact hkept
  | elsewhere token subnets brainOwners distributor hkept => exact hs.trans hkept

/-- Every state of a run is solvent. -/
theorem marketRun_solvent {s₀ : MarketState T} {ls : List MarketLabel}
    (h₀ : MarketDeployed s₀.market) (h : Run (MarketStep env) s₀ ls s) : Solvent env s := by
  have hstart : Solvent env s₀ := by
    unfold Solvent
    rw [Finset.sum_eq_zero fun u _ => h₀.accounts.1 u]
    exact Nat.zero_le _
  exact h.invariant (I := Solvent env) marketStep_solvent hstart

end Steps

/-! ## What is owed is paid -/

section Covered

variable {blk : Block} {caller : Address}

theorem safeTransfer_covered (hlive : env.token.Live) {t : T} {recipient : Address}
    {amount : Nat} (hheld : amount ≤ env.token.balanceOf t env.self) (e : Revert) :
    safeTransfer env.token t env.self recipient amount ≠ .error e := by
  intro h
  have hmoves : ∃ t', safeTransfer env.token t env.self recipient amount = .ok t' :=
    hlive.safeTransfer hheld
  obtain ⟨t', ht'⟩ := hmoves
  rw [ht'] at h
  cases h

theorem recordFees_error {d : RewardDistributor} {brainId : BrainId} {amount : Nat} :
    d.recordFees caller brainId amount ≠ .error .safeERC20FailedOperation := by
  intro h
  unfold RewardDistributor.recordFees at h
  simp only [bind_error, revertIf_error, add256, checkedAdd_error, return_error, reduceCtorEq,
    and_false, exists_false, or_false] at h

/-- The owner's payment is not short of tokens that are held. -/
theorem payOwner_covered (hlive : env.token.Live) {owner : Address}
    {ownerAmount minerAmount : Nat} {t : T}
    (hheld : ownerAmount ≤ env.token.balanceOf t env.self) :
    payOwner env owner ownerAmount minerAmount t ≠ .error .safeERC20FailedOperation := by
  intro h
  unfold payOwner at h
  split at h
  · split at h
    · simp only [bind_error, return_error, and_false, exists_false, or_false] at h
      exact safeTransfer_covered hlive hheld _ h
    · simp only [bind_error, add256, checkedAdd_error, return_error, reduceCtorEq, and_false,
        exists_false, or_false] at h
  · exact return_error.mp h

theorem payValidators_covered (hlive : env.token.Live) {brainId : BrainId}
    {validatorAmount : Nat} {t : T} {d : RewardDistributor}
    (hheld : validatorAmount ≤ env.token.balanceOf t env.self) :
    payValidators env brainId validatorAmount t d ≠ .error .safeERC20FailedOperation := by
  intro h
  unfold payValidators at h
  split at h
  · simp only [bind_error, return_error, and_false, exists_false, or_false] at h
    rcases h with h | ⟨_, -, h⟩
    · exact safeTransfer_covered hlive hheld _ h
    · exact recordFees_error h
  · exact return_error.mp h

/-- **No settlement is short.** Splitting an amount the market holds never fails for
lack of tokens, whatever the split and whoever the three recipients are. -/
theorem settle_covered (hlive : env.token.Live) {brainId : BrainId} {miner : Address}
    {amount : Nat} (hheld : amount ≤ env.token.balanceOf s.token env.self) :
    settle env brainId miner amount s ≠ .error .safeERC20FailedOperation := by
  intro h
  unfold settle at h
  dsimp only at h
  split at h
  case isTrue hinactive =>
    simp only [bind_error, return_error, and_false, exists_false, or_false] at h
    exact safeTransfer_covered hlive hheld _ h
  case isFalse hactive =>
    simp only [bind_error, mul256, sub256, checkedMul_error, checkedSub_error, reduceCtorEq,
      and_false, false_or, return_error, exists_false, or_false, checkedMul_ok,
      checkedSub_ok] at h
    obtain ⟨_, ⟨-, rfl⟩, _, ⟨howner, rfl⟩, _, ⟨-, rfl⟩, _, ⟨hminer, rfl⟩, h⟩ := h
    -- each transfer finds at least what is still to be paid
    rcases h with h | ⟨⟨token₁, left⟩, hpaid, h⟩
    · exact payOwner_covered hlive (howner.trans hheld) h
    dsimp only at h
    have h₁ := payOwner_ok hpaid
    rcases h with h | ⟨⟨token₂, distributor⟩, hvalidators, h⟩
    · refine payValidators_covered hlive ?_ h
      have h₀ := payOwner_le hpaid
      omega
    dsimp only at h
    have h₂ := payValidators_ok hvalidators
    refine safeTransfer_covered hlive ?_ _ h
    omega

/-- A withdrawal that is due and worth something goes through. -/
theorem withdraw_succeeds (hlive : env.token.Live) (hs : Solvent env s)
    (hpending : (s.market.pendingWithdrawals caller).readyAt ≠ 0)
    (hready : (s.market.pendingWithdrawals caller).readyAt ≤ blk.timestamp)
    (hpayout : 0 < s.market.payout caller) :
    ∃ s', withdraw env blk caller s = .ok s' := by
  have hle : s.market.payout caller ≤ s.market.balances caller := min_le_right _ _
  have hamount : (if (s.market.pendingWithdrawals caller).amount < s.market.balances caller
      then (s.market.pendingWithdrawals caller).amount else s.market.balances caller) =
      s.market.payout caller := by
    unfold payout
    split <;> omega
  cases hexec : withdraw env blk caller s with
  | ok s' => exact ⟨s', rfl⟩
  | error e =>
    -- none of the lines can be the one that failed
    unfold withdraw at hexec
    simp only [hamount, bind_error, revertIf_error, sub256, checkedSub_error, checkedSub_ok,
      return_error, and_false, exists_false, or_false] at hexec
    rcases hexec with ⟨hzero, -⟩ | ⟨_, -, ⟨hearly, -⟩ | ⟨_, -, ⟨hnone, -⟩ | ⟨_, -,
      ⟨hshort, -⟩ | ⟨_, -, h⟩⟩⟩⟩
    · exact absurd hzero hpending
    · omega
    · omega
    · omega
    · exact absurd h (safeTransfer_covered hlive (hle.trans (hs.balance_le caller)) _)

/-- A redemption that passes its checks is not short of tokens. -/
theorem redeem_covered (hlive : env.token.Live) (hs : Solvent env s) {r : Receipt}
    {userSig : Bytes} (hchecks : redeemChecks env blk caller s.market r userSig = .ok ()) :
    redeem env blk caller r userSig s ≠ .error .safeERC20FailedOperation := by
  intro h
  obtain ⟨-, -, -, -, -, -, -, -, hle, -, -⟩ := redeemChecks_ok.mp hchecks
  unfold redeem at h
  rcases bind_error.mp h with hfail | ⟨_, -, h⟩
  · rw [hchecks] at hfail
    cases hfail
  rcases bind_error.mp h with hfail | ⟨left, -, h⟩
  · cases (checkedSub_error.mp hfail).2
  · refine settle_covered hlive ?_ h
    exact hle.trans (hs.balance_le r.user)

end Covered

/--
**Market solvency.** In every state the market can reach, by any calls of any
callers and whatever happens to the other contracts, the tokens it holds cover
the balances of all its users. So every withdrawal that is due goes through, and
no redemption that passes its checks is short of tokens, as long as the token
moves what is held.
-/
theorem market_solvency {s₀ : MarketState T} {ls : List MarketLabel}
    (h₀ : MarketDeployed s₀.market) (h : Run (MarketStep env) s₀ ls s) :
    ∑ u, s.market.balances u ≤ env.token.balanceOf s.token env.self ∧
    (env.token.Live → ∀ blk caller,
      (s.market.pendingWithdrawals caller).readyAt ≠ 0 →
      (s.market.pendingWithdrawals caller).readyAt ≤ blk.timestamp →
      0 < s.market.payout caller → ∃ s', withdraw env blk caller s = .ok s') ∧
    (env.token.Live → ∀ blk caller r userSig,
      redeemChecks env blk caller s.market r userSig = .ok () →
      redeem env blk caller r userSig s ≠ .error .safeERC20FailedOperation) := by
  have hs : Solvent env s := marketRun_solvent h₀ h
  exact ⟨hs, fun hlive blk caller => withdraw_succeeds hlive hs,
    fun hlive blk caller r userSig => redeem_covered hlive hs⟩

/-! ## A toy deployment -/

/-- A market at address 20 on the toy primitives, with its distributor at 21. -/
def toyMarket : MarketEnv Ledger where
  crypto := toyCrypto
  token := ledgerToken
  self := 20
  distributor := 21
  chainId := 1

/-- That market as deployed by account 9, with no active Brain. -/
def toyMarketStart : MarketState Ledger where
  now := 0
  token := toyLedger
  market := {
    paused := false
    maxReservation := 50
    pricePerByte := 1
    pricePerRequest := 0
    balances := fun _ => 0
    usedNonces := fun _ _ => false
    pendingWithdrawals := fun _ => ⟨0, 0⟩
    roles := .single .defaultAdmin 9 }
  subnets := .deploy
  brainOwners _ := none
  distributor := .deploy 9

theorem toyMarketStart_deployed : MarketDeployed toyMarketStart.market :=
  ⟨50, 1, 0, 9, rfl⟩

theorem toyMarket_receiptDigest (r : Receipt) : receiptDigest toyMarket r = r.nonce := by
  show toyCrypto.toEthSignedMessageHash (toyCrypto.keccak256 (receiptPreimage toyMarket r)) = _
  rw [toyCrypto_toEthSignedMessageHash]
  exact toyCrypto_keccak_abiEncode [_, _, _, _, _, _, _, _, _] r.nonce

theorem toyMarket_sentinel (r : Receipt) : sentinel toyMarket r = r.nonce :=
  toyCrypto_keccak _ r.nonce

/-- Account 2's receipt over 40 for miner 7, signed with nonce 3. -/
def toyReceipt : Receipt where
  user := 2
  miner := 7
  brainId := 3
  promptHash := 1
  responseHash := 5
  amount := 40
  expiry := 200
  nonce := 3

/-- The toy receipt, whatever its expiry, passes every check of a market that holds
its amount while it is in date. -/
theorem toyReceipt_checks {m : ComputeUnitMarket} {blk : Block} {expiry : Fin (2 ^ 64)}
    (hopen : m.paused = false) (hnonce : m.usedNonces 2 3 = false)
    (hbalance : 40 ≤ m.balances 2) (hexpiry : blk.timestamp ≤ expiry.val)
    (hlife : expiry.val ≤ blk.timestamp + MAX_RECEIPT_LIFETIME) :
    redeemChecks toyMarket blk 7 m { toyReceipt with expiry := expiry } [2, 3] = .ok () := by
  have hfits : blk.timestamp + MAX_RECEIPT_LIFETIME < 2 ^ 256 := by
    have hlt := blk.timestamp_lt
    unfold MAX_RECEIPT_LIFETIME
    omega
  have hresponse : (5 : Bytes32) ≠ 0 := by decide
  have hamount : (40 : Fin (2 ^ 256)).val ≠ 0 := by decide
  have hsentinel : (5 : Bytes32) ≠ 3 := by decide
  refine redeemChecks_ok.mpr ⟨hopen, hexpiry, hfits, hlife, hresponse, hamount, ?_, hnonce,
    hbalance, rfl, ?_⟩
  · -- it is a final receipt, so the reservation cap says nothing of it
    rw [toyMarket_sentinel]
    exact fun h => absurd h hsentinel
  · rw [toyMarket_receiptDigest]
    rfl

set_option maxRecDepth 4000 in
/-- Account 2 deposits 1000 and miner 7 redeems the receipt. -/
theorem market_solvency_redeem :
    ∃ s : MarketState Ledger, s.market.balances 2 = 960 ∧
      ∑ u, s.market.balances u ≤ toyMarket.token.balanceOf s.token toyMarket.self := by
  refine ⟨_, ?_, (@market_solvency Ledger toyMarket _ _ _ toyMarketStart_deployed
    (.cons (.call ⟨100, by decide⟩ 2 (.deposit 1000) (by decide) (by decide) rfl)
    (.cons (.call ⟨150, by decide⟩ 7 (.redeem toyReceipt [2, 3]) (by decide) (by decide)
      ((redeem_eq_settle
        (toyReceipt_checks rfl rfl (by decide) (by decide) (by decide))).trans rfl))
    (.nil _)))).1⟩
  rfl

end BasedAI
