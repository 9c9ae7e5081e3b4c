import BasedAI.Market.ComputeUnitMarket

/-!
# BasedAI — what a successful market call does

One lemma per entry point of `ComputeUnitMarket`, as for the other contracts, and
from them `exec_account`: everything a call can do to the account of one user.

* `settle_ok`        — a settlement spends at most the amount settled and leaves
  the market's own storage alone;
* `redeemChecks_ok`, `redeem_ok` — what a redemption has checked and written;
* `exec_account`     — the accounts a call moves, and how.
-/

namespace BasedAI

open Fallible Mapping

namespace ComputeUnitMarket

variable {T : Type} {env : MarketEnv T} {blk : Block} {caller : Address}
  {s s' : MarketState T}

@[simp] theorem whenNotPaused_ok {m : ComputeUnitMarket} {u : Unit} :
    m.whenNotPaused = .ok u ↔ m.paused = false := by
  simp [whenNotPaused]

/-! ## Settlement -/

/-- The owner's amount is paid out or added to the miner's. -/
theorem payOwner_ok {owner : Address} {ownerAmount minerAmount minerAmount' : Nat}
    {token token' : T}
    (h : payOwner env owner ownerAmount minerAmount token = .ok (token', minerAmount')) :
    env.token.balanceOf token env.self + minerAmount' ≤
      env.token.balanceOf token' env.self + minerAmount + ownerAmount := by
  unfold payOwner at h
  split at h
  case isTrue hpos =>
    split at h
    case isTrue howner =>
      simp only [bind_ok, return_ok, Prod.mk.injEq] at h
      obtain ⟨_, htransfer, rfl, rfl⟩ := h
      obtain ⟨-, hbal⟩ := safeTransfer_ok htransfer
      have hle := le_moved_add (env.token.balanceOf token) env.self owner env.self ownerAmount
      rw [hbal]
      omega
    -- without an owner its part goes to the miner
    case isFalse hnobody =>
      simp only [bind_ok, add256_ok, return_ok, Prod.mk.injEq] at h
      obtain ⟨_, ⟨-, rfl⟩, rfl, rfl⟩ := h
      omega
  case isFalse hzero =>
    simp only [return_ok, Prod.mk.injEq] at h
    obtain ⟨rfl, rfl⟩ := h
    omega

/-- The miner's amount only grows by what the owner does not get. -/
theorem payOwner_le {owner : Address} {ownerAmount minerAmount minerAmount' : Nat}
    {token token' : T}
    (h : payOwner env owner ownerAmount minerAmount token = .ok (token', minerAmount')) :
    minerAmount ≤ minerAmount' ∧ minerAmount' ≤ minerAmount + ownerAmount := by
  unfold payOwner at h
  split at h
  · split at h
    · simp only [bind_ok, return_ok, Prod.mk.injEq] at h
      obtain ⟨_, -, -, rfl⟩ := h
      omega
    · simp only [bind_ok, add256_ok, return_ok, Prod.mk.injEq] at h
      obtain ⟨_, ⟨-, rfl⟩, -, rfl⟩ := h
      omega
  · simp only [return_ok, Prod.mk.injEq] at h
    obtain ⟨-, rfl⟩ := h
    omega

theorem payValidators_ok {brainId : BrainId} {validatorAmount : Nat} {token token' : T}
    {d d' : RewardDistributor}
    (h : payValidators env brainId validatorAmount token d = .ok (token', d')) :
    env.token.balanceOf token env.self ≤
      env.token.balanceOf token' env.self + validatorAmount := by
  unfold payValidators at h
  split at h
  case isTrue hpos =>
    simp only [bind_ok, return_ok, Prod.mk.injEq] at h
    obtain ⟨_, htransfer, _, -, rfl, -⟩ := h
    obtain ⟨-, hbal⟩ := safeTransfer_ok htransfer
    rw [hbal]
    exact le_moved_add _ _ _ _ _
  case isFalse hzero =>
    simp only [return_ok, Prod.mk.injEq] at h
    obtain ⟨rfl, -⟩ := h
    exact Nat.le_add_right _ _

/-- A settlement writes the token and the distributor only, and spends at most the
amount settled. -/
theorem settle_ok {brainId : BrainId} {miner : Address} {amount : Nat}
    (h : settle env brainId miner amount s = .ok s') :
    ∃ token distributor, s' = { s with token := token, distributor := distributor } ∧
      env.token.balanceOf s.token env.self ≤ env.token.balanceOf token env.self + amount := by
  unfold settle at h
  dsimp only at h
  split at h
  case isTrue hinactive =>
    simp only [bind_ok, return_ok] at h
    obtain ⟨token, htransfer, rfl⟩ := h
    obtain ⟨-, hbal⟩ := safeTransfer_ok htransfer
    refine ⟨token, s.distributor, rfl, ?_⟩
    rw [hbal]
    exact le_moved_add _ _ _ _ _
  case isFalse hactive =>
    simp only [bind_ok, mul256_ok, sub256_ok, return_ok] at h
    obtain ⟨_, ⟨-, rfl⟩, _, ⟨howner, rfl⟩, _, ⟨-, rfl⟩, _, ⟨hminer, rfl⟩, ⟨token₁, left⟩,
      hpaid, ⟨token₂, distributor⟩, hvalidators, token, htransfer, rfl⟩ := h
    dsimp only at hvalidators htransfer
    refine ⟨token, distributor, rfl, ?_⟩
    -- the three parts of the split add up to the amount
    have h₁ := payOwner_ok hpaid
    have h₂ := payValidators_ok hvalidators
    obtain ⟨-, hbal⟩ := safeTransfer_ok htransfer
    have h₃ := le_moved_add (env.token.balanceOf token₂) env.self miner env.self left
    rw [← hbal] at h₃
    omega

/-! ## The validators' share -/

/-- The validators' part of a settlement of `amount`. -/
def validatorShare (sn : Subnet) (amount : Nat) : Nat :=
  let nodeShare := amount - amount * sn.ownerSplitBps.val / BPS_DENOMINATOR
  nodeShare - nodeShare * sn.minerShareBps.val / BPS_DENOMINATOR

/-- Paying the owner takes from nobody but the market. -/
theorem payOwner_other {owner a : Address} {ownerAmount minerAmount minerAmount' : Nat}
    {token token' : T} (ha : a ≠ env.self)
    (h : payOwner env owner ownerAmount minerAmount token = .ok (token', minerAmount')) :
    env.token.balanceOf token a ≤ env.token.balanceOf token' a ∧
      (a ≠ owner → env.token.balanceOf token' a = env.token.balanceOf token a) := by
  unfold payOwner at h
  split at h
  · split at h
    · simp only [bind_ok, return_ok, Prod.mk.injEq] at h
      obtain ⟨_, htransfer, rfl, -⟩ := h
      -- only here does a token move, and it leaves the market
      obtain ⟨-, hbal⟩ := safeTransfer_ok htransfer
      rw [hbal, moved_other _ _ ha]
      refine ⟨Nat.le_add_right _ _, fun howner => ?_⟩
      rw [if_neg howner, Nat.add_zero]
    · simp only [bind_ok, return_ok, Prod.mk.injEq] at h
      obtain ⟨_, -, rfl, -⟩ := h
      exact ⟨le_rfl, fun _ => rfl⟩
  · simp only [return_ok, Prod.mk.injEq] at h
    obtain ⟨rfl, -⟩ := h
    exact ⟨le_rfl, fun _ => rfl⟩

/-- The validators' amount goes to the distributor and into its books, both or neither. -/
theorem payValidators_fees {brainId : BrainId} {validatorAmount : Nat} {token token' : T}
    {d d' : RewardDistributor}
    (h : payValidators env brainId validatorAmount token d = .ok (token', d')) :
    d' = { d with
        pendingValidatorFees := set d.pendingValidatorFees brainId
          (d.pendingValidatorFees brainId + validatorAmount) } ∧
      ∀ a, a ≠ env.self → env.token.balanceOf token' a =
        env.token.balanceOf token a + if a = env.distributor then validatorAmount else 0 := by
  unfold payValidators at h
  split at h
  case isTrue hpos =>
    simp only [bind_ok, return_ok, Prod.mk.injEq] at h
    obtain ⟨_, htransfer, _, hrecord, rfl, rfl⟩ := h
    obtain ⟨-, hbal⟩ := safeTransfer_ok htransfer
    obtain ⟨-, -, rfl⟩ := RewardDistributor.recordFees_ok hrecord
    refine ⟨rfl, fun a ha => ?_⟩
    rw [hbal, moved_other _ _ ha]
  -- no amount, no call: the books are as they were
  case isFalse hzero =>
    simp only [return_ok, Prod.mk.injEq] at h
    obtain ⟨rfl, rfl⟩ := h
    have hnone : validatorAmount = 0 := by omega
    subst hnone
    refine ⟨?_, fun a _ => ?_⟩
    · rw [Nat.add_zero, set_self]
    · rw [ite_self, Nat.add_zero]

/-- **What a settlement accrues.** On an active Brain the validators' share, which the
distributor also receives, and on an inactive one nothing; and nobody but the market
loses tokens. -/
theorem settle_fees {brainId : BrainId} {miner : Address} {amount : Nat}
    (h : settle env brainId miner amount s = .ok s') :
    ∃ token fee,
      s' = { s with
        token := token
        distributor := { s.distributor with
          pendingValidatorFees := set s.distributor.pendingValidatorFees brainId
            (s.distributor.pendingValidatorFees brainId + fee) } } ∧
      fee = (if (s.subnets.getSubnet s.brainOwners brainId).active then
        validatorShare (s.subnets.getSubnet s.brainOwners brainId) amount else 0) ∧
      (∀ a, a ≠ env.self → env.token.balanceOf s.token a +
        (if a = env.distributor then fee else 0) ≤ env.token.balanceOf token a) ∧
      (env.distributor ≠ env.self → env.distributor ≠ miner →
        env.distributor ≠ (s.subnets.getSubnet s.brainOwners brainId).owner →
        env.token.balanceOf token env.distributor =
          env.token.balanceOf s.token env.distributor + fee) := by
  unfold settle at h
  dsimp only at h
  split at h
  case isTrue hinactive =>
    simp only [bind_ok, return_ok] at h
    obtain ⟨token, htransfer, rfl⟩ := h
    obtain ⟨-, hbal⟩ := safeTransfer_ok htransfer
    refine ⟨token, 0, ?_, ?_, fun a ha => ?_, fun hself hminer _ => ?_⟩
    · rw [Nat.add_zero, set_self]
    · rw [if_neg (by rw [hinactive]; exact Bool.false_ne_true)]
    · rw [hbal, ite_self, moved_other _ _ ha]
      exact Nat.le_add_right _ _
    · rw [hbal, moved_other _ _ hself, if_neg hminer]
  case isFalse hactive =>
    simp only [bind_ok, mul256_ok, sub256_ok, return_ok] at h
    obtain ⟨_, ⟨-, rfl⟩, _, ⟨-, rfl⟩, _, ⟨-, rfl⟩, _, ⟨-, rfl⟩, ⟨token₁, left⟩, hpaid,
      ⟨token₂, distributor⟩, hvalidators, token, htransfer, rfl⟩ := h
    dsimp only at hvalidators htransfer
    obtain ⟨rfl, hfee⟩ := payValidators_fees hvalidators
    obtain ⟨-, hbal⟩ := safeTransfer_ok htransfer
    refine ⟨token, _, rfl, ?_, fun a ha => ?_, fun hself hminer howner => ?_⟩
    · rw [if_pos (Bool.not_eq_false _ ▸ hactive)]
      rfl
    · -- the owner first, then the distributor, then the miner
      have howner := (payOwner_other ha hpaid).1
      rw [hbal, moved_other _ _ ha, hfee a ha]
      omega
    · rw [hbal, moved_other _ _ hself, if_neg hminer, hfee _ hself, if_pos rfl,
        (payOwner_other hself hpaid).2 howner]
      rfl

/-! ## Entry points -/

theorem deposit_ok {amount : Nat} (h : deposit env caller amount s = .ok s') :
    s.market.paused = false ∧ 0 < amount ∧ ∃ token,
      safeTransferFrom env.token s.token env.self caller env.self amount = .ok token ∧
      s' = { s with
        token := token
        market := { s.market with
          balances := set s.market.balances caller (s.market.balances caller + amount) } } := by
  unfold deposit at h
  simp only [bind_ok, whenNotPaused_ok, revertIf_ok, add256_ok, return_ok] at h
  obtain ⟨_, hopen, _, hpos, token, htoken, _, ⟨-, rfl⟩, rfl⟩ := h
  exact ⟨hopen, Nat.pos_of_ne_zero hpos, token, htoken, rfl⟩

theorem requestWithdraw_ok {amount : Nat} (h : requestWithdraw blk caller amount s = .ok s') :
    0 < amount ∧ amount ≤ s.market.balances caller ∧
      s' = { s with market := { s.market with
        pendingWithdrawals := set s.market.pendingWithdrawals caller
          ⟨amount, blk.timestamp + WITHDRAW_DELAY⟩ } } := by
  unfold requestWithdraw at h
  simp only [bind_ok, revertIf_ok, add64_ok, return_ok, uint64_timestamp, not_lt] at h
  obtain ⟨_, hpos, _, hle, _, ⟨-, rfl⟩, rfl⟩ := h
  exact ⟨Nat.pos_of_ne_zero hpos, hle, rfl⟩

theorem cancelWithdraw_ok (h : cancelWithdraw caller s = .ok s') :
    s' = { s with market := { s.market with
      pendingWithdrawals := set s.market.pendingWithdrawals caller ⟨0, 0⟩ } } := by
  unfold cancelWithdraw at h
  simp only [bind_ok, revertIf_ok, return_ok] at h
  obtain ⟨_, -, rfl⟩ := h
  rfl

/-- What a withdrawal pays. -/
def payout (m : ComputeUnitMarket) (user : Address) : Nat :=
  min (m.pendingWithdrawals user).amount (m.balances user)

theorem withdraw_ok (h : withdraw env blk caller s = .ok s') :
    (s.market.pendingWithdrawals caller).readyAt ≠ 0 ∧
      (s.market.pendingWithdrawals caller).readyAt ≤ blk.timestamp ∧
      0 < s.market.payout caller ∧ ∃ token,
      safeTransfer env.token s.token env.self caller (s.market.payout caller) = .ok token ∧
      s' = { s with
        token := token
        market := { s.market with
          pendingWithdrawals := set s.market.pendingWithdrawals caller ⟨0, 0⟩
          balances := set s.market.balances caller
            (s.market.balances caller - s.market.payout caller) } } := by
  unfold withdraw at h
  -- what the code pays is the smaller of the two
  have hpayout : (if (s.market.pendingWithdrawals caller).amount < s.market.balances caller
      then (s.market.pendingWithdrawals caller).amount else s.market.balances caller) =
      s.market.payout caller := by
    unfold payout
    split <;> omega
  simp only [bind_ok, revertIf_ok, sub256_ok, return_ok, hpayout, not_lt] at h
  obtain ⟨_, hpending, _, hready, _, hpos, _, ⟨-, rfl⟩, token, htoken, rfl⟩ := h
  exact ⟨hpending, hready, Nat.pos_of_ne_zero hpos, token, htoken, rfl⟩

/-- A redemption's checks, as one condition. -/
theorem redeemChecks_ok {m : ComputeUnitMarket} {r : Receipt} {userSig : Bytes} {u : Unit} :
    redeemChecks env blk caller m r userSig = .ok u ↔
      m.paused = false ∧ blk.timestamp ≤ r.expiry.val ∧
      blk.timestamp + MAX_RECEIPT_LIFETIME < 2 ^ 256 ∧
      r.expiry.val ≤ blk.timestamp + MAX_RECEIPT_LIFETIME ∧ r.responseHash ≠ 0 ∧
      r.amount.val ≠ 0 ∧
      (r.responseHash = sentinel env r → r.amount.val ≤ m.maxReservation) ∧
      m.usedNonces r.user r.nonce = false ∧ r.amount.val ≤ m.balances r.user ∧
      caller = r.miner ∧ env.crypto.recover (receiptDigest env r) userSig = some r.user := by
  unfold redeemChecks
  simp only [bind_ok, whenNotPaused_ok, revertIf_ok, add256_ok, orRevert_ok, not_lt, not_and,
    Bool.not_eq_true, not_not, exists_const]
  -- the conditions, in the order in which the code checks them
  constructor
  · rintro ⟨hopen, hexpiry, _, ⟨hfits, rfl⟩, hlife, hresponse, hamount, hcap, hnonce, hbal,
      hminer, _, hrecover, rfl⟩
    exact ⟨hopen, hexpiry, hfits, hlife, hresponse, hamount, hcap, hnonce, hbal, hminer,
      hrecover⟩
  · rintro ⟨hopen, hexpiry, hfits, hlife, hresponse, hamount, hcap, hnonce, hbal, hminer,
      hrecover⟩
    exact ⟨hopen, hexpiry, _, ⟨hfits, rfl⟩, hlife, hresponse, hamount, hcap, hnonce, hbal,
      hminer, _, hrecover, rfl⟩

theorem redeem_ok {r : Receipt} {userSig : Bytes}
    (h : redeem env blk caller r userSig s = .ok s') :
    redeemChecks env blk caller s.market r userSig = .ok () ∧ ∃ token distributor,
      s' = { s with
        token := token
        market := s.market.debited r (s.market.balances r.user - r.amount.val)
        distributor := distributor } ∧
      env.token.balanceOf s.token env.self ≤
        env.token.balanceOf token env.self + r.amount.val := by
  unfold redeem at h
  simp only [bind_ok, sub256_ok] at h
  obtain ⟨_, hchecks, _, ⟨-, rfl⟩, hsettle⟩ := h
  obtain ⟨token, distributor, rfl, hspent⟩ := settle_ok hsettle
  exact ⟨hchecks, token, distributor, rfl, hspent⟩

/-- A redemption whose checks pass is its settlement. -/
theorem redeem_eq_settle {r : Receipt} {userSig : Bytes}
    (hchecks : redeemChecks env blk caller s.market r userSig = .ok ()) :
    redeem env blk caller r userSig s = settle env r.brainId r.miner r.amount.val
      { s with market := s.market.debited r (s.market.balances r.user - r.amount.val) } := by
  obtain ⟨-, -, -, -, -, -, -, -, hle, -, -⟩ := redeemChecks_ok.mp hchecks
  unfold redeem
  rw [hchecks, sub256, checkedSub_eq hle]
  rfl

end ComputeUnitMarket

open ComputeUnitMarket

/-! ## One account -/

/-- What a call `c` of `caller` in block `blk` can do to the account of `user`:
nothing, or what the one entry point it went through does. -/
inductive AccountMove {T : Type} (env : MarketEnv T) (blk : Block) (caller : Address)
    (m m' : ComputeUnitMarket) (user : Address) : MarketCall → Prop
  | untouched {c : MarketCall} : m'.balances user = m.balances user →
      m'.usedNonces user = m.usedNonces user →
      m'.pendingWithdrawals user = m.pendingWithdrawals user →
      AccountMove env blk caller m m' user c
  | deposit (amount : Nat) : caller = user → m'.balances user = m.balances user + amount →
      m'.usedNonces user = m.usedNonces user →
      m'.pendingWithdrawals user = m.pendingWithdrawals user →
      AccountMove env blk caller m m' user (.deposit amount)
  | request (amount : Nat) : caller = user → amount ≤ m.balances user →
      m'.balances user = m.balances user → m'.usedNonces user = m.usedNonces user →
      m'.pendingWithdrawals user = ⟨amount, blk.timestamp + WITHDRAW_DELAY⟩ →
      AccountMove env blk caller m m' user (.requestWithdraw amount)
  | cancel : caller = user → m'.balances user = m.balances user →
      m'.usedNonces user = m.usedNonces user → m'.pendingWithdrawals user = ⟨0, 0⟩ →
      AccountMove env blk caller m m' user .cancelWithdraw
  | withdraw : caller = user → (m.pendingWithdrawals user).readyAt ≠ 0 →
      (m.pendingWithdrawals user).readyAt ≤ blk.timestamp →
      m'.balances user = m.balances user - m.payout user →
      m'.usedNonces user = m.usedNonces user → m'.pendingWithdrawals user = ⟨0, 0⟩ →
      AccountMove env blk caller m m' user .withdraw
  | redeem (r : Receipt) (userSig : Bytes) : r.user = user →
      redeemChecks env blk caller m r userSig = .ok () →
      m'.balances user = m.balances user - r.amount.val →
      m'.usedNonces user = set (m.usedNonces user) r.nonce true →
      m'.pendingWithdrawals user = m.pendingWithdrawals user →
      AccountMove env blk caller m m' user (.redeem r userSig)

/-- The calls that change settings and roles only. -/
def MarketCall.administrative : MarketCall → Bool
  | .pause => true
  | .unpause => true
  | .setMaxReservation _ => true
  | .setPricing _ _ => true
  | .grantRole _ _ => true
  | .revokeRole _ _ => true
  | .renounceRole _ _ => true
  | _ => false

/-- A change of roles touches no other storage. -/
theorem marketWithRoles_ok {T : Type} {s s' : MarketState T}
    {x : Exec (AccessControl MarketRole)} (h : s.withRoles <$> x = .ok s') :
    ∃ roles, s' = s.withRoles roles := by
  cases x with
  | error e => cases h
  | ok roles =>
    cases h
    exact ⟨roles, rfl⟩

section Accounts

variable {T : Type} {env : MarketEnv T} {blk : Block} {caller : Address}
  {s s' : MarketState T} {c : MarketCall}

/-- Such a call touches neither other storage than the market's nor any account. -/
theorem administrative_ok (h : c.exec env blk caller s = .ok s')
    (hc : c.administrative = true) :
    ∃ market, s' = { s with market := market } ∧ market.balances = s.market.balances ∧
      market.usedNonces = s.market.usedNonces ∧
      market.pendingWithdrawals = s.market.pendingWithdrawals := by
  -- each writes a field of the market that no account is kept in
  cases c with
  | pause =>
    simp only [MarketCall.exec, pause, bind_ok, return_ok] at h
    obtain ⟨_, -, _, -, rfl⟩ := h
    exact ⟨_, rfl, rfl, rfl, rfl⟩
  | unpause =>
    simp only [MarketCall.exec, unpause, bind_ok, return_ok] at h
    obtain ⟨_, -, _, -, rfl⟩ := h
    exact ⟨_, rfl, rfl, rfl, rfl⟩
  | setMaxReservation newMax =>
    simp only [MarketCall.exec, setMaxReservation, bind_ok, return_ok] at h
    obtain ⟨_, -, rfl⟩ := h
    exact ⟨_, rfl, rfl, rfl, rfl⟩
  | setPricing perByte perRequest =>
    simp only [MarketCall.exec, setPricing, bind_ok, return_ok] at h
    obtain ⟨_, -, _, -, rfl⟩ := h
    exact ⟨_, rfl, rfl, rfl, rfl⟩
  | grantRole role account =>
    obtain ⟨roles, rfl⟩ := marketWithRoles_ok h
    exact ⟨_, rfl, rfl, rfl, rfl⟩
  | revokeRole role account =>
    obtain ⟨roles, rfl⟩ := marketWithRoles_ok h
    exact ⟨_, rfl, rfl, rfl, rfl⟩
  | renounceRole role confirmation =>
    obtain ⟨roles, rfl⟩ := marketWithRoles_ok h
    exact ⟨_, rfl, rfl, rfl, rfl⟩
  | _ => cases hc

/-- **One call, one account.** -/
theorem exec_account (h : c.exec env blk caller s = .ok s') (user : Address) :
    AccountMove env blk caller s.market s'.market user c := by
  cases c with
  | deposit amount =>
    obtain ⟨-, -, token, -, rfl⟩ := deposit_ok h
    by_cases huser : user = caller
    · subst huser
      exact .deposit amount rfl (set_same _ _ _) rfl rfl
    · exact .untouched (set_of_ne _ _ huser) rfl rfl
  | requestWithdraw amount =>
    obtain ⟨-, hle, rfl⟩ := requestWithdraw_ok h
    by_cases huser : user = caller
    · subst huser
      exact .request amount rfl hle rfl rfl (set_same _ _ _)
    · exact .untouched rfl rfl (set_of_ne _ _ huser)
  | cancelWithdraw =>
    have heq := cancelWithdraw_ok h
    subst heq
    by_cases huser : user = caller
    · subst huser
      exact .cancel rfl rfl rfl (set_same _ _ _)
    · exact .untouched rfl rfl (set_of_ne _ _ huser)
  | withdraw =>
    obtain ⟨hpending, hready, -, token, -, rfl⟩ := withdraw_ok h
    by_cases huser : user = caller
    · subst huser
      exact .withdraw rfl hpending hready (set_same _ _ _) rfl (set_same _ _ _)
    · exact .untouched (set_of_ne _ _ huser) rfl (set_of_ne _ _ huser)
  | redeem r userSig =>
    obtain ⟨hchecks, token, distributor, rfl, -⟩ := redeem_ok h
    by_cases huser : user = r.user
    · subst huser
      refine .redeem r userSig rfl hchecks (set_same _ _ _) ?_ rfl
      dsimp only [debited]
      rw [set₂_row, if_pos rfl]
    · refine .untouched (set_of_ne _ _ huser) ?_ rfl
      dsimp only [debited]
      rw [set₂_row, if_neg huser]
  | _ =>
    -- the administrator's calls leave the accounts alone
    obtain ⟨market, rfl, hbalances, hnonces, hpending⟩ := administrative_ok h rfl
    exact .untouched (congrFun hbalances user) (congrFun hnonces user) (congrFun hpending user)

end Accounts

/-! ## The distributor's books -/

/-- What a call of `caller` does outside the market: it accrues `fee` for the Brain `b`,
which the distributor also receives, and takes tokens from nobody but the caller and the
market. -/
structure Accrued {T : Type} (env : MarketEnv T) (caller : Address) (b : BrainId) (fee : Nat)
    (s s' : MarketState T) : Prop where
  fees : s'.distributor = { s.distributor with
    pendingValidatorFees := set s.distributor.pendingValidatorFees b
      (s.distributor.pendingValidatorFees b + fee) }
  subnets : s'.subnets = s.subnets
  brainOwners : s'.brainOwners = s.brainOwners
  balance : ∀ a, a ≠ env.self → a ≠ caller → env.token.balanceOf s.token a +
    (if a = env.distributor then fee else 0) ≤ env.token.balanceOf s'.token a

section Fees

variable {T : Type} {env : MarketEnv T} {blk : Block} {caller : Address}
  {s s' : MarketState T} {c : MarketCall}

/-- A call that leaves the other contracts alone accrues nothing. -/
theorem accrued_none {token : T} {market : ComputeUnitMarket}
    (hbal : ∀ a, a ≠ env.self → a ≠ caller →
      env.token.balanceOf s.token a ≤ env.token.balanceOf token a) :
    Accrued env caller 0 0 s { s with token := token, market := market } where
  fees := by
    dsimp only
    rw [Nat.add_zero, set_self]
  subnets := rfl
  brainOwners := rfl
  balance a ha hcaller := by
    rw [ite_self, Nat.add_zero]
    exact hbal a ha hcaller

theorem exec_accrued (h : c.exec env blk caller s = .ok s') :
    ∃ b fee, Accrued env caller b fee s s' := by
  cases c with
  | deposit amount =>
    obtain ⟨-, -, token, htoken, rfl⟩ := deposit_ok h
    obtain ⟨-, hbal⟩ := safeTransferFrom_ok htoken
    refine ⟨0, 0, accrued_none fun a _ hcaller => ?_⟩
    rw [hbal]
    exact le_moved _ _ hcaller
  | requestWithdraw amount =>
    obtain ⟨-, -, rfl⟩ := requestWithdraw_ok h
    exact ⟨0, 0, accrued_none fun _ _ _ => le_rfl⟩
  | cancelWithdraw =>
    have heq := cancelWithdraw_ok h
    subst heq
    exact ⟨0, 0, accrued_none fun _ _ _ => le_rfl⟩
  | withdraw =>
    obtain ⟨-, -, -, token, htoken, rfl⟩ := withdraw_ok h
    obtain ⟨-, hbal⟩ := safeTransfer_ok htoken
    refine ⟨0, 0, accrued_none fun a ha _ => ?_⟩
    rw [hbal]
    exact le_moved _ _ ha
  | redeem r userSig =>
    obtain ⟨hchecks, -⟩ := redeem_ok h
    -- the only call that pays a fee
    have hsettle := redeem_eq_settle hchecks
    have hexec : settle env r.brainId r.miner r.amount.val
        { s with market := s.market.debited r (s.market.balances r.user - r.amount.val) } =
          .ok s' := hsettle ▸ h
    obtain ⟨token, fee, rfl, -, hbal, -⟩ := settle_fees hexec
    exact ⟨r.brainId, fee, rfl, rfl, rfl, fun a ha _ => hbal a ha⟩
  | _ =>
    obtain ⟨market, rfl, -, -, -⟩ := administrative_ok h rfl
    exact ⟨0, 0, accrued_none fun _ _ _ => le_rfl⟩

end Fees

end BasedAI
