import BasedAI.Market.Solvency

/-!
# BasedAI — receipts redeemed one after the other

Receipts that could each be redeemed now need not all be redeemable: two may spend the
same nonce, and together they may ask for more than a user has. Nothing else stands in
their way, since a redemption leaves the market able to settle the next.

* `redeem_again`   — what a redemption needs that could have been made earlier;
* `redeemAll_iff`  — when a batch is redeemed in order.
-/

namespace BasedAI

open Fallible Mapping ComputeUnitMarket

variable {T : Type} {env : MarketEnv T} {blk : Block} {caller : Address}
  {s s' t t' : MarketState T}

/-- A transfer that was possible is possible again while the sender has the tokens. -/
def Token.Steady (tok : Token T) : Prop :=
  ∀ t t' caller recipient amount moved, tok.transfer t caller recipient amount = some moved →
    amount ≤ tok.balanceOf t' caller →
      ∃ moved', tok.transfer t' caller recipient amount = some moved'

theorem ledgerToken_steady : ledgerToken.Steady :=
  fun _ t' caller recipient amount _ _ h => ledgerToken_live t' caller recipient amount h

theorem Token.Steady.safeTransfer (hsteady : env.token.Steady) {t t' moved : T}
    {recipient : Address} {amount : Nat}
    (h : BasedAI.safeTransfer env.token t env.self recipient amount = .ok moved)
    (hheld : amount ≤ env.token.balanceOf t' env.self) :
    ∃ moved', BasedAI.safeTransfer env.token t' env.self recipient amount = .ok moved' := by
  obtain ⟨moved', hmoved⟩ := hsteady t t' _ _ _ _ (orRevert_ok.mp h) hheld
  exact ⟨moved', orRevert_ok.mpr hmoved⟩

/-- The balances are covered, and with the fees the distributor owes they fit a word, as
the supply of the token does. -/
structure Funded (env : MarketEnv T) (s : MarketState T) : Prop where
  solvent : Solvent env s
  words : ∀ b, s.distributor.pendingValidatorFees b + ∑ u, s.market.balances u < 2 ^ 256

/-! ## Settling again -/

section Settle

variable {brainId : BrainId} {amount : Nat}

theorem payOwner_again (hsteady : env.token.Steady) {owner : Address}
    {ownerAmount minerAmount minerAmount' : Nat} {t t' moved : T}
    (h : payOwner env owner ownerAmount minerAmount t = .ok (moved, minerAmount'))
    (hheld : ownerAmount ≤ env.token.balanceOf t' env.self) :
    ∃ moved', payOwner env owner ownerAmount minerAmount t' = .ok (moved', minerAmount') := by
  unfold payOwner at h ⊢
  split at h
  · rename_i hpos
    rw [if_pos hpos]
    split at h
    · rename_i howner
      rw [if_pos howner]
      simp only [bind_ok, return_ok, Prod.mk.injEq] at h ⊢
      obtain ⟨_, htransfer, -, rfl⟩ := h
      -- a steady token moves what is held, whatever came before
      obtain ⟨moved', hmoved⟩ := hsteady.safeTransfer htransfer hheld
      exact ⟨moved', moved', hmoved, rfl, rfl⟩
    · rename_i hnobody
      rw [if_neg hnobody]
      simp only [bind_ok, return_ok, Prod.mk.injEq] at h ⊢
      obtain ⟨left, hadd, -, rfl⟩ := h
      exact ⟨t', left, hadd, rfl, rfl⟩
  · rename_i hzero
    rw [if_neg hzero]
    simp only [return_ok, Prod.mk.injEq] at h ⊢
    exact ⟨t', rfl, h.2⟩

theorem payValidators_again (hsteady : env.token.Steady) {validatorAmount : Nat} {t t' : T}
    {d d' : RewardDistributor} {paid : T × RewardDistributor}
    (h : payValidators env brainId validatorAmount t d = .ok paid)
    (hroles : d'.roles = d.roles)
    (hheld : validatorAmount ≤ env.token.balanceOf t' env.self)
    (hwords : d'.pendingValidatorFees brainId + validatorAmount < 2 ^ 256) :
    ∃ paid', payValidators env brainId validatorAmount t' d' = .ok paid' := by
  unfold payValidators at h ⊢
  split at h
  · rename_i hpos
    rw [if_pos hpos]
    simp only [bind_ok, return_ok] at h ⊢
    obtain ⟨_, htransfer, _, hrecord, -⟩ := h
    obtain ⟨moved', hmoved⟩ := hsteady.safeTransfer htransfer hheld
    obtain ⟨hrole, hamount, -⟩ := RewardDistributor.recordFees_ok hrecord
    -- the books have room for it, and the role is the same
    have hrecord' : d'.recordFees env.self brainId validatorAmount = .ok { d' with
        pendingValidatorFees := set d'.pendingValidatorFees brainId
          (d'.pendingValidatorFees brainId + validatorAmount) } := by
      unfold RewardDistributor.recordFees
      rw [hroles, revertIf_neg (by rw [hrole]; decide), revertIf_neg (by omega), add256,
        checkedAdd_eq hwords]
      rfl
    exact ⟨_, moved', hmoved, _, hrecord', rfl⟩
  · rename_i hzero
    rw [if_neg hzero]
    exact ⟨_, rfl⟩

/-- A settlement that was possible is possible again while the tokens are there. -/
theorem settle_again (hsteady : env.token.Steady) {miner : Address}
    (h : settle env brainId miner amount s = .ok s') (hsubnets : t.subnets = s.subnets)
    (howners : t.brainOwners = s.brainOwners) (hroles : t.distributor.roles = s.distributor.roles)
    (hheld : amount ≤ env.token.balanceOf t.token env.self)
    (hwords : t.distributor.pendingValidatorFees brainId + amount < 2 ^ 256) :
    ∃ t', settle env brainId miner amount t = .ok t' := by
  unfold settle at h ⊢
  rw [hsubnets, howners]
  dsimp only at h ⊢
  split at h
  · rename_i hinactive
    rw [if_pos hinactive]
    simp only [bind_ok, return_ok] at h ⊢
    obtain ⟨_, htransfer, -⟩ := h
    obtain ⟨moved', hmoved⟩ := hsteady.safeTransfer htransfer hheld
    exact ⟨_, moved', hmoved, rfl⟩
  · rename_i hactive
    rw [if_neg hactive]
    simp only [bind_ok, return_ok] at h ⊢
    obtain ⟨ownerProduct, howner, nodeShare, hnode, minerProduct, hminer, validatorAmount,
      hvalidator, ⟨token₁, left⟩, hpaid, ⟨token₂, distributor⟩, hvalidators, token, htransfer,
      -⟩ := h
    -- every part is within the amount, so it is there when its turn comes
    have hnodeLe := sub256_ok.mp hnode
    have hvalidatorLe := sub256_ok.mp hvalidator
    have hle := payOwner_le hpaid
    obtain ⟨moved₁, hpaid'⟩ := payOwner_again hsteady hpaid
      (show _ ≤ env.token.balanceOf t.token env.self by omega)
    have hleft₁ := payOwner_ok hpaid'
    obtain ⟨⟨moved₂, distributor'⟩, hvalidators'⟩ :=
      @payValidators_again _ env brainId hsteady _ _ moved₁ _ t.distributor _ hvalidators hroles
        (by omega) (by omega)
    have hleft₂ := payValidators_ok hvalidators'
    obtain ⟨moved₃, htransfer'⟩ := hsteady.safeTransfer htransfer
      (show _ ≤ env.token.balanceOf moved₂ env.self by dsimp only; omega)
    exact ⟨_, ownerProduct, howner, nodeShare, hnode, minerProduct, hminer, validatorAmount,
      hvalidator, (moved₁, left), hpaid', (moved₂, distributor'), hvalidators', moved₃,
      htransfer', rfl⟩

end Settle

/-! ## One redemption after others -/

/-- The market `t` is `s` after some redemptions: only balances and nonces have changed,
and what the settlements moved. -/
structure RedeemedSince (s t : MarketState T) : Prop where
  paused : t.market.paused = s.market.paused
  maxReservation : t.market.maxReservation = s.market.maxReservation
  subnets : t.subnets = s.subnets
  brainOwners : t.brainOwners = s.brainOwners
  roles : t.distributor.roles = s.distributor.roles

section Redeem

variable {r : Receipt} {userSig : Bytes}

/-- What a redemption writes. -/
theorem redeem_written (h : redeem env blk caller r userSig s = .ok s') :
    s'.market = s.market.debited r (s.market.balances r.user - r.amount.val) ∧
      RedeemedSince s s' := by
  obtain ⟨hchecks, -⟩ := redeem_ok h
  rw [redeem_eq_settle hchecks] at h
  obtain ⟨token, fee, rfl, -⟩ := settle_fees h
  exact ⟨rfl, rfl, rfl, rfl, rfl, rfl⟩

theorem RedeemedSince.trans (h : RedeemedSince s t) (h' : RedeemedSince t t') :
    RedeemedSince s t' where
  paused := h'.paused.trans h.paused
  maxReservation := h'.maxReservation.trans h.maxReservation
  subnets := h'.subnets.trans h.subnets
  brainOwners := h'.brainOwners.trans h.brainOwners
  roles := h'.roles.trans h.roles

theorem redeem_funded (h : redeem env blk caller r userSig s = .ok s') (hs : Funded env s) :
    Funded env s' := by
  refine ⟨redeem_solvent h hs.solvent, ?_⟩
  intro b
  obtain ⟨hchecks, -⟩ := redeem_ok h
  obtain ⟨-, -, -, -, -, -, -, -, hle, -, -⟩ := redeemChecks_ok.mp hchecks
  rw [redeem_eq_settle hchecks] at h
  obtain ⟨token, fee, rfl, hfee, -⟩ := settle_fees h
  have hsum := sum_set_add s.market.balances r.user (s.market.balances r.user - r.amount.val)
  have hwords := hs.words b
  -- the fee is part of the amount
  have hfeeLe : fee ≤ r.amount.val := by
    rw [hfee]
    split
    · unfold validatorShare
      exact (Nat.sub_le _ _).trans (Nat.sub_le _ _)
    · exact Nat.zero_le _
  dsimp only [debited]
  rw [set_apply]
  split
  · rename_i hb
    rw [hb] at hwords
    omega
  · omega

/-- **What a redemption needs that could have been made earlier**: an unused nonce, and
the balance. -/
theorem redeem_again (hsteady : env.token.Steady)
    (hfirst : redeem env blk caller r userSig s = .ok s') (hafter : RedeemedSince s t)
    (ht : Funded env t) :
    (∃ t', redeem env blk caller r userSig t = .ok t') ↔
      t.market.usedNonces r.user r.nonce = false ∧ r.amount.val ≤ t.market.balances r.user := by
  obtain ⟨hchecks, -⟩ := redeem_ok hfirst
  obtain ⟨hopen, hexpiry, hfits, hlife, hresponse, hpositive, hcap, -, hle, hminer, hrecover⟩ :=
    redeemChecks_ok.mp hchecks
  constructor
  · rintro ⟨t', h⟩
    obtain ⟨hagain, -⟩ := redeem_ok h
    obtain ⟨-, -, -, -, -, -, -, hnonce, hbalance, -, -⟩ := redeemChecks_ok.mp hagain
    exact ⟨hnonce, hbalance⟩
  · rintro ⟨hnonce, hbalance⟩
    have hagain : redeemChecks env blk caller t.market r userSig = .ok () :=
      redeemChecks_ok.mpr ⟨hafter.paused.trans hopen, hexpiry, hfits, hlife, hresponse, hpositive,
        fun hsentinel => hafter.maxReservation ▸ hcap hsentinel, hnonce, hbalance, hminer,
        hrecover⟩
    rw [redeem_eq_settle hagain]
    rw [redeem_eq_settle hchecks] at hfirst
    -- the market is solvent, so it holds what the balance promises
    have hheld : r.amount.val ≤ env.token.balanceOf t.token env.self :=
      hbalance.trans (ht.solvent.balance_le r.user)
    have hsum := le_sum t.market.balances r.user
    have hwords := ht.words r.brainId
    exact settle_again hsteady hfirst hafter.subnets hafter.brainOwners hafter.roles hheld
      (show t.distributor.pendingValidatorFees r.brainId + r.amount.val < 2 ^ 256 by omega)

end Redeem

/-! ## A batch -/

/-- A receipt with the user's signature, as it is sent. -/
abbrev SignedWords := Receipt × Bytes

/-- Redeem a batch in order. -/
def redeemAll (env : MarketEnv T) (blk : Block) (caller : Address) :
    List SignedWords → MarketState T → Exec (MarketState T)
  | [], s => .ok s
  | x :: rest, s => do
    let s ← redeem env blk caller x.1 x.2 s
    redeemAll env blk caller rest s

/-- Two receipts spend different nonces. -/
def Distinct (x y : SignedWords) : Prop := ¬ (x.1.user = y.1.user ∧ x.1.nonce = y.1.nonce)

/-- What a batch asks of a user. -/
def asked (u : Address) (batch : List SignedWords) : Nat :=
  (batch.map fun x => if x.1.user = u then x.1.amount.val else 0).sum

theorem asked_cons (u : Address) (x : SignedWords) (batch : List SignedWords) :
    asked u (x :: batch) = (if x.1.user = u then x.1.amount.val else 0) + asked u batch :=
  List.sum_cons

/-- A batch of receipts each of which could have been redeemed before, in order. -/
theorem redeemAll_from (hsteady : env.token.Steady) {batch : List SignedWords}
    (heach : ∀ x ∈ batch, ∃ s', redeem env blk caller x.1 x.2 s = .ok s')
    (hafter : RedeemedSince s t) (ht : Funded env t) :
    (∃ t', redeemAll env blk caller batch t = .ok t') ↔
      batch.Pairwise Distinct ∧
        (∀ x ∈ batch, t.market.usedNonces x.1.user x.1.nonce = false) ∧
        ∀ u, asked u batch ≤ t.market.balances u := by
  induction batch generalizing t with
  | nil => simp [redeemAll, asked]
  | cons x rest ih =>
    obtain ⟨⟨s', hx⟩, hrest⟩ := List.forall_mem_cons.mp heach
    have hfirst := redeem_again hsteady hx hafter ht
    -- after the first receipt the rest is asked of what it leaves: a nonce used, a balance lower
    have hnext : ∀ t₁, redeem env blk caller x.1 x.2 t = .ok t₁ →
        ((∃ t', redeemAll env blk caller rest t₁ = .ok t') ↔
          rest.Pairwise Distinct ∧
            (∀ y ∈ rest, Distinct x y ∧ t.market.usedNonces y.1.user y.1.nonce = false) ∧
            ∀ u, asked u rest + (if x.1.user = u then x.1.amount.val else 0) ≤
              t.market.balances u) := by
      intro t₁ h₁
      obtain ⟨hmarket, hsince⟩ := redeem_written h₁
      obtain ⟨-, hbalance⟩ := hfirst.mp ⟨t₁, h₁⟩
      rw [ih hrest (hafter.trans hsince) (redeem_funded h₁ ht), hmarket]
      refine and_congr_right fun _ => and_congr ?_ ?_
      · refine forall₂_congr fun y _ => ?_
        dsimp only [debited]
        rw [set₂_apply, Distinct]
        by_cases hsame : y.1.user = x.1.user ∧ y.1.nonce = x.1.nonce
        · rw [if_pos hsame]
          exact iff_of_false (by decide) fun h => h.1 ⟨hsame.1.symm, hsame.2.symm⟩
        · rw [if_neg hsame]
          exact ⟨fun h => ⟨fun h' => hsame ⟨h'.1.symm, h'.2.symm⟩, h⟩, fun h => h.2⟩
      · refine forall_congr' fun u => ?_
        dsimp only [debited]
        rw [set_apply]
        by_cases hu : u = x.1.user
        · subst hu
          rw [if_pos rfl, if_pos rfl]
          omega
        · rw [if_neg hu, if_neg (Ne.symm hu), Nat.add_zero]
    rw [List.pairwise_cons, List.forall_mem_cons]
    simp only [asked_cons]
    -- the batch goes through if the first receipt does and then the rest
    constructor
    · rintro ⟨t', h⟩
      obtain ⟨t₁, h₁, hlater⟩ := bind_ok.mp h
      obtain ⟨hnonce, -⟩ := hfirst.mp ⟨t₁, h₁⟩
      obtain ⟨hpairwise, hunused, hsum⟩ := (hnext t₁ h₁).mp ⟨t', hlater⟩
      exact ⟨⟨fun y hy => (hunused y hy).1, hpairwise⟩, ⟨hnonce, fun y hy => (hunused y hy).2⟩,
        fun u => (Nat.add_comm _ _).trans_le (hsum u)⟩
    · rintro ⟨⟨hdistinct, hpairwise⟩, ⟨hnonce, hunused⟩, hsum⟩
      have hbalance : x.1.amount.val ≤ t.market.balances x.1.user := by
        have hx := hsum x.1.user
        rw [if_pos rfl] at hx
        omega
      obtain ⟨t₁, h₁⟩ := hfirst.mpr ⟨hnonce, hbalance⟩
      obtain ⟨t', h'⟩ := (hnext t₁ h₁).mpr ⟨hpairwise,
        fun y hy => ⟨hdistinct y hy, hunused y hy⟩,
        fun u => (Nat.add_comm _ _).trans_le (hsum u)⟩
      exact ⟨t', bind_ok.mpr ⟨t₁, h₁, h'⟩⟩

/-- **When a batch is redeemed in order.** Receipts that can each be redeemed can be
redeemed one after the other just when no two spend one nonce and no user is asked for
more than the balance. -/
theorem redeemAll_iff (hsteady : env.token.Steady) (hs : Funded env s) {batch : List SignedWords}
    (heach : ∀ x ∈ batch, ∃ s', redeem env blk caller x.1 x.2 s = .ok s') :
    (∃ s', redeemAll env blk caller batch s = .ok s') ↔
      batch.Pairwise Distinct ∧ ∀ u, asked u batch ≤ s.market.balances u := by
  rw [redeemAll_from hsteady heach ⟨rfl, rfl, rfl, rfl, rfl⟩ hs]
  refine and_congr_right fun _ => and_iff_right ?_
  intro x hx
  obtain ⟨s', hredeem⟩ := heach x hx
  obtain ⟨hchecks, -⟩ := redeem_ok hredeem
  obtain ⟨-, -, -, -, -, -, -, hnonce, -, -, -⟩ := redeemChecks_ok.mp hchecks
  exact hnonce

end BasedAI
