import BasedAI.Staking.Snapshots

/-!
# BasedAI — matured unstakes

A claim is priced as `shares * assets / totalShares`, and the product is checked on 256
bits. The shares of a pool are not bounded by the token supply: a slash takes assets and
leaves the shares, so later deposits mint ever more of them. Once the shares of somebody
in the cooldown, multiplied by the pool's assets, leave the 256 bits, the claim reverts.

Nothing else can make it revert. A request computes the same product, so it starts
small enough, and of the later calls only a deposit or a reward raises it.

* `Room`, `LeavesRoom`   — the deposits and rewards that keep every pending product small;
* `claimUnstake_succeeds` — what a claim needs;
* `exec_fits`            — such calls keep all pending products small;
* `unstake_claimable`    — so every matured unstake can be claimed, and not otherwise.
-/

namespace BasedAI

open Fallible Mapping ShareMath Transition

/-- With `amount` more assets in the pool, everybody in the cooldown can still be
priced. -/
def Room (v : StakingVault) (b : BrainId) (w : Address) (amount : Nat) : Prop :=
  ∀ u, (v.pending b w u).shares * (v.vAssets b w + amount) < 2 ^ 256

/-- The step adds no assets to a pool but where there is room for them. -/
def LeavesRoom (v : StakingVault) : VaultLabel → Prop
  | .call _ _ (.stake b w amount) => Room v b w amount
  | .call _ _ (.notifyReward b w amount) => Room v b w amount
  | _ => True

/-- Steps of the vault at moments that do not go back, which leave room. -/
def RoomyStep {T : Type} (env : VaultEnv T) :
    Timed (VaultState T) → VaultLabel → Timed (VaultState T) → Prop :=
  TimedStep (restrict (VaultStep env) fun s l => LeavesRoom s.vault l) VaultLabel.moment

/-- Everybody in the cooldown can be priced. -/
def Fits (v : StakingVault) : Prop :=
  ∀ b w u, (v.pending b w u).shares * v.vAssets b w < 2 ^ 256

theorem fits_deploy (admin : Address) : Fits (.deploy admin) :=
  fun _ _ _ => Nat.two_pow_pos 256

/-! ## A claim -/

section Claim

variable {T : Type} {env : VaultEnv T} {blk : Block} {caller : Address} {b : BrainId}
  {w : Address} {s s' : VaultState T}

theorem sharesToAssets_overflows {v : StakingVault} {shares : Nat}
    (hS : v.vShares b w ≠ 0) (h : 2 ^ 256 ≤ shares * v.vAssets b w) :
    v.sharesToAssets b w shares = .error .overflow := by
  unfold StakingVault.sharesToAssets
  dsimp only
  rw [if_neg hS, mul256, checkedMul, if_neg (Nat.not_lt.mpr h)]
  rfl

/-- **What a claim needs.** In a vault whose counters agree and that holds what it
promises, a matured claim that can be priced goes through. -/
theorem claimUnstake_succeeds (hpay : env.token.Payable) (hself : env.self ≠ 0)
    (hcaller : caller ≠ 0) (hv : VaultInv s.vault)
    (hheld : s.vault.totalAssets ≤ env.token.balanceOf s.token env.self)
    (htime : InTime (StakingVault.clock blk) s.vault)
    (hfits : (s.vault.pending b w caller).shares * s.vault.vAssets b w < 2 ^ 256)
    (hpending : (s.vault.pending b w caller).shares ≠ 0)
    (hmatured : (s.vault.pending b w caller).unlockAt ≤ blk.timestamp) :
    ∃ s', StakingVault.claimUnstake env blk caller b w s = .ok s' := by
  have hS : (s.vault.pending b w caller).shares ≤ s.vault.vShares b w := hv.pending_le b w caller
  have hA : value (s.vault.pending b w caller).shares (s.vault.vAssets b w)
      (s.vault.vShares b w) ≤ s.vault.vAssets b w := value_le hS
  have hB := hA.trans (hv.vAssets_le_brain b w)
  have hT := hA.trans (hv.vAssets_le_total b w)
  -- the checkpoint comes after the writes, which leave the histories alone
  obtain ⟨vault, hvault⟩ := @checkpoint_present blk { s.vault with
    pending := set₃ s.vault.pending b w caller ⟨0, 0⟩
    vShares := set₂ s.vault.vShares b w
      (s.vault.vShares b w - (s.vault.pending b w caller).shares)
    vAssets := set₂ s.vault.vAssets b w (s.vault.vAssets b w - value
      (s.vault.pending b w caller).shares (s.vault.vAssets b w) (s.vault.vShares b w))
    brainAssets := set s.vault.brainAssets b (s.vault.brainAssets b - value
      (s.vault.pending b w caller).shares (s.vault.vAssets b w) (s.vault.vShares b w))
    totalAssets := s.vault.totalAssets - value
      (s.vault.pending b w caller).shares (s.vault.vAssets b w) (s.vault.vShares b w) }
    b ⟨htime.total, htime.brain⟩
  obtain ⟨token, htoken⟩ := hpay.safeTransfer hself hcaller (hT.trans hheld)
  refine ⟨⟨token, vault⟩, ?_⟩
  simp only [StakingVault.claimUnstake, bind_ok, revertIf_ok, sub256_ok, return_ok,
    exists_const]
  exact ⟨hpending, Nat.not_lt.mpr hmatured, _, StakingVault.sharesToAssets_fits hfits, _,
    ⟨hS, rfl⟩, _, ⟨hA, rfl⟩, _, ⟨hB, rfl⟩, _, ⟨hT, rfl⟩, vault, hvault, token, htoken, rfl⟩

/-- A claim that cannot be priced does not. -/
theorem claimUnstake_bricked (hS : s.vault.vShares b w ≠ 0)
    (h : 2 ^ 256 ≤ (s.vault.pending b w caller).shares * s.vault.vAssets b w) :
    StakingVault.claimUnstake env blk caller b w s ≠ .ok s' := by
  intro hok
  simp only [StakingVault.claimUnstake, bind_ok] at hok
  obtain ⟨_, -, _, -, paid, hpaid, -⟩ := hok
  rw [sharesToAssets_overflows hS h] at hpaid
  cases hpaid

/-- A request prices what it moves into the cooldown. -/
theorem requestUnstake_priced {amount : Nat} (hv : VaultInv s.vault)
    (h : StakingVault.requestUnstake blk caller b w amount s = .ok s') :
    (s'.vault.pending b w caller).shares * s'.vault.vAssets b w < 2 ^ 256 := by
  simp only [StakingVault.requestUnstake, bind_ok, return_ok] at h
  obtain ⟨_, -, _, -, _, -, _, -, _, -, quoted, hquoted, rfl⟩ := h
  dsimp only
  rw [set₃_apply, if_pos ⟨rfl, rfl, rfl⟩]
  dsimp only
  unfold StakingVault.sharesToAssets at hquoted
  dsimp only at hquoted
  split at hquoted
  case isTrue hzero =>
    -- a pool without shares has no assets
    rw [hv.no_shares b w hzero, Nat.mul_zero]
    exact Nat.two_pow_pos 256
  case isFalse =>
    simp only [bind_ok, mul256_ok] at hquoted
    obtain ⟨_, ⟨hfits, -⟩, -⟩ := hquoted
    exact hfits

end Claim

/-! ## Steps that leave room -/

section Steps

variable {T : Type} {env : VaultEnv T} {blk : Block} {caller : Address} {s s' : VaultState T}
  {v v' : StakingVault} {b : BrainId} {w : Address} {amount : Nat}

/-- Assets added where there is room. -/
theorem fits_add (hroom : Room v b w amount) (hf : Fits v) (hpending : v'.pending = v.pending)
    (hA : v'.vAssets = set₂ v.vAssets b w (v.vAssets b w + amount)) : Fits v' := by
  intro b' w' u
  rw [hpending, hA]
  by_cases hpool : b' = b ∧ w' = w
  · obtain ⟨rfl, rfl⟩ := hpool
    rw [set₂_same]
    exact hroom u
  · rw [set₂_of_ne _ _ hpool]
    exact hf b' w' u

/-- Assets taken out. -/
theorem fits_sub (hf : Fits v)
    (hpending : ∀ b w u, (v'.pending b w u).shares ≤ (v.pending b w u).shares)
    (hA : ∀ b w, v'.vAssets b w ≤ v.vAssets b w) : Fits v' := by
  intro b w u
  calc (v'.pending b w u).shares * v'.vAssets b w
      ≤ (v.pending b w u).shares * v.vAssets b w := Nat.mul_le_mul (hpending b w u) (hA b w)
    _ < 2 ^ 256 := hf b w u

theorem exec_fits {c : VaultCall} (h : c.exec env blk caller s = .ok s')
    (hroom : LeavesRoom s.vault (.call blk caller c)) (hv : VaultInv s.vault)
    (hf : Fits s.vault) : Fits s'.vault := by
  cases c with
  | stake b w amount =>
    obtain ⟨shares, token, total, brain, -, -, -, -, -, -, rfl⟩ := StakingVault.stake_ok h
    exact fits_add hroom hf rfl rfl
  | requestUnstake b w amount =>
    have hpriced := requestUnstake_priced hv h
    obtain ⟨shares, -, -, -, -, rfl⟩ := StakingVault.requestUnstake_ok h
    intro b' w' u
    -- the caller's own cooldown is the only one that changed
    by_cases hkey : b' = b ∧ w' = w ∧ u = caller
    · obtain ⟨rfl, rfl, rfl⟩ := hkey
      exact hpriced
    · dsimp only
      rw [set₃_of_ne _ _ hkey]
      exact hf b' w' u
  | claimUnstake b w =>
    obtain ⟨shares, paid, token, total, brain, -, -, -, -, -, -, -, -, -, rfl⟩ :=
      StakingVault.claimUnstake_ok h
    refine fits_sub hf (fun b' w' u => ?_) fun b' w' => set₂_sub_le _ _ _ _ _ _
    dsimp only
    rw [set₃_apply]
    split
    · exact Nat.zero_le _
    · exact le_rfl
  | slash b w amount =>
    obtain ⟨-, ⟨-, rfl⟩ | ⟨cut, token, total, brain, -, -, -, -, -, -, rfl⟩⟩ :=
      StakingVault.slash_ok h
    · exact hf
    · exact fits_sub hf (fun _ _ _ => le_rfl) fun b' w' => set₂_sub_le _ _ _ _ _ _
  | notifyReward b w amount =>
    obtain ⟨token, total, brain, -, -, -, -, -, rfl⟩ := StakingVault.notifyReward_ok h
    exact fits_add hroom hf rfl rfl
  | _ =>
    obtain ⟨roles, rfl⟩ := forRoles_ok h rfl
    exact hf

/-- The counters agree, the histories are up to date and everybody can be priced. -/
structure Payout (s : Timed (VaultState T)) : Prop where
  inv : VaultInv s.state.vault
  time : InTime s.now s.state.vault
  fits : Fits s.state.vault

theorem step_payout {s s' : Timed (VaultState T)} {l : VaultLabel} (h : RoomyStep env s l s')
    (hp : Payout s) : Payout s' := by
  cases h with
  | mk hnow hmoment hstep =>
    obtain ⟨hstep, hroom⟩ := hstep
    cases hstep with
    | received =>
      exact ⟨hp.inv, ⟨hp.time.total.later hnow, fun b => (hp.time.brain b).later hnow⟩, hp.fits⟩
    | call blk caller c _ hexec =>
      have hat : StakingVault.clock blk = _ := hmoment
      subst hat
      exact ⟨exec_inv hexec hp.inv, recorded_inTime (exec_recorded hexec) hnow hp.time,
        exec_fits hexec hroom hp.inv hp.fits⟩

/-- Where there was no room, somebody in the cooldown cannot be priced any more. -/
theorem step_bricks {l : VaultLabel} (h : VaultStep env s l s') (hv : VaultInv s.vault)
    (hroom : ¬ LeavesRoom s.vault l) :
    ∃ b w u, (s'.vault.pending b w u).shares ≠ 0 ∧
      ∀ blk s'', StakingVault.claimUnstake env blk u b w s' ≠ .ok s'' := by
  have hv' : VaultInv s'.vault := vaultStep_inv h hv
  -- it is enough that the product of somebody's shares and the assets is too large
  have hbricks : ∀ b w u,
      2 ^ 256 ≤ (s'.vault.pending b w u).shares * s'.vault.vAssets b w →
      (s'.vault.pending b w u).shares ≠ 0 ∧
        ∀ blk s'', StakingVault.claimUnstake env blk u b w s' ≠ .ok s'' := by
    intro b w u hlarge
    have hpending : (s'.vault.pending b w u).shares ≠ 0 := by
      intro hzero
      rw [hzero, Nat.zero_mul] at hlarge
      exact absurd hlarge (Nat.not_le.mpr (Nat.two_pow_pos 256))
    have hS : s'.vault.vShares b w ≠ 0 := by
      have := hv'.pending_le b w u
      omega
    exact ⟨hpending, fun _ _ => claimUnstake_bricked hS hlarge⟩
  cases h with
  | received => exact absurd trivial hroom
  | call blk caller c _ hexec =>
    cases c with
    | stake b w amount =>
      obtain ⟨u, hu⟩ := not_forall.mp hroom
      obtain ⟨shares, token, total, brain, -, -, -, -, -, -, rfl⟩ := StakingVault.stake_ok hexec
      refine ⟨b, w, u, hbricks b w u ?_⟩
      dsimp only
      rw [set₂_same]
      exact Nat.not_lt.mp hu
    | notifyReward b w amount =>
      obtain ⟨u, hu⟩ := not_forall.mp hroom
      obtain ⟨token, total, brain, -, -, -, -, -, rfl⟩ := StakingVault.notifyReward_ok hexec
      refine ⟨b, w, u, hbricks b w u ?_⟩
      dsimp only
      rw [set₂_same]
      exact Nat.not_lt.mp hu
    | requestUnstake => exact absurd trivial hroom
    | claimUnstake => exact absurd trivial hroom
    | slash => exact absurd trivial hroom
    | grantRole => exact absurd trivial hroom
    | revokeRole => exact absurd trivial hroom
    | renounceRole => exact absurd trivial hroom

end Steps

/-! ## Every matured unstake -/

/--
**Matured unstakes.** In a run whose deposits and rewards all leave room, every unstake
in every state can be claimed from the moment it matures. And the condition is exact: a
deposit or reward without room leaves somebody in the cooldown whose claim reverts, in
every block, in the state it leads to.
-/
theorem unstake_claimable {T : Type} {env : VaultEnv T} {admin : Address} {t₀ : T}
    (hpay : env.token.Payable) (hself : env.self ≠ 0) :
    (∀ ls now s, Run (RoomyStep env) ⟨0, t₀, .deploy admin⟩ ls ⟨now, s⟩ →
      ∀ blk b w u, now ≤ StakingVault.clock blk → u ≠ 0 →
        (s.vault.pending b w u).shares ≠ 0 →
        (s.vault.pending b w u).unlockAt ≤ blk.timestamp →
        ∃ s', StakingVault.claimUnstake env blk u b w s = .ok s') ∧
    (∀ ls s l s', Run (VaultStep env) ⟨t₀, .deploy admin⟩ ls s → VaultStep env s l s' →
      ¬ LeavesRoom s.vault l →
      ∃ b w u, (s'.vault.pending b w u).shares ≠ 0 ∧
        ∀ blk s'', StakingVault.claimUnstake env blk u b w s' ≠ .ok s'') := by
  refine ⟨?_, ?_⟩
  · intro ls now s hrun blk b w u hnow hu hpending hmatured
    have hstart : Payout (T := T) ⟨0, t₀, .deploy admin⟩ :=
      ⟨vaultInv_deploy admin, inTime_deploy 0 admin, fits_deploy admin⟩
    have hpayout : Payout ⟨now, s⟩ := hrun.invariant (I := Payout) step_payout hstart
    -- the vault holds its assets, and what was sent to it besides
    have hbacked : Backed env _ s :=
      vaultRun_backed (hrun.untimed.mono And.left) (Nat.zero_add _).symm
    have hheld : s.vault.totalAssets ≤ env.token.balanceOf s.token env.self := by
      rw [hbacked]
      exact Nat.le_add_right _ _
    have htime : InTime (StakingVault.clock blk) s.vault :=
      ⟨hpayout.time.total.later hnow, fun b => (hpayout.time.brain b).later hnow⟩
    exact claimUnstake_succeeds hpay hself hu hpayout.inv hheld htime (hpayout.fits b w u)
      hpending hmatured
  · intro ls s l s' hrun hstep hroom
    exact step_bricks hstep (vaultRun_inv hrun (vaultInv_deploy admin)) hroom

set_option maxRecDepth 8000 in
/-- 400 of a stake of 1000, claimed fourteen days after it was asked for. -/
theorem unstake_claimable_after_cooldown :
    ∃ s s' : VaultState Ledger, (s.vault.pending 3 7 2).shares = 400 ∧
      StakingVault.claimUnstake ⟨ledgerToken, 1, by decide⟩ ⟨1209800, by decide⟩ 2 3 7 s =
        .ok s' := by
  have hclaim := (@unstake_claimable Ledger ⟨ledgerToken, 1, by decide⟩ 9 toyLedger
    ledgerToken_payable (by decide)).1 _ 200 _
    (.cons (timedCall ⟨.call ⟨100, by decide⟩ 2 (.stake 3 7 1000) (by decide) rfl,
      -- nobody is in the cooldown yet
      fun _ => Nat.two_pow_pos 256⟩ (by decide))
    (.cons (timedCall ⟨.call ⟨200, by decide⟩ 2 (.requestUnstake 3 7 400) (by decide) rfl,
      trivial⟩ (by decide))
    (.nil _))) ⟨1209800, by decide⟩ 3 7 2 (by decide) (by decide) (by decide) (by decide)
  obtain ⟨s', hs'⟩ := hclaim
  exact ⟨_, s', rfl, hs'⟩

/-! ## A claim that reverts -/

def noBalances : Address → Nat := fun _ => 0

/-- Three accounts hold the whole supply: two `2 ^ 100` units each, the third `2 ^ 55`. -/
def threeBalances : Address → Nat :=
  set (set (set noBalances 2 1267650600228229401496703205376) 5
    1267650600228229401496703205376) 6 36028797018963968

theorem threeBalances_supply : ∑ a, threeBalances a < 2 ^ 128 := by
  have hnone : ∑ a, noBalances a = 0 := Finset.sum_const_zero
  -- one entry after the other
  have h₂ := sum_set_le noBalances 2 1267650600228229401496703205376
  have h₅ := sum_set_le (set noBalances 2 1267650600228229401496703205376) 5
    1267650600228229401496703205376
  have h₆ := sum_set_le (set (set noBalances 2 1267650600228229401496703205376) 5
    1267650600228229401496703205376) 6 36028797018963968
  unfold threeBalances
  omega

def heldByThree : Ledger where
  balances := threeBalances
  allowances _ _ := 2 ^ 256 - 1

/-- The vault at address 1, deployed by account 9 on the ledger of the three. -/
def smallVault : VaultEnv Ledger := ⟨ledgerToken, 1, StakingVault.one_ne_burn⟩

def smallStart : VaultState Ledger := ⟨heldByThree, .deploy 9⟩

def earlyBlock : Block := ⟨100, by decide⟩

def lateBlock : Block := ⟨2000000, by decide⟩

/-- Two slashes and two deposits give account 5 nearly `2 ^ 200` shares of a pool of
`2 ^ 55` assets, which it asks for. Another deposit of `2 ^ 55`, and its claim reverts. -/
theorem unstake_overflows :
    ∑ a, heldByThree.balances a < 2 ^ 128 ∧
    ∃ ls s, Run (TimedStep (VaultStep smallVault) VaultLabel.moment) ⟨0, smallStart⟩ ls
        ⟨100, s⟩ ∧
      (s.vault.pending 3 7 5).shares ≠ 0 ∧
      (s.vault.pending 3 7 5).unlockAt ≤ lateBlock.timestamp ∧
      ∀ s', StakingVault.claimUnstake smallVault lateBlock 5 3 7 s ≠ .ok s' := by
  -- every call succeeds
  have hcall : ∀ s caller (c : VaultCall), caller ≠ 1 →
      (c.exec smallVault earlyBlock caller s).isOk = true →
      TimedStep (VaultStep smallVault) VaultLabel.moment ⟨100, s⟩ (.call earlyBlock caller c)
        ⟨100, (c.exec smallVault earlyBlock caller s).toOption.getD s⟩ :=
    fun s caller c hcaller hok =>
      timedCall (.call earlyBlock caller c hcaller (eq_ok_of_isOk s hok)) (by decide)
  refine ⟨threeBalances_supply, _, _,
    .cons (timedCall (.call earlyBlock 9 (.grantRole .slasher 8) (by decide)
      (eq_ok_of_isOk smallStart (by decide +kernel))) (by decide))
    (.cons (hcall _ 2 (.stake 3 7 1267650600228229401496703205376) (by decide)
      (by decide +kernel))
    -- the pool falls to one unit of assets, so the next deposit mints `2 ^ 200` shares
    (.cons (hcall _ 8 (.slash 3 7 1267650600228229401496703205375) (by decide)
      (by decide +kernel))
    (.cons (hcall _ 5 (.stake 3 7 1267650600228229401496703205376) (by decide)
      (by decide +kernel))
    -- and to `2 ^ 55` units, at which account 5 can still be priced
    (.cons (hcall _ 8 (.slash 3 7 1267650600228193372699684241409) (by decide)
      (by decide +kernel))
    (.cons (hcall _ 5 (.requestUnstake 3 7 36028797018963968) (by decide) (by decide +kernel))
    (.cons (hcall _ 6 (.stake 3 7 36028797018963968) (by decide) (by decide +kernel))
    (.nil _))))))), ?_, ?_, ?_⟩
  · decide +kernel
  · decide +kernel
  · exact fun s' => claimUnstake_bricked (by decide +kernel) (by decide +kernel)

end BasedAI
