import BasedAI.Staking.VaultAccounting

/-!
# BasedAI — only slashing dilutes

Deposits mint shares rounded down and claims pay rounded down, so no operation but a
slash lowers the price of a share, and nobody's stake is worth less for what others
do. Whoever leaves a pool is therefore paid at least what was quoted before others
left it.

* `exec_price`    — the price of a pool after any call but a slash of it;
* `exec_others`   — a call moves shares of its caller only;
* `NotDiluted`    — every holding of a staker is worth at least what it was;
* `quiet_run`     — a run without a slash and without calls of the staker keeps it;
* `vault_undiluted` — no dilution in reachable states, and what that means for exits.
-/

namespace BasedAI

open Fallible Mapping ShareMath Transition

section Price

variable {T : Type} {env : VaultEnv T} {blk : Block} {caller : Address} {s s' : VaultState T}
  {b : BrainId} {w : Address}

/-- The assets per share of the pool do not fall from `v` to `v'`, multiplied out. -/
def PriceKept (v v' : StakingVault) (b : BrainId) (w : Address) : Prop :=
  v.vAssets b w * v'.vShares b w ≤ v'.vAssets b w * v.vShares b w

/-- A pool that is not written keeps its price. -/
theorem priceKept_of_same {v v' : StakingVault} (hA : v'.vAssets b w = v.vAssets b w)
    (hS : v'.vShares b w = v.vShares b w) : PriceKept v v' b w := by
  unfold PriceKept
  rw [hA, hS]

/-- More assets on the same shares raise the price. -/
theorem priceKept_of_assets {v v' : StakingVault} (hA : v.vAssets b w ≤ v'.vAssets b w)
    (hS : v'.vShares b w = v.vShares b w) : PriceKept v v' b w := by
  unfold PriceKept
  rw [hS]
  exact Nat.mul_le_mul_right _ hA

theorem stake_price {b' : BrainId} {w' : Address} {amount : Nat}
    (h : StakingVault.stake env blk caller b' w' amount s = .ok s') (hv : VaultInv s.vault) :
    PriceKept s.vault s'.vault b w := by
  obtain ⟨shares, token, total, brain, -, -, -, hshares, -, -, rfl⟩ := StakingVault.stake_ok h
  by_cases hpool : b = b' ∧ w = w'
  · obtain ⟨rfl, rfl⟩ := hpool
    unfold PriceKept
    dsimp only
    rw [set₂_same, set₂_same, hshares]
    exact mint_price (hv.no_shares b w)
  · exact priceKept_of_same (set₂_of_ne _ _ hpool) (set₂_of_ne _ _ hpool)

theorem claimUnstake_price {b' : BrainId} {w' : Address}
    (h : StakingVault.claimUnstake env blk caller b' w' s = .ok s') :
    PriceKept s.vault s'.vault b w := by
  obtain ⟨shares, paid, token, total, brain, -, -, -, hpaid, -, -, -, -, -, rfl⟩ :=
    StakingVault.claimUnstake_ok h
  by_cases hpool : b = b' ∧ w = w'
  · obtain ⟨rfl, rfl⟩ := hpool
    unfold PriceKept
    dsimp only
    rw [set₂_same, set₂_same, hpaid]
    exact payout_price _ _ _
  · exact priceKept_of_same (set₂_of_ne _ _ hpool) (set₂_of_ne _ _ hpool)

/-- **No call but a slash of it lowers the price of a pool.** -/
theorem exec_price {c : VaultCall} (h : c.exec env blk caller s = .ok s')
    (hv : VaultInv s.vault) (hslash : ∀ amount, c ≠ .slash b w amount) :
    PriceKept s.vault s'.vault b w := by
  cases c with
  | stake b' w' amount => exact stake_price h hv
  | requestUnstake b' w' amount =>
    -- shares in the cooldown are still shares of the pool
    obtain ⟨shares, -, -, -, -, rfl⟩ := StakingVault.requestUnstake_ok h
    exact priceKept_of_same rfl rfl
  | claimUnstake b' w' => exact claimUnstake_price h
  | slash b' w' amount =>
    have hother : ¬ (b = b' ∧ w = w') := by
      rintro ⟨rfl, rfl⟩
      exact hslash amount rfl
    obtain ⟨-, ⟨-, rfl⟩ | ⟨cut, token, total, brain, -, -, -, -, -, -, rfl⟩⟩ :=
      StakingVault.slash_ok h
    · exact priceKept_of_same rfl rfl
    · exact priceKept_of_same (set₂_of_ne _ _ hother) rfl
  | notifyReward b' w' amount =>
    obtain ⟨token, total, brain, -, -, -, -, -, rfl⟩ := StakingVault.notifyReward_ok h
    exact priceKept_of_assets (le_set₂_add _ _ _ _ _ _) rfl
  | _ =>
    obtain ⟨roles, rfl⟩ := forRoles_ok h rfl
    exact priceKept_of_same rfl rfl

/-- The pool in which a call moves shares of its caller. -/
def VaultCall.pool : VaultCall → Option (BrainId × Address)
  | .stake b w _ => some (b, w)
  | .requestUnstake b w _ => some (b, w)
  | .claimUnstake b w => some (b, w)
  | _ => none

/-- **A call moves shares of its caller only**, and only in its pool. -/
theorem exec_others {c : VaultCall} (h : c.exec env blk caller s = .ok s') {u : Address}
    (hu : ¬ (u = caller ∧ c.pool = some (b, w))) :
    s'.vault.stakerShares b w u = s.vault.stakerShares b w u ∧
      s'.vault.pending b w u = s.vault.pending b w u := by
  -- a call writes the shares of its caller in the pool it names
  cases c with
  | stake b' w' amount =>
    obtain ⟨shares, token, total, brain, -, -, -, -, -, -, rfl⟩ := StakingVault.stake_ok h
    have hkey : ¬ (b = b' ∧ w = w' ∧ u = caller) := by
      rintro ⟨rfl, rfl, rfl⟩
      exact hu ⟨rfl, rfl⟩
    exact ⟨set₃_of_ne _ _ hkey, rfl⟩
  | requestUnstake b' w' amount =>
    obtain ⟨shares, -, -, -, -, rfl⟩ := StakingVault.requestUnstake_ok h
    have hkey : ¬ (b = b' ∧ w = w' ∧ u = caller) := by
      rintro ⟨rfl, rfl, rfl⟩
      exact hu ⟨rfl, rfl⟩
    exact ⟨set₃_of_ne _ _ hkey, set₃_of_ne _ _ hkey⟩
  | claimUnstake b' w' =>
    obtain ⟨shares, paid, token, total, brain, -, -, -, -, -, -, -, -, -, rfl⟩ :=
      StakingVault.claimUnstake_ok h
    have hkey : ¬ (b = b' ∧ w = w' ∧ u = caller) := by
      rintro ⟨rfl, rfl, rfl⟩
      exact hu ⟨rfl, rfl⟩
    exact ⟨rfl, set₃_of_ne _ _ hkey⟩
  | slash b' w' amount =>
    obtain ⟨-, ⟨-, rfl⟩ | ⟨cut, token, total, brain, -, -, -, -, -, -, rfl⟩⟩ :=
      StakingVault.slash_ok h
    · exact ⟨rfl, rfl⟩
    · exact ⟨rfl, rfl⟩
  | notifyReward b' w' amount =>
    obtain ⟨token, total, brain, -, -, -, -, -, rfl⟩ := StakingVault.notifyReward_ok h
    exact ⟨rfl, rfl⟩
  | _ =>
    obtain ⟨roles, rfl⟩ := forRoles_ok h rfl
    exact ⟨rfl, rfl⟩

end Price

/-! ## Holdings -/

/-- From `v` to `v'` the shares of `u` in a pool stay, and every part of them is worth
at least what it was. -/
structure NotDiluted (v v' : StakingVault) (b : BrainId) (w u : Address) : Prop where
  active : v'.stakerShares b w u = v.stakerShares b w u
  pending : v'.pending b w u = v.pending b w u
  worth : ∀ x ≤ v.holding b w u,
    value x (v.vAssets b w) (v.vShares b w) ≤ value x (v'.vAssets b w) (v'.vShares b w)

namespace NotDiluted

variable {v v' v'' : StakingVault} {b : BrainId} {w u : Address}

theorem refl (v : StakingVault) (b : BrainId) (w u : Address) : NotDiluted v v b w u :=
  ⟨rfl, rfl, fun _ _ => le_rfl⟩

theorem holding (h : NotDiluted v v' b w u) : v'.holding b w u = v.holding b w u := by
  unfold StakingVault.holding
  rw [h.active, h.pending]

theorem trans (h : NotDiluted v v' b w u) (h' : NotDiluted v' v'' b w u) :
    NotDiluted v v'' b w u where
  active := h'.active.trans h.active
  pending := h'.pending.trans h.pending
  worth x hx := by
    have hlater : x ≤ v'.holding b w u := by
      rw [h.holding]
      exact hx
    exact (h.worth x hx).trans (h'.worth x hlater)

/-- The two views do not fall. -/
theorem stakerBalance (h : NotDiluted v v' b w u) {r r' : Nat}
    (hr : v.stakerBalance b w u = .ok r) (hr' : v'.stakerBalance b w u = .ok r') : r ≤ r' := by
  rw [StakingVault.sharesToAssets_ok hr, StakingVault.sharesToAssets_ok hr', h.active]
  exact h.worth _ (Nat.le_add_right _ _)

theorem pendingBalance (h : NotDiluted v v' b w u) {r r' : Nat}
    (hr : v.pendingBalance b w u = .ok r) (hr' : v'.pendingBalance b w u = .ok r') :
    r ≤ r' := by
  rw [StakingVault.sharesToAssets_ok hr, StakingVault.sharesToAssets_ok hr', h.pending]
  exact h.worth _ (Nat.le_add_left _ _)

end NotDiluted

section Steps

variable {T : Type} {env : VaultEnv T} {s s' : VaultState T} {b : BrainId} {w u : Address}

/-- A price that is kept, on both sides of a step that leaves the holding alone. -/
theorem notDiluted_of_price {v v' : StakingVault} (hv : VaultInv v) (hv' : VaultInv v')
    (hactive : v'.stakerShares b w u = v.stakerShares b w u)
    (hpending : v'.pending b w u = v.pending b w u) (hprice : PriceKept v v' b w) :
    NotDiluted v v' b w u := by
  refine ⟨hactive, hpending, fun x hx => ?_⟩
  rcases Nat.eq_zero_or_pos x with rfl | hpos
  · rw [value_zero_shares]
    exact Nat.zero_le _
  · -- whoever holds a share holds a share of a pool that has some
    have hS : x ≤ v.vShares b w := hx.trans (hv.holding_le b w u)
    have hsame : v'.holding b w u = v.holding b w u := by
      unfold StakingVault.holding
      rw [hactive, hpending]
    have hS' : x ≤ v'.vShares b w := by
      rw [← hsame] at hx
      exact hx.trans (hv'.holding_le b w u)
    exact value_le_of_price (hpos.trans_le hS) (hpos.trans_le hS') hprice

theorem exec_notDiluted {blk : Block} {caller : Address} {c : VaultCall}
    (h : c.exec env blk caller s = .ok s') (hv : VaultInv s.vault)
    (hslash : ∀ amount, c ≠ .slash b w amount)
    (hu : ¬ (u = caller ∧ c.pool = some (b, w))) : NotDiluted s.vault s'.vault b w u := by
  obtain ⟨hactive, hpending⟩ := exec_others h hu
  exact notDiluted_of_price hv (exec_inv h hv) hactive hpending (exec_price h hv hslash)

/-- The step neither slashes the pool nor is a call of `u` about its own shares in it. -/
def Quiet (b : BrainId) (w u : Address) : VaultLabel → Prop
  | .call _ caller c => (∀ amount, c ≠ .slash b w amount) ∧ ¬ (u = caller ∧ c.pool = some (b, w))
  | .received _ => True

theorem vaultStep_notDiluted {l : VaultLabel} (h : VaultStep env s l s') (hl : Quiet b w u l)
    (hv : VaultInv s.vault) : NotDiluted s.vault s'.vault b w u := by
  cases h with
  | received => exact .refl _ _ _ _
  | call blk caller c _ hexec => exact exec_notDiluted hexec hv hl.1 hl.2

/-- Over a run of such steps a holding is not diluted. -/
theorem quiet_run {ls : List VaultLabel}
    (h : Run (restrict (VaultStep env) fun _ l => Quiet b w u l) s ls s')
    (hv : VaultInv s.vault) : NotDiluted s.vault s'.vault b w u := by
  induction h with
  | nil s => exact .refl _ _ _ _
  | cons hstep _ ih =>
    have hfirst := vaultStep_notDiluted hstep.1 hstep.2 hv
    exact hfirst.trans (ih (vaultStep_inv hstep.1 hv))

/-! ## Exits -/

/-- A claim pays the claimant the value of the pending shares. -/
theorem claimStep_paid {blk : Block}
    (h : VaultStep env s (.call blk u (.claimUnstake b w)) s') :
    env.token.balanceOf s'.token u = env.token.balanceOf s.token u +
      value (s.vault.pending b w u).shares (s.vault.vAssets b w) (s.vault.vShares b w) := by
  cases h with
  | call _ _ _ hcaller hexec =>
    obtain ⟨shares, paid, token, total, brain, rfl, -, -, rfl, -, -, -, -, htoken, rfl⟩ :=
      StakingVault.claimUnstake_ok hexec
    obtain ⟨-, hbal⟩ := safeTransfer_ok htoken
    dsimp only
    rw [hbal, moved_dst hcaller.symm]

/-- A request for an amount puts shares into the cooldown that are worth the amount, or
all the caller had. -/
theorem requestStep_worth {blk : Block} {amount : Nat}
    (h : VaultStep env s (.call blk u (.requestUnstake b w amount)) s') (hv : VaultInv s.vault) :
    min amount (value (s.vault.stakerShares b w u) (s.vault.vAssets b w) (s.vault.vShares b w)) ≤
      value (s'.vault.pending b w u).shares (s'.vault.vAssets b w) (s'.vault.vShares b w) := by
  cases h with
  | call _ _ _ hcaller hexec =>
    obtain ⟨shares, -, -, hshares, hpos, rfl⟩ := StakingVault.requestUnstake_ok hexec
    have hle : shares ≤ s.vault.stakerShares b w u := by
      rw [hshares]
      exact min_le_right _ _
    -- one holding is part of the pool's shares
    have hheld : s.vault.stakerShares b w u ≤ s.vault.vShares b w :=
      (Nat.le_add_right _ _).trans (hv.holding_le b w u)
    have hpending : set₃ s.vault.pending b w u
        ⟨shares, blk.timestamp + StakingVault.UNSTAKE_COOLDOWN⟩ b w u =
        ⟨shares, blk.timestamp + StakingVault.UNSTAKE_COOLDOWN⟩ := by
      rw [set₃_apply, if_pos ⟨rfl, rfl, rfl⟩]
    dsimp only
    rw [hpending]
    dsimp only
    rw [hshares]
    exact min_le_value_exit (by omega)

end Steps

section Exits

variable {T : Type} {env : VaultEnv T} {b : BrainId} {w u : Address}

/-- Whoever is in the cooldown is paid at least the value quoted before. -/
theorem pending_exit {s p q : VaultState T} {ks : List VaultLabel} {blk : Block} {r : Nat}
    (hv : VaultInv s.vault) (hr : s.vault.pendingBalance b w u = .ok r)
    (hrun : Run (restrict (VaultStep env) fun _ l => Quiet b w u l) s ks p)
    (hclaim : VaultStep env p (.call blk u (.claimUnstake b w)) q) :
    env.token.balanceOf p.token u + r ≤ env.token.balanceOf q.token u := by
  have hkept : NotDiluted s.vault p.vault b w u := quiet_run hrun hv
  rw [claimStep_paid hclaim, StakingVault.sharesToAssets_ok hr, hkept.pending]
  exact Nat.add_le_add_left (hkept.worth _ (Nat.le_add_left _ _)) _

/-- Whoever asks for what was quoted and claims it after the cooldown is paid it. -/
theorem active_exit {s p p' q q' : VaultState T} {ks ks' : List VaultLabel} {blk blk' : Block}
    {r amount : Nat} (hv : VaultInv s.vault) (hr : s.vault.stakerBalance b w u = .ok r)
    (hrun : Run (restrict (VaultStep env) fun _ l => Quiet b w u l) s ks p)
    (hrequest : VaultStep env p (.call blk u (.requestUnstake b w amount)) p')
    (hrun' : Run (restrict (VaultStep env) fun _ l => Quiet b w u l) p' ks' q)
    (hclaim : VaultStep env q (.call blk' u (.claimUnstake b w)) q') :
    env.token.balanceOf q.token u + min amount r ≤ env.token.balanceOf q'.token u := by
  have hkept : NotDiluted s.vault p.vault b w u := quiet_run hrun hv
  have hp : VaultInv p.vault := vaultRun_inv hrun.of_restrict hv
  have hp' : VaultInv p'.vault := vaultStep_inv hrequest hp
  have hkept' : NotDiluted p'.vault q.vault b w u := quiet_run hrun' hp'
  rw [claimStep_paid hclaim, hkept'.pending]
  apply Nat.add_le_add_left
  -- what was quoted, what it is worth at the request, in the cooldown, and at the claim
  calc min amount r
      ≤ min amount (value (p.vault.stakerShares b w u) (p.vault.vAssets b w)
          (p.vault.vShares b w)) := by
        apply min_le_min_left
        rw [StakingVault.sharesToAssets_ok hr, hkept.active]
        exact hkept.worth _ (Nat.le_add_right _ _)
    _ ≤ value (p'.vault.pending b w u).shares (p'.vault.vAssets b w) (p'.vault.vShares b w) :=
        requestStep_worth hrequest hp
    _ ≤ value (p'.vault.pending b w u).shares (q.vault.vAssets b w) (q.vault.vShares b w) :=
        hkept'.worth _ (Nat.le_add_left _ _)

/--
**Only slashing dilutes.** In every reachable state, a call of any account that is not
a slash of a pool leaves the pool's assets per share at least what they were, and every
other account's holding in it, its two balances included, worth at least what it was.

So whoever leaves a pool, in any order and whatever the others do in between but slash
it, is paid at least what was quoted at the start: the pending balance to those in the
cooldown, and the amount they ask for, up to their balance, to the others.
-/
theorem vault_undiluted {admin : Address} {t₀ : T} {ls : List VaultLabel} {s : VaultState T}
    (h : Run (VaultStep env) ⟨t₀, .deploy admin⟩ ls s) :
    (∀ blk caller (c : VaultCall) s' b w, c.exec env blk caller s = .ok s' →
      (∀ amount, c ≠ .slash b w amount) →
      s.vault.vAssets b w * s'.vault.vShares b w ≤ s'.vault.vAssets b w * s.vault.vShares b w ∧
      ∀ u, u ≠ caller → NotDiluted s.vault s'.vault b w u ∧
        (∀ r r', s.vault.stakerBalance b w u = .ok r → s'.vault.stakerBalance b w u = .ok r' →
          r ≤ r') ∧
        (∀ r r', s.vault.pendingBalance b w u = .ok r → s'.vault.pendingBalance b w u = .ok r' →
          r ≤ r')) ∧
    (∀ b w u r ks p blk q, s.vault.pendingBalance b w u = .ok r →
      Run (restrict (VaultStep env) fun _ l => Quiet b w u l) s ks p →
      VaultStep env p (.call blk u (.claimUnstake b w)) q →
      env.token.balanceOf p.token u + r ≤ env.token.balanceOf q.token u) ∧
    (∀ b w u r ks p blk amount p' ks' q blk' q', s.vault.stakerBalance b w u = .ok r →
      Run (restrict (VaultStep env) fun _ l => Quiet b w u l) s ks p →
      VaultStep env p (.call blk u (.requestUnstake b w amount)) p' →
      Run (restrict (VaultStep env) fun _ l => Quiet b w u l) p' ks' q →
      VaultStep env q (.call blk' u (.claimUnstake b w)) q' →
      env.token.balanceOf q.token u + min amount r ≤ env.token.balanceOf q'.token u) := by
  -- the price of a share falls in no call but a slash, and no call takes another's shares
  have hv : VaultInv s.vault := vaultRun_inv h (vaultInv_deploy admin)
  refine ⟨?_, ?_, ?_⟩
  · intro blk caller c s' b w hexec hslash
    refine ⟨exec_price hexec hv hslash, fun u hu => ?_⟩
    have hkept : NotDiluted s.vault s'.vault b w u :=
      exec_notDiluted hexec hv hslash fun hown => hu hown.1
    exact ⟨hkept, fun r r' hr hr' => hkept.stakerBalance hr hr',
      fun r r' hr hr' => hkept.pendingBalance hr hr'⟩
  · intro b w u r ks p blk q hr hrun hclaim
    exact pending_exit hv hr hrun hclaim
  · intro b w u r ks p blk amount p' ks' q blk' q' hr hrun hrequest hrun' hclaim
    exact active_exit hv hr hrun hrequest hrun' hclaim

set_option maxRecDepth 20000 in
/-- Two stakers leave, the one who asked second first; the other is paid the 500 quoted
before either asked. -/
theorem vault_undiluted_exits :
    ∃ q q' : VaultState Ledger,
      (q.vault.pending 3 7 2).shares = 500 ∧ q.vault.totalStaked = 500 ∧
      ledgerToken.balanceOf q.token 2 + min 500 500 ≤ ledgerToken.balanceOf q'.token 2 := by
  have hpaid := (@vault_undiluted Ledger ⟨ledgerToken, 1, by decide⟩ 9 toyLedger _ _
    (.cons (.call ⟨100, by decide⟩ 2 (.stake 3 7 500) (by decide) rfl)
    (.cons (.call ⟨100, by decide⟩ 5 (.stake 3 7 1000) (by decide) rfl)
    (.nil _)))).2.2 3 7 2 500 [] _ ⟨200, by decide⟩ 500 _ _ _ ⟨1900000, by decide⟩ _ rfl (.nil _)
    (.call _ _ _ (by decide) rfl)
    -- in between the other staker asks for everything and is paid first
    (.cons ⟨.call ⟨200, by decide⟩ 5 (.requestUnstake 3 7 1000) (by decide) rfl,
      nofun, fun h => absurd h.1 (by decide)⟩
    (.cons ⟨.call ⟨1800000, by decide⟩ 5 (.claimUnstake 3 7) (by decide) rfl,
      nofun, fun h => absurd h.1 (by decide)⟩
    (.nil _)))
    (.call _ _ _ (by decide) rfl)
  exact ⟨_, _, rfl, rfl, hpaid⟩

end Exits

end BasedAI
