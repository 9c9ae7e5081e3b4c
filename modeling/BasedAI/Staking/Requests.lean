import BasedAI.Staking.VaultAccounting

/-!
# BasedAI — what an unstake request moves

A request names assets, the vault moves shares: as many as are worth the amount, rounded up,
but no more than there are. This module says which number that is, whatever a share is worth.

* `ExactRequest`         — the right number of shares moves;
* `requestUnstake_exact` — every request that succeeds moves it.
-/

namespace BasedAI

open Fallible Mapping ShareMath Transition

/-- What the active shares of a staker are worth: what `stakerBalance` returns. -/
def StakingVault.worth (v : StakingVault) (b : BrainId) (w u : Address) : Nat :=
  value (v.stakerShares b w u) (v.vAssets b w) (v.vShares b w)

/-- What the shares in the cooldown are worth: what `pendingBalance` returns. -/
def StakingVault.pendingWorth (v : StakingVault) (b : BrainId) (w u : Address) : Nat :=
  value (v.pending b w u).shares (v.vAssets b w) (v.vShares b w)

/-- A request for `amount` has moved as many shares as are worth it and no more, or all of
them where they are worth less. -/
structure ExactRequest (v v' : StakingVault) (b : BrainId) (w u : Address) (amount : Nat) :
    Prop where
  moved : (v.pending b w u).shares = 0 ∧
    v'.stakerShares b w u + (v'.pending b w u).shares = v.stakerShares b w u
  least : amount ≤ v.worth b w u →
    IsLeast {n | amount ≤ value n (v.vAssets b w) (v.vShares b w)} (v'.pending b w u).shares
  all : v.worth b w u < amount → (v'.pending b w u).shares = v.stakerShares b w u
  covered : min amount (v.worth b w u) ≤ v'.pendingWorth b w u
  /-- at most a unit is lost to rounding, and none is gained -/
  kept : v'.worth b w u + v'.pendingWorth b w u ≤ v.worth b w u ∧
    v.worth b w u ≤ v'.worth b w u + v'.pendingWorth b w u + 1
  /-- where the balance can be read before, both can be read after -/
  views : ∀ r, v.stakerBalance b w u = .ok r → r = v.worth b w u ∧
    v'.stakerBalance b w u = .ok (v'.worth b w u) ∧
    v'.pendingBalance b w u = .ok (v'.pendingWorth b w u)

section Requests

variable {v : StakingVault} {b : BrainId} {w : Address} {n m : Nat}

/-- Fewer shares can be priced where more of them can. -/
theorem sharesToAssets_le {r : Nat} (hS : v.vShares b w ≠ 0)
    (h : v.sharesToAssets b w m = .ok r) (hle : n ≤ m) :
    v.sharesToAssets b w n = .ok (value n (v.vAssets b w) (v.vShares b w)) := by
  unfold StakingVault.sharesToAssets at h
  dsimp only at h
  rw [if_neg hS] at h
  simp only [bind_ok, mul256_ok] at h
  -- the product did not overflow, so the smaller one does not
  obtain ⟨_, ⟨hfits, -⟩, -⟩ := h
  exact StakingVault.sharesToAssets_fits (Nat.lt_of_le_of_lt (Nat.mul_le_mul_right _ hle) hfits)

/-- **An unstake request moves the right shares.** In every reachable state, for every pool with
assets and every request on it that succeeds. -/
theorem requestUnstake_exact {T : Type} {env : VaultEnv T} {admin : Address} {t₀ : T}
    {ls : List VaultLabel} {s s' : VaultState T} {blk : Block} {u : Address} {amount : Nat}
    (hrun : Run (VaultStep env) ⟨t₀, .deploy admin⟩ ls s) (hassets : 0 < s.vault.vAssets b w)
    (h : StakingVault.requestUnstake blk u b w amount s = .ok s') :
    ExactRequest s.vault s'.vault b w u amount := by
  have hv : VaultInv s.vault := vaultRun_inv hrun (vaultInv_deploy admin)
  obtain ⟨shares, -, hnone, hshares, hpos, rfl⟩ := StakingVault.requestUnstake_ok h
  have howned : shares ≤ s.vault.stakerShares b w u := hshares ▸ Nat.min_le_right _ _
  have hS : 0 < s.vault.vShares b w := by
    have hle : s.vault.stakerShares b w u ≤ s.vault.vShares b w :=
      (Nat.le_add_right _ _).trans (hv.holding_le b w u)
    omega
  -- the pool is as before, and the shares are in two halves
  have hactive : (set₃ s.vault.stakerShares b w u (s.vault.stakerShares b w u - shares)) b w u =
      s.vault.stakerShares b w u - shares := by
    rw [set₃_apply, if_pos ⟨rfl, rfl, rfl⟩]
  have hpending : (set₃ s.vault.pending b w u
      ⟨shares, blk.timestamp + StakingVault.UNSTAKE_COOLDOWN⟩) b w u =
      ⟨shares, blk.timestamp + StakingVault.UNSTAKE_COOLDOWN⟩ := by
    rw [set₃_apply, if_pos ⟨rfl, rfl, rfl⟩]
  have hsplit : s.vault.stakerShares b w u - shares + shares = s.vault.stakerShares b w u :=
    Nat.sub_add_cancel howned
  constructor
  · refine ⟨hnone, ?_⟩
    dsimp only
    rw [hactive, hpending]
    exact hsplit
  · intro hamount
    -- the amount asked for is not capped
    have hask := (mintUp_le_iff hassets hS).mpr hamount
    dsimp only
    rw [hpending, hshares, Nat.min_eq_left hask]
    exact ⟨le_value_mintUp hassets hS, fun n hn => (mintUp_le_iff hassets hS).mpr hn⟩
  · intro hamount
    -- the shares run out before the amount is reached
    have hask : ¬ mintUp amount (s.vault.vAssets b w) (s.vault.vShares b w) ≤
        s.vault.stakerShares b w u :=
      fun hle => absurd ((mintUp_le_iff hassets hS).mp hle) (Nat.not_le.mpr hamount)
    dsimp only
    rw [hpending, hshares, Nat.min_eq_right (Nat.le_of_not_le hask)]
  · unfold StakingVault.pendingWorth StakingVault.worth
    dsimp only
    rw [hpending, hshares]
    exact min_le_value_exit hS
  · unfold StakingVault.pendingWorth StakingVault.worth
    dsimp only
    rw [hactive, hpending]
    have hle := value_add_le (s.vault.stakerShares b w u - shares) shares (s.vault.vAssets b w)
      (s.vault.vShares b w)
    have hge := value_add_ge (x := s.vault.stakerShares b w u - shares) (y := shares)
      (A := s.vault.vAssets b w) hS
    rw [hsplit] at hle hge
    exact ⟨hle, hge⟩
  · intro r hr
    refine ⟨StakingVault.sharesToAssets_ok hr, ?_, ?_⟩
    · unfold StakingVault.stakerBalance StakingVault.worth
      dsimp only
      rw [hactive]
      exact sharesToAssets_le hS.ne' hr (Nat.sub_le _ _)
    · unfold StakingVault.pendingBalance StakingVault.pendingWorth
      dsimp only
      rw [hpending]
      exact sharesToAssets_le hS.ne' hr howned

set_option maxRecDepth 8000 in
/-- Of 1000 staked at one share a unit, a request for 400 moves 400 shares. -/
theorem requestUnstake_exact_part :
    ∃ s s' : VaultState Ledger, (s'.vault.pending 3 7 2).shares = 400 ∧
      ExactRequest s.vault s'.vault 3 7 2 400 := by
  refine ⟨_, _, ?_, @requestUnstake_exact 3 7 Ledger ⟨ledgerToken, 1, by decide⟩ 9
    ⟨fun a => if a = 2 then 5000 else 0, fun _ _ => 2 ^ 256 - 1⟩ _ _ _ ⟨200, by decide⟩ 2 400
    (.cons (.call ⟨100, by decide⟩ 2 (.stake 3 7 1000) (by decide) rfl) (.nil _)) (by decide)
    rfl⟩
  rfl

end Requests

end BasedAI
