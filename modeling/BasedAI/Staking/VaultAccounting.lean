import BasedAI.Lib.Transition
import BasedAI.Staking.VaultCalls

/-!
# BasedAI — vault accounting over whole runs

The vault keeps five counters in parallel: per pool its shares and assets, per
Brain and in total the assets, and per staker active and pending shares. This
module shows that they agree in every reachable state and that the vault always
holds the tokens they promise.

* `VaultInv`         — the counters agree;
* `VaultStep`, `vaultStep_inv` — the vault as a transition system, and the step
  lemma;
* `vault_accounting` — the accounting of every reachable state.
-/

namespace BasedAI

open Fallible Mapping ShareMath Transition

/-! ## The counters agree -/

/-- All the shares of a staker in a pool, active and pending. -/
def StakingVault.holding (v : StakingVault) (b : BrainId) (w u : Address) : Nat :=
  v.stakerShares b w u + (v.pending b w u).shares

/-- The counters of the vault agree with each other. -/
structure VaultInv (v : StakingVault) : Prop where
  shares_sum : ∀ b w, v.vShares b w = ∑ u, v.holding b w u
  brain_sum : ∀ b, v.brainAssets b = ∑ w, v.vAssets b w
  total_sum : v.totalAssets = ∑ b, v.brainAssets b
  no_shares : ∀ b w, v.vShares b w = 0 → v.vAssets b w = 0

theorem vaultInv_deploy (admin : Address) : VaultInv (.deploy admin) where
  shares_sum _ _ := by simp [StakingVault.deploy, StakingVault.holding]
  brain_sum _ := by simp [StakingVault.deploy]
  total_sum := by simp [StakingVault.deploy]
  no_shares _ _ _ := rfl

namespace VaultInv

variable {v v' : StakingVault}

theorem holding_le (hv : VaultInv v) (b : BrainId) (w u : Address) :
    v.holding b w u ≤ v.vShares b w := by
  rw [hv.shares_sum]
  exact le_sum (v.holding b w) u

theorem pending_le (hv : VaultInv v) (b : BrainId) (w u : Address) :
    (v.pending b w u).shares ≤ v.vShares b w :=
  (Nat.le_add_left _ _).trans (hv.holding_le b w u)

theorem vAssets_le_brain (hv : VaultInv v) (b : BrainId) (w : Address) :
    v.vAssets b w ≤ v.brainAssets b := by
  rw [hv.brain_sum]
  exact le_sum (v.vAssets b) w

theorem brain_le_total (hv : VaultInv v) (b : BrainId) :
    v.brainAssets b ≤ v.totalAssets := by
  rw [hv.total_sum]
  exact le_sum v.brainAssets b

theorem vAssets_le_total (hv : VaultInv v) (b : BrainId) (w : Address) :
    v.vAssets b w ≤ v.totalAssets :=
  (hv.vAssets_le_brain b w).trans (hv.brain_le_total b)

/-- **One pool moves.** Every operation writes one holding, and moves the shares
of its pool with it and the three asset counters together. -/
theorem move (hv : VaultInv v) {b : BrainId} {w u : Address} {h' S' A' B' T' : Nat}
    (hholding : v'.holding = set₃ v.holding b w u h')
    (hshares : v'.vShares = set₂ v.vShares b w S')
    (hassets : v'.vAssets = set₂ v.vAssets b w A')
    (hbrain : v'.brainAssets = set v.brainAssets b B')
    (htotal : v'.totalAssets = T')
    (hS : S' + v.holding b w u = v.vShares b w + h')
    (hB : B' + v.vAssets b w = v.brainAssets b + A')
    (hT : T' + v.vAssets b w = v.totalAssets + A')
    (hzero : S' = 0 → A' = 0) : VaultInv v' where
  shares_sum x y := by
    -- the pool's total and one holding in it move together
    rw [hshares, hholding]
    exact row_sum_set₃ hv.shares_sum hS x y
  brain_sum x := by
    -- the same one level up, for the pools of a Brain
    rw [hbrain, hassets]
    exact row_sum_set₂ hv.brain_sum hB x
  total_sum := by
    rw [htotal, hbrain]
    have hsum := sum_set_add v.brainAssets b B'
    have htot := hv.total_sum
    omega
  no_shares x y := by
    rw [hshares, hassets, set₂_apply, set₂_apply]
    split
    · exact hzero
    · exact hv.no_shares x y

end VaultInv

/-- A write to a staker's active shares is a write to the holding. -/
theorem holding_set_active {v : StakingVault} {b : BrainId} {w u : Address} {n : Nat} :
    (fun x y z => set₃ v.stakerShares b w u n x y z + (v.pending x y z).shares) =
      set₃ v.holding b w u (n + (v.pending b w u).shares) := by
  funext x y z
  simp only [set₃_apply, StakingVault.holding]
  split
  case isTrue h => obtain ⟨rfl, rfl, rfl⟩ := h; rfl
  case isFalse => rfl

/-- Deleting a pending unstake leaves the active shares. -/
theorem holding_delete_pending {v : StakingVault} {b : BrainId} {w u : Address} :
    (fun x y z => v.stakerShares x y z + (set₃ v.pending b w u ⟨0, 0⟩ x y z).shares) =
      set₃ v.holding b w u (v.stakerShares b w u) := by
  funext x y z
  simp only [set₃_apply, StakingVault.holding]
  split
  case isTrue h => obtain ⟨rfl, rfl, rfl⟩ := h; rfl
  case isFalse => rfl

/-- Moving shares from active to pending leaves every holding as it was. -/
theorem holding_move_pending {v : StakingVault} {b : BrainId} {w u : Address} {n unlockAt : Nat}
    (hn : n ≤ v.stakerShares b w u) (hp : (v.pending b w u).shares = 0) :
    (fun x y z => set₃ v.stakerShares b w u (v.stakerShares b w u - n) x y z +
      (set₃ v.pending b w u ⟨n, unlockAt⟩ x y z).shares) = v.holding := by
  funext x y z
  -- the shares that leave the active balance are the ones that enter the cooldown
  simp only [set₃_apply, StakingVault.holding]
  split
  case isTrue h =>
    obtain ⟨rfl, rfl, rfl⟩ := h
    simp only
    omega
  case isFalse => rfl

/-! ## The vault holds what it promises -/

/-- The vault's token balance exceeds its assets by exactly `surplus`. -/
def Backed {T : Type} (env : VaultEnv T) (surplus : Nat) (s : VaultState T) : Prop :=
  env.token.balanceOf s.token env.self = s.vault.totalAssets + surplus

section Steps

variable {T : Type} {env : VaultEnv T} {blk : Block} {caller : Address}
  {b : BrainId} {w : Address} {amount k : Nat} {s s' : VaultState T}

theorem stake_inv (h : StakingVault.stake env blk caller b w amount s = .ok s')
    (hv : VaultInv s.vault) : VaultInv s'.vault := by
  obtain ⟨shares, token, total, brain, -, -, -, -, hpos, -, rfl⟩ := StakingVault.stake_ok h
  -- the caller's holding, the pool and the totals all grow
  refine hv.move (b := b) (w := w) (u := caller) holding_set_active rfl rfl rfl rfl ?_ ?_ ?_ ?_
  · show _ + (_ + _) = _
    omega
  · omega
  · dsimp only
    omega
  · omega

theorem stake_backed (h : StakingVault.stake env blk caller b w amount s = .ok s')
    (hcaller : caller ≠ env.self) (hk : Backed env k s) : Backed env k s' := by
  obtain ⟨shares, token, total, brain, -, -, -, -, -, htoken, rfl⟩ := StakingVault.stake_ok h
  obtain ⟨-, hbal⟩ := safeTransferFrom_ok htoken
  unfold Backed at hk ⊢
  -- the stake comes from someone else, so the vault's balance really grows
  rw [hbal, moved_dst hcaller]
  show _ = s.vault.totalAssets + amount + k
  omega

theorem requestUnstake_inv
    (h : StakingVault.requestUnstake blk caller b w amount s = .ok s')
    (hv : VaultInv s.vault) : VaultInv s'.vault := by
  obtain ⟨shares, -, hpending, hshares, -, rfl⟩ := StakingVault.requestUnstake_ok h
  have hle : shares ≤ s.vault.stakerShares b w caller := by
    rw [hshares]
    exact min_le_right _ _
  -- no counter moves but the split of one holding
  refine ⟨fun x y => ?_, hv.brain_sum, hv.total_sum, hv.no_shares⟩
  rw [hv.shares_sum x y, ← holding_move_pending hle hpending]
  rfl

theorem claimUnstake_inv (h : StakingVault.claimUnstake env blk caller b w s = .ok s')
    (hv : VaultInv s.vault) : VaultInv s'.vault := by
  obtain ⟨shares, paid, token, total, brain, rfl, hpos, -, hpaid, hS, hA, hB, hT, -, rfl⟩ :=
    StakingVault.claimUnstake_ok h
  refine hv.move (b := b) (w := w) (u := caller)
    (holding_delete_pending (v := s.vault)) rfl rfl rfl rfl
    ?_ ?_ ?_ ?_
  · show _ + (_ + _) = _
    omega
  · omega
  · dsimp only
    omega
  · -- claiming the last shares pays the whole pool out
    intro hlast
    have hall : (s.vault.pending b w caller).shares = s.vault.vShares b w := by omega
    rw [hall, value_all (by omega)] at hpaid
    omega

theorem claimUnstake_backed (h : StakingVault.claimUnstake env blk caller b w s = .ok s')
    (hcaller : caller ≠ env.self) (hk : Backed env k s) : Backed env k s' := by
  obtain ⟨shares, paid, token, total, brain, -, -, -, -, -, -, -, hT, htoken, rfl⟩ :=
    StakingVault.claimUnstake_ok h
  obtain ⟨-, hbal⟩ := safeTransfer_ok htoken
  unfold Backed at hk ⊢
  -- and the claim goes to someone else
  rw [hbal, moved_src hcaller.symm]
  show _ = s.vault.totalAssets - paid + k
  omega

theorem slash_inv (h : StakingVault.slash env blk caller b w amount s = .ok s')
    (hv : VaultInv s.vault) : VaultInv s'.vault := by
  obtain ⟨-, ⟨-, rfl⟩ | ⟨cut, token, total, brain, -, -, hA, hB, hT, -, rfl⟩⟩ :=
    StakingVault.slash_ok h
  · exact hv
  · -- no holding moves; the three asset counters fall by the cut
    refine hv.move (b := b) (w := w) (u := caller) (set₃_self _ b w caller).symm
      (set₂_self _ b w).symm rfl rfl rfl rfl ?_ ?_ ?_
    · omega
    · dsimp only
      omega
    · intro hzero
      have := hv.no_shares b w hzero
      omega

theorem slash_backed (h : StakingVault.slash env blk caller b w amount s = .ok s')
    (hk : Backed env k s) : Backed env k s' := by
  obtain ⟨-, ⟨-, rfl⟩ | ⟨cut, token, total, brain, -, -, -, -, hT, htoken, rfl⟩⟩ :=
    StakingVault.slash_ok h
  · exact hk
  · obtain ⟨-, hbal⟩ := safeTransfer_ok htoken
    unfold Backed at hk ⊢
    -- burning would leave the balance as it is, were the vault the burn address
    rw [hbal, moved_src env.self_ne_burn]
    show _ = s.vault.totalAssets - cut + k
    omega

theorem notifyReward_inv (h : StakingVault.notifyReward env blk caller b w amount s = .ok s')
    (hv : VaultInv s.vault) : VaultInv s'.vault := by
  obtain ⟨token, total, brain, -, -, -, hS, -, rfl⟩ := StakingVault.notifyReward_ok h
  refine hv.move (b := b) (w := w) (u := caller) (set₃_self _ b w caller).symm
    (set₂_self _ b w).symm rfl rfl rfl rfl ?_ ?_ ?_
  · omega
  · dsimp only
    omega
  · exact fun hzero => absurd hzero hS

theorem notifyReward_backed
    (h : StakingVault.notifyReward env blk caller b w amount s = .ok s')
    (hcaller : caller ≠ env.self) (hk : Backed env k s) : Backed env k s' := by
  obtain ⟨token, total, brain, -, -, -, -, htoken, rfl⟩ := StakingVault.notifyReward_ok h
  obtain ⟨-, hbal⟩ := safeTransferFrom_ok htoken
  unfold Backed at hk ⊢
  rw [hbal, moved_dst hcaller]
  show _ = s.vault.totalAssets + amount + k
  omega

end Steps

/-! ## The vault as a transition system -/

/-- What can happen to the vault: a call by anyone, or tokens reaching it from
outside (the net effect of other traffic on its balance; only the vault itself
can spend from it). -/
inductive VaultLabel
  | call (blk : Block) (caller : Address) (c : VaultCall)
  | received (amount : Nat)

/-- Calls that revert leave no trace and are not steps. The vault never calls
itself. -/
inductive VaultStep {T : Type} (env : VaultEnv T) :
    VaultState T → VaultLabel → VaultState T → Prop
  | call {s s' : VaultState T} (blk : Block) (caller : Address) (c : VaultCall) :
      caller ≠ env.self → c.exec env blk caller s = .ok s' →
      VaultStep env s (.call blk caller c) s'
  | received {s : VaultState T} {t : T} {amount : Nat} :
      env.token.balanceOf t env.self = env.token.balanceOf s.token env.self + amount →
      VaultStep env s (.received amount) { s with token := t }

/-- The tokens that reached the vault directly during a run. -/
def receivedTotal : List VaultLabel → Nat
  | [] => 0
  | .call .. :: ls => receivedTotal ls
  | .received amount :: ls => amount + receivedTotal ls

theorem withRoles_inv {T : Type} {s : VaultState T} {roles : AccessControl VaultRole}
    (hv : VaultInv s.vault) : VaultInv (s.withRoles roles).vault :=
  ⟨hv.shares_sum, hv.brain_sum, hv.total_sum, hv.no_shares⟩

section Run

variable {T : Type} {env : VaultEnv T} {s s' : VaultState T}

theorem exec_inv {blk : Block} {caller : Address} {c : VaultCall}
    (h : c.exec env blk caller s = .ok s') (hv : VaultInv s.vault) : VaultInv s'.vault := by
  cases c with
  | stake b w amount => exact stake_inv h hv
  | requestUnstake b w amount => exact requestUnstake_inv h hv
  | claimUnstake b w => exact claimUnstake_inv h hv
  | slash b w amount => exact slash_inv h hv
  | notifyReward b w amount => exact notifyReward_inv h hv
  | _ =>
    obtain ⟨roles, rfl⟩ := forRoles_ok h rfl
    exact withRoles_inv hv

theorem exec_backed {blk : Block} {caller : Address} {c : VaultCall} {k : Nat}
    (h : c.exec env blk caller s = .ok s') (hcaller : caller ≠ env.self)
    (hk : Backed env k s) : Backed env k s' := by
  cases c with
  | stake b w amount => exact stake_backed h hcaller hk
  | requestUnstake b w amount =>
    obtain ⟨shares, -, -, -, -, rfl⟩ := StakingVault.requestUnstake_ok h
    exact hk
  | claimUnstake b w => exact claimUnstake_backed h hcaller hk
  | slash b w amount => exact slash_backed h hk
  | notifyReward b w amount => exact notifyReward_backed h hcaller hk
  | _ =>
    obtain ⟨roles, rfl⟩ := forRoles_ok h rfl
    exact hk

theorem vaultStep_inv {l : VaultLabel} (h : VaultStep env s l s') (hv : VaultInv s.vault) :
    VaultInv s'.vault := by
  cases h with
  | call _ _ _ _ hexec => exact exec_inv hexec hv
  | received _ => exact hv

theorem vaultRun_inv {ls : List VaultLabel} (h : Run (VaultStep env) s ls s')
    (hv : VaultInv s.vault) : VaultInv s'.vault :=
  h.invariant (I := fun s => VaultInv s.vault) vaultStep_inv hv

/-- Over a run the surplus grows by exactly what reached the vault directly. -/
theorem vaultRun_backed {ls : List VaultLabel} (h : Run (VaultStep env) s ls s') {k : Nat}
    (hk : Backed env k s) : Backed env (k + receivedTotal ls) s' := by
  induction h generalizing k with
  | nil s => exact hk
  | cons hstep _ ih =>
    cases hstep with
    -- a call keeps the surplus, tokens from outside are added to it
    | call _ _ _ hcaller hexec => exact ih (exec_backed hexec hcaller hk)
    | received ht =>
      rw [receivedTotal, ← Nat.add_assoc]
      apply ih
      unfold Backed at hk ⊢
      rw [ht, hk, Nat.add_assoc]

end Run

/-! ## Accounting -/

namespace VaultInv

variable {T : Type} {env : VaultEnv T} {v : StakingVault}

/-- The balances of a pool's stakers, active and pending and each rounded on its
own, are together at most the pool's assets. -/
theorem balances_le (hv : VaultInv v) (b : BrainId) (w : Address) :
    ∑ u, (value (v.stakerShares b w u) (v.vAssets b w) (v.vShares b w) +
      value (v.pending b w u).shares (v.vAssets b w) (v.vShares b w)) ≤ v.vAssets b w := by
  calc _ ≤ ∑ u, value (v.holding b w u) (v.vAssets b w) (v.vShares b w) :=
        Finset.sum_le_sum fun u _ => value_add_le _ _ _ _
    _ ≤ v.vAssets b w := sum_value_le _ _ (hv.shares_sum b w).ge

/-- No subtraction of `slash` underflows. -/
theorem slash_no_underflow {blk : Block} {caller : Address} {b : BrainId} {w : Address}
    {amount : Nat} {s : VaultState T} (hv : VaultInv s.vault) :
    StakingVault.slash env blk caller b w amount s ≠ .error .underflow := by
  intro h
  have hcut := StakingVault.slashed_le s.vault b w amount
  have hB := hv.vAssets_le_brain b w
  have hT := hv.vAssets_le_total b w
  simp only [StakingVault.slash, AccessControl.onlyRole, bind_error, revertIf_error,
    reduceCtorEq, and_false, false_or] at h
  obtain ⟨_, -, h⟩ := h
  split at h
  · exact return_error.mp h
  · simp only [bind_error, sub256, checkedSub_error, checkedSub_ok, return_error,
      and_true, and_false, exists_false, or_false, safeTransfer, orRevert_error,
      reduceCtorEq] at h
    -- in the order of the source: the pool, the Brain, the total, the checkpoint
    rcases h with h | ⟨_, -, h | ⟨_, -, h | ⟨_, -, h⟩⟩⟩
    · omega
    · omega
    · omega
    · cases StakingVault.checkpoint_error h

/-- No subtraction of `claimUnstake` underflows. -/
theorem claimUnstake_no_underflow {blk : Block} {caller : Address} {b : BrainId}
    {w : Address} {s : VaultState T} (hv : VaultInv s.vault) :
    StakingVault.claimUnstake env blk caller b w s ≠ .error .underflow := by
  intro h
  have hS := hv.pending_le b w caller
  have hB := hv.vAssets_le_brain b w
  have hT := hv.vAssets_le_total b w
  simp only [StakingVault.claimUnstake, bind_error, revertIf_error, reduceCtorEq, and_false,
    false_or, sub256, checkedSub_error, checkedSub_ok, return_error, exists_false, or_false,
    and_true, safeTransfer, orRevert_error] at h
  obtain ⟨_, -, _, -, h⟩ := h
  rcases h with h | ⟨paid, hpaid, h⟩
  · cases StakingVault.sharesToAssets_error h
  · -- the shares of a staker are at most the pool's, so the payout is at most its assets
    have hle : paid ≤ s.vault.vAssets b w := by
      rw [StakingVault.sharesToAssets_ok hpaid]
      exact value_le hS
    rcases h with h | ⟨_, -, h | ⟨_, -, h | ⟨_, -, h | ⟨_, -, h⟩⟩⟩⟩
    · omega
    · omega
    · omega
    · omega
    · cases StakingVault.checkpoint_error h

end VaultInv

/-- The accounting of a vault that has been sent `surplus` tokens directly. -/
structure VaultAccounting {T : Type} (env : VaultEnv T) (surplus : Nat) (s : VaultState T) :
    Prop where
  shares : ∀ b w, s.vault.vShares b w =
    ∑ u, (s.vault.stakerShares b w u + (s.vault.pending b w u).shares)
  brain : ∀ b, s.vault.brainStake b = ∑ w, s.vault.validatorStake b w
  total : s.vault.totalStaked = ∑ b, s.vault.brainStake b
  balance : env.token.balanceOf s.token env.self = s.vault.totalStaked + surplus
  no_shares : ∀ b w, s.vault.vShares b w = 0 → s.vault.validatorStake b w = 0
  /-- the exact value of every balance, which the two views return unless the
  product overflows, and the sum of these values over all stakers -/
  stakerBalance : ∀ b w u r, s.vault.stakerBalance b w u = .ok r →
    r = value (s.vault.stakerShares b w u) (s.vault.vAssets b w) (s.vault.vShares b w)
  pendingBalance : ∀ b w u r, s.vault.pendingBalance b w u = .ok r →
    r = value (s.vault.pending b w u).shares (s.vault.vAssets b w) (s.vault.vShares b w)
  balances : ∀ b w,
    ∑ u, (value (s.vault.stakerShares b w u) (s.vault.vAssets b w) (s.vault.vShares b w) +
      value (s.vault.pending b w u).shares (s.vault.vAssets b w) (s.vault.vShares b w)) ≤
      s.vault.validatorStake b w
  slash_no_underflow : ∀ blk caller b w amount,
    StakingVault.slash env blk caller b w amount s ≠ .error .underflow
  claim_no_underflow : ∀ blk caller b w,
    StakingVault.claimUnstake env blk caller b w s ≠ .error .underflow

/--
**Vault accounting.** In every state the vault can reach, by any calls of any
callers in any order, all its counters agree, its stakers' claims are covered
by their pools, and its token balance is its assets plus exactly the tokens
that were sent to it directly, before deployment or since.
-/
theorem vault_accounting {T : Type} {env : VaultEnv T} {admin : Address} {t₀ : T}
    {ls : List VaultLabel} {s : VaultState T}
    (h : Run (VaultStep env) ⟨t₀, .deploy admin⟩ ls s) :
    VaultAccounting env (env.token.balanceOf t₀ env.self + receivedTotal ls) s := by
  have hv : VaultInv s.vault := vaultRun_inv h (vaultInv_deploy admin)
  have hbacked : Backed env (env.token.balanceOf t₀ env.self + receivedTotal ls) s :=
    vaultRun_backed h (Nat.zero_add _).symm
  -- the invariant for the counters, the backing for the balance
  exact {
    shares := hv.shares_sum
    brain := hv.brain_sum
    total := hv.total_sum
    balance := hbacked
    no_shares := hv.no_shares
    stakerBalance := fun _ _ _ _ => StakingVault.sharesToAssets_ok
    pendingBalance := fun _ _ _ _ => StakingVault.sharesToAssets_ok
    balances := hv.balances_le
    slash_no_underflow := fun _ _ _ _ _ => hv.slash_no_underflow
    claim_no_underflow := fun _ _ _ _ => hv.claimUnstake_no_underflow }

set_option maxRecDepth 8000 in
/-- The accounting after a stake of 1000 and a request to unstake 400 of it. -/
theorem vault_accounting_stake_request :
    ∃ s : VaultState Ledger, s.vault.totalStaked = 1000 ∧
      (s.vault.pending 3 7 2).shares = 400 ∧
      VaultAccounting ⟨ledgerToken, 1, by decide⟩ 0 s := by
  refine ⟨_, ?_, ?_, @vault_accounting Ledger ⟨ledgerToken, 1, by decide⟩ 9
    ⟨fun a => if a = 2 then 5000 else 0, fun _ _ => 2 ^ 256 - 1⟩ _ _
    (.cons (.call ⟨100, by decide⟩ 2 (.stake 3 7 1000) (by decide) rfl)
    (.cons (.call ⟨200, by decide⟩ 2 (.requestUnstake 3 7 400) (by decide) rfl) (.nil _)))⟩
  · rfl
  · rfl

end BasedAI
