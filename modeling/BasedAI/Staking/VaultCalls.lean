import BasedAI.Staking.StakingVault

/-!
# BasedAI — what a successful vault call does

One lemma per entry point of `StakingVault`: a call that does not revert passed
every check, and its new state is the old one with the stated entries written.
All later proofs about the vault start from these lemmas and never unfold an
entry point. The last section reads them pool by pool: `exec_pool` is everything
a call can do to one pool, slashing aside.
-/

namespace BasedAI

open Fallible Mapping ShareMath

namespace StakingVault

/-! ## Share conversions -/

theorem assetsToShares_ok {v : StakingVault} {b : BrainId} {w : Address} {amount r : Nat}
    (h : v.assetsToShares b w amount = .ok r) :
    r = mint amount (v.vAssets b w) (v.vShares b w) := by
  unfold assetsToShares at h
  dsimp only at h
  unfold mint
  split at h
  -- an empty pool mints one share a unit, otherwise the product is exact
  case isTrue hc => rw [if_pos hc, return_ok.mp h]
  case isFalse hc =>
    rw [if_neg hc]
    simp only [bind_ok, mul256_ok, return_ok] at h
    obtain ⟨_, ⟨-, rfl⟩, rfl⟩ := h
    rfl

theorem assetsToSharesUp_ok {v : StakingVault} {b : BrainId} {w : Address} {amount r : Nat}
    (h : v.assetsToSharesUp b w amount = .ok r) :
    r = mintUp amount (v.vAssets b w) (v.vShares b w) := by
  unfold assetsToSharesUp at h
  dsimp only at h
  unfold mintUp
  split at h
  case isTrue hc => rw [if_pos hc, return_ok.mp h]
  case isFalse hc =>
    rw [if_neg hc]
    simp only [bind_ok, mul256_ok, add256_ok, sub256_ok, return_ok] at h
    obtain ⟨_, ⟨-, rfl⟩, _, ⟨-, rfl⟩, _, ⟨-, rfl⟩, rfl⟩ := h
    rfl

/-- A view that does not overflow returns the floor value of the shares. -/
theorem sharesToAssets_ok {v : StakingVault} {b : BrainId} {w : Address} {shares r : Nat}
    (h : v.sharesToAssets b w shares = .ok r) :
    r = value shares (v.vAssets b w) (v.vShares b w) := by
  unfold sharesToAssets at h
  dsimp only at h
  split at h
  case isTrue hc => rw [← return_ok.mp h, value, hc, Nat.div_zero]
  case isFalse hc =>
    simp only [bind_ok, mul256_ok, return_ok] at h
    obtain ⟨_, ⟨-, rfl⟩, rfl⟩ := h
    rfl

/-- A conversion that does not overflow. -/
theorem sharesToAssets_fits {v : StakingVault} {b : BrainId} {w : Address} {shares : Nat}
    (h : shares * v.vAssets b w < 2 ^ 256) :
    v.sharesToAssets b w shares = .ok (value shares (v.vAssets b w) (v.vShares b w)) := by
  unfold sharesToAssets
  dsimp only
  split
  case isTrue hzero =>
    rw [value, hzero, Nat.div_zero]
    rfl
  case isFalse =>
    rw [mul256, checkedMul_eq h]
    rfl

/-- A conversion only aborts by overflow. -/
theorem sharesToAssets_error {v : StakingVault} {b : BrainId} {w : Address} {shares : Nat}
    {e : Revert} (h : v.sharesToAssets b w shares = .error e) : e = .overflow := by
  unfold sharesToAssets at h
  dsimp only at h
  split at h
  case isTrue => exact (return_error.mp h).elim
  case isFalse =>
    simp only [bind_error, mul256, checkedMul_error, return_error, and_false, exists_false,
      or_false] at h
    exact h.2.symm

/-- A checkpoint only writes the two histories. -/
theorem checkpoint_ok {blk : Block} {b : BrainId} {v v' : StakingVault}
    (h : checkpoint blk b v = .ok v') :
    ∃ total brain,
      v.totalHistory.push (clock blk) (uint208 v.totalAssets) = .ok total ∧
      (v.brainHistory b).push (clock blk) (uint208 (v.brainAssets b)) = .ok brain ∧
      v' = { v with totalHistory := total, brainHistory := set v.brainHistory b brain } := by
  unfold checkpoint at h
  simp only [bind_ok, return_ok] at h
  obtain ⟨total, htotal, brain, hbrain, rfl⟩ := h
  exact ⟨total, brain, htotal, hbrain, rfl⟩

theorem push_error {trace : Trace208} {k x : Nat} {e : Revert}
    (h : trace.push k x = .error e) : e = .checkpointUnorderedInsertion := by
  cases trace with
  | nil => cases h
  | cons last older =>
    unfold Trace208.push at h
    dsimp only at h
    -- only a key older than the newest one is refused
    split_ifs at h
    cases h
    rfl

theorem checkpoint_error {blk : Block} {b : BrainId} {v : StakingVault} {e : Revert}
    (h : checkpoint blk b v = .error e) : e = .checkpointUnorderedInsertion := by
  unfold checkpoint at h
  simp only [bind_error, return_error, and_false, exists_false, or_false] at h
  rcases h with h | ⟨_, -, h⟩
  · exact push_error h
  · exact push_error h

/-! ## Entry points -/

section Calls

variable {T : Type} {env : VaultEnv T} {blk : Block} {caller : Address}
  {b : BrainId} {w : Address} {amount : Nat} {s s' : VaultState T}

theorem stake_ok (h : stake env blk caller b w amount s = .ok s') :
    ∃ shares token total brain,
      0 < amount ∧ w ≠ 0 ∧
      (s.vault.vShares b w = 0 ∨ s.vault.vAssets b w ≠ 0) ∧
      shares = mint amount (s.vault.vAssets b w) (s.vault.vShares b w) ∧ 0 < shares ∧
      safeTransferFrom env.token s.token env.self caller env.self amount = .ok token ∧
      s' = ⟨token, { s.vault with
        stakerShares := set₃ s.vault.stakerShares b w caller
          (s.vault.stakerShares b w caller + shares)
        vShares := set₂ s.vault.vShares b w (s.vault.vShares b w + shares)
        vAssets := set₂ s.vault.vAssets b w (s.vault.vAssets b w + amount)
        brainAssets := set s.vault.brainAssets b (s.vault.brainAssets b + amount)
        totalAssets := s.vault.totalAssets + amount
        totalHistory := total
        brainHistory := set s.vault.brainHistory b brain }⟩ := by
  simp only [stake, bind_ok, revertIf_ok, add256_ok, return_ok, exists_const] at h
  obtain ⟨hamount, hw, hsolvent, token, htoken, shares, hshares, hpos, _, ⟨-, rfl⟩, _,
    ⟨-, rfl⟩, _, ⟨-, rfl⟩, _, ⟨-, rfl⟩, _, ⟨-, rfl⟩, vault, hvault, rfl⟩ := h
  obtain ⟨total, brain, -, -, rfl⟩ := checkpoint_ok hvault
  refine ⟨shares, token, total, brain, Nat.pos_of_ne_zero hamount, hw, ?_,
    assetsToShares_ok hshares, Nat.pos_of_ne_zero hpos, htoken, rfl⟩
  -- the guard against an insolvent pool, as a disjunction
  by_cases hS : s.vault.vShares b w = 0
  · exact .inl hS
  · exact .inr fun hA => hsolvent ⟨hS, hA⟩

theorem requestUnstake_ok (h : requestUnstake blk caller b w amount s = .ok s') :
    ∃ shares,
      0 < amount ∧ (s.vault.pending b w caller).shares = 0 ∧
      shares = min (mintUp amount (s.vault.vAssets b w) (s.vault.vShares b w))
        (s.vault.stakerShares b w caller) ∧ 0 < shares ∧
      s' = { s with vault := { s.vault with
        stakerShares := set₃ s.vault.stakerShares b w caller
          (s.vault.stakerShares b w caller - shares)
        pending := set₃ s.vault.pending b w caller
          ⟨shares, blk.timestamp + UNSTAKE_COOLDOWN⟩ } } := by
  simp only [requestUnstake, bind_ok, revertIf_ok, add64_ok, return_ok, exists_const,
    uint64_timestamp, ne_eq, not_not] at h
  obtain ⟨hamount, hpending, rounded, hrounded, hpos, _, ⟨-, rfl⟩, _, -, rfl⟩ := h
  have hrounded := assetsToSharesUp_ok hrounded
  -- what the source caps by a comparison is the smaller of the two
  have hmin : (if rounded > s.vault.stakerShares b w caller then
      s.vault.stakerShares b w caller else rounded) =
      min (mintUp amount (s.vault.vAssets b w) (s.vault.vShares b w))
        (s.vault.stakerShares b w caller) := by
    rw [← hrounded]
    split <;> omega
  rw [hmin] at hpos ⊢
  exact ⟨_, Nat.pos_of_ne_zero hamount, hpending, rfl, Nat.pos_of_ne_zero hpos, rfl⟩

theorem claimUnstake_ok (h : claimUnstake env blk caller b w s = .ok s') :
    ∃ shares paid token total brain,
      shares = (s.vault.pending b w caller).shares ∧ 0 < shares ∧
      (s.vault.pending b w caller).unlockAt ≤ blk.timestamp ∧
      paid = value shares (s.vault.vAssets b w) (s.vault.vShares b w) ∧
      shares ≤ s.vault.vShares b w ∧ paid ≤ s.vault.vAssets b w ∧
      paid ≤ s.vault.brainAssets b ∧ paid ≤ s.vault.totalAssets ∧
      safeTransfer env.token s.token env.self caller paid = .ok token ∧
      s' = ⟨token, { s.vault with
        pending := set₃ s.vault.pending b w caller ⟨0, 0⟩
        vShares := set₂ s.vault.vShares b w (s.vault.vShares b w - shares)
        vAssets := set₂ s.vault.vAssets b w (s.vault.vAssets b w - paid)
        brainAssets := set s.vault.brainAssets b (s.vault.brainAssets b - paid)
        totalAssets := s.vault.totalAssets - paid
        totalHistory := total
        brainHistory := set s.vault.brainHistory b brain }⟩ := by
  simp only [claimUnstake, bind_ok, revertIf_ok, sub256_ok, return_ok, exists_const] at h
  obtain ⟨hpos, htime, paid, hpaid, _, ⟨hS, rfl⟩, _, ⟨hA, rfl⟩, _, ⟨hB, rfl⟩, _, ⟨hT, rfl⟩,
    vault, hvault, token, htoken, rfl⟩ := h
  obtain ⟨total, brain, -, -, rfl⟩ := checkpoint_ok hvault
  exact ⟨_, paid, token, total, brain, rfl, Nat.pos_of_ne_zero hpos, Nat.le_of_not_lt htime,
    sharesToAssets_ok hpaid, hS, hA, hB, hT, htoken, rfl⟩

theorem slashed_le (v : StakingVault) (b : BrainId) (w : Address) (amount : Nat) :
    v.slashed b w amount ≤ v.vAssets b w := by
  unfold slashed
  split <;> omega

/-- A slash of the whole pool takes the whole pool. -/
theorem slashed_all (v : StakingVault) (b : BrainId) (w : Address) :
    v.slashed b w (v.validatorStake b w) = v.validatorStake b w := by
  unfold slashed validatorStake
  rw [if_neg (Nat.lt_irrefl _)]

/-- A slash that takes nothing changes nothing. -/
theorem slash_ok (h : slash env blk caller b w amount s = .ok s') :
    s.vault.roles.hasRole .slasher caller = true ∧
    ((s.vault.slashed b w amount = 0 ∧ s' = s) ∨
      ∃ cut token total brain,
        cut = s.vault.slashed b w amount ∧ 0 < cut ∧ cut ≤ s.vault.vAssets b w ∧
        cut ≤ s.vault.brainAssets b ∧ cut ≤ s.vault.totalAssets ∧
        safeTransfer env.token s.token env.self BURN_ADDRESS cut = .ok token ∧
        s' = ⟨token, { s.vault with
          vAssets := set₂ s.vault.vAssets b w (s.vault.vAssets b w - cut)
          brainAssets := set s.vault.brainAssets b (s.vault.brainAssets b - cut)
          totalAssets := s.vault.totalAssets - cut
          totalHistory := total
          brainHistory := set s.vault.brainHistory b brain }⟩) := by
  simp only [slash, bind_ok, AccessControl.onlyRole_ok, exists_const] at h
  obtain ⟨hrole, h⟩ := h
  refine ⟨hrole, ?_⟩
  -- the early return, or the three counters moving together
  split at h
  case isTrue hzero => exact .inl ⟨hzero, (return_ok.mp h).symm⟩
  case isFalse hpos =>
    simp only [bind_ok, sub256_ok, return_ok] at h
    obtain ⟨_, ⟨hA, rfl⟩, _, ⟨hB, rfl⟩, _, ⟨hT, rfl⟩, vault, hvault, token, htoken, rfl⟩ := h
    obtain ⟨total, brain, -, -, rfl⟩ := checkpoint_ok hvault
    exact .inr ⟨_, token, total, brain, rfl, Nat.pos_of_ne_zero hpos, hA, hB, hT, htoken, rfl⟩

theorem notifyReward_ok (h : notifyReward env blk caller b w amount s = .ok s') :
    ∃ token total brain,
      s.vault.roles.hasRole .rewarder caller = true ∧ 0 < amount ∧ w ≠ 0 ∧
      s.vault.vShares b w ≠ 0 ∧
      safeTransferFrom env.token s.token env.self caller env.self amount = .ok token ∧
      s' = ⟨token, { s.vault with
        vAssets := set₂ s.vault.vAssets b w (s.vault.vAssets b w + amount)
        brainAssets := set s.vault.brainAssets b (s.vault.brainAssets b + amount)
        totalAssets := s.vault.totalAssets + amount
        totalHistory := total
        brainHistory := set s.vault.brainHistory b brain }⟩ := by
  simp only [notifyReward, bind_ok, AccessControl.onlyRole_ok, revertIf_ok, add256_ok,
    return_ok, exists_const] at h
  obtain ⟨hrole, hamount, hw, hS, token, htoken, _, ⟨-, rfl⟩, _, ⟨-, rfl⟩, _, ⟨-, rfl⟩,
    vault, hvault, rfl⟩ := h
  obtain ⟨total, brain, -, -, rfl⟩ := checkpoint_ok hvault
  exact ⟨token, total, brain, hrole, Nat.pos_of_ne_zero hamount, hw, hS, htoken, rfl⟩

end Calls

end StakingVault

/-! ## The histories -/

/-- What a call in block `blk` does to the two histories: nothing, as it moves no
stake, or it records the total and the stake of the one Brain it moves. -/
inductive Recorded (blk : Block) (v v' : StakingVault) : Prop
  | still : v'.totalAssets = v.totalAssets → v'.brainAssets = v.brainAssets →
      v'.totalHistory = v.totalHistory → v'.brainHistory = v.brainHistory → Recorded blk v v'
  | moved (b : BrainId) (trace : Trace208) :
      v.totalHistory.push (StakingVault.clock blk) (uint208 v'.totalAssets) =
        .ok v'.totalHistory →
      (v.brainHistory b).push (StakingVault.clock blk) (uint208 (v'.brainAssets b)) =
        .ok trace →
      v'.brainHistory = set v.brainHistory b trace →
      (∀ b', b' ≠ b → v'.brainAssets b' = v.brainAssets b') → Recorded blk v v'

/-- A checkpoint taken after the last write records the call. -/
theorem checkpoint_recorded {blk : Block} {b : BrainId} {v written v' : StakingVault}
    (h : StakingVault.checkpoint blk b written = .ok v')
    (htotal : written.totalHistory = v.totalHistory)
    (hbrain : written.brainHistory = v.brainHistory)
    (hother : ∀ b', b' ≠ b → written.brainAssets b' = v.brainAssets b') :
    Recorded blk v v' := by
  obtain ⟨total, brain, hpushTotal, hpushBrain, rfl⟩ := StakingVault.checkpoint_ok h
  rw [htotal] at hpushTotal
  rw [hbrain] at hpushBrain
  refine .moved b brain hpushTotal hpushBrain ?_ hother
  dsimp only
  rw [hbrain]

/-! ## One pool -/

/-- What a call of `caller` in block `blk`, other than a slash of it, can do to
the pool of `w` on `b`: grow it, move shares of the caller into the cooldown, or
pay out the caller's shares whose cooldown is over. -/
inductive PoolMove (blk : Block) (caller : Address) (v v' : StakingVault) (b : BrainId)
    (w : Address) : Prop
  | grow : v'.pending b w = v.pending b w → v.vShares b w ≤ v'.vShares b w →
      v.vAssets b w ≤ v'.vAssets b w → PoolMove blk caller v v' b w
  | request (shares : Nat) : (v.pending b w caller).shares = 0 →
      v'.pending b w = set (v.pending b w) caller
        ⟨shares, blk.timestamp + StakingVault.UNSTAKE_COOLDOWN⟩ →
      v'.vShares b w = v.vShares b w → v'.vAssets b w = v.vAssets b w →
      PoolMove blk caller v v' b w
  | claim (shares : Nat) : (v.pending b w caller).shares = shares →
      (v.pending b w caller).unlockAt ≤ blk.timestamp → shares ≤ v.vShares b w →
      v'.pending b w = set (v.pending b w) caller ⟨0, 0⟩ →
      v'.vShares b w = v.vShares b w - shares →
      v'.vAssets b w = v.vAssets b w - value shares (v.vAssets b w) (v.vShares b w) →
      PoolMove blk caller v v' b w

/-- The calls that only change a role. -/
def VaultCall.forRoles : VaultCall → Bool
  | .grantRole _ _ | .revokeRole _ _ | .renounceRole _ _ => true
  | _ => false

/-- A change of roles touches no other storage. -/
theorem forRoles_ok {T : Type} {env : VaultEnv T} {blk : Block} {caller : Address}
    {s s' : VaultState T} {c : VaultCall} (h : c.exec env blk caller s = .ok s')
    (hc : c.forRoles = true) : ∃ roles, s' = s.withRoles roles := by
  cases c with
  | grantRole role account =>
    obtain ⟨roles, -, rfl⟩ := map_ok.mp h
    exact ⟨roles, rfl⟩
  | revokeRole role account =>
    obtain ⟨roles, -, rfl⟩ := map_ok.mp h
    exact ⟨roles, rfl⟩
  | renounceRole role confirmation =>
    obtain ⟨roles, -, rfl⟩ := map_ok.mp h
    exact ⟨roles, rfl⟩
  | _ => cases hc

section Histories

variable {T : Type} {env : VaultEnv T} {blk : Block} {caller : Address} {s s' : VaultState T}

/-- **Every call that moves stake records it**, in the block it is made in. -/
theorem exec_recorded {c : VaultCall} (h : c.exec env blk caller s = .ok s') :
    Recorded blk s.vault s'.vault := by
  -- whatever changes a total also checkpoints it
  cases c with
  | stake b w amount =>
    simp only [VaultCall.exec, StakingVault.stake, bind_ok, add256_ok, return_ok] at h
    obtain ⟨_, -, _, -, _, -, _, -, _, -, _, -, _, -, _, -, _, -, _, ⟨-, rfl⟩, _, -, _,
      hvault, rfl⟩ := h
    exact checkpoint_recorded hvault rfl rfl fun b' hb' => set_of_ne _ _ hb'
  | requestUnstake b w amount =>
    obtain ⟨shares, -, -, -, -, rfl⟩ := StakingVault.requestUnstake_ok h
    exact .still rfl rfl rfl rfl
  | claimUnstake b w =>
    simp only [VaultCall.exec, StakingVault.claimUnstake, bind_ok, sub256_ok, return_ok] at h
    obtain ⟨_, -, _, -, _, -, _, -, _, -, _, ⟨-, rfl⟩, _, -, _, hvault, _, -, rfl⟩ := h
    exact checkpoint_recorded hvault rfl rfl fun b' hb' => set_of_ne _ _ hb'
  | slash b w amount =>
    simp only [VaultCall.exec, StakingVault.slash, bind_ok] at h
    obtain ⟨_, -, h⟩ := h
    split at h
    case isTrue =>
      rw [← return_ok.mp h]
      exact .still rfl rfl rfl rfl
    case isFalse =>
      simp only [bind_ok, sub256_ok, return_ok] at h
      obtain ⟨_, -, _, ⟨-, rfl⟩, _, -, _, hvault, _, -, rfl⟩ := h
      exact checkpoint_recorded hvault rfl rfl fun b' hb' => set_of_ne _ _ hb'
  | notifyReward b w amount =>
    simp only [VaultCall.exec, StakingVault.notifyReward, bind_ok, add256_ok, return_ok] at h
    obtain ⟨_, -, _, -, _, -, _, -, _, -, _, -, _, ⟨-, rfl⟩, _, -, _, hvault, rfl⟩ := h
    exact checkpoint_recorded hvault rfl rfl fun b' hb' => set_of_ne _ _ hb'
  | _ =>
    obtain ⟨roles, rfl⟩ := forRoles_ok h rfl
    exact .still rfl rfl rfl rfl

/-- A call takes tokens from nobody but its caller and the vault. -/
theorem exec_balance {c : VaultCall} (h : c.exec env blk caller s = .ok s') {a : Address}
    (hself : a ≠ env.self) (hcaller : a ≠ caller) :
    env.token.balanceOf s.token a ≤ env.token.balanceOf s'.token a := by
  -- tokens leave only the caller and the vault itself
  cases c with
  | stake b w amount =>
    obtain ⟨shares, token, total, brain, -, -, -, -, -, htoken, rfl⟩ := StakingVault.stake_ok h
    obtain ⟨-, hbal⟩ := safeTransferFrom_ok htoken
    rw [hbal]
    exact le_moved _ _ hcaller
  | requestUnstake b w amount =>
    obtain ⟨shares, -, -, -, -, rfl⟩ := StakingVault.requestUnstake_ok h
    exact le_rfl
  | claimUnstake b w =>
    obtain ⟨shares, paid, token, total, brain, -, -, -, -, -, -, -, -, htoken, rfl⟩ :=
      StakingVault.claimUnstake_ok h
    obtain ⟨-, hbal⟩ := safeTransfer_ok htoken
    rw [hbal]
    exact le_moved _ _ hself
  | slash b w amount =>
    obtain ⟨-, ⟨-, rfl⟩ | ⟨cut, token, total, brain, -, -, -, -, -, htoken, rfl⟩⟩ :=
      StakingVault.slash_ok h
    · exact le_rfl
    · obtain ⟨-, hbal⟩ := safeTransfer_ok htoken
      rw [hbal]
      exact le_moved _ _ hself
  | notifyReward b w amount =>
    obtain ⟨token, total, brain, -, -, -, -, htoken, rfl⟩ := StakingVault.notifyReward_ok h
    obtain ⟨-, hbal⟩ := safeTransferFrom_ok htoken
    rw [hbal]
    exact le_moved _ _ hcaller
  | _ =>
    obtain ⟨roles, rfl⟩ := forRoles_ok h rfl
    exact le_rfl

/-- Every other call leaves the roles as they are. -/
theorem exec_roles {c : VaultCall} (h : c.exec env blk caller s = .ok s')
    (hc : c.forRoles = false) : s'.vault.roles = s.vault.roles := by
  cases c with
  | stake b w amount =>
    obtain ⟨shares, token, total, brain, -, -, -, -, -, -, rfl⟩ := StakingVault.stake_ok h
    rfl
  | requestUnstake b w amount =>
    obtain ⟨shares, -, -, -, -, rfl⟩ := StakingVault.requestUnstake_ok h
    rfl
  | claimUnstake b w =>
    obtain ⟨shares, paid, token, total, brain, -, -, -, -, -, -, -, -, -, rfl⟩ :=
      StakingVault.claimUnstake_ok h
    rfl
  | slash b w amount =>
    obtain ⟨-, ⟨-, rfl⟩ | ⟨cut, token, total, brain, -, -, -, -, -, -, rfl⟩⟩ :=
      StakingVault.slash_ok h
    · rfl
    · rfl
  | notifyReward b w amount =>
    obtain ⟨token, total, brain, -, -, -, -, -, rfl⟩ := StakingVault.notifyReward_ok h
    rfl
  -- only these set roles
  | grantRole | revokeRole | renounceRole => cases hc

end Histories

section Pool

variable {T : Type} {env : VaultEnv T} {blk : Block} {caller : Address} {s s' : VaultState T}

/-- A slash of one pool leaves the others. -/
theorem slash_pool {b b' : BrainId} {w w' : Address} {amount : Nat}
    (h : StakingVault.slash env blk caller b' w' amount s = .ok s') (hne : ¬ (b = b' ∧ w = w')) :
    PoolMove blk caller s.vault s'.vault b w := by
  obtain ⟨-, ⟨-, rfl⟩ | ⟨cut, token, total, brain, -, -, -, -, -, -, rfl⟩⟩ :=
    StakingVault.slash_ok h
  · exact .grow rfl le_rfl le_rfl
  · refine .grow rfl le_rfl ?_
    dsimp only
    rw [set₂_of_ne _ _ hne]

theorem exec_pool {c : VaultCall} (h : c.exec env blk caller s = .ok s') {b : BrainId}
    {w : Address} (hslash : ∀ amount, c ≠ .slash b w amount) :
    PoolMove blk caller s.vault s'.vault b w := by
  cases c with
  | stake b' w' amount =>
    obtain ⟨shares, token, total, brain, -, -, -, -, -, -, rfl⟩ := StakingVault.stake_ok h
    -- a deposit raises the shares and the assets of one pool, perhaps of this one
    have hS := le_set₂_add s.vault.vShares b' b w' w shares
    have hA := le_set₂_add s.vault.vAssets b' b w' w amount
    exact .grow rfl hS hA
  | requestUnstake b' w' amount =>
    obtain ⟨shares, -, hnone, -, -, rfl⟩ := StakingVault.requestUnstake_ok h
    -- a request elsewhere leaves the pool alone
    by_cases hpool : b = b' ∧ w = w'
    · obtain ⟨rfl, rfl⟩ := hpool
      refine .request shares hnone ?_ rfl rfl
      dsimp only
      rw [set₃_row, if_pos ⟨rfl, rfl⟩]
    · refine .grow ?_ le_rfl le_rfl
      dsimp only
      rw [set₃_row, if_neg hpool]
  | claimUnstake b' w' =>
    obtain ⟨shares, paid, token, total, brain, hshares, -, htime, hpaid, hS, -, -, -, -, rfl⟩ :=
      StakingVault.claimUnstake_ok h
    by_cases hpool : b = b' ∧ w = w'
    · obtain ⟨rfl, rfl⟩ := hpool
      -- the caller's own cooldown in this pool is over and paid out
      refine .claim shares hshares.symm htime hS ?_ ?_ ?_
      · dsimp only
        rw [set₃_row, if_pos ⟨rfl, rfl⟩]
      · exact set₂_same _ _ _ _
      · dsimp only
        rw [set₂_same, hpaid]
    · refine .grow ?_ ?_ ?_
      · dsimp only
        rw [set₃_row, if_neg hpool]
      · dsimp only
        rw [set₂_of_ne _ _ hpool]
      · dsimp only
        rw [set₂_of_ne _ _ hpool]
  | slash b' w' amount =>
    refine slash_pool h ?_
    -- a slash of this very pool is excluded by hypothesis
    rintro ⟨rfl, rfl⟩
    exact hslash amount rfl
  | notifyReward b' w' amount =>
    obtain ⟨token, total, brain, -, -, -, -, -, rfl⟩ := StakingVault.notifyReward_ok h
    have hA := le_set₂_add s.vault.vAssets b' b w' w amount
    exact .grow rfl le_rfl hA
  | _ =>
    obtain ⟨roles, rfl⟩ := forRoles_ok h rfl
    exact .grow rfl le_rfl le_rfl

end Pool

end BasedAI
