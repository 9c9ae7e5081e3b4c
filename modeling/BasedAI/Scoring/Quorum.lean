import BasedAI.Lib.WeightedQuorum
import BasedAI.Scoring.Finality

/-!
# BasedAI — the quorum of a commitment

`proposeEpoch` adds up the stakes of a strictly ascending list of signers and
compares the sum with 50.01% of the Brain's stake, rounded up. In a vault whose
counters agree this is a majority: the signers are counted once each, together
they have at most what the Brain has, and two such lists have a staked signer in
common.

* `proposeEpoch_quorum` — what an accepted proposal shows of its signers;
* `quorum_majority`     — a quorum is more than half, however small the total;
* `quorum_sound`        — the quorums of a reachable vault.
-/

namespace BasedAI

open Fallible Mapping Transition ScoringRegistry WeightedQuorum

/-- What `proposeEpoch` requires of a list of signers and of their stakes on `b`. -/
structure MeetsQuorum (v : StakingVault) (b : BrainId) (signers : List Address) : Prop where
  sorted : List.Pairwise (· < ·) (0 :: signers)
  total : v.brainStake b ≠ 0
  stake : (v.brainStake b * MIN_QUORUM_BPS + 9999) / 10000 ≤
    (signers.map (v.validatorStake b)).sum

theorem MeetsQuorum.nodup {v : StakingVault} {b : BrainId} {signers : List Address}
    (h : MeetsQuorum v b signers) : signers.Nodup :=
  (List.pairwise_cons.mp h.sorted).2.imp fun hlt => ne_of_lt hlt

/-- A quorum of basis points above one half, rounded up, is more than half: already
the exact quotient is, and rounding up only adds. -/
theorem quorum_majority {total stake : Nat} (htotal : total ≠ 0)
    (h : (total * MIN_QUORUM_BPS + 9999) / 10000 ≤ stake) : total < 2 * stake := by
  unfold MIN_QUORUM_BPS at h
  omega

section Vault

variable {v : StakingVault} {b : BrainId} {xs ys : List Address}

/-- The signers of a quorum are staked on more than half of their Brain. -/
theorem MeetsQuorum.majority (h : MeetsQuorum v b xs) :
    v.brainStake b < 2 * weightOf (v.validatorStake b) xs :=
  quorum_majority h.total h.stake

theorem VaultInv.quorum_le (hv : VaultInv v) (h : MeetsQuorum v b xs) :
    weightOf (v.validatorStake b) xs ≤ v.brainStake b := by
  have hsum : v.brainStake b = ∑ w, v.validatorStake b w := hv.brain_sum b
  rw [hsum]
  exact weightOf_le_total h.nodup

/-- Two quorums of one Brain share a signer with stake. -/
theorem VaultInv.quorums_meet (hv : VaultInv v) (hxs : MeetsQuorum v b xs)
    (hys : MeetsQuorum v b ys) : ∃ w ∈ xs, w ∈ ys ∧ 0 < v.validatorStake b w := by
  have hsum : v.brainStake b = ∑ w, v.validatorStake b w := hv.brain_sum b
  have hx := hxs.majority
  have hy := hys.majority
  apply exists_common hxs.nodup hys.nodup
  omega

end Vault

/-- What an accepted proposal shows of its signers, and records of them. -/
theorem proposeEpoch_quorum {T : Type} {env : ScoringEnv T} {blk : Block} {e : Epoch}
    {b : BrainId} {root : Bytes32} {signers : List Address} {signatures : List Bytes}
    {s s' : ScoringState T}
    (h : proposeEpoch env blk e b root signers signatures s = .ok s') :
    MeetsQuorum s.staking.vault b signers ∧
      (s'.registry.epochs e b).signerStake =
        weightOf (s.staking.vault.validatorStake b) signers := by
  obtain ⟨-, -, -, -, -, hsorted, -, htotal, hstake, rfl⟩ := proposeEpoch_ok h
  refine ⟨⟨hsorted, htotal, hstake⟩, ?_⟩
  show (if e = e ∧ b = b then _ else _ : EpochCommitment).signerStake = _
  rw [if_pos ⟨rfl, rfl⟩]
  rfl

/--
**Quorum soundness.** In a reachable vault, the signers of every accepted proposal
are pairwise distinct, have at most the stake of their Brain together and more than
half of it; and any two lists of signers that meet the quorum of one Brain share a
signer with stake.
-/
theorem quorum_sound {T : Type} {vaultEnv : VaultEnv T} {admin : Address} {t₀ : T}
    {ls : List VaultLabel} {staking : VaultState T}
    (h : Run (VaultStep vaultEnv) ⟨t₀, .deploy admin⟩ ls staking) (b : BrainId) :
    (∀ (env : ScoringEnv T) blk e root signers signatures (s s' : ScoringState T),
      s.staking = staking → proposeEpoch env blk e b root signers signatures s = .ok s' →
      signers.Nodup ∧
      (s'.registry.epochs e b).signerStake ≤ staking.vault.brainStake b ∧
      staking.vault.brainStake b < 2 * (s'.registry.epochs e b).signerStake) ∧
    (∀ xs ys, MeetsQuorum staking.vault b xs → MeetsQuorum staking.vault b ys →
      ∃ w ∈ xs, w ∈ ys ∧ 0 < staking.vault.validatorStake b w) := by
  have hv : VaultInv staking.vault := vaultRun_inv h (vaultInv_deploy admin)
  refine ⟨?_, fun xs ys hxs hys => hv.quorums_meet hxs hys⟩
  intro env blk e root signers signatures s s' hstaking hpropose
  subst hstaking
  obtain ⟨hquorum, hrecorded⟩ := proposeEpoch_quorum hpropose
  rw [hrecorded]
  exact ⟨hquorum.nodup, hv.quorum_le hquorum, hquorum.majority⟩

set_option maxRecDepth 8000 in
/-- With 1000 staked on validator 7 and 500 on validator 8, validator 7's proposal is
accepted alone with two thirds of the stake. -/
theorem quorum_sound_two :
    ∃ s s' : ScoringState Ledger, s.staking.vault.brainStake 3 = 1500 ∧
      proposeEpoch toyRegistry ⟨3600, by decide⟩ 0 3 5 [7] [[7, 5]] s = .ok s' ∧
      1500 < 2 * (s'.registry.epochs 0 3).signerStake ∧
      (s'.registry.epochs 0 3).signerStake ≤ 1500 := by
  -- the stakes of the two, in this order
  have hstakes : ∃ staking : VaultState Ledger, staking.vault.brainStake 3 = 1500 ∧
      staking.vault.validatorStake 3 7 = 1000 ∧
      Run (VaultStep toyRegistry.staking) ⟨toyLedger, .deploy 9⟩
        [.call ⟨200, by decide⟩ 2 (.stake 3 7 1000), .call ⟨300, by decide⟩ 2 (.stake 3 8 500)]
        staking := by
    refine ⟨_, ?_, ?_, .cons (.call _ 2 (.stake 3 7 1000) (by decide) rfl)
      (.single (.call _ 2 (.stake 3 8 500) (by decide) rfl))⟩
    · rfl
    · rfl
  obtain ⟨staking, htotal, hstake, hrun⟩ := hstakes
  have hsum : ([7].map (staking.vault.validatorStake 3)).sum = 1000 := by
    rw [List.map_singleton, List.sum_singleton, hstake]
  have hpropose := @proposeEpoch_of _ toyRegistry ⟨3600, by decide⟩ 0 3 5 [7] [[7, 5]]
    ⟨300, staking, .deploy⟩ (by decide) (by decide) rfl rfl (List.cons_ne_nil _ _) (by decide)
    (by decide) (by rw [htotal]; decide) (by rw [htotal, hsum]; decide) (by rw [hsum]; decide)
    (by rw [htotal]; decide)
  have hsound := (quorum_sound hrun 3).1 toyRegistry _ 0 5 [7] [[7, 5]] _ _ rfl hpropose
  rw [htotal] at hsound
  exact ⟨_, _, htotal, hpropose, hsound.2.2, hsound.2.1⟩

end BasedAI
