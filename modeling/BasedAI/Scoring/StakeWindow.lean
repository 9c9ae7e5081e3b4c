import BasedAI.Scoring.SignerStake

/-!
# BasedAI — stake through the challenge window

A commitment can be challenged for an hour, and an unstake takes fourteen days,
so the stake counted in a quorum should still be there when its owner is caught.
It need not be: the cooldown runs from the request, and a request that has
matured already can be claimed right after the proposal that counted it.

* `exiting`              — the shares of a pool that can be claimed before a deadline;
* `Pinned`               — nothing that can be claimed before the deadline is worth
  anything, not even claimed last;
* `Held`                 — the invariant of the window;
* `counted_stake_stays`  — the stake of a signer whose pool is pinned at the
  proposal stays through the window.
-/

namespace BasedAI

open Fallible Mapping ShareMath Transition ScoringRegistry

/-! ## Shares that can leave before a deadline -/

/-- The pending shares of `u` that can be claimed before `deadline`. -/
def StakingVault.exiting (v : StakingVault) (deadline : Nat) (b : BrainId) (w u : Address) :
    Nat :=
  if (v.pending b w u).unlockAt < deadline then (v.pending b w u).shares else 0

/-- The shares of the pool that cannot be claimed before `deadline`. -/
def StakingVault.staying (v : StakingVault) (deadline : Nat) (b : BrainId) (w : Address) :
    Nat :=
  v.vShares b w - ∑ u, v.exiting deadline b w u

/-- Every pending unstake that can be claimed before `deadline` is worth nothing,
even when it is claimed after all the others of its pool. -/
def Pinned (v : StakingVault) (deadline : Nat) (b : BrainId) (w : Address) : Prop :=
  ∀ u, 0 < v.exiting deadline b w u →
    value (v.exiting deadline b w u) (v.vAssets b w)
      (v.staying deadline b w + v.exiting deadline b w u) = 0

/-- A pool with no pending unstake that matures before the deadline is pinned. -/
theorem pinned_of_no_exit {v : StakingVault} {deadline : Nat} {b : BrainId} {w : Address}
    (h : ∀ u, (v.pending b w u).shares ≠ 0 → deadline ≤ (v.pending b w u).unlockAt) :
    Pinned v deadline b w := by
  intro u hu
  unfold StakingVault.exiting at hu
  split at hu
  case isTrue htime =>
    have hlate := h u (Nat.ne_of_gt hu)
    omega
  case isFalse => exact absurd hu (Nat.lt_irrefl 0)

namespace VaultInv

variable {v : StakingVault}

/-- The shares that can leave are shares of the pool. -/
theorem exiting_le (hv : VaultInv v) (deadline : Nat) (b : BrainId) (w : Address) :
    ∑ u, v.exiting deadline b w u ≤ v.vShares b w := by
  rw [hv.shares_sum]
  refine Finset.sum_le_sum fun u _ => ?_
  unfold StakingVault.exiting StakingVault.holding
  split
  · exact Nat.le_add_left _ _
  · exact Nat.zero_le _

end VaultInv

/-- Shares worth nothing next to `R` others weigh less than `R` against every
unit but one. -/
theorem light_of_worthless {x A R : Nat} (hx : 0 < x) (hA : 0 < A)
    (h : value x A (R + x) = 0) : x * (A - 1) < R := by
  have hlt : x * A < R + x := by
    rcases Nat.div_eq_zero_iff.mp h with hzero | hlt
    · omega
    · exact hlt
  obtain ⟨p, rfl⟩ : ∃ p, A = p + 1 := ⟨A - 1, by omega⟩
  rw [Nat.mul_succ] at hlt
  show x * p < R
  omega

/-! ## The invariant of the window -/

/-- The pool of `w` on `b`, which counted `stake` when it was in state `v₀`, still
holds it in `v`: every unstake that could leave before the deadline then has not
moved or is gone, the shares that could not are still there, and so are the
assets. -/
structure Held (v₀ : StakingVault) (deadline : Nat) (b : BrainId) (w : Address)
    (v : StakingVault) : Prop where
  exits : ∀ u, v.exiting deadline b w u = 0 ∨
    v.exiting deadline b w u = v₀.exiting deadline b w u
  shares : v₀.staying deadline b w + ∑ u, v.exiting deadline b w u ≤ v.vShares b w
  assets : v₀.vAssets b w ≤ v.vAssets b w

section Window

variable {v₀ v v' : StakingVault} {deadline : Nat} {b : BrainId} {w : Address}
  {blk : Block} {caller : Address}

theorem held_start (hv : VaultInv v₀) : Held v₀ deadline b w v₀ where
  exits _ := .inr rfl
  shares := by
    have hle := hv.exiting_le deadline b w
    unfold StakingVault.staying
    omega
  assets := le_rfl

/-- Within the window one call keeps the invariant. -/
theorem PoolMove.held (hmove : PoolMove blk caller v v' b w)
    (hpinned : Pinned v₀ deadline b w) (hdeadline : blk.timestamp < deadline)
    (hcooldown : deadline ≤ blk.timestamp + StakingVault.UNSTAKE_COOLDOWN)
    (hv : Held v₀ deadline b w v) : Held v₀ deadline b w v' := by
  cases hmove with
  | grow hpending hshares hassets =>
    have hexiting : v'.exiting deadline b w = v.exiting deadline b w := by
      funext u
      unfold StakingVault.exiting
      rw [hpending]
    exact ⟨by rw [hexiting]; exact hv.exits, by rw [hexiting]; exact hv.shares.trans hshares,
      hv.assets.trans hassets⟩
  | request shares hnone hpending hshares hassets =>
    -- a request made within the window matures after it
    have hexiting : v'.exiting deadline b w = v.exiting deadline b w := by
      funext u
      unfold StakingVault.exiting
      rw [hpending, set_apply]
      split
      case isTrue hu =>
        subst hu
        rw [if_neg (Nat.not_lt.mpr hcooldown), hnone, ite_self]
      case isFalse => rfl
    exact ⟨by rw [hexiting]; exact hv.exits, by rw [hexiting, hshares]; exact hv.shares,
      by rw [hassets]; exact hv.assets⟩
  | claim shares hpending htime hle hdelete hshares hassets =>
    have hleaves : v.exiting deadline b w caller = shares := by
      unfold StakingVault.exiting
      rw [if_pos (htime.trans_lt hdeadline), hpending]
    have hexiting : v'.exiting deadline b w = set (v.exiting deadline b w) caller 0 := by
      funext u
      unfold StakingVault.exiting
      rw [hdelete, set_apply, set_apply]
      split
      · exact ite_self _
      · rfl
    have hsum := sum_set_add (v.exiting deadline b w) caller 0
    have hmine := le_sum (v.exiting deadline b w) caller
    have hstill := hv.shares
    refine ⟨fun u => ?_, ?_, ?_⟩
    · rw [hexiting, set_apply]
      split
      · exact .inl rfl
      · exact hv.exits u
    · rw [hexiting, hshares]
      omega
    · -- what the caller is paid comes out of what the pool gained since
      rw [hassets]
      have hgained := hv.assets
      rcases Nat.eq_zero_or_pos (v₀.vAssets b w) with hzero | hstake
      · omega
      rcases Nat.eq_zero_or_pos shares with hnone | hpos
      · rw [hnone, value_zero_shares]
        exact hgained
      · have hsame : v₀.exiting deadline b w caller = shares := by
          rcases hv.exits caller with hgone | hsame
          · omega
          · omega
        have hworthless := hpinned caller (by omega)
        rw [hsame] at hworthless
        have hlight := light_of_worthless hpos hstake hworthless
        obtain ⟨e, he⟩ := Nat.exists_eq_add_of_le hgained
        have hpaid : value shares (v₀.vAssets b w + e) (v.vShares b w) ≤ e :=
          value_le_of_light hstake hlight (by omega)
        rw [he]
        omega

end Window

/-! ## The window over whole runs -/

/-- The step slashes the pool of `w` on `b`, by the vault's own entry point or by a
proven equivocation. -/
def Slashes (b : BrainId) (w : Address) : ScoringLabel → Prop
  | .vault _ _ (.slash b' w' _) => b' = b ∧ w' = w
  | .registry _ (.challengeEquivocation _ b' _ _ _ _ w') => b' = b ∧ w' = w
  | _ => False

section Runs

variable {T : Type} {env : ScoringEnv T} {s t : ScoringState T} {l : ScoringLabel}

/-- What a step that does not slash a pool can do to it. -/
theorem scoringStep_pool (h : ScoringStep env s l t) {b : BrainId} {w : Address}
    (hslash : ¬ Slashes b w l) :
    (s.now = t.now ∧ t.staking.vault = s.staking.vault) ∨
      ∃ blk caller, s.now ≤ blk.timestamp ∧ t.now = blk.timestamp ∧
        PoolMove blk caller s.staking.vault t.staking.vault b w := by
  cases h with
  | received => exact .inl ⟨rfl, rfl⟩
  | vault blk caller c hnow _ _ hexec =>
    refine .inr ⟨blk, caller, hnow, rfl, exec_pool hexec ?_⟩
    -- a slash of the pool is what the hypothesis excludes
    rintro amount rfl
    exact hslash ⟨rfl, rfl⟩
  | registry blk c hnow hexec =>
    refine .inr ⟨blk, env.self, hnow, rfl, ?_⟩
    cases c with
    | proposeEpoch e b' root signers signatures =>
      obtain ⟨-, -, -, -, -, -, -, -, -, rfl⟩ := proposeEpoch_ok hexec
      exact .grow rfl le_rfl le_rfl
    | finalizeEpoch e b' =>
      obtain ⟨-, -, ⟨-, rfl⟩ | ⟨-, -, rfl⟩⟩ := finalizeEpoch_ok hexec
      · exact .grow rfl le_rfl le_rfl
      · exact .grow rfl le_rfl le_rfl
    | challengeEquivocation e b' rootA sigA rootB sigB w' =>
      obtain ⟨-, -, -, -, -, -, -, staking, rfl, ⟨-, rfl⟩ | ⟨-, hcut⟩⟩ :=
        challengeEquivocation_ok hexec
      · exact .grow rfl le_rfl le_rfl
      · refine slash_pool hcut ?_
        rintro ⟨rfl, rfl⟩
        exact hslash ⟨rfl, rfl⟩

/-- The registry keeps the vault's accounting: all it does to the vault is slash. -/
theorem scoringStep_vaultInv (h : ScoringStep env s l t) (hv : VaultInv s.staking.vault) :
    VaultInv t.staking.vault := by
  cases h with
  | received => exact hv
  | vault blk caller c _ _ _ hexec => exact exec_inv hexec hv
  | registry blk c hnow hexec =>
    cases c with
    | proposeEpoch e b root signers signatures =>
      obtain ⟨-, -, -, -, -, -, -, -, -, rfl⟩ := proposeEpoch_ok hexec
      exact hv
    | finalizeEpoch e b =>
      obtain ⟨-, -, ⟨-, rfl⟩ | ⟨-, -, rfl⟩⟩ := finalizeEpoch_ok hexec
      · exact hv
      · exact hv
    | challengeEquivocation e b rootA sigA rootB sigB w =>
      obtain ⟨-, -, -, -, -, -, -, staking, rfl, ⟨-, rfl⟩ | ⟨-, hcut⟩⟩ :=
        challengeEquivocation_ok hexec
      · exact hv
      · -- an equivocation is slashed by the registry itself
        exact slash_inv hcut hv

/-- One step within the window that does not slash the pool keeps it held. -/
theorem scoringStep_held {v₀ : StakingVault} {start deadline : Nat} {b : BrainId} {w : Address}
    (h : ScoringStep env s l t) (hslash : ¬ Slashes b w l)
    (hpinned : Pinned v₀ deadline b w)
    (hcooldown : deadline ≤ start + StakingVault.UNSTAKE_COOLDOWN)
    (hs : start ≤ s.now ∧ (s.now < deadline → Held v₀ deadline b w s.staking.vault)) :
    start ≤ t.now ∧ (t.now < deadline → Held v₀ deadline b w t.staking.vault) := by
  obtain ⟨hstart, hheld⟩ := hs
  rcases scoringStep_pool h hslash with ⟨hnow, hvault⟩ | ⟨blk, caller, hnow, htime, hmove⟩
  · rw [← hnow, hvault]
    exact ⟨hstart, hheld⟩
  · rw [htime]
    refine ⟨hstart.trans hnow, fun hbefore => ?_⟩
    exact hmove.held hpinned hbefore (by omega) (hheld (hnow.trans_lt hbefore))

end Runs

/--
**Counted stake stays.** A proposal accepted at time `t` counts the stake of every
signer `w` on its list. If the pool of `w` is pinned until `t + CHALLENGE_WINDOW`,
then in every later state before that time, as long as the pool has not been
slashed, the stake is still there.
-/
theorem counted_stake_stays {T : Type} {env : ScoringEnv T} {now : Nat} {t₀ : T}
    {admin : Address} {pre : List ScoringLabel} {s s' : ScoringState T} {blk : Block}
    {e : Epoch} {b : BrainId} {root : Bytes32} {signers : List Address}
    {signatures : List Bytes}
    (hreach : Run (ScoringStep env) (.deploy now t₀ admin) pre s)
    (hpropose :
      ScoringStep env s (.registry blk (.proposeEpoch e b root signers signatures)) s') :
    ∀ w ∈ signers, Pinned s.staking.vault (blk.timestamp + CHALLENGE_WINDOW) b w →
      ∀ ls q, Run (restrict (ScoringStep env) fun _ l => ¬ Slashes b w l) s' ls q →
        q.now < blk.timestamp + CHALLENGE_WINDOW →
        s.staking.vault.validatorStake b w ≤ q.staking.vault.validatorStake b w := by
  intro w _ hpinned ls q hrun hwindow
  have hv : VaultInv s.staking.vault :=
    hreach.invariant (I := fun u => VaultInv u.staking.vault) scoringStep_vaultInv
      (vaultInv_deploy admin)
  -- the proposal itself leaves the vault as it is
  have hstart : blk.timestamp ≤ s'.now ∧ (s'.now < blk.timestamp + CHALLENGE_WINDOW →
      Held s.staking.vault (blk.timestamp + CHALLENGE_WINDOW) b w s'.staking.vault) := by
    cases hpropose with
    | registry _ _ hnow hexec =>
      obtain ⟨-, -, -, -, -, -, -, -, -, rfl⟩ := proposeEpoch_ok hexec
      exact ⟨le_rfl, fun _ => held_start hv⟩
  have hcooldown : blk.timestamp + CHALLENGE_WINDOW ≤
      blk.timestamp + StakingVault.UNSTAKE_COOLDOWN := by
    unfold CHALLENGE_WINDOW StakingVault.UNSTAKE_COOLDOWN
    omega
  have hend := hrun.invariant
    (I := fun u => blk.timestamp ≤ u.now ∧ (u.now < blk.timestamp + CHALLENGE_WINDOW →
      Held s.staking.vault (blk.timestamp + CHALLENGE_WINDOW) b w u.staking.vault))
    (fun hstep => scoringStep_held hstep.1 hstep.2 hpinned hcooldown) hstart
  exact (hend.2 hwindow).assets

set_option maxRecDepth 40000 in
/-- Validator 7 proposes with 1000 of account 2 behind it; account 2 asks for it
back half an hour later and it is still there. -/
theorem counted_stake_stays_request :
    ∃ s q : ScoringState Ledger, s.staking.vault.validatorStake 3 7 = 1000 ∧
      (q.staking.vault.pending 3 7 2).shares = 1000 ∧
      s.staking.vault.validatorStake 3 7 ≤ q.staking.vault.validatorStake 3 7 := by
  refine ⟨_, _, ?_, ?_, @counted_stake_stays Ledger toyRegistry 0 toyLedger 9 _ _ _
    ⟨3600, by decide⟩ 0 3 5 [7] [[7, 5]]
    (.cons (.vault ⟨200, by decide⟩ 2 (.stake 3 7 1000) (by decide) (by decide)
      (by decide) rfl) (.nil _))
    (.registry _ _ (by decide) rfl) 7 (List.mem_singleton_self 7)
    (pinned_of_no_exit fun u hu => absurd rfl hu) _ _
    (.cons ⟨.vault ⟨5400, by decide⟩ 2 (.requestUnstake 3 7 1000) (by decide) (by decide)
      (by decide) rfl, id⟩ (.nil _)) (by decide)⟩
  · rfl
  · rfl

set_option maxRecDepth 40000 in
/-- Account 2 asked for its 1000 fourteen days ago. The proposal counts them for
validator 7, and in the same second they are paid out: nothing is left to slash. -/
theorem counted_stake_leaves :
    ∃ pre s s' ls q, Run (ScoringStep toyRegistry) (.deploy 0 toyLedger 9) pre s ∧
      ScoringStep toyRegistry s
        (.registry ⟨1209900, by decide⟩ (.proposeEpoch 0 3 5 [7] [[7, 5]])) s' ∧
      s.staking.vault.validatorStake 3 7 = 1000 ∧
      (s'.registry.epochs 0 3).signerStake = 1000 ∧
      Run (restrict (ScoringStep toyRegistry) fun _ l => ¬ Slashes 3 7 l) s' ls q ∧
      q.now < 1209900 + CHALLENGE_WINDOW ∧ q.staking.vault.validatorStake 3 7 = 0 := by
  refine ⟨_, _, _, _, _,
    .cons (.vault ⟨200, by decide⟩ 2 (.stake 3 7 1000) (by decide) (by decide)
      (by decide) rfl)
    (.cons (.vault ⟨300, by decide⟩ 2 (.requestUnstake 3 7 1000) (by decide) (by decide)
      (by decide) rfl) (.nil _)),
    .registry _ _ (by decide) rfl, ?_, ?_,
    .cons ⟨.vault ⟨1209900, by decide⟩ 2 (.claimUnstake 3 7) (by decide) (by decide)
      (by decide) rfl, id⟩ (.nil _), ?_, ?_⟩
  · rfl
  · rfl
  · decide
  · rfl

end BasedAI
