import BasedAI.Staking.Requests
import BasedAI.Staking.Withdrawal

/-!
# BasedAI — what a deposit is worth

A deposit mints shares at the price before it, rounded down. Whoever has shares then owns a
part of what was rounded away. The vault refuses a deposit that mints nothing at all, so that
every depositor receives a real claim; but once rewards have made a share dear, a deposit of
nearly two shares mints one, and a quarter of it goes to the others.

* `FairlyPriced`       — rounding takes no more than a hundredth of the deposit;
* `deposits_fair_iff`  — along a run every depositor keeps 99% exactly under that condition.
-/

namespace BasedAI

open Fallible Mapping ShareMath Transition

/-- The balance of the depositor rises by 99% of the amount at least. -/
def KeepsDeposit (v v' : StakingVault) (b : BrainId) (w u : Address) (amount : Nat) : Prop :=
  100 * v.worth b w u + 99 * amount ≤ 100 * v'.worth b w u

instance (v v' : StakingVault) (b : BrainId) (w u : Address) (amount : Nat) :
    Decidable (KeepsDeposit v v' b w u amount) :=
  inferInstanceAs (Decidable (_ ≤ _))

/-- What is left of the amount after a whole number of shares, as far as it falls to the shares
of the others, is at most a hundredth of the amount and what rounding had cost the depositor's
own shares so far. All is multiplied out: by the assets, and by the shares after the deposit. -/
def FairlyPriced (v : StakingVault) (b : BrainId) (w u : Address) (amount : Nat) : Prop :=
  amount * v.vShares b w % v.vAssets b w * (v.vShares b w - v.stakerShares b w u) ≤
    (v.vShares b w + amount * v.vShares b w / v.vAssets b w) *
      (amount / 100 * v.vShares b w +
        v.stakerShares b w u * v.vAssets b w % v.vShares b w)

section Deposits

variable {T : Type} {env : VaultEnv T} {s s' : VaultState T} {blk : Block} {b : BrainId}
  {w u : Address} {amount : Nat}

/-- **A deposit keeps its worth** exactly when it is fairly priced. -/
theorem keepsDeposit_iff (hv : VaultInv s.vault)
    (h : StakingVault.stake env blk u b w amount s = .ok s') :
    KeepsDeposit s.vault s'.vault b w u amount ↔ FairlyPriced s.vault b w u amount := by
  obtain ⟨shares, token, total, brain, -, -, hsolvent, hshares, -, -, rfl⟩ :=
    StakingVault.stake_ok h
  have hle : s.vault.stakerShares b w u ≤ s.vault.vShares b w :=
    (Nat.le_add_right _ _).trans (hv.holding_le b w u)
  have hworth : StakingVault.worth { s.vault with
      stakerShares := set₃ s.vault.stakerShares b w u (s.vault.stakerShares b w u + shares)
      vShares := set₂ s.vault.vShares b w (s.vault.vShares b w + shares)
      vAssets := set₂ s.vault.vAssets b w (s.vault.vAssets b w + amount)
      brainAssets := set s.vault.brainAssets b (s.vault.brainAssets b + amount)
      totalAssets := s.vault.totalAssets + amount
      totalHistory := total
      brainHistory := set s.vault.brainHistory b brain } b w u =
      value (s.vault.stakerShares b w u + shares) (s.vault.vAssets b w + amount)
        (s.vault.vShares b w + shares) := by
    unfold StakingVault.worth
    dsimp only
    rw [set₃_apply, if_pos ⟨rfl, rfl, rfl⟩, set₂_apply, if_pos ⟨rfl, rfl⟩, set₂_apply,
      if_pos ⟨rfl, rfl⟩]
  rw [KeepsDeposit, hworth, FairlyPriced]
  have hpercent : ∀ x y : Nat, 100 * x + 99 * amount ≤ 100 * y ↔ x + amount ≤ y + amount / 100 := by
    omega
  rw [hpercent, StakingVault.worth]
  by_cases hS : s.vault.vShares b w = 0
  · -- the first deposit is worth itself
    have hA : s.vault.vAssets b w = 0 := hv.no_shares b w hS
    have hown : s.vault.stakerShares b w u = 0 := by omega
    rw [hshares, mint, if_pos (.inl hS), hS, hA, hown]
    refine iff_of_true ?_ (by simp)
    rw [value_zero_shares, Nat.zero_add]
    rcases Nat.eq_zero_or_pos amount with rfl | hpos
    · simp
    · rw [value_all hpos]
      exact Nat.le_add_right _ _
  · have hA : s.vault.vAssets b w ≠ 0 := hsolvent.resolve_left hS
    -- what is rounded away falls to the depositor and the others by their shares
    obtain ⟨others, hothers⟩ : ∃ others,
        s.vault.vShares b w = s.vault.stakerShares b w u + others :=
      ⟨_, (Nat.add_sub_cancel' hle).symm⟩
    have hminted : shares = amount * s.vault.vShares b w / s.vault.vAssets b w := by
      rw [hshares, mint, if_neg (by simp [hS, hA])]
    rw [hminted, hothers, Nat.add_sub_cancel_left]
    exact deposit_gain_iff (by omega) (Nat.div_le_self _ _)

/-- **Deposits are not gifted.** In every run of the vault, every depositor of `10 ^ 6` wei or
more keeps 99% of the deposit exactly when every such deposit is fairly priced. -/
theorem deposits_fair_iff (env : VaultEnv T) (admin : Address) (t₀ : T) (ls : List VaultLabel)
    (s : VaultState T) :
    (∀ p blk u b w amount q, Along (VaultStep env) ⟨t₀, .deploy admin⟩ ls s p
      (.call blk u (.stake b w amount)) q → 10 ^ 6 ≤ amount →
      KeepsDeposit p.vault q.vault b w u amount) ↔
    ∀ p blk u b w amount q, Along (VaultStep env) ⟨t₀, .deploy admin⟩ ls s p
      (.call blk u (.stake b w amount)) q → 10 ^ 6 ≤ amount →
      FairlyPriced p.vault b w u amount := by
  have hstep : ∀ p blk u b w amount q, Along (VaultStep env) ⟨t₀, .deploy admin⟩ ls s p
      (.call blk u (.stake b w amount)) q →
      (KeepsDeposit p.vault q.vault b w u amount ↔ FairlyPriced p.vault b w u amount) := by
    rintro p blk u b w amount q ⟨pre, post, -, hpre, hstake, -⟩
    -- a step of the run starts from a reachable vault
    have hv : VaultInv p.vault := vaultRun_inv hpre (vaultInv_deploy admin)
    cases hstake with
    | call _ _ _ _ hexec => exact keepsDeposit_iff hv hexec
  constructor
  · intro h p blk u b w amount q halong hlarge
    exact (hstep p blk u b w amount q halong).mp (h p blk u b w amount q halong hlarge)
  · intro h p blk u b w amount q halong hlarge
    exact (hstep p blk u b w amount q halong).mpr (h p blk u b w amount q halong hlarge)

end Deposits

/-! ## A share that is too dear -/

/-- Accounts 2, 5 and 8 have five million each. -/
def threeMillionaires : Ledger where
  balances a := if a = 2 ∨ a = 5 ∨ a = 8 then 5000000 else 0
  allowances _ _ := 2 ^ 256 - 1

def wealthyStart : VaultState Ledger := ⟨threeMillionaires, .deploy 9⟩

/-- **A quarter is gifted.** Account 2 stakes 1 wei, account 8 is granted the role to reward and
adds 999999, and account 5 stakes 1900000, for which it gets one share of two: it is then worth
1450000. Nobody was slashed. -/
theorem deposit_gifted :
    ∃ ls p q, Run (VaultStep smallVault) wealthyStart ls p ∧
      (∀ blk u b w amount, .call blk u (.slash b w amount) ∉ ls) ∧
      VaultStep smallVault p (.call earlyBlock 5 (.stake 3 7 1900000)) q ∧
      p.vault.stakerBalance 3 7 5 = .ok 0 ∧ q.vault.stakerBalance 3 7 5 = .ok 1450000 ∧
      ¬ KeepsDeposit p.vault q.vault 3 7 5 1900000 := by
  -- every call succeeds
  have hcall : ∀ s caller (c : VaultCall), caller ≠ 1 →
      (c.exec smallVault earlyBlock caller s).isOk = true →
      VaultStep smallVault s (.call earlyBlock caller c)
        ((c.exec smallVault earlyBlock caller s).toOption.getD s) :=
    fun s caller c hcaller hok => .call earlyBlock caller c hcaller (eq_ok_of_isOk s hok)
  refine ⟨_, _, _,
    .cons (hcall wealthyStart 9 (.grantRole .rewarder 8) (by decide) (by decide +kernel))
    (.cons (hcall _ 2 (.stake 3 7 1) (by decide) (by decide +kernel))
    (.cons (hcall _ 8 (.notifyReward 3 7 999999) (by decide) (by decide +kernel)) (.nil _))),
    ?_, hcall _ 5 (.stake 3 7 1900000) (by decide) (by decide +kernel), by decide +kernel,
    by decide +kernel, by decide +kernel⟩
  intro blk u b w amount h
  simp at h

end BasedAI
