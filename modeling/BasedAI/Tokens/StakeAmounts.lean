import BasedAI.Lib.RateLimit
import BasedAI.Tokens.BrainEscrow

/-!
# BasedAI — what a Brain costs

Governance sets the stake a Brain takes in each of the two assets: once in 90 days, to at least
half and at most twice what it was, and never to nothing. `STAKE_ADJUST_COOLDOWN` is there so
that such steps do not compound. It counts from the last update, or from 0 where there was
none, so the first one has nothing to wait for.

* `Repriced`            — what a call does to an amount;
* `Drifted`             — what can have become of an amount since a moment;
* `stake_amounts_paced` — how far an amount gets between any two moments.
-/

namespace BasedAI

open Fallible Mapping Transition CallStack RateLimit

/-! ## Amounts -/

namespace BrainNFT

/-- What a Brain costs in an asset. -/
def stakeAmount (nft : BrainNFT) : StakeAsset → Nat
  | .pepecoin => nft.pepecoinStakeAmount
  | .basedAI => nft.basedStakeAmount
  | .none => 0

/-- When that was set last, or 0. -/
def lastStakeUpdate (nft : BrainNFT) : StakeAsset → Nat
  | .pepecoin => nft.lastPepecoinStakeUpdate
  | .basedAI => nft.lastBasedStakeUpdate
  | .none => 0

/-- What a call in block `blk` does to the amount in an asset. -/
inductive Repriced (blk : Block) (nft nft' : BrainNFT) (asset : StakeAsset) : Prop
  | kept : nft'.stakeAmount asset = nft.stakeAmount asset →
      nft'.lastStakeUpdate asset = nft.lastStakeUpdate asset → Repriced blk nft nft' asset
  | adjusted : nft.lastStakeUpdate asset + STAKE_ADJUST_COOLDOWN ≤ blk.timestamp →
      nft.stakeAmount asset / 2 ≤ nft'.stakeAmount asset →
      nft'.stakeAmount asset ≤ nft.stakeAmount asset * 2 → 0 < nft'.stakeAmount asset →
      nft'.lastStakeUpdate asset = blk.timestamp → Repriced blk nft nft' asset

variable {blk : Block} {caller : Address} {nft nft' : BrainNFT} {asset changed : StakeAsset}
  {q : Option Pending}

theorem adjust_ok {last old newAmount now : Nat} (h : adjust blk last old newAmount = .ok now) :
    last + STAKE_ADJUST_COOLDOWN ≤ blk.timestamp ∧ old / 2 ≤ newAmount ∧ newAmount ≤ old * 2 ∧
      now = blk.timestamp := by
  simp only [adjust, bind_ok, revertIf_ok, add64_ok, mul256_ok, return_ok, not_lt,
    uint64_timestamp] at h
  obtain ⟨_, ⟨-, rfl⟩, _, hcooled, _, hfloor, _, ⟨-, rfl⟩, _, hceiling, rfl⟩ := h
  exact ⟨hcooled, hfloor, hceiling, rfl⟩

/-- One asset is adjusted, the other keeps its amount. -/
theorem setStakeAmount_repriced {newAmount : Nat}
    (h : nft.setStakeAmount blk caller changed newAmount = .ok nft') (asset : StakeAsset) :
    Repriced blk nft nft' asset := by
  simp only [setStakeAmount, bind_ok, revertIf_ok] at h
  obtain ⟨_, -, _, hnonzero, h⟩ := h
  cases changed with
  -- the call reverts for no asset
  | none => cases h
  | pepecoin =>
    simp only [bind_ok, return_ok] at h
    obtain ⟨now, hadjust, rfl⟩ := h
    obtain ⟨hcooled, hfloor, hceiling, rfl⟩ := adjust_ok hadjust
    cases asset with
    | pepecoin => exact .adjusted hcooled hfloor hceiling (Nat.pos_of_ne_zero hnonzero) rfl
    | basedAI => exact .kept rfl rfl
    | none => exact .kept rfl rfl
  | basedAI =>
    simp only [bind_ok, return_ok] at h
    obtain ⟨now, hadjust, rfl⟩ := h
    obtain ⟨hcooled, hfloor, hceiling, rfl⟩ := adjust_ok hadjust
    cases asset with
    | pepecoin => exact .kept rfl rfl
    | basedAI => exact .adjusted hcooled hfloor hceiling (Nat.pos_of_ne_zero hnonzero) rfl
    | none => exact .kept rfl rfl

/-- **Calls.** No other call sets an amount. -/
theorem enter_repriced {c : BrainNFTCall} (h : c.enter blk caller nft = .ok (q, nft'))
    (asset : StakeAsset) : Repriced blk nft nft' asset := by
  cases c with
  | mintByPepecoinStake =>
    obtain ⟨-, rfl⟩ := mintByStake_ok h
    exact .kept rfl rfl
  | mintByBasedStake =>
    obtain ⟨-, rfl⟩ := mintByStake_ok h
    exact .kept rfl rfl
  | deactivateAndUnstake b =>
    obtain ⟨-, -, -, -, -, approvals, rfl⟩ := deactivateAndUnstake_ok h
    exact .kept rfl rfl
  | setStakeAmount changed newAmount =>
    obtain ⟨-, hset⟩ := atOnce_ok h
    exact setStakeAmount_repriced hset asset
  | mintReserved recipient b =>
    obtain ⟨-, -, -, approvals, rfl⟩ := mintReserved_ok h
    exact .kept rfl rfl
  | setBridge newBridge =>
    obtain ⟨-, hset⟩ := atOnce_ok h
    obtain rfl := setBridge_ok hset
    exact .kept rfl rfl
  | setBridgeEndpoint endpoint allowed =>
    obtain ⟨-, hset⟩ := atOnce_ok h
    obtain rfl := setBridgeEndpoint_ok hset
    exact .kept rfl rfl
  | transferFrom src recipient b =>
    obtain ⟨-, htransfer⟩ := atOnce_ok h
    obtain ⟨-, -, approvals, rfl⟩ := transferFrom_ok htransfer
    exact .kept rfl rfl
  | safeTransferFrom src recipient b =>
    -- the receiver is called after the transfer
    obtain ⟨nft₁, htransfer, hpair⟩ := map_ok.mp h
    obtain ⟨rfl, rfl⟩ := Prod.mk.inj hpair
    obtain ⟨-, -, approvals, rfl⟩ := transferFrom_ok htransfer
    exact .kept rfl rfl
  | _ =>
    -- approvals and roles
    obtain ⟨-, approvals, operators, roles, rfl⟩ := permission_ok h rfl
    exact .kept rfl rfl

end BrainNFT

/-! ## Steps -/

section Steps

open BrainNFT

variable {T : Type} {env : BrainNFTEnv T} {s s' : BrainState T} {q q' : Option Pending}
  {w w' : BrainWorld T} {l : BrainLabel} {t₁ t₂ : Nat} {asset : StakeAsset}

/-- The rest of a call leaves the amounts alone. -/
theorem resume_priced {p : Pending} (h : p.resume env s = .ok (q, s')) (asset : StakeAsset) :
    s'.nft.stakeAmount asset = s.nft.stakeAmount asset ∧
      s'.nft.lastStakeUpdate asset = s.nft.lastStakeUpdate asset := by
  rcases Pending.resume_nft h with hnft | hnft | ⟨blk, staker, staked, amount, hmint⟩
  · rw [hnft]
    exact ⟨rfl, rfl⟩
  · rw [hnft]
    exact ⟨rfl, rfl⟩
  · obtain ⟨-, -, -, approvals, hnft⟩ := mintStaked_ok hmint
    rw [hnft]
    exact ⟨rfl, rfl⟩

/-- The moment of a call is the time of its block. -/
def BrainLabel.moment : Option BrainLabel → Nat → Prop
  | some (.call blk _ _), now => blk.timestamp = now
  | _, _ => True

/-- A call in a block of that time. -/
def BrainLabel.Within (t₁ t₂ : Nat) : BrainLabel → Prop
  | .call blk _ _ => t₁ ≤ blk.timestamp ∧ blk.timestamp ≤ t₂
  | _ => True

/-- An asset costs something. -/
def Positive (asset : StakeAsset) (_ : List Pending) (w : BrainWorld T) : Prop :=
  0 < w.state.nft.stakeAmount asset

theorem positive_kept : KeptByCode (BrainCode env) (Positive asset) := by
  intro q w l q' w' ps hcode h
  unfold Positive at h ⊢
  cases hcode with
  | call hcaller henter =>
    cases enter_repriced henter asset with
    | kept hamount hlast => exact hamount ▸ h
    | adjusted hcooled hfloor hceiling hpos hlast => exact hpos
  | resume hresume =>
    obtain ⟨hamount, -⟩ := resume_priced hresume asset
    exact hamount ▸ h
  | elsewhere hheld => exact h

/-- The amount in an asset is one that `amount` can have become. -/
def Drifted (asset : StakeAsset) (t₁ t₂ amount : Nat) (_ : List Pending) (w : BrainWorld T) :
    Prop :=
  Drift 2 STAKE_ADJUST_COOLDOWN t₁ t₂ amount (w.state.nft.stakeAmount asset)
    (w.state.nft.lastStakeUpdate asset)

/-- **One step**, between two moments. -/
theorem drifted_kept {amount : Nat} :
    KeptByCode (onLabels (BrainLabel.Within t₁ t₂) (BrainCode env))
      (Drifted asset t₁ t₂ amount) := by
  rintro q w l q' w' ps ⟨hcode, hwithin⟩ h
  unfold Drifted at h ⊢
  cases hcode with
  | call hcaller henter =>
    obtain ⟨hstart, hstop⟩ := hwithin
    cases enter_repriced henter asset with
    | kept hamount hlast =>
      dsimp only
      rw [hamount, hlast]
      exact h
    | adjusted hcooled hfloor hceiling hpos hlast =>
      dsimp only
      rw [hlast]
      exact h.change hcooled hstart hstop hceiling hfloor hpos
  -- calls that go on, or happen elsewhere, have no block of their own
  | resume hresume =>
    obtain ⟨hamount, hlast⟩ := resume_priced hresume asset
    dsimp only
    rw [hamount, hlast]
    exact h
  | elsewhere hheld => exact h

end Steps

/-! ## Runs -/

/-- **Amounts are paced.** In every run of the NFT, whatever is called in it, by whom, and
whatever reverts, let `w` be the state at the moment `t₁`, between two transactions (within
one, it might still be undone), and `c` the configuration at a later moment `t₂`. With `k` the
number of quarters that fit in between, and one more: the amount in an asset is then at most
`2 ^ k` times what it was, at least the `2 ^ k`-th part of it, rounded down, and never nothing. -/
theorem stake_amounts_paced {T : Type} {env : BrainNFTEnv T} {pepecoinStake basedStake : Nat}
    {governance : Address} {tokens : Address → T} {t₀ t₁ t₂ : Nat} {w : BrainWorld T}
    {c : Config (BrainWorld T) Pending} {before ls : List (Option BrainLabel)}
    {asset : StakeAsset} (hpepecoin : pepecoinStake ≠ 0) (hbased : basedStake ≠ 0)
    (hasset : asset ≠ .none)
    (hbefore : During (BrainStep env) BrainLabel.moment t₀
      ⟨.deploy pepecoinStake basedStake governance tokens, []⟩ before t₁ ⟨w, []⟩)
    (hrun : During (BrainStep env) BrainLabel.moment t₁ ⟨w, []⟩ ls t₂ c) :
    let k := (t₂ - t₁) / (90 * 24 * 60 * 60) + 1
    c.state.state.nft.stakeAmount asset ≤ 2 ^ k * w.state.nft.stakeAmount asset ∧
      max 1 (w.state.nft.stakeAmount asset / 2 ^ k) ≤ c.state.state.nft.stakeAmount asset := by
  intro k
  have hdeploy : Positive asset [] (.deploy pepecoinStake basedStake governance tokens) := by
    cases asset with
    | none => exact absurd rfl hasset
    | pepecoin => exact Nat.pos_of_ne_zero hpepecoin
    | basedAI => exact Nat.pos_of_ne_zero hbased
  have hpos : Positive asset [] w := Holds.run positive_kept hbefore.run hdeploy
  have hlabels : ∀ l, some l ∈ ls → l.Within t₁ t₂ := by
    intro l hl
    obtain ⟨now, hstart, hstop, hmoment⟩ := hrun.moments _ hl
    cases l with
    | call blk caller call =>
      obtain rfl : blk.timestamp = now := hmoment
      exact ⟨hstart, hstop⟩
    | resumed => trivial
    | elsewhere => trivial
  -- nothing of `w` can be reverted, so the drift from it is all there is
  have hstart : Drifted asset t₁ t₂ (w.state.nft.stakeAmount asset) [] w := Drift.refl hpos
  have hdrifted := (Holds.run_onLabels drifted_kept hrun.run hlabels hstart).now
  have hwithin := Drift.within hdrifted (by decide) (by decide)
  exact ⟨hwithin.le, hwithin.ge⟩

/-- A quarter after `toyUnlock`. -/
def toyQuarter : Block := ⟨60 + 2 * (90 * 24 * 60 * 60), by decide⟩

/-- Account 1 doubles the amount in Pepecoin, and a quarter later again: a quarter has room for
two changes. -/
theorem stake_amounts_doubled : ∃ ls c,
    During (BrainStep toyBrainEnv) BrainLabel.moment toyUnlock.timestamp ⟨toyBrains, []⟩ ls
      toyQuarter.timestamp c ∧
      c.state.state.nft.stakeAmount .pepecoin = 2 ^ 2 * toyBrains.state.nft.stakeAmount .pepecoin ∧
      c.state.state.nft.stakeAmount .pepecoin ≤
        2 ^ ((toyQuarter.timestamp - toyUnlock.timestamp) / (90 * 24 * 60 * 60) + 1) *
          toyBrains.state.nft.stakeAmount .pepecoin := by
  have hrun : ((advance toyBrainEnv ⟨toyBrains, []⟩
      (.call toyUnlock 1 (.setStakeAmount .pepecoin 200))).bind fun c₁ =>
        (advance toyBrainEnv c₁ (.call toyQuarter 1 (.setStakeAmount .pepecoin 400))).map
          fun c => c.state.state.nft.stakeAmount .pepecoin) = some 400 := by
    decide +kernel
  obtain ⟨c₁, hfirst, hrest⟩ := Option.bind_eq_some_iff.mp hrun
  obtain ⟨c, hsecond, hamount⟩ := Option.map_eq_some_iff.mp hrest
  -- both changes are in the quarter, one at each end
  have hduring : During (BrainStep toyBrainEnv) BrainLabel.moment toyUnlock.timestamp
      ⟨toyBrains, []⟩ _ toyQuarter.timestamp c :=
    ⟨toyQuarter.timestamp, le_rfl,
      .cons (TimedStep.taken (advance_step hfirst) rfl le_rfl)
        (.single (TimedStep.taken (advance_step hsecond) rfl (by decide)))⟩
  have hbefore : During (BrainStep toyBrainEnv) BrainLabel.moment 0 ⟨toyBrains, []⟩ []
      toyUnlock.timestamp ⟨toyBrains, []⟩ :=
    ⟨0, Nat.zero_le _, .nil _⟩
  have hasset : StakeAsset.pepecoin ≠ .none := by decide
  obtain ⟨hle, -⟩ := stake_amounts_paced (by decide) (by decide) hasset hbefore hduring
  exact ⟨_, c, hduring, hamount, hle⟩

end BasedAI
