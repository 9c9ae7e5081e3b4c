import BasedAI.Market.Collateral

/-!
# BasedAI — the way out of the market

A pause stops deposits and redemptions and never a withdrawal, and governance can set prices
and caps but has no say in who is paid back. So whoever has a balance can get out of the market:
it asks, waits for a day, and takes what it asked for, or what its own receipts have left of it.

* `waiting_step` — the step lemma: the books of an account that waits;
* `exit_open`    — asking and taking, whatever happens in between.
-/

namespace BasedAI

open Fallible Mapping Transition ComputeUnitMarket

/-! ## The books of an account -/

/-- What a step pays into the account of `user`. -/
def MarketLabel.paidIn (user : Address) : MarketLabel → Nat
  | .call _ caller (.deposit amount) => if caller = user then amount else 0
  | _ => 0

/-- What a step redeems from the account of `user`. -/
def MarketLabel.redeemed (user : Address) : MarketLabel → Nat
  | .call _ _ (.redeem r _) => if r.user = user then r.amount.val else 0
  | _ => 0

/-- The calls of `user` that would change what it has asked for. -/
def MarketLabel.asks (user : Address) : MarketLabel → Bool
  | .call _ caller (.requestWithdraw _) | .call _ caller .cancelWithdraw
  | .call _ caller .withdraw => decide (caller = user)
  | _ => false

def paidInBy (user : Address) (ls : List MarketLabel) : Nat :=
  (ls.map (MarketLabel.paidIn user)).sum

def redeemedOf (user : Address) (ls : List MarketLabel) : Nat :=
  (ls.map (MarketLabel.redeemed user)).sum

section Waiting

variable {T : Type} {env : MarketEnv T} {s s' : MarketState T} {l : MarketLabel}
  {ls : List MarketLabel} {user : Address}

/-- **One step.** An account that waits changes by its deposits and its receipts, and keeps its
place. -/
theorem waiting_step (h : MarketStep env s l s') (hwaits : l.asks user = false) :
    s'.market.balances user + l.redeemed user = s.market.balances user + l.paidIn user ∧
      s'.market.pendingWithdrawals user = s.market.pendingWithdrawals user := by
  cases h with
  | elsewhere => exact ⟨rfl, rfl⟩
  | call blk caller c hnow hcaller hexec =>
    cases c with
    | deposit amount =>
      obtain ⟨-, -, token, -, rfl⟩ := deposit_ok hexec
      refine ⟨?_, rfl⟩
      show set s.market.balances caller _ user + 0 = _ + if caller = user then amount else 0
      by_cases huser : caller = user
      · subst huser
        rw [set_same, if_pos rfl]
        rfl
      · rw [set_of_ne _ _ (Ne.symm huser), if_neg huser]
    | requestWithdraw amount =>
      have hother : user ≠ caller := fun h => of_decide_eq_false hwaits h.symm
      obtain ⟨-, -, rfl⟩ := requestWithdraw_ok hexec
      exact ⟨rfl, set_of_ne _ _ hother⟩
    | cancelWithdraw =>
      have hother : user ≠ caller := fun h => of_decide_eq_false hwaits h.symm
      have heq := cancelWithdraw_ok hexec
      subst heq
      exact ⟨rfl, set_of_ne _ _ hother⟩
    | withdraw =>
      have hother : user ≠ caller := fun h => of_decide_eq_false hwaits h.symm
      obtain ⟨-, -, -, token, -, rfl⟩ := withdraw_ok hexec
      refine ⟨?_, set_of_ne _ _ hother⟩
      show set s.market.balances caller _ user + 0 = _ + 0
      rw [set_of_ne _ _ hother]
    | redeem r userSig =>
      obtain ⟨hchecks, token, distributor, rfl, -⟩ := redeem_ok hexec
      obtain ⟨-, -, -, -, -, -, -, -, hle, -, -⟩ := redeemChecks_ok.mp hchecks
      refine ⟨?_, rfl⟩
      show set s.market.balances r.user _ user + (if r.user = user then r.amount.val else 0) =
        _ + 0
      by_cases huser : r.user = user
      · subst huser
        rw [set_same, if_pos rfl]
        omega
      · rw [set_of_ne _ _ (Ne.symm huser), if_neg huser]
    | _ =>
      -- governance touches no account
      obtain ⟨market, rfl, hbalances, -, hpending⟩ := administrative_ok hexec rfl
      exact ⟨congrFun hbalances user, congrFun hpending user⟩

theorem waiting_run (h : Run (MarketStep env) s ls s') (hwaits : ∀ l ∈ ls, l.asks user = false) :
    s'.market.balances user + redeemedOf user ls =
        s.market.balances user + paidInBy user ls ∧
      s'.market.pendingWithdrawals user = s.market.pendingWithdrawals user := by
  induction h with
  | nil s => exact ⟨rfl, rfl⟩
  | @cons s t u l ls hstep hrest ih =>
    obtain ⟨hl, hls⟩ := List.forall_mem_cons.mp hwaits
    obtain ⟨hbalance, hpending⟩ := waiting_step hstep hl
    obtain ⟨hbalance', hpending'⟩ := ih hls
    refine ⟨?_, hpending'.trans hpending⟩
    unfold redeemedOf paidInBy at hbalance' ⊢
    rw [List.map_cons, List.map_cons, List.sum_cons, List.sum_cons]
    omega

/-! ## Asking and taking -/

/-- Who waits can take what it asked for as soon as it is due, if anything is left. -/
theorem withdraw_iff (hlive : env.token.Live) (hs : Solvent env s) {blk : Block} {amount due : Nat}
    (hpending : s.market.pendingWithdrawals user = ⟨amount, due⟩) (hpos : 0 < amount)
    (hdue : 0 < due) :
    (∃ s', withdraw env blk user s = .ok s') ↔
      due ≤ blk.timestamp ∧ 0 < s.market.balances user := by
  have hpayout : s.market.payout user = min amount (s.market.balances user) := by
    rw [payout, hpending]
  constructor
  · rintro ⟨s', h⟩
    obtain ⟨-, hready, hpaid, -⟩ := withdraw_ok h
    rw [hpending] at hready
    rw [hpayout] at hpaid
    exact ⟨hready, by omega⟩
  · rintro ⟨hready, hleft⟩
    refine withdraw_succeeds hlive hs ?_ ?_ ?_
    · rw [hpending]
      exact hdue.ne'
    · rw [hpending]
      exact hready
    · rw [hpayout]
      omega

/-- What is taken arrives. -/
theorem withdraw_paid {blk : Block} {amount due : Nat}
    (hpending : s.market.pendingWithdrawals user = ⟨amount, due⟩) (huser : user ≠ env.self)
    (h : withdraw env blk user s = .ok s') :
    env.token.balanceOf s'.token user =
        env.token.balanceOf s.token user + min amount (s.market.balances user) ∧
      s'.market.balances user = s.market.balances user - amount := by
  obtain ⟨-, -, -, token, htoken, rfl⟩ := withdraw_ok h
  obtain ⟨-, hbal⟩ := safeTransfer_ok htoken
  have hpayout : s.market.payout user = min amount (s.market.balances user) := by
    rw [payout, hpending]
  constructor
  · rw [hbal, moved_dst huser.symm, hpayout]
  · show set s.market.balances user _ user = _
    rw [set_same, hpayout]
    omega

/--
**The way out is open.** In every state the market can reach, whoever has a balance can ask for
any part of it. From then on, whatever anybody does, the pauser and the administrator included,
and unless the user itself withdraws, cancels or asks again, the user's balance changes by its
own deposits and its own receipts alone; it can take what it asked for from a day later on, as
long as anything is left; and what is left of it, up to what it asked for, arrives.
-/
theorem exit_open {s₀ : MarketState T} {pre : List MarketLabel} {amount : Nat} {blk : Block}
    (h₀ : MarketDeployed s₀.market) (hlive : env.token.Live)
    (hpre : Run (MarketStep env) s₀ pre s) (huser : user ≠ env.self) (hpos : 0 < amount)
    (hle : amount ≤ s.market.balances user) (hnow : s.now ≤ blk.timestamp)
    (hfits : blk.timestamp + WITHDRAW_DELAY < 2 ^ 64) :
    ∃ s₁, MarketStep env s (.call blk user (.requestWithdraw amount)) s₁ ∧
      ∀ ls s₂, Run (MarketStep env) s₁ ls s₂ → (∀ l ∈ ls, l.asks user = false) →
        s₂.market.balances user + redeemedOf user ls =
            s.market.balances user + paidInBy user ls ∧
        ∀ blk',
          ((∃ s₃, MarketCall.withdraw.exec env blk' user s₂ = .ok s₃) ↔
            blk.timestamp + WITHDRAW_DELAY ≤ blk'.timestamp ∧
              redeemedOf user ls < s.market.balances user + paidInBy user ls) ∧
          ∀ s₃, MarketCall.withdraw.exec env blk' user s₂ = .ok s₃ →
            env.token.balanceOf s₃.token user =
                env.token.balanceOf s₂.token user + min amount (s₂.market.balances user) ∧
              s₃.market.balances user = s₂.market.balances user - amount := by
  have hrequest : requestWithdraw blk user amount s = .ok { s with
      market := { s.market with
        pendingWithdrawals := set s.market.pendingWithdrawals user
          ⟨amount, blk.timestamp + WITHDRAW_DELAY⟩ } } := by
    unfold requestWithdraw
    rw [revertIf_neg hpos.ne', revertIf_neg (not_lt.mpr hle), uint64_timestamp, add64,
      checkedAdd_eq hfits]
    rfl
  have hstep := MarketStep.call blk user (.requestWithdraw amount) hnow huser hrequest
  refine ⟨_, hstep, ?_⟩
  intro ls s₂ hrun hwaits
  obtain ⟨hbalance, hpending⟩ := waiting_run hrun hwaits
  have hasked : s₂.market.pendingWithdrawals user = ⟨amount, blk.timestamp + WITHDRAW_DELAY⟩ :=
    hpending.trans (set_same _ _ _)
  -- the market can pay in every state it reaches
  have hsolvent : Solvent env s₂ := marketRun_solvent h₀ (hpre.append (.cons hstep hrun))
  refine ⟨hbalance, fun blk' => ⟨?_, fun s₃ h => withdraw_paid hasked huser h⟩⟩
  have hdue : 0 < blk.timestamp + WITHDRAW_DELAY := Nat.succ_pos _
  refine (withdraw_iff hlive hsolvent hasked hpos hdue).trans (and_congr_right fun _ => ?_)
  have hstart : s₂.market.balances user + redeemedOf user ls =
      s.market.balances user + paidInBy user ls := hbalance
  omega

end Waiting

/-- Whoever may pause an open market pauses it. -/
theorem pause_eq {T : Type} {s : MarketState T} {caller : Address}
    (hrole : s.market.roles.hasRole .pauser caller = true) (hopen : s.market.paused = false) :
    pause caller s = .ok { s with market := { s.market with paused := true } } := by
  unfold pause
  rw [AccessControl.onlyRole_ok (u := ()) |>.mpr hrole, whenNotPaused_ok (u := ()) |>.mpr hopen]
  rfl

set_option maxRecDepth 4000 in
/-- Account 9 may pause the market, in which account 2 has 1000. -/
theorem toyGuarded : ∃ s : MarketState Ledger,
    Run (MarketStep toyMarket) toyMarketStart [
      .call ⟨50, by decide⟩ 9 (.grantRole .pauser 9),
      .call ⟨100, by decide⟩ 2 (.deposit 1000)] s ∧
    s.market.balances 2 = 1000 ∧ s.now = 100 ∧ s.market.roles.hasRole .pauser 9 = true ∧
    s.market.paused = false :=
  ⟨_, .cons (.call ⟨50, by decide⟩ 9 (.grantRole .pauser 9) (by decide) (by decide) rfl)
    (.single (.call ⟨100, by decide⟩ 2 (.deposit 1000) (by decide) (by decide) rfl)),
    rfl, rfl, rfl, rfl⟩

/-- Account 2 asks for its 1000 at the moment 150, and account 9 pauses the market at 160: a day
after it asked, account 2 is paid by the paused market. -/
theorem exit_open_paused : ∃ s₂ s₃ : MarketState Ledger, s₂.market.paused = true ∧
    MarketCall.withdraw.exec toyMarket ⟨86550, by decide⟩ 2 s₂ = .ok s₃ ∧
    ledgerToken.balanceOf s₃.token 2 = ledgerToken.balanceOf s₂.token 2 + 1000 := by
  obtain ⟨s, hrun, hbalance, hnow, hroles, hopen⟩ := toyGuarded
  have hlater : s.now ≤ (⟨150, by decide⟩ : Block).timestamp := by
    rw [hnow]
    decide
  obtain ⟨s₁, hstep, hexit⟩ := exit_open toyMarketStart_deployed ledgerToken_live hrun
    (by decide : (2 : Address) ≠ 20) (by decide : 0 < 1000) hbalance.ge hlater (by decide)
  -- the guardian pauses the market
  obtain ⟨s₂, hpause, hpaused, hbalance₂⟩ : ∃ s₂, MarketStep toyMarket s₁
      (.call ⟨160, by decide⟩ 9 .pause) s₂ ∧ s₂.market.paused = true ∧
        s₂.market.balances 2 = 1000 := by
    cases hstep with
    | call _ _ _ _ _ hexec =>
      obtain ⟨-, -, rfl⟩ := requestWithdraw_ok hexec
      have hlater : (150 : Nat) ≤ 160 := by decide
      exact ⟨_, .call ⟨160, by decide⟩ 9 .pause hlater (by decide) (pause_eq hroles hopen), rfl,
        hbalance⟩
  obtain ⟨-, htake⟩ := hexit _ s₂ (.single hpause) (by simp [MarketLabel.asks])
  obtain ⟨hcan, hpaid⟩ := htake ⟨86550, by decide⟩
  have hleft : redeemedOf 2 [.call ⟨160, by decide⟩ 9 .pause] <
      s.market.balances 2 + paidInBy 2 [.call ⟨160, by decide⟩ 9 .pause] := by
    rw [hbalance]
    decide
  obtain ⟨s₃, hs₃⟩ := hcan.mpr ⟨by decide, hleft⟩
  have htaken := (hpaid s₃ hs₃).1
  rw [hbalance₂] at htaken
  exact ⟨s₂, s₃, hpaused, hs₃, htaken⟩

end BasedAI
