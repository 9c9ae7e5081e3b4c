import BasedAI.Market.Debits

/-!
# BasedAI — collateral under an in-flight receipt

A withdrawal waits a day and a receipt lives at most a day, so a receipt that can
be redeemed now should stay redeemable until it expires, whatever its user
withdraws meanwhile. It does, except where a withdrawal was requested so early
that it matures before the receipt expires (or, for a receipt that lives the full
day, in the very second of its expiry): requests do not lapse, so the delay can
be over before the receipt is signed.

* `Redeemable`       — the receipt passes every check of `redeem`;
* `Secured`          — no withdrawal that can mature before the receipt expires
  reaches its collateral;
* `secured_step`     — the step lemma;
* `withdrawal_wins`  — a withdrawal that does reach it, carried out;
* `collateral_stays` — a redeemable receipt stays redeemable exactly when it is
  secured.
-/

namespace BasedAI

open Fallible Mapping Transition ComputeUnitMarket

variable {T : Type} {env : MarketEnv T} {s s' : MarketState T}

/-! ## Redeemable and secured receipts -/

/-- The miner of `r` can redeem it in block `blk`: every check of `redeem` passes. -/
def Redeemable (env : MarketEnv T) (blk : Block) (s : MarketState T) (r : Receipt)
    (userSig : Bytes) : Prop :=
  redeemChecks env blk r.miner s.market r userSig = .ok ()

/-- A withdrawal the user has requested cannot mature by the time `r` expires, or
leaves enough for `r` when it is paid. -/
def OutOfReach (m : ComputeUnitMarket) (r : Receipt) : Prop :=
  (m.pendingWithdrawals r.user).readyAt = 0 ∨
    r.expiry.val < (m.pendingWithdrawals r.user).readyAt ∨
    r.amount.val ≤ m.balances r.user - m.payout r.user

/-- At time `t`, neither the withdrawal the user has requested nor one requested
from now on can take the collateral of `r` before it expires. -/
def Secured (m : ComputeUnitMarket) (t : Nat) (r : Receipt) : Prop :=
  r.expiry.val < t + WITHDRAW_DELAY ∧ OutOfReach m r

/-- What may happen while a receipt of `user` is in flight: anybody's deposits and
withdrawals, and redemptions of other users' receipts. -/
def InFlight (user : Address) : MarketLabel → Prop
  | .call _ _ (.deposit _) => True
  | .call _ _ (.requestWithdraw _) => True
  | .call _ _ .cancelWithdraw => True
  | .call _ _ .withdraw => True
  | .call _ _ (.redeem r _) => r.user ≠ user
  | .call _ _ _ => False
  | .elsewhere => True

/-! ## A secured receipt stays redeemable -/

/-- What `redeem` will check of the market, apart from the clock. -/
structure Backing (m : ComputeUnitMarket) (cap : Nat) (r : Receipt) : Prop where
  unpaused : m.paused = false
  cap : m.maxReservation = cap
  unused : m.usedNonces r.user r.nonce = false
  balance : r.amount.val ≤ m.balances r.user
  safe : OutOfReach m r

/-- User calls leave the market's settings alone. -/
theorem marketStep_settings {l : MarketLabel} (h : MarketStep env s l s') {user : Address}
    (hlabel : InFlight user l) :
    s'.market.paused = s.market.paused ∧
      s'.market.maxReservation = s.market.maxReservation := by
  cases h with
  | elsewhere => exact ⟨rfl, rfl⟩
  | call blk caller c _ _ hexec =>
    cases c with
    | deposit amount =>
      obtain ⟨-, -, token, -, rfl⟩ := deposit_ok hexec
      exact ⟨rfl, rfl⟩
    | requestWithdraw amount =>
      obtain ⟨-, -, rfl⟩ := requestWithdraw_ok hexec
      exact ⟨rfl, rfl⟩
    | cancelWithdraw =>
      have heq := cancelWithdraw_ok hexec
      subst heq
      exact ⟨rfl, rfl⟩
    | withdraw =>
      obtain ⟨-, -, -, token, -, rfl⟩ := withdraw_ok hexec
      exact ⟨rfl, rfl⟩
    | redeem r userSig =>
      obtain ⟨-, token, distributor, rfl, -⟩ := redeem_ok hexec
      exact ⟨rfl, rfl⟩
    -- no other call leaves the receipt in flight
    | _ => exact hlabel.elim

/-- A payment of `min a b` out of `b` leaves more the larger `b` is. -/
theorem left_mono {a b b' : Nat} (h : b ≤ b') : b - min a b ≤ b' - min a b' := by
  omega

/-- **The step lemma.** No step that leaves the receipt in flight takes its backing
away before it expires. -/
theorem secured_step {l : MarketLabel} {start cap : Nat} {r : Receipt}
    (h : MarketStep env s l s') (hlabel : InFlight r.user l)
    (hlife : r.expiry.val < start + WITHDRAW_DELAY)
    (hs : start ≤ s.now ∧ (s.now ≤ r.expiry.val → Backing s.market cap r)) :
    start ≤ s'.now ∧ (s'.now ≤ r.expiry.val → Backing s'.market cap r) := by
  obtain ⟨hstart, hbacking⟩ := hs
  have hsettings := marketStep_settings h hlabel
  have hnonce := (marketStep_nonce h r.user r.nonce).1
  cases h with
  | elsewhere => exact ⟨hstart, hbacking⟩
  | call blk caller c hnow hcaller hexec =>
    refine ⟨hstart.trans hnow, fun htime => ?_⟩
    have hold := hbacking (hnow.trans htime)
    have htime : blk.timestamp ≤ r.expiry.val := htime
    -- it is not this receipt's nonce that is used up
    have hunused : redeems r.user r.nonce (.call blk caller c) = false := by
      cases c with
      | redeem r' userSig =>
        have hother : r'.user ≠ r.user := hlabel
        simp [redeems, hother]
      | _ => rfl
    have hmove := exec_account hexec r.user
    refine ⟨hsettings.1.trans hold.unpaused, hsettings.2.trans hold.cap, ?_, ?_, ?_⟩
    · rw [hnonce, hunused, Bool.false_or]
      exact hold.unused
    · -- the balance
      show r.amount.val ≤ _
      have hbalance := hold.balance
      cases hmove with
      | untouched hbal => rw [hbal]; exact hbalance
      | deposit amount _ hbal => rw [hbal]; omega
      | request amount _ _ hbal => rw [hbal]; exact hbalance
      | cancel _ hbal => rw [hbal]; exact hbalance
      | withdraw _ hpending hready hbal =>
        -- a withdrawal that is due now was out of reach of the receipt
        rw [hbal]
        rcases hold.safe with hnone | hlate | hleft
        · exact absurd hnone hpending
        · omega
        · exact hleft
      | redeem r' userSig huser => exact absurd huser hlabel
    · -- the pending withdrawal
      unfold OutOfReach payout
      cases hmove with
      | untouched hbal _ hpend => rw [hbal, hpend]; exact hold.safe
      | deposit amount _ hbal _ hpend =>
        rw [hbal, hpend]
        have hmono := @left_mono (s.market.pendingWithdrawals r.user).amount
          (s.market.balances r.user) (s.market.balances r.user + amount) (by omega)
        have hsafe := hold.safe
        unfold OutOfReach payout at hsafe
        omega
      | request amount _ _ _ _ hpend =>
        -- a withdrawal requested from `start` on matures after the receipt
        rw [hpend]
        right
        left
        show r.expiry.val < blk.timestamp + WITHDRAW_DELAY
        omega
      | cancel _ _ _ hpend =>
        rw [hpend]
        exact .inl rfl
      | withdraw _ _ _ _ _ hpend =>
        rw [hpend]
        exact .inl rfl
      | redeem r' userSig huser => exact absurd huser hlabel

/-- A secured receipt stays redeemable over every run that leaves it in flight. -/
theorem redeemable_of_secured {blk blk' : Block} {r : Receipt} {userSig : Bytes}
    {ls : List MarketLabel} (hr : Redeemable env blk s r userSig)
    (hsecured : Secured s.market blk.timestamp r)
    (h : Run (restrict (MarketStep env) fun _ l => InFlight r.user l)
      { s with now := blk.timestamp } ls s')
    (hnow : s'.now ≤ blk'.timestamp) (hexpiry : blk'.timestamp ≤ r.expiry.val) :
    Redeemable env blk' s' r userSig := by
  obtain ⟨hopen, -, -, hlife, hresponse, hamount, hcap, hunused, hbalance, -, hrecover⟩ :=
    redeemChecks_ok.mp hr
  have hstart : blk.timestamp ≤ blk.timestamp ∧ (blk.timestamp ≤ r.expiry.val →
      Backing s.market s.market.maxReservation r) :=
    ⟨le_rfl, fun _ => ⟨hopen, rfl, hunused, hbalance, hsecured.2⟩⟩
  -- the receipt stays backed for as long as it is in date
  have hend := h.invariant
    (I := fun x => blk.timestamp ≤ x.now ∧ (x.now ≤ r.expiry.val →
      Backing x.market s.market.maxReservation r))
    (fun hstep => secured_step hstep.1 hstep.2 hsecured.1) hstart
  have hbacking := hend.2 (hnow.trans hexpiry)
  have hfits : blk'.timestamp + MAX_RECEIPT_LIFETIME < 2 ^ 256 := by
    have hlt := blk'.timestamp_lt
    unfold MAX_RECEIPT_LIFETIME
    omega
  refine redeemChecks_ok.mpr ⟨hbacking.unpaused, hexpiry, hfits, ?_, hresponse, hamount, ?_,
    hbacking.unused, hbacking.balance, rfl, hrecover⟩
  · have hlater := hend.1
    omega
  · rw [hbacking.cap]
    exact hcap

/-! ## An unsecured receipt can lose its collateral -/

/-- A withdrawal that is due before the receipt expires and leaves too little takes
the collateral. -/
theorem withdrawal_wins (hlive : env.token.Live) (hs : Solvent env s) (w : Block)
    {r : Receipt} (userSig : Bytes) (huser : r.user ≠ env.self) (hnow : s.now ≤ w.timestamp)
    (hpending : (s.market.pendingWithdrawals r.user).readyAt ≠ 0)
    (hready : (s.market.pendingWithdrawals r.user).readyAt ≤ w.timestamp)
    (hbalance : r.amount.val ≤ s.market.balances r.user)
    (hshort : s.market.balances r.user - s.market.payout r.user < r.amount.val) :
    ∃ l q, MarketStep env s l q ∧ InFlight r.user l ∧ q.now = w.timestamp ∧
      ¬ Redeemable env w q r userSig := by
  have hpaid : 0 < s.market.payout r.user := by omega
  obtain ⟨q, hq⟩ := withdraw_succeeds hlive hs hpending hready hpaid
  refine ⟨.call w r.user .withdraw, { q with now := w.timestamp },
    .call w r.user .withdraw hnow huser hq, trivial, rfl, fun hr => ?_⟩
  obtain ⟨-, -, -, -, -, -, -, -, hle, -, -⟩ := redeemChecks_ok.mp hr
  obtain ⟨-, -, -, token, -, rfl⟩ := withdraw_ok hq
  dsimp only at hle
  rw [set_same] at hle
  omega

/-- A user can ask for the whole balance. -/
theorem requestWithdraw_all {blk : Block} {user : Address}
    (hpos : 0 < s.market.balances user) (hfits : blk.timestamp + WITHDRAW_DELAY < 2 ^ 64) :
    requestWithdraw blk user (s.market.balances user) s =
      .ok { s with
        market := { s.market with
          pendingWithdrawals := set s.market.pendingWithdrawals user
            ⟨s.market.balances user, blk.timestamp + WITHDRAW_DELAY⟩ } } := by
  unfold requestWithdraw
  rw [revertIf_neg (Nat.ne_of_gt hpos), revertIf_neg (Nat.lt_irrefl _), uint64_timestamp, add64,
    checkedAdd_eq hfits]
  rfl

/-- A receipt that is not secured can lose its collateral before it expires. -/
theorem unsecured_loses (hlive : env.token.Live) (hs : Solvent env s) {blk : Block}
    {r : Receipt} {userSig : Bytes} (huser : r.user ≠ env.self)
    (hr : Redeemable env blk s r userSig) (hunsecured : ¬ Secured s.market blk.timestamp r) :
    ∃ ls q blk', Run (restrict (MarketStep env) fun _ l => InFlight r.user l)
        { s with now := blk.timestamp } ls q ∧
      q.now ≤ blk'.timestamp ∧ blk'.timestamp ≤ r.expiry.val ∧
      ¬ Redeemable env blk' q r userSig := by
  obtain ⟨-, hexpiry, -, hlife, -, hamount, -, -, hbalance, -, -⟩ := redeemChecks_ok.mp hr
  by_cases hshortLived : r.expiry.val < blk.timestamp + WITHDRAW_DELAY
  · -- a withdrawal requested earlier matures in time
    have hreach : ¬ OutOfReach s.market r := fun h => hunsecured ⟨hshortLived, h⟩
    unfold OutOfReach at hreach
    push Not at hreach
    obtain ⟨hpending, hready, hshort⟩ := hreach
    have hlt := r.expiry.isLt
    have hs' : Solvent env { s with now := blk.timestamp } := hs
    have hdue : max blk.timestamp (s.market.pendingWithdrawals r.user).readyAt < 2 ^ 64 := by
      omega
    obtain ⟨l, q, hstep, hlabel, hnow, hlost⟩ := withdrawal_wins hlive hs' ⟨_, hdue⟩ userSig
      huser (le_max_left _ _) hpending (le_max_right _ _) hbalance hshort
    exact ⟨[l], q, _, .single ⟨hstep, hlabel⟩, hnow.le, max_le hexpiry hready, hlost⟩
  · -- a withdrawal requested now matures in the second the receipt expires
    have hlast : r.expiry.val = blk.timestamp + WITHDRAW_DELAY := by
      unfold WITHDRAW_DELAY at hshortLived ⊢
      unfold MAX_RECEIPT_LIFETIME at hlife
      omega
    have hpos : 0 < s.market.balances r.user := by omega
    have hfits : blk.timestamp + WITHDRAW_DELAY < 2 ^ 64 := hlast ▸ r.expiry.isLt
    have hrequest := @requestWithdraw_all T { s with now := blk.timestamp } blk r.user hpos hfits
    have hstep₁ := MarketStep.call blk r.user (.requestWithdraw (s.market.balances r.user))
      (le_refl blk.timestamp) huser hrequest
    have hs' := marketStep_solvent hstep₁ hs
    have hpending := set_same s.market.pendingWithdrawals r.user
      ⟨s.market.balances r.user, blk.timestamp + WITHDRAW_DELAY⟩
    obtain ⟨l, q, hstep₂, hlabel, hnow, hlost⟩ := withdrawal_wins hlive hs'
      ⟨r.expiry.val, r.expiry.isLt⟩ userSig huser hexpiry
      (by dsimp only; rw [hpending]; exact Nat.succ_ne_zero _)
      (by dsimp only; rw [hpending]; exact hlast.ge) hbalance
      (by unfold payout; dsimp only; rw [hpending]; dsimp only; rw [min_self]; omega)
    exact ⟨[_, l], q, _, .cons ⟨hstep₁, trivial⟩ (.single ⟨hstep₂, hlabel⟩), hnow.le, le_rfl,
      hlost⟩

/--
**Collateral stays.** A receipt redeemable at time `t` is redeemable at every later
time up to its expiry, whatever deposits and withdrawals are made and whatever
other users' receipts are redeemed in between, provided it expires less than
`WITHDRAW_DELAY` from now and no withdrawal requested earlier both matures by then
and takes what it needs. Otherwise, in a reachable state and with a token that
moves what is held, its user can take the collateral away in time.
-/
theorem collateral_stays {s₀ : MarketState T} {pre : List MarketLabel} {blk : Block}
    {r : Receipt} {userSig : Bytes} (h₀ : MarketDeployed s₀.market)
    (h : Run (MarketStep env) s₀ pre s) (hr : Redeemable env blk s r userSig) :
    (Secured s.market blk.timestamp r → ∀ ls q blk',
      Run (restrict (MarketStep env) fun _ l => InFlight r.user l)
        { s with now := blk.timestamp } ls q →
      q.now ≤ blk'.timestamp → blk'.timestamp ≤ r.expiry.val →
      Redeemable env blk' q r userSig) ∧
    (env.token.Live → r.user ≠ env.self → ¬ Secured s.market blk.timestamp r →
      ∃ ls q blk', Run (restrict (MarketStep env) fun _ l => InFlight r.user l)
          { s with now := blk.timestamp } ls q ∧
        q.now ≤ blk'.timestamp ∧ blk'.timestamp ≤ r.expiry.val ∧
        ¬ Redeemable env blk' q r userSig) := by
  refine ⟨?_, ?_⟩
  · intro hsecured ls q blk' hrun hnow hexpiry
    exact redeemable_of_secured hr hsecured hrun hnow hexpiry
  · intro hlive huser hunsecured
    -- reachable, so the market can pay the withdrawal
    have hsolvent : Solvent env s := marketRun_solvent h₀ h
    exact unsecured_loses hlive hsolvent huser hr hunsecured

set_option maxRecDepth 4000 in
/-- Account 2 deposited 1000 and asked for nothing back: the toy receipt, redeemable
at 150, stays redeemable until it expires at 200. -/
theorem collateral_stays_deposit :
    ∃ s : MarketState Ledger, s.market.balances 2 = 1000 ∧ ∀ ls q blk',
      Run (restrict (MarketStep toyMarket) fun _ l => InFlight 2 l) { s with now := 150 } ls q →
      q.now ≤ blk'.timestamp → blk'.timestamp ≤ 200 →
      Redeemable toyMarket blk' q toyReceipt [2, 3] := by
  refine ⟨_, ?_, (@collateral_stays Ledger toyMarket _ _ _ ⟨150, by decide⟩ toyReceipt [2, 3]
    toyMarketStart_deployed
    (.cons (.call ⟨100, by decide⟩ 2 (.deposit 1000) (by decide) (by decide) rfl) (.nil _))
    (toyReceipt_checks rfl rfl (by decide) (by decide) (by decide))).1
    ⟨by decide, .inl rfl⟩⟩
  rfl

/-- Account 2 deposits 50 and asks for it back. -/
def earlyRequest : List MarketLabel :=
  [.call (toyBlockAt 100) 2 (.deposit 50),
    .call (toyBlockAt 100) 2 (.requestWithdraw 50)]

set_option maxRecDepth 4000 in
/-- A day after that request account 2 signs a receipt. It can be redeemed, account 2
withdraws in the same second, and the receipt is worthless before it expires. -/
theorem collateral_leaves :
    ∃ s q, Run (MarketStep toyMarket) toyMarketStart earlyRequest s ∧
      Redeemable toyMarket ⟨90000, by decide⟩ s { toyReceipt with expiry := 90100 } [2, 3] ∧
      Run (restrict (MarketStep toyMarket) fun _ l => InFlight 2 l) { s with now := 90000 }
        [.call ⟨90000, by decide⟩ 2 .withdraw] q ∧
      q.now = 90000 ∧
      ¬ Redeemable toyMarket ⟨90001, by decide⟩ q { toyReceipt with expiry := 90100 } [2, 3] := by
  have hblock : toyBlockAt 100 = ⟨100, by decide⟩ := rfl
  unfold earlyRequest
  rw [hblock]
  refine ⟨_, _,
    .cons (.call _ _ _ (by decide) (by decide) rfl)
      (.single (.call _ _ _ (by decide) (by decide) rfl)),
    toyReceipt_checks rfl rfl (by decide) (by decide) (by decide),
    .single ⟨.call _ _ _ (by decide) (by decide) rfl, trivial⟩, ?_, ?_⟩
  · rfl
  · intro hr
    obtain ⟨-, -, -, -, -, -, -, -, hle, -, -⟩ := redeemChecks_ok.mp hr
    exact absurd hle (by decide)

end BasedAI
