import BasedAI.Client.SignedReceipts
import BasedAI.Market.Debits

/-!
# BasedAI — one call never costs more than its budget

The two receipts of a call carry the user's one nonce for it, whatever the gateway
answered, so the market redeems at most one of them; and neither is over more than
the budget.

The gateway chooses the miner, the reply and every field of the final receipt, and
the market may be in any state: nothing here depends on either being honest.

* `signed_receipt`  — user, nonce and bound of whatever a call signs;
* `run_drawn`       — what redemptions take from an account;
* `budget_safety`   — at most one redemption, at most the budget.
-/

namespace BasedAI

open Fallible Mapping Transition Python ComputeUnitMarket BasedClient

variable {T : Type} {env : MarketEnv T} {s s' : MarketState T}
  {client : Client} {around : Surroundings} {req : InferenceRequest}

/-! ## Redemptions in a run -/

/-- The step redeems a receipt. -/
def isRedemption : MarketLabel → Bool
  | .call _ _ (.redeem _ _) => true
  | _ => false

/-- The amount a step redeems. -/
def redeemedAmount : MarketLabel → Nat
  | .call _ _ (.redeem r _) => r.amount.val
  | _ => 0

/-- The amounts redeemed in a run. -/
def drawn (ls : List MarketLabel) : Nat := (ls.map redeemedAmount).sum

/-- Whoever redeems anything in the run redeems one of these receipts. -/
def UsesOnly (receipts : List BasedAI.Receipt) (ls : List MarketLabel) : Prop :=
  ∀ blk caller r userSig, .call blk caller (.redeem r userSig) ∈ ls → r ∈ receipts

/-- The run consists of redemptions and of what happens away from the market. -/
def OnlyRedemptions (ls : List MarketLabel) : Prop :=
  ∀ l ∈ ls, isRedemption l = true ∨ l = .elsewhere

theorem isRedemption_iff {l : MarketLabel} :
    isRedemption l = true ↔ ∃ blk caller r userSig, l = .call blk caller (.redeem r userSig) := by
  constructor
  · intro h
    cases l with
    | elsewhere => cases h
    | call blk caller c =>
      cases c with
      | redeem r userSig => exact ⟨blk, caller, r, userSig, rfl⟩
      | _ => cases h
  · rintro ⟨blk, caller, r, userSig, rfl⟩
    rfl

/-- Redemptions of at most `bound` each draw at most `bound` each together. -/
theorem drawn_le {ls : List MarketLabel} {bound : Nat}
    (h : ∀ l ∈ ls, isRedemption l = true → redeemedAmount l ≤ bound) :
    drawn ls ≤ ls.countP isRedemption * bound := by
  induction ls with
  | nil => exact Nat.zero_le _
  | cons l ls ih =>
    have hrest : drawn ls ≤ ls.countP isRedemption * bound :=
      ih fun k hk => h k (List.mem_cons_of_mem _ hk)
    have hsplit : drawn (l :: ls) = redeemedAmount l + drawn ls := by
      rw [drawn, List.map_cons, List.sum_cons, ← drawn]
    rw [hsplit, List.countP_cons]
    by_cases hredeems : isRedemption l = true
    · have hl : redeemedAmount l ≤ bound := h l (List.mem_cons_self ..) hredeems
      rw [if_pos hredeems, Nat.add_mul, Nat.one_mul]
      omega
    · -- any other step draws nothing
      have hl : redeemedAmount l = 0 := by
        cases l with
        | elsewhere => rfl
        | call blk caller c =>
          cases c with
          | redeem r userSig => exact absurd rfl hredeems
          | _ => rfl
      rw [if_neg hredeems, hl, Nat.add_zero, Nat.zero_add]
      exact hrest

theorem marketStep_drawn {l : MarketLabel} (h : MarketStep env s l s')
    (honly : isRedemption l = true ∨ l = .elsewhere) (user : Address) :
    s.market.balances user ≤ s'.market.balances user + redeemedAmount l := by
  rcases marketStep_account h user with ⟨blk, caller, c, rfl, hmove⟩ | ⟨-, hsame⟩
  · rcases honly with hredeems | helse
    · obtain ⟨_, _, r, userSig, hl⟩ := isRedemption_iff.mp hredeems
      obtain ⟨-, -, rfl⟩ := MarketLabel.call.inj hl
      show _ ≤ _ + r.amount.val
      cases hmove with
      | untouched hbal => omega
      | redeem _ _ _ _ hbal => omega
    · cases helse
  · rw [hsame]
    exact Nat.le_add_right _ _

/-- What a run of redemptions takes from an account is at most what it redeems. -/
theorem run_drawn {ls : List MarketLabel} (h : Run (MarketStep env) s ls s')
    (honly : OnlyRedemptions ls) (user : Address) :
    s.market.balances user ≤ s'.market.balances user + drawn ls := by
  induction h with
  | nil s => exact Nat.le_add_right _ _
  | @cons s t u l ls hstep _ ih =>
    have hfirst : s.market.balances user ≤ t.market.balances user + redeemedAmount l :=
      marketStep_drawn hstep (honly l (List.mem_cons_self ..)) user
    have hrest : t.market.balances user ≤ u.market.balances user + drawn ls :=
      ih fun k hk => honly k (List.mem_cons_of_mem _ hk)
    have hsplit : drawn (l :: ls) = redeemedAmount l + drawn ls := by
      rw [drawn, List.map_cons, List.sum_cons, ← drawn]
    omega

/-! ## The receipts of one call -/

/-- The nonce of a call as the market sees it. -/
def callNonce (around : Surroundings) : Fin (2 ^ 256) :=
  ⟨around.randbits.val, around.randbits_lt⟩

/-- Whatever a call signs is a receipt of the client's account over at most the
budget, under the nonce the call drew. -/
theorem signed_receipt {r : BasedAI.Receipt} (h : r ∈ (infer client around req).receipts) :
    ∃ account, client.account = some account ∧ r.user = account.address ∧
      r.nonce = callNonce around ∧ (r.amount.val : Int) ≤ req.budget := by
  obtain ⟨signed, hsigned, rfl⟩ := List.mem_map.mp h
  obtain ⟨account, preauth, haccount, hpre, hencodes, hwhich⟩ := infer_signed hsigned
  refine ⟨account, haccount, ?_⟩
  rcases hwhich with rfl | ⟨data, expectedHash, hfinal, hfinalEncodes⟩
  · obtain ⟨t, htext, huser⟩ := hencodes.user
    have hownText : t = toChecksum around.crypto account.address :=
      Json.str.inj (htext.symm.trans hpre.user)
    have hamount : (signed.encoded.amount.val : Int) = reservation req := by
      rw [hencodes.amount, hpre.amount]
    have hnonce : (signed.encoded.nonce.val : Int) = around.randbits.val := by
      rw [hencodes.nonce, hpre.nonce]
    rw [hownText, hexAddress_toChecksum, Option.some.injEq] at huser
    refine ⟨huser.symm, Fin.ext (by exact_mod_cast hnonce), ?_⟩
    rw [hamount]
    exact reservation_le_budget req
  · -- the reply's receipt has passed the identity check
    obtain ⟨⟨s, t, hs, ht, hlower⟩, -, -, -, -, hsameNonce⟩ :=
      assertFinalReceiptIdentity_ok.mp hfinal.identity
    obtain ⟨s', hs', huser⟩ := hfinalEncodes.user
    have hownText : t = toChecksum around.crypto account.address :=
      Json.str.inj (ht.symm.trans hpre.user)
    have hsame : s' = s := Json.str.inj (hs'.symm.trans hs)
    have hnonce : (signed.encoded.nonce.val : Int) = around.randbits.val := by
      rw [hfinalEncodes.nonce, hsameNonce, hpre.nonce]
    rw [hsame] at huser
    rw [hownText] at hlower
    refine ⟨?_, Fin.ext (by exact_mod_cast hnonce), ?_⟩
    · exact hexAddress_eq_of_lower huser (hexAddress_toChecksum _ _) hlower
    · rw [hfinalEncodes.amount]
      exact hfinal.withinBudget

/--
**Budget safety.** Take any call of `infer` with a budget that is not negative, any
answers of the gateway and any prices. In every run of the market from any state in
which nothing is redeemed but receipts this call signed, by whomever,

* at most one redemption happens;
* the amounts redeemed are within the budget;
* if the run consists of redemptions, no account ends with less than it had minus
  the budget.
-/
theorem budget_safety (client : Client) (around : Surroundings) (req : InferenceRequest)
    (hbudget : 0 ≤ req.budget) {ls : List MarketLabel} (hrun : Run (MarketStep env) s ls s')
    (hsigned : UsesOnly (infer client around req).receipts ls) :
    ls.countP isRedemption ≤ 1 ∧ (drawn ls : Int) ≤ req.budget ∧
    (OnlyRedemptions ls → ∀ user,
      (s.market.balances user : Int) ≤ s'.market.balances user + req.budget) := by
  -- what each redemption of the run is
  have hredeemed : ∀ l ∈ ls, isRedemption l = true → ∃ account,
      client.account = some account ∧
      redeems account.address (callNonce around) l = true ∧
      (redeemedAmount l : Int) ≤ req.budget := by
    intro l hl hredeems
    obtain ⟨blk, caller, r, userSig, rfl⟩ := isRedemption_iff.mp hredeems
    obtain ⟨account, haccount, huser, hnonce, hamount⟩ :=
      signed_receipt (hsigned blk caller r userSig hl)
    exact ⟨account, haccount, decide_eq_true ⟨huser, hnonce⟩, hamount⟩
  have honce : ls.countP isRedemption ≤ 1 := by
    cases haccount : client.account with
    | none =>
      have hnone : ls.countP isRedemption = 0 := by
        rw [List.countP_eq_zero]
        intro l hl hredeems
        obtain ⟨account, hsome, -⟩ := hredeemed l hl hredeems
        rw [haccount] at hsome
        cases hsome
      omega
    | some account =>
      have hnonce : ∀ l ∈ ls, isRedemption l = true →
          redeems account.address (callNonce around) l = true := by
        intro l hl hredeems
        obtain ⟨account', hsome, hnonce, -⟩ := hredeemed l hl hredeems
        rw [haccount, Option.some.injEq] at hsome
        rwa [hsome]
      calc ls.countP isRedemption
          ≤ ls.countP (redeems account.address (callNonce around)) :=
            List.countP_mono_left hnonce
        _ ≤ if s.market.usedNonces account.address (callNonce around) then 0 else 1 :=
            run_redemptions hrun account.address (callNonce around)
        _ ≤ 1 := by split <;> omega
  have hdrawn : (drawn ls : Int) ≤ req.budget := by
    have hbound : drawn ls ≤ ls.countP isRedemption * req.budget.toNat := by
      apply drawn_le
      intro l hl hredeems
      obtain ⟨-, -, -, hamount⟩ := hredeemed l hl hredeems
      omega
    have hone : ls.countP isRedemption * req.budget.toNat ≤ 1 * req.budget.toNat :=
      Nat.mul_le_mul_right _ honce
    omega
  refine ⟨honce, hdrawn, ?_⟩
  intro honly user
  have hbalance : s.market.balances user ≤ s'.market.balances user + drawn ls :=
    run_drawn hrun honly user
  omega

/-! ## A call that ends in a redemption -/

/-- The client of account 2, for the toy market. -/
def toyClient : Client where
  config := { chainId := 1, market := text "0x0000000000000000000000000000000000000014" }
  account := some { address := 2, sign := fun digest => [2, UInt8.ofNat digest.val] }

/-- A request of one byte to Brain 3 with a budget of 50. -/
def toyRequest : InferenceRequest where
  brainId := 3
  prompt := [1]
  budget := 50
  expiry := some 200
  reservation := 30

def toyMinerAddress : Json := .str (text "0x0000000000000000000000000000000000000007")

/-- The final receipt the gateway proposes, over 40. It spells the user's address and
the Brain in its own way. -/
def toyProposal : Json :=
  .dict [
    (text "user", .str (text "0X0000000000000000000000000000000000000002")),
    (text "miner", toyMinerAddress),
    (text "brain_id", .str (text " 3 ")),
    (text "prompt_hash", .str (hexText 1)),
    (text "response_hash", .str (hexText 5)),
    (text "amount", .int 40),
    (text "expiry", .int 200),
    (text "nonce", .int 3)]

/-- One miner, a price of 20 a byte, and a reply of one byte. -/
def toySurroundings : Surroundings where
  crypto := toyCrypto
  unicode := { lower := id, digit := fun _ => none, isSpace := fun _ => false }
  time := 100
  randbits := 3
  miners := .response 200 (some (.list [.dict [(text "address", toyMinerAddress)]]))
  inference := .response 200 (some (.dict [
    (text "text", .str [5]),
    (text "prompt_hash", .str (hexText 1)),
    (text "response_hash", .str (hexText 5)),
    (text "tokens_in", .int 1),
    (text "tokens_out", .int 1),
    (text "miner_signature", .str []),
    (text "final_receipt", toyProposal)]))
  pricing := some (20, 0)

/-- That call signs a pre-authorisation over 30 and the toy receipt over 40. -/
theorem toy_receipts :
    (infer toyClient toySurroundings toyRequest).receipts =
      [{ toyReceipt with responseHash := 3, amount := 30 }, toyReceipt] := by
  decide +kernel

set_option maxRecDepth 4000 in
/-- The miner redeems the toy receipt out of an account of 1000: 40 of the budget of 50
are drawn, and the pre-authorisation is void. -/
theorem budget_safety_redeem :
    ∃ p q : MarketState Ledger, p.market.balances 2 = 1000 ∧ q.market.balances 2 = 960 ∧
      drawn [.call ⟨150, by decide⟩ 7 (.redeem toyReceipt [2, 3])] = 40 ∧
      (p.market.balances 2 : Int) ≤ q.market.balances 2 + toyRequest.budget := by
  have hrun : ∃ p q, p.market.balances 2 = 1000 ∧ q.market.balances 2 = 960 ∧
      Run (MarketStep toyMarket) p [.call ⟨150, by decide⟩ 7 (.redeem toyReceipt [2, 3])] q := by
    refine ⟨{ toyMarketStart with
      market := { toyMarketStart.market with balances := fun _ => 1000 } }, _, rfl, ?_,
      .single (.call ⟨150, by decide⟩ 7 (.redeem toyReceipt [2, 3]) (by decide) (by decide)
        ((redeem_eq_settle
          (toyReceipt_checks rfl rfl (by decide) (by decide) (by decide))).trans rfl))⟩
    rfl
  obtain ⟨p, q, hp, hq, hrun⟩ := hrun
  -- nothing but the redemption happens, and the receipt in it is one of the two signed
  have honly : OnlyRedemptions [.call ⟨150, by decide⟩ 7 (.redeem toyReceipt [2, 3])] := by
    intro l hl
    obtain rfl := List.mem_singleton.mp hl
    exact .inl rfl
  have hsigned : UsesOnly (infer toyClient toySurroundings toyRequest).receipts
      [.call ⟨150, by decide⟩ 7 (.redeem toyReceipt [2, 3])] := by
    intro blk caller r userSig hmem
    obtain ⟨-, -, hcall⟩ := MarketLabel.call.inj (List.mem_singleton.mp hmem)
    obtain ⟨rfl, -⟩ := MarketCall.redeem.inj hcall
    rw [toy_receipts]
    exact List.mem_cons_of_mem _ (List.mem_singleton.mpr rfl)
  have hsafe := budget_safety toyClient toySurroundings toyRequest (by decide) hrun hsigned
  exact ⟨p, q, hp, hq, rfl, hsafe.2.2 honly 2⟩

end BasedAI
