import BasedAI.Client.BudgetSafety
import BasedAI.Client.TypeScriptReceipts

/-!
# BasedAI — what one call can cost, and what it returns

A call that counter-signed a final receipt returns its amount, the metered charge. The
pre-authorisation it signed first is still out, and under the same nonce: the miner
redeems one of the two. So the most a call can cost is the larger of the two amounts,
and what it costs beyond the amount returned it costs as a pre-authorisation, within the
market's cap.

The two clients are treated alike. `ClientCall` is a call of either.

* `Charged.bounded`   — what redemptions of the two receipts of a call take;
* `call_cost_bounded` — the same for every call of either client.
-/

namespace BasedAI

open Fallible Mapping Transition Python Js ComputeUnitMarket

variable {T : Type} {env : MarketEnv T} {s s' : MarketState T} {p f : Receipt}

/-! ## The two receipts of a call -/

/-- What a call leaves behind that signed `p` and `f` and returned `amount`. -/
structure Charged (crypto : Crypto) (p f : Receipt) (reservation amount : Int) : Prop where
  user : f.user = p.user
  nonce : f.nonce = p.nonce
  sentinel : p.responseHash =
    crypto.keccak256 (wordBytes p.promptHash ++ wordBytes p.nonce)
  preauth : (p.amount.val : Int) = reservation
  final : (f.amount.val : Int) = amount

/-- Somewhere in the run the receipt `p` is redeemed, within the cap in force. -/
def RedeemedWithinCap (env : MarketEnv T) (s : MarketState T) (ls : List MarketLabel)
    (s' : MarketState T) (p : Receipt) : Prop :=
  ∃ blk caller userSig x y,
    Along (MarketStep env) s ls s' x (.call blk caller (.redeem p userSig)) y ∧
      p.amount.val ≤ x.market.maxReservation

/-- A step of the run that redeems a pre-authorisation is within the cap. -/
theorem redeem_within_cap {blk : Block} {caller : Address} {userSig : Bytes}
    (hsentinel : p.responseHash = sentinel env p)
    (h : MarketStep env s (.call blk caller (.redeem p userSig)) s') :
    p.amount.val ≤ s.market.maxReservation := by
  cases h with
  | call _ _ _ _ _ hexec =>
    obtain ⟨hchecks, -⟩ := redeem_ok hexec
    obtain ⟨-, -, -, -, -, -, hcap, -⟩ := redeemChecks_ok.mp hchecks
    exact hcap hsentinel

/-- With the nonce used up, receipts under it draw nothing. -/
theorem drawn_of_used {ls : List MarketLabel} {receipts : List Receipt} {user : Address}
    {nonce : Fin (2 ^ 256)} (hrun : Run (MarketStep env) s ls s')
    (hused : s.market.usedNonces user nonce = true) (honly : UsesOnly receipts ls)
    (hreceipts : ∀ r ∈ receipts, r.user = user ∧ r.nonce = nonce) : drawn ls = 0 := by
  have hnone : ls.countP (redeems user nonce) = 0 := by
    have hcount := run_redemptions hrun user nonce
    rw [hused] at hcount
    exact Nat.le_zero.mp hcount
  have hzero : drawn ls ≤ ls.countP isRedemption * 0 := by
    apply drawn_le
    intro l hl hredeems
    obtain ⟨blk, caller, r, userSig, rfl⟩ := isRedemption_iff.mp hredeems
    -- the redemption would be one of the nonce
    exact absurd (decide_eq_true (hreceipts r (honly blk caller r userSig hl)))
      (List.countP_eq_zero.mp hnone _ hl)
  omega

/-- **One of the two is redeemed.** What receipts of a call draw is nothing, the final
amount, or the pre-authorised amount, and the last within the cap. -/
theorem Charged.drawn_cases {reservation amount : Int}
    (h : Charged env.crypto p f reservation amount) {ls : List MarketLabel}
    (hrun : Run (MarketStep env) s ls s') (honly : UsesOnly [p, f] ls) :
    drawn ls = 0 ∨ drawn ls = f.amount.val ∨
      drawn ls = p.amount.val ∧ RedeemedWithinCap env s ls s' p := by
  have hpair : ∀ r ∈ [p, f], r.user = p.user ∧ r.nonce = p.nonce := by
    intro r hr
    rcases List.mem_cons.mp hr with rfl | hr
    · exact ⟨rfl, rfl⟩
    · obtain rfl := List.mem_singleton.mp hr
      exact ⟨h.user, h.nonce⟩
  -- the first redemption of the run is the only one
  induction hrun with
  | nil s => exact .inl rfl
  | @cons s t u l ls hstep hrest ih =>
    have honlyRest : UsesOnly [p, f] ls := fun blk caller r userSig hl =>
      honly blk caller r userSig (List.mem_cons_of_mem _ hl)
    have hsplit : drawn (l :: ls) = redeemedAmount l + drawn ls := by
      rw [drawn, List.map_cons, List.sum_cons, ← drawn]
    by_cases hredeems : isRedemption l = true
    · obtain ⟨blk, caller, r, userSig, rfl⟩ := isRedemption_iff.mp hredeems
      have hr : r ∈ [p, f] := honly blk caller r userSig (List.mem_cons_self ..)
      have hused : t.market.usedNonces p.user p.nonce = true := by
        have hafter := (marketStep_nonce hstep p.user p.nonce).1
        rw [hafter, redeems, decide_eq_true (hpair r hr), Bool.true_or]
      have hrestZero : drawn ls = 0 := drawn_of_used hrest hused honlyRest hpair
      have hall : drawn (.call blk caller (.redeem r userSig) :: ls) = r.amount.val := by
        rw [hsplit, hrestZero, Nat.add_zero, redeemedAmount]
      rcases List.mem_cons.mp hr with rfl | hr
      · exact .inr (.inr ⟨hall, blk, caller, userSig, s, t, ⟨[], ls, rfl, .nil s, hstep, hrest⟩,
          redeem_within_cap h.sentinel hstep⟩)
      · obtain rfl := List.mem_singleton.mp hr
        exact .inr (.inl hall)
    · have hzero : redeemedAmount l = 0 := by
        cases l with
        | elsewhere => rfl
        | call blk caller c =>
          cases c with
          | redeem r userSig => exact absurd rfl hredeems
          | _ => rfl
      rw [hsplit, hzero, Nat.zero_add]
      rcases ih honlyRest with hnone | hfinal | ⟨hpre, blk, caller, userSig, x, y, halong, hcap⟩
      · exact .inl hnone
      · exact .inr (.inl hfinal)
      · exact .inr (.inr ⟨hpre, blk, caller, userSig, x, y, halong.later hstep, hcap⟩)

/-- Bounds on what redemptions with the receipts `p` and `f` take in any run of the
market: at most one of them, at most the larger of the two amounts; beyond `amount` only
by redeeming `p` within the cap. -/
def CostBounded (env : MarketEnv T) (p f : Receipt) (reservation amount : Int) : Prop :=
  ∀ {s s' : MarketState T} {ls : List MarketLabel}, Run (MarketStep env) s ls s' →
    UsesOnly [p, f] ls →
      (drawn ls : Int) ≤ max amount reservation ∧
      (amount < drawn ls → (drawn ls : Int) = reservation ∧ RedeemedWithinCap env s ls s' p) ∧
      (OnlyRedemptions ls → ∀ user, (s.market.balances user : Int) ≤
        s'.market.balances user + max amount reservation)

theorem Charged.bounded {reservation amount : Int}
    (h : Charged env.crypto p f reservation amount) :
    CostBounded env p f reservation amount := by
  intro s s' ls hrun honly
  have hpre : (p.amount.val : Int) = reservation := h.preauth
  have hfin : (f.amount.val : Int) = amount := h.final
  have hcases := h.drawn_cases hrun honly
  -- whichever of the two is redeemed, or neither
  have hmax : (drawn ls : Int) ≤ max amount reservation := by
    rcases hcases with hnone | hfinal | ⟨hdrawn, -⟩
    · omega
    · omega
    · omega
  refine ⟨hmax, ?_, ?_⟩
  · intro hover
    rcases hcases with hnone | hfinal | ⟨hdrawn, hcap⟩
    · omega
    · omega
    · exact ⟨by omega, hcap⟩
  · intro hredemptions user
    have hbalance : s.market.balances user ≤ s'.market.balances user + drawn ls :=
      run_drawn hrun hredemptions user
    omega

/-! ## A call of either client -/

/-- A call of `infer`. -/
inductive ClientCall
  | python (client : BasedClient.Client) (around : BasedClient.Surroundings)
      (req : BasedClient.InferenceRequest)
  | typeScript (client : TypeScriptClient.Client) (around : TypeScriptClient.Surroundings)
      (req : TypeScriptClient.InferenceRequest)

namespace ClientCall

/-- The receipts the call signed. -/
def receipts : ClientCall → List Receipt
  | .python client around req => (BasedClient.infer client around req).receipts
  | .typeScript client around req => (TypeScriptClient.infer client around req).receipts

/-- The amount in the response, if the call returned. -/
def returned : ClientCall → Option Int
  | .python client around req =>
    (BasedClient.infer client around req).outcome.toOption.map (·.amount)
  | .typeScript client around req =>
    (TypeScriptClient.infer client around req).outcome.toOption.map (·.amount)

/-- The amount of the pre-authorisation. -/
def reservation : ClientCall → Int
  | .python _ _ req => BasedClient.reservation req
  | .typeScript _ _ req => TypeScriptClient.reservation req

def crypto : ClientCall → Crypto
  | .python _ around _ => around.crypto
  | .typeScript _ around _ => around.crypto

/-- The package the client is built on is as documented. -/
def Documented : ClientCall → Prop
  | .python _ _ _ => True
  | .typeScript _ around _ => around.viem.Documented around.crypto

/-- `amount` is the metered charge for the prompt and the text returned, within the
budget. -/
def Metered (amount : Int) : ClientCall → Prop
  | .python client around req =>
    ∃ response promptBytes textBytes,
      (BasedClient.infer client around req).outcome = .ok response ∧
      utf8 req.prompt = some promptBytes ∧ response.text.encodeUtf8 = .ok textBytes ∧
      amount = min ((BasedClient.readPricing around).2 + (BasedClient.readPricing around).1 *
        (promptBytes.length + textBytes.length : Nat)) req.budget
  | .typeScript client around req =>
    ∃ response textBytes,
      (TypeScriptClient.infer client around req).outcome = .ok response ∧
      encode around.engine response.text = .ok textBytes ∧
      amount = min ((TypeScriptClient.readPricing around).2 +
        (TypeScriptClient.readPricing around).1 *
          ((encodeText req.prompt).length + textBytes.length : Nat)) req.budget

end ClientCall

theorem outcome_ok {ε ρ : Type} {x : Except ε ρ} {amountOf : ρ → Int} {amount : Int}
    (h : x.toOption.map amountOf = some amount) : ∃ r, x = .ok r ∧ amountOf r = amount := by
  cases x with
  | error e => cases h
  | ok r => exact ⟨r, rfl, Option.some.inj h⟩

theorem python_charged {client : BasedClient.Client} {around : BasedClient.Surroundings}
    {req : BasedClient.InferenceRequest} {amount : Int}
    (hsigned : (ClientCall.python client around req).receipts = [p, f])
    (hreturned : (ClientCall.python client around req).returned = some amount) :
    (ClientCall.python client around req).Metered amount ∧
      Charged around.crypto p f (BasedClient.reservation req) amount := by
  obtain ⟨response, hresponse, rfl⟩ := outcome_ok hreturned
  obtain ⟨account, preauth, final, data, -, hpre, hreply, rfl, rfl, hbuild⟩ :=
    BasedClient.infer_charged hsigned hresponse
  obtain ⟨htext, hamount⟩ := BasedClient.buildResponse_ok hbuild
  obtain ⟨hisPre, hpreEncodes⟩ := BasedClient.preauthorise_ok hpre
  obtain ⟨_, hfinal, hencodes⟩ := BasedClient.receiveReply_final hreply
  obtain ⟨promptBytes, textValue, textBytes, hprompt, hvalue, hbytes, hcharge⟩ := hfinal.metered
  -- the text that was measured is the text that is returned
  rw [htext, Except.ok.injEq] at hvalue
  refine ⟨⟨response, promptBytes, textBytes, hresponse, orRevert_ok.mp hprompt,
    hvalue ▸ hbytes, hamount.trans hcharge⟩, ?_⟩
  obtain ⟨⟨s, t, hs, ht, hlower⟩, -, -, -, -, hsameNonce⟩ :=
    BasedClient.assertFinalReceiptIdentity_ok.mp hfinal.identity
  obtain ⟨s', hs', hfinalUser⟩ := hencodes.user
  obtain ⟨t', ht', hpreUser⟩ := hpreEncodes.user
  have hs'' : s' = s := Json.str.inj (hs'.symm.trans hs)
  have ht'' : t' = t := Json.str.inj (ht'.symm.trans ht)
  rw [hs''] at hfinalUser
  rw [ht''] at hpreUser
  have hnonce : (final.encoded.nonce.val : Int) = preauth.encoded.nonce.val := by
    rw [hencodes.nonce, hpreEncodes.nonce, hsameNonce]
  exact {
    user := hexAddress_eq_of_lower hfinalUser hpreUser hlower
    nonce := Fin.ext (by exact_mod_cast hnonce)
    sentinel := BasedClient.preauthorise_sentinel hpre
    preauth := hpreEncodes.amount.trans hisPre.amount
    final := hencodes.amount.trans hamount.symm }

theorem typeScript_charged {client : TypeScriptClient.Client}
    {around : TypeScriptClient.Surroundings} {req : TypeScriptClient.InferenceRequest}
    {amount : Int} (hviem : around.viem.Documented around.crypto)
    (hsigned : (ClientCall.typeScript client around req).receipts = [p, f])
    (hreturned : (ClientCall.typeScript client around req).returned = some amount) :
    (ClientCall.typeScript client around req).Metered amount ∧
      Charged around.crypto p f (TypeScriptClient.reservation req) amount := by
  obtain ⟨response, hresponse, rfl⟩ := outcome_ok hreturned
  obtain ⟨account, preauth, final, data, -, hpre, hreply, rfl, rfl, hbuild⟩ :=
    TypeScriptClient.infer_charged hsigned hresponse
  obtain ⟨htext, hamount⟩ := TypeScriptClient.buildResponse_ok hbuild
  obtain ⟨hisPre, hpreEncodes⟩ := TypeScriptClient.preauthorise_ok hviem hpre
  obtain ⟨hfinal, hencodes⟩ := TypeScriptClient.receiveReply_final hviem hreply
  obtain ⟨textValue, textBytes, hvalue, hbytes, hcharge⟩ := hfinal.metered
  have hmin : ∀ a b : Int, (if a < b then a else b) = min a b := by
    intro a b
    split <;> omega
  -- the text that was measured is the text that is returned
  rw [htext, Except.ok.injEq] at hvalue
  refine ⟨⟨response, textBytes, hresponse, hvalue ▸ hbytes,
    (hamount.trans hcharge).trans (hmin _ _)⟩, ?_⟩
  obtain ⟨⟨s, t, hs, ht, hlower⟩, -, -, -, -, hsameNonce⟩ :=
    TypeScriptClient.assertFinalReceiptIdentity_ok.mp hfinal.identity
  obtain ⟨s', hs', hfinalUser⟩ := hviem.address_denotes _ _ hencodes.user
  obtain ⟨t', ht', hpreUser⟩ := hviem.address_denotes _ _ hpreEncodes.user
  rw [Value.str.inj (hs'.symm.trans hs)] at hfinalUser
  rw [Value.str.inj (ht'.symm.trans ht)] at hpreUser
  have hnonce : (final.encoded.nonce.val : Int) = preauth.encoded.nonce.val := by
    rw [hencodes.nonce, hpreEncodes.nonce, hsameNonce]
  exact {
    user := hexAddress_eq_of_lower hfinalUser hpreUser hlower
    nonce := Fin.ext (by exact_mod_cast hnonce)
    sentinel := TypeScriptClient.preauthorise_sentinel hviem hpre
    preauth := hpreEncodes.amount.trans hisPre.amount
    final := hencodes.amount.trans hamount.symm }

/--
**What a call can cost.** Take any call of either client that signed a final receipt and
returned, whatever the gateway answered and whatever the prices.

* The amount in the response is the metered charge for the prompt and the text in the
  response, within the budget.
* In every run of the market in which nothing is redeemed but the two receipts of the
  call, what they take is at most the larger of that amount and the pre-authorisation;
  and if it is more than that amount, it is the pre-authorisation that was redeemed,
  alone and within the cap in force.
-/
theorem call_cost_bounded (env : MarketEnv T) (call : ClientCall) {amount : Int}
    (hdocumented : call.Documented) (hcrypto : call.crypto = env.crypto)
    (hsigned : call.receipts = [p, f]) (hreturned : call.returned = some amount) :
    call.Metered amount ∧ CostBounded env p f call.reservation amount := by
  cases call with
  | python client around req =>
    obtain ⟨hmetered, hcharged⟩ := python_charged hsigned hreturned
    rw [show around.crypto = env.crypto from hcrypto] at hcharged
    exact ⟨hmetered, hcharged.bounded⟩
  | typeScript client around req =>
    obtain ⟨hmetered, hcharged⟩ := typeScript_charged hdocumented hsigned hreturned
    rw [show around.crypto = env.crypto from hcrypto] at hcharged
    exact ⟨hmetered, hcharged.bounded⟩

/-! ## A call that costs more than it returns -/

/-- The toy request to an honest miner at a price of 1 a byte. -/
def toyCheapSurroundings : BasedClient.Surroundings where
  crypto := toyCrypto
  unicode := toySurroundings.unicode
  time := 100
  randbits := 3
  miners := toySurroundings.miners
  inference := .response 200 (some (.dict [
    (text "text", .str [5]),
    (text "prompt_hash", .str (hexText 1)),
    (text "response_hash", .str (hexText 5)),
    (text "tokens_in", .int 1),
    (text "tokens_out", .int 1),
    (text "miner_signature", .str []),
    (text "final_receipt", .dict [
      (text "user", .str (text "0x0000000000000000000000000000000000000002")),
      (text "miner", toyMinerAddress),
      (text "brain_id", .int 3),
      (text "prompt_hash", .str (hexText 1)),
      (text "response_hash", .str (hexText 5)),
      (text "amount", .int 2),
      (text "expiry", .int 200),
      (text "nonce", .int 3)])]))
  pricing := some (1, 0)

def toyCheapCall : ClientCall := .python toyClient toyCheapSurroundings toyRequest

/-- The pre-authorisation of that call, over 30. -/
def toyPreauth : Receipt := { toyReceipt with responseHash := 3, amount := 30 }

/-- Its final receipt, over 2. -/
def toyCheapFinal : Receipt := { toyReceipt with amount := 2 }

theorem toyCheapCall_receipts : toyCheapCall.receipts = [toyPreauth, toyCheapFinal] := by
  decide +kernel

theorem toyCheapCall_returned : toyCheapCall.returned = some 2 := by
  decide +kernel

/-- The pre-authorisation passes every check of the toy market. -/
theorem toyPreauth_checks :
    redeemChecks toyMarket ⟨150, by decide⟩ 7
      { toyMarketStart.market with balances := fun _ => 1000 } toyPreauth [2, 3] = .ok () := by
  have hfits : 150 + MAX_RECEIPT_LIFETIME < 2 ^ 256 := by
    unfold MAX_RECEIPT_LIFETIME
    omega
  refine redeemChecks_ok.mpr ⟨rfl, by decide, hfits, by decide, by decide, by decide, ?_, rfl,
    by decide, rfl, ?_⟩
  · intro _
    decide
  · rw [toyMarket_receiptDigest]
    rfl

set_option maxRecDepth 4000 in
theorem toyPreauth_redeemed :
    ∃ p q : MarketState Ledger, p.market.balances 2 = 1000 ∧ q.market.balances 2 = 970 ∧
      Run (MarketStep toyMarket) p [.call ⟨150, by decide⟩ 7 (.redeem toyPreauth [2, 3])] q := by
  refine ⟨{ toyMarketStart with
    market := { toyMarketStart.market with balances := fun _ => 1000 } }, _, rfl, ?_,
    .single (.call ⟨150, by decide⟩ 7 (.redeem toyPreauth [2, 3]) (by decide) (by decide)
      ((redeem_eq_settle toyPreauth_checks).trans rfl))⟩
  rfl

theorem toyPreauth_only :
    UsesOnly [toyPreauth, toyCheapFinal]
      [.call ⟨150, by decide⟩ 7 (.redeem toyPreauth [2, 3])] := by
  intro blk caller r userSig hmem
  obtain ⟨-, -, hcall⟩ := MarketLabel.call.inj (List.mem_singleton.mp hmem)
  obtain ⟨rfl, -⟩ := MarketCall.redeem.inj hcall
  exact List.mem_cons_self ..

/-- The user pays 30 for a response that says 2. -/
theorem call_cost_above_returned :
    ∃ p q : MarketState Ledger, toyCheapCall.receipts = [toyPreauth, toyCheapFinal] ∧
      toyCheapCall.returned = some 2 ∧
      Run (MarketStep toyMarket) p [.call ⟨150, by decide⟩ 7 (.redeem toyPreauth [2, 3])] q ∧
      UsesOnly toyCheapCall.receipts [.call ⟨150, by decide⟩ 7 (.redeem toyPreauth [2, 3])] ∧
      p.market.balances 2 = q.market.balances 2 + 30 := by
  obtain ⟨p, q, hp, hq, hrun⟩ := toyPreauth_redeemed
  refine ⟨p, q, toyCheapCall_receipts, toyCheapCall_returned, hrun, ?_, ?_⟩
  · rw [toyCheapCall_receipts]
    exact toyPreauth_only
  · rw [hp, hq]

/-- In that run the miner redeems the pre-authorisation of 30, which the cap of 50
allows; more than 30 it cannot draw. -/
theorem call_cost_bounded_fallback :
    toyCheapCall.Metered 2 ∧ ∃ p q : MarketState Ledger, p.market.balances 2 = 1000 ∧
      RedeemedWithinCap toyMarket p [.call ⟨150, by decide⟩ 7 (.redeem toyPreauth [2, 3])] q
        toyPreauth := by
  obtain ⟨p, q, hp, hq, hrun⟩ := toyPreauth_redeemed
  obtain ⟨hmetered, hbounded⟩ := call_cost_bounded toyMarket toyCheapCall trivial rfl
    toyCheapCall_receipts toyCheapCall_returned
  obtain ⟨-, hover, -⟩ := hbounded hrun toyPreauth_only
  exact ⟨hmetered, p, q, hp, (hover (by decide)).2⟩

end BasedAI
