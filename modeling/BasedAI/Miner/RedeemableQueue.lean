import BasedAI.Market.BatchRedemption
import BasedAI.Miner.Redeemability
import BasedAI.Miner.Settlement

/-!
# BasedAI — what the miner has queued

Requests are checked against the market one at a time, and what they queue is redeemed
together. Between two flushes the market does not see what is queued: the same request
can be served again, and the requests of a user together can ask for more than the user
has. So the queue can be redeemed in order just when no inference is delivered for a
receipt whose nonce is queued already, and no receipt is queued that the balance does not
cover behind the user's others.

* `RequestStep`         — an inference is accepted and delivered later, a settle request
  is one step;
* `handleInfer_run`     — the handler is these two steps;
* `request_step`        — when a step keeps the queue redeemable;
* `queue_together_iff`  — when the queue is redeemable all along.
-/

namespace BasedAI

open Fallible Python Transition ComputeUnitMarket

namespace Miner

/-! ## What is sent for an entry -/

section Wire

variable (o : Offchain) (config : MinerConfig)

/-- The arguments of `redeem` for an entry. -/
def wire (entry : Entry) : Option SignedWords := do
  let e ← (encodeReceipt config entry.1).toOption
  let sig ← (signatureBytes entry.2).toOption
  return (e.receipt, sig)

/-- The batch that is sent for a queue. -/
def batchOf (pending : Pending) : List SignedWords := pending.filterMap (wire config)

variable {T : Type} (env : MarketEnv T) (blk : Block) (market : MarketState T)

/-- The miner could redeem the entry now. -/
def Redeemable (entry : Entry) : Prop :=
  ∃ x, wire config entry = some x ∧
    ∃ m, redeem env blk config.account.address x.1 x.2 market = .ok m

/-- The queue is redeemed in order. In particular no two receipts spend one nonce, and
none of the users is asked for more than the balance. -/
structure Together (pending : Pending) : Prop where
  sent : ∀ e ∈ pending, wire config e ≠ none
  redeemed : ∃ m, redeemAll env blk config.account.address (batchOf config pending) market =
    .ok m
  distinct : (batchOf config pending).Pairwise Distinct
  covered : ∀ u, asked u (batchOf config pending) ≤ market.market.balances u

/-- The receipt spends a nonce of its own and is covered behind the others. -/
def FitsBehind (batch : List SignedWords) (x : SignedWords) : Prop :=
  (∀ y ∈ batch, Distinct y x) ∧
    asked x.1.user batch + x.1.amount.val ≤ market.market.balances x.1.user

/-! ## Requests between two flushes -/

/-- The jobs in progress, and the queue. -/
structure MinerQueue where
  serving : List Job
  pending : Pending

inductive RequestEvent
  | accept (s : Services) (payload : Bytes)
  | deliver (s : Services) (job : Job)
  | settle (s : Services) (payload : Bytes)

/-- Steps of the handlers while the market stays as it is. Requests are served side by
side: the engine may answer them in any order. Every receipt that is accepted could be
redeemed by itself. -/
inductive RequestStep : MinerQueue → RequestEvent → MinerQueue → Prop
  | accept {q : MinerQueue} {s : Services} {payload : Bytes} {job : Job}
      (offchain : s.toOffchain = o) (sees : Sees market.market s)
      (admitted : admitInfer config s payload = .ok job)
      (redeemable : Redeemable config env blk market (job.receipt, job.userSig)) :
      RequestStep q (.accept s payload) { q with serving := q.serving ++ [job] }
  | refuse {q : MinerQueue} {s : Services} {payload : Bytes} {stop : Stop}
      (refused : admitInfer config s payload = .error stop) :
      RequestStep q (.accept s payload) q
  | deliver {q : MinerQueue} {s : Services} {job : Job} {before after : List Job}
      (offchain : s.toOffchain = o) (sees : Sees market.market s)
      (serving : q.serving = before ++ job :: after) :
      RequestStep q (.deliver s job)
        { serving := before ++ after, pending := (serve config s job q.pending).2 }
  | settle {q : MinerQueue} {s : Services} {payload : Bytes}
      (offchain : s.toOffchain = o) (sees : Sees market.market s)
      (redeemable : ∀ e, admitSettle config s payload = .ok e →
        Redeemable config env blk market e) :
      RequestStep q (.settle s payload)
        { q with pending := (handleSettle config s payload q.pending).2 }

/-- What a step has to leave room for: an inference is delivered for a receipt that fits
behind the queue, and a settle request brings one that fits behind those it does not
replace. -/
def KeepsTogether (q : MinerQueue) : RequestEvent → Prop
  | .accept _ _ => True
  | .deliver s job => ∀ response x, generate s job.prompt = .ok response →
      wire config (job.receipt, job.userSig) = some x →
        FitsBehind market (batchOf config q.pending) x
  | .settle s payload => ∀ e x, admitSettle config s payload = .ok e →
      wire config e = some x →
        FitsBehind market (batchOf config
          (q.pending.filter fun f => !ReceiptBatcher.sameKey o.unicode f.1 e.1)) x

end Wire

/-! ## The handlers as steps -/

section Steps

variable {T : Type} {env : MarketEnv T} {blk : Block} {market : MarketState T} {o : Offchain}
  {config : MinerConfig}

/-- What a delivery queues. -/
theorem serve_pending (s : Services) (job : Job) (pending : Pending) :
    (serve config s job pending).2 = match generate s job.prompt with
      | .error _ => pending
      | .ok _ => pending ++ [(job.receipt, job.userSig)] := by
  unfold serve
  cases generate s job.prompt with
  | error e => rfl
  | ok response =>
    dsimp only
    -- it is queued whether a reply can be made or not
    cases inferReply config s job response <;> rfl

/-- **The handler is an acceptance and a delivery.** -/
theorem handleInfer_run {s : Services} {payload : Bytes} {job : Job} {pending : Pending}
    (hoffchain : s.toOffchain = o) (hsees : Sees market.market s)
    (hchecked : admitInfer config s payload = .ok job)
    (hredeem : Redeemable config env blk market (job.receipt, job.userSig)) :
    Run (RequestStep o config env blk market) ⟨[], pending⟩
      [.accept s payload, .deliver s job]
      ⟨[], (handleInfer config s payload pending).2⟩ := by
  have hvalue : handleInfer config s payload pending = serve config s job pending := by
    unfold handleInfer
    rw [hchecked]
  rw [hvalue]
  exact .cons (.accept hoffchain hsees hchecked hredeem)
    (.single (@RequestStep.deliver _ _ _ _ _ _ ⟨[job], pending⟩ s job [] [] hoffchain hsees rfl))

/-! ## Entries that are queued -/

theorem Redeemable.wire_some {e : Entry} (h : Redeemable config env blk market e) :
    ∃ x, wire config e = some x := by
  obtain ⟨x, hx, -⟩ := h
  exact ⟨x, hx⟩

/-- Of a queue of redeemable receipts, only nonces and balances matter. -/
theorem together_iff (hsteady : env.token.Steady) (hfunded : Funded env market)
    {pending : Pending} (h : ∀ e ∈ pending, Redeemable config env blk market e) :
    Together config env blk market pending ↔
      (batchOf config pending).Pairwise Distinct ∧
        ∀ u, asked u (batchOf config pending) ≤ market.market.balances u := by
  -- every pair that is sent comes from a receipt that is redeemable
  have heach : ∀ x ∈ batchOf config pending,
      ∃ m, redeem env blk config.account.address x.1 x.2 market = .ok m := by
    intro x hx
    obtain ⟨e, he, hwire⟩ := List.mem_filterMap.mp hx
    obtain ⟨x', hx', hredeem⟩ := h e he
    rw [hwire, Option.some.injEq] at hx'
    exact hx' ▸ hredeem
  constructor
  · exact fun htogether => ⟨htogether.distinct, htogether.covered⟩
  · intro hfits
    refine ⟨fun e he => ?_, (redeemAll_iff hsteady hfunded heach).mpr hfits, hfits.1, hfits.2⟩
    obtain ⟨x, hx⟩ := (h e he).wire_some
    rw [hx]
    exact nofun

theorem asked_append (u : Address) (before after : List SignedWords) :
    asked u (before ++ after) = asked u before + asked u after := by
  rw [asked, List.map_append, List.sum_append]
  rfl

theorem asked_sublist (u : Address) {before after : List SignedWords}
    (h : before.Sublist after) : asked u before ≤ asked u after :=
  (h.map _).sum_le_sum fun _ _ => Nat.zero_le _

/-- One more receipt has to fit behind the others. -/
theorem fits_snoc {batch : List SignedWords} {x : SignedWords}
    (hdistinct : batch.Pairwise Distinct)
    (hcovered : ∀ u, asked u batch ≤ market.market.balances u) :
    ((batch ++ [x]).Pairwise Distinct ∧
        ∀ u, asked u (batch ++ [x]) ≤ market.market.balances u) ↔ FitsBehind market batch x := by
  -- the new receipt asks for more from one account only
  have hasked : ∀ u, asked u (batch ++ [x]) =
      asked u batch + if x.1.user = u then x.1.amount.val else 0 := by
    intro u
    rw [asked_append, asked_cons]
    rfl
  simp only [hasked, List.pairwise_append, List.pairwise_singleton, List.mem_singleton,
    forall_eq, FitsBehind]
  constructor
  · rintro ⟨⟨-, -, hnew⟩, hsum⟩
    refine ⟨hnew, ?_⟩
    have hx := hsum x.1.user
    rwa [if_pos rfl] at hx
  · rintro ⟨hnew, hsum⟩
    refine ⟨⟨hdistinct, trivial, hnew⟩, fun u => ?_⟩
    split
    · rename_i hu
      exact hu ▸ hsum
    · exact hcovered u

/-! ## One step -/

/-- What a request does to the queue. -/
def RequestEvent.queues (config : MinerConfig) : RequestEvent → Pending → Pending
  | .accept _ _, pending => pending
  | .deliver s job, pending => (serve config s job pending).2
  | .settle s payload, pending => (handleSettle config s payload pending).2

/-- Everything in the queue and in progress could be redeemed by itself. -/
def AllQueued (config : MinerConfig) (env : MarketEnv T) (blk : Block)
    (market : MarketState T) (q : MinerQueue) : Prop :=
  (∀ e ∈ q.pending, Redeemable config env blk market e) ∧
    ∀ job ∈ q.serving, Redeemable config env blk market (job.receipt, job.userSig)

section Step

variable {p q : MinerQueue} {l : RequestEvent}

theorem RequestStep.pending_eq (h : RequestStep o config env blk market p l q) :
    q.pending = l.queues config p.pending := by
  cases h with
  | accept => rfl
  | refuse => rfl
  | deliver => rfl
  | settle => rfl

/-- The queue after a settle request. -/
theorem handleSettle_pending (s : Services) (payload : Bytes) (pending : Pending) :
    (handleSettle config s payload pending).2 = match admitSettle config s payload with
      | .error _ => pending
      | .ok e => (pending.filter fun f => !ReceiptBatcher.sameKey s.unicode f.1 e.1) ++ [e] := by
  unfold handleSettle
  cases admitSettle config s payload with
  | error stop => rfl
  | ok e => rfl

theorem allQueued_step (h : RequestStep o config env blk market p l q)
    (hp : AllQueued config env blk market p) : AllQueued config env blk market q := by
  cases h with
  | @accept s payload job hoffchain hsees hchecked hredeem =>
    refine ⟨hp.1, ?_⟩
    intro j hj
    rcases List.mem_append.mp hj with hold | hnew
    · exact hp.2 j hold
    · obtain rfl := List.mem_singleton.mp hnew
      exact hredeem
  | refuse => exact hp
  | @deliver s job before after hoffchain hsees hserving =>
    obtain ⟨hpending, hjobs⟩ := hp
    rw [hserving] at hjobs
    refine ⟨?_, fun j hj => hjobs j ?_⟩
    · intro e he
      replace he : e ∈ (serve config s job p.pending).2 := he
      -- a served job may leave one receipt, and the job was admitted
      rw [serve_pending] at he
      split at he
      · exact hpending e he
      · rcases List.mem_append.mp he with hold | hnew
        · exact hpending e hold
        · obtain rfl := List.mem_singleton.mp hnew
          exact hjobs job (List.mem_append_right _ List.mem_cons_self)
    · rcases List.mem_append.mp hj with hbefore | hafter
      · exact List.mem_append_left _ hbefore
      · exact List.mem_append_right _ (List.mem_cons_of_mem _ hafter)
  | @settle s payload hoffchain hsees hredeem =>
    refine ⟨?_, hp.2⟩
    intro e he
    replace he : e ∈ (handleSettle config s payload p.pending).2 := he
    -- what a settlement adds was admitted, the rest was there before
    rw [handleSettle_pending] at he
    split at he
    · exact hp.1 e he
    · rename_i f hchecked
      rcases List.mem_append.mp he with hold | hnew
      · exact hp.1 e (List.mem_of_mem_filter hold)
      · obtain rfl := List.mem_singleton.mp hnew
        exact hredeem e hchecked

/-- **When a step keeps the queue redeemable.** -/
theorem request_step (hsteady : env.token.Steady) (hfunded : Funded env market)
    (h : RequestStep o config env blk market p l q) (hp : AllQueued config env blk market p)
    (htogether : Together config env blk market p.pending) :
    Together config env blk market q.pending ↔ KeepsTogether o config market p l := by
  have hq : AllQueued config env blk market q := allQueued_step h hp
  have hsnoc : ∀ (pending : Pending) (e : Entry) (x : SignedWords),
      wire config e = some x →
      batchOf config (pending ++ [e]) = batchOf config pending ++ [x] := by
    intro pending e x hx
    rw [batchOf, List.filterMap_append, List.filterMap_cons_some hx]
    rfl
  cases h with
  | accept => exact iff_of_true htogether trivial
  | refuse => exact iff_of_true htogether trivial
  | @deliver s job before after hoffchain hsees hserving =>
    have hjob : Redeemable config env blk market (job.receipt, job.userSig) := by
      refine hp.2 job ?_
      rw [hserving]
      exact List.mem_append_right _ List.mem_cons_self
    obtain ⟨x, hx⟩ := hjob.wire_some
    rw [together_iff hsteady hfunded hq.1]
    dsimp only [KeepsTogether]
    rw [serve_pending]
    cases hgenerate : generate s job.prompt with
    | error e =>
      -- the engine failed, and nothing is queued
      exact iff_of_true ⟨htogether.distinct, htogether.covered⟩ nofun
    | ok response =>
      dsimp only
      rw [hsnoc p.pending _ x hx, fits_snoc htogether.distinct htogether.covered]
      constructor
      · rintro hfits _ x' ⟨⟩ hx'
        rw [hx, Option.some.injEq] at hx'
        exact hx' ▸ hfits
      · exact fun hfits => hfits response x rfl hx
  | @settle s payload hoffchain hsees hredeem =>
    rw [together_iff hsteady hfunded hq.1]
    dsimp only [KeepsTogether]
    rw [handleSettle_pending]
    cases hchecked : admitSettle config s payload with
    | error stop => exact iff_of_true ⟨htogether.distinct, htogether.covered⟩ nofun
    | ok e =>
      dsimp only
      have hsame : s.unicode = o.unicode := by rw [← hoffchain]
      obtain ⟨x, hx, -⟩ := hredeem e hchecked
      -- what stays was redeemable together already
      have hsublist : (batchOf config (p.pending.filter fun f =>
          !ReceiptBatcher.sameKey o.unicode f.1 e.1)).Sublist (batchOf config p.pending) :=
        List.filter_sublist.filterMap (wire config)
      rw [hsame, hsnoc _ e x hx, fits_snoc (htogether.distinct.sublist hsublist)
        fun u => (asked_sublist u hsublist).trans (htogether.covered u)]
      constructor
      · rintro hfits _ x' ⟨⟩ hx'
        rw [hx, Option.some.injEq] at hx'
        exact hx' ▸ hfits
      · exact fun hfits => hfits e x rfl hx

end Step

/-! ## Runs -/

/-- A miner that has nothing queued. -/
theorem allQueued_nil : AllQueued config env blk market ⟨[], []⟩ :=
  ⟨fun _ h => absurd h List.not_mem_nil, fun _ h => absurd h List.not_mem_nil⟩

theorem together_nil : Together config env blk market [] where
  sent := fun _ h => absurd h List.not_mem_nil
  redeemed := ⟨market, rfl⟩
  distinct := .nil
  covered := fun _ => Nat.zero_le _

/-- **When the queue is redeemable all along.** Between two flushes, whatever requests are
served and settled in whatever order, the whole queue can be redeemed in order in every
state reached just when every step leaves room for what it queues. -/
theorem queue_together_iff (hsteady : env.token.Steady) (hfunded : Funded env market)
    {q₀ : MinerQueue} (h₀ : AllQueued config env blk market q₀)
    (hstart : Together config env blk market q₀.pending) (ls : List RequestEvent)
    (t : MinerQueue) :
    (∀ p l q, Along (RequestStep o config env blk market) q₀ ls t p l q →
        Together config env blk market q.pending) ↔
      ∀ p l q, Along (RequestStep o config env blk market) q₀ ls t p l q →
        KeepsTogether o config market p l :=
  @along_iff _ _ (RequestStep o config env blk market) (AllQueued config env blk market)
    (fun q => Together config env blk market q.pending) (KeepsTogether o config market)
    allQueued_step (request_step hsteady hfunded) q₀ t ls h₀ hstart

end Steps

/-! ## A request that is served twice -/

/-- The toy market with its account. -/
def toyOpenMarket : MarketState Ledger :=
  { toyMarketStart with market := toyFunded }

/-- One account holds all there is. -/
theorem sum_single (u : Address) (n : Nat) : ∑ v, Mapping.set (fun _ => 0) u n v = n := by
  have hset := Mapping.sum_set_add (fun _ : Address => 0) u n
  rw [Finset.sum_const_zero, Nat.add_zero, Nat.zero_add] at hset
  exact hset

theorem toyOpenMarket_funded : Funded toyMarket toyOpenMarket := by
  have hbalances : toyOpenMarket.market.balances = Mapping.set (fun _ => 0) 2 1000 := rfl
  constructor
  · unfold Solvent
    rw [hbalances, sum_single]
    exact Nat.le_of_ble_eq_true rfl
  · intro b
    rw [hbalances, sum_single, show toyOpenMarket.distributor.pendingValidatorFees b = 0 from rfl]
    decide

/-- A receipt over what account 2 has, with nonce and signature of one byte, is redeemed. -/
theorem toyOpenMarket_redeem {r : BasedAI.Receipt} {low : UInt8} (huser : r.user = 2)
    (hminer : r.miner = 7) (hexpiry : r.expiry = 200) (hresponse : r.responseHash ≠ 0)
    (hpositive : r.amount.val ≠ 0) (hcap : r.amount.val ≤ 50)
    (hlow : low.toNat = r.nonce.val % 256)
    (hsettled : ∃ m, settle toyMarket r.brainId 7 r.amount.val
      { toyOpenMarket with market := toyOpenMarket.market.debited r (1000 - r.amount.val) } =
        .ok m) :
    ∃ m, redeem toyMarket ⟨150, by decide⟩ toyDesk.account.address r [2, low] toyOpenMarket =
      .ok m := by
  have hbalance : toyOpenMarket.market.balances r.user = 1000 := by
    rw [huser]
    rfl
  have hchecks : redeemChecks toyMarket ⟨150, by decide⟩ toyDesk.account.address
      toyOpenMarket.market r [2, low] = .ok () := by
    refine redeemChecks_ok.mpr ⟨rfl, ?_, by decide, ?_, hresponse, hpositive, fun _ => hcap, rfl,
      ?_, hminer.symm, ?_⟩
    · rw [hexpiry]
      decide
    · rw [hexpiry]
      decide
    · rw [hbalance]
      omega
    · rw [toyMarket_receiptDigest, huser]
      exact if_pos hlow
  obtain ⟨m, hm⟩ := hsettled
  refine ⟨m, (redeem_eq_settle hchecks).trans ?_⟩
  rw [hbalance, hminer]
  exact hm

/-- What the miner makes of a pre-authorisation with this nonce. -/
structure ToyAccepts (s : Services) (nonce : Bytes32) (job : Job) (x : SignedWords) : Prop where
  admitted : admitInfer toyDesk s [] = .ok job
  generated : ∃ response, generate s job.prompt = .ok response
  sent : wire toyDesk (job.receipt, job.userSig) = some x
  receipt : x.1 = { toyReceipt with responseHash := nonce, nonce := nonce }
  redeemable : Redeemable toyDesk toyMarket ⟨150, by decide⟩ toyOpenMarket
    (job.receipt, job.userSig)

theorem ToyAccepts.of {s : Services} {nonce : Bytes32} {low : UInt8} {job : Job}
    {w : EncodedReceipt} (hadmitted : admitInfer toyDesk s [] = .ok job)
    (hgenerated : ∃ response, generate s job.prompt = .ok response)
    (hencoded : encodeReceipt toyDesk job.receipt = .ok w)
    (hsig : signatureBytes job.userSig = .ok [2, low])
    (hreceipt : w.receipt = { toyReceipt with responseHash := nonce, nonce := nonce })
    (hnonce : nonce ≠ 0) (hlow : low.toNat = nonce.val % 256) :
    ToyAccepts s nonce job (w.receipt, [2, low]) := by
  have hwire : wire toyDesk (job.receipt, job.userSig) = some (w.receipt, [2, low]) := by
    unfold wire
    rw [hencoded, hsig]
    rfl
  refine ⟨hadmitted, hgenerated, hwire, hreceipt, _, hwire, ?_⟩
  dsimp only
  rw [hreceipt]
  exact toyOpenMarket_redeem rfl rfl rfl hnonce (show toyReceipt.amount.val ≠ 0 by decide)
    (show toyReceipt.amount.val ≤ 50 by decide) hlow ⟨_, rfl⟩

/-- The services of the miner when it is asked for the toy inference, and for the next one. -/
def toyAsked : Services := toyDeskServices (toyRequestBody 200)

def toyAskedNext : Services := toyDeskServices (toyPreauthBody 200 4 4 (text "0x0204"))

/-- The job it accepts, and what is sent for it. -/
theorem toyAsked_job : ∃ job x, ToyAccepts toyAsked 3 job x := by
  obtain ⟨job, w, hchecked, he, hsig, hreceipt, hresponse⟩ := toyDesk_admits
  exact ⟨job, _, .of hchecked hresponse he hsig hreceipt (by decide) rfl⟩

set_option maxRecDepth 8000 in
theorem toyAskedNext_job : ∃ job x, ToyAccepts toyAskedNext 4 job x := by
  have hadmits : ∃ job w, admitInfer toyDesk toyAskedNext [] = .ok job ∧
      encodeReceipt toyDesk job.receipt = .ok w ∧ signatureBytes job.userSig = .ok [2, 4] ∧
      w.receipt = { toyReceipt with responseHash := 4, nonce := 4 } ∧
      ∃ response, generate toyAskedNext job.prompt = .ok response :=
    ⟨_, _, rfl, rfl, rfl, rfl, _, rfl⟩
  obtain ⟨job, w, hchecked, he, hsig, hreceipt, hresponse⟩ := hadmits
  exact ⟨job, _, .of hchecked hresponse he hsig hreceipt (by decide) rfl⟩

theorem toyAsked_sees : Sees toyOpenMarket.market toyAsked := toyDesk_sees _

/-- The steps of the miner on the toy market. -/
abbrev ToyRequestStep :=
  RequestStep toyAsked.toOffchain toyDesk toyMarket ⟨150, by decide⟩ toyOpenMarket

/-- Acceptance and delivery of a toy inference, with another in progress or not. -/
theorem toyAccept_step {s : Services} {nonce : Bytes32} {job : Job} {x : SignedWords}
    (h : ToyAccepts s nonce job x) (hoffchain : s.toOffchain = toyAsked.toOffchain)
    (hsees : Sees toyOpenMarket.market s) (q : MinerQueue) :
    ToyRequestStep q (.accept s []) { q with serving := q.serving ++ [job] } :=
  .accept hoffchain hsees h.admitted h.redeemable

theorem toyDeliver_step {s : Services} {nonce : Bytes32} {job : Job} {x : SignedWords}
    (h : ToyAccepts s nonce job x) (hoffchain : s.toOffchain = toyAsked.toOffchain)
    (hsees : Sees toyOpenMarket.market s) (before after : List Job) (pending : Pending) :
    ToyRequestStep ⟨before ++ job :: after, pending⟩ (.deliver s job)
      ⟨before ++ after, pending ++ [(job.receipt, job.userSig)]⟩ := by
  obtain ⟨response, hresponse⟩ := h.generated
  have hstep : ToyRequestStep ⟨before ++ job :: after, pending⟩ (.deliver s job)
      ⟨before ++ after, (serve toyDesk s job pending).2⟩ :=
    @RequestStep.deliver _ _ _ _ _ _ ⟨before ++ job :: after, pending⟩ s job before after
      hoffchain hsees rfl
  rw [serve_pending, hresponse] at hstep
  exact hstep

theorem toyAskedNext_offchain : toyAskedNext.toOffchain = toyAsked.toOffchain := by
  have h : ∀ body body', (toyDeskServices body).toOffchain =
      (toyDeskServices body').toOffchain := fun _ _ => rfl
  exact h _ _

theorem toyAskedNext_sees : Sees toyOpenMarket.market toyAskedNext := toyDesk_sees _

/-- Two inferences of one user are in progress side by side, and the second is delivered
first: their receipts can be redeemed together. -/
theorem queue_together_two : ∃ job next t,
    Run ToyRequestStep ⟨[], []⟩ [.accept toyAsked [], .accept toyAskedNext [],
      .deliver toyAskedNext next, .deliver toyAsked job] t ∧
      t.pending = [(next.receipt, next.userSig), (job.receipt, job.userSig)] ∧
      Together toyDesk toyMarket ⟨150, by decide⟩ toyOpenMarket t.pending := by
  obtain ⟨job, x, hjob⟩ := toyAsked_job
  obtain ⟨next, y, hnext⟩ := toyAskedNext_job
  have haccept := toyAccept_step hjob rfl toyAsked_sees ⟨[], []⟩
  have hacceptNext := toyAccept_step hnext toyAskedNext_offchain toyAskedNext_sees ⟨[job], []⟩
  have hdeliverNext := toyDeliver_step hnext toyAskedNext_offchain toyAskedNext_sees [job] [] []
  have hdeliver := toyDeliver_step hjob rfl toyAsked_sees [] []
    [(next.receipt, next.userSig)]
  refine ⟨job, next, _, .cons haccept (.cons hacceptNext (.cons hdeliverNext (.single hdeliver))),
    rfl, ?_⟩
  refine (queue_together_iff ledgerToken_steady toyOpenMarket_funded allQueued_nil together_nil
    [.accept toyAsked [], .accept toyAskedNext [], .deliver toyAskedNext next,
      .deliver toyAsked job] _).mpr ?_ _ _ _
    ⟨[.accept toyAsked [], .accept toyAskedNext [], .deliver toyAskedNext next], [], rfl,
      .cons haccept (.cons hacceptNext (.single hdeliverNext)), hdeliver, .nil _⟩
  intro p l q h
  -- the two acceptances; then the deliveries, the first one to an empty queue
  rcases along_cons.mp h with ⟨rfl, rfl, -⟩ | ⟨q₁, h₁, h⟩
  · trivial
  rcases along_cons.mp h with ⟨rfl, rfl, -⟩ | ⟨q₂, h₂, h⟩
  · trivial
  have hempty : q₂.pending = [] := h₂.pending_eq.trans h₁.pending_eq
  rcases along_cons.mp h with ⟨rfl, rfl, -⟩ | ⟨q₃, h₃, h⟩
  · intro _ y' _ hy'
    rw [hnext.sent, Option.some.injEq] at hy'
    rw [hempty, ← hy']
    exact ⟨fun _ h => absurd h List.not_mem_nil, by rw [hnext.receipt]; decide⟩
  have hsingle : q₃.pending = [(next.receipt, next.userSig)] := by
    obtain ⟨response, hresponse⟩ := hnext.generated
    rw [h₃.pending_eq, hempty]
    dsimp only [RequestEvent.queues]
    rw [serve_pending, hresponse]
    rfl
  rcases along_cons.mp h with ⟨rfl, rfl, -⟩ | ⟨_, -, h⟩
  · intro _ x' _ hx'
    rw [hjob.sent, Option.some.injEq] at hx'
    rw [hsingle, ← hx', batchOf, List.filterMap_cons_some hnext.sent, List.filterMap_nil]
    refine ⟨?_, ?_⟩
    · -- nonce 4 is not nonce 3
      intro z hz hsame
      rw [List.mem_singleton.mp hz, hnext.receipt, hjob.receipt] at hsame
      exact absurd hsame.2 (by decide)
    · rw [asked_cons, hnext.receipt, hjob.receipt]
      decide
  · exact absurd h along_nil

/-- It serves the same request twice: the receipt is queued twice, and the queue cannot be
redeemed. -/
theorem request_served_twice : ∃ job t,
    Run ToyRequestStep ⟨[], []⟩ [.accept toyAsked [], .deliver toyAsked job,
      .accept toyAsked [], .deliver toyAsked job] t ∧
      t.pending = [(job.receipt, job.userSig), (job.receipt, job.userSig)] ∧
      ¬ Together toyDesk toyMarket ⟨150, by decide⟩ toyOpenMarket t.pending := by
  obtain ⟨job, x, hjob⟩ := toyAsked_job
  have haccept := fun pending => toyAccept_step hjob rfl toyAsked_sees ⟨[], pending⟩
  have hdeliver := fun pending => toyDeliver_step hjob rfl toyAsked_sees [] [] pending
  -- nothing of the first run is left by which the second would be refused
  refine ⟨job, _, .cons (haccept _) (.cons (hdeliver _) (.cons (haccept _)
    (.single (hdeliver _)))), rfl, ?_⟩
  intro htogether
  have hdistinct : (List.filterMap (wire toyDesk)
      [(job.receipt, job.userSig), (job.receipt, job.userSig)]).Pairwise Distinct :=
    htogether.distinct
  rw [List.filterMap_cons_some hjob.sent, List.filterMap_cons_some hjob.sent,
    List.pairwise_cons] at hdistinct
  exact hdistinct.1 x List.mem_cons_self ⟨rfl, rfl⟩

end Miner

end BasedAI
