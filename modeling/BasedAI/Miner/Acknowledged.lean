import BasedAI.Miner.Underpayment

/-!
# BasedAI — what an acknowledged settle request is worth

The miner answers a settle request with ok once its receipt is queued in place of the
pre-authorisation. It asks the market whether the nonce is used, but the market sees a
redemption only once it is included: between sending and inclusion the request is
acknowledged although the pre-authorisation is on its way.

* `careful_step`        — what a step has to meet for acknowledged receipts to stay safe;
* `settled_is_redeemed` — then they are the ones redeemed, and each is sent once at most.
-/

namespace BasedAI

open Fallible Python Transition ComputeUnitMarket

namespace Miner

section Steps

variable {T : Type} (o : Offchain) (config : MinerConfig) (env : MarketEnv T)

/-- The miner, the transactions it has sent, and the market. The last four lists only grow:
they are what has happened so far. -/
structure MinerChain (T : Type) where
  serving : List Job
  pending : Pending
  /-- the pre-authorisations of what was delivered -/
  preauths : List Entry
  /-- the settle requests that were answered ok -/
  acknowledged : List Entry
  /-- the redemptions that the node has taken -/
  submitted : List Entry
  /-- those that were included and did not revert -/
  redeemed : List Entry
  market : MarketState T

/-- A miner that starts. -/
def MinerChain.start (market : MarketState T) : MinerChain T :=
  ⟨[], [], [], [], [], [], market⟩

inductive MinerEvent
  | accept (s : Services) (payload : Bytes)
  | deliver (s : Services) (job : Job)
  | settle (s : Services) (payload : Bytes)
  | flush (sending : Nat → ReceiptBatcher.Sending)
  | included (blk : Block) (e : Entry)
  | elsewhere (l : MarketLabel)

/-- The handlers, the flusher and the chain take steps in any order. A handler that waits
for the engine takes two. -/
inductive MinerStep : MinerChain T → MinerEvent → MinerChain T → Prop
  | accept {q : MinerChain T} {s : Services} {payload : Bytes} {job : Job}
      (offchain : s.toOffchain = o) (sees : Sees q.market.market s)
      (admitted : admitInfer config s payload = .ok job) :
      MinerStep q (.accept s payload) { q with serving := q.serving ++ [job] }
  | refuse {q : MinerChain T} {s : Services} {payload : Bytes} {stop : Stop}
      (refused : admitInfer config s payload = .error stop) :
      MinerStep q (.accept s payload) q
  | deliver {q : MinerChain T} {s : Services} {job : Job} {before after : List Job}
      {response : InferenceResponse} (offchain : s.toOffchain = o)
      (serving : q.serving = before ++ job :: after)
      (generated : generate s job.prompt = .ok response) :
      MinerStep q (.deliver s job)
        { q with
          serving := before ++ after
          pending := (serve config s job q.pending).2
          preauths := q.preauths ++ [(job.receipt, job.userSig)] }
  | fail {q : MinerChain T} {s : Services} {job : Job} {before after : List Job} {e : PyError}
      (serving : q.serving = before ++ job :: after)
      (failed : generate s job.prompt = .error e) :
      MinerStep q (.deliver s job)
        { q with
          serving := before ++ after
          pending := (serve config s job q.pending).2 }
  | settle {q : MinerChain T} {s : Services} {payload : Bytes} {e : Entry}
      (offchain : s.toOffchain = o) (sees : Sees q.market.market s)
      (admitted : admitSettle config s payload = .ok e) :
      MinerStep q (.settle s payload)
        { q with
          pending := (handleSettle config s payload q.pending).2
          acknowledged := q.acknowledged ++ [e] }
  | reject {q : MinerChain T} {s : Services} {payload : Bytes} {stop : Stop}
      (refused : admitSettle config s payload = .error stop) :
      MinerStep q (.settle s payload)
        { q with pending := (handleSettle config s payload q.pending).2 }
  -- what cannot be encoded is not sent
  | flush {q : MinerChain T} {sending : Nat → ReceiptBatcher.Sending}
      (unsendable : ∀ i e, q.pending[i]? = some e → wire config e = none →
        sending i = .refused) :
      MinerStep q (.flush sending)
        { q with
          pending := (ReceiptBatcher.flush sending q.pending).2
          submitted := q.submitted ++ (ReceiptBatcher.flush sending q.pending).1 }
  | included {q : MinerChain T} {blk : Block} {e : Entry} {x : SignedWords}
      {market : MarketState T} (submitted : e ∈ q.submitted)
      (sent : wire config e = some x)
      (executed : MarketStep env q.market
        (.call blk config.account.address (.redeem x.1 x.2)) market) :
      MinerStep q (.included blk e)
        { q with redeemed := q.redeemed ++ [e], market := market }
  | elsewhere {q : MinerChain T} {l : MarketLabel} {market : MarketState T}
      (others : ∀ blk c, l ≠ .call blk config.account.address c)
      (executed : MarketStep env q.market l market) :
      MinerStep q (.elsewhere l) { q with market := market }

/-! ## Safety of an acknowledged receipt -/

/-- The two entries are redeemed with the same receipt. -/
def SameReceipt (e f : Entry) : Prop :=
  ∃ x y, wire config e = some x ∧ wire config f = some y ∧ x.1 = y.1

/-- The entry is one of the pre-authorisations that were delivered for its user and nonce. -/
def IsPreauth (preauths : List Entry) (e : Entry) : Prop :=
  ∃ f ∈ preauths, ReceiptBatcher.sameKey o.unicode f.1 e.1 = true ∧ SameReceipt config e f

/-- How many entries have the user and nonce of `k`. -/
def ofKey (k : Entry) (entries : List Entry) : Nat :=
  entries.countP fun e => ReceiptBatcher.sameKey o.unicode e.1 k.1

/-- For every user and nonce whose settle request was answered ok, no pre-authorisation was
redeemed and one redemption was sent at most. -/
def SettledOnly (q : MinerChain T) : Prop :=
  ∀ k ∈ q.acknowledged,
    (∀ e ∈ q.redeemed, ReceiptBatcher.sameKey o.unicode e.1 k.1 = true →
      ¬ IsPreauth o config q.preauths e) ∧
    ofKey o k q.submitted ≤ 1

/-- What a step has to meet. A settle request that passes the checks finds nothing sent for
its user and nonce, and does not bring a pre-authorisation. Once it is answered, nothing is
delivered for them any more, and no call raises after the node has taken their
redemption. -/
def Careful (q : MinerChain T) : MinerEvent → Prop
  | .settle s payload => ∀ e, admitSettle config s payload = .ok e →
      (∀ f ∈ q.submitted, ReceiptBatcher.sameKey o.unicode f.1 e.1 = false) ∧
        ¬ IsPreauth o config q.preauths e
  | .deliver s job => ∀ response, generate s job.prompt = .ok response →
      ∀ k ∈ q.acknowledged, ReceiptBatcher.sameKey o.unicode job.receipt k.1 = false
  | .flush sending => ∀ k ∈ q.acknowledged, ∀ i e, q.pending[i]? = some e →
      ReceiptBatcher.sameKey o.unicode e.1 k.1 = true → sending i ≠ .unconfirmed
  | _ => True

/-- The invariant: of the user and nonce of an acknowledged request, there is one entry,
queued or sent, and it is not a pre-authorisation. -/
structure Guarded (q : MinerChain T) : Prop where
  sent : ∀ e ∈ q.redeemed, e ∈ q.submitted
  once : ∀ k ∈ q.acknowledged, ofKey o k q.submitted + ofKey o k q.pending ≤ 1
  final : ∀ k ∈ q.acknowledged, ∀ e, e ∈ q.submitted ∨ e ∈ q.pending →
    ReceiptBatcher.sameKey o.unicode e.1 k.1 = true → ¬ IsPreauth o config q.preauths e

end Steps

section Step

variable {T : Type} {o : Offchain} {config : MinerConfig} {env : MarketEnv T}
  {q q' : MinerChain T} {l : MinerEvent}

/-! ## Entries of one user and nonce -/

theorem ofKey_append (k : Entry) (xs ys : List Entry) :
    ofKey o k (xs ++ ys) = ofKey o k xs + ofKey o k ys :=
  List.countP_append

theorem ofKey_single (k e : Entry) :
    ofKey o k [e] = if ReceiptBatcher.sameKey o.unicode e.1 k.1 then 1 else 0 :=
  List.countP_singleton

theorem ofKey_none {k : Entry} {xs : List Entry}
    (h : ∀ e ∈ xs, ReceiptBatcher.sameKey o.unicode e.1 k.1 = false) : ofKey o k xs = 0 := by
  refine List.countP_eq_zero.mpr ?_
  intro e he
  rw [h e he]
  exact Bool.false_ne_true

/-- What another entry does not replace. -/
theorem ofKey_addOrReplace {k e : Entry} {pending : Pending}
    (h : ReceiptBatcher.sameKey o.unicode e.1 k.1 = false) :
    ofKey o k (ReceiptBatcher.addOrReplace o.unicode pending e.1 e.2) = ofKey o k pending := by
  unfold ReceiptBatcher.addOrReplace
  rw [ofKey_append, ofKey_single, h]
  unfold ofKey
  rw [List.countP_filter]
  refine List.countP_congr ?_
  intro f _
  rw [Bool.and_eq_true, Bool.not_eq_true']
  refine and_iff_left_of_imp ?_
  intro hf
  by_contra hsame
  rw [Bool.not_eq_false] at hsame
  rw [ReceiptBatcher.sameKey_trans (ReceiptBatcher.sameKey_symm hsame) hf] at h
  cases h

/-- Of the entries of its user and nonce, the new one is the only one left. -/
theorem ofKey_replaced {k e : Entry} {pending : Pending}
    (h : ReceiptBatcher.sameKey o.unicode e.1 k.1 = true) :
    ofKey o k (ReceiptBatcher.addOrReplace o.unicode pending e.1 e.2) = 1 := by
  unfold ReceiptBatcher.addOrReplace
  rw [ofKey_append, ofKey_single, h]
  refine Nat.add_eq_right.mpr (ofKey_none ?_)
  intro f hf
  obtain ⟨-, hother⟩ := List.mem_filter.mp hf
  rw [Bool.not_eq_true'] at hother
  by_contra hsame
  rw [Bool.not_eq_false] at hsame
  rw [ReceiptBatcher.sameKey_trans hsame (ReceiptBatcher.sameKey_symm h)] at hother
  cases hother

/-- A pre-authorisation of another user or nonce is none of this one. -/
theorem isPreauth_append {preauths : List Entry} {e f : Entry}
    (h : ReceiptBatcher.sameKey o.unicode f.1 e.1 = false) :
    IsPreauth o config (preauths ++ [f]) e ↔ IsPreauth o config preauths e := by
  unfold IsPreauth
  constructor
  · rintro ⟨g, hg, hsame, hreceipt⟩
    rcases List.mem_append.mp hg with hg | hg
    · exact ⟨g, hg, hsame, hreceipt⟩
    · rw [List.mem_singleton.mp hg, h] at hsame
      cases hsame
  · rintro ⟨g, hg, hsame, hreceipt⟩
    exact ⟨g, List.mem_append_left _ hg, hsame, hreceipt⟩

/-! ## One step -/

/-- What a delivery queues, once it is generated. -/
theorem serve_generated {s : Services} {job : Job} {pending : Pending}
    {response : InferenceResponse} (h : generate s job.prompt = .ok response) :
    (serve config s job pending).2 = pending ++ [(job.receipt, job.userSig)] := by
  rw [serve_pending, h]

/-- A delivery for a user and nonce that nobody settled. -/
theorem guarded_deliver {pre : Entry} {serving : List Job}
    (hq : Guarded o config q)
    (hcareful : ∀ k ∈ q.acknowledged, ReceiptBatcher.sameKey o.unicode pre.1 k.1 = false) :
    Guarded o config { q with
      serving := serving
      pending := q.pending ++ [pre]
      preauths := q.preauths ++ [pre] } := by
  refine ⟨hq.sent, ?_, ?_⟩
  · intro k hk
    dsimp only
    rw [ofKey_append, ofKey_single, hcareful k hk]
    exact hq.once k hk
  · intro k hk e he hkey
    have hother : ReceiptBatcher.sameKey o.unicode pre.1 e.1 = false := by
      by_contra hsame
      rw [Bool.not_eq_false] at hsame
      have hpre := hcareful k hk
      rw [ReceiptBatcher.sameKey_trans hsame hkey] at hpre
      cases hpre
    have hold : e ∈ q.submitted ∨ e ∈ q.pending := by
      rcases he with he | he
      · exact .inl he
      · rcases List.mem_append.mp he with he | he
        · exact .inr he
        · -- the new entry has another user or nonce
          rw [List.mem_singleton.mp he, ReceiptBatcher.sameKey_self] at hother
          cases hother
    exact fun h => hq.final k hk e hold hkey ((isPreauth_append hother).mp h)

/-- A settle request for which nothing was sent. -/
theorem guarded_settle {e : Entry} (hq : Guarded o config q)
    (hunsent : ∀ f ∈ q.submitted, ReceiptBatcher.sameKey o.unicode f.1 e.1 = false)
    (hfinal : ¬ IsPreauth o config q.preauths e) :
    Guarded o config { q with
      pending := ReceiptBatcher.addOrReplace o.unicode q.pending e.1 e.2
      acknowledged := q.acknowledged ++ [e] } := by
  -- nothing of this user and nonce was sent, whichever request names them
  have hnone : ∀ k : Entry, ReceiptBatcher.sameKey o.unicode e.1 k.1 = true →
      ∀ f ∈ q.submitted, ReceiptBatcher.sameKey o.unicode f.1 k.1 = false := by
    intro k hk f hf
    by_contra hsame
    rw [Bool.not_eq_false] at hsame
    have hfe := hunsent f hf
    rw [ReceiptBatcher.sameKey_trans hsame (ReceiptBatcher.sameKey_symm hk)] at hfe
    cases hfe
  have hself := ReceiptBatcher.sameKey_self o.unicode e.1
  have hold : ∀ k ∈ q.acknowledged ++ [e],
      ReceiptBatcher.sameKey o.unicode e.1 k.1 = false → k ∈ q.acknowledged := by
    intro k hk hother
    rcases List.mem_append.mp hk with hk | hk
    · exact hk
    · rw [List.mem_singleton.mp hk, hself] at hother
      cases hother
  refine ⟨hq.sent, ?_, ?_⟩
  · intro k hk
    dsimp only
    cases hkey : ReceiptBatcher.sameKey o.unicode e.1 k.1 with
    | true => rw [ofKey_replaced hkey, ofKey_none (hnone k hkey)]
    | false =>
      rw [ofKey_addOrReplace hkey]
      exact hq.once k (hold k hk hkey)
  · intro k hk f hf hfkey
    rcases hf with hsubmitted | hpending
    · cases hkey : ReceiptBatcher.sameKey o.unicode e.1 k.1 with
      | true =>
        have hno := hnone k hkey f hsubmitted
        rw [hfkey] at hno
        cases hno
      | false => exact hq.final k (hold k hk hkey) f (.inl hsubmitted) hfkey
    · rcases ReceiptBatcher.mem_addOrReplace.mp hpending with ⟨hqueued, hother⟩ | rfl
      · have hkey : ReceiptBatcher.sameKey o.unicode e.1 k.1 = false := by
          by_contra hsame
          rw [Bool.not_eq_false] at hsame
          rw [ReceiptBatcher.sameKey_trans hfkey (ReceiptBatcher.sameKey_symm hsame)] at hother
          cases hother
        exact hq.final k (hold k hk hkey) f (.inr hqueued) hfkey
      · exact hfinal

/-- A flush in which no call raises for a redemption that was sent. -/
theorem guarded_flush {sending : Nat → ReceiptBatcher.Sending} (hq : Guarded o config q)
    (hconfirmed : ∀ k ∈ q.acknowledged, ∀ i e, q.pending[i]? = some e →
      ReceiptBatcher.sameKey o.unicode e.1 k.1 = true → sending i ≠ .unconfirmed) :
    Guarded o config { q with
      pending := (ReceiptBatcher.flush sending q.pending).2
      submitted := q.submitted ++ (ReceiptBatcher.flush sending q.pending).1 } := by
  refine ⟨fun e he => List.mem_append_left _ (hq.sent e he), ?_, ?_⟩
  · intro k hk
    -- a flush moves receipts of a key and loses none
    have hcount : ofKey o k (ReceiptBatcher.flush sending q.pending).1 +
        ofKey o k (ReceiptBatcher.flush sending q.pending).2 = ofKey o k q.pending := by
      refine ReceiptBatcher.countP_flushFrom ?_
      intro i e he hkey
      rw [Nat.zero_add]
      exact hconfirmed k hk i e he hkey
    have honce := hq.once k hk
    dsimp only
    rw [ofKey_append]
    omega
  · intro k hk e he hkey
    refine hq.final k hk e ?_ hkey
    rcases he with he | he
    · rcases List.mem_append.mp he with he | he
      · exact .inl he
      · exact .inr (ReceiptBatcher.mem_flushFrom (.inl he))
    · exact .inr (ReceiptBatcher.mem_flushFrom (.inr he))

/-- **What one step preserves.** -/
theorem careful_step (h : MinerStep o config env q l q') (hcareful : Careful o config q l)
    (hq : Guarded o config q) : Guarded o config q' := by
  -- one case for each step that can touch the queue or what was sent
  cases h with
  | accept => exact ⟨hq.sent, hq.once, hq.final⟩
  | refuse => exact hq
  | @deliver s job before after response hoffchain hserving hgenerated =>
    rw [serve_generated hgenerated]
    exact guarded_deliver hq (hcareful response hgenerated)
  | @fail s job before after e hserving hfailed =>
    rw [serve_pending, hfailed]
    exact ⟨hq.sent, hq.once, hq.final⟩
  | @settle s payload e hoffchain hsees hchecked =>
    obtain ⟨hunsent, hfinal⟩ := hcareful e hchecked
    have hqueue : (handleSettle config s payload q.pending).2 =
        ReceiptBatcher.addOrReplace o.unicode q.pending e.1 e.2 := by
      unfold handleSettle
      rw [hchecked, ← hoffchain]
    rw [hqueue]
    exact guarded_settle hq hunsent hfinal
  | @reject s payload stop hrefused =>
    rw [handleSettle_pending, hrefused]
    exact ⟨hq.sent, hq.once, hq.final⟩
  | flush => exact guarded_flush hq hcareful
  | @included blk e x market hsubmitted =>
    refine ⟨?_, hq.once, hq.final⟩
    intro f hf
    rcases List.mem_append.mp hf with hf | hf
    · exact hq.sent f hf
    · rw [List.mem_singleton.mp hf]
      exact hsubmitted
  | elsewhere => exact ⟨hq.sent, hq.once, hq.final⟩

theorem Guarded.settledOnly (h : Guarded o config q) : SettledOnly o config q := by
  intro k hk
  refine ⟨?_, (Nat.le_add_right _ _).trans (h.once k hk)⟩
  intro e he hkey
  exact h.final k hk e (.inl (h.sent e he)) hkey

theorem guarded_start (market : MarketState T) :
    Guarded o config (MinerChain.start market) where
  sent := fun _ h => absurd h List.not_mem_nil
  once := fun _ h => absurd h List.not_mem_nil
  final := fun _ h => absurd h List.not_mem_nil

/-! ## Runs -/

/-- **What was acknowledged is what is redeemed.** In every run of the handlers, the flusher
and the chain whose steps are careful, in every state reached: of a user and nonce whose
settle request was answered ok, no pre-authorisation is redeemed, and one redemption is
sent at most. -/
theorem settled_is_redeemed (market : MarketState T) (ls : List MinerEvent) (t : MinerChain T)
    (hcareful : ∀ p l q, Along (MinerStep o config env) (MinerChain.start market) ls t p l q →
      Careful o config p l) :
    ∀ p l q, Along (MinerStep o config env) (MinerChain.start market) ls t p l q →
      SettledOnly o config q := by
  intro p l q h
  have hguarded := along_of (I := Guarded o config) (C := fun p l _ => Careful o config p l)
    careful_step (guarded_start market) hcareful p l q h
  exact hguarded.2.settledOnly

end Step

/-! ## A pre-authorisation that is on its way -/

/-- The final receipt of the toy inference can be sent, and redeemed. -/
theorem toySettling_sent : ∃ e x, admitSettle toyDesk (toySettling 5 2) [] = .ok e ∧
    wire toyDesk e = some x ∧ x.1 = { toyReceipt with responseHash := 5, amount := 2 } ∧
    e.1.user = toyUser ∧ e.1.nonce = 3 ∧
    ∃ m, redeem toyMarket ⟨150, by decide⟩ toyDesk.account.address x.1 x.2 toyOpenMarket =
      .ok m := by
  obtain ⟨e, w, he, hw, hsig, hreceipt, huser, hnonce, -⟩ := toySettling_pays
  refine ⟨e, (w.receipt, [2, 3]), he, ?_, hreceipt, huser, hnonce, ?_⟩
  · unfold wire
    rw [hw, hsig]
    rfl
  · dsimp only
    rw [hreceipt]
    exact toyOpenMarket_redeem rfl rfl rfl (by decide) (by decide) (by decide) rfl ⟨_, rfl⟩

theorem toySettling_sees (delivered : Bytes32) (amount : Int) :
    Sees toyOpenMarket.market (toySettling delivered amount) :=
  toyDesk_sees _

/-- The steps of the miner on the toy market. -/
abbrev ToyMinerStep := MinerStep toyAsked.toOffchain toyDesk toyMarket

/-- Everything is sent. -/
abbrev toyFlush : MinerEvent := .flush fun _ => .taken

section ToySteps

variable {nonce : Bytes32} {job : Job} {x : SignedWords} {e : Entry}
  {pending preauths acknowledged submitted redeemed : List Entry} {market : MarketState Ledger}

theorem toyMiner_accept (h : ToyAccepts toyAsked nonce job x) :
    ToyMinerStep (MinerChain.start toyOpenMarket) (.accept toyAsked [])
      ⟨[job], [], [], [], [], [], toyOpenMarket⟩ :=
  .accept rfl toyAsked_sees h.admitted

theorem toyMiner_deliver (h : ToyAccepts toyAsked nonce job x) :
    ToyMinerStep ⟨[job], [], [], [], [], [], market⟩ (.deliver toyAsked job)
      ⟨[], [(job.receipt, job.userSig)], [(job.receipt, job.userSig)], [], [], [], market⟩ := by
  obtain ⟨response, hresponse⟩ := h.generated
  have hstep : ToyMinerStep _ _ _ := @MinerStep.deliver _ toyAsked.toOffchain toyDesk toyMarket
    ⟨[job], [], [], [], [], [], market⟩ toyAsked job [] [] response rfl rfl hresponse
  rw [serve_generated hresponse] at hstep
  exact hstep

/-- The final receipt takes the place of a pre-authorisation that is still queued. -/
theorem toyMiner_settle (he : admitSettle toyDesk (toySettling 5 2) [] = .ok e)
    (hkey : ∀ f ∈ pending, ReceiptBatcher.sameKey toyAsked.unicode f.1 e.1 = true) :
    ToyMinerStep ⟨[], pending, preauths, [], submitted, [], toyOpenMarket⟩
      (.settle (toySettling 5 2) []) ⟨[], [e], preauths, [e], submitted, [], toyOpenMarket⟩ := by
  have hqueue : (handleSettle toyDesk (toySettling 5 2) [] pending).2 = [e] := by
    have hnone : (pending.filter fun f =>
        !ReceiptBatcher.sameKey (toySettling 5 2).unicode f.1 e.1) = [] := by
      refine List.filter_eq_nil_iff.mpr ?_
      intro f hf
      rw [toySettling_offchain, hkey f hf]
      exact Bool.false_ne_true
    rw [handleSettle_pending, he]
    dsimp only
    rw [hnone]
    rfl
  have hstep : ToyMinerStep ⟨[], pending, preauths, [], submitted, [], toyOpenMarket⟩ _ _ :=
    .settle (toySettling_offchain 5 2) (toySettling_sees 5 2) he
  dsimp only at hstep
  rw [hqueue] at hstep
  exact hstep

theorem toyMiner_flush (hsent : wire toyDesk e = some x) :
    ToyMinerStep ⟨[], [e], preauths, acknowledged, submitted, redeemed, market⟩ toyFlush
      ⟨[], [], preauths, acknowledged, submitted ++ [e], redeemed, market⟩ := by
  refine MinerStep.flush ?_
  intro i f hf hnone
  rw [List.mem_singleton.mp (List.mem_of_getElem? hf), hsent] at hnone
  cases hnone

/-- A redemption is included in block 150. -/
theorem toyMiner_included (hsubmitted : e ∈ submitted) (hsent : wire toyDesk e = some x)
    (hredeem : redeem toyMarket ⟨150, by decide⟩ toyDesk.account.address x.1 x.2 toyOpenMarket =
      .ok market) :
    ToyMinerStep ⟨[], pending, preauths, acknowledged, submitted, [], toyOpenMarket⟩
      (.included ⟨150, by decide⟩ e)
      ⟨[], pending, preauths, acknowledged, submitted, [e], { market with now := 150 }⟩ :=
  .included hsubmitted hsent (.call _ _ (.redeem x.1 x.2) (Nat.zero_le 150) (by decide) hredeem)

end ToySteps

/-- The user settles while the pre-authorisation is still queued: the final receipt takes its
place, is sent, and is what is redeemed. -/
theorem settled_is_redeemed_final : ∃ job e t,
    Run ToyMinerStep (MinerChain.start toyOpenMarket)
      [.accept toyAsked [], .deliver toyAsked job, .settle (toySettling 5 2) [], toyFlush,
        .included ⟨150, by decide⟩ e] t ∧
      t.preauths = [(job.receipt, job.userSig)] ∧ t.acknowledged = [e] ∧
      ReceiptBatcher.sameKey toyAsked.unicode job.receipt e.1 = true ∧
      t.redeemed = [e] ∧ SettledOnly toyAsked.toOffchain toyDesk t := by
  obtain ⟨job, x, hjob⟩ := toyAsked_job
  obtain ⟨job', _, _, hserved, -, -, -, huser', hnonce', -⟩ := toyAsked_served
  obtain rfl := Except.ok.inj (hjob.admitted.symm.trans hserved.admitted)
  obtain ⟨e, y, he, hy, hfinal, huser, hnonce, market, hredeem⟩ := toySettling_sent
  have hkey : ReceiptBatcher.sameKey toyAsked.unicode job.receipt e.1 = true :=
    ReceiptBatcher.sameKey_eq.mpr ⟨by rw [huser, huser'], by rw [hnonce, hnonce']⟩
  have haccept := toyMiner_accept hjob
  have hdeliver : ToyMinerStep _ _ _ := @toyMiner_deliver _ _ _ toyOpenMarket hjob
  have hsettle : ToyMinerStep ⟨[], [(job.receipt, job.userSig)], [(job.receipt, job.userSig)],
      [], [], [], toyOpenMarket⟩ (.settle (toySettling 5 2) [])
      ⟨[], [e], [(job.receipt, job.userSig)], [e], [], [], toyOpenMarket⟩ :=
    toyMiner_settle he (List.forall_mem_singleton.mpr hkey)
  have hflush : ToyMinerStep ⟨[], [e], [(job.receipt, job.userSig)], [e], [], [],
      toyOpenMarket⟩ toyFlush ⟨[], [], [(job.receipt, job.userSig)], [e], [e], [],
      toyOpenMarket⟩ := toyMiner_flush hy
  have hincluded : ToyMinerStep ⟨[], [], [(job.receipt, job.userSig)], [e], [e], [],
      toyOpenMarket⟩ (.included ⟨150, by decide⟩ e) ⟨[], [], [(job.receipt, job.userSig)], [e],
      [e], [e], { market with now := 150 }⟩ := toyMiner_included List.mem_cons_self hy hredeem
  have hbefore := Run.cons haccept (.cons hdeliver (.cons hsettle (.single hflush)))
  refine ⟨job, e, _, hbefore.append (.single hincluded), rfl, rfl, hkey, rfl, ?_⟩
  refine settled_is_redeemed toyOpenMarket [.accept toyAsked [], .deliver toyAsked job,
    .settle (toySettling 5 2) [], toyFlush, .included ⟨150, by decide⟩ e] _ ?_ _ _ _
    ⟨_, [], rfl, hbefore, hincluded, .nil _⟩
  intro p l q h
  rcases along_cons.mp h with ⟨rfl, rfl, -⟩ | ⟨q₁, h₁, h⟩
  · trivial
  rcases along_cons.mp h with ⟨rfl, rfl, -⟩ | ⟨q₂, h₂, h⟩
  · -- nothing is acknowledged when the inference is delivered
    intro response _ k hk
    cases h₁ <;> exact absurd hk List.not_mem_nil
  rcases along_cons.mp h with ⟨rfl, rfl, -⟩ | ⟨q₃, -, h⟩
  · -- nothing is sent when the request is made, and it brings another receipt
    have hquiet : p.submitted = [] ∧ ∀ f ∈ p.preauths, f = (job.receipt, job.userSig) := by
      cases h₁ <;> cases h₂ <;> simp [MinerChain.start]
    intro e' he'
    obtain rfl := Except.ok.inj (he.symm.trans he')
    refine ⟨?_, ?_⟩
    · rw [hquiet.1]
      exact fun f hf => absurd hf List.not_mem_nil
    · rintro ⟨f, hf, -, v, w, hv, hw, hsame⟩
      rw [hquiet.2 f hf, hjob.sent, Option.some.injEq] at hw
      rw [hy, Option.some.injEq] at hv
      rw [← hv, ← hw, hfinal, hjob.receipt] at hsame
      exact absurd (congrArg BasedAI.Receipt.responseHash hsame) (by decide)
  rcases along_cons.mp h with ⟨rfl, rfl, -⟩ | ⟨q₄, -, h⟩
  · rintro k - i f - - ⟨⟩
  rcases along_cons.mp h with ⟨rfl, rfl, -⟩ | ⟨_, -, h⟩
  · trivial
  · exact absurd h along_nil

/-- The queue is flushed between delivery and settlement: the settle request is answered ok,
the pre-authorisation is redeemed, and the final receipt is sent as well. -/
theorem settled_after_flush : ∃ job e t,
    Run ToyMinerStep (MinerChain.start toyOpenMarket)
      [.accept toyAsked [], .deliver toyAsked job, toyFlush, .settle (toySettling 5 2) [],
        .included ⟨150, by decide⟩ (job.receipt, job.userSig), toyFlush] t ∧
      t.acknowledged = [e] ∧
      ReceiptBatcher.sameKey toyAsked.unicode job.receipt e.1 = true ∧
      t.redeemed = [(job.receipt, job.userSig)] ∧
      t.submitted = [(job.receipt, job.userSig), e] ∧
      ¬ SettledOnly toyAsked.toOffchain toyDesk t := by
  obtain ⟨job, x, hjob⟩ := toyAsked_job
  obtain ⟨job', _, _, hserved, -, -, -, huser', hnonce', -⟩ := toyAsked_served
  obtain rfl := Except.ok.inj (hjob.admitted.symm.trans hserved.admitted)
  obtain ⟨e, y, he, hy, -, huser, hnonce, -⟩ := toySettling_sent
  obtain ⟨x', hx', market, hredeem⟩ := hjob.redeemable
  obtain rfl := Option.some.inj (hjob.sent.symm.trans hx')
  have hkey : ReceiptBatcher.sameKey toyAsked.unicode job.receipt e.1 = true :=
    ReceiptBatcher.sameKey_eq.mpr ⟨by rw [huser, huser'], by rw [hnonce, hnonce']⟩
  -- the market has not seen the redemption when the request is answered
  refine ⟨job, e, _, .cons (toyMiner_accept hjob) (.cons (toyMiner_deliver hjob)
    (.cons (toyMiner_flush hjob.sent) (.cons (toyMiner_settle he (List.forall_mem_nil _))
    (.cons (toyMiner_included List.mem_cons_self hjob.sent hredeem)
    (.single (toyMiner_flush hy)))))), rfl, hkey, rfl, rfl, ?_⟩
  intro hsettled
  obtain ⟨hfinal, -⟩ := hsettled e (List.mem_singleton.mpr rfl)
  refine hfinal (job.receipt, job.userSig) (List.mem_singleton.mpr rfl) hkey ?_
  exact ⟨_, List.mem_singleton.mpr rfl, ReceiptBatcher.sameKey_self _ _, x, x, hjob.sent,
    hjob.sent, rfl⟩

end Miner

end BasedAI
