import BasedAI.Miner.RedeemableQueue

/-!
# BasedAI — what a settle request may replace

Once an inference is delivered, its pre-authorisation is queued, and a settle request for
the same user and nonce takes its place. The handler checks the new receipt by itself: it
remembers neither the prompt, nor what was delivered, nor the charge. So delivered work is
paid for just when the user only ever settles with receipts that pay for it.

* `settle_step`      — when a settle request keeps the work paid for;
* `settle_pays_iff`  — when the work stays paid for.
-/

namespace BasedAI

open Fallible Python Transition

namespace Miner

/-! ## Work and payment -/

/-- An inference that was served: the miner returned a final receipt over `charge`. -/
structure Served (config : MinerConfig) (s : Services) (payload : Bytes) (job : Job)
    (response : InferenceResponse) (charge : Int) : Prop where
  admitted : admitInfer config s payload = .ok job
  generated : generate s job.prompt = .ok response
  charged : chargeOf s job response = .ok charge
  replied : ∃ reply, inferReply config s job response = .ok reply

section Payment

variable (o : Offchain) (config : MinerConfig) (job : Job) (response : InferenceResponse)
  (charge : Int)

/-- The receipt pays for the work: it is for the same prompt and for what was delivered,
over at least the charge. -/
def PaysFor (r : Receipt) : Prop :=
  ∃ e p, encodeReceipt config r = .ok e ∧ encodeReceipt config job.receipt = .ok p ∧
    e.receipt.promptHash = p.receipt.promptHash ∧
    hexText e.receipt.responseHash = response.responseHash ∧ charge ≤ r.amount

/-- The pre-authorisation is still queued, or was replaced by a receipt that pays for the
work. -/
def StaysPaid (pending : Pending) : Prop :=
  (job.receipt, job.userSig) ∈ pending ∨
    (∃ e ∈ pending, ReceiptBatcher.sameKey o.unicode e.1 job.receipt = true) ∧
      ∀ e ∈ pending, ReceiptBatcher.sameKey o.unicode e.1 job.receipt = true →
        PaysFor config job response charge e.1

/-- A settle request, and the services it meets. -/
abbrev SettleEvent := Services × Bytes

inductive SettleStep : Pending → SettleEvent → Pending → Prop
  | mk {pending : Pending} {s : Services} {payload : Bytes} (offchain : s.toOffchain = o) :
      SettleStep pending (s, payload) (handleSettle config s payload pending).2

/-- If the request passes the checks and has the nonce of the work, it brings the
pre-authorisation itself or a receipt that pays for the work. -/
def SettlesFairly (l : SettleEvent) : Prop :=
  ∀ e, admitSettle config l.1 l.2 = .ok e →
    ReceiptBatcher.sameKey o.unicode e.1 job.receipt = true →
      e = (job.receipt, job.userSig) ∨ PaysFor config job response charge e.1

end Payment

section Settle

variable {o : Offchain} {config : MinerConfig} {job : Job} {response : InferenceResponse}
  {charge : Int} {s : Services} {payload : Bytes} {pending p q : Pending} {l : SettleEvent}

/-- What is queued for it. -/
theorem Served.queued (h : Served config s payload job response charge) :
    (handleInfer config s payload pending).2 = pending ++ [(job.receipt, job.userSig)] := by
  unfold handleInfer
  rw [h.admitted]
  dsimp only
  rw [serve_pending, h.generated]

/-! ## One request -/

/-- **When a settle request keeps the work paid for.** -/
theorem settle_step (h : SettleStep o config p l q)
    (hp : StaysPaid o config job response charge p) :
    StaysPaid o config job response charge q ↔
      SettlesFairly o config job response charge l := by
  cases h with
  | @mk s payload hoffchain =>
    have hunicode : s.unicode = o.unicode := by rw [← hoffchain]
    unfold SettlesFairly
    dsimp only
    rw [handleSettle_pending]
    cases hchecked : admitSettle config s payload with
    | error stop =>
      refine iff_of_true hp ?_
      intro e he
      cases he
    | ok e =>
      dsimp only
      rw [hunicode]
      have hmem : ∀ f, f ∈ (p.filter fun g => !ReceiptBatcher.sameKey o.unicode g.1 e.1) ++ [e] ↔
          f ∈ p ∧ ReceiptBatcher.sameKey o.unicode f.1 e.1 = false ∨ f = e :=
        fun f => ReceiptBatcher.mem_addOrReplace
      unfold StaysPaid at hp ⊢
      simp only [hmem]
      cases hkey : ReceiptBatcher.sameKey o.unicode e.1 job.receipt with
      | false =>
        -- a receipt of another key leaves those of this one alone
        have hother : ∀ f : Entry, ReceiptBatcher.sameKey o.unicode f.1 job.receipt = true →
            ReceiptBatcher.sameKey o.unicode f.1 e.1 = false ∧ f ≠ e := by
          intro f hf
          have hne : ReceiptBatcher.sameKey o.unicode f.1 e.1 ≠ true := by
            intro hsame
            rw [ReceiptBatcher.sameKey_trans (ReceiptBatcher.sameKey_symm hsame) hf] at hkey
            cases hkey
          refine ⟨Bool.not_eq_true _ ▸ hne, ?_⟩
          rintro rfl
          exact hne (ReceiptBatcher.sameKey_self _ _)
        refine iff_of_true ?_ ?_
        · rcases hp with hqueued | ⟨⟨g, hg, hgkey⟩, hpaid⟩
          · have hself := hother (job.receipt, job.userSig) (ReceiptBatcher.sameKey_self _ _)
            exact .inl (.inl ⟨hqueued, hself.1⟩)
          · refine .inr ⟨⟨g, .inl ⟨hg, (hother g hgkey).1⟩, hgkey⟩, ?_⟩
            rintro f (⟨hf, -⟩ | rfl) hfkey
            · exact hpaid f hf hfkey
            · exact absurd rfl (hother f hfkey).2
        · rintro _ ⟨⟩ hekey
          rw [hkey] at hekey
          cases hekey
      | true =>
        -- a receipt of this key is the only one left
        have honly : ∀ f : Entry, ReceiptBatcher.sameKey o.unicode f.1 job.receipt = true →
            ReceiptBatcher.sameKey o.unicode f.1 e.1 = true :=
          fun f hf => ReceiptBatcher.sameKey_trans hf (ReceiptBatcher.sameKey_symm hkey)
        constructor
        · rintro hpaid _ ⟨⟩ -
          rcases hpaid with (⟨-, hstays⟩ | hsame) | ⟨-, hall⟩
          · rw [honly (job.receipt, job.userSig) (ReceiptBatcher.sameKey_self _ _)] at hstays
            cases hstays
          · exact .inl hsame.symm
          · exact .inr (hall e (.inr rfl) hkey)
        · intro hfair
          rcases hfair e rfl hkey with hsame | hpays
          · exact .inl (.inr hsame.symm)
          · refine .inr ⟨⟨e, .inr rfl, hkey⟩, ?_⟩
            rintro f (⟨-, hstays⟩ | rfl) hfkey
            · rw [honly f hfkey] at hstays
              cases hstays
            · exact hpays

/-! ## Runs -/

/-- **When delivered work stays paid for.** After an inference was served, and whatever
settle requests follow, its pre-authorisation is only ever replaced by receipts for the
same prompt and the delivered response over at least the charge, just when the user
settles with no others. -/
theorem settle_pays_iff (hserved : Served config s payload job response charge)
    (pending : Pending) (ls : List SettleEvent) (t : Pending) :
    (∀ p l q, Along (SettleStep o config) (handleInfer config s payload pending).2 ls t p l q →
        StaysPaid o config job response charge q) ↔
      ∀ p l q, Along (SettleStep o config) (handleInfer config s payload pending).2 ls t p l q →
        SettlesFairly o config job response charge l := by
  refine @along_iff _ _ (SettleStep o config) (fun _ => True)
    (StaysPaid o config job response charge)
    (fun _ => SettlesFairly o config job response charge)
    (fun _ _ => trivial) (fun h _ hp => settle_step h hp) _ t ls trivial ?_
  rw [hserved.queued]
  exact .inl (List.mem_append_right _ (List.mem_singleton.mpr rfl))

end Settle

/-! ## A settle request that underpays -/

/-- The final receipt that account 2 signs for the toy inference. -/
def toyFinal (delivered : Bytes32) (amount : Int) : Json :=
  .dict [
    (text "user", .str (text "0x0000000000000000000000000000000000000002")),
    (text "miner", .str (text "0x0000000000000000000000000000000000000007")),
    (text "brain_id", .int 3),
    (text "prompt_hash", .str (hexText 1)),
    (text "response_hash", .str (hexText delivered)),
    (text "amount", .int amount),
    (text "expiry", .int 200),
    (text "nonce", .int 3)]

/-- The services of the miner when it is asked to settle. -/
def toySettling (delivered : Bytes32) (amount : Int) : Services :=
  toyDeskServices (.dict [
    (text "receipt", toyFinal delivered amount),
    (text "user_signature", .str (text "0x0203"))])

/-- Whatever it is asked, the miner meets the same libraries. -/
theorem toySettling_offchain (delivered : Bytes32) (amount : Int) :
    (toySettling delivered amount).toOffchain = toyAsked.toOffchain := by
  have h : ∀ body body', (toyDeskServices body).toOffchain =
      (toyDeskServices body').toOffchain := fun _ _ => rfl
  exact h _ _

/-- The user of the toy receipts. -/
def toyUser : Text := text "0x0000000000000000000000000000000000000002"

set_option maxRecDepth 8000 in
/-- The toy inference is charged 2, for a response that hashes to 5. -/
theorem toyAsked_served : ∃ job response p,
    Served toyDesk toyAsked [] job response 2 ∧ response.responseHash = hexText 5 ∧
      encodeReceipt toyDesk job.receipt = .ok p ∧
      p.receipt.promptHash = 1 ∧ job.receipt.user = toyUser ∧ job.receipt.nonce = 3 ∧
      job.receipt.amount = 40 :=
  ⟨_, _, _, ⟨rfl, rfl, rfl, _, rfl⟩, rfl, rfl, rfl, rfl, rfl, rfl⟩

/-- A response hash that is not zero. -/
theorem hexText_delivered {w : Bytes32} (h : hexText w ≠ zeroHash) :
    (Json.str (hexText w)).eq (.str zeroHash) = false := by
  simp only [Json.eq, Json.same, h, decide_false]

/-- What the miner finds in a settle request that it admits. -/
structure ToySettles (delivered : Bytes32) (amount : Int) (e : Entry) (w : EncodedReceipt) :
    Prop where
  admitted : admitSettle toyDesk (toySettling delivered amount) [] = .ok e
  encoded : encodeReceipt toyDesk e.1 = .ok w
  signature : signatureBytes e.2 = .ok [2, 3]
  receipt : w.receipt =
    { toyReceipt with responseHash := delivered, amount := Fin.ofNat _ amount.toNat }
  user : e.1.user = toyUser
  nonce : e.1.nonce = 3
  amount : e.1.amount = amount

set_option maxRecDepth 8000 in
/-- The toy signature of account 2 over a digest that ends in 3. -/
theorem toySignature : signatureBytes (.str (text "0x0203")) = .ok [2, 3] := rfl

theorem ToySettles.of {delivered : Bytes32} {amount : Int} {r : Receipt} {w : EncodedReceipt}
    (hr : receiptOf (toySettling delivered amount) (toyFinal delivered amount) = .ok r)
    (hhash : r.responseHash = .str (hexText delivered))
    (hdelivered : hexText delivered ≠ zeroHash)
    (hvalid : verifyUserSignature toyAsked.toOffchain toyDesk r (.str (text "0x0203")) = .ok true)
    (heligible : checkEligibility toyDesk (toySettling delivered amount) r none = none)
    (hw : encodeReceipt toyDesk r = .ok w)
    (hreceipt : w.receipt =
      { toyReceipt with responseHash := delivered, amount := Fin.ofNat _ amount.toNat })
    (huser : r.user = toyUser) (hnonce : r.nonce = 3) (hamount : r.amount = amount) :
    ToySettles delivered amount (r, .str (text "0x0203")) w := by
  refine ⟨admitSettle_ok.mpr ⟨_, rfl, ?_⟩, hw, toySignature, hreceipt, huser, hnonce, hamount⟩
  refine ⟨⟨toyFinal delivered amount, rfl, hr⟩, rfl, ?_, ?_, checkEligibility_none.mp heligible⟩
  · dsimp only
    rw [hhash]
    -- the reply carries the hash of what was delivered
    exact hexText_delivered hdelivered
  · rw [toySettling_offchain]
    exact hvalid

set_option maxRecDepth 8000 in
/-- The final receipt for what was delivered is admitted, -/
theorem toySettling_pays : ∃ e w, ToySettles 5 2 e w :=
  ⟨_, _, .of rfl rfl (by decide +kernel) rfl rfl rfl rfl rfl rfl rfl⟩

set_option maxRecDepth 8000 in
/-- and so is one over 1, for a response that was never delivered. -/
theorem toySettling_underpays : ∃ e w, ToySettles 9 1 e w :=
  ⟨_, _, .of rfl rfl (by decide +kernel) rfl rfl rfl rfl rfl rfl rfl⟩

/-- The user settles for what was delivered: the work stays paid for. -/
theorem settle_pays_delivered : ∃ job response t,
    Served toyDesk toyAsked [] job response 2 ∧
      Run (SettleStep toyAsked.toOffchain toyDesk) (handleInfer toyDesk toyAsked [] []).2
        [(toySettling 5 2, [])] t ∧
      StaysPaid toyAsked.toOffchain toyDesk job response 2 t := by
  obtain ⟨job, response, p, hserved, hdelivered, hp, hprompt, -, -, -⟩ := toyAsked_served
  obtain ⟨e, w, he, hw, -, hreceipt, -, -, hamount⟩ := toySettling_pays
  have hstep : SettleStep toyAsked.toOffchain toyDesk (handleInfer toyDesk toyAsked [] []).2
      (toySettling 5 2, []) (handleSettle toyDesk (toySettling 5 2) []
        (handleInfer toyDesk toyAsked [] []).2).2 := .mk (toySettling_offchain 5 2)
  have hrun := Run.single hstep
  refine ⟨job, response, _, hserved, hrun, ?_⟩
  refine (@settle_pays_iff toyAsked.toOffchain toyDesk job response 2 toyAsked [] hserved []
    [(toySettling 5 2, [])] _).mpr ?_ _ _ _ ⟨[], [], rfl, .nil _, hstep, .nil _⟩
  intro p' l q h e' he' _
  -- the only step is the one that brings the final receipt
  rcases along_cons.mp h with ⟨-, hl, -⟩ | ⟨_, -, hnone⟩
  · right
    rw [hl] at he'
    obtain rfl := Except.ok.inj (he.symm.trans he')
    refine ⟨w, p, hw, hp, ?_, ?_, ?_⟩
    · rw [hreceipt, hprompt]
      rfl
    · rw [hreceipt, hdelivered]
    · rw [hamount]
  · exact absurd hnone along_nil

/-- The user settles for less: what was delivered is no longer paid for. -/
theorem settle_underpays : ∃ job response t,
    Served toyDesk toyAsked [] job response 2 ∧
      Run (SettleStep toyAsked.toOffchain toyDesk) (handleInfer toyDesk toyAsked [] []).2
        [(toySettling 9 1, [])] t ∧
      (∀ f ∈ t, f.1.amount = 1) ∧
      ¬ StaysPaid toyAsked.toOffchain toyDesk job response 2 t := by
  obtain ⟨job, response, -, hserved, -, -, -, huser, hnonce, hasked⟩ := toyAsked_served
  obtain ⟨e, -, he, -, -, -, huser', hnonce', hamount⟩ := toySettling_underpays
  have hkey : ReceiptBatcher.sameKey toyAsked.unicode job.receipt e.1 = true :=
    ReceiptBatcher.sameKey_eq.mpr ⟨by rw [huser, huser'], by rw [hnonce, hnonce']⟩
  -- the receipt over 1 is all that is queued
  have hqueue : (handleSettle toyDesk (toySettling 9 1) []
      (handleInfer toyDesk toyAsked [] []).2).2 = [e] := by
    rw [hserved.queued, handleSettle_pending, he]
    dsimp only
    rw [List.nil_append, List.filter_cons_of_neg, List.filter_nil, List.nil_append]
    rw [toySettling_offchain, hkey]
    exact Bool.false_ne_true
  refine ⟨job, response, _, hserved, .single (.mk (toySettling_offchain 9 1)), ?_, ?_⟩
  · rw [hqueue]
    intro f hf
    rw [List.mem_singleton.mp hf, hamount]
  · rw [hqueue]
    rintro (hqueued | ⟨-, hpaid⟩)
    · rw [← List.mem_singleton.mp hqueued, hasked] at hamount
      cases hamount
    · obtain ⟨_, _, -, -, -, -, hcharge⟩ := hpaid e (List.mem_singleton.mpr rfl)
        (ReceiptBatcher.sameKey_symm hkey)
      rw [hamount] at hcharge
      omega

end Miner

end BasedAI
