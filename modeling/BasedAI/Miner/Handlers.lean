import BasedAI.Miner.Runtime

/-!
# BasedAI — what the miner's handlers have checked

Inversion of the two handlers: what is known of a receipt once the miner has agreed to
work for it, once it is queued by a settle request, and of a reply that is not an error.

* `checkEligibility_none` — the checks against the chain, as one condition;
* `admitInfer_ok`, `admitSettle_ok` — everything checked before the miner works or queues;
* `handleInfer_served` — a reply with a final receipt comes from a job that was served.
-/

namespace BasedAI

open Fallible Python

namespace Miner

variable {config : MinerConfig} {s : Services} {r : Receipt} {payload : Bytes}
  {pending : Pending}

theorem attempt_ok {α : Type} {x : Py α} {a : α} : attempt x = .ok a ↔ x = .ok a := by
  cases x with
  | error e => simp [attempt, Except.mapError]
  | ok b => simp [attempt, Except.mapError]

theorem refuse_ok {o : Option String} {u : Unit} : refuse o = .ok u ↔ o = none := by
  cases o with
  | none => simp [refuse]
  | some message => simp [refuse]

theorem promptOf_ok {v : Json} {t : Text} :
    promptOf v = .ok t ↔ v = .str t ∧ t.length ≤ MAX_PROMPT_CHARS := by
  cases v with
  | str t' =>
    simp only [promptOf, bind_ok, revertIf_ok, return_ok, not_lt, Json.str.injEq, exists_const]
    constructor
    · rintro ⟨hlen, rfl⟩
      exact ⟨rfl, hlen⟩
    · rintro ⟨rfl, hlen⟩
      exact ⟨hlen, rfl⟩
  | _ => simp [promptOf]

/-! ## Eligibility -/

/-- What the miner has read of the chain about a receipt. -/
structure Eligible (config : MinerConfig) (s : Services) (r : Receipt) (required : Int) :
    Prop where
  brain : r.brainId = config.brainId
  miner : lower s.unicode r.miner =
    lower s.unicode (toChecksum s.crypto config.account.address)
  unexpired : s.time < r.expiry
  unused : readNonce s r = some false
  balance : ∃ b : Nat, readBalance s r = some b ∧ required ≤ b

theorem checkEligibility_none {minBalance : Option Int} :
    checkEligibility config s r minBalance = none ↔
      Eligible config s r (minBalance.getD r.amount) := by
  constructor
  · intro h
    unfold checkEligibility at h
    split_ifs at h with hbrain hminer hexpiry
    rw [not_not] at hbrain hminer
    split at h
    · -- the nonce was used, or the call that asks for it raised
      cases h
    · cases h
    · rename_i hunused
      split at h
      · cases h
      · rename_i b hb
        split_ifs at h with hbalance
        exact ⟨hbrain, hminer, not_le.mp hexpiry, hunused, b, hb, not_lt.mp hbalance⟩
  · rintro ⟨hbrain, hminer, hexpiry, hunused, b, hb, hbalance⟩
    unfold checkEligibility
    rw [if_neg (not_not.mpr hbrain), if_neg (not_not.mpr hminer), if_neg (not_le.mpr hexpiry),
      hunused]
    simp only [hb]
    exact if_neg (not_lt.mpr hbalance)

/-! ## The two checks -/

/-- What is known of a job. -/
structure Admitted (config : MinerConfig) (s : Services) (reqData : Json) (job : Job) :
    Prop where
  userSig : reqData.subscript "user_signature" = .ok job.userSig
  receipt : ∃ data, reqData.subscript "receipt" = .ok data ∧ receiptOf s data = .ok job.receipt
  prompt : reqData.subscript "prompt" = .ok (.str job.prompt)
  promptLength : job.prompt.length ≤ MAX_PROMPT_CHARS
  promptHash : ∃ t h, job.receipt.promptHash = .str t ∧
    keccakText s.crypto (.str job.prompt) = .ok h ∧
    lower s.unicode t = lower s.unicode (hexText h)
  signature : verifyUserSignature s.toOffchain config job.receipt job.userSig = .ok true
  budget : ∃ value asked, reqData.get "budget" (.int job.receipt.amount) = .ok value ∧
    value.toInt s.unicode = .ok asked ∧ job.budget = max asked job.receipt.amount
  eligible : Eligible config s job.receipt job.budget

theorem admitInfer_ok {job : Job} : admitInfer config s payload = .ok job ↔
    payload.length ≤ MAX_PAYLOAD_BYTES ∧
      ∃ reqData, s.loads payload = .ok reqData ∧ Admitted config s reqData job := by
  -- the balance asked for is the larger of the amount and the budget
  have hmax : ∀ a b : Int, (if a < b then b else a) = max a b := by
    intro a b
    split <;> omega
  unfold admitInfer
  simp only [bind_ok, attempt_ok, refuse_ok, promptOf_ok, revertIf_ok, return_ok, Json.toLower_ok,
    not_lt, not_not, Bool.not_eq_false, checkEligibility_none, Option.getD_some, hmax]
  constructor
  · rintro ⟨-, hsize, reqData, hloads, userSig, hsig, data, hdata, -, hvalue, prompt,
      ⟨rfl, hlen⟩, r, hr, hash, hhash, _, ⟨t, ht, rfl⟩, -, hprompt, valid, hvalid, -, rfl,
      asked, ⟨value, hget, hint⟩, -, heligible, rfl⟩
    exact ⟨hsize, reqData, hloads, hsig, ⟨data, hdata, hr⟩, hvalue, hlen, ⟨t, hash, ht, hhash,
      hprompt⟩, hvalid, ⟨value, asked, hget, hint, rfl⟩, heligible⟩
  · rintro ⟨hsize, reqData, hloads, hsig, ⟨data, hdata, hr⟩, hvalue, hlen, ⟨t, hash, ht, hhash,
      hprompt⟩, hvalid, ⟨value, asked, hget, hint, hbudget⟩, heligible⟩
    rw [hbudget] at heligible
    refine ⟨(), hsize, reqData, hloads, _, hsig, data, hdata, _, hvalue, _, ⟨rfl, hlen⟩, _, hr,
      hash, hhash, _, ⟨t, ht, rfl⟩, (), hprompt, true, hvalid, (), rfl, asked,
      ⟨value, hget, hint⟩, (), heligible, ?_⟩
    rw [← hbudget]

/-- What is known of a receipt that a settle request queues. -/
structure SettleAdmitted (config : MinerConfig) (s : Services) (data : Json) (e : Entry) :
    Prop where
  receipt : ∃ value, data.subscript "receipt" = .ok value ∧ receiptOf s value = .ok e.1
  userSig : data.subscript "user_signature" = .ok e.2
  delivered : e.1.responseHash.eq (.str zeroHash) = false
  signature : verifyUserSignature s.toOffchain config e.1 e.2 = .ok true
  eligible : Eligible config s e.1 e.1.amount

theorem admitSettle_ok {e : Entry} : admitSettle config s payload = .ok e ↔
    ∃ data, s.loads payload = .ok data ∧ SettleAdmitted config s data e := by
  unfold admitSettle
  simp only [bind_ok, attempt_ok, refuse_ok, revertIf_ok, return_ok, Bool.not_eq_true,
    Bool.not_eq_false, checkEligibility_none, Option.getD_none]
  constructor
  · rintro ⟨data, hloads, value, hvalue, userSig, hsig, r, hr, -, hzero, valid, hvalid, -, rfl,
      -, heligible, rfl⟩
    exact ⟨data, hloads, ⟨value, hvalue, hr⟩, hsig, hzero, hvalid, heligible⟩
  · rintro ⟨data, hloads, ⟨value, hvalue, hr⟩, hsig, hzero, hvalid, heligible⟩
    exact ⟨data, hloads, value, hvalue, _, hsig, _, hr, (), hzero, true, hvalid, (), rfl, (),
      heligible, rfl⟩

/-! ## Replies -/

/-- A handler that stops answers with an error object. -/
theorem stop_reply (strOf : PyError → Text) (label : String) (stop : Stop) :
    ∃ message, stop.reply strOf label = err message := by
  cases stop with
  | refused message => exact ⟨_, rfl⟩
  | raised e =>
    unfold Stop.reply
    dsimp only
    split
    · exact ⟨_, rfl⟩
    · exact ⟨_, rfl⟩

theorem err_no_receipt (message : Text) :
    (err message).subscript "final_receipt" = .error .keyError := rfl

/-- The reply to a served request, in full. -/
theorem inferReply_ok {job : Job} {response : InferenceResponse} {reply : Json}
    (h : inferReply config s job response = .ok reply) :
    ∃ charge signature, chargeOf s job response = .ok charge ∧ reply = .dict [
      (text "text", .str response.text),
      (text "prompt_hash", .str response.promptHash),
      (text "response_hash", .str response.responseHash),
      (text "tokens_in", .int response.tokensIn),
      (text "tokens_out", .int response.tokensOut),
      (text "final_receipt", receiptJson (finalReceipt job response charge)),
      (text "miner_signature", .str (hexlify signature))] := by
  unfold inferReply at h
  simp only [bind_ok, return_ok] at h
  obtain ⟨charge, hcharge, signature, -, rfl⟩ := h
  exact ⟨charge, signature, hcharge, rfl⟩

/-- **A reply with a final receipt was served.** -/
theorem handleInfer_served {final : Json}
    (h : (handleInfer config s payload pending).1.subscript "final_receipt" = .ok final) :
    ∃ job response charge, admitInfer config s payload = .ok job ∧
      generate s job.prompt = .ok response ∧ chargeOf s job response = .ok charge ∧
      inferReply config s job response = .ok (handleInfer config s payload pending).1 ∧
      final = receiptJson (finalReceipt job response charge) := by
  -- an error object has no such key
  have herror : ∀ stop : Stop,
      (stop.reply s.strOf "malformed request: ").subscript "final_receipt" ≠ .ok final := by
    intro stop hstop
    obtain ⟨message, hmessage⟩ := stop_reply s.strOf "malformed request: " stop
    rw [hmessage, err_no_receipt] at hstop
    cases hstop
  unfold handleInfer at h ⊢
  cases hchecked : admitInfer config s payload with
  | error stop =>
    rw [hchecked] at h
    exact absurd h (herror stop)
  | ok job =>
    rw [hchecked] at h
    dsimp only at h ⊢
    unfold serve at h ⊢
    cases hgenerate : generate s job.prompt with
    | error e =>
      rw [hgenerate] at h
      exact absurd h (herror (.raised e))
    | ok response =>
      rw [hgenerate] at h
      dsimp only at h ⊢
      cases hreply : inferReply config s job response with
      | error e =>
        rw [hreply] at h
        exact absurd h (herror (.raised e))
      | ok reply =>
        rw [hreply] at h
        obtain ⟨charge, signature, hcharge, rfl⟩ := inferReply_ok hreply
        refine ⟨job, response, charge, rfl, hgenerate, hcharge, hreply, ?_⟩
        exact (Except.ok.inj h).symm

theorem generate_ok {prompt : Text} {response : InferenceResponse}
    (h : generate s prompt = .ok response) :
    ∃ promptBytes textBytes, utf8 prompt = some promptBytes ∧
      utf8 response.text = some textBytes ∧
      response.promptHash = hexText (s.crypto.keccak256 promptBytes) ∧
      response.responseHash = hexText (s.crypto.keccak256 textBytes) := by
  unfold generate at h
  simp only [keccakText, bind_ok, return_ok, orRevert_ok] at h
  obtain ⟨backend, -, t, -, _, ⟨promptBytes, hprompt, rfl⟩, _, ⟨textBytes, htext, rfl⟩, rfl⟩ := h
  exact ⟨promptBytes, textBytes, hprompt, htext, rfl, rfl⟩

/-- The text is the backend's. -/
theorem generate_text {prompt : Text} {response : InferenceResponse}
    (h : generate s prompt = .ok response) :
    ∃ backend, s.backend = some backend ∧ backend prompt = .ok response.text := by
  unfold generate at h
  simp only [bind_ok, return_ok, orRevert_ok] at h
  obtain ⟨backend, hbackend, t, ht, _, -, _, -, rfl⟩ := h
  exact ⟨backend, hbackend, ht⟩

/-- The charge is the quote, within the budget. -/
theorem chargeOf_ok {job : Job} {response : InferenceResponse} {charge : Int}
    (h : chargeOf s job response = .ok charge) :
    ∃ (ppt ppr : Nat) (promptBytes textBytes : Bytes), s.pricePerByte = some ppt ∧
      s.pricePerRequest = some ppr ∧ ¬ (ppt = 0 ∧ ppr = 0) ∧
      utf8 job.prompt = some promptBytes ∧ utf8 response.text = some textBytes ∧
      charge = min ((ppr + ppt * (promptBytes.length + textBytes.length) : Nat) : Int)
        job.budget := by
  unfold chargeOf quote at h
  simp only [Json.encodeUtf8, bind_ok, return_ok, orRevert_ok, revertIf_ok] at h
  obtain ⟨_, ⟨ppt, hppt, ppr, hppr, -, hpriced, promptBytes, hprompt, textBytes, htext, rfl⟩,
    rfl⟩ := h
  exact ⟨ppt, ppr, promptBytes, textBytes, hppt, hppr, hpriced, hprompt, htext, rfl⟩

end Miner

end BasedAI
