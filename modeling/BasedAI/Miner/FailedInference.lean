import BasedAI.Miner.Redeemability

/-!
# BasedAI — inferences that fail

The pre-authorisation is queued once the engine has run, so that the miner is paid for what it
delivers. But the reply is put together after that, and the market may not say what the
inference costs: the user then gets an error, and the miner keeps the receipt.

* `inferReply_total`     — a job that was run is replied to when the market has a price;
* `failed_inference_iff` — when an error means that nothing was queued.
-/

namespace BasedAI

open Fallible Python

namespace Miner

variable {config : MinerConfig} {s : Services} {payload : Bytes} {pending : Pending} {job : Job}
  {response : InferenceResponse}

/-- The market answers with its prices, which are not both zero. -/
def Priced (s : Services) : Prop :=
  ∃ ppt ppr, s.pricePerByte = some ppt ∧ s.pricePerRequest = some ppr ∧ ¬ (ppt = 0 ∧ ppr = 0)

/-! ## Replies -/

/-- Whatever was checked can be signed: the receipt names the Brain of the miner, and was
encoded with it. -/
theorem signResponse_total {reqData : Json} (hjob : Admitted config s reqData job)
    (hgenerate : generate s job.prompt = .ok response) :
    ∃ signature, signResponse config s response = .ok signature := by
  obtain ⟨e, _, he, -, -⟩ := verifyUserSignature_ok hjob.signature
  obtain ⟨_, _, -, -, hprompt, hresponse⟩ := generate_ok hgenerate
  -- the receipt was encoded with the Brain of the miner
  have hbrain : encodeUint 256 config.brainId = .ok e.receipt.brainId := by
    rw [← hjob.eligible.brain, ← (encodeReceipt_ok he).brainId]
    exact encodeUint_eq e.receipt.brainId.isLt
  rw [signResponse, hbrain, ok_bind, hprompt, hresponse, BasedClient.hashBytes_hexText,
    BasedClient.hashBytes_hexText, ok_bind, ok_bind, encodeBytes32_wordBytes, ok_bind,
    encodeBytes32_wordBytes]
  exact ⟨_, rfl⟩

theorem chargeOf_total (hgenerate : generate s job.prompt = .ok response) :
    (∃ charge, chargeOf s job response = .ok charge) ↔ Priced s := by
  constructor
  · rintro ⟨charge, h⟩
    obtain ⟨ppt, ppr, _, _, hppt, hppr, hpriced, -⟩ := chargeOf_ok h
    exact ⟨ppt, ppr, hppt, hppr, hpriced⟩
  · rintro ⟨ppt, ppr, hppt, hppr, hpriced⟩
    obtain ⟨promptBytes, textBytes, hprompt, htext, -⟩ := generate_ok hgenerate
    have hquote : quote s job.prompt response.text =
        .ok (ppr + ppt * (promptBytes.length + textBytes.length) : Nat) := by
      simp only [quote, Json.encodeUtf8, bind_ok, orRevert_ok, revertIf_ok, return_ok]
      exact ⟨ppt, hppt, ppr, hppr, (), hpriced, promptBytes, hprompt, textBytes, htext, rfl⟩
    exact ⟨_, bind_ok.mpr ⟨_, hquote, rfl⟩⟩

/-- **A job that was run** is replied to just when there is a price. -/
theorem inferReply_total {reqData : Json} (hjob : Admitted config s reqData job)
    (hgenerate : generate s job.prompt = .ok response) :
    (∃ reply, inferReply config s job response = .ok reply) ↔ Priced s := by
  rw [← chargeOf_total hgenerate]
  constructor
  · rintro ⟨reply, h⟩
    obtain ⟨charge, -, hcharge, -⟩ := inferReply_ok h
    exact ⟨charge, hcharge⟩
  · rintro ⟨charge, hcharge⟩
    obtain ⟨signature, hsignature⟩ := signResponse_total hjob hgenerate
    exact ⟨_, bind_ok.mpr ⟨charge, hcharge, bind_ok.mpr ⟨signature, hsignature, rfl⟩⟩⟩

/-- A reply with a text is no error object. -/
theorem inferReply_ne_err {reply : Json} (h : inferReply config s job response = .ok reply)
    (message : Text) : reply ≠ err message := by
  obtain ⟨charge, signature, -, rfl⟩ := inferReply_ok h
  unfold err
  simp only [ne_eq, Json.dict.injEq, List.cons.injEq, reduceCtorEq, and_false, not_false_eq_true]

/-- **An error means that nothing was queued**, exactly when any job that passes the checks and
is run meets a market with a price. -/
theorem failed_inference_iff (config : MinerConfig) (s : Services) (payload : Bytes)
    (pending : Pending) :
    ((∃ message, (handleInfer config s payload pending).1 = err message) →
      (handleInfer config s payload pending).2 = pending) ↔
    ∀ job response, admitInfer config s payload = .ok job →
      generate s job.prompt = .ok response → Priced s := by
  unfold handleInfer
  cases hadmit : admitInfer config s payload with
  | error stop =>
    -- refused before anything was run
    exact iff_of_true (fun _ => rfl) fun job response h => nomatch h
  | ok job =>
    dsimp only
    obtain ⟨-, reqData, -, hjob⟩ := admitInfer_ok.mp hadmit
    unfold serve
    cases hgenerate : generate s job.prompt with
    | error e =>
      refine iff_of_true (fun _ => rfl) ?_
      rintro _ response ⟨⟩ h
      rw [hgenerate] at h
      cases h
    | ok response =>
      have htotal := inferReply_total hjob hgenerate
      dsimp only
      cases hreply : inferReply config s job response with
      | error e =>
        -- the receipt was queued already
        refine iff_of_false ?_ ?_
        · intro h
          have hqueued := h (stop_reply s.strOf "malformed request: " (.raised e))
          exact absurd (congrArg List.length hqueued) (by simp [ReceiptBatcher.add])
        · intro h
          obtain ⟨reply, h⟩ := htotal.mpr (h job response rfl hgenerate)
          rw [hreply] at h
          cases h
      | ok reply =>
        refine iff_of_true ?_ fun _ _ _ _ => htotal.mp ⟨reply, hreply⟩
        rintro ⟨message, h⟩
        exact absurd h (inferReply_ne_err hreply message)

/-! ## A market that does not answer -/

/-- The desk when the read of the price raises. -/
def toyUnpriced : Services := { toyDeskServices (toyRequestBody 200) with pricePerByte := none }

set_option maxRecDepth 8000 in
/-- **An error that is charged for**: the user gets no text, and the miner can redeem the
pre-authorisation. -/
theorem failed_inference_queued :
    (∃ message, (handleInfer toyDesk toyUnpriced [] []).1 = err message) ∧
      (handleInfer toyDesk toyUnpriced [] []).2 ≠ [] := by
  refine ⟨⟨_, rfl⟩, ?_⟩
  exact List.cons_ne_nil _ _

end Miner

end BasedAI
