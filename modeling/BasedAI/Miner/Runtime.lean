import BasedAI.Miner.Receipts

/-!
# BasedAI — the miner

`runtime.py`: what the miner answers to an inference request and to a settle request,
and what it queues for redemption.

An inference request is checked first (`admitInfer`), then served: the engine runs, the
pre-authorisation is queued, and only then is the charge computed. What the market and
the engine answer is part of `Services`; each request meets its own.

Both handlers answer every payload, with a reply or with an error object.
-/

namespace BasedAI

open Fallible Python

namespace Miner

def MAX_PAYLOAD_BYTES : Nat := 256 * 1024
def MAX_PROMPT_CHARS : Nat := 32 * 1024

/-- What a request meets. A read of the market is `none` where the call raises. -/
structure Services extends Offchain where
  /-- `int(time.time())` -/
  time : Int
  loads : Bytes → Py Json
  /-- `str` of an exception -/
  strOf : PyError → Text
  /-- the backend of the inference engine, once it is started -/
  backend : Option (Text → Py Text)
  usedNonces : Address → Fin (2 ^ 256) → Option Bool
  balances : Address → Option Nat
  pricePerByte : Option Nat
  pricePerRequest : Option Nat

/-! ## Refusals -/

/-- Why a handler stops early: it returns an error, or Python raises. -/
inductive Stop
  | refused (message : String)
  | raised (e : PyError)

abbrev Handler := Except Stop

def attempt {α : Type} (x : Py α) : Handler α := x.mapError .raised

/-- `if c: return _err(message)`. -/
abbrev refuseIf (c : Prop) [Decidable c] (message : String) : Handler Unit :=
  revertIf c (.refused message)

/-- `if err: return _err(err)`. -/
def refuse : Option String → Handler Unit
  | some message => .error (.refused message)
  | none => .ok ()

/-- `_err`. -/
def err (message : Text) : Json := .dict [(text "error", .str message)]

/-- The error object a handler answers with. -/
def Stop.reply (strOf : PyError → Text) (label : String) : Stop → Json
  | .refused message => err (text message)
  | .raised e => if malformed e then err (text label ++ strOf e) else err (strOf e)

section Handlers

variable (config : MinerConfig) (s : Services)

/-! ## Checks -/

/-- The receipt in a request. -/
def receiptOf (data : Json) : Py Receipt := do
  let user ← toChecksumAddress s.crypto (← data.subscript "user")
  let miner ← toChecksumAddress s.crypto (← data.subscript "miner")
  let brainId ← (← data.subscript "brain_id").toInt s.unicode
  let promptHash ← data.subscript "prompt_hash"
  let responseHash ← data.subscript "response_hash"
  let amount ← (← data.subscript "amount").toInt s.unicode
  let expiry ← (← data.subscript "expiry").toInt s.unicode
  let nonce ← (← data.subscript "nonce").toInt s.unicode
  return ⟨user, miner, brainId, promptHash, responseHash, amount, expiry, nonce⟩

/-- `usedNonces(r.user, r.nonce)`. -/
def readNonce (r : Receipt) : Option Bool := do
  let user ← hexAddress r.user
  let nonce ← (encodeUint 256 r.nonce).toOption
  s.usedNonces user nonce

/-- `balances(r.user)`. -/
def readBalance (r : Receipt) : Option Nat := do
  let user ← hexAddress r.user
  s.balances user

/-- `_check_eligibility`: why the receipt is not redeemable, if it is not. -/
def checkEligibility (r : Receipt) (minBalance : Option Int) : Option String :=
  if r.brainId ≠ config.brainId then some "wrong brain"
  else if lower s.unicode r.miner ≠
      lower s.unicode (toChecksum s.crypto config.account.address) then some "wrong miner"
  else if r.expiry ≤ s.time then some "expired"
  else
    match readNonce s r with
    | none => some "eligibility check failed"
    | some true => some "nonce used"
    | some false =>
      match readBalance s r with
      | none => some "eligibility check failed"
      | some balance =>
        if (balance : Int) < minBalance.getD r.amount then some "insufficient user balance"
        else none

/-- The prompt, if it is a text of bounded length. -/
def promptOf : Json → Handler Text
  | .str t => do
    refuseIf (MAX_PROMPT_CHARS < t.length) "invalid or oversized prompt"
    return t
  | _ => .error (.refused "invalid or oversized prompt")

/-! ## Inference requests -/

/-- An inference the miner has agreed to. -/
structure Job where
  receipt : Receipt
  userSig : Json
  prompt : Text
  /-- the most the final charge may be -/
  budget : Int

/-- `_handle_infer` up to the inference. -/
def admitInfer (payload : Bytes) : Handler Job := do
  refuseIf (MAX_PAYLOAD_BYTES < payload.length) "payload too large"
  let reqData ← attempt (s.loads payload)
  let userSig ← attempt (reqData.subscript "user_signature")
  let receiptData ← attempt (reqData.subscript "receipt")
  let prompt ← promptOf (← attempt (reqData.subscript "prompt"))
  let r ← attempt (receiptOf s receiptData)
  let expectedHash ← attempt (keccakText s.crypto (.str prompt))
  let given ← attempt (r.promptHash.toLower s.unicode)
  refuseIf (given ≠ lower s.unicode (hexText expectedHash)) "prompt hash mismatch"
  let valid ← attempt (verifyUserSignature s.toOffchain config r userSig)
  refuseIf (valid = false) "bad signature"
  let asked ← attempt do (← reqData.get "budget" (.int r.amount)).toInt s.unicode
  let budget := if asked < r.amount then r.amount else asked
  refuse (checkEligibility config s r (some budget))
  return ⟨r, userSig, prompt, budget⟩

structure InferenceResponse where
  text : Text
  promptHash : Text
  responseHash : Text
  tokensIn : Nat
  tokensOut : Nat

/-- `engine.generate`. -/
def generate (prompt : Text) : Py InferenceResponse := do
  let backend ← orRaise (.runtimeError "Engine not started") s.backend
  let t ← backend prompt
  let promptHash ← keccakText s.crypto (.str prompt)
  let responseHash ← keccakText s.crypto (.str t)
  return {
    text := t
    promptHash := hexText promptHash
    responseHash := hexText responseHash
    tokensIn := (splitWords s.unicode prompt).length
    tokensOut := (splitWords s.unicode t).length }

/-- `_quote`. -/
def quote (prompt response : Text) : Py Int := do
  let ppt ← orRaise (.runtimeError "market pricing unavailable") s.pricePerByte
  let ppr ← orRaise (.runtimeError "market pricing unavailable") s.pricePerRequest
  raiseIf (ppt = 0 ∧ ppr = 0) (.runtimeError "market pricing is disabled")
  let promptBytes ← Json.encodeUtf8 (.str prompt)
  let responseBytes ← Json.encodeUtf8 (.str response)
  return (ppr + ppt * (promptBytes.length + responseBytes.length) : Nat)

/-- `_sign_response`. -/
def signResponse (response : InferenceResponse) : Py Bytes := do
  let brainId ← encodeUint 256 config.brainId
  let promptBytes ← BasedClient.hashBytes (.str response.promptHash)
  let responseBytes ← BasedClient.hashBytes (.str response.responseHash)
  let promptHash ← encodeBytes32 promptBytes
  let responseHash ← encodeBytes32 responseBytes
  return config.account.sign (s.crypto.messageDigest
    (abiEncode [brainId.val, promptHash.val, responseHash.val]))

/-- A receipt as the miner writes it. -/
def receiptJson (r : Receipt) : Json :=
  .dict [
    (text "user", .str r.user),
    (text "miner", .str r.miner),
    (text "brain_id", .int r.brainId),
    (text "prompt_hash", r.promptHash),
    (text "response_hash", r.responseHash),
    (text "amount", .int r.amount),
    (text "expiry", .int r.expiry),
    (text "nonce", .int r.nonce)]

/-- The final receipt proposed for a job. -/
def finalReceipt (job : Job) (response : InferenceResponse) (charge : Int) : Receipt :=
  { job.receipt with
    responseHash := .str response.responseHash
    amount := charge }

/-- The charge for a delivered response: the metered cost, within the budget. -/
def chargeOf (job : Job) (response : InferenceResponse) : Py Int := do
  let quoted ← quote s job.prompt response.text
  return min quoted job.budget

/-- The reply to a served request. -/
def inferReply (job : Job) (response : InferenceResponse) : Py Json := do
  let charge ← chargeOf s job response
  let signature ← signResponse config s response
  return .dict [
    (text "text", .str response.text),
    (text "prompt_hash", .str response.promptHash),
    (text "response_hash", .str response.responseHash),
    (text "tokens_in", .int response.tokensIn),
    (text "tokens_out", .int response.tokensOut),
    (text "final_receipt", receiptJson (finalReceipt job response charge)),
    (text "miner_signature", .str (hexlify signature))]

/-- `_handle_infer` from the inference on: the reply and the queue. -/
def serve (job : Job) (pending : Pending) : Json × Pending :=
  match generate s job.prompt with
  | .error e => ((Stop.raised e).reply s.strOf "malformed request: ", pending)
  | .ok response =>
    -- queued before the charge is known
    let queued := ReceiptBatcher.add pending job.receipt job.userSig
    match inferReply config s job response with
    | .error e => ((Stop.raised e).reply s.strOf "malformed request: ", queued)
    | .ok reply => (reply, queued)

/-- `_handle_infer`. -/
def handleInfer (payload : Bytes) (pending : Pending) : Json × Pending :=
  match admitInfer config s payload with
  | .error stop => (stop.reply s.strOf "malformed request: ", pending)
  | .ok job => serve config s job pending

/-! ## Settle requests -/

/-- `"0x" + "00" * 32`. -/
def zeroHash : Text := text "0x" ++ List.replicate 64 (Fin.ofNat _ 0x30)

/-- `_handle_settle` up to the queue. -/
def admitSettle (payload : Bytes) : Handler Entry := do
  let data ← attempt (s.loads payload)
  let receiptData ← attempt (data.subscript "receipt")
  let userSig ← attempt (data.subscript "user_signature")
  let r ← attempt (receiptOf s receiptData)
  refuseIf (r.responseHash.eq (.str zeroHash) = true)
    "final receipt must bind a delivered response"
  let valid ← attempt (verifyUserSignature s.toOffchain config r userSig)
  refuseIf (valid = false) "bad signature"
  refuse (checkEligibility config s r none)
  return (r, userSig)

/-- The reply to a settle request that was queued. -/
def settled : Json := .dict [(text "ok", .bool true)]

/-- `_handle_settle`. -/
def handleSettle (payload : Bytes) (pending : Pending) : Json × Pending :=
  match admitSettle config s payload with
  | .error stop => (stop.reply s.strOf "malformed settle: ", pending)
  | .ok (r, userSig) => (settled, ReceiptBatcher.addOrReplace s.unicode pending r userSig)

end Handlers

end Miner

end BasedAI
