import BasedAI.Chain.Codec
import BasedAI.Market.ComputeUnitMarket

/-!
# BasedAI — the Python client

`BasedClient.infer`: choose a miner, sign a small pre-authorisation, send the
prompt, check the reply, and counter-sign the final receipt the reply proposes.

Nothing the gateway answers has a type yet: the list of miners and the reply are
JSON values, and so are the parts of a receipt that are copied from them. The
client raises wherever Python does. What `infer` reads from elsewhere (the clock,
the random nonce, the answers, the prices) is `Surroundings`; what it signs and
sends, in order, is part of its result, also when it raises.
-/

namespace BasedAI

open Fallible Python

namespace BasedClient

/-! ## Types -/

structure InferenceRequest where
  brainId : Int
  prompt : Text
  /-- wei of BASED, the most the user will pay -/
  budget : Int
  maxTokens : Int := 256
  temperature : PyFloat := .finite (3152519739159347 / 4503599627370496)
  expiry : Option Int := none
  /-- 0 is the default reservation -/
  reservation : Int := 0

/-- A receipt before it is signed. The texts are unchecked. -/
structure Receipt where
  user : Json
  miner : Json
  brainId : Int
  promptHash : Json
  responseHash : Json
  amount : Int
  expiry : Int
  nonce : Int

structure InferenceResponse where
  text : Json
  miner : Json
  promptHash : Json
  responseHash : Json
  tokensIn : Json
  tokensOut : Json
  amount : Int
  minerSignature : Json

structure ClientConfig where
  chainId : Int
  market : Text

/-- The client; `account` is `none` without a private key. -/
structure Client where
  config : ClientConfig
  account : Option Account

/-- How a request to the gateway ends: the call raised, or a response with a status
and a body, which may not be JSON. -/
inductive HttpReply
  | raised
  | response (status : Nat) (json : Option Json)

/-- What `infer` reads: the hash and the Unicode database, the clock, the random
nonce, what the gateway answers, and the prices, if they could be read. -/
structure Surroundings where
  crypto : Crypto
  unicode : Unicode
  time : Int
  randbits : Fin (2 ^ 64)
  miners : HttpReply
  inference : HttpReply
  pricing : Option (Int × Int)

theorem Surroundings.randbits_lt (around : Surroundings) : around.randbits.val < 2 ^ 256 :=
  uint64_lt_word around.randbits

/-- A receipt as the client signed it: the texts it was given, the values the digest
was taken over, and the signature. -/
structure SignedReceipt where
  receipt : Receipt
  encoded : BasedAI.Receipt
  signature : Bytes

/-- A body sent to the gateway under `/brains/{brain_id}`. -/
inductive GatewayRequest
  | infer (brainId : Int) (body : Json)
  | settle (brainId : Int) (body : Json)

/-- A whole call of `infer`. -/
structure InferRun where
  signed : List SignedReceipt
  sent : List GatewayRequest
  outcome : Py InferenceResponse

/-- 0.01 BASED. -/
def DEFAULT_RESERVATION : Int := 10 ^ 16

/-! ## The gateway -/

/-- `r.raise_for_status()` and `r.json()`. -/
def HttpReply.jsonOrRaise : HttpReply → Py Json
  | .raised => .error .httpError
  | .response status json => do
    raiseIf (¬ (200 ≤ status ∧ status < 300)) .httpError
    orRaise .conversionError json

/-- `_list_miners`. -/
def listMiners : HttpReply → Py Json
  | .raised => .error .httpError
  | .response status json =>
    if status ≠ 200 then .ok (.list []) else orRaise .conversionError json

/-- `_serialize_receipt`. -/
def serializeReceipt (r : Receipt) : Json :=
  .dict [
    (text "user", r.user),
    (text "miner", r.miner),
    (text "brain_id", .int r.brainId),
    (text "prompt_hash", r.promptHash),
    (text "response_hash", r.responseHash),
    (text "amount", .int r.amount),
    (text "expiry", .int r.expiry),
    (text "nonce", .int r.nonce)]

/-- The body of the inference request. -/
def inferBody (req : InferenceRequest) (preauth : SignedReceipt) : Json :=
  .dict [
    (text "prompt", .str req.prompt),
    (text "max_tokens", .int req.maxTokens),
    (text "temperature", .float req.temperature),
    (text "budget", .int req.budget),
    (text "receipt", serializeReceipt preauth.receipt),
    (text "user_signature", .str (hexlify preauth.signature)),
    (text "target_miner", preauth.receipt.miner)]

/-- The body of the settle request. -/
def settleBody (final : SignedReceipt) : Json :=
  .dict [
    (text "receipt", serializeReceipt final.receipt),
    (text "user_signature", .str (hexlify final.signature))]

section Infer

variable (client : Client) (around : Surroundings) (req : InferenceRequest)

/-! ## Signing -/

/-- `bytes.fromhex(value[2:])`. -/
def hashBytes : Json → Py Bytes
  | .str t => orRaise .conversionError (fromHex (t.drop 2))
  | _ => .error .typeError

theorem hashBytes_hexText (w : Bytes32) : hashBytes (.str (hexText w)) = .ok (wordBytes w) := by
  rw [hashBytes, hexText_drop, fromHex_hexlify]
  exact orRevert_ok.mpr rfl

/-- `_sign_receipt`. -/
def signReceipt (account : Account) (r : Receipt) : Py SignedReceipt := do
  let promptBytes ← hashBytes r.promptHash
  let responseBytes ← hashBytes r.responseHash
  let market ← encodeAddress (.str client.config.market)
  let chainId ← encodeUint 256 client.config.chainId
  let user ← encodeAddress r.user
  let miner ← encodeAddress r.miner
  let brainId ← encodeUint 256 r.brainId
  let promptHash ← encodeBytes32 promptBytes
  let responseHash ← encodeBytes32 responseBytes
  let amount ← encodeUint 256 r.amount
  let expiry ← encodeUint 64 r.expiry
  let nonce ← encodeUint 256 r.nonce
  let digest := around.crypto.keccak256 (abiEncode [market.val, chainId.val, user.val,
    miner.val, brainId.val, promptHash.val, responseHash.val, amount.val, expiry.val,
    nonce.val])
  return {
    receipt := r
    encoded := ⟨user, miner, brainId, promptHash, responseHash, amount, expiry, nonce⟩
    signature := account.sign (around.crypto.toEthSignedMessageHash digest) }

/-! ## Before the request -/

/-- The miner with the greatest score, the first of them if there are several. -/
def chooseMiner : Py Json := do
  let miners ← listMiners around.miners
  raiseIf (miners.truthy = false)
    (.runtimeError s!"No miners available for brain {req.brainId}")
  miners.maxBy fun m => m.get "score" (.int 0)

/-- The amount of the pre-authorisation, never more than the budget. -/
def reservation : Int :=
  let wanted := if req.reservation ≠ 0 then req.reservation
    else min req.budget DEFAULT_RESERVATION
  if req.budget < wanted then req.budget else wanted

/-- The expiry of both receipts. -/
def expiry : Int :=
  match req.expiry with
  | some e => if e ≠ 0 then e else around.time + 3600
  | none => around.time + 3600

/-- The pre-authorisation and its signature. -/
def preauthorise (account : Account) : Py SignedReceipt := do
  let miner ← chooseMiner around req
  let promptHash ← keccakText around.crypto (.str req.prompt)
  let nonce : Bytes32 := ⟨around.randbits.val, by omega⟩
  -- the prompt's hash and the nonce on 64 digits, hashed together
  let sentinel ← keccakHexstr around.crypto
    ((hexText promptHash).drop 2 ++ hexlify (wordBytes nonce))
  let minerAddress ← miner.subscript "address"
  signReceipt client around account {
    user := .str (toChecksum around.crypto account.address)
    miner := minerAddress
    brainId := req.brainId
    promptHash := .str (hexText promptHash)
    responseHash := .str (hexText sentinel)
    amount := reservation req
    expiry := expiry around req
    nonce := nonce.val }

/-! ## After the reply -/

/-- `_assert_final_receipt_identity`: only the response hash and the amount may
differ. -/
def assertFinalReceiptIdentity (preauth final : Receipt) : Py Unit := do
  let mismatch : PyError :=
    .runtimeError "final receipt identity does not match preauthorization"
  let finalUser ← final.user.toLower around.unicode
  let preauthUser ← preauth.user.toLower around.unicode
  raiseIf (finalUser ≠ preauthUser) mismatch
  let finalMiner ← final.miner.toLower around.unicode
  let preauthMiner ← preauth.miner.toLower around.unicode
  raiseIf (finalMiner ≠ preauthMiner) mismatch
  raiseIf (final.brainId ≠ preauth.brainId) mismatch
  let finalHash ← final.promptHash.toLower around.unicode
  let preauthHash ← preauth.promptHash.toLower around.unicode
  raiseIf (finalHash ≠ preauthHash) mismatch
  raiseIf (final.expiry ≠ preauth.expiry) mismatch
  raiseIf (final.nonce ≠ preauth.nonce) mismatch

/-- `_read_pricing`: `(pricePerByte, pricePerRequest)`, zero if it cannot be read. -/
def readPricing : Int × Int := around.pricing.getD (0, 0)

/-- The receipt a reply proposes. -/
def parseFinalReceipt (final : Json) : Py Receipt := do
  let user ← final.subscript "user"
  let miner ← final.subscript "miner"
  let brainId ← (← final.subscript "brain_id").toInt around.unicode
  let promptHash ← final.subscript "prompt_hash"
  let responseHash ← final.subscript "response_hash"
  let amount ← (← final.subscript "amount").toInt around.unicode
  let expiry ← (← final.subscript "expiry").toInt around.unicode
  let nonce ← (← final.subscript "nonce").toInt around.unicode
  return ⟨user, miner, brainId, promptHash, responseHash, amount, expiry, nonce⟩

/-- The charge the client computes for itself from the bytes delivered. -/
def expectedCharge (promptBytes textBytes : Nat) : Int :=
  let (ppt, ppr) := readPricing around
  min (ppr + ppt * (promptBytes + textBytes : Nat)) req.budget

/-- Check the final receipt against the pre-authorisation, the budget, the prices and
the delivered text, and sign it. -/
def counterSign (account : Account) (preauth : Receipt) (data : Json)
    (expectedHash : Text) (final : Json) : Py SignedReceipt := do
  let finalReceipt ← parseFinalReceipt around final
  assertFinalReceiptIdentity around preauth finalReceipt
  raiseIf (req.budget < finalReceipt.amount) (.runtimeError "final amount exceeds budget")
  raiseIf ((readPricing around).1 ≤ 0 ∧ (readPricing around).2 ≤ 0)
    (.runtimeError "market pricing is disabled")
  let promptBytes ← Json.encodeUtf8 (.str req.prompt)
  let textBytes ← (← data.subscript "text").encodeUtf8
  let expected := expectedCharge around req promptBytes.length textBytes.length
  raiseIf (finalReceipt.amount ≠ expected) (.runtimeError
    s!"incorrect metered charge: amount {finalReceipt.amount}, expected {expected}")
  -- the final has to bind the delivered output, not the sentinel
  let finalHash ← finalReceipt.responseHash.toLower around.unicode
  raiseIf (finalHash ≠ lower around.unicode expectedHash)
    (.runtimeError "final receipt response hash does not match delivered text")
  signReceipt client around account finalReceipt

/-- What `infer` does with the reply before it builds its own response: verify the
text, and counter-sign a final receipt if the reply has one. -/
def receiveReply (account : Account) (preauth : Receipt) :
    Py (Json × Option SignedReceipt) := do
  let data ← around.inference.jsonOrRaise
  if ← data.contains "error" then
    let error ← data.subscript "error"
    .error (.runtimeErrorWith "miner error" error)
  else
    let expectedHash := hexText (← keccakText around.crypto (← data.subscript "text"))
    let responseHash ← (← data.subscript "response_hash").toLower around.unicode
    raiseIf (responseHash ≠ lower around.unicode expectedHash)
      (.runtimeError "response hash does not match returned text")
    let final ← data.get "final_receipt" .null
    if final.truthy then
      let signed ← counterSign client around req account preauth data expectedHash final
      return (data, some signed)
    else return (data, none)

/-- The response `infer` returns. -/
def buildResponse (preauth : Receipt) (data : Json) (charged : Int) : Py InferenceResponse := do
  return {
    text := ← data.subscript "text"
    miner := preauth.miner
    promptHash := ← data.subscript "prompt_hash"
    responseHash := ← data.subscript "response_hash"
    tokensIn := ← data.subscript "tokens_in"
    tokensOut := ← data.subscript "tokens_out"
    amount := charged
    minerSignature := ← data.subscript "miner_signature" }

/-- `BasedClient.infer`. Whether the settle request arrives changes nothing. -/
def infer : InferRun :=
  match client.account with
  | none => ⟨[], [], .error (.runtimeError "Client requires private_key for this operation")⟩
  | some account =>
    match preauthorise client around req account with
    | .error e => ⟨[], [], .error e⟩
    | .ok preauth =>
      let asked := GatewayRequest.infer req.brainId (inferBody req preauth)
      match receiveReply client around req account preauth.receipt with
      | .error e => ⟨[preauth], [asked], .error e⟩
      | .ok (data, none) =>
        ⟨[preauth], [asked], buildResponse preauth.receipt data (reservation req)⟩
      | .ok (data, some final) =>
        ⟨[preauth, final], [asked, .settle req.brainId (settleBody final)],
          buildResponse preauth.receipt data final.receipt.amount⟩

end Infer

end BasedClient

end BasedAI
