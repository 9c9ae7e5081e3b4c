import BasedAI.Chain.Codec
import BasedAI.Lib.JsValue
import BasedAI.Market.ComputeUnitMarket

/-!
# BasedAI — the TypeScript client

`client.ts` and `receipt.ts`: the same call as the Python client's, in a language whose
JSON numbers are doubles. The types the source declares for a reply are not checked when
it runs, so a reply and the receipt in it are values of any kind here.

Hashing, the ABI encoding of a receipt and the signature come from the `viem` package;
`Viem` is what the client calls of it, and `Viem.Documented` what the package promises.
-/

namespace BasedAI

open Fallible Python Js ByteWords

/-! ## The `viem` package -/

/-- What the client calls of `viem`; `none` is a call that throws. -/
structure Viem where
  toBytes : Value → Option Bytes
  /-- what `encodeAbiParameters` makes of an `address`, an unsigned integer of a width,
  and a `bytes32` -/
  encodeAddress : Value → Option Address
  encodeUint : (w : Nat) → Int → Option (Fin (2 ^ w))
  encodeBytes32 : Value → Option Bytes32

/-- `isHex`: `0x` and digits, perhaps none. -/
def isHex (t : Text) : Bool :=
  (text "0x").isPrefixOf t && (t.drop 2).all fun c => (hexDigit c).isSome

/-- `hexToBytes`: an odd first digit is a byte of its own. -/
def hexToBytes (t : Text) : Option Bytes :=
  let digits := t.drop 2
  unhexlify (if digits.length % 2 = 1 then text "0" ++ digits else digits)

/-- What the package documents. -/
structure Viem.Documented (viem : Viem) (crypto : Crypto) : Prop where
  /-- a text is its UTF-8 bytes, unless it is a hexadecimal literal -/
  toBytes_text : ∀ t, isHex t = false → viem.toBytes (.str t) = some (encodeText t)
  toBytes_hex : ∀ t, isHex t = true → viem.toBytes (.str t) = hexToBytes t
  /-- an address is `0x` and 40 digits -/
  address_denotes : ∀ v a, viem.encodeAddress v = some a →
    ∃ t, v = .str (text "0x" ++ t) ∧ hexAddress (text "0x" ++ t) = some a
  address_checksummed : ∀ a, viem.encodeAddress (.str (toChecksum crypto a)) = some a
  uint_iff : ∀ w n m, viem.encodeUint w n = some m ↔ (m.val : Int) = n
  bytes32_hexText : ∀ h, viem.encodeBytes32 (.str (hexText h)) = some h

namespace TypeScriptClient

/-! ## Types -/

structure InferenceRequest where
  brainId : Number
  prompt : Text
  maxTokens : Option Number := none
  temperature : Option Number := none
  /-- wei, the most the user will pay -/
  budget : Int
  expiry : Option Number := none
  reservation : Option Int := none

/-- A receipt before it is signed. The types of a reply are unchecked. -/
structure Receipt where
  user : Value
  miner : Value
  brainId : Value
  promptHash : Value
  responseHash : Value
  amount : Int
  expiry : Value
  nonce : Int

structure InferenceResponse where
  text : Value
  miner : Value
  promptHash : Value
  responseHash : Value
  tokensIn : Value
  tokensOut : Value
  amount : Int
  minerSignature : Value

structure ClientConfig where
  chainId : Number
  market : Text

/-- The client; `account` is `none` without a private key. -/
structure Client where
  config : ClientConfig
  account : Option Account

/-- How a `fetch` ends. The body may not be JSON. -/
inductive HttpReply
  | raised
  | response (status : Nat) (body : Text) (json : Option Value)

/-- What `infer` reads. -/
structure Surroundings where
  crypto : Crypto
  engine : Engine
  viem : Viem
  /-- `Math.floor(Date.now() / 1000)` -/
  now : Int
  randomBytes : { bytes : Bytes // bytes.length = 8 }
  /-- `Array.prototype.sort` by score, where a score is not a number -/
  sortUnordered : List Value → Eval Value
  miners : HttpReply
  inference : HttpReply
  pricing : Option (Int × Int)

/-- A receipt as the client signed it: what it was given, the values the digest was
taken over, and the signature. -/
structure SignedReceipt where
  receipt : Receipt
  encoded : BasedAI.Receipt
  signature : Bytes

/-- A body sent to the gateway under `/brains/{brainId}`. -/
inductive GatewayRequest
  | infer (brainId : Number) (body : Value)
  | settle (brainId : Number) (body : Value)

/-- A whole call of `infer`. -/
structure InferRun where
  signed : List SignedReceipt
  sent : List GatewayRequest
  outcome : Eval InferenceResponse

/-- 0.01 BASED. -/
def DEFAULT_RESERVATION : Int := 10 ^ 16

/-- `newNonce`: eight bytes, the first one the highest. -/
def newNonce (bytes : Bytes) : Nat := spelled bytes

/-- `serializeReceipt`. -/
def serializeReceipt (r : Receipt) : Value :=
  .object [
    (text "user", r.user),
    (text "miner", r.miner),
    (text "brain_id", r.brainId),
    (text "prompt_hash", r.promptHash),
    (text "response_hash", r.responseHash),
    (text "amount", .str (decimalText r.amount)),
    (text "expiry", r.expiry),
    (text "nonce", .str (decimalText r.nonce))]

/-- `0.7`. -/
def defaultTemperature : Number :=
  ⟨.finite (3152519739159347 / 4503599627370496), by decide +kernel⟩

/-- A signature as the package writes it. -/
def signatureText (signature : Bytes) : Value := .str (text "0x" ++ hexlify signature)

/-- The body of the inference request. -/
def inferBody (req : InferenceRequest) (preauth : SignedReceipt) : Value :=
  .object [
    (text "prompt", .str req.prompt),
    (text "max_tokens", .number (req.maxTokens.getD (.ofInt 256))),
    (text "temperature", .number (req.temperature.getD defaultTemperature)),
    (text "budget", .str (decimalText req.budget)),
    (text "receipt", serializeReceipt preauth.receipt),
    (text "user_signature", signatureText preauth.signature),
    (text "target_miner", preauth.receipt.miner)]

/-- The body of the settle request. -/
def settleBody (final : SignedReceipt) : Value :=
  .object [
    (text "receipt", serializeReceipt final.receipt),
    (text "user_signature", signatureText final.signature)]

section Infer

variable (client : Client) (around : Surroundings) (req : InferenceRequest)

/-! ## Signing -/

/-- `signReceipt`, over `receiptDigest`. -/
def signReceipt (account : Account) (r : Receipt) : Eval SignedReceipt := do
  let chainId ← bigInt around.engine (.number client.config.chainId)
  let brainId ← bigInt around.engine r.brainId
  let expiry ← bigInt around.engine r.expiry
  let market ← orThrow .packageError (around.viem.encodeAddress (.str client.config.market))
  let chainId ← orThrow .packageError (around.viem.encodeUint 256 chainId)
  let user ← orThrow .packageError (around.viem.encodeAddress r.user)
  let miner ← orThrow .packageError (around.viem.encodeAddress r.miner)
  let brainId ← orThrow .packageError (around.viem.encodeUint 256 brainId)
  let promptHash ← orThrow .packageError (around.viem.encodeBytes32 r.promptHash)
  let responseHash ← orThrow .packageError (around.viem.encodeBytes32 r.responseHash)
  let amount ← orThrow .packageError (around.viem.encodeUint 256 r.amount)
  let expiry ← orThrow .packageError (around.viem.encodeUint 64 expiry)
  let nonce ← orThrow .packageError (around.viem.encodeUint 256 r.nonce)
  let digest := around.crypto.keccak256 (abiEncode [market.val, chainId.val, user.val,
    miner.val, brainId.val, promptHash.val, responseHash.val, amount.val, expiry.val,
    nonce.val])
  return {
    receipt := r
    encoded := ⟨user, miner, brainId, promptHash, responseHash, amount, expiry, nonce⟩
    signature := account.sign (around.crypto.toEthSignedMessageHash digest) }

/-- `keccak256(toBytes(value))`. -/
def keccak (value : Value) : Eval Bytes32 := do
  let bytes ← orThrow .packageError (around.viem.toBytes value)
  return around.crypto.keccak256 bytes

/-! ## Before the request -/

/-- `listMiners`: what is not an array has no `sort`. -/
def listMiners : HttpReply → Eval (List Value)
  | .raised => .error .networkError
  | .response status _ json =>
    if ¬ (200 ≤ status ∧ status < 300) then .ok []
    else do
      match ← orThrow .syntaxError json with
      | .array miners => return miners
      | _ => .error .typeError

/-- `m.score ?? 0`, as a number. -/
def scoreOf (m : Value) : Eval PyFloat := do
  let score ← m.property "score"
  match score.orElse (.number (.ofInt 0)) with
  | .number x => return x.value
  | v => orThrow .typeError (around.engine.toNumber v)

/-- The first of the miners with the greatest score. -/
def firstBest (best : Value × PyFloat) : List (Value × PyFloat) → Value
  | [] => best.1
  | m :: rest => if PyFloat.gt m.2 best.2 then firstBest m rest else firstBest best rest

/-- `miners.sort(...)[0]`. The order is by score, and stable. -/
def bestMiner : List Value → Eval Value
  | [] => .ok .undefined
  | [m] => .ok m
  | m :: rest => do
    let score ← scoreOf around m
    let scored ← rest.mapM fun x => do return (x, ← scoreOf around x)
    -- a NaN compares as equal to everything, which is no order
    if score = .nan ∨ .nan ∈ scored.map (·.2) then around.sortUnordered (m :: rest)
    else return firstBest (m, score) scored

/-- The miner of the call. -/
def chooseMiner : Eval Value := do
  let miners ← listMiners around.miners
  throwIf (miners = []) (.errorWith "No miners available for brain"
    ((around.engine.toText (.number req.brainId)).getD []))
  bestMiner around miners

/-- The amount of the pre-authorisation, never more than the budget. -/
def reservation : Int :=
  let wanted :=
    match req.reservation with
    | some n => if 0 < n then n else DEFAULT_RESERVATION
    | none => DEFAULT_RESERVATION
  if req.budget < wanted then req.budget else wanted

/-- The expiry of both receipts. -/
def expiry : Number := req.expiry.getD (.ofInt (around.now + 3600))

/-- The pre-authorisation and its signature. -/
def preauthorise (account : Account) : Eval SignedReceipt := do
  let miner ← chooseMiner around req
  let minerAddress ← miner.property "address"
  let promptHash ← keccak around (.str req.prompt)
  let nonce := newNonce around.randomBytes.val
  -- the 64 digits of the hash and the nonce on 64 digits, as bytes
  let sentinel := around.crypto.keccak256 (wordBytes promptHash ++ bigEndian 32 nonce)
  signReceipt client around account {
    user := .str (toChecksum around.crypto account.address)
    miner := minerAddress
    brainId := .number req.brainId
    promptHash := .str (hexText promptHash)
    responseHash := .str (hexText sentinel)
    amount := reservation req
    expiry := .number (expiry around req)
    nonce := nonce }

/-! ## After the reply -/

/-- `assertFinalReceiptIdentity`: only the response hash and the amount may differ. -/
def assertFinalReceiptIdentity (preauth final : Receipt) : Eval Unit := do
  let u := around.engine.unicode
  let mismatch : Thrown := .error "final receipt identity does not match preauthorization"
  let finalUser ← final.user.toLowerCase u
  let preauthUser ← preauth.user.toLowerCase u
  throwIf (finalUser ≠ preauthUser) mismatch
  let finalMiner ← final.miner.toLowerCase u
  let preauthMiner ← preauth.miner.toLowerCase u
  throwIf (finalMiner ≠ preauthMiner) mismatch
  throwIf (final.brainId.strictEq preauth.brainId = false) mismatch
  let finalHash ← final.promptHash.toLowerCase u
  let preauthHash ← preauth.promptHash.toLowerCase u
  throwIf (finalHash ≠ preauthHash) mismatch
  throwIf (final.expiry.strictEq preauth.expiry = false) mismatch
  throwIf (final.nonce ≠ preauth.nonce) mismatch

/-- `readPricing`: `[pricePerByte, pricePerRequest]`, zero if it cannot be read. -/
def readPricing : Int × Int := around.pricing.getD (0, 0)

/-- The receipt a reply proposes. -/
def parseFinalReceipt (fr : Value) : Eval Receipt := do
  let user ← fr.property "user"
  let miner ← fr.property "miner"
  let brainId ← fr.property "brain_id"
  let promptHash ← fr.property "prompt_hash"
  let responseHash ← fr.property "response_hash"
  let amount ← bigInt around.engine (← fr.property "amount")
  let expiry ← fr.property "expiry"
  let nonce ← bigInt around.engine (← fr.property "nonce")
  return ⟨user, miner, brainId, promptHash, responseHash, amount, expiry, nonce⟩

/-- The charge the client computes for itself from the bytes delivered. -/
def expectedCharge (inputBytes outputBytes : Nat) : Int :=
  let (ppt, ppr) := readPricing around
  let quoted := ppr + ppt * (inputBytes + outputBytes : Nat)
  if quoted < req.budget then quoted else req.budget

/-- Check the final receipt against the pre-authorisation, the budget, the prices and
the delivered text, and sign it. -/
def counterSign (account : Account) (preauth : Receipt) (data fr : Value) :
    Eval SignedReceipt := do
  let finalReceipt ← parseFinalReceipt around fr
  assertFinalReceiptIdentity around preauth finalReceipt
  throwIf (req.budget < finalReceipt.amount) (.error "final amount exceeds budget")
  throwIf ((readPricing around).1 ≤ 0 ∧ (readPricing around).2 ≤ 0)
    (.error "market pricing is disabled")
  let inputBytes := encodeText req.prompt
  let outputBytes ← encode around.engine (← data.property "text")
  let expected := expectedCharge around req inputBytes.length outputBytes.length
  throwIf (finalReceipt.amount ≠ expected) (.error
    s!"incorrect metered charge: amount {finalReceipt.amount}, expected {expected}")
  -- the final has to bind the delivered output, not the sentinel
  let finalHash ← finalReceipt.responseHash.toLowerCase around.engine.unicode
  let dataHash ← (← data.property "response_hash").toLowerCase around.engine.unicode
  throwIf (finalHash ≠ dataHash)
    (.error "final receipt response hash does not match delivered text")
  signReceipt client around account finalReceipt

/-- `res.json()` of a reply that is `ok`. -/
def okJson : HttpReply → Eval Value
  | .raised => .error .networkError
  | .response status body json => do
    throwIf (¬ (200 ≤ status ∧ status < 300))
      (.errorWith s!"Inference failed: {status}" body)
    orThrow .syntaxError json

/-- What `infer` does with the reply before it builds its own response: verify the
text, and counter-sign a final receipt if the reply has one. -/
def receiveReply (account : Account) (preauth : Receipt) :
    Eval (Value × Option SignedReceipt) := do
  let u := around.engine.unicode
  let data ← okJson around.inference
  let textHash ← keccak around (← data.property "text")
  let responseHash ← (← data.property "response_hash").toLowerCase u
  throwIf (lower u (hexText textHash) ≠ responseHash)
    (.error "response hash does not match returned text")
  let fr ← data.property "final_receipt"
  if fr.truthy then
    let signed ← counterSign client around req account preauth data fr
    return (data, some signed)
  else return (data, none)

/-- The response `infer` returns. -/
def buildResponse (preauth : Receipt) (data : Value) (charged : Int) :
    Eval InferenceResponse := do
  return {
    text := ← data.property "text"
    miner := preauth.miner
    promptHash := ← data.property "prompt_hash"
    responseHash := ← data.property "response_hash"
    tokensIn := ← data.property "tokens_in"
    tokensOut := ← data.property "tokens_out"
    amount := charged
    minerSignature := ← data.property "miner_signature" }

/-- `BasedClient.infer`. Whether the settle request arrives changes nothing. -/
def infer : InferRun :=
  match client.account with
  | none => ⟨[], [], .error (.error "Client requires a private key for write operations")⟩
  | some account =>
    match preauthorise client around req account with
    | .error e => ⟨[], [], .error e⟩
    | .ok preauth =>
      let asked := GatewayRequest.infer req.brainId (inferBody req preauth)
      match receiveReply client around req account preauth.receipt with
      | .error e => ⟨[preauth], [asked], .error e⟩
      | .ok (data, none) =>
        ⟨[preauth], [asked], buildResponse preauth.receipt data (reservation req)⟩
      | .ok (data, some final) =>
        ⟨[preauth, final], [asked, .settle req.brainId (settleBody final)],
          buildResponse preauth.receipt data final.receipt.amount⟩

end Infer

end TypeScriptClient

end BasedAI
