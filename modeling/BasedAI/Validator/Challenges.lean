import BasedAI.Validator.Runtime

/-!
# BasedAI — the validator's challenges

`_issue_challenge` of `runtime.py` and what it calls: a prompt of the evaluation set is
sent to one of the miners, signed by the validator, and what comes back is an observation,
whether it is an answer or not.

The call awaits the network, so a challenge is in two parts, before and after it.
-/

namespace BasedAI

open Fallible Python

/-- A challenge on its way to a miner. -/
structure Challenge where
  miner : Json
  minerUrl : Json
  promptId : Text
  /-- the body of the request -/
  payload : Json
  reference : Json

/-- The prompt and the reference answer, of an item of the evaluation set if there is
one. -/
def challengePrompt : Option Json → Py (Json × Json)
  | some item => do
    let prompt ← item.subscript "prompt"
    let reference ← item.get "reference" .null
    return (prompt, reference)
  | none => return (.str (text "Reply with the single word: PING"), .str (text "PING"))

section Challenge

variable (o : Offchain) (v : Validator)

/-- The words under a challenge: the Brain, the hash of the prompt and the seed. -/
structure EncodedChallenge where
  brainId : BrainId
  promptHash : Bytes32
  seed : Fin (2 ^ 256)
  deriving DecidableEq

/-- The bytes of a challenge. -/
def EncodedChallenge.preimage (e : EncodedChallenge) : Bytes :=
  abiEncode [e.brainId.val, e.promptHash.val, e.seed.val]

def encodeChallenge (brainId : Int) (prompt : Json) (seed : Int) : Py EncodedChallenge := do
  let promptHash ← keccakText o.crypto prompt
  let brainId ← encodeUint 256 brainId
  let seed ← encodeUint 256 seed
  return ⟨brainId, promptHash, seed⟩

/-- `_build_challenge_payload`. -/
def buildChallengePayload (prompt : Json) (seed : Int) : Py Json := do
  let e ← encodeChallenge o v.brainId prompt seed
  let sig := v.account.sign (o.crypto.messageDigest e.preimage)
  return .dict [
    (text "prompt", prompt),
    (text "seed", .int seed),
    (text "validator", .str (toChecksum o.crypto v.account.address)),
    (text "validator_signature", .str (hexlify sig))]

/-- `_issue_challenge` up to the call, for the miner and the item that were picked. -/
def issueChallenge (chosen : Json) (evalItem : Option Json) (seed : Int) : Py Challenge := do
  let miner ← chosen.subscript "address"
  let minerUrl ← chosen.get "url" .null
  let (prompt, reference) ← challengePrompt evalItem
  let promptBytes ← prompt.encodeUtf8
  let payload ← buildChallengePayload o v prompt seed
  return ⟨miner, minerUrl, hexText (o.crypto.keccak256 promptBytes), payload, reference⟩

/-- The hash recorded of a miner that gave none. -/
def noHash : Json := .str (text "0x" ++ List.replicate 64 0x30)

/-- The text and the hash in a miner's answer. -/
def readAnswer (data : Json) : Py (Json × Json) := do
  if ← data.contains "error" then return (.str [], noHash)
  else
    let answer ← data.get "text" (.str [])
    let hash ← data.get "response_hash" noHash
    return (answer, hash)

/-- `_call_miner_challenge` from the miner's reply on, `none` where the call raises. Any
failure makes the miner one that did not respond. -/
def challengeAnswer (reply : Option Json) : Json × Json :=
  match orRaise .httpError reply >>= readAnswer with
  | .ok answer => answer
  | .error _ => (.str [], noHash)

/-- What is recorded in the end. -/
def Challenge.observation (c : Challenge) (reply : Option Json) (latencyMs : Int) :
    MinerObservation :=
  { miner := c.miner
    promptId := c.promptId
    responseHash := (challengeAnswer reply).2
    responseText := (challengeAnswer reply).1
    latencyMs := latencyMs
    isChallenge := true
    referenceText := c.reference }

end Challenge

end BasedAI
