import BasedAI.Miner.Handlers

/-!
# BasedAI — challenges, at the miner

`_handle_challenge` of the miner's `runtime.py`: a validator's challenge is answered only
if a registered validator of the Brain has signed it. What it must have signed are three
words, and so are those the miner signs of its answer.

* `admitChallenge_ok` — everything checked before the engine runs.
-/

namespace BasedAI

open Fallible Python

namespace Miner

section Handler

variable (config : MinerConfig) (s : Services)

/-- The words under a challenge, as the miner encodes them. -/
structure ChallengeWords where
  brainId : BrainId
  promptHash : Bytes32
  seed : Fin (2 ^ 256)
  deriving DecidableEq

def ChallengeWords.preimage (w : ChallengeWords) : Bytes :=
  abiEncode [w.brainId.val, w.promptHash.val, w.seed.val]

def challengeWords (prompt : Text) (seed : Int) : Py ChallengeWords := do
  let promptHash ← keccakText s.crypto (.str prompt)
  let brainId ← encodeUint 256 config.brainId
  let seed ← encodeUint 256 seed
  return ⟨brainId, promptHash, seed⟩

/-- `_handle_challenge` up to the inference: the prompt and the seed. `isValidator` is the
registry's answer, `none` where the call raises. -/
def admitChallenge (isValidator : BrainId → Address → Option Bool) (payload : Bytes) :
    Handler (Text × Int) := do
  refuseIf (MAX_PAYLOAD_BYTES < payload.length) "payload too large"
  let data ← attempt (s.loads payload)
  let prompt ← attempt (data.subscript "prompt")
  let validator ← attempt do toChecksumAddress s.crypto (← data.subscript "validator")
  let challengeSig ← attempt (data.subscript "validator_signature")
  let seed ← attempt do (← data.get "seed" (.int 0)).toInt s.unicode
  let prompt ← promptOf prompt
  let words ← attempt (challengeWords config s prompt seed)
  let bytes ← attempt (signatureBytes challengeSig)
  let recovered ← attempt (orRaise .badSignature
    (s.recoverMessage (s.crypto.messageDigest words.preimage) bytes))
  refuseIf (lower s.unicode (toChecksum s.crypto recovered) ≠ lower s.unicode validator)
    "bad validator signature"
  match hexAddress validator >>= isValidator words.brainId with
  | none => .error (.refused "validator check failed")
  | some registered =>
    refuseIf (registered = false) "not a registered validator"
    return (prompt, seed)

/-- `_handle_challenge`. -/
def handleChallenge (isValidator : BrainId → Address → Option Bool) (payload : Bytes) : Json :=
  match admitChallenge config s isValidator payload with
  | .error stop => stop.reply s.strOf "malformed challenge: "
  | .ok (prompt, _) =>
    let reply : Py Json := do
      let response ← generate s prompt
      let signature ← signResponse config s response
      return .dict [
        (text "text", .str response.text),
        (text "response_hash", .str response.responseHash),
        (text "miner_signature", .str (hexlify signature))]
    match reply with
    | .error e => (Stop.raised e).reply s.strOf "malformed challenge: "
    | .ok reply => reply

end Handler

variable {config : MinerConfig} {s : Services}

/-- A challenge the miner works for is signed by an account that is registered as a
validator of the Brain. -/
theorem admitChallenge_ok {isValidator : BrainId → Address → Option Bool} {payload : Bytes}
    {prompt : Text} {seed : Int}
    (h : admitChallenge config s isValidator payload = .ok (prompt, seed)) :
    ∃ words bytes recovered validator, challengeWords config s prompt seed = .ok words ∧
      s.recoverMessage (s.crypto.messageDigest words.preimage) bytes = some recovered ∧
      lower s.unicode (toChecksum s.crypto recovered) = lower s.unicode validator ∧
      ∃ a, hexAddress validator = some a ∧ isValidator words.brainId a = some true := by
  simp only [admitChallenge, bind_ok, attempt_ok, revertIf_ok, promptOf_ok, orRevert_ok,
    not_not] at h
  obtain ⟨_, -, data, -, _, -, validator, -, _, -, seed', -, prompt', ⟨-, -⟩, words, hwords,
    bytes, -, recovered, hrecovered, _, hsame, h⟩ := h
  split at h
  -- the call that asks the registry raised
  case h_1 => cases h
  case h_2 registered hregistered =>
    simp only [bind_ok, revertIf_ok, return_ok, Bool.not_eq_false] at h
    obtain ⟨_, rfl, hpair⟩ := h
    obtain ⟨rfl, rfl⟩ := Prod.mk.inj hpair
    obtain ⟨a, ha, hvalidator⟩ := Option.bind_eq_some_iff.mp hregistered
    exact ⟨words, bytes, recovered, validator, hwords, hrecovered, hsame, a, ha, hvalidator⟩

end Miner

end BasedAI
