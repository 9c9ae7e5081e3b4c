import BasedAI.Miner.Challenges
import BasedAI.Miner.Redeemability
import BasedAI.Validator.CandidateRows
import BasedAI.Validator.Observations

/-!
# BasedAI — a challenge and its answer

The validator builds a challenge, the miner checks and answers it, and the validator records
what comes back. The two sides are written apart: the words under the signature, the spelling of
the signature and the keys of the answer are agreed on in comments only. They do agree: a
challenge of a registered validator is served whenever it is within the miner's limits, and what
is recorded is then what the engine has said, under the hash of what it was asked. In every other
case the miner is recorded as one that did not respond.

* `admitChallenge_iff` — what the miner asks of a challenge it is sent;
* `challenge_observed` — what the validator records.
-/

namespace BasedAI

open Fallible Python Miner

/-- A validator and a miner of one Brain, over the same primitives. -/
structure SameBrain (o : Offchain) (v : Validator) (config : MinerConfig) (s : Services) :
    Prop where
  crypto : s.crypto = o.crypto
  brain : config.brainId = v.brainId
  /-- the key of the validator -/
  recovers : ∀ digest, s.recoverMessage digest (v.account.sign digest) = some v.account.address

section Round

variable {o : Offchain} {v : Validator} {config : MinerConfig} {s : Services}
  {isValidator : BrainId → Address → Option Bool} {chosen : Json} {evalItem : Option Json}
  {seed : Int} {c : Challenge} {body : Bytes}

/-- What the validator sends, for the miner and the item that were picked. -/
structure Issued (o : Offchain) (v : Validator) (chosen : Json) (evalItem : Option Json)
    (seed : Int) (c : Challenge) (prompt : Text) (e : EncodedChallenge) : Prop where
  miner : chosen.subscript "address" = .ok c.miner
  item : challengePrompt evalItem = .ok (.str prompt, c.reference)
  encoded : encodeChallenge o v.brainId (.str prompt) seed = .ok e
  promptId : c.promptId = hexText e.promptHash
  payload : c.payload = .dict [
    (text "prompt", .str prompt),
    (text "seed", .int seed),
    (text "validator", .str (toChecksum o.crypto v.account.address)),
    (text "validator_signature",
      .str (hexlify (v.account.sign (o.crypto.messageDigest e.preimage))))]

theorem encodeChallenge_promptHash {brainId : Int} {prompt : Text} {e : EncodedChallenge}
    (h : encodeChallenge o brainId (.str prompt) seed = .ok e) :
    ∃ bytes, utf8 prompt = some bytes ∧ e.promptHash = o.crypto.keccak256 bytes := by
  simp only [encodeChallenge, keccakText, bind_ok, return_ok, orRevert_ok] at h
  obtain ⟨_, ⟨bytes, hbytes, rfl⟩, b, -, n, -, rfl⟩ := h
  exact ⟨bytes, hbytes, rfl⟩

theorem issueChallenge_ok (h : issueChallenge o v chosen evalItem seed = .ok c) :
    ∃ prompt e, Issued o v chosen evalItem seed c prompt e := by
  unfold issueChallenge buildChallengePayload at h
  simp only [bind_ok, return_ok] at h
  obtain ⟨miner, hminer, minerUrl, -, ⟨prompt, reference⟩, hitem, promptBytes, hbytes, payload,
    ⟨e, he, rfl⟩, rfl⟩ := h
  cases prompt with
  | str t =>
    refine ⟨t, e, hminer, hitem, he, ?_, rfl⟩
    -- the hash of the prompt is taken twice, each time over its bytes
    obtain ⟨bytes, hbytes', hhash⟩ := encodeChallenge_promptHash he
    obtain rfl := Option.some.inj ((orRevert_ok.mp hbytes).symm.trans hbytes')
    rw [hhash]
  | _ => cases hbytes

/-- What the miner finds under the keys that it reads. -/
structure Readable (o : Offchain) (v : Validator) (seed : Int) (prompt : Text)
    (e : EncodedChallenge) (data : Json) : Prop where
  prompt : data.subscript "prompt" = .ok (.str prompt)
  validator : data.subscript "validator" =
    .ok (.str (toChecksum o.crypto v.account.address))
  signature : data.subscript "validator_signature" =
    .ok (.str (hexlify (v.account.sign (o.crypto.messageDigest e.preimage))))
  seed : data.get "seed" (.int 0) = .ok (.int seed)

theorem Issued.readable {prompt : Text} {e : EncodedChallenge}
    (h : Issued o v chosen evalItem seed c prompt e) : Readable o v seed prompt e c.payload := by
  rw [h.payload]
  exact ⟨rfl, rfl, rfl, rfl⟩

/-- The two sides lay out the words of a challenge alike. -/
theorem challengeWords_eq (hsame : SameBrain o v config s) {prompt : Text} {e : EncodedChallenge}
    (h : encodeChallenge o v.brainId (.str prompt) seed = .ok e) :
    challengeWords config s prompt seed = .ok ⟨e.brainId, e.promptHash, e.seed⟩ := by
  simp only [encodeChallenge, bind_ok, return_ok] at h
  obtain ⟨promptHash, hhash, b, hb, n, hn, rfl⟩ := h
  rw [challengeWords, hsame.crypto, hsame.brain, hhash, ok_bind, hb, ok_bind, hn]
  rfl

theorem signatureBytes_digits (sig : Bytes) : signatureBytes (.str (hexlify sig)) = .ok sig := by
  have hlength : (hexlify sig).length = 2 * sig.length := unhexlify_length (unhexlify_hexlify sig)
  have heven : ¬ (hexlify sig).length % 2 = 1 := by omega
  rw [signatureBytes, hexBytes, remove0xPrefix_hexlify, if_neg heven]
  exact orRevert_ok.mpr (unhexlify_hexlify sig)

/-- The challenge is within the miner's limits, and the registry knows the validator. -/
def Answerable (isValidator : BrainId → Address → Option Bool) (v : Validator) (body : Bytes)
    (prompt : Text) (e : EncodedChallenge) : Prop :=
  body.length ≤ MAX_PAYLOAD_BYTES ∧ prompt.length ≤ MAX_PROMPT_CHARS ∧
    isValidator e.brainId v.account.address = some true

/-- **What the miner asks of a challenge it is sent**: that it is within the limits, and that
the validator is registered. -/
theorem admitChallenge_iff (hsame : SameBrain o v config s) {prompt t : Text} {n : Int}
    {e : EncodedChallenge} (hissued : Issued o v chosen evalItem seed c prompt e)
    (hloads : s.loads body = .ok c.payload) :
    admitChallenge config s isValidator body = .ok (t, n) ↔
      (t = prompt ∧ n = seed) ∧ Answerable isValidator v body prompt e := by
  have hread := hissued.readable
  -- the two sides write an address alike
  have hchecksum : toChecksumAddress s.crypto (.str (toChecksum o.crypto v.account.address)) =
      .ok (toChecksum s.crypto v.account.address) := by
    rw [hsame.crypto]
    exact toChecksumAddress_str.mpr ⟨_, hexAddress_toChecksum _ _, rfl⟩
  have hwords := challengeWords_eq hsame hissued.encoded
  have hrecovered : s.recoverMessage (s.crypto.messageDigest e.preimage)
      (v.account.sign (o.crypto.messageDigest e.preimage)) = some v.account.address := by
    rw [hsame.crypto]
    exact hsame.recovers _
  have hregistry : (hexAddress (toChecksum s.crypto v.account.address) >>= isValidator e.brainId) =
      isValidator e.brainId v.account.address := by
    rw [hexAddress_toChecksum]
    rfl
  unfold admitChallenge
  simp only [bind_ok, attempt_ok, revertIf_ok, promptOf_ok, orRevert_ok, not_not, not_lt]
  constructor
  · rintro ⟨-, hsize, data, hdata, p, hp, validator, ⟨value, hvalue, hvalidator⟩, sig, hsig,
      seed', ⟨value', hvalue', hseed⟩, prompt', ⟨rfl, hlen⟩, words, hwords', bytes, hbytes,
      recovered, hrecovered', -, -, h⟩
    -- what each check has read is what the validator wrote there
    generalize hanswer : (hexAddress validator >>= isValidator words.brainId) = answer at h
    obtain rfl := Except.ok.inj (hloads.symm.trans hdata)
    obtain rfl := Json.str.inj (Except.ok.inj (hread.prompt.symm.trans hp))
    obtain rfl := Except.ok.inj (hread.validator.symm.trans hvalue)
    obtain rfl := Except.ok.inj (hchecksum.symm.trans hvalidator)
    obtain rfl := Except.ok.inj (hread.seed.symm.trans hvalue')
    obtain rfl : seed = seed' := Except.ok.inj hseed
    obtain rfl := Except.ok.inj (hwords.symm.trans hwords')
    rw [hregistry] at hanswer
    cases answer with
    | none => cases h
    | some registered =>
      simp only [bind_ok, revertIf_ok, return_ok, Bool.not_eq_false] at h
      obtain ⟨_, rfl, hpair⟩ := h
      obtain ⟨rfl, rfl⟩ := Prod.mk.inj hpair
      exact ⟨⟨rfl, rfl⟩, hsize, hlen, hanswer⟩
  · -- and the checks are passed in this order
    rintro ⟨⟨rfl, rfl⟩, hsize, hlen, hregistered⟩
    refine ⟨(), hsize, _, hloads, _, hread.prompt, _, ⟨_, hread.validator, hchecksum⟩, _,
      hread.signature, _, ⟨_, hread.seed, rfl⟩, _, ⟨rfl, hlen⟩, _, hwords, _,
      signatureBytes_digits _, _, hrecovered, (), rfl, ?_⟩
    rw [hregistry, hregistered]
    rfl

/-- What a miner that is challenged has generated can be signed. -/
theorem signResponse_challenged (hsame : SameBrain o v config s) {prompt : Text}
    {e : EncodedChallenge} {response : InferenceResponse}
    (hencoded : encodeChallenge o v.brainId (.str prompt) seed = .ok e)
    (hgenerate : generate s prompt = .ok response) :
    ∃ signature, signResponse config s response = .ok signature := by
  obtain ⟨_, _, -, -, hprompt, hresponse⟩ := generate_ok hgenerate
  simp only [encodeChallenge, bind_ok, return_ok] at hencoded
  obtain ⟨_, -, b, hb, -⟩ := hencoded
  -- both hashes are of 32 bytes, whatever the engine said
  rw [signResponse, hsame.brain, hb, ok_bind, hprompt, hresponse,
    BasedClient.hashBytes_hexText, BasedClient.hashBytes_hexText, ok_bind, ok_bind,
    encodeBytes32_wordBytes, ok_bind, encodeBytes32_wordBytes]
  exact ⟨_, rfl⟩

/-- An error object is no answer. -/
theorem observation_err (c : Challenge) (message : Text) (latencyMs : Int) :
    c.observation (some (err message)) latencyMs = c.observation none latencyMs := rfl

/-- **A challenge is recorded as it was answered**: with what the engine said, under the hash of
the prompt that was sent, exactly where the miner takes it and the engine runs. -/
theorem challenge_observed (hsame : SameBrain o v config s)
    (hissue : issueChallenge o v chosen evalItem seed = .ok c)
    (hloads : s.loads body = .ok c.payload) (latencyMs : Int) :
    ∃ prompt e, Issued o v chosen evalItem seed c prompt e ∧
      (∀ response, Answerable isValidator v body prompt e → generate s prompt = .ok response →
        c.observation (some (handleChallenge config s isValidator body)) latencyMs =
          { miner := c.miner, promptId := response.promptHash
            responseHash := .str response.responseHash, responseText := .str response.text
            latencyMs := latencyMs, isChallenge := true, referenceText := c.reference }) ∧
      ((¬ Answerable isValidator v body prompt e ∨ ∀ response, generate s prompt ≠ .ok response) →
        c.observation (some (handleChallenge config s isValidator body)) latencyMs =
          c.observation none latencyMs) := by
  obtain ⟨prompt, e, hissued⟩ := issueChallenge_ok hissue
  have hchecked : ∀ t n, admitChallenge config s isValidator body = .ok (t, n) ↔
      (t = prompt ∧ n = seed) ∧ Answerable isValidator v body prompt e :=
    fun t n => admitChallenge_iff hsame hissued hloads
  refine ⟨prompt, e, hissued, ?_, ?_⟩
  · intro response hanswerable hgenerate
    have hadmitted := (hchecked prompt seed).mpr ⟨⟨rfl, rfl⟩, hanswerable⟩
    obtain ⟨signature, hsignature⟩ := signResponse_challenged hsame hissued.encoded hgenerate
    -- both have hashed the prompt
    have hpromptId : c.promptId = response.promptHash := by
      obtain ⟨bytes, hbytes, hhash⟩ := encodeChallenge_promptHash hissued.encoded
      obtain ⟨promptBytes, _, hpromptBytes, -, hprompt, -⟩ := generate_ok hgenerate
      obtain rfl := Option.some.inj (hbytes.symm.trans hpromptBytes)
      rw [hissued.promptId, hhash, hprompt, hsame.crypto]
    rw [handleChallenge, hadmitted]
    simp only [hgenerate, hsignature, ok_bind]
    rw [← hpromptId]
    rfl
  · intro hrefused
    unfold handleChallenge
    cases hadmitted : admitChallenge config s isValidator body with
    | error stop =>
      -- refused: the miner answers with an error object
      obtain ⟨message, hmessage⟩ := stop_reply s.strOf "malformed challenge: " stop
      dsimp only
      rw [hmessage, observation_err]
    | ok admitted =>
      obtain ⟨t, n⟩ := admitted
      obtain ⟨⟨rfl, rfl⟩, hanswerable⟩ := (hchecked t n).mp hadmitted
      cases hgenerate : generate s t with
      -- taken, so it is the engine that has failed
      | ok response => exact absurd hgenerate (hrefused.resolve_left (not_not.mpr hanswerable) _)
      | error failure =>
        obtain ⟨message, hmessage⟩ :=
          stop_reply s.strOf "malformed challenge: " (.raised failure)
        dsimp only
        rw [hgenerate]
        exact (congrArg (fun reply => c.observation (some reply) latencyMs) hmessage).trans
          (observation_err c message latencyMs)

end Round

/-! ## A challenge on the toy Brain -/

theorem toyDesk_sameBrain (body : Json) :
    SameBrain toyOffchain toyValidator toyDesk (toyDeskServices body) where
  crypto := rfl
  brain := rfl
  recovers digest := by
    show toyCrypto.recover digest [7, UInt8.ofNat digest.val] = some 7
    simp [toyCrypto]

/-- Validator 7 challenges miner 5, whose engine says the one character 5. -/
theorem challenge_observed_answered : ∃ c,
    issueChallenge toyOffchain toyValidator toyReachable none 7 = .ok c ∧
      (c.observation (some (handleChallenge toyDesk (toyDeskServices c.payload)
        (fun _ _ => some true) [])) 100).responseText = .str [5] := by
  obtain ⟨c, hc⟩ : ∃ c, issueChallenge toyOffchain toyValidator toyReachable none 7 = .ok c :=
    ⟨_, rfl⟩
  obtain ⟨prompt, e, hissued, hanswered, -⟩ := @challenge_observed toyOffchain toyValidator toyDesk
    (toyDeskServices c.payload) (fun _ _ => some true) toyReachable none 7 c []
    (toyDesk_sameBrain _) hc rfl 100
  obtain rfl : text "Reply with the single word: PING" = prompt :=
    Json.str.inj (Prod.mk.inj (Except.ok.inj hissued.item)).1
  obtain ⟨response, hresponse, htext⟩ : ∃ response, generate (toyDeskServices c.payload)
      (text "Reply with the single word: PING") = .ok response ∧ response.text = [5] :=
    ⟨_, rfl, rfl⟩
  refine ⟨c, hc, ?_⟩
  rw [hanswered response ⟨by decide, by decide, rfl⟩ hresponse, htext]

end BasedAI
