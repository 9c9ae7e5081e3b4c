import BasedAI.Miner.Settlement
import BasedAI.Client.TypeScriptReceipts

/-!
# BasedAI — the final receipt and the TypeScript client

The TypeScript client writes amounts and nonces as decimal texts, which the miner reads;
but it reads those of the miner's proposal, which are JSON integers, as doubles. And it
hashes the delivered text with a function that takes a text like `0x12` for the bytes of
that literal. So it settles with an honest miner exactly where the nonce and the charge
are doubles and the text is no such literal. Here is what each side makes of what the other
writes.

* `Admitted.typeScript` — the miner admits what the client sends;
* `counterSign_fits`    — the client signs only where nonce and charge are doubles;
* `counterSign_read`    — and then it signs, and the receipt it signs is the one proposed;
* `hexToBytes_ne_utf8`  — the bytes of a literal are not those of its text.
-/

namespace BasedAI

open Fallible Python Js ByteWords

namespace Miner

variable {config : MinerConfig} {s : Services} {payload : Bytes} {pending : Pending}
  {client : TypeScriptClient.Client} {around : TypeScriptClient.Surroundings}
  {req : TypeScriptClient.InferenceRequest} {account : Account}

/-! ## Numbers on the way to the miner -/

/-- An integer of the client's reaches the miner as one that is the same double. -/
theorem reads_number {engine : Engine} (h : engine.ReadsBack) {x : Number} {n : Int}
    (hx : x.toInt = some n) :
    ∃ k, (∀ u, (engine.numberJson x).toInt u = .ok k) ∧ Number.ofInt k = x := by
  rcases h x n hx with ⟨k, hk, hdouble⟩ | hfloat
  · refine ⟨k, ?_, hdouble⟩
    intro u
    rw [hk]
    rfl
  · refine ⟨n, ?_, Number.ofInt_toInt hx⟩
    intro u
    -- `int` of a float that is an integer
    have hfloor : (n : Rat).floor = n := Rat.floor_intCast n
    have hneg : (-(n : Rat)).floor = -n := by
      rw [← Int.cast_neg, Rat.floor_intCast]
    rw [hfloat, Json.toInt, hfloor, hneg, Int.neg_neg]
    split
    · rfl
    · rfl

/-- A number is always written, if only as `null`. -/
theorem stringify_number_some (engine : Engine) (x : Number) :
    ∃ j, stringify engine (.number x) = some j := by
  rw [stringify]
  split
  · exact ⟨_, rfl⟩
  · exact ⟨_, rfl⟩

/-! ## The receipt on the wire -/

/-- A receipt of the client's as the miner meets it. -/
def wireReceipt (engine : Engine) (user miner : Text) (brainId expiry : Number)
    (hash response : Bytes32) (amount nonce : Nat) : Json :=
  .dict [
    (text "user", .str user),
    (text "miner", .str miner),
    (text "brain_id", engine.numberJson brainId),
    (text "prompt_hash", .str (hexText hash)),
    (text "response_hash", .str (hexText response)),
    (text "amount", .str (decimalText amount)),
    (text "expiry", engine.numberJson expiry),
    (text "nonce", .str (decimalText nonce))]

/-- A receipt of the client's over these values. -/
def tsReceipt (user miner : Text) (brainId expiry : Number) (hash response : Bytes32)
    (amount nonce : Int) : TypeScriptClient.Receipt :=
  ⟨.str user, .str miner, .number brainId, .str (hexText hash), .str (hexText response), amount,
    .number expiry, nonce⟩

section Wire

variable {engine : Engine} {user miner : Text} {brainId expiry : Number} {b e : Int}
  {hash response : Bytes32} {amount nonce : Nat}

theorem stringify_receipt (hb : brainId.toInt = some b) (he : expiry.toInt = some e) :
    stringify engine (TypeScriptClient.serializeReceipt
      (tsReceipt user miner brainId expiry hash response amount nonce)) =
      some (wireReceipt engine user miner brainId expiry hash response amount nonce) := by
  simp only [TypeScriptClient.serializeReceipt, tsReceipt, stringify, stringifyEntries,
    Number.value_of_toInt hb, Number.value_of_toInt he, wireReceipt]

/-- The miner reads the receipt the client means, the two numbers up to rounding. -/
theorem receiptOf_wire {k l : Int} (hk : ∀ u, (engine.numberJson brainId).toInt u = .ok k)
    (hl : ∀ u, (engine.numberJson expiry).toInt u = .ok l) {userAddress minerAddress : Address}
    (huser : hexAddress user = some userAddress) (hminer : hexAddress miner = some minerAddress)
    (hamount : amount < 2 ^ 256) (hnonce : nonce < 2 ^ 256) (s : Services) :
    receiptOf s (wireReceipt engine user miner brainId expiry hash response amount nonce) =
      .ok {
        user := toChecksum s.crypto userAddress
        miner := toChecksum s.crypto minerAddress
        brainId := k
        promptHash := .str (hexText hash)
        responseHash := .str (hexText response)
        amount := amount
        expiry := l
        nonce := nonce } := by
  rw [receiptOf_ok]
  exact {
    user := ⟨.str user, rfl, toChecksumAddress_text huser⟩
    miner := ⟨.str miner, rfl, toChecksumAddress_text hminer⟩
    brainId := ⟨engine.numberJson brainId, rfl, hk s.unicode⟩
    promptHash := rfl
    responseHash := rfl
    amount := ⟨.str (decimalText amount), rfl,
      orRevert_ok.mpr (intOfText_decimalText_word s.unicode hamount)⟩
    expiry := ⟨engine.numberJson expiry, rfl, hl s.unicode⟩
    nonce := ⟨.str (decimalText nonce), rfl,
      orRevert_ok.mpr (intOfText_decimalText_word s.unicode hnonce)⟩ }

end Wire

/-! ## The request -/

/-- What a pre-authorisation is, spelled out: every value in it is one the package
encodes. -/
theorem preauthorise_spelled (hviem : around.viem.Documented around.crypto)
    {preauth : TypeScriptClient.SignedReceipt}
    (h : TypeScriptClient.preauthorise client around req account = .ok preauth) :
    ∃ (t : Text) (a : Address) (b e : Int) (hash sentinel : Bytes32) (amount : Nat),
      hexAddress (text "0x" ++ t) = some a ∧ req.brainId.toInt = some b ∧
      (TypeScriptClient.expiry around req).toInt = some e ∧
      TypeScriptClient.reservation req = amount ∧ amount < 2 ^ 256 ∧
      preauth.receipt = tsReceipt (toChecksum around.crypto account.address) (text "0x" ++ t)
        req.brainId (TypeScriptClient.expiry around req) hash sentinel amount
        (TypeScriptClient.newNonce around.randomBytes.val) ∧
      TypeScriptClient.signReceipt client around account preauth.receipt = .ok preauth := by
  unfold TypeScriptClient.preauthorise at h
  simp only [bind_ok] at h
  obtain ⟨_, -, minerAddress, -, hash, -, hsign⟩ := h
  obtain ⟨hreceipt, hencodes⟩ := TypeScriptClient.signReceipt_ok hviem hsign
  obtain ⟨t, ht, ha⟩ := hviem.address_denotes _ _ hencodes.miner
  have hminer : minerAddress = .str (text "0x" ++ t) := ht
  have hamount : (preauth.encoded.amount.val : Int) = TypeScriptClient.reservation req :=
    hencodes.amount
  have hsigned := hsign
  rw [← hreceipt] at hsigned
  -- the Brain and the expiry are integers
  unfold TypeScriptClient.signReceipt at hsign
  simp only [bind_ok, bigInt, orRevert_ok] at hsign
  obtain ⟨_, -, b, hb, e, he, -⟩ := hsign
  refine ⟨t, preauth.encoded.miner, b, e, hash, around.crypto.keccak256 (wordBytes hash ++
    bigEndian 32 (TypeScriptClient.newNonce around.randomBytes.val)), preauth.encoded.amount.val,
    ha, hb, he, hamount.symm, preauth.encoded.amount.isLt, ?_, hsigned⟩
  rw [hreceipt, hminer, hamount]
  rfl

/-- A receipt that differs from a signed one in its amount, its response hash and the
spelling of its addresses can be signed as well. -/
theorem signReceipt_respelled (hviem : around.viem.Documented around.crypto)
    {user miner : Text} {brainId expiry : Number} {hash sentinel response : Bytes32}
    {reserved nonce : Int} {amount : Nat} {signed : TypeScriptClient.SignedReceipt}
    (h : TypeScriptClient.signReceipt client around account
      (tsReceipt user miner brainId expiry hash sentinel reserved nonce) = .ok signed)
    (userAddress minerAddress : Address) (hlt : amount < 2 ^ 256) :
    ∃ signed', TypeScriptClient.signReceipt client around account
        (tsReceipt (toChecksum around.crypto userAddress)
          (toChecksum around.crypto minerAddress) brainId expiry hash response amount nonce) =
          .ok signed' ∧
      signed'.receipt = tsReceipt (toChecksum around.crypto userAddress)
        (toChecksum around.crypto minerAddress) brainId expiry hash response amount nonce := by
  unfold TypeScriptClient.signReceipt at h ⊢
  simp only [bind_ok, return_ok, orRevert_ok, tsReceipt] at h ⊢
  obtain ⟨chain, hchain, b, hb, e, he, market, hmarket, chainId, hchainId, _, -, _, -, brain,
    hbrain, promptHash, hpromptHash, _, -, _, -, expiryWord, hexpiry, nonceWord, hnonce, -⟩ := h
  -- the fields that stay are encoded as before
  exact ⟨_, ⟨chain, hchain, b, hb, e, he, market, hmarket, chainId, hchainId, userAddress,
    hviem.address_checksummed _, minerAddress, hviem.address_checksummed _, brain, hbrain,
    promptHash, hpromptHash, response, hviem.bytes32_hexText _, ⟨amount, hlt⟩,
    (hviem.uint_iff _ _ _).mpr rfl, expiryWord, hexpiry, nonceWord, hnonce, rfl⟩, rfl⟩

/-- The request on the wire. -/
theorem stringify_inferBody {engine : Engine} {preauth : TypeScriptClient.SignedReceipt}
    {user miner : Text} {brainId expiry : Number} {b e : Int} {hash sentinel : Bytes32}
    {amount nonce : Nat} (hb : brainId.toInt = some b) (he : expiry.toInt = some e)
    (hreceipt : preauth.receipt =
      tsReceipt user miner brainId expiry hash sentinel amount nonce) :
    ∃ tokens temperature, stringify engine (TypeScriptClient.inferBody req preauth) =
      some (.dict [
        (text "prompt", .str req.prompt),
        (text "max_tokens", tokens),
        (text "temperature", temperature),
        (text "budget", .str (decimalText req.budget)),
        (text "receipt", wireReceipt engine user miner brainId expiry hash sentinel amount nonce),
        (text "user_signature", .str (text "0x" ++ hexlify preauth.signature)),
        (text "target_miner", .str miner)]) := by
  obtain ⟨tokens, htokens⟩ := stringify_number_some engine (req.maxTokens.getD (.ofInt 256))
  obtain ⟨temperature, htemperature⟩ :=
    stringify_number_some engine (req.temperature.getD TypeScriptClient.defaultTemperature)
  refine ⟨tokens, temperature, ?_⟩
  have hminer : preauth.receipt.miner = .str miner := by
    rw [hreceipt]
    rfl
  have hwire := @stringify_receipt engine user miner brainId expiry b e hash sentinel amount
    nonce hb he
  rw [← hreceipt] at hwire
  -- field by field
  rw [TypeScriptClient.inferBody, stringify, stringifyEntries, stringify, stringifyEntries,
    htokens, stringifyEntries, htemperature, stringifyEntries, stringify, stringifyEntries,
    hwire, stringifyEntries, TypeScriptClient.signatureText, stringify, stringifyEntries,
    hminer, stringify, stringifyEntries]

/-- The job an honest miner makes of the client's request. -/
theorem Admitted.typeScript {engine : Engine} {job : Job} {tokens temperature : Json}
    {userSig : Json} {t : Text} {a user : Address} {brainId expiry : Number} {b e : Int}
    {hash sentinel : Bytes32} {amount nonce : Nat} (hengine : engine.ReadsBack)
    (hb : brainId.toInt = some b) (he : expiry.toInt = some e)
    (ha : hexAddress (text "0x" ++ t) = some a)
    (hamount : amount < 2 ^ 256) (hnonce : nonce < 2 ^ 256)
    (hreserved : TypeScriptClient.reservation req = amount)
    (h : Admitted config s (.dict [
      (text "prompt", .str req.prompt),
      (text "max_tokens", tokens),
      (text "temperature", temperature),
      (text "budget", .str (decimalText req.budget)),
      (text "receipt", wireReceipt engine (toChecksum s.crypto user) (text "0x" ++ t) brainId
        expiry hash sentinel amount nonce),
      (text "user_signature", userSig),
      (text "target_miner", .str (text "0x" ++ t))]) job) :
    ∃ k l, Number.ofInt k = brainId ∧ Number.ofInt l = expiry ∧ job.prompt = req.prompt ∧
      job.budget = req.budget ∧ job.receipt = {
        user := toChecksum s.crypto user
        miner := toChecksum s.crypto a
        brainId := k
        promptHash := .str (hexText hash)
        responseHash := .str (hexText sentinel)
        amount := amount
        expiry := l
        nonce := nonce } ∧
      ∀ (later : Services) (response : Bytes32) (charge : Nat), charge < 2 ^ 256 →
        later.crypto = s.crypto →
        receiptOf later (wireReceipt engine (toChecksum s.crypto user) (toChecksum s.crypto a)
          brainId expiry hash response charge nonce) = .ok {
            user := toChecksum s.crypto user
            miner := toChecksum s.crypto a
            brainId := k
            promptHash := .str (hexText hash)
            responseHash := .str (hexText response)
            amount := charge
            expiry := l
            nonce := nonce } := by
  obtain ⟨data, hdata, hreceipt⟩ := h.receipt
  obtain rfl := Except.ok.inj hdata
  have huserHex : hexAddress (toChecksum s.crypto user) = some user :=
    hexAddress_toChecksum s.crypto user
  obtain ⟨k, hk, hkd⟩ := reads_number hengine hb
  obtain ⟨l, hl, hld⟩ := reads_number hengine he
  have hread : receiptOf s (wireReceipt engine (toChecksum s.crypto user) (text "0x" ++ t) brainId
      expiry hash sentinel amount nonce) = _ :=
    receiptOf_wire hk hl huserHex ha hamount hnonce s
  rw [hread, Except.ok.injEq] at hreceipt
  refine ⟨k, l, hkd, hld, Json.str.inj (Except.ok.inj h.prompt.symm), ?_, hreceipt.symm, ?_⟩
  · obtain ⟨value, asked, hget, hasked, hbudget⟩ := h.budget
    obtain rfl := Except.ok.inj hget
    -- the budget is at least the pre-authorised amount, so it is not negative
    have hle : (amount : Int) ≤ req.budget := by
      rw [← hreserved]
      exact TypeScriptClient.reservation_le_budget req
    obtain ⟨m, hm⟩ : ∃ m : Nat, req.budget = m := ⟨req.budget.toNat, by omega⟩
    have hread : orRaise .conversionError (intOfText s.unicode (decimalText req.budget)) =
        .ok asked := hasked
    rw [hm, orRevert_ok, intOfText_decimalText] at hread
    split at hread
    · cases hread
    · rw [hbudget, ← Option.some.inj hread, ← hreceipt, hm]
      exact max_eq_left (hm ▸ hle)
  · intro later response charge hcharge hlater
    rw [← hlater]
    exact receiptOf_wire hk hl (hlater ▸ huserHex) (hexAddress_toChecksum later.crypto a) hcharge
      hnonce later

/-! ## The proposal -/

/-- What the client reads of the miner's proposal. -/
def proposalValue (user miner : Text) (brainId expiry : Number) (hash response : Bytes32)
    (amount nonce : Number) : Value :=
  .object [
    (text "user", .str user),
    (text "miner", .str miner),
    (text "brain_id", .number brainId),
    (text "prompt_hash", .str (hexText hash)),
    (text "response_hash", .str (hexText response)),
    (text "amount", .number amount),
    (text "expiry", .number expiry),
    (text "nonce", .number nonce)]

/-- What the client reads of the whole reply. -/
def replyValue (response : InferenceResponse) (proposal : Value) (signature : Bytes) : Value :=
  .object [
    (text "text", .str response.text),
    (text "prompt_hash", .str response.promptHash),
    (text "response_hash", .str response.responseHash),
    (text "tokens_in", .number (.ofInt response.tokensIn)),
    (text "tokens_out", .number (.ofInt response.tokensOut)),
    (text "final_receipt", proposal),
    (text "miner_signature", .str (hexlify signature))]

theorem parse_proposal {r : Receipt} {hash response : Bytes32}
    (hhash : r.promptHash = .str (hexText hash))
    (hresponse : r.responseHash = .str (hexText response)) :
    Js.parse (receiptJson r) = some (proposalValue r.user r.miner (.ofInt r.brainId)
      (.ofInt r.expiry) hash response (.ofInt r.amount) (.ofInt r.nonce)) := by
  rw [receiptJson, hhash, hresponse]
  rfl

theorem parse_reply {response : InferenceResponse} {proposed : Json} {proposal : Value}
    {signature : Bytes} (h : Js.parse proposed = some proposal) :
    Js.parse (.dict [
      (text "text", .str response.text),
      (text "prompt_hash", .str response.promptHash),
      (text "response_hash", .str response.responseHash),
      (text "tokens_in", .int response.tokensIn),
      (text "tokens_out", .int response.tokensOut),
      (text "final_receipt", proposed),
      (text "miner_signature", .str (hexlify signature))]) =
      some (replyValue response proposal signature) := by
  simp only [Js.parse, parseEntries, h]
  rfl

section CounterSign

variable {user a : Address} {miner t : Text} {brainId expiry : Number} {b e : Int}
  {hash sentinel response : Bytes32} {reserved : Int} {amount nonce : Nat}

theorem parseFinalReceipt_proposal {user miner : Text} {x y : Number} {m n : Int}
    (hx : x.toInt = some m) (hy : y.toInt = some n) :
    TypeScriptClient.parseFinalReceipt around
      (proposalValue user miner brainId expiry hash response x y) =
      .ok (tsReceipt user miner brainId expiry hash response m n) := by
  have hread : ∀ (x : Number) (n : Int), x.toInt = some n →
      bigInt around.engine (.number x) = .ok n := by
    intro x n hx
    exact orRevert_ok.mpr hx
  have hvalue : TypeScriptClient.parseFinalReceipt around
      (proposalValue user miner brainId expiry hash response x y) =
      (do
        let amount ← bigInt around.engine (.number x)
        let nonce ← bigInt around.engine (.number y)
        return tsReceipt user miner brainId expiry hash response amount nonce) := rfl
  rw [hvalue, hread x m hx, hread y n hy]
  rfl

/-- The client reads a word as the double nearest to it. -/
theorem parseFinalReceipt_word {user miner : Text} (hamount : amount < 2 ^ 256)
    (hnonce : nonce < 2 ^ 256) :
    TypeScriptClient.parseFinalReceipt around (proposalValue user miner brainId expiry hash
      response (.ofInt (amount : Int)) (.ofInt (nonce : Int))) =
      .ok (tsReceipt user miner brainId expiry hash response (roundBits 53 amount : Nat)
        (roundBits 53 nonce : Nat)) :=
  parseFinalReceipt_proposal (Number.toInt_ofInt_word hamount) (Number.toInt_ofInt_word hnonce)

/-- The client computes the same charge from the same prices. -/
theorem expectedCharge_priced {ppt ppr : Nat}
    (h : around.pricing = some ((ppt : Int), (ppr : Int))) (inputBytes outputBytes : Nat) :
    TypeScriptClient.expectedCharge around req inputBytes outputBytes =
      min ((ppr + ppt * (inputBytes + outputBytes) : Nat) : Int) req.budget := by
  rw [TypeScriptClient.expectedCharge, TypeScriptClient.readPricing, h, Option.getD_some]
  dsimp only
  push_cast
  split <;> omega

/-- A proposal that passes the checks has a nonce and an amount that are doubles. -/
theorem counterSign_fits {data : Value} {signed : TypeScriptClient.SignedReceipt}
    {preauth : TypeScriptClient.Receipt} {user miner : Text}
    (hnonce : nonce < 2 ^ 256) (hamount : amount < 2 ^ 256) (hpreauth : preauth.nonce = nonce)
    (hmetered : ∀ textValue textBytes, data.property "text" = .ok textValue →
      encode around.engine textValue = .ok textBytes →
      (amount : Int) = TypeScriptClient.expectedCharge around req (encodeText req.prompt).length
        textBytes.length)
    (h : TypeScriptClient.counterSign client around req account preauth data
      (proposalValue user miner brainId expiry hash response (.ofInt (amount : Int))
        (.ofInt (nonce : Int))) = .ok signed) :
    Js.Fits 53 nonce ∧ Js.Fits 53 amount := by
  unfold TypeScriptClient.counterSign at h
  simp only [bind_ok, revertIf_ok, not_not, parseFinalReceipt_word hamount hnonce,
    Except.ok.injEq] at h
  obtain ⟨_, rfl, _, hidentity, -, -, -, -, textValue, htext, textBytes, hbytes, -, hexpected, -⟩ :=
    h
  obtain ⟨-, -, -, -, -, hsame⟩ := TypeScriptClient.assertFinalReceiptIdentity_ok.mp hidentity
  have hrounded : ((roundBits 53 nonce : Nat) : Int) = nonce := hsame.trans hpreauth
  have hmet : ((roundBits 53 amount : Nat) : Int) = amount :=
    hexpected.trans (hmetered textValue textBytes htext hbytes).symm
  -- both integers survived the rounding
  constructor
  · rw [← roundBits_eq_iff (by decide)]
    exact_mod_cast hrounded
  · rw [← roundBits_eq_iff (by decide)]
    exact_mod_cast hmet

/-- A proposal of an honest miner in doubles passes every check. -/
theorem counterSign_read {data : Value} {signed : TypeScriptClient.SignedReceipt}
    {ppt ppr : Nat} {promptBytes textBytes : Bytes}
    (hviem : around.viem.Documented around.crypto) (hb : brainId.toInt = some b)
    (he : expiry.toInt = some e) (hminer : hexAddress (text "0x" ++ t) = some a)
    (hsigned : TypeScriptClient.signReceipt client around account
      (tsReceipt (toChecksum around.crypto user) (text "0x" ++ t) brainId expiry hash sentinel
        reserved nonce) = .ok signed)
    (hnonce : nonce < 2 ^ 256) (hamount : amount < 2 ^ 256)
    (htext : data.property "text" = .ok (.str miner))
    (hresponse : data.property "response_hash" = .ok (.str (hexText response)))
    (hpricing : around.pricing = some ((ppt : Int), (ppr : Int)))
    (hpriced : ¬ (ppt = 0 ∧ ppr = 0)) (hprompt : encodeText req.prompt = promptBytes)
    (hbytes : encodeText miner = textBytes)
    (hcharge : (amount : Int) =
      min ((ppr + ppt * (promptBytes.length + textBytes.length) : Nat) : Int) req.budget)
    (hfits : Js.Fits 53 nonce ∧ Js.Fits 53 amount) :
    ∃ signed', TypeScriptClient.counterSign client around req account
        (tsReceipt (toChecksum around.crypto user) (text "0x" ++ t) brainId expiry hash sentinel
          reserved nonce) data
        (proposalValue (toChecksum around.crypto user) (toChecksum around.crypto a) brainId expiry
          hash response (.ofInt (amount : Int)) (.ofInt (nonce : Int))) = .ok signed' ∧
      signed'.receipt = tsReceipt (toChecksum around.crypto user) (toChecksum around.crypto a)
        brainId expiry hash response amount nonce := by
  obtain ⟨signed', hagain, hreceipt⟩ :=
    @signReceipt_respelled _ around account hviem _ _ brainId expiry hash sentinel response
      reserved nonce amount _ hsigned user a hamount
  refine ⟨signed', ?_, hreceipt⟩
  -- of the identity fields only the miner is spelled differently, and it is compared lowered
  have hidentity : TypeScriptClient.assertFinalReceiptIdentity around
      (tsReceipt (toChecksum around.crypto user) (text "0x" ++ t) brainId expiry hash sentinel
        reserved nonce)
      (tsReceipt (toChecksum around.crypto user) (toChecksum around.crypto a) brainId expiry hash
        response amount nonce) = .ok () := by
    rw [TypeScriptClient.assertFinalReceiptIdentity_ok]
    simp only [tsReceipt]
    exact ⟨⟨_, _, rfl, rfl, rfl⟩, ⟨_, _, rfl, rfl, lower_toChecksum hminer⟩,
      Number.strictEq_self hb, ⟨_, _, rfl, rfl, rfl⟩, Number.strictEq_self he, trivial⟩
  have hreading : TypeScriptClient.readPricing around = ((ppt : Int), (ppr : Int)) := by
    rw [TypeScriptClient.readPricing, hpricing, Option.getD_some]
  have hexpected : (amount : Int) =
      TypeScriptClient.expectedCharge around req promptBytes.length textBytes.length := by
    rw [hcharge, expectedCharge_priced hpricing]
  -- what fits 53 bits survives the way through a JavaScript number
  have hamountRead : roundBits 53 amount = amount := (roundBits_eq_iff (by decide) _).mpr hfits.2
  have hnonceRead : roundBits 53 nonce = nonce := (roundBits_eq_iff (by decide) _).mpr hfits.1
  unfold TypeScriptClient.counterSign
  simp only [bind_ok, revertIf_ok, not_not, not_lt, TypeScriptClient.toLowerCase_ok]
  refine ⟨_, parseFinalReceipt_word hamount hnonce, (), ?_, (), ?_, (), ?_, _, htext,
    textBytes, ?_, (), ?_, lower around.engine.unicode (hexText response),
    ⟨hexText response, ?_, rfl⟩, .str (hexText response), hresponse,
    lower around.engine.unicode (hexText response), ⟨hexText response, rfl, rfl⟩, (), rfl, ?_⟩
  · rw [hamountRead, hnonceRead]
    exact hidentity
  · show ((roundBits 53 amount : Nat) : Int) ≤ req.budget
    rw [hamountRead, hcharge]
    exact min_le_right _ _
  · rw [hreading]
    dsimp only
    omega
  · exact congrArg Except.ok hbytes
  · rw [hprompt]
    exact (congrArg Nat.cast hamountRead).trans hexpected
  · rw [tsReceipt]
  · rw [hamountRead, hnonceRead]
    exact hagain

end CounterSign

/-! ## The delivered text -/

/-- A literal is read as fewer bytes than its text has. -/
theorem hexToBytes_ne_utf8 {t : Text} {literal bytes : Bytes} (ht : isHex t = true)
    (hliteral : hexToBytes t = some literal) (hbytes : utf8 t = some bytes) :
    literal ≠ bytes := by
  rintro rfl
  have hlong : t.length ≤ literal.length := length_le_of_utf8 hbytes
  have hprefix : 2 ≤ t.length := by
    rw [isHex, Bool.and_eq_true, List.isPrefixOf_iff_prefix] at ht
    exact ht.1.length_le
  -- two digits make a byte, and the prefix makes none
  have hshort : 2 * literal.length ≤ t.length - 1 := by
    have hdigits : (t.drop 2).length = t.length - 2 := List.length_drop
    rw [hexToBytes] at hliteral
    have htwice := unhexlify_length hliteral
    split at htwice
    · rw [List.length_append, hdigits] at htwice
      have hone : (text "0").length = 1 := rfl
      omega
    · rw [hdigits] at htwice
      omega
  omega

/-- The charge an honest miner asks for a prompt and the text it delivers. -/
def meteredCharge (ppt ppr : Nat) (prompt delivered : Text) (budget : Int) : Int :=
  min ((ppr + ppt * ((encodeText prompt).length + (encodeText delivered).length) : Nat) : Int)
    budget

/-! ## Settling -/

/-- The client counter-signs what the miner proposed, and the miner reads the same
receipt in the settle request. -/
def TypeScriptSettles (client : TypeScriptClient.Client)
    (around : TypeScriptClient.Surroundings) (req : TypeScriptClient.InferenceRequest)
    (s : Services) (preauth : TypeScriptClient.SignedReceipt) (final : Json) : Prop :=
  ∃ proposed signed wire, final = receiptJson proposed ∧
    (TypeScriptClient.infer client around req).signed = [preauth, signed] ∧
    .settle req.brainId (TypeScriptClient.settleBody signed) ∈
      (TypeScriptClient.infer client around req).sent ∧
    stringify around.engine (TypeScriptClient.settleBody signed) = some wire ∧
    ∀ later : Services, later.crypto = s.crypto → ∃ data,
      wire.subscript "receipt" = .ok data ∧ receiptOf later data = .ok proposed

/-- A call of the TypeScript client that an honest miner answers. -/
structure TypeScriptExchange (config : MinerConfig) (s : Services) (payload : Bytes)
    (pending : Pending) (client : TypeScriptClient.Client)
    (around : TypeScriptClient.Surroundings) (req : TypeScriptClient.InferenceRequest)
    (preauth : TypeScriptClient.SignedReceipt) (delivered : Text) (ppt ppr : Nat)
    (final : Json) : Prop where
  preauthorised : ∃ account, client.account = some account ∧
    TypeScriptClient.preauthorise client around req account = .ok preauth
  answered : ∃ body reply quoted,
    stringify around.engine (TypeScriptClient.inferBody req preauth) = some body ∧
    Answers config s payload pending body reply final ∧
    around.inference = .response 200 quoted (Js.parse reply)
  delivers : ∃ backend, s.backend = some backend ∧ backend req.prompt = .ok delivered
  crypto : around.crypto = s.crypto
  /-- the same prices on both sides -/
  pricePerByte : s.pricePerByte = some ppt
  pricePerRequest : s.pricePerRequest = some ppr
  pricing : around.pricing = some ((ppt : Int), (ppr : Int))
  documented : around.viem.Documented around.crypto
  readsBack : around.engine.ReadsBack
  /-- the hash does not collide on the two readings of a hexadecimal literal -/
  collisionFree : isHex delivered = true → ∀ literal bytes, hexToBytes delivered = some literal →
    utf8 delivered = some bytes →
    s.crypto.keccak256 literal = s.crypto.keccak256 bytes → literal = bytes

end Miner

end BasedAI
