import BasedAI.Miner.Handlers
import BasedAI.Client.SignedReceipts

/-!
# BasedAI — the final receipt on its way back and forth

An honest miner proposes a final receipt, the client counter-signs it, and the miner
reads it back from the settle request. This module has what an answer of an honest miner
says, and the exchange with the Python client, in which the receipt always survives: the
integers of both sides are JSON integers.

* `Answers.served`       — what is behind a reply with a final receipt;
* `counterSign_proposed` — the proposal passes every check of the client;
* `python_settles`       — so the client signs it and the miner reads it back.
-/

namespace BasedAI

open Fallible Python ByteWords

namespace Miner

variable {config : MinerConfig} {s : Services} {payload : Bytes} {pending : Pending}

/-! ## Reading a receipt -/

/-- The JSON value `data` reads as the receipt `r`. -/
structure Reads (s : Services) (data : Json) (r : Receipt) : Prop where
  user : ∃ v, data.subscript "user" = .ok v ∧ toChecksumAddress s.crypto v = .ok r.user
  miner : ∃ v, data.subscript "miner" = .ok v ∧ toChecksumAddress s.crypto v = .ok r.miner
  brainId : ∃ v, data.subscript "brain_id" = .ok v ∧ v.toInt s.unicode = .ok r.brainId
  promptHash : data.subscript "prompt_hash" = .ok r.promptHash
  responseHash : data.subscript "response_hash" = .ok r.responseHash
  amount : ∃ v, data.subscript "amount" = .ok v ∧ v.toInt s.unicode = .ok r.amount
  expiry : ∃ v, data.subscript "expiry" = .ok v ∧ v.toInt s.unicode = .ok r.expiry
  nonce : ∃ v, data.subscript "nonce" = .ok v ∧ v.toInt s.unicode = .ok r.nonce

theorem receiptOf_ok {data : Json} {r : Receipt} :
    receiptOf s data = .ok r ↔ Reads s data r := by
  unfold receiptOf
  simp only [bind_ok, return_ok]
  constructor
  · rintro ⟨userV, huserV, user, huser, minerV, hminerV, miner, hminer, brainV, hbrainV, brainId,
      hbrain, promptHash, hprompt, responseHash, hresponse, amountV, hamountV, amount, hamount,
      expiryV, hexpiryV, expiry, hexpiry, nonceV, hnonceV, nonce, hnonce, rfl⟩
    exact ⟨⟨userV, huserV, huser⟩, ⟨minerV, hminerV, hminer⟩, ⟨brainV, hbrainV, hbrain⟩,
      hprompt, hresponse, ⟨amountV, hamountV, hamount⟩, ⟨expiryV, hexpiryV, hexpiry⟩,
      ⟨nonceV, hnonceV, hnonce⟩⟩
  · rintro ⟨⟨userV, huserV, huser⟩, ⟨minerV, hminerV, hminer⟩, ⟨brainV, hbrainV, hbrain⟩,
      hprompt, hresponse, ⟨amountV, hamountV, hamount⟩, ⟨expiryV, hexpiryV, hexpiry⟩,
      ⟨nonceV, hnonceV, hnonce⟩⟩
    exact ⟨userV, huserV, r.user, huser, minerV, hminerV, r.miner, hminer, brainV, hbrainV,
      r.brainId, hbrain, r.promptHash, hprompt, r.responseHash, hresponse, amountV, hamountV,
      r.amount, hamount, expiryV, hexpiryV, r.expiry, hexpiry, nonceV, hnonceV, r.nonce, hnonce,
      rfl⟩

theorem toChecksumAddress_text {crypto : Crypto} {t : Text} {a : Address}
    (h : hexAddress t = some a) :
    toChecksumAddress crypto (.str t) = .ok (toChecksum crypto a) := by
  rw [toChecksumAddress, h]
  rfl

/-- A checksummed address is read as itself. -/
theorem toChecksumAddress_toChecksum (crypto : Crypto) (a : Address) :
    toChecksumAddress crypto (.str (toChecksum crypto a)) = .ok (toChecksum crypto a) :=
  toChecksumAddress_text (hexAddress_toChecksum crypto a)

/-- **The miner reads back what it writes.** -/
theorem receiptOf_receiptJson {r : Receipt} {user miner : Address}
    (huser : r.user = toChecksum s.crypto user) (hminer : r.miner = toChecksum s.crypto miner) :
    receiptOf s (receiptJson r) = .ok r := by
  rw [receiptOf_ok]
  exact {
    user := ⟨.str r.user, rfl, huser ▸ toChecksumAddress_toChecksum s.crypto user⟩
    miner := ⟨.str r.miner, rfl, hminer ▸ toChecksumAddress_toChecksum s.crypto miner⟩
    brainId := ⟨.int r.brainId, rfl, rfl⟩
    promptHash := rfl
    responseHash := rfl
    amount := ⟨.int r.amount, rfl, rfl⟩
    expiry := ⟨.int r.expiry, rfl, rfl⟩
    nonce := ⟨.int r.nonce, rfl, rfl⟩ }

/-! ## What an honest miner answers -/

/-- The miner answers the request `body` with `reply`, and proposes `final` in it. -/
structure Answers (config : MinerConfig) (s : Services) (payload : Bytes) (pending : Pending)
    (body reply final : Json) : Prop where
  received : s.loads payload = .ok body
  answered : (handleInfer config s payload pending).1 = reply
  accepted : reply.subscript "final_receipt" = .ok final
  /-- balances are 256-bit words -/
  balances_lt : ∀ a b, s.balances a = some b → b < 2 ^ 256

/-- What an answer says about the request. -/
theorem Answers.served {body reply final : Json}
    (h : Answers config s payload pending body reply final) :
    ∃ (job : Job) (response : InferenceResponse) (charge : Int) (ppt ppr : Nat)
      (promptBytes textBytes : Bytes),
      Admitted config s body job ∧ generate s job.prompt = .ok response ∧
      inferReply config s job response = .ok reply ∧
      chargeOf s job response = .ok charge ∧
      final = receiptJson (finalReceipt job response charge) ∧
      s.pricePerByte = some ppt ∧ s.pricePerRequest = some ppr ∧ ¬ (ppt = 0 ∧ ppr = 0) ∧
      utf8 job.prompt = some promptBytes ∧ utf8 response.text = some textBytes ∧
      response.promptHash = hexText (s.crypto.keccak256 promptBytes) ∧
      response.responseHash = hexText (s.crypto.keccak256 textBytes) ∧
      charge = min ((ppr + ppt * (promptBytes.length + textBytes.length) : Nat) : Int)
        job.budget ∧ job.budget < 2 ^ 256 := by
  have haccepted := h.accepted
  rw [← h.answered] at haccepted
  obtain ⟨job, response, charge, hchecked, hgenerate, hcharge, hreply, hfinal⟩ :=
    handleInfer_served haccepted
  obtain ⟨-, reqData, hloads, hadmitted⟩ := admitInfer_ok.mp hchecked
  rw [h.received, Except.ok.injEq] at hloads
  obtain ⟨promptBytes, textBytes, hprompt, htext, hpromptHash, hresponseHash⟩ :=
    generate_ok hgenerate
  obtain ⟨ppt, ppr, promptBytes', textBytes', hppt, hppr, hpriced, hprompt', htext', hmin⟩ :=
    chargeOf_ok hcharge
  rw [hprompt, Option.some.injEq] at hprompt'
  rw [htext, Option.some.injEq] at htext'
  obtain ⟨b, hb, hle⟩ := hadmitted.eligible.balance
  -- the budget is covered by a balance
  have hbudget : job.budget < 2 ^ 256 := by
    unfold readBalance at hb
    rw [Option.bind_eq_bind, Option.bind_eq_some_iff] at hb
    obtain ⟨user, -, hread⟩ := hb
    have hword : b < 2 ^ 256 := h.balances_lt user b hread
    omega
  rw [h.answered] at hreply
  rw [← hprompt', ← htext'] at hmin
  exact ⟨job, response, charge, ppt, ppr, promptBytes, textBytes, hloads ▸ hadmitted, hgenerate,
    hreply, hcharge, hfinal, hppt, hppr, hpriced, hprompt, htext, hpromptHash, hresponseHash,
    hmin, hbudget⟩

/-! ## With the Python client -/

section Python

variable {client : BasedClient.Client} {around : BasedClient.Surroundings}
  {req : BasedClient.InferenceRequest} {account : Account}

/-- The miner's receipt as the Python client reads it. -/
def asPython (r : Receipt) : BasedClient.Receipt :=
  ⟨.str r.user, .str r.miner, r.brainId, r.promptHash, r.responseHash, r.amount, r.expiry,
    r.nonce⟩

theorem parse_receiptJson (r : Receipt) :
    BasedClient.parseFinalReceipt around (receiptJson r) = .ok (asPython r) := rfl

/-- What the pre-authorisation of a call is, and that it was signed. -/
theorem preauthorise_receipt {preauth : BasedClient.SignedReceipt}
    (h : BasedClient.preauthorise client around req account = .ok preauth) :
    ∃ miner promptHash sentinel,
      keccakText around.crypto (.str req.prompt) = .ok promptHash ∧
      preauth.receipt = {
        user := .str (toChecksum around.crypto account.address)
        miner := miner
        brainId := req.brainId
        promptHash := .str (hexText promptHash)
        responseHash := .str (hexText sentinel)
        amount := BasedClient.reservation req
        expiry := BasedClient.expiry around req
        nonce := around.randbits.val } ∧
      BasedClient.signReceipt client around account preauth.receipt = .ok preauth := by
  unfold BasedClient.preauthorise at h
  simp only [bind_ok] at h
  obtain ⟨_, -, promptHash, hprompt, sentinel, -, miner, -, hsign⟩ := h
  have hreceipt := (BasedClient.signReceipt_ok hsign).1
  refine ⟨miner, promptHash, sentinel, hprompt, hreceipt, ?_⟩
  -- what was signed is that very receipt
  rw [hreceipt]
  exact hsign

/-- A receipt that differs from a signed one in its amount, its response hash and the
spelling of its addresses can be signed as well. -/
theorem signReceipt_again {r r' : BasedClient.Receipt} {signed : BasedClient.SignedReceipt}
    (h : BasedClient.signReceipt client around account r = .ok signed) {user miner : Address}
    {response : Bytes32} {amount : Nat}
    (huser : r'.user = .str (toChecksum around.crypto user))
    (hminer : r'.miner = .str (toChecksum around.crypto miner))
    (hbrain : r'.brainId = r.brainId) (hprompt : r'.promptHash = r.promptHash)
    (hresponse : r'.responseHash = .str (hexText response)) (hamount : r'.amount = amount)
    (hlt : amount < 2 ^ 256) (hexpiry : r'.expiry = r.expiry) (hnonce : r'.nonce = r.nonce) :
    ∃ signed', BasedClient.signReceipt client around account r' = .ok signed' ∧
      signed'.receipt = r' := by
  unfold BasedClient.signReceipt at h ⊢
  simp only [bind_ok, return_ok] at h ⊢
  obtain ⟨promptBytes, hpromptBytes, _, -, market, hmarket, chainId, hchain, _, -, _, -,
    brainId, hbrainId, promptHash, hpromptHash, _, -, _, -, expiry, hexpiry', nonce, hnonce', -⟩ :=
    h
  -- the fields that stay are encoded as before, the others are written by the program
  rw [hprompt, hresponse, huser, hminer, hbrain, hamount, hexpiry, hnonce]
  exact ⟨_, ⟨promptBytes, hpromptBytes, _, BasedClient.hashBytes_hexText response, market, hmarket,
    chainId, hchain, user, encodeAddress_toChecksum _ _, miner, encodeAddress_toChecksum _ _,
    brainId, hbrainId, promptHash, hpromptHash, response, encodeBytes32_wordBytes response, _,
    encodeUint_eq hlt, expiry, hexpiry', nonce, hnonce', rfl⟩, rfl⟩

/-- The client counter-signs what the miner proposed, and the miner reads the same
receipt in the settle request. -/
def PythonSettles (client : BasedClient.Client) (around : BasedClient.Surroundings)
    (req : BasedClient.InferenceRequest) (s : Services)
    (preauth : BasedClient.SignedReceipt) (final : Json) : Prop :=
  ∃ proposed signed, final = receiptJson proposed ∧
    (BasedClient.infer client around req).signed = [preauth, signed] ∧
    .settle req.brainId (BasedClient.settleBody signed) ∈
      (BasedClient.infer client around req).sent ∧
    ∀ later : Services, later.crypto = s.crypto → ∃ data,
      (BasedClient.settleBody signed).subscript "receipt" = .ok data ∧
      receiptOf later data = .ok proposed

/-- The job an honest miner makes of the client's request. -/
theorem Admitted.python {preauth : BasedClient.SignedReceipt} {job : Job}
    (h : Admitted config s (BasedClient.inferBody req preauth) job)
    (hpre : BasedClient.preauthorise client around req account = .ok preauth)
    (hcrypto : around.crypto = s.crypto) :
    ∃ t a promptHash sentinel, preauth.receipt.miner = .str t ∧ hexAddress t = some a ∧
      job.prompt = req.prompt ∧ job.budget = req.budget ∧
      keccakText s.crypto (.str req.prompt) = .ok promptHash ∧
      preauth.receipt.promptHash = .str (hexText promptHash) ∧
      job.receipt = {
        user := toChecksum s.crypto account.address
        miner := toChecksum s.crypto a
        brainId := preauth.receipt.brainId
        promptHash := preauth.receipt.promptHash
        responseHash := .str (hexText sentinel)
        amount := BasedClient.reservation req
        expiry := preauth.receipt.expiry
        nonce := preauth.receipt.nonce } := by
  obtain ⟨minerV, promptHash, sentinel, hprompt, hpreauth, hsigned⟩ := preauthorise_receipt hpre
  obtain ⟨-, hencodes⟩ := BasedClient.signReceipt_ok hsigned
  obtain ⟨t, ht, ha⟩ := hencodes.miner
  obtain ⟨data, hdata, hreceipt⟩ := h.receipt
  -- the values in the request are those of the pre-authorisation
  have hdata' : data = BasedClient.serializeReceipt preauth.receipt := (Except.ok.inj hdata).symm
  rw [hdata', receiptOf_ok] at hreceipt
  obtain ⟨⟨_, hv, huser⟩, ⟨_, hv', hminer⟩, ⟨_, hv'', hbrain⟩, hpromptHash, hresponse,
    ⟨_, hv₁, hamount⟩, ⟨_, hv₂, hexpiry⟩, ⟨_, hv₃, hnonce⟩⟩ := hreceipt
  obtain rfl := Except.ok.inj hv
  obtain rfl := Except.ok.inj hv'
  obtain rfl := Except.ok.inj hv''
  obtain rfl := Except.ok.inj hv₁
  obtain rfl := Except.ok.inj hv₂
  obtain rfl := Except.ok.inj hv₃
  have husers : preauth.receipt.user = .str (toChecksum s.crypto account.address) := by
    rw [hpreauth, hcrypto]
  have hresponses : preauth.receipt.responseHash = .str (hexText sentinel) := by
    rw [hpreauth]
  have hamounts : preauth.receipt.amount = BasedClient.reservation req := by
    rw [hpreauth]
  rw [husers, toChecksumAddress_toChecksum, Except.ok.injEq] at huser
  rw [ht, toChecksumAddress_text ha, Except.ok.injEq] at hminer
  have hjob : job.receipt = {
      user := toChecksum s.crypto account.address
      miner := toChecksum s.crypto preauth.encoded.miner
      brainId := preauth.receipt.brainId
      promptHash := preauth.receipt.promptHash
      responseHash := .str (hexText sentinel)
      amount := BasedClient.reservation req
      expiry := preauth.receipt.expiry
      nonce := preauth.receipt.nonce } := by
    rw [huser, hminer, Except.ok.inj hbrain, Except.ok.inj hpromptHash, ← hresponses,
      Except.ok.inj hresponse, ← hamounts, Except.ok.inj hamount, Except.ok.inj hexpiry,
      Except.ok.inj hnonce]
  refine ⟨t, preauth.encoded.miner, promptHash, sentinel, ht, ha, ?_, ?_, hcrypto ▸ hprompt, ?_,
    hjob⟩
  · exact Json.str.inj (Except.ok.inj h.prompt.symm)
  · obtain ⟨value, asked, hget, hasked, hbudget⟩ := h.budget
    obtain rfl := Except.ok.inj hget
    obtain rfl := Except.ok.inj hasked
    rw [hbudget, hjob]
    exact max_eq_left (BasedClient.reservation_le_budget req)
  · rw [hpreauth]

/-- An honest miner's proposal passes every check of the client. -/
theorem counterSign_proposed {preauth : BasedClient.SignedReceipt} {data : Json}
    {job : Job} {response : InferenceResponse} {ppt ppr charge : Nat}
    {promptBytes textBytes : Bytes} {user miner : Address} {hash responseHash : Bytes32}
    (hsigned : BasedClient.signReceipt client around account preauth.receipt = .ok preauth)
    (huser : preauth.receipt.user = .str (toChecksum around.crypto user))
    (hminer : BasedClient.SameText around.unicode (.str (toChecksum around.crypto miner))
      preauth.receipt.miner)
    (hhash : preauth.receipt.promptHash = .str (hexText hash))
    (hjobUser : job.receipt.user = toChecksum around.crypto user)
    (hjobMiner : job.receipt.miner = toChecksum around.crypto miner)
    (hjobBrain : job.receipt.brainId = preauth.receipt.brainId)
    (hjobHash : job.receipt.promptHash = preauth.receipt.promptHash)
    (hjobExpiry : job.receipt.expiry = preauth.receipt.expiry)
    (hjobNonce : job.receipt.nonce = preauth.receipt.nonce)
    (hresponse : response.responseHash = hexText responseHash)
    (hpricing : around.pricing = some ((ppt : Int), (ppr : Int)))
    (hpriced : ¬ (ppt = 0 ∧ ppr = 0)) (hprompt : utf8 req.prompt = some promptBytes)
    (hdata : data.subscript "text" = .ok (.str response.text))
    (htext : utf8 response.text = some textBytes)
    (hcharge : (charge : Int) =
      min ((ppr + ppt * (promptBytes.length + textBytes.length) : Nat) : Int) req.budget)
    (hlt : charge < 2 ^ 256) :
    ∃ signed, BasedClient.counterSign client around req account preauth.receipt data
        (hexText responseHash) (receiptJson (finalReceipt job response charge)) = .ok signed ∧
      signed.receipt = asPython (finalReceipt job response charge) := by
  obtain ⟨signed, hagain, hreceipt⟩ := @signReceipt_again client around account _
    (asPython (finalReceipt job response charge)) _ hsigned user miner responseHash charge
    (congrArg Json.str hjobUser) (congrArg Json.str hjobMiner) hjobBrain hjobHash
    (congrArg Json.str hresponse) rfl hlt hjobExpiry hjobNonce
  refine ⟨signed, ?_, hreceipt⟩
  have hidentity : BasedClient.assertFinalReceiptIdentity around preauth.receipt
      (asPython (finalReceipt job response charge)) = .ok () := by
    rw [BasedClient.assertFinalReceiptIdentity_ok]
    refine ⟨⟨_, _, congrArg Json.str hjobUser, huser, rfl⟩, ?_, hjobBrain,
      ⟨_, _, hjobHash.trans hhash, hhash, rfl⟩, hjobExpiry, hjobNonce⟩
    obtain ⟨x, y, hx, hy, hlower⟩ := hminer
    exact ⟨x, y, (congrArg Json.str hjobMiner).trans hx, hy, hlower⟩
  have hreading : BasedClient.readPricing around = ((ppt : Int), (ppr : Int)) := by
    rw [BasedClient.readPricing, hpricing, Option.getD_some]
  have hexpected : (charge : Int) =
      BasedClient.expectedCharge around req promptBytes.length textBytes.length := by
    rw [hcharge, BasedClient.expectedCharge, hreading]
    push_cast
    rfl
  unfold BasedClient.counterSign
  simp only [bind_ok, revertIf_ok, not_not, not_lt, Json.toLower_ok]
  -- the checks in the order of the source
  refine ⟨_, parse_receiptJson _, (), hidentity, (), ?_, (), ?_, promptBytes,
    orRevert_ok.mpr hprompt, _, hdata, textBytes, orRevert_ok.mpr htext, (), hexpected,
    _, ⟨_, congrArg Json.str hresponse, rfl⟩, (), rfl, hagain⟩
  · show (charge : Int) ≤ req.budget
    rw [hcharge]
    exact min_le_right _ _
  · rw [hreading]
    dsimp only
    omega

/-- **An honest miner settles with the Python client.** -/
theorem python_settles {preauth : BasedClient.SignedReceipt} {reply final : Json}
    (haccount : client.account = some account)
    (hpre : BasedClient.preauthorise client around req account = .ok preauth)
    (hanswers : Answers config s payload pending (BasedClient.inferBody req preauth) reply final)
    (hreply : around.inference = .response 200 (some reply))
    (hcrypto : around.crypto = s.crypto)
    (hprices : ∀ b r, s.pricePerByte = some b → s.pricePerRequest = some r →
      around.pricing = some ((b : Int), (r : Int)))
    (hlisted : ∃ t, preauth.receipt.miner = .str (text "0x" ++ t)) :
    PythonSettles client around req s preauth final := by
  obtain ⟨job, response, charge, ppt, ppr, promptBytes, textBytes, hadmitted, -, hserved,
    hchargeOf, hfinal, hppt, hppr, hpriced, hprompt, htext, -, hresponseHash, hcharge, hbudget⟩ :=
    hanswers.served
  obtain ⟨t, a, hash, sentinel, ht, ha, hjobPrompt, hjobBudget, -, hhash, hjob⟩ :=
    hadmitted.python hpre hcrypto
  obtain ⟨hisPre, hencodes⟩ := BasedClient.preauthorise_ok hpre
  obtain ⟨_, _, _, -, -, hsigned⟩ := preauthorise_receipt hpre
  rw [hjobPrompt] at hprompt
  rw [hjobBudget] at hcharge hbudget
  -- the charge is a word: the budget is at least the pre-authorised amount
  obtain ⟨c, rfl⟩ : ∃ c : Nat, charge = c := by
    have hreserved : (preauth.encoded.amount.val : Int) ≤ req.budget := by
      rw [hencodes.amount, hisPre.amount]
      exact BasedClient.reservation_le_budget req
    exact ⟨charge.toNat, by omega⟩
  have hlt : c < 2 ^ 256 := by omega
  have hminer : BasedClient.SameText around.unicode (.str (toChecksum around.crypto a))
      preauth.receipt.miner := by
    obtain ⟨t', ht'⟩ := hlisted
    rw [ht, Json.str.injEq] at ht'
    rw [ht'] at ha
    exact ⟨_, _, rfl, ht.trans (congrArg Json.str ht'), lower_toChecksum ha⟩
  obtain ⟨_, signature, hcharge', hreplyEq⟩ := inferReply_ok hserved
  rw [hchargeOf, Except.ok.injEq] at hcharge'
  rw [← hcharge'] at hreplyEq
  have hdata : reply.subscript "text" = .ok (.str response.text) := by
    rw [hreplyEq]
    rfl
  obtain ⟨signed, hcounter, hreceipt⟩ := @counterSign_proposed client around req account preauth
    reply job response ppt ppr c promptBytes textBytes account.address a hash
    (s.crypto.keccak256 textBytes) hsigned hisPre.user hminer hhash (by rw [hjob, hcrypto])
    (by rw [hjob, hcrypto]) (by rw [hjob]) (by rw [hjob]) (by rw [hjob]) (by rw [hjob])
    hresponseHash (hprices _ _ hppt hppr) hpriced hprompt hdata htext hcharge hlt
  have hreceive : BasedClient.receiveReply client around req account preauth.receipt =
      .ok (reply, some signed) := by
    have hkeccak : keccakText around.crypto (.str response.text) =
        .ok (s.crypto.keccak256 textBytes) := by
      simp only [keccakText, bind_ok, orRevert_ok, return_ok]
      exact ⟨textBytes, htext, by rw [hcrypto]⟩
    unfold BasedClient.receiveReply
    rw [hreply]
    simp only [bind_ok, BasedClient.HttpReply.jsonOrRaise, revertIf_ok, orRevert_ok, not_not]
    refine ⟨reply, ⟨(), by decide, rfl⟩, false, by rw [hreplyEq]; rfl, ?_⟩
    simp only [Bool.false_eq_true, if_false, bind_ok, revertIf_ok, not_not, Json.toLower_ok]
    refine ⟨_, hdata, _, hkeccak, _, by rw [hreplyEq]; rfl, _, ⟨_, rfl, rfl⟩, (), ?_, final, ?_, ?_⟩
    · rw [hresponseHash]
    · rw [hreplyEq, hfinal]
      rfl
    · have htruthy : (receiptJson (finalReceipt job response c)).truthy = true := rfl
      rw [hfinal, if_pos htruthy]
      simp only [bind_ok, return_ok]
      exact ⟨signed, hcounter, rfl⟩
  have hinfer : BasedClient.infer client around req = ⟨[preauth, signed],
      [.infer req.brainId (BasedClient.inferBody req preauth),
        .settle req.brainId (BasedClient.settleBody signed)],
      BasedClient.buildResponse preauth.receipt reply signed.receipt.amount⟩ := by
    unfold BasedClient.infer
    simp only [haccount, hpre, hreceive]
  refine ⟨finalReceipt job response c, signed, hfinal, by rw [hinfer], ?_, ?_⟩
  · rw [hinfer]
    exact List.mem_cons_of_mem _ (List.mem_singleton.mpr rfl)
  · intro later hlater
    refine ⟨BasedClient.serializeReceipt signed.receipt, rfl, ?_⟩
    rw [hreceipt]
    exact receiptOf_receiptJson (hlater.symm ▸ congrArg Receipt.user hjob)
      (hlater.symm ▸ congrArg Receipt.miner hjob)

end Python

end Miner

end BasedAI
