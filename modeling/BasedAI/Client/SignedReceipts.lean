import BasedAI.Client.BasedClient

/-!
# BasedAI — what the client signs

Inversion of the client: what a signature says about the texts it was given, and
what has been checked by the time each of the two receipts of a call is signed.
A call signs nothing, the pre-authorisation, or the pre-authorisation and one
final receipt.

* `signReceipt_ok`  — the signed values are the ones the texts and integers denote;
* `preauthorise_ok`, `counterSign_ok` — the two receipts;
* `infer_signed`    — a call signs no other;
* `infer_charged`   — a call that signed both and returned.
-/

namespace BasedAI

open Fallible Python

namespace BasedClient

variable {client : Client} {around : Surroundings} {req : InferenceRequest}
  {account : Account}

/-- The values `e` are what the unchecked receipt `r` denotes. -/
structure Encodes (r : Receipt) (e : BasedAI.Receipt) : Prop where
  user : ∃ t, r.user = .str t ∧ hexAddress t = some e.user
  miner : ∃ t, r.miner = .str t ∧ hexAddress t = some e.miner
  brainId : (e.brainId.val : Int) = r.brainId
  promptHash : ∃ bytes, hashBytes r.promptHash = .ok bytes ∧
    encodeBytes32 bytes = .ok e.promptHash
  responseHash : ∃ bytes, hashBytes r.responseHash = .ok bytes ∧
    encodeBytes32 bytes = .ok e.responseHash
  amount : (e.amount.val : Int) = r.amount
  expiry : (e.expiry.val : Int) = r.expiry
  nonce : (e.nonce.val : Int) = r.nonce

theorem signReceipt_ok {r : Receipt} {s : SignedReceipt}
    (h : signReceipt client around account r = .ok s) :
    s.receipt = r ∧ Encodes r s.encoded := by
  unfold signReceipt at h
  simp only [bind_ok, return_ok] at h
  obtain ⟨promptBytes, hpromptBytes, responseBytes, hresponseBytes, market, -, chainId, -,
    user, huser, miner, hminer, brainId, hbrainId, promptHash, hpromptHash, responseHash,
    hresponseHash, amount, hamount, expiry, hexpiry, nonce, hnonce, rfl⟩ := h
  refine ⟨rfl, ?_⟩
  -- the market and the chain id are the client's own and no field of the receipt
  exact {
    user := encodeAddress_ok huser
    miner := encodeAddress_ok hminer
    brainId := encodeUint_ok hbrainId
    promptHash := ⟨promptBytes, hpromptBytes, hpromptHash⟩
    responseHash := ⟨responseBytes, hresponseBytes, hresponseHash⟩
    amount := encodeUint_ok hamount
    expiry := encodeUint_ok hexpiry
    nonce := encodeUint_ok hnonce }

/-- A hash written as a text is encoded as itself. -/
theorem encodes_hexText {bytes : Bytes} {w v : Bytes32}
    (hbytes : hashBytes (.str (hexText w)) = .ok bytes) (hv : encodeBytes32 bytes = .ok v) :
    v = w := by
  rw [hashBytes_hexText, Except.ok.injEq] at hbytes
  rw [← hbytes, encodeBytes32_wordBytes] at hv
  exact (Except.ok.inj hv).symm

/-! ## The pre-authorisation -/

/-- What every pre-authorisation of a call says, whichever miner it is for. -/
structure IsPreauth (around : Surroundings) (req : InferenceRequest) (account : Account)
    (r : Receipt) : Prop where
  user : r.user = .str (toChecksum around.crypto account.address)
  brainId : r.brainId = req.brainId
  amount : r.amount = reservation req
  expiry : r.expiry = expiry around req
  nonce : r.nonce = around.randbits.val

theorem preauthorise_ok {s : SignedReceipt}
    (h : preauthorise client around req account = .ok s) :
    IsPreauth around req account s.receipt ∧ Encodes s.receipt s.encoded := by
  unfold preauthorise at h
  simp only [bind_ok] at h
  obtain ⟨miner, -, promptHash, -, sentinel, -, minerAddress, -, hsign⟩ := h
  obtain ⟨hreceipt, hencodes⟩ := signReceipt_ok hsign
  rw [hreceipt]
  exact ⟨⟨rfl, rfl, rfl, rfl, rfl⟩, hencodes⟩

/-- The response hash of a pre-authorisation is the sentinel. -/
theorem preauthorise_sentinel {s : SignedReceipt}
    (h : preauthorise client around req account = .ok s) :
    s.encoded.responseHash = around.crypto.keccak256
      (wordBytes s.encoded.promptHash ++ wordBytes s.encoded.nonce) := by
  unfold preauthorise at h
  simp only [bind_ok] at h
  obtain ⟨miner, -, promptHash, -, sentinel, hsentinel, minerAddress, -, hsign⟩ := h
  obtain ⟨-, hencodes⟩ := signReceipt_ok hsign
  have hnonce : s.encoded.nonce = ⟨around.randbits.val, by omega⟩ := by
    apply Fin.ext
    have hval : (s.encoded.nonce.val : Int) = around.randbits.val := hencodes.nonce
    exact_mod_cast hval
  obtain ⟨_, hbytes, hword⟩ := hencodes.promptHash
  have hprompt : s.encoded.promptHash = promptHash := encodes_hexText hbytes hword
  obtain ⟨_, hbytes, hword⟩ := hencodes.responseHash
  have hresponse : s.encoded.responseHash = sentinel := encodes_hexText hbytes hword
  -- the digits that were hashed are those of the two words
  rw [hexText_drop, ← hexlify_append, keccakHexstr_hexlify] at hsentinel
  rw [hresponse, hprompt, hnonce]
  exact (Except.ok.inj hsentinel).symm

theorem reservation_le_budget (req : InferenceRequest) : reservation req ≤ req.budget := by
  have hcap : ∀ wanted : Int, (if req.budget < wanted then req.budget else wanted) ≤
      req.budget := by
    intro wanted
    split_ifs with hover
    · exact le_refl _
    · exact not_lt.mp hover
  exact hcap _

/-! ## The final receipt -/

/-- Two values are the same text up to case. -/
def SameText (u : Unicode) (v w : Json) : Prop :=
  ∃ s t, v = .str s ∧ w = .str t ∧ lower u s = lower u t

theorem assertFinalReceiptIdentity_ok {preauth final : Receipt} {u : Unit} :
    assertFinalReceiptIdentity around preauth final = .ok u ↔
      SameText around.unicode final.user preauth.user ∧
      SameText around.unicode final.miner preauth.miner ∧
      final.brainId = preauth.brainId ∧
      SameText around.unicode final.promptHash preauth.promptHash ∧
      final.expiry = preauth.expiry ∧ final.nonce = preauth.nonce := by
  unfold assertFinalReceiptIdentity
  simp only [bind_ok, Json.toLower_ok, revertIf_ok, not_not]
  constructor
  · rintro ⟨_, ⟨finalUser, hfu, rfl⟩, _, ⟨preauthUser, hpu, rfl⟩, -, huser,
      _, ⟨finalMiner, hfm, rfl⟩, _, ⟨preauthMiner, hpm, rfl⟩, -, hminer, -, hbrain,
      _, ⟨finalHash, hfh, rfl⟩, _, ⟨preauthHash, hph, rfl⟩, -, hhash, -, hexpiry, hnonce⟩
    exact ⟨⟨finalUser, preauthUser, hfu, hpu, huser⟩,
      ⟨finalMiner, preauthMiner, hfm, hpm, hminer⟩, hbrain,
      ⟨finalHash, preauthHash, hfh, hph, hhash⟩, hexpiry, hnonce⟩
  · rintro ⟨⟨finalUser, preauthUser, hfu, hpu, huser⟩,
      ⟨finalMiner, preauthMiner, hfm, hpm, hminer⟩, hbrain,
      ⟨finalHash, preauthHash, hfh, hph, hhash⟩, hexpiry, hnonce⟩
    exact ⟨_, ⟨finalUser, hfu, rfl⟩, _, ⟨preauthUser, hpu, rfl⟩, (), huser,
      _, ⟨finalMiner, hfm, rfl⟩, _, ⟨preauthMiner, hpm, rfl⟩, (), hminer, (), hbrain,
      _, ⟨finalHash, hfh, rfl⟩, _, ⟨preauthHash, hph, rfl⟩, (), hhash, (), hexpiry, hnonce⟩

/-- What has been checked when a final receipt is signed. -/
structure IsFinal (around : Surroundings) (req : InferenceRequest) (preauth : Receipt)
    (data : Json) (expectedHash : Text) (r : Receipt) : Prop where
  identity : assertFinalReceiptIdentity around preauth r = .ok ()
  withinBudget : r.amount ≤ req.budget
  priced : ¬ ((readPricing around).1 ≤ 0 ∧ (readPricing around).2 ≤ 0)
  metered : ∃ promptBytes textValue textBytes,
    Json.encodeUtf8 (.str req.prompt) = .ok promptBytes ∧
    data.subscript "text" = .ok textValue ∧ textValue.encodeUtf8 = .ok textBytes ∧
    r.amount = expectedCharge around req promptBytes.length textBytes.length
  delivered : ∃ t, r.responseHash = .str t ∧
    lower around.unicode t = lower around.unicode expectedHash

theorem counterSign_ok {preauth : Receipt} {data : Json} {expectedHash : Text} {final : Json}
    {s : SignedReceipt}
    (h : counterSign client around req account preauth data expectedHash final = .ok s) :
    IsFinal around req preauth data expectedHash s.receipt ∧ Encodes s.receipt s.encoded := by
  unfold counterSign at h
  simp only [bind_ok, Json.toLower_ok, revertIf_ok, not_not, not_lt] at h
  obtain ⟨r, -, _, hidentity, -, hbudget, -, hpriced, promptBytes, hprompt, textValue, htext,
    textBytes, hbytes, -, hamount, _, ⟨t, hresponse, rfl⟩, -, hdelivered, hsign⟩ := h
  obtain ⟨hreceipt, hencodes⟩ := signReceipt_ok hsign
  rw [hreceipt]
  refine ⟨?_, hencodes⟩
  exact {
    identity := hidentity
    withinBudget := hbudget
    priced := hpriced
    metered := ⟨promptBytes, textValue, textBytes, hprompt, htext, hbytes, hamount⟩
    delivered := ⟨t, hresponse, hdelivered⟩ }

theorem receiveReply_final {preauth : Receipt} {data : Json} {s : SignedReceipt}
    (h : receiveReply client around req account preauth = .ok (data, some s)) :
    ∃ expectedHash,
      IsFinal around req preauth data expectedHash s.receipt ∧
        Encodes s.receipt s.encoded := by
  unfold receiveReply at h
  simp only [bind_ok] at h
  obtain ⟨reply, -, failed, -, h⟩ := h
  split at h
  · simp only [bind_ok] at h
    -- the gateway reported a failure: the call raises
    obtain ⟨_, -, h⟩ := h
    cases h
  · simp only [bind_ok] at h
    obtain ⟨textValue, -, hash, -, responseValue, -, responseHash, -, -, -, final, -, h⟩ := h
    split at h
    · simp only [bind_ok, return_ok, Prod.mk.injEq, Option.some.injEq] at h
      obtain ⟨s', hs', rfl, rfl⟩ := h
      exact ⟨_, counterSign_ok hs'⟩
    · -- without a final receipt nothing is signed
      simp [return_ok] at h

/-! ## A whole call -/

/-- The receipts a call signed. -/
def InferRun.receipts (run : InferRun) : List BasedAI.Receipt := run.signed.map (·.encoded)

/-- **Nothing else is signed.** A receipt signed in a call is the pre-authorisation,
or a final receipt checked against it. -/
theorem infer_signed {s : SignedReceipt} (h : s ∈ (infer client around req).signed) :
    ∃ account preauth, client.account = some account ∧
      IsPreauth around req account preauth.receipt ∧
      Encodes preauth.receipt preauth.encoded ∧
      (s = preauth ∨ ∃ data expectedHash,
        IsFinal around req preauth.receipt data expectedHash s.receipt ∧
          Encodes s.receipt s.encoded) := by
  unfold infer at h
  split at h
  · simp at h
  · rename_i account haccount
    refine ⟨account, ?_⟩
    split at h
    · simp at h
    · rename_i preauth hpreauth
      obtain ⟨hpre, hencodes⟩ := preauthorise_ok hpreauth
      refine ⟨preauth, haccount, hpre, hencodes, ?_⟩
      dsimp only at h
      split at h
      · -- the reply was refused
        exact .inl (List.mem_singleton.mp h)
      · -- no final receipt
        exact .inl (List.mem_singleton.mp h)
      · rename_i data final hreply
        rcases List.mem_cons.mp h with rfl | hfinal
        · exact .inl rfl
        · obtain rfl := List.mem_singleton.mp hfinal
          obtain ⟨expectedHash, hchecked⟩ := receiveReply_final hreply
          exact .inr ⟨data, expectedHash, hchecked⟩

theorem infer_encodes {s : SignedReceipt} (h : s ∈ (infer client around req).signed) :
    Encodes s.receipt s.encoded := by
  obtain ⟨_, preauth, -, -, hencodes, hs⟩ := infer_signed h
  rcases hs with rfl | ⟨_, _, -, hfinal⟩
  · exact hencodes
  · exact hfinal

/-- A call that signed two receipts went all the way: the second one is the final
receipt of the reply, and the response quotes its amount. -/
theorem infer_charged {p f : BasedAI.Receipt} {response : InferenceResponse}
    (hsigned : (infer client around req).receipts = [p, f])
    (hreturned : (infer client around req).outcome = .ok response) :
    ∃ account preauth final data, client.account = some account ∧
      preauthorise client around req account = .ok preauth ∧
      receiveReply client around req account preauth.receipt = .ok (data, some final) ∧
      preauth.encoded = p ∧ final.encoded = f ∧
      buildResponse preauth.receipt data final.receipt.amount = .ok response := by
  unfold infer at hsigned hreturned
  cases haccount : client.account with
  | none =>
    simp only [haccount, InferRun.receipts, List.map_nil, reduceCtorEq] at hsigned
  | some account =>
    simp only [haccount] at hsigned hreturned
    cases hpreauth : preauthorise client around req account with
    | error e =>
      simp only [hpreauth, InferRun.receipts, List.map_nil, reduceCtorEq] at hsigned
    | ok preauth =>
      simp only [hpreauth] at hsigned hreturned
      cases hreply : receiveReply client around req account preauth.receipt with
      | error e =>
        -- one receipt was signed, not two
        simp [hreply, InferRun.receipts] at hsigned
      | ok result =>
        obtain ⟨data, signed⟩ := result
        cases signed with
        | none => simp [hreply, InferRun.receipts] at hsigned
        | some final =>
          simp only [hreply, InferRun.receipts, List.map_cons, List.map_nil, List.cons.injEq,
            and_true] at hsigned hreturned
          exact ⟨account, preauth, final, data, rfl, hpreauth, hreply, hsigned.1, hsigned.2,
            hreturned⟩

theorem buildResponse_ok {preauth : Receipt} {data : Json} {charged : Int}
    {response : InferenceResponse} (h : buildResponse preauth data charged = .ok response) :
    data.subscript "text" = .ok response.text ∧ response.amount = charged := by
  unfold buildResponse at h
  simp only [bind_ok, return_ok] at h
  obtain ⟨t, ht, _, -, _, -, _, -, _, -, _, -, rfl⟩ := h
  exact ⟨ht, rfl⟩

end BasedClient

end BasedAI
