import BasedAI.Client.TypeScriptClient

/-!
# BasedAI — what the TypeScript client signs

The same inversion as for the Python client, with what `viem` documents about the
values it encodes.

* `signReceipt_ok`        — the signed values are the ones the receipt denotes;
* `preauthorise_sentinel` — the response hash of a pre-authorisation;
* `infer_charged`         — a call that signed both receipts and returned.
-/

namespace BasedAI

open Fallible Python Js ByteWords

namespace TypeScriptClient

variable {client : Client} {around : Surroundings} {req : InferenceRequest}
  {account : Account}

/-- The values `e` are what the unchecked receipt `r` denotes to the package. -/
structure Encodes (viem : Viem) (r : Receipt) (e : BasedAI.Receipt) : Prop where
  user : viem.encodeAddress r.user = some e.user
  miner : viem.encodeAddress r.miner = some e.miner
  promptHash : viem.encodeBytes32 r.promptHash = some e.promptHash
  responseHash : viem.encodeBytes32 r.responseHash = some e.responseHash
  amount : (e.amount.val : Int) = r.amount
  nonce : (e.nonce.val : Int) = r.nonce

theorem signReceipt_ok (hviem : around.viem.Documented around.crypto) {r : Receipt}
    {s : SignedReceipt} (h : signReceipt client around account r = .ok s) :
    s.receipt = r ∧ Encodes around.viem r s.encoded := by
  unfold signReceipt at h
  simp only [bind_ok, return_ok, orRevert_ok] at h
  obtain ⟨_, -, _, -, _, -, _, -, _, -, user, huser, miner, hminer, _, -, promptHash,
    hpromptHash, responseHash, hresponseHash, amount, hamount, _, -, nonce, hnonce, rfl⟩ := h
  refine ⟨rfl, ?_⟩
  exact {
    user := huser
    miner := hminer
    promptHash := hpromptHash
    responseHash := hresponseHash
    amount := (hviem.uint_iff _ _ _).mp hamount
    nonce := (hviem.uint_iff _ _ _).mp hnonce }

/-- A hash written as a text is encoded as itself. -/
theorem encodes_hexText {viem : Viem} {crypto : Crypto} (hviem : viem.Documented crypto)
    {w v : Bytes32} (h : viem.encodeBytes32 (.str (hexText w)) = some v) : v = w := by
  rw [hviem.bytes32_hexText w] at h
  exact (Option.some.inj h).symm

/-! ## The pre-authorisation -/

/-- Eight bytes are a nonce of 64 bits. -/
theorem newNonce_lt (bytes : { bytes : Bytes // bytes.length = 8 }) :
    newNonce bytes.val < 2 ^ 64 := by
  have hlt : spelled bytes.val < 256 ^ bytes.val.length := spelled_lt bytes.val
  rw [bytes.property] at hlt
  exact hlt.trans_eq (by norm_num)

/-- What every pre-authorisation of a call says, whichever miner it is for. -/
structure IsPreauth (around : Surroundings) (req : InferenceRequest) (account : Account)
    (r : Receipt) : Prop where
  user : r.user = .str (toChecksum around.crypto account.address)
  brainId : r.brainId = .number req.brainId
  amount : r.amount = reservation req
  expiry : r.expiry = .number (expiry around req)
  nonce : r.nonce = newNonce around.randomBytes.val

theorem preauthorise_ok (hviem : around.viem.Documented around.crypto) {s : SignedReceipt}
    (h : preauthorise client around req account = .ok s) :
    IsPreauth around req account s.receipt ∧ Encodes around.viem s.receipt s.encoded := by
  unfold preauthorise at h
  simp only [bind_ok] at h
  obtain ⟨miner, -, minerAddress, -, promptHash, -, hsign⟩ := h
  obtain ⟨hreceipt, hencodes⟩ := signReceipt_ok hviem hsign
  rw [hreceipt]
  exact ⟨⟨rfl, rfl, rfl, rfl, rfl⟩, hencodes⟩

/-- The response hash of a pre-authorisation is the sentinel. -/
theorem preauthorise_sentinel (hviem : around.viem.Documented around.crypto)
    {s : SignedReceipt} (h : preauthorise client around req account = .ok s) :
    s.encoded.responseHash = around.crypto.keccak256
      (wordBytes s.encoded.promptHash ++ wordBytes s.encoded.nonce) := by
  unfold preauthorise at h
  simp only [bind_ok] at h
  obtain ⟨miner, -, minerAddress, -, promptHash, -, hsign⟩ := h
  obtain ⟨-, hencodes⟩ := signReceipt_ok hviem hsign
  have hprompt : s.encoded.promptHash = promptHash := encodes_hexText hviem hencodes.promptHash
  have hnonce : s.encoded.nonce.val = newNonce around.randomBytes.val := by
    have hval : (s.encoded.nonce.val : Int) = newNonce around.randomBytes.val := hencodes.nonce
    exact_mod_cast hval
  rw [encodes_hexText hviem hencodes.responseHash, hprompt, wordBytes, wordBytes, hnonce]

theorem reservation_le_budget (req : InferenceRequest) : reservation req ≤ req.budget := by
  have hcap : ∀ wanted : Int, (if req.budget < wanted then req.budget else wanted) ≤
      req.budget := by
    intro wanted
    split_ifs with hover
    · exact le_refl _
    · exact not_lt.mp hover
  exact hcap _

/-! ## The final receipt -/

theorem toLowerCase_ok {u : Unicode} {v : Value} {t : Text} :
    v.toLowerCase u = .ok t ↔ ∃ s, v = .str s ∧ t = lower u s := by
  cases v <;> simp [Value.toLowerCase, eq_comm]

/-- Two values are the same text up to case. -/
def SameText (u : Unicode) (v w : Value) : Prop :=
  ∃ s t, v = .str s ∧ w = .str t ∧ lower u s = lower u t

theorem assertFinalReceiptIdentity_ok {preauth final : Receipt} {u : Unit} :
    assertFinalReceiptIdentity around preauth final = .ok u ↔
      SameText around.engine.unicode final.user preauth.user ∧
      SameText around.engine.unicode final.miner preauth.miner ∧
      final.brainId.strictEq preauth.brainId = true ∧
      SameText around.engine.unicode final.promptHash preauth.promptHash ∧
      final.expiry.strictEq preauth.expiry = true ∧ final.nonce = preauth.nonce := by
  unfold assertFinalReceiptIdentity
  simp only [bind_ok, toLowerCase_ok, revertIf_ok, not_not, Bool.not_eq_false]
  constructor
  · rintro ⟨_, ⟨finalUser, hfu, rfl⟩, _, ⟨preauthUser, hpu, rfl⟩, -, huser,
      _, ⟨finalMiner, hfm, rfl⟩, _, ⟨preauthMiner, hpm, rfl⟩, -, hminer, -, hbrain,
      _, ⟨finalHash, hfh, rfl⟩, _, ⟨preauthHash, hph, rfl⟩, -, hhash, -, hexpiry, hnonce⟩
    exact ⟨⟨finalUser, preauthUser, hfu, hpu, huser⟩,
      ⟨finalMiner, preauthMiner, hfm, hpm, hminer⟩, hbrain,
      ⟨finalHash, preauthHash, hfh, hph, hhash⟩, hexpiry, hnonce⟩
  · rintro ⟨⟨finalUser, preauthUser, hfu, hpu, huser⟩,
      ⟨finalMiner, preauthMiner, hfm, hpm, hminer⟩, hbrain,
      ⟨finalHash, preauthHash, hfh, hph, hhash⟩, hexpiry, hnonce⟩
    exact ⟨_, ⟨finalUser, hfu, rfl⟩, _, ⟨preauthUser, hpu, rfl⟩, (), huser,
      _, ⟨finalMiner, hfm, rfl⟩, _, ⟨preauthMiner, hpm, rfl⟩, (), hminer, (), hbrain,
      _, ⟨finalHash, hfh, rfl⟩, _, ⟨preauthHash, hph, rfl⟩, (), hhash, (), hexpiry, hnonce⟩

/-- What has been checked when a final receipt is signed. -/
structure IsFinal (around : Surroundings) (req : InferenceRequest) (preauth : Receipt)
    (data : Value) (r : Receipt) : Prop where
  identity : assertFinalReceiptIdentity around preauth r = .ok ()
  withinBudget : r.amount ≤ req.budget
  metered : ∃ textValue textBytes, data.property "text" = .ok textValue ∧
    encode around.engine textValue = .ok textBytes ∧
    r.amount = expectedCharge around req (encodeText req.prompt).length textBytes.length

theorem counterSign_ok (hviem : around.viem.Documented around.crypto) {preauth : Receipt}
    {data fr : Value} {s : SignedReceipt}
    (h : counterSign client around req account preauth data fr = .ok s) :
    IsFinal around req preauth data s.receipt ∧ Encodes around.viem s.receipt s.encoded := by
  unfold counterSign at h
  simp only [bind_ok, toLowerCase_ok, revertIf_ok, not_not, not_lt] at h
  obtain ⟨r, -, _, hidentity, -, hbudget, -, -, textValue, htext, textBytes, hbytes, -, hamount,
    _, -, _, -, _, -, -, -, hsign⟩ := h
  obtain ⟨hreceipt, hencodes⟩ := signReceipt_ok hviem hsign
  rw [hreceipt]
  refine ⟨?_, hencodes⟩
  exact {
    identity := hidentity
    withinBudget := hbudget
    metered := ⟨textValue, textBytes, htext, hbytes, hamount⟩ }

theorem receiveReply_final (hviem : around.viem.Documented around.crypto) {preauth : Receipt}
    {data : Value} {s : SignedReceipt}
    (h : receiveReply client around req account preauth = .ok (data, some s)) :
    IsFinal around req preauth data s.receipt ∧ Encodes around.viem s.receipt s.encoded := by
  unfold receiveReply at h
  simp only [bind_ok] at h
  obtain ⟨reply, -, textValue, -, hash, -, _, -, _, -, _, -, fr, -, h⟩ := h
  split at h
  · simp only [bind_ok, return_ok, Prod.mk.injEq, Option.some.injEq] at h
    obtain ⟨s', hs', rfl, rfl⟩ := h
    exact counterSign_ok hviem hs'
  · simp [return_ok] at h

/-! ## A whole call -/

/-- The receipts a call signed. -/
def InferRun.receipts (run : InferRun) : List BasedAI.Receipt := run.signed.map (·.encoded)

theorem infer_encodes (hviem : around.viem.Documented around.crypto) {s : SignedReceipt}
    (h : s ∈ (infer client around req).signed) : Encodes around.viem s.receipt s.encoded := by
  unfold infer at h
  split at h
  · -- whatever fails before the pre-authorisation leaves nothing signed
    simp at h
  · split at h
    · simp at h
    · rename_i preauth hpreauth
      have hencodes := (preauthorise_ok hviem hpreauth).2
      dsimp only at h
      split at h
      · obtain rfl := List.mem_singleton.mp h
        exact hencodes
      · obtain rfl := List.mem_singleton.mp h
        exact hencodes
      · rename_i data final hreply
        -- after the reply there are two: the pre-authorisation and the final receipt
        rcases List.mem_cons.mp h with rfl | hfinal
        · exact hencodes
        · obtain rfl := List.mem_singleton.mp hfinal
          exact (receiveReply_final hviem hreply).2

/-- A call that signed two receipts went all the way: the second one is the final
receipt of the reply, and the response quotes its amount. -/
theorem infer_charged {p f : BasedAI.Receipt} {response : InferenceResponse}
    (hsigned : (infer client around req).receipts = [p, f])
    (hreturned : (infer client around req).outcome = .ok response) :
    ∃ account preauth final data, client.account = some account ∧
      preauthorise client around req account = .ok preauth ∧
      receiveReply client around req account preauth.receipt = .ok (data, some final) ∧
      preauth.encoded = p ∧ final.encoded = f ∧
      buildResponse preauth.receipt data final.receipt.amount = .ok response := by
  unfold infer at hsigned hreturned
  cases haccount : client.account with
  | none =>
    simp only [haccount, InferRun.receipts, List.map_nil, reduceCtorEq] at hsigned
  | some account =>
    simp only [haccount] at hsigned hreturned
    cases hpreauth : preauthorise client around req account with
    | error e =>
      simp only [hpreauth, InferRun.receipts, List.map_nil, reduceCtorEq] at hsigned
    | ok preauth =>
      simp only [hpreauth] at hsigned hreturned
      cases hreply : receiveReply client around req account preauth.receipt with
      | error e =>
        -- one receipt was signed, not two
        simp [hreply, InferRun.receipts] at hsigned
      | ok result =>
        obtain ⟨data, signed⟩ := result
        cases signed with
        | none => simp [hreply, InferRun.receipts] at hsigned
        | some final =>
          simp only [hreply, InferRun.receipts, List.map_cons, List.map_nil, List.cons.injEq,
            and_true] at hsigned hreturned
          exact ⟨account, preauth, final, data, rfl, hpreauth, hreply, hsigned.1, hsigned.2,
            hreturned⟩

theorem buildResponse_ok {preauth : Receipt} {data : Value} {charged : Int}
    {response : InferenceResponse} (h : buildResponse preauth data charged = .ok response) :
    data.property "text" = .ok response.text ∧ response.amount = charged := by
  unfold buildResponse at h
  simp only [bind_ok, return_ok] at h
  obtain ⟨t, ht, _, -, _, -, _, -, _, -, _, -, rfl⟩ := h
  exact ⟨ht, rfl⟩

end TypeScriptClient

end BasedAI
