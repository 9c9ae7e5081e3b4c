import BasedAI.Miner.TypeScriptSettlement

/-!
# BasedAI — an honest miner and an honest client settle

The Python client always does. The TypeScript client does exactly where it can read the
proposal: it takes the nonce and the amount for doubles, and a delivered text that spells
a hexadecimal literal for the bytes of that literal.

* `typeScript_settles` — the condition, for the TypeScript client;
* `honest_settles_iff` — both clients.
-/

namespace BasedAI

open Fallible Python Js ByteWords

namespace Miner

variable {config : MinerConfig} {s : Services} {payload : Bytes} {pending : Pending}

section TypeScript

variable {client : TypeScriptClient.Client} {around : TypeScriptClient.Surroundings}
  {req : TypeScriptClient.InferenceRequest} {preauth : TypeScriptClient.SignedReceipt}
  {delivered : Text} {ppt ppr : Nat} {final : Json}

/-- The client finds the hash in the reply to be that of the text just where it reads the
text as text. -/
theorem hash_matches_iff {t : Text} {textBytes : Bytes} {u : Unicode}
    (hviem : around.viem.Documented around.crypto) (htext : utf8 t = some textBytes)
    (hfree : isHex t = true → ∀ literal bytes, hexToBytes t = some literal →
      utf8 t = some bytes →
      around.crypto.keccak256 literal = around.crypto.keccak256 bytes → literal = bytes) :
    (∃ h, TypeScriptClient.keccak around (.str t) = .ok h ∧
      lower u (hexText h) = lower u (hexText (around.crypto.keccak256 textBytes))) ↔
      isHex t = false := by
  simp only [TypeScriptClient.keccak, bind_ok, orRevert_ok, return_ok]
  constructor
  · rintro ⟨h, ⟨bytes, hbytes, rfl⟩, hsame⟩
    -- read as hexadecimal digits it would be other bytes of the same hash
    by_contra hhex
    rw [Bool.not_eq_false] at hhex
    rw [hviem.toBytes_hex t hhex] at hbytes
    rw [lower_hexText, lower_hexText] at hsame
    exact hexToBytes_ne_utf8 hhex hbytes htext (hfree hhex _ _ hbytes htext (hexText_inj hsame))
  · intro hplain
    exact ⟨_, ⟨textBytes, by rw [hviem.toBytes_text t hplain, encodeText_eq htext], rfl⟩, rfl⟩

/-- The client takes a reply with a proposal when the hash of the text matches and the
proposal passes the checks. -/
theorem receiveReply_iff {account : Account} {receipt : TypeScriptClient.Receipt}
    {response : InferenceResponse} {entries : List (Text × Value)} {signature : Bytes}
    {quoted : Text} {data : Value} {signed : TypeScriptClient.SignedReceipt}
    (hreply : around.inference =
      .response 200 quoted (some (replyValue response (.object entries) signature))) :
    TypeScriptClient.receiveReply client around req account receipt = .ok (data, some signed) ↔
      data = replyValue response (.object entries) signature ∧
      (∃ h, TypeScriptClient.keccak around (.str response.text) = .ok h ∧
        lower around.engine.unicode (hexText h) =
          lower around.engine.unicode response.responseHash) ∧
      TypeScriptClient.counterSign client around req account receipt data (.object entries) =
        .ok signed := by
  have hok : TypeScriptClient.okJson around.inference =
      .ok (replyValue response (.object entries) signature) := by
    rw [hreply]
    rfl
  have htext : (replyValue response (.object entries) signature).property "text" =
      .ok (.str response.text) := rfl
  have hhash : (replyValue response (.object entries) signature).property "response_hash" =
      .ok (.str response.responseHash) := rfl
  have hfinal : (replyValue response (.object entries) signature).property "final_receipt" =
      .ok (.object entries) := rfl
  have htruthy : (Value.object entries).truthy = true := rfl
  -- every property the client reads is there, so the checks alone decide
  unfold TypeScriptClient.receiveReply
  simp only [bind_ok, revertIf_ok, not_not, hok, Except.ok.injEq]
  constructor
  · rintro ⟨_, rfl, _, hget, h, hkeccak, _, hget', _, hlower, -, hsame, _, hget'', hrest⟩
    rw [htext, Except.ok.injEq] at hget
    rw [hhash, Except.ok.injEq] at hget'
    rw [hfinal, Except.ok.injEq] at hget''
    rw [← hget''] at hrest
    rw [← hget', Value.toLowerCase, Except.ok.injEq] at hlower
    rw [if_pos htruthy] at hrest
    simp only [bind_ok, return_ok, Prod.mk.injEq, Option.some.injEq] at hrest
    obtain ⟨_, hcounter, rfl, rfl⟩ := hrest
    exact ⟨rfl, ⟨h, hget ▸ hkeccak, hsame.trans hlower.symm⟩, hcounter⟩
  · rintro ⟨rfl, ⟨h, hkeccak, hsame⟩, hcounter⟩
    refine ⟨replyValue response (.object entries) signature, rfl, .str response.text, htext, h,
      hkeccak, .str response.responseHash, hhash, lower around.engine.unicode response.responseHash,
      rfl, (), hsame, .object entries, hfinal, ?_⟩
    rw [if_pos htruthy]
    simp only [bind_ok, return_ok]
    exact ⟨signed, hcounter, rfl⟩

/-- A call signs a final receipt when it takes the reply. -/
theorem infer_signed_iff {account : Account} {signed : TypeScriptClient.SignedReceipt}
    (haccount : client.account = some account)
    (hpre : TypeScriptClient.preauthorise client around req account = .ok preauth) :
    (TypeScriptClient.infer client around req).signed = [preauth, signed] ↔
      ∃ data, TypeScriptClient.receiveReply client around req account preauth.receipt =
        .ok (data, some signed) := by
  unfold TypeScriptClient.infer
  simp only [haccount, hpre]
  cases hreply : TypeScriptClient.receiveReply client around req account preauth.receipt with
  | error e => simp
  | ok result =>
    obtain ⟨data, final⟩ := result
    cases final with
    | none => simp
    | some final => simp

/-- What a call signed last, it sent to be settled. -/
theorem infer_sent {account : Account} {signed : TypeScriptClient.SignedReceipt}
    (haccount : client.account = some account)
    (hpre : TypeScriptClient.preauthorise client around req account = .ok preauth)
    (h : (TypeScriptClient.infer client around req).signed = [preauth, signed]) :
    .settle req.brainId (TypeScriptClient.settleBody signed) ∈
      (TypeScriptClient.infer client around req).sent := by
  obtain ⟨data, hreply⟩ := (infer_signed_iff haccount hpre).mp h
  unfold TypeScriptClient.infer
  simp only [haccount, hpre, hreply]
  exact List.mem_cons_of_mem _ (List.mem_singleton.mpr rfl)

/-- **When an honest miner settles with the TypeScript client.** -/
theorem typeScript_settles
    (h : TypeScriptExchange config s payload pending client around req preauth delivered ppt ppr
      final) :
    TypeScriptSettles client around req s preauth final ↔
      Js.Fits 53 (TypeScriptClient.newNonce around.randomBytes.val) ∧
        Js.Fits 53 (meteredCharge ppt ppr req.prompt delivered req.budget).natAbs ∧
        isHex delivered = false := by
  obtain ⟨account, haccount, hpre⟩ := h.preauthorised
  obtain ⟨body, reply, quoted, hbody, hanswers, hreply⟩ := h.answered
  obtain ⟨backend, hbackend, hdelivers⟩ := h.delivers
  have hviem := h.documented
  obtain ⟨t, a, b, e, hash, sentinel, amount, ha, hb, he, hreserved, hamount, hreceipt, hsigned⟩ :=
    preauthorise_spelled hviem hpre
  have hnonce : TypeScriptClient.newNonce around.randomBytes.val < 2 ^ 256 :=
    (TypeScriptClient.newNonce_lt around.randomBytes).trans (by norm_num)
  obtain ⟨job, response, charge, ppt', ppr', promptBytes, textBytes, hadmitted, hgenerate,
    hserved, hchargeOf, hfinal, hppt, hppr, hpriced, hprompt, htext, -, hresponseHash, hcharge,
    hbudget⟩ := hanswers.served
  obtain rfl : ppt = ppt' := Option.some.inj (h.pricePerByte.symm.trans hppt)
  obtain rfl : ppr = ppr' := Option.some.inj (h.pricePerRequest.symm.trans hppr)
  -- the job is the one the client means
  obtain ⟨tokens, temperature, hwritten⟩ :=
    @stringify_inferBody req around.engine preauth (toChecksum around.crypto account.address)
      (text "0x" ++ t) req.brainId (TypeScriptClient.expiry around req) b e hash sentinel amount
      (TypeScriptClient.newNonce around.randomBytes.val) hb he hreceipt
  rw [hbody, Option.some.injEq] at hwritten
  rw [hwritten, h.crypto] at hadmitted
  obtain ⟨k, l, hk, hl, hjobPrompt, hjobBudget, hjob, hreads⟩ :=
    hadmitted.typeScript h.readsBack hb he ha hamount hnonce hreserved
  rw [hjobPrompt] at hprompt
  rw [hjobBudget] at hcharge hbudget
  obtain ⟨backend', hbackend', hdelivers'⟩ := generate_text hgenerate
  obtain rfl : backend = backend' := Option.some.inj (hbackend.symm.trans hbackend')
  rw [hjobPrompt, hdelivers, Except.ok.injEq] at hdelivers'
  -- the charge is a word
  obtain ⟨c, rfl⟩ : ∃ c : Nat, charge = c := by
    have hle : (amount : Int) ≤ req.budget := by
      rw [← hreserved]
      exact TypeScriptClient.reservation_le_budget req
    exact ⟨charge.toNat, by omega⟩
  have hlt : c < 2 ^ 256 := by omega
  have hmetered : meteredCharge ppt ppr req.prompt delivered req.budget = c := by
    rw [meteredCharge, hdelivers', encodeText_eq hprompt, encodeText_eq htext, hcharge]
  rw [hmetered, Int.natAbs_natCast]
  -- what the client reads of the reply
  let proposal := proposalValue (toChecksum around.crypto account.address)
    (toChecksum around.crypto a) req.brainId (TypeScriptClient.expiry around req) hash
    (around.crypto.keccak256 textBytes) (.ofInt (c : Int))
    (.ofInt (TypeScriptClient.newNonce around.randomBytes.val : Int))
  obtain ⟨_, signature, hcharge', hreplyEq⟩ := inferReply_ok hserved
  rw [hchargeOf, Except.ok.injEq] at hcharge'
  have hproposal : Js.parse (receiptJson (finalReceipt job response c)) = some proposal := by
    have hhash : (finalReceipt job response c).promptHash = .str (hexText hash) := by
      rw [finalReceipt, hjob]
    rw [parse_proposal hhash (congrArg Json.str hresponseHash), finalReceipt, hjob, hk, hl,
      ← h.crypto]
  have hparsed : around.inference =
      .response 200 quoted (some (replyValue response proposal signature)) := by
    rw [hreply, hreplyEq, ← hcharge', parse_reply hproposal]
  have hmatches := @hash_matches_iff around delivered textBytes around.engine.unicode hviem
    (hdelivers' ▸ htext) (h.crypto ▸ h.collisionFree)
  rw [← h.crypto] at hresponseHash
  constructor
  · rintro ⟨proposed, signed, wire, -, hboth, -⟩
    obtain ⟨data, htaken⟩ := (infer_signed_iff haccount hpre).mp hboth
    obtain ⟨rfl, hash', hcounter⟩ := (receiveReply_iff hparsed).mp htaken
    have hfits := counterSign_fits hnonce hlt (congrArg TypeScriptClient.Receipt.nonce hreceipt)
      (fun textValue bytes hvalue hbytes => ?_) hcounter
    · refine ⟨hfits.1, hfits.2, hmatches.mp ?_⟩
      rw [hdelivers', ← hresponseHash]
      exact hash'
    · -- the client measures the text it was sent
      obtain rfl : Value.str response.text = textValue := Except.ok.inj hvalue
      obtain rfl : encodeText response.text = bytes := Except.ok.inj hbytes
      rw [hcharge, expectedCharge_priced h.pricing, encodeText_eq hprompt, encodeText_eq htext]
  · rintro ⟨hfitsNonce, hfitsCharge, hplain⟩
    obtain ⟨signed, hcounter, hsame⟩ := @counterSign_read client around req account
      account.address a response.text t req.brainId (TypeScriptClient.expiry around req) b e hash
      sentinel (around.crypto.keccak256 textBytes) amount c
      (TypeScriptClient.newNonce around.randomBytes.val)
      (replyValue response proposal signature) preauth ppt ppr promptBytes textBytes hviem hb he ha
      (hreceipt ▸ hsigned) hnonce hlt rfl
      (congrArg (fun x => Except.ok (Value.str x)) hresponseHash) h.pricing hpriced
      (encodeText_eq hprompt) (encodeText_eq htext) hcharge ⟨hfitsNonce, hfitsCharge⟩
    rw [← hreceipt] at hcounter
    have htaken := (@receiveReply_iff client around req account preauth.receipt response _ signature
      quoted _ signed hparsed).mpr ⟨rfl, by
        rw [hresponseHash, ← hdelivers']
        exact hmatches.mpr hplain, hcounter⟩
    have hboth := (infer_signed_iff haccount hpre).mpr ⟨_, htaken⟩
    have hwire := @stringify_receipt around.engine (toChecksum around.crypto account.address)
      (toChecksum around.crypto a) req.brainId (TypeScriptClient.expiry around req) b e hash
      (around.crypto.keccak256 textBytes) c (TypeScriptClient.newNonce around.randomBytes.val)
      hb he
    rw [← hsame] at hwire
    refine ⟨finalReceipt job response c, signed, .dict [
      (text "receipt", wireReceipt around.engine (toChecksum around.crypto account.address)
        (toChecksum around.crypto a) req.brainId (TypeScriptClient.expiry around req) hash
        (around.crypto.keccak256 textBytes) c (TypeScriptClient.newNonce around.randomBytes.val)),
      (text "user_signature", .str (text "0x" ++ hexlify signed.signature))], hfinal, hboth,
      infer_sent haccount hpre hboth, ?_, ?_⟩
    · rw [TypeScriptClient.settleBody, stringify, stringifyEntries, hwire, stringifyEntries,
        TypeScriptClient.signatureText, stringify, stringifyEntries]
    · intro later hlater
      refine ⟨_, rfl, ?_⟩
      rw [h.crypto, hreads later _ c hlt hlater, finalReceipt, hjob, hresponseHash, h.crypto]

end TypeScript

/-! ## Both clients -/

/-- A call of one of the two clients that has signed its pre-authorisation. -/
inductive HonestCall
  | python (client : BasedClient.Client) (around : BasedClient.Surroundings)
      (req : BasedClient.InferenceRequest) (preauth : BasedClient.SignedReceipt)
  | typeScript (client : TypeScriptClient.Client) (around : TypeScriptClient.Surroundings)
      (req : TypeScriptClient.InferenceRequest) (preauth : TypeScriptClient.SignedReceipt)

/-- A call of the Python client that an honest miner answers. -/
structure PythonExchange (config : MinerConfig) (s : Services) (payload : Bytes)
    (pending : Pending) (client : BasedClient.Client) (around : BasedClient.Surroundings)
    (req : BasedClient.InferenceRequest) (preauth : BasedClient.SignedReceipt) (ppt ppr : Nat)
    (final : Json) : Prop where
  preauthorised : ∃ account, client.account = some account ∧
    BasedClient.preauthorise client around req account = .ok preauth
  answered : ∃ reply,
    Answers config s payload pending (BasedClient.inferBody req preauth) reply final ∧
    around.inference = .response 200 (some reply)
  crypto : around.crypto = s.crypto
  /-- the same prices on both sides -/
  pricePerByte : s.pricePerByte = some ppt
  pricePerRequest : s.pricePerRequest = some ppr
  pricing : around.pricing = some ((ppt : Int), (ppr : Int))
  /-- addresses are listed with their prefix -/
  listed : ∃ t, preauth.receipt.miner = .str (text "0x" ++ t)

namespace HonestCall

/-- An honest miner answers the call with the proposal `final`. -/
def Exchange (config : MinerConfig) (s : Services) (payload : Bytes) (pending : Pending)
    (delivered : Text) (ppt ppr : Nat) (final : Json) : HonestCall → Prop
  | .python client around req preauth =>
    PythonExchange config s payload pending client around req preauth ppt ppr final
  | .typeScript client around req preauth =>
    TypeScriptExchange config s payload pending client around req preauth delivered ppt ppr final

/-- The client signs the proposal, and the miner reads it back in the settle request. -/
def Settles (s : Services) (final : Json) : HonestCall → Prop
  | .python client around req preauth => PythonSettles client around req s preauth final
  | .typeScript client around req preauth => TypeScriptSettles client around req s preauth final

/-- What the client can read of a proposal: Python reads everything, TypeScript a nonce
and a charge that are doubles and a text that is no hexadecimal literal. -/
def Readable (delivered : Text) (ppt ppr : Nat) : HonestCall → Prop
  | .python _ _ _ _ => True
  | .typeScript _ around req _ =>
    Js.Fits 53 (TypeScriptClient.newNonce around.randomBytes.val) ∧
      Js.Fits 53 (meteredCharge ppt ppr req.prompt delivered req.budget).natAbs ∧
      isHex delivered = false

end HonestCall

/-- **When an honest miner and an honest client settle.** -/
theorem honest_settles_iff {call : HonestCall} {delivered : Text} {ppt ppr : Nat} {final : Json}
    (h : call.Exchange config s payload pending delivered ppt ppr final) :
    call.Settles s final ↔ call.Readable delivered ppt ppr := by
  cases call with
  | python client around req preauth =>
    obtain ⟨account, haccount, hpre⟩ := h.preauthorised
    obtain ⟨reply, hanswers, hreply⟩ := h.answered
    refine iff_of_true (python_settles haccount hpre hanswers hreply h.crypto ?_ h.listed) trivial
    intro b r hb hr
    rw [h.pricing, Option.some.inj (h.pricePerByte.symm.trans hb),
      Option.some.inj (h.pricePerRequest.symm.trans hr)]
  | typeScript client around req preauth => exact typeScript_settles h

/-! ## A nonce that is no double -/

/-- The package, as far as it is documented. -/
def toyViem : Viem where
  toBytes
    | .str t => if isHex t then hexToBytes t else some (encodeText t)
    | _ => none
  encodeAddress
    | .str t => if (text "0x").isPrefixOf t then hexAddress t else none
    | _ => none
  encodeUint w n := (encodeUint w n).toOption
  encodeBytes32
    | .str t => (unhexlify (t.drop 2)).bind fun bytes => (encodeBytes32 bytes).toOption
    | _ => none

theorem toyViem_documented (crypto : Crypto) : toyViem.Documented crypto where
  toBytes_text t ht := by
    show (if isHex t then hexToBytes t else some (encodeText t)) = _
    rw [ht]
    rfl
  toBytes_hex t ht := by
    show (if isHex t then hexToBytes t else some (encodeText t)) = _
    rw [ht]
    rfl
  address_denotes v a h := by
    cases v with
    | str t =>
      simp only [toyViem] at h
      split at h
      · rename_i hprefix
        obtain ⟨rest, rfl⟩ := List.isPrefixOf_iff_prefix.mp hprefix
        exact ⟨rest, rfl, h⟩
      · cases h
    | _ => cases h
  address_checksummed a := by
    -- what the checksum writes has the prefix that is asked for
    have hprefix : (text "0x").isPrefixOf (toChecksum crypto a) = true := by
      rw [toChecksum, List.isPrefixOf_iff_prefix]
      exact List.prefix_append _ _
    simp only [toyViem, hprefix, if_true, hexAddress_toChecksum]
  uint_iff w n m := by
    show (encodeUint w n).toOption = some m ↔ _
    rw [toOption_ok]
    constructor
    · exact encodeUint_ok
    · intro h
      rw [← h]
      exact encodeUint_eq m.isLt
  bytes32_hexText w := by
    simp only [toyViem, hexText_drop, unhexlify_hexlify, Option.bind_some,
      encodeBytes32_wordBytes]
    exact toOption_ok.mpr rfl

/-- An engine that writes an integer as an integer. -/
def toyEngine : Engine where
  unicode := { lower := id, digit := fun _ => none, isSpace := fun _ => false }
  toText _ := none
  toNumber _ := none
  numberJson x :=
    match x.toInt with
    | some n => .int n
    | none => .float x.value

theorem toyEngine_readsBack : toyEngine.ReadsBack := by
  intro x n hx
  refine .inl ⟨n, ?_, Number.ofInt_toInt hx⟩
  show (match x.toInt with | some n => Json.int n | none => _) = .int n
  rw [hx]

/-- The toy client and its request, in the other language. -/
def toyScriptClient : TypeScriptClient.Client where
  config := { chainId := .ofInt 1, market := text "0x0000000000000000000000000000000000000014" }
  account := some { address := 2, sign := fun digest => [2, UInt8.ofNat digest.val] }

def toyScriptRequest : TypeScriptClient.InferenceRequest where
  brainId := .ofInt 3
  prompt := [1]
  budget := 50
  expiry := some (.ofInt 200)
  reservation := some 30

def toyScriptSurroundings (bytes : { bytes : Bytes // bytes.length = 8 })
    (inference : TypeScriptClient.HttpReply) : TypeScriptClient.Surroundings where
  crypto := toyCrypto
  engine := toyEngine
  viem := toyViem
  now := 100
  randomBytes := bytes
  sortUnordered _ := .error .typeError
  miners := .response 200 [] (some (.array [.object [(text "address",
    .str (text "0x0000000000000000000000000000000000000007"))]]))
  inference := inference
  pricing := some (1, 0)

def toyMinerConfig : MinerConfig where
  market := text "0x0000000000000000000000000000000000000014"
  chainId := 1
  brainId := 3
  account := { address := 7, sign := fun digest => [7, UInt8.ofNat digest.val] }

/-- A miner that answers one byte, at a price of 1 a byte, when it is asked `body`. -/
def toyServices (body : Json) : Services where
  crypto := toyCrypto
  unicode := toyEngine.unicode
  repr _ := []
  recoverMessage := toyCrypto.recover
  time := 150
  loads _ := .ok body
  strOf _ := []
  backend := some fun _ => .ok [5]
  usedNonces _ _ := some false
  balances _ := some 1000
  pricePerByte := some 1
  pricePerRequest := some 0

section Toy

variable (bytes : { bytes : Bytes // bytes.length = 8 })

def toyScriptPreauth : Option TypeScriptClient.SignedReceipt := do
  let account ← toyScriptClient.account
  (TypeScriptClient.preauthorise toyScriptClient (toyScriptSurroundings bytes .raised)
    toyScriptRequest account).toOption

def toyScriptBody : Option Json := do
  stringify toyEngine (TypeScriptClient.inferBody toyScriptRequest (← toyScriptPreauth bytes))

def toyScriptReply : Option Json := do
  return (handleInfer toyMinerConfig (toyServices (← toyScriptBody bytes)) [] []).1

def toyScriptFinal : Option Json := do
  ((← toyScriptReply bytes).subscript "final_receipt").toOption

/-- With those bytes for a nonce, the toy miner proposes a receipt. -/
theorem toyScript_exchange (h : (toyScriptFinal bytes).isSome = true) :
    ∃ body preauth inference final, (HonestCall.typeScript toyScriptClient
      (toyScriptSurroundings bytes inference) toyScriptRequest preauth).Exchange toyMinerConfig
        (toyServices body) [] [] [5] 1 0 final := by
  obtain ⟨final, hfinal⟩ := Option.isSome_iff_exists.mp h
  simp only [toyScriptFinal, toyScriptReply, toyScriptBody, toyScriptPreauth,
    Option.bind_eq_bind, Option.bind_eq_some_iff, Option.pure_def, Option.some.injEq,
    toOption_ok] at hfinal
  -- the client's request, the reply to it and the receipt proposed there
  obtain ⟨_, ⟨body, ⟨preauth, ⟨account, haccount, hpre⟩, hbody⟩, rfl⟩, hproposed⟩ := hfinal
  refine ⟨body, preauth, .response 200 []
    (Js.parse (handleInfer toyMinerConfig (toyServices body) [] []).1), final, ?_⟩
  exact {
    preauthorised := ⟨account, haccount, hpre⟩
    answered := ⟨body, _, [], hbody, {
      received := rfl
      answered := rfl
      accepted := hproposed
      balances_lt := by
        intro a b hb
        obtain rfl : 1000 = b := Option.some.inj hb
        decide }, rfl⟩
    delivers := ⟨_, rfl, rfl⟩
    crypto := rfl
    pricePerByte := rfl
    pricePerRequest := rfl
    pricing := rfl
    documented := toyViem_documented toyCrypto
    readsBack := toyEngine_readsBack
    collisionFree := by
      intro hhex
      exact absurd hhex (by decide) }

end Toy

/-- The nonce 2^53 + 1. -/
def toyOddNonce : { bytes : Bytes // bytes.length = 8 } := ⟨[0, 32, 0, 0, 0, 0, 0, 1], rfl⟩

/-- An honest miner answers a call with that nonce, and the client does not settle. -/
theorem honest_settlement_lost :
    ∃ body preauth inference final,
      let call := HonestCall.typeScript toyScriptClient
        (toyScriptSurroundings toyOddNonce inference) toyScriptRequest preauth
      call.Exchange toyMinerConfig (toyServices body) [] [] [5] 1 0 final ∧
        ¬ call.Settles (toyServices body) final := by
  obtain ⟨body, preauth, inference, final, h⟩ :=
    toyScript_exchange toyOddNonce (by decide +kernel)
  refine ⟨body, preauth, inference, final, h, ?_⟩
  intro hsettles
  obtain ⟨hfits, -, -⟩ := (typeScript_settles h).mp hsettles
  have hround : roundBits 53 (TypeScriptClient.newNonce toyOddNonce.val) =
      TypeScriptClient.newNonce toyOddNonce.val := (roundBits_eq_iff (by decide) _).mpr hfits
  exact absurd hround (by decide +kernel)

/-- With the nonce 3 it settles. -/
theorem honest_settles_small :
    ∃ body preauth inference final, (HonestCall.typeScript toyScriptClient
      (toyScriptSurroundings ⟨[0, 0, 0, 0, 0, 0, 0, 3], rfl⟩ inference) toyScriptRequest
        preauth).Settles (toyServices body) final := by
  obtain ⟨body, preauth, inference, final, h⟩ :=
    toyScript_exchange ⟨[0, 0, 0, 0, 0, 0, 0, 3], rfl⟩ (by decide +kernel)
  have hnonce : roundBits 53 3 = 3 := by decide +kernel
  have hcharge : roundBits 53 2 = 2 := by decide +kernel
  exact ⟨body, preauth, inference, final, (honest_settles_iff h).mpr
    ⟨(roundBits_eq_iff (by decide) 3).mp hnonce, (roundBits_eq_iff (by decide) 2).mp hcharge,
      by decide⟩⟩

end Miner

end BasedAI
