import BasedAI.Market.Solvency
import BasedAI.Miner.Handlers

/-!
# BasedAI — what the miner works for

Before it works, the miner checks the pre-authorisation against the market: the parties,
the expiry, the nonce, the balance and the signature. The market checks more when the
receipt is redeemed: that it does not live too long, that the response hash and the
amount are not zero, and that a pre-authorisation stays within the cap. And its signature
library refuses signatures that the miner's accepts.

* `verifyUserSignature_ok` — what a valid signature is over;
* `preimage_eq`            — the miner and the market hash the same bytes;
* `job_redeemable_iff`     — when a receipt that is worked for can be redeemed.
-/

namespace BasedAI

open Fallible Python ComputeUnitMarket

namespace Miner

variable {T : Type} {env : MarketEnv T} {config : MinerConfig} {o : Offchain} {s : Services}

/-! ## Receipts under their digest -/

/-- The words of `e` are what the receipt says. -/
structure Denotes (config : MinerConfig) (r : Receipt) (e : EncodedReceipt) : Prop where
  market : hexAddress config.market = some e.market
  chainId : (e.chainId.val : Int) = config.chainId
  user : hexAddress r.user = some e.receipt.user
  miner : hexAddress r.miner = some e.receipt.miner
  brainId : (e.receipt.brainId.val : Int) = r.brainId
  amount : (e.receipt.amount.val : Int) = r.amount
  expiry : (e.receipt.expiry.val : Int) = r.expiry
  nonce : (e.receipt.nonce.val : Int) = r.nonce

theorem encodeAddress_text {t : Text} {a : Address}
    (h : encodeAddress (.str t) = .ok a) : hexAddress t = some a := by
  obtain ⟨t', ht, ha⟩ := encodeAddress_ok h
  exact Json.str.inj ht ▸ ha

theorem encodeReceipt_ok {r : Receipt} {e : EncodedReceipt}
    (h : encodeReceipt config r = .ok e) : Denotes config r e := by
  unfold encodeReceipt at h
  simp only [bind_ok, return_ok] at h
  obtain ⟨_, -, _, -, market, hmarket, chainId, hchainId, user, huser, miner, hminer, brainId,
    hbrainId, promptHash, -, responseHash, -, amount, hamount, expiry, hexpiry, nonce, hnonce,
    rfl⟩ := h
  exact {
    market := encodeAddress_text hmarket
    chainId := encodeUint_ok hchainId
    user := encodeAddress_text huser
    miner := encodeAddress_text hminer
    brainId := encodeUint_ok hbrainId
    amount := encodeUint_ok hamount
    expiry := encodeUint_ok hexpiry
    nonce := encodeUint_ok hnonce }

/-- What a valid signature is over. -/
theorem verifyUserSignature_ok {r : Receipt} {sig : Json}
    (h : verifyUserSignature o config r sig = .ok true) :
    ∃ e bytes, encodeReceipt config r = .ok e ∧ signatureBytes sig = .ok bytes ∧
      o.recoverMessage (o.crypto.messageDigest e.preimage) bytes = some e.receipt.user := by
  unfold verifyUserSignature at h
  simp only [bind_ok, return_ok, orRevert_ok] at h
  obtain ⟨e, he, bytes, hbytes, signer, hsigner, hsame⟩ := h
  refine ⟨e, bytes, he, hbytes, ?_⟩
  -- the same text up to case, so the same address
  have huser : signer = e.receipt.user :=
    hexAddress_eq_of_lower (hexAddress_toChecksum o.crypto signer) (encodeReceipt_ok he).user
      (of_decide_eq_true hsame)
  rw [hsigner, huser]

/-! ## The market the miner serves -/

/-- The miner is configured for the market. -/
structure Configured (env : MarketEnv T) (config : MinerConfig) (o : Offchain) : Prop where
  market : hexAddress config.market = some env.self
  chainId : config.chainId = env.chainId.val
  crypto : o.crypto = env.crypto

/-- What the services read of the market is its storage. A read may fail. -/
structure Sees (m : ComputeUnitMarket) (s : Services) : Prop where
  usedNonces : ∀ u n used, s.usedNonces u n = some used → used = m.usedNonces u n
  balances : ∀ u balance, s.balances u = some balance → balance = m.balances u
  pricePerByte : ∀ price, s.pricePerByte = some price → price = m.pricePerByte
  pricePerRequest : ∀ price, s.pricePerRequest = some price → price = m.pricePerRequest

/-- **The two digests agree**: the miner and the market hash the same bytes. -/
theorem preimage_eq (hconfig : Configured env config o) {r : Receipt} {e : EncodedReceipt}
    (h : Denotes config r e) : e.preimage = receiptPreimage env e.receipt := by
  have hmarket : e.market = env.self := by
    rw [← Option.some.injEq, ← h.market, hconfig.market]
  have hchain : e.chainId.val = env.chainId.val := by
    have hsame := h.chainId
    rw [hconfig.chainId] at hsame
    exact_mod_cast hsame
  rw [EncodedReceipt.preimage, receiptPreimage, hmarket, hchain]

theorem digest_eq (hconfig : Configured env config o) {r : Receipt} {e : EncodedReceipt}
    (h : Denotes config r e) : o.crypto.messageDigest e.preimage = receiptDigest env e.receipt := by
  rw [preimage_eq hconfig h, hconfig.crypto]
  rfl

section Eligible

variable {m : ComputeUnitMarket} {r : Receipt} {e : EncodedReceipt} {required : Int}

/-- The nonce the miner has asked for is not used. -/
theorem Eligible.nonce (h : Eligible config s r required) (hsees : Sees m s)
    (he : Denotes config r e) : m.usedNonces e.receipt.user e.receipt.nonce = false := by
  have hread := h.unused
  simp only [readNonce, Option.bind_eq_bind, Option.bind_eq_some_iff, toOption_ok] at hread
  obtain ⟨user, huser, nonce, hnonce, hunused⟩ := hread
  rw [he.user, Option.some.injEq] at huser
  have hsame : nonce = e.receipt.nonce := by
    apply Fin.ext
    have hval : (nonce.val : Int) = r.nonce := encodeUint_ok hnonce
    rw [← he.nonce] at hval
    exact_mod_cast hval
  rw [huser, ← hsame]
  exact (hsees.usedNonces _ _ _ hunused).symm

/-- The balance the miner has read covers what it requires. -/
theorem Eligible.covered (h : Eligible config s r required) (hsees : Sees m s)
    (he : Denotes config r e) : required ≤ (m.balances e.receipt.user : Int) := by
  obtain ⟨balance, hread, hle⟩ := h.balance
  simp only [readBalance, Option.bind_eq_bind, Option.bind_eq_some_iff] at hread
  obtain ⟨user, huser, hbalance⟩ := hread
  rw [he.user, Option.some.injEq] at huser
  rw [huser, ← hsees.balances _ _ hbalance]
  exact hle

/-- The receipt is for this miner. -/
theorem Eligible.own (h : Eligible config s r required) (he : Denotes config r e) :
    e.receipt.miner = config.account.address :=
  hexAddress_eq_of_lower he.miner (hexAddress_toChecksum s.crypto config.account.address) h.miner

end Eligible

/-! ## What the miner does not check -/

/-- What the market requires of a receipt beyond what the miner has checked. -/
structure Unchecked (env : MarketEnv T) (m : ComputeUnitMarket) (s : Services)
    (r : BasedAI.Receipt) (sig : Bytes) : Prop where
  lifetime : (r.expiry.val : Int) ≤ s.time + MAX_RECEIPT_LIFETIME
  response : r.responseHash ≠ 0
  amount : r.amount.val ≠ 0
  cap : r.responseHash = sentinel env r → r.amount.val ≤ m.maxReservation
  /-- the two libraries agree on the signature -/
  signature : env.crypto.recover (receiptDigest env r) sig =
    s.recoverMessage (receiptDigest env r) sig

/-- **When a receipt that is worked for can be redeemed.** If the miner accepts a request,
and so works for it, the market would let it redeem the receipt at the same time and in
the same state just when the receipt also meets what the miner does not check. -/
theorem job_redeemable_iff {m : ComputeUnitMarket} {blk : Block} {payload : Bytes} {job : Job}
    (hconfig : Configured env config s.toOffchain) (hsees : Sees m s)
    (htime : s.time = blk.timestamp) (hopen : m.paused = false)
    (hchecked : admitInfer config s payload = .ok job) :
    ∃ e sig, encodeReceipt config job.receipt = .ok e ∧
      signatureBytes job.userSig = .ok sig ∧
      (redeemChecks env blk config.account.address m e.receipt sig = .ok () ↔
        Unchecked env m s e.receipt sig) := by
  obtain ⟨-, reqData, -, hadmitted⟩ := admitInfer_ok.mp hchecked
  obtain ⟨e, sig, he, hsig, hsigner⟩ := verifyUserSignature_ok hadmitted.signature
  have hdenotes : Denotes config job.receipt e := encodeReceipt_ok he
  rw [digest_eq hconfig hdenotes] at hsigner
  refine ⟨e, sig, he, hsig, ?_⟩
  have heligible := hadmitted.eligible
  have hnonce := heligible.nonce hsees hdenotes
  have hcovered := heligible.covered hsees hdenotes
  have hown := heligible.own hdenotes
  have hunexpired : s.time < (e.receipt.expiry.val : Int) := by
    rw [hdenotes.expiry]
    exact heligible.unexpired
  -- the budget that was checked is at least the amount
  have hamount : e.receipt.amount.val ≤ m.balances e.receipt.user := by
    obtain ⟨_, asked, -, -, hbudget⟩ := hadmitted.budget
    have hle := le_max_right asked job.receipt.amount
    rw [← hbudget, ← hdenotes.amount] at hle
    omega
  have hlt : blk.timestamp < 2 ^ 64 := blk.timestamp_lt
  rw [redeemChecks_ok]
  constructor
  · rintro ⟨-, -, -, hlife, hresponse, hpositive, hcap, -, -, -, hrecover⟩
    exact ⟨by omega, hresponse, hpositive, hcap, by rw [hrecover, hsigner]⟩
  · rintro ⟨hlife, hresponse, hpositive, hcap, hagree⟩
    have hday : MAX_RECEIPT_LIFETIME = 86400 := rfl
    refine ⟨hopen, by omega, by omega, by omega, hresponse, hpositive, hcap, hnonce, hamount,
      hown.symm, ?_⟩
    rw [hagree, hsigner]

/-! ## A receipt that lives too long -/

/-- Account 7 mines Brain 3 on the toy market. -/
def toyDesk : MinerConfig where
  market := text "0x0000000000000000000000000000000000000014"
  chainId := 1
  brainId := 3
  account := { address := 7, sign := fun digest => [7, UInt8.ofNat digest.val] }

/-- Account 2 pre-authorises 40 for a prompt of one byte. -/
def toyPreauthBody (expiry nonce : Int) (response : Bytes32) (signature : Text) : Json :=
  .dict [
    (text "prompt", .str [1]),
    (text "receipt", .dict [
      (text "user", .str (text "0x0000000000000000000000000000000000000002")),
      (text "miner", .str (text "0x0000000000000000000000000000000000000007")),
      (text "brain_id", .int 3),
      (text "prompt_hash", .str (hexText 1)),
      (text "response_hash", .str (hexText response)),
      (text "amount", .int 40),
      (text "expiry", .int expiry),
      (text "nonce", .int nonce)]),
    (text "user_signature", .str signature)]

/-- With nonce 3. -/
def toyRequestBody (expiry : Int) : Json := toyPreauthBody expiry 3 3 (text "0x0203")

/-- The toy market, where account 2 has deposited 1000. -/
def toyFunded : ComputeUnitMarket :=
  { toyMarketStart.market with balances := Mapping.set (fun _ => 0) 2 1000 }

/-- The miner at the moment 150, asked with `body`. -/
def toyDeskServices (body : Json) : Services where
  crypto := toyCrypto
  unicode := { lower := id, digit := fun _ => none, isSpace := fun _ => false }
  repr _ := []
  recoverMessage := toyCrypto.recover
  time := 150
  loads _ := .ok body
  strOf _ := []
  backend := some fun _ => .ok [5]
  usedNonces _ _ := some false
  balances u := some (toyFunded.balances u)
  pricePerByte := some 1
  pricePerRequest := some 0

theorem toyDesk_configured (body : Json) :
    Configured toyMarket toyDesk (toyDeskServices body).toOffchain where
  market := by decide +kernel
  chainId := rfl
  crypto := rfl

theorem toyDesk_sees (body : Json) : Sees toyFunded (toyDeskServices body) where
  usedNonces := by
    rintro u n used ⟨⟩
    rfl
  balances := by
    rintro u balance ⟨⟩
    rfl
  pricePerByte := by
    rintro price ⟨⟩
    rfl
  pricePerRequest := by
    rintro price ⟨⟩
    rfl

set_option maxRecDepth 8000 in
/-- A pre-authorisation that is in date until 200 is worked for. -/
theorem toyDesk_admits : ∃ job e,
    admitInfer toyDesk (toyDeskServices (toyRequestBody 200)) [] = .ok job ∧
      encodeReceipt toyDesk job.receipt = .ok e ∧
      signatureBytes job.userSig = .ok [2, 3] ∧
      e.receipt = { toyReceipt with responseHash := 3 } ∧
      ∃ response, generate (toyDeskServices (toyRequestBody 200)) job.prompt = .ok response :=
  ⟨_, _, rfl, rfl, rfl, rfl, _, rfl⟩

/-- It can be redeemed at once. -/
theorem job_redeemable_preauth : ∃ job e sig,
    admitInfer toyDesk (toyDeskServices (toyRequestBody 200)) [] = .ok job ∧
      encodeReceipt toyDesk job.receipt = .ok e ∧
      redeemChecks toyMarket ⟨150, by decide⟩ 7 toyFunded e.receipt sig = .ok () := by
  obtain ⟨job, e', hchecked, he', -, hreceipt, -⟩ := toyDesk_admits
  obtain ⟨e, sig, he, -, hiff⟩ := @job_redeemable_iff Ledger toyMarket toyDesk _ toyFunded
    ⟨150, by decide⟩ [] job (toyDesk_configured _) (toyDesk_sees _) rfl rfl hchecked
  obtain rfl := Except.ok.inj (he'.symm.trans he)
  refine ⟨job, e', sig, hchecked, he, hiff.mpr ?_⟩
  rw [hreceipt]
  exact {
    lifetime := by decide
    response := by decide
    amount := by decide
    cap := fun _ => by decide
    signature := rfl }

set_option maxRecDepth 8000 in
/-- One that is in date for more than a day is worked for as well, and cannot be
redeemed. -/
theorem job_lives_too_long : ∃ job e sig,
    Configured toyMarket toyDesk (toyDeskServices (toyRequestBody 200000)).toOffchain ∧
      Sees toyFunded (toyDeskServices (toyRequestBody 200000)) ∧
      admitInfer toyDesk (toyDeskServices (toyRequestBody 200000)) [] = .ok job ∧
      encodeReceipt toyDesk job.receipt = .ok e ∧
      signatureBytes job.userSig = .ok sig ∧
      redeemChecks toyMarket ⟨150, by decide⟩ 7 toyFunded e.receipt sig =
        .error .receiptLifetimeTooLong :=
  ⟨_, _, _, toyDesk_configured _, toyDesk_sees _, rfl, rfl, rfl, rfl⟩

end Miner

end BasedAI
