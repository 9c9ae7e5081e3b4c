import BasedAI.Chain.Offchain
import BasedAI.Client.BasedClient

/-!
# BasedAI — the miner's receipts

`receipts.py`: a receipt as the miner keeps it, the check of the user's signature, and
the batcher, a list of receipts to redeem.

A receipt comes out of a request, so its two hashes are unchecked until a digest is
taken over them. A flush asks the node about every receipt in turn: what it answers is
the node's affair, and what it refused stays queued.
-/

namespace BasedAI

open Fallible Python

namespace Miner

structure Receipt where
  user : Text
  miner : Text
  brainId : Int
  promptHash : Json
  responseHash : Json
  /-- in wei of BASED -/
  amount : Int
  /-- unix timestamp -/
  expiry : Int
  nonce : Int

structure MinerConfig where
  market : Text
  chainId : Int
  brainId : Int
  account : Account

section Digest

variable (o : Offchain) (config : MinerConfig)

/-- A receipt under its digest: the market, the chain and the words of the fields. -/
structure EncodedReceipt where
  market : Address
  chainId : Fin (2 ^ 256)
  receipt : BasedAI.Receipt

/-- What `receipt_digest` hashes. -/
def EncodedReceipt.preimage (e : EncodedReceipt) : Bytes :=
  abiEncode [e.market.val, e.chainId.val, e.receipt.user.val, e.receipt.miner.val,
    e.receipt.brainId.val, e.receipt.promptHash.val, e.receipt.responseHash.val,
    e.receipt.amount.val, e.receipt.expiry.val, e.receipt.nonce.val]

/-- The values `receipt_digest` encodes. -/
def encodeReceipt (r : Receipt) : Py EncodedReceipt := do
  let promptBytes ← BasedClient.hashBytes r.promptHash
  let responseBytes ← BasedClient.hashBytes r.responseHash
  let market ← encodeAddress (.str config.market)
  let chainId ← encodeUint 256 config.chainId
  let user ← encodeAddress (.str r.user)
  let miner ← encodeAddress (.str r.miner)
  let brainId ← encodeUint 256 r.brainId
  let promptHash ← encodeBytes32 promptBytes
  let responseHash ← encodeBytes32 responseBytes
  let amount ← encodeUint 256 r.amount
  let expiry ← encodeUint 64 r.expiry
  let nonce ← encodeUint 256 r.nonce
  return ⟨market, chainId,
    ⟨user, miner, brainId, promptHash, responseHash, amount, expiry, nonce⟩⟩

/-- `verify_user_signature`. -/
def verifyUserSignature (r : Receipt) (sig : Json) : Py Bool := do
  let e ← encodeReceipt config r
  let bytes ← signatureBytes sig
  let recovered ← orRaise .badSignature
    (o.recoverMessage (o.crypto.messageDigest e.preimage) bytes)
  return lower o.unicode (toChecksum o.crypto recovered) = lower o.unicode r.user

end Digest

/-! ## The batcher -/

/-- A receipt with the user's signature. -/
abbrev Entry := Receipt × Json

/-- `ReceiptBatcher._pending`. -/
abbrev Pending := List Entry

namespace ReceiptBatcher

/-- `add`. -/
def add (pending : Pending) (receipt : Receipt) (userSig : Json) : Pending :=
  pending ++ [(receipt, userSig)]

/-- The two receipts are of one user, up to the case of the address, and one nonce. -/
def sameKey (u : Unicode) (r receipt : Receipt) : Bool :=
  lower u r.user = lower u receipt.user ∧ r.nonce = receipt.nonce

/-- `add_or_replace`. -/
def addOrReplace (u : Unicode) (pending : Pending) (receipt : Receipt) (userSig : Json) :
    Pending :=
  pending.filter (fun e => !sameKey u e.1 receipt) ++ [(receipt, userSig)]

/-- How sending a transaction ends: the node takes it, or the call raises before the node
has it, or after. -/
inductive Sending
  | taken
  | refused
  | unconfirmed

/-- The loop of `flush`, where `sending i` is how it ends for the entry at `i`. Returns what
the node took, and what is retained: whatever the call raised for. -/
def flushFrom (sending : Nat → Sending) (i : Nat) : Pending → Pending × Pending
  | [] => ([], [])
  | e :: rest =>
    let (taken, retained) := flushFrom sending (i + 1) rest
    match sending i with
    | .taken => (e :: taken, retained)
    | .refused => (taken, e :: retained)
    | .unconfirmed => (e :: taken, e :: retained)

/-- `flush`. -/
def flush (sending : Nat → Sending) (pending : Pending) : Pending × Pending :=
  flushFrom sending 0 pending

/-! ## What is queued -/

variable {u : Unicode} {r r' r'' : Receipt} {e f : Entry} {pending : Pending}

theorem sameKey_eq : sameKey u r r' = true ↔
    lower u r.user = lower u r'.user ∧ r.nonce = r'.nonce := by
  rw [sameKey, decide_eq_true_eq]

theorem sameKey_self (u : Unicode) (r : Receipt) : sameKey u r r = true :=
  sameKey_eq.mpr ⟨rfl, rfl⟩

theorem sameKey_trans (h : sameKey u r r' = true) (h' : sameKey u r' r'' = true) :
    sameKey u r r'' = true := by
  rw [sameKey_eq] at h h' ⊢
  exact ⟨h.1.trans h'.1, h.2.trans h'.2⟩

theorem sameKey_symm (h : sameKey u r r' = true) : sameKey u r' r = true := by
  rw [sameKey_eq] at h ⊢
  exact ⟨h.1.symm, h.2.symm⟩

/-- What stays queued behind a new receipt: everything of other keys, and the receipt. -/
theorem mem_addOrReplace : f ∈ addOrReplace u pending e.1 e.2 ↔
    f ∈ pending ∧ sameKey u f.1 e.1 = false ∨ f = e := by
  rw [addOrReplace, List.mem_append, List.mem_filter, List.mem_singleton, Bool.not_eq_true']

/-- What is sent and what is retained was queued. -/
theorem mem_flushFrom {sending : Nat → Sending} {i : Nat}
    (h : e ∈ (flushFrom sending i pending).1 ∨ e ∈ (flushFrom sending i pending).2) :
    e ∈ pending := by
  induction pending generalizing i with
  | nil => exact h.elim id id
  | cons d rest ih =>
    unfold flushFrom at h
    dsimp only at h
    cases hsending : sending i <;> rw [hsending] at h <;> dsimp only at h <;>
      grind

/-- Unless a call raises for what the node took, everything is either sent or retained. -/
theorem countP_flushFrom {sending : Nat → Sending} {p : Entry → Bool} {i : Nat}
    (h : ∀ j e, pending[j]? = some e → p e = true → sending (i + j) ≠ .unconfirmed) :
    (flushFrom sending i pending).1.countP p + (flushFrom sending i pending).2.countP p =
      pending.countP p := by
  induction pending generalizing i with
  | nil => rfl
  | cons d rest ih =>
    have hrest := @ih (i + 1) (by
      intro j e he
      have hj := h (j + 1) e he
      rwa [← Nat.add_assoc, Nat.add_right_comm] at hj)
    have hd := h 0 d rfl
    unfold flushFrom
    dsimp only
    cases hsending : sending i with
    | taken =>
      dsimp only
      rw [List.countP_cons, List.countP_cons]
      omega
    | refused =>
      dsimp only
      rw [List.countP_cons, List.countP_cons]
      omega
    | unconfirmed =>
      -- only an entry that does not count is sent and retained
      have hnot : ¬ p d = true := fun hp => hd hp hsending
      dsimp only
      rw [List.countP_cons_of_neg hnot, List.countP_cons_of_neg hnot,
        List.countP_cons_of_neg hnot]
      exact hrest

end ReceiptBatcher

end Miner

end BasedAI
