import BasedAI.Chain.Crypto
import BasedAI.Chain.Token
import BasedAI.Lib.Transition
import BasedAI.Reward.RewardDistributor
import BasedAI.Subnet.SubnetRegistry

/-!
# BasedAI — the compute unit market

`ComputeUnitMarket.sol`: users deposit BASED, sign receipts for inference, and
miners redeem the receipts; a redemption is split between the Brain's owner, the
miner and the validators. Withdrawals wait a day.

A redemption reads the subnet registry and writes the reward distributor, so the
market's storage is kept next to theirs and the token's. The last section is the
market as a transition system in which the other contracts, and all traffic that
does not go through the market, may do anything but spend the market's tokens.
-/

namespace BasedAI

open Fallible Mapping

/-! ## Storage -/

/-- A spending receipt. -/
structure Receipt where
  user : Address
  miner : Address
  brainId : BrainId
  promptHash : Bytes32
  /-- hash of the delivered response, or the pre-authorisation sentinel -/
  responseHash : Bytes32
  amount : Fin (2 ^ 256)
  expiry : Fin (2 ^ 64)
  nonce : Fin (2 ^ 256)
  deriving DecidableEq, Repr

/-- A requested withdrawal; `readyAt = 0` is the deleted entry. -/
structure PendingWithdrawal where
  amount : Nat
  readyAt : Nat
  deriving DecidableEq, Repr

inductive MarketRole
  | defaultAdmin
  | pauser
  deriving DecidableEq, Repr

/-- The storage of `ComputeUnitMarket`. -/
structure ComputeUnitMarket where
  paused : Bool
  /-- the most a pre-authorisation may draw -/
  maxReservation : Nat
  pricePerByte : Nat
  pricePerRequest : Nat
  balances : Address → Nat
  usedNonces : Address → Fin (2 ^ 256) → Bool
  pendingWithdrawals : Address → PendingWithdrawal
  roles : AccessControl MarketRole

/-- The market as deployed; the constructor refuses a price of zero. -/
def ComputeUnitMarket.deploy (maxReservation pricePerByte pricePerRequest : Nat)
    (admin : Address) : Exec ComputeUnitMarket := do
  revertIf (¬ (pricePerByte > 0 ∨ pricePerRequest > 0)) (.require "pricing disabled")
  return {
    paused := false
    maxReservation := maxReservation
    pricePerByte := pricePerByte
    pricePerRequest := pricePerRequest
    balances := fun _ => 0
    usedNonces := fun _ _ => false
    pendingWithdrawals := fun _ => ⟨0, 0⟩
    roles := .single .defaultAdmin admin }

/-- What the market is deployed with: the primitives, the token, its own address
and the distributor's, and the chain id. -/
structure MarketEnv (T : Type) where
  crypto : Crypto
  token : Token T
  self : Address
  distributor : Address
  chainId : Fin (2 ^ 256)

/-- The market next to the contracts it calls, and the timestamp of the last
block that touched it. -/
structure MarketState (T : Type) where
  now : Nat
  token : T
  market : ComputeUnitMarket
  subnets : SubnetRegistry
  brainOwners : BrainOwners
  distributor : RewardDistributor

/-! ## The contract -/

namespace ComputeUnitMarket

def WITHDRAW_DELAY : Nat := 24 * 60 * 60
def MAX_RECEIPT_LIFETIME : Nat := 24 * 60 * 60
def BPS_DENOMINATOR : Nat := 10000

/-- The charge for an inference given its usage. -/
def quote (m : ComputeUnitMarket) (promptBytes responseBytes : Nat) : Exec Nat := do
  let usage ← add256 promptBytes responseBytes
  let metered ← mul256 m.pricePerByte usage
  add256 m.pricePerRequest metered

section Digests

variable {T : Type} (env : MarketEnv T)

/-- What `_digest` hashes first. -/
def receiptPreimage (r : Receipt) : Bytes :=
  abiEncode [env.self.val, env.chainId.val, r.user.val, r.miner.val, r.brainId.val,
    r.promptHash.val, r.responseHash.val, r.amount.val, r.expiry.val, r.nonce.val]

/-- The EIP-191 digest a user signs to authorise a receipt. -/
def receiptDigest (r : Receipt) : Bytes32 :=
  env.crypto.toEthSignedMessageHash (env.crypto.keccak256 (receiptPreimage env r))

/-- The `responseHash` of a pre-authorisation, which exists before any response. -/
def sentinel (r : Receipt) : Bytes32 :=
  env.crypto.keccak256 (wordBytes r.promptHash ++ wordBytes r.nonce)

end Digests

section Calls

variable {T : Type} (env : MarketEnv T) (blk : Block) (caller : Address)

def whenNotPaused (m : ComputeUnitMarket) : Exec Unit :=
  revertIf (m.paused = true) .enforcedPause

def whenPaused (m : ComputeUnitMarket) : Exec Unit :=
  revertIf (m.paused = false) .expectedPause

def pause (s : MarketState T) : Exec (MarketState T) := do
  s.market.roles.onlyRole .pauser caller
  s.market.whenNotPaused
  return { s with market := { s.market with paused := true } }

def unpause (s : MarketState T) : Exec (MarketState T) := do
  s.market.roles.onlyRole .pauser caller
  s.market.whenPaused
  return { s with market := { s.market with paused := false } }

def setMaxReservation (newMax : Nat) (s : MarketState T) : Exec (MarketState T) := do
  s.market.roles.onlyRole .defaultAdmin caller
  return { s with market := { s.market with maxReservation := newMax } }

def setPricing (newPricePerByte newPricePerRequest : Nat) (s : MarketState T) :
    Exec (MarketState T) := do
  s.market.roles.onlyRole .defaultAdmin caller
  revertIf (¬ (newPricePerByte > 0 ∨ newPricePerRequest > 0)) (.require "pricing disabled")
  return { s with market := { s.market with
    pricePerByte := newPricePerByte
    pricePerRequest := newPricePerRequest } }

def deposit (amount : Nat) (s : MarketState T) : Exec (MarketState T) := do
  s.market.whenNotPaused
  revertIf (amount = 0) .invalidAmount
  let token ← safeTransferFrom env.token s.token env.self caller env.self amount
  let balance ← add256 (s.market.balances caller) amount
  return { s with
    token := token
    market := { s.market with balances := set s.market.balances caller balance } }

def requestWithdraw (amount : Nat) (s : MarketState T) : Exec (MarketState T) := do
  revertIf (amount = 0) .invalidAmount
  revertIf (s.market.balances caller < amount) .insufficientBalance
  let readyAt ← add64 (uint64 blk.timestamp) WITHDRAW_DELAY
  let pending := set s.market.pendingWithdrawals caller ⟨amount, readyAt⟩
  return { s with market := { s.market with pendingWithdrawals := pending } }

def cancelWithdraw (s : MarketState T) : Exec (MarketState T) := do
  revertIf ((s.market.pendingWithdrawals caller).readyAt = 0) .noPendingWithdrawal
  let pending := set s.market.pendingWithdrawals caller ⟨0, 0⟩
  return { s with market := { s.market with pendingWithdrawals := pending } }

def withdraw (s : MarketState T) : Exec (MarketState T) := do
  let w := s.market.pendingWithdrawals caller
  revertIf (w.readyAt = 0) .noPendingWithdrawal
  revertIf (blk.timestamp < w.readyAt) .withdrawalNotReady
  let bal := s.market.balances caller
  -- receipts redeemed during the delay win
  let amount := if w.amount < bal then w.amount else bal
  revertIf (amount = 0) .insufficientBalance
  let left ← sub256 bal amount
  let market := { s.market with
    pendingWithdrawals := set s.market.pendingWithdrawals caller ⟨0, 0⟩
    balances := set s.market.balances caller left }
  let token ← safeTransfer env.token s.token env.self caller amount
  return { s with token := token, market := market }

/-- The owner's part of `_settle`: pay it, or fold it into the miner's if no owner
is recorded. Returns the token and the miner's amount. -/
def payOwner (owner : Address) (ownerAmount minerAmount : Nat) (token : T) :
    Exec (T × Nat) := do
  if ownerAmount > 0 then
    if owner ≠ 0 then
      let token ← safeTransfer env.token token env.self owner ownerAmount
      return (token, minerAmount)
    else
      let minerAmount ← add256 minerAmount ownerAmount
      return (token, minerAmount)
  else return (token, minerAmount)

/-- The validators' part of `_settle`: custody first, then the accrual. -/
def payValidators (brainId : BrainId) (validatorAmount : Nat) (token : T)
    (distributor : RewardDistributor) : Exec (T × RewardDistributor) := do
  if validatorAmount > 0 then
    let token ← safeTransfer env.token token env.self env.distributor validatorAmount
    let distributor ← distributor.recordFees env.self brainId validatorAmount
    return (token, distributor)
  else return (token, distributor)

/-- `_settle`: split `amount` between owner, validators and miner; all basis points
are of the gross amount. -/
def settle (brainId : BrainId) (miner : Address) (amount : Nat) (s : MarketState T) :
    Exec (MarketState T) := do
  let sn := s.subnets.getSubnet s.brainOwners brainId
  if sn.active = false then
    let token ← safeTransfer env.token s.token env.self miner amount
    return { s with token := token }
  else
    let ownerProduct ← mul256 amount sn.ownerSplitBps.val
    let ownerAmount := ownerProduct / BPS_DENOMINATOR
    let nodeShare ← sub256 amount ownerAmount
    let minerProduct ← mul256 nodeShare sn.minerShareBps.val
    let minerAmount := minerProduct / BPS_DENOMINATOR
    let validatorAmount ← sub256 nodeShare minerAmount
    let (token, minerAmount) ← payOwner env sn.owner ownerAmount minerAmount s.token
    let (token, distributor) ←
      payValidators env brainId validatorAmount token s.distributor
    let token ← safeTransfer env.token token env.self miner minerAmount
    return { s with token := token, distributor := distributor }

/-- The storage in which `r` is debited and its nonce used, `left` being what stays
of the balance. -/
def debited (m : ComputeUnitMarket) (r : Receipt) (left : Nat) : ComputeUnitMarket :=
  { m with
    usedNonces := set₂ m.usedNonces r.user r.nonce true
    balances := set m.balances r.user left }

/-- Everything `redeem` requires before it writes anything. -/
def redeemChecks (m : ComputeUnitMarket) (r : Receipt) (userSig : Bytes) : Exec Unit := do
  m.whenNotPaused
  revertIf (r.expiry.val < blk.timestamp) .expiredReceipt
  let horizon ← add256 blk.timestamp MAX_RECEIPT_LIFETIME
  revertIf (horizon < r.expiry.val) .receiptLifetimeTooLong
  revertIf (r.responseHash = 0) .emptyResponse
  revertIf (r.amount.val = 0) .invalidAmount
  -- a pre-authorisation is a bounded fallback
  revertIf (r.responseHash = sentinel env r ∧ m.maxReservation < r.amount.val)
    .reservationExceedsCap
  revertIf (m.usedNonces r.user r.nonce = true) .nonceUsed
  revertIf (m.balances r.user < r.amount.val) .insufficientBalance
  revertIf (caller ≠ r.miner) .invalidSignature
  let recovered ← orRevert .ecdsaInvalidSignature
    (env.crypto.recover (receiptDigest env r) userSig)
  revertIf (recovered ≠ r.user) .invalidSignature

def redeem (r : Receipt) (userSig : Bytes) (s : MarketState T) : Exec (MarketState T) := do
  redeemChecks env blk caller s.market r userSig
  let left ← sub256 (s.market.balances r.user) r.amount.val
  settle env r.brainId r.miner r.amount.val { s with market := s.market.debited r left }

end Calls

end ComputeUnitMarket

/-! ## The market as a transition system -/

/-- A call to one of the market's entry points. -/
inductive MarketCall
  | deposit (amount : Nat)
  | requestWithdraw (amount : Nat)
  | cancelWithdraw
  | withdraw
  | redeem (r : Receipt) (userSig : Bytes)
  | pause
  | unpause
  | setMaxReservation (newMax : Nat)
  | setPricing (newPricePerByte newPricePerRequest : Nat)
  | grantRole (role : MarketRole) (account : Address)
  | revokeRole (role : MarketRole) (account : Address)
  | renounceRole (role : MarketRole) (callerConfirmation : Address)

/-- Replace the role table. -/
def MarketState.withRoles {T : Type} (s : MarketState T) (roles : AccessControl MarketRole) :
    MarketState T :=
  { s with market := { s.market with roles := roles } }

/-- Execute a call sent by `caller` in block `blk`. -/
def MarketCall.exec {T : Type} (env : MarketEnv T) (blk : Block) (caller : Address)
    (s : MarketState T) : MarketCall → Exec (MarketState T)
  | .deposit amount => ComputeUnitMarket.deposit env caller amount s
  | .requestWithdraw amount => ComputeUnitMarket.requestWithdraw blk caller amount s
  | .cancelWithdraw => ComputeUnitMarket.cancelWithdraw caller s
  | .withdraw => ComputeUnitMarket.withdraw env blk caller s
  | .redeem r userSig => ComputeUnitMarket.redeem env blk caller r userSig s
  | .pause => ComputeUnitMarket.pause caller s
  | .unpause => ComputeUnitMarket.unpause caller s
  | .setMaxReservation newMax => ComputeUnitMarket.setMaxReservation caller newMax s
  | .setPricing perByte perRequest =>
    ComputeUnitMarket.setPricing caller perByte perRequest s
  | .grantRole role account =>
    s.withRoles <$> s.market.roles.grantRole .defaultAdmin caller role account
  | .revokeRole role account =>
    s.withRoles <$> s.market.roles.revokeRole .defaultAdmin caller role account
  | .renounceRole role confirmation =>
    s.withRoles <$> s.market.roles.renounceRole caller role confirmation

/-- What can happen to the market: a call by anyone, or anything else on the chain. -/
inductive MarketLabel
  | call (blk : Block) (caller : Address) (c : MarketCall)
  | elsewhere

/-- Calls that revert are not steps; time does not run backwards. The market never
calls itself, and nobody else can spend the tokens it holds. -/
inductive MarketStep {T : Type} (env : MarketEnv T) :
    MarketState T → MarketLabel → MarketState T → Prop
  | call {s s' : MarketState T} (blk : Block) (caller : Address) (c : MarketCall) :
      s.now ≤ blk.timestamp → caller ≠ env.self → c.exec env blk caller s = .ok s' →
      MarketStep env s (.call blk caller c) { s' with now := blk.timestamp }
  | elsewhere {s : MarketState T} (token : T) (subnets : SubnetRegistry)
      (brainOwners : BrainOwners) (distributor : RewardDistributor) :
      env.token.balanceOf s.token env.self ≤ env.token.balanceOf token env.self →
      MarketStep env s .elsewhere
        { s with
          token := token
          subnets := subnets
          brainOwners := brainOwners
          distributor := distributor }

end BasedAI
