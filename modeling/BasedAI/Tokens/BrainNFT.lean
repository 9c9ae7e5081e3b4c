import BasedAI.Chain.AccessControl
import BasedAI.Chain.Token

/-!
# BasedAI — the Brain NFT

`BrainNFT.sol`: a Brain is minted for a stake in one of two tokens, and burned when the
stake is taken back. Nobody transfers a Brain, except to and from the endpoints of the
bridge.

Minting and burning call other contracts: the token that is staked, and the account that
receives the Brain. A function that calls out is given in the parts between its calls;
`Pending` is what an interrupted call has left to do, and `Pending.resume` does it.
-/

namespace BasedAI

open Fallible Mapping

/-! ## Storage -/

/-- `IBrainNFT.StakeAsset`. -/
inductive StakeAsset
  | none
  | pepecoin
  | basedAI
  deriving DecidableEq, Repr

inductive BrainRole
  | defaultAdmin
  | governance
  deriving DecidableEq, Repr

structure StakeRecord where
  staker : Address
  unlockAt : Nat
  asset : StakeAsset
  amount : Nat
  deriving DecidableEq

/-- What `delete` leaves. -/
def StakeRecord.empty : StakeRecord := ⟨0, 0, .none, 0⟩

/-- The storage of `BrainNFT`. -/
structure BrainNFT where
  pepecoinStakeAmount : Nat
  basedStakeAmount : Nat
  lastPepecoinStakeUpdate : Nat
  lastBasedStakeUpdate : Nat
  bridge : Address
  isBridgeEndpoint : Address → Bool
  totalSupply : Nat
  nextPublicId : Nat
  stakes : BrainId → StakeRecord
  -- what it inherits: the owners and their approvals, the guard, the roles
  owners : BrainId → Option Address
  tokenApprovals : BrainId → Address
  operatorApprovals : Address → Address → Bool
  entered : Bool
  roles : AccessControl BrainRole

/-- What the NFT is deployed with, its own address, and the code of the tokens. -/
structure BrainNFTEnv (T : Type) where
  PEPECOIN : Address
  BASEDAI : Address
  self : Address
  token : Address → Token T

/-- The NFT next to the tokens, at their addresses. -/
structure BrainState (T : Type) where
  nft : BrainNFT
  tokens : Address → T

namespace BrainNFT

def MAX_SUPPLY : Nat := 64
def FIRST_PUBLIC_ID : Nat := 7
def STAKE_LOCK_DURATION : Nat := 90 * 24 * 60 * 60
def STAKE_ADJUST_COOLDOWN : Nat := 90 * 24 * 60 * 60

/-- The NFT as deployed. -/
def deploy (initialPepecoinStake initialBasedStake : Nat) (governance : Address) :
    BrainNFT where
  pepecoinStakeAmount := initialPepecoinStake
  basedStakeAmount := initialBasedStake
  lastPepecoinStakeUpdate := 0
  lastBasedStakeUpdate := 0
  bridge := 0
  isBridgeEndpoint _ := false
  totalSupply := 0
  nextPublicId := FIRST_PUBLIC_ID
  stakes _ := .empty
  owners _ := none
  tokenApprovals _ := 0
  operatorApprovals _ _ := false
  entered := false
  roles := ⟨fun _ a => decide (a = governance)⟩

variable (nft : BrainNFT)

/-! ## Ownership -/

/-- `_isBridgeEndpoint`. -/
def endpoint (a : Address) : Bool :=
  decide (a ≠ 0) && (decide (a = nft.bridge) || nft.isBridgeEndpoint a)

/-- `ERC721._isAuthorized`. -/
def isAuthorized (owner spender : Address) (tokenId : BrainId) : Bool :=
  decide (spender ≠ 0) && (decide (owner = spender) || nft.operatorApprovals owner spender ||
    decide (nft.tokenApprovals tokenId = spender))

/-- `ERC721._checkAuthorized`, where an `auth` is given. -/
def checkAuthorized (owner : Option Address) (tokenId : BrainId) : Option Address → Exec Unit
  | none => .ok ()
  | some spender => do
    let owner ← orRevert .erc721NonexistentToken owner
    revertIf (nft.isAuthorized owner spender tokenId = false) .erc721InsufficientApproval

/-- What `_update` adds: a Brain that exists moves only into or out of an endpoint. -/
def checkRestricted : Option Address → Option Address → Exec Unit
  | some src, some dst =>
    revertIf (nft.endpoint src = false ∧ nft.endpoint dst = false) .transferRestricted
  | _, _ => .ok ()

/-- `_update`, to nobody where the Brain is burned, with no `auth` where it is not checked:
the owner before. -/
def update (recipient : Option Address) (tokenId : BrainId) (auth : Option Address) :
    Exec (Option Address × BrainNFT) := do
  let owner := nft.owners tokenId
  nft.checkRestricted owner recipient
  nft.checkAuthorized owner tokenId auth
  return (owner, { nft with
    owners := set nft.owners tokenId recipient
    -- an owner's approval ends with its ownership
    tokenApprovals := if owner.isSome then set nft.tokenApprovals tokenId 0
      else nft.tokenApprovals })

/-- `ERC721._mint`. -/
def mint (recipient : Address) (tokenId : BrainId) : Exec BrainNFT := do
  revertIf (recipient = 0) .erc721InvalidReceiver
  let (previousOwner, nft) ← nft.update (some recipient) tokenId none
  revertIf (previousOwner.isSome = true) .erc721InvalidSender
  return nft

/-- `ERC721._burn`. -/
def burn (tokenId : BrainId) : Exec BrainNFT := do
  let (previousOwner, nft) ← nft.update none tokenId none
  revertIf (previousOwner = none) .erc721NonexistentToken
  return nft

def transferFrom (caller src recipient : Address) (tokenId : BrainId) : Exec BrainNFT := do
  revertIf (recipient = 0) .erc721InvalidReceiver
  let (previousOwner, nft) ← nft.update (some recipient) tokenId (some caller)
  revertIf (previousOwner ≠ some src) .erc721IncorrectOwner
  return nft

def approve (caller spender : Address) (tokenId : BrainId) : Exec BrainNFT := do
  let owner ← orRevert .erc721NonexistentToken (nft.owners tokenId)
  revertIf (owner ≠ caller ∧ nft.operatorApprovals owner caller = false) .erc721InvalidApprover
  return { nft with tokenApprovals := set nft.tokenApprovals tokenId spender }

def setApprovalForAll (caller operator : Address) (approved : Bool) : Exec BrainNFT := do
  revertIf (operator = 0) .erc721InvalidOperator
  return { nft with operatorApprovals := set₂ nft.operatorApprovals caller operator approved }

/-! ## The guard -/

/-- `ReentrancyGuard._nonReentrantBefore`. -/
def nonReentrantBefore : Exec BrainNFT := do
  revertIf (nft.entered = true) .reentrancyGuardReentrantCall
  return { nft with entered := true }

/-- `ReentrancyGuard._nonReentrantAfter`. -/
def nonReentrantAfter : BrainNFT := { nft with entered := false }

/-! ## Minting and burning -/

/-- The next id as a word. -/
def candidate : BrainId := Fin.ofNat _ nft.nextPublicId

/-- `_allocateBrainId`. -/
def allocateBrainId : Exec BrainNFT := do
  revertIf (MAX_SUPPLY ≤ nft.nextPublicId) .maxSupplyReached
  let next ← add256 nft.nextPublicId 1
  let supply ← add256 nft.totalSupply 1
  return { nft with nextPublicId := next, totalSupply := supply }

end BrainNFT

/-- What a call that has called out does next. -/
inductive Pending
  /-- take the stake -/
  | funding (blk : Block) (staker : Address) (asset : StakeAsset) (amount : Nat)
  /-- mint, as the token has taken the stake -/
  | funded (blk : Block) (staker : Address) (asset : StakeAsset) (amount : Nat)
  /-- end, as the receiver has acknowledged the Brain -/
  | received (guarded : Bool)
  /-- refund the stake -/
  | paying (blk : Block) (brainId : BrainId) (record : StakeRecord)
  /-- end, as the token has refunded it -/
  | paid

namespace BrainNFT

variable (blk : Block) (caller : Address) (nft : BrainNFT)

/-- The two mints, up to the call of the token. -/
def mintByStake (asset : StakeAsset) (amount : Nat) : Exec (Option Pending × BrainNFT) := do
  let nft ← nft.nonReentrantBefore
  return (some (.funding blk caller asset amount), nft)

def mintByPepecoinStake : Exec (Option Pending × BrainNFT) :=
  mintByStake blk caller nft .pepecoin nft.pepecoinStakeAmount

def mintByBasedStake : Exec (Option Pending × BrainNFT) :=
  mintByStake blk caller nft .basedAI nft.basedStakeAmount

/-- The two mints from there to the call of the receiver. -/
def mintStaked (asset : StakeAsset) (amount : Nat) : Exec (Option Pending × BrainNFT) := do
  let brainId := nft.candidate
  let nft ← nft.allocateBrainId
  let unlockAt ← add64 (uint64 blk.timestamp) STAKE_LOCK_DURATION
  let nft := { nft with
    stakes := set nft.stakes brainId
      { staker := caller, unlockAt := unlockAt, asset := asset, amount := amount } }
  let nft ← nft.mint caller brainId
  return (some (.received true), nft)

/-- `deactivateAndUnstake`, up to the call of the token. -/
def deactivateAndUnstake (brainId : BrainId) : Exec (Option Pending × BrainNFT) := do
  let nft ← nft.nonReentrantBefore
  let record := nft.stakes brainId
  revertIf (record.asset = .none) .wrongMintMethod
  revertIf (blk.timestamp < record.unlockAt) .stakeLockNotElapsed
  let owner ← orRevert .erc721NonexistentToken (nft.owners brainId)
  revertIf (owner ≠ caller) .erc721IncorrectOwner
  let nft := { nft with stakes := set nft.stakes brainId .empty }
  let nft ← nft.burn brainId
  let supply ← sub256 nft.totalSupply 1
  return (some (.paying blk brainId record), { nft with totalSupply := supply })

/-! ## Governance -/

/-- A stake amount changes at most quarterly, and to at least half and at most twice what
it was. -/
def adjust (last old newAmount : Nat) : Exec Nat := do
  let cooled ← add64 last STAKE_ADJUST_COOLDOWN
  revertIf (blk.timestamp < cooled) (.require "cooldown")
  revertIf (newAmount < old / 2) (.require "out of bounds")
  let ceiling ← mul256 old 2
  revertIf (ceiling < newAmount) (.require "out of bounds")
  return uint64 blk.timestamp

def setStakeAmount (asset : StakeAsset) (newAmount : Nat) : Exec BrainNFT := do
  nft.roles.onlyRole .governance caller
  revertIf (newAmount = 0) .invalidStakeAmount
  match asset with
  | .pepecoin =>
    let now ← adjust blk nft.lastPepecoinStakeUpdate nft.pepecoinStakeAmount newAmount
    return { nft with pepecoinStakeAmount := newAmount, lastPepecoinStakeUpdate := now }
  | .basedAI =>
    let now ← adjust blk nft.lastBasedStakeUpdate nft.basedStakeAmount newAmount
    return { nft with basedStakeAmount := newAmount, lastBasedStakeUpdate := now }
  | .none => .error .invalidStakeAmount

/-- `mintReserved`, up to the call of the receiver. It has no guard. -/
def mintReserved (recipient : Address) (brainId : BrainId) :
    Exec (Option Pending × BrainNFT) := do
  nft.roles.onlyRole .governance caller
  revertIf (FIRST_PUBLIC_ID ≤ brainId.val) .invalidStakeAmount
  let supply ← add256 nft.totalSupply 1
  let nft ← { nft with totalSupply := supply }.mint recipient brainId
  return (some (.received false), nft)

def setBridge (newBridge : Address) : Exec BrainNFT := do
  nft.roles.onlyRole .governance caller
  return { nft with bridge := newBridge }

def setBridgeEndpoint (endpoint : Address) (allowed : Bool) : Exec BrainNFT := do
  nft.roles.onlyRole .governance caller
  return { nft with isBridgeEndpoint := set nft.isBridgeEndpoint endpoint allowed }

end BrainNFT

/-! ## Calls -/

/-- A call to one of the NFT's entry points. -/
inductive BrainNFTCall
  | mintByPepecoinStake
  | mintByBasedStake
  | deactivateAndUnstake (brainId : BrainId)
  | setStakeAmount (asset : StakeAsset) (newAmount : Nat)
  | mintReserved (recipient : Address) (brainId : BrainId)
  | setBridge (newBridge : Address)
  | setBridgeEndpoint (endpoint : Address) (allowed : Bool)
  | transferFrom (src recipient : Address) (tokenId : BrainId)
  | safeTransferFrom (src recipient : Address) (tokenId : BrainId)
  | approve (spender : Address) (tokenId : BrainId)
  | setApprovalForAll (operator : Address) (approved : Bool)
  | grantRole (role : BrainRole) (account : Address)
  | revokeRole (role : BrainRole) (account : Address)
  | renounceRole (role : BrainRole) (callerConfirmation : Address)

/-- A call that does not call out. -/
def atOnce (x : Exec BrainNFT) : Exec (Option Pending × BrainNFT) :=
  (fun nft => (none, nft)) <$> x

/-- A call sent by `caller` in block `blk`, up to where it calls out. -/
def BrainNFTCall.enter (blk : Block) (caller : Address) (nft : BrainNFT) :
    BrainNFTCall → Exec (Option Pending × BrainNFT)
  | .mintByPepecoinStake => nft.mintByPepecoinStake blk caller
  | .mintByBasedStake => nft.mintByBasedStake blk caller
  | .deactivateAndUnstake b => nft.deactivateAndUnstake blk caller b
  | .setStakeAmount asset newAmount => atOnce (nft.setStakeAmount blk caller asset newAmount)
  | .mintReserved recipient b => nft.mintReserved caller recipient b
  | .setBridge newBridge => atOnce (nft.setBridge caller newBridge)
  | .setBridgeEndpoint endpoint allowed => atOnce (nft.setBridgeEndpoint caller endpoint allowed)
  | .transferFrom src recipient b => atOnce (nft.transferFrom caller src recipient b)
  | .safeTransferFrom src recipient b =>
    (fun nft => (some (.received false), nft)) <$> nft.transferFrom caller src recipient b
  | .approve spender b => atOnce (nft.approve caller spender b)
  | .setApprovalForAll operator approved =>
    atOnce (nft.setApprovalForAll caller operator approved)
  | .grantRole role account => atOnce
    ((fun roles => { nft with roles := roles }) <$>
      nft.roles.grantRole .defaultAdmin caller role account)
  | .revokeRole role account => atOnce
    ((fun roles => { nft with roles := roles }) <$>
      nft.roles.revokeRole .defaultAdmin caller role account)
  | .renounceRole role confirmation => atOnce
    ((fun roles => { nft with roles := roles }) <$>
      nft.roles.renounceRole caller role confirmation)

/-- The calls that only say who may do what. -/
def BrainNFTCall.permission : BrainNFTCall → Bool
  | .approve _ _ | .setApprovalForAll _ _ => true
  | .grantRole _ _ | .revokeRole _ _ | .renounceRole _ _ => true
  | _ => false

section Resume

variable {T : Type} (env : BrainNFTEnv T)

/-- The token a stake is in. -/
def BrainNFTEnv.stakeToken (asset : StakeAsset) : Address :=
  if asset = .pepecoin then env.PEPECOIN else env.BASEDAI

/-- The rest of an interrupted call, up to where it calls out again. -/
def Pending.resume (s : BrainState T) : Pending → Exec (Option Pending × BrainState T)
  | .funding blk staker asset amount => do
    let p := env.stakeToken asset
    let t ← safeTransferFrom (env.token p) (s.tokens p) env.self staker env.self amount
    return (some (.funded blk staker asset amount), { s with tokens := set s.tokens p t })
  | .funded blk staker asset amount => do
    let (q, nft) ← s.nft.mintStaked blk staker asset amount
    return (q, { s with nft := nft })
  | .received guarded =>
    return (none, if guarded then { s with nft := s.nft.nonReentrantAfter } else s)
  | .paying _ _ record => do
    let p := env.stakeToken record.asset
    let t ← safeTransfer (env.token p) (s.tokens p) env.self record.staker record.amount
    return (some .paid, { s with tokens := set s.tokens p t })
  | .paid => return (none, { s with nft := s.nft.nonReentrantAfter })

end Resume

/-! ## What the calls do -/

namespace BrainNFT

variable {nft nft' : BrainNFT} {recipient : Option Address} {b : BrainId}
  {auth previousOwner : Option Address} {blk : Block} {caller src dst : Address}

theorem update_ok (h : nft.update recipient b auth = .ok (previousOwner, nft')) :
    previousOwner = nft.owners b ∧
      (∀ src dst, nft.owners b = some src → recipient = some dst →
        nft.endpoint src = true ∨ nft.endpoint dst = true) ∧
      ∃ approvals, nft' =
        { nft with owners := set nft.owners b recipient, tokenApprovals := approvals } := by
  simp only [update, bind_ok, return_ok] at h
  obtain ⟨_, hends, _, -, hpair⟩ := h
  obtain ⟨rfl, rfl⟩ := Prod.mk.inj hpair
  refine ⟨rfl, ?_, _, rfl⟩
  intro src dst hsrc hdst
  rw [hsrc, hdst] at hends
  have hone := revertIf_ok.mp hends
  rwa [not_and_or, Bool.not_eq_false, Bool.not_eq_false] at hone

/-- Only a Brain that does not exist is minted. -/
theorem mint_ok (h : nft.mint dst b = .ok nft') : nft.owners b = none ∧
    ∃ approvals, nft' =
      { nft with owners := set nft.owners b (some dst), tokenApprovals := approvals } := by
  simp only [mint, bind_ok, revertIf_ok, return_ok] at h
  obtain ⟨_, -, ⟨previousOwner, nft₁⟩, hupdate, _, hnew, rfl⟩ := h
  obtain ⟨rfl, -, approvals, rfl⟩ := update_ok hupdate
  exact ⟨Option.not_isSome_iff_eq_none.mp hnew, approvals, rfl⟩

theorem burn_ok (h : nft.burn b = .ok nft') : nft.owners b ≠ none ∧
    ∃ approvals, nft' =
      { nft with owners := set nft.owners b none, tokenApprovals := approvals } := by
  simp only [burn, bind_ok, revertIf_ok, return_ok] at h
  obtain ⟨⟨previousOwner, nft₁⟩, hupdate, _, hold, rfl⟩ := h
  obtain ⟨rfl, -, approvals, rfl⟩ := update_ok hupdate
  exact ⟨hold, approvals, rfl⟩

/-- A Brain that moves has an endpoint on one of its sides. -/
theorem transferFrom_ok (h : nft.transferFrom caller src dst b = .ok nft') :
    nft.owners b = some src ∧ (nft.endpoint src = true ∨ nft.endpoint dst = true) ∧
    ∃ approvals, nft' =
      { nft with owners := set nft.owners b (some dst), tokenApprovals := approvals } := by
  simp only [transferFrom, bind_ok, revertIf_ok, return_ok, not_not] at h
  obtain ⟨_, -, ⟨previousOwner, nft₁⟩, hupdate, _, hsrc, rfl⟩ := h
  obtain ⟨rfl, hends, approvals, rfl⟩ := update_ok hupdate
  exact ⟨hsrc, hends src dst hsrc rfl, approvals, rfl⟩

theorem allocateBrainId_ok (h : nft.allocateBrainId = .ok nft') :
    nft.nextPublicId < MAX_SUPPLY ∧
      nft' = { nft with nextPublicId := nft.nextPublicId + 1
                        totalSupply := nft.totalSupply + 1 } := by
  simp only [allocateBrainId, bind_ok, revertIf_ok, add256_ok, return_ok] at h
  obtain ⟨_, hroom, _, ⟨-, rfl⟩, _, ⟨-, rfl⟩, rfl⟩ := h
  exact ⟨Nat.lt_of_not_le hroom, rfl⟩

/-- The record that a mint in block `blk` leaves. -/
def stakeRecord (blk : Block) (staker : Address) (asset : StakeAsset) (amount : Nat) :
    StakeRecord :=
  { staker := staker, unlockAt := blk.timestamp + STAKE_LOCK_DURATION, asset := asset,
    amount := amount }

theorem mintStaked_ok {asset : StakeAsset} {amount : Nat} {q : Option Pending}
    (h : nft.mintStaked blk caller asset amount = .ok (q, nft')) :
    q = some (.received true) ∧ nft.nextPublicId < MAX_SUPPLY ∧
      nft.owners nft.candidate = none ∧ ∃ approvals, nft' =
        { nft with
          nextPublicId := nft.nextPublicId + 1
          totalSupply := nft.totalSupply + 1
          stakes := set nft.stakes nft.candidate (stakeRecord blk caller asset amount)
          owners := set nft.owners nft.candidate (some caller)
          tokenApprovals := approvals } := by
  simp only [mintStaked, bind_ok, add64_ok, return_ok, uint64_timestamp] at h
  obtain ⟨nft₁, hallocate, unlockAt, ⟨-, rfl⟩, nft₂, hmint, hpair⟩ := h
  obtain ⟨rfl, rfl⟩ := Prod.mk.inj hpair
  obtain ⟨hroom, rfl⟩ := allocateBrainId_ok hallocate
  obtain ⟨hnew, approvals, rfl⟩ := mint_ok hmint
  exact ⟨rfl, hroom, hnew, approvals, rfl⟩

/-- The stake of a Brain is given up by its owner, after the lock. -/
theorem deactivateAndUnstake_ok {q : Option Pending}
    (h : nft.deactivateAndUnstake blk caller b = .ok (q, nft')) :
    q = some (.paying blk b (nft.stakes b)) ∧ (nft.stakes b).asset ≠ .none ∧
      (nft.stakes b).unlockAt ≤ blk.timestamp ∧ nft.owners b = some caller ∧
      1 ≤ nft.totalSupply ∧ ∃ approvals, nft' =
        { nft with
          entered := true
          stakes := set nft.stakes b .empty
          owners := set nft.owners b none
          tokenApprovals := approvals
          totalSupply := nft.totalSupply - 1 } := by
  simp only [deactivateAndUnstake, nonReentrantBefore, bind_ok, revertIf_ok, orRevert_ok,
    sub256_ok, return_ok, not_not] at h
  obtain ⟨_, ⟨_, -, rfl⟩, _, hasset, _, hlock, owner, howner, _, rfl, nft₂, hburn, _,
    ⟨hpos, rfl⟩, hpair⟩ := h
  obtain ⟨rfl, rfl⟩ := Prod.mk.inj hpair
  -- burning clears an approval on the way
  obtain ⟨-, approvals, rfl⟩ := burn_ok hburn
  exact ⟨rfl, hasset, Nat.le_of_not_lt hlock, howner, hpos, approvals, rfl⟩

theorem mintReserved_ok {q : Option Pending}
    (h : nft.mintReserved caller dst b = .ok (q, nft')) :
    q = some (.received false) ∧ b.val < FIRST_PUBLIC_ID ∧ nft.owners b = none ∧
      ∃ approvals, nft' =
        { nft with
          totalSupply := nft.totalSupply + 1
          owners := set nft.owners b (some dst)
          tokenApprovals := approvals } := by
  simp only [mintReserved, bind_ok, revertIf_ok, add256_ok, return_ok] at h
  obtain ⟨_, -, _, hlow, _, ⟨-, rfl⟩, nft₂, hmint, hpair⟩ := h
  obtain ⟨rfl, rfl⟩ := Prod.mk.inj hpair
  obtain ⟨hnew, approvals, rfl⟩ := mint_ok hmint
  exact ⟨rfl, Nat.lt_of_not_le hlow, hnew, approvals, rfl⟩

theorem mintByStake_ok {asset : StakeAsset} {amount : Nat} {q : Option Pending}
    (h : mintByStake blk caller nft asset amount = .ok (q, nft')) :
    q = some (.funding blk caller asset amount) ∧ nft' = { nft with entered := true } := by
  simp only [mintByStake, nonReentrantBefore, bind_ok, return_ok] at h
  obtain ⟨_, ⟨_, -, rfl⟩, hpair⟩ := h
  obtain ⟨rfl, rfl⟩ := Prod.mk.inj hpair
  exact ⟨rfl, rfl⟩

theorem atOnce_ok {x : Exec BrainNFT} {q : Option Pending} (h : atOnce x = .ok (q, nft')) :
    q = none ∧ x = .ok nft' := by
  obtain ⟨nft₁, hx, hpair⟩ := map_ok.mp h
  obtain ⟨rfl, rfl⟩ := Prod.mk.inj hpair
  exact ⟨rfl, hx⟩

theorem setStakeAmount_ok {asset : StakeAsset} {newAmount : Nat}
    (h : nft.setStakeAmount blk caller asset newAmount = .ok nft') :
    ∃ pepecoin based lastPepecoin lastBased, nft' =
      { nft with
        pepecoinStakeAmount := pepecoin
        basedStakeAmount := based
        lastPepecoinStakeUpdate := lastPepecoin
        lastBasedStakeUpdate := lastBased } := by
  simp only [setStakeAmount, bind_ok] at h
  obtain ⟨_, -, _, -, h⟩ := h
  cases asset with
  -- there is nothing to set for no asset
  | none => cases h
  | pepecoin =>
    simp only [bind_ok, return_ok] at h
    obtain ⟨now, -, rfl⟩ := h
    exact ⟨newAmount, nft.basedStakeAmount, now, nft.lastBasedStakeUpdate, rfl⟩
  | basedAI =>
    simp only [bind_ok, return_ok] at h
    obtain ⟨now, -, rfl⟩ := h
    exact ⟨nft.pepecoinStakeAmount, newAmount, nft.lastPepecoinStakeUpdate, now, rfl⟩

theorem setBridge_ok {newBridge : Address} (h : nft.setBridge caller newBridge = .ok nft') :
    nft' = { nft with bridge := newBridge } := by
  simp only [setBridge, bind_ok, return_ok] at h
  obtain ⟨_, -, rfl⟩ := h
  rfl

theorem setBridgeEndpoint_ok {endpoint : Address} {allowed : Bool}
    (h : nft.setBridgeEndpoint caller endpoint allowed = .ok nft') :
    nft' = { nft with isBridgeEndpoint := set nft.isBridgeEndpoint endpoint allowed } := by
  simp only [setBridgeEndpoint, bind_ok, return_ok] at h
  obtain ⟨_, -, rfl⟩ := h
  rfl

/-- A permission is written to the approvals or the roles, and nowhere else. -/
theorem permission_ok {c : BrainNFTCall} {q : Option Pending}
    (h : c.enter blk caller nft = .ok (q, nft')) (hc : c.permission = true) :
    q = none ∧ ∃ approvals operators roles, nft' =
      { nft with
        tokenApprovals := approvals
        operatorApprovals := operators
        roles := roles } := by
  cases c with
  | approve spender b =>
    obtain ⟨rfl, happrove⟩ := atOnce_ok h
    simp only [approve, bind_ok, return_ok] at happrove
    obtain ⟨_, -, _, -, rfl⟩ := happrove
    exact ⟨rfl, _, _, _, rfl⟩
  | setApprovalForAll operator approved =>
    obtain ⟨rfl, happrove⟩ := atOnce_ok h
    simp only [setApprovalForAll, bind_ok, return_ok] at happrove
    obtain ⟨_, -, rfl⟩ := happrove
    exact ⟨rfl, _, _, _, rfl⟩
  | grantRole role account =>
    obtain ⟨rfl, hroles⟩ := atOnce_ok h
    obtain ⟨_, -, rfl⟩ := map_ok.mp hroles
    exact ⟨rfl, _, _, _, rfl⟩
  | revokeRole role account =>
    obtain ⟨rfl, hroles⟩ := atOnce_ok h
    obtain ⟨_, -, rfl⟩ := map_ok.mp hroles
    exact ⟨rfl, _, _, _, rfl⟩
  | renounceRole role confirmation =>
    obtain ⟨rfl, hroles⟩ := atOnce_ok h
    obtain ⟨_, -, rfl⟩ := map_ok.mp hroles
    exact ⟨rfl, _, _, _, rfl⟩
  -- no other call is about permissions
  | _ => cases hc

end BrainNFT

/-- What the rest of a call does to the NFT: it mints, lifts the guard, or leaves it alone. -/
theorem Pending.resume_nft {T : Type} {env : BrainNFTEnv T} {s s' : BrainState T} {p : Pending}
    {q : Option Pending} (h : p.resume env s = .ok (q, s')) :
    s'.nft = s.nft ∨ s'.nft = s.nft.nonReentrantAfter ∨
      ∃ blk staker asset amount, s.nft.mintStaked blk staker asset amount = .ok (q, s'.nft) := by
  cases p with
  | funding blk staker asset amount =>
    simp only [resume, bind_ok, return_ok] at h
    obtain ⟨t, -, hpair⟩ := h
    obtain ⟨rfl, rfl⟩ := Prod.mk.inj hpair
    exact .inl rfl
  | funded blk staker asset amount =>
    simp only [resume, bind_ok, return_ok] at h
    obtain ⟨⟨q', nft'⟩, hmint, hpair⟩ := h
    obtain ⟨rfl, rfl⟩ := Prod.mk.inj hpair
    exact .inr (.inr ⟨blk, staker, asset, amount, hmint⟩)
  | received guarded =>
    simp only [resume, return_ok] at h
    obtain ⟨rfl, rfl⟩ := Prod.mk.inj h
    -- only the mints for a stake have set the guard
    cases guarded with
    | true => exact .inr (.inl rfl)
    | false => exact .inl rfl
  | paying blk b record =>
    simp only [resume, bind_ok, return_ok] at h
    obtain ⟨t, -, hpair⟩ := h
    obtain ⟨rfl, rfl⟩ := Prod.mk.inj hpair
    exact .inl rfl
  | paid =>
    simp only [resume, return_ok] at h
    obtain ⟨rfl, rfl⟩ := Prod.mk.inj h
    exact .inr (.inl rfl)

end BasedAI
