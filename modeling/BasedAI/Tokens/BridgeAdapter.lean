import BasedAI.Tokens.BrainNFT

/-!
# BasedAI — the bridge adapter

`BrainBridgeAdapter.sol`: one call that takes a Brain from its owner and hands it to the
canonical bridge of the first layer. The bridge is not part of the repository. `L1Bridge` is
its one entry point, and `L1Bridge.Escrows` what the adapter relies on: the bridge pulls the
Brain from whoever calls it, and sends word to the second layer.

* `transferFrom_iff`  — when a Brain moves, and what is left of its approval;
* `bridgeToL2_exact`  — when the one call goes through, and what it leaves.
-/

namespace BasedAI

open Fallible Mapping

/-! ## The adapter -/

/-- What the first layer's bridge sends to the second's. -/
structure BridgeMessage where
  remoteToken : Address
  localToken : Address
  sender : Address
  recipient : Address
  tokenId : BrainId
  deriving DecidableEq

/-- `IL1ERC721Bridge`, with storage `B`: `bridgeERC721To caller localToken remoteToken to tokenId
minGasLimit extraData`. -/
structure L1Bridge (B : Type) where
  bridgeERC721To : Address → Address → Address → Address → BrainId → Nat → Bytes →
    BrainNFT × B → Exec (BrainNFT × B)

/-- What the adapter is deployed with, and its own address. -/
structure BridgeAdapterEnv where
  BRAIN_NFT : Address
  BRAIN_NFT_L2 : Address
  BRIDGE : Address
  self : Address

/-- The adapter's own errors, and those of the contracts it calls. -/
inductive AdapterRevert
  | zeroRecipient
  | unsupportedNFT
  | reverted (r : Revert)
  deriving DecidableEq

namespace BridgeAdapter

def DEFAULT_MIN_GAS : Nat := 200000

/-- `IERC721Receiver.onERC721Received.selector`. -/
def ON_ERC721_RECEIVED : Nat := 0x150b7a02

variable {B : Type} (env : BridgeAdapterEnv) (bridge : L1Bridge B) (caller : Address)

def bridgeToL2 (brainId : BrainId) (l2Recipient : Address) (nft : BrainNFT) (b : B) :
    Except AdapterRevert (BrainNFT × B) := do
  revertIf (l2Recipient = 0) .zeroRecipient
  -- the adapter is the one that asks for the transfer
  let nft ← (nft.transferFrom env.self caller env.self brainId).mapError .reverted
  let nft ← (nft.approve env.self env.BRIDGE brainId).mapError .reverted
  (bridge.bridgeERC721To env.self env.BRAIN_NFT env.BRAIN_NFT_L2 l2Recipient brainId
    DEFAULT_MIN_GAS [] (nft, b)).mapError .reverted

/-- Only Brains may be sent to the adapter with a safe transfer. -/
def onERC721Received : Except AdapterRevert Nat := do
  revertIf (caller ≠ env.BRAIN_NFT) .unsupportedNFT
  return ON_ERC721_RECEIVED

end BridgeAdapter

/-- The canonical bridge at `escrow`, as documented, for the Brain NFT at `token`: it locks what
it is asked to bridge by a transfer from its caller to itself, refuses the zero addresses, and
records the message it sends. -/
structure L1Bridge.Escrows {B : Type} (bridge : L1Bridge B) (escrow token : Address)
    (sent : B → List BridgeMessage) : Prop where
  locks : ∀ {caller remote recipient tokenId gas data nft b nft' b'},
    bridge.bridgeERC721To caller token remote recipient tokenId gas data (nft, b) =
        .ok (nft', b') →
      nft.transferFrom escrow caller escrow tokenId = .ok nft' ∧
        sent b' = ⟨remote, token, caller, recipient, tokenId⟩ :: sent b
  accepts : ∀ {caller remote recipient tokenId gas data nft b nft'}, remote ≠ 0 →
    recipient ≠ 0 → nft.transferFrom escrow caller escrow tokenId = .ok nft' →
      ∃ b', bridge.bridgeERC721To caller token remote recipient tokenId gas data (nft, b) =
        .ok (nft', b')

/-! ## Transfers -/

namespace BrainNFT

variable {nft nft' : BrainNFT} {b : BrainId} {caller src dst a : Address}

/-- A Brain that has moved, without the approval it had. -/
def moved (nft : BrainNFT) (b : BrainId) (dst : Address) : BrainNFT :=
  { nft with
    owners := set nft.owners b (some dst)
    tokenApprovals := set nft.tokenApprovals b 0 }

/-- A Brain that `spender` may move. -/
def approved (nft : BrainNFT) (b : BrainId) (spender : Address) : BrainNFT :=
  { nft with tokenApprovals := set nft.tokenApprovals b spender }

/-- What a transfer checks. -/
structure Transferable (nft : BrainNFT) (caller src dst : Address) (b : BrainId) : Prop where
  recipient : dst ≠ 0
  owner : nft.owners b = some src
  authorized : nft.isAuthorized src caller b = true
  endpoints : nft.endpoint src = true ∨ nft.endpoint dst = true

theorem transferFrom_iff : nft.transferFrom caller src dst b = .ok nft' ↔
    nft.Transferable caller src dst b ∧ nft' = nft.moved b dst := by
  constructor
  · intro h
    simp only [transferFrom, update, checkAuthorized, bind_ok, revertIf_ok, orRevert_ok,
      return_ok, not_not, Bool.not_eq_false] at h
    obtain ⟨_, hdst, ⟨previousOwner, nft₁⟩, ⟨_, hends, _, ⟨owner, howner, hauth⟩, hpair⟩, _, hsrc,
      rfl⟩ := h
    obtain ⟨hprevious, rfl⟩ := Prod.mk.inj hpair
    obtain rfl : owner = src := by
      rw [← hprevious, howner] at hsrc
      exact Option.some.inj hsrc
    rw [howner] at hends
    have hone := revertIf_ok.mp hends
    rw [not_and_or, Bool.not_eq_false, Bool.not_eq_false] at hone
    refine ⟨⟨hdst, howner, hauth, hone⟩, ?_⟩
    simp [moved, howner]
  · rintro ⟨⟨hdst, howner, hauth, hone⟩, rfl⟩
    have hends : nft.checkRestricted (nft.owners b) (some dst) = .ok () := by
      rw [howner]
      apply revertIf_neg
      rwa [not_and_or, Bool.not_eq_false, Bool.not_eq_false]
    simp only [transferFrom, update, checkAuthorized, bind_ok, revertIf_ok, orRevert_ok,
      return_ok, not_not, Bool.not_eq_false]
    refine ⟨(), hdst, (some src, nft.moved b dst), ⟨(), hends, (), ⟨src, howner, hauth⟩, ?_⟩, (),
      rfl, rfl⟩
    simp [moved, howner]

theorem approve_iff {spender : Address} : nft.approve caller spender b = .ok nft' ↔
    (∃ owner, nft.owners b = some owner ∧
      (owner = caller ∨ nft.operatorApprovals owner caller = true)) ∧
    nft' = nft.approved b spender := by
  simp only [approve, bind_ok, orRevert_ok, revertIf_ok, return_ok]
  constructor
  · rintro ⟨owner, howner, _, hallowed, rfl⟩
    rw [not_and_or, not_not, Bool.not_eq_false] at hallowed
    exact ⟨⟨owner, howner, hallowed⟩, rfl⟩
  · rintro ⟨⟨owner, howner, hallowed⟩, rfl⟩
    refine ⟨owner, howner, (), ?_, rfl⟩
    rwa [not_and_or, not_not, Bool.not_eq_false]

@[simp] theorem endpoint_moved : (nft.moved b dst).endpoint a = nft.endpoint a := rfl

/-- Two moves are one, whatever was approved in between. -/
theorem moved_approved_moved {mid spender : Address} :
    ((nft.moved b mid).approved b spender).moved b dst = nft.moved b dst := by
  simp [moved, approved, set_set]

/-- An owner that has approved an account lets it act, if it is not nobody. -/
theorem isAuthorized_approved {owner spender : Address} (hspender : spender ≠ 0)
    (happroved : nft.tokenApprovals b = spender) : nft.isAuthorized owner spender b = true := by
  simp [isAuthorized, hspender, happroved]

theorem isAuthorized_ne_zero {owner spender : Address}
    (h : nft.isAuthorized owner spender b = true) : spender ≠ 0 := by
  simp only [isAuthorized, Bool.and_eq_true, decide_eq_true_eq] at h
  exact h.1

end BrainNFT

/-! ## The one call -/

namespace BridgeAdapter

open BrainNFT

variable {B : Type} {env : BridgeAdapterEnv} {bridge : L1Bridge B}
  {sent : B → List BridgeMessage} {caller recipient : Address} {id : BrainId}
  {nft nft' : BrainNFT} {b b' : B}

/-- What bridging a Brain takes: it is the caller's own, the adapter may move it, and one side
of each of the two transfers is an endpoint. -/
structure Bridgeable (env : BridgeAdapterEnv) (caller recipient : Address) (id : BrainId)
    (nft : BrainNFT) : Prop where
  recipient : recipient ≠ 0
  bridge : env.BRIDGE ≠ 0
  owner : nft.owners id = some caller
  authorized : nft.isAuthorized caller env.self id = true
  taken : nft.endpoint caller = true ∨ nft.endpoint env.self = true
  passed : nft.endpoint env.self = true ∨ nft.endpoint env.BRIDGE = true

/-- The Brain in the adapter's hands, approved for the bridge. -/
theorem transferable_to_bridge (id : BrainId) (hbridge : env.BRIDGE ≠ 0)
    (hpassed : nft.endpoint env.self = true ∨ nft.endpoint env.BRIDGE = true) :
    ((nft.moved id env.self).approved id env.BRIDGE).Transferable
      env.BRIDGE env.self env.BRIDGE id where
  recipient := hbridge
  owner := set_same _ _ _
  authorized := isAuthorized_approved hbridge (set_same _ _ _)
  endpoints := hpassed

/-- What a call that went through has done, step by step. -/
theorem bridgeToL2_ok (hescrows : bridge.Escrows env.BRIDGE env.BRAIN_NFT sent)
    (h : bridgeToL2 env bridge caller id recipient nft b = .ok (nft', b')) :
    Bridgeable env caller recipient id nft ∧ nft' = nft.moved id env.BRIDGE ∧
      sent b' = ⟨env.BRAIN_NFT_L2, env.BRAIN_NFT, env.self, recipient, id⟩ :: sent b := by
  simp only [bridgeToL2, bind_ok, revertIf_ok, mapError_ok] at h
  obtain ⟨_, hrecipient, nft₁, htake, nft₂, happrove, hsend⟩ := h
  obtain ⟨htaken, rfl⟩ := transferFrom_iff.mp htake
  obtain ⟨-, rfl⟩ := approve_iff.mp happrove
  -- the bridge does its part by pulling the Brain
  obtain ⟨hlock, hsent⟩ := hescrows.locks hsend
  obtain ⟨hpassed, rfl⟩ := transferFrom_iff.mp hlock
  exact ⟨⟨hrecipient, hpassed.recipient, htaken.owner, htaken.authorized, htaken.endpoints,
    hpassed.endpoints⟩, moved_approved_moved, hsent⟩

/-- **The one call.** Where the bridge locks what it bridges, and the second layer's NFT is
set, `bridgeToL2` goes through just if the Brain is the caller's, the adapter may move it, and
each of the two transfers has an endpoint on one side; the Brain is then with the bridge, its
approval is gone, nothing else has changed, and one message is on its way. The adapter itself
keeps nothing. -/
theorem bridgeToL2_exact (hescrows : bridge.Escrows env.BRIDGE env.BRAIN_NFT sent)
    (hremote : env.BRAIN_NFT_L2 ≠ 0) (caller recipient : Address) (id : BrainId)
    (nft : BrainNFT) (b : B) :
    (∀ nft' b', bridgeToL2 env bridge caller id recipient nft b = .ok (nft', b') →
      nft' = nft.moved id env.BRIDGE ∧
        sent b' = ⟨env.BRAIN_NFT_L2, env.BRAIN_NFT, env.self, recipient, id⟩ :: sent b) ∧
    ((∃ nft' b', bridgeToL2 env bridge caller id recipient nft b = .ok (nft', b')) ↔
      Bridgeable env caller recipient id nft) := by
  refine ⟨fun nft' b' h => (bridgeToL2_ok hescrows h).2, ?_, ?_⟩
  · rintro ⟨nft', b', h⟩
    exact (bridgeToL2_ok hescrows h).1
  · intro h
    have htake : nft.transferFrom env.self caller env.self id = .ok (nft.moved id env.self) :=
      transferFrom_iff.mpr
        ⟨⟨isAuthorized_ne_zero h.authorized, h.owner, h.authorized, h.taken⟩, rfl⟩
    have happrove : (nft.moved id env.self).approve env.self env.BRIDGE id =
        .ok ((nft.moved id env.self).approved id env.BRIDGE) :=
      approve_iff.mpr ⟨⟨env.self, set_same _ _ _, .inl rfl⟩, rfl⟩
    have hlock : ((nft.moved id env.self).approved id env.BRIDGE).transferFrom env.BRIDGE env.self
        env.BRIDGE id = .ok (nft.moved id env.BRIDGE) :=
      transferFrom_iff.mpr ⟨transferable_to_bridge id h.bridge h.passed, moved_approved_moved.symm⟩
    obtain ⟨b', hsend⟩ := hescrows.accepts hremote h.recipient hlock
    refine ⟨nft.moved id env.BRIDGE, b', ?_⟩
    simp only [bridgeToL2, bind_ok, revertIf_ok, mapError_ok]
    exact ⟨(), h.recipient, _, htake, _, happrove, hsend⟩

/-- A bridge that locks and sends word, and does no more. -/
def toyL1Bridge (escrow : Address) : L1Bridge (List BridgeMessage) where
  bridgeERC721To caller token remote recipient id _ _ s := do
    revertIf (recipient = 0) (.require "ERC721Bridge: nft recipient cannot be address(0)")
    revertIf (remote = 0) (.require "L1ERC721Bridge: remote token cannot be address(0)")
    let nft ← s.1.transferFrom escrow caller escrow id
    return (nft, ⟨remote, token, caller, recipient, id⟩ :: s.2)

theorem toyL1Bridge_escrows (escrow token : Address) :
    (toyL1Bridge escrow).Escrows escrow token fun sent => sent where
  locks h := by
    simp only [toyL1Bridge, bind_ok, revertIf_ok, return_ok] at h
    obtain ⟨_, -, _, -, nft, hlock, hpair⟩ := h
    obtain ⟨rfl, rfl⟩ := Prod.mk.inj hpair
    exact ⟨hlock, rfl⟩
  accepts hremote hrecipient hlock := by
    simp only [toyL1Bridge, bind_ok, revertIf_ok, return_ok]
    exact ⟨_, (), hrecipient, (), hremote, _, hlock, rfl⟩

def toyAdapter : BridgeAdapterEnv := ⟨9, 14, 8, 13⟩

/-- Account 5 has Brain 7, and lets the adapter move it, which is an endpoint. -/
def toyApproved : BrainNFT :=
  { BrainNFT.deploy 100 200 1 with
    isBridgeEndpoint := fun a => decide (a = 13)
    owners := fun b => if b = 7 then some 5 else none
    tokenApprovals := fun b => if b = 7 then 13 else 0 }

/-- It goes to the bridge, for account 6 on the second layer. -/
theorem brain_sent : ∃ nft sent,
    bridgeToL2 toyAdapter (toyL1Bridge 8) 5 7 6 toyApproved [] = .ok (nft, sent) ∧
      nft.owners 7 = some 8 ∧ sent = [⟨14, 9, 13, 6, 7⟩] := by
  have hremote : toyAdapter.BRAIN_NFT_L2 ≠ 0 := by decide
  obtain ⟨hleaves, hiff⟩ := bridgeToL2_exact (toyL1Bridge_escrows 8 9) hremote 5 6 7
    toyApproved []
  obtain ⟨nft, sent, h⟩ := hiff.mpr
    ⟨by decide, by decide, rfl, by decide, .inr (by decide), .inl (by decide)⟩
  obtain ⟨rfl, hsent⟩ := hleaves nft sent h
  exact ⟨_, sent, h, by decide, hsent⟩

end BridgeAdapter

end BasedAI
