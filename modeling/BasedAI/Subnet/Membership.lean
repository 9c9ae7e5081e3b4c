import BasedAI.Chain.Token
import BasedAI.Subnet.SubnetRegistry

/-!
# BasedAI — Brains and their members

The entry points of `SubnetRegistry.sol`: the owner of a Brain's NFT activates and
configures it, validators and miners register for a fee that is burned. Validators and
miners are kept alike, each with a table of members and a count beside it, so both are a
`Roster`; the count is what the rest of the system goes by.

* `Roster.Counted` — the count is the number of active members;
* `Kept`, `exec_kept` — every call keeps it, and the tokens of everybody but its caller.
-/

namespace BasedAI

open Fallible Mapping

/-! ## Storage -/

/-- `ValidatorInfo` and `MinerInfo`, which have the same fields. -/
structure MemberInfo where
  registeredAt : Nat
  lastActiveEpoch : Nat
  active : Bool

/-- One kind of members: `_validators` with `_validatorCount`, or `_miners` with
`_minerCount`. -/
structure Roster where
  info : BrainId → Address → MemberInfo
  count : BrainId → Nat

/-- The membership part of the registry's storage. -/
structure SubnetMembers where
  validators : Roster
  miners : Roster

def Roster.empty : Roster where
  info _ _ := ⟨0, 0, false⟩
  count _ := 0

/-- The membership as deployed. -/
def SubnetMembers.deploy : SubnetMembers := ⟨.empty, .empty⟩

/-- The token the registry is deployed with, and its own address. -/
structure RegistryEnv (T : Type) where
  token : Token T
  self : Address

/-- The registry next to the token and the NFT it calls. -/
structure RegistryState (T : Type) where
  token : T
  subnets : SubnetRegistry
  members : SubnetMembers
  brainOwners : BrainOwners

namespace SubnetRegistry

def MAX_VALIDATORS_PER_BRAIN : Nat := 256
def MAX_MINERS_PER_BRAIN : Nat := 1792
def DEFAULT_REGISTRATION_FEE : Nat := 100 * 10 ^ 18
def DEFAULT_OWNER_SPLIT_BPS : Fin (2 ^ 16) := 800
def DEFAULT_MINER_SHARE_BPS : Fin (2 ^ 16) := 7609
def MAX_OWNER_SPLIT_BPS : Fin (2 ^ 16) := 1500

/-- Registration fees are burned by sending them here. -/
def BURN_ADDRESS : Address := 0x000000000000000000000000000000000000dEaD

end SubnetRegistry

/-! ## Members -/

namespace Roster

/-- The checks and effects of a registration, which come before the fee is paid. -/
def register (r : Roster) (capacity : Nat) (blk : Block) (brainId : BrainId)
    (caller : Address) : Exec Roster := do
  revertIf ((r.info brainId caller).active = true) .alreadyRegistered
  revertIf (capacity ≤ r.count brainId) .capacityReached
  let count ← add256 (r.count brainId) 1
  return {
    info := set₂ r.info brainId caller ⟨uint64 blk.timestamp, 0, true⟩
    count := set r.count brainId count }

def deregister (r : Roster) (brainId : BrainId) (caller : Address) : Exec Roster := do
  revertIf ((r.info brainId caller).active = false) .notRegistered
  let count ← sub256 (r.count brainId) 1
  return {
    info := set₂ r.info brainId caller { r.info brainId caller with active := false }
    count := set r.count brainId count }

end Roster

namespace SubnetMembers

def isValidator (m : SubnetMembers) (brainId : BrainId) (who : Address) : Bool :=
  (m.validators.info brainId who).active

def isMiner (m : SubnetMembers) (brainId : BrainId) (who : Address) : Bool :=
  (m.miners.info brainId who).active

def validatorCount (m : SubnetMembers) (brainId : BrainId) : Nat :=
  m.validators.count brainId

def minerCount (m : SubnetMembers) (brainId : BrainId) : Nat :=
  m.miners.count brainId

end SubnetMembers

/-! ## The contract -/

namespace SubnetRegistry

variable {T : Type} (env : RegistryEnv T) (blk : Block) (caller : Address)

/-- The `onlyOwner` modifier; `ownerOf` reverts for a Brain that does not exist. -/
def onlyOwner (brainId : BrainId) (s : RegistryState T) : Exec Unit := do
  let owner ← orRevert .erc721NonexistentToken (s.brainOwners brainId)
  revertIf (owner ≠ caller) .notBrainOwner

/-- The `onlyActive` modifier. -/
def onlyActive (brainId : BrainId) (s : RegistryState T) : Exec Unit :=
  revertIf ((s.subnets.subnets brainId).active = false) .subnetInactive

/-- Replace the configuration of one Brain. -/
def configure (brainId : BrainId) (subnet : Subnet) (s : RegistryState T) : RegistryState T :=
  { s with subnets := ⟨set s.subnets.subnets brainId subnet⟩ }

def activate (brainId : BrainId) (modelHash : Bytes32) (modelURI : String)
    (s : RegistryState T) : Exec (RegistryState T) := do
  onlyOwner caller brainId s
  -- a second activation must not reset the configuration
  revertIf ((s.subnets.subnets brainId).active = true) .subnetAlreadyActive
  return configure brainId
    { owner := caller
      modelHash := modelHash
      modelURI := modelURI
      registrationFee := DEFAULT_REGISTRATION_FEE
      ownerSplitBps := DEFAULT_OWNER_SPLIT_BPS
      minerShareBps := DEFAULT_MINER_SHARE_BPS
      createdAt := uint64 blk.timestamp
      active := true } s

def deactivate (brainId : BrainId) (s : RegistryState T) : Exec (RegistryState T) := do
  onlyOwner caller brainId s
  return configure brainId { s.subnets.subnets brainId with active := false } s

def setModel (brainId : BrainId) (modelHash : Bytes32) (modelURI : String)
    (s : RegistryState T) : Exec (RegistryState T) := do
  onlyOwner caller brainId s
  onlyActive brainId s
  return configure brainId
    { s.subnets.subnets brainId with modelHash := modelHash, modelURI := modelURI } s

def setRegistrationFee (brainId : BrainId) (fee : Nat) (s : RegistryState T) :
    Exec (RegistryState T) := do
  onlyOwner caller brainId s
  onlyActive brainId s
  return configure brainId { s.subnets.subnets brainId with registrationFee := fee } s

def setEmissionSplit (brainId : BrainId) (ownerSplitBps minerShareBps : Fin (2 ^ 16))
    (s : RegistryState T) : Exec (RegistryState T) := do
  onlyOwner caller brainId s
  onlyActive brainId s
  revertIf (MAX_OWNER_SPLIT_BPS < ownerSplitBps ∨ 10000 < minerShareBps) .invalidSplit
  return configure brainId
    { s.subnets.subnets brainId with
      ownerSplitBps := ownerSplitBps
      minerShareBps := minerShareBps } s

/-- `_payFee`: the fee is burned, unless it is more than the caller agreed to. -/
def payFee (brainId : BrainId) (maxFee : Nat) (s : RegistryState T) :
    Exec (RegistryState T) := do
  let fee := (s.subnets.subnets brainId).registrationFee
  revertIf (maxFee < fee) .feeExceedsMax
  if fee > 0 then
    let token ← safeTransferFrom env.token s.token env.self caller BURN_ADDRESS fee
    return { s with token := token }
  else return s

def registerValidator (brainId : BrainId) (maxFee : Nat) (s : RegistryState T) :
    Exec (RegistryState T) := do
  onlyActive brainId s
  let validators ← s.members.validators.register MAX_VALIDATORS_PER_BRAIN blk brainId caller
  payFee env caller brainId maxFee
    { s with members := { s.members with validators := validators } }

def deregisterValidator (brainId : BrainId) (s : RegistryState T) :
    Exec (RegistryState T) := do
  let validators ← s.members.validators.deregister brainId caller
  return { s with members := { s.members with validators := validators } }

def registerMiner (brainId : BrainId) (maxFee : Nat) (s : RegistryState T) :
    Exec (RegistryState T) := do
  onlyActive brainId s
  let miners ← s.members.miners.register MAX_MINERS_PER_BRAIN blk brainId caller
  payFee env caller brainId maxFee { s with members := { s.members with miners := miners } }

def deregisterMiner (brainId : BrainId) (s : RegistryState T) : Exec (RegistryState T) := do
  let miners ← s.members.miners.deregister brainId caller
  return { s with members := { s.members with miners := miners } }

end SubnetRegistry

/-! ## Transactions -/

/-- A call to one of the registry's entry points. -/
inductive RegistryCall
  | activate (brainId : BrainId) (modelHash : Bytes32) (modelURI : String)
  | deactivate (brainId : BrainId)
  | setModel (brainId : BrainId) (modelHash : Bytes32) (modelURI : String)
  | setRegistrationFee (brainId : BrainId) (fee : Nat)
  | setEmissionSplit (brainId : BrainId) (ownerSplitBps minerShareBps : Fin (2 ^ 16))
  | registerValidator (brainId : BrainId) (maxFee : Nat)
  | deregisterValidator (brainId : BrainId)
  | registerMiner (brainId : BrainId) (maxFee : Nat)
  | deregisterMiner (brainId : BrainId)

/-- Execute a call sent by `caller` in block `blk`. -/
def RegistryCall.exec {T : Type} (env : RegistryEnv T) (blk : Block) (caller : Address)
    (s : RegistryState T) : RegistryCall → Exec (RegistryState T)
  | .activate b modelHash modelURI =>
    SubnetRegistry.activate blk caller b modelHash modelURI s
  | .deactivate b => SubnetRegistry.deactivate caller b s
  | .setModel b modelHash modelURI => SubnetRegistry.setModel caller b modelHash modelURI s
  | .setRegistrationFee b fee => SubnetRegistry.setRegistrationFee caller b fee s
  | .setEmissionSplit b owner miner => SubnetRegistry.setEmissionSplit caller b owner miner s
  | .registerValidator b maxFee =>
    SubnetRegistry.registerValidator env blk caller b maxFee s
  | .deregisterValidator b => SubnetRegistry.deregisterValidator caller b s
  | .registerMiner b maxFee => SubnetRegistry.registerMiner env blk caller b maxFee s
  | .deregisterMiner b => SubnetRegistry.deregisterMiner caller b s

/-- The calls with which its owner configures a Brain. -/
def RegistryCall.configures : RegistryCall → Bool
  | .activate _ _ _ | .deactivate _ | .setModel _ _ _ => true
  | .setRegistrationFee _ _ | .setEmissionSplit _ _ _ => true
  | _ => false

/-! ## The count is exact -/

namespace Roster

/-- Whether `a` is a member of the Brain, as a number. -/
def member (r : Roster) (b : BrainId) (a : Address) : Nat :=
  if (r.info b a).active then 1 else 0

/-- The count of a Brain is the number of its active members, and the zero address is
not one of them. -/
structure Counted (r : Roster) : Prop where
  count : ∀ b, r.count b = ∑ a, r.member b a
  nobody : ∀ b, (r.info b 0).active = false

variable {r r' : Roster} {b : BrainId} {a caller : Address}

theorem counted_empty : Roster.empty.Counted where
  count _ := by simp [Roster.empty, member]
  nobody _ := rfl

/-- Writing one entry writes one number. -/
theorem member_set (info : MemberInfo) (count : BrainId → Nat) :
    member ⟨set₂ r.info b a info, count⟩ =
      set₂ r.member b a (if info.active then 1 else 0) := by
  funext b' a'
  simp only [member, set₂_apply]
  split
  case isTrue => rfl
  case isFalse => rfl

/-- The count and one entry move together. -/
theorem count_write (hcount : ∀ b, r.count b = ∑ a, r.member b a) {info : MemberInfo} {n : Nat}
    (hn : n + r.member b a = r.count b + if info.active then 1 else 0) (b' : BrainId) :
    set r.count b n b' = ∑ a', member ⟨set₂ r.info b a info, set r.count b n⟩ b' a' := by
  rw [member_set]
  exact row_sum_set₂ hcount hn b'

theorem Counted.write (hr : r.Counted) {info : MemberInfo} {n : Nat} (ha : a ≠ 0)
    (hn : n + r.member b a = r.count b + if info.active then 1 else 0) :
    Counted ⟨set₂ r.info b a info, set r.count b n⟩ where
  count b' := count_write hr.count hn b'
  nobody b' := by
    have hother : ¬ (b' = b ∧ (0 : Address) = a) := fun h => ha h.2.symm
    dsimp only
    rw [set₂_of_ne _ _ hother]
    exact hr.nobody b'

/-- A registration adds one to a count below the capacity, for a caller who was not a
member. -/
theorem register_ok {capacity : Nat} {blk : Block}
    (h : r.register capacity blk b caller = .ok r') :
    r.member b caller = 0 ∧ r.count b < capacity ∧
      r' = ⟨set₂ r.info b caller ⟨uint64 blk.timestamp, 0, true⟩,
        set r.count b (r.count b + 1)⟩ := by
  simp only [register, bind_ok, revertIf_ok, add256_ok, return_ok] at h
  obtain ⟨_, hnew, _, hroom, _, ⟨-, rfl⟩, rfl⟩ := h
  exact ⟨if_neg hnew, Nat.lt_of_not_le hroom, rfl⟩

/-- A deregistration takes one off, for a caller who was a member. -/
theorem deregister_ok (h : r.deregister b caller = .ok r') :
    (r.info b caller).active = true ∧ 1 ≤ r.count b ∧
      r' = ⟨set₂ r.info b caller { r.info b caller with active := false },
        set r.count b (r.count b - 1)⟩ := by
  simp only [deregister, bind_ok, revertIf_ok, sub256_ok, return_ok, Bool.not_eq_false] at h
  obtain ⟨_, hold, _, ⟨hpos, rfl⟩, rfl⟩ := h
  exact ⟨hold, hpos, rfl⟩

theorem member_of_active (h : (r.info b a).active = true) : r.member b a = 1 := if_pos h

theorem register_counted {capacity : Nat} {blk : Block} (hr : r.Counted) (hcaller : caller ≠ 0)
    (h : r.register capacity blk b caller = .ok r') : r'.Counted := by
  obtain ⟨hnew, -, rfl⟩ := register_ok h
  apply hr.write hcaller
  rw [hnew]
  rfl

theorem deregister_counted (hr : r.Counted)
    (h : r.deregister b caller = .ok r') : r'.Counted := by
  obtain ⟨hold, hpos, rfl⟩ := deregister_ok h
  -- a member is not the zero address
  have hcaller : caller ≠ 0 := by
    rintro rfl
    rw [hr.nobody b] at hold
    cases hold
  apply hr.write hcaller
  rw [member_of_active hold]
  exact Nat.sub_add_cancel hpos

/-- The number of members. -/
theorem sum_member (r : Roster) (b : BrainId) :
    ∑ a, r.member b a = (Finset.univ.filter fun a => (r.info b a).active = true).card := by
  rw [Finset.card_filter]
  rfl

/-- The count as a number of addresses. -/
theorem Counted.card (hr : r.Counted) (b : BrainId) :
    r.count b = (Finset.univ.filter fun a => (r.info b a).active = true).card := by
  rw [hr.count, sum_member]

end Roster

/-! ## What a call does -/

section Calls

open SubnetRegistry

variable {T : Type} {env : RegistryEnv T} {blk : Block} {caller : Address}
  {s s' : RegistryState T}

/-- What every call of `caller` keeps: exact counts, the NFT's owners, and the tokens of
everybody else. -/
structure Kept (env : RegistryEnv T) (caller : Address) (s s' : RegistryState T) : Prop where
  validators : s.members.validators.Counted → s'.members.validators.Counted
  miners : s.members.miners.Counted → s'.members.miners.Counted
  brainOwners : s'.brainOwners = s.brainOwners
  balance : ∀ a, a ≠ caller → env.token.balanceOf s.token a ≤ env.token.balanceOf s'.token a

/-- A configuring call replaces the configuration of one Brain, and nothing else. -/
theorem configures_ok {c : RegistryCall} (h : c.exec env blk caller s = .ok s')
    (hc : c.configures = true) : ∃ b subnet, s' = configure b subnet s := by
  cases c with
  | activate b modelHash modelURI =>
    simp only [RegistryCall.exec, activate, bind_ok, return_ok] at h
    obtain ⟨_, -, _, -, rfl⟩ := h
    exact ⟨b, _, rfl⟩
  | deactivate b =>
    simp only [RegistryCall.exec, deactivate, bind_ok, return_ok] at h
    obtain ⟨_, -, rfl⟩ := h
    exact ⟨b, _, rfl⟩
  | setModel b modelHash modelURI =>
    simp only [RegistryCall.exec, setModel, bind_ok, return_ok] at h
    obtain ⟨_, -, _, -, rfl⟩ := h
    exact ⟨b, _, rfl⟩
  | setRegistrationFee b fee =>
    simp only [RegistryCall.exec, setRegistrationFee, bind_ok, return_ok] at h
    obtain ⟨_, -, _, -, rfl⟩ := h
    exact ⟨b, _, rfl⟩
  | setEmissionSplit b owner miner =>
    simp only [RegistryCall.exec, setEmissionSplit, bind_ok, return_ok] at h
    obtain ⟨_, -, _, -, _, -, rfl⟩ := h
    exact ⟨b, _, rfl⟩
  -- the others do not configure
  | _ => cases hc

/-- A fee is paid by the caller. -/
theorem payFee_ok {b : BrainId} {maxFee : Nat}
    (h : payFee env caller b maxFee s = .ok s') :
    ∃ token, s' = { s with token := token } ∧
      ∀ a, a ≠ caller → env.token.balanceOf s.token a ≤ env.token.balanceOf token a := by
  simp only [payFee, bind_ok, revertIf_ok, exists_const] at h
  obtain ⟨-, h⟩ := h
  split at h
  case isTrue =>
    simp only [bind_ok, return_ok] at h
    obtain ⟨token, htoken, rfl⟩ := h
    obtain ⟨-, hbal⟩ := safeTransferFrom_ok htoken
    refine ⟨token, rfl, fun a ha => ?_⟩
    rw [hbal]
    exact le_moved _ _ ha
  case isFalse =>
    obtain rfl := return_ok.mp h
    exact ⟨s.token, rfl, fun _ _ => le_rfl⟩

theorem exec_kept {c : RegistryCall} (hcaller : caller ≠ 0)
    (h : c.exec env blk caller s = .ok s') : Kept env caller s s' := by
  cases c with
  | registerValidator b maxFee =>
    simp only [RegistryCall.exec, registerValidator, bind_ok] at h
    obtain ⟨_, -, validators, hregister, hfee⟩ := h
    -- the fee is all that moves, and it leaves the caller
    obtain ⟨token, rfl, hbal⟩ := payFee_ok hfee
    exact ⟨fun hr => Roster.register_counted hr hcaller hregister, id, rfl, hbal⟩
  | deregisterValidator b =>
    simp only [RegistryCall.exec, deregisterValidator, bind_ok, return_ok] at h
    obtain ⟨validators, hderegister, rfl⟩ := h
    exact ⟨fun hr => Roster.deregister_counted hr hderegister, id, rfl, fun _ _ => le_rfl⟩
  | registerMiner b maxFee =>
    simp only [RegistryCall.exec, registerMiner, bind_ok] at h
    obtain ⟨_, -, miners, hregister, hfee⟩ := h
    obtain ⟨token, rfl, hbal⟩ := payFee_ok hfee
    exact ⟨id, fun hr => Roster.register_counted hr hcaller hregister, rfl, hbal⟩
  | deregisterMiner b =>
    simp only [RegistryCall.exec, deregisterMiner, bind_ok, return_ok] at h
    obtain ⟨miners, hderegister, rfl⟩ := h
    exact ⟨id, fun hr => Roster.deregister_counted hr hderegister, rfl, fun _ _ => le_rfl⟩
  | _ =>
    obtain ⟨b, subnet, rfl⟩ := configures_ok h rfl
    exact ⟨id, id, rfl, fun _ _ => le_rfl⟩

end Calls

end BasedAI
