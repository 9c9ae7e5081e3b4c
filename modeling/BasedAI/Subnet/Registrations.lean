import BasedAI.Lib.Transition
import BasedAI.Subnet.Membership

/-!
# BasedAI — registration when the token runs foreign code

A registration writes the membership, then has the fee burned. The token is not the
registry's code: while it moves the fee it may call out, and whoever it calls may enter
the registry again, everywhere but where `nonReentrant` stands. A registration is
therefore not one step but a stretch of them, which commits or is rolled back as a whole.

* `RegistryCall.guarded` — the calls that cannot be entered from inside one another;
* `OpenStep`             — what can happen while the token has control;
* `Registers`            — one attempt to register, with what the token did for it;
* `Visited`              — the states a call of anybody can meet, those in the middle of
  a registration among them;
* `membership_sound`     — counts, capacities, splits and fees, in all of them.
-/

namespace BasedAI

open Fallible Mapping Transition

/-! ## The two kinds of members -/

inductive MemberKind
  | validator
  | miner
  deriving DecidableEq, Repr

namespace MemberKind

def capacity : MemberKind → Nat
  | .validator => SubnetRegistry.MAX_VALIDATORS_PER_BRAIN
  | .miner => SubnetRegistry.MAX_MINERS_PER_BRAIN

def roster : MemberKind → SubnetMembers → Roster
  | .validator, m => m.validators
  | .miner, m => m.miners

def write : MemberKind → SubnetMembers → Roster → SubnetMembers
  | .validator, m, r => { m with validators := r }
  | .miner, m, r => { m with miners := r }

/-- The registration of the kind. -/
def registration (brainId : BrainId) (maxFee : Nat) : MemberKind → RegistryCall
  | .validator => .registerValidator brainId maxFee
  | .miner => .registerMiner brainId maxFee

@[simp] theorem roster_write (k : MemberKind) (m : SubnetMembers) (r : Roster) :
    k.roster (k.write m r) = r := by
  cases k <;> rfl

theorem roster_write_of_ne {k j : MemberKind} (h : j ≠ k) (m : SubnetMembers) (r : Roster) :
    j.roster (k.write m r) = j.roster m := by
  cases k <;> cases j <;> first | rfl | exact absurd rfl h

end MemberKind

/-- The calls with the `nonReentrant` modifier. -/
def RegistryCall.guarded : RegistryCall → Bool
  | .registerValidator .. => true
  | .registerMiner .. => true
  | _ => false

/-! ## Steps -/

section Steps

variable {T : Type} (env : RegistryEnv T)

/-- The registry as deployed, next to a token and an NFT in any state. -/
def RegistryState.deploy (token : T) (brainOwners : BrainOwners) : RegistryState T :=
  ⟨token, .deploy, .deploy, brainOwners⟩

/-- Who called what. -/
inductive RegistryLabel (T : Type)
  | call (caller : Address) (c : RegistryCall)
  /-- a registration, with the tokens it found and left where it took a fee -/
  | register (caller : Address) (kind : MemberKind) (brainId : BrainId) (maxFee : Nat)
    (taken : List (T × T)) (out : Exec (RegistryState T))
  | refused (caller : Address) (c : RegistryCall)
  | elsewhere

/-- What can happen while the token has control: calls without the guard, by anybody, and
anything at all outside the registry. -/
inductive OpenStep : RegistryState T → RegistryLabel T → RegistryState T → Prop
  | call {s s' : RegistryState T} {blk : Block} {caller : Address} {c : RegistryCall} :
      c.guarded = false → c.exec env blk caller s = .ok s' → OpenStep s (.call caller c) s'
  -- a call that reverts; inside a registration every guarded one does
  | refused {s : RegistryState T} {caller : Address} {c : RegistryCall} :
      OpenStep s (.refused caller c) s
  | elsewhere {s : RegistryState T} (token : T) (brainOwners : BrainOwners) :
      OpenStep s .elsewhere { s with token := token, brainOwners := brainOwners }

/-- The part of a registration before the fee. -/
def enroll (kind : MemberKind) (blk : Block) (caller : Address) (brainId : BrainId)
    (s : RegistryState T) : Exec (RegistryState T) := do
  SubnetRegistry.onlyActive brainId s
  let r ← (kind.roster s.members).register kind.capacity blk brainId caller
  return { s with members := kind.write s.members r }

/-- The fee in force. -/
def RegistryState.feeOf (s : RegistryState T) (brainId : BrainId) : Nat :=
  (s.subnets.subnets brainId).registrationFee

/-- An attempt to register, the token's foreign code included: what was taken from the
caller, and how it ended. -/
inductive Registers (blk : Block) (caller : Address) (kind : MemberKind) (brainId : BrainId)
    (maxFee : Nat) (s : RegistryState T) : List (T × T) → Exec (RegistryState T) → Prop
  | denied {e : Revert} : enroll kind blk caller brainId s = .error e →
      Registers blk caller kind brainId maxFee s [] (.error e)
  | dear {s₁ : RegistryState T} : enroll kind blk caller brainId s = .ok s₁ →
      maxFee < s₁.feeOf brainId →
      Registers blk caller kind brainId maxFee s [] (.error .feeExceedsMax)
  | free {s₁ : RegistryState T} : enroll kind blk caller brainId s = .ok s₁ →
      s₁.feeOf brainId ≤ maxFee → s₁.feeOf brainId = 0 →
      Registers blk caller kind brainId maxFee s [] (.ok s₁)
  -- the fee is read before the token gets control, and moved at some moment of that
  | paid {s₁ s₂ s₃ : RegistryState T} {before after : List (RegistryLabel T)} {token : T} :
      enroll kind blk caller brainId s = .ok s₁ →
      s₁.feeOf brainId ≤ maxFee → 0 < s₁.feeOf brainId → Run (OpenStep env) s₁ before s₂ →
      safeTransferFrom env.token s₂.token env.self caller SubnetRegistry.BURN_ADDRESS
        (s₁.feeOf brainId) = .ok token →
      Run (OpenStep env) { s₂ with token := token } after s₃ →
      Registers blk caller kind brainId maxFee s [(s₂.token, token)] (.ok s₃)
  -- the token refuses, or its foreign code reverts, whatever has happened by then
  | failed {s₁ s₂ : RegistryState T} {before : List (RegistryLabel T)} {e : Revert} :
      enroll kind blk caller brainId s = .ok s₁ →
      s₁.feeOf brainId ≤ maxFee → 0 < s₁.feeOf brainId → Run (OpenStep env) s₁ before s₂ →
      Registers blk caller kind brainId maxFee s [] (.error e)

/-- A transaction that reverts leaves the state it found. -/
def commit (s : RegistryState T) : Exec (RegistryState T) → RegistryState T
  | .ok s' => s'
  | .error _ => s

/-- A transaction, or something elsewhere. -/
inductive RegistryStep : RegistryState T → RegistryLabel T → RegistryState T → Prop
  | other {s s' : RegistryState T} {l : RegistryLabel T} :
      OpenStep env s l s' → RegistryStep s l s'
  | register {s : RegistryState T} {blk : Block} {caller : Address} {kind : MemberKind}
      {brainId : BrainId} {maxFee : Nat} {taken : List (T × T)} {out : Exec (RegistryState T)} :
      Registers env blk caller kind brainId maxFee s taken out →
      RegistryStep s (.register caller kind brainId maxFee taken out) (commit s out)

/-- The states a call can meet: those between transactions, and those inside a
registration, before and after its fee has moved. -/
inductive Visited (s₀ : RegistryState T) : RegistryState T → Prop
  | between {s : RegistryState T} {ls : List (RegistryLabel T)} :
      Run (RegistryStep env) s₀ ls s → Visited s₀ s
  | inside {s s₁ s₂ : RegistryState T} {ls hs : List (RegistryLabel T)} {kind : MemberKind}
      {blk : Block} {caller : Address} {brainId : BrainId} :
      Run (RegistryStep env) s₀ ls s → enroll kind blk caller brainId s = .ok s₁ →
      Run (OpenStep env) s₁ hs s₂ → Visited s₀ s₂

end Steps

/-! ## The plain call is such an attempt -/

section Plain

variable {T : Type} {env : RegistryEnv T} {blk : Block} {caller : Address} {kind : MemberKind}
  {b : BrainId} {maxFee : Nat} {s s' s₁ : RegistryState T}

theorem enroll_ok (h : enroll kind blk caller b s = .ok s₁) :
    ∃ r, (kind.roster s.members).register kind.capacity blk b caller = .ok r ∧
      s₁ = { s with members := kind.write s.members r } := by
  simp only [enroll, bind_ok, return_ok] at h
  obtain ⟨_, -, r, hr, rfl⟩ := h
  exact ⟨r, hr, rfl⟩

/-- A registration is the checks and effects, and then the fee. -/
theorem exec_registration :
    (kind.registration b maxFee).exec env blk caller s =
      enroll kind blk caller b s >>= SubnetRegistry.payFee env caller b maxFee := by
  cases kind with
  | validator =>
    simp only [MemberKind.registration, RegistryCall.exec, SubnetRegistry.registerValidator,
      enroll, bind_assoc, pure_bind]
    rfl
  | miner =>
    simp only [MemberKind.registration, RegistryCall.exec, SubnetRegistry.registerMiner,
      enroll, bind_assoc, pure_bind]
    rfl

theorem payFee_dear (h : maxFee < s.feeOf b) :
    SubnetRegistry.payFee env caller b maxFee s = .error .feeExceedsMax :=
  bind_error.mpr (.inl (revertIf_error.mpr ⟨h, rfl⟩))

theorem payFee_within (h : s.feeOf b ≤ maxFee) :
    SubnetRegistry.payFee env caller b maxFee s =
      if 0 < s.feeOf b then do
        let token ← safeTransferFrom env.token s.token env.self caller
          SubnetRegistry.BURN_ADDRESS (s.feeOf b)
        return { s with token := token }
      else .ok s := by
  have hpass : revertIf (maxFee < (s.subnets.subnets b).registrationFee)
      Revert.feeExceedsMax = .ok () :=
    revertIf_neg (Nat.not_lt.mpr h)
  simp only [SubnetRegistry.payFee, hpass, ok_bind]
  rfl

/-- With a token that calls nobody, an attempt is just the call. -/
theorem exec_registers :
    ∃ taken, Registers env blk caller kind b maxFee s taken
      ((kind.registration b maxFee).exec env blk caller s) := by
  rw [exec_registration]
  cases hs₁ : enroll kind blk caller b s with
  | error e => exact ⟨[], .denied hs₁⟩
  | ok s₁ =>
    rw [ok_bind]
    -- the fee is compared with the bound after the seat was taken
    by_cases hdear : maxFee < s₁.feeOf b
    · rw [payFee_dear hdear]
      exact ⟨[], .dear hs₁ hdear⟩
    · have hfee : s₁.feeOf b ≤ maxFee := Nat.le_of_not_lt hdear
      rw [payFee_within hfee]
      by_cases hpos : 0 < s₁.feeOf b
      · rw [if_pos hpos]
        cases htoken : safeTransferFrom env.token s₁.token env.self caller
            SubnetRegistry.BURN_ADDRESS (s₁.feeOf b) with
        | error e => exact ⟨[], .failed hs₁ hfee hpos (.nil s₁)⟩
        | ok token =>
          exact ⟨[(s₁.token, token)], .paid hs₁ hfee hpos (.nil s₁) htoken (.nil _)⟩
      · rw [if_neg hpos]
        exact ⟨[], .free hs₁ hfee (Nat.eq_zero_of_not_pos hpos)⟩

end Plain

/-! ## What every step keeps -/

/-- The splits of a Brain's fees within their bounds. -/
def Subnet.SplitsBounded (sn : Subnet) : Prop :=
  sn.ownerSplitBps ≤ SubnetRegistry.MAX_OWNER_SPLIT_BPS ∧ sn.minerShareBps ≤ 10000

/-- The count of a Brain is the number of its members, and within the capacity. -/
structure Roster.Sound (r : Roster) (capacity : Nat) : Prop where
  count : ∀ b, r.count b = ∑ a, r.member b a
  le_capacity : ∀ b, r.count b ≤ capacity

namespace Roster

variable {r r' : Roster} {capacity : Nat} {b : BrainId} {caller : Address}

theorem sound_empty (capacity : Nat) : Roster.empty.Sound capacity where
  count b := counted_empty.count b
  le_capacity _ := Nat.zero_le _

theorem register_sound {blk : Block} (hr : r.Sound capacity)
    (h : r.register capacity blk b caller = .ok r') : r'.Sound capacity := by
  obtain ⟨hnew, hroom, rfl⟩ := register_ok h
  constructor
  · intro b'
    apply count_write hr.count
    rw [hnew]
    rfl
  · intro b'
    dsimp only
    rw [set_apply]
    split
    case isTrue => exact hroom
    case isFalse => exact hr.le_capacity b'

theorem deregister_sound (hr : r.Sound capacity) (h : r.deregister b caller = .ok r') :
    r'.Sound capacity := by
  obtain ⟨hold, hpos, rfl⟩ := deregister_ok h
  constructor
  · intro b'
    apply count_write hr.count
    rw [member_of_active hold]
    exact Nat.sub_add_cancel hpos
  · intro b'
    dsimp only
    rw [set_apply]
    split
    case isTrue => exact (Nat.sub_le _ _).trans (hr.le_capacity b)
    case isFalse => exact hr.le_capacity b'

/-- A member is counted, so that taking it off does not underflow. -/
theorem Sound.deregister_ne_underflow (hr : r.Sound capacity) :
    r.deregister b caller ≠ .error .underflow := by
  intro h
  simp only [deregister, bind_error, revertIf_error, revertIf_ok, sub256, checkedSub_error,
    return_error, and_false, exists_false, or_false, reduceCtorEq, false_or,
    Bool.not_eq_false] at h
  obtain ⟨-, hold, hnone, -⟩ := h
  -- the caller is one of the members counted
  have hone : r.member b caller ≤ r.count b := by
    rw [hr.count]
    exact le_sum (r.member b) caller
  rw [member_of_active hold] at hone
  omega

theorem register_ne_underflow {blk : Block} :
    r.register capacity blk b caller ≠ .error .underflow := by
  intro h
  simp only [register, bind_error, revertIf_error, revertIf_ok, add256, checkedAdd_error,
    return_error, and_false, exists_false, or_false, reduceCtorEq] at h

end Roster

/-- What the registry promises about its configuration and its members. -/
structure RegistryInv {T : Type} (s : RegistryState T) : Prop where
  roster : ∀ kind : MemberKind, (kind.roster s.members).Sound kind.capacity
  splits : ∀ b, (s.subnets.subnets b).SplitsBounded

theorem registryInv_deploy {T : Type} (token : T) (brainOwners : BrainOwners) :
    RegistryInv (.deploy token brainOwners) where
  roster kind := by
    cases kind with
    | validator => exact Roster.sound_empty _
    | miner => exact Roster.sound_empty _
  splits _ := ⟨Nat.zero_le _, Nat.zero_le _⟩

namespace RegistryInv

variable {T : Type} {env : RegistryEnv T} {blk : Block} {caller : Address} {kind : MemberKind}
  {b : BrainId} {s s' : RegistryState T}

/-- The promise is about the registry's own storage. -/
theorem elsewhere (hs : RegistryInv s) (token : T) (brainOwners : BrainOwners) :
    RegistryInv { s with token := token, brainOwners := brainOwners } :=
  ⟨hs.roster, hs.splits⟩

theorem configure (hs : RegistryInv s) {subnet : Subnet}
    (h : SubnetRegistry.configure b subnet s = s') (hsubnet : subnet.SplitsBounded) :
    RegistryInv s' := by
  subst h
  constructor
  · exact hs.roster
  · intro b'
    show (set s.subnets.subnets b subnet b').SplitsBounded
    rw [set_apply]
    split
    case isTrue => exact hsubnet
    case isFalse => exact hs.splits b'

/-- One roster is rewritten, and the other one stays. -/
theorem write (hs : RegistryInv s) {r : Roster} (hr : r.Sound kind.capacity) :
    RegistryInv { s with members := kind.write s.members r } where
  roster j := by
    dsimp only
    by_cases hj : j = kind
    · rw [hj, MemberKind.roster_write]
      exact hr
    · rw [MemberKind.roster_write_of_ne hj]
      exact hs.roster j
  splits := hs.splits

theorem enroll (hs : RegistryInv s) (h : BasedAI.enroll kind blk caller b s = .ok s') :
    RegistryInv s' := by
  obtain ⟨r, hr, rfl⟩ := enroll_ok h
  exact hs.write (Roster.register_sound (hs.roster kind) hr)

/-- The calls without the guard, one by one. -/
theorem exec (hs : RegistryInv s) {c : RegistryCall} (hc : c.guarded = false)
    (h : c.exec env blk caller s = .ok s') : RegistryInv s' := by
  -- registrations pass control to the token, so they are resumed elsewhere
  cases c with
  | activate b modelHash modelURI =>
    simp only [RegistryCall.exec, SubnetRegistry.activate, bind_ok, return_ok] at h
    obtain ⟨_, -, _, -, h⟩ := h
    have howner : SubnetRegistry.DEFAULT_OWNER_SPLIT_BPS ≤ SubnetRegistry.MAX_OWNER_SPLIT_BPS :=
      by decide
    have hminer : SubnetRegistry.DEFAULT_MINER_SHARE_BPS ≤ 10000 := by decide
    exact hs.configure h ⟨howner, hminer⟩
  | deactivate b =>
    simp only [RegistryCall.exec, SubnetRegistry.deactivate, bind_ok, return_ok] at h
    obtain ⟨_, -, h⟩ := h
    exact hs.configure h (hs.splits b)
  | setModel b modelHash modelURI =>
    simp only [RegistryCall.exec, SubnetRegistry.setModel, bind_ok, return_ok] at h
    obtain ⟨_, -, _, -, h⟩ := h
    exact hs.configure h (hs.splits b)
  | setRegistrationFee b fee =>
    simp only [RegistryCall.exec, SubnetRegistry.setRegistrationFee, bind_ok, return_ok] at h
    obtain ⟨_, -, _, -, h⟩ := h
    exact hs.configure h (hs.splits b)
  | setEmissionSplit b owner miner =>
    simp only [RegistryCall.exec, SubnetRegistry.setEmissionSplit, bind_ok, revertIf_ok,
      return_ok, not_or, not_lt] at h
    obtain ⟨_, -, _, -, _, hsplit, h⟩ := h
    exact hs.configure h hsplit
  | registerValidator b maxFee => cases hc
  | registerMiner b maxFee => cases hc
  | deregisterValidator b =>
    simp only [RegistryCall.exec, SubnetRegistry.deregisterValidator, bind_ok, return_ok] at h
    obtain ⟨validators, hderegister, rfl⟩ := h
    exact hs.write (Roster.deregister_sound (hs.roster .validator) hderegister)
  | deregisterMiner b =>
    simp only [RegistryCall.exec, SubnetRegistry.deregisterMiner, bind_ok, return_ok] at h
    obtain ⟨miners, hderegister, rfl⟩ := h
    exact hs.write (Roster.deregister_sound (hs.roster .miner) hderegister)

theorem openStep {l : RegistryLabel T} (h : OpenStep env s l s') (hs : RegistryInv s) :
    RegistryInv s' := by
  cases h with
  | call hc hexec => exact hs.exec hc hexec
  | refused => exact hs
  | elsewhere token brainOwners => exact hs.elsewhere token brainOwners

/-- A registration, whatever the token's foreign code does inside it. -/
theorem registers {maxFee : Nat} {taken : List (T × T)}
    (h : Registers env blk caller kind b maxFee s taken (.ok s')) (hs : RegistryInv s) :
    RegistryInv s' := by
  cases h with
  | free henroll _ _ => exact hs.enroll henroll
  | paid henroll _ _ hbefore _ hafter =>
    -- before the fee moves, when it moves, and after
    have hs₂ := hbefore.invariant (I := RegistryInv) openStep (hs.enroll henroll)
    exact hafter.invariant (I := RegistryInv) openStep (hs₂.elsewhere _ _)

/-- Any call at all, of a token that calls nobody. -/
theorem call (hs : RegistryInv s) {c : RegistryCall} (h : c.exec env blk caller s = .ok s') :
    RegistryInv s' := by
  have hregistration : ∀ {kind : MemberKind} {b : BrainId} {maxFee : Nat},
      (kind.registration b maxFee).exec env blk caller s = .ok s' → RegistryInv s' := by
    intro kind b maxFee h
    obtain ⟨taken, hregisters⟩ := @exec_registers T env blk caller kind b maxFee s
    rw [h] at hregisters
    exact registers hregisters hs
  cases c with
  | registerValidator b maxFee => exact @hregistration .validator b maxFee h
  | registerMiner b maxFee => exact @hregistration .miner b maxFee h
  | _ => exact hs.exec rfl h

theorem step {l : RegistryLabel T} (h : RegistryStep env s l s') (hs : RegistryInv s) :
    RegistryInv s' := by
  cases h with
  | other hopen => exact openStep hopen hs
  | register hregisters =>
    rename_i out
    rcases out with e | s'
    · exact hs
    · exact registers hregisters hs

theorem visited {s₀ : RegistryState T} (h : Visited env s₀ s) (hs₀ : RegistryInv s₀) :
    RegistryInv s := by
  cases h with
  | between hrun => exact hrun.invariant (I := RegistryInv) step hs₀
  | inside hrun henroll hinside =>
    have hs := hrun.invariant (I := RegistryInv) step hs₀
    exact hinside.invariant (I := RegistryInv) openStep (hs.enroll henroll)

/-! ### No counter underflows -/

theorem payFee_ne_underflow {maxFee : Nat} :
    SubnetRegistry.payFee env caller b maxFee s ≠ .error .underflow := by
  intro h
  simp only [SubnetRegistry.payFee, bind_error, revertIf_error, reduceCtorEq, and_false,
    false_or] at h
  obtain ⟨_, -, h⟩ := h
  split at h
  case isTrue =>
    simp only [safeTransferFrom, bind_error, orRevert_error, reduceCtorEq, and_false,
      return_error, exists_false, or_false] at h
  case isFalse => exact return_error.mp h

theorem enroll_ne_underflow : BasedAI.enroll kind blk caller b s ≠ .error .underflow := by
  intro h
  simp only [BasedAI.enroll, SubnetRegistry.onlyActive, bind_error, revertIf_error,
    reduceCtorEq, and_false, false_or, return_error, exists_false, or_false] at h
  obtain ⟨_, -, h⟩ := h
  exact Roster.register_ne_underflow h

theorem onlyOwner_ne_underflow :
    SubnetRegistry.onlyOwner caller b s ≠ .error .underflow := by
  intro h
  simp only [SubnetRegistry.onlyOwner, bind_error, orRevert_error, revertIf_error,
    reduceCtorEq, and_false, exists_false, or_false] at h

theorem exec_ne_underflow (hs : RegistryInv s) (c : RegistryCall) :
    c.exec env blk caller s ≠ .error .underflow := by
  intro h
  -- only leaving a roster subtracts, and a member's roster is not empty
  cases c with
  | activate b modelHash modelURI =>
    simp only [RegistryCall.exec, SubnetRegistry.activate, bind_error, revertIf_error,
      return_error, reduceCtorEq, and_false, exists_false, or_false] at h
    exact onlyOwner_ne_underflow h
  | deactivate b =>
    simp only [RegistryCall.exec, SubnetRegistry.deactivate, bind_error, return_error,
      and_false, exists_false, or_false] at h
    exact onlyOwner_ne_underflow h
  | setModel b modelHash modelURI =>
    simp only [RegistryCall.exec, SubnetRegistry.setModel, SubnetRegistry.onlyActive,
      bind_error, revertIf_error, return_error, reduceCtorEq, and_false, exists_false,
      or_false] at h
    exact onlyOwner_ne_underflow h
  | setRegistrationFee b fee =>
    simp only [RegistryCall.exec, SubnetRegistry.setRegistrationFee, SubnetRegistry.onlyActive,
      bind_error, revertIf_error, return_error, reduceCtorEq, and_false, exists_false,
      or_false] at h
    exact onlyOwner_ne_underflow h
  | setEmissionSplit b owner miner =>
    simp only [RegistryCall.exec, SubnetRegistry.setEmissionSplit, SubnetRegistry.onlyActive,
      bind_error, revertIf_error, return_error, reduceCtorEq, and_false, exists_false,
      or_false] at h
    exact onlyOwner_ne_underflow h
  | registerValidator b maxFee =>
    have h : (MemberKind.validator.registration b maxFee).exec env blk caller s =
      .error .underflow := h
    rw [exec_registration] at h
    rcases bind_error.mp h with h | ⟨_, -, h⟩
    · exact enroll_ne_underflow h
    · exact payFee_ne_underflow h
  | registerMiner b maxFee =>
    have h : (MemberKind.miner.registration b maxFee).exec env blk caller s =
      .error .underflow := h
    rw [exec_registration] at h
    rcases bind_error.mp h with h | ⟨_, -, h⟩
    · exact enroll_ne_underflow h
    · exact payFee_ne_underflow h
  | deregisterValidator b =>
    simp only [RegistryCall.exec, SubnetRegistry.deregisterValidator, bind_error,
      return_error, and_false, exists_false, or_false] at h
    exact (hs.roster .validator).deregister_ne_underflow h
  | deregisterMiner b =>
    simp only [RegistryCall.exec, SubnetRegistry.deregisterMiner, bind_error,
      return_error, and_false, exists_false, or_false] at h
    exact (hs.roster .miner).deregister_ne_underflow h

end RegistryInv

/-! ## The fee -/

/-- What was taken from `caller` is `fee`, burned in one move; of a fee of nothing the token
is not even told. -/
def FeeTaken {T : Type} (env : RegistryEnv T) (caller : Address) (fee : Nat)
    (taken : List (T × T)) : Prop :=
  (fee = 0 ∧ taken = []) ∨
    ∃ t t', taken = [(t, t')] ∧ fee ≤ env.token.balanceOf t caller ∧
      env.token.balanceOf t' =
        moved (env.token.balanceOf t) caller SubnetRegistry.BURN_ADDRESS fee

section Fee

variable {T : Type} {env : RegistryEnv T} {blk : Block} {caller : Address} {kind : MemberKind}
  {b : BrainId} {maxFee : Nat} {s s' : RegistryState T} {taken : List (T × T)}

theorem enroll_feeOf (h : enroll kind blk caller b s = .ok s') : s'.feeOf b = s.feeOf b := by
  obtain ⟨r, -, rfl⟩ := enroll_ok h
  rfl

/-- The fee taken is the one in force when the registration is called, whatever the token's
foreign code makes of it. -/
theorem Registers.feeTaken (h : Registers env blk caller kind b maxFee s taken (.ok s')) :
    s.feeOf b ≤ maxFee ∧ FeeTaken env caller (s.feeOf b) taken := by
  cases h with
  | free henroll hfee hzero =>
    rw [enroll_feeOf henroll] at hfee hzero
    exact ⟨hfee, .inl ⟨hzero, rfl⟩⟩
  | paid henroll hfee _ _ htoken _ =>
    rw [enroll_feeOf henroll] at hfee htoken
    obtain ⟨hfunds, hmoved⟩ := safeTransferFrom_ok htoken
    exact ⟨hfee, .inr ⟨_, _, rfl, hfunds, hmoved⟩⟩

/-- The plain fee: of nothing, nothing moves. -/
theorem payFee_exact (h : SubnetRegistry.payFee env caller b maxFee s = .ok s') :
    s.feeOf b ≤ maxFee ∧ s.feeOf b ≤ env.token.balanceOf s.token caller ∧
      env.token.balanceOf s'.token =
        moved (env.token.balanceOf s.token) caller SubnetRegistry.BURN_ADDRESS (s.feeOf b) := by
  have hfee : s.feeOf b ≤ maxFee := by
    -- a dearer registration reverts before the token is asked
    by_contra hdear
    rw [payFee_dear (Nat.lt_of_not_le hdear)] at h
    cases h
  rw [payFee_within hfee] at h
  split at h
  case isTrue hpos =>
    simp only [bind_ok, return_ok] at h
    obtain ⟨token, htoken, rfl⟩ := h
    obtain ⟨hfunds, hmoved⟩ := safeTransferFrom_ok htoken
    exact ⟨hfee, hfunds, hmoved⟩
  case isFalse hpos =>
    obtain rfl := Except.ok.inj h
    have hzero : s.feeOf b = 0 := Nat.eq_zero_of_not_pos hpos
    rw [hzero, moved_zero]
    exact ⟨Nat.zero_le _, Nat.zero_le _, rfl⟩

/-- A registration with a token that calls nobody burns the fee in force, and nothing else. -/
theorem exec_fee (h : (kind.registration b maxFee).exec env blk caller s = .ok s') :
    s.feeOf b ≤ maxFee ∧ s.feeOf b ≤ env.token.balanceOf s.token caller ∧
      env.token.balanceOf s'.token =
        moved (env.token.balanceOf s.token) caller SubnetRegistry.BURN_ADDRESS (s.feeOf b) := by
  rw [exec_registration, bind_ok] at h
  obtain ⟨s₁, henroll, hpay⟩ := h
  obtain ⟨r, -, rfl⟩ := enroll_ok henroll
  -- taking the seat has moved no token
  have hfee := payFee_exact hpay
  exact hfee

theorem RegistryStep.reverted {e : Revert}
    (h : RegistryStep env s (.register caller kind b maxFee taken (.error e)) s') : s' = s := by
  cases h with
  | other hopen => cases hopen
  | register _ => rfl

end Fee

/-! ## The registry -/

/-- **The membership is sound.** In every state a call can meet, inside a registration too:
the counts are the numbers of members and within the capacities, the splits are within
their bounds, and no call underflows. A registration that succeeds has taken exactly the
fee in force, at most what its caller agreed to, whether the token calls anybody meanwhile or
not, and one that reverts has changed no membership. -/
theorem membership_sound {T : Type} {env : RegistryEnv T} {token : T}
    {brainOwners : BrainOwners} {s : RegistryState T}
    (h : Visited env (.deploy token brainOwners) s) :
    (∀ b,
      s.members.validatorCount b =
        (Finset.univ.filter fun a => s.members.isValidator b a = true).card ∧
      s.members.minerCount b =
        (Finset.univ.filter fun a => s.members.isMiner b a = true).card ∧
      s.members.validatorCount b ≤ 256 ∧ s.members.minerCount b ≤ 1792) ∧
    (∀ b, (s.subnets.subnets b).ownerSplitBps.val ≤ 1500 ∧
      (s.subnets.subnets b).minerShareBps.val ≤ 10000) ∧
    (∀ blk caller (c : RegistryCall), c.exec env blk caller s ≠ .error .underflow) ∧
    (∀ blk caller kind b maxFee taken s',
      Registers env blk caller kind b maxFee s taken (.ok s') →
      s.feeOf b ≤ maxFee ∧ FeeTaken env caller (s.feeOf b) taken) ∧
    (∀ blk caller kind b maxFee s',
      (MemberKind.registration b maxFee kind).exec env blk caller s = .ok s' →
      s.feeOf b ≤ maxFee ∧ s.feeOf b ≤ env.token.balanceOf s.token caller ∧
        env.token.balanceOf s'.token =
          moved (env.token.balanceOf s.token) caller SubnetRegistry.BURN_ADDRESS (s.feeOf b)) ∧
    ∀ caller kind b maxFee taken e s',
      RegistryStep env s (.register caller kind b maxFee taken (.error e)) s' →
      s'.members = s.members := by
  -- the invariant holds of every state a run visits, a call in the middle included
  have hs : RegistryInv s := RegistryInv.visited h (registryInv_deploy token brainOwners)
  have hvalidators := hs.roster .validator
  have hminers := hs.roster .miner
  refine ⟨?_, ?_, ?_, ?_, ?_, ?_⟩
  · intro b
    refine ⟨?_, ?_, hvalidators.le_capacity b, hminers.le_capacity b⟩
    · exact (hvalidators.count b).trans (Roster.sum_member _ b)
    · exact (hminers.count b).trans (Roster.sum_member _ b)
  · intro b
    exact hs.splits b
  · intro blk caller c
    exact hs.exec_ne_underflow c
  · intro blk caller kind b maxFee taken s' hregisters
    exact hregisters.feeTaken
  · intro blk caller kind b maxFee s' hexec
    exact exec_fee hexec
  · intro caller kind b maxFee taken e s' hstep
    rw [hstep.reverted]

/-! ### A token that calls its sender back -/

def toyHooked : RegistryEnv Ledger := ⟨ledgerToken, 9⟩

/-- Brain 3 is account 4's. -/
def toyUnopened : RegistryState Ledger :=
  .deploy toyLedger fun b => if b = 3 then some 4 else none

def toyMoment : Block := toyBlockAt 60

/-- The owner has activated it. -/
def toyActivated : RegistryState Ledger :=
  SubnetRegistry.configure 3
    ⟨4, 1, "", SubnetRegistry.DEFAULT_REGISTRATION_FEE, SubnetRegistry.DEFAULT_OWNER_SPLIT_BPS,
      SubnetRegistry.DEFAULT_MINER_SHARE_BPS, 60, true⟩ toyUnopened

/-- And asks 30 for a registration. -/
def toyOpened : RegistryState Ledger :=
  SubnetRegistry.configure 3
    { toyActivated.subnets.subnets 3 with registrationFee := 30 } toyActivated

theorem toyOpened_visited : Visited toyHooked toyUnopened toyOpened := by
  have hactivate : (RegistryCall.activate 3 1 "").exec toyHooked toyMoment 4 toyUnopened =
    .ok toyActivated := rfl
  have hfee : (RegistryCall.setRegistrationFee 3 30).exec toyHooked toyMoment 4 toyActivated =
    .ok toyOpened := rfl
  exact .between (.cons (.other (.call rfl hactivate)) (.single (.other (.call rfl hfee))))

/-- Account 5 registers as a validator of Brain 3, and is called back by the token, and
leaves again: it is no member, and has paid. -/
theorem membership_sound_left : ∃ taken s',
    Registers toyHooked toyMoment 5 .validator 3 30 toyOpened taken (.ok s') ∧
      s'.members.isValidator 3 5 = false ∧ s'.members.validatorCount 3 = 0 ∧
      FeeTaken toyHooked 5 30 taken := by
  have henroll : enroll .validator toyMoment 5 3 toyOpened = .ok _ := rfl
  have hpay := @Registers.paid _ toyHooked _ _ _ _ 30 _ _ _ _ _ _ _ henroll (by decide)
    (by decide) (.single (@OpenStep.call _ _ _ _ toyMoment 5 (.deregisterValidator 3) rfl rfl))
    rfl (.nil _)
  obtain ⟨-, -, -, hfees, -, -⟩ := membership_sound toyOpened_visited
  obtain ⟨-, htaken⟩ := hfees _ _ _ _ _ _ _ hpay
  exact ⟨_, _, hpay, rfl, rfl, htaken⟩

end BasedAI
