import BasedAI.Chain.AccessControl

/-!
# BasedAI — the sink for validator fees

`RewardDistributor.sol` as far as settlement calls it: the accrual per Brain and
the entry point only the market may use.
-/

namespace BasedAI

open Fallible Mapping

inductive DistributorRole
  | defaultAdmin
  | market
  deriving DecidableEq, Repr

/-- The storage of `RewardDistributor`. -/
structure RewardDistributor where
  pendingValidatorFees : BrainId → Nat
  roles : AccessControl DistributorRole

/-- The distributor as deployed. -/
def RewardDistributor.deploy (admin : Address) : RewardDistributor where
  pendingValidatorFees _ := 0
  roles := .single .defaultAdmin admin

/-- `recordFees`, called by `caller`. -/
def RewardDistributor.recordFees (d : RewardDistributor) (caller : Address)
    (brainId : BrainId) (amount : Nat) : Exec RewardDistributor := do
  revertIf (d.roles.hasRole .market caller = false) .notMarket
  revertIf (amount = 0) .zeroAmount
  let pending ← add256 (d.pendingValidatorFees brainId) amount
  return { d with pendingValidatorFees := set d.pendingValidatorFees brainId pending }

theorem RewardDistributor.recordFees_ok {d d' : RewardDistributor} {caller : Address}
    {brainId : BrainId} {amount : Nat} (h : d.recordFees caller brainId amount = .ok d') :
    d.roles.hasRole .market caller = true ∧ 0 < amount ∧
      d' = { d with
        pendingValidatorFees := set d.pendingValidatorFees brainId
          (d.pendingValidatorFees brainId + amount) } := by
  simp only [recordFees, bind_ok, revertIf_ok, add256_ok, return_ok, Bool.not_eq_false] at h
  obtain ⟨_, hrole, _, hpos, _, ⟨-, rfl⟩, rfl⟩ := h
  exact ⟨hrole, Nat.pos_of_ne_zero hpos, rfl⟩

end BasedAI
