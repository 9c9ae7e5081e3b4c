import BasedAI.Chain.Primitives
import BasedAI.Lib.Mapping

/-!
# BasedAI — role-based access control

OpenZeppelin's `AccessControl` as the contracts use it: a membership table per
role, every role administered by `DEFAULT_ADMIN_ROLE`.
-/

namespace BasedAI

open Fallible Mapping

/-- Role membership. -/
structure AccessControl (Role : Type) where
  hasRole : Role → Address → Bool

namespace AccessControl

variable {Role : Type} [DecidableEq Role]

/-- The table in which only `admin` holds only `role`. -/
def single (role : Role) (admin : Address) : AccessControl Role where
  hasRole r a := decide (r = role ∧ a = admin)

/-- The `onlyRole` modifier. -/
def onlyRole (ac : AccessControl Role) (role : Role) (caller : Address) : Exec Unit :=
  revertIf (ac.hasRole role caller = false) .accessControlUnauthorizedAccount

def grantRole (defaultAdmin : Role) (caller : Address) (role : Role) (account : Address)
    (ac : AccessControl Role) : Exec (AccessControl Role) := do
  ac.onlyRole defaultAdmin caller
  return { hasRole := set₂ ac.hasRole role account true }

def revokeRole (defaultAdmin : Role) (caller : Address) (role : Role) (account : Address)
    (ac : AccessControl Role) : Exec (AccessControl Role) := do
  ac.onlyRole defaultAdmin caller
  return { hasRole := set₂ ac.hasRole role account false }

def renounceRole (caller : Address) (role : Role) (callerConfirmation : Address)
    (ac : AccessControl Role) : Exec (AccessControl Role) := do
  -- no admin is asked: an account may always give a role up
  revertIf (callerConfirmation ≠ caller) .accessControlBadConfirmation
  return { hasRole := set₂ ac.hasRole role caller false }

omit [DecidableEq Role] in
@[simp] theorem onlyRole_ok {ac : AccessControl Role} {role : Role} {caller : Address}
    {u : Unit} : ac.onlyRole role caller = .ok u ↔ ac.hasRole role caller = true := by
  simp [onlyRole]

theorem grantRole_ok {ac ac' : AccessControl Role} {defaultAdmin role : Role}
    {caller account : Address} (h : ac.grantRole defaultAdmin caller role account = .ok ac') :
    ac' = { hasRole := set₂ ac.hasRole role account true } := by
  simp only [grantRole, bind_ok, return_ok] at h
  obtain ⟨_, -, rfl⟩ := h
  rfl

theorem renounceRole_ok {ac ac' : AccessControl Role} {role : Role}
    {caller confirmation : Address}
    (h : ac.renounceRole caller role confirmation = .ok ac') :
    ac' = { hasRole := set₂ ac.hasRole role caller false } := by
  simp only [renounceRole, bind_ok, return_ok] at h
  obtain ⟨_, -, rfl⟩ := h
  rfl

end AccessControl

end BasedAI
