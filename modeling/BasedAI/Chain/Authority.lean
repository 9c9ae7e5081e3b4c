import BasedAI.Chain.AccessControl

/-!
# BasedAI — who can come to hold a role

Roles are handed out by the holders of `DEFAULT_ADMIN_ROLE`, and by nobody else. `Within` says
who holds each role at most, and `Guarded` what one call does: a table stays within its bound
as long as no administrator grants anything, and who gives nothing up keeps what it has as long
as none revokes anything.
-/

namespace BasedAI

open Fallible Mapping

namespace AccessControl

variable {Role : Type} [DecidableEq Role] {ac ac' : AccessControl Role} {defaultAdmin role : Role}
  {caller account a : Address} {allowed : Role → Address → Prop}

/-! ## What a call leaves -/

theorem grantRole_iff : ac.grantRole defaultAdmin caller role account = .ok ac' ↔
    ac.hasRole defaultAdmin caller = true ∧
      ac' = { hasRole := set₂ ac.hasRole role account true } := by
  simp only [grantRole, bind_ok, onlyRole_ok, return_ok, exists_and_left, exists_const]
  exact and_congr_right fun _ => eq_comm

theorem revokeRole_iff : ac.revokeRole defaultAdmin caller role account = .ok ac' ↔
    ac.hasRole defaultAdmin caller = true ∧
      ac' = { hasRole := set₂ ac.hasRole role account false } := by
  simp only [revokeRole, bind_ok, onlyRole_ok, return_ok, exists_and_left, exists_const]
  exact and_congr_right fun _ => eq_comm

omit [DecidableEq Role] in
theorem hasRole_single [DecidableEq Role] : (single role a).hasRole defaultAdmin caller = true ↔
    defaultAdmin = role ∧ caller = a := by
  simp [single]

/-- Who has a role after one entry was written. -/
theorem set₂_hasRole_iff {r : Role} {held : Bool} :
    set₂ ac.hasRole role account held r a = true ↔
      if r = role ∧ a = account then held = true else ac.hasRole r a = true := by
  rw [set₂_apply]
  split
  case isTrue => rfl
  case isFalse => rfl

theorem grantRole_hasRole (h : ac.grantRole defaultAdmin caller role account = .ok ac') (r : Role)
    (a : Address) : ac'.hasRole r a = true ↔
      ac.hasRole r a = true ∨ r = role ∧ a = account := by
  obtain ⟨-, rfl⟩ := grantRole_iff.mp h
  rw [set₂_hasRole_iff]
  split
  case isTrue heq => simp [heq]
  case isFalse hne => simp [hne]

/-- An account may always give up its own role. -/
theorem renounceRole_self : ac.renounceRole caller role caller =
    .ok { hasRole := set₂ ac.hasRole role caller false } := by
  rw [renounceRole, revertIf_neg (not_not.mpr rfl)]
  rfl

theorem renounceRole_hasRole (h : ac.renounceRole caller role account = .ok ac') (r : Role)
    (a : Address) : ac'.hasRole r a = true ↔
      ac.hasRole r a = true ∧ ¬ (r = role ∧ a = caller) := by
  obtain rfl := renounceRole_ok h
  rw [set₂_hasRole_iff]
  split
  case isTrue heq => simp [heq]
  case isFalse hne => simp [hne]

/-- Who administers after the deployer has named a successor and given up. -/
theorem succeeds {deployer successor : Address} (hfresh : successor ≠ deployer) :
    (a = deployer ∨ a = successor) ∧ a ≠ deployer ↔ a = successor := by
  constructor
  · rintro ⟨hold | hnew, hleft⟩
    · exact absurd hold hleft
    · exact hnew
  · rintro rfl
    exact ⟨.inr rfl, hfresh⟩

/-! ## Bounds on a table -/

/-- Nobody holds a role but those it is allowed to. -/
def Within (ac : AccessControl Role) (allowed : Role → Address → Prop) : Prop :=
  ∀ r a, ac.hasRole r a = true → allowed r a

/-! ## Calls -/

/-- What a successful call says about a table of roles, and does to it: its caller has the
role it needs, and unless it is an administrator's nobody gains a role, and nobody loses one
but a caller that renounces it. -/
structure Guarded (caller : Address) (needs : Option Role) (administers renounces : Bool)
    (ac ac' : AccessControl Role) : Prop where
  needed : ∀ r, needs = some r → ac.hasRole r caller = true
  gained : administers = false → ∀ r a, ac'.hasRole r a = true → ac.hasRole r a = true
  kept : administers = false → ∀ r a, (a = caller → renounces = false) →
    ac.hasRole r a = true → ac'.hasRole r a = true

variable {needs : Option Role} {administers renounces : Bool}

omit [DecidableEq Role] in
theorem guarded_unchanged (hneeds : ∀ r, needs = some r → ac.hasRole r caller = true)
    (hsame : ac' = ac) : Guarded caller needs administers renounces ac ac' :=
  ⟨hneeds, fun _ _ _ h => hsame ▸ h, fun _ _ _ _ h => hsame ▸ h⟩

omit [DecidableEq Role] in
/-- A call for the holders of a role, that is about something else. -/
theorem guarded_onlyRole (hrole : ac.hasRole role caller = true) (hsame : ac' = ac) :
    Guarded caller (some role) administers renounces ac ac' :=
  guarded_unchanged (fun _ hr => Option.some.inj hr ▸ hrole) hsame

omit [DecidableEq Role] in
/-- A call for anyone, that is about something else. -/
theorem guarded_free (hsame : ac' = ac) : Guarded caller none administers renounces ac ac' :=
  guarded_unchanged (fun r hr => absurd hr (Option.some_ne_none r).symm) hsame

omit [DecidableEq Role] in
/-- An administrator may do anything. -/
theorem guarded_admin (h : ac.hasRole defaultAdmin caller = true) :
    Guarded caller (some defaultAdmin) true renounces ac ac' where
  needed r hr := Option.some.inj hr ▸ h
  gained hnot := by cases hnot
  kept hnot := by cases hnot

theorem guarded_grantRole (h : ac.grantRole defaultAdmin caller role account = .ok ac') :
    Guarded caller (some defaultAdmin) true renounces ac ac' :=
  guarded_admin (grantRole_iff.mp h).1

theorem guarded_revokeRole (h : ac.revokeRole defaultAdmin caller role account = .ok ac') :
    Guarded caller (some defaultAdmin) true renounces ac ac' :=
  guarded_admin (revokeRole_iff.mp h).1

/-- An account that gives a role up is the only one it changes anything for. -/
theorem guarded_renounceRole (h : ac.renounceRole caller role account = .ok ac') :
    Guarded caller none false true ac ac' := by
  obtain rfl := renounceRole_ok h
  refine ⟨fun r hr => absurd hr (Option.some_ne_none r).symm, fun _ r a hheld => ?_,
    fun _ r a hgives hheld => ?_⟩
  · -- nobody gains what was written as not held
    have hheld := set₂_hasRole_iff.mp hheld
    split at hheld
    case isTrue => cases hheld
    case isFalse => exact hheld
  · have hother : ¬ (r = role ∧ a = caller) := fun heq => Bool.noConfusion (hgives heq.2)
    show set₂ ac.hasRole role caller false r a = true
    rw [set₂_hasRole_iff, if_neg hother]
    exact hheld

omit [DecidableEq Role] in
/-- A bound stands as long as no administrator acts. -/
theorem Guarded.within (h : Guarded caller needs administers renounces ac ac')
    (hquiet : administers = false) (hbound : ac.Within allowed) : ac'.Within allowed :=
  fun r a hheld => hbound r a (h.gained hquiet r a hheld)

omit [DecidableEq Role] in
/-- Whoever makes a call is one of those that are allowed to. -/
theorem Guarded.caller_allowed (h : Guarded caller needs administers renounces ac ac')
    (hbound : ac.Within allowed) (hneeds : needs = some role) : allowed role caller :=
  hbound role caller (h.needed role hneeds)

end AccessControl

end BasedAI
