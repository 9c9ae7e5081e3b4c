import BasedAI.Chain.Token

/-!
# BasedAI — allowances

The reward distributor approves the vault and has its tokens pulled, so where the two
meet the token comes with its allowances. As for `Token`, what the operations do is part
of the interface, and that they are not refused is the separate property
`Erc20.Responsive`.
-/

namespace BasedAI

open Fallible Mapping

/-- A token with its allowances. -/
structure Erc20 (T : Type) extends Token T where
  /-- `allowance t owner spender` -/
  allowance : T → Address → Address → Nat
  /-- `approve t caller spender amount` -/
  approve : T → Address → Address → Nat → Option T
  approve_exact : ∀ {t caller spender amount t'},
    approve t caller spender amount = some t' →
      balanceOf t' = balanceOf t ∧ allowance t' caller spender = amount
  /-- an allowance is used up by at most what is moved; an unlimited one is not -/
  transferFrom_allowance : ∀ {t spender owner recipient amount t'},
    transferFrom t spender owner recipient amount = some t' →
      allowance t owner spender ≤ allowance t' owner spender + amount

/-- The token refuses nothing that is paid for and allowed, the zero address aside. -/
structure Erc20.Responsive {T : Type} (tok : Erc20 T) : Prop where
  payable : tok.toToken.Payable
  transferFrom : ∀ t spender owner recipient amount,
    spender ≠ 0 → owner ≠ 0 → recipient ≠ 0 → amount ≤ tok.balanceOf t owner →
    amount ≤ tok.allowance t owner spender →
    ∃ t', tok.transferFrom t spender owner recipient amount = some t'
  approve : ∀ t caller spender amount, caller ≠ 0 → spender ≠ 0 → amount < 2 ^ 256 →
    ∃ t', tok.approve t caller spender amount = some t'

section

variable {T : Type} (tok : Erc20 T)

/-- `SafeERC20.forceApprove`, called by `caller`: where the token refuses to change an
allowance, it is set to zero first. -/
def forceApprove (t : T) (caller spender : Address) (amount : Nat) : Exec T :=
  match tok.approve t caller spender amount with
  | some t' => .ok t'
  | none => do
    let t' ← orRevert .safeERC20FailedOperation (tok.approve t caller spender 0)
    orRevert .safeERC20FailedOperation (tok.approve t' caller spender amount)

variable {tok} {t t' : T} {caller spender : Address} {amount : Nat}

theorem forceApprove_ok (h : forceApprove tok t caller spender amount = .ok t') :
    tok.balanceOf t' = tok.balanceOf t ∧ tok.allowance t' caller spender = amount := by
  unfold forceApprove at h
  split at h
  case h_1 happrove =>
    cases h
    exact tok.approve_exact happrove
  case h_2 =>
    simp only [bind_ok, orRevert_ok] at h
    obtain ⟨t₀, hreset, happrove⟩ := h
    obtain ⟨hbal₀, -⟩ := tok.approve_exact hreset
    obtain ⟨hbal, hallowance⟩ := tok.approve_exact happrove
    exact ⟨hbal.trans hbal₀, hallowance⟩

theorem Erc20.Responsive.forceApprove (htok : tok.Responsive) (hcaller : caller ≠ 0)
    (hspender : spender ≠ 0) (hamount : amount < 2 ^ 256) (t : T) :
    ∃ t', BasedAI.forceApprove tok t caller spender amount = .ok t' := by
  obtain ⟨t', ht'⟩ := htok.approve t caller spender amount hcaller hspender hamount
  refine ⟨t', ?_⟩
  unfold BasedAI.forceApprove
  rw [ht']

theorem Erc20.Responsive.safeTransferFrom (htok : tok.Responsive) {owner recipient : Address}
    (hspender : spender ≠ 0) (howner : owner ≠ 0) (hrecipient : recipient ≠ 0)
    (hbal : amount ≤ tok.balanceOf t owner) (hallowed : amount ≤ tok.allowance t owner spender) :
    ∃ t', BasedAI.safeTransferFrom tok.toToken t spender owner recipient amount = .ok t' := by
  obtain ⟨t', ht'⟩ :=
    htok.transferFrom t spender owner recipient amount hspender howner hrecipient hbal hallowed
  exact ⟨t', orRevert_ok.mpr ht'⟩

end

/-! ## The plain ledger -/

theorem Ledger.spend_allowance {l l' : Ledger} {owner spender : Address} {amount : Nat}
    (h : l.spend owner spender amount = some l') :
    l.allowances owner spender ≤ l'.allowances owner spender + amount := by
  unfold Ledger.spend at h
  split_ifs at h with hmax hle
  · cases h
    exact Nat.le_add_right _ _
  · cases h
    dsimp only
    rw [set₂_same]
    omega

theorem Ledger.move_allowances {l l' : Ledger} {src dst : Address} {amount : Nat}
    (h : l.move src dst amount = some l') : l'.allowances = l.allowances := by
  unfold Ledger.move at h
  split_ifs at h
  cases h
  rfl

/-- The plain ledger with its allowances. -/
def ledgerErc20 : Erc20 Ledger where
  toToken := ledgerToken
  allowance := Ledger.allowances
  approve l caller spender amount :=
    some { l with allowances := set₂ l.allowances caller spender amount }
  approve_exact := by
    intro l caller spender amount l' h
    cases h
    exact ⟨rfl, set₂_same _ _ _ _⟩
  transferFrom_allowance := by
    intro l spender owner recipient amount l' h
    obtain ⟨m, hspend, hmove⟩ := Option.bind_eq_some_iff.mp h
    rw [Ledger.move_allowances hmove]
    exact Ledger.spend_allowance hspend

theorem ledgerErc20_responsive : ledgerErc20.Responsive where
  payable := ledgerToken_payable
  transferFrom l spender owner recipient amount _ _ _ hbal hallowed := by
    -- the allowance covers the amount, be it unlimited or not
    have hallowed' : amount ≤ l.allowances owner spender := hallowed
    have hspend : ∃ m, l.spend owner spender amount = some m := by
      unfold Ledger.spend
      split
      · exact ⟨l, rfl⟩
      · exact ⟨_, rfl⟩
    obtain ⟨m, hm⟩ := hspend
    have hbal' : amount ≤ m.balances owner := by
      rw [Ledger.spend_balances hm]
      exact hbal
    obtain ⟨l', hl'⟩ := ledgerToken_live m owner recipient amount hbal'
    exact ⟨l', Option.bind_eq_some_iff.mpr ⟨m, hm, hl'⟩⟩
  approve _ _ _ _ _ _ _ := ⟨_, rfl⟩

end BasedAI
