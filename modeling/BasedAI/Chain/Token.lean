import BasedAI.Chain.Primitives
import BasedAI.Lib.Mapping

/-!
# BasedAI — the BASED token

The token is deployed elsewhere, so it is a parameter: a state with balances,
and operations that either move exactly the stated amount or revert. Nothing
else is assumed, in particular not that a funded transfer succeeds; the results
that need it take it as the separate property `Token.Live`.

`ledgerToken` is a plain ERC-20 ledger that meets the interface.
-/

namespace BasedAI

/-- Balances after moving `amount` from `src` to `dst`. -/
def moved (bal : Address → Nat) (src dst : Address) (amount : Nat) : Address → Nat :=
  fun a =>
    -- a transfer to oneself changes nothing
    if src = dst then bal a
    else if a = src then bal a - amount
    else if a = dst then bal a + amount
    else bal a

/-- An ERC-20 token that moves exactly the stated amount or reverts (`none`). -/
structure Token (T : Type) where
  balanceOf : T → Address → Nat
  /-- `transfer t caller recipient amount` -/
  transfer : T → Address → Address → Nat → Option T
  /-- `transferFrom t spender owner recipient amount` -/
  transferFrom : T → Address → Address → Address → Nat → Option T
  transfer_exact : ∀ {t caller recipient amount t'},
    transfer t caller recipient amount = some t' →
      amount ≤ balanceOf t caller ∧
        balanceOf t' = moved (balanceOf t) caller recipient amount
  transferFrom_exact : ∀ {t spender owner recipient amount t'},
    transferFrom t spender owner recipient amount = some t' →
      amount ≤ balanceOf t owner ∧
        balanceOf t' = moved (balanceOf t) owner recipient amount

/-- The token never refuses a transfer its sender can pay for. -/
def Token.Live {T : Type} (tok : Token T) : Prop :=
  ∀ t caller recipient amount, amount ≤ tok.balanceOf t caller →
    ∃ t', tok.transfer t caller recipient amount = some t'

/-- The same, the zero address aside: an OpenZeppelin ERC-20 neither moves tokens from it
nor to it. -/
def Token.Payable {T : Type} (tok : Token T) : Prop :=
  ∀ t caller recipient amount, caller ≠ 0 → recipient ≠ 0 → amount ≤ tok.balanceOf t caller →
    ∃ t', tok.transfer t caller recipient amount = some t'

/-! ## Balances after a move -/

theorem moved_src {bal : Address → Nat} {src dst : Address} {amount : Nat}
    (h : src ≠ dst) : moved bal src dst amount src = bal src - amount := by
  simp [moved, h]

theorem moved_dst {bal : Address → Nat} {src dst : Address} {amount : Nat}
    (h : src ≠ dst) : moved bal src dst amount dst = bal dst + amount := by
  simp [moved, h, h.symm]

/-- An account loses at most the amount moved. -/
theorem le_moved_add (bal : Address → Nat) (src dst a : Address) (amount : Nat) :
    bal a ≤ moved bal src dst amount a + amount := by
  unfold moved
  split_ifs <;> omega

/-- Only the one a move takes from loses, and only the one it goes to gains. -/
theorem moved_other (bal : Address → Nat) {src dst a : Address} (amount : Nat) (h : a ≠ src) :
    moved bal src dst amount a = bal a + if a = dst then amount else 0 := by
  unfold moved
  by_cases hself : src = dst
  · subst hself
    rw [if_pos rfl, if_neg h, Nat.add_zero]
  · rw [if_neg hself, if_neg h]
    split <;> rfl

theorem le_moved (bal : Address → Nat) {src dst a : Address} (amount : Nat) (h : a ≠ src) :
    bal a ≤ moved bal src dst amount a := by
  rw [moved_other bal amount h]
  exact Nat.le_add_right _ _

/-- Moving nothing changes nothing. -/
theorem moved_zero (bal : Address → Nat) (src dst : Address) : moved bal src dst 0 = bal := by
  funext a
  unfold moved
  split_ifs <;> rfl

/-! ## Safe transfers -/

section SafeERC20

variable {T : Type} (tok : Token T)

/-- `SafeERC20.safeTransfer`: bubble the token's refusal up as a revert. -/
def safeTransfer (t : T) (caller recipient : Address) (amount : Nat) : Exec T :=
  Fallible.orRevert .safeERC20FailedOperation (tok.transfer t caller recipient amount)

/-- `SafeERC20.safeTransferFrom`, called by `spender`. -/
def safeTransferFrom (t : T) (spender owner recipient : Address) (amount : Nat) : Exec T :=
  Fallible.orRevert .safeERC20FailedOperation
    (tok.transferFrom t spender owner recipient amount)

variable {tok}

theorem safeTransfer_ok {t t' : T} {caller recipient : Address} {amount : Nat}
    (h : safeTransfer tok t caller recipient amount = .ok t') :
    amount ≤ tok.balanceOf t caller ∧
      tok.balanceOf t' = moved (tok.balanceOf t) caller recipient amount :=
  tok.transfer_exact (Fallible.orRevert_ok.mp h)

theorem safeTransferFrom_ok {t t' : T} {spender owner recipient : Address} {amount : Nat}
    (h : safeTransferFrom tok t spender owner recipient amount = .ok t') :
    amount ≤ tok.balanceOf t owner ∧
      tok.balanceOf t' = moved (tok.balanceOf t) owner recipient amount :=
  tok.transferFrom_exact (Fallible.orRevert_ok.mp h)

theorem Token.Live.safeTransfer (hlive : tok.Live) {t : T} {caller recipient : Address}
    {amount : Nat} (h : amount ≤ tok.balanceOf t caller) :
    ∃ t', BasedAI.safeTransfer tok t caller recipient amount = .ok t' := by
  obtain ⟨t', ht'⟩ := hlive t caller recipient amount h
  exact ⟨t', Fallible.orRevert_ok.mpr ht'⟩

theorem Token.Payable.safeTransfer (hpay : tok.Payable) {t : T} {caller recipient : Address}
    {amount : Nat} (hcaller : caller ≠ 0) (hrecipient : recipient ≠ 0)
    (h : amount ≤ tok.balanceOf t caller) :
    ∃ t', BasedAI.safeTransfer tok t caller recipient amount = .ok t' := by
  obtain ⟨t', ht'⟩ := hpay t caller recipient amount hcaller hrecipient h
  exact ⟨t', Fallible.orRevert_ok.mpr ht'⟩

end SafeERC20

/-! ## A plain ledger -/

/-- The storage of a plain ERC-20: balances and allowances. -/
structure Ledger where
  balances : Address → Nat
  allowances : Address → Address → Nat

/-- Move a balance, refusing what the owner does not hold. -/
def Ledger.move (l : Ledger) (src dst : Address) (amount : Nat) : Option Ledger :=
  if amount ≤ l.balances src then
    some { l with balances := moved l.balances src dst amount }
  else none

/-- Spend an allowance; the maximal allowance is never used up. -/
def Ledger.spend (l : Ledger) (owner spender : Address) (amount : Nat) : Option Ledger :=
  -- OpenZeppelin's ERC-20 treats the maximal allowance as unlimited
  if l.allowances owner spender = 2 ^ 256 - 1 then some l
  else if amount ≤ l.allowances owner spender then
    let left := l.allowances owner spender - amount
    some { l with allowances := Mapping.set₂ l.allowances owner spender left }
  else none

theorem Ledger.move_exact {l l' : Ledger} {src dst : Address} {amount : Nat}
    (h : l.move src dst amount = some l') :
    amount ≤ l.balances src ∧ l'.balances = moved l.balances src dst amount := by
  unfold Ledger.move at h
  split at h
  case isTrue hle => cases h; exact ⟨hle, rfl⟩
  case isFalse => cases h

theorem Ledger.spend_balances {l l' : Ledger} {owner spender : Address} {amount : Nat}
    (h : l.spend owner spender amount = some l') : l'.balances = l.balances := by
  unfold Ledger.spend at h
  split_ifs at h <;> cases h <;> rfl

/-- The plain ERC-20 ledger as a token. -/
def ledgerToken : Token Ledger where
  balanceOf := Ledger.balances
  transfer := Ledger.move
  transferFrom l spender owner recipient amount :=
    (l.spend owner spender amount).bind fun l' => l'.move owner recipient amount
  transfer_exact := Ledger.move_exact
  transferFrom_exact := by
    intro l spender owner recipient amount l' h
    obtain ⟨m, hspend, hmove⟩ := Option.bind_eq_some_iff.mp h
    -- spending the allowance leaves the balances alone, so the move is exact
    have hbal := Ledger.spend_balances hspend
    have hexact := Ledger.move_exact hmove
    rwa [hbal] at hexact

theorem toyBlockAt_lt (moment : Nat) : moment % 2 ^ 64 < 2 ^ 64 :=
  Nat.mod_lt moment (by decide)

/-- The block of a moment on 64 bits. -/
def toyBlockAt (moment : Nat) : Block := ⟨moment % 2 ^ 64, toyBlockAt_lt moment⟩

/-- Every account holds 5000 tokens and has approved everyone. -/
def toyLedger : Ledger where
  balances _ := 5000
  allowances _ _ := 2 ^ 256 - 1

/-- The ledger refuses nothing it can pay, so `Token.Live` can be met. -/
theorem ledgerToken_live : ledgerToken.Live := by
  intro l caller recipient amount h
  exact ⟨_, if_pos h⟩

theorem ledgerToken_payable : ledgerToken.Payable :=
  fun t caller recipient amount _ _ h => ledgerToken_live t caller recipient amount h

end BasedAI
