import BasedAI.Market.Solvency

/-!
# BasedAI — every debit is authorised, once

What can take money off a user's account, over whole runs: the user's own
withdrawal, or a redemption, by the miner it names, of a receipt the user signed.
The signed digest binds all ten fields, so there is nothing left for the miner to
vary, and a nonce is used up by the first redemption.

* `receiptPreimage_inj` — the signed bytes determine the receipt, the market and
  the chain;
* `run_redemptions`     — no nonce of a user is redeemed twice;
* `Authorised`          — what authorises a debit;
* `debits_authorised`   — every debit of every run is authorised, and a step that
  does not concern a user leaves the user's account alone.
-/

namespace BasedAI

open Fallible Mapping Transition ComputeUnitMarket

variable {T : Type} {env : MarketEnv T} {s s' : MarketState T}

/-! ## The digest binds the receipt -/

/-- The words a receipt is laid out in. -/
def receiptWords (env : MarketEnv T) (r : Receipt) : List Nat :=
  [env.self.val, env.chainId.val, r.user.val, r.miner.val, r.brainId.val, r.promptHash.val,
    r.responseHash.val, r.amount.val, r.expiry.val, r.nonce.val]

theorem receiptWords_lt (r : Receipt) : ∀ w ∈ receiptWords env r, w < 2 ^ 256 := by
  unfold receiptWords
  simp only [List.forall_mem_cons, List.not_mem_nil, false_imp_iff, implies_true, and_true]
  exact ⟨address_lt_word _, Fin.isLt _, address_lt_word _, address_lt_word _, Fin.isLt _,
    Fin.isLt _, Fin.isLt _, Fin.isLt _, uint64_lt_word _, Fin.isLt _⟩

/-- **What a receipt's signature covers.** Two receipts laid out as the same bytes
are the same receipt, for the same market on the same chain. -/
theorem receiptPreimage_inj {T' : Type} {env' : MarketEnv T'} {r r' : Receipt}
    (h : receiptPreimage env' r' = receiptPreimage env r) :
    env'.self = env.self ∧ env'.chainId = env.chainId ∧ r' = r := by
  have hwords : receiptWords env' r' = receiptWords env r :=
    abiEncode_inj rfl (receiptWords_lt r') (receiptWords_lt r) h
  unfold receiptWords at hwords
  simp only [List.cons.injEq, Fin.val_inj, and_true] at hwords
  obtain ⟨hself, hchain, huser, hminer, hbrain, hprompt, hresponse, hamount, hexpiry,
    hnonce⟩ := hwords
  refine ⟨hself, hchain, ?_⟩
  rcases r with ⟨_, _, _, _, _, _, _, _⟩
  rcases r' with ⟨_, _, _, _, _, _, _, _⟩
  dsimp only at huser hminer hbrain hprompt hresponse hamount hexpiry hnonce
  rw [huser, hminer, hbrain, hprompt, hresponse, hamount, hexpiry, hnonce]

/-! ## One redemption a nonce -/

/-- The step redeems a receipt of `user` with this nonce. -/
def redeems (user : Address) (nonce : Fin (2 ^ 256)) : MarketLabel → Bool
  | .call _ _ (.redeem r _) => decide (r.user = user ∧ r.nonce = nonce)
  | _ => false

/-- What a step does to one account. -/
theorem marketStep_account {l : MarketLabel} (h : MarketStep env s l s') (user : Address) :
    (∃ blk caller c, l = .call blk caller c ∧
      AccountMove env blk caller s.market s'.market user c) ∨
    (l = .elsewhere ∧ s'.market = s.market) := by
  cases h with
  | call blk caller c _ _ hexec =>
    have hmove := exec_account hexec user
    exact .inl ⟨blk, caller, c, rfl, hmove⟩
  | elsewhere => exact .inr ⟨rfl, rfl⟩

/-- A used nonce stays used, and only a redemption of it uses it. -/
theorem marketStep_nonce {l : MarketLabel} (h : MarketStep env s l s') (user : Address)
    (nonce : Fin (2 ^ 256)) :
    s'.market.usedNonces user nonce = (redeems user nonce l || s.market.usedNonces user nonce) ∧
      (redeems user nonce l = true → s.market.usedNonces user nonce = false) := by
  cases h with
  | elsewhere => exact ⟨rfl, fun h => absurd h Bool.false_ne_true⟩
  | call blk caller c _ _ hexec =>
    have hmove := exec_account hexec user
    cases c with
    | redeem r userSig =>
      obtain ⟨hchecks, token, distributor, rfl, -⟩ := redeem_ok hexec
      obtain ⟨-, -, -, -, -, -, -, hunused, -, -, -⟩ := redeemChecks_ok.mp hchecks
      simp only [redeems, debited, set₂_apply, decide_eq_true_eq]
      -- is it the nonce that is asked about?
      by_cases hmine : r.user = user ∧ r.nonce = nonce
      · obtain ⟨rfl, rfl⟩ := hmine
        simp [hunused]
      · have hother : ¬ (user = r.user ∧ nonce = r.nonce) := fun hsame =>
          hmine ⟨hsame.1.symm, hsame.2.symm⟩
        simp [hmine, hother]
    | _ =>
      refine ⟨?_, fun h => absurd h Bool.false_ne_true⟩
      cases hmove <;> simp_all [redeems]

/-- Over a run a nonce is redeemed at most once, and not at all if it was used
before. -/
theorem run_redemptions {ls : List MarketLabel} (h : Run (MarketStep env) s ls s')
    (user : Address) (nonce : Fin (2 ^ 256)) :
    ls.countP (redeems user nonce) ≤ if s.market.usedNonces user nonce then 0 else 1 := by
  induction h with
  | nil s => simp
  | @cons s t u l ls hstep _ ih =>
    obtain ⟨hafter, hfresh⟩ := marketStep_nonce hstep user nonce
    rw [List.countP_cons]
    by_cases hredeems : redeems user nonce l = true
    · -- the nonce was fresh and is used up now
      rw [hafter, hredeems, Bool.true_or] at ih
      rw [hfresh hredeems, if_pos hredeems]
      simp only [if_true] at ih
      simpa using ih
    · rw [Bool.not_eq_true] at hredeems
      rw [hafter, hredeems, Bool.false_or] at ih
      simpa [hredeems] using ih

/-! ## Authorised debits -/

/-- What authorises the step `l` from `p` to `q` to lower the balance of `user`:
it is the user's own withdrawal, or the miner a receipt names redeems it and the
user has signed exactly its bytes; a pre-authorisation draws at most the cap in
force. -/
inductive Authorised (env : MarketEnv T) (signedBy : Address → Set Bytes)
    (p : MarketState T) (l : MarketLabel) (q : MarketState T) (user : Address) : Prop
  | withdraw (blk : Block) : l = .call blk user .withdraw →
      Authorised env signedBy p l q user
  | redeem (blk : Block) (r : Receipt) (userSig : Bytes) :
      l = .call blk r.miner (.redeem r userSig) → r.user = user →
      receiptPreimage env r ∈ signedBy user →
      p.market.balances user = q.market.balances user + r.amount.val →
      (r.responseHash = sentinel env r → r.amount.val ≤ p.market.maxReservation) →
      Authorised env signedBy p l q user

/-- The step redeems a receipt of `user`, whoever sends it, or is another call of `user`. -/
def Concerns (user : Address) : MarketLabel → Prop
  | .call _ _ (.redeem r _) => r.user = user
  | .call _ caller _ => caller = user
  | .elsewhere => False

/-- The receipts presented in a run, with their signatures. -/
def presentedIn (env : MarketEnv T) (ls : List MarketLabel) : Set (Bytes × Bytes) :=
  {p | ∃ blk caller r userSig, .call blk caller (.redeem r userSig) ∈ ls ∧
    p = (receiptPreimage env r, userSig)}

/-- The byte strings whose digests matter in a run: those the users signed, and the
receipts that were presented. -/
def messagesOf (env : MarketEnv T) (signedBy : Address → Set Bytes) (ls : List MarketLabel) :
    Set Bytes :=
  {m | (∃ user, m ∈ signedBy user) ∨ ∃ userSig, (m, userSig) ∈ presentedIn env ls}

theorem receiptDigest_eq (r : Receipt) :
    receiptDigest env r = env.crypto.messageDigest (receiptPreimage env r) := rfl

/-- A redemption of the run is of a receipt its user signed. -/
theorem redeemed_signed {signedBy : Address → Set Bytes} {ls : List MarketLabel}
    (hunforged : env.crypto.Unforged signedBy (presentedIn env ls))
    (hfree : env.crypto.DigestsCollisionFree (messagesOf env signedBy ls))
    {blk : Block} {caller : Address} {r : Receipt} {userSig : Bytes}
    (hmem : .call blk caller (.redeem r userSig) ∈ ls)
    (hrecover : env.crypto.recover (receiptDigest env r) userSig = some r.user) :
    receiptPreimage env r ∈ signedBy r.user := by
  have hpresented : (receiptPreimage env r, userSig) ∈ presentedIn env ls :=
    ⟨blk, caller, r, userSig, hmem, rfl⟩
  have hmessage : receiptPreimage env r ∈ messagesOf env signedBy ls :=
    .inr ⟨userSig, hpresented⟩
  have hsigned : ∀ user, signedBy user ⊆ messagesOf env signedBy ls :=
    fun user m hm => .inl ⟨user, hm⟩
  rw [receiptDigest_eq] at hrecover
  exact hunforged.signed hfree hsigned hpresented hmessage hrecover

/-- A step that lowers a balance is authorised. -/
theorem marketStep_authorised {signedBy : Address → Set Bytes} {ls : List MarketLabel}
    (hunforged : env.crypto.Unforged signedBy (presentedIn env ls))
    (hfree : env.crypto.DigestsCollisionFree (messagesOf env signedBy ls))
    {l : MarketLabel} (h : MarketStep env s l s') (hmem : l ∈ ls) {user : Address}
    (hdebit : s'.market.balances user < s.market.balances user) :
    Authorised env signedBy s l s' user := by
  rcases marketStep_account h user with ⟨blk, caller, c, rfl, hmove⟩ | ⟨-, hsame⟩
  · cases hmove with
    | untouched hbal => omega
    | deposit amount _ hbal => omega
    | request amount _ _ hbal => omega
    | cancel _ hbal => omega
    | withdraw hcaller => exact .withdraw blk (by rw [hcaller])
    | redeem r userSig huser hchecks hbal =>
      -- what the market checked is what authorises the debit
      obtain ⟨-, -, -, -, -, -, hcap, -, hle, hminer, hrecover⟩ := redeemChecks_ok.mp hchecks
      refine .redeem blk r userSig (by rw [hminer]) huser ?_ ?_ hcap
      · rw [← huser]
        exact redeemed_signed hunforged hfree hmem hrecover
      · rw [huser] at hle
        omega
  · rw [hsame] at hdebit
    exact absurd hdebit (Nat.lt_irrefl _)

/-- A step that does not concern a user leaves the user's account alone. -/
theorem marketStep_frame {l : MarketLabel} (h : MarketStep env s l s') {user : Address}
    (hother : ¬ Concerns user l) :
    s'.market.balances user = s.market.balances user ∧
      s'.market.usedNonces user = s.market.usedNonces user ∧
      s'.market.pendingWithdrawals user = s.market.pendingWithdrawals user := by
  rcases marketStep_account h user with ⟨blk, caller, c, rfl, hmove⟩ | ⟨-, hsame⟩
  · cases hmove with
    | untouched hbal hnonces hpending => exact ⟨hbal, hnonces, hpending⟩
    | deposit _ hcaller => exact absurd hcaller hother
    | request _ hcaller => exact absurd hcaller hother
    | cancel hcaller => exact absurd hcaller hother
    | withdraw hcaller => exact absurd hcaller hother
    | redeem _ _ huser => exact absurd huser hother
  · rw [hsame]
    exact ⟨rfl, rfl, rfl⟩

/--
**Debits are authorised, once.** In every run of the market, provided the
signatures presented in it are not forged and the messages of it do not collide,

* every step that lowers a user's balance is the user's own withdrawal or the
  redemption, by the miner it names, of a receipt the user signed;
* the signed bytes fix the market, the chain and every field of the receipt;
* every nonce of every user is redeemed at most once;
* a step that is neither a redemption of a receipt of a user nor another call of
  the user changes nothing of the user's account: a user who redeems the receipts
  of others as a miner keeps the account as it is.
-/
theorem debits_authorised {s₀ : MarketState T} {ls : List MarketLabel}
    {signedBy : Address → Set Bytes} (h : Run (MarketStep env) s₀ ls s)
    (hunforged : env.crypto.Unforged signedBy (presentedIn env ls))
    (hfree : env.crypto.DigestsCollisionFree (messagesOf env signedBy ls)) :
    (∀ p l q user, Along (MarketStep env) s₀ ls s p l q →
      q.market.balances user < p.market.balances user →
      Authorised env signedBy p l q user) ∧
    (∀ (env' : MarketEnv T) r r', receiptPreimage env' r' = receiptPreimage env r →
      env'.self = env.self ∧ env'.chainId = env.chainId ∧ r' = r) ∧
    (∀ user nonce, ls.countP (redeems user nonce) ≤ 1) ∧
    (∀ p l q user, Along (MarketStep env) s₀ ls s p l q → ¬ Concerns user l →
      q.market.balances user = p.market.balances user ∧
      q.market.usedNonces user = p.market.usedNonces user ∧
      q.market.pendingWithdrawals user = p.market.pendingWithdrawals user) := by
  refine ⟨?_, ?_, ?_, ?_⟩
  · intro p l q user halong hdebit
    exact marketStep_authorised hunforged hfree halong.taken halong.mem hdebit
  · intro env' r r' hbytes
    exact receiptPreimage_inj hbytes
  · intro user nonce
    -- none if it was used before the run, and one at most otherwise
    have hcount := run_redemptions h user nonce
    split at hcount
    · exact hcount.trans (Nat.zero_le 1)
    · exact hcount
  · intro p l q user halong hother
    exact marketStep_frame halong.taken hother

/-- Account 2 has signed the toy receipt and nothing else. -/
def toySigned (user : Address) : Set Bytes :=
  {m | user = 2 ∧ m = receiptPreimage toyMarket toyReceipt}

/-- The deposit and the redemption of the toy receipt. -/
def toyLabels : List MarketLabel :=
  [.call (toyBlockAt 100) 2 (.deposit 1000),
    .call (toyBlockAt 150) 7 (.redeem toyReceipt [2, 3])]

theorem mem_presentedIn_toyLabels {m userSig : Bytes}
    (h : (m, userSig) ∈ presentedIn toyMarket toyLabels) :
    m = receiptPreimage toyMarket toyReceipt ∧ userSig = [2, 3] := by
  obtain ⟨blk, caller, r, sig, hmem, heq⟩ := h
  simp only [toyLabels, List.mem_cons, MarketLabel.call.injEq, MarketCall.redeem.injEq,
    reduceCtorEq, and_false, false_or, List.not_mem_nil, or_false] at hmem
  obtain ⟨-, -, rfl, rfl⟩ := hmem
  rw [Prod.mk.injEq] at heq
  exact heq

theorem toySigned_unforged :
    toyMarket.crypto.Unforged toySigned (presentedIn toyMarket toyLabels) := by
  intro m userSig user hpresented hrecover
  obtain ⟨rfl, rfl⟩ := mem_presentedIn_toyLabels hpresented
  rw [← receiptDigest_eq, toyMarket_receiptDigest] at hrecover
  have huser : (2 : Address) = user := Option.some.inj hrecover
  exact ⟨_, ⟨huser.symm, rfl⟩, rfl⟩

theorem toySigned_collisionFree :
    toyMarket.crypto.DigestsCollisionFree (messagesOf toyMarket toySigned toyLabels) := by
  have hall : ∀ m ∈ messagesOf toyMarket toySigned toyLabels,
      m = receiptPreimage toyMarket toyReceipt := by
    rintro m (⟨user, -, hm⟩ | ⟨userSig, hpresented⟩)
    · exact hm
    · exact (mem_presentedIn_toyLabels hpresented).1
  refine Crypto.digestsCollisionFree_of_subsingleton fun m hm m' hm' => ?_
  rw [hall m hm, hall m' hm']

set_option maxRecDepth 4000 in
/-- The redemption of the toy receipt is authorised by account 2's signature. -/
theorem debits_authorised_redeem :
    ∃ p q : MarketState Ledger, p.market.balances 2 = 1000 ∧ q.market.balances 2 = 960 ∧
      Authorised toyMarket toySigned p
        (.call ⟨150, by decide⟩ 7 (.redeem toyReceipt [2, 3])) q 2 := by
  have hrun : ∃ p q, p.market.balances 2 = 1000 ∧ q.market.balances 2 = 960 ∧
      Run (MarketStep toyMarket) toyMarketStart
        [.call ⟨100, by decide⟩ 2 (.deposit 1000)] p ∧
      MarketStep toyMarket p (.call ⟨150, by decide⟩ 7 (.redeem toyReceipt [2, 3])) q := by
    refine ⟨_, _, ?_, ?_,
      .cons (.call ⟨100, by decide⟩ 2 (.deposit 1000) (by decide) (by decide) rfl) (.nil _),
      .call ⟨150, by decide⟩ 7 (.redeem toyReceipt [2, 3]) (by decide) (by decide)
        ((redeem_eq_settle
          (toyReceipt_checks rfl rfl (by decide) (by decide) (by decide))).trans rfl)⟩
    · rfl
    · rfl
  obtain ⟨p, q, hp, hq, hdeposit, hredeem⟩ := hrun
  -- the deposit, then the redemption
  have hwhole : Run (MarketStep toyMarket) toyMarketStart toyLabels q :=
    hdeposit.append (.single hredeem)
  have hdebits := debits_authorised hwhole toySigned_unforged toySigned_collisionFree
  refine ⟨p, q, hp, hq, hdebits.1 p _ q 2 ⟨_, [], rfl, hdeposit, hredeem, .nil q⟩ ?_⟩
  omega

end BasedAI
