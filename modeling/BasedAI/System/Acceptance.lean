import BasedAI.Staking.Withdrawal
import BasedAI.System.FeeConservation

/-!
# BasedAI — which distributions are accepted

Completeness of a list is checked by its length only, against a count kept in another
contract, and everything a distribution does besides can revert. This module shows that
the check is enough and that nothing else reverts: a distribution goes through exactly
for the ascending list of all validators, when there is something to distribute and
somebody has stake.

* `Roster.Counted.mem_of_length` — a list as long as the count leaves nobody out;
* `CanPush`, `pushShares_succeeds` — what the payout loop needs, and keeps;
* `distribute_accepts` — the characterisation, for every reachable state.
-/

namespace BasedAI

open Fallible Mapping ShareMath Transition RewardDistributor

/-! ## Complete lists -/

namespace Roster

variable {r : Roster} {b : BrainId} {members : List Address}

/-- **Pigeonhole.** Distinct members, as many as the count says, are all of them. -/
theorem Counted.mem_of_length (hr : r.Counted) (hdistinct : members.Nodup)
    (hactive : ∀ a ∈ members, (r.info b a).active = true)
    (hlength : members.length = r.count b) {a : Address} (ha : (r.info b a).active = true) :
    a ∈ members := by
  have hsub : members.toFinset ⊆ Finset.univ.filter fun a => (r.info b a).active = true := by
    intro x hx
    exact Finset.mem_filter.mpr ⟨Finset.mem_univ x, hactive x (List.mem_toFinset.mp hx)⟩
  have hcard : (Finset.univ.filter fun a => (r.info b a).active = true).card ≤
      members.toFinset.card := by
    rw [List.toFinset_card_of_nodup hdistinct, hlength, hr.card]
  have heq := Finset.eq_of_subset_of_card_le hsub hcard
  have hmem : a ∈ members.toFinset := by
    rw [heq]
    exact Finset.mem_filter.mpr ⟨Finset.mem_univ a, ha⟩
  exact List.mem_toFinset.mp hmem

/-- The list of all members is as long as the count says. -/
theorem Counted.length_eq (hr : r.Counted) (hdistinct : members.Nodup)
    (hexact : ∀ a, a ∈ members ↔ (r.info b a).active = true) :
    members.length = r.count b := by
  have heq : members.toFinset = Finset.univ.filter fun a => (r.info b a).active = true := by
    ext a
    simp [hexact a]
  rw [hr.card, ← heq, List.toFinset_card_of_nodup hdistinct]

end Roster

/-! ## The payout loop -/

section Push

variable {T : Type} {env : SystemEnv T} {blk : Block} {b : BrainId} {share : Address → Nat}
  {v : Address} {validators : List Address} {p q : VaultState T}

/-- What the loop needs of the state it starts in to pay every listed validator its
share. -/
structure CanPush (env : SystemEnv T) (blk : Block) (b : BrainId) (share : Address → Nat)
    (validators : List Address) (p : VaultState T) : Prop where
  inv : VaultInv p.vault
  time : InTime (StakingVault.clock blk) p.vault
  role : p.vault.roles.hasRole .rewarder env.distributor = true
  account : ∀ v ∈ validators, v ≠ 0
  pool : ∀ v ∈ validators, share v ≠ 0 → p.vault.vShares b v ≠ 0
  held : (validators.map share).sum ≤ env.balanceOf p.token env.distributor
  allowed : (validators.map share).sum ≤ env.token.allowance p.token env.distributor env.vault
  fits : p.vault.totalAssets + (validators.map share).sum < 2 ^ 256

/-- A reward the distributor holds and has approved goes through. -/
theorem notifyReward_succeeds (htok : env.token.Responsive)
    (hc : CanPush env blk b share (v :: validators) p) (hshare : share v ≠ 0) :
    ∃ q, StakingVault.notifyReward env.vaultEnv blk env.distributor b v (share v) p = .ok q := by
  have hheld := hc.held
  have hallowed := hc.allowed
  have hfits := hc.fits
  rw [List.map_cons, List.sum_cons] at hheld hallowed hfits
  -- no pool and no Brain holds more than the vault
  have hA := hc.inv.vAssets_le_total b v
  have hB := hc.inv.brain_le_total b
  have hfitsA : p.vault.vAssets b v + share v < 2 ^ 256 := by omega
  have hfitsB : p.vault.brainAssets b + share v < 2 ^ 256 := by omega
  have hfitsT : p.vault.totalAssets + share v < 2 ^ 256 := by omega
  have hv := hc.account v (List.mem_cons_self ..)
  have hS := hc.pool v (List.mem_cons_self ..) hshare
  obtain ⟨token, htoken⟩ := @Erc20.Responsive.safeTransferFrom _ _ p.token env.vault (share v)
    htok env.distributor env.vault env.vault_ne_zero env.distributor_ne_zero env.vault_ne_zero
    (by exact (Nat.le_add_right _ _).trans hheld) ((Nat.le_add_right _ _).trans hallowed)
  -- the checkpoint comes after the writes, which leave the histories alone
  obtain ⟨vault, hvault⟩ := @checkpoint_present blk { p.vault with
    vAssets := set₂ p.vault.vAssets b v (p.vault.vAssets b v + share v)
    brainAssets := set p.vault.brainAssets b (p.vault.brainAssets b + share v)
    totalAssets := p.vault.totalAssets + share v } b ⟨hc.time.total, hc.time.brain⟩
  refine ⟨⟨token, vault⟩, ?_⟩
  simp only [StakingVault.notifyReward, bind_ok, AccessControl.onlyRole_ok, revertIf_ok,
    add256_ok, return_ok, exists_const]
  exact ⟨hc.role, hshare, hv, hS, token, htoken, _, ⟨hfitsA, rfl⟩, _, ⟨hfitsB, rfl⟩, _,
    ⟨hfitsT, rfl⟩, vault, hvault, rfl⟩

/-- A validator without a share is skipped. -/
theorem CanPush.tail (hc : CanPush env blk b share (v :: validators) p)
    (hshare : share v = 0) : CanPush env blk b share validators p where
  inv := hc.inv
  time := hc.time
  role := hc.role
  account u hu := hc.account u (List.mem_cons_of_mem v hu)
  pool u hu := hc.pool u (List.mem_cons_of_mem v hu)
  held := by
    have hheld := hc.held
    rw [List.map_cons, List.sum_cons, hshare, Nat.zero_add] at hheld
    exact hheld
  allowed := by
    have hallowed := hc.allowed
    rw [List.map_cons, List.sum_cons, hshare, Nat.zero_add] at hallowed
    exact hallowed
  fits := by
    have hfits := hc.fits
    rw [List.map_cons, List.sum_cons, hshare, Nat.zero_add] at hfits
    exact hfits

theorem notifyReward_inTime
    (h : StakingVault.notifyReward env.vaultEnv blk env.distributor b v (share v) p = .ok q)
    (hi : InTime (StakingVault.clock blk) p.vault) :
    InTime (StakingVault.clock blk) q.vault := by
  have hexec : VaultCall.exec env.vaultEnv blk env.distributor p
      (.notifyReward b v (share v)) = .ok q := h
  exact recorded_inTime (exec_recorded hexec) le_rfl hi

/-- Paying one validator leaves enough for the rest. -/
theorem CanPush.step (hc : CanPush env blk b share (v :: validators) p)
    (h : StakingVault.notifyReward env.vaultEnv blk env.distributor b v (share v) p = .ok q) :
    CanPush env blk b share validators q := by
  have hinv := notifyReward_inv h hc.inv
  have htime := notifyReward_inTime h hc.time
  have hheld := hc.held
  have hallowed := hc.allowed
  have hfits := hc.fits
  rw [List.map_cons, List.sum_cons] at hheld hallowed hfits
  obtain ⟨token, total, brain, -, -, -, -, htoken, rfl⟩ := StakingVault.notifyReward_ok h
  -- the share is gone from the balance and at most the share from the allowance
  have hspent := env.token.transferFrom_allowance (orRevert_ok.mp htoken)
  obtain ⟨-, hbal⟩ := safeTransferFrom_ok htoken
  have hbalance : env.balanceOf token env.distributor =
      env.balanceOf p.token env.distributor - share v := by
    unfold SystemEnv.balanceOf
    show env.vaultEnv.token.balanceOf token env.distributor = _
    rw [hbal]
    exact moved_src env.distributor_ne_vault
  refine ⟨hinv, htime, hc.role, fun u hu => hc.account u (List.mem_cons_of_mem v hu),
    fun u hu => hc.pool u (List.mem_cons_of_mem v hu), ?_, ?_, ?_⟩
  · show _ ≤ env.balanceOf token env.distributor
    omega
  · have hspent' : env.token.allowance p.token env.distributor env.vault ≤
        env.token.allowance token env.distributor env.vault + share v := hspent
    dsimp only
    omega
  · dsimp only
    omega

theorem pushShares_succeeds {stake : Address → Nat} {amount total d : Nat}
    (htok : env.token.Responsive)
    (hc : CanPush env blk b (fun v => part amount total (stake v)) validators p)
    (hd : d + (validators.map fun v => part amount total (stake v)).sum < 2 ^ 256)
    (hmul : ∀ v ∈ validators, amount * stake v < 2 ^ 256) :
    ∃ res, pushShares env blk b amount total (validators.map fun v => (v, stake v)) p d =
      .ok res := by
  induction validators generalizing p d with
  | nil => exact ⟨_, rfl⟩
  | cons v validators ih =>
    rw [List.map_cons, List.sum_cons] at hd
    have hmul' : ∀ u ∈ validators, amount * stake u < 2 ^ 256 :=
      fun u hu => hmul u (List.mem_cons_of_mem v hu)
    rw [List.map_cons, pushShares]
    by_cases hstake : stake v = 0
    · have hzero : part amount total (stake v) = 0 := by rw [hstake, part_zero]
      rw [if_pos hstake]
      exact ih (hc.tail hzero) (by omega) hmul'
    · rw [if_neg hstake, mul256, checkedMul_eq (hmul v (List.mem_cons_self ..)), ok_bind]
      dsimp only
      by_cases hzero : part amount total (stake v) = 0
      · have hzero' : amount * stake v / total = 0 := hzero
        rw [if_pos hzero']
        exact ih (hc.tail hzero) (by omega) hmul'
      · -- the reward is paid, and the rest of the loop runs after it
        obtain ⟨q, hq⟩ := notifyReward_succeeds htok hc hzero
        have hzero' : ¬ amount * stake v / total = 0 := hzero
        have hpart : part amount total (stake v) = amount * stake v / total := rfl
        rw [hpart] at hd hq
        rw [if_neg hzero', add256, checkedAdd_eq (by omega), ok_bind, hq, ok_bind]
        exact ih (hc.step hq) (by omega) hmul'

theorem pushShares_inTime {amount total d : Nat} {stakes : List (Address × Nat)}
    {res : VaultState T × Nat}
    (h : pushShares env blk b amount total stakes p d = .ok res)
    (hi : InTime (StakingVault.clock blk) p.vault) :
    InTime (StakingVault.clock blk) res.1.vault := by
  induction stakes generalizing p d with
  | nil =>
    obtain rfl := return_ok.mp h
    exact hi
  | cons entry stakes ih =>
    obtain ⟨v, stake⟩ := entry
    rw [pushShares] at h
    split at h
    -- a validator without stake is skipped
    case isTrue => exact ih h hi
    case isFalse =>
      simp only [bind_ok] at h
      obtain ⟨product, -, h⟩ := h
      split at h
      -- and so is one whose part rounds down to nothing
      case isTrue => exact ih h hi
      case isFalse =>
        simp only [bind_ok] at h
        obtain ⟨_, -, q, hreward, h⟩ := h
        exact ih h (@notifyReward_inTime _ env blk b (fun _ => product / total) v p q hreward hi)

end Push

/-! ## The call -/

section Distribute

variable {T : Type} {env : SystemEnv T} {blk : Block} {b : BrainId}
  {validators : List Address} {s s' : SystemState T}

/-- What a distribution asks for. -/
structure Acceptable (s : SystemState T) (b : BrainId) (validators : List Address) : Prop where
  pending : 0 < s.pendingValidatorFees b
  ascending : validators.Pairwise (· < ·)
  exact : ∀ v, v ∈ validators ↔ s.members.isValidator b v = true
  stake : 0 < (validators.map (s.vault.validatorStake b)).sum

theorem acceptable_of_distribute (hi : SystemInv env s)
    (h : distribute env blk b validators s = .ok s') : Acceptable s b validators := by
  obtain ⟨hpending, hlength, hchain, hall, hstake, -⟩ := distribute_ok h
  have hascending : validators.Pairwise (· < ·) :=
    (List.isChain_iff_pairwise.mp hchain).of_cons
  have hdistinct : validators.Nodup := hascending.imp fun hlt => ne_of_lt hlt
  -- the count leaves no room for anybody who is not listed
  have hexact : ∀ v, v ∈ validators ↔ s.members.isValidator b v = true :=
    fun v => ⟨hall v, hi.validators.mem_of_length hdistinct hall hlength⟩
  exact ⟨hpending, hascending, hexact, hstake⟩

/-- The stakes of distinct validators add up to no more than the vault holds. -/
theorem listStake_le_total (hv : VaultInv s.vault) (hdistinct : validators.Nodup) :
    (validators.map (s.vault.validatorStake b)).sum ≤ s.vault.totalAssets := by
  have hlist : (validators.map (s.vault.vAssets b)).sum ≤ ∑ w, s.vault.vAssets b w := by
    rw [← List.sum_toFinset _ hdistinct]
    exact Finset.sum_le_sum_of_subset (Finset.subset_univ _)
  rw [← hv.brain_sum b] at hlist
  exact hlist.trans (hv.brain_le_total b)

/-- What is pending for a Brain, and what is staked, are parts of the supply. -/
theorem SystemInv.pending_le_supply (hi : SystemInv env s) (b : BrainId) :
    s.pendingValidatorFees b ≤ ∑ a, env.balanceOf s.token a :=
  ((le_sum s.distributor.pendingValidatorFees b).trans hi.fees).trans
    (le_sum (env.balanceOf s.token) env.distributor)

theorem SystemInv.staked_le_supply (hi : SystemInv env s) :
    s.vault.totalAssets ≤ ∑ a, env.balanceOf s.token a :=
  hi.staked.trans (le_sum (env.balanceOf s.token) env.vault)

/-- The zero address is no validator. -/
theorem Acceptable.account (h : Acceptable s b validators) (hi : SystemInv env s) :
    ∀ v ∈ validators, v ≠ 0 := by
  rintro v hv rfl
  have hactive := (h.exact 0).mp hv
  have hnobody : s.members.isValidator b 0 = false := hi.validators.nobody b
  rw [hnobody] at hactive
  cases hactive

/-- Once the vault is approved for what is pending, the payout can begin. -/
theorem Acceptable.canPush {token : T} (h : Acceptable s b validators) (hi : SystemInv env s)
    (htime : InTime (StakingVault.clock blk) s.vault)
    (hsupply : ∑ a, env.balanceOf s.token a < 2 ^ 128)
    (hbal : env.token.balanceOf token = env.token.balanceOf s.token)
    (hallowance : env.token.allowance token env.distributor env.vault =
      s.pendingValidatorFees b) :
    CanPush env blk b (s.share b validators) validators ⟨token, s.vault⟩ := by
  have hshares : (validators.map (s.share b validators)).sum ≤ s.pendingValidatorFees b :=
    sum_shares_le h.stake
  have hpending := hi.pending_le_supply b
  have hstaked := hi.staked_le_supply
  refine ⟨hi.vault, htime, hi.wired.rewarder, h.account hi, ?_, ?_, ?_, ?_⟩
  · -- a validator with a share has stake, and a pool with assets has shares
    intro v _ hshare hS
    apply hshare
    have hstake : s.stakeOf b v = 0 := hi.vault.no_shares b v hS
    unfold SystemState.share
    rw [hstake, part_zero]
  · have hheld : s.pendingValidatorFees b ≤ env.balanceOf s.token env.distributor :=
      (le_sum s.distributor.pendingValidatorFees b).trans hi.fees
    unfold SystemEnv.balanceOf at hheld ⊢
    rw [hbal]
    exact hshares.trans hheld
  · rw [hallowance]
    exact hshares
  · dsimp only
    omega

theorem distribute_of_acceptable (htok : env.token.Responsive) (hi : SystemInv env s)
    (htime : InTime (StakingVault.clock blk) s.vault)
    (hsupply : ∑ a, env.balanceOf s.token a < 2 ^ 128) (h : Acceptable s b validators) :
    ∃ s', distribute env blk b validators s = .ok s' := by
  have hdistinct : validators.Nodup := h.ascending.imp fun hlt => ne_of_lt hlt
  have hchain : List.IsChain (· < ·) (0 :: validators) := by
    rw [List.isChain_iff_pairwise, List.pairwise_cons]
    exact ⟨fun v hv => Fin.pos_of_ne_zero (h.account hi v hv), h.ascending⟩
  have hlength : validators.length = s.members.validatorCount b :=
    hi.validators.length_eq hdistinct h.exact
  have hnonempty : validators.length ≠ 0 := by
    intro hnil
    have hstake := h.stake
    rw [List.length_eq_zero_iff.mp hnil] at hstake
    cases hstake
  -- what is pending and what is staked are parts of the supply
  have hpending := hi.pending_le_supply b
  have hstaked := hi.staked_le_supply
  have htotal := @listStake_le_total _ b _ s hi.vault hdistinct
  have hshares : (validators.map (s.share b validators)).sum ≤ s.pendingValidatorFees b :=
    sum_shares_le h.stake
  have hmul : ∀ v ∈ validators, s.pendingValidatorFees b * s.stakeOf b v < 2 ^ 256 := by
    intro v _
    have hstake : s.stakeOf b v ≤ s.vault.totalAssets := hi.vault.vAssets_le_total b v
    calc s.pendingValidatorFees b * s.stakeOf b v
        < 2 ^ 128 * 2 ^ 128 := Nat.mul_lt_mul'' (by omega) (by omega)
      _ = 2 ^ 256 := by norm_num
  have hcollect := @collectStakes_succeeds s.members s.vault b validators 0 0 hchain
    (fun v hv => (h.exact v).mp hv) (by omega)
  rw [Nat.zero_add] at hcollect
  obtain ⟨token, happrove⟩ := @Erc20.Responsive.forceApprove _ _ _ _
    (s.pendingValidatorFees b) htok env.distributor_ne_zero env.vault_ne_zero (by omega) s.token
  obtain ⟨hbal, hallowance⟩ := forceApprove_ok happrove
  have hc := h.canPush hi htime hsupply hbal hallowance
  have hroom : 0 + (validators.map (s.share b validators)).sum < 2 ^ 256 := by omega
  obtain ⟨⟨staking, paid⟩, hpush⟩ := @pushShares_succeeds _ _ _ _ _ _ _ _ _ 0 htok hc
    hroom hmul
  obtain ⟨-, hpaid⟩ := pushShares_ok hdistinct hpush
  have hpaid' : paid ≤ s.pendingValidatorFees b := by
    dsimp only at hpaid
    rw [hpaid, Nat.zero_add]
    exact hshares
  obtain ⟨token', hreset⟩ := @Erc20.Responsive.forceApprove _ _ _ _ 0 htok
    env.distributor_ne_zero env.vault_ne_zero (by norm_num) staking.token
  have hcount : ¬ (s.members.validatorCount b = 0 ∨
      validators.length ≠ s.members.validatorCount b) := by omega
  rw [List.map_prod_left_eq_zip] at hpush
  simp only [distribute, bind_ok, revertIf_ok, sub256_ok, return_ok, exists_const]
  exact ⟨_, Nat.ne_of_gt h.pending, hcount, _, hcollect, Nat.ne_of_gt h.stake, token, happrove,
    ⟨staking, paid⟩, hpush, token', hreset, _, ⟨hpaid', rfl⟩, rfl⟩

theorem distribute_inTime (h : distribute env blk b validators s = .ok s')
    (hi : InTime (StakingVault.clock blk) s.vault) :
    InTime (StakingVault.clock blk) s'.vault := by
  simp only [distribute, bind_ok, return_ok] at h
  obtain ⟨_, -, _, -, _, -, _, -, token, -, ⟨staking, paid⟩, hpush, _, -, _, -, rfl⟩ := h
  have hpushed : InTime (StakingVault.clock blk) staking.vault := pushShares_inTime hpush hi
  exact hpushed

end Distribute

/-! ## The clock -/

/-- A call in a block whose timestamp fits the 48 bits of the vault's clock. -/
def SystemLabel.OnClock : SystemLabel → Prop
  | .call blk _ _ => blk.timestamp < 2 ^ 48
  | .elsewhere => True

/-- Steps of the system before its clock wraps around. -/
def ClockedStep {T : Type} (env : SystemEnv T) : SystemState T → SystemLabel → SystemState T →
    Prop :=
  restrict (SystemStep env) fun _ l => l.OnClock

theorem clock_eq {blk : Block} (h : blk.timestamp < 2 ^ 48) :
    StakingVault.clock blk = blk.timestamp :=
  Nat.mod_eq_of_lt h

section Clock

variable {T : Type} {env : SystemEnv T} {blk : Block} {caller : Address}
  {s s' : SystemState T} {l : SystemLabel} {ls : List SystemLabel}

theorem exec_inTime {c : SystemCall} (h : c.exec env blk caller s = .ok s')
    (hi : InTime (StakingVault.clock blk) s.vault) :
    InTime (StakingVault.clock blk) s'.vault := by
  cases c with
  | market c =>
    obtain ⟨m, -, rfl⟩ := map_ok.mp h
    exact hi
  | registry c =>
    obtain ⟨r, -, rfl⟩ := map_ok.mp h
    exact hi
  | vault c =>
    obtain ⟨v, hv, rfl⟩ := map_ok.mp h
    -- checkpoints are written at the block's time, never before
    exact recorded_inTime (exec_recorded hv) le_rfl hi
  | distributor c =>
    cases c with
    | recordFees b amount =>
      simp only [SystemCall.exec, DistributorCall.exec, bind_ok, return_ok] at h
      obtain ⟨d, -, rfl⟩ := h
      exact hi
    | distribute b validators => exact distribute_inTime h hi
    | _ =>
      obtain ⟨roles, rfl⟩ := rewardRoles_ok h rfl
      exact hi

theorem InTime.later {now later : Nat} {v : StakingVault} (hi : InTime now v)
    (h : now ≤ later) : InTime later v :=
  ⟨hi.total.later h, fun b => (hi.brain b).later h⟩

theorem clockedStep_inTime (h : ClockedStep env s l s') (hi : InTime s.now s.vault) :
    InTime s'.now s'.vault := by
  obtain ⟨hstep, hclock⟩ := h
  cases hstep with
  | call blk caller c hnow _ hexec _ =>
    have hat := clock_eq hclock
    have hlater : InTime (StakingVault.clock blk) s.vault := hi.later (hat ▸ hnow)
    have hafter := exec_inTime hexec hlater
    rw [hat] at hafter
    exact hafter
  | elsewhere => exact hi

theorem clockedRun_inTime (h : Run (ClockedStep env) s ls s') (hi : InTime s.now s.vault) :
    InTime s'.now s'.vault :=
  h.invariant (I := fun s => InTime s.now s.vault) clockedStep_inTime hi

end Clock

/-! ## The characterisation -/

/--
**Distributions are accepted exactly.** Take a state the system reaches before its clock
wraps around, with a supply below `2 ^ 128` of a token that refuses nothing that is paid
for. Whoever calls it, a distribution goes through if and only if something is pending,
the list is the ascending list of all validators of the Brain, and their stakes do not
add up to nothing.
-/
theorem distribute_accepts {T : Type} {env : SystemEnv T} {cfg : DeployConfig} {blk₀ : Block}
    {token : T} {brainOwners : BrainOwners} {s₀ s : SystemState T} {ls : List SystemLabel}
    (htok : env.token.Responsive)
    (hdeploy : SystemState.deploy env cfg blk₀ token brainOwners = .ok s₀)
    (h : Run (ClockedStep env) s₀ ls s)
    (hsupply : ∑ a, env.balanceOf s.token a < 2 ^ 128)
    {blk : Block} (hnow : s.now ≤ blk.timestamp) (hclock : blk.timestamp < 2 ^ 48)
    (caller : Address) (b : BrainId) (validators : List Address) :
    (∃ s', SystemCall.exec env blk caller s (.distributor (.distribute b validators)) = .ok s') ↔
      0 < s.pendingValidatorFees b ∧ validators.Pairwise (· < ·) ∧
      (∀ v, v ∈ validators ↔ s.members.isValidator b v = true) ∧
      0 < (validators.map (s.vault.validatorStake b)).sum := by
  have hi : SystemInv env s := systemRun_inv h.of_restrict (systemInv_deploy hdeploy)
  obtain ⟨-, -, -, -, roles, hvault⟩ := deploy_ok hdeploy
  -- a fresh vault has no checkpoints
  have hstart : InTime s₀.now s₀.vault := by
    rw [hvault]
    exact ⟨(inTime_deploy _ cfg.deployer).total, (inTime_deploy _ cfg.deployer).brain⟩
  have htime : InTime (StakingVault.clock blk) s.vault := by
    rw [clock_eq hclock]
    exact (clockedRun_inTime h hstart).later hnow
  constructor
  · rintro ⟨s', hs'⟩
    have hok := acceptable_of_distribute hi hs'
    exact ⟨hok.pending, hok.ascending, hok.exact, hok.stake⟩
  · rintro ⟨hpending, hascending, hexact, hstake⟩
    exact distribute_of_acceptable htok hi htime hsupply ⟨hpending, hascending, hexact, hstake⟩

/-! ## A distribution, in time and too late -/

/-- The contracts hold 10000 tokens each, and nobody else holds any. -/
def contractBalances : Address → Nat :=
  set (set (set (set noBalances 0 10000) 20 10000) 21 10000) 23 10000

def contractLedger : Ledger where
  balances := contractBalances
  allowances _ _ := 0

theorem contractLedger_supply : ∑ a, toySystem.balanceOf contractLedger a < 2 ^ 128 := by
  have hnone : ∑ a, noBalances a = 0 := Finset.sum_const_zero
  have h₀ := sum_set_le noBalances 0 10000
  have h₂₀ := sum_set_le (set noBalances 0 10000) 20 10000
  have h₂₁ := sum_set_le (set (set noBalances 0 10000) 20 10000) 21 10000
  have h₂₃ := sum_set_le (set (set (set noBalances 0 10000) 20 10000) 21 10000) 23 10000
  have hsum : ∑ a, contractBalances a < 2 ^ 128 := by
    unfold contractBalances
    omega
  exact hsum

/-- What the toy block leads to. The refused call is made in the block `2 ^ 48` seconds
after second 5. -/
theorem toyBlock_facts : (do
    let s₀ ← SystemState.deploy toySystem toyConfig ⟨0, by decide⟩ toyLedger toyOwners
    let s ← SystemState.mine toySystem ⟨150, by decide⟩ toyBlock s₀
    let settled := { s with token := contractLedger }
    let refused := distribute toySystem ⟨281474976710661, by decide⟩ 3 [6, 7] settled
    return ([s₀.now, s.now, s.pendingValidatorFees 3, s.members.validatorCount 3,
      s.vault.validatorStake 3 6, s.vault.validatorStake 3 7] ++
      [0, 20, 21, 23].map s.token.balances,
      s.members.isValidator 3 6 && s.members.isValidator 3 7, refused.isOk) :
      Exec (List Nat × Bool × Bool)).toOption =
    some ([0, 150, 9, 2, 700, 1000, 5000, 5960, 5009, 6700], true, false) := by
  decide +kernel

theorem toySettled_run : ∃ s₀ s ls,
    SystemState.deploy toySystem toyConfig ⟨0, by decide⟩ toyLedger toyOwners = .ok s₀ ∧
    Run (ClockedStep toySystem) s₀ ls s ∧ s.token = contractLedger ∧ s.now = 150 ∧
    Acceptable s 3 [6, 7] ∧
    ∀ s', distribute toySystem ⟨281474976710661, by decide⟩ 3 [6, 7] s ≠ .ok s' := by
  have hfacts := toOption_ok.mp toyBlock_facts
  simp only [bind_ok, return_ok, Prod.mk.injEq, List.map_cons, List.map_nil, List.cons_append,
    List.nil_append, List.cons.injEq, and_true] at hfacts
  obtain ⟨s₀, hdeploy, s, hmine, ⟨hstart, hnow, hpending, hcount, hsix, hseven, h₀, h₂₀, h₂₁,
    h₂₃⟩, hboth, hrefused⟩ := hfacts
  have hrun := mine_run (deploy_ok hdeploy).1 (by omega) toyBlock_plain hmine
  have hinv := systemRun_inv hrun (systemInv_deploy hdeploy)
  have hon : ∀ l ∈ toyBlock.map fun tx => SystemLabel.call ⟨150, by decide⟩ tx.1 tx.2,
      l.OnClock := by
    intro l hl
    obtain ⟨tx, -, rfl⟩ := List.mem_map.mp hl
    unfold SystemLabel.OnClock
    dsimp only
    omega
  have hmoved : ∀ a, ¬ toySystem.External a →
      toySystem.balanceOf s.token a ≤ toySystem.balanceOf contractLedger a := by
    intro a ha
    by_contra hlt
    have hheld : ∀ a, toySystem.balanceOf s.token a = s.token.balances a := fun _ => rfl
    rw [hheld] at hlt
    refine ha ⟨?_, ?_, ?_, ?_⟩
    · rintro rfl
      exact hlt (h₀.trans_le (by decide))
    · rintro rfl
      exact hlt (h₂₀.trans_le (by decide))
    · rintro rfl
      exact hlt (h₂₃.trans_le (by decide))
    · rintro rfl
      exact hlt (h₂₁.trans_le (by decide))
  -- the two validators are all of them
  have hactive : ∀ v ∈ [6, 7], s.members.isValidator 3 v = true := by
    obtain ⟨hsix, hseven⟩ := (Bool.and_eq_true _ _).mp hboth
    exact List.forall_mem_cons.mpr ⟨hsix, List.forall_mem_singleton.mpr hseven⟩
  have hexact : ∀ v, v ∈ [6, 7] ↔ s.members.isValidator 3 v = true := fun v =>
    ⟨hactive v, hinv.validators.mem_of_length (by decide) hactive hcount.symm⟩
  refine ⟨s₀, { s with token := contractLedger }, _, hdeploy,
    (hrun.restrict_labels hon).append (.single ⟨.elsewhere contractLedger s.brainOwners hmoved,
      trivial⟩), rfl, hnow, ⟨?_, by decide, hexact, ?_⟩, ?_⟩
  · have hpositive : 0 < s.pendingValidatorFees 3 := by omega
    exact hpositive
  · have hpositive : 0 < s.vault.validatorStake 3 6 + (s.vault.validatorStake 3 7 + 0) := by
      omega
    exact hpositive
  · intro s' hs'
    rw [hs'] at hrefused
    cases hrefused

/-- In the next hour the distribution to the two validators goes through. -/
theorem distribute_accepts_toy : ∃ s s' : SystemState Ledger,
    0 < s.pendingValidatorFees 3 ∧
    SystemCall.exec toySystem ⟨3600, by decide⟩ 5 s (.distributor (.distribute 3 [6, 7])) =
      .ok s' := by
  obtain ⟨s₀, s, ls, hdeploy, hrun, htoken, hnow, hok, -⟩ := toySettled_run
  have hsupply : ∑ a, toySystem.balanceOf s.token a < 2 ^ 128 := by
    rw [htoken]
    exact contractLedger_supply
  obtain ⟨s', hs'⟩ := (@distribute_accepts _ toySystem _ _ _ _ _ _ _ ledgerErc20_responsive
    hdeploy hrun hsupply ⟨3600, by decide⟩ (hnow.trans_le (by decide)) (by decide) 5 3 [6, 7]).mpr
    ⟨hok.pending, hok.ascending, hok.exact, hok.stake⟩
  exact ⟨s, s', hok.pending, hs'⟩

/-- The clock is 48 bits wide: once it has wrapped around, the checkpoint of the reward is
refused as older than the last, and so is the distribution. -/
theorem distribute_refused : ∃ s₀ s ls,
    SystemState.deploy toySystem toyConfig ⟨0, by decide⟩ toyLedger toyOwners = .ok s₀ ∧
    Run (SystemStep toySystem) s₀ ls s ∧ toySystem.token.Responsive ∧
    ∑ a, toySystem.balanceOf s.token a < 2 ^ 128 ∧ s.now ≤ 281474976710661 ∧
    0 < s.pendingValidatorFees 3 ∧ [(6 : Address), 7].Pairwise (· < ·) ∧
    (∀ v, v ∈ [6, 7] ↔ s.members.isValidator 3 v = true) ∧
    0 < ([6, 7].map (s.vault.validatorStake 3)).sum ∧
    ∀ s', SystemCall.exec toySystem ⟨281474976710661, by decide⟩ 5 s
      (.distributor (.distribute 3 [6, 7])) ≠ .ok s' := by
  obtain ⟨s₀, s, ls, hdeploy, hrun, htoken, hnow, hok, hrefused⟩ := toySettled_run
  have hsupply : ∑ a, toySystem.balanceOf s.token a < 2 ^ 128 := by
    rw [htoken]
    exact contractLedger_supply
  exact ⟨s₀, s, ls, hdeploy, hrun.of_restrict, ledgerErc20_responsive, hsupply,
    hnow.trans_le (by decide), hok.pending, hok.ascending, hok.exact, hok.stake, hrefused⟩

end BasedAI
