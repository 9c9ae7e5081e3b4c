import BasedAI.System.Deployment

/-!
# BasedAI — what a distribution does

The two loops of `distribute` and the call around them.

* `collectStakes_ok` — the first loop accepts exactly the ascending lists of validators;
* `Pushed`, `pushShares_ok` — the second pays every validator's pool its share and
  touches nothing else;
* `Distributed`, `distribute_ok` — the effect of a successful call.
-/

namespace BasedAI

open Fallible Mapping ShareMath RewardDistributor

/-! ## The first loop -/

section Collect

variable {members : SubnetMembers} {vault : StakingVault} {b : BrainId}

theorem collectStakes_ok {validators : List Address} {last : Address} {total : Nat}
    {r : List Nat × Nat}
    (h : collectStakes members vault b validators last total = .ok r) :
    List.IsChain (· < ·) (last :: validators) ∧
      (∀ v ∈ validators, members.isValidator b v = true) ∧
      r = (validators.map (vault.validatorStake b),
        total + (validators.map (vault.validatorStake b)).sum) := by
  -- the last address read bounds the next from below
  induction validators generalizing last total r with
  | nil =>
    obtain rfl := return_ok.mp h
    exact ⟨.singleton last, by simp, by simp⟩
  | cons v validators ih =>
    simp only [collectStakes, bind_ok, revertIf_ok, add256_ok, return_ok, not_le,
      Bool.not_eq_false] at h
    obtain ⟨_, hsorted, _, hactive, _, ⟨-, rfl⟩, ⟨stakes, sum⟩, hrest, rfl⟩ := h
    obtain ⟨hchain, hall, hr⟩ := ih hrest
    obtain ⟨rfl, rfl⟩ := Prod.mk.injEq _ _ _ _ ▸ hr
    refine ⟨.cons_cons hsorted hchain, ?_, ?_⟩
    · intro u hu
      rcases List.mem_cons.mp hu with rfl | hu
      · exact hactive
      · exact hall u hu
    · rw [List.map_cons, List.sum_cons, Nat.add_assoc]

/-- An ascending list of validators is accepted, as long as the stakes add up in 256
bits. -/
theorem collectStakes_succeeds {validators : List Address} {last : Address} {total : Nat}
    (hchain : List.IsChain (· < ·) (last :: validators))
    (hall : ∀ v ∈ validators, members.isValidator b v = true)
    (hfits : total + (validators.map (vault.validatorStake b)).sum < 2 ^ 256) :
    collectStakes members vault b validators last total =
      .ok (validators.map (vault.validatorStake b),
        total + (validators.map (vault.validatorStake b)).sum) := by
  induction validators generalizing last total with
  | nil => rfl
  | cons v validators ih =>
    rw [List.isChain_cons_cons] at hchain
    rw [List.map_cons, List.sum_cons] at hfits
    have hactive : ¬ members.isValidator b v = false := by
      rw [hall v (List.mem_cons_self ..)]
      exact Bool.noConfusion
    -- partial sums fit because the whole does
    have hfits' : total + vault.validatorStake b v +
        (validators.map (vault.validatorStake b)).sum < 2 ^ 256 := by omega
    have hrest := ih hchain.2 (fun u hu => hall u (List.mem_cons_of_mem _ hu)) hfits'
    unfold collectStakes
    rw [revertIf_neg (not_le.mpr hchain.1), revertIf_neg hactive]
    simp only [ok_bind]
    rw [add256, checkedAdd_eq (by omega), ok_bind, hrest]
    simp only [ok_bind, List.map_cons, List.sum_cons, Nat.add_assoc]
    rfl

end Collect

/-! ## The second loop -/

section Push

variable {T : Type} {env : SystemEnv T} {blk : Block} {b : BrainId} {share : Address → Nat}
  {validators : List Address} {p q r : VaultState T}

/-- From `p` to `q` the pool of every listed validator has received its share from the
distributor, and nothing else has changed but the histories. -/
structure Pushed (env : SystemEnv T) (b : BrainId) (share : Address → Nat)
    (validators : List Address) (p q : VaultState T) : Prop where
  pool : ∀ v ∈ validators, q.vault.vAssets b v = p.vault.vAssets b v + share v
  other : ∀ b' w, ¬ (b' = b ∧ w ∈ validators) → q.vault.vAssets b' w = p.vault.vAssets b' w
  shares : q.vault.vShares = p.vault.vShares
  active : q.vault.stakerShares = p.vault.stakerShares
  pending : q.vault.pending = p.vault.pending
  roles : q.vault.roles = p.vault.roles
  inv : VaultInv p.vault → VaultInv q.vault
  backed : ∀ k, Backed env.vaultEnv k p → Backed env.vaultEnv k q
  spent : env.balanceOf q.token env.distributor + (validators.map share).sum =
    env.balanceOf p.token env.distributor
  others : ∀ a, a ≠ env.distributor → env.balanceOf p.token a ≤ env.balanceOf q.token a

theorem Pushed.nil (p : VaultState T) : Pushed env b share [] p p where
  pool _ hv := absurd hv (List.not_mem_nil)
  other _ _ _ := rfl
  shares := rfl
  active := rfl
  pending := rfl
  roles := rfl
  inv := id
  backed _ := id
  spent := rfl
  others _ _ := le_rfl

/-- A validator without a share is skipped. -/
theorem Pushed.skip {v : Address} (h : Pushed env b share validators p q)
    (hv : v ∉ validators) (hzero : share v = 0) :
    Pushed env b share (v :: validators) p q where
  pool u hu := by
    -- the pool is as it was, which is what a share of nothing makes of it
    rcases List.mem_cons.mp hu with rfl | hu
    · rw [hzero, Nat.add_zero]
      exact h.other b u fun hmem => hv hmem.2
    · exact h.pool u hu
  other b' w hw := h.other b' w fun hmem => hw ⟨hmem.1, List.mem_cons_of_mem _ hmem.2⟩
  shares := h.shares
  active := h.active
  pending := h.pending
  roles := h.roles
  inv := h.inv
  backed := h.backed
  spent := by
    rw [List.map_cons, List.sum_cons, hzero, Nat.zero_add]
    exact h.spent
  others := h.others

/-- One reward, and the rest of the loop. -/
theorem Pushed.cons {v : Address} (h : Pushed env b share validators q r)
    (hv : v ∉ validators)
    (hreward : StakingVault.notifyReward env.vaultEnv blk env.distributor b v (share v) p =
      .ok q) : Pushed env b share (v :: validators) p r := by
  have hne : env.distributor ≠ env.vaultEnv.self := env.distributor_ne_vault
  have hinv := notifyReward_inv hreward
  have hbacked := fun k => notifyReward_backed (k := k) hreward hne
  obtain ⟨token, total, brain, -, -, -, -, htoken, rfl⟩ :=
    StakingVault.notifyReward_ok hreward
  obtain ⟨hpaid, hbal⟩ := safeTransferFrom_ok htoken
  refine {
    pool := fun u hu => ?_
    other := fun b' w hw => ?_
    shares := h.shares
    active := h.active
    pending := h.pending
    roles := h.roles
    inv := fun hp => h.inv (hinv hp)
    backed := fun k hk => h.backed k (hbacked k hk)
    spent := ?_
    others := fun a ha => ?_ }
  · rcases List.mem_cons.mp hu with rfl | hu
    · -- its own pool is not in the rest of the list
      rw [h.other b u fun hmem => hv hmem.2]
      exact set₂_same _ _ _ _
    · have hne : ¬ (b = b ∧ u = v) := fun hkey => hv (hkey.2 ▸ hu)
      rw [h.pool u hu]
      dsimp only
      rw [set₂_of_ne _ _ hne]
  · have hrest : ¬ (b' = b ∧ w ∈ validators) :=
      fun hmem => hw ⟨hmem.1, List.mem_cons_of_mem _ hmem.2⟩
    have hne : ¬ (b' = b ∧ w = v) := fun hkey => hw ⟨hkey.1, hkey.2 ▸ List.mem_cons_self ..⟩
    rw [h.other b' w hrest]
    exact set₂_of_ne _ _ hne
  · have hspent := h.spent
    have hsrc : env.balanceOf token env.distributor =
        env.balanceOf p.token env.distributor - share v := by
      unfold SystemEnv.balanceOf
      show env.vaultEnv.token.balanceOf token env.distributor = _
      rw [hbal, moved_src hne]
      rfl
    have hpaid' : share v ≤ env.balanceOf p.token env.distributor := hpaid
    dsimp only at hspent
    rw [List.map_cons, List.sum_cons]
    omega
  · have hmoved : env.balanceOf p.token a ≤ env.balanceOf token a := by
      unfold SystemEnv.balanceOf
      show _ ≤ env.vaultEnv.token.balanceOf token a
      rw [hbal]
      exact le_moved _ _ ha
    exact hmoved.trans (h.others a ha)

/-- Approvals change no balance. -/
theorem Pushed.retoken {t t' u u' : T} {v w : StakingVault}
    (h : Pushed env b share validators ⟨t, v⟩ ⟨u, w⟩)
    (ht : env.token.balanceOf t = env.token.balanceOf t')
    (hu : env.token.balanceOf u' = env.token.balanceOf u) :
    Pushed env b share validators ⟨t', v⟩ ⟨u', w⟩ where
  pool := h.pool
  other := h.other
  shares := h.shares
  active := h.active
  pending := h.pending
  roles := h.roles
  inv := h.inv
  -- only balances are read of the ledger, so another with the same balances does
  backed k hk := by
    have hbacked := h.backed k
    unfold Backed at hbacked hk ⊢
    show env.token.balanceOf u' env.vault = _
    rw [hu]
    apply hbacked
    show env.token.balanceOf t env.vault = _
    rw [ht]
    exact hk
  spent := by
    have hspent := h.spent
    unfold SystemEnv.balanceOf at hspent ⊢
    dsimp only at hspent ⊢
    rw [hu, ← ht]
    exact hspent
  others a ha := by
    have hother := h.others a ha
    unfold SystemEnv.balanceOf at hother ⊢
    dsimp only at hother ⊢
    rw [hu, ← ht]
    exact hother

theorem pushShares_ok {stake : Address → Nat} {amount total d : Nat}
    {res : VaultState T × Nat} (hdistinct : validators.Nodup)
    (h : pushShares env blk b amount total (validators.map fun v => (v, stake v)) p d =
      .ok res) :
    Pushed env b (fun v => part amount total (stake v)) validators p res.1 ∧
      res.2 = d + (validators.map fun v => part amount total (stake v)).sum := by
  induction validators generalizing p d with
  | nil =>
    obtain rfl := return_ok.mp h
    exact ⟨.nil p, rfl⟩
  | cons v validators ih =>
    obtain ⟨hv, hdistinct⟩ := List.nodup_cons.mp hdistinct
    rw [List.map_cons, List.sum_cons]
    rw [List.map_cons, pushShares] at h
    split at h
    case isTrue hstake =>
      -- without stake there is no share, and the loop goes on
      have hzero : part amount total (stake v) = 0 := by rw [hstake, part_zero]
      obtain ⟨hpushed, hd⟩ := ih hdistinct h
      refine ⟨hpushed.skip hv hzero, ?_⟩
      rw [hd, hzero, Nat.zero_add]
    case isFalse =>
      simp only [bind_ok, mul256_ok] at h
      obtain ⟨_, ⟨-, rfl⟩, h⟩ := h
      split at h
      -- a share can also round to nothing
      case isTrue hzero =>
        obtain ⟨hpushed, hd⟩ := ih hdistinct h
        refine ⟨hpushed.skip hv hzero, ?_⟩
        rw [hd]
        have hzero' : part amount total (stake v) = 0 := hzero
        omega
      case isFalse =>
        simp only [bind_ok, add256_ok] at h
        obtain ⟨_, ⟨-, rfl⟩, q, hreward, h⟩ := h
        obtain ⟨hpushed, hd⟩ := ih hdistinct h
        refine ⟨hpushed.cons hv hreward, ?_⟩
        rw [hd, Nat.add_assoc]
        rfl

end Push

/-! ## The call -/

section Distribute

variable {T : Type} {env : SystemEnv T} {blk : Block} {b : BrainId}
  {validators : List Address} {s s' : SystemState T}

/-- The stakes a distribution over the list goes by, and their sum. -/
def SystemState.stakeOf (s : SystemState T) (b : BrainId) (v : Address) : Nat :=
  s.vault.validatorStake b v

def SystemState.listStake (s : SystemState T) (b : BrainId) (validators : List Address) : Nat :=
  (validators.map (s.stakeOf b)).sum

/-- The share of one validator in what is pending. -/
def SystemState.share (s : SystemState T) (b : BrainId) (validators : List Address)
    (v : Address) : Nat :=
  part (s.pendingValidatorFees b) (s.listStake b validators) (s.stakeOf b v)

/-- The shares are together at most what is pending. -/
theorem sum_shares_le (h : 0 < s.listStake b validators) :
    (validators.map (s.share b validators)).sum ≤ s.pendingValidatorFees b := by
  have hle := @sum_part_le (s.pendingValidatorFees b) _ h
  rw [List.map_map] at hle
  exact hle

/-- And leave less than one unit for every validator with stake. -/
theorem lt_sum_shares_add (h : 0 < s.listStake b validators) :
    s.pendingValidatorFees b < (validators.map (s.share b validators)).sum +
      validators.countP (fun v => 0 < s.stakeOf b v) := by
  have hlt := @lt_sum_part_add (s.pendingValidatorFees b) _ h
  rw [List.map_map, List.countP_map] at hlt
  exact hlt

/-- What a call of `distribute` has done. -/
structure Distributed (env : SystemEnv T) (b : BrainId) (validators : List Address)
    (s s' : SystemState T) : Prop where
  pushed : Pushed env b (s.share b validators) validators s.staking s'.staking
  fees : s'.distributor.pendingValidatorFees = set s.distributor.pendingValidatorFees b
    (s.pendingValidatorFees b - (validators.map (s.share b validators)).sum)
  rewardRoles : s'.distributor.roles = s.distributor.roles
  market : s'.market = s.market
  members : s'.members = s.members
  subnets : s'.subnets = s.subnets
  brainOwners : s'.brainOwners = s.brainOwners

/-- **What a distribution has checked, and what it did.** -/
theorem distribute_ok (h : distribute env blk b validators s = .ok s') :
    0 < s.pendingValidatorFees b ∧ validators.length = s.members.validatorCount b ∧
      List.IsChain (· < ·) (0 :: validators) ∧
      (∀ v ∈ validators, s.members.isValidator b v = true) ∧
      0 < s.listStake b validators ∧ Distributed env b validators s s' := by
  simp only [distribute, bind_ok, revertIf_ok, sub256_ok, return_ok, exists_const] at h
  obtain ⟨hpending, hlength, ⟨stakes, total⟩, hcollect, hstake, token₁, happrove₁,
    ⟨staking, paid⟩, hpush, token₂, happrove₂, _, ⟨-, rfl⟩, rfl⟩ := h
  obtain ⟨hchain, hall, hr⟩ := collectStakes_ok hcollect
  obtain ⟨rfl, rfl⟩ := Prod.mk.injEq _ _ _ _ ▸ hr
  dsimp only at hstake hpush happrove₂
  rw [Nat.zero_add] at hstake hpush
  obtain ⟨-, hlength⟩ := not_or.mp hlength
  -- an ascending list repeats nobody
  have hdistinct : validators.Nodup :=
    ((List.isChain_iff_pairwise.mp hchain).of_cons).imp fun hlt => ne_of_lt hlt
  rw [← List.map_prod_left_eq_zip] at hpush
  obtain ⟨hpushed, hpaid⟩ := pushShares_ok hdistinct hpush
  dsimp only at hpaid
  rw [Nat.zero_add] at hpaid
  obtain ⟨hbal₁, -⟩ := forceApprove_ok happrove₁
  obtain ⟨hbal₂, -⟩ := forceApprove_ok happrove₂
  refine ⟨Nat.pos_of_ne_zero hpending, not_not.mp hlength, hchain, hall,
    Nat.pos_of_ne_zero hstake, ?_⟩
  refine ⟨hpushed.retoken hbal₁ hbal₂, ?_, rfl, rfl, rfl, rfl, rfl⟩
  -- the dust is written whether there is any or not
  dsimp only
  rw [hpaid]
  split
  case isTrue =>
    rw [set_set]
    rfl
  case isFalse hnone =>
    have hzero : s.pendingValidatorFees b - (validators.map (s.share b validators)).sum = 0 :=
      Nat.eq_zero_of_not_pos hnone
    rw [hzero]

end Distribute

end BasedAI
