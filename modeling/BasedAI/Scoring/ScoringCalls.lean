import BasedAI.Scoring.ScoringRegistry

/-!
# BasedAI — what a successful registry call does

One lemma per entry point of `ScoringRegistry`, as for the vault: the checks a
call that does not revert has passed, and the state it leaves.

* `countSigners_ok`           — what the loop over the signers has checked and
  counted;
* `proposeEpoch_ok`, `finalizeEpoch_ok`, `challengeEquivocation_ok`;
* `challengeEquivocation_stake` — what a proven equivocation does to the pools.
-/

namespace BasedAI

open Fallible Mapping

namespace ScoringRegistry

/-! ## The loop over the signers -/

/-- The storage after the loop has marked `signers`. -/
def markSigners (r : ScoringRegistry) (epoch : Epoch) (brainId : BrainId)
    (merkleRoot : Bytes32) (signers : List Address) : ScoringRegistry :=
  signers.foldl (markSigner epoch brainId merkleRoot) r

@[simp] theorem markSigners_epochs (r : ScoringRegistry) (e : Epoch) (b : BrainId)
    (root : Bytes32) (signers : List Address) :
    (r.markSigners e b root signers).epochs = r.epochs := by
  induction signers generalizing r with
  | nil => rfl
  | cons v rest ih => exact ih (r.markSigner e b root v)

/-- A mark is an old one or one for a signer of the list. -/
theorem markSigners_signer (r : ScoringRegistry) (e e' : Epoch) (b b' : BrainId)
    (root : Bytes32) (signers : List Address) (v : Address) :
    (r.markSigners e b root signers).isCommitmentSigner e' b' v = true ↔
      r.isCommitmentSigner e' b' v = true ∨ (e' = e ∧ b' = b ∧ v ∈ signers) := by
  induction signers generalizing r with
  | nil => simp [markSigners]
  | cons u rest ih =>
    have hhead : (r.markSigner e b root u).isCommitmentSigner e' b' v = true ↔
        r.isCommitmentSigner e' b' v = true ∨ (e' = e ∧ b' = b ∧ v = u) := by
      simp only [markSigner, set₃_apply]
      split
      case isTrue h => simp [h]
      case isFalse h => simp [h]
    show ((r.markSigner e b root u).markSigners e b root rest).isCommitmentSigner e' b' v =
      true ↔ _
    rw [ih, hhead, List.mem_cons]
    tauto

variable {T : Type} {env : ScoringEnv T} {blk : Block}

/-- What the loop over the signers has checked once it returns: the signers
ascend, every signature recovers to its signer, and the stake is the sum. -/
theorem countSigners_ok {vault : StakingVault} {digest : Bytes32} {e : Epoch} {b : BrainId}
    {root : Bytes32} {last : Address} {acc sum : Nat} {r r' : ScoringRegistry}
    {pairs : List (Address × Bytes)}
    (h : countSigners env vault digest e b root last acc r pairs = .ok (sum, r')) :
    List.Pairwise (· < ·) (last :: pairs.map Prod.fst) ∧
      (∀ p ∈ pairs, env.crypto.recover digest p.2 = some p.1) ∧
      sum = acc + ((pairs.map Prod.fst).map (vault.validatorStake b)).sum ∧
      r' = r.markSigners e b root (pairs.map Prod.fst) := by
  induction pairs generalizing last acc r with
  | nil =>
    cases h
    simp [markSigners]
  | cons p rest ih =>
    obtain ⟨signer, signature⟩ := p
    simp only [countSigners, bind_ok, revertIf_ok, orRevert_ok, add256_ok, not_le,
      not_not] at h
    obtain ⟨_, hsorted, recovered, hrecover, _, hsigner, total, ⟨-, rfl⟩, hrest⟩ := h
    subst hsigner
    obtain ⟨hpairwise, hall, hsum, hmarks⟩ := ih hrest
    refine ⟨?_, ?_, ?_, hmarks⟩
    · -- `last` is below the head, and the head below the rest
      refine List.pairwise_cons.mpr ⟨fun a ha => ?_, hpairwise⟩
      rcases List.mem_cons.mp ha with rfl | ha
      · exact hsorted
      · exact lt_trans hsorted ((List.pairwise_cons.mp hpairwise).1 a ha)
    · intro q hq
      rcases List.mem_cons.mp hq with rfl | hq
      · exact hrecover
      · exact hall q hq
    · rw [hsum]
      simp only [List.map_cons, List.sum_cons]
      omega

/-- Conversely the loop goes through on ascending signers who all signed, unless the
sum of their stakes overflows. -/
theorem countSigners_of {vault : StakingVault} {digest : Bytes32} {e : Epoch} {b : BrainId}
    {root : Bytes32} {last : Address} {acc : Nat} {r : ScoringRegistry}
    {pairs : List (Address × Bytes)}
    (hsorted : List.Pairwise (· < ·) (last :: pairs.map Prod.fst))
    (hrecover : ∀ p ∈ pairs, env.crypto.recover digest p.2 = some p.1)
    (hfits : acc + ((pairs.map Prod.fst).map (vault.validatorStake b)).sum < 2 ^ 256) :
    countSigners env vault digest e b root last acc r pairs =
      .ok (acc + ((pairs.map Prod.fst).map (vault.validatorStake b)).sum,
        r.markSigners e b root (pairs.map Prod.fst)) := by
  -- each signer is above the one before
  induction pairs generalizing last acc r with
  | nil => rfl
  | cons p rest ih =>
    obtain ⟨signer, signature⟩ := p
    simp only [List.map_cons, List.sum_cons] at hsorted hfits ⊢
    rw [← Nat.add_assoc] at hfits ⊢
    have hlast : last < signer := (List.pairwise_cons.mp hsorted).1 signer (List.mem_cons_self ..)
    have hhead : env.crypto.recover digest signature = some signer :=
      hrecover (signer, signature) (List.mem_cons_self ..)
    have hadd : acc + vault.validatorStake b signer < 2 ^ 256 := by omega
    have hrest := ih (r := r.markSigner e b root signer) (List.pairwise_cons.mp hsorted).2
      (fun q hq => hrecover q (List.mem_cons_of_mem _ hq)) hfits
    unfold countSigners
    rw [revertIf_neg (not_le.mpr hlast), hhead, add256, checkedAdd_eq hadd]
    simp only [ok_bind, orRevert]
    rw [revertIf_neg (not_not.mpr rfl)]
    exact hrest

/-! ## Entry points -/

/-- The record of a commitment accepted in block `blk`. -/
def accepted (blk : Block) (root : Bytes32) (signers : List Address) (signerStake : Nat) :
    EpochCommitment where
  merkleRoot := root
  proposedAt := blk.timestamp
  finalizedAt := 0
  signerCount := uint32 signers.length
  signerStake := signerStake
  invalidated := false

theorem proposeEpoch_ok {e : Epoch} {b : BrainId} {root : Bytes32} {signers : List Address}
    {signatures : List Bytes} {s s' : ScoringState T}
    (h : proposeEpoch env blk e b root signers signatures s = .ok s') :
    root ≠ 0 ∧ e.val < currentEpoch env blk ∧ (s.registry.epochs e b).merkleRoot = 0 ∧
      signers.length = signatures.length ∧ signers ≠ [] ∧
      List.Pairwise (· < ·) (0 :: signers) ∧
      (∀ p ∈ signers.zip signatures,
        env.crypto.recover (commitmentDigest env e b root) p.2 = some p.1) ∧
      s.staking.vault.brainStake b ≠ 0 ∧
      (s.staking.vault.brainStake b * MIN_QUORUM_BPS + 9999) / 10000 ≤
        (signers.map (s.staking.vault.validatorStake b)).sum ∧
      s' = { s with
        registry := (s.registry.markSigners e b root signers).withEpoch e b
          (accepted blk root signers
            (signers.map (s.staking.vault.validatorStake b)).sum) } := by
  unfold proposeEpoch at h
  simp only [bind_ok, revertIf_ok, mul256_ok, add256_ok, return_ok, not_not, not_lt] at h
  obtain ⟨_, hroot, _, hfuture, _, hcurrent, _, hprior, _, hlen, _, hne, ⟨sum, r⟩, hcount,
    _, htotal, _, ⟨-, rfl⟩, _, ⟨-, rfl⟩, _, hquorum, rfl⟩ := h
  -- the lists have one length, so the pairs list exactly the signers
  have hzip : (signers.zip signatures).map Prod.fst = signers :=
    List.map_fst_zip (le_of_eq hlen)
  obtain ⟨hsorted, hrecover, hsum, hmarks⟩ := countSigners_ok hcount
  rw [hzip] at hsorted hsum hmarks
  rw [Nat.zero_add] at hsum
  subst hsum hmarks
  refine ⟨hroot, lt_of_le_of_ne hfuture hcurrent, hprior, hlen, ?_, hsorted, hrecover,
    htotal, hquorum, ?_⟩
  · rintro rfl
    exact hne rfl
  · rw [uint64_timestamp]
    rfl

/-- The arithmetic of the quorum did not overflow. -/
theorem proposeEpoch_fits {e : Epoch} {b : BrainId} {root : Bytes32} {signers : List Address}
    {signatures : List Bytes} {s s' : ScoringState T}
    (h : proposeEpoch env blk e b root signers signatures s = .ok s') :
    s.staking.vault.brainStake b * MIN_QUORUM_BPS + 9999 < 2 ^ 256 := by
  unfold proposeEpoch at h
  simp only [bind_ok, revertIf_ok, mul256_ok, add256_ok, return_ok] at h
  obtain ⟨_, -, _, -, _, -, _, -, _, -, _, -, ⟨sum, r⟩, -, _, -, _, ⟨-, rfl⟩, _,
    ⟨hfits, rfl⟩, -⟩ := h
  exact hfits

/-- Conversely a proposal that meets these conditions is accepted, unless its
arithmetic overflows. -/
theorem proposeEpoch_of {e : Epoch} {b : BrainId} {root : Bytes32} {signers : List Address}
    {signatures : List Bytes} {s : ScoringState T} (hroot : root ≠ 0)
    (hepoch : e.val < currentEpoch env blk) (hprior : (s.registry.epochs e b).merkleRoot = 0)
    (hlen : signers.length = signatures.length) (hne : signers ≠ [])
    (hsorted : List.Pairwise (· < ·) (0 :: signers))
    (hrecover : ∀ p ∈ signers.zip signatures,
      env.crypto.recover (commitmentDigest env e b root) p.2 = some p.1)
    (htotal : s.staking.vault.brainStake b ≠ 0)
    (hquorum : (s.staking.vault.brainStake b * MIN_QUORUM_BPS + 9999) / 10000 ≤
      (signers.map (s.staking.vault.validatorStake b)).sum)
    (hsum : (signers.map (s.staking.vault.validatorStake b)).sum < 2 ^ 256)
    (hfits : s.staking.vault.brainStake b * MIN_QUORUM_BPS + 9999 < 2 ^ 256) :
    proposeEpoch env blk e b root signers signatures s = .ok { s with
      registry := (s.registry.markSigners e b root signers).withEpoch e b
        (accepted blk root signers (signers.map (s.staking.vault.validatorStake b)).sum) } := by
  have hzip : (signers.zip signatures).map Prod.fst = signers :=
    List.map_fst_zip (le_of_eq hlen)
  have hcount : countSigners env s.staking.vault (commitmentDigest env e b root) e b root 0 0
      s.registry (signers.zip signatures) =
      .ok ((signers.map (s.staking.vault.validatorStake b)).sum,
        s.registry.markSigners e b root signers) := by
    rw [countSigners_of (by rw [hzip]; exact hsorted) hrecover
      (by rw [hzip, Nat.zero_add]; exact hsum), hzip, Nat.zero_add]
  have hnonempty : signers.length ≠ 0 := fun h => hne (List.length_eq_zero_iff.mp h)
  have hmul : s.staking.vault.brainStake b * MIN_QUORUM_BPS < 2 ^ 256 := by omega
  -- no check of the source fails, in its order
  unfold proposeEpoch
  dsimp only
  rw [revertIf_neg hroot, revertIf_neg (not_lt.mpr hepoch.le), revertIf_neg (ne_of_lt hepoch),
    revertIf_neg (not_not.mpr hprior), revertIf_neg (not_not.mpr hlen), revertIf_neg hnonempty,
    hcount]
  simp only [ok_bind]
  rw [revertIf_neg htotal, mul256, checkedMul_eq hmul]
  simp only [ok_bind]
  rw [add256, checkedAdd_eq hfits]
  simp only [ok_bind]
  rw [revertIf_neg (not_lt.mpr hquorum), uint64_timestamp]
  rfl

/-- The record of `c` once it is finalized in block `blk`. -/
def finalized (c : EpochCommitment) (blk : Block) :
    EpochCommitment :=
  { c with finalizedAt := blk.timestamp }

theorem finalizeEpoch_ok {e : Epoch} {b : BrainId} {s s' : ScoringState T}
    (h : finalizeEpoch blk e b s = .ok s') :
    (s.registry.epochs e b).merkleRoot ≠ 0 ∧ (s.registry.epochs e b).invalidated = false ∧
      ((s.registry.epochs e b).finalizedAt ≠ 0 ∧ s' = s ∨
        (s.registry.epochs e b).finalizedAt = 0 ∧
        (s.registry.epochs e b).proposedAt + CHALLENGE_WINDOW ≤ blk.timestamp ∧
        s' = { s with
          registry := s.registry.withEpoch e b
            (finalized (s.registry.epochs e b) blk) }) := by
  unfold finalizeEpoch at h
  simp only [bind_ok, revertIf_ok, Bool.not_eq_true] at h
  obtain ⟨_, hroot, _, hvalid, h⟩ := h
  refine ⟨hroot, hvalid, ?_⟩
  split at h
  case isTrue hfinal =>
    -- final already: nothing happens
    cases h
    exact .inl ⟨hfinal, rfl⟩
  case isFalse hfinal =>
    simp only [bind_ok, add64_ok, revertIf_ok, return_ok, not_lt] at h
    obtain ⟨_, ⟨-, rfl⟩, _, hwindow, rfl⟩ := h
    rw [uint64_timestamp]
    exact .inr ⟨not_not.mp hfinal, hwindow, rfl⟩

/-- The storage in which the commitment of `(e, b)` is void. -/
def voided (r : ScoringRegistry) (e : Epoch) (b : BrainId) : ScoringRegistry :=
  r.withEpoch e b { r.epochs e b with invalidated := true }

theorem challengeEquivocation_ok {e : Epoch} {b : BrainId} {rootA rootB : Bytes32}
    {sigA sigB : Bytes} {v : Address} {s s' : ScoringState T}
    (h : challengeEquivocation env blk e b rootA sigA rootB sigB v s = .ok s') :
    rootA ≠ rootB ∧ (s.registry.epochs e b).merkleRoot ≠ 0 ∧
      (s.registry.epochs e b).invalidated = false ∧
      s.registry.isCommitmentSigner e b v = true ∧
      (rootA = (s.registry.epochs e b).merkleRoot ∨
        rootB = (s.registry.epochs e b).merkleRoot) ∧
      env.crypto.recover (commitmentDigest env e b rootA) sigA = some v ∧
      env.crypto.recover (commitmentDigest env e b rootB) sigB = some v ∧
      ∃ staking, s' = { s with registry := s.registry.voided e b, staking := staking } ∧
        (s.staking.vault.validatorStake b v = 0 ∧ staking = s.staking ∨
          0 < s.staking.vault.validatorStake b v ∧
          StakingVault.slash env.staking blk env.self b v
            (s.staking.vault.validatorStake b v) s.staking = .ok staking) := by
  unfold challengeEquivocation at h
  simp only [bind_ok, revertIf_ok, orRevert_ok, Bool.not_eq_true, Bool.not_eq_false, not_not,
    not_and_or] at h
  obtain ⟨_, hroots, _, hroot, _, hvalid, _, hsigner, _, hours, _, hA, _, rfl, _, hB, _, rfl,
    h⟩ := h
  refine ⟨hroots, hroot, hvalid, hsigner, hours, hA, hB, ?_⟩
  split at h
  case isTrue hstake =>
    simp only [bind_ok, return_ok] at h
    obtain ⟨staking, hslash, rfl⟩ := h
    exact ⟨staking, rfl, .inr ⟨hstake, hslash⟩⟩
  -- without stake there is nothing to slash, and the challenge still goes through
  case isFalse hstake =>
    cases h
    exact ⟨s.staking, rfl, .inl ⟨Nat.eq_zero_of_not_pos hstake, rfl⟩⟩

/-- A proven equivocation takes the whole pool of the validator on that Brain and
no other pool. -/
theorem challengeEquivocation_stake {e : Epoch} {b : BrainId} {rootA rootB : Bytes32}
    {sigA sigB : Bytes} {v : Address} {s s' : ScoringState T}
    (h : challengeEquivocation env blk e b rootA sigA rootB sigB v s = .ok s') :
    s'.staking.vault.vAssets = set₂ s.staking.vault.vAssets b v 0 := by
  obtain ⟨-, -, -, -, -, -, -, staking, rfl, hslash⟩ := challengeEquivocation_ok h
  rcases hslash with ⟨hzero, rfl⟩ | ⟨hpos, hslash⟩
  · funext b' v'
    rw [set₂_apply]
    split
    case isTrue hpool =>
      obtain ⟨rfl, rfl⟩ := hpool
      exact hzero
    case isFalse => rfl
  · -- slashing all that is staked takes the whole pool
    have hall := StakingVault.slashed_all s.staking.vault b v
    obtain ⟨-, ⟨hnone, -⟩ | ⟨cut, token, total, brain, hcut, -, -, -, -, -, rfl⟩⟩ :=
      StakingVault.slash_ok hslash
    · omega
    · have hzero : s.staking.vault.vAssets b v - cut = 0 := by
        rw [hcut, hall]
        exact Nat.sub_self _
      show set₂ s.staking.vault.vAssets b v _ = _
      rw [hzero]

end ScoringRegistry

end BasedAI
