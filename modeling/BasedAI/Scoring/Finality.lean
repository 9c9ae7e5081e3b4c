import BasedAI.Scoring.ScoringCalls
import BasedAI.Staking.VaultAccounting

/-!
# BasedAI — the life of a commitment

A commitment is accepted, then finalized or voided. This module follows the
record of one (epoch, Brain) through every interleaving of registry and vault
calls.

* `scoringStep_commitment` — everything one step can do to the record;
* `epoch_finality`         — finality, in the runs in which no equivocation is
  proven against a commitment that is already final, and how every other run
  loses it;
* `one_conviction`         — a proven equivocation closes the commitment to all
  later proofs, so only the validator named first is slashed.
-/

namespace BasedAI

open Fallible Mapping Transition ScoringRegistry

/-! ## A toy deployment -/

/-- A registry at address 4 over a vault at address 1, on the toy primitives, in
which a signature on a root `r < 256` by account `a < 256` is `[a, r]`. -/
def toyRegistry : ScoringEnv Ledger where
  crypto := toyCrypto
  staking := ⟨ledgerToken, 1, StakingVault.one_ne_burn⟩
  self := 4
  chainId := 1
  genesisTimestamp := 0

theorem toyRegistry_keccak (e : Epoch) (b : BrainId) (root : Bytes32) :
    toyRegistry.crypto.keccak256 (commitmentPreimage toyRegistry e b root) = root :=
  toyCrypto_keccak_abiEncode [_, _, _, _, _] root

theorem toyRegistry_recover (e : Epoch) (b : BrainId) (root : Bytes32) (sig : Bytes) :
    toyRegistry.crypto.recover
        (toyRegistry.crypto.messageDigest (commitmentPreimage toyRegistry e b root)) sig =
      toyCrypto.recover root sig := by
  have hdigest : toyRegistry.crypto.messageDigest (commitmentPreimage toyRegistry e b root) =
      root :=
    (toyCrypto_toEthSignedMessageHash _).trans (toyRegistry_keccak e b root)
  rw [hdigest]
  rfl

section Steps

variable {T : Type} {env : ScoringEnv T} {s t : ScoringState T} {l : ScoringLabel}

/-- The record of a commitment voided by a proven equivocation. -/
def EpochCommitment.void (c : EpochCommitment) : EpochCommitment :=
  { c with invalidated := true }

/-- Writing one record leaves the others. -/
theorem withEpoch_epochs (r : ScoringRegistry) (e e' : Epoch) (b b' : BrainId)
    (c : EpochCommitment) :
    (r.withEpoch e' b' c).epochs e b = if e = e' ∧ b = b' then c else r.epochs e b := rfl

/-- **One step of a commitment.** A step leaves the record of `(e, b)` as it is,
accepts a first commitment, finalizes an open one, or voids one. -/
theorem scoringStep_commitment (h : ScoringStep env s l t) (e : Epoch) (b : BrainId) :
    t.registry.epochs e b = s.registry.epochs e b ∨
    (∃ blk root signers signatures stake,
      l = .registry blk (.proposeEpoch e b root signers signatures) ∧ root ≠ 0 ∧
      (s.registry.epochs e b).merkleRoot = 0 ∧
      t.registry.epochs e b = accepted blk root signers stake) ∨
    (∃ blk, l = .registry blk (.finalizeEpoch e b) ∧
      (s.registry.epochs e b).merkleRoot ≠ 0 ∧ (s.registry.epochs e b).invalidated = false ∧
      (s.registry.epochs e b).finalizedAt = 0 ∧
      (s.registry.epochs e b).proposedAt + CHALLENGE_WINDOW ≤ blk.timestamp ∧
      t.registry.epochs e b = finalized (s.registry.epochs e b) blk) ∨
    (∃ blk rootA sigA rootB sigB v,
      l = .registry blk (.challengeEquivocation e b rootA sigA rootB sigB v) ∧
      (s.registry.epochs e b).merkleRoot ≠ 0 ∧ (s.registry.epochs e b).invalidated = false ∧
      t.registry.epochs e b = (s.registry.epochs e b).void) := by
  cases h with
  | received => exact .inl rfl
  | vault => exact .inl rfl
  | registry blk c hnow hexec =>
    -- each call writes one commitment, and only of its own epoch and Brain
    cases c with
    | proposeEpoch e' b' root signers signatures =>
      obtain ⟨hroot, -, hprior, -, -, -, -, -, -, rfl⟩ := proposeEpoch_ok hexec
      dsimp only
      rw [withEpoch_epochs, markSigners_epochs]
      split
      case isTrue hkey =>
        obtain ⟨rfl, rfl⟩ := hkey
        exact .inr (.inl ⟨blk, root, signers, signatures, _, rfl, hroot, hprior, rfl⟩)
      case isFalse => exact .inl rfl
    | finalizeEpoch e' b' =>
      obtain ⟨hroot, hvalid, ⟨-, rfl⟩ | ⟨hopen, hwindow, rfl⟩⟩ := finalizeEpoch_ok hexec
      · exact .inl rfl
      · dsimp only
        rw [withEpoch_epochs]
        split
        case isTrue hkey =>
          obtain ⟨rfl, rfl⟩ := hkey
          exact .inr (.inr (.inl ⟨blk, rfl, hroot, hvalid, hopen, hwindow, rfl⟩))
        case isFalse => exact .inl rfl
    | challengeEquivocation e' b' rootA sigA rootB sigB v =>
      obtain ⟨-, hroot, hvalid, -, -, -, -, staking, rfl, -⟩ := challengeEquivocation_ok hexec
      dsimp only
      rw [voided, withEpoch_epochs]
      split
      case isTrue hkey =>
        obtain ⟨rfl, rfl⟩ := hkey
        exact .inr (.inr (.inr ⟨blk, rootA, sigA, rootB, sigB, v, rfl, hroot, hvalid, rfl⟩))
      case isFalse => exact .inl rfl

/-! ## Finality -/

/-- The step is not a proof of equivocation against a commitment that has been
finalized. -/
def ChallengesOpenCommitment (s : ScoringState T) : ScoringLabel → Prop
  | .registry _ (.challengeEquivocation e b ..) => (s.registry.epochs e b).finalizedAt = 0
  | _ => True

/-- No commitment is both final and void. -/
def Final (s : ScoringState T) : Prop :=
  ∀ e b, ¬ ((s.registry.epochs e b).finalizedAt ≠ 0 ∧
    (s.registry.epochs e b).invalidated = true)

/-- Such a step leaves a commitment that is final and valid as it is. -/
theorem scoringStep_keeps_final (h : ScoringStep env s l t) (hopen : ChallengesOpenCommitment s l)
    {e : Epoch} {b : BrainId} (hroot : (s.registry.epochs e b).merkleRoot ≠ 0)
    (hfinal : (s.registry.epochs e b).finalizedAt ≠ 0) :
    t.registry.epochs e b = s.registry.epochs e b := by
  rcases scoringStep_commitment h e b with heq | ⟨_, _, _, _, _, -, -, hzero, -⟩ |
    ⟨_, -, -, -, hzero, -, -⟩ | ⟨blk, rootA, sigA, rootB, sigB, v, rfl, -, -, -⟩
  · exact heq
  · exact absurd hzero hroot
  · exact absurd hzero hfinal
  · exact absurd hopen hfinal

theorem scoringStep_final (h : ScoringStep env s l t) (hopen : ChallengesOpenCommitment s l)
    (hs : Final s) : Final t := by
  intro e b hboth
  rcases scoringStep_commitment h e b with heq | ⟨_, _, _, _, _, -, -, -, heq⟩ |
    ⟨_, -, -, hvalid, -, -, heq⟩ | ⟨blk, rootA, sigA, rootB, sigB, v, rfl, -, -, heq⟩
  · rw [heq] at hboth
    exact hs e b hboth
  · -- a fresh commitment is not final
    rw [heq] at hboth
    exact hboth.1 rfl
  · -- only a valid commitment is finalized
    rw [heq] at hboth
    have hvoid : (s.registry.epochs e b).invalidated = true := hboth.2
    rw [hvalid] at hvoid
    cases hvoid
  · -- an open commitment may be voided, but is not final then
    rw [heq] at hboth
    exact hboth.1 hopen

theorem verifyScore_true {e : Epoch} {b : BrainId} {miner : Address} {score : Fin (2 ^ 256)}
    {proof : List Bytes32} (h : verifyScore env s.registry e b miner score proof = true) :
    (s.registry.epochs e b).merkleRoot ≠ 0 ∧ (s.registry.epochs e b).finalizedAt ≠ 0 := by
  unfold verifyScore at h
  dsimp only at h
  split at h
  case isTrue => cases h
  case isFalse hok =>
    push Not at hok
    exact ⟨hok.1, hok.2.1⟩

/-- A score verified once stays verified. -/
theorem scoringStep_verifyScore (h : ScoringStep env s l t)
    (hopen : ChallengesOpenCommitment s l) {e : Epoch} {b : BrainId} {miner : Address}
    {score : Fin (2 ^ 256)} {proof : List Bytes32}
    (hv : verifyScore env s.registry e b miner score proof = true) :
    verifyScore env t.registry e b miner score proof = true := by
  obtain ⟨hroot, hfinal⟩ := verifyScore_true hv
  have heq := scoringStep_keeps_final h hopen hroot hfinal
  unfold verifyScore at hv ⊢
  rw [heq]
  exact hv

/-- A proof against a final commitment voids it. -/
theorem scoringStep_loses_final (h : ScoringStep env s l t)
    (hlate : ¬ ChallengesOpenCommitment s l) : ¬ Final t := by
  cases h with
  | received => exact absurd trivial hlate
  | vault => exact absurd trivial hlate
  | registry blk c hnow hexec =>
    cases c with
    | proposeEpoch => exact absurd trivial hlate
    | finalizeEpoch => exact absurd trivial hlate
    | challengeEquivocation e b rootA sigA rootB sigB v =>
      obtain ⟨-, -, -, -, -, -, -, staking, rfl, -⟩ := challengeEquivocation_ok hexec
      intro hfinal
      apply hfinal e b
      dsimp only
      rw [voided, withEpoch_epochs, if_pos ⟨rfl, rfl⟩]
      exact ⟨hlate, rfl⟩

end Steps

/--
**Finality.** As long as no equivocation is proven against a commitment that is
already final, no commitment is both final and void, and a score that verifies
keeps verifying. A single proof against a final commitment destroys both: the
registry does not look at `finalizedAt` when it accepts a proof.
-/
theorem epoch_finality {T : Type} {env : ScoringEnv T} {now : Nat} {t₀ : T} {admin : Address}
    {ls : List ScoringLabel} {s : ScoringState T}
    (h : Run (restrict (ScoringStep env) ChallengesOpenCommitment)
      (.deploy now t₀ admin) ls s) :
    Final s ∧
    (∀ ks t, Run (restrict (ScoringStep env) ChallengesOpenCommitment) s ks t →
      ∀ e b miner score proof, verifyScore env s.registry e b miner score proof = true →
        verifyScore env t.registry e b miner score proof = true) ∧
    (∀ l t, ScoringStep env s l t → ¬ ChallengesOpenCommitment s l → ¬ Final t) := by
  refine ⟨?_, ?_, fun l t => scoringStep_loses_final⟩
  · refine h.invariant (I := Final) (fun hstep => scoringStep_final hstep.1 hstep.2) ?_
    intro e b hboth
    exact hboth.1 rfl
  · intro ks t hrun e b miner score proof hv
    exact hrun.invariant
      (I := fun u => verifyScore env u.registry e b miner score proof = true)
      (fun hstep => scoringStep_verifyScore hstep.1 hstep.2) hv

set_option maxRecDepth 40000 in
/-- A final score of 5 for miner 8, after validator 7 proposed it alone. -/
theorem epoch_finality_finalized :
    ∃ s : ScoringState Ledger, (s.registry.epochs 0 3).finalizedAt = 7200 ∧
      verifyScore toyRegistry s.registry 0 3 8 5 [] = true ∧ Final s := by
  refine ⟨_, ?_, ?_, (@epoch_finality Ledger toyRegistry 0 toyLedger 9 _ _
    (.cons ⟨.vault ⟨200, by decide⟩ 2 (.stake 3 7 1000) (by decide) (by decide)
      (by decide) rfl, trivial⟩
    (.cons ⟨.registry ⟨3600, by decide⟩ (.proposeEpoch 0 3 5 [7] [[7, 5]]) (by decide) rfl,
      trivial⟩
    (.cons ⟨.registry ⟨7200, by decide⟩ (.finalizeEpoch 0 3) (by decide) rfl, trivial⟩
    (.nil _))))).1⟩
  · rfl
  · rfl

set_option maxRecDepth 40000 in
/-- The same score lost: a second after the commitment became final, validator 7's
signature on another root voids it. -/
theorem epoch_finality_lost :
    ∃ ls s l t, Run (ScoringStep toyRegistry) (.deploy 0 toyLedger 9) ls s ∧
      verifyScore toyRegistry s.registry 0 3 8 5 [] = true ∧ ScoringStep toyRegistry s l t ∧
      (t.registry.epochs 0 3).finalizedAt ≠ 0 ∧ (t.registry.epochs 0 3).invalidated = true ∧
      verifyScore toyRegistry t.registry 0 3 8 5 [] = false := by
  refine ⟨_, _, _, _,
    .cons (.vault ⟨100, by decide⟩ 9 (.grantRole .slasher 4) (by decide) (by decide)
      (by decide) rfl)
    (.cons (.vault ⟨200, by decide⟩ 2 (.stake 3 7 1000) (by decide) (by decide)
      (by decide) rfl)
    (.cons (.registry ⟨3600, by decide⟩ (.proposeEpoch 0 3 5 [7] [[7, 5]]) (by decide) rfl)
    (.cons (.registry ⟨7200, by decide⟩ (.finalizeEpoch 0 3) (by decide) rfl) (.nil _)))),
    ?_,
    -- the proof of the equivocation
    .registry ⟨7201, by decide⟩ (.challengeEquivocation 0 3 5 [7, 5] 6 [7, 6] 7) (by decide)
      rfl, ?_, ?_, ?_⟩
  · rfl
  · decide
  · rfl
  · rfl

/-! ## One conviction a commitment -/

/-- A void commitment stays void. -/
theorem scoringStep_void {T : Type} {env : ScoringEnv T} {s t : ScoringState T}
    {l : ScoringLabel} (h : ScoringStep env s l t) {e : Epoch} {b : BrainId}
    (hs : (s.registry.epochs e b).merkleRoot ≠ 0 ∧
      (s.registry.epochs e b).invalidated = true) :
    (t.registry.epochs e b).merkleRoot ≠ 0 ∧ (t.registry.epochs e b).invalidated = true := by
  rcases scoringStep_commitment h e b with heq | ⟨_, _, _, _, _, -, -, hzero, -⟩ |
    ⟨_, -, -, hvalid, -⟩ | ⟨_, _, _, _, _, _, -, hroot, -, heq⟩
  · rw [heq]
    exact hs
  · exact absurd hzero hs.1
  · rw [hs.2] at hvalid
    cases hvalid
  · rw [heq]
    exact ⟨hroot, rfl⟩

/-- A proof of two distinct roots against a void commitment is turned away. -/
theorem challenge_void {T : Type} {env : ScoringEnv T} {blk : Block} {e : Epoch}
    {b : BrainId} {rootA rootB : Bytes32} {sigA sigB : Bytes} {v : Address}
    {s : ScoringState T} (hs : (s.registry.epochs e b).merkleRoot ≠ 0 ∧
      (s.registry.epochs e b).invalidated = true) (hroots : rootA ≠ rootB) :
    challengeEquivocation env blk e b rootA sigA rootB sigB v s =
      .error .epochAlreadyInvalidated := by
  unfold challengeEquivocation
  simp [revertIf, hroots, hs.1, hs.2]
  rfl

section Conviction

variable {T : Type} {env : ScoringEnv T} {blk : Block} {e : Epoch} {b : BrainId}
  {rootA rootB : Bytes32} {sigA sigB : Bytes} {u : Address} {s t : ScoringState T}

/-- A proven equivocation voids the commitment. -/
theorem challengeStep_void (h : ScoringStep env s
      (.registry blk (.challengeEquivocation e b rootA sigA rootB sigB u)) t) :
    (t.registry.epochs e b).merkleRoot ≠ 0 ∧ (t.registry.epochs e b).invalidated = true := by
  cases h with
  | registry _ _ hnow hexec =>
    obtain ⟨-, hroot, -, -, -, -, -, staking, rfl, -⟩ := challengeEquivocation_ok hexec
    dsimp only
    rw [voided, withEpoch_epochs, if_pos ⟨rfl, rfl⟩]
    exact ⟨hroot, rfl⟩

/-- A proven equivocation empties the pool it names. -/
theorem challengeStep_stake (h : ScoringStep env s
      (.registry blk (.challengeEquivocation e b rootA sigA rootB sigB u)) t) :
    t.staking.vault.validatorStake = set₂ s.staking.vault.validatorStake b u 0 := by
  cases h with
  | registry _ _ hnow hexec =>
    have hpools := challengeEquivocation_stake hexec
    exact hpools

/--
**One conviction.** A proven equivocation slashes the whole pool of the
validator it names, and no other pool. It also closes the commitment: in every
later state every proof against it, of whatever validator, reverts. Of two
equivocators only the one named first is slashed, whichever that is.
-/
theorem one_conviction (h : ScoringStep env s
      (.registry blk (.challengeEquivocation e b rootA sigA rootB sigB u)) t) :
    t.staking.vault.validatorStake b u = 0 ∧
    (∀ v, v ≠ u → t.staking.vault.validatorStake b v = s.staking.vault.validatorStake b v) ∧
    ∀ ls t', Run (ScoringStep env) t ls t' → ∀ blk' rootA' sigA' rootB' sigB' v,
      rootA' ≠ rootB' →
      challengeEquivocation env blk' e b rootA' sigA' rootB' sigB' v t' =
        .error .epochAlreadyInvalidated := by
  have hpools := challengeStep_stake h
  refine ⟨?_, ?_, ?_⟩
  · rw [hpools, set₂_same]
  · intro v hne
    rw [hpools, set₂_of_ne _ _ fun hkey => hne hkey.2]
  · intro ls t' hrun blk' rootA' sigA' rootB' sigB' v hroots
    -- an invalidated commitment stays invalidated
    refine challenge_void ?_ hroots
    exact hrun.invariant (I := fun x => (x.registry.epochs e b).merkleRoot ≠ 0 ∧
      (x.registry.epochs e b).invalidated = true) (fun hstep => scoringStep_void hstep)
      (challengeStep_void h)

end Conviction

set_option maxRecDepth 40000 in
/-- Validators 7 and 8 both signed roots 5 and 6, and the registry would accept
the proof against either. -/
theorem toy_equivocators :
    ∃ ls s t, Run (ScoringStep toyRegistry) (.deploy 0 toyLedger 9) ls s ∧
      s.staking.vault.validatorStake 3 7 = 1000 ∧ s.staking.vault.validatorStake 3 8 = 500 ∧
      (challengeEquivocation toyRegistry ⟨3700, by decide⟩ 0 3 5 [8, 5] 6 [8, 6] 8 s).isOk ∧
      ScoringStep toyRegistry s (.registry ⟨3700, by decide⟩
        (.challengeEquivocation 0 3 5 [7, 5] 6 [7, 6] 7)) t := by
  refine ⟨_, _, _,
    .cons (.vault ⟨100, by decide⟩ 9 (.grantRole .slasher 4) (by decide) (by decide)
      (by decide) rfl)
    (.cons (.vault ⟨200, by decide⟩ 2 (.stake 3 7 1000) (by decide) (by decide)
      (by decide) rfl)
    (.cons (.vault ⟨300, by decide⟩ 2 (.stake 3 8 500) (by decide) (by decide)
      (by decide) rfl)
    (.cons (.registry ⟨3600, by decide⟩ (.proposeEpoch 0 3 5 [7, 8] [[7, 5], [8, 5]])
      (by decide) rfl) (.nil _)))), ?_, ?_, ?_, .registry _ _ (by decide) rfl⟩
  · rfl
  · rfl
  · rfl

/-- Once 7 is convicted, the proof against 8 that the registry would have accepted
reverts, and 8 keeps its 500. -/
theorem second_equivocator_escapes :
    ∃ ls s t, Run (ScoringStep toyRegistry) (.deploy 0 toyLedger 9) ls s ∧
      (challengeEquivocation toyRegistry ⟨3700, by decide⟩ 0 3 5 [8, 5] 6 [8, 6] 8 s).isOk ∧
      ScoringStep toyRegistry s (.registry ⟨3700, by decide⟩
        (.challengeEquivocation 0 3 5 [7, 5] 6 [7, 6] 7)) t ∧
      challengeEquivocation toyRegistry ⟨3700, by decide⟩ 0 3 5 [8, 5] 6 [8, 6] 8 t =
        .error .epochAlreadyInvalidated ∧
      t.staking.vault.validatorStake 3 8 = 500 := by
  obtain ⟨ls, s, t, hrun, -, hstake, hok, hstep⟩ := toy_equivocators
  refine ⟨ls, s, t, hrun, hok, hstep, ?_, ?_⟩
  · exact challenge_void (challengeStep_void hstep) (by decide)
  · rw [challengeStep_stake hstep, set₂_of_ne _ _ (by decide)]
    exact hstake

/-- Validator 7 convicted, validator 8 out of reach. -/
theorem one_conviction_first :
    ∃ s t : ScoringState Ledger, s.staking.vault.validatorStake 3 7 = 1000 ∧
      t.staking.vault.validatorStake 3 7 = 0 ∧
      challengeEquivocation toyRegistry ⟨3700, by decide⟩ 0 3 5 [8, 5] 6 [8, 6] 8 t =
        .error .epochAlreadyInvalidated := by
  obtain ⟨ls, s, t, -, hstake, -, -, hstep⟩ := toy_equivocators
  have hconviction := one_conviction hstep
  exact ⟨s, t, hstake, hconviction.1,
    hconviction.2.2 [] t (.nil t) _ 5 [8, 5] 6 [8, 6] 8 (by decide)⟩

end BasedAI
