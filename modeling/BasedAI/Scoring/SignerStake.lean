import BasedAI.Scoring.Finality

/-!
# BasedAI — what a signer has at stake

`proposeEpoch` takes any list of signers whose stakes add up to a quorum. A
signer on the list can later void the commitment by equivocating, so it should
have something to lose. The registry does not check that: a signer without stake
adds nothing to the sum but is marked all the same.

* `scoringStep_marks` — a signer is only ever marked by an accepted proposal
  that lists it;
* `staked_signers`    — where every signer of every proposal has stake, every
  marked signer put stake behind its commitment, and whoever never had any
  cannot void one.
-/

namespace BasedAI

open Fallible Mapping Transition ScoringRegistry

section Steps

variable {T : Type} {env : ScoringEnv T} {s t : ScoringState T} {l : ScoringLabel}

/-- Marks come from accepted proposals only. -/
theorem scoringStep_marks (h : ScoringStep env s l t) {e : Epoch} {b : BrainId} {v : Address}
    (hmark : t.registry.isCommitmentSigner e b v = true) :
    s.registry.isCommitmentSigner e b v = true ∨
      ∃ blk root signers signatures,
        l = .registry blk (.proposeEpoch e b root signers signatures) ∧ v ∈ signers := by
  cases h with
  | received => exact .inl hmark
  | vault => exact .inl hmark
  | registry blk c hnow hexec =>
    cases c with
    | proposeEpoch e' b' root signers signatures =>
      obtain ⟨-, -, -, -, -, -, -, -, -, rfl⟩ := proposeEpoch_ok hexec
      -- a proposal marks its signers, and nobody else
      have hold := (markSigners_signer s.registry e' e b' b root signers v).mp hmark
      rcases hold with hold | ⟨rfl, rfl, hv⟩
      · exact .inl hold
      · exact .inr ⟨blk, root, signers, signatures, rfl, hv⟩
    | finalizeEpoch e' b' =>
      obtain ⟨-, -, ⟨-, rfl⟩ | ⟨-, -, rfl⟩⟩ := finalizeEpoch_ok hexec
      · exact .inl hmark
      · exact .inl hmark
    | challengeEquivocation e' b' rootA sigA rootB sigB w =>
      obtain ⟨-, -, -, -, -, -, -, staking, rfl, -⟩ := challengeEquivocation_ok hexec
      exact .inl hmark

/-- The root and the stake of an accepted commitment never change. -/
theorem scoringStep_accepted (h : ScoringStep env s l t) {e : Epoch} {b : BrainId}
    {root : Bytes32} {stake : Nat} (hroot : root ≠ 0)
    (hs : (s.registry.epochs e b).merkleRoot = root ∧
      (s.registry.epochs e b).signerStake = stake) :
    (t.registry.epochs e b).merkleRoot = root ∧
      (t.registry.epochs e b).signerStake = stake := by
  rcases scoringStep_commitment h e b with heq | ⟨_, _, _, _, _, -, -, hzero, -⟩ |
    ⟨_, -, -, -, -, -, heq⟩ | ⟨_, _, _, _, _, _, -, -, -, heq⟩
  · rw [heq]
    exact hs
  · exact absurd (hs.1.symm.trans hzero) hroot
  · rw [heq]
    exact hs
  · rw [heq]
    exact hs

/-- What an accepted proposal records of its signers. -/
theorem proposeStep_signers {blk : Block} {e : Epoch} {b : BrainId} {root : Bytes32}
    {signers : List Address} {signatures : List Bytes}
    (h : ScoringStep env s (.registry blk (.proposeEpoch e b root signers signatures)) t) :
    root ≠ 0 ∧ signers.Nodup ∧ (t.registry.epochs e b).merkleRoot = root ∧
      (t.registry.epochs e b).signerStake =
        (signers.map (s.staking.vault.validatorStake b)).sum ∧
      ∀ v ∈ signers, t.registry.isCommitmentSigner e b v = true := by
  cases h with
  | registry _ _ hnow hexec =>
    obtain ⟨hroot, -, -, -, -, hsorted, -, -, -, rfl⟩ := proposeEpoch_ok hexec
    have hnodup : signers.Nodup :=
      (List.pairwise_cons.mp hsorted).2.imp fun hlt => ne_of_lt hlt
    dsimp only
    rw [withEpoch_epochs, if_pos ⟨rfl, rfl⟩]
    refine ⟨hroot, hnodup, rfl, rfl, fun v hv => ?_⟩
    exact (markSigners_signer s.registry e e b b root signers v).mpr (.inr ⟨rfl, rfl, hv⟩)

end Steps

/-! ## Stake behind every mark -/

section Stake

variable {T : Type} {env : ScoringEnv T}

/-- Every signer a proposal lists has stake on its Brain. -/
def ProposesStaked (s : ScoringState T) : ScoringLabel → Prop
  | .registry _ (.proposeEpoch _ b _ signers _) =>
    ∀ v ∈ signers, 0 < s.staking.vault.validatorStake b v
  | _ => True

/-- Along the run `ls` from `s₀` to `s`, `v` put stake behind the commitment that
`(e, b)` has in `s`: it is one of the signers, listed once, of the proposal that
was accepted, and its stake at that time is one of the positive terms of the
recorded sum. -/
def Contributed (env : ScoringEnv T) (s₀ : ScoringState T) (ls : List ScoringLabel)
    (s : ScoringState T) (e : Epoch) (b : BrainId) (v : Address) : Prop :=
  ∃ blk root signers signatures p q,
    Along (ScoringStep env) s₀ ls s p
      (.registry blk (.proposeEpoch e b root signers signatures)) q ∧
    signers.Nodup ∧ v ∈ signers ∧ 0 < p.staking.vault.validatorStake b v ∧
    (s.registry.epochs e b).merkleRoot = root ∧
    (s.registry.epochs e b).signerStake =
      (signers.map (p.staking.vault.validatorStake b)).sum

/-- `v` has no stake on `b` in any state the run `ls` from `s₀` to `s` leaves. -/
def NeverStaked (env : ScoringEnv T) (s₀ : ScoringState T) (ls : List ScoringLabel)
    (s : ScoringState T) (b : BrainId) (v : Address) : Prop :=
  ∀ p l q, Along (ScoringStep env) s₀ ls s p l q → p.staking.vault.validatorStake b v = 0

theorem contributed_of_mark {now : Nat} {t₀ : T} {admin : Address} {ls : List ScoringLabel}
    {s : ScoringState T}
    (h : Run (restrict (ScoringStep env) ProposesStaked) (.deploy now t₀ admin) ls s)
    {e : Epoch} {b : BrainId} {v : Address}
    (hmark : s.registry.isCommitmentSigner e b v = true) :
    Contributed env (.deploy now t₀ admin) ls s e b v := by
  -- nobody is marked at deployment, so some step of the run set this mark
  obtain ⟨p, l, q, halong, hunmarked, hmarked⟩ :=
    h.exists_step (P := fun u => u.registry.isCommitmentSigner e b v = true)
      Bool.false_ne_true hmark
  obtain ⟨hstep, hstaked⟩ := halong.taken
  obtain hold | ⟨blk, root, signers, signatures, rfl, hv⟩ := scoringStep_marks hstep hmarked
  · exact absurd hold hunmarked
  · obtain ⟨hroot, hnodup, hq, hstake, -⟩ := proposeStep_signers hstep
    -- and what the proposal recorded has not changed since
    obtain ⟨_, post, -, -, -, hpost⟩ := halong.of_restrict
    have hkept := hpost.invariant
      (I := fun u => (u.registry.epochs e b).merkleRoot = root ∧
        (u.registry.epochs e b).signerStake =
          (signers.map (p.staking.vault.validatorStake b)).sum)
      (fun hs => scoringStep_accepted hs hroot) ⟨hq, hstake⟩
    exact ⟨blk, root, signers, signatures, p, q, halong.of_restrict, hnodup, hv,
      hstaked v hv, hkept.1, hkept.2⟩

/--
**No costless invalidation.** In a run in which every proposal lists only signers
with stake, every marked signer put stake behind the accepted commitment, so
that an address which never had stake on the Brain cannot void one. A single
accepted proposal with a signer without stake marks a signer that put nothing
behind it.
-/
theorem staked_signers {now : Nat} {t₀ : T} {admin : Address} {ls : List ScoringLabel}
    {s : ScoringState T}
    (h : Run (restrict (ScoringStep env) ProposesStaked) (.deploy now t₀ admin) ls s) :
    (∀ e b v, s.registry.isCommitmentSigner e b v = true →
      Contributed env (.deploy now t₀ admin) ls s e b v) ∧
    (∀ b v, NeverStaked env (.deploy now t₀ admin) ls s b v →
      ∀ blk e rootA sigA rootB sigB t,
        challengeEquivocation env blk e b rootA sigA rootB sigB v s ≠ .ok t) ∧
    (∀ l t, ScoringStep env s l t → ¬ ProposesStaked s l →
      ∃ blk e b root signers signatures v,
        l = .registry blk (.proposeEpoch e b root signers signatures) ∧ v ∈ signers ∧
        t.registry.isCommitmentSigner e b v = true ∧
        s.staking.vault.validatorStake b v = 0) := by
  refine ⟨fun e b v => contributed_of_mark h, ?_, ?_⟩
  · intro b v hnever blk e rootA sigA rootB sigB t hexec
    obtain ⟨-, -, -, hmark, -, -, -, -⟩ := challengeEquivocation_ok hexec
    -- a mark comes from a proposal its signer had stake for
    obtain ⟨_, _, _, _, p, q, halong, -, -, hpos, -, -⟩ := contributed_of_mark h hmark
    have hzero := hnever p _ q halong
    omega
  · intro l t hstep hunstaked
    cases l with
    | received => exact absurd trivial hunstaked
    | vault => exact absurd trivial hunstaked
    | registry blk c =>
      cases c with
      | finalizeEpoch => exact absurd trivial hunstaked
      | challengeEquivocation => exact absurd trivial hunstaked
      | proposeEpoch e b root signers signatures =>
        -- the contract itself asks no signer for stake
        unfold ProposesStaked at hunstaked
        push Not at hunstaked
        obtain ⟨v, hv, hzero⟩ := hunstaked
        obtain ⟨-, -, -, -, hmarks⟩ := proposeStep_signers hstep
        exact ⟨blk, e, b, root, signers, signatures, v, rfl, hv, hmarks v hv,
          Nat.le_zero.mp hzero⟩

end Stake

set_option maxRecDepth 40000 in
/-- Validators 7 and 8, both staked, sign root 5. -/
theorem staked_signers_two :
    ∃ ls s, s.registry.isCommitmentSigner 0 3 8 = true ∧
      Contributed toyRegistry (.deploy 0 toyLedger 9) ls s 0 3 8 := by
  refine ⟨_, _, ?_, (@staked_signers Ledger toyRegistry 0 toyLedger 9 _ _
    (.cons ⟨.vault ⟨200, by decide⟩ 2 (.stake 3 7 1000) (by decide) (by decide)
      (by decide) rfl, trivial⟩
    (.cons ⟨.vault ⟨300, by decide⟩ 2 (.stake 3 8 500) (by decide) (by decide)
      (by decide) rfl, trivial⟩
    (.cons ⟨.registry ⟨3600, by decide⟩ (.proposeEpoch 0 3 5 [7, 8] [[7, 5], [8, 5]])
      (by decide) rfl, List.forall_mem_cons.mpr ⟨Nat.succ_pos 999,
        List.forall_mem_singleton.mpr (Nat.succ_pos 499)⟩⟩ (.nil _))))).1 0 3 8 ?_⟩
  · rfl
  · rfl

set_option maxRecDepth 40000 in
/-- Address 8 never has any stake. The proposer lists it behind validator 7, who
holds the quorum alone, and 8 voids the commitment with two signatures; no pool
moves. -/
theorem costless_invalidation :
    ∃ ls s t, Run (restrict (ScoringStep toyRegistry)
        (fun u _ => u.staking.vault.validatorStake 3 8 = 0)) (.deploy 0 toyLedger 9) ls s ∧
      s.staking.vault.validatorStake 3 8 = 0 ∧
      s.registry.isCommitmentSigner 0 3 8 = true ∧
      ScoringStep toyRegistry s (.registry ⟨3700, by decide⟩
        (.challengeEquivocation 0 3 5 [8, 5] 6 [8, 6] 8)) t ∧
      (t.registry.epochs 0 3).invalidated = true ∧
      t.staking.vault.validatorStake = s.staking.vault.validatorStake := by
  refine ⟨_, _, _,
    -- address 8 is listed behind validator 7, whose stake alone carries the commitment
    .cons ⟨.vault ⟨200, by decide⟩ 2 (.stake 3 7 1000) (by decide) (by decide)
      (by decide) rfl, rfl⟩
    (.cons ⟨.registry ⟨3600, by decide⟩ (.proposeEpoch 0 3 5 [7, 8] [[7, 5], [8, 5]])
      (by decide) rfl, rfl⟩ (.nil _)), ?_, ?_, .registry _ _ (by decide) rfl, ?_, ?_⟩
  · rfl
  · rfl
  · rfl
  · rfl

end BasedAI
