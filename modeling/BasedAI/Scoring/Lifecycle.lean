import BasedAI.Lib.WeightedQuorum
import BasedAI.Scoring.Finality

/-!
# BasedAI — the lifecycle of a commitment

Three entry points that anyone may call write the record of one (epoch, Brain), and
the signer tables are written signer by signer, before the quorum is known. This
module ties the three mappings together over whole runs: a record is written once,
finalized at most once, voided for good, and the signer tables hold the signers of
the one accepted proposal.

`signerCount` is the number of signers on 32 bits, which is the number itself for
every list a transaction has room for.

* `SignedBy`           — the tables are those of a commitment with these signers;
* `scoringStep_tables` — everything one step can do to the tables;
* `LifecycleInv`       — no mark without a root, the invariant of the tables;
* `epoch_lifecycle`    — the lifecycle, over every run.
-/

namespace BasedAI

open Fallible Mapping Transition ScoringRegistry WeightedQuorum

/-- A transaction that calls `c`: a revert undoes everything the call wrote. -/
def ScoringCall.transact {T : Type} (env : ScoringEnv T) (blk : Block) (s : ScoringState T)
    (c : ScoringCall) : ScoringState T :=
  match c.exec env blk s with
  | .ok s' => s'
  | .error _ => s

/-- The tables of `(e, b)` are those of a commitment accepted with `signers`. -/
structure SignedBy (r : ScoringRegistry) (e : Epoch) (b : BrainId) (signers : List Address) :
    Prop where
  nodup : signers.Nodup
  count : (r.epochs e b).signerCount = uint32 signers.length
  marked : ∀ v, r.isCommitmentSigner e b v = true ↔ v ∈ signers
  roots : ∀ v ∈ signers, r.signedRoots e b v = (r.epochs e b).merkleRoot

/-! ## What a proposal writes to the tables -/

/-- The loop writes the root of every signer of the list and of no one else. -/
theorem markSigners_roots (r : ScoringRegistry) (e e' : Epoch) (b b' : BrainId)
    (root : Bytes32) (signers : List Address) (v : Address) :
    (r.markSigners e b root signers).signedRoots e' b' v =
      if e' = e ∧ b' = b ∧ v ∈ signers then root else r.signedRoots e' b' v := by
  induction signers generalizing r with
  | nil => simp [markSigners]
  | cons u rest ih =>
    show ((r.markSigner e b root u).markSigners e b root rest).signedRoots e' b' v = _
    rw [ih]
    by_cases hrest : e' = e ∧ b' = b ∧ v ∈ rest
    · have hmem : e' = e ∧ b' = b ∧ v ∈ u :: rest :=
        ⟨hrest.1, hrest.2.1, List.mem_cons_of_mem u hrest.2.2⟩
      rw [if_pos hrest, if_pos hmem]
    · -- then only the first signer of the list can be `v`
      rw [if_neg hrest]
      show set₃ r.signedRoots e b u root e' b' v = _
      rw [set₃_apply]
      have hiff : (e' = e ∧ b' = b ∧ v = u) ↔ e' = e ∧ b' = b ∧ v ∈ u :: rest := by
        rw [List.mem_cons]
        tauto
      simp only [hiff]

section Steps

variable {T : Type} {env : ScoringEnv T} {s t : ScoringState T} {l : ScoringLabel}
  {e : Epoch} {b : BrainId}

/-- The tables of `(e, b)` are the same in both states. -/
def SameTables (r r' : ScoringRegistry) (e : Epoch) (b : BrainId) : Prop :=
  (∀ v, r'.isCommitmentSigner e b v = r.isCommitmentSigner e b v) ∧
    ∀ v, r'.signedRoots e b v = r.signedRoots e b v

/-- **One step of the tables.** A step leaves the tables of `(e, b)` as they are, or
accepts a first commitment in an epoch that is over and marks its signers. -/
theorem scoringStep_tables (h : ScoringStep env s l t) (e : Epoch) (b : BrainId) :
    SameTables s.registry t.registry e b ∨
    ∃ blk root signers signatures,
      l = .registry blk (.proposeEpoch e b root signers signatures) ∧ root ≠ 0 ∧
      e.val < currentEpoch env blk ∧ (s.registry.epochs e b).merkleRoot = 0 ∧
      signers.Nodup ∧
      t.registry.epochs e b = accepted blk root signers
        (signers.map (s.staking.vault.validatorStake b)).sum ∧
      (∀ v, t.registry.isCommitmentSigner e b v = true ↔
        s.registry.isCommitmentSigner e b v = true ∨ v ∈ signers) ∧
      ∀ v ∈ signers, t.registry.signedRoots e b v = root := by
  cases h with
  | received => exact .inl ⟨fun _ => rfl, fun _ => rfl⟩
  | vault => exact .inl ⟨fun _ => rfl, fun _ => rfl⟩
  | registry blk c hnow hexec =>
    cases c with
    | finalizeEpoch e' b' =>
      obtain ⟨-, -, ⟨-, rfl⟩ | ⟨-, -, rfl⟩⟩ := finalizeEpoch_ok hexec
      · exact .inl ⟨fun _ => rfl, fun _ => rfl⟩
      · exact .inl ⟨fun _ => rfl, fun _ => rfl⟩
    | challengeEquivocation e' b' rootA sigA rootB sigB v =>
      obtain ⟨-, -, -, -, -, -, -, staking, rfl, -⟩ := challengeEquivocation_ok hexec
      exact .inl ⟨fun _ => rfl, fun _ => rfl⟩
    | proposeEpoch e' b' root signers signatures =>
      obtain ⟨hroot, hepoch, hprior, -, -, hsorted, -, -, -, rfl⟩ := proposeEpoch_ok hexec
      have hmarks := fun v => markSigners_signer s.registry e' e b' b root signers v
      have hroots := fun v => markSigners_roots s.registry e' e b' b root signers v
      by_cases hkey : e = e' ∧ b = b'
      · obtain ⟨rfl, rfl⟩ := hkey
        refine .inr ⟨blk, root, signers, signatures, rfl, hroot, hepoch, hprior, ?_, ?_, ?_, ?_⟩
        · exact (List.pairwise_cons.mp hsorted).2.imp fun hlt => ne_of_lt hlt
        · exact if_pos ⟨rfl, rfl⟩
        · intro v
          refine (hmarks v).trans ?_
          tauto
        · intro v hv
          exact (hroots v).trans (if_pos ⟨rfl, rfl, hv⟩)
      · -- a proposal for another pair writes other entries
        refine .inl ⟨fun v => ?_, fun v => ?_⟩
        · have hiff := hmarks v
          have hother : ¬ (e = e' ∧ b = b' ∧ v ∈ signers) := fun h => hkey ⟨h.1, h.2.1⟩
          rw [or_iff_left hother] at hiff
          exact Bool.eq_iff_iff.mpr hiff
        · exact (hroots v).trans (if_neg fun h => hkey ⟨h.1, h.2.1⟩)

/-! ## The record -/

/-- What a commitment keeps once it is accepted. -/
def EpochCommitment.terms (c : EpochCommitment) : Bytes32 × Nat × Nat × Nat :=
  (c.merkleRoot, c.proposedAt, c.signerCount, c.signerStake)

/-- Once a commitment is accepted a step finalizes it, voids it or leaves it alone. -/
theorem scoringStep_accepted_record (h : ScoringStep env s l t)
    (hroot : (s.registry.epochs e b).merkleRoot ≠ 0) :
    t.registry.epochs e b = s.registry.epochs e b ∨
    (∃ blk, (s.registry.epochs e b).finalizedAt = 0 ∧
      t.registry.epochs e b = finalized (s.registry.epochs e b) blk) ∨
    t.registry.epochs e b = (s.registry.epochs e b).void := by
  rcases scoringStep_commitment h e b with heq | ⟨_, _, _, _, _, -, -, hzero, -⟩ |
    ⟨blk, -, -, -, hopen, -, heq⟩ | ⟨_, _, _, _, _, _, -, -, -, heq⟩
  · exact .inl heq
  · exact absurd hzero hroot
  · exact .inr (.inl ⟨blk, hopen, heq⟩)
  · exact .inr (.inr heq)

theorem scoringStep_terms (h : ScoringStep env s l t)
    (hroot : (s.registry.epochs e b).merkleRoot ≠ 0) :
    (t.registry.epochs e b).terms = (s.registry.epochs e b).terms := by
  rcases scoringStep_accepted_record h hroot with heq | ⟨_, -, heq⟩ | heq
  · rw [heq]
  · rw [heq]
    rfl
  · rw [heq]
    rfl

theorem scoringStep_root (h : ScoringStep env s l t)
    (hroot : (s.registry.epochs e b).merkleRoot ≠ 0) :
    (t.registry.epochs e b).merkleRoot = (s.registry.epochs e b).merkleRoot :=
  congrArg (fun terms => terms.1) (scoringStep_terms h hroot)

theorem scoringStep_signerCount (h : ScoringStep env s l t)
    (hroot : (s.registry.epochs e b).merkleRoot ≠ 0) :
    (t.registry.epochs e b).signerCount = (s.registry.epochs e b).signerCount :=
  congrArg (fun terms => terms.2.2.1) (scoringStep_terms h hroot)

/-- A time of finalization that is set stays set. -/
theorem scoringStep_finalizedAt (h : ScoringStep env s l t)
    (hroot : (s.registry.epochs e b).merkleRoot ≠ 0)
    (hfinal : (s.registry.epochs e b).finalizedAt ≠ 0) :
    (t.registry.epochs e b).finalizedAt = (s.registry.epochs e b).finalizedAt := by
  rcases scoringStep_accepted_record h hroot with heq | ⟨_, hopen, -⟩ | heq
  · rw [heq]
  · exact absurd hopen hfinal
  · rw [heq]
    rfl

theorem scoringStep_invalidated (h : ScoringStep env s l t)
    (hroot : (s.registry.epochs e b).merkleRoot ≠ 0)
    (hvoid : (s.registry.epochs e b).invalidated = true) :
    (t.registry.epochs e b).invalidated = true := by
  rcases scoringStep_accepted_record h hroot with heq | ⟨_, -, heq⟩ | heq
  · rw [heq]
    exact hvoid
  · rw [heq]
    exact hvoid
  · rw [heq]
    rfl

/-! ## The invariant -/

/-- A pair without a root has no signers, no time of finalization and is not void. -/
structure LifecycleInv (r : ScoringRegistry) : Prop where
  marks : ∀ e b v, r.isCommitmentSigner e b v = true → (r.epochs e b).merkleRoot ≠ 0
  fresh : ∀ e b, (r.epochs e b).merkleRoot = 0 →
    (r.epochs e b).finalizedAt = 0 ∧ (r.epochs e b).invalidated = false

theorem lifecycleInv_deploy : LifecycleInv .deploy where
  marks _ _ _ h := nomatch h
  fresh _ _ _ := ⟨rfl, rfl⟩

theorem scoringStep_lifecycleInv (h : ScoringStep env s l t) (hs : LifecycleInv s.registry) :
    LifecycleInv t.registry where
  marks e b v hmark := by
    -- a mark is set together with the root
    rcases scoringStep_tables h e b with ⟨hmarks, -⟩ |
      ⟨blk, root, signers, signatures, -, hroot, -, -, -, heq, -, -⟩
    · rw [hmarks v] at hmark
      have hroot := hs.marks e b v hmark
      rw [scoringStep_root h hroot]
      exact hroot
    · rw [heq]
      exact hroot
  fresh e b hzero := by
    rcases scoringStep_commitment h e b with heq | ⟨_, _, _, _, _, -, hroot, -, heq⟩ |
      ⟨_, -, hroot, -, -, -, heq⟩ | ⟨_, _, _, _, _, _, -, hroot, -, heq⟩
    · rw [heq] at hzero ⊢
      exact hs.fresh e b hzero
    · rw [heq] at hzero
      exact absurd hzero hroot
    · rw [heq] at hzero
      exact absurd hzero hroot
    · rw [heq] at hzero
      exact absurd hzero hroot

/-- The proposal that is accepted fills the tables. -/
theorem proposeStep_signedBy {blk : Block} {root : Bytes32} {signers : List Address}
    {signatures : List Bytes} (hs : LifecycleInv s.registry)
    (h : ScoringStep env s (.registry blk (.proposeEpoch e b root signers signatures)) t) :
    (t.registry.epochs e b).merkleRoot = root ∧ SignedBy t.registry e b signers := by
  cases h with
  | registry _ _ hnow hexec =>
    obtain ⟨hroot, -, hprior, -, -, hsorted, -, -, -, rfl⟩ := proposeEpoch_ok hexec
    have hrecord : ((s.registry.markSigners e b root signers).withEpoch e b
        (accepted blk root signers (signers.map (s.staking.vault.validatorStake b)).sum)).epochs
        e b = accepted blk root signers (signers.map (s.staking.vault.validatorStake b)).sum :=
      if_pos ⟨rfl, rfl⟩
    refine ⟨congrArg EpochCommitment.merkleRoot hrecord, ?_, ?_, fun v => ?_, fun v hv => ?_⟩
    · exact (List.pairwise_cons.mp hsorted).2.imp fun hlt => ne_of_lt hlt
    · exact congrArg EpochCommitment.signerCount hrecord
    · -- nobody was marked before: the pair had no root
      refine (markSigners_signer s.registry e e b b root signers v).trans ?_
      constructor
      · rintro (hold | ⟨-, -, hv⟩)
        · exact absurd hprior (hs.marks e b v hold)
        · exact hv
      · intro hv
        exact .inr ⟨rfl, rfl, hv⟩
    · have hwritten := markSigners_roots s.registry e e b b root signers v
      rw [if_pos ⟨rfl, rfl, hv⟩] at hwritten
      exact hwritten.trans (congrArg EpochCommitment.merkleRoot hrecord).symm

/-- Once a commitment is accepted its tables stay. -/
theorem scoringStep_signedBy (h : ScoringStep env s l t)
    (hroot : (s.registry.epochs e b).merkleRoot ≠ 0) {signers : List Address}
    (hs : SignedBy s.registry e b signers) : SignedBy t.registry e b signers := by
  have hsame : SameTables s.registry t.registry e b := by
    rcases scoringStep_tables h e b with hsame | ⟨_, _, _, _, -, -, -, hzero, -⟩
    · exact hsame
    · exact absurd hzero hroot
  refine ⟨hs.nodup, (scoringStep_signerCount h hroot).trans hs.count, fun v => ?_,
    fun v hv => ?_⟩
  · rw [hsame.1 v]
    exact hs.marked v
  · rw [hsame.2 v, scoringStep_root h hroot]
    exact hs.roots v hv

/-! ## One step of the lifecycle -/

/-- What the step `l` may do to a record `c` of `(e, b)`, which becomes `c'`. -/
structure LifecycleStep (env : ScoringEnv T) (l : ScoringLabel) (e : Epoch) (b : BrainId)
    (c c' : EpochCommitment) : Prop where
  /-- a root is set once, by a proposal for an epoch that is over, and is not zero -/
  root : c'.merkleRoot ≠ c.merkleRoot → c.merkleRoot = 0 ∧ c'.merkleRoot ≠ 0 ∧
    ∃ blk root signers signatures,
      l = .registry blk (.proposeEpoch e b root signers signatures) ∧
      e.val < currentEpoch env blk
  terms : c.merkleRoot ≠ 0 → c'.terms = c.terms
  /-- an accepted commitment that is not void is finalized once, after its window -/
  finalizedAt : c'.finalizedAt ≠ c.finalizedAt → c.merkleRoot ≠ 0 ∧ c.finalizedAt = 0 ∧
    c.invalidated = false ∧ ∃ blk, l = .registry blk (.finalizeEpoch e b) ∧
      c.proposedAt + CHALLENGE_WINDOW ≤ blk.timestamp ∧ c'.finalizedAt = blk.timestamp
  invalidated : c.invalidated = true → c'.invalidated = true

theorem scoringStep_lifecycle (h : ScoringStep env s l t) (hs : LifecycleInv s.registry)
    (e : Epoch) (b : BrainId) :
    LifecycleStep env l e b (s.registry.epochs e b) (t.registry.epochs e b) where
  root hnew := by
    rcases scoringStep_commitment h e b with heq |
      ⟨blk, root, signers, signatures, _, rfl, hroot, hprior, heq⟩ |
      ⟨_, -, hroot, -, -, -, -⟩ | ⟨_, _, _, _, _, _, -, hroot, -, -⟩
    · -- only a proposal writes a root where there was none
      exact absurd (congrArg EpochCommitment.merkleRoot heq) hnew
    · refine ⟨hprior, ?_, blk, root, signers, signatures, rfl, ?_⟩
      · rw [heq]
        exact hroot
      · cases h with
        | registry _ _ _ hexec =>
          obtain ⟨-, hepoch, -⟩ := proposeEpoch_ok hexec
          exact hepoch
    · exact absurd (scoringStep_root h hroot) hnew
    · exact absurd (scoringStep_root h hroot) hnew
  terms hroot := scoringStep_terms h hroot
  finalizedAt hnew := by
    rcases scoringStep_commitment h e b with heq | ⟨_, _, _, _, _, -, -, hprior, heq⟩ |
      ⟨blk, rfl, hroot, hvalid, hopen, hwindow, heq⟩ | ⟨_, _, _, _, _, _, -, -, -, heq⟩
    · exact absurd (congrArg EpochCommitment.finalizedAt heq) hnew
    · -- a proposal leaves the time at zero, which a fresh epoch has already
      rw [heq, (hs.fresh e b hprior).1] at hnew
      exact absurd rfl hnew
    · refine ⟨hroot, hopen, hvalid, blk, rfl, hwindow, ?_⟩
      rw [heq]
      rfl
    · rw [heq] at hnew
      exact absurd rfl hnew
  invalidated hvoid := by
    by_cases hroot : (s.registry.epochs e b).merkleRoot = 0
    · rw [(hs.fresh e b hroot).2] at hvoid
      cases hvoid
    · exact scoringStep_invalidated h hroot hvoid

end Steps

/-! ## Whole runs -/

section Runs

variable {T : Type} {env : ScoringEnv T} {now : Nat} {t₀ : T} {admin : Address}
  {ls : List ScoringLabel} {s : ScoringState T} {e : Epoch} {b : BrainId}

theorem scoringRun_lifecycleInv (h : Run (ScoringStep env) (.deploy now t₀ admin) ls s) :
    LifecycleInv s.registry :=
  h.invariant (I := fun s => LifecycleInv s.registry) scoringStep_lifecycleInv
    lifecycleInv_deploy

/-- A run from an accepted commitment keeps its terms, and what is set of the rest. -/
theorem scoringRun_kept {ks : List ScoringLabel} {t : ScoringState T}
    (h : Run (ScoringStep env) s ks t) (hroot : (s.registry.epochs e b).merkleRoot ≠ 0) :
    (t.registry.epochs e b).terms = (s.registry.epochs e b).terms ∧
      ((s.registry.epochs e b).finalizedAt ≠ 0 →
        (t.registry.epochs e b).finalizedAt = (s.registry.epochs e b).finalizedAt) ∧
      ((s.registry.epochs e b).invalidated = true →
        (t.registry.epochs e b).invalidated = true) := by
  -- a root that is set is never set again, so the steps chain
  induction h with
  | nil s => exact ⟨rfl, fun _ => rfl, id⟩
  | cons hstep _ ih =>
    have hterms := scoringStep_terms hstep hroot
    have hroot' := hroot
    rw [← scoringStep_root hstep hroot] at hroot'
    obtain ⟨hkept, hfinal, hvoid⟩ := ih hroot'
    refine ⟨hkept.trans hterms, fun hset => ?_, fun hset => ?_⟩
    · have heq := scoringStep_finalizedAt hstep hroot hset
      rw [← heq] at hset ⊢
      exact hfinal hset
    · exact hvoid (scoringStep_invalidated hstep hroot hset)

/-- In the run `ls` from `s₀` to `s` the commitment of `(e, b)` was accepted with
`signers`. -/
def AcceptedWith (env : ScoringEnv T) (s₀ : ScoringState T) (ls : List ScoringLabel)
    (s : ScoringState T) (e : Epoch) (b : BrainId) (signers : List Address) : Prop :=
  ∃ blk root signatures p q, Along (ScoringStep env) s₀ ls s p
    (.registry blk (.proposeEpoch e b root signers signatures)) q ∧
    (s.registry.epochs e b).merkleRoot = root

theorem acceptedWith_of_root (h : Run (ScoringStep env) (.deploy now t₀ admin) ls s)
    (hroot : (s.registry.epochs e b).merkleRoot ≠ 0) :
    ∃ signers, AcceptedWith env (.deploy now t₀ admin) ls s e b signers ∧
      SignedBy s.registry e b signers := by
  -- no root is set at deployment, so some step of the run set this one
  obtain ⟨p, l, q, halong, hunset, hset⟩ :=
    h.exists_step (P := fun u => (u.registry.epochs e b).merkleRoot ≠ 0) (fun h => h rfl) hroot
  obtain ⟨pre, post, rfl, hpre, hstep, hpost⟩ := halong
  have hp : LifecycleInv p.registry := scoringRun_lifecycleInv hpre
  have hnew : (q.registry.epochs e b).merkleRoot ≠ (p.registry.epochs e b).merkleRoot := by
    rw [not_not.mp hunset]
    exact hset
  obtain ⟨-, -, blk, root, signers, signatures, rfl, -⟩ :=
    (scoringStep_lifecycle hstep hp e b).root hnew
  obtain ⟨hq, hsigned⟩ := proposeStep_signedBy hp hstep
  -- and nothing has changed the tables since
  have hkept := hpost.invariant
    (I := fun u => (u.registry.epochs e b).merkleRoot = root ∧
      SignedBy u.registry e b signers)
    (fun {u l v} hs hu => by
      have hu' : (u.registry.epochs e b).merkleRoot ≠ 0 := by
        rw [hu.1, ← hq]
        exact hset
      exact ⟨(scoringStep_root hs hu').trans hu.1, scoringStep_signedBy hs hu' hu.2⟩)
    ⟨hq, hsigned⟩
  exact ⟨signers, ⟨blk, root, signatures, p, q, ⟨pre, post, rfl, hpre, hstep, hpost⟩, hkept.1⟩,
    hkept.2⟩

/--
**Commitment lifecycle.** In every run, for every epoch and Brain,

* every step treats the record as `LifecycleStep` says;
* once a commitment is accepted, its root, time, count and stake never change, and
  its time of finalization and its invalidation are never undone;
* nobody is marked as a signer before that, and afterwards exactly the signers of the
  accepted proposal are, each once and each with the accepted root, and `signerCount`
  is their number on 32 bits;
* a call that reverts changes nothing.
-/
theorem epoch_lifecycle (h : Run (ScoringStep env) (.deploy now t₀ admin) ls s) (e : Epoch)
    (b : BrainId) :
    (∀ p l q, Along (ScoringStep env) (.deploy now t₀ admin) ls s p l q →
      LifecycleStep env l e b (p.registry.epochs e b) (q.registry.epochs e b)) ∧
    (∀ ks t, Run (ScoringStep env) s ks t → (s.registry.epochs e b).merkleRoot ≠ 0 →
      (t.registry.epochs e b).terms = (s.registry.epochs e b).terms ∧
      ((s.registry.epochs e b).finalizedAt ≠ 0 →
        (t.registry.epochs e b).finalizedAt = (s.registry.epochs e b).finalizedAt) ∧
      ((s.registry.epochs e b).invalidated = true →
        (t.registry.epochs e b).invalidated = true)) ∧
    ((s.registry.epochs e b).merkleRoot = 0 →
      ∀ v, s.registry.isCommitmentSigner e b v = false) ∧
    ((s.registry.epochs e b).merkleRoot ≠ 0 →
      ∃ signers, AcceptedWith env (.deploy now t₀ admin) ls s e b signers ∧
        SignedBy s.registry e b signers) ∧
    (∀ blk (c : ScoringCall) err, c.exec env blk s = .error err → c.transact env blk s = s) := by
  refine ⟨?_, ?_, ?_, acceptedWith_of_root h, ?_⟩
  · intro p l q halong
    obtain ⟨pre, post, -, hpre, hstep, -⟩ := halong
    exact scoringStep_lifecycle hstep (scoringRun_lifecycleInv hpre) e b
  · intro ks t hrun hroot
    exact scoringRun_kept hrun hroot
  · intro hzero v
    rw [← Bool.not_eq_true]
    exact fun hmark => (scoringRun_lifecycleInv h).marks e b v hmark hzero
  · intro blk c err hrevert
    -- a transaction that reverts is undone
    unfold ScoringCall.transact
    rw [hrevert]

end Runs

set_option maxRecDepth 40000 in
/-- Validator 7 proposes root 5 for epoch 0 alone: it is marked, with that root, and
counted. -/
theorem epoch_lifecycle_proposed :
    ∃ ls s signers, AcceptedWith toyRegistry (.deploy 0 toyLedger 9) ls s 0 3 signers ∧
      SignedBy s.registry 0 3 signers ∧ (s.registry.epochs 0 3).signerCount = 1 := by
  have hrun : ∃ s, (s.registry.epochs 0 3).merkleRoot = 5 ∧
      (s.registry.epochs 0 3).signerCount = 1 ∧
      Run (ScoringStep toyRegistry) (.deploy 0 toyLedger 9)
        [.vault ⟨200, by decide⟩ 2 (.stake 3 7 1000),
          .registry ⟨3600, by decide⟩ (.proposeEpoch 0 3 5 [7] [[7, 5]])] s := by
    refine ⟨_, ?_, ?_, .cons (.vault _ 2 _ (by decide) (by decide) (by decide) rfl)
      (.single (.registry _ _ (by decide) rfl))⟩
    · rfl
    · rfl
  obtain ⟨s, hroot, hcount, hrun⟩ := hrun
  -- the commitment was accepted
  have hset : (s.registry.epochs 0 3).merkleRoot ≠ 0 := by
    rw [hroot]
    decide
  obtain ⟨signers, haccepted, hsigned⟩ := (epoch_lifecycle hrun 0 3).2.2.2.1 hset
  exact ⟨_, s, signers, haccepted, hsigned, hcount⟩

/-! ## A list too long to count -/

/-- The first `n` addresses after zero. -/
def crowd (n : Nat) : List Address := (List.range n).map fun i => Fin.ofNat _ (i + 1)

/-- The toy registry, in which a signature of an account is the account's address. -/
def crowdRegistry : ScoringEnv Ledger :=
  { toyRegistry with
    crypto := { toyCrypto with
      recover := fun _ sig => some (Fin.ofNat _ (ByteWords.spelled sig)) } }

theorem length_crowd (n : Nat) : (crowd n).length = n := by
  rw [crowd, List.length_map, List.length_range]

theorem crowd_sorted {n : Nat} (hn : n < 2 ^ 160) :
    List.Pairwise (· < ·) (0 :: crowd n) := by
  have hval : ∀ i, i < n → (Fin.ofNat (2 ^ 160) (i + 1)).val = i + 1 := by
    intro i hi
    exact Nat.mod_eq_of_lt (by omega)
  refine List.pairwise_cons.mpr ⟨?_, ?_⟩
  · intro a ha
    obtain ⟨i, hi, rfl⟩ := List.mem_map.mp ha
    rw [List.mem_range] at hi
    rw [Fin.lt_def, hval i hi]
    exact Nat.succ_pos i
  · rw [crowd, List.pairwise_map]
    refine List.Pairwise.imp_of_mem ?_ List.pairwise_lt_range
    intro i j hi hj hlt
    rw [List.mem_range] at hi hj
    rw [Fin.lt_def, hval i hi, hval j hj]
    omega

theorem mem_crowd {n : Nat} {a : Address} (hpos : 0 < a.val) (hle : a.val ≤ n) :
    a ∈ crowd n := by
  refine List.mem_map.mpr ⟨a.val - 1, List.mem_range.mpr (by omega), ?_⟩
  rw [Nat.sub_add_cancel hpos]
  exact Fin.ofNat_val_eq_self a

/-- The signature of every member of the crowd. -/
def crowdSignatures (n : Nat) : List Bytes := (crowd n).map fun a => ByteWords.bigEndian 20 a.val

theorem crowd_recover {n : Nat} {digest : Bytes32} :
    ∀ p ∈ (crowd n).zip (crowdSignatures n),
      crowdRegistry.crypto.recover digest p.2 = some p.1 := by
  have hzip : (crowd n).zip (crowdSignatures n) =
      (crowd n).map fun a => (a, ByteWords.bigEndian 20 a.val) := by
    have hmap := @List.zip_map' _ _ _ id (fun a : Address => ByteWords.bigEndian 20 a.val)
      (crowd n)
    rw [List.map_id] at hmap
    exact hmap
  intro p hp
  rw [hzip, List.mem_map] at hp
  obtain ⟨a, -, rfl⟩ := hp
  have hspelled : ByteWords.spelled (ByteWords.bigEndian 20 a.val) = a.val :=
    ByteWords.spelled_bigEndian (a.isLt.trans_eq (by norm_num))
  show some (Fin.ofNat _ (ByteWords.spelled (ByteWords.bigEndian 20 a.val))) = some a
  rw [hspelled, Fin.ofNat_val_eq_self]

/-- A crowd that includes validator 7, who holds all the stake, has all the stake. -/
theorem crowd_stake {n : Nat} (hle : 7 ≤ n) (hlt : n < 2 ^ 160) {stake : Address → Nat}
    (hstake : stake 7 = 1000) (htotal : ∑ v, stake v = 1000) :
    ((crowd n).map stake).sum = 1000 := by
  have hnodup : (crowd n).Nodup :=
    (List.pairwise_cons.mp (crowd_sorted hlt)).2.imp fun h => ne_of_lt h
  have hmem : (7 : Address) ∈ crowd n := mem_crowd (by decide) hle
  have hmost : ((crowd n).map stake).sum ≤ ∑ v, stake v := weightOf_le_total hnodup
  have hleast : stake 7 ≤ ((crowd n).map stake).sum :=
    List.single_le_sum (fun _ _ => Nat.zero_le _) _ (List.mem_map_of_mem hmem)
  omega

set_option maxRecDepth 8000 in
/-- A proposal signed by a crowd is accepted, and all of the crowd are marked. -/
theorem crowd_accepted {n : Nat} (hle : 7 ≤ n) (hlt : n < 2 ^ 160) :
    ∃ ls s, Run (ScoringStep crowdRegistry) (.deploy 0 toyLedger 9) ls s ∧
      AcceptedWith crowdRegistry (.deploy 0 toyLedger 9) ls s 0 3 (crowd n) ∧
      (∀ v ∈ crowd n, s.registry.isCommitmentSigner 0 3 v = true) ∧
      (s.registry.epochs 0 3).signerCount = uint32 (crowd n).length := by
  have hstaked : ∃ s : ScoringState Ledger, s.staking.vault.brainStake 3 = 1000 ∧
      s.staking.vault.validatorStake 3 7 = 1000 ∧ s.registry = .deploy ∧ s.now = 200 ∧
      VaultCall.exec crowdRegistry.staking ⟨200, by decide⟩ 2 ⟨toyLedger, .deploy 9⟩
        (.stake 3 7 1000) = .ok s.staking ∧
      Run (ScoringStep crowdRegistry) (.deploy 0 toyLedger 9)
        [.vault ⟨200, by decide⟩ 2 (.stake 3 7 1000)] s := by
    refine ⟨_, ?_, ?_, ?_, ?_, ?_,
      .single (.vault _ 2 _ (by decide) (by decide) (by decide) rfl)⟩
    · rfl
    · rfl
    · rfl
    · rfl
    · rfl
  obtain ⟨s, htotal, hstake, hfresh, hnow, hexec, hrun⟩ := hstaked
  have hv : VaultInv s.staking.vault := exec_inv hexec (vaultInv_deploy 9)
  -- Validator 7 is among them and has all the stake
  have hsum : ((crowd n).map (s.staking.vault.validatorStake 3)).sum = 1000 :=
    crowd_stake hle hlt hstake ((hv.brain_sum 3).symm.trans htotal)
  have hlen : (crowd n).length = (crowdSignatures n).length := by
    rw [crowdSignatures, List.length_map]
  have hne : crowd n ≠ [] := List.ne_nil_of_mem (mem_crowd (a := 7) (by decide) hle)
  have hprior : (s.registry.epochs 0 3).merkleRoot = 0 := by
    rw [hfresh]
    rfl
  have hpropose := @proposeEpoch_of _ crowdRegistry ⟨3600, by decide⟩ 0 3 5 (crowd n)
    (crowdSignatures n) s (by decide) (by decide) hprior hlen hne (crowd_sorted hlt)
    crowd_recover (by rw [htotal]; decide) (by rw [htotal, hsum]; decide)
    (by rw [hsum]; decide) (by rw [htotal]; decide)
  have hstep : ScoringStep crowdRegistry s (.registry ⟨3600, by decide⟩
      (.proposeEpoch 0 3 5 (crowd n) (crowdSignatures n))) _ :=
    .registry _ _ (by rw [hnow]; decide) hpropose
  refine ⟨_, _, hrun.append (.single hstep),
    ⟨_, 5, crowdSignatures n, s, _, ⟨_, [], rfl, hrun, hstep, .nil _⟩, ?_⟩, ?_, ?_⟩
  · rfl
  · intro v hv
    exact (markSigners_signer s.registry 0 0 3 3 5 (crowd n) v).mpr (.inr ⟨rfl, rfl, hv⟩)
  · rfl

/-- `2 ^ 32` signers are one more than `signerCount` can hold: it is zero. -/
theorem signerCount_wraps :
    ∃ ls s signers, Run (ScoringStep crowdRegistry) (.deploy 0 toyLedger 9) ls s ∧
      AcceptedWith crowdRegistry (.deploy 0 toyLedger 9) ls s 0 3 signers ∧
      (∀ v ∈ signers, s.registry.isCommitmentSigner 0 3 v = true) ∧
      (s.registry.epochs 0 3).signerCount ≠ signers.length := by
  obtain ⟨ls, s, hrun, haccepted, hmarked, hcount⟩ :=
    @crowd_accepted (2 ^ 32) (by decide) (by decide)
  refine ⟨ls, s, crowd (2 ^ 32), hrun, haccepted, hmarked, ?_⟩
  rw [hcount, length_crowd]
  decide

end BasedAI
