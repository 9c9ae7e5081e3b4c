import BasedAI.Validator.CanonicalMedian
import BasedAI.Validator.Equivocation

/-!
# BasedAI — what a validator's signature stands for

A validator signs a root twice for an epoch: for its candidate, and once there is a canonical
result. So a signed root is the root of scores that the validator made of its observations, or
of rows that its pool has frozen. Which of the two it is cannot be seen from the signature.

* `submitCandidate_returns` — what the service hands out is frozen, and stays so;
* `exec_emitInv`            — one step;
* `emitted_backed`          — everything a validator emits, over whole runs.
-/

namespace BasedAI

open Fallible Python Mapping Transition CanonicalCandidatePool

/-! ## What is frozen stays -/

section Pool

variable {o : Offchain} {stakes : Stakes} {pool : CanonicalCandidatePool}
  {domain : CommitmentDomain}

/-- Everything frozen in the one pool is frozen in the other. -/
def FrozenIn (pool pool' : CanonicalCandidatePool) : Prop :=
  ∀ epoch brainId frozen, pool.frozen epoch brainId = some frozen →
    pool'.frozen epoch brainId = some frozen

theorem FrozenIn.refl (pool : CanonicalCandidatePool) : FrozenIn pool pool :=
  fun _ _ _ h => h

theorem add_frozenIn (epoch brainId : Int) (signer : Text) (scores : List Json) :
    FrozenIn pool (pool.add o stakes brainId epoch signer scores).1 :=
  fun _ _ _ h => frozen_add (c := ⟨epoch, brainId, signer, scores⟩) h

/-- A canonical result is frozen when it is handed out. -/
theorem add_returns {epoch brainId : Int} {signer : Text} {scores : List Json} {frozen : Frozen}
    (h : (pool.add o stakes brainId epoch signer scores).2 = .ok (some frozen)) :
    (pool.add o stakes brainId epoch signer scores).1.frozen epoch brainId = some frozen := by
  unfold CanonicalCandidatePool.add at h ⊢
  split at h
  case h_1 old hold =>
    obtain rfl := Option.some.inj (Except.ok.inj h)
    exact hold
  case h_2 hopen =>
    split at h
    case h_1 => cases h
    case h_2 key normalized hnormalized =>
      dsimp only at h ⊢
      split at h
      case h_1 => cases h
      case h_2 => cases h
      case h_3 new hnew =>
        obtain rfl := Option.some.inj (Except.ok.inj h)
        dsimp only
        rw [set₂_same]

theorem submitCandidate_frozenIn (body : Option Json) :
    FrozenIn pool (submitCandidate o domain stakes pool body).1 := by
  unfold submitCandidate
  split
  case h_1 => exact .refl pool
  case h_2 c hopen =>
    split
    case h_1 => exact .refl pool
    case h_2 => exact .refl pool
    case h_3 =>
      have hadd := @add_frozenIn o stakes pool c.epoch c.brainId c.signer c.scores
      split
      case h_1 pool' e heq =>
        rw [heq] at hadd
        exact hadd
      case h_2 pool' result heq =>
        rw [heq] at hadd
        exact hadd

theorem submitCandidate_returns {body : Option Json} {c : CandidateBody} {frozen : Frozen}
    (hopen : openCandidate o body = .ok c)
    (h : (submitCandidate o domain stakes pool body).2 = .accepted (some frozen)) :
    (submitCandidate o domain stakes pool body).1.frozen c.epoch c.brainId = some frozen := by
  unfold submitCandidate at h ⊢
  rw [hopen] at h ⊢
  dsimp only at h ⊢
  split at h
  case h_1 => cases h
  case h_2 => cases h
  case h_3 =>
    split at h
    case h_1 => cases h
    case h_2 pool' result heq =>
      obtain rfl := CandidateReply.accepted.inj h
      have hreturns := @add_returns o stakes pool c.epoch c.brainId c.signer c.scores frozen
      rw [heq] at hreturns
      exact hreturns rfl

end Pool

/-! ## What is signed -/

variable {F : Type} (o : Offchain) (fl : FloatArith F) (v : Validator)

/-- What the validator stands for with a signature for an epoch, after the labels `ls`: the
scores it made of what it observed, or the rows its pool has frozen. -/
inductive Vouched (ls : List ValidatorLabel) (pool : CanonicalCandidatePool) (epoch : Int) :
    List ScoreLeaf → Prop
  | own {observations : List MinerObservation} {c : OwnCandidate}
      (hpost : .post epoch observations ∈ ls)
      (hposted : posted o fl v epoch observations = some c) :
      Vouched ls pool epoch c.leaves
  | canonical {frozen : Frozen} (hfrozen : pool.frozen epoch v.brainId = some frozen) :
      Vouched ls pool epoch (canonicalLeaves v.brainId frozen.rows)

/-- A commitment to the root of leaves the validator stands for. -/
def RootBacked (ls : List ValidatorLabel) (pool : CanonicalCandidatePool) (k : Commitment) : Prop :=
  ∃ epoch leaves hashed, Vouched o fl v ls pool epoch leaves ∧
    buildMerkleRoot o.crypto leaves = .ok (k.root, hashed) ∧
    encodeCommitment v.domain epoch v.brainId k.root = .ok k

/-- Everything emitted is backed. -/
structure EmitInv (ls : List ValidatorLabel) (s : ValidatorState) : Prop where
  pool : PoolRooted o s.pool
  candidates : ∀ c ∈ s.candidates, RootBacked o fl v ls s.pool c.signed.commitment
  commitments : ∀ k ∈ s.commitments, RootBacked o fl v ls s.pool k.commitment

section Emit

variable {o fl v} {ls : List ValidatorLabel} {s : ValidatorState} {l : ValidatorLabel}
  {pool pool' : CanonicalCandidatePool} {c : OwnCandidate} {frozen : Frozen}

theorem RootBacked.mono {k : Commitment} (h : RootBacked o fl v ls pool k)
    (hpool : FrozenIn pool pool') :
    RootBacked o fl v ls pool' k := by
  obtain ⟨epoch, leaves, hashed, hvouched, hroot, hencode⟩ := h
  refine ⟨epoch, leaves, hashed, ?_, hroot, hencode⟩
  cases hvouched with
  | own hpost hposted => exact .own hpost hposted
  | canonical hfrozen => exact .canonical (hpool _ _ _ hfrozen)

theorem EmitInv.mono (h : EmitInv o fl v ls s) (hpool : FrozenIn s.pool pool)
    (hrooted : PoolRooted o pool) (posting : Posting) :
    EmitInv o fl v ls { s with pool := pool, posting := posting } where
  pool := hrooted
  candidates c hc := (h.candidates c hc).mono hpool
  commitments k hk := (h.commitments k hk).mono hpool

theorem posted_epoch {epoch : Int} {observations : List MinerObservation}
    (h : posted o fl v epoch observations = some c) : c.epoch = epoch := by
  unfold posted at h
  split at h
  case h_1 c' hprepare =>
    split at h
    case isTrue => cases h
    case isFalse =>
      obtain rfl := Option.some.inj h
      unfold prepareCandidate at hprepare
      simp only [bind_ok] at hprepare
      obtain ⟨scores, -, hprepare⟩ := hprepare
      split at hprepare
      · simp [return_ok] at hprepare
      · simp only [bind_ok, return_ok, Option.some.injEq] at hprepare
        obtain ⟨leaves, -, _, -, signed, -, rfl⟩ := hprepare
        rfl
  case h_2 => cases h

theorem posted_backed {epoch : Int} {observations : List MinerObservation}
    (hpost : .post epoch observations ∈ ls) (h : posted o fl v epoch observations = some c) :
    RootBacked o fl v ls pool c.signed.commitment := by
  obtain ⟨root, hashed, hroot, hencode⟩ := posted_prepared h
  obtain ⟨-, -, -, -, rfl⟩ := encodeCommitment_ok hencode
  rw [posted_epoch h] at hencode
  exact ⟨epoch, c.leaves, hashed, .own hpost h, hroot, hencode⟩

theorem EmitInv.commit (h : EmitInv o fl v ls s) (hpool : FrozenIn s.pool pool)
    (hrooted : PoolRooted o pool) (hfrozen : pool.frozen c.epoch v.brainId = some frozen) :
    EmitInv o fl v ls (ValidatorState.commit o v { s with pool := pool } c frozen) := by
  unfold ValidatorState.commit
  split
  case h_1 signed hsigned =>
    refine ⟨hrooted, fun c hc => (h.candidates c hc).mono hpool, ?_⟩
    intro k hk
    rcases List.mem_cons.mp hk with rfl | hold
    · -- the text of the frozen root is decoded to the root of the rows
      obtain ⟨root, hashed, hroot, htext⟩ := hrooted _ _ _ hfrozen
      unfold signCanonical at hsigned
      rw [htext, rootOfText_hexText, ok_bind] at hsigned
      have hencode := signCommitment_ok hsigned
      obtain ⟨-, -, -, -, hsame⟩ := encodeCommitment_ok hencode
      rw [← hsame] at hroot hencode
      exact ⟨c.epoch, _, hashed, .canonical hfrozen, hroot, hencode⟩
    · exact (h.commitments k hold).mono hpool
  case h_2 => exact h.mono hpool hrooted .idle

/-- **One step.** -/
theorem exec_emitInv (h : EmitInv o fl v ls s) (hl : l ∈ ls) :
    EmitInv o fl v ls (s.exec o fl v l) := by
  have hown : ∀ stakes c, FrozenIn s.pool (ownReply o v stakes s.pool c).1 ∧
      PoolRooted o (ownReply o v stakes s.pool c).1 :=
    fun stakes c => ⟨submitCandidate_frozenIn _, ownReply_rooted h.pool⟩
  unfold ValidatorState.exec
  cases l with
  | request stakes body =>
    exact h.mono (submitCandidate_frozenIn body) (submitCandidate_frozen h.pool).1 s.posting
  | post epoch observations =>
    dsimp only
    split
    · split
      case h_1 c hposted =>
        refine ⟨h.pool, ?_, h.commitments⟩
        intro c' hc'
        rcases List.mem_cons.mp hc' with rfl | hold
        · exact posted_backed hl hposted
        · exact h.candidates c' hold
      case h_2 => exact h
    · exact h
  | submit stakes =>
    dsimp only
    split
    · rename_i c hposting
      obtain ⟨hpool, hrooted⟩ := hown stakes c
      split
      · exact h.mono hpool hrooted .idle
      · exact h.mono hpool hrooted _
      · rename_i frozen hreply
        exact h.commit hpool hrooted (submitCandidate_returns (open_submissionBody c) hreply)
    · exact h
  | lost handled =>
    dsimp only
    split
    · rename_i c hposting
      split
      · rename_i stakes
        obtain ⟨hpool, hrooted⟩ := hown stakes c
        exact h.mono hpool hrooted .idle
      · exact h.mono (.refl _) h.pool .idle
    · exact h
  | poll =>
    dsimp only
    split
    · rename_i c left hposting
      split
      · rename_i frozen hfrozen
        exact h.commit (.refl _) h.pool hfrozen
      · exact h.mono (.refl _) h.pool _
    · exact h
  | abandon => exact h.mono (.refl _) h.pool .idle

/-- **What a validator emits**, whatever is observed, submitted and staked: the root of scores
it made of observations for the epoch, or of rows frozen for it. -/
theorem emitted_backed (hrun : Run (ValidatorStep o fl v) .start ls s) {k : SignedCommitment}
    (hk : k ∈ s.emitted) : RootBacked o fl v ls s.pool k.commitment := by
  have hinv : EmitInv o fl v ls s := by
    have hlabels : Run (restrict (ValidatorStep o fl v) fun _ l => l ∈ ls) .start ls s :=
      hrun.restrict_labels fun l hl => hl
    refine hlabels.invariant (I := EmitInv o fl v ls) ?_ ⟨empty_rooted, ?_, ?_⟩
    · intro s l t hstep hs
      obtain ⟨rfl, hl⟩ := hstep
      exact exec_emitInv hs hl
    · exact fun c hc => absurd hc List.not_mem_nil
    · exact fun k hk => absurd hk List.not_mem_nil
  rcases List.mem_append.mp hk with hcandidate | hcommitment
  · obtain ⟨c, hc, rfl⟩ := List.mem_map.mp hcandidate
    exact hinv.candidates c hc
  · exact hinv.commitments k hcommitment

end Emit

end BasedAI
