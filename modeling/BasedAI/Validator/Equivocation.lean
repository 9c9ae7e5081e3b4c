import BasedAI.Market.Debits
import BasedAI.Scoring.Finality
import BasedAI.Validator.CanonicalRoots

/-!
# BasedAI — the protocol makes honest validators equivocate

A validator signs the root of its own scores to authenticate its candidate, and the
canonical root of the epoch afterwards. Both are signatures on the same commitment
digest, for the same epoch and Brain, so where the two roots differ the validator
has done what `challengeEquivocation` slashes for, by following the protocol.

It is safe exactly as long as the canonical rows it reads are the rows it submitted,
and it does not post different scores for an epoch it has posted for.

* `Consistent`               — that condition, on a step;
* `Upright`                  — what it preserves;
* `honest_validator_safe`    — then no two roots of an epoch are signed, and no proof
  of equivocation against the validator is accepted;
* `honest_validator_slashed` — without it, a run that ends in the slashing of an
  honest validator.
-/

namespace BasedAI

open Fallible Python Transition ScoringRegistry

variable {F : Type} {o : Offchain} {fl : FloatArith F} {v : Validator}
  {s s' : ValidatorState} {c c' : OwnCandidate}

/-! ## The condition -/

/-- The canonical result a step hands the validator, and the candidate it was waiting
with. -/
def canonicalRead (o : Offchain) (v : Validator) (s : ValidatorState) :
    ValidatorLabel → Option (OwnCandidate × Frozen)
  | .submit stakes =>
    match s.posting with
    | .submitting c =>
      match (ownReply o v stakes s.pool c).2 with
      | .accepted (some frozen) => some (c, frozen)
      | _ => none
    | _ => none
  | .poll =>
    match s.posting with
    | .polling c (_ + 1) => (getCandidate s.pool c.epoch v.brainId).map fun f => (c, f)
    | _ => none
  | _ => none

/-- The candidate a step sends. -/
def candidateSent (o : Offchain) (fl : FloatArith F) (v : Validator) (s : ValidatorState) :
    ValidatorLabel → Option OwnCandidate
  | .post epoch observations =>
    match s.posting with
    | .idle => posted o fl v epoch observations
    | _ => none
  | _ => none

/-- A candidate the step sends has the scores, in whatever order, of every candidate
sent for its epoch before; and canonical rows the step reads are, in whatever order,
the rows of the candidate the validator submitted. -/
def Consistent (o : Offchain) (fl : FloatArith F) (v : Validator) (s : ValidatorState)
    (l : ValidatorLabel) : Prop :=
  (∀ c, candidateSent o fl v s l = some c →
    ∀ c' ∈ s.candidates, c'.epoch = c.epoch → c'.leaves.Perm c.leaves) ∧
  (∀ c frozen, canonicalRead o v s l = some (c, frozen) →
    (canonicalLeaves v.brainId frozen.rows).Perm c.leaves)

/-! ## What is preserved -/

/-- The candidate was signed under the root of its leaves. -/
def Prepared (o : Offchain) (v : Validator) (c : OwnCandidate) : Prop :=
  ∃ root hashed, buildMerkleRoot o.crypto c.leaves = .ok (root, hashed) ∧
    encodeCommitment v.domain c.epoch v.brainId root = .ok c.signed.commitment

/-- The candidate the validator is waiting with. -/
def Posting.candidate : Posting → Option OwnCandidate
  | .idle => none
  | .submitting c => some c
  | .polling c _ => some c

/-- Every root signed for an epoch is the root of the validator's own scores. -/
structure Upright (o : Offchain) (v : Validator) (s : ValidatorState) : Prop where
  pool : PoolRooted o s.pool
  prepared : ∀ c ∈ s.candidates, Prepared o v c
  waiting : ∀ c, s.posting.candidate = some c → c ∈ s.candidates
  agreed : ∀ c ∈ s.candidates, ∀ c' ∈ s.candidates, c.epoch = c'.epoch →
    c.leaves.Perm c'.leaves
  committed : ∀ k ∈ s.commitments, ∃ c ∈ s.candidates,
    k.commitment = c.signed.commitment

theorem start_upright : Upright o v .start where
  pool := empty_rooted
  prepared := fun _ h => nomatch h
  waiting := fun _ h => nomatch h
  agreed := fun _ h => nomatch h
  committed := fun _ h => nomatch h

theorem posted_prepared {epoch : Int} {observations : List MinerObservation}
    (h : posted o fl v epoch observations = some c) : Prepared o v c := by
  unfold posted at h
  split at h
  · rename_i c₀ hprepare
    split at h
    · cases h
    · obtain rfl := Option.some.inj h
      unfold prepareCandidate at hprepare
      simp only [bind_ok] at hprepare
      obtain ⟨scores, -, hprepare⟩ := hprepare
      split at hprepare
      · simp [return_ok] at hprepare
      · simp only [bind_ok, return_ok, Option.some.injEq] at hprepare
        obtain ⟨leaves, -, ⟨root, hashed⟩, hroot, signed, hsigned, rfl⟩ := hprepare
        exact ⟨root, hashed, hroot, signCommitment_ok hsigned⟩
  · cases h

/-- Candidates with the same leaves for the same epoch carry the same commitment. -/
theorem Prepared.same (h : Prepared o v c) (h' : Prepared o v c') (hepoch : c.epoch = c'.epoch)
    (hleaves : c.leaves.Perm c'.leaves) : c.signed.commitment = c'.signed.commitment := by
  obtain ⟨root, hashed, hroot, hencode⟩ := h
  obtain ⟨root', hashed', hroot', hencode'⟩ := h'
  have hsame : (root, hashed) = (root', hashed') :=
    Except.ok.inj ((buildMerkleRoot_perm hleaves hroot).symm.trans hroot')
  rw [(Prod.mk.inj hsame).1, hepoch] at hencode
  exact Except.ok.inj (hencode.symm.trans hencode')

/-- Signing a canonical root over one's own rows repeats one's own commitment. -/
theorem signCanonical_same {frozen : Frozen} {signed : SignedCommitment}
    (hc : Prepared o v c) (hfrozen : Rooted o v.brainId frozen)
    (hrows : (canonicalLeaves v.brainId frozen.rows).Perm c.leaves)
    (hsign : signCanonical o v c frozen = .ok signed) :
    signed.commitment = c.signed.commitment := by
  obtain ⟨root, hashed, hroot, hencode⟩ := hc
  obtain ⟨canonical, _, hcanonical, htext⟩ := hfrozen
  have hsame : canonical = root :=
    (Prod.mk.inj (Except.ok.inj ((buildMerkleRoot_perm hrows hcanonical).symm.trans hroot))).1
  unfold signCanonical at hsign
  rw [htext, rootOfText_hexText, hsame] at hsign
  have hsigned : signCommitment o v.domain v.account c.epoch v.brainId root = .ok signed :=
    hsign
  exact Except.ok.inj ((signCommitment_ok hsigned).symm.trans hencode)

/-- Nothing is sent when a post ends without a signature. -/
theorem Upright.end (h : Upright o v s) {pool : CanonicalCandidatePool}
    (hpool : PoolRooted o pool) :
    Upright o v { s with pool := pool, posting := .idle } where
  pool := hpool
  prepared := h.prepared
  waiting := fun _ hc => nomatch hc
  agreed := h.agreed
  committed := h.committed

theorem Upright.commit (h : Upright o v s) {pool : CanonicalCandidatePool}
    (hpool : PoolRooted o pool) (hc : c ∈ s.candidates) {frozen : Frozen}
    (hfrozen : Rooted o v.brainId frozen)
    (hrows : (canonicalLeaves v.brainId frozen.rows).Perm c.leaves) :
    Upright o v (ValidatorState.commit o v { s with pool := pool } c frozen) := by
  unfold ValidatorState.commit
  split
  · rename_i signed hsign
    exact {
      pool := hpool
      prepared := h.prepared
      waiting := fun _ hc => nomatch hc
      agreed := h.agreed
      committed := by
        intro k hk
        -- the new commitment is made of the leaves of its candidate
        rcases List.mem_cons.mp hk with rfl | hk
        · exact ⟨c, hc, signCanonical_same (h.prepared c hc) hfrozen hrows hsign⟩
        · exact h.committed k hk }
  · exact h.end hpool

/-- A fresh candidate that agrees with the earlier ones of its epoch. -/
theorem Upright.post (h : Upright o v s) (hc : Prepared o v c)
    (hagree : ∀ c' ∈ s.candidates, c'.epoch = c.epoch → c'.leaves.Perm c.leaves) :
    Upright o v { s with posting := .submitting c, candidates := c :: s.candidates } where
  pool := h.pool
  prepared := by
    intro c' hc'
    rcases List.mem_cons.mp hc' with rfl | hc'
    · exact hc
    · exact h.prepared c' hc'
  waiting := by
    intro c' hc'
    obtain rfl := Option.some.inj hc'
    exact List.mem_cons_self ..
  agreed := by
    intro a ha b hb hepoch
    -- either of the two may be the new one
    rcases List.mem_cons.mp ha with rfl | haold
    · rcases List.mem_cons.mp hb with rfl | hbold
      · exact .refl _
      · exact (hagree b hbold hepoch.symm).symm
    · rcases List.mem_cons.mp hb with rfl | hbold
      · exact hagree a haold hepoch
      · exact h.agreed a haold b hbold hepoch
  committed := by
    intro k hk
    obtain ⟨c', hc', heq⟩ := h.committed k hk
    exact ⟨c', List.mem_cons_of_mem _ hc', heq⟩

/-- **One step.** -/
theorem exec_upright {l : ValidatorLabel} (h : Upright o v s) (hl : Consistent o fl v s l) :
    Upright o v (s.exec o fl v l) := by
  obtain ⟨hsent, hread⟩ := hl
  cases l with
  | request stakes body =>
    exact { h with pool := (submitCandidate_frozen h.pool).1 }
  | post epoch observations =>
    unfold ValidatorState.exec
    dsimp only
    split
    · rename_i hidle
      split
      · rename_i c hposted
        -- the candidate that is sent is the one the worker waits with
        refine h.post (posted_prepared hposted) (hsent c ?_)
        unfold candidateSent
        rw [hidle]
        exact hposted
      · exact h
    · exact h
  | submit stakes =>
    unfold ValidatorState.exec
    dsimp only
    split
    · rename_i c hposting
      have hc : c ∈ s.candidates := h.waiting c (by rw [hposting]; rfl)
      have hpool : PoolRooted o (ownReply o v stakes s.pool c).1 := ownReply_rooted h.pool
      split
      · exact h.end hpool
      · exact { h with pool := hpool, waiting := fun c' hc' => Option.some.inj hc' ▸ hc }
      · rename_i frozen hreply
        -- canonical already in the reply to the candidate
        refine h.commit hpool hc (ownReply_canonical h.pool hreply) (hread c frozen ?_)
        unfold canonicalRead
        dsimp only
        rw [hposting]
        dsimp only
        rw [hreply]
    · exact h
  | lost handled =>
    unfold ValidatorState.exec
    dsimp only
    split
    · split
      · exact h.end (ownReply_rooted h.pool)
      · exact h.end h.pool
    · exact h
  | poll =>
    unfold ValidatorState.exec
    dsimp only
    split
    · rename_i c left hposting
      have hc : c ∈ s.candidates := h.waiting c (by rw [hposting]; rfl)
      split
      · rename_i frozen hfrozen
        -- canonical when it is polled
        refine h.commit h.pool hc (h.pool _ _ _ hfrozen) (hread c frozen ?_)
        unfold canonicalRead
        dsimp only
        rw [hposting]
        dsimp only
        rw [hfrozen]
        rfl
      · exact { h with waiting := fun c' hc' => Option.some.inj hc' ▸ hc }
    · exact h
  | abandon => exact h.end h.pool

/-! ## No two roots, no proof -/

/-- Everything emitted repeats the commitment of a candidate. -/
theorem Upright.emitted (h : Upright o v s) {k : SignedCommitment} (hk : k ∈ s.emitted) :
    ∃ c ∈ s.candidates, k.commitment = c.signed.commitment := by
  rcases List.mem_append.mp hk with hk | hk
  · obtain ⟨c, hc, rfl⟩ := List.mem_map.mp hk
    exact ⟨c, hc, rfl⟩
  · exact h.committed k hk

/-- What is emitted for one epoch is one commitment. -/
theorem Upright.one_root (h : Upright o v s) {k k' : SignedCommitment} (hk : k ∈ s.emitted)
    (hk' : k' ∈ s.emitted) (hepoch : k.commitment.epoch = k'.commitment.epoch) :
    k.commitment = k'.commitment := by
  obtain ⟨c, hc, heq⟩ := h.emitted hk
  obtain ⟨c', hc', heq'⟩ := h.emitted hk'
  obtain ⟨_, _, _, hencode⟩ := h.prepared c hc
  obtain ⟨_, _, _, hencode'⟩ := h.prepared c' hc'
  obtain ⟨-, -, hval, -, -⟩ := encodeCommitment_ok hencode
  obtain ⟨-, -, hval', -, -⟩ := encodeCommitment_ok hencode'
  have hsame : c.epoch = c'.epoch := by
    rw [← hval, ← hval', ← heq, ← heq', hepoch]
  rw [heq, heq']
  exact (h.prepared c hc).same (h.prepared c' hc') hsame (h.agreed c hc c' hc' hsame)

section Proofs

variable {T : Type} (env : ScoringEnv T)

/-- The two signatures of a proof of equivocation, next to what they should be on. -/
def proofOf (e : Epoch) (b : BrainId) (rootA : Bytes32) (sigA : Bytes) (rootB : Bytes32)
    (sigB : Bytes) : Set (Bytes × Bytes) :=
  {p | p = (commitmentPreimage env e b rootA, sigA) ∨
    p = (commitmentPreimage env e b rootB, sigB)}

/-- The byte strings whose digests matter for a proof. -/
def proofMessages (signedBy : Address → Set Bytes) (presented : Set (Bytes × Bytes)) :
    Set Bytes :=
  {m | (∃ u, m ∈ signedBy u) ∨ ∃ sig, (m, sig) ∈ presented}

/-- Of the registry's commitments, `signed` has none but those the validator emitted. -/
def OnlyEmitted (o : Offchain) (s : ValidatorState) (signed : Set Bytes) : Prop :=
  ∀ e b root, commitmentPreimage env e b root ∈ signed →
    ∃ k ∈ s.emitted, k.commitment.preimage o.crypto = commitmentPreimage env e b root

variable {env}

/-- The words a commitment is laid out in. -/
def commitmentWords (tag : Bytes32) (chainId : Fin (2 ^ 256)) (registry : Address)
    (epoch : Epoch) (brainId : BrainId) (root : Bytes32) : List Nat :=
  [tag.val, chainId.val, registry.val, epoch.val, brainId.val, root.val]

theorem commitmentWords_lt (tag : Bytes32) (chainId : Fin (2 ^ 256)) (registry : Address)
    (epoch : Epoch) (brainId : BrainId) (root : Bytes32) :
    ∀ w ∈ commitmentWords tag chainId registry epoch brainId root, w < 2 ^ 256 := by
  unfold commitmentWords
  simp only [List.forall_mem_cons, List.not_mem_nil, false_imp_iff, implies_true, and_true]
  exact ⟨Fin.isLt _, Fin.isLt _, address_lt_word _, uint64_lt_word _, Fin.isLt _, Fin.isLt _⟩

/-- The signed bytes determine the commitment. -/
theorem preimage_inj {k : Commitment} {e : Epoch} {b : BrainId} {root : Bytes32}
    (h : k.preimage o.crypto = commitmentPreimage env e b root) :
    k.epoch = e ∧ k.brainId = b ∧ k.root = root := by
  have hwords : commitmentWords (o.crypto.keccak256 (asciiBytes "BasedAI:ScoringRegistry:v2"))
      k.chainId k.scoringRegistry k.epoch k.brainId k.root =
      commitmentWords (DOMAIN_TAG env) env.chainId env.self e b root :=
    abiEncode_inj rfl (commitmentWords_lt _ _ _ _ _ _) (commitmentWords_lt _ _ _ _ _ _) h
  unfold commitmentWords at hwords
  simp only [List.cons.injEq, Fin.val_inj, and_true] at hwords
  obtain ⟨-, -, -, hepoch, hbrain, hroot⟩ := hwords
  exact ⟨hepoch, hbrain, hroot⟩

/-- A proof that the registry accepts shows two roots signed by the validator. -/
theorem challenge_signed {signedBy : Address → Set Bytes} {blk : Block} {e : Epoch}
    {b : BrainId} {rootA rootB : Bytes32} {sigA sigB : Bytes} {u : Address}
    {t t' : ScoringState T}
    (hunforged : env.crypto.Unforged signedBy (proofOf env e b rootA sigA rootB sigB))
    (hfree : env.crypto.DigestsCollisionFree
      (proofMessages signedBy (proofOf env e b rootA sigA rootB sigB)))
    (h : challengeEquivocation env blk e b rootA sigA rootB sigB u t = .ok t') :
    rootA ≠ rootB ∧ commitmentPreimage env e b rootA ∈ signedBy u ∧
      commitmentPreimage env e b rootB ∈ signedBy u := by
  obtain ⟨hroots, -, -, -, -, hA, hB, -⟩ := challengeEquivocation_ok h
  have hsigned : ∀ u, signedBy u ⊆
      proofMessages signedBy (proofOf env e b rootA sigA rootB sigB) :=
    fun u m hm => .inl ⟨u, hm⟩
  refine ⟨hroots, ?_, ?_⟩
  · exact hunforged.signed hfree hsigned (.inl rfl) (.inr ⟨sigA, .inl rfl⟩) hA
  · exact hunforged.signed hfree hsigned (.inr rfl) (.inr ⟨sigB, .inr rfl⟩) hB

end Proofs

/--
**An honest validator is safe when it reads its own scores.** In every run of a
validator and the pool, with any observations, any requests of others and any stakes,
in which every step is consistent,

* the validator signs no two roots for one epoch and Brain;
* no registry, whatever it has accepted, takes a proof of equivocation against it,
  provided the two signatures of the proof are not forged, their messages do not
  collide, and the validator's key signs commitments only here.
-/
theorem honest_validator_safe {ls : List ValidatorLabel}
    (h : Run (restrict (ValidatorStep o fl v) (Consistent o fl v)) .start ls s) :
    (∀ k ∈ s.emitted, ∀ k' ∈ s.emitted, k.commitment.epoch = k'.commitment.epoch →
      k.commitment.brainId = k'.commitment.brainId →
      k.commitment.root = k'.commitment.root) ∧
    (∀ (T : Type) (env : ScoringEnv T) (signedBy : Address → Set Bytes) blk e b rootA sigA
      rootB sigB t t',
      env.crypto.Unforged signedBy (proofOf env e b rootA sigA rootB sigB) →
      env.crypto.DigestsCollisionFree
        (proofMessages signedBy (proofOf env e b rootA sigA rootB sigB)) →
      OnlyEmitted env o s (signedBy v.account.address) →
      challengeEquivocation env blk e b rootA sigA rootB sigB v.account.address t ≠
        .ok t') := by
  have hupright : Upright o v s := by
    refine h.invariant (I := Upright o v) ?_ start_upright
    intro s l t hstep hs
    obtain ⟨rfl, hl⟩ := hstep
    exact exec_upright hs hl
  refine ⟨?_, ?_⟩
  · intro k hk k' hk' hepoch _
    rw [hupright.one_root hk hk' hepoch]
  · intro T env signedBy blk e b rootA sigA rootB sigB t t' hunforged hfree honly haccepted
    obtain ⟨hroots, hA, hB⟩ := challenge_signed hunforged hfree haccepted
    -- both roots of the proof were signed, so both were emitted
    obtain ⟨k, hk, hkA⟩ := honly e b rootA hA
    obtain ⟨k', hk', hkB⟩ := honly e b rootB hB
    obtain ⟨hepoch, -, hrootA⟩ := preimage_inj hkA
    obtain ⟨hepoch', -, hrootB⟩ := preimage_inj hkB
    have hsame : k.commitment = k'.commitment :=
      hupright.one_root hk hk' (hepoch.trans hepoch'.symm)
    rw [hsame] at hrootA
    exact hroots (hrootA.symm.trans hrootB)

/-! ## A toy deployment -/

/-- Exact arithmetic, with a logarithm that is right at 1 and 2, and statistics that are
right on one value. -/
def toyFloat : FloatArith Rat where
  lit q := q
  add p q := p + q
  mul p q := p * q
  div p q := p / q
  lt p q := decide (p < q)
  ratio m n := m / n
  log q := q - 1
  percentile50 values := values.headD 0
  mean values := values.headD 0
  trunc q := q.floor

/-- Validator 7, for Brain 3 and the toy registry. -/
def toyValidator : Validator where
  domain := ⟨1, text "0x0000000000000000000000000000000000000004"⟩
  brainId := 3
  aggregatorUrl := text "http://aggregator"
  account := { address := 7, sign := fun digest => [7, UInt8.ofNat digest.val] }

/-- Validator 7 has 400 at stake on the Brain, validator 8 has 600. -/
def toyStakes : Stakes where
  stakeOf _ signer :=
    .ok (if hexAddress signer = some 7 then 400 else if hexAddress signer = some 8 then 600 else 0)
  totalStake _ := .ok 1000

/-- One observation of miner 5, which scores 750000. -/
def toyObservation : MinerObservation where
  miner := .str (text "0x0000000000000000000000000000000000000005")
  promptId := []
  responseHash := .str []
  responseText := .str []
  latencyMs := 100
  isChallenge := true
  referenceText := .null

/-- The candidate of validator 8, which gives miner 5 a score of 6. -/
def toyRival : Json :=
  .dict [
    (text "epoch", .int 0),
    (text "brain_id", .int 3),
    (text "signer", .str (text "0x0000000000000000000000000000000000000008")),
    (text "scores", .list [.dict [
      (text "miner", .str (text "0x0000000000000000000000000000000000000005")),
      (text "score", .int 6)]]),
    (text "signature", .str (text "0x0806"))]

/-- A run executes its labels. -/
theorem run_exec (ls : List ValidatorLabel) (s : ValidatorState) :
    Run (ValidatorStep o fl v) s ls (ls.foldl (ValidatorState.exec o fl v) s) := by
  induction ls generalizing s with
  | nil => exact .nil s
  | cons l ls ih => exact .cons rfl (ih _)

/-! ## An honest validator safe -/

/-- Validator 7 holds all the stake of the Brain. -/
def toyMonopoly : Stakes where
  stakeOf _ signer := .ok (if hexAddress signer = some 7 then 1000 else 0)
  totalStake _ := .ok 1000

/-- Validator 7 after it started a post for epoch 0. -/
def toyPosting : ValidatorState :=
  ValidatorState.start.exec toyOffchain toyFloat toyValidator (.post 0 [toyObservation])

/-- The canonical result is then its own candidate. -/
theorem toy_canonical :
    (canonicalRead toyOffchain toyValidator toyPosting (.submit toyMonopoly)).map
        (fun read => (read.1.leaves, canonicalLeaves 3 read.2.rows)) =
      some ([⟨3, text "0x0000000000000000000000000000000000000005", 750000⟩],
        [⟨3, text "0x0000000000000000000000000000000000000005", 750000⟩]) := by
  decide +kernel

theorem toy_alone_emitted :
    (toyPosting.exec toyOffchain toyFloat toyValidator (.submit toyMonopoly)).emitted =
      [⟨⟨1, 4, 0, 3, 750000⟩, [7, 176]⟩, ⟨⟨1, 4, 0, 3, 750000⟩, [7, 176]⟩] := by
  decide +kernel

theorem toy_consistent :
    Consistent toyOffchain toyFloat toyValidator toyPosting (.submit toyMonopoly) := by
  have hsent : candidateSent toyOffchain toyFloat toyValidator toyPosting
      (.submit toyMonopoly) = none := rfl
  refine ⟨?_, ?_⟩
  · intro c h
    rw [hsent] at h
    cases h
  intro c frozen hread
  have hrows := toy_canonical
  rw [hread, Option.map_some, Option.some.injEq, Prod.mk.injEq] at hrows
  rw [hrows.1]
  exact .of_eq hrows.2

/-- Validator 7's key has signed its one commitment. -/
def toyKey (u : Address) : Set Bytes :=
  {m | u = 7 ∧ m = commitmentPreimage toyRegistry 0 3 750000}

theorem toyKey_unforged : toyRegistry.crypto.Unforged toyKey
    (proofOf toyRegistry 0 3 750000 [7, 176] 6 [7, 176]) := by
  rintro m sig u (hA | hB) hrecover
  · obtain ⟨rfl, rfl⟩ := Prod.mk.inj hA
    rw [toyRegistry_recover] at hrecover
    have hseven : (7 : Address) = u := Option.some.inj hrecover
    exact ⟨_, ⟨hseven.symm, rfl⟩, rfl⟩
  · -- the same signature says nothing about another root
    obtain ⟨rfl, rfl⟩ := Prod.mk.inj hB
    rw [toyRegistry_recover] at hrecover
    have hnone : toyCrypto.recover 6 [7, 176] = none := rfl
    rw [hnone] at hrecover
    cases hrecover

theorem toyKey_collisionFree : toyRegistry.crypto.DigestsCollisionFree
    (proofMessages toyKey (proofOf toyRegistry 0 3 750000 [7, 176] 6 [7, 176])) := by
  have hall : ∀ m ∈ proofMessages toyKey (proofOf toyRegistry 0 3 750000 [7, 176] 6 [7, 176]),
      ∃ root, m = commitmentPreimage toyRegistry 0 3 root := by
    rintro m (⟨u, -, hm⟩ | ⟨sig, hA | hB⟩)
    · exact ⟨_, hm⟩
    · exact ⟨_, (Prod.mk.inj hA).1⟩
    · exact ⟨_, (Prod.mk.inj hB).1⟩
  refine ⟨?_, ?_⟩
  · -- the toy hash of a commitment is its root
    intro m hm m' hm' heq
    obtain ⟨root, rfl⟩ := hall m hm
    obtain ⟨root', rfl⟩ := hall m' hm'
    rw [toyRegistry_keccak, toyRegistry_keccak] at heq
    rw [heq]
  · -- and of an EIP-191 message its digest
    rintro _ ⟨m, -, rfl⟩ _ ⟨m', -, rfl⟩ heq
    have hdigest : toyCrypto.keccak256 m = toyCrypto.keccak256 m' :=
      ((toyCrypto_toEthSignedMessageHash _).symm.trans heq).trans
        (toyCrypto_toEthSignedMessageHash _)
    show Crypto.ethSignedMessage (toyCrypto.keccak256 m) = _
    rw [hdigest]
    rfl

/-- Validator 7 alone signs one root for epoch 0, twice, and the registry takes no proof
made of that signature. -/
theorem honest_validator_safe_alone :
    ∃ s : ValidatorState, s.emitted =
        [⟨⟨1, 4, 0, 3, 750000⟩, [7, 176]⟩, ⟨⟨1, 4, 0, 3, 750000⟩, [7, 176]⟩] ∧
      (∀ k ∈ s.emitted, ∀ k' ∈ s.emitted, k.commitment.epoch = k'.commitment.epoch →
        k.commitment.brainId = k'.commitment.brainId →
        k.commitment.root = k'.commitment.root) ∧
      ∀ blk t t', challengeEquivocation toyRegistry blk 0 3 750000 [7, 176] 6 [7, 176] 7 t ≠
        .ok t' := by
  have hrun : Run (restrict (ValidatorStep toyOffchain toyFloat toyValidator)
      (Consistent toyOffchain toyFloat toyValidator)) .start
      [.post 0 [toyObservation], .submit toyMonopoly]
      (toyPosting.exec toyOffchain toyFloat toyValidator (.submit toyMonopoly)) := by
    refine .cons ⟨rfl, ?_, ?_⟩ (.single ⟨rfl, toy_consistent⟩)
    · intro c _ c' hc'
      cases hc'
    · intro c frozen hread
      cases hread
  have hsafe := honest_validator_safe hrun
  refine ⟨_, toy_alone_emitted, hsafe.1, ?_⟩
  intro blk t t'
  refine hsafe.2 Ledger toyRegistry toyKey blk 0 3 750000 [7, 176] 6 [7, 176] t t'
    toyKey_unforged toyKey_collisionFree ?_
  -- whatever of validator 7's is presented is one of the two it emitted
  rintro e b root ⟨-, hm⟩
  refine ⟨⟨⟨1, 4, 0, 3, 750000⟩, [7, 176]⟩, ?_, ?_⟩
  · rw [toy_alone_emitted]
    exact List.mem_cons_self ..
  · rw [hm]
    rfl

/-! ## An honest validator slashed -/

/-- Validator 8 submits first, then validator 7 posts and is answered. -/
def toyPosts : List ValidatorLabel :=
  [.request toyStakes (some toyRival), .post 0 [toyObservation], .submit toyStakes]

/-- What validator 7 signs: the root of its own scores and the canonical root. -/
theorem toy_emitted :
    (toyPosts.foldl (ValidatorState.exec toyOffchain toyFloat toyValidator) .start).emitted =
      [⟨⟨1, 4, 0, 3, 750000⟩, [7, 176]⟩, ⟨⟨1, 4, 0, 3, 6⟩, [7, 6]⟩] := by
  decide +kernel

set_option maxRecDepth 40000 in
/-- The registry accepts the canonical root from both validators, and then the proof
made of validator 7's two signatures. -/
theorem toy_slashed :
    ∃ ls t t', Run (ScoringStep toyRegistry) (.deploy 0 toyLedger 9) ls t ∧
      t.staking.vault.validatorStake 3 7 = 400 ∧
      ScoringStep toyRegistry t (.registry ⟨3700, by decide⟩
        (.challengeEquivocation 0 3 750000 [7, 176] 6 [7, 6] 7)) t' ∧
      t'.staking.vault.validatorStake 3 7 = 0 := by
  refine ⟨_, _, _,
    .cons (.vault ⟨100, by decide⟩ 9 (.grantRole .slasher 4) (by decide) (by decide)
      (by decide) rfl)
    (.cons (.vault ⟨200, by decide⟩ 2 (.stake 3 7 400) (by decide) (by decide)
      (by decide) rfl)
    (.cons (.vault ⟨300, by decide⟩ 2 (.stake 3 8 600) (by decide) (by decide)
      (by decide) rfl)
    (.cons (.registry ⟨3600, by decide⟩ (.proposeEpoch 0 3 6 [7, 8] [[7, 6], [8, 6]])
      (by decide) rfl) (.nil _)))), ?_, .registry _ _ (by decide) rfl, ?_⟩
  · rfl
  · rfl

/-- **An honest validator slashed.** Validator 8 submits its candidate first and holds a
quorum, so its score is canonical. Validator 7 observes another score, follows the
protocol, and signs two roots for epoch 0 of Brain 3; whoever has both signatures
empties its pool. -/
theorem honest_validator_slashed :
    ∃ s, Run (ValidatorStep toyOffchain toyFloat toyValidator) .start toyPosts s ∧
      ∃ k ∈ s.emitted, ∃ k' ∈ s.emitted,
        k.commitment.epoch = k'.commitment.epoch ∧
        k.commitment.brainId = k'.commitment.brainId ∧
        k.commitment.root ≠ k'.commitment.root ∧
        ∃ ls t t', Run (ScoringStep toyRegistry) (.deploy 0 toyLedger 9) ls t ∧
          t.staking.vault.validatorStake 3 7 = 400 ∧
          ScoringStep toyRegistry t (.registry ⟨3700, by decide⟩
            (.challengeEquivocation k.commitment.epoch k.commitment.brainId
              k.commitment.root k.signature k'.commitment.root k'.signature 7)) t' ∧
          t'.staking.vault.validatorStake 3 7 = 0 := by
  refine ⟨_, run_exec toyPosts .start, ⟨⟨1, 4, 0, 3, 750000⟩, [7, 176]⟩, ?_,
    ⟨⟨1, 4, 0, 3, 6⟩, [7, 6]⟩, ?_, rfl, rfl, ?_, toy_slashed⟩
  · rw [toy_emitted]
    exact List.mem_cons_self ..
  · rw [toy_emitted]
    exact List.mem_cons_of_mem _ (List.mem_singleton.mpr rfl)
  · -- the roots differ
    decide

end BasedAI
