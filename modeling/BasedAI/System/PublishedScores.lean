import BasedAI.Gateway.Ranking
import BasedAI.Scoring.Lifecycle
import BasedAI.Scoring.Quorum
import BasedAI.Scoring.StakeWindow
import BasedAI.Validator.CandidateRows
import BasedAI.Validator.EmittedRoots
import BasedAI.Validator.FrozenRows
import BasedAI.Validator.MerkleProofs

/-!
# BasedAI — from the validators to the gateway's list

Validators sign roots, the registry accepts a root that validators with a majority of the stake
have signed, and the gateway takes the scores whose proofs the registry accepts. So where the
dishonest validators of a Brain hold no more than half of its stake, a score the gateway lists
was given by an honest one: it stands in a candidate it made of its own observations, or in the
rows that were frozen for it. And the rows of a final root reach the list, whoever posts them.

* `proposal_honest`       — an honest validator stands for every root that is accepted;
* `listed_scores_honest`  — and for every score that is listed, over whole runs;
* `canonical_rows_listed` — what posting canonical rows does to the list.
-/

namespace BasedAI

open Fallible Python Transition WeightedQuorum MerkleTree ScoringRegistry

variable {T F : Type}

/-! ## Honest validators -/

/-- An honest validator, where a run has brought it. -/
structure HonestValidator (o : Offchain) (fl : FloatArith F) where
  validator : Validator
  labels : List ValidatorLabel
  state : ValidatorState
  run : Run (ValidatorStep o fl validator) .start labels state

/-- The honest validators by address, and what anybody has signed. The key of an honest
validator signs no commitment but those the validator emits. -/
structure Council (env : ScoringEnv T) (o : Offchain) (fl : FloatArith F) where
  member : Address → Option (HonestValidator o fl)
  signedBy : Address → Set Bytes
  keys : ∀ u h, member u = some h → OnlyEmitted env o h.state (signedBy u)

section Council

variable {env : ScoringEnv T} {o : Offchain} {fl : FloatArith F} (council : Council env o fl)

/-- An honest validator of the Brain stands for the leaves. -/
def Council.StandsFor (e : Epoch) (b : BrainId) (leaves : List ScoreLeaf) : Prop :=
  ∃ u h, council.member u = some h ∧ h.validator.brainId = b.val ∧
    Vouched o fl h.validator h.labels h.state.pool e.val leaves

/-- When a root is proposed for a Brain, the others hold no more than half of its stake. -/
def Council.Outvotes (s : ScoringState T) : ScoringLabel → Prop
  | .registry _ (.proposeEpoch _ b _ _ _) => ∀ us : List Address, us.Nodup →
      (∀ u ∈ us, council.member u = none) →
      2 * weightOf (s.staking.vault.validatorStake b) us ≤ s.staking.vault.brainStake b
  | _ => True

/-- So it is where honest validators hold half of it. -/
theorem Council.outvotes_of_half {s : ScoringState T} {b : BrainId} {hs : List Address}
    (hv : VaultInv s.staking.vault) (hnodup : hs.Nodup)
    (hmember : ∀ u ∈ hs, council.member u ≠ none)
    (hhalf : s.staking.vault.brainStake b ≤
      2 * weightOf (s.staking.vault.validatorStake b) hs) (blk : Block) (e : Epoch)
    (root : Bytes32) (signers : List Address) (signatures : List Bytes) :
    council.Outvotes s (.registry blk (.proposeEpoch e b root signers signatures)) := by
  intro us hus hothers
  have hboth : (us ++ hs).Nodup :=
    hus.append hnodup fun u hu hu' => hmember u hu' (hothers u hu)
  have htotal : weightOf (s.staking.vault.validatorStake b) (us ++ hs) ≤
      ∑ w, s.staking.vault.validatorStake b w := weightOf_le_total hboth
  have hsum : s.staking.vault.brainStake b = ∑ w, s.staking.vault.validatorStake b w :=
    hv.brain_sum b
  unfold weightOf at htotal hhalf ⊢
  rw [List.map_append, List.sum_append] at htotal
  omega

/-- The roots that are proposed in a run, with their signatures. -/
def rootsProposed (env : ScoringEnv T) (ls : List ScoringLabel) : Set (Bytes × Bytes) :=
  {p | ∃ blk e b root signers signatures, ∃ signature ∈ signatures,
    .registry blk (.proposeEpoch e b root signers signatures) ∈ ls ∧
      p = (commitmentPreimage env e b root, signature)}

/-- The byte strings that matter: what anybody has signed, and what is proposed. -/
def Council.messages (ls : List ScoringLabel) : Set Bytes :=
  {m | (∃ u, m ∈ council.signedBy u) ∨ ∃ sig, (m, sig) ∈ rootsProposed env ls}

variable {council} {ls : List ScoringLabel} {s t : ScoringState T} {e : Epoch} {b : BrainId}

/-- The honest signer of an accepted proposal. -/
theorem proposal_honest {blk : Block} {root : Bytes32} {signers : List Address}
    {signatures : List Bytes}
    (hunforged : env.crypto.Unforged council.signedBy (rootsProposed env ls))
    (hfree : env.crypto.DigestsCollisionFree (council.messages ls))
    (hmem : .registry blk (.proposeEpoch e b root signers signatures) ∈ ls)
    (houtvotes : council.Outvotes s (.registry blk (.proposeEpoch e b root signers signatures)))
    (hexec : ScoringRegistry.proposeEpoch env blk e b root signers signatures s = .ok t) :
    ∃ leaves hashed, council.StandsFor e b leaves ∧
      buildMerkleRoot o.crypto leaves = .ok (root, hashed) := by
  have hquorum : MeetsQuorum s.staking.vault b signers := (proposeEpoch_quorum hexec).1
  obtain ⟨-, -, -, hlength, -, -, hrecover, -⟩ := proposeEpoch_ok hexec
  -- the signers hold more than half, so they are not all dishonest
  obtain ⟨u, hu, h, hmember⟩ : ∃ u ∈ signers, ∃ h, council.member u = some h := by
    by_contra hnone
    push Not at hnone
    have hless := houtvotes signers hquorum.nodup
      fun u hu => Option.eq_none_iff_forall_ne_some.mpr (hnone u hu)
    exact absurd hquorum.majority (not_lt.mpr hless)
  obtain ⟨signature, hpair⟩ : ∃ signature, (u, signature) ∈ signers.zip signatures := by
    have hzip : (signers.zip signatures).map Prod.fst = signers :=
      List.map_fst_zip (le_of_eq hlength)
    rw [← hzip] at hu
    obtain ⟨⟨_, signature⟩, hpair, rfl⟩ := List.mem_map.mp hu
    exact ⟨signature, hpair⟩
  have hshown : (commitmentPreimage env e b root, signature) ∈ rootsProposed env ls :=
    ⟨blk, e, b, root, signers, signatures, signature, (List.of_mem_zip hpair).2, hmem, rfl⟩
  have hin : commitmentPreimage env e b root ∈ council.messages ls := .inr ⟨signature, hshown⟩
  have hall : ∀ u, council.signedBy u ⊆ council.messages ls := fun u m hm => .inl ⟨u, hm⟩
  have hsigner : env.crypto.recover (commitmentDigest env e b root) signature = some u :=
    hrecover _ hpair
  have hsigned : commitmentPreimage env e b root ∈ council.signedBy u :=
    hunforged.signed hfree hall hshown hin hsigner
  -- what an honest key has signed, its validator has emitted
  obtain ⟨k, hk, hpreimage⟩ := council.keys u h hmember e b root hsigned
  obtain ⟨hepoch, hbrain, hroot⟩ := preimage_inj hpreimage
  obtain ⟨epoch, leaves, hashed, hvouched, hbuilt, hencode⟩ := emitted_backed h.run hk
  obtain ⟨-, -, hepoch', hbrain', -⟩ := encodeCommitment_ok hencode
  rw [hroot] at hbuilt
  rw [hepoch] at hepoch'
  rw [hbrain] at hbrain'
  rw [← hepoch'] at hvouched
  exact ⟨leaves, hashed, ⟨u, h, hmember, hbrain'.symm, hvouched⟩, hbuilt⟩

/-- An honest validator stands for every root that was accepted. -/
def Council.Backs (council : Council env o fl) (s : ScoringState T) : Prop :=
  ∀ e b, (s.registry.epochs e b).merkleRoot ≠ 0 → ∃ leaves hashed, council.StandsFor e b leaves ∧
    buildMerkleRoot o.crypto leaves = .ok ((s.registry.epochs e b).merkleRoot, hashed)

/-- **One step.** -/
theorem Council.Backs.step {l : ScoringLabel} (h : council.Backs s)
    (hstep : ScoringStep env s l t) (houtvotes : council.Outvotes s l) (hmem : l ∈ ls)
    (hunforged : env.crypto.Unforged council.signedBy (rootsProposed env ls))
    (hfree : env.crypto.DigestsCollisionFree (council.messages ls)) : council.Backs t := by
  intro e b hroot
  rcases scoringStep_commitment hstep e b with heq | ⟨blk, root, signers, signatures, _, rfl, -, -,
    heq⟩ | ⟨_, -, hold, -, -, -, heq⟩ | ⟨_, _, _, _, _, _, -, hold, -, heq⟩
  · rw [heq] at hroot ⊢
    exact h e b hroot
  · -- a root is set by a proposal only
    cases hstep with
    | registry _ _ hnow hexec =>
      rw [heq]
      exact proposal_honest hunforged hfree hmem houtvotes hexec
  · rw [heq]
    exact h e b hold
  · rw [heq]
    exact h e b hold

end Council

/-! ## The gateway's view of the registry -/

section View

variable (env : ScoringEnv T) (bytes32Of : Json → Py Bytes32)

/-- `verify_score` of `cli.py`: the arguments are encoded, and the contract is asked.
`bytes32Of` is how web3 reads a value as 32 bytes. -/
def Gateway.verifyScore (r : ScoringRegistry) : Gateway.ScoreVerifier :=
  fun epoch brainId miner score proof => do
    let e ← encodeUint 64 epoch
    let w ← ScoreLeaf.words ⟨brainId, miner, score⟩
    let path ← proof.mapM bytes32Of
    return ScoringRegistry.verifyScore env r e w.brainId w.miner w.score path

/-- The gateway with the registry as it is at the moment. -/
def Gateway.App.asking (app : Gateway.App) (r : ScoringRegistry) : Gateway.App :=
  app.viewing (Gateway.verifyScore env bytes32Of r)

/-- The leaves and proofs that a submission has checked. -/
def proofsPresented (app : Gateway.App) (brainId : Int) (body : Json) :
    Set (LeafWords × List Bytes32) :=
  {p | ∃ epoch entries es, Gateway.readSubmission app body = .ok (epoch, entries) ∧
    entries.iterate = .ok es ∧ ∃ entry ∈ es, ∃ miner score proof w path,
      Gateway.readScore app entry = .ok (miner, score, proof) ∧
      ScoreLeaf.words ⟨brainId, miner, score⟩ = .ok w ∧
      proof.mapM bytes32Of = .ok path ∧ p = (w, path)}

variable {env bytes32Of} {app : Gateway.App} {r : ScoringRegistry} {brainId : Int} {body : Json}

theorem verifyScore_ok {e : Epoch} {b : BrainId} {miner : Address} {score : Fin (2 ^ 256)}
    {path : List Bytes32} :
    ScoringRegistry.verifyScore env r e b miner score path = true ↔
      (r.epochs e b).merkleRoot ≠ 0 ∧ (r.epochs e b).finalizedAt ≠ 0 ∧
      (r.epochs e b).invalidated = false ∧
      MerkleProof.verify env.crypto path (r.epochs e b).merkleRoot (scoreLeaf env b miner score) =
        true := by
  unfold ScoringRegistry.verifyScore
  dsimp only
  split
  case isTrue h =>
    simp only [Bool.false_eq_true, false_iff, not_and]
    intro hroot hfinal hvalid
    rw [hvalid] at h
    simp [hroot, hfinal] at h
  case isFalse h =>
    push Not at h
    simp [h]

theorem verifiedScores_entry {verify : Gateway.ScoreVerifier} {epoch : Int} {es : List Json}
    {x : Gateway.VerifiedScore} (h : x ∈ (Gateway.verifiedScores app verify epoch brainId es).1) :
    ∃ entry ∈ es, Gateway.verifyEntry app verify epoch brainId entry = .ok (some x) := by
  induction es with
  | nil => exact absurd h List.not_mem_nil
  | cons entry rest ih =>
    have hrest : x ∈ (Gateway.verifiedScores app verify epoch brainId rest).1 → ∃ e ∈ entry :: rest,
        Gateway.verifyEntry app verify epoch brainId e = .ok (some x) := by
      intro hx
      obtain ⟨e, he, hentry⟩ := ih hx
      exact ⟨e, List.mem_cons_of_mem _ he, hentry⟩
    rw [Gateway.verifiedScores] at h
    split at h
    · exact absurd h List.not_mem_nil
    · exact hrest h
    · rename_i found hfound
      rcases List.mem_cons.mp h with rfl | hlater
      · exact ⟨entry, List.mem_cons_self, hfound⟩
      · exact hrest hlater

/-- A score a submission brings was checked against the registry, with a proof. -/
theorem submitted_checked {x : Gateway.VerifiedScore}
    (h : x ∈ Gateway.submittedScores (app.asking env bytes32Of r) brainId body) :
    (∃ a, x.miner = toChecksum app.crypto a) ∧ Gateway.floatOfInt x.score = .ok x.value ∧
      ∃ (e : Epoch) (w : LeafWords) (path : List Bytes32), (e.val : Int) = x.epoch ∧
        (w, path) ∈ proofsPresented bytes32Of app brainId body ∧
        ScoreLeaf.words ⟨brainId, x.miner, x.score⟩ = .ok w ∧
        ScoringRegistry.verifyScore env r e w.brainId w.miner w.score path = true := by
  unfold Gateway.submittedScores at h
  split at h
  case h_2 => exact absurd h List.not_mem_nil
  case h_1 verify epoch entries hverify hread =>
    obtain rfl := Option.some.inj hverify
    split at h
    case h_2 => exact absurd h List.not_mem_nil
    case h_1 es hes =>
      obtain ⟨entry, hentry, hx⟩ := verifiedScores_entry h
      unfold Gateway.verifyEntry at hx
      split at hx
      case h_1 =>
        -- an entry that cannot be read brings nothing
        split at hx
        · cases hx
        · cases hx
      case h_2 miner score proof hscore =>
        obtain ⟨verified, hverified, hx⟩ := bind_ok.mp hx
        cases verified with
        | false => cases hx
        | true =>
          obtain ⟨value, hvalue, hx⟩ := bind_ok.mp hx
          obtain rfl := Option.some.inj (return_ok.mp hx)
          have hminer : ∃ a, miner = toChecksum app.crypto a := by
            have hfields := hscore
            simp only [Gateway.readScore, bind_ok, return_ok, Prod.mk.injEq] at hfields
            obtain ⟨_, -, _, haddress, _, -, _, -, _, -, _, -, rfl, -, -⟩ := hfields
            exact toChecksumAddress_ok haddress
          unfold Gateway.verifyScore at hverified
          simp only [bind_ok, return_ok] at hverified
          obtain ⟨e, he, w, hw, path, hpath, htrue⟩ := hverified
          exact ⟨hminer, hvalue, e, w, path, encodeUint_ok he,
            ⟨epoch, entries, es, hread, hes, entry, hentry, miner, score, proof, w, path, hscore,
              hw, hpath, rfl⟩, hw, htrue⟩

end View

/-! ## The registry and the gateway -/

/-- The registry and the gateway's index. -/
structure Publication (T : Type) where
  chain : ScoringState T
  index : Gateway.MemberIndex

inductive PublicationLabel
  | chain (l : ScoringLabel)
  | event (e : Gateway.Event)
  | rebuild (events : List Gateway.Event)
  | announce (brainId now : Int) (body : Json)
  | scores (brainId : Int) (body : Json)

/-- A submission of scores is checked against the registry of the moment. -/
inductive PublicationStep (env : ScoringEnv T) (bytes32Of : Json → Py Bytes32)
    (app : Gateway.App) : Publication T → PublicationLabel → Publication T → Prop
  | chain {s : Publication T} {l : ScoringLabel} {t : ScoringState T}
      (hstep : ScoringStep env s.chain l t) :
      PublicationStep env bytes32Of app s (.chain l) { s with chain := t }
  | event {s : Publication T} (e : Gateway.Event) :
      PublicationStep env bytes32Of app s (.event e)
        { s with index := s.index.applyEvent app.unicode e }
  | rebuild {s : Publication T} (events : List Gateway.Event) :
      PublicationStep env bytes32Of app s (.rebuild events)
        { s with index := s.index.replaceMembership app.unicode events }
  | announce {s : Publication T} (brainId now : Int) (body : Json) :
      PublicationStep env bytes32Of app s (.announce brainId now body)
        { s with index := Gateway.announce app s.index brainId now body }
  | scores {s : Publication T} (brainId : Int) (body : Json) :
      PublicationStep env bytes32Of app s (.scores brainId body)
        { s with
          index := Gateway.submitScores (app.asking env bytes32Of s.chain.registry) s.index
            brainId body }

/-- What a label is on the chain. -/
def PublicationLabel.onChain : PublicationLabel → Option ScoringLabel
  | .chain l => some l
  | _ => none

section Published

variable {env : ScoringEnv T} {bytes32Of : Json → Py Bytes32} {app : Gateway.App}
  {o : Offchain} {fl : FloatArith F}

/-- The condition on proposals, in a run of both. -/
def Council.Watches (council : Council env o fl) (s : Publication T) : PublicationLabel → Prop
  | .chain l => council.Outvotes s.chain l
  | _ => True

variable (bytes32Of app) in
/-- The strings that are hashed: for the trees that honest validators stand for, and to check
what is submitted. -/
def Council.strings (council : Council env o fl) (ls : List PublicationLabel) : Set Bytes :=
  {m | (∃ e b leaves, council.StandsFor e b leaves ∧ m ∈ treeStrings env.crypto leaves) ∨
    ∃ brainId body w path, .scores brainId body ∈ ls ∧
      (w, path) ∈ proofsPresented bytes32Of app brainId body ∧
      m ∈ proofStrings env.crypto w path}

/-- An honest validator stands for a leaf of `(e, b)`, of a root that was finalized, with this
score for the miner. -/
structure Council.Gave (council : Council env o fl) (u : Unicode) (s : ScoringState T)
    (k : Gateway.MemberKey) (value : PyFloat) (e : Epoch) (b : BrainId) (leaf : ScoreLeaf) :
    Prop where
  brain : k.1 = b.val
  miner : ∃ a, hexAddress leaf.miner = some a ∧ k.2 = lower u (toChecksum env.crypto a)
  score : Gateway.floatOfInt leaf.score = .ok value
  final : (s.registry.epochs e b).finalizedAt ≠ 0
  stands : ∃ leaves hashed, council.StandsFor e b leaves ∧ leaf ∈ leaves ∧
    buildMerkleRoot env.crypto leaves = .ok ((s.registry.epochs e b).merkleRoot, hashed)

/-- Every score was given by an honest validator, or is the one an announcement starts with. -/
def Council.GaveAll (council : Council env o fl) (u : Unicode) (s : Publication T) : Prop :=
  ∀ k ep, s.index.endpoints k = some ep → ep.score = .finite 0 ∨
    ∃ e b leaf, council.Gave u s.chain k ep.score e b leaf

variable {council : Council env o fl} {s t : Publication T} {l : PublicationLabel}
  {ls : List PublicationLabel}

/-- What is final stays final, with its root. -/
theorem Council.Gave.step {u : Unicode} {s t : ScoringState T} {l : ScoringLabel}
    {k : Gateway.MemberKey} {value : PyFloat} {e : Epoch} {b : BrainId} {leaf : ScoreLeaf}
    (h : council.Gave u s k value e b leaf) (hinv : LifecycleInv s.registry)
    (hstep : ScoringStep env s l t) : council.Gave u t k value e b leaf := by
  have hroot : (s.registry.epochs e b).merkleRoot ≠ 0 :=
    fun hzero => h.final (hinv.fresh e b hzero).1
  refine { h with final := ?_, stands := ?_ }
  · rw [scoringStep_finalizedAt hstep hroot h.final]
    exact h.final
  · rw [scoringStep_root hstep hroot]
    exact h.stands

/-- A score that is submitted. -/
theorem submitted_given {x : Gateway.VerifiedScore} {brainId : Int} {body : Json}
    (happ : app.crypto = env.crypto) (ho : o.crypto = env.crypto)
    (hbacks : council.Backs s.chain)
    (hfree : env.crypto.CollisionFree (council.strings bytes32Of app ls))
    (hmem : .scores brainId body ∈ ls)
    (hx : x ∈ Gateway.submittedScores (app.asking env bytes32Of s.chain.registry) brainId body) :
    ∃ e b leaf, council.Gave app.unicode s.chain (brainId, lower app.unicode x.miner) x.value
      e b leaf := by
  obtain ⟨⟨a, ha⟩, hvalue, e, w, path, -, hpresented, hw, hverify⟩ := submitted_checked hx
  obtain ⟨hroot, hfinal, -, hproof⟩ := verifyScore_ok.mp hverify
  obtain ⟨leaves, hashed, hstands, hbuilt⟩ := hbacks e w.brainId hroot
  rw [ho] at hbuilt
  have hne : leaves ≠ [] := by
    rintro rfl
    -- there is nothing to sign for no leaves
    have hzero : buildMerkleRoot env.crypto [] = .ok (0, []) := by
      simp [buildMerkleRoot, merkleRoot, return_ok]
    rw [hzero] at hbuilt
    exact hroot (Prod.mk.inj (Except.ok.inj hbuilt)).1.symm
  obtain ⟨leaf, hleaf, hwords⟩ := leaf_of_verify hbuilt hne (hfree.mono (by
    rintro m (htree | hstring)
    · exact .inl ⟨e, w.brainId, leaves, hstands, htree⟩
    · exact .inr ⟨brainId, body, w, path, hmem, hpresented, hstring⟩)) hproof
  simp only [ScoreLeaf.words, bind_ok, return_ok] at hw hwords
  obtain ⟨b, hb, m, hm, n, hn, rfl⟩ := hw
  obtain ⟨b', hb', m', hm', n', hn', heq⟩ := hwords
  obtain ⟨rfl, rfl, rfl⟩ := LeafWords.mk.inj heq
  obtain ⟨_, ht, hxa⟩ := encodeAddress_ok hm
  obtain ⟨_, ht', hla⟩ := encodeAddress_ok hm'
  obtain rfl := Json.str.inj ht
  obtain rfl := Json.str.inj ht'
  have hscore : leaf.score = x.score := (encodeUint_ok hn').symm.trans (encodeUint_ok hn)
  rw [ha, hexAddress_toChecksum] at hxa
  refine ⟨e, b', leaf, (encodeUint_ok hb).symm, ⟨m', hla, ?_⟩, ?_, hfinal, leaves, hashed,
    hstands, hleaf, hbuilt⟩
  · rw [ha, happ, Option.some.inj hxa]
  · rw [hscore]
    exact hvalue

/-- The invariant of a run. -/
structure PublicationInv (council : Council env o fl) (u : Unicode) (s : Publication T) : Prop where
  lifecycle : LifecycleInv s.chain.registry
  backs : council.Backs s.chain
  gave : council.GaveAll u s

/-- A submission writes scores that were given. -/
theorem Council.GaveAll.scores {brainId : Int} {body : Json}
    (happ : app.crypto = env.crypto) (ho : o.crypto = env.crypto)
    (hfree : env.crypto.CollisionFree (council.strings bytes32Of app ls))
    (hmem : .scores brainId body ∈ ls) (h : PublicationInv council app.unicode s) :
    council.GaveAll app.unicode { s with
      index := Gateway.submitScores (app.asking env bytes32Of s.chain.registry) s.index
        brainId body } := by
  intro k ep hep
  dsimp only at hep
  rw [Gateway.submitScores, Gateway.setScores_endpoints] at hep
  split at hep
  case h_1 => exact h.gave k ep hep
  case h_2 x hlast =>
    obtain ⟨old, -, rfl⟩ := Option.map_eq_some_iff.mp hep
    have hx := Gateway.mem_scoresOf.mp (List.mem_of_getLast? hlast)
    obtain ⟨y, hy, heq⟩ := List.mem_map.mp hx
    obtain ⟨rfl, rfl⟩ := Prod.mk.inj heq
    exact .inr (submitted_given happ ho h.backs hfree hmem hy)

/-- **One step.** -/
theorem PublicationInv.step (h : PublicationInv council app.unicode s)
    (hstep : PublicationStep env bytes32Of app s l t) (hwatches : council.Watches s l)
    (hmem : l ∈ ls) (happ : app.crypto = env.crypto) (ho : o.crypto = env.crypto)
    (hunforged : env.crypto.Unforged council.signedBy
      (rootsProposed env (ls.filterMap PublicationLabel.onChain)))
    (hmessages : env.crypto.DigestsCollisionFree
      (council.messages (ls.filterMap PublicationLabel.onChain)))
    (hfree : env.crypto.CollisionFree (council.strings bytes32Of app ls)) :
    PublicationInv council app.unicode t := by
  cases hstep with
  | chain hchain =>
    refine ⟨scoringStep_lifecycleInv hchain h.lifecycle,
      h.backs.step hchain hwatches (List.mem_filterMap.mpr ⟨_, hmem, rfl⟩) hunforged hmessages, ?_⟩
    intro k ep hep
    rcases h.gave k ep hep with hzero | ⟨e, b, leaf, hgave⟩
    · exact .inl hzero
    · exact .inr ⟨e, b, leaf, hgave.step h.lifecycle hchain⟩
  | event e =>
    refine ⟨h.lifecycle, h.backs, fun k ep hep => h.gave k ep ?_⟩
    dsimp only at hep
    rw [Gateway.MemberIndex.endpoints_applyEvent] at hep
    -- an event drops an endpoint, if it does anything to them
    split at hep
    · cases hep
    · exact hep
  | rebuild events =>
    refine ⟨h.lifecycle, h.backs, fun k ep hep => h.gave k ep ?_⟩
    dsimp only at hep
    rw [Gateway.MemberIndex.replace_endpoints] at hep
    split at hep
    · cases hep
    · exact hep
  | announce brainId now body =>
    refine ⟨h.lifecycle, h.backs, fun k ep hep => ?_⟩
    dsimp only at hep
    unfold Gateway.announce at hep
    split at hep
    · exact h.gave k ep hep
    · rename_i a hadmitted
      unfold Gateway.MemberIndex.announce at hep
      dsimp only at hep
      rw [Function.update_apply] at hep
      split at hep
      · -- whoever announces itself starts at 0
        obtain rfl := Option.some.inj hep
        exact .inl rfl
      · exact h.gave k ep hep
  | scores brainId body =>
    exact ⟨h.lifecycle, h.backs, .scores happ ho hfree hmem h⟩

/--
**A listed score was given by an honest validator.** In every run of the registry and the
gateway, with whatever is proposed, challenged, staked, announced and submitted by anyone: if
dishonest validators never hold more than half of the stake of a Brain that a root is proposed
for, then every score that is listed is 0, or it is that of a leaf for this miner of a
finalized root, which an honest validator of the Brain stands for. Signatures of proposals must
not be forged, and what is hashed must not collide.
-/
theorem listed_scores_honest {now : Nat} {t₀ : T} {admin : Address} {idx : Gateway.MemberIndex}
    (hempty : ∀ k, idx.endpoints k = none)
    (hrun : Run (restrict (PublicationStep env bytes32Of app) council.Watches)
      ⟨.deploy now t₀ admin, idx⟩ ls s)
    (happ : app.crypto = env.crypto) (ho : o.crypto = env.crypto)
    (hunforged : env.crypto.Unforged council.signedBy
      (rootsProposed env (ls.filterMap PublicationLabel.onChain)))
    (hmessages : env.crypto.DigestsCollisionFree
      (council.messages (ls.filterMap PublicationLabel.onChain)))
    (hfree : env.crypto.CollisionFree (council.strings bytes32Of app ls)) :
    ∀ brainId now, ∀ m ∈ s.index.listMiners brainId now, m.score = .finite 0 ∨
      ∃ e b leaf, council.Gave app.unicode s.chain (brainId, m.address) m.score e b leaf := by
  have hlabels : Run (restrict (restrict (PublicationStep env bytes32Of app) council.Watches)
      fun _ l => l ∈ ls) ⟨.deploy now t₀ admin, idx⟩ ls s :=
    hrun.restrict_labels fun l hl => hl
  have hinv : PublicationInv council app.unicode s := by
    refine hlabels.invariant (I := PublicationInv council app.unicode) ?_
      ⟨lifecycleInv_deploy, fun e b hroot => absurd rfl hroot, ?_⟩
    · intro s l t hstep hs
      obtain ⟨⟨hstep, hwatches⟩, hmem⟩ := hstep
      exact hs.step hstep hwatches hmem happ ho hunforged hmessages hfree
    · intro k ep hep
      have hnone : idx.endpoints k = some ep := hep
      rw [hempty k] at hnone
      cases hnone
  intro brainId now m hm
  obtain ⟨-, ep, hep, -, -, hscore⟩ := Gateway.MemberIndex.mem_listMiners.mp hm
  rw [hscore]
  exact hinv.gave _ ep hep

end Published

/-! ## Posting canonical rows -/

/-- What anyone who has the canonical rows can post of one of them. -/
def rowEntry (crypto : Crypto) (brainId : Int) (rows : List ScoreRow) (row : ScoreRow) :
    Py Json := do
  let proof ← buildProof crypto (canonicalLeaves brainId rows) ⟨brainId, row.miner, row.score⟩
  return .dict [
    (text "miner", .str row.miner),
    (text "score", .int row.score),
    (text "proof", .list (proof.map fun node => .str (hexText node)))]

/-- The body of a submission. -/
def rowsBody (epoch : Int) (entries : List Json) : Json :=
  .dict [(text "epoch", .int epoch), (text "entries", .list entries)]

/-- The score of a row, as the gateway keeps it. -/
def ScoreRow.verified (epoch : Int) (row : ScoreRow) : Gateway.VerifiedScore :=
  ⟨epoch, row.miner, row.score, .finite row.score⟩

section Rows

variable {env : ScoringEnv T} {bytes32Of : Json → Py Bytes32} {app : Gateway.App}
  {r : ScoringRegistry} {rows : List ScoreRow} {row : ScoreRow} {e : Epoch} {b : BrainId}
  {hashed : List Bytes32}

/-- A score in range is a double. -/
theorem floatOfInt_score {o : Offchain} (h : row.Proper o) :
    Gateway.floatOfInt row.score = .ok (.finite row.score) := by
  obtain ⟨-, hlow, hhigh⟩ := h
  have hfits : Js.Fits 53 row.score.natAbs :=
    ⟨row.score.natAbs, 0, by omega, by rw [pow_zero, Nat.mul_one]⟩
  have hbound : 2 ^ 53 ≤ 2 ^ 1024 := by decide +kernel
  unfold Gateway.floatOfInt
  rw [Js.roundInt_of_fits hfits, if_pos]
  exact lt_of_lt_of_le (by omega) hbound

theorem mapM_hexText (hread : ∀ w, bytes32Of (.str (hexText w)) = .ok w) (path : List Bytes32) :
    (path.map fun node => Json.str (hexText node)).mapM bytes32Of = .ok path := by
  induction path with
  | nil => rfl
  | cons node rest ih =>
    rw [List.map_cons, List.mapM_cons, hread, ih]
    rfl

/-- An entry is accepted, with the score of its row. -/
theorem rowEntry_verified {o : Offchain} (happ : app.crypto = env.crypto)
    (ho : o.crypto = env.crypto) (hread : ∀ w, bytes32Of (.str (hexText w)) = .ok w)
    (hbuilt : buildMerkleRoot env.crypto (canonicalLeaves b.val rows) =
      .ok ((r.epochs e b).merkleRoot, hashed))
    (hset : (r.epochs e b).merkleRoot ≠ 0) (hfinal : (r.epochs e b).finalizedAt ≠ 0)
    (hvalid : (r.epochs e b).invalidated = false) (hrow : row ∈ rows) (hproper : row.Proper o) :
    ∃ entry, rowEntry env.crypto b.val rows row = .ok entry ∧
      Gateway.verifyEntry app (Gateway.verifyScore env bytes32Of r) e.val b.val entry =
        .ok (some (row.verified e.val)) := by
  have hleaf : (⟨b.val, row.miner, row.score⟩ : ScoreLeaf) ∈ canonicalLeaves b.val rows :=
    List.mem_map.mpr ⟨row, hrow, rfl⟩
  obtain ⟨path, w, hproof, hw, hpath⟩ := buildProof_ok hbuilt hleaf
  have hbrain : w.brainId = b := by
    have hfields := hw
    simp only [ScoreLeaf.words, bind_ok, return_ok] at hfields
    obtain ⟨b', hb', _, -, _, -, rfl⟩ := hfields
    exact Fin.ext (Int.ofNat_inj.mp (encodeUint_ok hb'))
  subst hbrain
  have hverify : ScoringRegistry.verifyScore env r e w.brainId w.miner w.score path = true :=
    verifyScore_ok.mpr ⟨hset, hfinal, hvalid, verify_iff.mpr hpath.climb⟩
  have hepoch : encodeUint 64 e.val = .ok e := encodeUint_eq e.isLt
  have hminer : toChecksumAddress app.crypto (.str row.miner) = .ok row.miner := by
    obtain ⟨a, ha⟩ := hproper.1
    rw [ha, ho, happ]
    exact toChecksumAddress_str.mpr ⟨a, hexAddress_toChecksum _ a, rfl⟩
  refine ⟨_, by rw [rowEntry, hproof]; rfl, ?_⟩
  have hscore : Gateway.readScore app (.dict [(text "miner", .str row.miner),
      (text "score", .int row.score),
      (text "proof", .list (path.map fun node => .str (hexText node)))]) =
      .ok (row.miner, row.score, path.map fun node => .str (hexText node)) := by
    simp only [Gateway.readScore, bind_ok, return_ok]
    exact ⟨_, rfl, _, hminer, _, rfl, _, rfl, _, rfl, _, rfl, rfl⟩
  unfold Gateway.verifyEntry
  rw [hscore]
  dsimp only
  rw [Gateway.verifyScore, hepoch, ok_bind, hw, ok_bind, mapM_hexText hread, ok_bind, hverify,
    floatOfInt_score hproper]
  rfl

/-- All the entries, in order. -/
theorem rowEntries_verified {o : Offchain} (happ : app.crypto = env.crypto)
    (ho : o.crypto = env.crypto) (hread : ∀ w, bytes32Of (.str (hexText w)) = .ok w)
    (hbuilt : buildMerkleRoot env.crypto (canonicalLeaves b.val rows) =
      .ok ((r.epochs e b).merkleRoot, hashed))
    (hset : (r.epochs e b).merkleRoot ≠ 0) (hfinal : (r.epochs e b).finalizedAt ≠ 0)
    (hvalid : (r.epochs e b).invalidated = false) (hproper : ∀ row ∈ rows, row.Proper o)
    {chosen : List ScoreRow} (hchosen : ∀ row ∈ chosen, row ∈ rows) :
    ∃ entries, chosen.mapM (rowEntry env.crypto b.val rows) = .ok entries ∧
      Gateway.verifiedScores app (Gateway.verifyScore env bytes32Of r) e.val b.val entries =
        (chosen.map (ScoreRow.verified e.val), none) := by
  induction chosen with
  | nil => exact ⟨[], rfl, rfl⟩
  | cons row rest ih =>
    obtain ⟨hrow, hrest⟩ := List.forall_mem_cons.mp hchosen
    obtain ⟨entry, hentry, hverified⟩ := rowEntry_verified happ ho hread hbuilt hset hfinal hvalid
      hrow (hproper row hrow)
    obtain ⟨entries, hentries, hall⟩ := ih hrest
    refine ⟨entry :: entries, ?_, ?_⟩
    · rw [List.mapM_cons, hentry, ok_bind, hentries]
      rfl
    · rw [Gateway.verifiedScores, hverified]
      dsimp only
      rw [hall]
      rfl

/-- Rows for different miners are under different keys. -/
theorem row_of_key {o : Offchain} {u : Unicode} (h : ProperRows o rows) {row row' : ScoreRow}
    (hrow : row ∈ rows) (hrow' : row' ∈ rows) (hkey : lower u row.miner = lower u row'.miner) :
    row = row' := by
  obtain ⟨a, ha⟩ := (h.proper row hrow).1
  obtain ⟨a', ha'⟩ := (h.proper row' hrow').1
  have hsame : a = a' := by
    refine @hexAddress_eq_of_lower u _ _ _ _ (hexAddress_toChecksum o.crypto a)
      (hexAddress_toChecksum o.crypto a') ?_
    rw [← ha, ← ha', hkey]
  exact List.inj_on_of_nodup_map h.once hrow hrow' (by rw [ha, ha', hsame])

/-- What a submission of the rows leaves of the scores of one key. -/
theorem scoresOf_rows {o : Offchain} {u : Unicode} (h : ProperRows o rows) (brainId epoch : Int)
    (k : Gateway.MemberKey) :
    (∀ row ∈ rows, k = (brainId, lower u row.miner) →
      (Gateway.scoresOf ((rows.map (ScoreRow.verified epoch)).map
        fun x => ((brainId, lower u x.miner), x)) k).getLast? = some (row.verified epoch)) ∧
    ((∀ row ∈ rows, k ≠ (brainId, lower u row.miner)) →
      (Gateway.scoresOf ((rows.map (ScoreRow.verified epoch)).map
        fun x => ((brainId, lower u x.miner), x)) k).getLast? = none) := by
  have hfrom : ∀ x ∈ Gateway.scoresOf ((rows.map (ScoreRow.verified epoch)).map
      fun x => ((brainId, lower u x.miner), x)) k, ∃ row ∈ rows,
        k = (brainId, lower u row.miner) ∧ x = row.verified epoch := by
    intro x hx
    obtain ⟨_, hy, heq⟩ := List.mem_map.mp (Gateway.mem_scoresOf.mp hx)
    obtain ⟨row, hrow, rfl⟩ := List.mem_map.mp hy
    obtain ⟨hk, rfl⟩ := Prod.mk.inj heq
    exact ⟨row, hrow, hk.symm, rfl⟩
  constructor
  · intro row hrow hk
    have hin : row.verified epoch ∈ Gateway.scoresOf ((rows.map (ScoreRow.verified epoch)).map
        fun x => ((brainId, lower u x.miner), x)) k :=
      Gateway.mem_scoresOf.mpr (List.mem_map.mpr
        ⟨row.verified epoch, List.mem_map_of_mem hrow, by rw [hk]; rfl⟩)
    obtain ⟨x, hx⟩ := Option.isSome_iff_exists.mp
      (List.getLast?_isSome.mpr (List.ne_nil_of_mem hin))
    obtain ⟨row', hrow', hk', rfl⟩ := hfrom x (List.mem_of_getLast? hx)
    obtain rfl := row_of_key h hrow hrow' (Prod.mk.inj (hk.symm.trans hk')).2
    exact hx
  · intro hother
    rw [List.getLast?_eq_none_iff, List.eq_nil_iff_forall_not_mem]
    intro x hx
    obtain ⟨row, hrow, hk, -⟩ := hfrom x hx
    exact hother row hrow hk

/-- A submission all of whose entries are verified is answered with their number. -/
theorem submitReply_ok {app : Gateway.App} {verify : Gateway.ScoreVerifier} {brainId epoch : Int}
    {body entries : Json} {es : List Json} {scores : List Gateway.VerifiedScore}
    (hasks : app.verifyScore = some verify)
    (hbody : Gateway.readSubmission app body = .ok (epoch, entries))
    (hes : entries.iterate = .ok es)
    (hverified : Gateway.verifiedScores app verify epoch brainId es = (scores, none)) :
    Gateway.submitReply app brainId body =
      .ok (200, .dict [(text "ok", .bool true), (text "applied", .int scores.length)]) := by
  unfold Gateway.submitReply
  rw [hasks]
  dsimp only
  rw [hbody]
  simp only [Gateway.attemptElse, Gateway.attempt, Except.mapError, ok_bind]
  rw [hes]
  dsimp only
  rw [ok_bind, hverified]
  rfl

/--
**Canonical scores reach the list.** Whatever was submitted to the pool, with whatever stakes,
and whatever has happened to the registry: if the root of the rows that are frozen for `(e, b)`
is final and was not invalidated, there is a proof for every row, and whoever posts the rows with
these proofs is answered that all of them are applied. Each miner that has announced itself then
has the score of its row, and nothing else changes.
-/
theorem canonical_rows_listed {o : Offchain} {domain : CommitmentDomain}
    {requests : List (Stakes × Option Json)} {frozen : Frozen} {now : Nat} {t₀ : T}
    {admin : Address} {ls : List ScoringLabel} {s : ScoringState T}
    (hfrozen : (CanonicalCandidatePool.served o domain requests).frozen e.val b.val = some frozen)
    (hrun : Run (ScoringStep env) (.deploy now t₀ admin) ls s)
    (hroot : frozen.root = hexText (s.registry.epochs e b).merkleRoot)
    (hfinal : (s.registry.epochs e b).finalizedAt ≠ 0)
    (hvalid : (s.registry.epochs e b).invalidated = false)
    (happ : app.crypto = env.crypto) (ho : o.crypto = env.crypto)
    (hread : ∀ w, bytes32Of (.str (hexText w)) = .ok w) :
    ∃ entries, frozen.rows.mapM (rowEntry env.crypto b.val frozen.rows) = .ok entries ∧
      Gateway.submitReply (app.asking env bytes32Of s.registry) b.val (rowsBody e.val entries) =
        .ok (200, .dict [(text "ok", .bool true),
          (text "applied", .int frozen.rows.length)]) ∧
      ∀ (idx idx' : Gateway.MemberIndex),
        idx' = Gateway.submitScores (app.asking env bytes32Of s.registry) idx b.val
          (rowsBody e.val entries) →
        (∀ row ∈ frozen.rows, idx'.endpoints (b.val, lower app.unicode row.miner) =
          (idx.endpoints (b.val, lower app.unicode row.miner)).map fun ep =>
            { ep with score := .finite row.score }) ∧
        ∀ k : Gateway.MemberKey,
          (∀ row ∈ frozen.rows, k ≠ ((b.val : Int), lower app.unicode row.miner)) →
            idx'.endpoints k = idx.endpoints k := by
  have hpool := served_proper (o := o) domain requests
  have hproper : ProperRows o frozen.rows := hpool.rows _ _ _ hfrozen
  obtain ⟨root, hashed, hbuilt, htext⟩ := hpool.rooted _ _ _ hfrozen
  obtain rfl : (s.registry.epochs e b).merkleRoot = root := hexText_inj (hroot.symm.trans htext)
  rw [ho] at hbuilt
  have hset : (s.registry.epochs e b).merkleRoot ≠ 0 :=
    fun hzero => hfinal ((scoringRun_lifecycleInv hrun).fresh e b hzero).1
  have hasking : (app.asking env bytes32Of s.registry).crypto = env.crypto := happ
  obtain ⟨entries, hentries, hverified⟩ := rowEntries_verified hasking ho hread hbuilt hset hfinal
    hvalid hproper.proper fun row hrow => hrow
  refine ⟨entries, hentries, ?_, ?_⟩
  · have hcount : Gateway.submitReply (app.asking env bytes32Of s.registry) b.val
        (rowsBody e.val entries) = .ok (200, .dict [(text "ok", .bool true),
          (text "applied", .int (frozen.rows.map (ScoreRow.verified e.val)).length)]) := by
      exact submitReply_ok rfl rfl rfl hverified
    rw [hcount, List.length_map]
  · rintro idx _ rfl
    have hsubmitted : Gateway.submittedScores (app.asking env bytes32Of s.registry) b.val
        (rowsBody e.val entries) = frozen.rows.map (ScoreRow.verified e.val) :=
      congrArg Prod.fst hverified
    have hwritten : Gateway.submitScores (app.asking env bytes32Of s.registry) idx b.val
        (rowsBody e.val entries) = (frozen.rows.map (ScoreRow.verified e.val)).foldl
          (fun idx v => idx.setScore app.unicode b.val v.miner v.value) idx := by
      rw [← hsubmitted]
      rfl
    rw [hwritten]
    refine ⟨fun row hrow => ?_, fun k hother => ?_⟩
    · rw [Gateway.setScores_endpoints, (scoresOf_rows hproper b.val e.val _).1 row hrow rfl]
      rfl
    · rw [Gateway.setScores_endpoints, (scoresOf_rows hproper b.val e.val k).2 hother]

end Rows

/-! ## Scores on their way -/

/-- A toy registry with few collisions. -/
abbrev toyMeasured : ScoringEnv Ledger := toyScoringOver toyResidues

/-- The services over this hash. -/
def toyServices : Offchain := { toyOffchain with crypto := toyResidues }

def toyGateway : Gateway.App := { Gateway.toyApp with crypto := toyResidues }

def toyFive : Text := text "0x0000000000000000000000000000000000000005"
def toySix : Text := text "0x0000000000000000000000000000000000000006"
def toyNine : Text := text "0x0000000000000000000000000000000000000009"

/-- Miner 6 is slower than miner 5. -/
def toyOther : MinerObservation := { toyObservation with miner := .str toySix, latencyMs := 300 }

/-- Validator 7 after it has sent its candidate for epoch 0. -/
def toyHonest : HonestValidator toyServices toyFloat where
  validator := toyValidator
  labels := [.post 0 [toyObservation, toyOther]]
  state := ValidatorState.start.exec toyServices toyFloat toyValidator
    (.post 0 [toyObservation, toyOther])
  run := .single rfl

/-- It signs the root over both scores. -/
theorem toyHonest_emitted :
    toyHonest.state.emitted = [⟨⟨1, 4, 0, 3, 30944⟩, [7, 188]⟩] := by
  decide +kernel

/-- What the two validators sign: validator 8 signs another root next to that of validator 7. -/
def toyRootsSigned : Address → Set Bytes
  | 7 => {commitmentPreimage toyMeasured 0 3 30944}
  | 8 => {commitmentPreimage toyMeasured 0 3 30944, commitmentPreimage toyMeasured 0 3 77}
  | _ => ∅

/-- Validator 7 is honest, and validator 8 is not. -/
def toyCouncil : Council toyMeasured toyServices toyFloat where
  member u := if u = 7 then some toyHonest else none
  signedBy := toyRootsSigned
  keys := by
    intro u h hmember e b root hsigned
    split at hmember
    case isTrue hu =>
      subst hu
      obtain rfl := Option.some.inj hmember
      refine ⟨⟨⟨1, 4, 0, 3, 30944⟩, [7, 188]⟩, ?_, ?_⟩
      · rw [toyHonest_emitted]
        exact List.mem_cons_self
      · have hsame : commitmentPreimage toyMeasured e b root =
            commitmentPreimage toyMeasured 0 3 30944 := hsigned
        rw [hsame]
        rfl
    case isFalse => cases hmember

/-- Two miners have scores, so the proof for one of them is the hash of the other. -/
def toyRows : List ScoreRow := [⟨toyFive, 750000⟩, ⟨toySix, 616666⟩]

def toyLeaves : List ScoreLeaf := canonicalLeaves 3 toyRows

def toyRowWords : List LeafWords := [⟨3, 5, 750000⟩, ⟨3, 6, 616666⟩]

theorem toyLeaves_root : buildMerkleRoot toyResidues toyLeaves = .ok (30944, [13004, 64405]) :=
  toOption_ok.mp (by decide +kernel)

theorem toyFive_proof :
    buildProof toyResidues toyLeaves ⟨3, toyFive, 750000⟩ = .ok [64405] :=
  toOption_ok.mp (by decide +kernel)

/-- An announcement at the moment 100, signed as it is. -/
def toyAnnounces (miner signature : Text) : Json :=
  .dict [
    (text "address", .str miner),
    (text "url", .str (text "https://m")),
    (text "ts", .int 100),
    (text "signature", .str signature)]

/-- The post of the score of miner 5. -/
def toyFivePosted : Json :=
  .dict [
    (text "epoch", .int 0),
    (text "entries", .list [.dict [
      (text "miner", .str toyFive),
      (text "score", .int 750000),
      (text "proof", .list [.str (hexText 64405)])]])]

/-- web3 reads the text of a word. -/
def wordOf : Json → Py Bytes32
  | .str t => rootOfText t
  | _ => .error .typeError

/-- Validators 7 and 8 stake, their root is proposed, and becomes final. -/
def toyFinality : List ScoringLabel := [
  .vault (toyBlockAt 200) 2 (.stake 3 7 1000),
  .vault (toyBlockAt 250) 5 (.stake 3 8 700),
  .registry (toyBlockAt 3600) (.proposeEpoch 0 3 30944 [7, 8] [[7, 188], [8, 188]]),
  .registry (toyBlockAt 7200) (.finalizeEpoch 0 3)]

/-- Three miners, with the signatures of what they announce. -/
def toyMiners : List (Text × Text) :=
  [(toyFive, text "0x05d7"), (toySix, text "0x06d7"), (toyNine, text "0x09d7")]

/-- They register, and announce themselves. -/
def toyArrivals : List PublicationLabel :=
  toyMiners.map (fun m => .event ⟨.minerRegistered, 3, m.1, 1, 0⟩) ++
    toyMiners.map fun m => .announce 3 100 (toyAnnounces m.1 m.2)

/-- Then somebody posts the score of miner 5. -/
def toyPublishing : List PublicationLabel :=
  toyFinality.map .chain ++ (toyArrivals ++ [.scores 3 toyFivePosted])

/-- The index once miners have registered, and once they have announced themselves. -/
def registerAll (idx : Gateway.MemberIndex) (ms : List (Text × Text)) : Gateway.MemberIndex :=
  ms.foldl (fun idx m => Gateway.MemberIndex.applyEvent toyGateway.unicode idx
    ⟨.minerRegistered, 3, m.1, 1, 0⟩) idx

def announceAll (idx : Gateway.MemberIndex) (ms : List (Text × Text)) : Gateway.MemberIndex :=
  ms.foldl (fun idx m => Gateway.announce toyGateway idx 3 100 (toyAnnounces m.1 m.2)) idx

def toyAwaiting : Gateway.MemberIndex :=
  announceAll (registerAll (.empty Gateway.toyPollerConfig) toyMiners) toyMiners

/-- The score a miner has after the post. -/
def toyScoreAfter (r : ScoringRegistry) (miner : Text) : Option PyFloat :=
  ((Gateway.submitScores (toyGateway.asking toyMeasured wordOf r) toyAwaiting 3
    toyFivePosted).endpoints (3, miner)).map (·.score)

/-- The root is final, and the post brings the score of miner 5 alone. -/
theorem toyFinality_run : ∃ s, Run (restrict (ScoringStep toyMeasured) toyCouncil.Outvotes)
    (.deploy 0 toyLedger 9) toyFinality s ∧
    (s.registry.epochs 0 3).merkleRoot = 30944 ∧ (s.registry.epochs 0 3).finalizedAt = 7200 ∧
    (s.registry.epochs 0 3).invalidated = false ∧
    toyScoreAfter s.registry toyFive = some (.finite 750000) ∧
    toyScoreAfter s.registry toySix = some (.finite 0) := by
  have hruns : (do
      let v ← (VaultCall.stake 3 7 1000).exec toyMeasured.staking (toyBlockAt 200) 2
        ⟨toyLedger, .deploy 9⟩
      let v' ← (VaultCall.stake 3 8 700).exec toyMeasured.staking (toyBlockAt 250) 5 v
      let t ← (ScoringCall.proposeEpoch 0 3 30944 [7, 8] [[7, 188], [8, 188]]).exec toyMeasured
        (toyBlockAt 3600) ⟨250, v', .deploy⟩
      let t' ← (ScoringCall.finalizeEpoch 0 3).exec toyMeasured (toyBlockAt 7200)
        { t with now := 3600 }
      return ((v'.vault.brainStake 3, v'.vault.validatorStake 3 7),
        ((t'.registry.epochs 0 3).merkleRoot, (t'.registry.epochs 0 3).finalizedAt,
          (t'.registry.epochs 0 3).invalidated),
        toyScoreAfter t'.registry toyFive, toyScoreAfter t'.registry toySix) :
      Exec ((Nat × Nat) × (Bytes32 × Nat × Bool) × Option PyFloat × Option PyFloat)).toOption =
        some ((1700, 1000), (30944, 7200, false), some (.finite 750000), some (.finite 0)) := by
    decide +kernel
  have hruns := toOption_ok.mp hruns
  simp only [bind_ok, return_ok, Prod.mk.injEq] at hruns
  obtain ⟨v, hv, v', hv', t, ht, t', ht', ⟨htotal, hseven⟩, ⟨hroot, hfinal, hvalid⟩, hfive, hsix⟩ :=
    hruns
  have hfirst : ScoringStep toyMeasured (.deploy 0 toyLedger 9)
      (.vault (toyBlockAt 200) 2 (.stake 3 7 1000)) ⟨200, v, .deploy⟩ :=
    .vault _ 2 _ (by decide) (by decide) (by decide) hv
  have hsecond : ScoringStep toyMeasured ⟨200, v, .deploy⟩
      (.vault (toyBlockAt 250) 5 (.stake 3 8 700)) ⟨250, v', .deploy⟩ :=
    .vault _ 5 _ (show (200 : Nat) ≤ 250 by decide) (by decide) (by decide) hv'
  have hvault : VaultInv v'.vault :=
    scoringStep_vaultInv hsecond (scoringStep_vaultInv hfirst (vaultInv_deploy 9))
  -- validator 7 holds half of the stake, and more
  have hhalf : toyCouncil.Outvotes ⟨250, v', .deploy⟩ (.registry (toyBlockAt 3600)
      (.proposeEpoch 0 3 30944 [7, 8] [[7, 188], [8, 188]])) := by
    refine toyCouncil.outvotes_of_half hvault (List.nodup_singleton 7) ?_ ?_ _ _ _ _ _
    · intro u hu
      rw [List.mem_singleton.mp hu]
      exact Option.some_ne_none _
    · show v'.vault.brainStake 3 ≤ 2 * weightOf (v'.vault.validatorStake 3) [7]
      rw [htotal, weightOf, List.map_singleton, List.sum_singleton, hseven]
      decide
  refine ⟨_, .cons ⟨hfirst, trivial⟩ (.cons ⟨hsecond, trivial⟩
    (.cons ⟨.registry _ _ (show (250 : Nat) ≤ 3600 by decide) ht, hhalf⟩
      (.single ⟨.registry _ _ (show (3600 : Nat) ≤ 7200 by decide) ht', trivial⟩))), hroot,
    hfinal, hvalid, hfive, hsix⟩

/-- What happens on the chain leaves the index alone. -/
theorem toyFinality_published {c c' : ScoringState Ledger} {ls : List ScoringLabel}
    {idx : Gateway.MemberIndex}
    (h : Run (restrict (ScoringStep toyMeasured) toyCouncil.Outvotes) c ls c') :
    Run (restrict (PublicationStep toyMeasured wordOf toyGateway) toyCouncil.Watches) ⟨c, idx⟩
      (ls.map .chain) ⟨c', idx⟩ := by
  induction h with
  | nil c => exact .nil _
  | cons hstep _ ih => exact .cons ⟨.chain hstep.1, hstep.2⟩ ih

/-- The miners arrive one after the other. -/
theorem toyArrivals_published (c : ScoringState Ledger) (ms : List (Text × Text))
    (idx : Gateway.MemberIndex) :
    Run (restrict (PublicationStep toyMeasured wordOf toyGateway) toyCouncil.Watches) ⟨c, idx⟩
        (ms.map fun m => .event ⟨.minerRegistered, 3, m.1, 1, 0⟩) ⟨c, registerAll idx ms⟩ ∧
      Run (restrict (PublicationStep toyMeasured wordOf toyGateway) toyCouncil.Watches) ⟨c, idx⟩
        (ms.map fun m => .announce 3 100 (toyAnnounces m.1 m.2)) ⟨c, announceAll idx ms⟩ := by
  induction ms generalizing idx with
  | nil => exact ⟨.nil _, .nil _⟩
  | cons m ms ih =>
    exact ⟨.cons ⟨.event _, trivial⟩ (ih _).1, .cons ⟨.announce _ _ _, trivial⟩ (ih _).2⟩

/-- Anything may be posted. -/
theorem toyPost_published (c : ScoringState Ledger) (idx : Gateway.MemberIndex) (body : Json) :
    restrict (PublicationStep toyMeasured wordOf toyGateway) toyCouncil.Watches ⟨c, idx⟩
      (.scores 3 body)
      ⟨c, Gateway.submitScores (toyGateway.asking toyMeasured wordOf c.registry) idx 3 body⟩ :=
  ⟨.scores 3 body, trivial⟩

theorem toyAwaiting_published (c : ScoringState Ledger) :
    Run (restrict (PublicationStep toyMeasured wordOf toyGateway) toyCouncil.Watches)
      ⟨c, .empty Gateway.toyPollerConfig⟩ toyArrivals ⟨c, toyAwaiting⟩ := by
  unfold toyArrivals toyAwaiting
  exact (toyArrivals_published c toyMiners _).1.append (toyArrivals_published c toyMiners _).2

/-- All three are registered, and have an endpoint with no score. -/
theorem toyAwaiting_known : toyAwaiting.miners 3 = [toyFive, toySix, toyNine] ∧
    (toyAwaiting.endpoints (3, toyFive)).map (·.score) = some (.finite 0) ∧
    (toyAwaiting.endpoints (3, toySix)).map (·.score) = some (.finite 0) ∧
    (toyAwaiting.endpoints (3, toyNine)).map (·.score) = some (.finite 0) := by
  decide +kernel

/-- A post changes nothing about who is registered. -/
theorem toyPosted_miners (c : ScoringState Ledger) :
    (Gateway.submitScores (toyGateway.asking toyMeasured wordOf c.registry) toyAwaiting 3
      toyFivePosted).miners 3 = [toyFive, toySix, toyNine] := by
  obtain ⟨hmembers, -⟩ := Gateway.submitScores_members
    (toyGateway.asking toyMeasured wordOf c.registry) toyAwaiting 3 toyFivePosted
  rw [hmembers]
  exact toyAwaiting_known.1

/-- All of it goes through, and the score of miner 5 is listed. -/
theorem toyPublishing_run : ∃ s, Run (restrict (PublicationStep toyMeasured wordOf toyGateway)
    toyCouncil.Watches) ⟨.deploy 0 toyLedger 9, .empty Gateway.toyPollerConfig⟩ toyPublishing s ∧
    s.index.miners 3 = [toyFive, toySix, toyNine] ∧
    (s.index.endpoints (3, toyFive)).map (·.score) = some (.finite 750000) := by
  obtain ⟨c, hchain, -, -, -, hfive, -⟩ := toyFinality_run
  have hpost := toyPost_published c toyAwaiting toyFivePosted
  have hminers := toyPosted_miners c
  unfold toyScoreAfter at hfive
  generalize Gateway.submitScores (toyGateway.asking toyMeasured wordOf c.registry) toyAwaiting 3
    toyFivePosted = idx at hpost hminers hfive
  exact ⟨⟨c, idx⟩, (toyFinality_published hchain).append
    ((toyAwaiting_published c).append (.single hpost)), hminers, hfive⟩

/-- The leaves that validator 7 stands for. -/
theorem toyCouncil_leaves {e : Epoch} {b : BrainId} {leaves : List ScoreLeaf}
    (h : toyCouncil.StandsFor e b leaves) : leaves = toyLeaves := by
  have hposted : (posted toyServices toyFloat toyValidator 0 [toyObservation, toyOther]).map
      (fun c => c.leaves) = some toyLeaves := by
    decide +kernel
  obtain ⟨u, h, hmember, -, hvouched⟩ := h
  have hsome : (if u = 7 then some toyHonest else none) = some h := hmember
  split at hsome
  case isFalse => cases hsome
  case isTrue =>
    obtain rfl := Option.some.inj hsome
    cases hvouched with
    | own hpost hc =>
      obtain ⟨hepoch, rfl⟩ := ValidatorLabel.post.inj (List.mem_singleton.mp hpost)
      rw [hepoch] at hc
      have hc : posted toyServices toyFloat toyValidator 0 [toyObservation, toyOther] = some _ :=
        hc
      rw [hc] at hposted
      exact Option.some.inj hposted
    | canonical hfrozen =>
      -- nobody has submitted anything
      have hpool : toyHonest.state.pool = .empty := by
        show (ValidatorState.start.exec toyServices toyFloat toyValidator
          (.post 0 [toyObservation, toyOther])).pool = ValidatorState.start.pool
        unfold ValidatorState.exec
        dsimp only [ValidatorState.start]
        split
        · rfl
        · rfl
      rw [hpool] at hfrozen
      cases hfrozen

theorem toyFivePosted_proofs {w : LeafWords} {path : List Bytes32}
    (h : (w, path) ∈ proofsPresented wordOf toyGateway 3 toyFivePosted) :
    (⟨3, toyFive, 750000⟩ : ScoreLeaf).words = .ok w ∧ path = [64405] := by
  have hchecksum : toChecksumAddress toyResidues (.str toyFive) = .ok toyFive := by
    apply toOption_ok.mp
    decide +kernel
  obtain ⟨epoch, entries, es, hread, hes, entry, hentry, miner, score, proof, w', path', hscore,
    hw, hpath, heq⟩ := h
  obtain ⟨rfl, rfl⟩ := Prod.mk.inj heq
  obtain ⟨rfl, rfl⟩ := Prod.mk.inj (Except.ok.inj hread)
  obtain rfl := Except.ok.inj hes
  obtain rfl := List.mem_singleton.mp hentry
  have hfields : Gateway.readScore toyGateway (.dict [
      (text "miner", .str toyFive),
      (text "score", .int 750000),
      (text "proof", .list [.str (hexText 64405)])]) =
      toChecksumAddress toyResidues (.str toyFive) >>= fun miner =>
        .ok (miner, 750000, [.str (hexText 64405)]) := rfl
  rw [hfields, hchecksum, ok_bind] at hscore
  obtain ⟨rfl, hrest⟩ := Prod.mk.inj (Except.ok.inj hscore)
  obtain ⟨rfl, rfl⟩ := Prod.mk.inj hrest
  have hnode : wordOf (.str (hexText 64405)) = .ok 64405 := rootOfText_hexText 64405
  rw [List.mapM_cons, hnode, ok_bind, List.mapM_nil] at hpath
  exact ⟨hw, (Except.ok.inj hpath).symm⟩

theorem toyPublishing_proposed {p : Bytes × Bytes}
    (h : p ∈ rootsProposed toyMeasured (toyPublishing.filterMap PublicationLabel.onChain)) :
    p = (commitmentPreimage toyMeasured 0 3 30944, [7, 188]) ∨
      p = (commitmentPreimage toyMeasured 0 3 30944, [8, 188]) := by
  obtain ⟨blk, e, b, root, signers, signatures, signature, hsignature, hmem, rfl⟩ := h
  obtain ⟨-, rfl, rfl, rfl, -, rfl⟩ : blk = toyBlockAt 3600 ∧ e = 0 ∧ b = 3 ∧ root = 30944 ∧
      signers = [7, 8] ∧ signatures = [[7, 188], [8, 188]] := by
    simpa [toyPublishing, toyFinality, toyArrivals, toyMiners, PublicationLabel.onChain] using hmem
  rcases List.mem_pair.mp hsignature with rfl | rfl
  · exact .inl rfl
  · exact .inr rfl

/-- A signature of the toy primitives is that of the account it begins with. -/
theorem toyResidues_signer {digest : Bytes32} {signer low : UInt8} {u : Address}
    (h : toyResidues.recover digest [signer, low] = some u) : u = Fin.ofNat _ signer.toNat := by
  simp only [toyResidues, toyCrypto] at h
  split at h
  · exact (Option.some.inj h).symm
  · cases h

theorem toyCouncil_unforged : toyMeasured.crypto.Unforged toyCouncil.signedBy
    (rootsProposed toyMeasured (toyPublishing.filterMap PublicationLabel.onChain)) := by
  intro m sig u hm hrecover
  rcases toyPublishing_proposed hm with heq | heq
  · obtain ⟨rfl, rfl⟩ := Prod.mk.inj heq
    obtain rfl : u = 7 := toyResidues_signer hrecover
    exact ⟨_, Set.mem_singleton _, rfl⟩
  · obtain ⟨rfl, rfl⟩ := Prod.mk.inj heq
    obtain rfl : u = 8 := toyResidues_signer hrecover
    exact ⟨_, Set.mem_insert _ _, rfl⟩

/-- Two messages are signed, with different digests. -/
theorem toyCouncil_messages : toyMeasured.crypto.DigestsCollisionFree
    (toyCouncil.messages (toyPublishing.filterMap PublicationLabel.onChain)) := by
  have hfree : toyMeasured.crypto.DigestsCollisionFree {m | m ∈
      [commitmentPreimage toyMeasured 0 3 30944, commitmentPreimage toyMeasured 0 3 77]} :=
    Crypto.digestsCollisionFree_of_nodup (by decide +kernel)
  refine hfree.mono ?_
  rintro m (⟨u, hm⟩ | ⟨sig, hm⟩)
  · have hm : m ∈ toyRootsSigned u := hm
    unfold toyRootsSigned at hm
    split at hm
    · exact List.mem_cons.mpr (.inl hm)
    · exact List.mem_pair.mpr hm
    · exact absurd hm (Set.notMem_empty m)
  · rcases toyPublishing_proposed hm with heq | heq
    · exact List.mem_cons.mpr (.inl (Prod.mk.inj heq).1)
    · exact List.mem_cons.mpr (.inl (Prod.mk.inj heq).1)

/-- What is hashed for the post is hashed for the tree as well. -/
theorem toyCouncil_strings :
    toyMeasured.crypto.CollisionFree (toyCouncil.strings wordOf toyGateway toyPublishing) := by
  have htree : treeStrings toyResidues toyLeaves ⊆
      {m | m ∈ fewStrings toyResidues toyRowWords [13004, 64405]} :=
    treeStrings_few rfl toyLeaves_root (by decide)
  have hfree : toyResidues.CollisionFree
      {m | m ∈ fewStrings toyResidues toyRowWords [13004, 64405]} :=
    Crypto.collisionFree_of_nodup (by decide +kernel)
  refine hfree.mono ?_
  rintro m (⟨e, b, leaves, hstands, hm⟩ | ⟨brainId, body, w, path, hmem, hpresented, hm⟩)
  · rw [toyCouncil_leaves hstands] at hm
    exact htree hm
  · obtain ⟨rfl, rfl⟩ : brainId = 3 ∧ body = toyFivePosted := by
      simpa [toyPublishing, toyFinality, toyArrivals, toyMiners] using hmem
    obtain ⟨hw, rfl⟩ := toyFivePosted_proofs hpresented
    have hleaf : (⟨3, toyFive, 750000⟩ : ScoreLeaf) ∈ toyLeaves := List.mem_cons_self
    obtain ⟨proof, w', hproof, hw', hpath⟩ := buildProof_ok toyLeaves_root hleaf
    obtain rfl := Except.ok.inj (hw'.symm.trans hw)
    obtain rfl := Except.ok.inj (hproof.symm.trans toyFive_proof)
    exact htree (proofStrings_subset toyLeaves_root hleaf hw hpath hm)

/-- Although validator 8 is dishonest, the listed score of miner 5 is the one validator 7 gave
it. -/
theorem listed_scores_honest_posted : ∃ s, Run (restrict (PublicationStep toyMeasured wordOf
      toyGateway) toyCouncil.Watches) ⟨.deploy 0 toyLedger 9, .empty Gateway.toyPollerConfig⟩
      toyPublishing s ∧
    toyCouncil.member 8 = none ∧
    ∃ m ∈ s.index.listMiners 3 none, m.score = .finite 750000 ∧ ∃ e b leaf,
      toyCouncil.Gave toyGateway.unicode s.chain (3, m.address) m.score e b leaf := by
  obtain ⟨s, hrun, hminers, hscore⟩ := toyPublishing_run
  obtain ⟨ep, hep, hvalue⟩ := Option.map_eq_some_iff.mp hscore
  have hlisted : (⟨toyFive, ep.url, ep.score⟩ : Gateway.MinerEntry) ∈
      s.index.listMiners 3 none := by
    refine Gateway.MemberIndex.mem_listMiners.mpr ⟨?_, ep, hep, rfl, rfl, rfl⟩
    rw [hminers]
    exact List.mem_cons_self
  rcases listed_scores_honest (fun _ => rfl) hrun rfl rfl toyCouncil_unforged toyCouncil_messages
    toyCouncil_strings 3 none _ hlisted with hzero | hgave
  · have hzero : ep.score = .finite 0 := hzero
    rw [hvalue] at hzero
    exact absurd (PyFloat.finite.inj hzero) (by decide)
  · exact ⟨s, hrun, rfl, _, hlisted, hvalue, hgave⟩

/-- Validator 7's submission. -/
def toyHonestBody : Json :=
  .dict [
    (text "epoch", .int 0),
    (text "brain_id", .int 3),
    (text "signer", .str (text "0x0000000000000000000000000000000000000007")),
    (text "scores", .list [
      .dict [(text "miner", .str toyFive), (text "score", .int 750000)],
      .dict [(text "miner", .str toySix), (text "score", .int 616666)]]),
    (text "signature", .str (text "0x07bc"))]

theorem toyHonest_frozen : (CanonicalCandidatePool.served toyServices toyValidator.domain
    [(toyMonopoly, some toyHonestBody)]).frozen 0 3 = some ⟨hexText 30944, toyRows⟩ := by
  decide +kernel

theorem score_of_written {old new : Option Gateway.Endpoint} {score initial : PyFloat}
    (h : new = old.map fun ep => { ep with score := score })
    (hold : old.map (·.score) = some initial) : new.map (·.score) = some score := by
  obtain ⟨ep, rfl, -⟩ := Option.map_eq_some_iff.mp hold
  rw [h]
  rfl

/-- Once the root is final, both rows are listed with the scores they were frozen with, with a
proof of one node each, and nothing happens to the third miner. -/
theorem canonical_rows_listed_posted : ∃ (s : ScoringState Ledger) (entries : List Json),
    (s.registry.epochs 0 3).finalizedAt ≠ 0 ∧
    toyRows.mapM (rowEntry toyResidues 3 toyRows) = .ok entries ∧
    buildProof toyResidues (canonicalLeaves 3 toyRows) ⟨3, toyFive, 750000⟩ = .ok [64405] ∧
    Gateway.submitReply (toyGateway.asking toyMeasured wordOf s.registry) 3 (rowsBody 0 entries) =
      .ok (200, .dict [(text "ok", .bool true), (text "applied", .int 2)]) ∧
    ∃ idx, idx = Gateway.submitScores (toyGateway.asking toyMeasured wordOf s.registry)
        toyAwaiting 3 (rowsBody 0 entries) ∧
      (idx.endpoints (3, toyFive)).map (·.score) = some (.finite 750000) ∧
      (idx.endpoints (3, toySix)).map (·.score) = some (.finite 616666) ∧
      (idx.endpoints (3, toyNine)).map (·.score) = some (.finite 0) := by
  obtain ⟨s, hrun, hroot, hfinal, hvalid, -⟩ := toyFinality_run
  have hset : (s.registry.epochs 0 3).finalizedAt ≠ 0 := by
    rw [hfinal]
    decide
  have hepoch : ((0 : Epoch).val : Int) = 0 := rfl
  have hbrain : ((3 : BrainId).val : Int) = 3 := rfl
  have hread : ∀ w, wordOf (.str (hexText w)) = .ok w := rootOfText_hexText
  have happ : toyGateway.crypto = toyMeasured.crypto := rfl
  have htext : hexText 30944 = hexText (s.registry.epochs 0 3).merkleRoot := by rw [hroot]
  have hfrozen : (CanonicalCandidatePool.served toyServices toyValidator.domain
      [(toyMonopoly, some toyHonestBody)]).frozen ((0 : Epoch).val : Int)
        ((3 : BrainId).val : Int) = some ⟨hexText 30944, toyRows⟩ := by
    rw [hepoch, hbrain]
    exact toyHonest_frozen
  obtain ⟨entries, hentries, hreply, hlisted⟩ :=
    canonical_rows_listed hfrozen hrun.of_restrict htext hset hvalid happ rfl hread
  rw [hbrain] at hentries hreply hlisted
  rw [hepoch] at hreply hlisted
  obtain ⟨hrows, hothers⟩ := hlisted toyAwaiting _ rfl
  have hfive : lower toyGateway.unicode toyFive = toyFive := rfl
  have hsix : lower toyGateway.unicode toySix = toySix := rfl
  have hnine : ∀ row ∈ toyRows,
      ((3, toyNine) : Gateway.MemberKey) ≠ (3, lower toyGateway.unicode row.miner) := by
    intro row hrow
    rcases List.mem_pair.mp hrow with rfl | rfl
    · decide
    · decide
  obtain ⟨-, hold, hold', hold''⟩ := toyAwaiting_known
  have hfirst := hrows ⟨toyFive, 750000⟩ List.mem_cons_self
  have hsecond := hrows ⟨toySix, 616666⟩ (List.mem_cons_of_mem _ List.mem_cons_self)
  dsimp only at hfirst hsecond
  rw [hfive] at hfirst
  rw [hsix] at hsecond
  refine ⟨s, entries, hset, hentries, toyFive_proof, hreply, _, rfl,
    score_of_written hfirst hold, score_of_written hsecond hold', ?_⟩
  rw [hothers _ hnine]
  exact hold''

end BasedAI
