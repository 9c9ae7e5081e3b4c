import BasedAI.Validator.MerkleProofs
import BasedAI.Validator.Rejections

/-!
# BasedAI — what the signature of a candidate fixes

A candidate is signed over the Merkle root of its rows, which says which rows there are and
not in what order, while the scores that are recorded are read off the rows in order, a later
row of a miner replacing an earlier one. The signature fixes the scores if no miner has two,
and only then.

* `Requests`            — what may be submitted, with signatures that cannot be forged;
* `scored_iff_leaf`     — the rows that are read are the leaves that are signed;
* `signed_content_iff`  — exactly when every request with the signature records the same.
-/

namespace BasedAI

open Fallible Python CanonicalCandidatePool MerkleTree

/-! ## Requests -/

/-- The call of the pool that a request makes. -/
def CandidateBody.call (c : CandidateBody) : PoolCall := ⟨c.epoch, c.brainId, c.signer, c.scores⟩

section Requests

variable (o : Offchain) (domain : CommitmentDomain)

/-- What a request presents as signed: the commitment to its rows, and the signature. -/
def CandidateBody.presented (c : CandidateBody) : Py (Commitment × Bytes) := do
  let leaves ← c.scores.mapM (submittedLeaf o c.brainId)
  let (ownRoot, _) ← buildMerkleRoot o.crypto leaves
  let k ← encodeCommitment domain c.epoch c.brainId ownRoot
  let bytes ← hexBytes c.signature
  return (k, bytes)

/-- The strings that are hashed for the root of a request. -/
def CandidateBody.strings (c : CandidateBody) : Set Bytes :=
  fun bytes => ∃ leaves, c.scores.mapM (submittedLeaf o c.brainId) = .ok leaves ∧
    bytes ∈ treeStrings o.crypto leaves

/-- A service that has nothing frozen for it accepts the request, and has `candidate` for its
signer then. -/
def CandidateBody.Accepted (c : CandidateBody) (candidate : Candidate) : Prop :=
  ∃ stakes pool body canonical a, openCandidate o body = .ok c ∧
    pool.frozen c.epoch c.brainId = none ∧
    (submitCandidate o domain stakes pool body).2 = .accepted canonical ∧
    hexAddress c.signer = some a ∧
    dictGet (toChecksum o.crypto a)
      ((submitCandidate o domain stakes pool body).1.candidates c.epoch c.brainId) =
        some candidate

/-- The same in terms of the request alone: it is its signer's, and `candidate` is the map of
its rows. -/
structure CandidateBody.Records (c : CandidateBody) (candidate : Candidate) : Prop where
  authentic : candidateAuthentic o domain c = .ok true
  scores : ∃ scored, c.scores.mapM (readRow o) = .ok scored ∧ scored ≠ [] ∧
    scoreMap scored = candidate
  address : ∃ a, hexAddress c.signer = some a

/-- The requests that may be submitted, where `made u` is what account `u` has signed:

* whoever has a request can put its rows in another order;
* no signature is forged: one that recovers to an account is one the account has made for a
  commitment with that digest;
* no account makes one signature for two commitments of an epoch and a Brain;
* and the hash has no collision among the strings that are hashed. -/
structure Requests (made : Address → Set SignedCommitment) (requests : Set CandidateBody) :
    Prop where
  reordered : ∀ c ∈ requests, ∀ scores, scores.Perm c.scores →
    { c with scores := scores } ∈ requests
  unforged : ∀ c ∈ requests, ∀ k bytes u, c.presented o domain = .ok (k, bytes) →
    o.recoverMessage (o.crypto.messageDigest (k.preimage o.crypto)) bytes = some u →
    ∃ s ∈ made u, s.signature = bytes ∧
      o.crypto.messageDigest (s.commitment.preimage o.crypto) =
        o.crypto.messageDigest (k.preimage o.crypto)
  single : ∀ u, ∀ s ∈ made u, ∀ s' ∈ made u, s.signature = s'.signature →
    s.commitment.epoch = s'.commitment.epoch → s.commitment.brainId = s'.commitment.brainId →
    s.commitment = s'.commitment
  digests : o.crypto.DigestsCollisionFree (fun m =>
    (∃ c ∈ requests, ∃ k bytes, c.presented o domain = .ok (k, bytes) ∧
      m = k.preimage o.crypto) ∨
    ∃ u, ∃ s ∈ made u, m = s.commitment.preimage o.crypto)
  trees : o.crypto.CollisionFree fun bytes => ∃ c ∈ requests, bytes ∈ c.strings o

end Requests

section Presented

variable {o : Offchain} {domain : CommitmentDomain} {c : CandidateBody}

theorem presented_ok {k : Commitment} {bytes : Bytes} :
    c.presented o domain = .ok (k, bytes) ↔ ∃ leaves root hashed,
      c.scores.mapM (submittedLeaf o c.brainId) = .ok leaves ∧
      buildMerkleRoot o.crypto leaves = .ok (root, hashed) ∧
      encodeCommitment domain c.epoch c.brainId root = .ok k ∧
      hexBytes c.signature = .ok bytes := by
  simp only [CandidateBody.presented, bind_ok, return_ok, Prod.mk.injEq, Prod.exists]
  constructor
  · rintro ⟨leaves, hleaves, root, hashed, hroot, k, hk, bytes, hbytes, rfl, rfl⟩
    exact ⟨leaves, root, hashed, hleaves, hroot, hk, hbytes⟩
  · rintro ⟨leaves, root, hashed, hleaves, hroot, hk, hbytes⟩
    exact ⟨leaves, hleaves, root, hashed, hroot, k, hk, bytes, hbytes, rfl, rfl⟩

/-- The service recovers the signer from what is presented. -/
theorem authentic_iff : candidateAuthentic o domain c = .ok true ↔ ∃ k bytes u,
    c.presented o domain = .ok (k, bytes) ∧
    o.recoverMessage (o.crypto.messageDigest (k.preimage o.crypto)) bytes = some u ∧
    lower o.unicode (toChecksum o.crypto u) = lower o.unicode c.signer := by
  simp only [candidateAuthentic, recoverCommitmentSigner, presented_ok, bind_ok, return_ok,
    orRaise, orRevert_ok, Prod.exists, decide_eq_true_eq]
  constructor
  · rintro ⟨leaves, hleaves, root, hashed, hroot, _, ⟨k, hk, bytes, hbytes, u, hu, rfl⟩, hsame⟩
    exact ⟨k, bytes, u, ⟨leaves, root, hashed, hleaves, hroot, hk, hbytes⟩, hu, hsame⟩
  · rintro ⟨k, bytes, u, ⟨leaves, root, hashed, hleaves, hroot, hk, hbytes⟩, hu, hsame⟩
    exact ⟨leaves, hleaves, root, hashed, hroot, _, ⟨k, hk, bytes, hbytes, u, hu, rfl⟩, hsame⟩

/-- The rows may be presented in any order. -/
theorem presented_perm {scores : List Json} (h : scores.Perm c.scores) {k : Commitment}
    {bytes : Bytes} (hpresented : c.presented o domain = .ok (k, bytes)) :
    ({ c with scores := scores } : CandidateBody).presented o domain = .ok (k, bytes) := by
  obtain ⟨leaves, root, hashed, hleaves, hroot, hk, hbytes⟩ := presented_ok.mp hpresented
  obtain ⟨leaves', hleaves', hperm⟩ := mapM_perm h.symm hleaves
  exact presented_ok.mpr ⟨leaves', root, hashed, hleaves', buildMerkleRoot_perm hperm hroot,
    hk, hbytes⟩

end Presented

/-! ## The service -/

section Service

variable {o : Offchain} {domain : CommitmentDomain} {stakes : Stakes}
  {pool : CanonicalCandidatePool} {body : Option Json} {c : CandidateBody}

/-- Every request can be written as a body. -/
theorem exists_body (c : CandidateBody) : ∃ body, openCandidate o (some body) = .ok c :=
  ⟨.dict [(text "epoch", .int c.epoch), (text "brain_id", .int c.brainId),
    (text "signer", .str c.signer), (text "scores", .list c.scores),
    (text "signature", .str c.signature)], rfl⟩

/-- What the service records of an authentic request that the pool does not refuse. -/
theorem submitCandidate_ok {key : Text} {candidate : Candidate}
    (hbody : openCandidate o body = .ok c)
    (hopen : pool.frozen c.epoch c.brainId = none)
    (hauthentic : candidateAuthentic o domain c = .ok true)
    (hcandidate : c.call.candidate o stakes = .ok (key, candidate)) :
    dictGet key ((submitCandidate o domain stakes pool body).1.candidates c.epoch c.brainId) =
      some candidate := by
  have hrecorded := (add_recorded (c := c.call) hopen hcandidate).1
  unfold CandidateBody.call at hrecorded
  unfold submitCandidate
  rw [hbody]
  dsimp only at hrecorded ⊢
  rw [hauthentic]
  dsimp only
  generalize pool.add o stakes c.brainId c.epoch c.signer c.scores = result at *
  obtain ⟨pool', answer⟩ := result
  cases answer with
  -- recorded, whether or not freezing raised
  | error e =>
    dsimp only at hrecorded ⊢
    rw [hrecorded, dictGet_dictSet, if_pos rfl]
  | ok frozen =>
    dsimp only at hrecorded ⊢
    rw [hrecorded, dictGet_dictSet, if_pos rfl]

/-- A request that is accepted was authentic, and the pool did not refuse it. -/
theorem accepted_ok {canonical : Option Frozen} (hbody : openCandidate o body = .ok c)
    (hopen : pool.frozen c.epoch c.brainId = none)
    (haccepted : (submitCandidate o domain stakes pool body).2 = .accepted canonical) :
    candidateAuthentic o domain c = .ok true ∧
      ∃ key candidate, c.call.candidate o stakes = .ok (key, candidate) := by
  unfold submitCandidate at haccepted
  rw [hbody] at haccepted
  dsimp only at haccepted
  cases hauthentic : candidateAuthentic o domain c with
  | error e =>
    rw [hauthentic] at haccepted
    cases haccepted
  | ok authentic =>
    rw [hauthentic] at haccepted
    cases authentic with
    | false => cases haccepted
    | true =>
      refine ⟨rfl, ?_⟩
      dsimp only at haccepted
      cases hcandidate : c.call.candidate o stakes with
      | ok r => exact ⟨r.1, r.2, rfl⟩
      | error e =>
        -- the pool would have answered with the same error
        have herror : (pool.add o stakes c.brainId c.epoch c.signer c.scores).2 = .error e := by
          unfold CandidateBody.call PoolCall.candidate at hcandidate
          unfold CanonicalCandidatePool.add
          rw [hopen]
          dsimp only
          rw [hcandidate]
        generalize pool.add o stakes c.brainId c.epoch c.signer c.scores = result at *
        obtain ⟨pool', _⟩ := result
        obtain rfl := herror
        cases haccepted

/-- A Brain of two, whose every account has one at stake. -/
def equalStakes : Stakes where
  stakeOf _ _ := .ok 1
  totalStake _ := .ok 2

/-- One of them is no quorum, so its request is accepted and nothing is frozen. -/
theorem accepted_alone {key : Text} {candidate : Candidate}
    (hbody : openCandidate o body = .ok c)
    (hauthentic : candidateAuthentic o domain c = .ok true)
    (hcandidate : c.call.candidate o equalStakes = .ok (key, candidate)) :
    (submitCandidate o domain equalStakes .empty body).2 = .accepted none := by
  have hcanonical : canonicalize o equalStakes c.brainId 5001 [(key, candidate)] = .ok none := by
    have htotal : equalStakes.totalStake c.brainId = .ok 2 := rfl
    have hheld : [(key, candidate)].mapM (fun e => equalStakes.stakeOf c.brainId e.1) =
        .ok [1] := rfl
    -- one of two equal stakes is less than half and one basis point
    have hless : [(1 : Int)].sum < quorumNeed 5001 2 := by decide
    unfold canonicalize
    rw [htotal, ok_bind]
    dsimp only
    rw [hheld, ok_bind, if_pos hless]
    rfl
  unfold CandidateBody.call PoolCall.candidate at hcandidate
  unfold submitCandidate
  rw [hbody]
  dsimp only
  rw [hauthentic]
  dsimp only
  unfold CanonicalCandidatePool.add
  dsimp only [CanonicalCandidatePool.empty] at hcandidate ⊢
  rw [hcandidate]
  dsimp only [dictSet]
  rw [hcanonical]

/-- **What a request records** is the map of its rows, if it is authentic. -/
theorem accepted_iff {candidate : Candidate} :
    c.Accepted o domain candidate ↔ c.Records o domain candidate := by
  constructor
  · rintro ⟨stakes, pool, body, canonical, a, hbody, hopen, haccepted, ha, hget⟩
    obtain ⟨hauthentic, key, candidate', hcandidate⟩ := accepted_ok hbody hopen haccepted
    have hget' := submitCandidate_ok hbody hopen hauthentic hcandidate
    obtain ⟨-, hscores, a', ha', rfl⟩ := candidate_ok.mp hcandidate
    obtain rfl : a = a' := Option.some.inj (ha.symm.trans ha')
    obtain rfl : candidate = candidate' := Option.some.inj (hget.symm.trans hget')
    exact ⟨hauthentic, hscores, a, ha⟩
  · rintro ⟨hauthentic, hscores, a, ha⟩
    obtain ⟨body, hbody⟩ := exists_body (o := o) c
    have hcandidate : c.call.candidate o equalStakes = .ok (toChecksum o.crypto a, candidate) :=
      candidate_ok.mpr ⟨⟨1, rfl, Int.one_pos⟩, hscores, a, ha, rfl⟩
    exact ⟨equalStakes, .empty, some body, none, a, hbody, rfl,
      accepted_alone hbody hauthentic hcandidate, ha,
      submitCandidate_ok hbody rfl hauthentic hcandidate⟩

end Service

/-! ## Rows and leaves -/

/-- `str` of a natural number is its decimal digits. -/
def SpellsNumbers (o : Offchain) : Prop := ∀ n : Nat, o.repr (.int n) = text (toString n)

section Leaves

variable {o : Offchain} {brainId : Int}

/-- The digits of a number so long are no address. -/
theorem hexAddress_decimal {n : Nat} (h : 16 ^ 39 ≤ n) : hexAddress (text (toString n)) = none := by
  have hlong : 42 < (text (toString n)).length := by
    rw [text, List.length_map, Nat.toString_eq_repr, Nat.toList_repr]
    apply not_le.mp
    rw [Nat.length_toDigits_le_iff (by decide) (by decide)]
    exact not_lt.mpr ((by decide : 10 ^ 42 ≤ 16 ^ 39).trans h)
  generalize text (toString n) = t at hlong
  have hprefix : t.length ≤ (remove0xPrefix t).length + 2 := by
    unfold remove0xPrefix
    split
    · split
      · rw [List.length_cons, List.length_cons]
      · exact Nat.le_add_right _ _
    · exact Nat.le_add_right _ _
  unfold hexAddress
  dsimp only
  rw [if_neg (by omega)]

/-- A row that is read is the row that is signed: an integer is no address to both. -/
theorem readRow_leaf (hspells : SpellsNumbers o) {row : Json} {miner : Text} {score : Int}
    {leaf : ScoreLeaf} {w : LeafWords} (hread : readRow o row = .ok (miner, score))
    (hleaf : submittedLeaf o brainId row = .ok leaf) (hwords : leaf.words = .ok w) :
    toChecksum o.crypto w.miner = miner ∧ (w.score.val : Int) = score := by
  obtain ⟨minerField, scoreField, hminer, hchecksum, hscore, hint, -, -⟩ := readRow_ok.mp hread
  simp only [submittedLeaf, bind_ok, return_ok] at hleaf
  obtain ⟨minerField', hminer', scoreField', hscore', score', hint', rfl⟩ := hleaf
  obtain rfl := Except.ok.inj (hminer.symm.trans hminer')
  obtain rfl := Except.ok.inj (hscore.symm.trans hscore')
  obtain rfl := Except.ok.inj (hint.symm.trans hint')
  simp only [ScoreLeaf.words, bind_ok, return_ok] at hwords
  obtain ⟨b, -, a, ha, s, hs, rfl⟩ := hwords
  refine ⟨?_, encodeUint_ok hs⟩
  obtain ⟨t, ht, ha⟩ := encodeAddress_ok ha
  obtain rfl := Json.str.inj ht
  cases minerField with
  | str t =>
    obtain ⟨a', ha', rfl⟩ := toChecksumAddress_str.mp hchecksum
    rw [Option.some.inj (ha.symm.trans ha')]
  | int n =>
    rw [toChecksumAddress] at hchecksum
    split at hchecksum
    case isTrue hrange =>
      obtain ⟨m, rfl⟩ := Int.eq_ofNat_of_zero_le ((by decide : (0 : Int) ≤ 16 ^ 39).trans hrange.1)
      -- a number is encoded from its decimal digits, and they are no address
      have hdecimal : (Json.int m).toStr o.repr = text (toString m) := hspells m
      rw [hdecimal, hexAddress_decimal (by exact_mod_cast hrange.1)] at ha
      cases ha
    case isFalse => cases hchecksum
  | _ => cases hchecksum

/-- **The rows that are read are the leaves that are signed.** -/
theorem scored_iff_leaf (hspells : SpellsNumbers o) {rows : List Json}
    {scored : List (Text × Int)} {leaves : List ScoreLeaf} {root : Bytes32}
    {hashed : List Bytes32} (hscored : rows.mapM (readRow o) = .ok scored)
    (hleaves : rows.mapM (submittedLeaf o brainId) = .ok leaves)
    (hroot : buildMerkleRoot o.crypto leaves = .ok (root, hashed)) {miner : Text} {score : Int} :
    (miner, score) ∈ scored ↔ ∃ w, (∃ leaf ∈ leaves, leaf.words = .ok w) ∧
      toChecksum o.crypto w.miner = miner ∧ (w.score.val : Int) = score := by
  rw [mem_mapM hscored]
  constructor
  · rintro ⟨row, hrow, hread⟩
    obtain ⟨leaf, hmem, hleaf⟩ := exists_of_mapM hleaves hrow
    -- a leaf of the tree was encoded
    obtain ⟨proof, w, -, hwords, -⟩ := buildProof_ok hroot hmem
    exact ⟨w, ⟨leaf, hmem, hwords⟩, readRow_leaf hspells hread hleaf hwords⟩
  · rintro ⟨w, ⟨leaf, hmem, hwords⟩, hminer, hscore⟩
    obtain ⟨row, hrow, hleaf⟩ := (mem_mapM hleaves).mp hmem
    obtain ⟨⟨miner', score'⟩, -, hread⟩ := exists_of_mapM hscored hrow
    obtain ⟨rfl, rfl⟩ := readRow_leaf hspells hread hleaf hwords
    refine ⟨row, hrow, ?_⟩
    rw [hread, hminer, hscore]

end Leaves

/-! ## One signature -/

section Binding

variable {o : Offchain} {domain : CommitmentDomain} {made : Address → Set SignedCommitment}
  {requests : Set CandidateBody} {c c' : CandidateBody}

/-- Who is recovered from a request is the account its signer names. -/
theorem signer_recovered {k : Commitment} {bytes : Bytes} {a : Address}
    (hauthentic : candidateAuthentic o domain c = .ok true) (ha : hexAddress c.signer = some a)
    (hpresented : c.presented o domain = .ok (k, bytes)) :
    o.recoverMessage (o.crypto.messageDigest (k.preimage o.crypto)) bytes = some a := by
  obtain ⟨k', bytes', u, hpresented', hu, hsame⟩ := authentic_iff.mp hauthentic
  obtain ⟨rfl, rfl⟩ := Prod.mk.inj (Except.ok.inj (hpresented.symm.trans hpresented'))
  obtain rfl : u = a := hexAddress_eq_of_lower (hexAddress_toChecksum o.crypto u) ha hsame
  exact hu

/-- What is presented was signed as it is. -/
theorem Requests.signed (h : Requests o domain made requests) (hc : c ∈ requests)
    {k : Commitment} {bytes : Bytes} {a : Address}
    (hauthentic : candidateAuthentic o domain c = .ok true) (ha : hexAddress c.signer = some a)
    (hpresented : c.presented o domain = .ok (k, bytes)) :
    (⟨k, bytes⟩ : SignedCommitment) ∈ made a := by
  obtain ⟨s, hs, rfl, hdigest⟩ := h.unforged c hc k bytes a hpresented
    (signer_recovered hauthentic ha hpresented)
  have hpreimage := h.digests.injOn (.inr ⟨a, s, hs, rfl⟩) (.inl ⟨c, hc, k, _, hpresented, rfl⟩)
    hdigest
  rw [← commitmentPreimage_inj hpreimage]
  exact hs

/-- Requests with one signature present one commitment, and so one root. -/
theorem Requests.same_root (h : Requests o domain made requests) (hc : c ∈ requests)
    (hc' : c' ∈ requests) (hepoch : c'.epoch = c.epoch) (hbrain : c'.brainId = c.brainId)
    (hsigner : hexAddress c'.signer = hexAddress c.signer)
    (hsignature : hexBytes c'.signature = hexBytes c.signature)
    {candidate candidate' : Candidate} (hrecords : c.Records o domain candidate)
    (hrecords' : c'.Records o domain candidate') :
    ∃ leaves leaves' root hashed hashed',
      c.scores.mapM (submittedLeaf o c.brainId) = .ok leaves ∧
      c'.scores.mapM (submittedLeaf o c'.brainId) = .ok leaves' ∧
      buildMerkleRoot o.crypto leaves = .ok (root, hashed) ∧
      buildMerkleRoot o.crypto leaves' = .ok (root, hashed') := by
  obtain ⟨a, ha⟩ := hrecords.address
  have ha' : hexAddress c'.signer = some a := hsigner.trans ha
  obtain ⟨k, bytes, -, hpresented, -⟩ := authentic_iff.mp hrecords.authentic
  obtain ⟨k', bytes', -, hpresented', -⟩ := authentic_iff.mp hrecords'.authentic
  have hmade := h.signed hc hrecords.authentic ha hpresented
  have hmade' := h.signed hc' hrecords'.authentic ha' hpresented'
  obtain ⟨leaves, root, hashed, hleaves, hroot, hk, hbytes⟩ := presented_ok.mp hpresented
  obtain ⟨leaves', root', hashed', hleaves', hroot', hk', hbytes'⟩ := presented_ok.mp hpresented'
  obtain ⟨-, -, hkepoch, hkbrain, rfl⟩ := encodeCommitment_ok hk
  obtain ⟨-, -, hkepoch', hkbrain', rfl⟩ := encodeCommitment_ok hk'
  -- one signature of one signer for one epoch and Brain is on one commitment
  have hsame : k = k' := by
    apply h.single a _ hmade _ hmade'
    · exact Except.ok.inj (hbytes.symm.trans (hsignature.symm.trans hbytes'))
    · apply Fin.ext
      dsimp only
      omega
    · apply Fin.ext
      dsimp only
      omega
  rw [← hsame] at hroot'
  exact ⟨leaves, leaves', k.root, hashed, hashed', hleaves, hleaves', hroot, hroot'⟩

/-- The rows of requests with one root are the same, but for their order and repetitions. -/
theorem Requests.same_rows (h : Requests o domain made requests) (hspells : SpellsNumbers o)
    (hc : c ∈ requests) (hc' : c' ∈ requests) (hepoch : c'.epoch = c.epoch)
    (hbrain : c'.brainId = c.brainId) (hsigner : hexAddress c'.signer = hexAddress c.signer)
    (hsignature : hexBytes c'.signature = hexBytes c.signature)
    {candidate candidate' : Candidate} (hrecords : c.Records o domain candidate)
    (hrecords' : c'.Records o domain candidate') {scored scored' : List (Text × Int)}
    (hscored : c.scores.mapM (readRow o) = .ok scored)
    (hscored' : c'.scores.mapM (readRow o) = .ok scored') (e : Text × Int) :
    e ∈ scored ↔ e ∈ scored' := by
  obtain ⟨leaves, leaves', root, hashed, hashed', hleaves, hleaves', hroot, hroot'⟩ :=
    h.same_root hc hc' hepoch hbrain hsigner hsignature hrecords hrecords'
  have hnonempty : ∀ {d : CandidateBody} {recorded : Candidate} {leaves : List ScoreLeaf},
      d.Records o domain recorded → d.scores.mapM (submittedLeaf o d.brainId) = .ok leaves →
      leaves ≠ [] := by
    intro d recorded leaves hd hleaves
    obtain ⟨scored, hscored, hne, -⟩ := hd.scores
    obtain ⟨row, hrow⟩ := List.exists_mem_of_ne_nil _ hne
    obtain ⟨json, hjson, -⟩ := (mem_mapM hscored).mp hrow
    obtain ⟨leaf, hleaf, -⟩ := exists_of_mapM hleaves hjson
    exact List.ne_nil_of_mem hleaf
  have hfree : o.crypto.CollisionFree (treeStrings o.crypto leaves ∪
      treeStrings o.crypto leaves') := by
    apply h.trees.mono
    rintro bytes (hbytes | hbytes)
    · exact ⟨c, hc, leaves, hleaves, hbytes⟩
    · exact ⟨c', hc', leaves', hleaves', hbytes⟩
  obtain ⟨miner, score⟩ := e
  rw [scored_iff_leaf hspells hscored hleaves hroot,
    scored_iff_leaf hspells hscored' hleaves' hroot']
  -- a root has one set of leaves
  apply exists_congr
  intro w
  apply and_congr_left'
  constructor
  · exact leaves_subset hroot hroot' (hnonempty hrecords' hleaves') hfree
  · rw [Set.union_comm] at hfree
    exact leaves_subset hroot' hroot (hnonempty hrecords hleaves) hfree

/-- Any of the rows can be put last. -/
theorem exists_last {rows : List Json} {scored : List (Text × Int)}
    (hscored : rows.mapM (readRow o) = .ok scored) {e : Text × Int} (he : e ∈ scored) :
    ∃ (rows' : List Json) (scored' : List (Text × Int)), rows'.Perm rows ∧
      rows'.mapM (readRow o) = .ok (scored' ++ [e]) := by
  obtain ⟨row, hrow, hread⟩ := (mem_mapM hscored).mp he
  obtain ⟨before, after, rfl⟩ := List.append_of_mem hrow
  -- every row was read, in whatever order it comes
  have hothers : ∀ row ∈ before ++ after, ∃ e, readRow o row = .ok e := by
    intro row hrow
    obtain ⟨e, -, he⟩ := exists_of_mapM hscored
      (x := row) (by
        rcases List.mem_append.mp hrow with h | h
        · exact List.mem_append_left _ h
        · exact List.mem_append_right _ (List.mem_cons_of_mem _ h))
    exact ⟨e, he⟩
  obtain ⟨scored', hscored'⟩ := mapM_total _ hothers
  refine ⟨before ++ after ++ [row], scored', ?_, ?_⟩
  · rw [List.append_assoc]
    exact (List.perm_append_singleton row after).append_left before
  · rw [List.mapM_append, hscored', ok_bind, List.mapM_cons, hread]
    rfl

end Binding

/-- **What a signature fixes.** Take any request that a service accepts, among requests whose
signatures cannot be forged and whose hashes do not collide. Every other request for the
epoch and the Brain that is accepted with the same signature of the same signer records the
same scores, if and only if no miner has two scores in the rows. -/
theorem signed_content_iff {o : Offchain} {domain : CommitmentDomain}
    {made : Address → Set SignedCommitment} {requests : Set CandidateBody} {c : CandidateBody}
    {candidate : Candidate} {scored : List (Text × Int)}
    (hrequests : Requests o domain made requests) (hspells : SpellsNumbers o)
    (hc : c ∈ requests) (haccepted : c.Accepted o domain candidate)
    (hscored : c.scores.mapM (readRow o) = .ok scored) :
    (∀ c' ∈ requests, c'.epoch = c.epoch → c'.brainId = c.brainId →
      hexAddress c'.signer = hexAddress c.signer → hexBytes c'.signature = hexBytes c.signature →
      ∀ candidate', c'.Accepted o domain candidate' →
        ∀ miner, dictGet miner candidate' = dictGet miner candidate) ↔
    Unambiguous scored := by
  have hrecords := accepted_iff.mp haccepted
  obtain ⟨_, hscored', hne, rfl⟩ := hrecords.scores
  obtain rfl := Except.ok.inj (hscored.symm.trans hscored')
  constructor
  · intro hfixed
    by_contra hambiguous
    simp only [Unambiguous, not_forall] at hambiguous
    obtain ⟨e, he, e', he', hminer, hscore⟩ := hambiguous
    -- one of the two is not what is recorded; put it last
    obtain ⟨last, hlast, hother⟩ : ∃ last ∈ scored,
        dictGet last.1 (scoreMap scored) ≠ some last.2 := by
      by_cases hsame : dictGet e.1 (scoreMap scored) = some e.2
      · refine ⟨e', he', ?_⟩
        rw [← hminer, hsame]
        exact fun h => hscore (Option.some.inj h)
      · exact ⟨e, he, hsame⟩
    obtain ⟨rows, scored', hperm, hrows⟩ := exists_last hscored hlast
    obtain ⟨k, bytes, u, hpresented, hu, hsigner⟩ := authentic_iff.mp hrecords.authentic
    have hauthentic : candidateAuthentic o domain { c with scores := rows } = .ok true :=
      authentic_iff.mpr ⟨k, bytes, u, presented_perm hperm hpresented, hu, hsigner⟩
    have haccepted' : ({ c with scores := rows } : CandidateBody).Accepted o domain
        (scoreMap (scored' ++ [last])) :=
      accepted_iff.mpr ⟨hauthentic,
        ⟨_, hrows, List.append_ne_nil_of_right_ne_nil _ (List.cons_ne_nil _ _), rfl⟩,
        hrecords.address⟩
    have hsame := hfixed _ (hrequests.reordered c hc rows hperm) rfl rfl rfl rfl _ haccepted'
      last.1
    rw [dictGet_scoreMap_concat] at hsame
    exact hother hsame.symm
  · intro hunambiguous c' hc' hepoch hbrain hsigner hsignature candidate' haccepted' miner
    have hrecords' := accepted_iff.mp haccepted'
    obtain ⟨scored', hscored', -, rfl⟩ := hrecords'.scores
    have hsame := hrequests.same_rows hspells hc hc' hepoch hbrain hsigner hsignature hrecords
      hrecords' hscored hscored'
    have hunambiguous' : Unambiguous scored' := by
      intro e he e' he'
      exact hunambiguous e ((hsame e).mpr he) e' ((hsame e').mpr he')
    apply Option.ext
    intro score
    rw [dictGet_scoreMap hunambiguous', dictGet_scoreMap hunambiguous]
    exact (hsame (miner, score)).symm

/-! ## Two scores for one miner -/

/-- Python over a toy hash, which spells numbers. -/
def toySealed : Offchain where
  crypto := toyResidues
  unicode := toyOffchain.unicode
  repr
    | .int n => text (toString n.toNat)
    | _ => []
  recoverMessage := toyResidues.recover

theorem toySealed_spells : SpellsNumbers toySealed := fun _ => rfl

/-- The toy registry at account 4. -/
def toyDomain : CommitmentDomain := ⟨1, text "0x0000000000000000000000000000000000000004"⟩

/-- A score for miner 5. -/
def toyRow (score : Int) : Json :=
  .dict [(text "miner", .str (text "0x0000000000000000000000000000000000000005")),
    (text "score", .int score)]

/-- Validator 7 submits scores for miner 5, in some order. -/
def toyOrder (scores : List Json) : CandidateBody where
  epoch := 0
  brainId := 3
  signer := text "0x0000000000000000000000000000000000000007"
  scores := scores
  signature := text "0x073d"

/-- The rows of validator 7 in any order. -/
def toyOrders : Set CandidateBody :=
  fun c => ∃ scores : List Json, scores.Perm [toyRow 1, toyRow 2] ∧ c = toyOrder scores

/-- What it has signed. -/
def toyCommitted : SignedCommitment := ⟨⟨1, 4, 0, 3, 50258⟩, [7, 61]⟩

def toyMade (u : Address) : Set SignedCommitment := fun s => u = 7 ∧ s = toyCommitted

/-- The words of the two leaves. -/
def toyLow : LeafWords := ⟨3, 5, 1⟩

def toyHigh : LeafWords := ⟨3, 5, 2⟩

theorem toyCommitted_recover : toySealed.recoverMessage (toySealed.crypto.messageDigest
    (toyCommitted.commitment.preimage toySealed.crypto)) toyCommitted.signature = some 7 := by
  decide +kernel

theorem toyOrder_presented {scores : List Json} (h : scores.Perm [toyRow 1, toyRow 2]) :
    (toyOrder scores).presented toySealed toyDomain =
      .ok (toyCommitted.commitment, toyCommitted.signature) := by
  have hfirst : (toyOrder [toyRow 1, toyRow 2]).presented toySealed toyDomain =
      .ok (toyCommitted.commitment, toyCommitted.signature) :=
    toOption_ok.mp (by decide +kernel)
  exact presented_perm (c := toyOrder [toyRow 1, toyRow 2]) h hfirst

/-- The two leaves. -/
def toyPair : List ScoreLeaf :=
  [⟨3, text "0x0000000000000000000000000000000000000005", 1⟩,
    ⟨3, text "0x0000000000000000000000000000000000000005", 2⟩]

theorem toyPair_root :
    buildMerkleRoot toyResidues toyPair =
      .ok (50258, [toyLow.hash toyResidues, toyHigh.hash toyResidues]) :=
  toOption_ok.mp (by decide +kernel)

/-- The strings that are hashed for them. -/
def toyStrings : List Bytes :=
  fewStrings toyResidues [toyLow, toyHigh] [toyLow.hash toyResidues, toyHigh.hash toyResidues]

theorem toyStrings_free : toyResidues.CollisionFree {m | m ∈ toyStrings} :=
  Crypto.collisionFree_of_nodup (by decide +kernel)

theorem toyLeaves_perm {scores : List Json} (h : scores.Perm [toyRow 1, toyRow 2])
    {leaves : List ScoreLeaf} (hleaves : scores.mapM (submittedLeaf toySealed 3) = .ok leaves) :
    leaves.Perm toyPair := by
  obtain ⟨leaves', hleaves', hperm⟩ := mapM_perm h hleaves
  have hfirst : [toyRow 1, toyRow 2].mapM (submittedLeaf toySealed 3) = .ok toyPair := rfl
  rw [← Except.ok.inj (hleaves'.symm.trans hfirst)]
  exact hperm

theorem toyOrder_strings {scores : List Json} (h : scores.Perm [toyRow 1, toyRow 2])
    {bytes : Bytes} (hbytes : bytes ∈ (toyOrder scores).strings toySealed) :
    bytes ∈ toyStrings := by
  obtain ⟨leaves, hleaves, hbytes⟩ := hbytes
  have hpair := treeStrings_perm (toyLeaves_perm h hleaves) hbytes
  exact treeStrings_few rfl toyPair_root (by decide) hpair

/-- Nobody forges, and nothing collides. -/
theorem toyOrders_fair : Requests toySealed toyDomain toyMade toyOrders where
  reordered := by
    rintro c ⟨scores, hperm, rfl⟩ scores' hperm'
    exact ⟨scores', hperm'.trans hperm, rfl⟩
  unforged := by
    rintro c ⟨scores, hperm, rfl⟩ k bytes u hpresented hrecover
    obtain ⟨rfl, rfl⟩ := Prod.mk.inj
      (Except.ok.inj (hpresented.symm.trans (toyOrder_presented hperm)))
    have hseven := hrecover.symm.trans toyCommitted_recover
    exact ⟨toyCommitted, ⟨Option.some.inj hseven, rfl⟩, rfl, rfl⟩
  single := by
    rintro u s ⟨-, rfl⟩ s' ⟨-, rfl⟩ _ _ _
    rfl
  digests := by
    apply Crypto.digestsCollisionFree_of_subsingleton
    -- the toy validator signed one message
    have hall : ∀ m, ((∃ c ∈ toyOrders, ∃ k bytes,
        c.presented toySealed toyDomain = .ok (k, bytes) ∧ m = k.preimage toySealed.crypto) ∨
        ∃ u, ∃ s ∈ toyMade u, m = s.commitment.preimage toySealed.crypto) →
        m = toyCommitted.commitment.preimage toySealed.crypto := by
      rintro m (⟨c, ⟨scores, hperm, rfl⟩, k, bytes, hpresented, rfl⟩ | ⟨u, s, ⟨-, rfl⟩, rfl⟩)
      · obtain ⟨rfl, -⟩ := Prod.mk.inj
          (Except.ok.inj (hpresented.symm.trans (toyOrder_presented hperm)))
        rfl
      · rfl
    intro m hm m' hm'
    rw [hall m hm, hall m' hm']
  trees := by
    rintro m ⟨c, ⟨scores, hperm, rfl⟩, hm⟩ m' ⟨c', ⟨scores', hperm', rfl⟩, hm'⟩ heq
    exact toyStrings_free (toyOrder_strings hperm hm) (toyOrder_strings hperm' hm') heq

theorem toyOrder_accepted {scores : List Json} (h : scores.Perm [toyRow 1, toyRow 2])
    {scored : List (Text × Int)} (hscored : scores.mapM (readRow toySealed) = .ok scored)
    (hne : scored ≠ []) :
    (toyOrder scores).Accepted toySealed toyDomain (scoreMap scored) := by
  have haddress : hexAddress (text "0x0000000000000000000000000000000000000007") = some 7 := rfl
  have hlower : lower toySealed.unicode (toChecksum toySealed.crypto 7) =
      lower toySealed.unicode (text "0x0000000000000000000000000000000000000007") := by
    decide +kernel
  have hauthentic := authentic_iff.mpr
    ⟨_, _, 7, toyOrder_presented h, toyCommitted_recover, hlower⟩
  exact accepted_iff.mpr ⟨hauthentic, ⟨scored, hscored, hne, rfl⟩, 7, haddress⟩

/-- The rows in either order. -/
theorem toyRows_scored :
    [toyRow 1, toyRow 2].mapM (readRow toySealed) =
      .ok [(toChecksum toyResidues 5, 1), (toChecksum toyResidues 5, 2)] ∧
    [toyRow 2, toyRow 1].mapM (readRow toySealed) =
      .ok [(toChecksum toyResidues 5, 2), (toChecksum toyResidues 5, 1)] :=
  ⟨rfl, rfl⟩

/-- Not all requests with the signature record the same scores for miner 5. -/
theorem signed_content_pair :
    ¬ ∀ c' ∈ toyOrders, c'.epoch = 0 → c'.brainId = 3 →
      hexAddress c'.signer = hexAddress (text "0x0000000000000000000000000000000000000007") →
      hexBytes c'.signature = hexBytes (text "0x073d") →
      ∀ candidate', c'.Accepted toySealed toyDomain candidate' → ∀ miner,
        dictGet miner candidate' = dictGet miner
          (scoreMap [(toChecksum toyResidues 5, 1), (toChecksum toyResidues 5, 2)]) := by
  intro hfixed
  have hscored := toyRows_scored.1
  have hunambiguous := (signed_content_iff toyOrders_fair toySealed_spells
    (c := toyOrder [toyRow 1, toyRow 2]) ⟨_, .refl _, rfl⟩
    (toyOrder_accepted (.refl _) hscored (List.cons_ne_nil _ _)) hscored).mp hfixed
  have hsame := hunambiguous _ List.mem_cons_self _
    (List.mem_cons_of_mem _ List.mem_cons_self) rfl
  exact absurd hsame (by decide)

/-- **One signature, two maps.** Validator 7 has made one signature, for one root; with the
rows in the other order the service accepts it as well, and records another score. -/
theorem signature_leaves_order :
    Requests toySealed toyDomain toyMade toyOrders ∧
      toyOrder [toyRow 1, toyRow 2] ∈ toyOrders ∧
      toyOrder [toyRow 2, toyRow 1] ∈ toyOrders ∧
      (toyOrder [toyRow 1, toyRow 2]).Accepted toySealed toyDomain
        (scoreMap [(toChecksum toyResidues 5, 1), (toChecksum toyResidues 5, 2)]) ∧
      (toyOrder [toyRow 2, toyRow 1]).Accepted toySealed toyDomain
        (scoreMap [(toChecksum toyResidues 5, 2), (toChecksum toyResidues 5, 1)]) ∧
      dictGet (toChecksum toyResidues 5)
        (scoreMap [(toChecksum toyResidues 5, 1), (toChecksum toyResidues 5, 2)]) = some 2 ∧
      dictGet (toChecksum toyResidues 5)
        (scoreMap [(toChecksum toyResidues 5, 2), (toChecksum toyResidues 5, 1)]) = some 1 := by
  obtain ⟨hscored, hscored'⟩ := toyRows_scored
  have hswap : [toyRow 2, toyRow 1].Perm [toyRow 1, toyRow 2] := .swap _ _ _
  exact ⟨toyOrders_fair, ⟨_, .refl _, rfl⟩, ⟨_, hswap, rfl⟩,
    toyOrder_accepted (.refl _) hscored (List.cons_ne_nil _ _),
    toyOrder_accepted hswap hscored' (List.cons_ne_nil _ _), by decide +kernel,
    by decide +kernel⟩

end BasedAI
