import BasedAI.Scoring.Lifecycle
import BasedAI.Validator.Merkle

/-!
# BasedAI — Merkle proofs, off chain and on chain

The validator builds the tree and the proofs; the contract rebuilds the root from a leaf
and a proof. The two agree on every leaf of every tree. In the other direction, where the
hash has no collision among the strings that are hashed, a proof that is accepted is one
of a leaf: a leaf is the hash of one word and an inner node the hash of two, so none is
taken for the other, however long the proof.

* `proof_complete`  — every leaf is accepted with the proof that is built for it;
* `leaf_of_verify`  — only leaves are accepted;
* `leaves_subset`   — a list with the same root has all the leaves of the other;
* `root_binding`    — the root determines the leaves and not their order.
-/

namespace BasedAI

open Fallible Python Transition MerkleTree ScoringRegistry

/-! ## Leaves -/

/-- What the contract hashes of a leaf. -/
structure LeafWords where
  brainId : BrainId
  miner : Address
  score : Fin (2 ^ 256)

/-- `abi.encode(brainId, miner, score)`. -/
def LeafWords.preimage (w : LeafWords) : Bytes :=
  abiEncode [w.brainId.val, w.miner.val, w.score.val]

section Leaves

variable (crypto : Crypto)

def LeafWords.hash (w : LeafWords) : Bytes32 :=
  crypto.keccak256 (wordBytes (crypto.keccak256 w.preimage))

/-- The words of a leaf. Its address may be spelled in several ways. -/
def ScoreLeaf.words (leaf : ScoreLeaf) : Py LeafWords := do
  let brainId ← encodeUint 256 leaf.brainId
  let miner ← encodeAddress (.str leaf.miner)
  let score ← encodeUint 256 leaf.score
  return ⟨brainId, miner, score⟩

/-- What `hashPair` hashes. -/
def pairBytes (a b : Bytes32) : Bytes :=
  if a ≤ b then wordBytes a ++ wordBytes b else wordBytes b ++ wordBytes a

variable {crypto}

theorem leafHash_ok {leaf : ScoreLeaf} {h : Bytes32} :
    leaf.hash crypto = .ok h ↔ ∃ w, leaf.words = .ok w ∧ w.hash crypto = h := by
  unfold ScoreLeaf.hash ScoreLeaf.words
  simp only [bind_ok, return_ok]
  constructor
  · rintro ⟨brainId, hbrainId, miner, hminer, score, hscore, rfl⟩
    exact ⟨⟨brainId, miner, score⟩, ⟨brainId, hbrainId, miner, hminer, score, hscore, rfl⟩, rfl⟩
  · rintro ⟨_, ⟨brainId, hbrainId, miner, hminer, score, hscore, rfl⟩, rfl⟩
    exact ⟨brainId, hbrainId, miner, hminer, score, hscore, rfl⟩

theorem hashPair_eq (a b : Bytes32) : hashPair crypto a b = crypto.keccak256 (pairBytes a b) := by
  unfold hashPair pairBytes
  split
  · rfl
  · rfl

/-! ## The verifier -/

/-- The library joins two nodes as the validator does. -/
theorem commutativeKeccak256_eq :
    MerkleProof.commutativeKeccak256 crypto = hashPair crypto := by
  funext a b
  unfold MerkleProof.commutativeKeccak256
  by_cases hlt : a < b
  · rw [if_pos hlt, hashPair, if_pos hlt.le]
  · rw [if_neg hlt, hashPair_comm, hashPair, if_pos (le_of_not_gt hlt)]

theorem verify_iff {proof : List Bytes32} {root leaf : Bytes32} :
    MerkleProof.verify crypto proof root leaf = true ↔
      climb (hashPair crypto) leaf proof = root := by
  rw [MerkleProof.verify, decide_eq_true_eq, commutativeKeccak256_eq, climb]

theorem buildMerkleRoot_ok {leaves : List ScoreLeaf} {root : Bytes32} {hashed : List Bytes32}
    (h : buildMerkleRoot crypto leaves = .ok (root, hashed)) :
    root = merkleRoot crypto hashed ∧
      ∀ node, node ∈ hashed ↔ ∃ leaf ∈ leaves, leaf.hash crypto = .ok node := by
  unfold buildMerkleRoot at h
  simp only [bind_ok, return_ok, Prod.mk.injEq] at h
  obtain ⟨hashes, hhashes, rfl, rfl⟩ := h
  refine ⟨rfl, fun node => ?_⟩
  rw [List.mem_insertionSort, mem_mapM hhashes]

/-! ## Completeness -/

/-- The proof that is built for a leaf. -/
theorem buildProof_ok {leaves : List ScoreLeaf} {root : Bytes32} {hashed : List Bytes32}
    (hroot : buildMerkleRoot crypto leaves = .ok (root, hashed)) {leaf : ScoreLeaf}
    (hleaf : leaf ∈ leaves) : ∃ proof w, buildProof crypto leaves leaf = .ok proof ∧
      leaf.words = .ok w ∧
      Path (hashPair crypto) hashed (w.hash crypto) proof root := by
  unfold buildMerkleRoot at hroot
  simp only [bind_ok, return_ok, Prod.mk.injEq] at hroot
  obtain ⟨hashes, hhashes, rfl, rfl⟩ := hroot
  obtain ⟨node, hmem, hnode⟩ := exists_of_mapM hhashes hleaf
  obtain ⟨w, hw, rfl⟩ := leafHash_ok.mp hnode
  rw [← List.mem_insertionSort (· ≤ ·)] at hmem
  refine ⟨_, w, ?_, hw, proofFrom_path (List.getElem?_idxOf hmem)⟩
  unfold buildProof
  simp only [bind_ok, revertIf_ok, return_ok, not_not]
  exact ⟨_, hnode, hashes, hhashes, (), hmem, rfl⟩

/-- **Every leaf is accepted.** For every hash, every list of leaves and every leaf of it,
the proof that is built for the leaf is accepted against the root; so in every state the
registry reaches, the score is verified if the root is final and was not invalidated. -/
theorem proof_complete {T : Type} (env : ScoringEnv T) {leaves : List ScoreLeaf}
    {root : Bytes32} {hashed : List Bytes32}
    (hroot : buildMerkleRoot env.crypto leaves = .ok (root, hashed)) {leaf : ScoreLeaf}
    (hleaf : leaf ∈ leaves) : ∃ proof w, buildProof env.crypto leaves leaf = .ok proof ∧
      leaf.words = .ok w ∧
      MerkleProof.verify env.crypto proof root (scoreLeaf env w.brainId w.miner w.score) = true ∧
      ∀ (now : Nat) (token : T) (admin : Address) (ks : List ScoringLabel) (s : ScoringState T),
        Run (ScoringStep env) (.deploy now token admin) ks s → ∀ epoch,
          (s.registry.epochs epoch w.brainId).merkleRoot = root →
          (s.registry.epochs epoch w.brainId).finalizedAt ≠ 0 →
          (s.registry.epochs epoch w.brainId).invalidated = false →
            verifyScore env s.registry epoch w.brainId w.miner w.score proof = true := by
  obtain ⟨proof, w, hproof, hw, hpath⟩ := buildProof_ok hroot hleaf
  have hverify : MerkleProof.verify env.crypto proof root
      (scoreLeaf env w.brainId w.miner w.score) = true := verify_iff.mpr hpath.climb
  refine ⟨proof, w, hproof, hw, hverify, ?_⟩
  intro now token admin ks s hrun epoch hstored hfinal hvalid
  have hinv : LifecycleInv s.registry :=
    hrun.invariant (fun hstep hs => scoringStep_lifecycleInv hstep hs) lifecycleInv_deploy
  -- what is final has a root
  have hset : (s.registry.epochs epoch w.brainId).merkleRoot ≠ 0 :=
    fun hzero => hfinal (hinv.fresh epoch w.brainId hzero).1
  unfold verifyScore
  dsimp only
  rw [if_neg, hstored]
  · exact hverify
  · rw [hvalid]
    exact not_or.mpr ⟨hset, not_or.mpr ⟨hfinal, Bool.false_ne_true⟩⟩

/-! ## Soundness -/

/-- The strings that are hashed to build the tree over `leaves`. -/
def treeStrings (crypto : Crypto) (leaves : List ScoreLeaf) : Set Bytes :=
  fun bytes => (∃ leaf ∈ leaves, ∃ w, leaf.words = .ok w ∧
      (bytes = w.preimage ∨ bytes = wordBytes (crypto.keccak256 w.preimage))) ∨
    ∃ root hashed layer, buildMerkleRoot crypto leaves = .ok (root, hashed) ∧
      Layer (hashPair crypto) hashed layer ∧ 2 ≤ layer.length ∧
      ∃ p ∈ pairs layer, bytes = pairBytes p.1 p.2

/-- The strings that are hashed to check a leaf with a proof. -/
def proofStrings (crypto : Crypto) (w : LeafWords) (proof : List Bytes32) : Set Bytes :=
  fun bytes => bytes = w.preimage ∨ bytes = wordBytes (crypto.keccak256 w.preimage) ∨
    ∃ q ∈ climbPairs (hashPair crypto) (w.hash crypto) proof, bytes = pairBytes q.1 q.2

section Strings

variable {leaves : List ScoreLeaf} {root : Bytes32} {hashed layer : List Bytes32}
  {leaf : ScoreLeaf} {w : LeafWords} {p : Bytes32 × Bytes32} {proof : List Bytes32}

theorem preimage_mem_tree (hleaf : leaf ∈ leaves) (hw : leaf.words = .ok w) :
    w.preimage ∈ treeStrings crypto leaves :=
  .inl ⟨leaf, hleaf, w, hw, .inl rfl⟩

theorem inner_mem_tree (hleaf : leaf ∈ leaves) (hw : leaf.words = .ok w) :
    wordBytes (crypto.keccak256 w.preimage) ∈ treeStrings crypto leaves :=
  .inl ⟨leaf, hleaf, w, hw, .inr rfl⟩

theorem pair_mem_tree (hroot : buildMerkleRoot crypto leaves = .ok (root, hashed))
    (hlayer : Layer (hashPair crypto) hashed layer) (hmany : 2 ≤ layer.length)
    (hp : p ∈ pairs layer) : pairBytes p.1 p.2 ∈ treeStrings crypto leaves :=
  .inr ⟨root, hashed, layer, hroot, hlayer, hmany, p, hp, rfl⟩

theorem preimage_mem_proof : w.preimage ∈ proofStrings crypto w proof :=
  .inl rfl

theorem inner_mem_proof :
    wordBytes (crypto.keccak256 w.preimage) ∈ proofStrings crypto w proof :=
  .inr (.inl rfl)

theorem pair_mem_proof (hp : p ∈ climbPairs (hashPair crypto) (w.hash crypto) proof) :
    pairBytes p.1 p.2 ∈ proofStrings crypto w proof :=
  .inr (.inr ⟨p, hp, rfl⟩)

end Strings

theorem length_pairBytes (a b : Bytes32) : (pairBytes a b).length = 64 := by
  unfold pairBytes
  split <;> rw [List.length_append, length_wordBytes, length_wordBytes]

theorem pairBytes_comm (a b : Bytes32) : pairBytes a b = pairBytes b a := by
  unfold pairBytes
  by_cases hab : a ≤ b
  · by_cases hba : b ≤ a
    · rw [le_antisymm hab hba]
    · rw [if_pos hab, if_neg hba]
  · rw [if_neg hab, if_pos (le_of_not_ge hab)]

/-- A pair is determined up to its order. -/
theorem mem_of_pairBytes_eq {a b c d : Bytes32} (h : pairBytes a b = pairBytes c d) :
    c = a ∨ c = b := by
  have hwords : ∀ {v w x y : Bytes32}, wordBytes v ++ wordBytes w = wordBytes x ++ wordBytes y →
      v = x ∧ w = y := by
    intro v w x y hsame
    obtain ⟨hfirst, hsecond⟩ := List.append_inj hsame (by rw [length_wordBytes, length_wordBytes])
    exact ⟨wordBytes_inj hfirst, wordBytes_inj hsecond⟩
  unfold pairBytes at h
  split at h <;> split at h
  · exact .inl (hwords h).1.symm
  · exact .inr (hwords h).2.symm
  · exact .inr (hwords h).1.symm
  · exact .inl (hwords h).2.symm

/-- A word is no pair. -/
theorem wordBytes_ne_pairBytes (w a b : Bytes32) : wordBytes w ≠ pairBytes a b := by
  intro h
  have hlength := congrArg List.length h
  rw [length_wordBytes, length_pairBytes] at hlength
  exact absurd hlength (by decide)

/-- The words of a leaf are determined by what is hashed. -/
theorem leafPreimage_inj {v w : LeafWords} (h : v.preimage = w.preimage) : v = w := by
  have hlt : ∀ (u : LeafWords), ∀ n ∈ [u.brainId.val, u.miner.val, u.score.val],
      n < 2 ^ 256 := by
    intro u n hn
    have hminer : u.miner.val < 2 ^ 256 := u.miner.isLt.trans (by decide)
    simp only [List.mem_cons, List.not_mem_nil, or_false] at hn
    rcases hn with rfl | rfl | rfl
    · exact u.brainId.isLt
    · exact hminer
    · exact u.score.isLt
  -- three words are hashed, one after the other
  have hfields := @abiEncode_inj [v.brainId.val, v.miner.val, v.score.val]
    [w.brainId.val, w.miner.val, w.score.val] rfl (hlt v) (hlt w) h
  simp only [List.cons.injEq, and_true] at hfields
  obtain ⟨hbrain, hminer, hscore⟩ := hfields
  cases v
  cases w
  simp only [LeafWords.mk.injEq]
  exact ⟨Fin.ext hbrain, Fin.ext hminer, Fin.ext hscore⟩

section Sound

variable {leaves : List ScoreLeaf} {root : Bytes32} {hashed : List Bytes32} {w : LeafWords}
  {proof : List Bytes32}

/-- Two leaves with one hash are one. -/
theorem leafHash_inj {S : Set Bytes} (hfree : crypto.CollisionFree S) {v : LeafWords}
    (hv : v.preimage ∈ S) (hw : w.preimage ∈ S)
    (hv' : wordBytes (crypto.keccak256 v.preimage) ∈ S)
    (hw' : wordBytes (crypto.keccak256 w.preimage) ∈ S) (h : v.hash crypto = w.hash crypto) :
    v = w :=
  leafPreimage_inj (hfree hv hw (wordBytes_inj (hfree hv' hw' h)))

/-- **Only leaves are accepted**, whatever the proof and however long. -/
theorem leaf_of_verify (hroot : buildMerkleRoot crypto leaves = .ok (root, hashed))
    (hne : leaves ≠ [])
    (hfree : crypto.CollisionFree (treeStrings crypto leaves ∪ proofStrings crypto w proof))
    (hverify : MerkleProof.verify crypto proof root (w.hash crypto) = true) :
    ∃ leaf ∈ leaves, leaf.words = .ok w := by
  obtain ⟨hmerkle, hmem⟩ := buildMerkleRoot_ok hroot
  have hhashed : hashed ≠ [] := by
    intro hnil
    unfold buildMerkleRoot at hroot
    simp only [bind_ok, return_ok, Prod.mk.injEq] at hroot
    obtain ⟨hashes, hhashes, -, hsorted⟩ := hroot
    obtain ⟨leaf, hleaf⟩ := List.exists_mem_of_ne_nil leaves hne
    obtain ⟨node, hnode, -⟩ := exists_of_mapM hhashes hleaf
    rw [← List.mem_insertionSort (· ≤ ·), hsorted, hnil] at hnode
    exact absurd hnode List.not_mem_nil
  -- the strings that are hashed, and that they do not collide
  have htree : ∀ {layer}, Layer (hashPair crypto) hashed layer → 2 ≤ layer.length →
      ∀ p ∈ pairs layer, pairBytes p.1 p.2 ∈
        treeStrings crypto leaves ∪ proofStrings crypto w proof :=
    fun hlayer hmany p hp => .inl (pair_mem_tree hroot hlayer hmany hp)
  have hproof : ∀ q ∈ climbPairs (hashPair crypto) (w.hash crypto) proof, pairBytes q.1 q.2 ∈
      treeStrings crypto leaves ∪ proofStrings crypto w proof :=
    fun q hq => .inr (pair_mem_proof hq)
  have hinner : wordBytes (crypto.keccak256 w.preimage) ∈
      treeStrings crypto leaves ∪ proofStrings crypto w proof := .inr inner_mem_proof
  have hbase : w.hash crypto ∈ hashed := by
    refine @mem_base_of_climb _ (hashPair crypto) _ _ proof ?_ ?_ ?_ _
      (merkleRoot_layer hhashed .base) ?_
    · intro layer hlayer hmany p hp q hq hjoin
      rw [hashPair_eq, hashPair_eq] at hjoin
      exact mem_of_pairBytes_eq (hfree (htree hlayer hmany p hp) (hproof q hq) hjoin)
    · intro node hnode q hq hjoin
      obtain ⟨leaf, hleaf, hhash⟩ := (hmem node).mp hnode
      obtain ⟨v, hv, rfl⟩ := leafHash_ok.mp hhash
      rw [hashPair_eq] at hjoin
      exact wordBytes_ne_pairBytes _ _ _
        (hfree (.inl (inner_mem_tree hleaf hv)) (hproof q hq) hjoin)
    · intro layer hlayer hmany p hp hjoin
      rw [hashPair_eq] at hjoin
      exact wordBytes_ne_pairBytes _ _ _
        (hfree (htree hlayer hmany p hp) hinner hjoin).symm
    · rw [verify_iff.mp hverify, hmerkle]
      exact List.mem_singleton.mpr rfl
  obtain ⟨leaf, hleaf, hhash⟩ := (hmem _).mp hbase
  obtain ⟨v, hv, hsame⟩ := leafHash_ok.mp hhash
  have heq : v = w := leafHash_inj hfree (.inl (preimage_mem_tree hleaf hv))
    (.inr preimage_mem_proof) (.inl (inner_mem_tree hleaf hv)) hinner hsame
  exact ⟨leaf, hleaf, heq ▸ hv⟩

/-- Checking the proof that is built for a leaf hashes nothing new. -/
theorem proofStrings_subset (hroot : buildMerkleRoot crypto leaves = .ok (root, hashed))
    {leaf : ScoreLeaf} (hleaf : leaf ∈ leaves) (hw : leaf.words = .ok w)
    (hpath : Path (hashPair crypto) hashed (w.hash crypto) proof root) :
    proofStrings crypto w proof ⊆ treeStrings crypto leaves := by
  intro bytes hbytes
  rcases hbytes with hbytes | hbytes | ⟨q, hq, hbytes⟩
  · rw [hbytes]
    exact preimage_mem_tree hleaf hw
  · rw [hbytes]
    exact inner_mem_tree hleaf hw
  · rw [hbytes]
    obtain ⟨layer, hlayer, hmany, hpair⟩ := hpath.pairs .base hq
    rcases hpair with hpair | hpair
    · exact pair_mem_tree hroot hlayer hmany hpair
    · rw [pairBytes_comm]
      exact pair_mem_tree hroot hlayer hmany hpair

/-- A list with the same root has all the leaves of the other. -/
theorem leaves_subset {leaves' : List ScoreLeaf} {hashed' : List Bytes32}
    (hroot : buildMerkleRoot crypto leaves = .ok (root, hashed))
    (hroot' : buildMerkleRoot crypto leaves' = .ok (root, hashed')) (hne' : leaves' ≠ [])
    (hfree : crypto.CollisionFree (treeStrings crypto leaves ∪ treeStrings crypto leaves'))
    (hw : ∃ leaf ∈ leaves, leaf.words = .ok w) :
    ∃ leaf ∈ leaves', leaf.words = .ok w := by
  obtain ⟨leaf, hleaf, hwords⟩ := hw
  obtain ⟨proof, v, -, hv, hpath⟩ := buildProof_ok hroot hleaf
  obtain rfl := Except.ok.inj (hwords.symm.trans hv)
  refine leaf_of_verify hroot' hne' (hfree.mono ?_) (verify_iff.mpr hpath.climb)
  exact Set.union_subset Set.subset_union_right
    ((proofStrings_subset hroot hleaf hwords hpath).trans Set.subset_union_left)

end Sound

end Leaves

/-- **The root is binding.** Where the hash has no collision among the strings that are
hashed: what is accepted against the root of a tree is a leaf of it, whatever the proof;
two trees with one root have the same leaves; and the order of the leaves does not
matter. -/
theorem root_binding {T : Type} (env : ScoringEnv T) :
    (∀ (leaves : List ScoreLeaf) (root : Bytes32) (hashed : List Bytes32) (w : LeafWords)
        (proof : List Bytes32), leaves ≠ [] →
      buildMerkleRoot env.crypto leaves = .ok (root, hashed) →
      env.crypto.CollisionFree (treeStrings env.crypto leaves ∪
        proofStrings env.crypto w proof) →
      MerkleProof.verify env.crypto proof root (scoreLeaf env w.brainId w.miner w.score) =
        true → ∃ leaf ∈ leaves, leaf.words = .ok w) ∧
    (∀ (leaves leaves' : List ScoreLeaf) (root : Bytes32) (hashed hashed' : List Bytes32),
      leaves ≠ [] → leaves' ≠ [] →
      buildMerkleRoot env.crypto leaves = .ok (root, hashed) →
      buildMerkleRoot env.crypto leaves' = .ok (root, hashed') →
      env.crypto.CollisionFree (treeStrings env.crypto leaves ∪
        treeStrings env.crypto leaves') →
      ∀ w, (∃ leaf ∈ leaves, leaf.words = .ok w) ↔
        ∃ leaf ∈ leaves', leaf.words = .ok w) ∧
    ∀ (leaves leaves' : List ScoreLeaf) (result : Bytes32 × List Bytes32),
      leaves.Perm leaves' → buildMerkleRoot env.crypto leaves = .ok result →
        buildMerkleRoot env.crypto leaves' = .ok result := by
  refine ⟨?_, ?_, fun _ _ _ hperm hroot => buildMerkleRoot_perm hperm hroot⟩
  · intro leaves root hashed w proof hne hroot hfree hverify
    exact leaf_of_verify hroot hne hfree hverify
  · intro leaves leaves' root hashed hashed' hne hne' hroot hroot' hfree w
    -- each tree's leaves are accepted against the other's root
    constructor
    · exact leaves_subset hroot hroot' hne' hfree
    · rw [Set.union_comm] at hfree
      exact leaves_subset hroot' hroot hne hfree

/-! ## Toy trees -/

/-- Account 7 scores 5 for Brain 3. -/
def toyScoreLeaf (score : Int) : ScoreLeaf :=
  ⟨3, text "0x0000000000000000000000000000000000000007", score⟩

/-- A toy registry over a hash. -/
def toyScoringOver (crypto : Crypto) : ScoringEnv Ledger :=
  { toyRegistry with crypto := crypto }

/-- The last of three leaves, two of them the same, is accepted. -/
theorem proof_complete_third : ∃ (proof : List Bytes32) (root : Bytes32) (w : LeafWords),
    buildProof toyCrypto [toyScoreLeaf 4, toyScoreLeaf 4, toyScoreLeaf 5] (toyScoreLeaf 5) =
      .ok proof ∧
    (toyScoreLeaf 5).words = .ok w ∧
    MerkleProof.verify toyCrypto proof root (w.hash toyCrypto) = true := by
  have hok : (buildMerkleRoot toyCrypto
      [toyScoreLeaf 4, toyScoreLeaf 4, toyScoreLeaf 5]).isOk = true := by decide +kernel
  obtain ⟨⟨root, hashed⟩, hroot⟩ : ∃ result, buildMerkleRoot toyCrypto
      [toyScoreLeaf 4, toyScoreLeaf 4, toyScoreLeaf 5] = .ok result :=
    ⟨_, eq_ok_of_isOk (0, []) hok⟩
  have hleaf : toyScoreLeaf 5 ∈ [toyScoreLeaf 4, toyScoreLeaf 4, toyScoreLeaf 5] :=
    List.mem_cons_of_mem _ (List.mem_cons_of_mem _ List.mem_cons_self)
  obtain ⟨proof, w, hproof, hw, hverify, -⟩ :=
    proof_complete (toyScoringOver toyCrypto) hroot hleaf
  exact ⟨proof, root, w, hproof, hw, hverify⟩

/-- The strings that are hashed for a tree over at most four leaves, given the words of the
leaves and their sorted hashes. -/
def fewStrings (crypto : Crypto) (words : List LeafWords) (hashed : List Bytes32) : List Bytes :=
  words.map LeafWords.preimage ++
    words.map (fun w => wordBytes (crypto.keccak256 w.preimage)) ++
    (pairs hashed ++ pairs (above (hashPair crypto) hashed)).map fun p => pairBytes p.1 p.2

theorem treeStrings_few {crypto : Crypto} {leaves : List ScoreLeaf} {words : List LeafWords}
    {root : Bytes32} {hashed : List Bytes32} (hwords : leaves.mapM ScoreLeaf.words = .ok words)
    (hroot : buildMerkleRoot crypto leaves = .ok (root, hashed)) (hfew : hashed.length ≤ 4) :
    treeStrings crypto leaves ⊆ {m | m ∈ fewStrings crypto words hashed} := by
  intro bytes hbytes
  show bytes ∈ fewStrings crypto words hashed
  unfold fewStrings
  rcases hbytes with ⟨leaf, hleaf, w, hw, hbytes⟩ | ⟨_, _, layer, hbuilt, hlayer, hmany, p, hp,
    hbytes⟩
  · obtain ⟨v, hmem, hv⟩ := exists_of_mapM hwords hleaf
    obtain rfl := Except.ok.inj (hw.symm.trans hv)
    refine List.mem_append_left _ ?_
    rcases hbytes with hbytes | hbytes
    · rw [hbytes]
      exact List.mem_append_left _ (List.mem_map_of_mem hmem)
    · rw [hbytes]
      exact List.mem_append_right _ (List.mem_map.mpr ⟨w, hmem, rfl⟩)
  · -- the layer is the lowest one or the one above it
    obtain ⟨rfl, rfl⟩ := Prod.mk.inj (Except.ok.inj (hroot.symm.trans hbuilt))
    rw [hbytes]
    refine List.mem_append_right _ (List.mem_map.mpr ⟨p, List.mem_append.mpr ?_, rfl⟩)
    rcases hlayer.of_few hfew hmany with rfl | rfl
    · exact .inl hp
    · exact .inr hp

/-- The order of the leaves does not matter for what is hashed. -/
theorem treeStrings_perm {crypto : Crypto} {leaves leaves' : List ScoreLeaf}
    (h : leaves.Perm leaves') : treeStrings crypto leaves ⊆ treeStrings crypto leaves' := by
  rintro bytes (⟨leaf, hleaf, hbytes⟩ | ⟨root, hashed, layer, hroot, hlayer⟩)
  · exact .inl ⟨leaf, h.mem_iff.mp hleaf, hbytes⟩
  · exact .inr ⟨root, hashed, layer, buildMerkleRoot_perm h hroot, hlayer⟩

/-- A toy hash with few collisions, from the length of a string and the number it spells. -/
def toyResidues : Crypto :=
  { toyCrypto with
    keccak256 := fun bytes => Fin.ofNat _ ((ByteWords.spelled bytes + bytes.length) % 65521) }

/-- Three leaves; and the same three, the last one twice and in another order. -/
def toyThree : List ScoreLeaf := [toyScoreLeaf 4, toyScoreLeaf 5, toyScoreLeaf 6]

def toyFour : List ScoreLeaf := [toyScoreLeaf 6, toyScoreLeaf 4, toyScoreLeaf 6, toyScoreLeaf 5]

/-- The words of the leaf with a score. -/
def toyWords (score : Fin (2 ^ 256)) : LeafWords := ⟨3, 7, score⟩

/-- An odd layer joins its last node with itself, so the two lists have one root. -/
theorem toyThree_root : buildMerkleRoot toyResidues toyThree =
    .ok (17878, [25604, 25605, 25606]) :=
  toOption_ok.mp (by decide +kernel)

theorem toyFour_root : buildMerkleRoot toyResidues toyFour =
    .ok (17878, [25604, 25605, 25606, 25606]) :=
  toOption_ok.mp (by decide +kernel)

/-- The strings of the tree over the three. -/
abbrev toyThreeStrings : List Bytes :=
  fewStrings toyResidues [toyWords 4, toyWords 5, toyWords 6] [25604, 25605, 25606]

theorem toyThree_strings : treeStrings toyResidues toyThree ⊆ {m | m ∈ toyThreeStrings} :=
  treeStrings_few rfl toyThree_root (by decide)

/-- The other tree hashes no other strings. -/
theorem toyFour_strings : treeStrings toyResidues toyFour ⊆ {m | m ∈ toyThreeStrings} := by
  have hsame : ∀ m ∈ fewStrings toyResidues [toyWords 6, toyWords 4, toyWords 6, toyWords 5]
      [25604, 25605, 25606, 25606], m ∈ toyThreeStrings := by
    decide +kernel
  exact (treeStrings_few rfl toyFour_root (by decide)).trans hsame

theorem toyThree_free : toyResidues.CollisionFree {m | m ∈ toyThreeStrings} :=
  Crypto.collisionFree_of_nodup (by decide +kernel)

/-- The last of the three leaves is accepted with a proof of two nodes, so it is a leaf; the
two lists have the same leaves; and the three may stand in any order. -/
theorem root_binding_three : ∃ (proof : List Bytes32) (root : Bytes32)
      (hashed hashed' : List Bytes32),
    buildMerkleRoot toyResidues toyThree = .ok (root, hashed) ∧
    buildMerkleRoot toyResidues toyFour = .ok (root, hashed') ∧ hashed ≠ hashed' ∧
    proof.length = 2 ∧
    MerkleProof.verify toyResidues proof root ((toyWords 6).hash toyResidues) = true ∧
    (∃ leaf ∈ toyThree, leaf.words = .ok (toyWords 6)) ∧
    (∀ w, (∃ leaf ∈ toyThree, leaf.words = .ok w) ↔ ∃ leaf ∈ toyFour, leaf.words = .ok w) ∧
    buildMerkleRoot toyResidues toyThree.reverse = .ok (root, hashed) := by
  have hleaf : toyScoreLeaf 6 ∈ toyThree :=
    List.mem_cons_of_mem _ (List.mem_cons_of_mem _ List.mem_cons_self)
  obtain ⟨proof, w, hproof, hw, hpath⟩ := buildProof_ok toyThree_root hleaf
  have hlength : (buildProof toyResidues toyThree (toyScoreLeaf 6)).map List.length = .ok 2 :=
    toOption_ok.mp (by decide +kernel)
  obtain ⟨_, hproof', htwo⟩ := map_ok.mp hlength
  obtain rfl := Except.ok.inj (hproof.symm.trans hproof')
  have hverify := verify_iff.mpr hpath.climb
  obtain ⟨hbinding, hsame, horder⟩ := root_binding (toyScoringOver toyResidues)
  have hfound : ∃ leaf ∈ toyThree, leaf.words = .ok w := by
    refine hbinding _ _ _ w proof (List.cons_ne_nil _ _) toyThree_root (toyThree_free.mono ?_)
      hverify
    exact Set.union_subset toyThree_strings
      ((proofStrings_subset toyThree_root hleaf hw hpath).trans toyThree_strings)
  have hwords : (toyScoreLeaf 6).words = .ok (toyWords 6) := rfl
  obtain rfl := Except.ok.inj (hw.symm.trans hwords)
  exact ⟨proof, _, _, _, toyThree_root, toyFour_root, by decide, htwo, hverify, hfound,
    hsame _ _ _ _ _ (List.cons_ne_nil _ _) (List.cons_ne_nil _ _) toyThree_root toyFour_root
      (toyThree_free.mono (Set.union_subset toyThree_strings toyFour_strings)),
    horder _ _ _ (List.reverse_perm _).symm toyThree_root⟩

end BasedAI
