import BasedAI.Chain.Codec
import BasedAI.Lib.MerkleTree
import Mathlib.Data.List.Sort

/-!
# BasedAI — the Merkle tree over scores, off chain

`merkle.py`: leaves are hashed, sorted, and combined in pairs layer by layer; a
pair is hashed with the smaller node first, and an odd layer repeats its last
node. Byte strings of 32 bytes are ordered as the words they spell.

* `buildMerkleRoot_perm` — the root does not depend on the order of the leaves;
* `proofFrom_path`       — a proof has the siblings on the way to the root;
* `merkleRoot_layer`     — the root is the last layer over the leaves.
-/

namespace BasedAI

open Fallible Python

/-- One miner's score; `miner` is an address text. -/
structure ScoreLeaf where
  brainId : Int
  miner : Text
  /-- fixed-point -/
  score : Int
  deriving DecidableEq

section Merkle

variable (crypto : Crypto)

/-- `ScoreLeaf.hash`: hashed twice, so that no inner node is a leaf. -/
def ScoreLeaf.hash (leaf : ScoreLeaf) : Py Bytes32 := do
  let brainId ← encodeUint 256 leaf.brainId
  let miner ← encodeAddress (.str leaf.miner)
  let score ← encodeUint 256 leaf.score
  let inner := crypto.keccak256 (abiEncode [brainId.val, miner.val, score.val])
  return crypto.keccak256 (wordBytes inner)

def hashPair (a b : Bytes32) : Bytes32 :=
  if a ≤ b then crypto.keccak256 (wordBytes a ++ wordBytes b)
  else crypto.keccak256 (wordBytes b ++ wordBytes a)

/-- The layer above; the last node of an odd layer is its own sibling. -/
def nextLayer : List Bytes32 → List Bytes32
  | [] => []
  | [a] => [hashPair crypto a a]
  | a :: b :: rest => hashPair crypto a b :: nextLayer rest

theorem length_nextLayer (layer : List Bytes32) :
    (nextLayer crypto layer).length = (layer.length + 1) / 2 := by
  induction layer using nextLayer.induct with
  | case1 => rfl
  | case2 a =>
    rw [nextLayer, List.length_singleton, List.length_singleton]
  | case3 a b rest ih =>
    rw [nextLayer, List.length_cons, ih, List.length_cons, List.length_cons]
    omega

/-- The loop over the layers, from the sorted leaf hashes. -/
def merkleRoot : List Bytes32 → Bytes32
  | [] => 0
  | [node] => node
  | a :: b :: rest => merkleRoot (nextLayer crypto (a :: b :: rest))
termination_by layer => layer.length
decreasing_by
  rw [length_nextLayer, List.length_cons, List.length_cons]
  omega

/-- `build_merkle_root`: the root and the sorted leaf hashes. -/
def buildMerkleRoot (leaves : List ScoreLeaf) : Py (Bytes32 × List Bytes32) := do
  let hashes ← leaves.mapM (ScoreLeaf.hash crypto)
  let hashed := hashes.insertionSort (· ≤ ·)
  return (merkleRoot crypto hashed, hashed)

/-- A layer whose last node is repeated if it is odd. -/
def padLayer (layer : List Bytes32) : List Bytes32 :=
  if layer.length % 2 = 1 then layer ++ layer.getLast?.toList else layer

/-- The loop of `build_proof`: the sibling at `idx ^ 1` in every layer. Layers shrink with
the index, so it is always there. -/
def proofFrom : List Bytes32 → Nat → List Bytes32
  | [], _ => []
  | [_], _ => []
  | a :: b :: rest, idx =>
    (padLayer (a :: b :: rest)).getD (idx ^^^ 1) 0 ::
      proofFrom (nextLayer crypto (a :: b :: rest)) (idx / 2)
termination_by layer => layer.length
decreasing_by
  rw [length_nextLayer, List.length_cons, List.length_cons]
  omega

/-- `build_proof`. -/
def buildProof (leaves : List ScoreLeaf) (target : ScoreLeaf) : Py (List Bytes32) := do
  let targetHash ← target.hash crypto
  let hashes ← leaves.mapM (ScoreLeaf.hash crypto)
  let hashed := hashes.insertionSort (· ≤ ·)
  raiseIf (targetHash ∉ hashed) (.valueError "target leaf not in set")
  return proofFrom crypto hashed (hashed.idxOf targetHash)

variable {crypto}

/-! ## The tree -/

open MerkleTree

theorem hashPair_comm (a b : Bytes32) : hashPair crypto a b = hashPair crypto b a := by
  unfold hashPair
  by_cases hab : a ≤ b
  · by_cases hba : b ≤ a
    · rw [le_antisymm hab hba]
    · rw [if_pos hab, if_neg hba]
  · rw [if_neg hab, if_pos (le_of_not_ge hab)]

theorem nextLayer_eq_above (layer : List Bytes32) :
    nextLayer crypto layer = above (hashPair crypto) layer := by
  induction layer using nextLayer.induct with
  | case1 => rfl
  | case2 a => rfl
  | case3 a b rest ih => rw [nextLayer, ih, above, above, pairs, List.map_cons]

/-- The root is the last layer. -/
theorem merkleRoot_layer {base layer : List Bytes32} (hne : layer ≠ [])
    (h : Layer (hashPair crypto) base layer) :
    Layer (hashPair crypto) base [merkleRoot crypto layer] := by
  induction layer using merkleRoot.induct crypto with
  | case1 => exact absurd rfl hne
  | case2 node => rwa [merkleRoot]
  | case3 a b rest ih =>
    rw [merkleRoot]
    refine ih ?_ ?_
    · rw [nextLayer]
      exact List.cons_ne_nil _ _
    · rw [nextLayer_eq_above]
      refine h.above ?_
      rw [List.length_cons, List.length_cons]
      omega

/-! ## Siblings -/

theorem padLayer_cons (a b : Bytes32) (rest : List Bytes32) :
    padLayer (a :: b :: rest) = a :: b :: padLayer rest := by
  unfold padLayer
  have hparity : (a :: b :: rest).length % 2 = rest.length % 2 := by
    rw [List.length_cons, List.length_cons]
    omega
  rw [hparity]
  by_cases hodd : rest.length % 2 = 1
  · rw [if_pos hodd, if_pos hodd]
    -- an odd rest is not empty, so the two lists end in the same node
    cases rest with
    | nil => cases hodd
    | cons c rest => rfl
  · rw [if_neg hodd, if_neg hodd]

/-- Two further on is the sibling of two further on. -/
theorem xor_one_add_two (n : Nat) : (n + 2) ^^^ 1 = (n ^^^ 1) + 2 := by
  have hdiv : ∀ m : Nat, (m ^^^ 1) / 2 = m / 2 := by
    intro m
    rw [Nat.xor_div_two]
    exact Nat.xor_zero _
  have hmod : ∀ m : Nat, (m ^^^ 1) % 2 = 1 ↔ ¬ m % 2 = 1 := by
    intro m
    rw [Nat.xor_mod_two_eq_one]
    omega
  have hn := hdiv n
  have hn' := hmod n
  have htwo := hdiv (n + 2)
  have htwo' := hmod (n + 2)
  omega

/-- A node and its sibling are a pair, and their join is above them. -/
theorem sibling_spec {layer : List Bytes32} {idx : Nat} {node : Bytes32}
    (hnode : layer[idx]? = some node) : ∃ sibling,
      (padLayer layer).getD (idx ^^^ 1) 0 = sibling ∧
      ((node, sibling) ∈ pairs layer ∨ (sibling, node) ∈ pairs layer) ∧
      (nextLayer crypto layer)[idx / 2]? = some (hashPair crypto node sibling) := by
  induction layer using nextLayer.induct generalizing idx with
  | case1 => cases hnode
  | case2 a =>
    -- the last node of an odd layer
    cases idx with
    | zero =>
      obtain rfl := Option.some.inj hnode
      exact ⟨a, rfl, .inl List.mem_cons_self, rfl⟩
    | succ n => cases hnode
  | case3 a b rest ih =>
    match idx, hnode with
    | 0, hnode =>
      obtain rfl := Option.some.inj hnode
      refine ⟨b, ?_, .inl List.mem_cons_self, rfl⟩
      rw [padLayer_cons]
      rfl
    | 1, hnode =>
      obtain rfl := Option.some.inj hnode
      refine ⟨a, ?_, .inr List.mem_cons_self, ?_⟩
      · rw [padLayer_cons]
        rfl
      · rw [hashPair_comm]
        rfl
    | n + 2, hnode =>
      obtain ⟨sibling, hsibling, hpair, habove⟩ := ih hnode
      refine ⟨sibling, ?_, ?_, ?_⟩
      · rw [padLayer_cons, xor_one_add_two]
        exact hsibling
      · rw [pairs]
        exact hpair.imp (List.mem_cons_of_mem _) (List.mem_cons_of_mem _)
      · rw [nextLayer, Nat.add_div_right n Nat.zero_lt_two]
        exact habove

/-- **A proof has the siblings on the way to the root.** -/
theorem proofFrom_path {layer : List Bytes32} {idx : Nat} {node : Bytes32}
    (hnode : layer[idx]? = some node) :
    Path (hashPair crypto) layer node (proofFrom crypto layer idx) (merkleRoot crypto layer) := by
  induction layer using merkleRoot.induct crypto generalizing idx node with
  -- an empty layer has no nodes
  | case1 => cases hnode
  | case2 root =>
    cases idx with
    | zero =>
      obtain rfl := Option.some.inj hnode
      rw [proofFrom, merkleRoot]
      exact .root _
    | succ n => cases hnode
  | case3 a b rest ih =>
    obtain ⟨sibling, hsibling, hpair, habove⟩ := @sibling_spec crypto _ _ _ hnode
    rw [proofFrom, merkleRoot, hsibling]
    refine .step ?_ hpair ?_
    · rw [List.length_cons, List.length_cons]
      omega
    · rw [← nextLayer_eq_above]
      exact ih habove

/-! ## The order of the leaves -/

/-- Reading lists in two orders gives results in two orders. -/
theorem mapM_perm {α β : Type} {f : α → Py β} {xs ys : List α} (h : xs.Perm ys) :
    ∀ {as : List β}, xs.mapM f = .ok as → ∃ bs, ys.mapM f = .ok bs ∧ as.Perm bs := by
  -- along the permutation: what is read first fails first, but here nothing fails
  induction h with
  | nil =>
    intro as hxs
    exact ⟨as, hxs, .refl as⟩
  | cons x _ ih =>
    intro as hxs
    simp only [List.mapM_cons, bind_ok, return_ok] at hxs
    obtain ⟨a, ha, as, has, rfl⟩ := hxs
    obtain ⟨bs, hbs, hperm⟩ := ih has
    refine ⟨a :: bs, ?_, hperm.cons a⟩
    simp only [List.mapM_cons, bind_ok, return_ok]
    exact ⟨a, ha, bs, hbs, rfl⟩
  | swap x y l =>
    intro as hxs
    simp only [List.mapM_cons, bind_ok, return_ok] at hxs
    obtain ⟨a, ha, _, ⟨b, hb, bs, hbs, rfl⟩, rfl⟩ := hxs
    refine ⟨b :: a :: bs, ?_, .swap b a bs⟩
    simp only [List.mapM_cons, bind_ok, return_ok]
    exact ⟨b, hb, _, ⟨a, ha, bs, hbs, rfl⟩, rfl⟩
  | trans _ _ ih ih' =>
    intro as hxs
    obtain ⟨bs, hbs, hperm⟩ := ih hxs
    obtain ⟨cs, hcs, hperm'⟩ := ih' hbs
    exact ⟨cs, hcs, hperm.trans hperm'⟩

/-- **The root does not depend on the order of the leaves.** -/
theorem buildMerkleRoot_perm {leaves leaves' : List ScoreLeaf} (h : leaves.Perm leaves')
    {result : Bytes32 × List Bytes32} (hroot : buildMerkleRoot crypto leaves = .ok result) :
    buildMerkleRoot crypto leaves' = .ok result := by
  unfold buildMerkleRoot at hroot ⊢
  simp only [bind_ok, return_ok] at hroot ⊢
  obtain ⟨hashes, hhashes, rfl⟩ := hroot
  obtain ⟨hashes', hhashes', hperm⟩ := mapM_perm h hhashes
  refine ⟨hashes', hhashes', ?_⟩
  -- sorted lists with the same elements are equal
  have hsorted : hashes'.insertionSort (· ≤ ·) = hashes.insertionSort (· ≤ ·) := by
    apply List.Perm.eq_of_pairwise' (List.pairwise_insertionSort (· ≤ ·) _)
      (List.pairwise_insertionSort (· ≤ ·) _)
    exact ((List.perm_insertionSort _ _).trans hperm.symm).trans
      (List.perm_insertionSort _ _).symm
  rw [hsorted]

end Merkle

end BasedAI
