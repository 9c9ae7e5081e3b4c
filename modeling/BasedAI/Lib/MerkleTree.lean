import Mathlib.Data.List.Induction
import Mathlib.Tactic.Common

/-!
# Merkle trees

Layers of nodes, where the nodes of a layer are joined in pairs to the layer above and the
last node of an odd layer is joined with itself. A proof is the list of siblings on the way
from a leaf to the root, and it is checked by joining them one after the other.

* `Path.climb`        — the siblings on a way to the root lead to the root;
* `mem_base_of_climb` — where joins have no collisions, nothing but a leaf gets there.
-/

namespace MerkleTree

variable {N : Type} (join : N → N → N)

/-- The pairs that are joined. -/
def pairs : List N → List (N × N)
  | [] => []
  | [a] => [(a, a)]
  | a :: b :: rest => (a, b) :: pairs rest

/-- The layer above. -/
def above (layer : List N) : List N := (pairs layer).map fun p => join p.1 p.2

/-- The layers over `base` that are not yet a root, and the root. -/
inductive Layer (base : List N) : List N → Prop
  | base : Layer base base
  | above {layer : List N} (h : Layer base layer) (hmany : 2 ≤ layer.length) :
      Layer base (above join layer)

/-- Join a node with one sibling after the other. -/
def climb (node : N) (proof : List N) : N := proof.foldl join node

/-- What is joined on the way. -/
def climbPairs (node : N) : List N → List (N × N)
  | [] => []
  | sibling :: proof => (node, sibling) :: climbPairs (join node sibling) proof

/-- `proof` has the siblings on a way from `node` in `layer` to the root. -/
inductive Path : List N → N → List N → N → Prop
  | root (node : N) : Path [node] node [] node
  | step {layer : List N} {node sibling root : N} {proof : List N}
      (hmany : 2 ≤ layer.length)
      (hpair : (node, sibling) ∈ pairs layer ∨ (sibling, node) ∈ pairs layer)
      (h : Path (above join layer) (join node sibling) proof root) :
      Path layer node (sibling :: proof) root

variable {join}

/-! ## Pairs -/

/-- Both nodes of a pair are in the layer. -/
theorem mem_of_mem_pairs {layer : List N} {p : N × N} (h : p ∈ pairs layer) :
    p.1 ∈ layer ∧ p.2 ∈ layer := by
  induction layer using pairs.induct with
  | case1 => exact absurd h List.not_mem_nil
  | case2 a =>
    obtain rfl := List.mem_singleton.mp h
    exact ⟨List.mem_cons_self, List.mem_cons_self⟩
  | case3 a b rest ih =>
    rcases List.mem_cons.mp h with rfl | hrest
    · exact ⟨List.mem_cons_self, List.mem_cons_of_mem _ List.mem_cons_self⟩
    · obtain ⟨hfirst, hsecond⟩ := ih hrest
      exact ⟨List.mem_cons_of_mem _ (List.mem_cons_of_mem _ hfirst),
        List.mem_cons_of_mem _ (List.mem_cons_of_mem _ hsecond)⟩

theorem mem_above {layer : List N} {node : N} :
    node ∈ above join layer ↔ ∃ p ∈ pairs layer, join p.1 p.2 = node :=
  List.mem_map

theorem length_pairs (layer : List N) : (pairs layer).length = (layer.length + 1) / 2 := by
  induction layer using pairs.induct with
  | case1 => simp [pairs]
  | case2 a => rw [pairs, List.length_singleton, List.length_singleton]
  | case3 a b rest ih =>
    rw [pairs, List.length_cons, ih, List.length_cons, List.length_cons]
    omega

theorem length_above (layer : List N) : (above join layer).length = (layer.length + 1) / 2 := by
  rw [above, List.length_map, length_pairs]

/-- Over four nodes or less there is one layer and then the root. -/
theorem Layer.of_few {base layer : List N} (h : Layer join base layer) (hfew : base.length ≤ 4)
    (hmany : 2 ≤ layer.length) : layer = base ∨ layer = MerkleTree.above join base := by
  induction h with
  | base => exact .inl rfl
  | above _ hbelow ih =>
    rcases ih hbelow with rfl | rfl
    · exact .inr rfl
    · -- two nodes are joined to the root
      rw [length_above, length_above] at hmany
      omega

/-! ## Completeness -/

/-- **A path leads to the root.** -/
theorem Path.climb {layer : List N} {node root : N} {proof : List N}
    (h : Path join layer node proof root) : climb join node proof = root := by
  induction h with
  | root node => rfl
  | step _ _ _ ih => exact ih

/-- Whatever a path joins is a pair of some layer, up to the order of the two. -/
theorem Path.pairs {base layer : List N} {node root : N} {proof : List N}
    (h : Path join layer node proof root) (hlayer : Layer join base layer) {p : N × N}
    (hp : p ∈ climbPairs join node proof) :
    ∃ layer', Layer join base layer' ∧ 2 ≤ layer'.length ∧
      (p ∈ MerkleTree.pairs layer' ∨ p.swap ∈ MerkleTree.pairs layer') := by
  induction h with
  | root node => exact absurd hp List.not_mem_nil
  | @step layer node sibling root proof hmany hpair _ ih =>
    rcases List.mem_cons.mp hp with rfl | hrest
    · exact ⟨layer, hlayer, hmany, hpair⟩
    · exact ih (hlayer.above hmany) hrest

/-! ## Soundness -/

/-- **Nothing but a leaf gets to the root.** Suppose that what is joined on the way
collides with no pair of a layer and with no node of `base`, and that the node it starts
from is not itself a join of a pair. Then a way into a layer starts in `base`. -/
theorem mem_base_of_climb {base : List N} {node : N} {proof : List N}
    (hpairs : ∀ layer, Layer join base layer → 2 ≤ layer.length → ∀ p ∈ pairs layer,
      ∀ q ∈ climbPairs join node proof, join p.1 p.2 = join q.1 q.2 → q.1 = p.1 ∨ q.1 = p.2)
    (hbase : ∀ leaf ∈ base, ∀ q ∈ climbPairs join node proof, leaf ≠ join q.1 q.2)
    (hnode : ∀ layer, Layer join base layer → 2 ≤ layer.length → ∀ p ∈ pairs layer,
      join p.1 p.2 ≠ node)
    {layer : List N} (hlayer : Layer join base layer) (h : climb join node proof ∈ layer) :
    node ∈ base := by
  -- from the root down: the induction takes the last sibling away
  induction proof using List.reverseRecOn generalizing layer with
  | nil =>
    cases hlayer with
    | base => exact h
    | above hbelow hmany =>
      obtain ⟨p, hp, hjoin⟩ := mem_above.mp h
      exact absurd hjoin (hnode _ hbelow hmany p hp)
  | append_singleton proof sibling ih =>
    have hlast : ∀ (node : N) (proof : List N),
        climbPairs join node (proof ++ [sibling]) =
          climbPairs join node proof ++ [(climb join node proof, sibling)] := by
      intro node proof
      induction proof generalizing node with
      | nil => rfl
      | cons s rest ih => exact congrArg _ (ih (join node s))
    have hclimb : climb join node (proof ++ [sibling]) =
        join (climb join node proof) sibling := by
      rw [climb, List.foldl_append]
      rfl
    have hmem : (climb join node proof, sibling) ∈ climbPairs join node (proof ++ [sibling]) := by
      rw [hlast]
      exact List.mem_append_right _ List.mem_cons_self
    have hshorter : ∀ q ∈ climbPairs join node proof,
        q ∈ climbPairs join node (proof ++ [sibling]) := by
      intro q hq
      rw [hlast]
      exact List.mem_append_left _ hq
    rw [hclimb] at h
    cases hlayer with
    | base => exact absurd rfl (hbase _ h _ hmem)
    | @above below hbelow hmany =>
      obtain ⟨p, hp, hjoin⟩ := mem_above.mp h
      have hbelow' : climb join node proof ∈ below := by
        obtain ⟨hfirst, hsecond⟩ := mem_of_mem_pairs hp
        rcases hpairs below hbelow hmany p hp _ hmem hjoin with hleft | hright
        · dsimp only at hleft
          rwa [hleft]
        · dsimp only at hright
          rwa [hright]
      exact ih (fun layer hlayer hmany p hp q hq =>
          hpairs layer hlayer hmany p hp q (hshorter q hq))
        (fun leaf hleaf q hq => hbase leaf hleaf q (hshorter q hq)) hbelow hbelow'

end MerkleTree
