import BasedAI.Chain.Primitives
import BasedAI.Lib.Mapping
import Mathlib.Data.List.Nodup

/-!
# BasedAI — the Brain NFT on the second layer

`BrainNFTL2.sol`: the bridge mints a Brain when it arrives and burns it when it leaves,
and nobody else moves one. The contract keeps every owner's Brains in a list, which is
what governance enumerates; a burned Brain's place is taken by the last of the list. That
the lists are the owners' Brains, each once, is part of the structure.
-/

namespace BasedAI

open Fallible Mapping

/-! ## Lists without order -/

section SwapPop

variable {α : Type} [DecidableEq α] {l : List α} {x y : α}

/-- Remove `x` by moving the last entry into its place. -/
def swapPop (l : List α) (x : α) : List α :=
  match l.getLast? with
  | none => []
  | some last => if last = x then l.dropLast else l.dropLast.replace x last

theorem replace_perm (hx : x ∈ l) : (l.replace x y).Perm (y :: l.erase x) := by
  induction l with
  | nil => cases hx
  | cons z l ih =>
    rw [List.replace_cons, List.erase_cons]
    by_cases hz : x = z
    · subst hz
      simp
    · have hxl : x ∈ l := (List.mem_cons.mp hx).resolve_left hz
      have hne : (x == z) = false := beq_eq_false_iff_ne.mpr hz
      have hne' : (z == x) = false := beq_eq_false_iff_ne.mpr (Ne.symm hz)
      rw [hne, if_neg (by rw [hne']; exact Bool.false_ne_true)]
      exact ((ih hxl).cons z).trans (.swap y z _)

/-- Up to the order this is `List.erase`. -/
theorem swapPop_perm (hx : x ∈ l) (hdistinct : l.Nodup) : (swapPop l x).Perm (l.erase x) := by
  rcases List.eq_nil_or_concat l with rfl | ⟨init, last, rfl⟩
  · cases hx
  · rw [List.concat_eq_append] at hx hdistinct ⊢
    unfold swapPop
    rw [List.getLast?_concat, List.dropLast_concat]
    dsimp only
    -- the last entry is dropped, or takes the place of the one that goes
    by_cases hlast : last = x
    · subst hlast
      have hout : last ∉ init := by
        have := (List.nodup_append.mp hdistinct).2.2
        intro hin
        exact this last hin last (List.mem_singleton_self last) rfl
      rw [if_pos rfl, List.erase_append_right _ hout]
      simp
    · have hin : x ∈ init := by
        rcases List.mem_append.mp hx with hin | hin
        · exact hin
        · exact absurd (List.mem_singleton.mp hin).symm hlast
      rw [if_neg hlast, List.erase_append_left _ hin]
      exact (replace_perm hin).trans (List.perm_append_singleton last _).symm

end SwapPop

/-! ## The contract -/

/-- Who owns which Brain, with every owner's Brains in the order of their indices. -/
structure BrainNFTL2 where
  owners : BrainId → Option Address
  ownedTokens : Address → List BrainId
  mem_ownedTokens : ∀ a b, b ∈ ownedTokens a ↔ owners b = some a
  nodup : ∀ a, (ownedTokens a).Nodup

/-- The bridge the NFT is deployed with, and which recipients acknowledge a Brain. -/
structure BrainNFTL2Env where
  bridge : Address
  receives : Address → BrainId → Bool

namespace BrainNFTL2

def deploy : BrainNFTL2 where
  owners _ := none
  ownedTokens _ := []
  mem_ownedTokens _ _ := by simp
  nodup _ := List.nodup_nil

variable (nft : BrainNFTL2)

def balanceOf (owner : Address) : Exec Nat := do
  revertIf (owner = 0) .erc721InvalidOwner
  return (nft.ownedTokens owner).length

def tokenOfOwnerByIndex (owner : Address) (index : Nat) : Exec BrainId :=
  orRevert .erc721OutOfBoundsIndex ((nft.ownedTokens owner)[index]?)

/-- A Brain without an owner goes to `recipient`, at the end of its list. -/
def assign (recipient : Address) (tokenId : BrainId) (h : nft.owners tokenId = none) :
    BrainNFTL2 where
  owners := set nft.owners tokenId (some recipient)
  ownedTokens := set nft.ownedTokens recipient (nft.ownedTokens recipient ++ [tokenId])
  mem_ownedTokens a b := by
    have hmem := nft.mem_ownedTokens a b
    by_cases ha : a = recipient
    · subst ha
      rw [set_same, List.mem_append, List.mem_singleton, hmem]
      by_cases hb : b = tokenId
      · subst hb
        simp [set_same]
      · rw [set_of_ne _ _ hb]
        simp [hb]
    · rw [set_of_ne _ _ ha, hmem]
      by_cases hb : b = tokenId
      · subst hb
        rw [set_same, h]
        simp [Ne.symm ha]
      · rw [set_of_ne _ _ hb]
  nodup a := by
    by_cases ha : a = recipient
    · subst ha
      -- nobody had it, so it is in no list
      have hout : tokenId ∉ nft.ownedTokens a := by
        rw [nft.mem_ownedTokens, h]
        rintro ⟨⟩
      rw [set_same]
      exact List.nodup_append_comm.mp (List.nodup_cons.mpr ⟨hout, nft.nodup a⟩)
    · rw [set_of_ne _ _ ha]
      exact nft.nodup a

/-- A Brain leaves its owner, and the last of the owner's list takes its place. -/
def release (owner : Address) (tokenId : BrainId) (h : nft.owners tokenId = some owner) :
    BrainNFTL2 where
  owners := set nft.owners tokenId none
  ownedTokens := set nft.ownedTokens owner (swapPop (nft.ownedTokens owner) tokenId)
  mem_ownedTokens a b := by
    have hmem := nft.mem_ownedTokens a b
    -- up to the order, the list loses this Brain
    have hperm := swapPop_perm ((nft.mem_ownedTokens owner tokenId).mpr h) (nft.nodup owner)
    by_cases ha : a = owner
    · subst ha
      rw [set_same, hperm.mem_iff, (nft.nodup a).mem_erase_iff, hmem]
      by_cases hb : b = tokenId
      · subst hb
        simp [set_same]
      · rw [set_of_ne _ _ hb]
        simp [hb]
    · rw [set_of_ne _ _ ha, hmem]
      by_cases hb : b = tokenId
      · subst hb
        rw [set_same, h]
        simp [Ne.symm ha]
      · rw [set_of_ne _ _ hb]
  nodup a := by
    have hperm := swapPop_perm ((nft.mem_ownedTokens owner tokenId).mpr h) (nft.nodup owner)
    by_cases ha : a = owner
    · subst ha
      rw [set_same]
      exact hperm.nodup_iff.mpr ((nft.nodup a).erase tokenId)
    · rw [set_of_ne _ _ ha]
      exact nft.nodup a

variable (env : BrainNFTL2Env) (caller : Address)

/-- The `onlyBridge` modifier. -/
def onlyBridge : Exec Unit :=
  revertIf (caller ≠ env.bridge) (.require "BrainNFTL2: only bridge")

/-- A Brain that has an owner would be transferred, which `_update` refuses. -/
def safeMint (recipient : Address) (tokenId : BrainId) : Exec BrainNFTL2 := do
  onlyBridge env caller
  revertIf (recipient = 0) .erc721InvalidReceiver
  match h : nft.owners tokenId with
  | some _ => .error .transferRestricted
  | none =>
    let nft := nft.assign recipient tokenId h
    -- a contract that does not acknowledge the Brain undoes the mint
    revertIf (env.receives recipient tokenId = false) .erc721InvalidReceiver
    return nft

/-- The owner the bridge names is not looked at. -/
def burn (_owner : Address) (tokenId : BrainId) : Exec BrainNFTL2 := do
  onlyBridge env caller
  match h : nft.owners tokenId with
  | none => .error .erc721NonexistentToken
  | some owner => return nft.release owner tokenId h

end BrainNFTL2

/-- A call to one of the NFT's entry points that move a Brain. -/
inductive BrainNFTL2Call
  | safeMint (recipient : Address) (tokenId : BrainId)
  | burn (owner : Address) (tokenId : BrainId)

/-- Execute a call sent by `caller`. -/
def BrainNFTL2Call.exec (env : BrainNFTL2Env) (caller : Address) (nft : BrainNFTL2) :
    BrainNFTL2Call → Exec BrainNFTL2
  | .safeMint recipient tokenId => nft.safeMint env caller recipient tokenId
  | .burn owner tokenId => nft.burn env caller owner tokenId

end BasedAI
