import BasedAI.Chain.Primitives

/-!
# BasedAI — Brain configuration

`SubnetRegistry.sol` as far as settlement reads it: the stored configuration of
each Brain, and the view that replaces the stored owner of an active Brain by
the live owner of its NFT.
-/

namespace BasedAI

/-- `ISubnetRegistry.Subnet`. -/
structure Subnet where
  owner : Address
  modelHash : Bytes32
  modelURI : String
  registrationFee : Nat
  /-- basis points of the gross amount that go to the owner -/
  ownerSplitBps : Fin (2 ^ 16)
  /-- the miners' basis points of what the owner leaves -/
  minerShareBps : Fin (2 ^ 16)
  createdAt : Nat
  active : Bool

/-- The storage of `SubnetRegistry`. -/
structure SubnetRegistry where
  subnets : BrainId → Subnet

/-- The registry as deployed. -/
def SubnetRegistry.deploy : SubnetRegistry where
  subnets _ := ⟨0, 0, "", 0, 0, 0, 0, false⟩

/-- The owners of the Brain NFTs; `none` where `ownerOf` reverts. -/
abbrev BrainOwners := BrainId → Option Address

/-- `getSubnet`: the owner of an active Brain is the live owner of its NFT, and the
stored one only where the lookup reverts. -/
def SubnetRegistry.getSubnet (r : SubnetRegistry) (ownerOf : BrainOwners)
    (brainId : BrainId) : Subnet :=
  let s := r.subnets brainId
  if s.active then
    match ownerOf brainId with
    | some live => { s with owner := live }
    | none => s
  else s

end BasedAI
