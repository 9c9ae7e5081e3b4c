import BasedAI.Scoring.ScoringRegistry
import BasedAI.Validator.CandidatePool
import Mathlib.Data.List.MinMax

/-!
# BasedAI — the commitment aggregator

`CommitmentAggregator`: validators hand in signatures on roots, and once the signers of a
root hold a quorum of the Brain's stake, the aggregator proposes it to the registry.
`from_chain` reads the stakes from the vault and encodes the proposal for the contract.

A root comes as bytes or as text, and is kept under its text in lower case.
-/

namespace BasedAI

open Fallible Python

/-! ## Roots and addresses, as they are handed over -/

/-- A root: its bytes, or a text that spells them. -/
inductive RootArg
  | bytes (root : Bytes)
  | str (root : Text)

/-- `_as_root_bytes`. -/
def RootArg.asRootBytes : RootArg → Py Bytes32
  | .bytes root => rootOfBytes root
  | .str root => rootOfText root

/-- `_normalize_root`. -/
def RootArg.normalize (u : Unicode) : RootArg → Text
  | .bytes root => lower u (text "0x" ++ hexlify root)
  | .str root => lower u root

/-- `int(t, 16)` of digits, `0x` optional. -/
def hexInt (t : Text) : Nat :=
  (remove0xPrefix t).foldl (fun n c => 16 * n + (hexDigit c).getD 0) 0

/-! ## The aggregator -/

/-- Signatures by checksummed signer address. -/
abbrev Signatures := List (Text × Text)

structure CommitmentAggregator where
  minQuorumBps : Int
  /-- signatures by (epoch, Brain, normalized root) -/
  pending : List ((Int × Int × Text) × Signatures)
  /-- what was proposed already -/
  proposed : List (Int × Int)

/-- An aggregator with the quorum of the contract. -/
def CommitmentAggregator.empty : CommitmentAggregator where
  minQuorumBps := 5001
  pending := []
  proposed := []

/-- The arguments of a call to `add_commitment`. -/
structure CommitmentCall where
  epoch : Int
  brainId : Int
  root : RootArg
  signer : Text
  signature : Text

/-- The arguments of a call to `_propose_fn`. -/
structure Proposal where
  epoch : Int
  brainId : Int
  root : Bytes
  signers : List Text
  signatures : List Text

namespace CommitmentAggregator

/-- A signature is kept with its prefix. -/
def withPrefix (signature : Text) : Text :=
  if (text "0x").isPrefixOf signature then signature else text "0x" ++ signature

/-- The key a commitment is stored under. -/
def keyOf (u : Unicode) (epoch brainId : Int) (root : RootArg) : Int × Int × Text :=
  (epoch, brainId, root.normalize u)

/-- `self._pending.setdefault(key, {})[address] = signature`. -/
def store (pending : List ((Int × Int × Text) × Signatures)) (key : Int × Int × Text)
    (address signature : Text) : List ((Int × Int × Text) × Signatures) :=
  dictSet key (dictSet address signature ((dictGet key pending).getD [])) pending

section Adding

variable (o : Offchain) (domain : CommitmentDomain)

/-- Recover the signer of a commitment. -/
def recoverSigner (c : CommitmentCall) : Py Text := do
  let root ← c.root.asRootBytes
  recoverCommitmentSigner o domain c.epoch c.brainId root c.signature

def addCommitment (agg : CommitmentAggregator) (c : CommitmentCall) :
    CommitmentAggregator × Py Bool :=
  match recoverSigner o domain c with
  | .error e => (agg, .error e)
  | .ok recovered =>
    if lower o.unicode recovered ≠ lower o.unicode c.signer then (agg, .ok false)
    else
      match toChecksumAddress o.crypto (.str recovered) with
      | .error e => (agg, .error e)
      | .ok address =>
        -- a later signature of the same signer takes the place of the first
        let key := keyOf o.unicode c.epoch c.brainId c.root
        let pending := store agg.pending key address (withPrefix c.signature)
        ({ agg with pending := pending }, .ok true)

/-- Call after call. -/
def addAll (agg : CommitmentAggregator) (calls : List CommitmentCall) : CommitmentAggregator :=
  calls.foldl (fun agg c => (agg.addCommitment o domain c).1) agg

end Adding

section Proposing

variable (u : Unicode) (stakes : Stakes) (agg : CommitmentAggregator) (epoch brainId : Int)

def signersOf (root : RootArg) : Signatures :=
  (dictGet (keyOf u epoch brainId root) agg.pending).getD []

def backingStake (root : RootArg) : Py Int := do
  let held ← (agg.signersOf u epoch brainId root).mapM fun s => stakes.stakeOf brainId s.1
  return held.sum

def quorumMet (root : RootArg) : Py Bool := do
  let total ← stakes.totalStake brainId
  if total = 0 then return false
  else
    -- rounded up, as the contract does
    let need := (total * agg.minQuorumBps + 9999) / 10000
    let backing ← agg.backingStake u stakes epoch brainId root
    return decide (need ≤ backing)

/-- The signers in ascending order, and their signatures. -/
def assemble (root : RootArg) : Py (List Text × List Text) := do
  let signers := agg.signersOf u epoch brainId root
  let ordered := (signers.map Prod.fst).insertionSort fun a b => hexInt a ≤ hexInt b
  let signatures ← ordered.mapM fun a => orRaise .keyError (dictGet a signers)
  return (ordered, signatures)

/-- The roots there are signatures for. -/
def rootsOf : List Text :=
  (agg.pending.filter fun e => e.1.1 = epoch ∧ e.1.2.1 = brainId).map fun e => e.1.2.2

/-- The root with the most stake, the first of several. -/
def bestRoot : Py (Option Text) := do
  let backed ← (agg.rootsOf epoch brainId).mapM fun r => do
    let backing ← agg.backingStake u stakes epoch brainId (.str r)
    return (r, backing)
  let best := @List.argmax _ _ Int.instLinearOrder.toPreorder Int.decLt Prod.snd backed
  return best.map Prod.fst

/-- What `try_propose` passes to `_propose_fn`, if it comes to that. -/
def nextProposal : Py (Option Proposal) := do
  if (epoch, brainId) ∈ agg.proposed then return none
  else
    match ← agg.bestRoot u stakes epoch brainId with
    | none => return none
    | some root =>
      let met ← agg.quorumMet u stakes epoch brainId (.str root)
      if met = false then return none
      else
        let (signers, signatures) ← agg.assemble u epoch brainId (.str root)
        -- `bytes.fromhex(root[2:])`, whatever the first two characters are
        let rootBytes ← orRaise .conversionError (fromHex (root.drop 2))
        return some ⟨epoch, brainId, rootBytes, signers, signatures⟩

/-- `try_propose`: the aggregator after it, what was passed to `_propose_fn`, and the result. -/
def tryPropose (proposeFn : Proposal → Py Text) :
    CommitmentAggregator × Option Proposal × Py (Option Text) :=
  match agg.nextProposal u stakes epoch brainId with
  | .error e => (agg, none, .error e)
  | .ok none => (agg, none, .ok none)
  | .ok (some p) =>
    match proposeFn p with
    | .error e => (agg, some p, .error e)
    | .ok tx => ({ agg with proposed := (epoch, brainId) :: agg.proposed }, some p, .ok (some tx))

end Proposing

end CommitmentAggregator

/-! ## `from_chain` -/

/-- `stake_of` and `total_stake` over a vault. -/
def chainStakes (crypto : Crypto) (vault : StakingVault) : Stakes where
  stakeOf brainId addr := do
    let checksum ← toChecksumAddress crypto (.str addr)
    let b ← encodeUint 256 brainId
    let validator ← encodeAddress (.str checksum)
    return vault.validatorStake b validator
  totalStake brainId := do
    let b ← encodeUint 256 brainId
    return vault.brainStake b

/-- The bytes of a stored signature. -/
def storedBytes (signature : Text) : Py Bytes :=
  orRaise .conversionError
    (fromHex (if (text "0x").isPrefixOf signature then signature.drop 2 else signature))

/-- The call to the registry that `propose_fn` encodes. -/
def encodeProposal (p : Proposal) : Py ScoringCall := do
  let signatures ← p.signatures.mapM storedBytes
  let epoch ← encodeUint 64 p.epoch
  let b ← encodeUint 256 p.brainId
  let root ← encodeBytes32 p.root
  let signers ← p.signers.mapM fun a => encodeAddress (.str a)
  return .proposeEpoch epoch b root signers signatures

end BasedAI
