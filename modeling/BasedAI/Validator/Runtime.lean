import BasedAI.Validator.CandidatePool
import BasedAI.Validator.ScoreMiners

/-!
# BasedAI — the validator's epoch commitments

`_post_epoch_commitment` of `runtime.py`, and one validator at work against the
candidate pool: the validator scores what it observed, signs the root of its own
scores to authenticate its candidate, submits it, waits for the canonical root of
the epoch, and signs that.

The call awaits the network several times, and other submissions reach the pool in
between. The last section is this interleaving: each label is one uninterrupted
stretch of the validator, or one request of somebody else. What the validator has
sent is kept, newest first.
-/

namespace BasedAI

open Fallible Python

structure Validator where
  domain : CommitmentDomain
  brainId : Int
  /-- empty if no aggregator is configured -/
  aggregatorUrl : Text
  account : Account

/-- What the validator submits for an epoch: the scores as observed, the leaves they
make and the signature on the root of those. -/
structure OwnCandidate where
  epoch : Int
  scores : List (Json × Int)
  leaves : List ScoreLeaf
  signed : SignedCommitment

section Runtime

variable {F : Type} (o : Offchain) (fl : FloatArith F) (v : Validator)

/-- The leaf of a score; the miner's address is checksummed. -/
def ownLeaf (s : MinerScore F) : Py ScoreLeaf := do
  let miner ← toChecksumAddress o.crypto s.miner
  return ⟨v.brainId, miner, s.scoreFp⟩

/-- `_post_epoch_commitment` up to the submission; `none` without observations. -/
def prepareCandidate (epoch : Int) (observations : List MinerObservation) :
    Py (Option OwnCandidate) := do
  let scores ← scoreMiners fl o.unicode observations
  if scores.isEmpty then return none
  else
    let leaves ← scores.mapM (ownLeaf o v)
    let (ownRoot, _) ← buildMerkleRoot o.crypto leaves
    let signed ← signCommitment o v.domain v.account epoch v.brainId ownRoot
    return some ⟨epoch, scores.map fun s => (s.miner, s.scoreFp), leaves, signed⟩

/-- The body `_submit_candidate` sends. -/
def submissionBody (c : OwnCandidate) : Json :=
  .dict [
    (text "epoch", .int c.epoch),
    (text "brain_id", .int v.brainId),
    (text "signer", .str (toChecksum o.crypto v.account.address)),
    (text "scores", .list (c.scores.map fun s =>
      .dict [(text "miner", s.1), (text "score", .int s.2)])),
    (text "signature", .str (text "0x" ++ hexlify c.signed.signature))]

/-- Signing the canonical root. -/
def signCanonical (c : OwnCandidate) (frozen : Frozen) : Py SignedCommitment := do
  let root ← rootOfText frozen.root
  signCommitment o v.domain v.account c.epoch v.brainId root

end Runtime

/-! ## The validator and the pool -/

/-- Where the validator's post stands. -/
inductive Posting
  | idle
  /-- the candidate is on its way -/
  | submitting (c : OwnCandidate)
  /-- no canonical root yet, so many polls to go -/
  | polling (c : OwnCandidate) (left : Nat)

structure ValidatorState where
  pool : CanonicalCandidatePool
  posting : Posting
  /-- the candidates the validator has sent -/
  candidates : List OwnCandidate
  /-- the commitments to canonical roots it has sent -/
  commitments : List SignedCommitment

/-- A validator that has sent nothing, next to an empty pool. -/
def ValidatorState.start : ValidatorState := ⟨.empty, .idle, [], []⟩

/-- The commitments the validator has signed and sent. -/
def ValidatorState.emitted (s : ValidatorState) : List SignedCommitment :=
  s.candidates.map (·.signed) ++ s.commitments

inductive ValidatorLabel
  /-- a request to `/candidates` by anyone -/
  | request (stakes : Stakes) (body : Option Json)
  /-- the validator starts posting for an epoch -/
  | post (epoch : Int) (observations : List MinerObservation)
  /-- its submission is answered -/
  | submit (stakes : Stakes)
  /-- its submission fails, before or after the service handled it -/
  | lost (handled : Option Stakes)
  /-- it asks for the canonical root -/
  | poll
  /-- it gives up, out of polls or by an exception -/
  | abandon

/-- The polls after a submission. -/
def POLLS : Nat := 60

section Steps

variable {F : Type} (o : Offchain) (fl : FloatArith F) (v : Validator)

/-- The service's answer to the validator's own submission. -/
def ownReply (stakes : Stakes) (pool : CanonicalCandidatePool) (c : OwnCandidate) :
    CanonicalCandidatePool × CandidateReply :=
  submitCandidate o v.domain stakes pool (some (submissionBody o v c))

/-- The candidate sent at the start of a post, if any is. -/
def posted (epoch : Int) (observations : List MinerObservation) : Option OwnCandidate :=
  match prepareCandidate o fl v epoch observations with
  | .ok (some c) => if v.aggregatorUrl = [] then none else some c
  | _ => none

/-- The end of a post that has a canonical root: sign it and send the signature. -/
def ValidatorState.commit (s : ValidatorState) (c : OwnCandidate) (frozen : Frozen) :
    ValidatorState :=
  match signCanonical o v c frozen with
  | .ok signed => { s with posting := .idle, commitments := signed :: s.commitments }
  | .error _ => { s with posting := .idle }

/-- One step. A label that does not apply changes nothing. -/
def ValidatorState.exec (s : ValidatorState) : ValidatorLabel → ValidatorState
  | .request stakes body => { s with pool := (submitCandidate o v.domain stakes s.pool body).1 }
  | .post epoch observations =>
    match s.posting with
    | .idle =>
      match posted o fl v epoch observations with
      | some c => { s with posting := .submitting c, candidates := c :: s.candidates }
      | none => s
    | _ => s
  | .submit stakes =>
    match s.posting with
    | .submitting c =>
      let (pool, reply) := ownReply o v stakes s.pool c
      match reply with
      | .refused _ => { s with pool := pool, posting := .idle }
      | .accepted none => { s with pool := pool, posting := .polling c POLLS }
      | .accepted (some frozen) => { s with pool := pool }.commit o v c frozen
    | _ => s
  | .lost handled =>
    match s.posting with
    | .submitting c =>
      match handled with
      | some stakes => { s with pool := (ownReply o v stakes s.pool c).1, posting := .idle }
      | none => { s with posting := .idle }
    | _ => s
  | .poll =>
    match s.posting with
    | .polling c (left + 1) =>
      match getCandidate s.pool c.epoch v.brainId with
      | some frozen => s.commit o v c frozen
      | none => { s with posting := .polling c left }
    | _ => s
  | .abandon => { s with posting := .idle }

/-- The step relation of the validator and the pool. -/
def ValidatorStep (s : ValidatorState) (l : ValidatorLabel) (t : ValidatorState) : Prop :=
  t = s.exec o fl v l

end Steps

end BasedAI
