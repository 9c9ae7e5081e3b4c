import BasedAI.Lib.Mapping
import BasedAI.Validator.Commitment

/-!
# BasedAI — the candidate pool and its service

`CanonicalCandidatePool` and the `/candidates` routes of `service.py`. Validators
submit the scores they observed; once the submitters of an (epoch, Brain) hold a
quorum of its stake, the pool combines their scores by a stake-weighted lower
median, and the result is frozen for good.

Adding a candidate can raise after the candidate was recorded, so the pool after an
addition is a result of its own, next to what was returned or raised. The stakes
are read from the chain at every addition and may differ from one to the next.
-/

namespace BasedAI

open Fallible Python Mapping

/-- What the chain answers about the stakes of a Brain. -/
structure Stakes where
  stakeOf : Int → Text → Py Int
  totalStake : Int → Py Int

structure ScoreRow where
  miner : Text
  score : Int
  deriving DecidableEq

/-- A canonical root, as text, and its rows. -/
structure Frozen where
  root : Text
  rows : List ScoreRow
  deriving DecidableEq

/-- A candidate: scores by checksummed miner address. -/
abbrev Candidate := List (Text × Int)

structure CanonicalCandidatePool where
  minQuorumBps : Int
  /-- candidates by (epoch, Brain) and checksummed signer address -/
  candidates : Int → Int → List (Text × Candidate)
  frozen : Int → Int → Option Frozen

/-- An empty pool with the quorum of the contract. -/
def CanonicalCandidatePool.empty : CanonicalCandidatePool where
  minQuorumBps := 5001
  candidates _ _ := []
  frozen _ _ := none

/-- `s <= t` for texts. -/
def textLe (s t : Text) : Prop := textGt s t = false

instance : DecidableRel textLe := fun s t => inferInstanceAs (Decidable (textGt s t = false))

/-- `(score, stake)` pairs in the order of tuples. -/
def pairLe (a b : Int × Int) : Prop := a.1 < b.1 ∨ a.1 = b.1 ∧ a.2 ≤ b.2

instance : DecidableRel pairLe := fun a b =>
  inferInstanceAs (Decidable (a.1 < b.1 ∨ a.1 = b.1 ∧ a.2 ≤ b.2))

namespace CanonicalCandidatePool

section Add

variable (o : Offchain) (stakes : Stakes) (brainId : Int)

/-- Validate the rows of a submission; a miner named twice keeps its last score. -/
def normalizeRows : List Json → Candidate → Py Candidate
  | [], normalized => .ok normalized
  | row :: rest, normalized => do
    let miner ← toChecksumAddress o.crypto (← row.subscript "miner")
    let score ← (← row.subscript "score").toInt o.unicode
    raiseIf (score < 0 ∨ 1000000 < score) (.valueError "score out of range")
    normalizeRows rest (dictSet miner score normalized)

/-- What is recorded of a submission. -/
def normalizeCandidate (signer : Text) (scores : List Json) : Py (Text × Candidate) := do
  let stake ← stakes.stakeOf brainId signer
  raiseIf (stake ≤ 0) (.valueError "candidate signer has no Brain-local stake")
  let normalized ← normalizeRows o scores []
  raiseIf (normalized = []) (.valueError "empty score candidate")
  let key ← toChecksumAddress o.crypto (.str signer)
  return (key, normalized)

/-- The stake the contributors need, rounded up. -/
def quorumNeed (minQuorumBps total : Int) : Int :=
  if total ≠ 0 then (total * minQuorumBps + 9999) / 10000 else 1

/-- The scores given to a miner, with the stakes behind them. -/
def weightedScores (miner : Text) : List (Text × Candidate) → Py (List (Int × Int))
  | [] => .ok []
  | (signer, candidate) :: rest =>
    match dictGet miner candidate with
    | none => weightedScores miner rest
    | some score => do
      let stake ← stakes.stakeOf brainId signer
      let tail ← weightedScores miner rest
      return if 0 < stake then (score, stake) :: tail else tail

/-- The first score at which half of `weight` is reached, `acc` being what the scores
before weigh. -/
def medianFrom (weight last : Int) : Int → List (Int × Int) → Int
  | _, [] => last
  | acc, (score, w) :: rest =>
    if weight ≤ (acc + w) * 2 then score else medianFrom weight last (acc + w) rest

/-- The canonical row of a miner, unless a quorum has not scored it. -/
def canonicalRow (need : Int) (contributors : List (Text × Candidate)) (miner : Text) :
    Py (Option ScoreRow) := do
  let scores ← weightedScores stakes brainId miner contributors
  let weighted := scores.insertionSort pairLe
  let weight := (weighted.map Prod.snd).sum
  match weighted.getLast? with
  | none => return none
  | some last =>
    -- omission by a minority cannot create a canonical leaf
    if weight < need then return none
    else return some ⟨miner, medianFrom weight last.1 0 weighted⟩

/-- The miners of the candidates, in the order of their addresses. -/
def candidateMiners (contributors : List (Text × Candidate)) : List Text :=
  (contributors.flatMap fun c => c.2.map Prod.fst).dedup.insertionSort textLe

/-- The canonical result of the contributors, once they hold a quorum. -/
def canonicalize (minQuorumBps : Int) (contributors : List (Text × Candidate)) :
    Py (Option Frozen) := do
  let total ← stakes.totalStake brainId
  let need := quorumNeed minQuorumBps total
  let held ← contributors.mapM fun c => stakes.stakeOf brainId c.1
  if held.sum < need then return none
  else
    let rows ← (candidateMiners contributors).mapM
      (canonicalRow stakes brainId need contributors)
    let rows := rows.filterMap id
    raiseIf (rows = []) (.valueError "no score has quorum coverage")
    let (root, _) ← buildMerkleRoot o.crypto
      (rows.map fun row => ⟨brainId, row.miner, row.score⟩)
    return some ⟨hexText root, rows⟩

/-- `CanonicalCandidatePool.add`. -/
def add (pool : CanonicalCandidatePool) (epoch : Int) (signer : Text) (scores : List Json) :
    CanonicalCandidatePool × Py (Option Frozen) :=
  match pool.frozen epoch brainId with
  | some frozen => (pool, .ok (some frozen))
  | none =>
    match normalizeCandidate o stakes brainId signer scores with
    | .error e => (pool, .error e)
    | .ok (key, normalized) =>
      let contributors := dictSet key normalized (pool.candidates epoch brainId)
      let pool := { pool with
        candidates := set₂ pool.candidates epoch brainId contributors }
      match canonicalize o stakes brainId pool.minQuorumBps contributors with
      | .error e => (pool, .error e)
      | .ok none => (pool, .ok none)
      | .ok (some frozen) =>
        ({ pool with frozen := set₂ pool.frozen epoch brainId (some frozen) },
          .ok (some frozen))

end Add

end CanonicalCandidatePool

/-! ## The service -/

/-- How a request to `/candidates` is answered: refused with a status, or accepted,
with the canonical result if there is one. -/
inductive CandidateReply
  | refused (status : Nat)
  | accepted (canonical : Option Frozen)

/-- The fields of a submission. -/
structure CandidateBody where
  epoch : Int
  brainId : Int
  signer : Text
  scores : List Json
  signature : Text

section Service

variable (o : Offchain) (domain : CommitmentDomain)

/-- The status an exception in the handler is answered with: 400 for the exceptions
it catches. -/
def failureStatus : PyError → Nat
  | .keyError => 400
  | .typeError => 400
  | .valueError _ => 400
  | .conversionError => 400
  | .unicodeEncodeError => 400
  | _ => 500

/-- The fields of the body of a request, `none` being a body that is not JSON. -/
def openCandidate (body : Option Json) : Py CandidateBody := do
  let body ← orRaise .conversionError body
  let epoch ← (← body.subscript "epoch").toInt o.unicode
  let brainId ← (← body.subscript "brain_id").toInt o.unicode
  let signer := (← body.subscript "signer").toStr o.repr
  let scores ← (← body.subscript "scores").iterate
  let signature := (← body.subscript "signature").toStr o.repr
  return ⟨epoch, brainId, signer, scores, signature⟩

/-- The leaf of a submitted row. -/
def submittedLeaf (brainId : Int) (row : Json) : Py ScoreLeaf := do
  let miner := (← row.subscript "miner").toStr o.repr
  let score ← (← row.subscript "score").toInt o.unicode
  return ⟨brainId, miner, score⟩

/-- The submission is signed by the signer it names. -/
def candidateAuthentic (c : CandidateBody) : Py Bool := do
  let leaves ← c.scores.mapM (submittedLeaf o c.brainId)
  let (ownRoot, _) ← buildMerkleRoot o.crypto leaves
  let recovered ← recoverCommitmentSigner o domain c.epoch c.brainId ownRoot c.signature
  return lower o.unicode recovered = lower o.unicode c.signer

/-- The `POST /candidates` route. -/
def submitCandidate (stakes : Stakes) (pool : CanonicalCandidatePool) (body : Option Json) :
    CanonicalCandidatePool × CandidateReply :=
  match openCandidate o body with
  | .error e => (pool, .refused (failureStatus e))
  | .ok c =>
    match candidateAuthentic o domain c with
    | .error e => (pool, .refused (failureStatus e))
    | .ok false => (pool, .refused 401)
    | .ok true =>
      match pool.add o stakes c.brainId c.epoch c.signer c.scores with
      | (pool, .error e) => (pool, .refused (failureStatus e))
      | (pool, .ok frozen) => (pool, .accepted frozen)

/-- The `GET /candidates/{epoch}/{brain_id}` route. -/
def getCandidate (pool : CanonicalCandidatePool) (epoch brainId : Int) : Option Frozen :=
  pool.frozen epoch brainId

end Service

end BasedAI
