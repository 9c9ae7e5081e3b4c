import BasedAI.Lib.Grouping
import BasedAI.Lib.PyJson
import Mathlib.Data.List.Sort

/-!
# BasedAI — scoring the miners

`scoring.py`: one score per observed miner, from its latency, the quality of its
answers and their agreement with the other miners'. The grouping, the counting and
the order of the scores are as in the source; arithmetic on doubles is a parameter
(`FloatArith`).

What a miner answered is unchecked, so its address, its hash and its text are JSON
values, and scoring can raise on them.
-/

namespace BasedAI

open Fallible Python Grouping

/-- Arithmetic on doubles, as far as scoring uses it. -/
structure FloatArith (F : Type) where
  /-- the double nearest to a literal -/
  lit : Rat → F
  add : F → F → F
  mul : F → F → F
  div : F → F → F
  lt : F → F → Bool
  /-- `a / b` of integers, `b` not zero -/
  ratio : Int → Int → F
  log : F → F
  /-- `float(np.percentile(values, 50))` -/
  percentile50 : List Int → F
  /-- `float(np.mean(values))` -/
  mean : List F → F
  /-- `int(x)` -/
  trunc : F → Int

structure MinerObservation where
  miner : Json
  promptId : Text
  responseHash : Json
  responseText : Json
  latencyMs : Int
  /-- a deterministic prompt of the validator's own -/
  isChallenge : Bool
  referenceText : Json

structure MinerScore (F : Type) where
  miner : Json
  /-- the score times 1,000,000 -/
  scoreFp : Int
  samples : Nat
  latency : F
  quality : F
  consistency : F

section Score

variable {F : Type} (fl : FloatArith F) (u : Unicode)

/-- `max(a, b)` and `min(a, b)`. -/
def FloatArith.max (a b : F) : F := if fl.lt a b then b else a
def FloatArith.min (a b : F) : F := if fl.lt b a then b else a

/-- The observations of each miner, in the order the miners were first seen. -/
def groupByMiner : List MinerObservation → List (Json × List MinerObservation) →
    Py (List (Json × List MinerObservation))
  | [], groups => .ok groups
  | o :: rest, groups => do
    raiseIf (o.miner.hashable = false) .typeError
    groupByMiner rest (appendTo Json.same o.miner o groups)

/-- The answers to each challenge prompt. -/
def challengeGroups (observations : List MinerObservation) : List (Text × List Json) :=
  (observations.filter (·.isChallenge)).foldl
    (fun groups o => appendTo (fun a b => decide (a = b)) o.promptId o.responseHash groups) []

/-- `Counter(hashes)`. -/
def countHashes : List Json → List (Json × List Unit) → Py (List (Json × List Unit))
  | [], counts => .ok counts
  | h :: rest, counts => do
    raiseIf (h.hashable = false) .typeError
    countHashes rest (appendTo Json.same h () counts)

/-- The first of the most frequent keys. -/
def mostCommon (best : Json × List Unit) : List (Json × List Unit) → Json
  | [] => best.1
  | c :: rest => if best.2.length < c.2.length then mostCommon c rest else mostCommon best rest

/-- The most frequent answer to each challenge prompt. -/
def modalResponses : List (Text × List Json) → Py (List (Text × Json))
  | [] => .ok []
  | (pid, hashes) :: rest => do
    let counts ← countHashes hashes []
    let tail ← modalResponses rest
    match counts with
    | [] => return tail
    | c :: cs => return (pid, mostCommon c cs) :: tail

/-- `_latency_score`. -/
def latencyScore (obs : List MinerObservation) (p50 : F) : F :=
  if obs.isEmpty then fl.lit 0
  else
    let minerP50 := fl.percentile50 (obs.map (·.latencyMs))
    if fl.lt (fl.lit 0) minerP50 then
      let ratio := fl.div p50 minerP50
      let decayed := fl.div (fl.log (fl.add (fl.lit 1) ratio)) (fl.log (fl.lit 2))
      fl.min (fl.lit 1) (fl.max (fl.lit 0) decayed)
    else fl.lit 1

/-- The overlap of two sets of words. -/
def overlap (a b : List Text) : F :=
  if a.isEmpty && b.isEmpty then fl.lit 0
  else fl.ratio (a.filter (· ∈ b)).dedup.length (a ++ b).dedup.length

/-- `_quality_score`. -/
def qualityScore (obs : List MinerObservation) : Py F := do
  let samples := obs.filter (·.referenceText.truthy)
  if samples.isEmpty then return fl.lit (1 / 2)
  else
    let overlaps ← samples.mapM fun s => do
      let response ← s.responseText.toLower u
      let reference ← s.referenceText.toLower u
      return overlap fl (splitWords u response) (splitWords u reference)
    return fl.mean overlaps

/-- The answer agrees with the most frequent one. -/
def agrees (modal : List (Text × Json)) (o : MinerObservation) : Bool :=
  match dictGet o.promptId modal with
  | some h => h.eq o.responseHash
  | none => o.responseHash.eq .null

/-- `_consistency_score`. -/
def consistencyScore (obs : List MinerObservation) (modal : List (Text × Json)) : F :=
  let challenges := obs.filter (·.isChallenge)
  if challenges.isEmpty then fl.lit (1 / 2)
  else fl.ratio (challenges.filter (agrees modal)).length challenges.length

/-- The weighted score of one miner. -/
def scoreMiner (modal : List (Text × Json)) (p50 : F)
    (group : Json × List MinerObservation) : Py (MinerScore F) := do
  let latency := latencyScore fl group.2 p50
  let quality ← qualityScore fl u group.2
  let consistency := consistencyScore fl group.2 modal
  let weighted := fl.add (fl.add (fl.mul (fl.lit (20 / 100)) latency)
    (fl.mul (fl.lit (50 / 100)) quality)) (fl.mul (fl.lit (30 / 100)) consistency)
  let composite := fl.max (fl.lit 0) (fl.min (fl.lit 1) weighted)
  return {
    miner := group.1
    scoreFp := fl.trunc (fl.mul composite (fl.lit 1000000))
    samples := group.2.length
    latency := latency
    quality := quality
    consistency := consistency }

/-- `score_miners`: best score first, miners of one score in the order they were seen. -/
def scoreMiners (observations : List MinerObservation) : Py (List (MinerScore F)) := do
  let byMiner ← groupByMiner observations []
  let modal ← modalResponses (challengeGroups observations)
  if observations.isEmpty then return []
  else
    let p50 := fl.percentile50 (observations.map (·.latencyMs))
    let scores ← byMiner.mapM (scoreMiner fl u modal p50)
    return scores.insertionSort fun s t => t.scoreFp ≤ s.scoreFp

end Score

end BasedAI
