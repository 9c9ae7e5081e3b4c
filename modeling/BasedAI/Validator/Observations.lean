import BasedAI.Lib.Transition
import BasedAI.Validator.Challenges
import BasedAI.Validator.Equivocation

/-!
# BasedAI — the validator's two loops

`_challenge_loop` and `_epoch_loop` of `runtime.py` share one list of observations. The
first appends to it, the second has it scored and posted at the end of every epoch and then
clears it. Both run on one thread and give it up only where they await something, so a step
is what runs between two awaits.

* `postEpoch`, `afterReply` — `_post_epoch_commitment`, cut at its awaits;
* `Observing`, `ObservingStep` — the two loops;
* `Kept`                  — every observation has been scored once, or waits to be;
* `observations_kept_iff` — when that is so all along a run.
-/

namespace BasedAI

open Fallible Python Transition

/-! ## Posting an epoch -/

/-- What the post of an epoch is waiting for. -/
inductive PostStage
  /-- the answer to its candidate -/
  | submitting (c : OwnCandidate)
  /-- the canonical root, with so many polls to go -/
  | polling (c : OwnCandidate) (left : Nat)
  /-- the answer to its commitment -/
  | committing (signed : SignedCommitment)

/-- What comes of an HTTP request. -/
inductive HttpReply
  /-- the call raises -/
  | failed
  /-- a status other than success -/
  | refused
  /-- a body, `none` if it is not JSON -/
  | body (data : Option Json)

section Post

variable {F : Type} (o : Offchain) (fl : FloatArith F) (v : Validator)

/-- `_post_epoch_commitment` up to its first await; `none` where it returns before. -/
def postEpoch (epoch : Int) (observations : List MinerObservation) : Py (Option PostStage) := do
  match ← prepareCandidate o fl v epoch observations with
  | none => return none
  | some c => return if v.aggregatorUrl = [] then none else some (.submitting c)

/-- The canonical root in an answer of the aggregator, if it has one yet. -/
def canonicalRoot (data : Json) : Py (Option Text) := do
  let flag ← data.get "canonical" .null
  if flag.truthy then
    let root ← data.subscript "root"
    return some (root.toStr o.repr)
  else return none

/-- Signing the canonical root, which is then sent. -/
def commitRoot (c : OwnCandidate) (root : Text) : Py (Option PostStage) := do
  let bytes ← rootOfText root
  let signed ← signCommitment o v.domain v.account c.epoch v.brainId bytes
  return some (.committing signed)

/-- The next poll, while there is one. -/
def nextPoll (c : OwnCandidate) : Nat → Option PostStage
  | 0 => none
  | left + 1 => some (.polling c (left + 1))

/-- What follows a reply that may have the canonical root. -/
def seekRoot (c : OwnCandidate) (left : Nat) (data : Option Json) : Py (Option PostStage) := do
  let data ← orRaise .conversionError data
  match ← canonicalRoot o data with
  | some root => commitRoot o v c root
  | none => return nextPoll c left

/-- `_post_epoch_commitment` from a reply to its next await; `none` where it returns. -/
def afterReply : PostStage → HttpReply → Py (Option PostStage)
  | .submitting c, .body data => seekRoot o v c POLLS data
  | .submitting _, _ => .error .httpError
  | .polling c left, .body data => seekRoot o v c (left - 1) data
  | .polling c left, .refused => return nextPoll c (left - 1)
  | .polling _ _, .failed => .error .httpError
  -- whatever comes of sending the commitment is logged
  | .committing _, _ => return none

end Post

/-! ## The loops -/

/-- Where `_challenge_loop` stands. -/
inductive ChallengeLoop
  | sleeping
  | calling (c : Challenge)

/-- Where `_epoch_loop` stands. -/
inductive EpochLoop
  /-- until the epoch ends -/
  | waiting (epoch : Int)
  /-- in the post of an epoch, with the observations it has had scored -/
  | posting (epoch : Int) (batch : List MinerObservation) (stage : PostStage)

/-- The validator, and what has become of its observations: all of them, and those that
posts which ran to completion have had scored. -/
structure Observing where
  observations : List MinerObservation
  challengeLoop : ChallengeLoop
  epochLoop : EpochLoop
  appended : List MinerObservation
  scored : List (List MinerObservation)

def Observing.start (epoch : Int) : Observing := ⟨[], .sleeping, .waiting epoch, [], []⟩

inductive ObservingLabel
  /-- the challenge loop wakes up and picks a miner, an item and a seed -/
  | challenge (chosen : Option Json) (evalItem : Option Json) (seed : Int)
  /-- the miner's reply, or the end of the call without one -/
  | answer (reply : Option Json) (latencyMs : Int)
  /-- the epoch ends; if its post ends right there, `next` is the epoch then read -/
  | boundary (next : Int)
  /-- the aggregator's reply to the post, or the end of the call without one -/
  | reply (r : HttpReply) (next : Int)

namespace Observing

variable {F : Type} (o : Offchain) (fl : FloatArith F) (v : Validator)

/-- The end of a post, by a return or by an exception: the list is cleared. -/
def finish (s : Observing) (batch : List MinerObservation) (completed : Bool) (next : Int) :
    Observing :=
  { s with
    observations := []
    epochLoop := .waiting next
    scored := if completed then s.scored ++ [batch] else s.scored }

/-- What follows an uninterrupted stretch of a post. -/
def resume (s : Observing) (epoch : Int) (batch : List MinerObservation) (next : Int) :
    Py (Option PostStage) → Observing
  | .ok (some stage) => { s with epochLoop := .posting epoch batch stage }
  | .ok none => s.finish batch true next
  | .error _ => s.finish batch false next

/-- One step. A label that does not apply changes nothing. -/
def exec (s : Observing) : ObservingLabel → Observing
  | .challenge chosen evalItem seed =>
    match s.challengeLoop, chosen with
    | .sleeping, some miner =>
      match issueChallenge o v miner evalItem seed with
      | .ok c => { s with challengeLoop := .calling c }
      | .error _ => s
    | _, _ => s
  | .answer reply latencyMs =>
    match s.challengeLoop with
    | .calling c =>
      { s with
        observations := s.observations ++ [c.observation reply latencyMs]
        appended := s.appended ++ [c.observation reply latencyMs]
        challengeLoop := .sleeping }
    | .sleeping => s
  | .boundary next =>
    match s.epochLoop with
    | .waiting epoch =>
      s.resume epoch s.observations next (postEpoch o fl v epoch s.observations)
    | .posting .. => s
  | .reply r next =>
    match s.epochLoop with
    | .posting epoch batch stage => s.resume epoch batch next (afterReply o v stage r)
    | .waiting _ => s

end Observing

/-- The step relation of the two loops. -/
def ObservingStep {F : Type} (o : Offchain) (fl : FloatArith F) (v : Validator)
    (s : Observing) (l : ObservingLabel) (t : Observing) : Prop :=
  t = s.exec o fl v l

/-! ## Every observation is scored once -/

/-- Every observation appended has been scored by exactly one post that ran to completion,
or waits to be. -/
def Observing.Kept (s : Observing) : Prop :=
  s.appended.Perm (s.scored.flatten ++ s.observations)

/-- What a post has had scored is the front of the list. -/
def EpochLoop.Fronts (observations : List MinerObservation) : EpochLoop → Prop
  | .waiting _ => True
  | .posting _ batch _ => batch <+: observations

section Kept

variable {F : Type} {o : Offchain} {fl : FloatArith F} {v : Validator} {s t : Observing}
  {l : ObservingLabel}

/-- Whether a stretch ends the post, and if so whether the post ran to completion. -/
def postEnd : Py (Option PostStage) → Option Bool
  | .ok (some _) => none
  | .ok none => some true
  | .error _ => some false

/-- The post that a step ends: what it has had scored, and whether it ran to completion. -/
def Observing.ends (o : Offchain) (fl : FloatArith F) (v : Validator) (s : Observing) :
    ObservingLabel → Option (List MinerObservation × Bool)
  | .boundary _ =>
    match s.epochLoop with
    | .waiting epoch =>
      (postEnd (postEpoch o fl v epoch s.observations)).map fun done => (s.observations, done)
    | .posting .. => none
  | .reply r _ =>
    match s.epochLoop with
    | .posting _ batch stage => (postEnd (afterReply o v stage r)).map fun done => (batch, done)
    | .waiting _ => none
  | _ => none

/-- **Where nothing is lost.** When the step ends a post, no challenge has been answered
since the post read the list, and the post ran to completion, unless there was nothing to
score. -/
def Lossless (o : Offchain) (fl : FloatArith F) (v : Validator) (s : Observing)
    (l : ObservingLabel) : Prop :=
  ∀ batch completed, s.ends o fl v l = some (batch, completed) →
    s.observations = batch ∧ (completed = true ∨ batch = [])

namespace Observing

theorem finish_kept_iff {batch : List MinerObservation} {completed : Bool} {next : Int}
    (hbatch : batch <+: s.observations) (hs : s.Kept) :
    (s.finish batch completed next).Kept ↔
      s.observations = batch ∧ (completed = true ∨ batch = []) := by
  unfold Kept at hs ⊢
  cases completed with
  | true =>
    show s.appended.Perm ((s.scored ++ [batch]).flatten ++ []) ↔ _
    rw [List.flatten_append, List.flatten_singleton, List.append_nil]
    constructor
    · intro h
      -- what came in after the batch was read is cleared with it
      have hlen : s.observations.length = batch.length := by
        have hall := (hs.symm.trans h).length_eq
        rw [List.length_append, List.length_append] at hall
        omega
      exact ⟨(hbatch.eq_of_length hlen.symm).symm, .inl rfl⟩
    · rintro ⟨hsame, -⟩
      rw [← hsame]
      exact hs
  | false =>
    show s.appended.Perm (s.scored.flatten ++ []) ↔ _
    rw [List.append_nil]
    constructor
    · intro h
      -- a failed round clears the list and scores nothing
      have hlen : s.observations.length = 0 := by
        have hall := (hs.symm.trans h).length_eq
        rw [List.length_append] at hall
        omega
      have hnil : s.observations = [] := List.length_eq_zero_iff.mp hlen
      rw [hnil, List.prefix_nil] at hbatch
      rw [hnil, hbatch]
      exact ⟨rfl, .inr rfl⟩
    · rintro ⟨hsame, hnone | hnil⟩
      · cases hnone
      · rw [hsame, hnil, List.append_nil] at hs
        exact hs

/-- A stretch of a post that does not end it leaves the observations alone. -/
theorem resume_kept_iff {epoch next : Int} {batch : List MinerObservation}
    {out : Py (Option PostStage)} (hbatch : batch <+: s.observations) (hs : s.Kept) :
    (s.resume epoch batch next out).Kept ↔
      ∀ completed, postEnd out = some completed →
        s.observations = batch ∧ (completed = true ∨ batch = []) := by
  have hend : ∀ completed, (s.finish batch completed next).Kept ↔ ∀ completed',
      some completed = some completed' →
        s.observations = batch ∧ (completed' = true ∨ batch = []) := by
    intro completed
    rw [finish_kept_iff hbatch hs]
    constructor
    · rintro h _ ⟨⟩
      exact h
    · intro h
      exact h completed rfl
  rcases out with e | stage
  · -- the post raised
    exact hend false
  · rcases stage with _ | stage
    · exact hend true
    · constructor
      · intro _ completed hnone
        cases hnone
      · intro _
        exact hs

theorem resume_fronts {epoch next : Int} {batch : List MinerObservation}
    {out : Py (Option PostStage)} (hbatch : batch <+: s.observations) :
    (s.resume epoch batch next out).epochLoop.Fronts
      (s.resume epoch batch next out).observations := by
  rcases out with e | stage
  · trivial
  · rcases stage with _ | stage
    · trivial
    · exact hbatch

theorem exec_fronts (hs : s.epochLoop.Fronts s.observations) :
    (s.exec o fl v l).epochLoop.Fronts (s.exec o fl v l).observations := by
  cases l with
  | challenge chosen evalItem seed =>
    unfold exec
    dsimp only
    split
    · split
      · exact hs
      · exact hs
    · exact hs
  | answer reply latencyMs =>
    unfold exec
    dsimp only
    split
    · -- the new observation goes to the end
      dsimp only
      cases hloop : s.epochLoop with
      | waiting epoch => trivial
      | posting epoch batch stage =>
        rw [hloop] at hs
        exact hs.trans (List.prefix_append _ _)
    · exact hs
  | boundary next =>
    unfold exec
    dsimp only
    split
    · exact resume_fronts List.prefix_rfl
    · exact hs
  | reply r next =>
    unfold exec
    dsimp only
    split
    · rename_i hloop
      rw [hloop] at hs
      exact resume_fronts hs
    · exact hs

/-- A step keeps the observations just where it is lossless. -/
theorem exec_kept_iff (hfront : s.epochLoop.Fronts s.observations) (hs : s.Kept) :
    (s.exec o fl v l).Kept ↔ Lossless o fl v s l := by
  have hlossless : ∀ {l : ObservingLabel}, s.ends o fl v l = none → Lossless o fl v s l := by
    intro l hends batch completed h
    rw [hends] at h
    cases h
  cases l with
  | challenge chosen evalItem seed =>
    refine iff_of_true ?_ (hlossless rfl)
    unfold exec
    dsimp only
    split
    · split
      · exact hs
      · exact hs
    · exact hs
  | answer reply latencyMs =>
    refine iff_of_true ?_ (hlossless rfl)
    unfold exec
    dsimp only
    split
    · -- one more appended, and one more waiting
      rename_i c _
      show (s.appended ++ [c.observation reply latencyMs]).Perm
        (s.scored.flatten ++ (s.observations ++ [c.observation reply latencyMs]))
      rw [← List.append_assoc]
      exact hs.append_right _
    · exact hs
  | boundary next =>
    unfold exec Lossless ends
    dsimp only
    cases hloop : s.epochLoop with
    | waiting epoch =>
      dsimp only
      rw [resume_kept_iff List.prefix_rfl hs]
      constructor
      · rintro h batch completed hends
        obtain ⟨done, hdone, hpair⟩ := Option.map_eq_some_iff.mp hends
        obtain ⟨rfl, rfl⟩ := Prod.mk.inj hpair
        exact h done hdone
      · intro h completed hdone
        exact h _ _ (Option.map_eq_some_iff.mpr ⟨completed, hdone, rfl⟩)
    | posting epoch batch stage =>
      refine iff_of_true hs ?_
      rintro _ _ ⟨⟩
  | reply r next =>
    unfold exec Lossless ends
    dsimp only
    cases hloop : s.epochLoop with
    | waiting epoch =>
      refine iff_of_true hs ?_
      rintro _ _ ⟨⟩
    | posting epoch batch stage =>
      rw [hloop] at hfront
      dsimp only
      rw [resume_kept_iff hfront hs]
      constructor
      · rintro h _ completed hends
        obtain ⟨done, hdone, hpair⟩ := Option.map_eq_some_iff.mp hends
        obtain ⟨rfl, rfl⟩ := Prod.mk.inj hpair
        exact h done hdone
      · intro h completed hdone
        exact h _ _ (Option.map_eq_some_iff.mpr ⟨completed, hdone, rfl⟩)

end Observing

end Kept

/--
**Observations are kept just where nothing is lost.** Along a run of the two loops every
observation appended has been scored by exactly one post that ran to completion, or waits
to be, in every state, if and only if every step that ends a post finds the list as the
post read it, and the post ran to completion unless the list was empty.
-/
theorem observations_kept_iff {F : Type} {o : Offchain} {fl : FloatArith F} {v : Validator}
    {epoch : Int} {ls : List ObservingLabel} {t : Observing} :
    (∀ p l q, Along (ObservingStep o fl v) (.start epoch) ls t p l q → q.Kept) ↔
      ∀ p l q, Along (ObservingStep o fl v) (.start epoch) ls t p l q →
        Lossless o fl v p l := by
  refine along_iff (I := fun s => s.epochLoop.Fronts s.observations) ?_ ?_ trivial (.refl _)
  · rintro s l _ rfl hs
    exact Observing.exec_fronts hs
  · rintro s l _ rfl hfront hs
    exact Observing.exec_kept_iff hfront hs

/-! ## A lost observation -/

def toyReachable : Json :=
  .dict [
    (text "address", .str (text "0x0000000000000000000000000000000000000005")),
    (text "url", .str (text "http://m"))]

/-- The aggregator has the canonical root at once. -/
def toyRoot : Json :=
  .dict [(text "canonical", .bool true), (text "root", .str (hexText 6))]

/-- A challenge is answered before the epoch ends, and another one while the candidate is
on its way. -/
def toyChallenges : List ObservingLabel :=
  [.challenge (some toyReachable) none 1, .answer none 100, .boundary 1,
    .challenge (some toyReachable) none 2, .answer none 100, .reply (.body (some toyRoot)) 1,
    .reply .failed 1]

theorem observing_run {F : Type} {o : Offchain} {fl : FloatArith F} {v : Validator}
    (ls : List ObservingLabel) (s : Observing) :
    Run (ObservingStep o fl v) s ls (ls.foldl (Observing.exec o fl v) s) := by
  induction ls generalizing s with
  | nil => exact .nil s
  | cons l ls ih => exact .cons rfl (ih _)

theorem toyChallenges_end :
    let s := toyChallenges.foldl (Observing.exec toyOffchain toyFloat toyValidator) (.start 0)
    (s.appended.length, s.scored.map (·.length), s.observations.length) = (2, [1], 0) := by
  decide +kernel

/-- **An observation lost.** Of two observations one was scored, and none is waiting: the
post of the epoch ran to completion, and the list was cleared with what had been appended
meanwhile. -/
theorem observation_lost :
    ∃ s, Run (ObservingStep toyOffchain toyFloat toyValidator) (.start 0) toyChallenges s ∧
      s.appended.length = 2 ∧ s.scored.map (·.length) = [1] ∧ s.observations = [] ∧
      ¬ s.Kept := by
  have hrun := @observing_run _ toyOffchain toyFloat toyValidator toyChallenges (.start 0)
  have hend := toyChallenges_end
  dsimp only at hend
  generalize toyChallenges.foldl (Observing.exec toyOffchain toyFloat toyValidator)
    (.start 0) = s at hrun hend
  obtain ⟨happended, hrest⟩ := Prod.mk.inj hend
  obtain ⟨hscored, hwaiting⟩ := Prod.mk.inj hrest
  refine ⟨s, hrun, happended, hscored, List.length_eq_zero_iff.mp hwaiting, ?_⟩
  intro hkept
  have hlen := hkept.length_eq
  rw [List.length_append, List.length_flatten, happended, hscored, hwaiting] at hlen
  cases hlen

end BasedAI
