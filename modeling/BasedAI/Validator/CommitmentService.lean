import BasedAI.Scoring.StakeWindow
import BasedAI.Validator.Proposals

/-!
# BasedAI — the commitment service

The `POST /commitments` route of `service.py` over a chain that goes on between the requests. A
request is kept if it is signed, and may then be the one that has a root proposed: only for a
completed epoch, and only if nothing was proposed for it already. Whatever the service asks of
the chain may fail, and nothing makes the answers those of one moment: it asks for every stake,
for the total and for the epoch on its own, each at the latest block. A failed proposal is one
that a later request tries again.

What the service keeps is a function of what it was handed in and what it has sent, whatever it
was answered. What it proposes is stated of a request whose reads all find one state of the chain.

* `aggregator_determined` — what the service keeps, along every run;
* `nextProposal_sent`     — what it has sent is not proposed again;
* `commitments_exact`     — what a request has submitted, and when the registry takes it.
-/

namespace BasedAI

open Fallible Python Transition Buckets CommitmentAggregator WeightedQuorum

/-! ## The route -/

/-- How a request to `/commitments` is answered. -/
inductive CommitmentReply
  | refused (status : Nat)
  | accepted (quorumMet : Bool) (proposedTx : Option Text)

/-- What the service is given to ask of the chain, and to send to it. What it asks twice in one
request is answered alike. -/
structure ChainAccess where
  stakes : Stakes
  currentEpochFn : Option (Py Int)
  proposeFn : Proposal → Py Text

/-- What comes of a request: the aggregator, what it passed to `_propose_fn`, and the answer. -/
structure CommitmentOutcome where
  aggregator : CommitmentAggregator
  submitted : Option Proposal
  reply : CommitmentReply

namespace CommitmentAggregator

section Route

variable (o : Offchain) (domain : CommitmentDomain) (access : ChainAccess)

/-- The fields of the body of a request, `none` being a body that is not JSON. -/
def openCommitment (body : Option Json) : Py CommitmentCall := do
  let body ← orRaise .conversionError body
  let epoch ← (← body.subscript "epoch").toInt o.unicode
  let brainId ← (← body.subscript "brain_id").toInt o.unicode
  let root := (← body.subscript "root").toStr o.repr
  let signer := (← body.subscript "signer").toStr o.repr
  let signature := (← body.subscript "signature").toStr o.repr
  return ⟨epoch, brainId, .str root, signer, signature⟩

/-- `current_epoch_fn is None or epoch < current_epoch_fn()`. -/
def epochCompleted (epoch : Int) : Py Bool :=
  match access.currentEpochFn with
  | none => .ok true
  | some current => do
    let current ← current
    return decide (epoch < current)

/-- `try_propose` of a completed epoch. An exception in it is logged, and that is all. -/
def proposeCompleted (agg : CommitmentAggregator) (completed : Bool) (epoch brainId : Int) :
    CommitmentAggregator × Option Proposal × Option Text :=
  if completed = false then (agg, none, none)
  else
    match agg.tryPropose o.unicode access.stakes epoch brainId access.proposeFn with
    | (agg, submitted, .error _) => (agg, submitted, none)
    | (agg, submitted, .ok tx) => (agg, submitted, tx)

/-- The `POST /commitments` route. -/
def commitments (agg : CommitmentAggregator) (body : Option Json) : CommitmentOutcome :=
  match openCommitment o body with
  | .error e => ⟨agg, none, .refused (failureStatus e)⟩
  | .ok c =>
    match agg.addCommitment o domain c with
    | (agg, .error _) => ⟨agg, none, .refused 500⟩
    | (agg, .ok false) => ⟨agg, none, .refused 401⟩
    | (agg, .ok true) =>
      match epochCompleted access c.epoch with
      | .error _ => ⟨agg, none, .refused 500⟩
      | .ok completed =>
        match agg.proposeCompleted o access completed c.epoch c.brainId with
        | (agg, submitted, tx) =>
          match agg.quorumMet o.unicode access.stakes c.epoch c.brainId c.root with
          | .error _ => ⟨agg, submitted, .refused 500⟩
          | .ok met => ⟨agg, submitted, .accepted met (tx.filter (· ≠ []))⟩

end Route

end CommitmentAggregator

/-! ## Reads that may fail -/

/-- What these answer, those answer too. -/
structure Stakes.Within (stakes chain : Stakes) : Prop where
  stakeOf : ∀ brainId a x, stakes.stakeOf brainId a = .ok x → chain.stakeOf brainId a = .ok x
  totalStake : ∀ brainId x, stakes.totalStake brainId = .ok x → chain.totalStake brainId = .ok x

section Within

variable {stakes chain : Stakes} {u : Unicode} {agg : CommitmentAggregator} {epoch brainId : Int}
  {root : RootArg}

theorem backingStake_within (h : stakes.Within chain) {x : Int}
    (hx : agg.backingStake u stakes epoch brainId root = .ok x) :
    agg.backingStake u chain epoch brainId root = .ok x := by
  simp only [backingStake, bind_ok, return_ok] at hx ⊢
  obtain ⟨held, hheld, rfl⟩ := hx
  exact ⟨held, mapM_within (fun s => h.stakeOf brainId s.1) hheld, rfl⟩

theorem quorumMet_within (h : stakes.Within chain) {met : Bool}
    (hmet : agg.quorumMet u stakes epoch brainId root = .ok met) :
    agg.quorumMet u chain epoch brainId root = .ok met := by
  simp only [quorumMet, bind_ok] at hmet ⊢
  obtain ⟨total, htotal, hmet⟩ := hmet
  refine ⟨total, h.totalStake brainId total htotal, ?_⟩
  by_cases hzero : total = 0
  · rw [if_pos hzero] at hmet ⊢
    exact hmet
  · rw [if_neg hzero] at hmet ⊢
    simp only [bind_ok, return_ok] at hmet ⊢
    obtain ⟨backing, hbacking, rfl⟩ := hmet
    exact ⟨backing, backingStake_within h hbacking, rfl⟩

theorem bestRoot_within (h : stakes.Within chain) {best : Option Text}
    (hbest : agg.bestRoot u stakes epoch brainId = .ok best) :
    agg.bestRoot u chain epoch brainId = .ok best := by
  simp only [bestRoot, bind_ok, return_ok] at hbest ⊢
  obtain ⟨backed, hbacked, rfl⟩ := hbest
  refine ⟨backed, mapM_within (fun r x hx => ?_) hbacked, rfl⟩
  simp only [bind_ok, return_ok] at hx ⊢
  obtain ⟨backing, hbacking, rfl⟩ := hx
  exact ⟨backing, backingStake_within h hbacking, rfl⟩

/-- **What is proposed with reads that may fail** is proposed with reads that do not. -/
theorem nextProposal_within (h : stakes.Within chain) {next : Option Proposal}
    (hnext : agg.nextProposal u stakes epoch brainId = .ok next) :
    agg.nextProposal u chain epoch brainId = .ok next := by
  unfold nextProposal at hnext ⊢
  by_cases hsent : (epoch, brainId) ∈ agg.proposed
  · rw [if_pos hsent] at hnext ⊢
    exact hnext
  · rw [if_neg hsent] at hnext ⊢
    obtain ⟨best, hbest, hnext⟩ := bind_ok.mp hnext
    refine bind_ok.mpr ⟨best, bestRoot_within h hbest, ?_⟩
    cases best with
    | none => exact hnext
    | some t =>
      -- only the quorum is read of the chain from here
      obtain ⟨met, hmet, hnext⟩ := bind_ok.mp hnext
      exact bind_ok.mpr ⟨met, quorumMet_within h hmet, hnext⟩

end Within

/-! ## The service and the chain -/

/-- What a request adds, if it adds anything. -/
def takenOf (o : Offchain) (domain : CommitmentDomain) (body : Option Json) : Option Endorsement :=
  (openCommitment o body).toOption.bind (endorsementOf o domain)

/-- All of a request's questions find the chain in one state, the one in which the request is
handled, as they do where no transaction comes in between. Any of them may fail. -/
structure ChainAccess.Reads {T : Type} (access : ChainAccess) (crypto : Crypto)
    (env : ScoringEnv T) (blk : Block) (s : ScoringState T) : Prop where
  stakes : access.stakes.Within (chainStakes crypto s.staking.vault)
  epoch : ∃ current, access.currentEpochFn = some current ∧
    ∀ n, current = .ok n → n = ScoringRegistry.currentEpoch env blk

/-- None of them fails. -/
structure ChainAccess.Answers {T : Type} (access : ChainAccess) (crypto : Crypto)
    (env : ScoringEnv T) (blk : Block) (s : ScoringState T) : Prop where
  stakes : access.stakes = chainStakes crypto s.staking.vault
  epoch : access.currentEpochFn = some (.ok (ScoringRegistry.currentEpoch env blk))

theorem ChainAccess.Answers.reads {T : Type} {access : ChainAccess} {crypto : Crypto}
    {env : ScoringEnv T} {blk : Block} {s : ScoringState T} (h : access.Answers crypto env blk s) :
    access.Reads crypto env blk s where
  stakes := by
    rw [h.stakes]
    exact ⟨fun _ _ _ hx => hx, fun _ _ hx => hx⟩
  epoch := by
    refine ⟨_, h.epoch, ?_⟩
    rintro n ⟨⟩
    rfl

/-- What was sent, of what was submitted. -/
def sentBy (access : ChainAccess) (submitted : Option Proposal) : List Proposal :=
  submitted.toList.filter fun p => (access.proposeFn p).isOk

/-- The epoch and the Brain of a proposal. -/
def Proposal.key (p : Proposal) : Int × Int := (p.epoch, p.brainId)

structure AggregatorState (T : Type) where
  chain : ScoringState T
  aggregator : CommitmentAggregator
  /-- what the service was handed in, in order -/
  calls : List CommitmentCall
  /-- the proposals it has sent, newest first -/
  sent : List Proposal

/-- A service that was handed in nothing. -/
def AggregatorState.start {T : Type} (chain : ScoringState T) : AggregatorState T :=
  ⟨chain, .empty, [], []⟩

inductive AggregatorLabel
  /-- anything that happens on the chain, the service's transactions among it -/
  | chain (l : ScoringLabel)
  /-- a request by anyone, with whatever its reads are answered -/
  | post (access : ChainAccess) (body : Option Json)

section System

variable {T : Type} (env : ScoringEnv T) (o : Offchain) (domain : CommitmentDomain)

/-- The calls there are after a request. -/
def AggregatorState.callsWith (s : AggregatorState T) (body : Option Json) : List CommitmentCall :=
  s.calls ++ (openCommitment o body).toOption.toList

inductive AggregatorStep : AggregatorState T → AggregatorLabel → AggregatorState T → Prop
  | chain {s : AggregatorState T} {c : ScoringState T} (l : ScoringLabel) :
      ScoringStep env s.chain l c → AggregatorStep s (.chain l) { s with chain := c }
  | post {s : AggregatorState T} (access : ChainAccess) (body : Option Json) :
      AggregatorStep s (.post access body)
        { s with
          aggregator := (s.aggregator.commitments o domain access body).aggregator
          calls := s.callsWith o body
          sent := sentBy access (s.aggregator.commitments o domain access body).submitted ++
            s.sent }

/-- The aggregator that has collected these endorsements, and sent these proposals. -/
def collectedSent (votes : List Endorsement) (sent : List Proposal) : CommitmentAggregator :=
  { collected o votes with proposed := sent.map Proposal.key }

/-- What the service keeps is determined by what it was handed in and what it has sent, and it
has sent one proposal for an epoch and a Brain. -/
structure AggregatorInv (s : AggregatorState T) : Prop where
  determined : s.aggregator = collectedSent o (endorsements o domain s.calls) s.sent
  once : (s.sent.map Proposal.key).Nodup
  vault : VaultInv s.chain.staking.vault

end System

section Posts

variable {o : Offchain} {domain : CommitmentDomain} {access : ChainAccess} {body : Option Json}
  {votes : List Endorsement} {sent : List Proposal} {agg : CommitmentAggregator}
  {calls : List CommitmentCall} {v : Endorsement} {epoch brainId : Int} {p : Proposal}

theorem sentBy_some :
    sentBy access (some p) = if (access.proposeFn p).isOk = true then [p] else [] := by
  cases h : (access.proposeFn p).isOk with
  | false => simp [sentBy, h]
  | true => simp [sentBy, h]

/-- **What was sent is not proposed again**; all else is as if nothing was sent. -/
theorem nextProposal_sent {u : Unicode} {stakes : Stakes} :
    (collectedSent o votes sent).nextProposal u stakes epoch brainId = .ok (some p) ↔
      (epoch, brainId) ∉ sent.map Proposal.key ∧
        (collected o votes).nextProposal u stakes epoch brainId = .ok (some p) := by
  -- the collected endorsements alone have had nothing proposed
  have hnew : (epoch, brainId) ∉ (collected o votes).proposed := List.not_mem_nil
  by_cases hsent : (epoch, brainId) ∈ sent.map Proposal.key
  · have hnone : (collectedSent o votes sent).nextProposal u stakes epoch brainId = .ok none := by
      unfold nextProposal
      exact if_pos hsent
    rw [hnone]
    constructor
    · intro h
      cases h
    · rintro ⟨h, -⟩
      exact absurd hsent h
  · have hsame : (collectedSent o votes sent).nextProposal u stakes epoch brainId =
        (collected o votes).nextProposal u stakes epoch brainId := by
      unfold nextProposal
      rw [if_neg hnew]
      exact if_neg hsent
    rw [hsame, and_iff_right hsent]

/-- What the calls of a request add. -/
theorem endorsements_with : endorsements o domain
    (calls ++ (openCommitment o body).toOption.toList) =
      endorsements o domain calls ++ (takenOf o domain body).toList := by
  rw [endorsements, List.filterMap_append]
  unfold takenOf
  cases (openCommitment o body).toOption with
  | none => rfl
  | some c =>
    show _ ++ [c].filterMap (endorsementOf o domain) = _ ++ (endorsementOf o domain c).toList
    cases hc : endorsementOf o domain c with
    | none => rw [List.filterMap_cons_none hc]; rfl
    | some v => rw [List.filterMap_cons_some hc]; rfl

/-- A request that adds nothing changes nothing. -/
theorem commitments_refused (h : takenOf o domain body = none) :
    (agg.commitments o domain access body).aggregator = agg ∧
      (agg.commitments o domain access body).submitted = none := by
  unfold commitments
  cases hopen : openCommitment o body with
  | error e => exact ⟨rfl, rfl⟩
  | ok c =>
    have hnone : endorsementOf o domain c = none := by
      rw [takenOf, hopen] at h
      exact h
    -- the aggregator is asked, and refuses
    have hadd : (agg.addCommitment o domain c).1 = agg ∧
        (agg.addCommitment o domain c).2 ≠ .ok true := addCommitment_none hnone
    dsimp only
    generalize agg.addCommitment o domain c = added at hadd ⊢
    obtain ⟨after, result⟩ := added
    obtain ⟨rfl, hresult⟩ := hadd
    cases result with
    | error e => exact ⟨rfl, rfl⟩
    | ok matched =>
      cases matched with
      | false => exact ⟨rfl, rfl⟩
      | true => exact absurd rfl hresult

/-- The epoch and the Brain of what is added are those of a commitment. -/
theorem endorsementOf_range {c : CommitmentCall} (h : endorsementOf o domain c = some v) :
    ∃ (e : Epoch) (b : BrainId), v.epoch = e.val ∧ v.brainId = b.val := by
  obtain ⟨-, -, -, hepoch, hbrain, -, -⟩ := endorsementOf_some h
  simp only [endorsementOf, Option.bind_eq_bind, Option.bind_eq_some_iff, toOption_ok] at h
  -- the commitment was encoded, so its numbers fit their types
  obtain ⟨root, -, commitment, hcommitment, -⟩ := h
  obtain ⟨-, -, hepoch', hbrain', -⟩ := encodeCommitment_ok hcommitment
  exact ⟨commitment.epoch, commitment.brainId, hepoch.trans hepoch'.symm,
    hbrain.trans hbrain'.symm⟩

/-- What a request is added to. -/
theorem addCommitment_collectedSent {c : CommitmentCall} (h : endorsementOf o domain c = some v) :
    (collectedSent o votes sent).addCommitment o domain c =
      (collectedSent o (votes ++ [v]) sent, .ok true) := by
  rw [addCommitment_some h, collectedSent, collectedSent, collected, collected, collect_concat]

/-- A proposal is for the epoch and the Brain it was asked for. -/
theorem nextProposal_key {u : Unicode} {stakes : Stakes}
    (h : agg.nextProposal u stakes epoch brainId = .ok (some p)) : p.key = (epoch, brainId) := by
  unfold nextProposal at h
  split at h
  · cases return_ok.mp h
  · obtain ⟨best, -, h⟩ := bind_ok.mp h
    cases best with
    | none => cases return_ok.mp h
    | some t =>
      obtain ⟨met, -, h⟩ := bind_ok.mp h
      dsimp only at h
      split at h
      · cases return_ok.mp h
      · simp only [bind_ok, return_ok, Option.some.injEq] at h
        obtain ⟨_, -, _, -, rfl⟩ := h
        rfl

/-- What comes of an attempt: a proposal that was sent is kept as sent. -/
theorem proposeCompleted_collectedSent {completed : Bool} :
    ((collectedSent o votes sent).proposeCompleted o access completed epoch brainId).1 =
        collectedSent o votes (sentBy access
          ((collectedSent o votes sent).proposeCompleted o access completed epoch brainId).2.1 ++
            sent) ∧
      ∀ p, ((collectedSent o votes sent).proposeCompleted o access completed epoch
          brainId).2.1 = some p ↔
        completed = true ∧ (collectedSent o votes sent).nextProposal o.unicode access.stakes epoch
          brainId = .ok (some p) := by
  unfold proposeCompleted
  cases completed with
  | false => exact ⟨rfl, fun p => ⟨fun h => (Option.some_ne_none p h.symm).elim,
      fun h => (Bool.false_ne_true h.1).elim⟩⟩
  | true =>
    rw [if_neg Bool.true_eq_false.mp]
    unfold tryPropose
    cases hnext : (collectedSent o votes sent).nextProposal o.unicode access.stakes epoch
        brainId with
    | error e => exact ⟨rfl, fun p => by simp⟩
    | ok next =>
      cases next with
      | none => exact ⟨rfl, fun p => by simp⟩
      | some p =>
        dsimp only
        cases htx : access.proposeFn p with
        | error e =>
          have hsent : sentBy access (some p) = [] := by
            rw [sentBy_some, htx]
            rfl
          dsimp only
          rw [hsent]
          exact ⟨rfl, fun q => by simp⟩
        | ok tx =>
          have hsent : sentBy access (some p) = [p] := by
            rw [sentBy_some, htx]
            rfl
          dsimp only
          rw [hsent, List.singleton_append, collectedSent, collectedSent, List.map_cons,
            nextProposal_key hnext]
          exact ⟨rfl, fun q => by simp⟩

/-- **A request that adds an endorsement** goes on to propose, if the epoch was read and is
completed. -/
theorem commitments_kept (h : takenOf o domain body = some v) :
    ((collectedSent o votes sent).commitments o domain access body).aggregator =
        collectedSent o (votes ++ [v])
          (sentBy access
              ((collectedSent o votes sent).commitments o domain access body).submitted ++
            sent) ∧
      ∀ p, ((collectedSent o votes sent).commitments o domain access body).submitted = some p ↔
        epochCompleted access v.epoch = .ok true ∧
          (collectedSent o (votes ++ [v]) sent).nextProposal o.unicode access.stakes v.epoch
            v.brainId = .ok (some p) := by
  obtain ⟨c, hopen, hc⟩ := Option.bind_eq_some_iff.mp h
  rw [toOption_ok] at hopen
  obtain ⟨-, -, -, hepoch, hbrain, -, -⟩ := endorsementOf_some hc
  unfold commitments
  rw [hopen]
  dsimp only
  rw [addCommitment_collectedSent hc, hepoch, hbrain]
  dsimp only
  cases hcompleted : epochCompleted access c.epoch with
  | error e => exact ⟨rfl, fun p => by simp⟩
  | ok completed =>
    obtain ⟨hafter, hsubmitted⟩ := @proposeCompleted_collectedSent o access (votes ++ [v]) sent
      c.epoch c.brainId completed
    dsimp only
    generalize (collectedSent o (votes ++ [v]) sent).proposeCompleted o access completed c.epoch
      c.brainId = outcome at hafter hsubmitted ⊢
    obtain ⟨after, submitted, tx⟩ := outcome
    dsimp only at hafter hsubmitted ⊢
    rw [Except.ok.injEq]
    -- whatever the service answers
    split
    · exact ⟨hafter, hsubmitted⟩
    · exact ⟨hafter, hsubmitted⟩

end Posts

/-! ## Runs -/

section Runs

variable {T : Type} {env : ScoringEnv T} {o : Offchain} {domain : CommitmentDomain}
  {s s' : AggregatorState T} {l : AggregatorLabel} {ls : List AggregatorLabel} {blk : Block}
  {access : ChainAccess} {body : Option Json}

/-- **What one request does**, where the service keeps what it should. -/
theorem AggregatorInv.post (hs : AggregatorInv o domain s) :
    (s.aggregator.commitments o domain access body).aggregator =
        collectedSent o (endorsements o domain (s.callsWith o body))
          (sentBy access (s.aggregator.commitments o domain access body).submitted ++ s.sent) ∧
      ∀ p, (s.aggregator.commitments o domain access body).submitted = some p ↔
        ∃ v, takenOf o domain body = some v ∧ epochCompleted access v.epoch = .ok true ∧
          (v.epoch, v.brainId) ∉ s.sent.map Proposal.key ∧
          (collected o (endorsements o domain (s.callsWith o body))).nextProposal o.unicode
            access.stakes v.epoch v.brainId = .ok (some p) := by
  have hcalls : endorsements o domain (s.callsWith o body) =
      endorsements o domain s.calls ++ (takenOf o domain body).toList := endorsements_with
  rw [hs.determined, hcalls]
  cases htaken : takenOf o domain body with
  | none =>
    obtain ⟨hsame, hnothing⟩ : ((collectedSent o (endorsements o domain s.calls)
        s.sent).commitments o domain access body).aggregator = _ ∧ _ := commitments_refused htaken
    rw [hsame, hnothing, Option.toList_none, List.append_nil]
    refine ⟨rfl, fun p => ?_⟩
    simp
  | some v =>
    obtain ⟨hkept, hsubmitted⟩ : ((collectedSent o (endorsements o domain s.calls)
        s.sent).commitments o domain access body).aggregator = _ ∧ _ := commitments_kept htaken
    refine ⟨hkept, fun p => (hsubmitted p).trans ?_⟩
    rw [nextProposal_sent]
    constructor
    · rintro ⟨hcompleted, hunsent, hnext⟩
      exact ⟨v, rfl, hcompleted, hunsent, hnext⟩
    · rintro ⟨v', hv', hcompleted, hunsent, hnext⟩
      obtain rfl := Option.some.inj hv'
      exact ⟨hcompleted, hunsent, hnext⟩

theorem aggregatorStep_inv (h : AggregatorStep env o domain s l s')
    (hs : AggregatorInv o domain s) : AggregatorInv o domain s' := by
  cases h with
  | chain l hstep => exact ⟨hs.determined, hs.once, scoringStep_vaultInv hstep hs.vault⟩
  | post access body =>
    -- nothing here asks what the reads were answered
    obtain ⟨hafter, hsubmitted⟩ := @AggregatorInv.post T o domain s access body hs
    refine ⟨hafter, ?_, hs.vault⟩
    show ((sentBy access (s.aggregator.commitments o domain access body).submitted ++
      s.sent).map Proposal.key).Nodup
    cases hsome : (s.aggregator.commitments o domain access body).submitted with
    | none => exact hs.once
    | some p =>
      obtain ⟨v, -, -, hunsent, hnext⟩ := (hsubmitted p).mp hsome
      -- what is submitted was not sent before
      have hnew : p.key ∉ s.sent.map Proposal.key := by
        rw [nextProposal_key hnext]
        exact hunsent
      rw [sentBy_some]
      split
      · exact List.nodup_cons.mpr ⟨hnew, hs.once⟩
      · exact hs.once

/-- **What the service keeps**, along every run. -/
theorem aggregator_determined {now : Nat} {t₀ : T} {admin : Address}
    (h : Run (AggregatorStep env o domain) (.start (.deploy now t₀ admin)) ls s) :
    AggregatorInv o domain s := by
  refine Run.invariant (I := AggregatorInv o domain) aggregatorStep_inv h ?_
  exact ⟨rfl, List.nodup_nil, vaultInv_deploy admin⟩

/-- The endorsements of an epoch and a Brain there are after a request. -/
def AggregatorState.votesWith (o : Offchain) (domain : CommitmentDomain) (s : AggregatorState T)
    (body : Option Json) (e : Epoch) (b : BrainId) : List Endorsement :=
  endorsementsFor e.val b (endorsements o domain (s.callsWith o body))

/-- A request has a root proposed: it adds an endorsement for an epoch that is completed and
that nothing was proposed for, and with it the leading spelling of all that was handed in has
the quorum of what is at stake now. -/
structure Due (env : ScoringEnv T) (o : Offchain) (domain : CommitmentDomain)
    (s : AggregatorState T) (blk : Block) (body : Option Json) (e : Epoch) (b : BrainId) (t : Text)
    (bytes : Bytes) : Prop where
  taken : ∃ v, takenOf o domain body = some v ∧ v.epoch = e.val ∧ v.brainId = b.val
  completed : e.val < ScoringRegistry.currentEpoch env blk
  unsent : ∀ p ∈ s.sent, ¬ (p.epoch = e.val ∧ p.brainId = b.val)
  leads : leading s.chain.staking.vault b (s.votesWith o domain body e b) = some t
  quorum : HasQuorum s.chain.staking.vault b (signersUnder (s.votesWith o domain body e b) t)
  readable : fromHex (t.drop 2) = some bytes

/-- A completed epoch, where its reading is the chain's. -/
theorem epochCompleted_reads (hreads : access.Reads o.crypto env blk s.chain) {epoch : Int}
    (h : epochCompleted access epoch = .ok true) :
    epoch < ScoringRegistry.currentEpoch env blk := by
  obtain ⟨current, hsome, hread⟩ := hreads.epoch
  rw [epochCompleted, hsome] at h
  simp only [bind_ok, return_ok, decide_eq_true_eq] at h
  obtain ⟨n, hn, hlt⟩ := h
  rw [← hread n hn]
  exact hlt

/-- What is due is what there is to propose. -/
theorem due_iff {e : Epoch} {b : BrainId} {v : Endorsement}
    (htaken : takenOf o domain body = some v) (he : v.epoch = e.val) (hb : v.brainId = b.val)
    (hcompleted : e.val < ScoringRegistry.currentEpoch env blk) (p : Proposal) :
    ((v.epoch, v.brainId) ∉ s.sent.map Proposal.key ∧
      (collected o (endorsements o domain (s.callsWith o body))).nextProposal o.unicode
        (chainStakes o.crypto s.chain.staking.vault) v.epoch v.brainId = .ok (some p)) ↔
      ∃ t bytes, Due env o domain s blk body e b t bytes ∧
        p = proposalOf o e.val b (s.votesWith o domain body e b) t bytes := by
  have hkept : ∀ v ∈ endorsements o domain (s.callsWith o body),
      lower o.unicode v.spelling = v.spelling := fun v hv => (rootOfText_spelling hv).2
  rw [he, hb, nextProposal_eq hkept]
  constructor
  · rintro ⟨hunsent, t, bytes, hleads, hquorum, hbytes, rfl⟩
    refine ⟨t, bytes, ⟨⟨v, htaken, he, hb⟩, hcompleted, ?_, hleads, hquorum, hbytes⟩, rfl⟩
    rintro p hp ⟨hpe, hpb⟩
    exact hunsent (List.mem_map.mpr ⟨p, hp, Prod.ext hpe hpb⟩)
  · rintro ⟨t, bytes, hdue, rfl⟩
    refine ⟨?_, t, bytes, hdue.leads, hdue.quorum, hdue.readable, rfl⟩
    intro hmem
    obtain ⟨p, hp, hkey⟩ := List.mem_map.mp hmem
    exact hdue.unsent p hp ⟨congrArg Prod.fst hkey, congrArg Prod.snd hkey⟩

/-- What is due is submitted, if no read fails. -/
theorem Due.submitted {e : Epoch} {b : BrainId} {t : Text} {bytes : Bytes}
    (hdue : Due env o domain s blk body e b t bytes) (hinv : AggregatorInv o domain s)
    (hanswers : access.Answers o.crypto env blk s.chain) :
    (s.aggregator.commitments o domain access body).submitted =
      some (proposalOf o e.val b (s.votesWith o domain body e b) t bytes) := by
  obtain ⟨-, hsubmitted⟩ := @AggregatorInv.post T o domain s access body hinv
  obtain ⟨v, htaken, he, hb⟩ := hdue.taken
  obtain ⟨hunsent, hnext⟩ := (due_iff htaken he hb hdue.completed _).mpr ⟨t, bytes, hdue, rfl⟩
  have hcompleted : epochCompleted access v.epoch = .ok true := by
    rw [epochCompleted, hanswers.epoch, he]
    simp only [bind_ok, return_ok, decide_eq_true_eq]
    exact ⟨_, rfl, by exact_mod_cast hdue.completed⟩
  exact (hsubmitted _).mpr ⟨v, htaken, hcompleted, hunsent, hanswers.stakes ▸ hnext⟩

/--
**What a request has submitted**, in every run, whatever was handed in, whatever happened on the
chain meanwhile and whatever earlier requests read there, provided that all its own reads that do
not fail find one state of the chain: the leading spelling, when it is due and only then. If the
epoch has no root yet, the registry takes what is submitted just if the contract reads the root
and every signature on it, and its arithmetic does not overflow. And for an epoch and a Brain one
proposal is sent, whatever any request was answered.
-/
theorem commitments_exact {now : Nat} {t₀ : T} {admin : Address}
    (hrun : Run (AggregatorStep env o domain) (.start (.deploy now t₀ admin)) ls s)
    (hreads : access.Reads o.crypto env blk s.chain) (body : Option Json) :
    (∀ p, (s.aggregator.commitments o domain access body).submitted = some p →
      ∃ e b t bytes, Due env o domain s blk body e b t bytes ∧
        p = proposalOf o e.val b (s.votesWith o domain body e b) t bytes ∧
        ((s.chain.registry.epochs e b).merkleRoot = 0 →
          (Taken env blk s.chain p ↔ QuorumFits s.chain.staking.vault b ∧
            ∃ root, Presentable env e b (s.votesWith o domain body e b) t root))) ∧
    (access.Answers o.crypto env blk s.chain → ∀ e b t bytes,
      Due env o domain s blk body e b t bytes →
        (s.aggregator.commitments o domain access body).submitted =
          some (proposalOf o e.val b (s.votesWith o domain body e b) t bytes)) ∧
    (s.sent.map Proposal.key).Nodup := by
  have hinv := aggregator_determined hrun
  obtain ⟨-, hsubmitted⟩ := @AggregatorInv.post T o domain s access body hinv
  refine ⟨?_, ?_, hinv.once⟩
  · intro p hp
    obtain ⟨v, htaken, hcompleted, hunsent, hnext⟩ := (hsubmitted p).mp hp
    obtain ⟨c, -, hc⟩ := Option.bind_eq_some_iff.mp htaken
    obtain ⟨e, b, he, hb⟩ := endorsementOf_range hc
    have hlt := epochCompleted_reads hreads hcompleted
    rw [he] at hlt
    have hlt : e.val < ScoringRegistry.currentEpoch env blk := by exact_mod_cast hlt
    obtain ⟨t, bytes, hdue, rfl⟩ := (due_iff htaken he hb hlt p).mp
      ⟨hunsent, nextProposal_within hreads.stakes hnext⟩
    refine ⟨e, b, t, bytes, hdue, rfl, fun hnew => ?_⟩
    -- the leading spelling is one that was handed in
    obtain ⟨v', hv', rfl⟩ := List.mem_map.mp (List.mem_of_find?_eq_some hdue.leads)
    have hdenotes := (rootOfText_spelling (List.mem_filter.mp hv').1).1
    rw [proposalOf_taken hinv.vault hlt hnew hdenotes hdue.readable hdue.quorum]
    refine and_congr_right fun _ => ⟨fun h => ⟨_, h⟩, ?_⟩
    rintro ⟨root, hpresent⟩
    obtain rfl := Except.ok.inj (hdenotes.symm.trans hpresent.denotes)
    exact hpresent
  · intro hanswers e b t bytes hdue
    exact hdue.submitted hinv hanswers

end Runs

/-! ## A proposal -/

/-- A signature on root 5 of epoch 0 and Brain 3, as it is handed in. -/
def toyHandedIn (signer signature : Text) : Json :=
  .dict [
    (text "epoch", .int 0),
    (text "brain_id", .int 3),
    (text "root", .str (text "0x" ++ fiveDigits)),
    (text "signer", .str signer),
    (text "signature", .str signature)]

/-- Validator 7's, and validator 8's. -/
def toyFirst : Json :=
  toyHandedIn (text "0x0000000000000000000000000000000000000007") (text "0705")

def toySecond : Json :=
  toyHandedIn (text "0x0000000000000000000000000000000000000008") (text "0805")

/-- What validator 8 adds. -/
def secondVote (root : Text) : Endorsement :=
  { plainVote root with signer := 8, signature := text "0x0805" }

theorem toyFirst_taken : takenOf toyOffchain registryDomain (some toyFirst) =
    some (plainVote (text "0x" ++ fiveDigits)) := by
  decide +kernel

theorem toySecond_taken : takenOf toyOffchain registryDomain (some toySecond) =
    some (secondVote (text "0x" ++ fiveDigits)) := by
  decide +kernel

/-- Both stand by the one spelling. -/
theorem toyVotes_lead (vault : StakingVault) (t : Text) :
    leading vault 3 [plainVote t, secondVote t] = some t ∧
      signersUnder [plainVote t, secondVote t] t = [7, 8] := by
  have hfirst : (plainVote t).spelling = t := rfl
  have hsecond : (secondVote t).spelling = t := rfl
  constructor
  · simp [leading, Leads, hfirst, hsecond]
  · have hsigners : (plainVote t).signer = 7 ∧ (secondVote t).signer = 8 := ⟨rfl, rfl⟩
    simp [signersUnder, hfirst, hsecond, hsigners]

/-- Together they hold the quorum, which neither holds alone. -/
theorem toyVotes_quorum {vault : StakingVault} (htotal : vault.brainStake 3 = 1500)
    (hseven : vault.validatorStake 3 7 = 600) (height : vault.validatorStake 3 8 = 600) :
    HasQuorum vault 3 [7, 8] ∧ ¬ HasQuorum vault 3 [7] := by
  have hboth : weightOf (vault.validatorStake 3) [7, 8] = 1200 := by
    rw [weightOf, List.map_cons, List.map_singleton, List.sum_cons, List.sum_singleton, hseven,
      height]
  have hone : weightOf (vault.validatorStake 3) [7] = 600 := by
    rw [weightOf, List.map_singleton, List.sum_singleton, hseven]
  unfold HasQuorum
  rw [htotal, hboth, hone]
  decide

/-- What the service is answered at the block. -/
def toyAccess (c : ScoringState Ledger) (blk : Block) : ChainAccess where
  stakes := chainStakes toyOffchain.crypto c.staking.vault
  currentEpochFn := some (.ok (ScoringRegistry.currentEpoch toyRegistry blk))
  proposeFn _ := .ok []

theorem toyAccess_answers (c : ScoringState Ledger) (blk : Block) :
    (toyAccess c blk).Answers toyOffchain.crypto toyRegistry blk c :=
  ⟨rfl, rfl⟩

set_option maxRecDepth 8000 in
/-- Validators 7 and 8 have 600 each of the 1500 at stake on Brain 3. -/
theorem toyStaked_run : ∃ (ls : List AggregatorLabel) (c : ScoringState Ledger),
    Run (AggregatorStep toyRegistry toyOffchain registryDomain)
        (.start (.deploy 0 toyLedger 9)) ls (.start c) ∧
      c.staking.vault.brainStake 3 = 1500 ∧ c.staking.vault.validatorStake 3 7 = 600 ∧
      c.staking.vault.validatorStake 3 8 = 600 ∧ (c.registry.epochs 0 3).merkleRoot = 0 := by
  refine ⟨_, _, .cons (.chain _ (.vault ⟨200, by decide⟩ 2 (.stake 3 7 600) (by decide)
    (by decide) (by decide) rfl)) (.cons (.chain _ (.vault ⟨250, by decide⟩ 2 (.stake 3 8 600)
      (by decide) (by decide) (by decide) rfl)) (.single (.chain _ (.vault ⟨300, by decide⟩ 2
        (.stake 3 9 300) (by decide) (by decide) (by decide) rfl)))), ?_, ?_, ?_, ?_⟩
  · rfl
  · rfl
  · rfl
  · rfl

/-- Validator 7 has handed in its signature while the epoch went on, and nothing was sent. -/
theorem toyUnsent : ∃ (ls : List AggregatorLabel) (s : AggregatorState Ledger),
    Run (AggregatorStep toyRegistry toyOffchain registryDomain)
        (.start (.deploy 0 toyLedger 9)) ls s ∧
      s.chain.staking.vault.brainStake 3 = 1500 ∧
      s.chain.staking.vault.validatorStake 3 7 = 600 ∧
      s.chain.staking.vault.validatorStake 3 8 = 600 ∧
      (s.chain.registry.epochs 0 3).merkleRoot = 0 ∧ s.sent = [] ∧
      s.votesWith toyOffchain registryDomain (some toySecond) 0 3 =
        [plainVote (text "0x" ++ fiveDigits), secondVote (text "0x" ++ fiveDigits)] := by
  obtain ⟨ls, c, hrun, htotal, hseven, height, hnew⟩ := toyStaked_run
  have hreads : (toyAccess c ⟨400, by decide⟩).Reads toyOffchain.crypto toyRegistry
      ⟨400, by decide⟩ (AggregatorState.start c).chain := (toyAccess_answers c _).reads
  refine ⟨_, _, hrun.append (.single (.post (toyAccess c ⟨400, by decide⟩) (some toyFirst))),
    htotal, hseven, height, hnew, ?_, ?_⟩
  · -- epoch 0 is not over yet
    obtain ⟨hdue, -, -⟩ := commitments_exact hrun hreads (some toyFirst)
    cases hsome : ((AggregatorState.start c).aggregator.commitments toyOffchain registryDomain
        (toyAccess c ⟨400, by decide⟩) (some toyFirst)).submitted with
    | none => rfl
    | some p =>
      obtain ⟨e, b, t, bytes, hdue, -⟩ := hdue p hsome
      exact absurd hdue.completed (Nat.not_lt_zero _)
  · unfold AggregatorState.votesWith
    rw [AggregatorState.callsWith, endorsements_with, toySecond_taken]
    show endorsementsFor ((0 : Epoch).val : Int) 3 (endorsements toyOffchain registryDomain
      ([] ++ (openCommitment toyOffchain (some toyFirst)).toOption.toList) ++ _) = _
    rw [endorsements_with, toyFirst_taken]
    simp [endorsements, endorsementsFor, plainVote, secondVote]

/-- Once the epoch is over, the second signature has the root proposed. -/
theorem commitments_exact_proposed : ∃ (s : AggregatorState Ledger) (access : ChainAccess)
    (p : Proposal),
    ¬ HasQuorum s.chain.staking.vault 3 [7] ∧
      (s.aggregator.commitments toyOffchain registryDomain access (some toySecond)).submitted =
        some p ∧ p.epoch = 0 ∧ p.brainId = 3 := by
  obtain ⟨ls, s, hrun, htotal, hseven, height, hnew, hsent, hvotes⟩ := toyUnsent
  have hanswers := toyAccess_answers s.chain ⟨3600, by decide⟩
  obtain ⟨-, hdue, -⟩ := commitments_exact hrun hanswers.reads (some toySecond)
  obtain ⟨hleads, hsigners⟩ := toyVotes_lead s.chain.staking.vault (text "0x" ++ fiveDigits)
  obtain ⟨hquorum, hnone⟩ := toyVotes_quorum htotal hseven height
  obtain ⟨bytes, hbytes⟩ : ∃ bytes, fromHex ((text "0x" ++ fiveDigits).drop 2) = some bytes :=
    ⟨_, rfl⟩
  refine ⟨s, _, _, hnone, hdue hanswers 0 3 (text "0x" ++ fiveDigits) bytes ?_, rfl, rfl⟩
  refine ⟨⟨_, toySecond_taken, rfl, rfl⟩, by decide, ?_, ?_, ?_, hbytes⟩
  · rw [hsent]
    exact fun p hp => absurd hp List.not_mem_nil
  · rw [hvotes]
    exact hleads
  · rw [hvotes, hsigners]
    exact hquorum

end BasedAI
