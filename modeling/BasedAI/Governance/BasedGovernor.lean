import BasedAI.Staking.Snapshots
import BasedAI.Tokens.BrainNFTL2

/-!
# BasedAI — the governor

`BasedGovernor.sol` decides how much a vote weighs: one for every GigaBrain the voter
holds, a Brain whose share of the stake at the proposal's snapshot crosses a threshold.
Holdings are read when the vote is cast and stake from the vault's histories, and a Brain
counts once for a proposal, whoever holds it.

Proposals, their states and the tallies are inherited from OpenZeppelin's `Governor`,
which is not part of the repository: `GovernorCore` is what the contract relies on.
-/

namespace BasedAI

open Fallible Mapping

/-- A 256-bit proposal id. -/
abbrev ProposalId := Fin (2 ^ 256)

inductive ProposalState
  | pending
  | active
  | canceled
  | defeated
  | succeeded
  | queued
  | expired
  | executed
  deriving DecidableEq, Repr

/-- What is inherited: `Governor` with `GovernorCountingSimple`. -/
structure GovernorCore (G : Type) where
  /-- `state g now proposalId`, where `now` is a reading of the clock -/
  state : G → Nat → ProposalId → Exec ProposalState
  proposalSnapshot : G → ProposalId → Nat
  hasVoted : G → ProposalId → Address → Bool
  /-- the votes for, against and abstaining, together -/
  tally : G → ProposalId → Nat
  /-- `_countVote g proposalId account support weight params` -/
  countVote : G → ProposalId → Address → Fin 256 → Nat → Bytes → Exec G
  /-- voting begins after the snapshot of a proposal that exists -/
  state_active : ∀ {g now p}, state g now p = .ok .active →
    0 < proposalSnapshot g p ∧ proposalSnapshot g p < now
  /-- an account votes once, and its weight is counted as it is -/
  countVote_exact : ∀ {g p account support weight params g'},
    countVote g p account support weight params = .ok g' →
      hasVoted g p account = false ∧ hasVoted g' = set₂ (hasVoted g) p account true ∧
        tally g' = set (tally g) p (tally g p + weight) ∧
        proposalSnapshot g' = proposalSnapshot g

/-- The contracts next to the governor. -/
structure GovernorEnv (G T : Type) where
  core : GovernorCore G
  nft : BrainNFTL2Env
  vault : VaultEnv T

/-- The governor's storage, what it inherits included, and the two contracts it reads. -/
structure GovernorState (G T : Type) where
  governor : G
  /-- `_brainVoted`: whether a Brain has been counted for a proposal -/
  brainVoted : ProposalId → BrainId → Bool
  nft : BrainNFTL2
  staking : VaultState T

namespace BasedGovernor

/-- 0.5% of the stake. -/
def GIGABRAIN_THRESHOLD_BPS : Nat := 50
def MAX_BRAINS_PER_VOTER : Nat := 64

/-! ## Voting power -/

/-- The stake that makes a GigaBrain, rounded up; nothing where nothing was staked. -/
def gigaBrainThreshold (vault : StakingVault) (timepoint : Nat) : Exec Nat := do
  let totalNetStake := vault.getPastTotalStaked timepoint
  if totalNetStake = 0 then return 0
  let product ← mul256 totalNetStake GIGABRAIN_THRESHOLD_BPS
  let numerator ← add256 product 9999
  return numerator / 10000

/-- How many Brains of an account are enumerated. -/
def enumerated (nft : BrainNFTL2) (account : Address) : Exec Nat := do
  let balance ← nft.balanceOf account
  return if balance > MAX_BRAINS_PER_VOTER then MAX_BRAINS_PER_VOTER else balance

/-- The loop of `_getVotes`: `rounds` more Brains from index `i` on. -/
def getVotesLoop (vault : StakingVault) (nft : BrainNFTL2) (account : Address)
    (timepoint threshold : Nat) : Nat → Nat → Nat → Exec Nat
  | 0, _, votes => return votes
  | rounds + 1, i, votes => do
    let brainId ← nft.tokenOfOwnerByIndex account i
    if vault.getPastBrainStake brainId timepoint ≥ threshold then
      let votes ← add256 votes 1
      getVotesLoop vault nft account timepoint threshold rounds (i + 1) votes
    else getVotesLoop vault nft account timepoint threshold rounds (i + 1) votes

/-- `_getVotes`: the GigaBrains of `account` by the stakes at `timepoint`. -/
def getVotes (vault : StakingVault) (nft : BrainNFTL2) (account : Address)
    (timepoint : Nat) : Exec Nat := do
  let tp := uint48 timepoint
  let threshold ← gigaBrainThreshold vault tp
  if threshold = 0 then return 0
  let balance ← enumerated nft account
  getVotesLoop vault nft account tp threshold balance 0 0

/-! ## Casting a vote -/

/-- The loop of `_castVote`, with the marks and the weight it writes. -/
def castVoteLoop (vault : StakingVault) (nft : BrainNFTL2) (proposalId : ProposalId)
    (account : Address) (tp threshold : Nat) :
    Nat → Nat → (ProposalId → BrainId → Bool) → Nat →
      Exec ((ProposalId → BrainId → Bool) × Nat)
  | 0, _, brainVoted, weight => return (brainVoted, weight)
  | rounds + 1, i, brainVoted, weight => do
    let brainId ← nft.tokenOfOwnerByIndex account i
    if vault.getPastBrainStake brainId tp < threshold then
      castVoteLoop vault nft proposalId account tp threshold rounds (i + 1) brainVoted weight
    -- each Brain votes once per proposal
    else if brainVoted proposalId brainId then
      castVoteLoop vault nft proposalId account tp threshold rounds (i + 1) brainVoted weight
    else
      let weight ← add256 weight 1
      castVoteLoop vault nft proposalId account tp threshold rounds (i + 1)
        (set₂ brainVoted proposalId brainId true) weight

variable {G T : Type}

/-- The marks and the weight of a vote; without a threshold there are none. -/
def weigh (proposalId : ProposalId) (account : Address) (tp threshold : Nat)
    (s : GovernorState G T) : Exec ((ProposalId → BrainId → Bool) × Nat) :=
  if threshold ≠ 0 then do
    let balance ← enumerated s.nft account
    castVoteLoop s.staking.vault s.nft proposalId account tp threshold balance 0 s.brainVoted 0
  else return (s.brainVoted, 0)

/-- `_castVote`, in block `blk`; the weight is returned. -/
def castVote (env : GovernorEnv G T) (blk : Block) (proposalId : ProposalId)
    (account : Address) (support : Fin 256) (params : Bytes) (s : GovernorState G T) :
    Exec (GovernorState G T × Nat) := do
  let currentState ← env.core.state s.governor (uint48 blk.timestamp) proposalId
  revertIf (currentState ≠ .active) .governorUnexpectedProposalState
  let tp := uint48 (env.core.proposalSnapshot s.governor proposalId)
  let threshold ← gigaBrainThreshold s.staking.vault tp
  let (brainVoted, weight) ← weigh proposalId account tp threshold s
  let governor ← env.core.countVote s.governor proposalId account support weight params
  return ({ s with governor := governor, brainVoted := brainVoted }, weight)

end BasedGovernor

/-! ## The governor as a transition system -/

inductive GovernorLabel
  | castVote (blk : Block) (proposalId : ProposalId) (account : Address) (weight : Nat)
  | moveBrain (caller : Address) (c : BrainNFTL2Call)
  | staking (l : VaultLabel)
  | elsewhere

/-- A step of the governor or of one of the contracts it reads. What else is done with
proposals (they are made, cancelled, queued and executed) neither counts a vote nor moves
the snapshot of a proposal that exists. -/
inductive GovernorMove {G T : Type} (env : GovernorEnv G T) :
    GovernorState G T → GovernorLabel → GovernorState G T → Prop
  | castVote {s s' : GovernorState G T} {weight : Nat} (blk : Block)
      (proposalId : ProposalId) (account : Address) (support : Fin 256) (params : Bytes) :
      BasedGovernor.castVote env blk proposalId account support params s = .ok (s', weight) →
      GovernorMove env s (.castVote blk proposalId account weight) s'
  | moveBrain {s : GovernorState G T} {nft : BrainNFTL2} (caller : Address)
      (c : BrainNFTL2Call) : c.exec env.nft caller s.nft = .ok nft →
      GovernorMove env s (.moveBrain caller c) { s with nft := nft }
  | staking {s : GovernorState G T} {l : VaultLabel} {staking : VaultState T} :
      VaultStep env.vault s.staking l staking →
      GovernorMove env s (.staking l) { s with staking := staking }
  | elsewhere {s : GovernorState G T} (governor : G) :
      env.core.tally governor = env.core.tally s.governor →
      env.core.hasVoted governor = env.core.hasVoted s.governor →
      (∀ p, 0 < env.core.proposalSnapshot s.governor p →
        env.core.proposalSnapshot governor p = env.core.proposalSnapshot s.governor p) →
      GovernorMove env s .elsewhere { s with governor := governor }

/-- Votes and calls to the vault happen when the clock of their block says. -/
def GovernorLabel.moment : GovernorLabel → Nat → Prop
  | .castVote blk _ _ _, n => StakingVault.clock blk = n
  | .staking l, n => l.moment n
  | _, _ => True

/-- A governor in which nobody has voted yet, next to a vault that was just deployed. -/
structure GovernorStart {G T : Type} (env : GovernorEnv G T) (s : GovernorState G T) :
    Prop where
  tally : env.core.tally s.governor = fun _ => 0
  brainVoted : s.brainVoted = fun _ _ => false
  vault : ∃ admin, s.staking.vault = .deploy admin

end BasedAI
