import BasedAI.Governance.Votes

/-!
# BasedAI — GigaBrain votes cannot be multiplied

Ownership is read when a vote is cast and stake from history, and Brains move between
voters in the meantime. What keeps the votes apart are the marks: a Brain is counted when
it is marked, no mark is taken back, and the past stakes of the marked Brains are parts of
one total.

* `Marks`, `governorStep_marks` — what a step does to the marks and the weights;
* `VotesInv`, `votesStep_inv` — marks, weights and stakes agree in every state;
* `votes_not_multiplied` — the results, for every run.
-/

namespace BasedAI

open Fallible Mapping Transition BasedGovernor

/-! ## Every state -/

/-- Steps of the governor at moments that do not go back, with the total staked always
below `2 ^ 208`. -/
def GovernorStep {G T : Type} (env : GovernorEnv G T) :
    Timed (GovernorState G T) → GovernorLabel → Timed (GovernorState G T) → Prop :=
  TimedStep (fun s l s' => GovernorMove env s l s' ∧ s'.staking.vault.totalAssets < 2 ^ 208)
    GovernorLabel.moment

/-- At the snapshot of `p`, the Brain `b` crossed the threshold. -/
def Crossed {G T : Type} (env : GovernorEnv G T) (p : ProposalId) (b : BrainId)
    (s : GovernorState G T) : Prop :=
  ∃ threshold, gigaBrainThreshold s.staking.vault
      (uint48 (env.core.proposalSnapshot s.governor p)) = .ok threshold ∧
    0 < threshold ∧ threshold ≤ s.staking.vault.getPastBrainStake b
      (uint48 (env.core.proposalSnapshot s.governor p))

/-- Marks, weights and stakes agree. -/
structure VotesInv {G T : Type} (env : GovernorEnv G T) (x : Timed (GovernorState G T)) :
    Prop where
  remembered : Remembered x.now x.state.staking.vault
  weight : ∀ p, env.core.tally x.state.governor p = ∑ b, mark p b x.state
  begun : ∀ p b, x.state.brainVoted p b = true →
    0 < env.core.proposalSnapshot x.state.governor p ∧
      env.core.proposalSnapshot x.state.governor p < x.now
  crossed : ∀ p b, x.state.brainVoted p b = true → Crossed env p b x.state

section Steps

variable {G T : Type} {env : GovernorEnv G T} {x y : Timed (GovernorState G T)}
  {l : GovernorLabel} {ls : List GovernorLabel} {t : Nat}

/-- A step does to the vault what a call of the vault does, or nothing. -/
theorem governorStep_vault (h : GovernorStep env x l y) :
    y.state.staking.vault = x.state.staking.vault ∨
      ∃ k, SnapshotStep env.vault ⟨x.now, x.state.staking⟩ k ⟨y.now, y.state.staking⟩ := by
  cases h with
  | mk hle hmoment hstep =>
    obtain ⟨hmove, hsmall⟩ := hstep
    cases hmove with
    | castVote blk p account support params hcast =>
      obtain ⟨threshold, hcast⟩ := castVote_ok hcast
      exact .inl (congrArg VaultState.vault hcast.staking)
    | moveBrain => exact .inl rfl
    | staking hvault => exact .inr ⟨_, .mk hle hmoment ⟨hvault, hsmall⟩⟩
    | elsewhere => exact .inl rfl

theorem governorStep_remembered (h : GovernorStep env x l y)
    (hr : Remembered x.now x.state.staking.vault) :
    Remembered y.now y.state.staking.vault := by
  rcases governorStep_vault h with hsame | ⟨k, hstep⟩
  · rw [hsame]
    exact hr.later h.le
  · exact step_remembered hstep hr

/-- The past does not change. -/
theorem governorStep_keeps (h : GovernorStep env x l y) (ht : t < y.now) :
    SamePast t x.state.staking.vault y.state.staking.vault := by
  rcases governorStep_vault h with hsame | ⟨k, hstep⟩
  · rw [hsame]
    exact .refl t _
  · exact step_keeps hstep ht

theorem governorRun_keeps (h : Run (GovernorStep env) x ls y) (ht : t < x.now) :
    SamePast t x.state.staking.vault y.state.staking.vault := by
  induction h with
  | nil x => exact .refl t _
  | cons hstep _ ih =>
    have hlater : t < _ := ht.trans_le hstep.le
    exact (governorStep_keeps hstep hlater).trans (ih hlater)

/-- By the same past, the threshold and the GigaBrains are the same. -/
theorem SamePast.threshold {v v' : StakingVault} (h : SamePast t v v') :
    gigaBrainThreshold v' t = gigaBrainThreshold v t := by
  unfold gigaBrainThreshold
  rw [h.total]

theorem SamePast.eligible {v v' : StakingVault} (h : SamePast t v v') (threshold : Nat) :
    eligible v' t threshold = eligible v t threshold := by
  funext b
  unfold BasedAI.eligible
  rw [h.brain b]

theorem Crossed.keep {p : ProposalId} {b : BrainId} {s s' : GovernorState G T}
    (h : Crossed env p b s)
    (hsnapshot : env.core.proposalSnapshot s'.governor p =
      env.core.proposalSnapshot s.governor p)
    (hpast : SamePast (uint48 (env.core.proposalSnapshot s.governor p)) s.staking.vault
      s'.staking.vault) : Crossed env p b s' := by
  obtain ⟨threshold, hcrossing, hpos, hle⟩ := h
  refine ⟨threshold, ?_, hpos, ?_⟩
  · rw [hsnapshot, hpast.threshold]
    exact hcrossing
  · rw [hsnapshot, hpast.brain b]
    exact hle

/-- What a vote marks has crossed the threshold. -/
theorem VoteCast.crossed {blk : Block} {p : ProposalId} {account : Address}
    {threshold weight : Nat} {s s' : GovernorState G T} {b : BrainId}
    (h : VoteCast env blk p account threshold weight s s')
    (hold : s.brainVoted p b = false) (hnew : s'.brainVoted p b = true) :
    Crossed env p b s' := by
  rw [h.marks, marked, hold, Bool.false_or, decide_eq_true_eq] at hnew
  obtain ⟨-, hballot, helig⟩ := hnew
  have hpos : 0 < threshold := by
    apply Nat.pos_of_ne_zero
    rintro rfl
    cases hballot
  refine ⟨threshold, ?_, hpos, ?_⟩
  · rw [h.snapshot, h.staking]
    exact h.crossing
  · rw [h.snapshot, h.staking]
    exact of_decide_eq_true helig

/-- No step takes a mark back, moves the snapshot of a marked proposal, or counts but by
marking. -/
structure Marks (env : GovernorEnv G T) (x y : Timed (GovernorState G T)) : Prop where
  kept : ∀ p b, x.state.brainVoted p b = true → y.state.brainVoted p b = true
  tally : ∀ p, env.core.tally y.state.governor p =
    env.core.tally x.state.governor p + ∑ b, newly p b x.state y.state
  snapshot : ∀ p, 0 < env.core.proposalSnapshot x.state.governor p →
    env.core.proposalSnapshot y.state.governor p = env.core.proposalSnapshot x.state.governor p
  crossed : ∀ p b, x.state.brainVoted p b = false → y.state.brainVoted p b = true →
    Crossed env p b y.state ∧ 0 < env.core.proposalSnapshot y.state.governor p ∧
      env.core.proposalSnapshot y.state.governor p < y.now

theorem marks_still {x y : Timed (GovernorState G T)}
    (hvoted : y.state.brainVoted = x.state.brainVoted)
    (htally : env.core.tally y.state.governor = env.core.tally x.state.governor)
    (hsnapshot : ∀ p, 0 < env.core.proposalSnapshot x.state.governor p →
      env.core.proposalSnapshot y.state.governor p =
        env.core.proposalSnapshot x.state.governor p) : Marks env x y where
  kept p b hb := hvoted ▸ hb
  tally p := by
    have hnone : ∀ b, newly p b x.state y.state = 0 :=
      fun b => newly_same (congrFun (congrFun hvoted p) b)
    rw [htally, Finset.sum_congr rfl fun b _ => hnone b, Finset.sum_const_zero]
    rfl
  snapshot := hsnapshot
  crossed p b hold hnew := by
    rw [hvoted, hold] at hnew
    cases hnew

theorem governorStep_marks (h : GovernorStep env x l y) : Marks env x y := by
  cases h with
  | mk hle hmoment hstep =>
    cases hstep.1 with
    | castVote blk p account support params hcast =>
      obtain ⟨threshold, hcast⟩ := castVote_ok hcast
      have hat : StakingVault.clock blk = _ := hmoment
      refine ⟨fun q b hb => hcast.kept hb, fun q => ?_, fun q _ => ?_, fun q b hold hnew => ?_⟩
      · dsimp only
        rw [hcast.tally]
        by_cases hq : q = p
        · subst hq
          rw [set_same, hcast.weight_eq]
        · -- the other proposals' marks and tallies stay
          rw [set_of_ne _ _ hq, Finset.sum_congr rfl fun b _ => newly_same (hcast.other hq b),
            Finset.sum_const_zero]
          rfl
      · exact congrFun hcast.snapshot q
      · by_cases hq : q = p
        · subst hq
          refine ⟨hcast.crossed hold hnew, ?_, ?_⟩
          · dsimp only
            rw [hcast.snapshot]
            exact hcast.begun
          · dsimp only
            rw [hcast.snapshot, ← hat]
            exact hcast.past
        · rw [show _ = _ from hcast.other hq b, hold] at hnew
          cases hnew
    | moveBrain => exact marks_still rfl rfl fun _ _ => rfl
    | staking => exact marks_still rfl rfl fun _ _ => rfl
    | elsewhere governor htally hvoted hsnapshot => exact marks_still rfl htally hsnapshot

theorem uint48_le (n : Nat) : uint48 n ≤ n := Nat.mod_le _ _

theorem votesStep_inv (h : GovernorStep env x l y) (hi : VotesInv env x) : VotesInv env y := by
  have hmarks := governorStep_marks h
  have hle := h.le
  refine ⟨governorStep_remembered h hi.remembered, fun p => ?_, fun p b hb => ?_,
    fun p b hb => ?_⟩
  · -- the weight grows by the marks newly set
    rw [hmarks.tally, hi.weight, ← Finset.sum_add_distrib]
    exact Finset.sum_congr rfl fun b _ => (mark_add_newly (hmarks.kept p b)).symm
  · cases hold : x.state.brainVoted p b with
    | true =>
      obtain ⟨hpos, hlt⟩ := hi.begun p b hold
      rw [hmarks.snapshot p hpos]
      exact ⟨hpos, hlt.trans_le hle⟩
    | false => exact (hmarks.crossed p b hold hb).2
  · cases hold : x.state.brainVoted p b with
    | true =>
      obtain ⟨hpos, hlt⟩ := hi.begun p b hold
      -- the snapshot is past, so the histories keep what they say of it
      have hpast : uint48 (env.core.proposalSnapshot x.state.governor p) < y.now :=
        (uint48_le _).trans_lt (hlt.trans_le hle)
      exact (hi.crossed p b hold).keep (hmarks.snapshot p hpos) (governorStep_keeps h hpast)
    | false => exact (hmarks.crossed p b hold hb).1

theorem votesRun_inv (h : Run (GovernorStep env) x ls y) (hi : VotesInv env x) :
    VotesInv env y :=
  h.invariant (I := VotesInv env) votesStep_inv hi

theorem votesInv_start {s : GovernorState G T} (h : GovernorStart env s) :
    VotesInv env ⟨0, s⟩ := by
  obtain ⟨admin, hvault⟩ := h.vault
  -- nothing is marked yet
  have hnone : ∀ p b, s.brainVoted p b = false := by
    intro p b
    rw [h.brainVoted]
  refine ⟨?_, fun p => ?_, fun p b hb => ?_, fun p b hb => ?_⟩
  · rw [hvault]
    exact remembered_deploy 0 admin
  · have hmark : ∀ b, mark p b s = 0 := by
      intro b
      unfold mark
      rw [hnone]
      rfl
    dsimp only
    rw [h.tally, Finset.sum_congr rfl fun b _ => hmark b, Finset.sum_const_zero]
  · rw [hnone] at hb
    cases hb
  · rw [hnone] at hb
    cases hb

/-- The voting power of an account at another moment, by the same Brains and the same past. -/
theorem getVotes_same {v v' : StakingVault} {nft nft' : BrainNFTL2} {account : Address}
    (hpast : SamePast (uint48 t) v v')
    (hheld : nft'.ownedTokens account = nft.ownedTokens account) {threshold : Nat}
    (hthreshold : gigaBrainThreshold v (uint48 t) = .ok threshold)
    (haccount : threshold ≠ 0 → account ≠ 0) :
    getVotes v' nft' account t = getVotes v nft account t := by
  have hthreshold' : gigaBrainThreshold v' (uint48 t) = .ok threshold :=
    hpast.threshold.trans hthreshold
  have hballot : ballot nft' account threshold = ballot nft account threshold := by
    unfold ballot
    rw [hheld]
  rw [getVotes_eq hthreshold' haccount, getVotes_eq hthreshold haccount, hballot,
    hpast.eligible]

end Steps

/-! ## The results -/

/-- What holds of a vote of `account` for `p`, cast between two states of a run: it adds
what the Brains it marks add, at most what the account has at the snapshot, and exactly
that if none of its Brains was counted before. The account has as much at any other moment
of the voting at which it holds the same Brains. -/
structure Weighed {G T : Type} (env : GovernorEnv G T) (p : ProposalId) (account : Address)
    (weight : Nat) (x y : Timed (GovernorState G T)) : Prop where
  once : env.core.hasVoted x.state.governor p account = false
  tally : env.core.tally y.state.governor p = env.core.tally x.state.governor p + weight
  brains : weight = ∑ b, newly p b x.state y.state
  votes : ∃ votes,
    getVotes x.state.staking.vault x.state.nft account
      (env.core.proposalSnapshot x.state.governor p) = .ok votes ∧
    weight ≤ votes ∧
    ((∀ b ∈ x.state.nft.ownedTokens account, x.state.brainVoted p b = false) →
      weight = votes) ∧
    ∀ z ks, Run (GovernorStep env) z ks x ∨ Run (GovernorStep env) y ks z →
      env.core.proposalSnapshot x.state.governor p < z.now →
      z.state.nft.ownedTokens account = x.state.nft.ownedTokens account →
      getVotes z.state.staking.vault z.state.nft account
        (env.core.proposalSnapshot x.state.governor p) = .ok votes

section Results

variable {G T : Type} {env : GovernorEnv G T} {p : ProposalId} {x y : Timed (GovernorState G T)}
  {ls : List GovernorLabel}

/-- **A Brain adds at most one.** -/
theorem total_newly_le {b : BrainId} {n : Nat} (h : Total (GovernorStep env)
    (fun x y => newly p b x.state y.state) x ls y n) : n ≤ 1 := by
  have hread := Total.telescope (fun x : Timed (GovernorState G T) => mark p b x.state)
    (fun hstep => mark_add_newly ((governorStep_marks hstep).kept p b)) h
  have hle : mark p b y.state ≤ 1 := by
    unfold mark
    split <;> omega
  omega

/-- The marked Brains' stakes at the snapshot are parts of the total. -/
theorem weight_mul_le (hi : VotesInv env x) {threshold : Nat}
    (hthreshold : gigaBrainThreshold x.state.staking.vault
      (uint48 (env.core.proposalSnapshot x.state.governor p)) = .ok threshold) :
    env.core.tally x.state.governor p * threshold ≤ x.state.staking.vault.getPastTotalStaked
      (uint48 (env.core.proposalSnapshot x.state.governor p)) := by
  rw [hi.weight, Finset.sum_mul, ← hi.remembered.sums]
  apply Finset.sum_le_sum
  intro b _
  -- a marked Brain had the threshold's stake; another one counts for nothing
  unfold mark
  split
  case isTrue hb =>
    obtain ⟨threshold', hcrossing, -, hle⟩ := hi.crossed p b hb
    rw [hthreshold] at hcrossing
    cases hcrossing
    rw [Nat.one_mul]
    exact hle
  case isFalse =>
    rw [Nat.zero_mul]
    exact Nat.zero_le _

theorem step_weighed {blk : Block} {account : Address} {weight : Nat}
    (h : GovernorStep env x (.castVote blk p account weight) y) :
    Weighed env p account weight x y := by
  have hnow := h.le
  cases h with
  | mk hle hmoment hstep =>
    obtain ⟨hmove, -⟩ := hstep
    cases hmove with
    | castVote _ _ _ support params hcast =>
      obtain ⟨threshold, hcast⟩ := castVote_ok hcast
      have hat : StakingVault.clock blk = _ := hmoment
      obtain ⟨votes, hvotes, hbound, hequal⟩ := hcast.weight_le
      refine ⟨hcast.once, ?_, hcast.weight_eq, votes, hvotes, hbound, hequal, ?_⟩
      · dsimp only
        rw [hcast.tally, set_same]
      · intro z ks hrun hz hheld
        -- votes at a past point are the same read before the call or after
        rcases hrun with hbefore | hafter
        · have hpast := governorRun_keeps hbefore ((uint48_le _).trans_lt hz)
          have hcrossing := hcast.crossing
          dsimp only at hpast hcrossing
          rw [hpast.threshold] at hcrossing
          rw [← hvotes]
          exact (getVotes_same hpast hheld.symm hcrossing hcast.voter).symm
        · have hpast := governorRun_keeps hafter
            ((uint48_le _).trans_lt (hcast.past.trans_eq hat))
          dsimp only at hpast
          rw [hcast.staking] at hpast
          rw [← hvotes]
          exact getVotes_same hpast hheld hcast.crossing hcast.voter

end Results

/--
**GigaBrain votes cannot be multiplied.** In every run from a governor without proposals,
at moments that do not go back and with totals below `2 ^ 208`, and for every proposal: a
Brain adds at most one to the weight; the weight is the number of Brains marked; every one
of them had the threshold's stake at the snapshot; weight times threshold is at most the
total staked then; and every vote weighs at most what its voter has at the snapshot.
-/
theorem votes_not_multiplied {G T : Type} {env : GovernorEnv G T} {start s : GovernorState G T}
    {ls : List GovernorLabel} {now : Nat} (hstart : GovernorStart env start)
    (h : Run (GovernorStep env) ⟨0, start⟩ ls ⟨now, s⟩) (p : ProposalId) :
    (∀ b n, Total (GovernorStep env) (fun x y => newly p b x.state y.state)
      ⟨0, start⟩ ls ⟨now, s⟩ n → n ≤ 1) ∧
    env.core.tally s.governor p =
      (Finset.univ.filter fun b => s.brainVoted p b = true).card ∧
    (∀ b, s.brainVoted p b = true → Crossed env p b s) ∧
    (∀ threshold, gigaBrainThreshold s.staking.vault
        (uint48 (env.core.proposalSnapshot s.governor p)) = .ok threshold →
      env.core.tally s.governor p * threshold ≤ s.staking.vault.getPastTotalStaked
        (uint48 (env.core.proposalSnapshot s.governor p))) ∧
    ∀ x y blk account weight, Along (GovernorStep env) ⟨0, start⟩ ls ⟨now, s⟩ x
      (.castVote blk p account weight) y → Weighed env p account weight x y := by
  have hi : VotesInv env ⟨now, s⟩ := votesRun_inv h (votesInv_start hstart)
  refine ⟨fun b n => total_newly_le, ?_, hi.crossed p, fun threshold => weight_mul_le hi, ?_⟩
  · -- a sum of marks counts the Brains marked
    rw [show _ = _ from hi.weight p, Finset.card_filter]
    rfl
  · intro x y blk account weight halong
    exact step_weighed halong.taken

/-! ## Votes in a small governor -/

/-- Proposals with a voting period, and three tallies for each. -/
structure SimpleGovernor where
  voteStart : ProposalId → Nat
  voteEnd : ProposalId → Nat
  votes : ProposalId → Fin 256 → Nat
  hasVoted : ProposalId → Address → Bool

namespace SimpleGovernor

def state (g : SimpleGovernor) (now : Nat) (p : ProposalId) : Exec ProposalState :=
  if g.voteStart p = 0 then .error .governorNonexistentProposal
  else if now ≤ g.voteStart p then .ok .pending
  else if now ≤ g.voteEnd p then .ok .active
  else .ok .defeated

def countVote (g : SimpleGovernor) (p : ProposalId) (account : Address) (support : Fin 256)
    (weight : Nat) (_params : Bytes) : Exec SimpleGovernor := do
  revertIf (g.hasVoted p account = true) .governorAlreadyCastVote
  revertIf (2 < support) .governorInvalidVoteType
  return { g with
    hasVoted := set₂ g.hasVoted p account true
    votes := set₂ g.votes p support (g.votes p support + weight) }

def tally (g : SimpleGovernor) (p : ProposalId) : Nat :=
  g.votes p 0 + g.votes p 1 + g.votes p 2

theorem state_active {g : SimpleGovernor} {now : Nat} {p : ProposalId}
    (h : g.state now p = .ok .active) : 0 < g.voteStart p ∧ g.voteStart p < now := by
  unfold state at h
  split_ifs at h with hzero hpending hactive
  · cases h
  · exact ⟨Nat.pos_of_ne_zero hzero, Nat.lt_of_not_le hpending⟩
  · cases h

theorem countVote_exact {g g' : SimpleGovernor} {p : ProposalId} {account : Address}
    {support : Fin 256} {weight : Nat} {params : Bytes}
    (h : g.countVote p account support weight params = .ok g') :
    g.hasVoted p account = false ∧ g'.hasVoted = set₂ g.hasVoted p account true ∧
      g'.tally = set g.tally p (g.tally p + weight) ∧ g'.voteStart = g.voteStart := by
  simp only [countVote, bind_ok, revertIf_ok, return_ok, exists_const,
    Bool.not_eq_true] at h
  obtain ⟨honce, hsupport, rfl⟩ := h
  refine ⟨honce, rfl, ?_, rfl⟩
  funext q
  by_cases hq : q = p
  · subst hq
    rw [set_same]
    -- three kinds are supported, and each has its own counter
    have hkind : support = 0 ∨ support = 1 ∨ support = 2 := by omega
    unfold tally
    dsimp only
    rcases hkind with rfl | rfl | rfl
    · simp [set₂_apply]
      omega
    · simp [set₂_apply]
      omega
    · simp [set₂_apply]
      omega
  · rw [set_of_ne _ _ hq]
    unfold tally
    simp [set₂_apply, hq]

end SimpleGovernor

def simpleCore : GovernorCore SimpleGovernor where
  state := SimpleGovernor.state
  proposalSnapshot := SimpleGovernor.voteStart
  hasVoted := SimpleGovernor.hasVoted
  tally := SimpleGovernor.tally
  countVote := SimpleGovernor.countVote
  state_active := SimpleGovernor.state_active
  countVote_exact := SimpleGovernor.countVote_exact

def toyGovernor : GovernorEnv SimpleGovernor Ledger where
  core := simpleCore
  nft := ⟨30, fun _ _ => true⟩
  vault := ⟨ledgerToken, 1, StakingVault.one_ne_burn⟩

/-- Proposal 1 takes its snapshot at 500 and votes until 1000. -/
def toyVoting : GovernorState SimpleGovernor Ledger where
  governor := ⟨fun p => if p = 1 then 500 else 0, fun _ => 1000, fun _ _ => 0, fun _ _ => false⟩
  brainVoted _ _ := false
  nft := .deploy
  staking := ⟨toyLedger, .deploy 9⟩

theorem toyVoting_start : GovernorStart toyGovernor toyVoting where
  tally := rfl
  brainVoted := rfl
  vault := ⟨9, rfl⟩

/-- Account 4 votes with Brain 3; the Brain moves to account 5, which votes after it. -/
theorem toyVotes_facts : (do
    let staking ← VaultCall.exec toyGovernor.vault ⟨100, by decide⟩ 2 toyVoting.staking
      (.stake 3 7 1000)
    let nft ← BrainNFTL2Call.exec toyGovernor.nft 30 toyVoting.nft (.safeMint 4 3)
    let (s, weight) ← castVote toyGovernor ⟨600, by decide⟩ 1 4 1 []
      { toyVoting with nft := nft, staking := staking }
    let nft ← BrainNFTL2Call.exec toyGovernor.nft 30 s.nft (.burn 4 3)
    let nft' ← BrainNFTL2Call.exec toyGovernor.nft 30 nft (.safeMint 5 3)
    let (s', weight') ← castVote toyGovernor ⟨700, by decide⟩ 1 5 1 [] { s with nft := nft' }
    return [weight, weight', s'.governor.tally 1, s'.governor.voteStart 1,
      staking.vault.totalAssets] : Exec (List Nat)).toOption = some [1, 0, 1, 500, 1000] := by
  decide +kernel

/-- The Brain has added one vote in all. -/
theorem votes_not_multiplied_moved : ∃ ls s,
    Run (GovernorStep toyGovernor) ⟨0, toyVoting⟩ ls ⟨700, s⟩ ∧ s.governor.tally 1 = 1 ∧
    (Finset.univ.filter fun b => s.brainVoted 1 b = true).card = 1 := by
  have hfacts := toOption_ok.mp toyVotes_facts
  simp only [bind_ok, return_ok, List.cons.injEq, and_true, Prod.exists] at hfacts
  obtain ⟨staking, hstake, nft, hmint, s, weight, hvote, nft₁, hburn, nft₂, hmint', s', weight',
    hvote', -, -, htally, -, htotal⟩ := hfacts
  obtain ⟨_, hcast⟩ := castVote_ok hvote
  obtain ⟨_, hcast'⟩ := castVote_ok hvote'
  have hsmall : staking.vault.totalAssets < 2 ^ 208 := htotal.trans_lt (by decide)
  have hsmall₁ : s.staking.vault.totalAssets < 2 ^ 208 := by
    rw [hcast.staking]
    exact hsmall
  have hsmall₂ : s'.staking.vault.totalAssets < 2 ^ 208 := by
    rw [hcast'.staking]
    exact hsmall₁
  -- stake, mint, vote, move the Brain, vote again with it
  have hrun : Run (GovernorStep toyGovernor) ⟨0, toyVoting⟩ _ ⟨700, s'⟩ :=
    .cons (TimedStep.taken ⟨.staking (.call _ _ _ (by decide) hstake), hsmall⟩ rfl
      (Nat.zero_le 100))
    (.cons (TimedStep.taken ⟨.moveBrain _ _ hmint, hsmall⟩ trivial le_rfl)
    (.cons (TimedStep.taken ⟨.castVote ⟨600, by decide⟩ _ _ _ _ hvote, hsmall₁⟩ rfl
      (by decide))
    (.cons (TimedStep.taken ⟨.moveBrain _ _ hburn, hsmall₁⟩ trivial le_rfl)
    (.cons (TimedStep.taken ⟨.moveBrain _ _ hmint', hsmall₁⟩ trivial le_rfl)
    (.cons (TimedStep.taken ⟨.castVote ⟨700, by decide⟩ _ _ _ _ hvote', hsmall₂⟩ rfl
      (by decide))
    (.nil _))))))
  have hweight := (votes_not_multiplied toyVoting_start hrun 1).2.1
  exact ⟨_, s', hrun, htally, hweight.symm.trans htally⟩

/-! ## More than the histories hold -/

/-- Account 4 owns the Brains 3 and 4, and everybody has `2 ^ 208` tokens. -/
def toyFortune : GovernorState SimpleGovernor Ledger where
  governor := toyVoting.governor
  brainVoted _ _ := false
  nft := (BrainNFTL2.deploy.assign 4 3 rfl).assign 4 4 rfl
  staking := ⟨⟨fun _ => 411376139330301510538742295639337626245683966408394965837152256,
    fun _ _ => 2 ^ 256 - 1⟩, .deploy 9⟩

/-- `2 ^ 207` are staked on one Brain and one more on the other, and their owner votes. -/
theorem toyFortune_facts : (do
    let staking ← VaultCall.exec toyGovernor.vault ⟨100, by decide⟩ 2 toyFortune.staking
      (.stake 3 7 205688069665150755269371147819668813122841983204197482918576128)
    let staking' ← VaultCall.exec toyGovernor.vault ⟨100, by decide⟩ 5 staking
      (.stake 4 7 205688069665150755269371147819668813122841983204197482918576129)
    let (s, weight) ← castVote toyGovernor ⟨600, by decide⟩ 1 4 1 []
      { toyFortune with staking := staking' }
    let threshold ← gigaBrainThreshold s.staking.vault (uint48 (s.governor.voteStart 1))
    return [weight, s.governor.tally 1, threshold, s.staking.vault.getPastTotalStaked
      (uint48 (s.governor.voteStart 1))] : Exec (List Nat)).toOption = some [2, 2, 1, 1] := by
  decide +kernel

/-- The histories hold 208 bits: of a total of `2 ^ 208 + 1` they remember one unit, which
two Brains with the threshold's stake exceed. -/
theorem votes_exceed_total : ∃ ls s threshold,
    GovernorStart toyGovernor toyFortune ∧
    Run (TimedStep (GovernorMove toyGovernor) GovernorLabel.moment) ⟨0, toyFortune⟩ ls
      ⟨600, s⟩ ∧
    gigaBrainThreshold s.staking.vault
      (uint48 (simpleCore.proposalSnapshot s.governor 1)) = .ok threshold ∧
    ¬ simpleCore.tally s.governor 1 * threshold ≤ s.staking.vault.getPastTotalStaked
      (uint48 (simpleCore.proposalSnapshot s.governor 1)) := by
  have hfacts := toOption_ok.mp toyFortune_facts
  simp only [bind_ok, return_ok, List.cons.injEq, and_true, Prod.exists] at hfacts
  obtain ⟨staking, hstake, staking', hstake', s, weight, hvote, threshold, hthreshold, -, htally,
    hone, htotal⟩ := hfacts
  refine ⟨_, s, threshold, ⟨rfl, rfl, 9, rfl⟩,
    .cons (.taken (.staking (.call _ _ _ (by decide) hstake)) rfl (Nat.zero_le 100))
    (.cons (.taken (.staking (.call _ _ _ (by decide) hstake')) rfl le_rfl)
    (.single (.taken (.castVote ⟨600, by decide⟩ _ _ _ _ hvote) rfl (by decide)))),
    hthreshold, ?_⟩
  have htally' : simpleCore.tally s.governor 1 = 2 := htally
  have htotal' : s.staking.vault.getPastTotalStaked
    (uint48 (simpleCore.proposalSnapshot s.governor 1)) = 1 := htotal
  -- two votes at a threshold of 1 against a remembered total of 1
  rw [htally', htotal', hone]
  decide

end BasedAI
