import BasedAI.Governance.BasedGovernor

/-!
# BasedAI — one vote

What `_getVotes` and `_castVote` count. Both enumerate the first Brains of an account's
list; a vote besides passes over the Brains that were counted before, and marks the ones
it counts.

* `castVoteLoop_eq`, `getVotesLoop_eq` — what the two loops return;
* `VoteCast`, `castVote_ok` — what a vote has checked, and what it did;
* `VoteCast.weight_eq`, `VoteCast.weight_le` — its weight, by the Brains it marks.
-/

namespace BasedAI

open Fallible Mapping Transition BasedGovernor

/-! ## The loops -/

section Loops

variable {vault : StakingVault} {nft : BrainNFTL2} {account : Address} {tp threshold : Nat}
  {p : ProposalId}

/-- Whether a Brain is a GigaBrain by the stakes at `tp`. -/
def eligible (vault : StakingVault) (tp threshold : Nat) (b : BrainId) : Bool :=
  threshold ≤ vault.getPastBrainStake b tp

/-- The Brains a loop over `rounds` indices from `i` on reads. -/
def slice (nft : BrainNFTL2) (account : Address) (rounds i : Nat) : List BrainId :=
  ((nft.ownedTokens account).drop i).take rounds

theorem slice_succ {rounds i : Nat} (h : i + (rounds + 1) ≤ (nft.ownedTokens account).length) :
    ∃ b, nft.tokenOfOwnerByIndex account i = .ok b ∧
      slice nft account (rounds + 1) i = b :: slice nft account rounds (i + 1) := by
  have hi : i < (nft.ownedTokens account).length := by omega
  refine ⟨(nft.ownedTokens account)[i], ?_, ?_⟩
  · unfold BrainNFTL2.tokenOfOwnerByIndex
    rw [List.getElem?_eq_getElem hi]
    rfl
  · unfold slice
    rw [List.drop_eq_getElem_cons hi, List.take_succ_cons]

theorem slice_nodup (nft : BrainNFTL2) (account : Address) (rounds i : Nat) :
    (slice nft account rounds i).Nodup :=
  ((nft.nodup account).sublist (List.drop_sublist _ _)).sublist (List.take_sublist _ _)

theorem getVotesLoop_eq {rounds i votes : Nat}
    (hindex : i + rounds ≤ (nft.ownedTokens account).length)
    (hfits : votes + rounds < 2 ^ 256) :
    getVotesLoop vault nft account tp threshold rounds i votes =
      .ok (votes + (slice nft account rounds i).countP (eligible vault tp threshold)) := by
  -- the loop walks a slice of the tokens from the front
  induction rounds generalizing i votes with
  | zero => rfl
  | succ rounds ih =>
    obtain ⟨b, hb, hslice⟩ := slice_succ hindex
    rw [hslice, getVotesLoop, hb, ok_bind]
    by_cases he : threshold ≤ vault.getPastBrainStake b tp
    · have hcount : eligible vault tp threshold b = true := decide_eq_true he
      rw [if_pos he, add256, checkedAdd_eq (by omega), ok_bind, ih (by omega) (by omega),
        List.countP_cons_of_pos hcount]
      congr 1
      omega
    · have hcount : ¬ eligible vault tp threshold b = true := by
        unfold eligible
        rw [decide_eq_true_eq]
        exact he
      rw [if_neg he, ih (by omega) (by omega), List.countP_cons_of_neg hcount]

/-- The marks after a vote for `p` has read the Brains of a list. -/
def marked (voted : ProposalId → BrainId → Bool) (p : ProposalId) (elig : BrainId → Bool)
    (brains : List BrainId) : ProposalId → BrainId → Bool :=
  fun p' b => voted p' b || decide (p' = p ∧ b ∈ brains ∧ elig b = true)

/-- The Brains of a list that a vote counts. -/
def fresh (voted : ProposalId → BrainId → Bool) (p : ProposalId) (elig : BrainId → Bool)
    (brains : List BrainId) : Nat :=
  brains.countP fun b => elig b && !voted p b

section Marks

variable {voted : ProposalId → BrainId → Bool} {elig : BrainId → Bool} {b : BrainId}
  {brains : List BrainId}

/-- A Brain that is not eligible, or was counted before, is passed over. -/
theorem marked_cons_skip (h : elig b = false ∨ voted p b = true) :
    marked voted p elig (b :: brains) = marked voted p elig brains := by
  funext p' b'
  unfold marked
  by_cases hkey : p' = p ∧ b' = b
  · obtain ⟨rfl, rfl⟩ := hkey
    rcases h with h | h
    · simp [h]
    · simp [h]
  · have hmem : (p' = p ∧ b' ∈ b :: brains ∧ elig b' = true) ↔
        (p' = p ∧ b' ∈ brains ∧ elig b' = true) := by
      rw [List.mem_cons]
      exact ⟨fun ⟨hp, hb, he⟩ => ⟨hp, hb.resolve_left fun heq => hkey ⟨hp, heq⟩, he⟩,
        fun ⟨hp, hb, he⟩ => ⟨hp, .inr hb, he⟩⟩
    rw [decide_eq_decide.mpr hmem]

theorem fresh_cons_skip (h : elig b = false ∨ voted p b = true) :
    fresh voted p elig (b :: brains) = fresh voted p elig brains := by
  have hout : ¬ (elig b && !voted p b) = true := by
    rcases h with h | h
    · simp [h]
    · simp [h]
  exact List.countP_cons_of_neg hout

/-- Any other is marked, -/
theorem marked_cons_mark (h : elig b = true) :
    marked voted p elig (b :: brains) = marked (set₂ voted p b true) p elig brains := by
  funext p' b'
  unfold marked
  rw [set₂_apply]
  by_cases hkey : p' = p ∧ b' = b
  · obtain ⟨rfl, rfl⟩ := hkey
    simp [h]
  · have hmem : (p' = p ∧ b' ∈ b :: brains ∧ elig b' = true) ↔
        (p' = p ∧ b' ∈ brains ∧ elig b' = true) := by
      rw [List.mem_cons]
      exact ⟨fun ⟨hp, hb, he⟩ => ⟨hp, hb.resolve_left fun heq => hkey ⟨hp, heq⟩, he⟩,
        fun ⟨hp, hb, he⟩ => ⟨hp, .inr hb, he⟩⟩
    rw [if_neg hkey, decide_eq_decide.mpr hmem]

/-- and counted; the mark does not concern the rest, where the Brain is not met again. -/
theorem fresh_cons_mark (h : elig b = true) (hnew : voted p b = false) (hout : b ∉ brains) :
    fresh voted p elig (b :: brains) = 1 + fresh (set₂ voted p b true) p elig brains := by
  have hcount : (elig b && !voted p b) = true := by simp [h, hnew]
  have hrest : fresh (set₂ voted p b true) p elig brains = fresh voted p elig brains := by
    apply List.countP_congr
    intro b' hb'
    have hne : ¬ (p = p ∧ b' = b) := fun heq => hout (heq.2 ▸ hb')
    rw [set₂_of_ne _ _ hne]
  rw [hrest, Nat.add_comm]
  exact List.countP_cons_of_pos hcount

end Marks

theorem castVoteLoop_eq {rounds i weight : Nat} {voted : ProposalId → BrainId → Bool}
    (hindex : i + rounds ≤ (nft.ownedTokens account).length)
    (hfits : weight + rounds < 2 ^ 256) :
    castVoteLoop vault nft p account tp threshold rounds i voted weight =
      .ok (marked voted p (eligible vault tp threshold) (slice nft account rounds i),
        weight + fresh voted p (eligible vault tp threshold) (slice nft account rounds i)) := by
  induction rounds generalizing i voted weight with
  | zero =>
    have hmarked : marked voted p (eligible vault tp threshold) [] = voted := by
      funext p' b
      simp [marked]
    show Except.ok (voted, weight) = .ok (marked voted p _ [], weight + 0)
    rw [hmarked, Nat.add_zero]
  | succ rounds ih =>
    obtain ⟨b, hb, hslice⟩ := slice_succ hindex
    have hdistinct := slice_nodup nft account (rounds + 1) i
    rw [hslice] at hdistinct ⊢
    obtain ⟨hout, -⟩ := List.nodup_cons.mp hdistinct
    rw [castVoteLoop, hb, ok_bind]
    -- a Brain below the threshold is passed over, whether it voted or not
    by_cases hstake : vault.getPastBrainStake b tp < threshold
    · have hskip : eligible vault tp threshold b = false ∨ voted p b = true :=
        .inl (decide_eq_false (Nat.not_le.mpr hstake))
      rw [if_pos hstake, ih (by omega) (by omega), marked_cons_skip hskip,
        fresh_cons_skip hskip]
    · have helig : eligible vault tp threshold b = true :=
        decide_eq_true (Nat.not_lt.mp hstake)
      rw [if_neg hstake]
      by_cases hvoted : voted p b = true
      · have hskip : eligible vault tp threshold b = false ∨ voted p b = true := .inr hvoted
        rw [if_pos hvoted, ih (by omega) (by omega), marked_cons_skip hskip,
          fresh_cons_skip hskip]
      · -- it counts once: the tokens of the slice are distinct
        have hnew : voted p b = false := Bool.eq_false_of_not_eq_true hvoted
        rw [if_neg hvoted, add256, checkedAdd_eq (by omega), ok_bind, ih (by omega) (by omega),
          marked_cons_mark helig, fresh_cons_mark helig hnew hout]
        congr 2
        omega

end Loops

/-! ## One vote -/

/-- The Brains a vote reads: the first of its voter's list, once there is a threshold. -/
def ballot (nft : BrainNFTL2) (account : Address) (threshold : Nat) : List BrainId :=
  if threshold = 0 then [] else (nft.ownedTokens account).take MAX_BRAINS_PER_VOTER

theorem ballot_nodup (nft : BrainNFTL2) (account : Address) (threshold : Nat) :
    (ballot nft account threshold).Nodup := by
  unfold ballot
  split
  · exact List.nodup_nil
  · exact (nft.nodup account).sublist (List.take_sublist _ _)

section Vote

variable {G T : Type} {env : GovernorEnv G T} {blk : Block} {p : ProposalId}
  {account : Address} {tp threshold weight : Nat} {s s' : GovernorState G T}

/-- The Brains enumerated are the first of the list. -/
theorem enumerated_ok {nft : BrainNFTL2} {rounds : Nat}
    (h : enumerated nft account = .ok rounds) :
    account ≠ 0 ∧ rounds ≤ MAX_BRAINS_PER_VOTER ∧
      rounds ≤ (nft.ownedTokens account).length ∧
      slice nft account rounds 0 = (nft.ownedTokens account).take MAX_BRAINS_PER_VOTER := by
  simp only [enumerated, BrainNFTL2.balanceOf, bind_ok, revertIf_ok, return_ok,
    exists_const] at h
  obtain ⟨_, ⟨haccount, rfl⟩, rfl⟩ := h
  unfold slice
  rw [List.drop_zero]
  split
  case isTrue hmany => exact ⟨haccount, le_rfl, Nat.le_of_lt hmany, rfl⟩
  case isFalse hfew =>
    have hle := Nat.le_of_not_lt hfew
    refine ⟨haccount, hle, le_rfl, ?_⟩
    rw [List.take_length, List.take_of_length_le hle]

theorem weigh_ok {voted : ProposalId → BrainId → Bool}
    (h : weigh p account tp threshold s = .ok (voted, weight)) :
    (threshold ≠ 0 → account ≠ 0) ∧
      voted = marked s.brainVoted p (eligible s.staking.vault tp threshold)
        (ballot s.nft account threshold) ∧
      weight = fresh s.brainVoted p (eligible s.staking.vault tp threshold)
        (ballot s.nft account threshold) := by
  unfold weigh at h
  unfold ballot
  split at h
  case isTrue hthreshold =>
    simp only [bind_ok] at h
    obtain ⟨rounds, hrounds, hloop⟩ := h
    obtain ⟨haccount, hmax, hlength, hslice⟩ := enumerated_ok hrounds
    unfold MAX_BRAINS_PER_VOTER at hmax
    rw [castVoteLoop_eq (by omega) (by omega), hslice, Nat.zero_add] at hloop
    rw [if_neg hthreshold]
    cases hloop
    exact ⟨fun _ => haccount, rfl, rfl⟩
  -- a threshold of 0 gives no votes
  case isFalse hthreshold =>
    rw [if_pos (not_not.mp hthreshold)]
    obtain ⟨rfl, rfl⟩ := Prod.mk.inj (return_ok.mp h)
    refine ⟨fun hne => absurd hne hthreshold, ?_, rfl⟩
    funext p' b
    simp [marked]

/-- What the same account's votes would be if no Brain had been counted. -/
theorem getVotes_eq {vault : StakingVault} {nft : BrainNFTL2} {timepoint : Nat}
    (hthreshold : gigaBrainThreshold vault (uint48 timepoint) = .ok threshold)
    (haccount : threshold ≠ 0 → account ≠ 0) :
    getVotes vault nft account timepoint = .ok ((ballot nft account threshold).countP
      (eligible vault (uint48 timepoint) threshold)) := by
  unfold getVotes ballot
  dsimp only
  rw [hthreshold, ok_bind]
  by_cases hzero : threshold = 0
  · rw [if_pos hzero, if_pos hzero]
    rfl
  · rw [if_neg hzero, if_neg hzero]
    -- the account is not 0 and so has a balance
    obtain ⟨rounds, hrounds⟩ : ∃ rounds, enumerated nft account = .ok rounds := by
      simp only [enumerated, BrainNFTL2.balanceOf, bind_ok, revertIf_ok, return_ok,
        exists_const]
      exact ⟨_, _, ⟨haccount hzero, rfl⟩, rfl⟩
    obtain ⟨-, hmax, hlength, hslice⟩ := enumerated_ok hrounds
    unfold MAX_BRAINS_PER_VOTER at hmax
    rw [hrounds, ok_bind, getVotesLoop_eq (by omega) (by omega), hslice, Nat.zero_add]

/-- What a vote of `account` on `p` has checked, and what it did. -/
structure VoteCast (env : GovernorEnv G T) (blk : Block) (p : ProposalId) (account : Address)
    (threshold weight : Nat) (s s' : GovernorState G T) : Prop where
  begun : 0 < env.core.proposalSnapshot s.governor p
  past : env.core.proposalSnapshot s.governor p < StakingVault.clock blk
  once : env.core.hasVoted s.governor p account = false
  crossing : gigaBrainThreshold s.staking.vault
    (uint48 (env.core.proposalSnapshot s.governor p)) = .ok threshold
  voter : threshold ≠ 0 → account ≠ 0
  marks : s'.brainVoted = marked s.brainVoted p (eligible s.staking.vault
    (uint48 (env.core.proposalSnapshot s.governor p)) threshold) (ballot s.nft account threshold)
  counted : weight = fresh s.brainVoted p (eligible s.staking.vault
    (uint48 (env.core.proposalSnapshot s.governor p)) threshold) (ballot s.nft account threshold)
  tally : env.core.tally s'.governor =
    set (env.core.tally s.governor) p (env.core.tally s.governor p + weight)
  snapshot : env.core.proposalSnapshot s'.governor = env.core.proposalSnapshot s.governor
  nft : s'.nft = s.nft
  staking : s'.staking = s.staking

theorem castVote_ok {support : Fin 256} {params : Bytes}
    (h : castVote env blk p account support params s = .ok (s', weight)) :
    ∃ threshold, VoteCast env blk p account threshold weight s s' := by
  simp only [castVote, bind_ok, revertIf_ok, return_ok, exists_const, ne_eq, not_not] at h
  obtain ⟨_, hstate, rfl, threshold, hthreshold, ⟨voted, w⟩, hweigh, governor, hcount, h⟩ := h
  obtain ⟨rfl, rfl⟩ := Prod.mk.inj h
  obtain ⟨hbegun, hpast⟩ := env.core.state_active hstate
  obtain ⟨honce, -, htally, hsnapshot⟩ := env.core.countVote_exact hcount
  obtain ⟨haccount, hmarks, hweight⟩ := weigh_ok hweigh
  exact ⟨threshold, hbegun, hpast, honce, hthreshold, haccount, hmarks, hweight, htally,
    hsnapshot, rfl, rfl⟩

end Vote

/-! ## What a Brain adds -/

section Newly

variable {G T : Type} {env : GovernorEnv G T} {blk : Block} {p : ProposalId}
  {account : Address} {threshold weight : Nat} {s s' : GovernorState G T}

/-- Whether a Brain has been counted for `p`, as a number. -/
def mark (p : ProposalId) (b : BrainId) (s : GovernorState G T) : Nat :=
  if s.brainVoted p b then 1 else 0

/-- What a Brain adds to the weight of `p` between two states: one, if it was counted. -/
def newly (p : ProposalId) (b : BrainId) (s s' : GovernorState G T) : Nat :=
  if s.brainVoted p b = false ∧ s'.brainVoted p b = true then 1 else 0

theorem newly_same {b : BrainId} (h : s'.brainVoted p b = s.brainVoted p b) :
    newly p b s s' = 0 := by
  unfold newly
  rw [h, if_neg]
  rintro ⟨hnot, hvoted⟩
  rw [hnot] at hvoted
  cases hvoted

/-- A mark that is not taken back is what was newly marked. -/
theorem mark_add_newly {b : BrainId} (hkept : s.brainVoted p b = true → s'.brainVoted p b = true) :
    mark p b s' = mark p b s + newly p b s s' := by
  unfold mark newly
  cases hb : s.brainVoted p b with
  | true => simp [hkept hb]
  | false =>
    cases hb' : s'.brainVoted p b with
    | true => simp
    | false => simp

theorem VoteCast.kept (h : VoteCast env blk p account threshold weight s s') {q : ProposalId}
    {b : BrainId} (hb : s.brainVoted q b = true) : s'.brainVoted q b = true := by
  rw [h.marks, marked, hb]
  rfl

/-- The marks for other proposals stay. -/
theorem VoteCast.other (h : VoteCast env blk p account threshold weight s s') {q : ProposalId}
    (hq : q ≠ p) (b : BrainId) : s'.brainVoted q b = s.brainVoted q b := by
  rw [h.marks, marked]
  simp [hq]

/-- **The weight of a vote is what the Brains add.** -/
theorem VoteCast.weight_eq (h : VoteCast env blk p account threshold weight s s') :
    weight = ∑ b, newly p b s s' := by
  have hfresh : ∀ b, (s.brainVoted p b = false ∧ s'.brainVoted p b = true) ↔
      b ∈ (ballot s.nft account threshold).filter fun b =>
        eligible s.staking.vault (uint48 (env.core.proposalSnapshot s.governor p)) threshold b &&
          !s.brainVoted p b := by
    intro b
    rw [h.marks, marked, List.mem_filter]
    cases s.brainVoted p b with
    | true => simp
    | false => simp
  have hcard : ∑ b, newly p b s s' = (Finset.univ.filter fun b =>
      s.brainVoted p b = false ∧ s'.brainVoted p b = true).card := by
    rw [Finset.card_filter]
    rfl
  have hset : (Finset.univ.filter fun b => s.brainVoted p b = false ∧ s'.brainVoted p b = true) =
      ((ballot s.nft account threshold).filter fun b =>
        eligible s.staking.vault (uint48 (env.core.proposalSnapshot s.governor p)) threshold b &&
          !s.brainVoted p b).toFinset := by
    ext b
    rw [Finset.mem_filter, List.mem_toFinset, ← hfresh]
    simp
  -- a ballot names a Brain once, so its length counts Brains
  rw [hcard, hset, List.toFinset_card_of_nodup ((ballot_nodup _ _ _).filter _), h.counted]
  exact List.countP_eq_length_filter

/-- It is at most what the voter has, and no less unless a Brain was counted before. -/
theorem VoteCast.weight_le (h : VoteCast env blk p account threshold weight s s') :
    ∃ votes, getVotes s.staking.vault s.nft account
        (env.core.proposalSnapshot s.governor p) = .ok votes ∧
      weight ≤ votes ∧
      ((∀ b ∈ s.nft.ownedTokens account, s.brainVoted p b = false) → weight = votes) := by
  refine ⟨_, getVotes_eq h.crossing h.voter, ?_, fun hnone => ?_⟩
  · rw [h.counted]
    exact List.countP_mono_left fun b _ hb => (Bool.and_eq_true_iff.mp hb).1
  · rw [h.counted]
    apply List.countP_congr
    intro b hb
    -- a ballot is a beginning of what the account holds
    have hheld : b ∈ s.nft.ownedTokens account := by
      unfold ballot at hb
      split at hb
      · cases hb
      · exact List.mem_of_mem_take hb
    rw [hnone b hheld]
    simp

end Newly

end BasedAI
