import BasedAI.Scoring.Quorum
import BasedAI.Validator.CanonicalRoots
import BasedAI.Validator.CommitmentService

/-!
# BasedAI — the root a quorum stands by

The validators sign the canonical root that was frozen for the epoch, and post their signatures
with the root as the service spells it. Others may endorse whatever they like: the spelling that
a quorum stands by, and no other, leads, so with the next request after the epoch the root goes
to the registry, which takes it. Anyone may hand in a signature, and in another spelling it would
count for another root: a quorum stands by a spelling only if nothing of theirs came in another.

* `Loyal.leads`       — the spelling a quorum stands by leads, however the others vote;
* `quorum_root_taken` — its root is submitted, taken and on record.
-/

namespace BasedAI

open Fallible Python Transition CommitmentAggregator WeightedQuorum ScoringRegistry

/-! ## Loyal signers -/

/-- Validators whose signatures came in one spelling, and in no other. -/
structure Loyal (votes : List Endorsement) (t : Text) (hs : List Address) : Prop where
  nodup : hs.Nodup
  endorsed : ∀ a ∈ hs, a ∈ signersUnder votes t
  only : ∀ v ∈ votes, v.signer ∈ hs → v.spelling = t

section Loyal

variable {vault : StakingVault} {b : BrainId} {votes : List Endorsement} {t : Text}
  {hs : List Address} {a : Address}

/-- They are among those who endorsed the spelling. -/
theorem Loyal.weight_le (h : Loyal votes t hs) :
    weightOf (vault.validatorStake b) hs ≤ backing vault b votes t := by
  have hunder : (signersUnder votes t).Nodup := List.nodup_dedup _
  rw [backing, weightOf_eq_sum h.nodup, weightOf_eq_sum hunder]
  apply Finset.sum_le_sum_of_subset
  intro a ha
  exact List.mem_toFinset.mpr (h.endorsed a (List.mem_toFinset.mp ha))

theorem Loyal.quorum (h : Loyal votes t hs) (hquorum : HasQuorum vault b hs) :
    HasQuorum vault b (signersUnder votes t) :=
  ⟨hquorum.1, hquorum.2.trans h.weight_le⟩

/-- Any other spelling has less behind it, since the quorum is not among its signers. -/
theorem Loyal.outweighs (h : Loyal votes t hs) (hv : VaultInv vault)
    (hquorum : HasQuorum vault b hs) {t' : Text} (hne : t' ≠ t) :
    backing vault b votes t' < backing vault b votes t := by
  have hmajority : vault.brainStake b < 2 * weightOf (vault.validatorStake b) hs :=
    quorum_majority hquorum.1 hquorum.2
  -- with as much behind another spelling, someone would have endorsed both
  have hsum : vault.brainStake b = ∑ w, vault.validatorStake b w := hv.brain_sum b
  have hle : weightOf (vault.validatorStake b) hs ≤ backing vault b votes t := h.weight_le
  by_contra hover
  have hboth : ∑ w, vault.validatorStake b w <
      weightOf (vault.validatorStake b) (signersUnder votes t') +
        weightOf (vault.validatorStake b) hs := by
    unfold backing at hover hle
    omega
  obtain ⟨w, hunder, hmem, -⟩ := exists_common (List.nodup_dedup _) h.nodup hboth
  obtain ⟨v, hv', hspelling, rfl⟩ := mem_signersUnder.mp hunder
  exact hne (hspelling.symm.trans (h.only v hv' hmem))

/-- **The spelling a quorum stands by leads.** -/
theorem Loyal.leads (h : Loyal votes t hs) (hv : VaultInv vault)
    (hquorum : HasQuorum vault b hs) : leading vault b votes = some t := by
  -- a quorum is not empty
  have hsome : ∃ a, a ∈ hs := by
    apply List.exists_mem_of_ne_nil
    rintro rfl
    have htotal := hquorum.1
    have hneed := hquorum.2
    rw [weightOf, List.map_nil, List.sum_nil, MIN_QUORUM_BPS] at hneed
    omega
  obtain ⟨a, ha⟩ := hsome
  obtain ⟨v, hmem, hspelling, -⟩ := mem_signersUnder.mp (h.endorsed a ha)
  have hleads : Leads vault b votes t := by
    intro v' _
    by_cases hsame : v'.spelling = t
    · rw [hsame]
    · exact (h.outweighs hv hquorum hsame).le
  cases hfound : leading vault b votes with
  | none =>
    -- `t` was endorsed and has the most behind it, so something is found
    have hnone := List.find?_eq_none.mp hfound t (List.mem_map.mpr ⟨v, hmem, hspelling⟩)
    exact absurd (decide_eq_true hleads) hnone
  | some t' =>
    unfold leading at hfound
    have hfirst : Leads vault b votes t' := by
      have hdecide := List.find?_some hfound
      exact of_decide_eq_true hdecide
    -- what is found first has no less behind it than `t`, and then it is `t`
    have hle := hfirst v hmem
    rw [hspelling] at hle
    by_contra hne
    have hlt := h.outweighs hv hquorum fun hsame : t' = t => hne (congrArg some hsame)
    omega

/-- The signature that is kept for a signer is one that was handed in for it. -/
theorem lastSignature_mem (h : a ∈ signersUnder votes t) :
    ∃ v ∈ votes, v.spelling = t ∧ v.signer = a ∧ v.signature = lastSignature votes t a := by
  obtain ⟨v, hmem, ht, ha⟩ := mem_signersUnder.mp h
  have hin : v ∈ votes.filter fun v => v.spelling = t ∧ v.signer = a :=
    List.mem_filter.mpr ⟨hmem, decide_eq_true ⟨ht, ha⟩⟩
  unfold lastSignature
  rcases List.eq_nil_or_concat (votes.filter fun v => v.spelling = t ∧ v.signer = a) with
    hnil | ⟨rest, last, hlast⟩
  · rw [hnil] at hin
    exact absurd hin List.not_mem_nil
  · have hlastin : last ∈ votes.filter fun v => v.spelling = t ∧ v.signer = a := by
      rw [hlast]
      simp
    obtain ⟨hmem', hboth⟩ := List.mem_filter.mp hlastin
    obtain ⟨ht', ha'⟩ := of_decide_eq_true hboth
    refine ⟨last, hmem', ht', ha', ?_⟩
    rw [hlast]
    simp

end Loyal

/-! ## The root of a quorum -/

section Root

variable {T : Type} {env : ScoringEnv T} {o : Offchain} {domain : CommitmentDomain}
  {s : AggregatorState T} {ls : List AggregatorLabel} {blk : Block} {access : ChainAccess}
  {body : Option Json} {e : Epoch} {b : BrainId} {root : Bytes32} {hs : List Address}

/-- What is known of an epoch that a request has a root proposed for: it is over, it has no root,
nothing was sent for it, and the request adds an endorsement. -/
structure Awaits (env : ScoringEnv T) (o : Offchain) (domain : CommitmentDomain)
    (s : AggregatorState T) (blk : Block) (body : Option Json) (e : Epoch) (b : BrainId) :
    Prop where
  taken : ∃ v, takenOf o domain body = some v ∧ v.epoch = e.val ∧ v.brainId = b.val
  completed : e.val < currentEpoch env blk
  unsent : ∀ p ∈ s.sent, ¬ (p.epoch = e.val ∧ p.brainId = b.val)
  new : (s.chain.registry.epochs e b).merkleRoot = 0

/--
**The root of a quorum is taken.** In every run of the service and the chain, whatever others
handed in, in whatever spelling: where validators who hold the quorum of a Brain stand by one
root as the service spells it, the next request that adds an endorsement for the epoch, once it
is over, has this root submitted; the registry takes it, and it is the root of the epoch. All
reads of that request must be answered, and find the chain in one state, in which and in whose
block the proposal is then executed as well; what earlier requests read is of no account. The
contract must recover everyone who endorsed this spelling from what was handed in for them, and
its arithmetic must not overflow.
-/
theorem quorum_root_taken {now : Nat} {t₀ : T} {admin : Address}
    (hrun : Run (AggregatorStep env o domain) (.start (.deploy now t₀ admin)) ls s)
    (hanswers : access.Answers o.crypto env blk s.chain) (hroot : root ≠ 0)
    (hawaits : Awaits env o domain s blk body e b)
    (hloyal : Loyal (s.votesWith o domain body e b) (hexText root) hs)
    (hquorum : HasQuorum s.chain.staking.vault b hs)
    (hfits : QuorumFits s.chain.staking.vault b)
    (hsigned : ∀ v ∈ s.votesWith o domain body e b, v.spelling = hexText root →
      v.signer ≠ 0 ∧ ∃ signature, storedBytes v.signature = .ok signature ∧
        env.crypto.recover (commitmentDigest env e b root) signature = some v.signer) :
    ∃ p call c, (s.aggregator.commitments o domain access body).submitted = some p ∧
      encodeProposal p = .ok call ∧ call.exec env blk s.chain = .ok c ∧
      (c.registry.epochs e b).merkleRoot = root := by
  have hinv := aggregator_determined hrun
  have hbytes : fromHex ((hexText root).drop 2) = some (wordBytes root) := by
    rw [hexText_drop, fromHex_hexlify]
  have hdue : Due env o domain s blk body e b (hexText root) (wordBytes root) :=
    ⟨hawaits.taken, hawaits.completed, hawaits.unsent, hloyal.leads hinv.vault hquorum,
      hloyal.quorum hquorum, hbytes⟩
  -- every signature that is kept is one that was handed in
  have hpresent : Presentable env e b (s.votesWith o domain body e b) (hexText root) root := by
    refine ⟨rootOfText_hexText root, hroot, .inl (isPrefixOf_0x _), ?_⟩
    intro a ha
    obtain ⟨v, hv, hspelling, rfl, hlast⟩ := lastSignature_mem ha
    rw [← hlast]
    exact hsigned v hv hspelling
  obtain ⟨call, c, hcall, hexec⟩ := (proposalOf_taken hinv.vault hawaits.completed hawaits.new
    (rootOfText_hexText root) hbytes (hloyal.quorum hquorum)).mpr ⟨hfits, hpresent⟩
  refine ⟨_, call, c, hdue.submitted hinv hanswers, hcall, hexec, ?_⟩
  -- the bytes that are sent spell the root
  obtain ⟨root', signatures, hencoded, -, rfl⟩ := encodeProposal_proposalOf.mp hcall
  obtain rfl := Except.ok.inj ((encodeBytes32_wordBytes root).symm.trans hencoded)
  have hproposed : proposeEpoch env blk e b root _ signatures s.chain = .ok c := hexec
  obtain ⟨-, -, -, -, -, -, -, -, -, rfl⟩ := proposeEpoch_ok hproposed
  simp [withEpoch_epochs, accepted]

end Root

/-! ## A root that is taken -/

/-- The digits are those of root 5. -/
theorem hexText_five : hexText 5 = text "0x" ++ fiveDigits := rfl

/-- The signature of validator 8 on it. -/
theorem toySecond_signed :
    toyRegistry.crypto.recover (commitmentDigest toyRegistry 0 3 5) [8, 5] = some 8 := by
  rw [toyFive_recover]
  decide

/-- Validators 7 and 8 hold the quorum of Brain 3 together, and the second of their endorsements
has root 5 taken. -/
theorem quorum_root_taken_five : ∃ (s : AggregatorState Ledger) (access : ChainAccess)
    (p : Proposal) (call : ScoringCall) (c : ScoringState Ledger),
    ¬ HasQuorum s.chain.staking.vault 3 [7] ∧
      (s.aggregator.commitments toyOffchain registryDomain access (some toySecond)).submitted =
        some p ∧ encodeProposal p = .ok call ∧
      call.exec toyRegistry ⟨3600, by decide⟩ s.chain = .ok c ∧
      (c.registry.epochs 0 3).merkleRoot = 5 := by
  obtain ⟨ls, s, hrun, htotal, hseven, height, hnew, hsent, hvotes⟩ := toyUnsent
  have hanswers := toyAccess_answers s.chain ⟨3600, by decide⟩
  obtain ⟨hquorum, hnone⟩ := toyVotes_quorum htotal hseven height
  rw [← hexText_five] at hvotes
  have hawaits : Awaits toyRegistry toyOffchain registryDomain s ⟨3600, by decide⟩
      (some toySecond) 0 3 := by
    refine ⟨⟨_, toySecond_taken, rfl, rfl⟩, by decide, ?_, hnew⟩
    rw [hsent]
    exact fun p hp => absurd hp List.not_mem_nil
  have hloyal : Loyal [plainVote (hexText 5), secondVote (hexText 5)] (hexText 5) [7, 8] := by
    refine ⟨by decide, ?_, ?_⟩
    · intro a ha
      rw [(toyVotes_lead s.chain.staking.vault (hexText 5)).2]
      exact ha
    · intro v hv _
      rcases List.mem_pair.mp hv with rfl | rfl
      · rfl
      · rfl
  have hfits : QuorumFits s.chain.staking.vault 3 := by
    unfold QuorumFits
    rw [htotal]
    decide
  obtain ⟨p, call, c, hsubmitted, hcall, hexec, hroot⟩ := quorum_root_taken hrun hanswers
    (show (5 : Bytes32) ≠ 0 by decide) hawaits (hvotes ▸ hloyal) hquorum hfits
    (by
      rw [hvotes]
      intro v hv _
      rcases List.mem_pair.mp hv with rfl | rfl
      · exact ⟨by decide, [7, 5], rfl, toy_signed⟩
      · exact ⟨by decide, [8, 5], rfl, toySecond_signed⟩)
  exact ⟨s, _, p, call, c, hnone, hsubmitted, hcall, hexec, hroot⟩

end BasedAI
