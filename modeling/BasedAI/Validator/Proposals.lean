import BasedAI.Scoring.Quorum
import BasedAI.Validator.Endorsements

/-!
# BasedAI — the aggregator's proposals and the contract's checks

`try_propose` should propose a root as soon as the registry would take one: as soon as those
who signed it hold the contract's quorum. It groups the signatures by the text the root came
in, and proposes what is left of that text without its first two characters, with the
signatures as they were handed in. So it does what it should where one spelling has the
quorum, starts with `0x`, and has signatures the contract's recovery takes.

* `Agrees`              — what the aggregator should do;
* `ProposalCondition`   — the condition on what was added;
* `proposalOf_taken`    — when the registry takes a proposal;
* `proposals_agree_iff` — the aggregator agrees with the contract under that condition alone.
-/

namespace BasedAI

open Fallible Python Transition ScoringRegistry CommitmentAggregator WeightedQuorum

/-! ## What should be proposed -/

section Spec

variable {T : Type} (env : ScoringEnv T) (vault : StakingVault) (e : Epoch) (b : BrainId)
  (votes : List Endorsement)

/-- Those who signed a root, in whatever spelling. -/
def supporters (root : Bytes32) : List Address :=
  ((votes.filter fun v => v.root = root).map Endorsement.signer).dedup

/-- Those who signed the root hold the contract's quorum. -/
def Supported (root : Bytes32) : Prop := root ≠ 0 ∧ HasQuorum vault b (supporters votes root)

/-- The registry takes a proposal. -/
def Taken (blk : Block) (s : ScoringState T) (p : Proposal) : Prop :=
  ∃ call s', encodeProposal p = .ok call ∧ call.exec env blk s = .ok s'

/-- Something is submitted exactly if a root is supported, and then the registry takes it. -/
structure Agrees (blk : Block) (s : ScoringState T)
    (submitted : Option Proposal) : Prop where
  submits_iff : (∃ p, submitted = some p) ↔ ∃ root, Supported s.staking.vault b votes root
  taken : ∀ p, submitted = some p → Taken env blk s p

/-- A spelling of a root can be proposed: the root is not zero, its text starts with two
characters that do not spell it, and the contract recovers each signer from the last signature
it handed in. -/
structure Presentable (t : Text) (root : Bytes32) : Prop where
  denotes : rootOfText t = .ok root
  nonzero : root ≠ 0
  whole : Whole t
  signed : ∀ a ∈ signersUnder votes t, a ≠ 0 ∧ ∃ signature,
    storedBytes (lastSignature votes t a) = .ok signature ∧
      env.crypto.recover (commitmentDigest env e b root) signature = some a

/-- The arithmetic of the contract's quorum does not overflow. -/
def QuorumFits : Prop := vault.brainStake b * MIN_QUORUM_BPS + 9999 < 2 ^ 256

/-- If a root is supported, then the leading spelling has the quorum by itself and can be
proposed; if none is and the leading spelling (of zero, then) has the quorum, then half a byte
is missing from what is left of it. -/
structure ProposalCondition : Prop where
  supported : ∀ root, Supported vault b votes root → QuorumFits vault b ∧
    ∃ t root', leading vault b votes = some t ∧ HasQuorum vault b (signersUnder votes t) ∧
      Presentable env e b votes t root'
  unsupported : (∀ root, ¬ Supported vault b votes root) → ∀ t, leading vault b votes = some t →
    HasQuorum vault b (signersUnder votes t) → Skewed t

end Spec

/-! ## What the registry takes -/

section Taken

variable {T : Type} {env : ScoringEnv T} {blk : Block} {s : ScoringState T} {e : Epoch}
  {b : BrainId} {root : Bytes32} {votes : List Endorsement} {t : Text} {o : Offchain}
  {bytes : Bytes}

theorem sortedSigners_perm (votes : List Endorsement) (t : Text) :
    (sortedSigners votes t).Perm (signersUnder votes t) := List.perm_insertionSort _ _

/-- Different signers in order ascend. -/
theorem sortedSigners_ascend (h : ∀ a ∈ signersUnder votes t, a ≠ 0) :
    List.Pairwise (· < ·) (0 :: sortedSigners votes t) := by
  have hnodup : (sortedSigners votes t).Nodup :=
    (sortedSigners_perm votes t).nodup_iff.mpr (List.nodup_dedup _)
  -- the contract starts from the zero address, so no signer may be it
  refine List.pairwise_cons.mpr ⟨?_, ?_⟩
  · intro a ha
    exact Fin.pos_iff_ne_zero.mpr (h a ((sortedSigners_perm votes t).mem_iff.mp ha))
  · have hle : (sortedSigners votes t).Pairwise (· ≤ ·) := List.pairwise_insertionSort _ _
    exact (hle.and hnodup).imp fun h => lt_of_le_of_ne h.1 h.2

/-- A checksummed address is encoded as the address it denotes. -/
theorem mapM_encodeAddress (crypto : Crypto) (signers : List Address) :
    (signers.map (toChecksum crypto)).mapM (fun a => encodeAddress (.str a)) = .ok signers := by
  induction signers with
  | nil => rfl
  | cons a rest ih =>
    rw [List.map_cons, List.mapM_cons, encodeAddress_toChecksum, ok_bind, ih]
    rfl

/-- What the proposal of a spelling is encoded as. -/
theorem encodeProposal_proposalOf {call : ScoringCall} :
    encodeProposal (proposalOf o e.val b votes t bytes) = .ok call ↔
      ∃ root signatures, encodeBytes32 bytes = .ok root ∧
        ((sortedSigners votes t).mapM fun a => storedBytes (lastSignature votes t a)) =
          .ok signatures ∧
        call = .proposeEpoch e b root (sortedSigners votes t) signatures := by
  have hsignatures : ((sortedSigners votes t).map (lastSignature votes t)).mapM storedBytes =
      (sortedSigners votes t).mapM fun a => storedBytes (lastSignature votes t a) :=
    List.mapM_map ..
  unfold encodeProposal proposalOf
  dsimp only
  rw [encodeUint_eq e.isLt, encodeUint_eq b.isLt, mapM_encodeAddress, hsignatures]
  simp only [bind_ok, return_ok, Except.ok.injEq, exists_eq_left']
  constructor
  · rintro ⟨signatures, hsigs, root, hroot, rfl⟩
    exact ⟨root, signatures, hroot, hsigs, rfl⟩
  · rintro ⟨root, signatures, hroot, hsigs, rfl⟩
    exact ⟨signatures, hsigs, root, hroot, rfl⟩

/-- **When the registry takes the proposal of a spelling** that has the quorum. -/
theorem proposalOf_taken (hv : VaultInv s.staking.vault) (hcomplete : e.val < currentEpoch env blk)
    (hnew : (s.registry.epochs e b).merkleRoot = 0) (hroot : rootOfText t = .ok root)
    (hbytes : fromHex (t.drop 2) = some bytes)
    (hquorum : HasQuorum s.staking.vault b (signersUnder votes t)) :
    Taken env blk s (proposalOf o e.val b votes t bytes) ↔
      QuorumFits s.staking.vault b ∧ Presentable env e b votes t root := by
  have hperm := sortedSigners_perm votes t
  have hweight : ((sortedSigners votes t).map (s.staking.vault.validatorStake b)).sum =
      weightOf (s.staking.vault.validatorStake b) (signersUnder votes t) :=
    (hperm.map _).sum_eq
  constructor
  · rintro ⟨call, s', hcall, hexec⟩
    obtain ⟨root', signatures, hroot', hsignatures, rfl⟩ := encodeProposal_proposalOf.mp hcall
    have hexec : proposeEpoch env blk e b root' (sortedSigners votes t) signatures s = .ok s' :=
      hexec
    obtain ⟨hnonzero, -, -, -, -, hsorted, hrecover, -⟩ := proposeEpoch_ok hexec
    -- 32 bytes are left, so none was dropped
    have hwhole : Whole t ∧ root' = root := by
      rcases fromHex_drop hroot with ⟨hwhole, bytes', hbytes', hencode⟩ | ⟨-, -, hnone⟩ |
        ⟨-, -, bytes', hbytes', hshort⟩
      · obtain rfl := Option.some.inj (hbytes.symm.trans hbytes')
        exact ⟨hwhole, Except.ok.inj (hroot'.symm.trans hencode)⟩
      · rw [hnone] at hbytes
        cases hbytes
      · obtain rfl := Option.some.inj (hbytes.symm.trans hbytes')
        rw [encodeBytes32, if_neg (by omega)] at hroot'
        cases hroot'
    obtain ⟨hwhole, rfl⟩ := hwhole
    refine ⟨proposeEpoch_fits hexec, hroot, hnonzero, hwhole, ?_⟩
    intro a ha
    have hmem := hperm.mem_iff.mpr ha
    -- each signer stands beside the signature it is recovered from
    obtain ⟨-, hall, hex⟩ := zip_mapM hsignatures
    obtain ⟨signature, hsignature⟩ := hex a hmem
    exact ⟨Fin.pos_iff_ne_zero.mp ((List.pairwise_cons.mp hsorted).1 a hmem), signature,
      hall _ hsignature, hrecover _ hsignature⟩
  · rintro ⟨hfits, hpresent⟩
    have hencode : encodeBytes32 bytes = .ok root := by
      rcases fromHex_drop hroot with ⟨-, bytes', hbytes', hencode⟩ | ⟨-, hnot, -⟩ | ⟨hnot, -⟩
      · obtain rfl := Option.some.inj (hbytes.symm.trans hbytes')
        exact hencode
      · exact absurd hpresent.whole hnot
      · exact absurd hpresent.whole hnot
    obtain ⟨signatures, hsignatures⟩ :=
      mapM_total (sortedSigners votes t) fun a ha =>
        let ⟨_, signature, hsignature, _⟩ := hpresent.signed a (hperm.mem_iff.mp ha)
        ⟨signature, hsignature⟩
    obtain ⟨hlen, hall, -⟩ := zip_mapM hsignatures
    have hrecover : ∀ p ∈ (sortedSigners votes t).zip signatures,
        env.crypto.recover (commitmentDigest env e b root) p.2 = some p.1 := by
      intro p hp
      have hmem := hperm.mem_iff.mp (List.of_mem_zip hp).1
      obtain ⟨-, signature, hstored, hsigner⟩ := hpresent.signed p.1 hmem
      rw [Except.ok.inj ((hall p hp).symm.trans hstored)]
      exact hsigner
    -- a quorum of no one would be no stake at all
    have hne : sortedSigners votes t ≠ [] := by
      intro hnil
      have htotal := hquorum.1
      have hneed := hquorum.2
      rw [← hweight, hnil, MIN_QUORUM_BPS] at hneed
      simp only [List.map_nil, List.sum_nil] at hneed
      omega
    -- the signers' stake is part of the Brain's, whose product with the quorum fits
    have hsum : ((sortedSigners votes t).map (s.staking.vault.validatorStake b)).sum < 2 ^ 256 := by
      have htotal : s.staking.vault.brainStake b = ∑ w, s.staking.vault.validatorStake b w :=
        hv.brain_sum b
      have hle : weightOf (s.staking.vault.validatorStake b) (signersUnder votes t) ≤
          ∑ w, s.staking.vault.validatorStake b w := weightOf_le_total (List.nodup_dedup _)
      unfold QuorumFits MIN_QUORUM_BPS at hfits
      rw [hweight]
      omega
    refine ⟨_, _, encodeProposal_proposalOf.mpr ⟨root, signatures, hencode, hsignatures, rfl⟩,
      proposeEpoch_of hpresent.nonzero hcomplete hnew hlen.symm hne
        (sortedSigners_ascend fun a ha => (hpresent.signed a ha).1) hrecover hquorum.1
        (by rw [hweight]; exact hquorum.2) hsum hfits⟩

end Taken

/-! ## The result -/

section Result

variable {T : Type} {env : ScoringEnv T} {blk : Block} {s : ScoringState T} {e : Epoch}
  {b : BrainId} {o : Offchain} {domain : CommitmentDomain}

/-- The spelling of an endorsement denotes its root. -/
theorem rootOfText_spelling {calls : List CommitmentCall} {v : Endorsement}
    (h : v ∈ endorsements o domain calls) :
    rootOfText v.spelling = .ok v.root ∧ lower o.unicode v.spelling = v.spelling := by
  obtain ⟨c, -, hc⟩ := List.mem_filterMap.mp h
  obtain ⟨hroot, -, -, -, -, hspelling, -⟩ := endorsementOf_some hc
  rw [hspelling]
  exact rootOfText_normalize hroot

/-- `try_propose` passes on what there is to propose. -/
theorem tryPropose_submitted {u : Unicode} {stakes : Stakes} {agg : CommitmentAggregator}
    {epoch brainId : Int} {proposeFn : Proposal → Py Text} {p : Proposal} :
    (agg.tryPropose u stakes epoch brainId proposeFn).2.1 = some p ↔
      agg.nextProposal u stakes epoch brainId = .ok (some p) := by
  unfold tryPropose
  split
  case h_1 e he =>
    rw [he]
    constructor
    · intro h
      cases h
    · intro h
      cases h
  case h_2 he =>
    rw [he]
    constructor
    · intro h
      cases h
    · intro h
      cases h
  -- it is passed on whether the transaction succeeds or not
  case h_3 q hq =>
    rw [hq]
    split
    · exact ⟨fun h => congrArg _ h, fun h => Except.ok.inj h⟩
    · exact ⟨fun h => congrArg _ h, fun h => Except.ok.inj h⟩

/-- What is submitted. -/
theorem submitted_iff {vault : StakingVault} {calls : List CommitmentCall}
    {proposeFn : Proposal → Py Text} {p : Proposal} :
    ((CommitmentAggregator.empty.addAll o domain calls).tryPropose o.unicode
        (chainStakes o.crypto vault) e.val b.val proposeFn).2.1 = some p ↔
      ∃ t bytes, leading vault b (endorsementsFor e.val b (endorsements o domain calls)) = some t ∧
        HasQuorum vault b
          (signersUnder (endorsementsFor e.val b (endorsements o domain calls)) t) ∧
        fromHex (t.drop 2) = some bytes ∧
        p = proposalOf o e.val b (endorsementsFor e.val b (endorsements o domain calls)) t
          bytes := by
  rw [tryPropose_submitted, addAll_eq]
  exact nextProposal_eq (fun v hv => (rootOfText_spelling hv).2) p

/-- The same, for endorsements whose spellings denote their roots, where that is what is
submitted. -/
theorem agrees_iff {votes : List Endorsement} {submitted : Option Proposal}
    (hv : VaultInv s.staking.vault) (hcomplete : e.val < currentEpoch env blk)
    (hnew : (s.registry.epochs e b).merkleRoot = 0)
    (hdenotes : ∀ v ∈ votes, rootOfText v.spelling = .ok v.root)
    (hsubmitted : ∀ p, submitted = some p ↔
      ∃ t bytes, leading s.staking.vault b votes = some t ∧
        HasQuorum s.staking.vault b (signersUnder votes t) ∧
        fromHex (t.drop 2) = some bytes ∧ p = proposalOf o e.val b votes t bytes) :
    Agrees env b votes blk s submitted ↔
      ProposalCondition env s.staking.vault e b votes := by
  have hleading : ∀ t, leading s.staking.vault b votes = some t →
      ∃ root, rootOfText t = .ok root := by
    intro t ht
    obtain ⟨v, hv, rfl⟩ := List.mem_map.mp (List.mem_of_find?_eq_some ht)
    exact ⟨v.root, hdenotes v hv⟩
  constructor
  · intro hagrees
    constructor
    · intro root hsupported
      obtain ⟨p, hp⟩ := hagrees.submits_iff.mpr ⟨root, hsupported⟩
      obtain ⟨t, bytes, ht, hquorum, hbytes, rfl⟩ := (hsubmitted p).mp hp
      obtain ⟨root', hroot'⟩ := hleading t ht
      obtain ⟨hfits, hpresent⟩ :=
        (proposalOf_taken hv hcomplete hnew hroot' hbytes hquorum).mp (hagrees.taken _ hp)
      exact ⟨hfits, t, root', ht, hquorum, hpresent⟩
    · intro hnone t ht hquorum
      obtain ⟨root, hroot⟩ := hleading t ht
      apply (skewed_iff hroot).mpr
      -- whatever could be read would be submitted
      by_contra hsome
      obtain ⟨bytes, hbytes⟩ := Option.ne_none_iff_exists'.mp hsome
      have hp := (hsubmitted _).mpr ⟨t, bytes, ht, hquorum, hbytes, rfl⟩
      obtain ⟨root', hsupported⟩ := hagrees.submits_iff.mp ⟨_, hp⟩
      exact hnone root' hsupported
  · intro hcond
    -- what is submitted has the quorum, so unless half a byte is missing its root is supported
    have hsupport : ∀ t bytes, leading s.staking.vault b votes = some t →
        HasQuorum s.staking.vault b (signersUnder votes t) → fromHex (t.drop 2) = some bytes →
        ∃ root, Supported s.staking.vault b votes root := by
      intro t bytes ht hquorum hbytes
      by_contra hnone
      push Not at hnone
      obtain ⟨root, hroot⟩ := hleading t ht
      have hskewed := hcond.unsupported hnone t ht hquorum
      rw [(skewed_iff hroot).mp hskewed] at hbytes
      cases hbytes
    constructor
    · constructor
      · rintro ⟨p, hp⟩
        obtain ⟨t, bytes, ht, hquorum, hbytes, rfl⟩ := (hsubmitted p).mp hp
        exact hsupport t bytes ht hquorum hbytes
      · rintro ⟨root, hsupported⟩
        obtain ⟨-, t, root', ht, hquorum, hpresent⟩ := hcond.supported root hsupported
        cases hbytes : fromHex (t.drop 2) with
        | some bytes => exact ⟨_, (hsubmitted _).mpr ⟨t, bytes, ht, hquorum, hbytes, rfl⟩⟩
        | none =>
          have hskewed := (skewed_iff hpresent.denotes).mpr hbytes
          exact absurd hpresent.whole hskewed.not_whole
    · intro p hp
      obtain ⟨t, bytes, ht, hquorum, hbytes, rfl⟩ := (hsubmitted p).mp hp
      obtain ⟨root, hsupported⟩ := hsupport t bytes ht hquorum hbytes
      obtain ⟨hfits, t', root', ht', -, hpresent⟩ := hcond.supported root hsupported
      -- the leading spelling is one, so it is the one that can be proposed
      obtain rfl : t = t' := Option.some.inj (ht.symm.trans ht')
      exact (proposalOf_taken hv hcomplete hnew hpresent.denotes hbytes hquorum).mpr
        ⟨hfits, hpresent⟩

/-- After these calls, the aggregator agrees with the registry. -/
def ProposalsAgree (o : Offchain) (domain : CommitmentDomain) (env : ScoringEnv T) (blk : Block)
    (s : ScoringState T) (e : Epoch) (b : BrainId) (calls : List CommitmentCall)
    (proposeFn : Proposal → Py Text) : Prop :=
  Agrees env b (endorsementsFor e.val b (endorsements o domain calls)) blk s
    ((CommitmentAggregator.empty.addAll o domain calls).tryPropose o.unicode
      (chainStakes o.crypto s.staking.vault) e.val b.val proposeFn).2.1

/--
**The aggregator and the contract.** After any sequence of calls, and for the stakes of any
reachable vault, the aggregator proposes something exactly if a root is supported, and what it
proposes is taken by the registry, if and only if `ProposalCondition` holds of what was added.
-/
theorem proposals_agree_iff {admin : Address} {t₀ : T} {ls : List VaultLabel}
    (calls : List CommitmentCall) (proposeFn : Proposal → Py Text)
    (hrun : Run (VaultStep env.staking) ⟨t₀, .deploy admin⟩ ls s.staking)
    (hcomplete : e.val < currentEpoch env blk)
    (hnew : (s.registry.epochs e b).merkleRoot = 0) :
    ProposalsAgree o domain env blk s e b calls proposeFn ↔
      ProposalCondition env s.staking.vault e b
        (endorsementsFor e.val b (endorsements o domain calls)) :=
  agrees_iff (vaultRun_inv hrun (vaultInv_deploy admin)) hcomplete hnew
    (fun _ hv => (rootOfText_spelling (List.mem_filter.mp hv).1).1) fun _ => submitted_iff

end Result

/-! ## Two spellings of one root -/

/-- An aggregator for the toy registry. -/
def registryDomain : CommitmentDomain where
  chainId := 1
  scoringRegistry := text "0x0000000000000000000000000000000000000004"

/-- Validator 7's signature on root 5 of epoch 0 and Brain 3, the root in some spelling. -/
def plainCall (root : Text) : CommitmentCall where
  epoch := 0
  brainId := 3
  root := .str root
  signer := text "0x0000000000000000000000000000000000000007"
  signature := text "0705"

/-- The digits of root 5. -/
def fiveDigits : Text :=
  text "0000000000000000000000000000000000000000000000000000000000000005"

/-- What is added. -/
def plainVote (root : Text) : Endorsement where
  epoch := 0
  brainId := 3
  spelling := root
  root := 5
  signer := 7
  signature := text "0x0705"

theorem endorsements_prefixed :
    endorsementsFor ((0 : Epoch).val : Int) 3
        (endorsements toyOffchain registryDomain [plainCall (text "0x" ++ fiveDigits)]) =
      [plainVote (text "0x" ++ fiveDigits)] := by
  decide +kernel

theorem endorsements_plain :
    endorsementsFor ((0 : Epoch).val : Int) 3
        (endorsements toyOffchain registryDomain [plainCall fiveDigits]) =
      [plainVote fiveDigits] := by
  decide +kernel

set_option maxRecDepth 8000 in
/-- Validator 7 has 1000 of the 1500 at stake on Brain 3. -/
theorem toy_snapshot : ∃ (ls : List VaultLabel) (staking : VaultState Ledger),
    Run (VaultStep toyRegistry.staking) ⟨toyLedger, .deploy 9⟩ ls staking ∧
      staking.vault.brainStake 3 = 1500 ∧ staking.vault.validatorStake 3 7 = 1000 := by
  refine ⟨_, _, .cons (.call ⟨200, by decide⟩ 2 (.stake 3 7 1000) (by decide) rfl)
    (.single (.call ⟨300, by decide⟩ 2 (.stake 3 8 500) (by decide) rfl)), ?_, ?_⟩
  · rfl
  · rfl

/-- Validator 7 alone holds the quorum. -/
theorem toy_quorum {vault : StakingVault} (htotal : vault.brainStake 3 = 1500)
    (hstake : vault.validatorStake 3 7 = 1000) : HasQuorum vault 3 [7] := by
  have hweight : weightOf (vault.validatorStake 3) [7] = 1000 := by
    rw [weightOf, List.map_singleton, List.sum_singleton, hstake]
  -- the quorum is 751 of 1500
  unfold HasQuorum
  rw [htotal, hweight]
  decide

/-- The root is supported by the one endorsement, and its spelling leads. -/
theorem plainVote_leads (vault : StakingVault) (t : Text) :
    leading vault 3 [plainVote t] = some t ∧ signersUnder [plainVote t] t = [7] ∧
      supporters [plainVote t] 5 = [7] ∧
      lastSignature [plainVote t] t 7 = text "0x0705" := by
  have hspelling : (plainVote t).spelling = t := rfl
  have hsigner : (plainVote t).signer = 7 := rfl
  have hroot : (plainVote t).root = 5 := rfl
  refine ⟨?_, ?_, ?_, ?_⟩
  · simp [leading, Leads, hspelling]
  · simp [signersUnder, hspelling, hsigner]
  · simp [supporters, hroot, hsigner]
  · simp [lastSignature, hspelling, hsigner]
    rfl

/-- The commitment to root 5 is signed like the root itself. -/
theorem toyFive_recover (signature : Bytes) :
    toyRegistry.crypto.recover (commitmentDigest toyRegistry 0 3 5) signature =
      toyCrypto.recover 5 signature := by
  have hrecover := toyRegistry_recover 0 3 5 signature
  unfold Crypto.messageDigest at hrecover
  unfold commitmentDigest
  exact hrecover

theorem toy_signed :
    toyRegistry.crypto.recover (commitmentDigest toyRegistry 0 3 5) [7, 5] = some 7 := by
  rw [toyFive_recover]
  decide

/-- With its prefix the root is proposed, and taken. -/
theorem proposals_agree_prefixed : ∃ s : ScoringState Ledger,
    s.staking.vault.brainStake 3 = 1500 ∧ s.staking.vault.validatorStake 3 7 = 1000 ∧
      ProposalsAgree toyOffchain registryDomain toyRegistry ⟨3600, by decide⟩ s 0 3
        [plainCall (text "0x" ++ fiveDigits)] fun _ => .ok [] := by
  obtain ⟨ls, staking, hrun, htotal, hstake⟩ := toy_snapshot
  refine ⟨⟨300, staking, .deploy⟩, htotal, hstake, ?_⟩
  refine (@proposals_agree_iff Ledger toyRegistry ⟨3600, by decide⟩ ⟨300, staking, .deploy⟩ 0 3
    toyOffchain registryDomain 9 toyLedger ls _ _ hrun (by decide) rfl).mpr ?_
  rw [endorsements_prefixed]
  have hquorum := toy_quorum htotal hstake
  obtain ⟨hleads, hsigners, hsupporters, hlast⟩ :=
    plainVote_leads staking.vault (text "0x" ++ fiveDigits)
  have hsupported : Supported staking.vault 3 [plainVote (text "0x" ++ fiveDigits)] 5 :=
    ⟨by decide, by rw [hsupporters]; exact hquorum⟩
  constructor
  · intro root _
    refine ⟨?_, _, 5, hleads, by rw [hsigners]; exact hquorum, ?_⟩
    · show staking.vault.brainStake 3 * MIN_QUORUM_BPS + 9999 < 2 ^ 256
      rw [htotal]
      decide
    · -- the text has its prefix, so the encoder reads it
      refine ⟨toOption_ok.mp ?_, by decide, .inl (isPrefixOf_0x _), ?_⟩
      · decide +kernel
      · intro a ha
        rw [hsigners] at ha
        obtain rfl := List.mem_singleton.mp ha
        refine ⟨by decide, [7, 5], ?_, toy_signed⟩
        rw [hlast]
        rfl
  · intro hnone
    exact absurd hsupported (hnone 5)

/-- Without its prefix the root is added all the same, and then proposed without its first
byte. -/
theorem prefix_missed : ∃ (ls : List VaultLabel) (s : ScoringState Ledger),
    Run (VaultStep toyRegistry.staking) ⟨toyLedger, .deploy 9⟩ ls s.staking ∧
      s.staking.vault.brainStake 3 = 1500 ∧ s.staking.vault.validatorStake 3 7 = 1000 ∧
      (s.registry.epochs 0 3).merkleRoot = 0 ∧
      ¬ ProposalsAgree toyOffchain registryDomain toyRegistry ⟨3600, by decide⟩ s 0 3
        [plainCall fiveDigits] fun _ => .ok [] := by
  obtain ⟨ls, staking, hrun, htotal, hstake⟩ := toy_snapshot
  refine ⟨ls, ⟨300, staking, .deploy⟩, hrun, htotal, hstake, rfl, ?_⟩
  intro hagrees
  have hcond : ProposalCondition toyRegistry staking.vault 0 3
      (endorsementsFor ((0 : Epoch).val : Int) 3
        (endorsements toyOffchain registryDomain [plainCall fiveDigits])) :=
    (agrees_iff (vaultRun_inv hrun (vaultInv_deploy 9)) (by decide) rfl
    (fun _ hv => (rootOfText_spelling (List.mem_filter.mp hv).1).1) fun _ =>
    submitted_iff).mp hagrees
  rw [endorsements_plain] at hcond
  obtain ⟨hleads, -, hsupporters, -⟩ := plainVote_leads staking.vault fiveDigits
  have hsupported : Supported staking.vault 3 [plainVote fiveDigits] 5 :=
    ⟨by decide, by rw [hsupporters]; exact toy_quorum htotal hstake⟩
  obtain ⟨-, t, root, ht, -, hpresent⟩ := hcond.supported 5 hsupported
  obtain rfl : fiveDigits = t := Option.some.inj (hleads.symm.trans ht)
  -- without its prefix the spelling starts with digits of the root
  exact absurd hpresent.whole (by decide)

end BasedAI
