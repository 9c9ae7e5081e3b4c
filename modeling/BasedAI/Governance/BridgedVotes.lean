import BasedAI.Governance.VoteSafety
import BasedAI.Tokens.BrainBridge

/-!
# BasedAI — the votes of the Brains that have crossed

The governor reads no more than 64 Brains of an account, and reads them on the second layer,
where they can be held without a stake behind them. Neither matters for Brains that are
bridged: there are never more than 64, and each of them is locked on the first layer.

* `owned_length_le`        — an account has at most 64 Brains on the second layer;
* `bridged_votes_complete` — a vote counts all of its voter's GigaBrains, and backs each.
-/

namespace BasedAI

open Fallible Mapping Transition CallStack BasedGovernor

section Votes

variable {G T V : Type} {env : BridgedEnv T} {s : Bridged T} {pepecoinStake basedStake : Nat}
  {governance : Address} {tokens : Address → T} {ls : List BridgedLabel}

/-- A Brain that exists on the second layer. -/
theorem onLayer2_eq {a : Address} {b : BrainId} (h : s.layer2.owners b = some a) :
    s.onLayer2 b = 1 := by
  rw [Bridged.onLayer2, h]
  rfl

/-- What is on the second layer is locked on the first, and one of 64. -/
theorem locked_of_owner
    (h : Run (BridgedStep env) (.deploy pepecoinStake basedStake governance tokens) ls s)
    {a : Address} {b : BrainId} (howner : s.layer2.owners b = some a) :
    s.nft.owners b = some env.escrow ∧ b.val < MAX_BRAINS_PER_VOTER := by
  have hinv := BridgedInv.run h
  obtain ⟨hbrains, hplaced⟩ := hinv.layer1.now
  obtain ⟨hsum, hlocked⟩ := hinv.counts b
  have hone := onLayer2_eq howner
  have hheld := hplaced.held b (by omega)
  have hexists : s.nft.owners b ≠ none := by
    rw [Bridged.nft, hheld.owner]
    exact Option.some_ne_none _
  exact ⟨hheld.owner, (hbrains.books.below b hexists).trans_le hbrains.books.le_max⟩

/-- So nobody has more than the governor reads. -/
theorem owned_length_le
    (h : Run (BridgedStep env) (.deploy pepecoinStake basedStake governance tokens) ls s)
    (a : Address) : (s.layer2.ownedTokens a).length ≤ MAX_BRAINS_PER_VOTER := by
  have hids : ((s.layer2.ownedTokens a).map Fin.val).Nodup :=
    (s.layer2.nodup a).map Fin.val_injective
  have hsub : (s.layer2.ownedTokens a).map Fin.val ⊆ List.range MAX_BRAINS_PER_VOTER := by
    intro n hn
    obtain ⟨b, hb, rfl⟩ := List.mem_map.mp hn
    exact List.mem_range.mpr (locked_of_owner h ((s.layer2.mem_ownedTokens a b).mp hb)).2
  calc (s.layer2.ownedTokens a).length = ((s.layer2.ownedTokens a).map Fin.val).length := by
        rw [List.length_map]
    _ ≤ (List.range MAX_BRAINS_PER_VOTER).length := (hids.subperm hsub).length_le
    _ = MAX_BRAINS_PER_VOTER := List.length_range

/-- The GigaBrains an account has, by the stakes at `tp`. -/
def GigaBrainOf (vault : StakingVault) (nft : BrainNFTL2) (account : Address)
    (tp threshold : Nat) (b : BrainId) : Prop :=
  nft.owners b = some account ∧ threshold ≠ 0 ∧ threshold ≤ vault.getPastBrainStake b tp

instance decidableGigaBrainOf (vault : StakingVault) (nft : BrainNFTL2) (account : Address)
    (tp threshold : Nat) : DecidablePred (GigaBrainOf vault nft account tp threshold) :=
  fun _ => inferInstanceAs (Decidable (_ ∧ _ ∧ _))

/-- When a proposal reads the stakes. -/
def snapshotOf (genv : GovernorEnv G V) (g : GovernorState G V) (p : ProposalId) : Nat :=
  uint48 (genv.core.proposalSnapshot g.governor p)

/-- They are what a ballot reads and finds eligible. -/
theorem mem_ballot_iff
    (h : Run (BridgedStep env) (.deploy pepecoinStake basedStake governance tokens) ls s)
    {vault : StakingVault} {account : Address} {tp threshold : Nat} {b : BrainId} :
    b ∈ ballot s.layer2 account threshold ∧ eligible vault tp threshold b = true ↔
      GigaBrainOf vault s.layer2 account tp threshold b := by
  unfold ballot eligible GigaBrainOf
  rw [decide_eq_true_eq]
  split
  case isTrue hzero => simp [hzero]
  case isFalse hthreshold =>
    -- the list ends before the governor stops reading
    rw [List.take_of_length_le (owned_length_le h account), s.layer2.mem_ownedTokens]
    exact ⟨fun hb => ⟨hb.1, hthreshold, hb.2⟩, fun hb => ⟨hb.1, hb.2.2⟩⟩

/-- **No vote is cut short or without a Brain behind it.** Where the Brains of the second layer
got there over the bridge, a vote marks every GigaBrain its voter has, weighs as much as the
voter has GigaBrains that were not marked before, and every Brain it marks is locked on the
first layer. -/
theorem bridged_votes_complete
    (h : Run (BridgedStep env) (.deploy pepecoinStake basedStake governance tokens) ls s)
    {genv : GovernorEnv G V} {g g' : GovernorState G V} (hnft : g.nft = s.layer2) {blk : Block}
    {p : ProposalId} {account : Address} {support : Fin 256} {params : Bytes} {weight : Nat}
    (hvote : castVote genv blk p account support params g = .ok (g', weight)) :
    ∃ threshold, gigaBrainThreshold g.staking.vault (snapshotOf genv g p) = .ok threshold ∧
      (∀ b, GigaBrainOf g.staking.vault s.layer2 account (snapshotOf genv g p) threshold b →
        g'.brainVoted p b = true) ∧
      weight = (Finset.univ.filter fun b =>
        GigaBrainOf g.staking.vault s.layer2 account (snapshotOf genv g p) threshold b ∧
          g.brainVoted p b = false).card ∧
      ∀ b, g.brainVoted p b = false → g'.brainVoted p b = true →
        s.nft.owners b = some env.escrow := by
  obtain ⟨threshold, hcast⟩ := castVote_ok hvote
  refine ⟨threshold, hcast.crossing, ?_⟩
  have hmarks : ∀ b, g'.brainVoted p b = true ↔ g.brainVoted p b = true ∨
      GigaBrainOf g.staking.vault s.layer2 account (snapshotOf genv g p) threshold b := by
    intro b
    rw [hcast.marks, marked, Bool.or_eq_true, decide_eq_true_eq, ← mem_ballot_iff h, ← hnft]
    exact or_congr_right (and_iff_right rfl)
  refine ⟨fun b hb => (hmarks b).mpr (.inr hb), ?_, ?_⟩
  · -- the weight is what is newly marked
    rw [hcast.weight_eq, Finset.card_filter]
    apply Finset.sum_congr rfl
    intro b _
    have hiff : (g.brainVoted p b = false ∧ g'.brainVoted p b = true) ↔
        GigaBrainOf g.staking.vault s.layer2 account (snapshotOf genv g p) threshold b ∧
          g.brainVoted p b = false := by
      rw [hmarks b]
      cases g.brainVoted p b with
      | true => simp
      | false => simp
    unfold newly
    exact if_congr hiff rfl rfl
  · intro b hnew hmarked
    rcases (hmarks b).mp hmarked with hold | hgiga
    · rw [hnew] at hold
      cases hold
    · exact (locked_of_owner h hgiga.1).1

end Votes

/-- Account 4 votes with Brain 0, which has crossed. -/
theorem toyBridgedVote_facts : (do
    let staking ← VaultCall.exec toyGovernor.vault ⟨100, by decide⟩ 2 toyVoting.staking
      (.stake 0 7 1000)
    let (_, weight) ← castVote toyGovernor ⟨600, by decide⟩ 1 4 1 []
      { toyVoting with nft := toyArrived.layer2, staking := staking }
    return weight : Exec Nat).toOption = some 1 := by
  decide +kernel

/-- It is the one GigaBrain of account 4, and behind it is Brain 0 of the first layer. -/
theorem bridged_vote : ∃ g g' : GovernorState SimpleGovernor Ledger,
    castVote toyGovernor ⟨600, by decide⟩ 1 4 1 [] g = .ok (g', 1) ∧ ∃ threshold,
      (Finset.univ.filter fun b =>
        GigaBrainOf g.staking.vault toyArrived.layer2 4 (snapshotOf toyGovernor g 1) threshold b ∧
          g.brainVoted 1 b = false).card = 1 := by
  have hfacts := toOption_ok.mp toyBridgedVote_facts
  simp only [bind_ok, return_ok, Prod.exists] at hfacts
  obtain ⟨staking, -, g', weight, hvote, rfl⟩ := hfacts
  obtain ⟨ls, hrun⟩ := toy_arrived
  obtain ⟨threshold, -, -, hweight, -⟩ := bridged_votes_complete hrun rfl hvote
  exact ⟨_, g', hvote, threshold, hweight.symm⟩

end BasedAI
