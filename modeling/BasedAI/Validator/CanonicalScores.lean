import BasedAI.Lib.WeightedMedian
import BasedAI.Validator.CanonicalRoots

/-!
# BasedAI — whose scores the canonical ones are

The pool records the last candidate of every staked validator, and freezes the medians of
what it has once the contributors hold a quorum. It does not wait for the others: a
minority of the stake that is quick can be most of what is counted.

* `PoolInv`                 — what is recorded was submitted, and what is frozen is what the
  contributors then amounted to;
* `canonicalRow_median`     — a canonical score is the lower median of those behind it;
* `canonical_score_bounded` — when the honest validators keep a score where they put it.
-/

namespace BasedAI

open Fallible Python Mapping WeightedMedian CanonicalCandidatePool

/-! ## Runs of the pool -/

/-- A pool with its quorum. -/
def CanonicalCandidatePool.start (minQuorumBps : Int) : CanonicalCandidatePool where
  minQuorumBps := minQuorumBps
  candidates _ _ := []
  frozen _ _ := none

/-- A call of `add`. -/
structure PoolCall where
  epoch : Int
  brainId : Int
  signer : Text
  scores : List Json

section Runs

variable (o : Offchain) (stakes : Stakes)

/-- Who submits what, as the pool would record it. -/
def PoolCall.candidate (c : PoolCall) : Py (Text × Candidate) :=
  normalizeCandidate o stakes c.brainId c.signer c.scores

/-- The pool after some calls, with the stakes fixed. -/
def CanonicalCandidatePool.addAll (pool : CanonicalCandidatePool) (calls : List PoolCall) :
    CanonicalCandidatePool :=
  calls.foldl (fun pool c => (pool.add o stakes c.brainId c.epoch c.signer c.scores).1) pool

/-- What is recorded of a Brain and an epoch was submitted for them, once for each signer;
and what is frozen is the canonical result of what is recorded. -/
structure PoolInv (calls : List PoolCall) (pool : CanonicalCandidatePool) : Prop where
  submitted : ∀ epoch brainId, ∀ e ∈ pool.candidates epoch brainId, ∃ c ∈ calls,
    c.epoch = epoch ∧ c.brainId = brainId ∧ c.candidate o stakes = .ok e
  distinct : ∀ epoch brainId, ((pool.candidates epoch brainId).map Prod.fst).Nodup
  canonical : ∀ epoch brainId frozen, pool.frozen epoch brainId = some frozen →
    canonicalize o stakes brainId pool.minQuorumBps (pool.candidates epoch brainId) =
      .ok (some frozen)

end Runs

section PoolSteps

variable {o : Offchain} {stakes : Stakes} {calls : List PoolCall}
  {pool : CanonicalCandidatePool} {c : PoolCall}

theorem poolInv_start (minQuorumBps : Int) :
    PoolInv o stakes calls (.start minQuorumBps) where
  submitted epoch brainId e he := absurd he List.not_mem_nil
  distinct epoch brainId := List.nodup_nil
  canonical epoch brainId frozen h := by cases h

/-- A candidate is recorded where nothing is frozen. -/
theorem PoolInv.record (h : PoolInv o stakes calls pool) (hc : c ∈ calls) {key : Text}
    {normalized : Candidate} (hopen : pool.frozen c.epoch c.brainId = none)
    (hcandidate : c.candidate o stakes = .ok (key, normalized)) :
    PoolInv o stakes calls { pool with
      candidates := set₂ pool.candidates c.epoch c.brainId
        (dictSet key normalized (pool.candidates c.epoch c.brainId)) } := by
  constructor
  · intro epoch brainId e he
    dsimp only at he
    rw [set₂_apply] at he
    split at he
    case isTrue hkey =>
      obtain ⟨rfl, rfl⟩ := hkey
      rcases mem_dictSet he with rfl | hold
      · exact ⟨c, hc, rfl, rfl, hcandidate⟩
      · exact h.submitted _ _ e hold
    case isFalse => exact h.submitted epoch brainId e he
  · intro epoch brainId
    dsimp only
    rw [set₂_apply]
    split
    case isTrue => exact nodup_dictSet (h.distinct _ _)
    case isFalse => exact h.distinct epoch brainId
  · intro epoch brainId frozen hfrozen
    dsimp only at hfrozen ⊢
    rw [set₂_apply]
    split
    case isTrue hkey =>
      obtain ⟨rfl, rfl⟩ := hkey
      -- nothing is canonical yet for the key that is written
      rw [hopen] at hfrozen
      cases hfrozen
    case isFalse => exact h.canonical epoch brainId frozen hfrozen

/-- The canonical result of what is recorded is frozen. -/
theorem PoolInv.freeze (h : PoolInv o stakes calls pool) {epoch brainId : Int} {frozen : Frozen}
    (hcanonical : canonicalize o stakes brainId pool.minQuorumBps
      (pool.candidates epoch brainId) = .ok (some frozen)) :
    PoolInv o stakes calls
      { pool with frozen := set₂ pool.frozen epoch brainId (some frozen) } := by
  refine ⟨h.submitted, h.distinct, ?_⟩
  intro epoch' brainId' frozen' hfrozen'
  dsimp only at hfrozen' ⊢
  rw [set₂_apply] at hfrozen'
  split at hfrozen'
  case isTrue hkey =>
    obtain ⟨rfl, rfl⟩ := hkey
    cases hfrozen'
    exact hcanonical
  case isFalse => exact h.canonical epoch' brainId' frozen' hfrozen'

theorem PoolInv.add (h : PoolInv o stakes calls pool) (hc : c ∈ calls) :
    PoolInv o stakes calls (pool.add o stakes c.brainId c.epoch c.signer c.scores).1 := by
  unfold CanonicalCandidatePool.add
  split
  case h_1 => exact h
  case h_2 hopen =>
    split
    case h_1 => exact h
    case h_2 key normalized hcandidate =>
      have hrecorded := h.record hc hopen hcandidate
      dsimp only
      split
      case h_1 => exact hrecorded
      case h_2 => exact hrecorded
      case h_3 frozen hcanonical =>
        -- what is frozen was computed from the candidates just recorded
        apply hrecorded.freeze
        dsimp only
        rw [set₂_same]
        exact hcanonical

/-- **The pool**, after any calls. -/
theorem PoolInv.addAll (minQuorumBps : Int) :
    PoolInv o stakes calls ((CanonicalCandidatePool.start minQuorumBps).addAll o stakes calls) := by
  -- the calls made are some of all of them
  have hrun : ∀ made : List PoolCall, (∀ c ∈ made, c ∈ calls) → ∀ pool,
      PoolInv o stakes calls pool → PoolInv o stakes calls (pool.addAll o stakes made) := by
    intro made
    induction made with
    | nil => exact fun _ pool h => h
    | cons c rest ih =>
      intro hmade pool h
      obtain ⟨hc, hrest⟩ := List.forall_mem_cons.mp hmade
      exact ih hrest _ (h.add hc)
  exact hrun calls (fun c hc => hc) _ (poolInv_start minQuorumBps)

theorem minQuorumBps_addAll (o : Offchain) (stakes : Stakes) (pool : CanonicalCandidatePool)
    (calls : List PoolCall) : (pool.addAll o stakes calls).minQuorumBps = pool.minQuorumBps := by
  induction calls generalizing pool with
  | nil => rfl
  | cons c rest ih =>
    have hadd : (pool.add o stakes c.brainId c.epoch c.signer c.scores).1.minQuorumBps =
        pool.minQuorumBps := by
      unfold CanonicalCandidatePool.add
      split
      · rfl
      · split
        · rfl
        · dsimp only
          split
          · rfl
          · rfl
          · rfl
    exact (ih _).trans hadd

end PoolSteps

/-! ## Medians -/

section Medians

variable {o : Offchain} {stakes : Stakes} {brainId need : Int} {miner : Text}
  {contributors : List (Text × Candidate)}

theorem medianFrom_eq_pick (weight last acc : Int) (l : List (Int × Int)) :
    medianFrom weight last acc l = pick weight last acc l := by
  induction l generalizing acc with
  | nil => rfl
  | cons e rest ih =>
    obtain ⟨score, w⟩ := e
    rw [medianFrom, pick, ih]

/-- A score for the miner, with its signer and the stake of it. -/
structure Reported (stakes : Stakes) (brainId : Int) (miner : Text)
    (contributors : List (Text × Candidate)) (e : Text × Int × Int) : Prop where
  scored : ∃ candidate, (e.1, candidate) ∈ contributors ∧
    dictGet miner candidate = some e.2.1
  staked : stakes.stakeOf brainId e.1 = .ok e.2.2
  positive : 0 < e.2.2

/-- The stake behind the scores for a miner, of the contributors with a property. -/
def behind (stakes : Stakes) (brainId : Int) (miner : Text) (p : Text → Prop)
    [DecidablePred p] : List (Text × Candidate) → Int
  | [] => 0
  | (signer, candidate) :: rest =>
    match dictGet miner candidate, stakes.stakeOf brainId signer with
    | some _, .ok stake =>
      (if p signer ∧ 0 < stake then stake else 0) + behind stakes brainId miner p rest
    | _, _ => behind stakes brainId miner p rest

/-- The scores come from different contributors, with the stake behind them. -/
theorem weightedScores_ok {scores : List (Int × Int)}
    (h : weightedScores stakes brainId miner contributors = .ok scores) :
    ∃ tagged : List (Text × Int × Int), scores = tagged.map Prod.snd ∧
      (tagged.map Prod.fst).Sublist (contributors.map Prod.fst) ∧
      (∀ e ∈ tagged, Reported stakes brainId miner contributors e) ∧
      ∀ (p : Text → Prop) [DecidablePred p],
        total ((tagged.filter fun e => p e.1).map Prod.snd) =
          behind stakes brainId miner p contributors := by
  induction contributors generalizing scores with
  | nil =>
    obtain rfl : [] = scores := Except.ok.inj h
    exact ⟨[], rfl, List.Sublist.refl _, fun e he => absurd he List.not_mem_nil, fun p _ => rfl⟩
  | cons c rest ih =>
    obtain ⟨signer, candidate⟩ := c
    have hlater : ∀ {e}, Reported stakes brainId miner rest e →
        Reported stakes brainId miner ((signer, candidate) :: rest) e := by
      intro e he
      obtain ⟨candidate', hmem, hscore⟩ := he.scored
      exact ⟨⟨candidate', List.mem_cons_of_mem _ hmem, hscore⟩, he.staked, he.positive⟩
    unfold weightedScores at h
    split at h
    -- the candidate does not score this miner
    case h_1 hscore =>
      obtain ⟨tagged, hscores, hsub, hreported, hbehind⟩ := ih h
      refine ⟨tagged, hscores, hsub.cons _, fun e he => hlater (hreported e he), ?_⟩
      intro p _
      rw [hbehind, behind, hscore]
    case h_2 score hscore =>
      simp only [bind_ok, return_ok] at h
      obtain ⟨stake, hstake, tail, htail, hscores⟩ := h
      obtain ⟨tagged, rfl, hsub, hreported, hbehind⟩ := ih htail
      split at hscores
      case isTrue hpos =>
        refine ⟨(signer, score, stake) :: tagged, hscores.symm, hsub.cons_cons _, ?_, ?_⟩
        · refine List.forall_mem_cons.mpr ⟨?_, fun e he => hlater (hreported e he)⟩
          exact ⟨⟨candidate, List.mem_cons_self, hscore⟩, hstake, hpos⟩
        · intro p _
          rw [behind, hscore, hstake, List.filter_cons]
          dsimp only
          by_cases hp : p signer
          · rw [if_pos (decide_eq_true hp), if_pos ⟨hp, hpos⟩, List.map_cons, total_cons, hbehind]
          · rw [if_neg (by simpa using hp), if_neg fun h => hp h.1, hbehind, Int.zero_add]
      -- it does, but its signer has nothing at stake
      case isFalse hpos =>
        refine ⟨tagged, hscores.symm, hsub.cons _, fun e he => hlater (hreported e he), ?_⟩
        intro p _
        rw [behind, hscore, hstake]
        dsimp only
        rw [if_neg fun h => hpos h.2, Int.zero_add, hbehind]

instance : Std.Total pairLe where
  total a b := by
    unfold pairLe
    omega

instance : IsTrans (Int × Int) pairLe where
  trans a b c := by
    unfold pairLe
    omega

/-- The row of a miner whose scores are known: the lower median, if they weigh what is
needed. -/
theorem canonicalRow_ok {scores : List (Int × Int)} (hneed : 0 < need)
    (hscores : weightedScores stakes brainId miner contributors = .ok scores)
    (hpositive : ∀ e ∈ scores, 0 < e.2) :
    (total scores < need ∧ canonicalRow stakes brainId need contributors miner = .ok none) ∨
    (need ≤ total scores ∧ ∃ score, IsLowerMedian scores score ∧
      canonicalRow stakes brainId need contributors miner = .ok (some ⟨miner, score⟩)) := by
  have hperm := List.perm_insertionSort pairLe scores
  have hsum : total (scores.insertionSort pairLe) = total scores := total_perm hperm
  unfold canonicalRow
  rw [hscores, ok_bind]
  dsimp only
  split
  case h_1 hlast =>
    -- nothing weighs nothing
    have hnil : scores.insertionSort pairLe = [] := List.getLast?_eq_none_iff.mp hlast
    rw [hnil, total_nil] at hsum
    exact .inl ⟨by omega, rfl⟩
  case h_2 last hlast =>
    split
    case isTrue hless => exact .inl ⟨hsum ▸ hless, rfl⟩
    case isFalse hweight =>
      have hcovered : need ≤ total (scores.insertionSort pairLe) := Int.not_lt.mp hweight
      refine .inr ⟨hsum ▸ hcovered, _, ?_, rfl⟩
      -- the scores in order, and the median found in them
      have hsorted : (scores.insertionSort pairLe).Pairwise fun a b => a.1 ≤ b.1 := by
        apply (List.pairwise_insertionSort pairLe _).imp
        intro a b hab
        unfold pairLe at hab
        omega
      have hnonneg : ∀ e ∈ scores.insertionSort pairLe, 0 ≤ e.2 := by
        intro e he
        exact (hpositive e (hperm.mem_iff.mp he)).le
      have hmedian := pick_spec last.1 hsorted hnonneg (by omega)
      rw [← medianFrom_eq_pick] at hmedian
      exact hmedian.perm hperm

/-- **A canonical score is a lower median** of the scores behind it, which weigh what is
needed. -/
theorem canonicalRow_median {row : ScoreRow} (hneed : 0 < need)
    (h : canonicalRow stakes brainId need contributors miner = .ok (some row)) :
    row.miner = miner ∧ ∃ tagged : List (Text × Int × Int),
      (tagged.map Prod.fst).Sublist (contributors.map Prod.fst) ∧
      (∀ e ∈ tagged, Reported stakes brainId miner contributors e) ∧
      (∀ (p : Text → Prop) [DecidablePred p],
        total ((tagged.filter fun e => p e.1).map Prod.snd) =
          behind stakes brainId miner p contributors) ∧
      need ≤ total (tagged.map Prod.snd) ∧
      IsLowerMedian (tagged.map Prod.snd) row.score := by
  obtain ⟨scores, hscores, -⟩ := bind_ok.mp h
  obtain ⟨tagged, rfl, hsub, hreported, hbehind⟩ := weightedScores_ok hscores
  -- a scorer without stake does not count
  have hpositive : ∀ e ∈ tagged.map Prod.snd, 0 < e.2 := by
    intro e he
    obtain ⟨b, hb, rfl⟩ := List.mem_map.mp he
    exact (hreported b hb).positive
  rcases canonicalRow_ok hneed hscores hpositive with ⟨-, hnone⟩ | ⟨hcovered, score, hmedian, hsome⟩
  · rw [hnone] at h
    cases h
  · rw [hsome] at h
    obtain rfl : _ = row := Option.some.inj (Except.ok.inj h)
    exact ⟨rfl, tagged, hsub, hreported, hbehind, hcovered, hmedian⟩

theorem quorumNeed_pos {minQuorumBps total : Int} (hbps : 0 < minQuorumBps)
    (htotal : 0 ≤ total) : 0 < quorumNeed minQuorumBps total := by
  unfold quorumNeed
  split
  case isTrue hne =>
    have hpos : 1 ≤ total * minQuorumBps := Int.mul_pos (by omega) hbps
    omega
  case isFalse => exact Int.one_pos

/-- A frozen row is a canonical row. -/
theorem canonicalize_row {minQuorumBps : Int} {frozen : Frozen} {row : ScoreRow}
    (h : canonicalize o stakes brainId minQuorumBps contributors = .ok (some frozen))
    (hrow : row ∈ frozen.rows) : ∃ total miner, stakes.totalStake brainId = .ok total ∧
      canonicalRow stakes brainId (quorumNeed minQuorumBps total) contributors miner =
        .ok (some row) := by
  simp only [canonicalize, bind_ok] at h
  obtain ⟨total, htotal, held, -, h⟩ := h
  split at h
  case isTrue => cases h
  case isFalse =>
    simp only [bind_ok, return_ok, Option.some.injEq] at h
    obtain ⟨rows, hrows, _, -, ⟨root, hashed⟩, -, rfl⟩ := h
    obtain ⟨found, hfound, hid⟩ := List.mem_filterMap.mp hrow
    obtain rfl : found = some row := hid
    obtain ⟨miner, -, hcanonical⟩ := (mem_mapM hrows).mp hfound
    exact ⟨total, miner, htotal, hcanonical⟩

end Medians

/-! ## Minorities -/

section Minorities

variable {o : Offchain} {stakes : Stakes} {brainId need lo hi : Int} {miner : Text}
  {contributors : List (Text × Candidate)} {honest : Text → Prop} [DecidablePred honest]

/-- Whoever is not honest holds less than half of `need`. -/
def Outweighed (stakes : Stakes) (brainId : Int) (honest : Text → Prop) (need : Int) : Prop :=
  ∀ signers : List Text, signers.Nodup → (∀ signer ∈ signers, ¬ honest signer) →
    ∀ held, signers.mapM (stakes.stakeOf brainId) = .ok held → 2 * held.sum < need

/-- The honest contributors have more stake behind their scores for the miner than the
others. -/
def HonestMajority (stakes : Stakes) (brainId : Int) (miner : Text) (honest : Text → Prop)
    [DecidablePred honest] (contributors : List (Text × Candidate)) : Prop :=
  behind stakes brainId miner (fun signer => ¬ honest signer) contributors <
    behind stakes brainId miner honest contributors

/-- The scores of a miner, by who has given them. -/
theorem tagged_perm (honest : Text → Prop) [DecidablePred honest]
    (tagged : List (Text × Int × Int)) :
    (tagged.map Prod.snd).Perm ((tagged.filter fun e => honest e.1).map Prod.snd ++
      (tagged.filter fun e => ¬ honest e.1).map Prod.snd) := by
  rw [← List.map_append]
  apply List.Perm.map
  have hsplit := (List.filter_append_perm (fun e : Text × Int × Int => decide (honest e.1)) tagged)
  simp only [decide_not]
  exact hsplit.symm

/-- Half of what is needed is a majority of what there is. -/
theorem Outweighed.majority (h : Outweighed stakes brainId honest need)
    (hdistinct : (contributors.map Prod.fst).Nodup) {tagged : List (Text × Int × Int)}
    (hsub : (tagged.map Prod.fst).Sublist (contributors.map Prod.fst))
    (hreported : ∀ e ∈ tagged, Reported stakes brainId miner contributors e)
    (hneed : need ≤ total (tagged.map Prod.snd)) :
    total ((tagged.filter fun e => ¬ honest e.1).map Prod.snd) <
      total ((tagged.filter fun e => honest e.1).map Prod.snd) := by
  -- the stakes of the others are among those that were read
  have hothers : (((tagged.filter fun e => ¬ honest e.1).map Prod.fst).mapM
      (stakes.stakeOf brainId)) =
      .ok ((tagged.filter fun e => ¬ honest e.1).map fun e => e.2.2) := by
    rw [List.mapM_map]
    apply mapM_ok
    intro e he
    exact (hreported e (List.mem_of_mem_filter he)).staked
  have hless := h _ ((hdistinct.sublist hsub).sublist (List.filter_sublist.map Prod.fst))
    (by
      intro signer hsigner
      obtain ⟨e, he, rfl⟩ := List.mem_map.mp hsigner
      exact of_decide_eq_true (List.mem_filter.mp he).2) _ hothers
  have hsum : ((tagged.filter fun e => ¬ honest e.1).map fun e => e.2.2).sum =
      total ((tagged.filter fun e => ¬ honest e.1).map Prod.snd) := by
    rw [total, List.map_map]
    rfl
  have hall := total_perm (tagged_perm honest tagged)
  rw [total_append] at hall
  omega

end Minorities

/-- **Canonical scores.** Say that whenever an honest validator scores the miner for the
epoch, the score is within bounds, whatever all the others submit, and in whatever order.
Where those others hold less than half of the quorum, or just less behind their scores for
the miner than the honest contributors when the pool freezes, the canonical score of the
miner is within the bounds. -/
theorem canonical_score_bounded {o : Offchain} {stakes : Stakes} {minQuorumBps total : Int}
    {calls : List PoolCall} {honest : Text → Prop} [DecidablePred honest]
    {epoch brainId lo hi : Int} {frozen : Frozen} {row : ScoreRow}
    (hbps : 0 < minQuorumBps) (htotal : stakes.totalStake brainId = .ok total)
    (htotal_nonneg : 0 ≤ total)
    (hhonest : ∀ c ∈ calls, c.epoch = epoch → c.brainId = brainId →
      ∀ signer candidate, c.candidate o stakes = .ok (signer, candidate) → honest signer →
      ∀ score, dictGet row.miner candidate = some score → lo ≤ score ∧ score ≤ hi)
    (hminority : Outweighed stakes brainId honest (quorumNeed minQuorumBps total) ∨
      HonestMajority stakes brainId row.miner honest
        (((CanonicalCandidatePool.start minQuorumBps).addAll o stakes calls).candidates
          epoch brainId))
    (hfrozen : ((CanonicalCandidatePool.start minQuorumBps).addAll o stakes calls).frozen
      epoch brainId = some frozen) (hrow : row ∈ frozen.rows) :
    lo ≤ row.score ∧ row.score ≤ hi := by
  have hpool : PoolInv o stakes calls
      ((CanonicalCandidatePool.start minQuorumBps).addAll o stakes calls) :=
    PoolInv.addAll minQuorumBps
  have hcanonical := hpool.canonical epoch brainId frozen hfrozen
  rw [minQuorumBps_addAll] at hcanonical
  obtain ⟨total', miner, htotal', hrow'⟩ := canonicalize_row hcanonical hrow
  obtain rfl : total = total' := Except.ok.inj (htotal.symm.trans htotal')
  obtain ⟨rfl, tagged, hsub, hreported, hbehind, hneed, hmedian⟩ :=
    canonicalRow_median (quorumNeed_pos hbps htotal_nonneg) hrow'
  have hmajority : WeightedMedian.total ((tagged.filter fun e => ¬ honest e.1).map Prod.snd) <
      WeightedMedian.total ((tagged.filter fun e => honest e.1).map Prod.snd) := by
    rcases hminority with hless | hmore
    · exact hless.majority (hpool.distinct epoch brainId) hsub hreported hneed
    · rw [hbehind fun signer => ¬ honest signer, hbehind honest]
      exact hmore
  apply (hmedian.perm (tagged_perm honest tagged)).within _ _ hmajority
  · -- the honest scores are within the bounds
    intro scored hscored
    obtain ⟨e, he, rfl⟩ := List.mem_map.mp hscored
    obtain ⟨hmem, hhon⟩ := List.mem_filter.mp he
    obtain ⟨candidate, hcontributor, hscore⟩ := (hreported e hmem).scored
    obtain ⟨c, hc, hepoch, hbrain, hcandidate⟩ :=
      hpool.submitted epoch brainId _ hcontributor
    exact ⟨(hreported e hmem).positive.le, hhonest c hc hepoch hbrain _ _ hcandidate
      (of_decide_eq_true hhon) _ hscore⟩
  · intro scored hscored
    obtain ⟨e, he, rfl⟩ := List.mem_map.mp hscored
    exact (hreported e (List.mem_of_mem_filter he)).positive.le

/-! ## A quick minority -/

/-- Validators 7, 8 and 9 have 2, 49 and 49 at stake on every Brain. -/
def toyTriad : Stakes where
  stakeOf _ signer :=
    .ok (if hexAddress signer = some 7 then 2
      else if hexAddress signer = some 8 ∨ hexAddress signer = some 9 then 49 else 0)
  totalStake _ := .ok 100

/-- A validator scores miner 5 of Brain 3 in epoch 0. -/
def toyCall (signer : Address) (score : Int) : PoolCall where
  epoch := 0
  brainId := 3
  signer := toChecksum toyCrypto signer
  scores := [.dict [(text "miner", .str (text "0x0000000000000000000000000000000000000005")),
    (text "score", .int score)]]

/-- Validator 9 gives no score, before validators 7 and 8 give half of the range each. -/
def toyRush : List PoolCall := [toyCall 9 0, toyCall 7 500000, toyCall 8 500000]

/-- All but validator 9. -/
def ToyHonest (signer : Text) : Prop := hexAddress signer ≠ some 9

instance : DecidablePred ToyHonest := fun signer =>
  inferInstanceAs (Decidable (hexAddress signer ≠ some 9))

theorem toyTriad_stakes :
    toyTriad.stakeOf 3 (toChecksum toyCrypto 7) = .ok 2 ∧
      toyTriad.stakeOf 3 (toChecksum toyCrypto 8) = .ok 49 ∧
      toyTriad.stakeOf 3 (toChecksum toyCrypto 9) = .ok 49 :=
  ⟨congrArg Except.ok (by decide +kernel), congrArg Except.ok (by decide +kernel),
    congrArg Except.ok (by decide +kernel)⟩

theorem toyRush_candidates :
    toyRush.map (fun c => (c.candidate toyOffchain toyTriad).toOption) =
      [some (toChecksum toyCrypto 9, [(toChecksum toyCrypto 5, 0)]),
        some (toChecksum toyCrypto 7, [(toChecksum toyCrypto 5, 500000)]),
        some (toChecksum toyCrypto 8, [(toChecksum toyCrypto 5, 500000)])] := by
  decide +kernel

/-- The honest validators score miner 5 alike. -/
theorem toyRush_honest {c : PoolCall} (hc : c ∈ toyRush) {signer : Text} {candidate : Candidate}
    (hcandidate : c.candidate toyOffchain toyTriad = .ok (signer, candidate))
    (hhonest : ToyHonest signer) {score : Int}
    (hscore : dictGet (toChecksum toyCrypto 5) candidate = some score) : score = 500000 := by
  have hmem : some (signer, candidate) ∈
      toyRush.map (fun c => (c.candidate toyOffchain toyTriad).toOption) :=
    List.mem_map.mpr ⟨c, hc, congrArg Except.toOption hcandidate⟩
  have hnine : ¬ ToyHonest (toChecksum toyCrypto 9) := by decide +kernel
  rw [toyRush_candidates] at hmem
  simp only [List.mem_cons, List.not_mem_nil, or_false, Option.some.injEq, Prod.mk.injEq]
    at hmem
  rcases hmem with ⟨rfl, rfl⟩ | ⟨-, rfl⟩ | ⟨-, rfl⟩
  · exact absurd hhonest hnine
  · rw [dictGet, if_pos rfl] at hscore
    exact (Option.some.inj hscore).symm
  · rw [dictGet, if_pos rfl] at hscore
    exact (Option.some.inj hscore).symm

/-- **A quick minority.** The honest validators have more than half of the stake, and score
miner 5 alike; but the pool freezes when a quorum is there, and most of what it has counted
then is the score of validator 9. -/
theorem minority_moves_score :
    toyTriad.totalStake 3 = .ok 100 ∧
      (toyTriad.stakeOf 3 (toChecksum toyCrypto 7) = .ok 2 ∧
        ToyHonest (toChecksum toyCrypto 7)) ∧
      (toyTriad.stakeOf 3 (toChecksum toyCrypto 8) = .ok 49 ∧
        ToyHonest (toChecksum toyCrypto 8)) ∧
      (∀ c ∈ toyRush, ∀ signer candidate,
        c.candidate toyOffchain toyTriad = .ok (signer, candidate) → ToyHonest signer →
        ∀ score, dictGet (toChecksum toyCrypto 5) candidate = some score →
          500000 ≤ score ∧ score ≤ 500000) ∧
      (((CanonicalCandidatePool.start 5001).addAll toyOffchain toyTriad toyRush).frozen 0 3).map
        Frozen.rows = some [⟨toChecksum toyCrypto 5, 0⟩] := by
  obtain ⟨hseven, height, -⟩ := toyTriad_stakes
  refine ⟨rfl, ⟨hseven, by decide +kernel⟩, ⟨height, by decide +kernel⟩, ?_, by decide +kernel⟩
  intro c hc signer candidate hcandidate hhonest score hscore
  obtain rfl := toyRush_honest hc hcandidate hhonest hscore
  exact ⟨le_rfl, le_rfl⟩

/-- The honest validators are quicker. -/
def toyCalm : List PoolCall := [toyCall 8 500000, toyCall 7 500000, toyCall 9 0]

theorem canonical_score_bounded_triad :
    ∃ frozen row, ((CanonicalCandidatePool.start 5001).addAll toyOffchain toyTriad
        toyCalm).frozen 0 3 = some frozen ∧ row ∈ frozen.rows ∧
      500000 ≤ row.score ∧ row.score ≤ 500000 := by
  have hrows : (((CanonicalCandidatePool.start 5001).addAll toyOffchain toyTriad
      toyCalm).frozen 0 3).map Frozen.rows = some [⟨toChecksum toyCrypto 5, 500000⟩] := by
    decide +kernel
  obtain ⟨frozen, hfrozen, hrow⟩ := Option.map_eq_some_iff.mp hrows
  have hmem : (⟨toChecksum toyCrypto 5, 500000⟩ : ScoreRow) ∈ frozen.rows := by
    rw [hrow]
    exact List.mem_singleton_self _
  have hsame : ∀ c ∈ toyCalm, c ∈ toyRush := by
    intro c hc
    simp only [toyCalm, toyRush, List.mem_cons, List.not_mem_nil, or_false] at hc ⊢
    rcases hc with hc | hc | hc
    · exact .inr (.inr hc)
    · exact .inr (.inl hc)
    · exact .inl hc
  -- the honest hold more than half of the stake behind the score
  have hmajority : HonestMajority toyTriad 3 (toChecksum toyCrypto 5) ToyHonest
      (((CanonicalCandidatePool.start 5001).addAll toyOffchain toyTriad
        toyCalm).candidates 0 3) := by
    unfold HonestMajority
    decide +kernel
  refine ⟨frozen, _, hfrozen, hmem, @canonical_score_bounded toyOffchain toyTriad 5001 100
    toyCalm ToyHonest _ 0 3 500000 500000 _ _ (by decide) rfl (by decide) ?_ (.inr hmajority)
    hfrozen hmem⟩
  intro c hc _ _ signer candidate hcandidate hhonest score hscore
  obtain rfl := toyRush_honest (hsame c hc) hcandidate hhonest hscore
  exact ⟨le_rfl, le_rfl⟩

end BasedAI
