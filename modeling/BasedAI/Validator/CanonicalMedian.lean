import BasedAI.Validator.CanonicalScores

/-!
# BasedAI — the canonical result, once and for all

With the stakes of a Brain fixed, what the pool freezes for an epoch depends on what has been
submitted alone, and this module says what it is without computing it: the scores are lower
medians of the stake behind them, of the miners that a quorum has scored.

* `canonicalize_fixed`   — the canonical result of some contributors, if they are ready;
* `canonical_frozen_once` — the pool freezes it after the first call that makes them ready,
  and it never changes.
-/

namespace BasedAI

open Fallible Python Mapping WeightedMedian CanonicalCandidatePool

/-! ## What a canonical result is -/

section Spec

variable (stake : Text → Int) (need : Int) (contributors : List (Text × Candidate))

/-- The chain answers for the stake of every address, and for the stake of the Brain. -/
structure StakesFixed (o : Offchain) (stakes : Stakes) (brainId : Int) (stake : Text → Int)
    (total : Int) : Prop where
  stakeOf : ∀ a, stakes.stakeOf brainId (toChecksum o.crypto a) =
    .ok (stake (toChecksum o.crypto a))
  nonneg : ∀ signer, 0 ≤ stake signer
  totalStake : stakes.totalStake brainId = .ok total

/-- What contributors have at stake together. -/
def held (contributors : List (Text × Candidate)) : Int :=
  (contributors.map fun c => stake c.1).sum

/-- Those who score the miner. -/
def scorers (miner : Text) : List (Text × Candidate) :=
  contributors.filter fun c => (dictGet miner c.2).isSome

/-- Those who give the miner no more than `score`. -/
def scorersUpTo (miner : Text) (score : Int) : List (Text × Candidate) :=
  contributors.filter fun c => (dictGet miner c.2).any (· ≤ score)

/-- The contributors hold what is needed, and so do the scorers of some miner. -/
def Ready : Prop :=
  need ≤ held stake contributors ∧ ∃ miner, need ≤ held stake (scorers contributors miner)

/-- The least score reported for the miner such that at least half of the stake of its
scorers is with those who report no more. -/
structure IsCanonicalScore (miner : Text) (score : Int) : Prop where
  reported : ∃ c ∈ contributors, dictGet miner c.2 = some score
  half : held stake (scorers contributors miner) ≤
    2 * held stake (scorersUpTo contributors miner score)
  least : ∀ c ∈ contributors, ∀ other, dictGet miner c.2 = some other →
    held stake (scorers contributors miner) ≤
      2 * held stake (scorersUpTo contributors miner other) → score ≤ other

/-- The canonical result of the contributors: a row for each miner whose scorers hold what is
needed, in the order of the miners, and the root of the rows. -/
structure IsCanonical (o : Offchain) (brainId : Int) (frozen : Frozen) : Prop where
  sorted : (frozen.rows.map ScoreRow.miner).Pairwise textLe
  once : (frozen.rows.map ScoreRow.miner).Nodup
  miners : ∀ miner, miner ∈ frozen.rows.map ScoreRow.miner ↔
    need ≤ held stake (scorers contributors miner)
  scores : ∀ row ∈ frozen.rows, IsCanonicalScore stake contributors row.miner row.score
  root : Rooted o brainId frozen

end Spec

/-! ## Candidates -/

/-- A candidate scores addresses, within the range. -/
def Candidate.InRange (o : Offchain) (candidate : Candidate) : Prop :=
  ∀ e ∈ candidate, (∃ a, e.1 = toChecksum o.crypto a) ∧ 0 ≤ e.2 ∧ e.2 ≤ 1000000

/-- Contributors are addresses, and their candidates are in range. -/
def Submitted (o : Offchain) (contributors : List (Text × Candidate)) : Prop :=
  ∀ c ∈ contributors, (∃ a, c.1 = toChecksum o.crypto a) ∧ c.2.InRange o

section Candidates

variable {o : Offchain} {stakes : Stakes} {brainId : Int}

theorem normalizeRows_inRange {rows : List Json} {acc normalized : Candidate}
    (hacc : acc.InRange o) (h : normalizeRows o rows acc = .ok normalized) :
    normalized.InRange o := by
  induction rows generalizing acc with
  | nil =>
    obtain rfl : acc = normalized := Except.ok.inj h
    exact hacc
  | cons row rest ih =>
    simp only [normalizeRows, bind_ok, raiseIf, revertIf_ok] at h
    obtain ⟨miner, hminer, checksummed, hchecksum, _, -, score, -, _, hrange, hrest⟩ := h
    obtain ⟨a, rfl⟩ := toChecksumAddress_ok hchecksum
    refine ih ?_ hrest
    intro e he
    -- the new row was checked before it was written
    rcases mem_dictSet he with rfl | hold
    · refine ⟨⟨a, rfl⟩, ?_⟩
      dsimp only
      omega
    · exact hacc e hold

theorem normalizeCandidate_submitted {signer key : Text} {scores : List Json}
    {normalized : Candidate}
    (h : normalizeCandidate o stakes brainId signer scores = .ok (key, normalized)) :
    (∃ a, key = toChecksum o.crypto a) ∧ normalized.InRange o := by
  simp only [normalizeCandidate, bind_ok, return_ok] at h
  obtain ⟨_, -, _, -, normalized', hrows, _, -, key', hkey, heq⟩ := h
  obtain ⟨rfl, rfl⟩ := Prod.mk.inj heq
  obtain ⟨a, rfl⟩ := toChecksumAddress_ok hkey
  exact ⟨⟨a, rfl⟩, normalizeRows_inRange (fun e he => absurd he List.not_mem_nil) hrows⟩

end Candidates

/-! ## Texts in order -/

theorem textLe_nil (t : Text) : textLe [] t := rfl

theorem not_textLe_nil (c : CodePoint) (s : Text) : ¬ textLe (c :: s) [] := nofun

theorem textLe_cons (c d : CodePoint) (s t : Text) :
    textLe (c :: s) (d :: t) ↔ c < d ∨ c = d ∧ textLe s t := by
  simp only [textLe, textGt]
  split
  case isTrue heq => simp [heq]
  case isFalse hne =>
    simp only [hne, false_and, or_false, decide_eq_false_iff_not, not_lt]
    exact ⟨fun h => lt_of_le_of_ne h hne, le_of_lt⟩

instance : Std.Total textLe where
  total s t := by
    induction s generalizing t with
    | nil => exact .inl (textLe_nil t)
    | cons c s ih =>
      cases t with
      | nil => exact .inr (textLe_nil _)
      | cons d t =>
        rw [textLe_cons, textLe_cons]
        rcases lt_trichotomy c d with hless | rfl | hmore
        · exact .inl (.inl hless)
        · exact (ih t).imp (fun h => .inr ⟨rfl, h⟩) (fun h => .inr ⟨rfl, h⟩)
        · exact .inr (.inl hmore)

instance : IsTrans Text textLe where
  trans s t u hst htu := by
    induction s generalizing t u with
    | nil => exact textLe_nil u
    | cons c s ih =>
      cases t with
      | nil => exact absurd hst (not_textLe_nil c s)
      | cons d t =>
        cases u with
        | nil => exact absurd htu (not_textLe_nil d t)
        | cons e u =>
          rw [textLe_cons] at hst htu ⊢
          rcases hst with hcd | ⟨rfl, hst⟩
          · rcases htu with hde | ⟨rfl, -⟩
            · exact .inl (hcd.trans hde)
            · exact .inl hcd
          · exact htu.imp id (And.imp_right (ih t u hst))

/-- The miners of the candidates, once each and in order. -/
theorem candidateMiners_sorted (contributors : List (Text × Candidate)) :
    (candidateMiners contributors).Pairwise textLe :=
  List.pairwise_insertionSort textLe _

theorem candidateMiners_nodup (contributors : List (Text × Candidate)) :
    (candidateMiners contributors).Nodup :=
  (List.perm_insertionSort textLe _).nodup_iff.mpr (List.nodup_dedup _)

/-- A miner with a score is among them. -/
theorem mem_candidateMiners {contributors : List (Text × Candidate)} {c : Text × Candidate}
    (hc : c ∈ contributors) {miner : Text} {score : Int}
    (hscore : dictGet miner c.2 = some score) : miner ∈ candidateMiners contributors := by
  apply (List.perm_insertionSort textLe _).mem_iff.mpr
  apply List.mem_dedup.mpr
  apply List.mem_flatMap.mpr
  exact ⟨c, hc, List.mem_map.mpr ⟨_, mem_of_dictGet hscore, rfl⟩⟩

/-! ## Rows -/

section Rows

variable {o : Offchain} {stakes : Stakes} {brainId total need : Int} {stake : Text → Int}
  {miner : Text} {contributors : List (Text × Candidate)}

theorem held_cons (c : Text × Candidate) (rest : List (Text × Candidate)) :
    held stake (c :: rest) = stake c.1 + held stake rest := List.sum_cons

theorem held_filter_cons (p : Text × Candidate → Bool) (c : Text × Candidate)
    (rest : List (Text × Candidate)) :
    held stake ((c :: rest).filter p) =
      (if p c then stake c.1 else 0) + held stake (rest.filter p) := by
  rw [List.filter_cons]
  split
  · exact held_cons _ _
  · exact (Int.zero_add _).symm

theorem StakesFixed.stakeOf_submitted (h : StakesFixed o stakes brainId stake total)
    (hsubmitted : Submitted o contributors) {c : Text × Candidate} (hc : c ∈ contributors) :
    stakes.stakeOf brainId c.1 = .ok (stake c.1) := by
  obtain ⟨a, ha⟩ := (hsubmitted c hc).1
  rw [ha]
  exact h.stakeOf a

/-- The scores of a miner weigh what its scorers have at stake. -/
theorem weightedScores_fixed (h : StakesFixed o stakes brainId stake total)
    (hsubmitted : Submitted o contributors) (miner : Text) :
    ∃ scores, weightedScores stakes brainId miner contributors = .ok scores ∧
      WeightedMedian.total scores = held stake (scorers contributors miner) ∧
      (∀ score, weightOf (· ≤ score) scores = held stake (scorersUpTo contributors miner score)) ∧
      (∀ e ∈ scores, 0 < e.2 ∧ ∃ c ∈ contributors, dictGet miner c.2 = some e.1) := by
  induction contributors with
  | nil => exact ⟨[], rfl, rfl, fun _ => rfl, fun e he => absurd he List.not_mem_nil⟩
  | cons c rest ih =>
    obtain ⟨hc, hrest⟩ := List.forall_mem_cons.mp hsubmitted
    obtain ⟨scores, hscores, htotal, hweight, hreported⟩ := ih hrest
    have hstake : stakes.stakeOf brainId c.1 = .ok (stake c.1) :=
      h.stakeOf_submitted hsubmitted List.mem_cons_self
    have hlater : ∀ e ∈ scores, 0 < e.2 ∧ ∃ c' ∈ c :: rest, dictGet miner c'.2 = some e.1 := by
      intro e he
      obtain ⟨hpos, c', hc', hget⟩ := hreported e he
      exact ⟨hpos, c', List.mem_cons_of_mem _ hc', hget⟩
    simp only [scorers, scorersUpTo] at htotal hweight ⊢
    obtain ⟨signer, candidate⟩ := c
    dsimp only at hstake
    rw [weightedScores]
    simp only [held_filter_cons]
    cases hget : dictGet miner candidate with
    | none =>
      refine ⟨scores, hscores, ?_, ?_, hlater⟩
      · simpa using htotal
      · intro score
        simpa using hweight score
    | some score =>
      have hnonneg := h.nonneg signer
      -- a score without stake is dropped, which no weight notices
      refine ⟨if 0 < stake signer then (score, stake signer) :: scores else scores, ?_, ?_, ?_, ?_⟩
      · simp only [bind_ok, return_ok]
        exact ⟨_, hstake, _, hscores, rfl⟩
      · simp only [Option.isSome_some, if_true]
        split
        · rw [total_cons, htotal]
        · rw [htotal]
          omega
      · intro bound
        simp only [Option.any_some, decide_eq_true_eq]
        split
        · rw [weightOf, hweight bound]
        · rw [hweight bound]
          split <;> omega
      · split
        case isTrue hpos =>
          refine List.forall_mem_cons.mpr ⟨⟨hpos, _, List.mem_cons_self, hget⟩, hlater⟩
        case isFalse => exact hlater

/-- **A canonical score**, if the scorers of the miner hold what is needed. -/
theorem canonicalRow_fixed (h : StakesFixed o stakes brainId stake total)
    (hsubmitted : Submitted o contributors) (hneed : 0 < need) (miner : Text) :
    (held stake (scorers contributors miner) < need ∧
      canonicalRow stakes brainId need contributors miner = .ok none) ∨
    (need ≤ held stake (scorers contributors miner) ∧ ∃ score,
      IsCanonicalScore stake contributors miner score ∧
      canonicalRow stakes brainId need contributors miner = .ok (some ⟨miner, score⟩)) := by
  obtain ⟨scores, hscores, htotal, hweight, hreported⟩ := weightedScores_fixed h hsubmitted miner
  have hrow := canonicalRow_ok hneed hscores fun e he => (hreported e he).1
  rw [htotal] at hrow
  apply hrow.imp_right
  rintro ⟨hcovered, score, hmedian, hsome⟩
  refine ⟨hcovered, score, ⟨?_, ?_, ?_⟩, hsome⟩
  · -- a median is one of the scores
    obtain ⟨e, he, rfl⟩ := List.mem_map.mp hmedian.mem
    exact (hreported e he).2
  · rw [← htotal, ← hweight]
    exact hmedian.reached
  · intro c _ other _ hreached
    rw [← htotal, ← hweight] at hreached
    exact hmedian.le_of_reached (fun e he => (hreported e he).1.le) hreached

/-- The rows of some miners. -/
theorem canonicalRows_fixed (h : StakesFixed o stakes brainId stake total)
    (hsubmitted : Submitted o contributors) (hneed : 0 < need) (miners : List Text) :
    ∃ rows, miners.mapM (canonicalRow stakes brainId need contributors) = .ok rows ∧
      (rows.filterMap id).map ScoreRow.miner =
        miners.filter (fun miner => need ≤ held stake (scorers contributors miner)) ∧
      (∀ row ∈ rows.filterMap id, IsCanonicalScore stake contributors row.miner row.score) := by
  induction miners with
  | nil => exact ⟨[], rfl, rfl, fun row hrow => absurd hrow List.not_mem_nil⟩
  | cons miner rest ih =>
    obtain ⟨rows, hrows, hminers, hscores⟩ := ih
    rcases canonicalRow_fixed h hsubmitted hneed miner with
      ⟨hless, hnone⟩ | ⟨hcovered, score, hscore, hsome⟩
    · -- a miner with too little stake behind it has no row
      refine ⟨none :: rows, ?_, ?_, hscores⟩
      · rw [List.mapM_cons, hnone, hrows]
        rfl
      · rw [List.filter_cons_of_neg (by simpa using hless)]
        exact hminers
    · refine ⟨some ⟨miner, score⟩ :: rows, ?_, ?_, ?_⟩
      · rw [List.mapM_cons, hsome, hrows]
        rfl
      · rw [List.filter_cons_of_pos (by simpa using hcovered), ← hminers]
        rfl
      · exact List.forall_mem_cons.mpr ⟨hscore, hscores⟩

/-- A row of the pool has a leaf. -/
theorem leaf_hash {a : Address} {score : Int} (hbrain : 0 ≤ brainId ∧ brainId < 2 ^ 256)
    (hscore : 0 ≤ score ∧ score ≤ 1000000) :
    ∃ w, ScoreLeaf.hash o.crypto ⟨brainId, toChecksum o.crypto a, score⟩ = .ok w := by
  obtain ⟨b, rfl⟩ := Int.eq_ofNat_of_zero_le hbrain.1
  obtain ⟨s, rfl⟩ := Int.eq_ofNat_of_zero_le hscore.1
  have hb : b < 2 ^ 256 := by exact_mod_cast hbrain.2
  have hs : s < 2 ^ 256 := by omega
  unfold ScoreLeaf.hash
  dsimp only
  rw [encodeUint_eq hb, encodeAddress_toChecksum, encodeUint_eq hs]
  exact ⟨_, rfl⟩

theorem merkleRoot_fixed (hsubmitted : Submitted o contributors)
    (hbrain : 0 ≤ brainId ∧ brainId < 2 ^ 256) {rows : List ScoreRow}
    (hscores : ∀ row ∈ rows, IsCanonicalScore stake contributors row.miner row.score) :
    ∃ root hashed, buildMerkleRoot o.crypto (canonicalLeaves brainId rows) =
      .ok (root, hashed) := by
  have hleaves : ∀ leaf ∈ canonicalLeaves brainId rows, ∃ w, leaf.hash o.crypto = .ok w := by
    intro leaf hleaf
    obtain ⟨row, hrow, rfl⟩ := List.mem_map.mp hleaf
    -- a canonical score was reported, and what is reported was checked
    obtain ⟨c, hc, hreported⟩ := (hscores row hrow).reported
    obtain ⟨⟨a, ha⟩, hrange⟩ := (hsubmitted c hc).2 _ (mem_of_dictGet hreported)
    dsimp only at ha hrange ⊢
    rw [ha]
    exact leaf_hash hbrain hrange
  obtain ⟨hashes, hhashes⟩ := mapM_total _ hleaves
  refine ⟨merkleRoot o.crypto (hashes.insertionSort (· ≤ ·)),
    hashes.insertionSort (· ≤ ·), ?_⟩
  unfold buildMerkleRoot
  rw [hhashes]
  rfl

/-- A miner that is covered is scored by somebody. -/
theorem exists_scorer (hneed : 0 < need)
    (hcovered : need ≤ held stake (scorers contributors miner)) :
    ∃ c ∈ contributors, ∃ score, dictGet miner c.2 = some score := by
  cases hscorers : scorers contributors miner with
  | nil =>
    rw [hscorers] at hcovered
    exact absurd hcovered (not_le.mpr hneed)
  | cons c rest =>
    have hc : c ∈ scorers contributors miner := by
      rw [hscorers]
      exact List.mem_cons_self
    obtain ⟨hmem, hsome⟩ := List.mem_filter.mp hc
    exact ⟨c, hmem, Option.isSome_iff_exists.mp hsome⟩

/-- **The canonical result** of contributors: nothing before they hold what is needed, an
error when they do and no miner is covered, and otherwise what it should be. -/
theorem canonicalize_fixed {minQuorumBps : Int} (h : StakesFixed o stakes brainId stake total)
    (hsubmitted : Submitted o contributors) (hbrain : 0 ≤ brainId ∧ brainId < 2 ^ 256)
    (hneed : 0 < quorumNeed minQuorumBps total) :
    (held stake contributors < quorumNeed minQuorumBps total ∧
      canonicalize o stakes brainId minQuorumBps contributors = .ok none) ∨
    (quorumNeed minQuorumBps total ≤ held stake contributors ∧
      (∀ miner, held stake (scorers contributors miner) < quorumNeed minQuorumBps total) ∧
      canonicalize o stakes brainId minQuorumBps contributors =
        .error (.valueError "no score has quorum coverage")) ∨
    (Ready stake (quorumNeed minQuorumBps total) contributors ∧ ∃ frozen,
      IsCanonical stake (quorumNeed minQuorumBps total) contributors o brainId frozen ∧
      canonicalize o stakes brainId minQuorumBps contributors = .ok (some frozen)) := by
  have hheld : contributors.mapM (fun c => stakes.stakeOf brainId c.1) =
      .ok (contributors.map fun c => stake c.1) :=
    mapM_ok _ fun c hc => h.stakeOf_submitted hsubmitted hc
  obtain ⟨rows, hrows, hminers, hscores⟩ :=
    canonicalRows_fixed h hsubmitted hneed (candidateMiners contributors)
  -- a row is written exactly for the miners whose scorers hold the quorum
  have hrow : ∀ miner, miner ∈ (rows.filterMap id).map ScoreRow.miner ↔
      quorumNeed minQuorumBps total ≤ held stake (scorers contributors miner) := by
    intro miner
    rw [hminers, List.mem_filter, decide_eq_true_eq, and_iff_right_iff_imp]
    intro hcovered
    obtain ⟨c, hc, score, hscore⟩ := exists_scorer hneed hcovered
    exact mem_candidateMiners hc hscore
  unfold canonicalize
  rw [h.totalStake, ok_bind]
  dsimp only
  rw [hheld, ok_bind]
  split
  case isTrue hless => exact .inl ⟨hless, rfl⟩
  case isFalse henough =>
    right
    have hquorum : quorumNeed minQuorumBps total ≤ held stake contributors := not_lt.mp henough
    rw [hrows, ok_bind]
    -- no row at all is an error, not a wait
    by_cases hempty : rows.filterMap id = []
    · left
      refine ⟨hquorum, ?_, ?_⟩
      · intro miner
        have hnone := (hrow miner).not
        rw [hempty] at hnone
        exact not_le.mp (hnone.mp List.not_mem_nil)
      · rw [raiseIf, revertIf, if_pos hempty]
        rfl
    · right
      obtain ⟨row, hmem⟩ := List.exists_mem_of_ne_nil _ hempty
      have hcovered := (hrow row.miner).mp (List.mem_map.mpr ⟨row, hmem, rfl⟩)
      obtain ⟨root, hashed, hroot⟩ := merkleRoot_fixed hsubmitted hbrain hscores
      refine ⟨⟨hquorum, row.miner, hcovered⟩, ⟨hexText root, rows.filterMap id⟩, ?_, ?_⟩
      · refine ⟨?_, ?_, hrow, hscores, root, hashed, hroot, rfl⟩
        · dsimp only
          rw [hminers]
          exact (candidateMiners_sorted contributors).filter _
        · dsimp only
          rw [hminers]
          exact (candidateMiners_nodup contributors).filter _
      · rw [raiseIf, revertIf_neg hempty, ok_bind]
        exact bind_ok.mpr ⟨(root, hashed), hroot, rfl⟩

end Rows

/-! ## Runs -/

section Runs

variable (o : Offchain) (stakes : Stakes) (epoch brainId : Int)

/-- A call that is for the epoch and the Brain, and is not refused, makes its signer a
contributor with the candidate it carries, in place of any earlier one. -/
def PoolCall.record (contributors : List (Text × Candidate)) (c : PoolCall) :
    List (Text × Candidate) :=
  if c.epoch = epoch ∧ c.brainId = brainId then
    match c.candidate o stakes with
    | .ok (key, candidate) => dictSet key candidate contributors
    | .error _ => contributors
  else contributors

/-- The contributors after some calls, each with its latest candidate. -/
def contributorsOf (calls : List PoolCall) : List (Text × Candidate) :=
  calls.foldl (PoolCall.record o stakes epoch brainId) []

end Runs

section PoolRuns

variable {o : Offchain} {stakes : Stakes} {epoch brainId total minQuorumBps : Int}
  {stake : Text → Int} {pool : CanonicalCandidatePool} {calls : List PoolCall} {c : PoolCall}

theorem contributorsOf_concat :
    contributorsOf o stakes epoch brainId (calls ++ [c]) =
      c.record o stakes epoch brainId (contributorsOf o stakes epoch brainId calls) := by
  rw [contributorsOf, List.foldl_append]
  rfl

theorem record_submitted {contributors : List (Text × Candidate)}
    (h : Submitted o contributors) :
    Submitted o (c.record o stakes epoch brainId contributors) := by
  unfold PoolCall.record
  split
  · split
    case h_1 key candidate hcandidate =>
      intro e he
      rcases mem_dictSet he with rfl | hold
      · exact normalizeCandidate_submitted hcandidate
      · exact h e hold
    case h_2 => exact h
  · exact h

theorem contributorsOf_submitted (o : Offchain) (stakes : Stakes) (epoch brainId : Int)
    (calls : List PoolCall) : Submitted o (contributorsOf o stakes epoch brainId calls) := by
  induction calls using List.reverseRecOn with
  | nil => exact fun e he => absurd he List.not_mem_nil
  | append_singleton calls c ih =>
    rw [contributorsOf_concat]
    exact record_submitted ih

theorem addAll_append {rest : List PoolCall} :
    pool.addAll o stakes (calls ++ rest) = (pool.addAll o stakes calls).addAll o stakes rest :=
  List.foldl_append

/-- What is frozen stays. -/
theorem frozen_add {frozen : Frozen} (h : pool.frozen epoch brainId = some frozen) :
    (pool.add o stakes c.brainId c.epoch c.signer c.scores).1.frozen epoch brainId =
      some frozen := by
  unfold CanonicalCandidatePool.add
  split
  case h_1 => exact h
  case h_2 hopen =>
    split
    case h_1 => exact h
    case h_2 =>
      dsimp only
      split
      case h_1 => exact h
      case h_2 => exact h
      case h_3 =>
        dsimp only
        rw [set₂_apply, if_neg]
        · exact h
        · -- what is frozen now was open, so it is another key
          rintro ⟨rfl, rfl⟩
          rw [hopen] at h
          cases h

theorem frozen_addAll {frozen : Frozen} (h : pool.frozen epoch brainId = some frozen) :
    (pool.addAll o stakes calls).frozen epoch brainId = some frozen := by
  induction calls generalizing pool with
  | nil => exact h
  | cons c rest ih => exact ih (frozen_add h)

/-- And it is what every later call is answered with. -/
theorem add_of_frozen {frozen : Frozen} (h : pool.frozen epoch brainId = some frozen)
    (signer : Text) (scores : List Json) :
    (pool.add o stakes brainId epoch signer scores).2 = .ok (some frozen) := by
  unfold CanonicalCandidatePool.add
  rw [h]

/-- A call for something else. -/
theorem add_elsewhere (o : Offchain) (stakes : Stakes) (pool : CanonicalCandidatePool)
    (hkey : ¬ (c.epoch = epoch ∧ c.brainId = brainId)) :
    (pool.add o stakes c.brainId c.epoch c.signer c.scores).1.candidates epoch brainId =
      pool.candidates epoch brainId ∧
    (pool.add o stakes c.brainId c.epoch c.signer c.scores).1.frozen epoch brainId =
      pool.frozen epoch brainId := by
  have hkey' : ¬ (epoch = c.epoch ∧ brainId = c.brainId) := fun h => hkey ⟨h.1.symm, h.2.symm⟩
  unfold CanonicalCandidatePool.add
  split
  case h_1 => exact ⟨rfl, rfl⟩
  case h_2 =>
    split
    case h_1 => exact ⟨rfl, rfl⟩
    case h_2 =>
      dsimp only
      split
      · simp [set₂_apply, hkey']
      · simp [set₂_apply, hkey']
      · simp [set₂_apply, hkey']

/-- A call that is refused before anything is recorded. -/
theorem add_refused {e : PyError} (hrefused : c.candidate o stakes = .error e) :
    (pool.add o stakes c.brainId c.epoch c.signer c.scores).1 = pool := by
  unfold PoolCall.candidate at hrefused
  unfold CanonicalCandidatePool.add
  split
  · rfl
  · rw [hrefused]

/-- A call that is recorded, and what is frozen then. -/
theorem add_recorded {key : Text} {candidate : Candidate}
    (hopen : pool.frozen c.epoch c.brainId = none)
    (hcandidate : c.candidate o stakes = .ok (key, candidate)) :
    (pool.add o stakes c.brainId c.epoch c.signer c.scores).1.candidates c.epoch c.brainId =
      dictSet key candidate (pool.candidates c.epoch c.brainId) ∧
    (pool.add o stakes c.brainId c.epoch c.signer c.scores).1.frozen c.epoch c.brainId =
      (canonicalize o stakes c.brainId pool.minQuorumBps
        (dictSet key candidate (pool.candidates c.epoch c.brainId))).toOption.join := by
  unfold PoolCall.candidate at hcandidate
  unfold CanonicalCandidatePool.add
  rw [hopen]
  dsimp only
  rw [hcandidate]
  dsimp only
  split
  -- the attempt to freeze raised; the candidate stays recorded
  case h_1 e herror =>
    rw [herror]
    exact ⟨set₂_same _ _ _ _, hopen⟩
  case h_2 hnone =>
    rw [hnone]
    exact ⟨set₂_same _ _ _ _, hopen⟩
  case h_3 frozen hsome =>
    rw [hsome]
    exact ⟨set₂_same _ _ _ _, set₂_same _ _ _ _⟩

/-- One call, where the contributors were not ready. -/
theorem add_step (hfixed : StakesFixed o stakes brainId stake total)
    (hbrain : 0 ≤ brainId ∧ brainId < 2 ^ 256)
    (hneed : 0 < quorumNeed pool.minQuorumBps total)
    (hopen : pool.frozen epoch brainId = none)
    (hsubmitted : Submitted o (pool.candidates epoch brainId))
    (hbefore : ¬ Ready stake (quorumNeed pool.minQuorumBps total)
      (pool.candidates epoch brainId)) :
    (pool.add o stakes c.brainId c.epoch c.signer c.scores).1.candidates epoch brainId =
      c.record o stakes epoch brainId (pool.candidates epoch brainId) ∧
    (¬ Ready stake (quorumNeed pool.minQuorumBps total)
        (c.record o stakes epoch brainId (pool.candidates epoch brainId)) →
      (pool.add o stakes c.brainId c.epoch c.signer c.scores).1.frozen epoch brainId = none) ∧
    (Ready stake (quorumNeed pool.minQuorumBps total)
        (c.record o stakes epoch brainId (pool.candidates epoch brainId)) →
      ∃ frozen, IsCanonical stake (quorumNeed pool.minQuorumBps total)
          (c.record o stakes epoch brainId (pool.candidates epoch brainId)) o brainId frozen ∧
        (pool.add o stakes c.brainId c.epoch c.signer c.scores).1.frozen epoch brainId =
          some frozen) := by
  -- a call for another epoch or Brain leaves this one alone
  by_cases hkey : c.epoch = epoch ∧ c.brainId = brainId
  · cases hcandidate : c.candidate o stakes with
    | error e =>
      have hsame : c.record o stakes epoch brainId (pool.candidates epoch brainId) =
          pool.candidates epoch brainId := by
        rw [PoolCall.record, if_pos hkey, hcandidate]
      rw [hsame, add_refused hcandidate]
      exact ⟨rfl, fun _ => hopen, fun hready => absurd hready hbefore⟩
    | ok r =>
      obtain ⟨key, candidate⟩ := r
      have hrecord : c.record o stakes epoch brainId (pool.candidates epoch brainId) =
          dictSet key candidate (pool.candidates epoch brainId) := by
        rw [PoolCall.record, if_pos hkey, hcandidate]
      have hsubmitted' : Submitted o (c.record o stakes epoch brainId
          (pool.candidates epoch brainId)) := record_submitted hsubmitted
      obtain ⟨rfl, rfl⟩ := hkey
      obtain ⟨hcandidates, hfrozen⟩ := add_recorded hopen hcandidate
      rw [hrecord] at hsubmitted' ⊢
      refine ⟨hcandidates, ?_⟩
      rw [hfrozen]
      -- too few candidates, no covered miner, or canonical scores
      rcases canonicalize_fixed hfixed hsubmitted' hbrain hneed with
        ⟨hless, hnone⟩ | ⟨-, huncovered, herror⟩ | ⟨hready, frozen, hcanonical, hsome⟩
      · rw [hnone]
        exact ⟨fun _ => rfl, fun hready => absurd hready.1 (not_le.mpr hless)⟩
      · rw [herror]
        refine ⟨fun _ => rfl, ?_⟩
        rintro ⟨-, miner, hcovered⟩
        exact absurd hcovered (not_le.mpr (huncovered miner))
      · rw [hsome]
        exact ⟨fun hnot => absurd hready hnot, fun _ => ⟨frozen, hcanonical, rfl⟩⟩
  · have hsame : c.record o stakes epoch brainId (pool.candidates epoch brainId) =
        pool.candidates epoch brainId := by
      rw [PoolCall.record, if_neg hkey]
    obtain ⟨hcandidates, hfrozen⟩ := add_elsewhere o stakes pool hkey
    rw [hsame, hcandidates, hfrozen]
    exact ⟨rfl, fun _ => hopen, fun hready => absurd hready hbefore⟩

/-- A run that never makes the contributors ready. -/
theorem addAll_open (hfixed : StakesFixed o stakes brainId stake total)
    (hbrain : 0 ≤ brainId ∧ brainId < 2 ^ 256) (hneed : 0 < quorumNeed minQuorumBps total)
    (hnever : ∀ before, before <+: calls → ¬ Ready stake (quorumNeed minQuorumBps total)
      (contributorsOf o stakes epoch brainId before)) :
    ((CanonicalCandidatePool.start minQuorumBps).addAll o stakes calls).frozen epoch brainId =
      none ∧
    ((CanonicalCandidatePool.start minQuorumBps).addAll o stakes calls).candidates epoch brainId =
      contributorsOf o stakes epoch brainId calls := by
  induction calls using List.reverseRecOn with
  | nil => exact ⟨rfl, rfl⟩
  | append_singleton calls c ih =>
    obtain ⟨hopen, hcandidates⟩ :=
      ih fun before hbefore => hnever before (hbefore.trans (List.prefix_append _ _))
    have hbefore := hnever calls (List.prefix_append _ _)
    have hafter := hnever (calls ++ [c]) List.prefix_rfl
    rw [contributorsOf_concat] at hafter
    have hsubmitted := contributorsOf_submitted o stakes epoch brainId calls
    have hbps := minQuorumBps_addAll o stakes (.start minQuorumBps) calls
    rw [← hcandidates] at hbefore hafter hsubmitted
    obtain ⟨hrecord, hnone, -⟩ := add_step (c := c) hfixed hbrain (hbps ▸ hneed) hopen hsubmitted
      (hbps ▸ hbefore)
    rw [addAll_append, contributorsOf_concat, ← hcandidates]
    exact ⟨hnone (hbps ▸ hafter), hrecord⟩

end PoolRuns

/-- **The canonical result, once and for all.** Nothing is frozen as long as no call has made
the contributors ready; the first one that does freezes their canonical result, and whatever
is called then, that is what is read and what is answered. -/
theorem canonical_frozen_once {o : Offchain} {stakes : Stakes} {stake : Text → Int}
    {minQuorumBps total : Int} (epoch : Int) {brainId : Int}
    (hfixed : StakesFixed o stakes brainId stake total)
    (htotal : 0 < total) (hbps : 0 < minQuorumBps) (hbrain : 0 ≤ brainId ∧ brainId < 2 ^ 256)
    (calls : List PoolCall) :
    ((∀ before, before <+: calls → ¬ Ready stake (quorumNeed minQuorumBps total)
        (contributorsOf o stakes epoch brainId before)) →
      getCandidate ((CanonicalCandidatePool.start minQuorumBps).addAll o stakes calls)
        epoch brainId = none) ∧
    (Ready stake (quorumNeed minQuorumBps total) (contributorsOf o stakes epoch brainId calls) →
      (∀ before, before <+: calls → before ≠ calls → ¬ Ready stake
        (quorumNeed minQuorumBps total) (contributorsOf o stakes epoch brainId before)) →
      ∃ frozen, IsCanonical stake (quorumNeed minQuorumBps total)
          (contributorsOf o stakes epoch brainId calls) o brainId frozen ∧
        ∀ rest, getCandidate ((CanonicalCandidatePool.start minQuorumBps).addAll o stakes
            (calls ++ rest)) epoch brainId = some frozen ∧
          ∀ signer scores, (((CanonicalCandidatePool.start minQuorumBps).addAll o stakes
            (calls ++ rest)).add o stakes brainId epoch signer scores).2 = .ok (some frozen)) := by
  have hneed : 0 < quorumNeed minQuorumBps total := quorumNeed_pos hbps htotal.le
  refine ⟨fun hnever => (addAll_open hfixed hbrain hneed hnever).1, ?_⟩
  intro hready hfirst
  -- some call was made, as nobody is not enough
  rcases List.eq_nil_or_concat calls with rfl | ⟨made, c, rfl⟩
  · exact absurd hready.1 (not_le.mpr hneed)
  · rw [List.concat_eq_append] at hready hfirst ⊢
    have hnever : ∀ before, before <+: made → ¬ Ready stake (quorumNeed minQuorumBps total)
        (contributorsOf o stakes epoch brainId before) := by
      intro before hbefore
      apply hfirst before (hbefore.trans (List.prefix_append _ _))
      rintro rfl
      have hlength := hbefore.length_le
      rw [List.length_append] at hlength
      exact absurd hlength (by simp)
    obtain ⟨hopen, hcandidates⟩ := addAll_open hfixed hbrain hneed hnever
    have hbefore := hnever made List.prefix_rfl
    have hsubmitted := contributorsOf_submitted o stakes epoch brainId made
    have hpool := minQuorumBps_addAll o stakes (.start minQuorumBps) made
    rw [contributorsOf_concat] at hready ⊢
    rw [← hcandidates] at hready hbefore hsubmitted ⊢
    obtain ⟨-, -, hfreeze⟩ := add_step (c := c) hfixed hbrain (hpool ▸ hneed) hopen hsubmitted
      (hpool ▸ hbefore)
    rw [hpool] at hfreeze
    obtain ⟨frozen, hcanonical, hfrozen⟩ := hfreeze hready
    refine ⟨frozen, hcanonical, ?_⟩
    intro rest
    have hstays : ((CanonicalCandidatePool.start minQuorumBps).addAll o stakes
        (made ++ [c] ++ rest)).frozen epoch brainId = some frozen := by
      rw [addAll_append]
      apply frozen_addAll
      rw [addAll_append]
      exact hfrozen
    exact ⟨hstays, add_of_frozen hstays⟩

/-! ## A quorum of two -/

/-- The stakes of the three validators. -/
def toyShare (signer : Text) : Int :=
  if hexAddress signer = some 7 then 2
  else if hexAddress signer = some 8 ∨ hexAddress signer = some 9 then 49 else 0

theorem toyTriad_fixed : StakesFixed toyOffchain toyTriad 3 toyShare 100 where
  stakeOf _ := rfl
  nonneg signer := by
    unfold toyShare
    split
    · decide
    · split <;> decide
  totalStake := rfl

/-- Validator 8 alone has too little, and with validator 7 just enough. -/
theorem toyPair_ready :
    ¬ Ready toyShare 51 (contributorsOf toyOffchain toyTriad 0 3 []) ∧
      ¬ Ready toyShare 51 (contributorsOf toyOffchain toyTriad 0 3 [toyCall 8 500000]) ∧
      Ready toyShare 51
        (contributorsOf toyOffchain toyTriad 0 3 [toyCall 8 500000, toyCall 7 400000]) := by
  refine ⟨fun h => absurd h.1 (by decide +kernel), fun h => absurd h.1 (by decide +kernel),
    by decide +kernel, toChecksum toyCrypto 5, by decide +kernel⟩

theorem prefix_pair {α : Type} {a b : α} {l : List α} (h : l <+: [a, b]) :
    l = [] ∨ l = [a] ∨ l = [a, b] := by
  simpa using (List.mem_inits _ _).mpr h

theorem canonical_frozen_once_triad :
    ∃ frozen, IsCanonical toyShare 51
        (contributorsOf toyOffchain toyTriad 0 3 [toyCall 8 500000, toyCall 7 400000])
        toyOffchain 3 frozen ∧
      getCandidate ((CanonicalCandidatePool.start 5001).addAll toyOffchain toyTriad
        ([toyCall 8 500000, toyCall 7 400000] ++ [toyCall 9 0])) 0 3 = some frozen := by
  obtain ⟨hnobody, hone, hpair⟩ := toyPair_ready
  obtain ⟨-, hfreeze⟩ := @canonical_frozen_once toyOffchain toyTriad toyShare 5001 100 0 3
    toyTriad_fixed (by decide) (by decide) (by decide) [toyCall 8 500000, toyCall 7 400000]
  obtain ⟨frozen, hcanonical, hread⟩ := hfreeze hpair (by
    intro before hbefore hne
    rcases prefix_pair hbefore with rfl | rfl | rfl
    · exact hnobody
    · exact hone
    · exact absurd rfl hne)
  exact ⟨frozen, hcanonical, (hread _).1⟩

end BasedAI
