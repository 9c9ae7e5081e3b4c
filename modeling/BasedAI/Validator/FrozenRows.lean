import BasedAI.Validator.CanonicalMedian

/-!
# BasedAI — the rows that are frozen

The stakes are read from the chain at every submission, and may be anything. What is frozen is
well formed all the same: every row is for the checksummed address of a miner, no miner has two
rows, and every score is one that some candidate gave it, so it is in range.

* `submitCandidate_proper` — one request;
* `served_proper`          — any requests.
-/

namespace BasedAI

open Fallible Python Mapping CanonicalCandidatePool

variable {o : Offchain} {stakes : Stakes} {brainId : Int}

/-- A row for an address, with a score in range. -/
def ScoreRow.Proper (o : Offchain) (row : ScoreRow) : Prop :=
  (∃ a, row.miner = toChecksum o.crypto a) ∧ 0 ≤ row.score ∧ row.score ≤ 1000000

/-- Rows for different miners, all of them proper. -/
structure ProperRows (o : Offchain) (rows : List ScoreRow) : Prop where
  once : (rows.map ScoreRow.miner).Nodup
  proper : ∀ row ∈ rows, row.Proper o

/-- Candidates were checked, and frozen rows are proper. -/
structure PoolProper (o : Offchain) (pool : CanonicalCandidatePool) : Prop where
  rooted : PoolRooted o pool
  submitted : ∀ epoch brainId, Submitted o (pool.candidates epoch brainId)
  rows : ∀ epoch brainId frozen, pool.frozen epoch brainId = some frozen →
    ProperRows o frozen.rows

theorem empty_proper : PoolProper o .empty where
  rooted := empty_rooted
  submitted epoch brainId c hc := absurd hc List.not_mem_nil
  rows epoch brainId frozen h := by cases h

/-! ## Where the scores come from -/

theorem medianFrom_mem {weight last acc : Int} (l : List (Int × Int)) :
    medianFrom weight last acc l = last ∨ medianFrom weight last acc l ∈ l.map Prod.fst := by
  induction l generalizing acc with
  | nil => exact .inl rfl
  | cons e rest ih =>
    obtain ⟨score, w⟩ := e
    unfold medianFrom
    split
    · exact .inr List.mem_cons_self
    · exact ih.imp_right (List.mem_cons_of_mem score)

theorem weightedScores_mem {miner : Text} {contributors : List (Text × Candidate)}
    {scores : List (Int × Int)}
    (h : weightedScores stakes brainId miner contributors = .ok scores) :
    ∀ e ∈ scores, ∃ c ∈ contributors, dictGet miner c.2 = some e.1 := by
  induction contributors generalizing scores with
  | nil =>
    obtain rfl := Except.ok.inj h
    exact fun e he => absurd he List.not_mem_nil
  | cons c rest ih =>
    obtain ⟨signer, candidate⟩ := c
    have hlater : ∀ {tail}, weightedScores stakes brainId miner rest = .ok tail → ∀ e ∈ tail,
        ∃ c ∈ (signer, candidate) :: rest, dictGet miner c.2 = some e.1 := by
      intro tail htail e he
      obtain ⟨c, hc, hget⟩ := ih htail e he
      exact ⟨c, List.mem_cons_of_mem _ hc, hget⟩
    unfold weightedScores at h
    split at h
    case h_1 => exact hlater h
    case h_2 score hscore =>
      simp only [bind_ok, return_ok] at h
      obtain ⟨stake, -, tail, htail, rfl⟩ := h
      intro e he
      split at he
      · rcases List.mem_cons.mp he with rfl | hold
        · exact ⟨_, List.mem_cons_self, hscore⟩
        · exact hlater htail e hold
      · exact hlater htail e he

/-- The score of a row is one that a contributor gave the miner. -/
theorem canonicalRow_reported {need : Int} {contributors : List (Text × Candidate)}
    {miner : Text} {row : ScoreRow}
    (h : canonicalRow stakes brainId need contributors miner = .ok (some row)) :
    row.miner = miner ∧ ∃ c ∈ contributors, dictGet miner c.2 = some row.score := by
  unfold canonicalRow at h
  obtain ⟨scores, hscores, h⟩ := bind_ok.mp h
  dsimp only at h
  split at h
  case h_1 => cases h
  case h_2 last hlast =>
    split at h
    case isTrue => cases h
    case isFalse =>
      obtain rfl := Option.some.inj (return_ok.mp h)
      refine ⟨rfl, ?_⟩
      -- the median is one of the scores, whatever they weigh
      have hsorted : medianFrom ((scores.insertionSort pairLe).map Prod.snd).sum last.1 0
          (scores.insertionSort pairLe) ∈ (scores.insertionSort pairLe).map Prod.fst := by
        rcases medianFrom_mem (scores.insertionSort pairLe) with heq | hmem
        · rw [heq]
          exact List.mem_map_of_mem (List.mem_of_getLast? hlast)
        · exact hmem
      obtain ⟨e, he, hscore⟩ := List.mem_map.mp hsorted
      obtain ⟨c, hc, hget⟩ := weightedScores_mem hscores e
        ((List.mem_insertionSort pairLe).mp he)
      exact ⟨c, hc, hget.trans (congrArg some hscore)⟩

/-- The rows of different miners. -/
theorem canonicalRows_proper {need : Int} {contributors : List (Text × Candidate)}
    (hsubmitted : Submitted o contributors) {miners : List Text} (hnodup : miners.Nodup)
    {rows : List (Option ScoreRow)}
    (h : miners.mapM (canonicalRow stakes brainId need contributors) = .ok rows) :
    ProperRows o (rows.filterMap id) ∧
      ∀ miner ∈ (rows.filterMap id).map ScoreRow.miner, miner ∈ miners := by
  induction miners generalizing rows with
  | nil =>
    obtain rfl := Except.ok.inj h
    exact ⟨⟨List.nodup_nil, fun row hrow => absurd hrow List.not_mem_nil⟩,
      fun miner hminer => absurd hminer List.not_mem_nil⟩
  | cons miner rest ih =>
    -- a row is of the miner it is computed for, and no miner comes twice
    obtain ⟨hnew, hrest⟩ := List.nodup_cons.mp hnodup
    rw [List.mapM_cons] at h
    simp only [bind_ok, return_ok] at h
    obtain ⟨found, hfound, rows, hrows, rfl⟩ := h
    obtain ⟨⟨honce, hproper⟩, hmem⟩ := ih hrest hrows
    cases found with
    | none => exact ⟨⟨honce, hproper⟩, fun t ht => List.mem_cons_of_mem _ (hmem t ht)⟩
    | some row =>
      obtain ⟨rfl, c, hc, hget⟩ := canonicalRow_reported hfound
      have hrow : row.Proper o := (hsubmitted c hc).2 _ (mem_of_dictGet hget)
      refine ⟨⟨List.nodup_cons.mpr ⟨fun hmore => hnew (hmem _ hmore), honce⟩,
        List.forall_mem_cons.mpr ⟨hrow, hproper⟩⟩, ?_⟩
      intro t ht
      rcases List.mem_cons.mp ht with rfl | hold
      · exact List.mem_cons_self
      · exact List.mem_cons_of_mem _ (hmem t hold)

theorem canonicalize_proper {minQuorumBps : Int} {contributors : List (Text × Candidate)}
    (hsubmitted : Submitted o contributors) {frozen : Frozen}
    (h : canonicalize o stakes brainId minQuorumBps contributors = .ok (some frozen)) :
    ProperRows o frozen.rows := by
  unfold canonicalize at h
  simp only [bind_ok] at h
  obtain ⟨total, -, stakesHeld, -, h⟩ := h
  split at h
  · simp [return_ok] at h
  · simp only [bind_ok, return_ok, Option.some.injEq] at h
    obtain ⟨rows, hrows, _, -, root, -, rfl⟩ := h
    exact (canonicalRows_proper hsubmitted (candidateMiners_nodup contributors) hrows).1

/-! ## Requests -/

/-- One submission. -/
theorem PoolProper.add {pool : CanonicalCandidatePool} (h : PoolProper o pool)
    (epoch brainId : Int) (signer : Text) (scores : List Json) :
    PoolProper o (pool.add o stakes brainId epoch signer scores).1 := by
  have hrooted : PoolRooted o (pool.add o stakes brainId epoch signer scores).1 :=
    (add_frozen h.rooted).1
  unfold CanonicalCandidatePool.add at hrooted ⊢
  split at hrooted
  case h_1 => exact h
  case h_2 =>
    split at hrooted
    case h_1 => exact h
    case h_2 key normalized hcandidate =>
      -- the candidate that is recorded was checked
      have hrecorded : Submitted o (dictSet key normalized (pool.candidates epoch brainId)) := by
        intro c hc
        rcases mem_dictSet hc with rfl | hold
        · exact normalizeCandidate_submitted hcandidate
        · exact h.submitted epoch brainId c hold
      have hsubmitted : ∀ epoch' brainId', Submitted o (set₂ pool.candidates epoch brainId
          (dictSet key normalized (pool.candidates epoch brainId)) epoch' brainId') := by
        intro epoch' brainId'
        rw [set₂_apply]
        split
        · exact hrecorded
        · exact h.submitted epoch' brainId'
      dsimp only at hrooted ⊢
      split at hrooted
      case h_1 => exact ⟨hrooted, hsubmitted, h.rows⟩
      case h_2 => exact ⟨hrooted, hsubmitted, h.rows⟩
      case h_3 frozen hcanonical =>
        refine ⟨hrooted, hsubmitted, ?_⟩
        intro epoch' brainId' frozen' hfrozen
        dsimp only at hfrozen
        rw [set₂_apply] at hfrozen
        split at hfrozen
        · -- what is frozen now comes from the candidates that were recorded
          obtain rfl := Option.some.inj hfrozen
          exact canonicalize_proper hrecorded hcanonical
        · exact h.rows epoch' brainId' frozen' hfrozen

theorem submitCandidate_proper {domain : CommitmentDomain} {pool : CanonicalCandidatePool}
    {body : Option Json} (h : PoolProper o pool) :
    PoolProper o (submitCandidate o domain stakes pool body).1 := by
  unfold submitCandidate
  split
  case h_1 => exact h
  case h_2 c hopen =>
    split
    case h_1 => exact h
    case h_2 => exact h
    case h_3 =>
      have hadd := @PoolProper.add o stakes pool h c.epoch c.brainId c.signer c.scores
      split
      case h_1 pool' e heq =>
        rw [heq] at hadd
        exact hadd
      case h_2 pool' result heq =>
        rw [heq] at hadd
        exact hadd

/-- The pool after requests to `/candidates`, each with the stakes of the moment. -/
def CanonicalCandidatePool.served (o : Offchain) (domain : CommitmentDomain)
    (requests : List (Stakes × Option Json)) : CanonicalCandidatePool :=
  requests.foldl (fun pool r => (submitCandidate o domain r.1 pool r.2).1) .empty

/-- **Any requests.** -/
theorem served_proper (domain : CommitmentDomain) (requests : List (Stakes × Option Json)) :
    PoolProper o (.served o domain requests) := by
  unfold CanonicalCandidatePool.served
  induction requests using List.reverseRecOn with
  | nil => exact empty_proper
  | append_singleton requests r ih =>
    rw [List.foldl_append]
    exact submitCandidate_proper ih

end BasedAI
