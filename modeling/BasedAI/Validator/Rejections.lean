import BasedAI.Validator.CandidateRows
import BasedAI.Validator.CanonicalMedian

/-!
# BasedAI — what a rejected candidate leaves behind

`add` raises for a candidate it does not accept, and the service answers 400. Some of the
checks come after the candidate was recorded: when the contributors hold a quorum and still
no miner is covered, the caller is told that its candidate was malformed, and it is counted
in whatever is frozen later.

* `candidate_ok_iff`        — the checks before anything is recorded;
* `rejected_traceless_iff`  — exactly when a call that raises leaves the pool as it was;
* `rejected_counts`         — a rejected candidate decides a canonical result.
-/

namespace BasedAI

open Fallible Python Mapping CanonicalCandidatePool

section Admission

variable (o : Offchain) (stakes : Stakes)

/-- The signer has stake and an address, and there are rows, each of a miner and a score in
range. -/
structure PoolCall.Admissible (c : PoolCall) : Prop where
  staked : ∃ stake, stakes.stakeOf c.brainId c.signer = .ok stake ∧ 0 < stake
  rows : ∀ row ∈ c.scores, ∃ e, readRow o row = .ok e
  nonempty : c.scores ≠ []
  address : ∃ a, hexAddress c.signer = some a

variable {o stakes} {c : PoolCall}

/-- What a call records: the address of the signer and the map of the rows. -/
theorem candidate_ok {key : Text} {candidate : Candidate} :
    c.candidate o stakes = .ok (key, candidate) ↔
      (∃ stake, stakes.stakeOf c.brainId c.signer = .ok stake ∧ 0 < stake) ∧
      (∃ scored, c.scores.mapM (readRow o) = .ok scored ∧ scored ≠ [] ∧
        scoreMap scored = candidate) ∧
      ∃ a, hexAddress c.signer = some a ∧ toChecksum o.crypto a = key := by
  simp only [PoolCall.candidate, normalizeCandidate, raiseIf, bind_ok, return_ok, revertIf_ok,
    normalizeRows_ok, toChecksumAddress_str, Prod.mk.injEq]
  constructor
  · rintro ⟨stake, hstake, _, hpos, _, ⟨scored, hscored, rfl⟩, _, hne, _, ⟨a, ha, rfl⟩, rfl, rfl⟩
    exact ⟨⟨stake, hstake, not_le.mp hpos⟩,
      ⟨scored, hscored, fun h => hne (scoreMap_eq_nil.mpr h), rfl⟩, a, ha, rfl⟩
  · rintro ⟨⟨stake, hstake, hpos⟩, ⟨scored, hscored, hne, rfl⟩, a, ha, rfl⟩
    exact ⟨stake, hstake, (), not_le.mpr hpos, _, ⟨scored, hscored, rfl⟩, (),
      fun h => hne (scoreMap_eq_nil.mp h), _, ⟨a, ha, rfl⟩, rfl, rfl⟩

/-- **The checks before anything is recorded.** -/
theorem candidate_ok_iff : (∃ r, c.candidate o stakes = .ok r) ↔ c.Admissible o stakes := by
  constructor
  · rintro ⟨⟨key, candidate⟩, h⟩
    obtain ⟨hstaked, ⟨scored, hscored, hne, -⟩, a, ha, -⟩ := candidate_ok.mp h
    refine ⟨hstaked, fun row hrow => ?_, ?_, a, ha⟩
    · obtain ⟨e, -, he⟩ := exists_of_mapM hscored hrow
      exact ⟨e, he⟩
    · intro hnil
      rw [hnil] at hscored
      exact hne (Except.ok.inj hscored).symm
  · rintro ⟨hstaked, hrows, hne, a, ha⟩
    obtain ⟨scored, hscored⟩ := mapM_total _ hrows
    refine ⟨(toChecksum o.crypto a, scoreMap scored),
      candidate_ok.mpr ⟨hstaked, ⟨scored, hscored, ?_, rfl⟩, a, ha, rfl⟩⟩
    -- a row was read for each row
    rintro rfl
    obtain ⟨row, hrow⟩ := List.exists_mem_of_ne_nil _ hne
    obtain ⟨e, he, -⟩ := exists_of_mapM hscored hrow
    exact absurd he List.not_mem_nil

end Admission

/-! ## Atomic calls -/

section Traces

variable (o : Offchain) (stakes : Stakes)

/-- When a call that raises leaves the pool as it was: the result is frozen, or the checks
before recording refuse the call, or it repeats what is recorded of its signer; or nothing
raises after it was recorded, as the contributors lack what is needed or cover some miner,
of a Brain that can be encoded. -/
def Traceless (stake : Text → Int) (need : Int) (pool : CanonicalCandidatePool) (c : PoolCall) :
    Prop :=
  pool.frozen c.epoch c.brainId ≠ none ∨ ¬ c.Admissible o stakes ∨
    c.record o stakes c.epoch c.brainId (pool.candidates c.epoch c.brainId) =
      pool.candidates c.epoch c.brainId ∨
    held stake (c.record o stakes c.epoch c.brainId (pool.candidates c.epoch c.brainId)) < need ∨
    (0 ≤ c.brainId ∧ c.brainId < 2 ^ 256) ∧ ∃ miner, need ≤ held stake (scorers
      (c.record o stakes c.epoch c.brainId (pool.candidates c.epoch c.brainId)) miner)

variable {o stakes} {brainId total minQuorumBps : Int} {stake : Text → Int}
  {contributors : List (Text × Candidate)} {pool : CanonicalCandidatePool} {c : PoolCall}

theorem record_of_candidate {key : Text} {candidate : Candidate}
    (h : c.candidate o stakes = .ok (key, candidate)) :
    c.record o stakes c.epoch c.brainId contributors = dictSet key candidate contributors := by
  rw [PoolCall.record, if_pos ⟨rfl, rfl⟩, h]

/-- A result has rows, and their Brain is encoded. -/
theorem canonicalize_encoded {frozen : Frozen}
    (h : canonicalize o stakes brainId minQuorumBps contributors = .ok (some frozen)) :
    0 ≤ brainId ∧ brainId < 2 ^ 256 := by
  obtain ⟨root, hashed, hroot, -⟩ := canonicalize_rooted h
  -- without rows there would be no result
  have hrows : frozen.rows ≠ [] := by
    simp only [canonicalize, bind_ok] at h
    obtain ⟨_, -, _, -, h⟩ := h
    split at h
    · cases h
    · simp only [raiseIf, bind_ok, return_ok, revertIf_ok, Option.some.injEq] at h
      obtain ⟨rows, -, _, hne, _, -, rfl⟩ := h
      exact hne
  obtain ⟨row, hrow⟩ := List.exists_mem_of_ne_nil _ hrows
  unfold buildMerkleRoot at hroot
  obtain ⟨hashes, hhashes, -⟩ := bind_ok.mp hroot
  obtain ⟨w, -, hw⟩ := exists_of_mapM hhashes (List.mem_map.mpr ⟨row, hrow, rfl⟩)
  unfold ScoreLeaf.hash at hw
  obtain ⟨b, hb, -⟩ := bind_ok.mp hw
  have hval := encodeUint_ok hb
  have hlt := b.isLt
  dsimp only at hval
  omega

/-- When the result of the contributors is an error. -/
theorem canonicalize_error_iff (hfixed : StakesFixed o stakes brainId stake total)
    (hsubmitted : Submitted o contributors) (hneed : 0 < quorumNeed minQuorumBps total) :
    (∃ e, canonicalize o stakes brainId minQuorumBps contributors = .error e) ↔
      quorumNeed minQuorumBps total ≤ held stake contributors ∧
        ¬ ((0 ≤ brainId ∧ brainId < 2 ^ 256) ∧
          ∃ miner, quorumNeed minQuorumBps total ≤ held stake (scorers contributors miner)) := by
  have hheld : contributors.mapM (fun c => stakes.stakeOf brainId c.1) =
      .ok (contributors.map fun c => stake c.1) :=
    mapM_ok _ fun c hc => hfixed.stakeOf_submitted hsubmitted hc
  by_cases hless : held stake contributors < quorumNeed minQuorumBps total
  · -- nothing is computed
    have hnone : canonicalize o stakes brainId minQuorumBps contributors = .ok none := by
      unfold canonicalize
      rw [hfixed.totalStake, ok_bind]
      dsimp only
      rw [hheld, ok_bind]
      exact if_pos hless
    rw [hnone]
    exact ⟨fun ⟨e, he⟩ => (nomatch he), fun h => absurd h.1 (not_le.mpr hless)⟩
  · by_cases hbrain : 0 ≤ brainId ∧ brainId < 2 ^ 256
    · rcases canonicalize_fixed hfixed hsubmitted hbrain hneed with
        ⟨hless', -⟩ | ⟨henough, huncovered, herror⟩ | ⟨hready, frozen, -, hsome⟩
      · exact absurd hless' hless
      · rw [herror]
        refine ⟨fun _ => ⟨henough, ?_⟩, fun _ => ⟨_, rfl⟩⟩
        rintro ⟨-, miner, hcovered⟩
        exact absurd hcovered (not_le.mpr (huncovered miner))
      · rw [hsome]
        exact ⟨fun ⟨e, he⟩ => (nomatch he), fun h => absurd ⟨hbrain, hready.2⟩ h.2⟩
    · refine ⟨fun _ => ⟨not_lt.mp hless, fun h => hbrain h.1⟩, fun _ => ?_⟩
      cases hresult : canonicalize o stakes brainId minQuorumBps contributors with
      | error e => exact ⟨e, rfl⟩
      | ok result =>
        cases result with
        | some frozen => exact absurd (canonicalize_encoded hresult) hbrain
        | none =>
          unfold canonicalize at hresult
          rw [hfixed.totalStake, ok_bind] at hresult
          dsimp only at hresult
          rw [hheld, ok_bind] at hresult
          change (if held stake contributors < _ then _ else _) = _ at hresult
          rw [if_neg hless] at hresult
          simp only [bind_ok, return_ok] at hresult
          obtain ⟨_, -, _, -, _, -, hnone⟩ := hresult
          cases hnone

/-- What was recorded is submitted. -/
theorem PoolInv.submitted_candidates {calls : List PoolCall} {epoch : Int}
    (h : PoolInv o stakes calls pool) : Submitted o (pool.candidates epoch brainId) := by
  rintro ⟨key, candidate⟩ he
  obtain ⟨c, -, -, -, hcandidate⟩ := h.submitted epoch brainId _ he
  exact normalizeCandidate_submitted hcandidate

/-- A call that raises has recorded its candidate first, unless it was not admissible. -/
theorem add_error {e : PyError}
    (h : (pool.add o stakes c.brainId c.epoch c.signer c.scores).2 = .error e) :
    ¬ c.Admissible o stakes ∨ ∃ key candidate,
      c.candidate o stakes = .ok (key, candidate) ∧
      canonicalize o stakes c.brainId pool.minQuorumBps
        (dictSet key candidate (pool.candidates c.epoch c.brainId)) = .error e ∧
      (pool.add o stakes c.brainId c.epoch c.signer c.scores).1 =
        { pool with
          candidates := set₂ pool.candidates c.epoch c.brainId
            (dictSet key candidate (pool.candidates c.epoch c.brainId)) } := by
  unfold CanonicalCandidatePool.add at h ⊢
  split at h
  case h_1 => cases h
  case h_2 =>
    split at h
    -- refused before anything is written
    case h_1 e' hrefused =>
      left
      rw [← candidate_ok_iff]
      rintro ⟨r, hr⟩
      unfold PoolCall.candidate at hr
      rw [hrefused] at hr
      cases hr
    case h_2 key candidate hcandidate =>
      right
      dsimp only at h
      split at h
      -- refused after the candidate was written
      case h_1 e' herror =>
        cases h
        refine ⟨key, candidate, hcandidate, herror, ?_⟩
        dsimp only
        rw [herror]
      case h_2 => cases h
      case h_3 => cases h

end Traces

/-- **Rejected candidates.** In every state the pool reaches, a call that raises leaves the
candidates and what is frozen as they were, if and only if the call is `Traceless`. -/
theorem rejected_traceless_iff {o : Offchain} {stakes : Stakes} {stake : Text → Int}
    {minQuorumBps total : Int} (c : PoolCall)
    (hfixed : StakesFixed o stakes c.brainId stake total)
    (htotal : 0 ≤ total) (hbps : 0 < minQuorumBps) (calls : List PoolCall) :
    ((∃ e, (((CanonicalCandidatePool.start minQuorumBps).addAll o stakes calls).add o stakes
        c.brainId c.epoch c.signer c.scores).2 = .error e) →
      (((CanonicalCandidatePool.start minQuorumBps).addAll o stakes calls).add o stakes
        c.brainId c.epoch c.signer c.scores).1 =
      (CanonicalCandidatePool.start minQuorumBps).addAll o stakes calls) ↔
    Traceless o stakes stake (quorumNeed minQuorumBps total)
      ((CanonicalCandidatePool.start minQuorumBps).addAll o stakes calls) c := by
  have hneed : 0 < quorumNeed minQuorumBps total := quorumNeed_pos hbps htotal
  have hinv : PoolInv o stakes calls
      ((CanonicalCandidatePool.start minQuorumBps).addAll o stakes calls) := .addAll minQuorumBps
  have hpoolBps := minQuorumBps_addAll o stakes (.start minQuorumBps) calls
  generalize (CanonicalCandidatePool.start minQuorumBps).addAll o stakes calls = pool at *
  obtain rfl : pool.minQuorumBps = minQuorumBps := hpoolBps
  have hsubmitted : Submitted o (c.record o stakes c.epoch c.brainId
      (pool.candidates c.epoch c.brainId)) := record_submitted hinv.submitted_candidates
  constructor
  · intro htrace
    by_contra hleaves
    simp only [Traceless, not_or, not_not, not_lt] at hleaves
    obtain ⟨hopen, hadmissible, hnew, henough, huncovered⟩ := hleaves
    -- the call is recorded, and raises
    obtain ⟨⟨key, candidate⟩, hcandidate⟩ := candidate_ok_iff.mpr hadmissible
    obtain ⟨e, herror⟩ := (canonicalize_error_iff hfixed hsubmitted hneed).mpr
      ⟨henough, huncovered⟩
    rw [record_of_candidate hcandidate] at hnew herror
    have hraises : (pool.add o stakes c.brainId c.epoch c.signer c.scores).2 = .error e := by
      unfold PoolCall.candidate at hcandidate
      unfold CanonicalCandidatePool.add
      rw [hopen]
      dsimp only
      rw [hcandidate]
      dsimp only
      rw [herror]
    have hcandidates := (add_recorded hopen hcandidate).1
    rw [htrace ⟨e, hraises⟩] at hcandidates
    exact hnew hcandidates.symm
  · rintro htraceless ⟨e, hraises⟩
    rcases add_error hraises with hrefused | ⟨key, candidate, hcandidate, herror, hpool⟩
    · cases hcandidate : c.candidate o stakes with
      | error e => exact add_refused hcandidate
      | ok r => exact absurd (candidate_ok_iff.mp ⟨r, hcandidate⟩) hrefused
    · have hcovered := (canonicalize_error_iff hfixed hsubmitted hneed).mp
        ⟨e, record_of_candidate hcandidate ▸ herror⟩
      rcases htraceless with hfrozen | hrefused | hsame | hless | hready
      · -- what is frozen is returned
        obtain ⟨frozen, hfrozen⟩ := Option.ne_none_iff_exists'.mp hfrozen
        rw [add_of_frozen hfrozen] at hraises
        cases hraises
      · exact absurd (candidate_ok_iff.mp ⟨_, hcandidate⟩) hrefused
      · rw [record_of_candidate hcandidate] at hsame
        rw [hpool, hsame, set₂_self]
      · exact absurd hcovered.1 (not_le.mpr hless)
      · exact absurd hready hcovered.2

/-! ## A candidate that counts -/

/-- Validator 9 scores miner 6, before the call of validator 7, which is rejected; then
validator 8 scores miner 5 as well. -/
def toyElsewhere : PoolCall where
  epoch := 0
  brainId := 3
  signer := toChecksum toyCrypto 9
  scores := [.dict [(text "miner", .str (text "0x0000000000000000000000000000000000000006")),
    (text "score", .int 0)]]

theorem rejected_traceless_triad :
    ((∃ e, (((CanonicalCandidatePool.start 5001).addAll toyOffchain toyTriad
        [toyElsewhere]).add toyOffchain toyTriad 3 0 (toyCall 7 400000).signer
          (toyCall 7 400000).scores).2 = .error e) →
      (((CanonicalCandidatePool.start 5001).addAll toyOffchain toyTriad
        [toyElsewhere]).add toyOffchain toyTriad 3 0 (toyCall 7 400000).signer
          (toyCall 7 400000).scores).1 =
      (CanonicalCandidatePool.start 5001).addAll toyOffchain toyTriad [toyElsewhere]) ↔
    Traceless toyOffchain toyTriad toyShare 51
      ((CanonicalCandidatePool.start 5001).addAll toyOffchain toyTriad [toyElsewhere])
      (toyCall 7 400000) :=
  rejected_traceless_iff (toyCall 7 400000) toyTriad_fixed (by decide)
    (by decide) [toyElsewhere]

/-- **A rejected candidate counts.** The call of validator 7 raises what the service answers
with 400, and changes what is recorded; the next candidate then gets a canonical result,
which it does not without it. -/
theorem rejected_counts :
    (∃ e, failureStatus e = 400 ∧
      (((CanonicalCandidatePool.start 5001).addAll toyOffchain toyTriad [toyElsewhere]).add
        toyOffchain toyTriad 3 0 (toyCall 7 400000).signer (toyCall 7 400000).scores).2 =
          .error e) ∧
    (((CanonicalCandidatePool.start 5001).addAll toyOffchain toyTriad [toyElsewhere]).add
        toyOffchain toyTriad 3 0 (toyCall 7 400000).signer (toyCall 7 400000).scores).1 ≠
      (CanonicalCandidatePool.start 5001).addAll toyOffchain toyTriad [toyElsewhere] ∧
    (((CanonicalCandidatePool.start 5001).addAll toyOffchain toyTriad
      [toyElsewhere, toyCall 7 400000, toyCall 8 500000]).frozen 0 3).map Frozen.rows =
        some [⟨toChecksum toyCrypto 5, 500000⟩] ∧
    ((CanonicalCandidatePool.start 5001).addAll toyOffchain toyTriad
      [toyElsewhere, toyCall 8 500000]).frozen 0 3 = none := by
  have hstatus : (match (((CanonicalCandidatePool.start 5001).addAll toyOffchain toyTriad
      [toyElsewhere]).add toyOffchain toyTriad 3 0 (toyCall 7 400000).signer
        (toyCall 7 400000).scores).2 with
      | .error e => failureStatus e
      | .ok _ => 200) = 400 := by
    decide +kernel
  -- the rejected candidate is counted among the signers
  have hsigners : ((((CanonicalCandidatePool.start 5001).addAll toyOffchain toyTriad
      [toyElsewhere]).add toyOffchain toyTriad 3 0 (toyCall 7 400000).signer
        (toyCall 7 400000).scores).1.candidates 0 3).length ≠
      (((CanonicalCandidatePool.start 5001).addAll toyOffchain toyTriad
        [toyElsewhere]).candidates 0 3).length := by
    decide +kernel
  refine ⟨?_, ?_, by decide +kernel, by decide +kernel⟩
  · split at hstatus
    case h_1 e herror => exact ⟨e, hstatus, herror⟩
    case h_2 => cases hstatus
  · intro hsame
    rw [hsame] at hsigners
    exact hsigners rfl

end BasedAI
