import BasedAI.Validator.CandidatePool
import Mathlib.Data.List.Induction

/-!
# BasedAI — the rows of a candidate

The pool reads the rows of a submission one after the other into a map from miners to scores.
A row can be read on its own, and of several rows for one miner the last one counts.

* `normalizeRows_ok`  — the loop over the rows, as a reading of each and a map of them all;
* `dictGet_scoreMap`  — where no miner has two scores, the map is the set of the rows.
-/

namespace BasedAI

open Fallible Python CanonicalCandidatePool

/-- A row: the address of a miner and a score in range. -/
def readRow (o : Offchain) (row : Json) : Py (Text × Int) := do
  let miner ← toChecksumAddress o.crypto (← row.subscript "miner")
  let score ← (← row.subscript "score").toInt o.unicode
  raiseIf (score < 0 ∨ 1000000 < score) (.valueError "score out of range")
  return (miner, score)

/-- The scores by miner, a later one in place of an earlier one. -/
def scoreMap (scored : List (Text × Int)) : Candidate :=
  scored.foldl (fun normalized e => dictSet e.1 e.2 normalized) []

/-- No miner has two scores. -/
def Unambiguous (scored : List (Text × Int)) : Prop :=
  ∀ e ∈ scored, ∀ e' ∈ scored, e.1 = e'.1 → e.2 = e'.2

section Rows

variable {o : Offchain} {row : Json} {rows : List Json} {scored : List (Text × Int)}
  {miner : Text} {score : Int}

theorem readRow_ok : readRow o row = .ok (miner, score) ↔
    ∃ minerField scoreField, row.subscript "miner" = .ok minerField ∧
      toChecksumAddress o.crypto minerField = .ok miner ∧
      row.subscript "score" = .ok scoreField ∧ scoreField.toInt o.unicode = .ok score ∧
      0 ≤ score ∧ score ≤ 1000000 := by
  simp only [readRow, raiseIf, bind_ok, return_ok, revertIf_ok, Prod.mk.injEq]
  constructor
  · rintro ⟨minerField, hminer, _, hchecksum, scoreField, hscore, _, hint, _, hrange, rfl, rfl⟩
    exact ⟨minerField, scoreField, hminer, hchecksum, hscore, hint, by omega, by omega⟩
  · rintro ⟨minerField, scoreField, hminer, hchecksum, hscore, hint, hlow, hhigh⟩
    exact ⟨minerField, hminer, _, hchecksum, scoreField, hscore, _, hint, (), by omega, rfl, rfl⟩

theorem toChecksumAddress_str {crypto : Crypto} {t key : Text} :
    toChecksumAddress crypto (.str t) = .ok key ↔
      ∃ a, hexAddress t = some a ∧ toChecksum crypto a = key := by
  rw [toChecksumAddress, orRaise]
  cases hexAddress t with
  | none => simp [orRevert, Except.map]
  | some a => simp [orRevert, Except.map]

theorem normalizeRows_cons (acc : Candidate) :
    normalizeRows o (row :: rows) acc =
      readRow o row >>= fun e => normalizeRows o rows (dictSet e.1 e.2 acc) := by
  rw [normalizeRows, readRow]
  simp only [bind_assoc, pure_bind]

/-- **The loop over the rows.** -/
theorem normalizeRows_ok {acc normalized : Candidate} :
    normalizeRows o rows acc = .ok normalized ↔ ∃ scored, rows.mapM (readRow o) = .ok scored ∧
      scored.foldl (fun normalized e => dictSet e.1 e.2 normalized) acc = normalized := by
  induction rows generalizing acc with
  | nil => simp [normalizeRows]
  | cons row rest ih =>
    rw [normalizeRows_cons, List.mapM_cons]
    simp only [bind_ok, return_ok, ih]
    constructor
    · rintro ⟨e, he, scored, hscored, hmap⟩
      exact ⟨e :: scored, ⟨e, he, scored, hscored, rfl⟩, hmap⟩
    · rintro ⟨_, ⟨e, he, scored, hscored, rfl⟩, hmap⟩
      exact ⟨e, he, scored, hscored, hmap⟩

/-! ## The map -/

theorem scoreMap_concat (e : Text × Int) :
    scoreMap (scored ++ [e]) = dictSet e.1 e.2 (scoreMap scored) := by
  rw [scoreMap, List.foldl_append]
  rfl

/-- The last row of a miner counts. -/
theorem dictGet_scoreMap_concat :
    dictGet miner (scoreMap (scored ++ [(miner, score)])) = some score := by
  rw [scoreMap_concat, dictGet_dictSet, if_pos rfl]

theorem mem_of_scoreMap (h : dictGet miner (scoreMap scored) = some score) :
    (miner, score) ∈ scored := by
  induction scored using List.reverseRecOn with
  | nil => cases h
  | append_singleton scored e ih =>
    rw [scoreMap_concat, dictGet_dictSet] at h
    split at h
    case isTrue heq =>
      obtain rfl := Option.some.inj h
      rw [← heq]
      exact List.mem_append_right _ List.mem_cons_self
    case isFalse => exact List.mem_append_left _ (ih h)

theorem exists_scoreMap (h : (miner, score) ∈ scored) :
    ∃ score', dictGet miner (scoreMap scored) = some score' := by
  induction scored using List.reverseRecOn with
  | nil => cases h
  | append_singleton scored e ih =>
    rw [scoreMap_concat, dictGet_dictSet]
    split
    case isTrue => exact ⟨_, rfl⟩
    case isFalse hne =>
      apply ih
      rcases List.mem_append.mp h with hmem | hlast
      · exact hmem
      · obtain rfl := List.mem_singleton.mp hlast
        exact absurd rfl hne

/-- **The map of unambiguous rows.** -/
theorem dictGet_scoreMap (h : Unambiguous scored) :
    dictGet miner (scoreMap scored) = some score ↔ (miner, score) ∈ scored := by
  refine ⟨mem_of_scoreMap, ?_⟩
  intro hmem
  obtain ⟨score', hscore'⟩ := exists_scoreMap hmem
  have hsame := h _ hmem _ (mem_of_scoreMap hscore') rfl
  dsimp only at hsame
  rw [hscore', hsame]

theorem scoreMap_eq_nil : scoreMap scored = [] ↔ scored = [] := by
  constructor
  · intro h
    cases scored with
    | nil => rfl
    | cons e rest =>
      obtain ⟨score', hscore'⟩ := 
        exists_scoreMap (show (e.1, e.2) ∈ e :: rest from List.mem_cons_self)
      rw [h] at hscore'
      cases hscore'
  · rintro rfl
    rfl

end Rows

end BasedAI
