import BasedAI.Validator.ScoreMiners

/-!
# BasedAI — the consistency component

The consistency of a miner is the part of its challenge answers that equal the most frequent
answer to their prompt. This module says what that is in terms of the list of observations,
without the dictionaries it is computed with.

* `same_iff`           — when two hashable values are one key;
* `dictGet_modal`      — the modal response of a prompt is the mode of its answers;
* `consistency_scored` — the consistency component of a scored miner;
* `scored_iff`         — which observations can be scored.
-/

namespace BasedAI

open Fallible Python Grouping

/-! ## Keys -/

/-- What tells hashable values apart: numbers by their value, texts by their characters. -/
def hashKey : Json → Option (Text ⊕ PyFloat)
  | .str s => some (.inl s)
  | v => v.number.map .inr

/-- Two hashable values are one key when they have one hash key. -/
theorem same_iff {a b : Json} (ha : a.hashable = true) (hb : b.hashable = true) :
    Json.same a b = true ↔ hashKey a = hashKey b := by
  cases a with
  | null => cases b <;> simp_all [Json.same, hashKey, Json.number, Json.hashable]
  | bool x => cases b <;> simp_all [Json.same, hashKey, Json.number, Json.hashable, eq_comm]
  | int n => cases b <;> simp_all [Json.same, hashKey, Json.number, Json.hashable, eq_comm]
  | float x => cases b <;> simp_all [Json.same, hashKey, Json.number, Json.hashable, eq_comm]
  | str s => cases b <;> simp_all [Json.same, hashKey, Json.number, Json.hashable]
  | list xs => cases ha
  | dict entries => cases ha

/-! ## Modal responses -/

section Modal

variable {hashes : List Json} {counts : List (Json × List Unit)}
  {observations : List MinerObservation} {modal : List (Text × Json)}

/-- Counting answers groups them, and raises where one cannot be a key. -/
theorem countHashes_ok {acc : List (Json × List Unit)} :
    countHashes hashes acc = .ok counts ↔ (∀ h ∈ hashes, h.hashable = true) ∧
      hashes.foldl (fun counts h => appendTo Json.same h () counts) acc = counts := by
  induction hashes generalizing acc with
  | nil => simp [countHashes]
  | cons h rest ih =>
    simp only [countHashes, raiseIf, bind_ok, revertIf_ok, ih, List.forall_mem_cons,
      List.foldl_cons, Bool.not_eq_false]
    constructor
    · rintro ⟨_, hh, hrest, hfold⟩
      exact ⟨⟨hh, hrest⟩, hfold⟩
    · rintro ⟨⟨hh, hrest⟩, hfold⟩
      exact ⟨(), hh, hrest, hfold⟩

/-- What is found is the first of the longest groups. -/
theorem mostCommon_spec (best : Json × List Unit) (rest : List (Json × List Unit)) :
    ∃ before g after, best :: rest = before ++ g :: after ∧ mostCommon best rest = g.1 ∧
      (∀ g' ∈ best :: rest, g'.2.length ≤ g.2.length) ∧
      ∀ g' ∈ before, g'.2.length < g.2.length := by
  induction rest generalizing best with
  | nil =>
    exact ⟨[], best, [], rfl, rfl, fun g' hg' => (List.mem_singleton.mp hg') ▸ le_rfl,
      fun g' hg' => absurd hg' List.not_mem_nil⟩
  | cons c rest ih =>
    rw [mostCommon]
    split
    -- a longer group takes the lead, and everything before it is shorter
    case isTrue hless =>
      obtain ⟨before, g, after, hsplit, hfound, hmax, hbefore⟩ := ih c
      have hc := hmax c List.mem_cons_self
      refine ⟨best :: before, g, after, congrArg _ hsplit, hfound, ?_, ?_⟩
      · exact List.forall_mem_cons.mpr ⟨by omega, hmax⟩
      · exact List.forall_mem_cons.mpr ⟨by omega, hbefore⟩
    -- a group of the same length does not: the first to reach it stays
    case isFalse hnot =>
      obtain ⟨before, g, after, hsplit, hfound, hmax, hbefore⟩ := ih best
      obtain ⟨hbest, hrest⟩ := List.forall_mem_cons.mp hmax
      have hall : ∀ g' ∈ best :: c :: rest, g'.2.length ≤ g.2.length :=
        List.forall_mem_cons.mpr ⟨hbest, List.forall_mem_cons.mpr ⟨by omega, hrest⟩⟩
      cases before with
      | nil =>
        obtain ⟨rfl, rfl⟩ := List.cons.inj hsplit
        exact ⟨[], best, c :: rest, rfl, hfound, hall, hbefore⟩
      | cons b before =>
        obtain ⟨rfl, rfl⟩ := List.cons.inj hsplit
        obtain ⟨hb, hbefore⟩ := List.forall_mem_cons.mp hbefore
        exact ⟨best :: c :: before, g, after, rfl, hfound, hall,
          List.forall_mem_cons.mpr ⟨hb, List.forall_mem_cons.mpr ⟨by omega, hbefore⟩⟩⟩

/-- **The most common key is the mode.** -/
theorem mostCommon_mode {c : Json × List Unit} {cs : List (Json × List Unit)}
    (h : countHashes hashes [] = .ok (c :: cs)) : mode hashKey hashes = some (mostCommon c cs) := by
  obtain ⟨hhashable, hcounts⟩ := countHashes_ok.mp h
  have hspec : GroupsSpec hashKey id (fun _ => ()) hashes (c :: cs) := by
    rw [← hcounts]
    exact groups_spec Json.same id (fun _ => ())
      fun a ha b hb => same_iff (hhashable a ha) (hhashable b hb)
  obtain ⟨before, g, after, hsplit, hfound, hmax, hbefore⟩ := mostCommon_spec c cs
  have hlength : ∀ g ∈ c :: cs, g.2.length = frequency hashKey hashes g.1 := by
    intro g hg
    rw [(hspec.group g hg).2, List.length_map, frequency, List.countP_eq_length_filter]
    rfl
  have hgroup : ∀ y ∈ hashes, ∃ g ∈ c :: cs, hashKey g.1 = hashKey y :=
    fun y hy => hspec.exists_group hy
  have htop : ∀ g' ∈ c :: cs, IsTop hashKey hashes g'.1 ↔ g.2.length ≤ g'.2.length := by
    intro g' hg'
    have hg : g ∈ c :: cs := by
      rw [hsplit]
      exact List.mem_append_right _ List.mem_cons_self
    constructor
    · intro htop
      obtain ⟨⟨y, hy, hkey⟩, -⟩ := hspec.group g hg
      have hle := htop y hy
      rw [show y = g.1 from hkey, ← hlength g hg, ← hlength g' hg'] at hle
      exact hle
    · intro hle y hy
      obtain ⟨gy, hgy, hkey⟩ := hgroup y hy
      rw [← frequency_congr hkey, ← hlength gy hgy, ← hlength g' hg']
      exact (hmax gy hgy).trans hle
  -- the first top key among the groups is the first top entry
  have hfirst := hspec.first fun k =>
    decide (∀ y ∈ hashes, frequency hashKey hashes y ≤ hashes.countP fun x => hashKey x = k)
  have hmode : mode hashKey hashes = ((c :: cs).map Prod.fst).find? fun x =>
      decide (IsTop hashKey hashes x) := by
    rw [List.map_id] at hfirst
    exact hfirst.symm
  rw [hmode, hfound, hsplit, List.find?_eq_some_iff_append]
  refine ⟨?_, before.map Prod.fst, after.map Prod.fst, by rw [List.map_append, List.map_cons], ?_⟩
  · have hg : g ∈ c :: cs := by
      rw [hsplit]
      exact List.mem_append_right _ List.mem_cons_self
    exact decide_eq_true ((htop g hg).mpr le_rfl)
  · intro k hk
    obtain ⟨g', hg', rfl⟩ := List.mem_map.mp hk
    have hmem : g' ∈ c :: cs := by
      rw [hsplit]
      exact List.mem_append_left _ hg'
    have hnot : ¬ IsTop hashKey hashes g'.1 := by
      rw [htop g' hmem]
      exact Nat.not_le.mpr (hbefore g' hg')
    simpa using hnot

/-- The answers to a challenge prompt. -/
def answers (pid : Text) (observations : List MinerObservation) : List Json :=
  (observations.filter fun o => o.isChallenge && decide (o.promptId = pid)).map (·.responseHash)

theorem modalResponses_ok {l : List (Text × List Json)} (h : modalResponses l = .ok modal)
    (hne : ∀ g ∈ l, g.2 ≠ []) (pid : Text) :
    dictGet pid modal = (dictGet pid l).bind (mode hashKey) := by
  induction l generalizing modal with
  | nil =>
    obtain rfl : [] = modal := Except.ok.inj h
    rfl
  | cons g rest ih =>
    obtain ⟨pid', hashes⟩ := g
    obtain ⟨hfirst, hrest⟩ := List.forall_mem_cons.mp hne
    simp only [modalResponses, bind_ok] at h
    obtain ⟨counts, hcounts, tail, htail, h⟩ := h
    cases counts with
    | nil =>
      -- an answer has a count
      obtain ⟨hhashable, hfold⟩ := countHashes_ok.mp hcounts
      have hspec : GroupsSpec hashKey id (fun _ => ()) hashes [] := by
        rw [← hfold]
        exact groups_spec Json.same id (fun _ => ())
          fun a ha b hb => same_iff (hhashable a ha) (hhashable b hb)
      obtain ⟨x, hx⟩ := List.exists_mem_of_ne_nil _ hfirst
      obtain ⟨g, hg, -⟩ := hspec.exists_group hx
      exact absurd hg List.not_mem_nil
    | cons c cs =>
      obtain rfl : _ = modal := Except.ok.inj h
      rw [dictGet, dictGet]
      split
      · exact (mostCommon_mode hcounts).symm
      · exact ih htail hrest

/-- The answers are grouped by their prompts. -/
theorem challengeGroups_spec (observations : List MinerObservation) :
    GroupsSpec id (fun o : MinerObservation => o.promptId) (fun o => o.responseHash)
      (observations.filter (·.isChallenge)) (challengeGroups observations) :=
  groups_spec _ _ _ fun _ _ _ _ => decide_eq_true_iff

/-- The challenge groups have the answers to each prompt that has one. -/
theorem dictGet_challengeGroups (pid : Text) (observations : List MinerObservation) :
    (dictGet pid (challengeGroups observations)).bind (mode hashKey) =
      mode hashKey (answers pid observations) ∧
    ∀ g ∈ challengeGroups observations, g.2 = answers g.1 observations ∧ g.2 ≠ [] := by
  have hspec := challengeGroups_spec observations
  have hgroup : ∀ g ∈ challengeGroups observations,
      g.2 = answers g.1 observations ∧ g.2 ≠ [] := by
    intro g hg
    obtain ⟨⟨o, ho, hkey⟩, hvalues⟩ := hspec.group g hg
    have hanswers : g.2 = answers g.1 observations := by
      rw [hvalues, List.filter_filter, answers]
      congr 2
      funext o
      exact Bool.and_comm _ _
    refine ⟨hanswers, ?_⟩
    rw [hvalues]
    apply List.ne_nil_of_mem
    exact List.mem_map.mpr ⟨o, List.mem_filter.mpr ⟨ho, decide_eq_true hkey⟩, rfl⟩
  refine ⟨?_, hgroup⟩
  cases hget : dictGet pid (challengeGroups observations) with
  | some hashes =>
    obtain ⟨hanswers, -⟩ := hgroup _ (mem_of_dictGet hget)
    dsimp only at hanswers
    rw [Option.bind_some, hanswers]
  | none =>
    -- no group, no answer
    have hempty : answers pid observations = [] := by
      apply List.map_eq_nil_iff.mpr
      apply List.filter_eq_nil_iff.mpr
      intro o ho hmatch
      obtain ⟨hchallenge, hpid⟩ := Bool.and_eq_true_iff.mp hmatch
      obtain ⟨g, hg, hkey⟩ := hspec.exists_group (List.mem_filter.mpr ⟨ho, hchallenge⟩)
      obtain rfl : g.1 = pid := hkey.trans (of_decide_eq_true hpid)
      have hnodup : ((challengeGroups observations).map Prod.fst).Nodup := hspec.nodup
      rw [dictGet_of_mem hnodup hg] at hget
      cases hget
    rw [hempty]
    rfl

/-- **The modal response** of a prompt is the mode of its answers. -/
theorem dictGet_modal (h : modalResponses (challengeGroups observations) = .ok modal)
    (pid : Text) : dictGet pid modal = mode hashKey (answers pid observations) := by
  obtain ⟨hmode, hgroup⟩ := dictGet_challengeGroups pid observations
  rw [modalResponses_ok h fun g hg => (hgroup g hg).2]
  exact hmode

/-- The answer of an observation agrees with the mode of its prompt. -/
def agreesIn (observations : List MinerObservation) (o : MinerObservation) : Bool :=
  match mode hashKey (answers o.promptId observations) with
  | some h => h.eq o.responseHash
  | none => o.responseHash.eq .null

theorem agrees_eq (h : modalResponses (challengeGroups observations) = .ok modal) :
    agrees modal = agreesIn observations := by
  funext o
  have hmode := dictGet_modal h o.promptId
  unfold agrees agreesIn
  cases hmost : mode hashKey (answers o.promptId observations) with
  | none => simp only [hmode, hmost]
  | some most => simp only [hmode, hmost]

end Modal

/-! ## Scored miners -/

section Scored

variable {F : Type} {fl : FloatArith F} {u : Unicode} {observations : List MinerObservation}
  {scores : List (MinerScore F)}

/-- Shares of up to `n` observations, as doubles: nothing out of some is zero, and different
shares of one whole are told apart. -/
structure FloatArith.TellsShares (fl : FloatArith F) (n : Nat) : Prop where
  ratio_zero : ∀ m : Nat, 0 < m → m ≤ n → fl.ratio (0 : Nat) m = fl.lit 0
  ratio_inj : ∀ a b m : Nat, 0 < m → m ≤ n → a ≤ m → b ≤ m → fl.ratio a m = fl.ratio b m → a = b
  lt_irrefl : ∀ x, fl.lt x x = false

/-- The challenge observations of a miner. -/
def challengesOf (miner : Json) (observations : List MinerObservation) : List MinerObservation :=
  observations.filter fun o => o.isChallenge && decide (hashKey o.miner = hashKey miner)

theorem groupByMiner_ok {acc groups : List (Json × List MinerObservation)} :
    groupByMiner observations acc = .ok groups ↔
      (∀ o ∈ observations, o.miner.hashable = true) ∧
      observations.foldl (fun groups o => appendTo Json.same o.miner o groups) acc = groups := by
  induction observations generalizing acc with
  | nil => simp [groupByMiner]
  | cons o rest ih =>
    simp only [groupByMiner, raiseIf, bind_ok, revertIf_ok, ih, List.forall_mem_cons,
      List.foldl_cons, Bool.not_eq_false]
    constructor
    · rintro ⟨_, ho, hrest, hfold⟩
      exact ⟨⟨ho, hrest⟩, hfold⟩
    · rintro ⟨⟨ho, hrest⟩, hfold⟩
      exact ⟨(), ho, hrest, hfold⟩

/-- Every miner has a group with its observations. -/
theorem groupByMiner_spec {groups : List (Json × List MinerObservation)}
    (h : groupByMiner observations [] = .ok groups) :
    (∀ g ∈ groups, (∃ o ∈ observations, o.miner = g.1) ∧
      g.2 = observations.filter fun o => hashKey o.miner = hashKey g.1) ∧
    ∀ o ∈ observations, ∃ g ∈ groups, hashKey g.1 = hashKey o.miner := by
  obtain ⟨hhashable, hfold⟩ := groupByMiner_ok.mp h
  have hspec : GroupsSpec hashKey (fun o : MinerObservation => o.miner) id observations groups := by
    rw [← hfold]
    exact groups_spec Json.same (fun o : MinerObservation => o.miner) id
      fun a ha b hb => same_iff (hhashable a ha) (hhashable b hb)
  constructor
  · intro g hg
    obtain ⟨hobserved, hgroup⟩ := hspec.group g hg
    rw [List.map_id] at hgroup
    exact ⟨hobserved, hgroup⟩
  · intro o ho
    exact hspec.exists_group ho

/-- The consistency of a miner, from all the observations. -/
def consistencyIn (fl : FloatArith F) (miner : Json) (observations : List MinerObservation) : F :=
  if challengesOf miner observations = [] then fl.lit (1 / 2)
  else fl.ratio ((challengesOf miner observations).countP (agreesIn observations))
    (challengesOf miner observations).length

/-- **The consistency component** of who is scored, which is who was observed. -/
theorem consistency_scored (h : scoreMiners fl u observations = .ok scores) :
    (∀ s ∈ scores, (∃ o ∈ observations, o.miner = s.miner) ∧
      s.consistency = consistencyIn fl s.miner observations) ∧
    ∀ o ∈ observations, ∃ s ∈ scores, hashKey s.miner = hashKey o.miner := by
  simp only [scoreMiners, bind_ok] at h
  obtain ⟨byMiner, hgroups, modal, hmodal, h⟩ := h
  obtain ⟨hgroup, hall⟩ := groupByMiner_spec hgroups
  split at h
  case isTrue hempty =>
    obtain rfl : [] = scores := Except.ok.inj h
    obtain rfl := List.isEmpty_iff.mp hempty
    exact ⟨fun s hs => absurd hs List.not_mem_nil, fun o ho => absurd ho List.not_mem_nil⟩
  case isFalse =>
    simp only [bind_ok, return_ok] at h
    obtain ⟨unsorted, hunsorted, rfl⟩ := h
    -- one row for each group, with the consistency of its challenges
    have hscore : ∀ g s, scoreMiner fl u modal
        (fl.percentile50 (observations.map (·.latencyMs))) g = .ok s →
        s.miner = g.1 ∧ s.consistency = consistencyScore fl g.2 modal := by
      intro g s hs
      simp only [scoreMiner, bind_ok, return_ok] at hs
      obtain ⟨quality, -, rfl⟩ := hs
      exact ⟨rfl, rfl⟩
    constructor
    · intro s hs
      rw [List.mem_insertionSort] at hs
      obtain ⟨g, hg, hs⟩ := (mem_mapM hunsorted).mp hs
      obtain ⟨hminer, hconsistency⟩ := hscore g s hs
      obtain ⟨hobserved, hobservations⟩ := hgroup g hg
      have hchallenges : g.2.filter (·.isChallenge) = challengesOf s.miner observations := by
        rw [hobservations, List.filter_filter, challengesOf, hminer]
      refine ⟨hminer ▸ hobserved, ?_⟩
      rw [hconsistency, consistencyScore, consistencyIn, hchallenges, agrees_eq hmodal,
        ← List.countP_eq_length_filter]
      simp only [List.isEmpty_iff]
    · intro o ho
      obtain ⟨g, hg, hkey⟩ := hall o ho
      obtain ⟨s, hs, hsg⟩ := exists_of_mapM hunsorted hg
      refine ⟨s, (List.mem_insertionSort _).mpr hs, ?_⟩
      rw [(hscore g s hsg).1]
      exact hkey

end Scored

/-! ## What can be scored -/

section Scorable

variable {F : Type} {fl : FloatArith F} {u : Unicode} {observations : List MinerObservation}

/-- What scoring asks of an observation. -/
structure Scorable (o : MinerObservation) : Prop where
  miner : o.miner.hashable = true
  hash : o.isChallenge = true → o.responseHash.hashable = true
  texts : o.referenceText.truthy = true →
    ∃ response reference, o.responseText = .str response ∧ o.referenceText = .str reference

theorem modalResponses_total {l : List (Text × List Json)} :
    (∃ modal, modalResponses l = .ok modal) ↔ ∀ g ∈ l, ∀ h ∈ g.2, h.hashable = true := by
  induction l with
  | nil => simp [modalResponses]
  | cons g rest ih =>
    obtain ⟨pid, hashes⟩ := g
    rw [List.forall_mem_cons, ← ih]
    constructor
    · rintro ⟨modal, h⟩
      simp only [modalResponses, bind_ok] at h
      obtain ⟨counts, hcounts, tail, htail, -⟩ := h
      exact ⟨(countHashes_ok.mp hcounts).1, tail, htail⟩
    · rintro ⟨hhashable, tail, htail⟩
      rw [modalResponses, countHashes_ok.mpr ⟨hhashable, rfl⟩, ok_bind, htail, ok_bind]
      split
      · exact ⟨_, rfl⟩
      · exact ⟨_, rfl⟩

theorem qualityScore_total {obs : List MinerObservation} :
    (∃ quality, qualityScore fl u obs = .ok quality) ↔ ∀ o ∈ obs, o.referenceText.truthy = true →
      ∃ response reference, o.responseText = .str response ∧ o.referenceText = .str reference := by
  unfold qualityScore
  dsimp only
  constructor
  · rintro ⟨quality, h⟩ o ho htruthy
    have hsample : o ∈ obs.filter (·.referenceText.truthy) := List.mem_filter.mpr ⟨ho, htruthy⟩
    split at h
    case isTrue hempty =>
      rw [List.isEmpty_iff.mp hempty] at hsample
      exact absurd hsample List.not_mem_nil
    case isFalse =>
      -- every sample was lowered, so both of its texts are strings
      obtain ⟨overlaps, hoverlaps, -⟩ := bind_ok.mp h
      obtain ⟨_, -, hoverlap⟩ := exists_of_mapM hoverlaps hsample
      simp only [bind_ok, Json.toLower_ok] at hoverlap
      obtain ⟨_, ⟨response, hresponse, -⟩, _, ⟨reference, hreference, -⟩, -⟩ := hoverlap
      exact ⟨response, reference, hresponse, hreference⟩
  · intro h
    split
    · exact ⟨_, rfl⟩
    · obtain ⟨overlaps, hoverlaps⟩ := mapM_total (f := fun s : MinerObservation => do
          let response ← s.responseText.toLower u
          let reference ← s.referenceText.toLower u
          return overlap fl (splitWords u response) (splitWords u reference))
        (obs.filter (·.referenceText.truthy)) (by
          intro o ho
          obtain ⟨hmem, htruthy⟩ := List.mem_filter.mp ho
          obtain ⟨response, reference, hresponse, hreference⟩ := h o hmem htruthy
          rw [hresponse, hreference]
          exact ⟨_, rfl⟩)
      exact ⟨_, bind_ok.mpr ⟨overlaps, hoverlaps, rfl⟩⟩

theorem scoreMiner_total {modal : List (Text × Json)} {p50 : F}
    {g : Json × List MinerObservation} :
    (∃ s, scoreMiner fl u modal p50 g = .ok s) ↔
      ∃ quality, qualityScore fl u g.2 = .ok quality := by
  constructor
  · rintro ⟨s, h⟩
    obtain ⟨quality, hquality, -⟩ := bind_ok.mp h
    exact ⟨quality, hquality⟩
  · rintro ⟨quality, hquality⟩
    exact ⟨_, bind_ok.mpr ⟨quality, hquality, rfl⟩⟩

theorem challengeGroups_hashable :
    (∀ g ∈ challengeGroups observations, ∀ h ∈ g.2, h.hashable = true) ↔
      ∀ o ∈ observations, o.isChallenge = true → o.responseHash.hashable = true := by
  have hspec := challengeGroups_spec observations
  constructor
  · intro h o ho hchallenge
    have hmem := List.mem_filter.mpr ⟨ho, hchallenge⟩
    obtain ⟨g, hg, hkey⟩ := hspec.exists_group hmem
    apply h g hg
    rw [(hspec.group g hg).2]
    exact List.mem_map.mpr ⟨o, List.mem_filter.mpr ⟨hmem, decide_eq_true hkey.symm⟩, rfl⟩
  · intro h g hg hash hhash
    rw [(hspec.group g hg).2] at hhash
    obtain ⟨o, ho, rfl⟩ := List.mem_map.mp hhash
    obtain ⟨hmem, hchallenge⟩ := List.mem_filter.mp (List.mem_of_mem_filter ho)
    exact h o hmem hchallenge

/-- **Scoring** succeeds when it can use each of the observations. -/
theorem scored_iff :
    (∃ scores, scoreMiners fl u observations = .ok scores) ↔ ∀ o ∈ observations, Scorable o := by
  constructor
  · rintro ⟨scores, h⟩ o ho
    simp only [scoreMiners, bind_ok] at h
    obtain ⟨byMiner, hgroups, modal, hmodal, h⟩ := h
    obtain ⟨hgroup, hall⟩ := groupByMiner_spec hgroups
    obtain ⟨g, hg, hkey⟩ := hall o ho
    constructor
    · exact (groupByMiner_ok.mp hgroups).1 o ho
    · intro hchallenge
      exact challengeGroups_hashable.mp (modalResponses_total.mp ⟨modal, hmodal⟩) o ho hchallenge
    · -- the observation is in the group of its miner, which was scored
      split at h
      case isTrue hempty =>
        rw [List.isEmpty_iff.mp hempty] at ho
        exact absurd ho List.not_mem_nil
      case isFalse =>
        obtain ⟨unsorted, hunsorted, -⟩ := bind_ok.mp h
        obtain ⟨s, -, hs⟩ := exists_of_mapM hunsorted hg
        apply qualityScore_total.mp (scoreMiner_total.mp ⟨s, hs⟩) o
        rw [(hgroup g hg).2]
        exact List.mem_filter.mpr ⟨ho, decide_eq_true hkey.symm⟩
  · intro h
    obtain ⟨byMiner, hgroups⟩ : ∃ byMiner, groupByMiner observations [] = .ok byMiner :=
      ⟨_, groupByMiner_ok.mpr ⟨fun o ho => (h o ho).miner, rfl⟩⟩
    obtain ⟨hgroup, -⟩ := groupByMiner_spec hgroups
    obtain ⟨modal, hmodal⟩ := modalResponses_total.mpr
      (challengeGroups_hashable.mpr fun o ho => (h o ho).hash)
    rw [scoreMiners, hgroups, ok_bind, hmodal, ok_bind]
    split
    · exact ⟨_, rfl⟩
    · have hscores : ∀ g ∈ byMiner, ∃ s, scoreMiner fl u modal
          (fl.percentile50 (observations.map (·.latencyMs))) g = .ok s := by
        intro g hg
        apply scoreMiner_total.mpr
        apply qualityScore_total.mpr
        rw [(hgroup g hg).2]
        exact fun o ho => (h o (List.mem_of_mem_filter ho)).texts
      obtain ⟨unsorted, hunsorted⟩ := mapM_total _ hscores
      exact ⟨_, bind_ok.mpr ⟨unsorted, hunsorted, rfl⟩⟩

end Scorable

end BasedAI
