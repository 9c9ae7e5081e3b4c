import BasedAI.Gateway.MembershipMirror
import Mathlib.Data.List.MinMax

/-!
# BasedAI — the scores the gateway lists

The score of a miner stands in the record of its endpoint, which an announcement writes
anew, with the score 0, and into which a submission writes whatever it verifies, whichever
epoch it is from. So the list shows the score of the latest epoch just as long as nobody
announces itself again after it was scored, and no epoch is submitted after a later one.

* `verifyEntry_ok`        — what a submission brings is verified;
* `setScores_endpoints`   — what it writes;
* `ranking_step`          — when a step keeps the list right;
* `displayed_scores_iff`  — when the list is right all along.
-/

namespace BasedAI

open Fallible Python Transition Replay

namespace Gateway

/-! ## The latest score -/

/-- The scores submitted so far, by miner. -/
abbrev ScoreHistory := List (MemberKey × VerifiedScore)

/-- What was submitted for a miner. -/
def scoresOf (history : ScoreHistory) (k : MemberKey) : List VerifiedScore :=
  history.filterMap fun e => if e.1 = k then some e.2 else none

/-- The score of the highest epoch. -/
def latestScore (history : ScoreHistory) (k : MemberKey) : Option VerifiedScore :=
  -- the order of the integers, named so that it is the one that computes
  @List.argmax _ _ Int.instLinearOrder.toPreorder Int.decLt (·.epoch) (scoresOf history k)

/-- What is to be listed: 0 without a score. -/
def latestValue (history : ScoreHistory) (k : MemberKey) : PyFloat :=
  ((latestScore history k).map (·.value)).getD (.finite 0)

theorem mem_scoresOf {history : ScoreHistory} {k : MemberKey} {v : VerifiedScore} :
    v ∈ scoresOf history k ↔ (k, v) ∈ history := by
  rw [scoresOf, List.mem_filterMap]
  constructor
  · rintro ⟨⟨k', v'⟩, hmem, hsome⟩
    split at hsome
    · rename_i hk
      obtain rfl := Option.some.inj hsome
      exact hk ▸ hmem
    · cases hsome
  · intro hmem
    exact ⟨(k, v), hmem, if_pos rfl⟩

theorem scoresOf_append (before after : ScoreHistory) (k : MemberKey) :
    scoresOf (before ++ after) k = scoresOf before k ++ scoresOf after k :=
  List.filterMap_append

theorem scoresOf_singleton (e : MemberKey × VerifiedScore) (k : MemberKey) :
    scoresOf [e] k = if e.1 = k then [e.2] else [] := by
  by_cases h : e.1 = k
  · simp [scoresOf, h]
  · simp [scoresOf, h]

/-! ## States and steps -/

/-- The index, and what has been submitted. -/
structure Ranked where
  index : MemberIndex
  history : ScoreHistory

/-- The scores that finalized epochs give, by epoch, Brain and miner: at most one. -/
abbrev FinalScores := Int → Int → Text → Option Int

/-- The verifier accepts leaves of finalized epochs only. What is final may become more. -/
def AcceptsLeaves (final : FinalScores) (verify : ScoreVerifier) : Prop :=
  ∀ epoch brainId miner score proof,
    verify epoch brainId miner score proof = .ok true → final epoch brainId miner = some score

/-- What happens to the list. -/
inductive RankingEvent
  | event (e : Event)
  | rebuild (events : List Event)
  | announce (brainId now : Int) (body : Json)
  | scores (verify : ScoreVerifier) (brainId : Int) (body : Json)

/-- The gateway with the view of the contract it has at the moment. -/
def App.viewing (app : App) (verify : ScoreVerifier) : App :=
  { app with verifyScore := some verify }

/-- The entries of a submission, by miner. -/
def submitted (app : App) (brainId : Int) (body : Json) : ScoreHistory :=
  (submittedScores app brainId body).map fun v => ((brainId, lower app.unicode v.miner), v)

inductive RankingStep (app : App) (final : FinalScores) :
    Ranked → RankingEvent → Ranked → Prop
  | event {s : Ranked} (e : Event) :
      RankingStep app final s (.event e) { s with index := s.index.applyEvent app.unicode e }
  | rebuild {s : Ranked} (events : List Event) :
      RankingStep app final s (.rebuild events)
        { s with index := s.index.replaceMembership app.unicode events }
  | announce {s : Ranked} (brainId now : Int) (body : Json) :
      RankingStep app final s (.announce brainId now body)
        { s with index := announce app s.index brainId now body }
  | scores {s : Ranked} {verify : ScoreVerifier} (hleaves : AcceptsLeaves final verify)
      (brainId : Int) (body : Json) :
      RankingStep app final s (.scores verify brainId body) {
        index := submitScores (app.viewing verify) s.index brainId body
        history := s.history ++ submitted (app.viewing verify) brainId body }

/-- Every listed score is the latest one. -/
def ListsLatest (s : Ranked) : Prop :=
  ∀ brainId now, ∀ m ∈ s.index.listMiners brainId now,
    m.score = latestValue s.history (brainId, m.address)

/-- The changes register a miner that was not, without taking away the endpoint it has. -/
def Readmits (idx : MemberIndex) (changes : List (MemberKey × Bool)) (k : MemberKey) : Prop :=
  k.2 ∉ idx.miners k.1 ∧ (k, true) ∈ changes ∧ (k, false) ∉ changes

/-- The step does not list a score that is not the latest one. A miner that is admitted
again has no endpoint with an old score. One that announces itself has no score other than
0. No score is submitted for a listed miner after a different one of a later epoch. -/
def KeepsLatest (app : App) (s : Ranked) : RankingEvent → Prop
  | .event e => ∀ k, Readmits s.index (minerChange app.unicode e).toList k →
      ∀ ep, s.index.endpoints k = some ep → ep.score = latestValue s.history k
  | .rebuild events => ∀ k, Readmits s.index (minerChanges app.unicode events) k →
      ∀ ep, s.index.endpoints k = some ep → ep.score = latestValue s.history k
  | .announce brainId now body => ∀ a, admitAnnounce app s.index brainId now body = .ok a →
      latestValue s.history (brainId, lower app.unicode a.address) = .finite 0
  | .scores verify brainId body => ∀ e ∈ submitted (app.viewing verify) brainId body,
      e.1.2 ∈ s.index.miners e.1.1 → s.index.endpoints e.1 ≠ none →
        ∀ w, latestScore s.history e.1 = some w → w.epoch ≤ e.2.epoch ∨ w.value = e.2.value

/-! ## What is submitted -/

section Submitted

variable {app : App} {final : FinalScores} {verify : ScoreVerifier}

/-- A score that a finalized epoch gives to a miner. -/
structure Finalized (app : App) (final : FinalScores) (k : MemberKey) (v : VerifiedScore) :
    Prop where
  spelled : ∃ a, v.miner = toChecksum app.crypto a
  key : k.2 = lower app.unicode v.miner
  leaf : final v.epoch k.1 v.miner = some v.score
  value : floatOfInt v.score = .ok v.value

theorem verifyEntry_ok {epoch brainId : Int} {e : Json} {v : VerifiedScore}
    (h : verifyEntry app verify epoch brainId e = .ok (some v)) :
    v.epoch = epoch ∧ (∃ a, v.miner = toChecksum app.crypto a) ∧
      (∃ proof, verify epoch brainId v.miner v.score proof = .ok true) ∧
      floatOfInt v.score = .ok v.value := by
  unfold verifyEntry at h
  split at h
  · split at h
    · -- an entry that cannot be read is skipped, or stops the round
      cases h
    · cases h
  · rename_i miner score proof hread
    obtain ⟨verified, hverified, hrest⟩ := bind_ok.mp h
    cases verified with
    | false => cases hrest
    | true =>
      obtain ⟨value, hvalue, hsome⟩ := bind_ok.mp hrest
      obtain rfl := Option.some.inj (return_ok.mp hsome)
      simp only [readScore, bind_ok, return_ok, Prod.mk.injEq] at hread
      -- the miner is the checksum form of the address that was read
      obtain ⟨_, -, _, haddress, _, -, _, -, _, -, _, -, rfl, -, -⟩ := hread
      exact ⟨rfl, toChecksumAddress_ok haddress, ⟨proof, hverified⟩, hvalue⟩

/-- Every score a submission brings comes from one of its entries. -/
theorem mem_verifiedScores {epoch brainId : Int} {es : List Json} {v : VerifiedScore}
    (h : v ∈ (verifiedScores app verify epoch brainId es).1) :
    ∃ e, verifyEntry app verify epoch brainId e = .ok (some v) := by
  induction es with
  | nil => exact absurd h List.not_mem_nil
  | cons e rest ih =>
    rw [verifiedScores] at h
    split at h
    · exact absurd h List.not_mem_nil
    · exact ih h
    · rename_i found hfound
      rcases List.mem_cons.mp h with rfl | hlater
      · exact ⟨e, hfound⟩
      · exact ih hlater

theorem mem_submitted (hleaves : AcceptsLeaves final verify) {brainId : Int} {body : Json}
    {e : MemberKey × VerifiedScore} (h : e ∈ submitted (app.viewing verify) brainId body) :
    Finalized app final e.1 e.2 ∧
      ∃ epoch entries, readSubmission app body = .ok (epoch, entries) ∧ e.2.epoch = epoch := by
  obtain ⟨v, hv, rfl⟩ := List.mem_map.mp h
  unfold submittedScores at hv
  split at hv
  · rename_i verify' epoch entries hverify hread
    obtain rfl := Option.some.inj hverify
    split at hv
    · obtain ⟨_, hentry⟩ := mem_verifiedScores hv
      obtain ⟨hepoch, hspelled, ⟨proof, hverified⟩, hvalue⟩ := verifyEntry_ok hentry
      refine ⟨⟨hspelled, rfl, ?_, hvalue⟩, epoch, entries, hread, hepoch⟩
      rw [hepoch]
      exact hleaves _ _ _ _ _ hverified
    · cases hv
  · cases hv

/-- At most one score for a miner and an epoch. -/
theorem Finalized.agree {k : MemberKey} {v w : VerifiedScore} (hv : Finalized app final k v)
    (hw : Finalized app final k w) (hepoch : v.epoch = w.epoch) : v.value = w.value := by
  obtain ⟨a, ha⟩ := hv.spelled
  obtain ⟨b, hb⟩ := hw.spelled
  have hsame : a = b := by
    refine @hexAddress_eq_of_lower app.unicode _ _ _ _ (hexAddress_toChecksum app.crypto a)
      (hexAddress_toChecksum app.crypto b) ?_
    rw [← ha, ← hb, ← hv.key, hw.key]
  have hminer : v.miner = w.miner := by
    rw [ha, hb, hsame]
  have hscore : v.score = w.score := by
    have hleaf := hv.leaf
    rw [hepoch, hminer, hw.leaf] at hleaf
    exact (Option.some.inj hleaf).symm
  have hvalue := hv.value
  rw [hscore, hw.value] at hvalue
  exact (Except.ok.inj hvalue).symm

end Submitted

/-! ## What a submission writes -/

section Write

variable {u : Unicode} {idx : MemberIndex}

theorem setScore_endpoints (brainId : Int) (t : Text) (score : PyFloat) (k : MemberKey) :
    (idx.setScore u brainId t score).endpoints k =
      if (brainId, lower u t) = k then (idx.endpoints k).map fun ep => { ep with score := score }
      else idx.endpoints k := by
  unfold MemberIndex.setScore
  dsimp only
  split
  · rename_i ep hep
    by_cases hk : (brainId, lower u t) = k
    · subst hk
      rw [if_pos rfl, hep, Option.map_some]
      exact Function.update_self _ _ _
    · rw [if_neg hk]
      exact Function.update_of_ne (Ne.symm hk) _ _
  · -- a miner without an endpoint gets no score
    rename_i hnone
    by_cases hk : (brainId, lower u t) = k
    · subst hk
      rw [if_pos rfl, hnone, Option.map_none]
    · rw [if_neg hk]

/-- Writing scores one after the other leaves each endpoint its miner's last one. -/
theorem setScores_endpoints (brainId : Int) (vs : List VerifiedScore) (k : MemberKey) :
    (vs.foldl (fun idx v => idx.setScore u brainId v.miner v.value) idx).endpoints k =
      match (scoresOf (vs.map fun v => ((brainId, lower u v.miner), v)) k).getLast? with
      | none => idx.endpoints k
      | some v => (idx.endpoints k).map fun ep => { ep with score := v.value } := by
  induction vs using List.reverseRecOn with
  | nil => rfl
  | append_singleton vs v ih =>
    rw [List.foldl_append, List.foldl_cons, List.foldl_nil, setScore_endpoints, ih,
      List.map_append, List.map_singleton, scoresOf_append, scoresOf_singleton]
    dsimp only
    by_cases hk : (brainId, lower u v.miner) = k
    · rw [if_pos hk, if_pos hk, List.getLast?_concat]
      dsimp only
      -- it writes over what the others wrote
      split
      · rfl
      · rw [Option.map_map]
        rfl
    · rw [if_neg hk, if_neg hk, List.append_nil]

end Write

/-! ## The latest score of a longer history -/

section Latest

variable {app : App} {final : FinalScores} {history : ScoreHistory} {k : MemberKey}

/-- Everything that was submitted is the score of a finalized epoch. -/
def AllFinal (app : App) (final : FinalScores) (history : ScoreHistory) : Prop :=
  ∀ e ∈ history, Finalized app final e.1 e.2

/-- A score of the highest epoch is the latest one. -/
theorem latestValue_eq (hfinal : AllFinal app final history) {v : VerifiedScore}
    (hmem : (k, v) ∈ history) (hmax : ∀ w, (k, w) ∈ history → w.epoch ≤ v.epoch) :
    latestValue history k = v.value := by
  cases hlatest : latestScore history k with
  | none =>
    have hv : v ∈ scoresOf history k := mem_scoresOf.mpr hmem
    rw [List.argmax_eq_none.mp hlatest] at hv
    cases hv
  | some w =>
    have hw : (k, w) ∈ history := mem_scoresOf.mp (List.argmax_mem hlatest)
    have hle : v.epoch ≤ w.epoch :=
      List.le_of_mem_argmax (f := fun v => v.epoch) (mem_scoresOf.mpr hmem) hlatest
    rw [latestValue, hlatest, Option.map_some, Option.getD_some]
    exact (hfinal _ hw).agree (hfinal _ hmem) (le_antisymm (hmax w hw) hle)

/-- The scores of one epoch more: either they are the latest, or the latest one stays. -/
theorem latestValue_append {batch : ScoreHistory} (hfinal : AllFinal app final (history ++ batch))
    {v : VerifiedScore} (hv : (k, v) ∈ batch)
    (hepoch : ∀ w, (k, w) ∈ batch → w.epoch = v.epoch) :
    v.value = latestValue (history ++ batch) k ↔
      ∀ w, latestScore history k = some w → w.epoch ≤ v.epoch ∨ w.value = v.value := by
  have hmem : (k, v) ∈ history ++ batch := List.mem_append_right _ hv
  cases hlatest : latestScore history k with
  | none =>
    refine iff_of_true (latestValue_eq hfinal hmem ?_).symm nofun
    intro w hw
    rcases List.mem_append.mp hw with hold | hnew
    · have hv : w ∈ scoresOf history k := mem_scoresOf.mpr hold
      rw [List.argmax_eq_none.mp hlatest] at hv
      cases hv
    · exact (hepoch w hnew).le
  | some w =>
    have hw : (k, w) ∈ history := mem_scoresOf.mp (List.argmax_mem hlatest)
    have hle : ∀ x, (k, x) ∈ history → x.epoch ≤ w.epoch := fun x hx =>
      List.le_of_mem_argmax (f := fun v => v.epoch) (mem_scoresOf.mpr hx) hlatest
    by_cases hlater : w.epoch ≤ v.epoch
    · refine iff_of_true (latestValue_eq hfinal hmem ?_).symm ?_
      · intro x hx
        rcases List.mem_append.mp hx with hold | hnew
        · exact (hle x hold).trans hlater
        · exact (hepoch x hnew).le
      · rintro _ ⟨⟩
        exact .inl hlater
    · -- a later epoch was submitted before
      have hvalue : latestValue (history ++ batch) k = w.value := by
        refine latestValue_eq hfinal (List.mem_append_left _ hw) ?_
        intro x hx
        rcases List.mem_append.mp hx with hold | hnew
        · exact hle x hold
        · rw [hepoch x hnew]
          exact (not_le.mp hlater).le
      rw [hvalue]
      constructor
      · rintro h _ ⟨⟩
        exact .inr h.symm
      · exact fun h => ((h w rfl).resolve_left hlater).symm

end Latest

/-! ## One step -/

section Step

variable {app : App} {final : FinalScores} {s t : Ranked} {l : RankingEvent}

/-- A registered miner with an endpoint is listed at some moment. -/
theorem listsLatest_iff : ListsLatest s ↔ ∀ k ep, k.2 ∈ s.index.miners k.1 →
    s.index.endpoints k = some ep → ep.score = latestValue s.history k := by
  constructor
  · intro h k ep hmember hep
    exact h k.1 none ⟨k.2, ep.url, ep.score⟩
      (MemberIndex.mem_listMiners.mpr ⟨hmember, ep, hep, rfl, rfl, rfl⟩)
  · intro h brainId now m hm
    obtain ⟨hmember, ep, hep, -, -, hscore⟩ := MemberIndex.mem_listMiners.mp hm
    rw [hscore]
    exact h (brainId, m.address) ep hmember hep

theorem allFinal_step (h : RankingStep app final s l t) (hs : AllFinal app final s.history) :
    AllFinal app final t.history := by
  cases h with
  | event e => exact hs
  | rebuild events => exact hs
  | announce brainId now body => exact hs
  | scores hleaves brainId body =>
    intro e he
    rcases List.mem_append.mp he with hold | hnew
    · exact hs e hold
    · exact (mem_submitted hleaves hnew).1

/-- A change of membership is right just if it is for the miners it admits again. -/
theorem members_step {idx' : MemberIndex} {changes : List (MemberKey × Bool)}
    {flags : MemberKey → Bool}
    (hends : ∀ k, idx'.endpoints k =
      if (k, false) ∈ changes then none else s.index.endpoints k)
    (hflags : idx'.minerFlags = replay flags changes)
    (hbefore : ∀ k, flags k = true → k.2 ∈ s.index.miners k.1) (hs : ListsLatest s) :
    ListsLatest { s with index := idx' } ↔ ∀ k, Readmits s.index changes k →
      ∀ ep, s.index.endpoints k = some ep → ep.score = latestValue s.history k := by
  -- a miner that was not dropped is one that was admitted or was one before
  have hmembers : ∀ k, (k, false) ∉ changes →
      (k.2 ∈ idx'.miners k.1 ↔ (k, true) ∈ changes ∨ flags k = true) := by
    intro k hstays
    rw [← replay_of_stays hstays, ← hflags]
    exact (decide_eq_true_iff).symm
  rw [listsLatest_iff] at hs ⊢
  constructor
  · rintro h k ⟨-, hadmitted, hstays⟩ ep hep
    refine h k ep ((hmembers k hstays).mpr (.inl hadmitted)) ?_
    show idx'.endpoints k = some ep
    rw [hends, if_neg hstays, hep]
  · intro h k ep hmember hep
    replace hep : idx'.endpoints k = some ep := hep
    rw [hends] at hep
    split at hep
    · cases hep
    · rename_i hstays
      by_cases hwas : k.2 ∈ s.index.miners k.1
      · exact hs k ep hwas hep
      · have hadmitted := ((hmembers k hstays).mp hmember).resolve_right fun hflag =>
          hwas (hbefore k hflag)
        exact h k ⟨hwas, hadmitted, hstays⟩ ep hep

/-- Only registered miners are admitted. -/
theorem admitAnnounce_member {idx : MemberIndex} {brainId now : Int} {body : Json}
    {a : Announcement} (h : admitAnnounce app idx brainId now body = .ok a) :
    lower app.unicode a.address ∈ idx.miners brainId := by
  unfold admitAnnounce at h
  obtain ⟨⟨read, signature⟩, -, hread⟩ := bind_ok.mp h
  obtain ⟨-, -, hfresh⟩ := bind_ok.mp hread
  obtain ⟨reason, -, hguarded⟩ := bind_ok.mp hfresh
  cases reason with
  | some reason => cases hguarded
  | none =>
    simp only [bind_ok, revertIf_ok, return_ok, Bool.not_eq_false] at hguarded
    obtain ⟨_, -, -, -, -, hmember, rfl⟩ := hguarded
    exact of_decide_eq_true hmember

/-- An announcement is right just if the miner has no score yet, or 0. -/
theorem announce_step (brainId now : Int) (body : Json) (hs : ListsLatest s) :
    ListsLatest { s with index := announce app s.index brainId now body } ↔
      KeepsLatest app s (.announce brainId now body) := by
  unfold announce
  split
  · rename_i stop hstop
    refine iff_of_true hs ?_
    intro a ha
    rw [hstop] at ha
    cases ha
  · rename_i a hchecked
    have hmember := admitAnnounce_member hchecked
    -- the announcement resets the score, so the last known one must be zero already
    have hkeeps : KeepsLatest app s (.announce brainId now body) ↔
        latestValue s.history (brainId, lower app.unicode a.address) = .finite 0 := by
      constructor
      · exact fun h => h a hchecked
      · intro h a' ha'
        rw [hchecked, Except.ok.injEq] at ha'
        exact ha' ▸ h
    rw [hkeeps]
    rw [listsLatest_iff] at hs ⊢
    constructor
    · intro h
      exact (h (brainId, lower app.unicode a.address) ⟨a.url, .finite 0, a.ts⟩ hmember
        (Function.update_self _ _ _)).symm
    · intro h k ep hk hep
      replace hep : Function.update s.index.endpoints (brainId, lower app.unicode a.address)
        (some ⟨a.url, .finite 0, a.ts⟩) k = some ep := hep
      by_cases hkey : k = (brainId, lower app.unicode a.address)
      · subst hkey
        rw [Function.update_self, Option.some.injEq] at hep
        rw [← hep]
        exact h.symm
      · rw [Function.update_of_ne hkey] at hep
        exact hs k ep hk hep

/-- A submission is right just if no later epoch was submitted before. -/
theorem scores_step {verify : ScoreVerifier} (hleaves : AcceptsLeaves final verify)
    (brainId : Int) (body : Json) (hfinal : AllFinal app final s.history) (hs : ListsLatest s) :
    ListsLatest {
        index := submitScores (app.viewing verify) s.index brainId body
        history := s.history ++ submitted (app.viewing verify) brainId body } ↔
      KeepsLatest app s (.scores verify brainId body) := by
  have hall : AllFinal app final (s.history ++ submitted (app.viewing verify) brainId body) :=
    allFinal_step (.scores hleaves brainId body) hfinal
  have hminers : (submitScores (app.viewing verify) s.index brainId body).miners =
      s.index.miners := (submitScores_members _ _ _ _).1
  have hends : ∀ k, (submitScores (app.viewing verify) s.index brainId body).endpoints k = _ :=
    fun k => setScores_endpoints brainId (submittedScores (app.viewing verify) brainId body) k
  replace hends : ∀ k, (submitScores (app.viewing verify) s.index brainId body).endpoints k =
      match (scoresOf (submitted (app.viewing verify) brainId body) k).getLast? with
      | none => s.index.endpoints k
      | some v => (s.index.endpoints k).map fun ep => { ep with score := v.value } := hends
  -- all entries are of one epoch
  have hepoch : ∀ k v w, (k, v) ∈ submitted (app.viewing verify) brainId body →
      (k, w) ∈ submitted (app.viewing verify) brainId body → w.epoch = v.epoch := by
    intro k v w hv hw
    obtain ⟨-, epoch, entries, hread, hvepoch⟩ := mem_submitted hleaves hv
    obtain ⟨-, epoch', entries', hread', hwepoch⟩ := mem_submitted hleaves hw
    rw [hread, Except.ok.injEq, Prod.mk.injEq] at hread'
    exact hwepoch.trans (hread'.1.symm.trans hvepoch.symm)
  rw [listsLatest_iff] at hs ⊢
  unfold KeepsLatest
  dsimp only
  rw [hminers]
  constructor
  · rintro h ⟨k, v⟩ hv hk hep
    obtain ⟨ep, hep⟩ := Option.ne_none_iff_exists'.mp hep
    dsimp only at hk hep
    rw [← latestValue_append hall hv fun w hw => hepoch k v w hv hw]
    -- the last entry of the miner has the value of this one
    obtain ⟨last, hlast⟩ : ∃ last, (scoresOf (submitted (app.viewing verify) brainId body)
        k).getLast? = some last :=
      ⟨_, List.getLast?_eq_some_getLast (List.ne_nil_of_mem (mem_scoresOf.mpr hv))⟩
    have hmem : (k, last) ∈ submitted (app.viewing verify) brainId body :=
      mem_scoresOf.mp (List.mem_of_getLast? hlast)
    have hvalue : last.value = v.value :=
      (mem_submitted hleaves hmem).1.agree (mem_submitted hleaves hv).1 (hepoch k v last hv hmem)
    rw [← hvalue]
    refine h k { ep with score := last.value } hk ?_
    rw [hends, hlast]
    dsimp only
    rw [hep, Option.map_some]
  · intro h k ep hk hep
    rw [hends] at hep
    cases hlast : (scoresOf (submitted (app.viewing verify) brainId body) k).getLast? with
    | none =>
      rw [hlast] at hep
      have hnone : latestValue (s.history ++ submitted (app.viewing verify) brainId body) k =
          latestValue s.history k := by
        unfold latestValue latestScore
        rw [scoresOf_append, List.getLast?_eq_none_iff.mp hlast, List.append_nil]
      rw [hnone]
      exact hs k ep hk hep
    | some v =>
      rw [hlast] at hep
      obtain ⟨old, hold, rfl⟩ := Option.map_eq_some_iff.mp hep
      have hv : (k, v) ∈ submitted (app.viewing verify) brainId body :=
        mem_scoresOf.mp (List.mem_of_getLast? hlast)
      refine (latestValue_append hall hv fun w hw => hepoch k v w hv hw).mpr ?_
      exact h (k, v) hv hk (by rw [hold]; exact nofun)

/-- **When a step keeps the list right.** -/
theorem ranking_step (h : RankingStep app final s l t) (hfinal : AllFinal app final s.history)
    (hs : ListsLatest s) : ListsLatest t ↔ KeepsLatest app s l := by
  cases h with
  | event e =>
    refine members_step ?_ MemberIndex.minerFlags_applyEvent ?_ hs
    · intro k
      rw [MemberIndex.endpoints_applyEvent]
      simp only [Option.mem_toList]
    · exact fun k hflag => of_decide_eq_true hflag
  | rebuild events =>
    refine members_step ?_ (MemberIndex.replace_miner _ events) ?_ hs
    · exact fun k => MemberIndex.replace_endpoints _ events k
    · exact nofun
  | announce brainId now body => exact announce_step brainId now body hs
  | scores hleaves brainId body => exact scores_step hleaves brainId body hfinal hs

end Step

/-! ## Runs -/

/-- A gateway that has just started. -/
def freshRanking (config : PollerConfig) : Ranked := ⟨MemberIndex.empty config, []⟩

/-- **When the displayed scores are the latest ones.** In a run of membership changes,
announcements and submissions, every listed score is the one of the highest epoch that was
submitted, and 0 without any, at every moment just when every step keeps it so. -/
theorem displayed_scores_iff (app : App) (config : PollerConfig) (final : FinalScores)
    (ls : List RankingEvent) (t : Ranked) :
    (∀ p l q, Along (RankingStep app final) (freshRanking config) ls t p l q →
        ListsLatest q) ↔
      ∀ p l q, Along (RankingStep app final) (freshRanking config) ls t p l q →
        KeepsLatest app p l := by
  refine @along_iff _ _ _ (fun s => AllFinal app final s.history) ListsLatest (KeepsLatest app)
    allFinal_step ranking_step _ _ _ ?_ ?_
  · exact nofun
  · rw [listsLatest_iff]
    exact nofun

/-! ## A score that is lost -/

def toyScored : Text := text "0x0000000000000000000000000000000000000007"

/-- Account 7 announces itself at a moment. -/
def toyAnnouncement (ts : Int) : Json :=
  .dict [
    (text "address", .str toyScored),
    (text "url", .str (text "https://m")),
    (text "ts", .int ts),
    (text "signature", .str (text "0x0700"))]

/-- Epoch 2 gives every miner of Brain 3 the score 5. -/
def toyFinalScores : FinalScores := fun epoch brainId _ =>
  if epoch = 2 ∧ brainId = 3 then some 5 else none

def toyVerifier : ScoreVerifier := fun epoch brainId miner score _ =>
  .ok (toyFinalScores epoch brainId miner = some score)

def toySubmission : Json :=
  .dict [
    (text "epoch", .int 2),
    (text "entries", .list [.dict [(text "miner", .str toyScored), (text "score", .int 5)]])]

/-- Account 7 registers, announces itself, is scored, and announces itself again two
minutes later. -/
def toyRankingEvents : List RankingEvent :=
  [.event ⟨.minerRegistered, 3, toyScored, 1, 0⟩, .announce 3 100 (toyAnnouncement 100),
    .scores toyVerifier 3 toySubmission, .announce 3 220 (toyAnnouncement 220)]

/-- It is listed with 0 then, although its score is 5. -/
theorem announcement_loses_score : ∃ t,
    Run (RankingStep toyApp toyFinalScores) (freshRanking toyPollerConfig) toyRankingEvents t ∧
      (t.index.listMiners 3 (some 220)).map (fun m => (m.address, m.score)) =
        [(toyScored, .finite 0)] ∧
      latestValue t.history (3, toyScored) = .finite 5 ∧ ¬ ListsLatest t := by
  have hleaves : AcceptsLeaves toyFinalScores toyVerifier := by
    intro epoch brainId miner score proof h
    exact of_decide_eq_true (Except.ok.inj h)
  -- registered, announced, scored 5, announced again
  obtain ⟨t, hrun, hlisted, hlatest⟩ : ∃ t,
      Run (RankingStep toyApp toyFinalScores) (freshRanking toyPollerConfig) toyRankingEvents t ∧
      (t.index.listMiners 3 (some 220)).map (fun m => (m.address, m.score)) =
        [(toyScored, .finite 0)] ∧ latestValue t.history (3, toyScored) = .finite 5 :=
    ⟨_, .cons (.event _) (.cons (.announce _ _ _) (.cons (.scores hleaves _ _)
      (.single (.announce _ _ _)))), by decide +kernel, by decide +kernel⟩
  refine ⟨t, hrun, hlisted, hlatest, ?_⟩
  intro hlists
  have hmem : (toyScored, PyFloat.finite 0) ∈
      (t.index.listMiners 3 (some 220)).map fun m => (m.address, m.score) := by
    rw [hlisted]
    exact List.mem_singleton.mpr rfl
  obtain ⟨m, hm, hpair⟩ := List.mem_map.mp hmem
  obtain ⟨haddress, hscore⟩ := Prod.mk.inj hpair
  have hvalue := hlists 3 (some 220) m hm
  rw [haddress, hscore, hlatest] at hvalue
  exact absurd (PyFloat.finite.inj hvalue) (by decide)

end Gateway

end BasedAI
