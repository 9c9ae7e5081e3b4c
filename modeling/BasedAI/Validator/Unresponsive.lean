import BasedAI.Validator.Challenges
import BasedAI.Validator.Consistency
import BasedAI.Validator.Equivocation

/-!
# BasedAI — miners that do not respond

A challenge that gets no answer is recorded with an empty text and a zero hash, so that the
scorer penalizes the miner. The zero hash stands for election with the answers, though, and
where the prompt has no answer that beats it, it is the modal response: silence is then what
the network agrees on.

* `NoCredit`      — silence earns no consistency and takes none from who answers;
* `no_credit_iff` — that is so when the zero hash is outvoted wherever a silent miner was
  asked.
-/

namespace BasedAI

open Fallible Python Grouping

/-! ## Failures -/

/-- A failure as `_call_miner_challenge` records it. -/
def MinerObservation.Failed (o : MinerObservation) : Prop :=
  o.responseText = .str [] ∧ o.responseHash = noHash

/-- The miner has been challenged, and every one of its challenges has failed. -/
def Unresponsive (miner : Json) (observations : List MinerObservation) : Prop :=
  challengesOf miner observations ≠ [] ∧ ∀ o ∈ challengesOf miner observations, o.Failed

/-- A challenge of the miner has not failed. -/
def Responsive (miner : Json) (observations : List MinerObservation) : Prop :=
  ∃ o ∈ challengesOf miner observations, ¬ o.Failed

/-- Silence does not pay: a miner that does not respond has consistency 0, and no miner that
does would have more without one of those failures. -/
structure NoCredit {F : Type} (fl : FloatArith F) (u : Unicode)
    (observations : List MinerObservation) (scores : List (MinerScore F)) : Prop where
  zero : ∀ s ∈ scores, Unresponsive s.miner observations → s.consistency = fl.lit 0
  harmless : ∀ before f after, observations = before ++ f :: after → f.isChallenge = true →
    Unresponsive f.miner observations →
    ∃ without, scoreMiners fl u (before ++ after) = .ok without ∧
      ∀ s ∈ scores, Responsive s.miner observations → ∀ s' ∈ without,
        hashKey s'.miner = hashKey s.miner → fl.lt s.consistency s'.consistency = false

/-! ## Answers and challenges -/

section Answers

variable {pid : Text} {miner other : Json} {o f : MinerObservation}
  {observations before after : List MinerObservation}

theorem challengesOf_congr (h : hashKey miner = hashKey other) :
    challengesOf miner observations = challengesOf other observations := by
  rw [challengesOf, challengesOf, h]

theorem mem_challengesOf : o ∈ challengesOf miner observations ↔
    o ∈ observations ∧ o.isChallenge = true ∧ hashKey o.miner = hashKey miner := by
  rw [challengesOf, List.mem_filter, Bool.and_eq_true, decide_eq_true_iff]

theorem mem_answers (ho : o ∈ observations) (hchallenge : o.isChallenge = true) :
    o.responseHash ∈ answers o.promptId observations := by
  apply List.mem_map.mpr
  refine ⟨o, List.mem_filter.mpr ⟨ho, ?_⟩, rfl⟩
  rw [hchallenge, Bool.true_and]
  exact decide_eq_true rfl

theorem answers_append :
    answers pid (before ++ after) = answers pid before ++ answers pid after := by
  rw [answers, List.filter_append, List.map_append]
  rfl

theorem answers_cons_self (hchallenge : f.isChallenge = true) :
    answers f.promptId (f :: after) = f.responseHash :: answers f.promptId after := by
  rw [answers, List.filter_cons_of_pos, List.map_cons]
  · rfl
  · rw [hchallenge, Bool.true_and]
    exact decide_eq_true rfl

theorem answers_cons_of_ne (h : f.promptId ≠ pid) :
    answers pid (f :: after) = answers pid after := by
  rw [answers, List.filter_cons_of_neg]
  · rfl
  · rw [decide_eq_false h, Bool.and_false]
    exact Bool.false_ne_true

theorem eq_str {a : Json} {s : Text} : a.eq (.str s) = true ↔ hashKey a = some (.inl s) := by
  cases a with
  | float x => cases x <;> simp [Json.eq, Json.same, Json.number, hashKey]
  | _ => simp [Json.eq, Json.same, Json.number, hashKey]

/-- A failure agrees with the modal response when that is the zero hash. -/
theorem agreesIn_failed (ho : o ∈ observations) (hchallenge : o.isChallenge = true)
    (hfailed : o.Failed) : agreesIn observations o = false ↔
      Outvoted hashKey (answers o.promptId observations) noHash := by
  have hmem : noHash ∈ answers o.promptId observations := hfailed.2 ▸ mem_answers ho hchallenge
  obtain ⟨x, hmode⟩ := exists_mode hashKey (List.ne_nil_of_mem hmem)
  rw [outvoted_iff hmem hmode, agreesIn, hmode, hfailed.2, ← Bool.not_eq_true]
  exact not_congr eq_str

/-- What is outvoted can be left out, for every prompt. -/
theorem mode_without (hchallenge : f.isChallenge = true) (hfailed : f.Failed)
    (hless : Outvoted hashKey (answers f.promptId (before ++ f :: after)) noHash) :
    mode hashKey (answers pid (before ++ after)) =
      mode hashKey (answers pid (before ++ f :: after)) := by
  rw [answers_append, answers_append]
  by_cases hpid : f.promptId = pid
  · subst hpid
    rw [answers_append, answers_cons_self hchallenge, hfailed.2] at hless
    rw [answers_cons_self hchallenge, hfailed.2]
    have hmem : noHash ∈ answers f.promptId before ++ noHash :: answers f.promptId after :=
      List.mem_append_right _ List.mem_cons_self
    obtain ⟨x, hmode⟩ := exists_mode hashKey (List.ne_nil_of_mem hmem)
    rw [hmode]
    exact mode_remove hmode ((outvoted_iff hmem hmode).mp hless)
  · rw [answers_cons_of_ne hpid]

theorem agreesIn_congr {l l' : List MinerObservation}
    (h : ∀ pid, mode hashKey (answers pid l) = mode hashKey (answers pid l')) :
    agreesIn l = agreesIn l' := by
  funext o
  rw [agreesIn, h]
  rfl

end Answers

/-! ## What silence earns -/

section Silence

variable {F : Type} {fl : FloatArith F} {u : Unicode} {observations : List MinerObservation}
  {scores : List (MinerScore F)} {o f : MinerObservation} {miner : Json}

/-- Who does not respond is not a responsive miner. -/
theorem Unresponsive.ne_of_responsive (hf : Unresponsive f.miner observations)
    (hminer : Responsive miner observations) : hashKey f.miner ≠ hashKey miner := by
  intro hkey
  obtain ⟨o, ho, hanswered⟩ := hminer
  rw [← challengesOf_congr hkey] at ho
  exact hanswered (hf.2 o ho)

/-- The consistency of a silent miner, where the zero hash never wins. -/
theorem consistencyIn_zero (hfl : fl.TellsShares observations.length)
    (hsilent : Unresponsive miner observations) :
    consistencyIn fl miner observations = fl.lit 0 ↔
      ∀ o ∈ challengesOf miner observations,
        Outvoted hashKey (answers o.promptId observations) noHash := by
  have hpos := List.length_pos_of_ne_nil hsilent.1
  have hlength : (challengesOf miner observations).length ≤ observations.length :=
    List.length_filter_le _ _
  have hzero := hfl.ratio_zero _ hpos hlength
  rw [consistencyIn, if_neg hsilent.1]
  constructor
  · intro h o ho
    -- the share is 0 just where no challenge counts as answered in agreement
    have hnone : (challengesOf miner observations).countP (agreesIn observations) = 0 :=
      hfl.ratio_inj _ _ _ hpos hlength List.countP_le_length (Nat.zero_le _) (h.trans hzero.symm)
    obtain ⟨hmem, hchallenge, -⟩ := mem_challengesOf.mp ho
    apply (agreesIn_failed hmem hchallenge (hsilent.2 o ho)).mp
    exact Bool.eq_false_iff.mpr (List.countP_eq_zero.mp hnone o ho)
  · intro h
    have hnone : (challengesOf miner observations).countP (agreesIn observations) = 0 := by
      apply List.countP_eq_zero.mpr
      intro o ho
      obtain ⟨hmem, hchallenge, -⟩ := mem_challengesOf.mp ho
      exact Bool.eq_false_iff.mp ((agreesIn_failed hmem hchallenge (hsilent.2 o ho)).mpr (h o ho))
    rw [hnone]
    exact hzero

/-- The consistency of another miner does not depend on an outvoted failure. -/
theorem consistencyIn_without (fl : FloatArith F) {before after : List MinerObservation}
    (hchallenge : f.isChallenge = true) (hfailed : f.Failed)
    (hless : Outvoted hashKey (answers f.promptId (before ++ f :: after)) noHash)
    (hne : hashKey f.miner ≠ hashKey miner) :
    consistencyIn fl miner (before ++ after) = consistencyIn fl miner (before ++ f :: after) := by
  have hagrees : agreesIn (before ++ after) = agreesIn (before ++ f :: after) :=
    agreesIn_congr fun pid => mode_without hchallenge hfailed hless
  have hchallenges : challengesOf miner (before ++ after) =
      challengesOf miner (before ++ f :: after) := by
    rw [challengesOf, challengesOf, List.filter_append, List.filter_append,
      List.filter_cons_of_neg]
    rw [decide_eq_false hne, Bool.and_false]
    exact Bool.false_ne_true
  rw [consistencyIn, consistencyIn, hagrees, hchallenges]

/-- **Silence earns no consistency** exactly when the zero hash is outvoted on every prompt
with which a silent miner was challenged: another answer to it is more frequent, or as
frequent and recorded before the first zero hash. -/
theorem no_credit_iff (hfl : fl.TellsShares observations.length)
    (h : scoreMiners fl u observations = .ok scores) :
    NoCredit fl u observations scores ↔ ∀ o ∈ observations, o.isChallenge = true →
      Unresponsive o.miner observations →
      Outvoted hashKey (answers o.promptId observations) noHash := by
  obtain ⟨hconsistency, hscored⟩ := consistency_scored h
  constructor
  · intro hcredit o ho hchallenge hsilent
    -- the row of its miner earns nothing, so its failed answers are outvoted
    obtain ⟨s, hs, hkey⟩ := hscored o ho
    have hsilent' : Unresponsive s.miner observations := by
      rw [Unresponsive, challengesOf_congr hkey]
      exact hsilent
    have hzero := hcredit.zero s hs hsilent'
    rw [(hconsistency s hs).2, consistencyIn_zero hfl hsilent'] at hzero
    exact hzero o (mem_challengesOf.mpr ⟨ho, hchallenge, hkey.symm⟩)
  · intro houtvoted
    constructor
    · intro s hs hsilent
      rw [(hconsistency s hs).2, consistencyIn_zero hfl hsilent]
      intro o ho
      obtain ⟨hmem, hchallenge, hkey⟩ := mem_challengesOf.mp ho
      apply houtvoted o hmem hchallenge
      rw [Unresponsive, challengesOf_congr hkey]
      exact hsilent
    · rintro before f after rfl hchallenge hsilent
      have hmem : f ∈ before ++ f :: after := List.mem_append_right _ List.mem_cons_self
      have hfailed := hsilent.2 f (mem_challengesOf.mpr ⟨hmem, hchallenge, rfl⟩)
      -- a failed answer that is outvoted is not the mode, and leaves the mode where it is
      have hless := houtvoted f hmem hchallenge hsilent
      obtain ⟨without, hwithout⟩ := scored_iff.mpr fun o ho => scored_iff.mp ⟨scores, h⟩ o
        (((List.sublist_cons_self f after).append_left before).subset ho)
      refine ⟨without, hwithout, ?_⟩
      intro s hs hresponsive s' hs' hkey
      have hne := hsilent.ne_of_responsive hresponsive
      have hsame := consistencyIn_without fl hchallenge hfailed hless
        (fun heq => hne (heq.trans hkey))
      have hcongr : consistencyIn fl s'.miner (before ++ f :: after) =
          consistencyIn fl s.miner (before ++ f :: after) := by
        rw [consistencyIn, consistencyIn, challengesOf_congr hkey]
      rw [(hconsistency s hs).2, ((consistency_scored hwithout).1 s' hs').2, hsame, hcongr]
      exact hfl.lt_irrefl _

end Silence

/-! ## One answer and two failures -/

theorem toyFloat_shares (n : Nat) : toyFloat.TellsShares n where
  ratio_zero m _ _ := by
    show ((0 : Nat) : Rat) / (m : Rat) = 0
    rw [Nat.cast_zero, zero_div]
  ratio_inj a b m hm _ _ _ h := by
    have hpos : ((m : Nat) : Rat) ≠ 0 := Nat.cast_ne_zero.mpr hm.ne'
    have heq : ((a : Nat) : Rat) / m = b / m := h
    exact Nat.cast_injective ((div_left_inj' hpos).mp heq)
  lt_irrefl x := decide_eq_false (lt_irrefl x)

/-- An answer to the prompt `p1`, or a failure. -/
def toyEcho (miner : String) (answer : Option String) : MinerObservation where
  miner := .str (text miner)
  promptId := text "p1"
  responseHash := match answer with
    | some hash => .str (text hash)
    | none => noHash
  responseText := match answer with
    | some hash => .str (text hash)
    | none => .str []
  latencyMs := 0
  isChallenge := true
  referenceText := .null

def toyEchoes (answers : List (String × Option String)) : List MinerObservation :=
  answers.map fun e => toyEcho e.1 e.2

theorem toyEchoes_scored (answers : List (String × Option String)) :
    ∃ scores, scoreMiners toyFloat toyOffchain.unicode (toyEchoes answers) = .ok scores := by
  apply scored_iff.mpr
  intro o ho
  obtain ⟨⟨miner, answer⟩, -, rfl⟩ := List.mem_map.mp ho
  refine ⟨rfl, fun _ => ?_, fun h => nomatch h⟩
  cases answer with
  | some hash => rfl
  | none => rfl

theorem no_credit_pair :
    ∃ scores, scoreMiners toyFloat toyOffchain.unicode
        (toyEchoes [("a", some "0xagree"), ("b", none)]) = .ok scores ∧
      NoCredit toyFloat toyOffchain.unicode
        (toyEchoes [("a", some "0xagree"), ("b", none)]) scores := by
  obtain ⟨scores, h⟩ := toyEchoes_scored [("a", some "0xagree"), ("b", none)]
  refine ⟨scores, h, (no_credit_iff (toyFloat_shares _) h).mpr ?_⟩
  -- the answer stands before the failure
  intro o ho _ _
  have houtvoted : Outvoted hashKey [.str (text "0xagree"), noHash] noHash :=
    ⟨[], .str (text "0xagree"), [noHash], rfl, by decide, .inr ⟨by decide, fun y hy => nomatch hy⟩⟩
  rcases List.mem_cons.mp ho with rfl | ho
  · exact houtvoted
  · obtain rfl := List.mem_singleton.mp ho
    exact houtvoted

/-- **Silence wins.** Miner `a` answers, `b` and `c` do not: the zero hash is the modal
response, and not to respond is perfectly consistent. -/
theorem silence_wins :
    ∃ scores, scoreMiners toyFloat toyOffchain.unicode
        (toyEchoes [("a", some "0xagree"), ("b", none), ("c", none)]) = .ok scores ∧
      ¬ NoCredit toyFloat toyOffchain.unicode
        (toyEchoes [("a", some "0xagree"), ("b", none), ("c", none)]) scores := by
  obtain ⟨scores, h⟩ := toyEchoes_scored [("a", some "0xagree"), ("b", none), ("c", none)]
  refine ⟨scores, h, fun hcredit => ?_⟩
  obtain ⟨hconsistency, hscored⟩ := consistency_scored h
  obtain ⟨s, hs, hkey⟩ := hscored (toyEcho "b" none)
    (List.mem_cons_of_mem _ List.mem_cons_self)
  have hchallenges : challengesOf s.miner
      (toyEchoes [("a", some "0xagree"), ("b", none), ("c", none)]) = [toyEcho "b" none] := by
    rw [challengesOf_congr hkey]
    rfl
  -- the one challenge of that miner failed
  have hsilent : Unresponsive s.miner
      (toyEchoes [("a", some "0xagree"), ("b", none), ("c", none)]) := by
    rw [Unresponsive, hchallenges]
    refine ⟨List.cons_ne_nil _ _, ?_⟩
    intro o ho
    obtain rfl := List.mem_singleton.mp ho
    exact ⟨rfl, rfl⟩
  have hzero := hcredit.zero s hs hsilent
  rw [(hconsistency s hs).2, consistencyIn, hchallenges] at hzero
  exact absurd hzero (by decide +kernel)

end BasedAI
