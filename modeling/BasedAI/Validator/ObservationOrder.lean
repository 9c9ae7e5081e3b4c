import BasedAI.Validator.Unresponsive

/-!
# BasedAI — the order of observations

The modal response of a prompt is the most frequent answer to it, and among answers of one
frequency the one that was observed first. Two validators with the same observations in
another order then disagree on what a miner has to answer, unless it does not matter: every
miner has given the most frequent answers equally often.

* `OrderFree`      — no order changes the consistency component of any miner;
* `order_free_iff` — that is so when ties do not matter.
-/

namespace BasedAI

open Fallible Python Grouping

/-- Whatever the order of the observations, the same miners are scored, with the same
consistency. -/
def OrderFree {F : Type} (fl : FloatArith F) (u : Unicode) (observations : List MinerObservation)
    (scores : List (MinerScore F)) : Prop :=
  ∀ reordered, observations.Perm reordered →
    ∃ scores', scoreMiners fl u reordered = .ok scores' ∧
      (∀ s ∈ scores, ∃ s' ∈ scores', hashKey s'.miner = hashKey s.miner ∧
        s'.consistency = s.consistency) ∧
      ∀ s' ∈ scores', ∃ s ∈ scores, hashKey s.miner = hashKey s'.miner ∧
        s.consistency = s'.consistency

/-- How many of a miner's answers to a prompt equal `h`. -/
def agreeing (observations : List MinerObservation) (miner : Json) (pid : Text) (h : Json) : Nat :=
  (challengesOf miner observations).countP fun o => decide (o.promptId = pid) && h.eq o.responseHash

/-- Every miner agrees equally often with any two most frequent answers to a prompt. -/
def TiesSettled (observations : List MinerObservation) : Prop :=
  ∀ pid, ∀ h ∈ answers pid observations, ∀ h' ∈ answers pid observations,
    IsTop hashKey (answers pid observations) h → IsTop hashKey (answers pid observations) h' →
    ∀ o ∈ observations, agreeing observations o.miner pid h = agreeing observations o.miner pid h'

/-! ## Equality and keys -/

/-- Values that can be keys are equal when they are one key that is not a NaN. -/
theorem eq_iff {a b : Json} (ha : a.hashable = true) (hb : b.hashable = true) :
    a.eq b = true ↔ hashKey a = hashKey b ∧ hashKey a ≠ some (.inr .nan) := by
  by_cases hnan : a = .float .nan
  · subst hnan
    simp [Json.eq, hashKey, Json.number]
  · -- only a NaN differs from itself
    have hsame : a.eq b = Json.same a b := by
      unfold Json.eq
      split
      · exact absurd rfl hnan
      · rfl
    have hkey : hashKey a ≠ some (.inr .nan) := by
      cases a with
      | float x => cases x <;> simp_all [hashKey, Json.number]
      | _ => simp [hashKey, Json.number]
    rw [hsame, same_iff ha hb]
    exact ⟨fun h => ⟨h, hkey⟩, fun h => h.1⟩

theorem eq_congr {a b c : Json} (ha : a.hashable = true) (hb : b.hashable = true)
    (hc : c.hashable = true) (h : hashKey a = hashKey b) : a.eq c = b.eq c := by
  rw [Bool.eq_iff_iff, eq_iff ha hc, eq_iff hb hc, h]

/-! ## Reordering -/

section Order

variable {observations reordered : List MinerObservation} {pid pid' : Text} {miner h y : Json}

theorem answers_perm (hperm : observations.Perm reordered) (pid : Text) :
    (answers pid observations).Perm (answers pid reordered) :=
  (hperm.filter _).map _

theorem challengesOf_perm (hperm : observations.Perm reordered) (miner : Json) :
    (challengesOf miner observations).Perm (challengesOf miner reordered) :=
  hperm.filter _

/-- The observations with an answer to a prompt before all the others. -/
def isAnswer (pid : Text) (h : Json) (o : MinerObservation) : Bool :=
  o.isChallenge && decide (o.promptId = pid) && decide (hashKey o.responseHash = hashKey h)

def toFront (pid : Text) (h : Json) (observations : List MinerObservation) :
    List MinerObservation :=
  observations.filter (isAnswer pid h) ++ observations.filter fun o => !isAnswer pid h o

theorem toFront_perm (pid : Text) (h : Json) (observations : List MinerObservation) :
    observations.Perm (toFront pid h observations) :=
  (List.filter_append_perm _ _).symm

/-- Another prompt has its answers in the same order. -/
theorem answers_toFront_of_ne (hne : pid' ≠ pid) :
    answers pid' (toFront pid h observations) = answers pid' observations := by
  rw [toFront, answers_append, answers, answers, answers, List.filter_filter, List.filter_filter]
  -- none of what was moved is an answer to the other prompt
  have hnone : observations.filter (fun o =>
      (o.isChallenge && decide (o.promptId = pid')) && isAnswer pid h o) = [] := by
    apply List.filter_eq_nil_iff.mpr
    intro o _ hboth
    simp only [isAnswer, Bool.and_eq_true, decide_eq_true_eq] at hboth
    obtain ⟨⟨-, hpid'⟩, ⟨-, hpid⟩, -⟩ := hboth
    exact hne (hpid'.symm.trans hpid)
  have hrest : ∀ o ∈ observations,
      ((o.isChallenge && decide (o.promptId = pid')) && !isAnswer pid h o) =
        (o.isChallenge && decide (o.promptId = pid')) := by
    intro o _
    by_cases hpid : o.promptId = pid'
    · have hnot : isAnswer pid h o = false := by
        simp [isAnswer, hpid, hne]
      rw [hnot, Bool.not_false, Bool.and_true]
    · simp [hpid]
  rw [hnone, List.filter_congr hrest]
  rfl

/-- The answer put before the others is the modal response. -/
theorem mode_toFront_self (hmem : h ∈ answers pid observations)
    (htop : IsTop hashKey (answers pid observations) h) :
    ∃ y, mode hashKey (answers pid (toFront pid h observations)) = some y ∧
      hashKey y = hashKey h := by
  have hperm := answers_perm (toFront_perm pid h observations) pid
  rw [toFront, answers_append] at hperm ⊢
  -- its key comes first, and none is more frequent
  refine mode_toFront hmem htop hperm.symm ?_ ?_
  · intro x hx
    obtain ⟨o, ho, rfl⟩ := List.mem_map.mp hx
    have hanswer := (List.mem_filter.mp (List.mem_of_mem_filter ho)).2
    exact of_decide_eq_true (Bool.and_eq_true_iff.mp hanswer).2
  · intro x hx
    obtain ⟨o, ho, rfl⟩ := List.mem_map.mp hx
    obtain ⟨hfront, hasked⟩ := List.mem_filter.mp ho
    have hnot := (List.mem_filter.mp hfront).2
    intro hkey
    rw [isAnswer, hasked, Bool.true_and, decide_eq_true hkey] at hnot
    cases hnot

end Order

/-! ## Counting agreements -/

section Counting

variable {F : Type} {fl : FloatArith F} {u : Unicode} {observations l l' : List MinerObservation}
  {scores : List (MinerScore F)} {pid : Text} {miner y : Json}

/-- Agreements with one prompt, where `y` is its modal response. -/
theorem countP_prompt (hmode : mode hashKey (answers pid l) = some y) :
    (challengesOf miner observations).countP (fun o =>
      decide (o.promptId = pid) && agreesIn l o) = agreeing observations miner pid y := by
  apply List.countP_congr
  intro o _
  by_cases hpid : o.promptId = pid
  · subst hpid
    rw [agreesIn, hmode]
  · rw [decide_eq_false hpid, Bool.false_and, Bool.false_and]

/-- The agreements of a miner, with a prompt and with the others. -/
theorem countP_agreesIn (hmode : mode hashKey (answers pid l) = some y) :
    (challengesOf miner observations).countP (agreesIn l) = agreeing observations miner pid y +
      (challengesOf miner observations).countP (fun o =>
        !decide (o.promptId = pid) && agreesIn l o) := by
  rw [List.countP_eq_countP_filter_add _ _ fun o => decide (o.promptId = pid),
    List.countP_filter, List.countP_filter, ← countP_prompt hmode]
  simp only [Bool.and_comm]

/-- The consistency of a miner, from another order of the observations. -/
theorem consistencyIn_perm (hperm : observations.Perm l) (miner : Json) :
    consistencyIn fl miner l = if challengesOf miner observations = [] then fl.lit (1 / 2)
      else fl.ratio ((challengesOf miner observations).countP (agreesIn l))
        (challengesOf miner observations).length := by
  have hchallenges := challengesOf_perm hperm miner
  have hnil : challengesOf miner l = [] ↔ challengesOf miner observations = [] := by
    rw [← List.length_eq_zero_iff, ← hchallenges.length_eq, List.length_eq_zero_iff]
  rw [consistencyIn, hchallenges.countP_eq, hchallenges.length_eq]
  simp only [hnil]

/-- Who has answered a prompt has challenges. -/
theorem agreeing_nil (h : challengesOf miner observations = []) (y : Json) :
    agreeing observations miner pid y = 0 := by
  rw [agreeing, h]
  rfl

/-- Answers that are one key agree with the same answers. -/
theorem agreeing_key {y' : Json} (hhashable : ∀ o ∈ observations, Scorable o)
    (hy : y.hashable = true) (hy' : y'.hashable = true) (hkey : hashKey y = hashKey y') :
    agreeing observations miner pid y = agreeing observations miner pid y' := by
  apply List.countP_congr
  intro o ho
  obtain ⟨hmem, hchallenge, -⟩ := mem_challengesOf.mp ho
  rw [eq_congr hy hy' ((hhashable o hmem).hash hchallenge) hkey]

theorem answers_hashable (hhashable : ∀ o ∈ observations, Scorable o)
    (h : y ∈ answers pid observations) : y.hashable = true := by
  obtain ⟨o, ho, rfl⟩ := List.mem_map.mp h
  obtain ⟨hmem, hasked⟩ := List.mem_filter.mp ho
  exact (hhashable o hmem).hash (Bool.and_eq_true_iff.mp hasked).1

/-- **Where ties are settled** no order changes how often a miner agrees. -/
theorem countP_of_settled (hsettled : TiesSettled observations) (hperm : observations.Perm l)
    {o : MinerObservation} (ho : o ∈ observations) :
    (challengesOf o.miner observations).countP (agreesIn l) =
      (challengesOf o.miner observations).countP (agreesIn observations) := by
  apply countP_by_key fun o : MinerObservation => o.promptId
  intro pid
  by_cases hnone : answers pid observations = []
  · -- nobody was asked
    have hzero : ∀ p : MinerObservation → Bool, (challengesOf o.miner observations).countP
        (fun o => decide (o.promptId = pid) && p o) = 0 := by
      intro p
      apply List.countP_eq_zero.mpr
      intro a ha hboth
      obtain ⟨hmem, hchallenge, -⟩ := mem_challengesOf.mp ha
      obtain rfl : a.promptId = pid := of_decide_eq_true (Bool.and_eq_true_iff.mp hboth).1
      have hanswer := mem_answers hmem hchallenge
      rw [hnone] at hanswer
      exact List.not_mem_nil hanswer
    rw [hzero, hzero]
  · have hanswers := answers_perm hperm pid
    obtain ⟨x, hx⟩ := exists_mode hashKey hnone
    obtain ⟨y, hy⟩ := exists_mode hashKey fun hnil : answers pid l = [] =>
      hnone (hnil ▸ hanswers).eq_nil
    rw [countP_prompt hx, countP_prompt hy]
    exact hsettled pid y (hanswers.mem_iff.mpr (mode_mem hy)) x (mode_mem hx)
      ((isTop_perm hanswers).mpr (mode_isTop hy)) (mode_isTop hx) o ho

/-- A miner's consistency, when the answer `h` is put to the front. -/
theorem countP_toFront {h : Json} (hhashable : ∀ o ∈ observations, Scorable o)
    (hmem : h ∈ answers pid observations) (htop : IsTop hashKey (answers pid observations) h) :
    (challengesOf miner observations).countP (agreesIn (toFront pid h observations)) =
      agreeing observations miner pid h + (challengesOf miner observations).countP (fun o =>
        !decide (o.promptId = pid) && agreesIn observations o) := by
  obtain ⟨y, hmode, hkey⟩ := mode_toFront_self hmem htop
  have hy : y ∈ answers pid observations :=
    (answers_perm (toFront_perm pid h observations) pid).mem_iff.mpr (mode_mem hmode)
  -- the other prompts have their answers in the old order
  rw [countP_agreesIn hmode, agreeing_key hhashable (answers_hashable hhashable hy)
    (answers_hashable hhashable hmem) hkey]
  congr 1
  apply List.countP_congr
  intro o _
  by_cases hpid : o.promptId = pid
  · rw [decide_eq_true hpid, Bool.not_true, Bool.false_and, Bool.false_and]
  · rw [agreesIn, agreesIn, answers_toFront_of_ne hpid]

/-- **Consistency does not depend on the order** of the observations exactly when every miner
agrees equally often with any two most frequent answers to a prompt. -/
theorem order_free_iff (hfl : fl.TellsShares observations.length)
    (h : scoreMiners fl u observations = .ok scores) :
    OrderFree fl u observations scores ↔ TiesSettled observations := by
  obtain ⟨hconsistency, hscored⟩ := consistency_scored h
  have hhashable := scored_iff.mp ⟨scores, h⟩
  constructor
  · intro hfree pid a ha b hb hatop hbtop o ho
    by_cases hnil : challengesOf o.miner observations = []
    · rw [agreeing_nil hnil, agreeing_nil hnil]
    · have hpos := List.length_pos_of_ne_nil hnil
      have hlength : (challengesOf o.miner observations).length ≤ observations.length :=
        List.length_filter_le _ _
      obtain ⟨s, hs, hkey⟩ := hscored o ho
      -- the score is the same, whichever of the two is put to the front
      have hfront : ∀ c ∈ answers pid observations, IsTop hashKey (answers pid observations) c →
          s.consistency = fl.ratio (agreeing observations o.miner pid c +
            (challengesOf o.miner observations).countP (fun o =>
              !decide (o.promptId = pid) && agreesIn observations o) : Nat)
            (challengesOf o.miner observations).length := by
        intro c hc hctop
        obtain ⟨scores', hscores', hall, -⟩ := hfree _ (toFront_perm pid c observations)
        obtain ⟨s', hs', hkey', hsame⟩ := hall s hs
        rw [← hsame, ((consistency_scored hscores').1 s' hs').2,
          consistencyIn_perm (toFront_perm pid c observations),
          challengesOf_congr (hkey'.trans hkey), if_neg hnil, countP_toFront hhashable hc hctop]
      have hcounts : ∀ c ∈ answers pid observations,
          IsTop hashKey (answers pid observations) c →
          agreeing observations o.miner pid c + (challengesOf o.miner observations).countP
            (fun o => !decide (o.promptId = pid) && agreesIn observations o) ≤
          (challengesOf o.miner observations).length := by
        intro c hc hctop
        rw [← countP_toFront hhashable hc hctop]
        exact List.countP_le_length
      have hsum := hfl.ratio_inj _ _ _ hpos hlength (hcounts a ha hatop) (hcounts b hb hbtop)
        ((hfront a ha hatop).symm.trans (hfront b hb hbtop))
      omega
  · intro hsettled reordered hperm
    obtain ⟨scores', hscores'⟩ := scored_iff.mpr fun o ho => hhashable o (hperm.mem_iff.mpr ho)
    obtain ⟨hconsistency', hscored'⟩ := consistency_scored hscores'
    -- a miner has one consistency in both orders
    have hsame : ∀ o ∈ observations,
        consistencyIn fl o.miner reordered = consistencyIn fl o.miner observations := by
      intro o ho
      rw [consistencyIn_perm hperm, countP_of_settled hsettled hperm ho]
      rfl
    have hcongr : ∀ s ∈ scores, ∀ s' ∈ scores', hashKey s'.miner = hashKey s.miner →
        s'.consistency = s.consistency := by
      intro s hs s' hs' hkey
      obtain ⟨⟨o, ho, hminer⟩, hs⟩ := hconsistency s hs
      rw [hs, (hconsistency' s' hs').2, ← hminer, ← hsame o ho, consistencyIn, consistencyIn,
        challengesOf_congr (hkey.trans (congrArg hashKey hminer.symm))]
    refine ⟨scores', hscores', ?_, ?_⟩
    · intro s hs
      obtain ⟨⟨o, ho, hminer⟩, -⟩ := hconsistency s hs
      obtain ⟨s', hs', hkey⟩ := hscored' o (hperm.mem_iff.mp ho)
      have hkey := hkey.trans (congrArg hashKey hminer)
      exact ⟨s', hs', hkey, hcongr s hs s' hs' hkey⟩
    · intro s' hs'
      obtain ⟨⟨o, ho, hminer⟩, -⟩ := hconsistency' s' hs'
      obtain ⟨s, hs, hkey⟩ := hscored o (hperm.mem_iff.mpr ho)
      have hkey := hkey.trans (congrArg hashKey hminer)
      exact ⟨s, hs, hkey, (hcongr s hs s' hs' hkey.symm).symm⟩

end Counting

/-! ## Two answers -/

theorem order_free_pair :
    ∃ scores, scoreMiners toyFloat toyOffchain.unicode
        (toyEchoes [("a", some "0xagree"), ("b", some "0xagree")]) = .ok scores ∧
      OrderFree toyFloat toyOffchain.unicode
        (toyEchoes [("a", some "0xagree"), ("b", some "0xagree")]) scores := by
  obtain ⟨scores, h⟩ := toyEchoes_scored [("a", some "0xagree"), ("b", some "0xagree")]
  refine ⟨scores, h, (order_free_iff (toyFloat_shares _) h).mpr ?_⟩
  -- there is one answer
  have hagree : ∀ pid, ∀ x ∈ answers pid
      (toyEchoes [("a", some "0xagree"), ("b", some "0xagree")]), x = .str (text "0xagree") := by
    intro pid x hx
    obtain ⟨o, ho, rfl⟩ := List.mem_map.mp hx
    rcases List.mem_cons.mp (List.mem_of_mem_filter ho) with rfl | ho
    · rfl
    · obtain rfl := List.mem_singleton.mp ho
      rfl
  intro pid x hx y hy _ _ o _
  rw [hagree pid x hx, hagree pid y hy]

/-- **Who is seen first is right.** Miners `a` and `b` give two answers: the consistency of `a`
is 1 when it is observed first, and 0 when `b` is. -/
theorem order_matters :
    ∃ scores, scoreMiners toyFloat toyOffchain.unicode
        (toyEchoes [("a", some "0xa"), ("b", some "0xb")]) = .ok scores ∧
      ¬ OrderFree toyFloat toyOffchain.unicode
        (toyEchoes [("a", some "0xa"), ("b", some "0xb")]) scores := by
  obtain ⟨scores, h⟩ := toyEchoes_scored [("a", some "0xa"), ("b", some "0xb")]
  refine ⟨scores, h, fun hfree => ?_⟩
  obtain ⟨scores', h', hall, -⟩ := hfree (toyEchoes [("b", some "0xb"), ("a", some "0xa")])
    (List.Perm.swap _ _ _)
  obtain ⟨hconsistency, hscored⟩ := consistency_scored h
  obtain ⟨s, hs, hkey⟩ := hscored (toyEcho "a" (some "0xa")) List.mem_cons_self
  obtain ⟨s', hs', hkey', hsame⟩ := hall s hs
  -- the two consistencies of `a` would be one
  rw [(hconsistency s hs).2, ((consistency_scored h').1 s' hs').2, consistencyIn, consistencyIn,
    challengesOf_congr (hkey'.trans hkey), challengesOf_congr hkey] at hsame
  exact absurd hsame (by decide +kernel)

end BasedAI
