import BasedAI.Lib.Transition
import BasedAI.Scoring.ScoringRegistry
import Mathlib.Data.NNRat.Floor

/-!
# BasedAI — when an epoch is posted

`_epoch_loop` of `runtime.py` reads the registry's current epoch, sleeps until the next full
hour of its own clock, and posts the epoch it has read. The registry counts hours from its
genesis, and takes an epoch only when it is over. The two agree on when that is if genesis is
on a full hour and has passed.

Moments are seconds, and fractions of them, as `time.time()` has them.

* `epochAt`         — `currentEpoch` at a moment;
* `EpochStep`       — the loop, with any delays;
* `OnTime`          — what is posted is over, and never posted before;
* `epochs_on_time_iff` — the genesis for which that is so.
-/

namespace BasedAI

open Transition

namespace EpochClock

/-! ## The two clocks -/

/-- What `currentEpoch` answers at a moment. -/
def epochAt (genesis : Nat) (now : ℚ≥0) : Nat := (⌊now⌋₊ - genesis) / 3600

/-- It is what the registry computes in a block of that moment. -/
theorem currentEpoch_eq {T : Type} (env : ScoringEnv T) (blk : Block) :
    ScoringRegistry.currentEpoch env blk = epochAt env.genesisTimestamp.val blk.timestamp := by
  have hlt := blk.timestamp_lt
  unfold ScoringRegistry.currentEpoch epochAt
  rw [Nat.floor_natCast]
  split
  -- before genesis the registry answers 0, as the truncated difference does
  case isTrue hearly => rw [Nat.sub_eq_zero_of_le hearly.le]
  case isFalse =>
    apply Nat.mod_eq_of_lt
    have hle := Nat.div_le_self (blk.timestamp - env.genesisTimestamp.val) 3600
    exact Nat.lt_of_le_of_lt (hle.trans (Nat.sub_le _ _)) hlt

/-- `_read_current_epoch`, where the answer is missing if the call raises. -/
def readCurrentEpoch (answer : Option Nat) (now : ℚ≥0) : Nat := answer.getD (⌊now⌋₊ / 3600)

/-- The next full hour. -/
def boundary (now : ℚ≥0) : Nat := (⌊now⌋₊ / 3600 + 1) * 3600

/-- `_wait_for_epoch_end`: how long the loop sleeps. -/
def waitForEpochEnd (now : ℚ≥0) : ℚ≥0 := max 1 (boundary now - now)

/-! ## The loop -/

inductive LoopStage
  | reading
  | sleeping (epoch : Nat) (wakeUp : ℚ≥0)
  | posting (epoch : Nat)

/-- The loop at a moment, and the posts it has started, with their moments. -/
structure LoopState where
  now : ℚ≥0
  stage : LoopStage
  posts : List (Nat × ℚ≥0)

def LoopState.start (now : ℚ≥0) : LoopState := ⟨now, .reading, []⟩

inductive EpochEvent
  /-- the registry is asked, and answers -/
  | read (asked answered : ℚ≥0)
  /-- the sleep is over, and the epoch is posted -/
  | wake (now : ℚ≥0)
  /-- the post ends, by a return or by an exception -/
  | posted (now : ℚ≥0)

/-- A step of the loop. The registry answers when it is asked; everything takes its time. -/
inductive EpochStep (genesis : Nat) : LoopState → EpochEvent → LoopState → Prop
  | read {now asked answered : ℚ≥0} {posts : List (Nat × ℚ≥0)} (hasked : now ≤ asked)
      (hanswered : asked ≤ answered) :
      EpochStep genesis ⟨now, .reading, posts⟩ (.read asked answered)
        ⟨answered, .sleeping (readCurrentEpoch (some (epochAt genesis asked)) answered)
          (answered + waitForEpochEnd answered), posts⟩
  | wake {now wakeUp later : ℚ≥0} {epoch : Nat} {posts : List (Nat × ℚ≥0)}
      (hlater : wakeUp ≤ later) :
      EpochStep genesis ⟨now, .sleeping epoch wakeUp, posts⟩ (.wake later)
        ⟨later, .posting epoch, posts ++ [(epoch, later)]⟩
  | posted {now later : ℚ≥0} {epoch : Nat} {posts : List (Nat × ℚ≥0)} (hlater : now ≤ later) :
      EpochStep genesis ⟨now, .posting epoch, posts⟩ (.posted later) ⟨later, .reading, posts⟩

/-- Every epoch that is posted is over at that moment, and each is later than those before. -/
structure OnTime (genesis : Nat) (posts : List (Nat × ℚ≥0)) : Prop where
  past : ∀ post ∈ posts, post.1 < epochAt genesis post.2
  increasing : (posts.map Prod.fst).Pairwise (· < ·)

/-! ## A genesis on the hour -/

section Clocks

variable {genesis : Nat} {now later : ℚ≥0} {s t : LoopState} {l : EpochEvent}

theorem epochAt_mono (h : now ≤ later) : epochAt genesis now ≤ epochAt genesis later :=
  Nat.div_le_div_right (Nat.sub_le_sub_right (Nat.floor_le_floor h) _)

/-- Nobody wakes up before the hour. -/
theorem boundary_le_wakeUp (now : ℚ≥0) : (boundary now : ℚ≥0) ≤ now + waitForEpochEnd now := by
  have hle : (boundary now : ℚ≥0) - now ≤ waitForEpochEnd now := le_max_right _ _
  exact tsub_le_iff_left.mp hle

theorem now_le_wakeUp (now : ℚ≥0) : now ≤ now + waitForEpochEnd now := le_self_add

/-- Where genesis is on the hour and has passed, the epoch is over when the hour is. -/
theorem epochAt_wakeUp (haligned : 3600 ∣ genesis) (hpassed : (genesis : ℚ≥0) ≤ now) :
    epochAt genesis now < epochAt genesis (now + waitForEpochEnd now) := by
  have hfloor : genesis ≤ ⌊now⌋₊ := Nat.le_floor hpassed
  have hboundary : boundary now ≤ ⌊now + waitForEpochEnd now⌋₊ :=
    Nat.le_floor (boundary_le_wakeUp now)
  obtain ⟨k, rfl⟩ := haligned
  unfold boundary at hboundary
  unfold epochAt
  -- the epoch and the hour change in the same second
  omega

/-- What holds all along the loop: the posts are on time, and those to come are later. -/
structure Punctual (genesis : Nat) (s : LoopState) : Prop where
  passed : (genesis : ℚ≥0) ≤ s.now
  onTime : OnTime genesis s.posts
  stage : match s.stage with
    | .reading => ∀ post ∈ s.posts, post.1 < epochAt genesis s.now
    | .sleeping epoch wakeUp => (∀ post ∈ s.posts, post.1 < epoch) ∧
      epoch < epochAt genesis wakeUp ∧ s.now ≤ wakeUp
    | .posting _ => ∀ post ∈ s.posts, post.1 < epochAt genesis s.now

/-- **One step of the loop.** -/
theorem Punctual.step (haligned : 3600 ∣ genesis) (hstep : EpochStep genesis s l t)
    (h : Punctual genesis s) : Punctual genesis t := by
  cases hstep with
  | read hasked hanswered =>
    have hpassed := h.passed.trans (hasked.trans hanswered)
    refine ⟨hpassed, h.onTime, ?_, ?_, now_le_wakeUp _⟩
    · intro post hpost
      exact Nat.lt_of_lt_of_le (h.stage post hpost) (epochAt_mono hasked)
    · -- the sleep lasts to the next epoch, so waking up is past the one that was read
      exact Nat.lt_of_le_of_lt (epochAt_mono hanswered) (epochAt_wakeUp haligned hpassed)
  | wake hlater =>
    obtain ⟨hearlier, hpast, hsleep⟩ := h.stage
    have hnow := Nat.lt_of_lt_of_le hpast (epochAt_mono hlater)
    refine ⟨h.passed.trans (hsleep.trans hlater), ⟨?_, ?_⟩, ?_⟩
    · intro post hpost
      rcases List.mem_append.mp hpost with hold | hnew
      · exact h.onTime.past post hold
      · obtain rfl := List.mem_singleton.mp hnew
        exact hnow
    · rw [List.map_append, List.pairwise_append]
      refine ⟨h.onTime.increasing, List.pairwise_singleton _ _, ?_⟩
      -- every epoch posted before is earlier than the one of this post
      intro e he e' he'
      obtain ⟨post, hpost, rfl⟩ := List.mem_map.mp he
      obtain rfl := List.mem_singleton.mp he'
      exact hearlier post hpost
    · intro post hpost
      rcases List.mem_append.mp hpost with hold | hnew
      · exact (hearlier post hold).trans hnow
      · obtain rfl := List.mem_singleton.mp hnew
        exact hnow
  | posted hlater =>
    refine ⟨h.passed.trans hlater, h.onTime, ?_⟩
    intro post hpost
    exact Nat.lt_of_lt_of_le (h.stage post hpost) (epochAt_mono hlater)

end Clocks

/-! ## Any other genesis -/

section Late

variable {genesis : Nat} {now start : ℚ≥0}

/-- The sleep ends with the hour, or a second after it began. -/
theorem wakeUp_lt (now : ℚ≥0) : now + waitForEpochEnd now < (⌊now⌋₊ + 3601 : Nat) := by
  have hnow := Nat.lt_floor_add_one now
  unfold waitForEpochEnd
  -- the second is at most until the next, the hour until the next full one
  rcases max_choice 1 ((boundary now : ℚ≥0) - now) with hsecond | hhour
  · rw [hsecond]
    calc now + 1 < ⌊now⌋₊ + 1 + 1 := add_lt_add_left hnow 1
      _ = (⌊now⌋₊ + 2 : Nat) := by push_cast; ring
      _ ≤ (⌊now⌋₊ + 3601 : Nat) := by exact_mod_cast Nat.add_le_add_left (by omega) _
  · rw [hhour]
    have hlater : now ≤ boundary now := by
      have hnext : ⌊now⌋₊ + 1 ≤ boundary now := by
        unfold boundary
        omega
      have hcast : ((⌊now⌋₊ + 1 : Nat) : ℚ≥0) ≤ boundary now := by exact_mod_cast hnext
      push_cast at hcast
      exact hnow.le.trans hcast
    rw [add_tsub_cancel_of_le hlater]
    have hboundary : boundary now < ⌊now⌋₊ + 3601 := by
      unfold boundary
      omega
    exact_mod_cast hboundary

/-- The first post, when nothing but the sleep takes time. -/
theorem first_post (genesis : Nat) {start wakeUp : ℚ≥0}
    (h : start + waitForEpochEnd start = wakeUp) :
    Run (EpochStep genesis) (.start start) [.read start start, .wake wakeUp]
      ⟨wakeUp, .posting (epochAt genesis start), [(epochAt genesis start, wakeUp)]⟩ :=
  .cons (.read le_rfl le_rfl) (.cons (.wake h.le) (.nil _))

/-- Before genesis the loop posts epoch 0 before that is over. -/
theorem late_before_genesis (h : start < genesis) : ∃ ls s,
    Run (EpochStep genesis) (.start start) ls s ∧ ¬ OnTime genesis s.posts := by
  have hfloor : ⌊start⌋₊ < genesis := by
    apply (Nat.floor_lt' _).mpr h
    rintro rfl
    exact absurd h (by simp)
  have hzero : epochAt genesis start = 0 := by
    unfold epochAt
    omega
  -- the sleep is too short for the first epoch to end in it
  have hwake : epochAt genesis (start + waitForEpochEnd start) = 0 := by
    have hless := (Nat.floor_lt' (by omega)).mpr (wakeUp_lt start)
    unfold epochAt
    omega
  refine ⟨_, _, first_post genesis rfl, ?_⟩
  intro hontime
  have hpast := hontime.past _ List.mem_cons_self
  dsimp only at hpast
  omega

/-- From a full second the loop sleeps to the hour exactly. -/
theorem wakeUp_natCast (n : Nat) : (n : ℚ≥0) + waitForEpochEnd n = boundary n := by
  have hsecond : n + 1 ≤ boundary n := by
    unfold boundary
    rw [Nat.floor_natCast]
    omega
  have hcast : (n : ℚ≥0) + 1 ≤ boundary n := by exact_mod_cast hsecond
  have hle : (n : ℚ≥0) ≤ boundary n := le_self_add.trans hcast
  unfold waitForEpochEnd
  rw [max_eq_right (le_tsub_of_add_le_left hcast), add_tsub_cancel_of_le hle]

/-- In an epoch's first second the hour of the clock ends before the epoch does. -/
theorem epochAt_wakeUp_first (h : ¬ 3600 ∣ genesis) (epoch : Nat) :
    epochAt genesis ((genesis + 3600 * epoch : Nat) +
      waitForEpochEnd (genesis + 3600 * epoch : Nat)) = epoch := by
  rw [wakeUp_natCast]
  unfold epochAt boundary
  rw [Nat.floor_natCast, Nat.floor_natCast]
  omega

/-- A post that ends when an epoch begins makes the next one early. -/
theorem late_unaligned (start : ℚ≥0) (h : ¬ 3600 ∣ genesis) : ∃ ls s,
    Run (EpochStep genesis) (.start start) ls s ∧ ¬ OnTime genesis s.posts := by
  -- the first post takes until the first second of some epoch
  obtain ⟨epoch, hepoch⟩ : ∃ epoch : Nat,
      start + waitForEpochEnd start ≤ (genesis + 3600 * epoch : Nat) := by
    refine ⟨⌊start⌋₊ + 3601, (wakeUp_lt start).le.trans ?_⟩
    exact_mod_cast (by omega : ⌊start⌋₊ + 3601 ≤ genesis + 3600 * (⌊start⌋₊ + 3601))
  refine ⟨_, _, .cons (.read le_rfl le_rfl) (.cons (.wake le_rfl) (.cons (.posted hepoch)
    (.cons (.read le_rfl le_rfl) (.cons (.wake le_rfl) (.nil _))))), ?_⟩
  intro hontime
  have hpast := hontime.past _ (List.mem_append_right _ List.mem_cons_self)
  have hread : epochAt genesis (genesis + 3600 * epoch : Nat) = epoch := by
    unfold epochAt
    rw [Nat.floor_natCast]
    omega
  dsimp only [readCurrentEpoch, Option.getD_some] at hpast
  rw [epochAt_wakeUp_first h, hread] at hpast
  exact Nat.lt_irrefl _ hpast

end Late

/-! ## The result -/

/-- The loop posts epochs that are over, and each once, if and only if genesis is on a full hour
of the loop's clock and has passed when the loop starts. -/
theorem epochs_on_time_iff (genesis : Nat) (start : ℚ≥0) :
    (∀ ls s, Run (EpochStep genesis) (.start start) ls s → OnTime genesis s.posts) ↔
      3600 ∣ genesis ∧ (genesis : ℚ≥0) ≤ start := by
  constructor
  · intro h
    constructor
    · -- each of the two conditions has a run that fails without it
      by_contra hunaligned
      obtain ⟨ls, s, hrun, hlate⟩ := late_unaligned start hunaligned
      exact hlate (h ls s hrun)
    · by_contra hearly
      obtain ⟨ls, s, hrun, hlate⟩ := late_before_genesis (not_le.mp hearly)
      exact hlate (h ls s hrun)
  · rintro ⟨haligned, hpassed⟩ ls s hrun
    have hstart : Punctual genesis (.start start) :=
      ⟨hpassed, ⟨by simp [LoopState.start], by simp [LoopState.start]⟩,
        by simp [LoopState.start]⟩
    have hinv := Run.invariant (I := Punctual genesis)
      (fun hstep h => Punctual.step haligned hstep h) hrun hstart
    exact hinv.onTime

/-- Genesis is on a half hour. The loop reads epoch 1 when that begins, and posts it half an hour
later, with half an hour of it to come. -/
theorem posted_half_way : ∃ ls s, Run (EpochStep 1800) (.start 5400) ls s ∧
    s.posts = [(1, 7200)] ∧ epochAt 1800 7200 = 1 ∧ ¬ OnTime 1800 s.posts := by
  have hread : epochAt 1800 ((5400 : Nat) : ℚ≥0) = 1 := by
    unfold epochAt
    rw [Nat.floor_natCast]
  have hwake : epochAt 1800 ((7200 : Nat) : ℚ≥0) = 1 := by
    unfold epochAt
    rw [Nat.floor_natCast]
  -- the loop starts on a half hour, and sleeps for the other half
  have hsleep : ((5400 : Nat) : ℚ≥0) + waitForEpochEnd (5400 : Nat) = (7200 : Nat) := by
    rw [wakeUp_natCast]
    unfold boundary
    rw [Nat.floor_natCast]
  have hrun := first_post 1800 hsleep
  rw [hread] at hrun
  refine ⟨_, _, hrun, rfl, hwake, ?_⟩
  intro hontime
  have hpast := hontime.past _ List.mem_cons_self
  rw [hwake] at hpast
  exact Nat.lt_irrefl _ hpast

end EpochClock

end BasedAI
