import Mathlib.Data.List.Basic

/-!
# Labelled transition systems

Runs of a step relation, with the label of every step, and the induction rules every
invariant proof uses:

* `Run.invariant`   — what one step preserves, a run preserves;
* `Run.exists_step` — a property a run acquires was acquired at some step;
* `along_of`        — the same, where the steps of the run meet a condition;
* `along_iff`       — when a property holds all along a run.

`restrict` keeps the steps that meet a condition, and `Along` names a step of a
given run together with its two states. `Total` adds up what the steps gain. `TimedStep`
takes the steps at moments that never go back; `Run.split` cuts such a run at a moment, and
`During` is a run from one moment to another.
-/

namespace Transition

variable {S L : Type}

/-- `Run step s ls t`: the steps labelled `ls`, in order, lead from `s` to `t`. -/
inductive Run (step : S → L → S → Prop) : S → List L → S → Prop
  | nil (s : S) : Run step s [] s
  | cons {s t u : S} {l : L} {ls : List L} :
      step s l t → Run step t ls u → Run step s (l :: ls) u

/-- The steps of `step` taken where `cond` holds of the state before the step
and of the label. -/
def restrict (step : S → L → S → Prop) (cond : S → L → Prop) : S → L → S → Prop :=
  fun s l t => step s l t ∧ cond s l

variable {step : S → L → S → Prop} {cond : S → L → Prop}

theorem Run.append {s t u : S} {ls ks : List L} (h : Run step s ls t)
    (k : Run step t ks u) : Run step s (ls ++ ks) u := by
  induction h with
  | nil s => exact k
  | cons hs _ ih => exact .cons hs (ih k)

theorem Run.single {s t : S} {l : L} (h : step s l t) : Run step s [l] t :=
  .cons h (.nil t)

theorem Run.mono {step' : S → L → S → Prop}
    (himp : ∀ {s l t}, step s l t → step' s l t)
    {s t : S} {ls : List L} (h : Run step s ls t) : Run step' s ls t := by
  induction h with
  | nil s => exact .nil s
  | cons hs _ ih => exact .cons (himp hs) ih

/-- A run all of whose labels meet a condition. -/
theorem Run.restrict_labels {good : L → Prop} {s t : S} {ls : List L} (h : Run step s ls t)
    (hgood : ∀ l ∈ ls, good l) : Run (Transition.restrict step fun _ l => good l) s ls t := by
  induction h with
  | nil s => exact .nil s
  | cons hs _ ih =>
    obtain ⟨hl, hrest⟩ := List.forall_mem_cons.mp hgood
    exact .cons ⟨hs, hl⟩ (ih hrest)

/-- Forgetting the condition of a restricted run. -/
theorem Run.of_restrict {s t : S} {ls : List L}
    (h : Run (restrict step cond) s ls t) : Run step s ls t :=
  h.mono And.left

/-- The invariant rule. -/
theorem Run.invariant {I : S → Prop}
    (hstep : ∀ {s l t}, step s l t → I s → I t)
    {s t : S} {ls : List L} (h : Run step s ls t) (hs : I s) : I t := by
  induction h with
  | nil s => exact hs
  | cons h _ ih => exact ih (hstep h hs)

/-! ## The steps of a run -/

/-- The run `ls` from `s` to `t` at some point goes from `p` to `q` by `l`. -/
def Along (step : S → L → S → Prop) (s : S) (ls : List L) (t : S) (p : S) (l : L) (q : S) :
    Prop :=
  ∃ pre post, ls = pre ++ l :: post ∧ Run step s pre p ∧ step p l q ∧ Run step q post t

theorem Along.taken {s t p q : S} {ls : List L} {l : L} (h : Along step s ls t p l q) :
    step p l q := by
  obtain ⟨_, _, -, -, hstep, -⟩ := h
  exact hstep

theorem Along.mem {s t p q : S} {ls : List L} {l : L} (h : Along step s ls t p l q) :
    l ∈ ls := by
  obtain ⟨pre, post, rfl, -, -, -⟩ := h
  exact List.mem_append_right pre (List.mem_cons_self ..)

theorem Along.run {s t p q : S} {ls : List L} {l : L} (h : Along step s ls t p l q) :
    Run step s ls t := by
  obtain ⟨pre, post, rfl, hpre, hl, hpost⟩ := h
  exact hpre.append (.cons hl hpost)

theorem Along.of_restrict {s t p q : S} {ls : List L} {l : L}
    (h : Along (restrict step cond) s ls t p l q) : Along step s ls t p l q := by
  obtain ⟨pre, post, hls, hpre, hstep, hpost⟩ := h
  exact ⟨pre, post, hls, hpre.of_restrict, hstep.1, hpost.of_restrict⟩

theorem Along.later {r s t p q : S} {ls : List L} {k l : L} (hstep : step r k s)
    (h : Along step s ls t p l q) : Along step r (k :: ls) t p l q := by
  obtain ⟨pre, post, rfl, hpre, hl, hpost⟩ := h
  exact ⟨k :: pre, post, rfl, .cons hstep hpre, hl, hpost⟩

/-- A property that fails at the start of a run and holds at its end was
established by one of its steps. -/
theorem Run.exists_step {P : S → Prop} {s t : S} {ls : List L}
    (h : Run step s ls t) (hs : ¬ P s) (ht : P t) :
    ∃ p l q, Along step s ls t p l q ∧ ¬ P p ∧ P q := by
  induction h with
  | nil s => exact absurd ht hs
  | @cons s u t l ls hstep hrun ih =>
    -- either the first step acquires `P`, or a step of the rest of the run does
    by_cases hu : P u
    · exact ⟨s, l, u, ⟨[], ls, rfl, .nil s, hstep, hrun⟩, hs, hu⟩
    · obtain ⟨p, k, q, halong, hp, hq⟩ := ih hu ht
      exact ⟨p, k, q, halong.later hstep, hp, hq⟩

theorem along_nil {s t p q : S} {l : L} : ¬ Along step s [] t p l q := by
  rintro ⟨pre, post, hls, -⟩
  cases pre <;> cases hls

/-- A step of a run is its first one, or one of the rest. -/
theorem along_cons {s t p q : S} {k l : L} {ls : List L} :
    Along step s (k :: ls) t p l q ↔ (p = s ∧ l = k ∧ step s k q ∧ Run step q ls t) ∨
      ∃ r, step s k r ∧ Along step r ls t p l q := by
  constructor
  · rintro ⟨pre, post, hls, hpre, hl, hpost⟩
    cases hpre with
    | nil =>
      obtain ⟨rfl, rfl⟩ := List.cons.inj hls
      exact .inl ⟨rfl, rfl, hl, hpost⟩
    | cons hk hpre =>
      obtain ⟨rfl, rfl⟩ := List.cons.inj hls
      exact .inr ⟨_, hk, _, post, rfl, hpre, hl, hpost⟩
  · rintro (⟨rfl, rfl, hl, hpost⟩ | ⟨r, hk, h⟩)
    · exact ⟨[], ls, rfl, .nil _, hl, hpost⟩
    · exact h.later hk

/-- The invariant rule for a run whose steps meet a condition: what such a step keeps holds
before and after every step of the run. -/
theorem along_of {I : S → Prop} {C : S → L → S → Prop}
    (hstep : ∀ {s l t}, step s l t → C s l t → I s → I t) {s t : S} {ls : List L} (hs : I s)
    (hall : ∀ p l q, Along step s ls t p l q → C p l q) :
    ∀ p l q, Along step s ls t p l q → I p ∧ I q := by
  induction ls generalizing s with
  | nil => exact fun p l q h => absurd h along_nil
  | cons k ls ih =>
    intro p l q h
    rcases along_cons.mp h with ⟨rfl, rfl, hl, -⟩ | ⟨r, hk, hlater⟩
    · exact ⟨hs, hstep hl (hall _ _ _ h) hs⟩
    · have hr : I r :=
        hstep hk (hall s k r (along_cons.mpr (.inl ⟨rfl, rfl, hk, hlater.run⟩))) hs
      exact ih hr (fun p l q h => hall p l q (h.later hk)) p l q hlater

/-- Where a step keeps a property just under a condition, the property holds all along a
run just if the condition does. `I` is what holds in any case. -/
theorem along_iff {I P : S → Prop} {C : S → L → Prop}
    (hI : ∀ {s l t}, step s l t → I s → I t)
    (hP : ∀ {s l t}, step s l t → I s → P s → (P t ↔ C s l)) {s t : S} {ls : List L}
    (hs : I s) (hsP : P s) :
    (∀ p l q, Along step s ls t p l q → P q) ↔ ∀ p l q, Along step s ls t p l q → C p l := by
  constructor
  · intro hall p l q h
    obtain ⟨⟨hp, hpP⟩, -⟩ := along_of (I := fun s => I s ∧ P s) (C := fun _ _ t => P t)
      (fun hstep hq hp => ⟨hI hstep hp.1, hq⟩) ⟨hs, hsP⟩ hall p l q h
    exact (hP h.taken hp hpP).mp (hall p l q h)
  · intro hall p l q h
    obtain ⟨-, -, hqP⟩ := along_of (I := fun s => I s ∧ P s) (C := fun s l _ => C s l)
      (fun hstep hc hp => ⟨hI hstep hp.1, (hP hstep hp.1 hp.2).mpr hc⟩) ⟨hs, hsP⟩ hall p l q h
    exact hqP

/-! ## Totals of a run -/

/-- `Total step gain s ls t n`: over the steps labelled `ls`, from `s` to `t`, what every
step gains adds up to `n`. -/
inductive Total (step : S → L → S → Prop) (gain : S → S → Nat) :
    S → List L → S → Nat → Prop
  | nil (s : S) : Total step gain s [] s 0
  | cons {s t u : S} {l : L} {ls : List L} {n : Nat} :
      step s l t → Total step gain t ls u n → Total step gain s (l :: ls) u (gain s t + n)

/-- Where every gain is a difference of two readings, so is the total. -/
theorem Total.telescope {gain : S → S → Nat} (reading : S → Nat)
    (hstep : ∀ {s l t}, step s l t → reading t = reading s + gain s t)
    {s t : S} {ls : List L} {n : Nat} (h : Total step gain s ls t n) :
    reading t = reading s + n := by
  induction h with
  | nil s => rfl
  | cons hs _ ih =>
    rw [ih, hstep hs]
    exact Nat.add_assoc _ _ _

/-! ## Runs in time -/

/-- A state and the moment it was reached. -/
structure Timed (S : Type) where
  now : Nat
  state : S

/-- Steps at moments that never go back, where `moment l n` says that a step
labelled `l` can be taken at `n`. -/
inductive TimedStep (step : S → L → S → Prop) (moment : L → Nat → Prop) :
    Timed S → L → Timed S → Prop
  | mk {s t : S} {l : L} {now n : Nat} :
      now ≤ n → moment l n → step s l t → TimedStep step moment ⟨now, s⟩ l ⟨n, t⟩

/-- The steps taken after the moment `z`. -/
def After (z : Nat) (step : Timed S → L → Timed S → Prop) : Timed S → L → Timed S → Prop :=
  fun s l t => step s l t ∧ z < t.now

/-- From the state `s` at the moment `n`, the steps labelled `ls` are taken by the moment `n'`,
none of them before `n`, and the state is then `t`. -/
def During (step : S → L → S → Prop) (moment : L → Nat → Prop) (n : Nat) (s : S) (ls : List L)
    (n' : Nat) (t : S) : Prop :=
  ∃ now, now ≤ n' ∧ Run (TimedStep step moment) ⟨n, s⟩ ls ⟨now, t⟩

section Timed

variable {moment : L → Nat → Prop} {s t : Timed S} {l : L} {ls : List L}

theorem TimedStep.taken {now n : Nat} {s t : S} (h : step s l t) (hmoment : moment l n)
    (hle : now ≤ n) : TimedStep step moment ⟨now, s⟩ l ⟨n, t⟩ :=
  .mk hle hmoment h

theorem TimedStep.le (h : TimedStep step moment s l t) : s.now ≤ t.now := by
  cases h with
  | mk hle _ _ => exact hle

theorem TimedStep.untimed (h : TimedStep step moment s l t) : step s.state l t.state := by
  cases h with
  | mk _ _ hstep => exact hstep

theorem Run.time_le (h : Run (TimedStep step moment) s ls t) : s.now ≤ t.now := by
  induction h with
  | nil s => exact Nat.le_refl _
  | cons hstep _ ih => exact Nat.le_trans hstep.le ih

/-- Forgetting the moments. -/
theorem Run.untimed (h : Run (TimedStep step moment) s ls t) : Run step s.state ls t.state := by
  induction h with
  | nil s => exact .nil _
  | cons hstep _ ih => exact .cons hstep.untimed ih

/-- A run whose start is after `z` takes all its steps after `z`. -/
theorem Run.after {z : Nat} (h : Run (TimedStep step moment) s ls t) (hz : z < s.now) :
    Run (After z (TimedStep step moment)) s ls t := by
  induction h with
  | nil s => exact .nil _
  | cons hstep _ ih =>
    have hlater := Nat.lt_of_lt_of_le hz hstep.le
    exact .cons ⟨hstep, hlater⟩ (ih hlater)

/-- **The state at a moment.** A run is cut at `z` into the steps taken by then and
those taken after. -/
theorem Run.split {z : Nat} (h : Run (TimedStep step moment) s ls t) (hz : s.now ≤ z) :
    ∃ pre p post, ls = pre ++ post ∧ Run (TimedStep step moment) s pre p ∧ p.now ≤ z ∧
      Run (After z (TimedStep step moment)) p post t := by
  induction h with
  | nil s => exact ⟨[], s, [], rfl, .nil s, hz, .nil s⟩
  | @cons s u t l ls hstep hrun ih =>
    -- the first step after `z` starts the second part, and no later one goes back
    by_cases hu : u.now ≤ z
    · obtain ⟨pre, p, post, rfl, hpre, hp, hpost⟩ := ih hu
      exact ⟨l :: pre, p, post, rfl, .cons hstep hpre, hp, hpost⟩
    · have hlater : z < u.now := Nat.lt_of_not_le hu
      exact ⟨[], s, l :: ls, rfl, .nil s, hz, .cons ⟨hstep, hlater⟩ (hrun.after hlater)⟩

/-- Every step of a run has its moment between the first and the last. -/
theorem Run.moments (h : Run (TimedStep step moment) s ls t) :
    ∀ l ∈ ls, ∃ n, s.now ≤ n ∧ n ≤ t.now ∧ moment l n := by
  induction h with
  | nil s => exact fun l hl => absurd hl List.not_mem_nil
  | cons hstep hrun ih =>
    intro k hk
    rcases List.mem_cons.mp hk with rfl | hlater
    · cases hstep with
      | mk hle hmoment _ => exact ⟨_, hle, hrun.time_le, hmoment⟩
    · obtain ⟨n, hn, hn', hmoment⟩ := ih k hlater
      exact ⟨n, Nat.le_trans hstep.le hn, hn', hmoment⟩

end Timed

section During

variable {moment : L → Nat → Prop} {n n' : Nat} {s t : S} {ls : List L}

theorem During.run (h : During step moment n s ls n' t) : Run step s ls t := by
  obtain ⟨now, -, hrun⟩ := h
  exact hrun.untimed

theorem During.moments (h : During step moment n s ls n' t) :
    ∀ l ∈ ls, ∃ now, n ≤ now ∧ now ≤ n' ∧ moment l now := by
  obtain ⟨last, hlast, hrun⟩ := h
  intro l hl
  obtain ⟨now, hn, hle, hmoment⟩ := hrun.moments l hl
  exact ⟨now, hn, Nat.le_trans hle hlast, hmoment⟩

end During

end Transition
