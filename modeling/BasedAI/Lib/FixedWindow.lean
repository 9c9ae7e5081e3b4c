import BasedAI.Lib.RateLimit

/-!
# Counters with a fixed window

At most `limit` events are admitted in a window. The first event that comes `period` or later
after a window was opened opens the next, and is admitted in any case. Windows are not aligned
to anything, so a stretch of time can see the end of one, the beginning of another, and those
that fit in between.

* `Window.hit_cases` — what becomes of one event;
* `Admitted.le`        — how many events a stretch of time admits at most;
* `Filled.full`        — an event is refused only where as many were admitted in the last period.
-/

namespace FixedWindow

open RateLimit

/-- When the window was opened, and how many events it has admitted. -/
structure Window where
  start : Nat
  count : Nat
  deriving DecidableEq, Repr

/-- One event at the moment `now`: the window after it, if it is admitted. -/
def Window.hit (limit period now : Nat) (w : Window) : Option Window :=
  if w.start + period ≤ now then some ⟨now, 1⟩
  else if limit ≤ w.count then none
  else some ⟨w.start, w.count + 1⟩

variable {limit period now a b n k : Nat} {w w' : Window}

theorem Window.hit_cases (h : w.hit limit period now = some w') :
    (w.start + period ≤ now ∧ w' = ⟨now, 1⟩) ∨
      (now < w.start + period ∧ w.count < limit ∧ w' = ⟨w.start, w.count + 1⟩) := by
  unfold Window.hit at h
  split at h
  case isTrue hover => exact .inl ⟨hover, (Option.some.inj h).symm⟩
  case isFalse hopen =>
    split at h
    case isTrue => cases h
    case isFalse hroom =>
      exact .inr ⟨Nat.lt_of_not_le hopen, Nat.lt_of_not_le hroom, (Option.some.inj h).symm⟩

theorem Window.hit_none : w.hit limit period now = none ↔
    now < w.start + period ∧ limit ≤ w.count := by
  unfold Window.hit
  split
  case isTrue hover => exact iff_of_false nofun fun h => absurd hover (Nat.not_le_of_lt h.1)
  case isFalse hopen =>
    split
    case isTrue hfull => exact iff_of_true rfl ⟨Nat.lt_of_not_le hopen, hfull⟩
    case isFalse hroom => exact iff_of_false nofun fun h => hroom h.2

/-! ## At most -/

/-- No window admits more than its limit, its first event aside. -/
def Window.Bounded (limit : Nat) (w : Window) : Prop := w.count ≤ max 1 limit

theorem Window.bounded_hit (hhit : w.hit limit period now = some w') :
    w'.Bounded limit := by
  unfold Window.Bounded
  rcases Window.hit_cases hhit with ⟨-, rfl⟩ | ⟨-, hroom, rfl⟩
  · exact Nat.le_max_left 1 limit
  · exact Nat.le_trans hroom (Nat.le_max_right 1 limit)

/-- The events admitted since some moment, none of them outside of `a` to `b`: as many as the
windows opened since have admitted, and what was left of the one that was open. -/
def Admitted (limit period a b n : Nat) (w : Window) : Prop :=
  w.Bounded limit ∧ ∃ k, Paced period a b w.start k ∧ n ≤ k * max 1 limit + w.count

theorem Admitted.empty (h : w.Bounded limit) : Admitted limit period a b 0 w :=
  ⟨h, 0, trivial, Nat.zero_le _⟩

/-- One more. -/
theorem Admitted.hit (h : Admitted limit period a b n w)
    (hhit : w.hit limit period now = some w') (ha : a ≤ now) (hb : now ≤ b) :
    Admitted limit period a b (n + 1) w' := by
  obtain ⟨hbound, k, hpaced, hle⟩ := h
  refine ⟨Window.bounded_hit hhit, ?_⟩
  unfold Window.Bounded at hbound
  rcases Window.hit_cases hhit with ⟨hover, rfl⟩ | ⟨-, -, rfl⟩
  · -- a window that is over counts in full
    refine ⟨k + 1, hpaced.next hover ha hb, ?_⟩
    show n + 1 ≤ (k + 1) * max 1 limit + 1
    rw [Nat.succ_mul]
    omega
  · -- the window that is open takes it in
    exact ⟨k, hpaced, Nat.succ_le_succ hle⟩

/-- **How many events a stretch of time admits.** -/
theorem Admitted.le (h : Admitted limit period a b n w) (hperiod : 0 < period) :
    n ≤ ((b - a) / period + 2) * max 1 limit := by
  obtain ⟨hbound, k, hpaced, hle⟩ := h
  unfold Window.Bounded at hbound
  have hk := hpaced.le hperiod
  calc n ≤ k * max 1 limit + w.count := hle
    _ ≤ k * max 1 limit + max 1 limit := Nat.add_le_add_left hbound _
    _ = (k + 1) * max 1 limit := (Nat.succ_mul _ _).symm
    _ ≤ ((b - a) / period + 2) * max 1 limit :=
      Nat.mul_le_mul_right _ (Nat.succ_le_succ hk)

/-! ## At least -/

/-- Of the events admitted so far, the last `w.count` were admitted by this window. -/
def Filled (moments : List Nat) (w : Window) : Prop :=
  ∃ older ours, moments = older ++ ours ∧ ours.length = w.count ∧ ∀ t ∈ ours, w.start ≤ t

theorem Filled.empty (hw : w.count = 0) : Filled [] w :=
  ⟨[], [], rfl, hw.symm, fun _ ht => absurd ht List.not_mem_nil⟩

theorem Filled.hit {moments : List Nat} (h : Filled moments w) (hclock : w.start ≤ now)
    (hhit : w.hit limit period now = some w') : Filled (moments ++ [now]) w' := by
  rcases Window.hit_cases hhit with ⟨-, rfl⟩ | ⟨-, -, rfl⟩
  · -- a window begins with this one event
    refine ⟨moments, [now], rfl, rfl, ?_⟩
    intro t ht
    exact (List.mem_singleton.mp ht).ge
  · obtain ⟨older, ours, rfl, hlength, hin⟩ := h
    refine ⟨older, ours ++ [now], by rw [List.append_assoc], ?_, ?_⟩
    · rw [List.length_append, hlength]
      rfl
    · intro t ht
      rcases List.mem_append.mp ht with hold | hnew
      · exact hin t hold
      · exact (List.mem_singleton.mp hnew).symm ▸ hclock

/-- **An event is refused** only after its limit, all of it within one period. -/
theorem Filled.full {moments : List Nat} (h : Filled moments w)
    (hrefused : w.hit limit period now = none) :
    limit ≤ (moments.filter fun t => now < t + period).length := by
  obtain ⟨hopen, hfull⟩ := Window.hit_none.mp hrefused
  obtain ⟨older, ours, rfl, hlength, hin⟩ := h
  -- the window is still open, so what it admitted is not a period old
  have hours : (ours.filter fun t => now < t + period) = ours := by
    apply List.filter_eq_self.mpr
    intro t ht
    have hlate := hin t ht
    exact decide_eq_true (by omega)
  rw [List.filter_append, hours, List.length_append]
  omega

end FixedWindow
