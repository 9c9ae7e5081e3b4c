import Mathlib.Data.List.Induction
import Mathlib.Logic.Function.Basic

/-!
# Replaying a history of changes

A table of flags, and a history in which every entry sets the flag of one key. Replaying
the history from a table leaves every key with the flag its last entry set, and the keys
without an entry as they were.

* `replay_append` — a history can be replayed in parts;
* `replay_last`   — the last entry of a key decides;
* `replay_map`    — renaming the keys injectively changes nothing.
-/

namespace Replay

variable {K : Type} [DecidableEq K]

/-- The table after the changes, the first one first. -/
def replay (flags : K → Bool) (changes : List (K × Bool)) : K → Bool :=
  changes.foldl (fun flags c => Function.update flags c.1 c.2) flags

@[simp] theorem replay_nil (flags : K → Bool) : replay flags [] = flags := rfl

@[simp] theorem replay_cons (flags : K → Bool) (c : K × Bool) (changes : List (K × Bool)) :
    replay flags (c :: changes) = replay (Function.update flags c.1 c.2) changes := rfl

theorem replay_append (flags : K → Bool) (before after : List (K × Bool)) :
    replay flags (before ++ after) = replay (replay flags before) after :=
  List.foldl_append

/-- The flag the last change of a key sets. -/
def lastFlag (k : K) (changes : List (K × Bool)) : Option Bool :=
  ((changes.filter fun c => c.1 = k).getLast?).map (·.2)

theorem lastFlag_concat (k : K) (changes : List (K × Bool)) (c : K × Bool) :
    lastFlag k (changes ++ [c]) = if c.1 = k then some c.2 else lastFlag k changes := by
  unfold lastFlag
  rw [List.filter_append]
  by_cases h : c.1 = k
  · rw [if_pos h, List.filter_cons_of_pos (by simpa using h), List.filter_nil,
      List.getLast?_concat]
    rfl
  · rw [if_neg h, List.filter_cons_of_neg (by simpa using h), List.filter_nil, List.append_nil]

/-- **The last change of a key decides.** -/
theorem replay_last (flags : K → Bool) (changes : List (K × Bool)) (k : K) :
    replay flags changes k = (lastFlag k changes).getD (flags k) := by
  induction changes using List.reverseRecOn with
  | nil => rfl
  | append_singleton changes c ih =>
    rw [replay_append, replay_cons, replay_nil, lastFlag_concat]
    by_cases h : c.1 = k
    · rw [if_pos h, ← h, Function.update_self]
      rfl
    · rw [if_neg h, Function.update_of_ne (Ne.symm h), ih]

/-- A key with a change has a last one. -/
theorem exists_lastFlag {k : K} {flag : Bool} {changes : List (K × Bool)}
    (h : (k, flag) ∈ changes) : ∃ last, lastFlag k changes = some last := by
  have hne : changes.filter (fun c => c.1 = k) ≠ [] := by
    intro hnil
    have hmem : (k, flag) ∈ changes.filter fun c => c.1 = k :=
      List.mem_filter.mpr ⟨h, decide_eq_true rfl⟩
    rw [hnil] at hmem
    cases hmem
  exact ⟨_, congrArg _ (List.getLast?_eq_some_getLast hne)⟩

/-- Where a history never clears a key, the key is set if it was, or if the history does. -/
theorem replay_of_stays {flags : K → Bool} {changes : List (K × Bool)} {k : K}
    (h : (k, false) ∉ changes) :
    replay flags changes k = true ↔ (k, true) ∈ changes ∨ flags k = true := by
  induction changes using List.reverseRecOn with
  | nil => simp
  | append_singleton changes c ih =>
    obtain ⟨k', flag⟩ := c
    rw [List.mem_append, not_or, List.mem_singleton] at h
    rw [replay_append, replay_cons, replay_nil, List.mem_append, List.mem_singleton]
    by_cases hk : k' = k
    · subst hk
      cases flag with
      | false => exact absurd rfl h.2
      | true => simp
    · have hother : (k, true) ≠ (k', flag) := fun heq => hk (Prod.mk.inj heq).1.symm
      rw [Function.update_of_ne (Ne.symm hk), ih h.1]
      simp [hother]

/-- **Keys can be renamed.** -/
theorem replay_map {K' : Type} [DecidableEq K'] {f : K → K'} (hf : Function.Injective f)
    {flags : K → Bool} {flags' : K' → Bool} (changes : List (K × Bool)) {k : K}
    (h : flags' (f k) = flags k) :
    replay flags' (changes.map fun c => (f c.1, c.2)) (f k) = replay flags changes k := by
  induction changes generalizing flags flags' with
  | nil => exact h
  | cons c rest ih =>
    rw [List.map_cons, replay_cons, replay_cons]
    apply ih
    by_cases hk : c.1 = k
    · rw [hk, Function.update_self, Function.update_self]
    · have hk' : f k ≠ f c.1 := fun heq => hk (hf heq).symm
      rw [Function.update_of_ne hk', Function.update_of_ne (Ne.symm hk), h]

end Replay
