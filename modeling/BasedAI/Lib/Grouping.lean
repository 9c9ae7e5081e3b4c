import Mathlib.Data.List.Induction
import Mathlib.Data.List.MinMax
import Mathlib.Data.List.Nodup

/-!
# Groups and modes

Entries are grouped under keys, in the order the keys were first seen, where keys with one
code are taken for one. The mode of a list is the first entry of it that is as frequent as
any.

* `groups_spec`   — each group has the entries with the code of its key, in their order;
* `mode_eq_some`  — the mode as the first of the most frequent entries;
* `mode_toFront`  — any of the most frequent entries is the mode of some order;
* `mode_remove`   — an entry that is not the mode can be left out;
* `countP_by_key` — counts that agree under each key.
-/

namespace Grouping

variable {ε κ α γ : Type}

/-! ## Groups -/

/-- Append to the group of a key, behind the groups there are. -/
def appendTo (same : κ → κ → Bool) (key : κ) (x : α) : List (κ × List α) → List (κ × List α)
  | [] => [(key, [x])]
  | (k, xs) :: rest =>
    if same k key then (k, xs ++ [x]) :: rest else (k, xs) :: appendTo same key x rest

/-- The values of the entries, grouped by their keys. -/
def groups (same : κ → κ → Bool) (key : ε → κ) (value : ε → α) (entries : List ε) :
    List (κ × List α) :=
  entries.foldl (fun groups e => appendTo same (key e) (value e) groups) []

section Groups

variable [DecidableEq γ] {code : κ → γ} {same : κ → κ → Bool} {key : κ} {x : α}
  {l : List (κ × List α)}

theorem keys_appendTo (hsame : ∀ g ∈ l, same g.1 key = true ↔ code g.1 = code key) :
    (appendTo same key x l).map Prod.fst =
      if code key ∈ l.map (code ∘ Prod.fst) then l.map Prod.fst else l.map Prod.fst ++ [key] := by
  induction l with
  | nil => rfl
  | cons g rest ih =>
    obtain ⟨hg, hrest⟩ := List.forall_mem_cons.mp hsame
    rw [appendTo]
    by_cases hcode : code g.1 = code key
    · -- the key has a group already
      rw [if_pos (hg.mpr hcode), if_pos]
      · rfl
      · exact List.mem_cons.mpr (.inl hcode.symm)
    · -- it is looked for further on
      rw [if_neg fun h => hcode (hg.mp h), List.map_cons, ih hrest]
      by_cases hmem : code key ∈ rest.map (code ∘ Prod.fst)
      · rw [if_pos hmem, if_pos]
        · rfl
        · exact List.mem_cons_of_mem _ hmem
      · rw [if_neg hmem, if_neg]
        · rfl
        · intro hmem'
          rcases List.mem_cons.mp hmem' with heq | hlater
          · exact hcode heq.symm
          · exact hmem hlater

/-- A group is as it was, or it has the new entry. -/
theorem mem_appendTo (hsame : ∀ g ∈ l, same g.1 key = true ↔ code g.1 = code key)
    (hnodup : (l.map (code ∘ Prod.fst)).Nodup) {g : κ × List α} (hg : g ∈ appendTo same key x l) :
    (g ∈ l ∧ code g.1 ≠ code key) ∨
    (∃ xs, (g.1, xs) ∈ l ∧ code g.1 = code key ∧ g.2 = xs ++ [x]) ∨
    (code key ∉ l.map (code ∘ Prod.fst) ∧ g = (key, [x])) := by
  induction l with
  | nil =>
    obtain rfl := List.mem_singleton.mp hg
    exact .inr (.inr ⟨List.not_mem_nil, rfl⟩)
  | cons first rest ih =>
    obtain ⟨hfirst, hrest⟩ := List.forall_mem_cons.mp hsame
    obtain ⟨hfresh, hrestNodup⟩ := List.nodup_cons.mp hnodup
    rw [appendTo] at hg
    -- the first group of the key takes the value, and no later group has its code
    by_cases hcode : code first.1 = code key
    · rw [if_pos (hfirst.mpr hcode)] at hg
      rcases List.mem_cons.mp hg with rfl | hlater
      · exact .inr (.inl ⟨first.2, List.mem_cons_self, hcode, rfl⟩)
      · refine .inl ⟨List.mem_cons_of_mem _ hlater, fun hg => hfresh ?_⟩
        exact List.mem_map.mpr ⟨g, hlater, hg.trans hcode.symm⟩
    · rw [if_neg fun h => hcode (hfirst.mp h)] at hg
      rcases List.mem_cons.mp hg with rfl | hlater
      · exact .inl ⟨List.mem_cons_self, hcode⟩
      · rcases ih hrest hrestNodup hlater with ⟨hmem, hne⟩ | ⟨xs, hmem, heq⟩ | ⟨hnew, rfl⟩
        · exact .inl ⟨List.mem_cons_of_mem _ hmem, hne⟩
        · exact .inr (.inl ⟨xs, List.mem_cons_of_mem _ hmem, heq⟩)
        · refine .inr (.inr ⟨?_, rfl⟩)
          intro hmem
          rcases List.mem_cons.mp hmem with heq | hlater
          · exact hcode heq.symm
          · exact hnew hlater

/-- Groups by a key: their codes are different; a group has the entries with the code of its
key, which is the key of one of them; and what is first among the keys of the entries is
first among the groups. -/
structure GroupsSpec (code : κ → γ) (key : ε → κ) (value : ε → α) (entries : List ε)
    (l : List (κ × List α)) : Prop where
  nodup : (l.map (code ∘ Prod.fst)).Nodup
  group : ∀ g ∈ l, (∃ e ∈ entries, key e = g.1) ∧
    g.2 = (entries.filter fun e => code (key e) = code g.1).map value
  first : ∀ q : γ → Bool, (l.map Prod.fst).find? (q ∘ code) = (entries.map key).find? (q ∘ code)

/-- **Grouping**, where the comparison tells the keys of the entries apart by their codes. -/
theorem groups_spec (same : κ → κ → Bool) (key : ε → κ) (value : ε → α) {entries : List ε}
    (hsame : ∀ e ∈ entries, ∀ e' ∈ entries,
      same (key e) (key e') = true ↔ code (key e) = code (key e')) :
    GroupsSpec code key value entries (groups same key value entries) := by
  induction entries using List.reverseRecOn with
  | nil => exact ⟨List.nodup_nil, fun g hg => absurd hg List.not_mem_nil, fun _ => rfl⟩
  | append_singleton entries e ih =>
    have hspec := ih fun a ha b hb =>
      hsame a (List.mem_append_left _ ha) b (List.mem_append_left _ hb)
    have hlast : e ∈ entries ++ [e] := List.mem_append_right _ List.mem_cons_self
    have hstep : groups same key value (entries ++ [e]) =
        appendTo same (key e) (value e) (groups same key value entries) := by
      rw [groups, List.foldl_append]
      rfl
    rw [hstep]
    generalize groups same key value entries = l at hspec
    -- the keys of the groups are keys of entries, so they are compared by code
    have hkeys : ∀ g ∈ l, same g.1 (key e) = true ↔ code g.1 = code (key e) := by
      intro g hg
      obtain ⟨⟨a, ha, hkey⟩, -⟩ := hspec.group g hg
      rw [← hkey]
      exact hsame a (List.mem_append_left _ ha) e hlast
    have hall := keys_appendTo (x := value e) hkeys
    constructor
    · rw [← List.map_map, hall]
      split
      · rw [List.map_map]
        exact hspec.nodup
      case isFalse hnew =>
        rw [List.map_append, List.map_map, List.nodup_append]
        refine ⟨hspec.nodup, List.nodup_singleton _, ?_⟩
        intro a ha b hb
        obtain rfl := List.mem_singleton.mp hb
        rintro rfl
        exact hnew ha
    · intro g hg
      rcases mem_appendTo hkeys hspec.nodup hg with
        ⟨hmem, hne⟩ | ⟨xs, hmem, hcode, hxs⟩ | ⟨hnew, rfl⟩
      · obtain ⟨⟨a, ha, hkey⟩, hgroup⟩ := hspec.group g hmem
        refine ⟨⟨a, List.mem_append_left _ ha, hkey⟩, ?_⟩
        rw [List.filter_append, List.filter_cons_of_neg (by simpa using Ne.symm hne),
          List.filter_nil, List.append_nil]
        exact hgroup
      · obtain ⟨⟨a, ha, hkey⟩, hgroup⟩ := hspec.group (g.1, xs) hmem
        refine ⟨⟨a, List.mem_append_left _ ha, hkey⟩, ?_⟩
        dsimp only at hgroup
        rw [List.filter_append, List.filter_cons_of_pos (by simpa using hcode.symm),
          List.map_append, ← hgroup, hxs]
        rfl
      · refine ⟨⟨e, hlast, rfl⟩, ?_⟩
        have hnone : entries.filter (fun a => code (key a) = code (key e)) = [] := by
          -- the first entry with the code would have made a group
          apply List.filter_eq_nil_iff.mpr
          intro a ha heq
          have hfind := hspec.first fun c => decide (c = code (key e))
          have hsome : ((entries.map key).find?
              ((fun c => decide (c = code (key e))) ∘ code)).isSome = true :=
            List.find?_isSome.mpr ⟨key a, List.mem_map.mpr ⟨a, ha, rfl⟩, heq⟩
          rw [← hfind] at hsome
          obtain ⟨k, hk, hcode⟩ := List.find?_isSome.mp hsome
          obtain ⟨g, hg, rfl⟩ := List.mem_map.mp hk
          exact hnew (List.mem_map.mpr ⟨g, hg, of_decide_eq_true hcode⟩)
        rw [List.filter_append, hnone, List.filter_cons_of_pos (by simp)]
        rfl
    · intro q
      rw [hall, List.map_append, List.find?_append, ← hspec.first q]
      split
      case isTrue hold =>
        obtain ⟨g, hg, hcode⟩ := List.mem_map.mp hold
        dsimp only [Function.comp_apply] at hcode
        cases hfind : (l.map Prod.fst).find? (q ∘ code) with
        | some k => rfl
        | none =>
          -- the group of the new entry was not found either
          have hg' := List.find?_eq_none.mp hfind g.1 (List.mem_map.mpr ⟨g, hg, rfl⟩)
          rw [Function.comp_apply, hcode] at hg'
          have hnone : [key e].find? (q ∘ code) = none :=
            List.find?_eq_none.mpr (by simpa using hg')
          rw [List.map_singleton, hnone]
          rfl
      case isFalse => rw [List.find?_append, List.map_singleton]

/-- Every entry has a group. -/
theorem GroupsSpec.exists_group {key : ε → κ} {value : ε → α} {entries : List ε}
    (h : GroupsSpec code key value entries l) {e : ε} (he : e ∈ entries) :
    ∃ g ∈ l, code g.1 = code (key e) := by
  have hfirst := h.first fun c => decide (c = code (key e))
  have hsome : ((entries.map key).find? ((fun c => decide (c = code (key e))) ∘ code)).isSome =
      true := List.find?_isSome.mpr ⟨key e, List.mem_map.mpr ⟨e, he, rfl⟩, decide_eq_true rfl⟩
  rw [← hfirst] at hsome
  obtain ⟨k, hk, hcode⟩ := List.find?_isSome.mp hsome
  obtain ⟨g, hg, rfl⟩ := List.mem_map.mp hk
  exact ⟨g, hg, of_decide_eq_true hcode⟩

end Groups

/-! ## Modes -/

section Modes

variable [DecidableEq γ] (code : α → γ)

/-- How many entries have the code of `x`. -/
def frequency (xs : List α) (x : α) : Nat := xs.countP fun y => code y = code x

/-- No entry is more frequent. -/
def IsTop (xs : List α) (x : α) : Prop := ∀ y ∈ xs, frequency code xs y ≤ frequency code xs x

instance (xs : List α) : DecidablePred (IsTop code xs) := fun x =>
  inferInstanceAs (Decidable (∀ y ∈ xs, frequency code xs y ≤ frequency code xs x))

/-- The first entry that is as frequent as any. -/
def mode (xs : List α) : Option α := xs.find? fun x => IsTop code xs x

variable {code} {xs ys before after : List α} {x y z : α}

theorem frequency_congr (h : code x = code y) : frequency code xs x = frequency code xs y := by
  rw [frequency, h]
  rfl

theorem frequency_perm (h : xs.Perm ys) : frequency code xs x = frequency code ys x :=
  h.countP_eq _

theorem isTop_congr (h : code x = code y) : IsTop code xs x ↔ IsTop code xs y := by
  unfold IsTop
  rw [frequency_congr h]

theorem isTop_perm (h : xs.Perm ys) : IsTop code xs x ↔ IsTop code ys x := by
  unfold IsTop
  simp only [frequency_perm h, h.mem_iff]

theorem exists_isTop (code : α → γ) (h : xs ≠ []) : ∃ x ∈ xs, IsTop code xs x := by
  cases hmax : xs.argmax (frequency code xs) with
  | none => exact absurd (List.argmax_eq_none.mp hmax) h
  | some x => exact ⟨x, List.argmax_mem hmax, fun y hy => List.le_of_mem_argmax hy hmax⟩

theorem mode_eq_some : mode code xs = some x ↔ ∃ before after, xs = before ++ x :: after ∧
    IsTop code xs x ∧ ∀ y ∈ before, ¬ IsTop code xs y := by
  rw [mode, List.find?_eq_some_iff_append]
  simp only [decide_eq_true_eq, Bool.not_eq_true', decide_eq_false_iff_not]
  constructor
  · rintro ⟨htop, before, after, hxs, hbefore⟩
    exact ⟨before, after, hxs, htop, hbefore⟩
  · rintro ⟨before, after, hxs, htop, hbefore⟩
    exact ⟨htop, before, after, hxs, hbefore⟩

theorem exists_mode (code : α → γ) (h : xs ≠ []) : ∃ x, mode code xs = some x := by
  obtain ⟨x, hx, htop⟩ := exists_isTop code h
  apply Option.isSome_iff_exists.mp
  exact List.find?_isSome.mpr ⟨x, hx, decide_eq_true htop⟩

theorem mode_mem (h : mode code xs = some x) : x ∈ xs := List.mem_of_find?_eq_some h

theorem mode_isTop (h : mode code xs = some x) : IsTop code xs x := by
  obtain ⟨_, _, -, htop, -⟩ := mode_eq_some.mp h
  exact htop

/-- Put the entries with the code of `x` first. -/
theorem mode_toFront (hx : x ∈ xs) (htop : IsTop code xs x) {front back : List α}
    (hperm : (front ++ back).Perm xs) (hfront : ∀ y ∈ front, code y = code x)
    (hback : ∀ y ∈ back, code y ≠ code x) :
    ∃ y, mode code (front ++ back) = some y ∧ code y = code x := by
  cases front with
  | nil => exact absurd rfl (hback x (hperm.mem_iff.mpr hx))
  | cons y front =>
    have hy : code y = code x := hfront y List.mem_cons_self
    refine ⟨y, ?_, hy⟩
    refine mode_eq_some.mpr ⟨[], front ++ back, rfl, ?_, fun z hz => absurd hz List.not_mem_nil⟩
    exact (isTop_congr hy).mpr ((isTop_perm hperm).mpr htop)

/-- An entry is outvoted when another one is more frequent, or as frequent and stands before
any that has its code. -/
def Outvoted (code : α → γ) (xs : List α) (z : α) : Prop :=
  ∃ before x after, xs = before ++ x :: after ∧ code x ≠ code z ∧
    (frequency code xs z < frequency code xs x ∨
      frequency code xs z = frequency code xs x ∧ ∀ y ∈ before, code y ≠ code z)

/-- **The mode of a list is not an entry that is outvoted.** -/
theorem outvoted_iff (hz : z ∈ xs) (h : mode code xs = some x) :
    Outvoted code xs z ↔ code x ≠ code z := by
  obtain ⟨before, after, hxs, htop, hbefore⟩ := mode_eq_some.mp h
  constructor
  · rintro ⟨pre, w, post, hxs', hw, hmore⟩ hsame
    have hwmem : w ∈ xs := by
      rw [hxs']
      exact List.mem_append_right _ List.mem_cons_self
    have hle : frequency code xs w ≤ frequency code xs z := frequency_congr hsame ▸ htop w hwmem
    rcases hmore with hless | ⟨heq, hpre⟩
    · omega
    · -- `w` is as frequent as the mode, so the mode stands before it
      have hwtop : IsTop code xs w := by
        intro y hy
        have hyx := htop y hy
        rw [frequency_congr hsame] at hyx
        omega
      rw [hxs] at hxs'
      rcases List.append_eq_append_iff.mp hxs' with ⟨mid, hpre', hmid⟩ | ⟨mid, hbefore', hmid⟩
      · cases mid with
        | nil =>
          obtain ⟨rfl, -⟩ := List.cons.inj hmid
          exact hw hsame
        | cons a mid =>
          obtain ⟨rfl, -⟩ := List.cons.inj hmid
          refine hpre x ?_ hsame
          rw [hpre']
          exact List.mem_append_right _ List.mem_cons_self
      · cases mid with
        | nil =>
          obtain ⟨rfl, -⟩ := List.cons.inj hmid
          exact hw hsame
        | cons a mid =>
          obtain ⟨rfl, -⟩ := List.cons.inj hmid
          refine hbefore w ?_ hwtop
          rw [hbefore']
          exact List.mem_append_right _ List.mem_cons_self
  · intro hne
    refine ⟨before, x, after, hxs, hne, ?_⟩
    rcases Nat.lt_or_eq_of_le (htop z hz) with hless | heq
    · exact .inl hless
    · refine .inr ⟨heq, ?_⟩
      intro y hy hcode
      apply hbefore y hy
      intro w hw
      rw [frequency_congr hcode, heq]
      exact htop w hw

/-- An entry that is not the mode can be left out. -/
theorem mode_remove (h : mode code (before ++ z :: after) = some x) (hne : code x ≠ code z) :
    mode code (before ++ after) = some x := by
  obtain ⟨pre, post, hsplit, htop, hpre⟩ := mode_eq_some.mp h
  have hless : ∀ y, frequency code (before ++ after) y ≤
      frequency code (before ++ z :: after) y := by
    intro y
    exact ((List.sublist_cons_self z after).append_left before).countP_le
  have hsame : frequency code (before ++ after) x = frequency code (before ++ z :: after) x := by
    rw [frequency, frequency, List.countP_append, List.countP_append,
      List.countP_cons_of_neg (by simpa using Ne.symm hne)]
  have hall : ∀ y ∈ before ++ after, y ∈ before ++ z :: after := by
    intro y hy
    exact ((List.sublist_cons_self z after).append_left before).subset hy
  have htop' : IsTop code (before ++ after) x := by
    intro y hy
    rw [hsame]
    exact (hless y).trans (htop y (hall y hy))
  -- what was less frequent than the mode still is
  have hx : x ∈ before ++ z :: after := mode_mem h
  have hlower : ∀ y, ¬ IsTop code (before ++ z :: after) y → x ∈ before ++ after →
      ¬ IsTop code (before ++ after) y := by
    intro y hnot hmem htop''
    apply hnot
    intro w hw
    have hwx := htop w hw
    have hxy := htop'' x hmem
    rw [hsame] at hxy
    exact (hwx.trans hxy).trans (hless y)
  rcases List.append_eq_append_iff.mp hsplit with ⟨mid, rfl, hmid⟩ | ⟨mid, rfl, hmid⟩
  · cases mid with
    | nil =>
      obtain ⟨rfl, -⟩ := List.cons.inj hmid
      exact absurd rfl hne
    | cons a mid =>
      obtain ⟨rfl, rfl⟩ := List.cons.inj hmid
      have hmem : x ∈ before ++ (mid ++ x :: post) :=
        List.mem_append_right _ (List.mem_append_right _ List.mem_cons_self)
      refine mode_eq_some.mpr ⟨before ++ mid, post, (List.append_assoc ..).symm, htop', ?_⟩
      intro y hy
      refine hlower y (hpre y ?_) hmem
      exact ((List.sublist_cons_self z mid).append_left before).subset hy
  · cases mid with
    | nil =>
      obtain ⟨rfl, -⟩ := List.cons.inj hmid
      exact absurd rfl hne
    | cons a mid =>
      obtain ⟨rfl, rfl⟩ := List.cons.inj hmid
      have hmem : x ∈ pre ++ x :: mid ++ after :=
        List.mem_append_left _ (List.mem_append_right _ List.mem_cons_self)
      refine mode_eq_some.mpr ⟨pre, mid ++ after, List.append_assoc .., htop', ?_⟩
      intro y hy
      exact hlower y (hpre y hy) hmem

end Modes

/-! ## Counting by keys -/

/-- Two counts agree when they do under each key. -/
theorem countP_by_key [DecidableEq κ] (key : α → κ) {p q : α → Bool} {l : List α}
    (h : ∀ k, l.countP (fun x => decide (key x = k) && p x) =
      l.countP fun x => decide (key x = k) && q x) : l.countP p = l.countP q := by
  induction hlength : l.length using Nat.strong_induction_on generalizing l with
  | _ n ih =>
    cases l with
    | nil => rfl
    | cons a rest =>
      -- what has the key of the first entry, and the others
      rw [List.countP_eq_countP_filter_add _ p fun x => decide (key x = key a),
        List.countP_eq_countP_filter_add _ q fun x => decide (key x = key a)]
      have hothers : ∀ (r : α → Bool) k,
          ((a :: rest).filter fun x => !decide (key x = key a)).countP
            (fun x => decide (key x = k) && r x) =
          if k = key a then 0 else (a :: rest).countP fun x => decide (key x = k) && r x := by
        intro r k
        rw [List.countP_filter]
        split
        case isTrue hk =>
          subst hk
          apply List.countP_eq_zero.mpr
          intro x _
          cases hx : decide (key x = key a) <;> simp
        case isFalse hk =>
          apply List.countP_congr
          intro x _
          by_cases hx : key x = k
          · subst hx
            simp [hk]
          · simp [hx]
      congr 1
      · rw [List.countP_filter, List.countP_filter]
        simpa only [Bool.and_comm] using h (key a)
      · refine ih _ ?_ ?_ rfl
        · rw [← hlength, List.filter_cons_of_neg (by simp)]
          exact Nat.lt_succ_of_le (List.length_filter_le _ _)
        · intro k
          rw [hothers, hothers, h k]

end Grouping
