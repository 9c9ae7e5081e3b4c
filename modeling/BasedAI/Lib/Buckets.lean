import BasedAI.Lib.PyJson
import Mathlib.Data.List.Find
import Mathlib.Data.List.Induction
import Mathlib.Data.List.MinMax

/-!
# Buckets

Entries are added one by one to the bucket of their key, and keys stand in the order they
were first seen. Of several greatest values `max` takes the first.

* `dictGet_collect` — a bucket has what the entries with its key add up to;
* `find_collect`    — what is first among the keys is first among the entries;
* `argmax_eq_find`  — the greatest value as the first that none exceeds.
-/

namespace Buckets

open Python

variable {ε κ σ : Type} [DecidableEq κ]

/-- Add every entry to the bucket of its key. -/
def collect (key : ε → κ) (add : σ → ε → σ) (init : σ) (entries : List ε) : List (κ × σ) :=
  entries.foldl (fun d e => dictSet (key e) (add ((dictGet (key e) d).getD init) e) d) []

variable {key : ε → κ} {add : σ → ε → σ} {init : σ} {entries : List ε}

theorem collect_concat (e : ε) : collect key add init (entries ++ [e]) =
    dictSet (key e) (add ((dictGet (key e) (collect key add init entries)).getD init) e)
      (collect key add init entries) := by
  rw [collect, List.foldl_append]
  rfl

/-- **A bucket has what the entries with its key add up to.** -/
theorem dictGet_collect (k : κ) : (dictGet k (collect key add init entries)).getD init =
    (entries.filter fun e => key e = k).foldl add init := by
  induction entries using List.reverseRecOn with
  | nil => rfl
  | append_singleton entries e ih =>
    rw [collect_concat, dictGet_dictSet, List.filter_append]
    by_cases hk : key e = k
    · rw [if_pos hk, List.filter_cons_of_pos (by simpa using hk), List.foldl_append, ← ih, hk]
      rfl
    · rw [if_neg hk, List.filter_cons_of_neg (by simpa using hk), List.filter_nil,
        List.append_nil, ih]

theorem nodup_collect : ((collect key add init entries).map Prod.fst).Nodup := by
  induction entries using List.reverseRecOn with
  | nil => exact List.nodup_nil
  | append_singleton entries e ih =>
    rw [collect_concat]
    exact nodup_dictSet ih

/-- A new key goes to the end, and an old one changes nothing. -/
theorem find_dictSet (q : κ → Bool) (k : κ) (v : σ) (d : List (κ × σ)) :
    ((dictSet k v d).map Prod.fst).find? q = (d.map Prod.fst ++ [k]).find? q := by
  induction d with
  | nil => rfl
  | cons e rest ih =>
    obtain ⟨k', v'⟩ := e
    rw [dictSet]
    by_cases hk : k' = k
    · rw [if_pos hk, List.find?_append]
      cases hfind : (((k', v') :: rest).map Prod.fst).find? q with
      | some found => exact hfind
      | none =>
        -- `k` stands among the keys already
        have hnone : [k].find? q = none := by
          have hhead := List.find?_eq_none.mp hfind k' List.mem_cons_self
          rw [hk] at hhead
          exact List.find?_eq_none.mpr (List.forall_mem_singleton.mpr hhead)
        rw [hnone]
        exact hfind
    · rw [if_neg hk, List.map_cons, List.map_cons, List.cons_append, List.find?_cons,
        List.find?_cons, ih]

/-- **What is first among the keys is first among the entries.** -/
theorem find_collect (q : κ → Bool) :
    ((collect key add init entries).map Prod.fst).find? q = (entries.map key).find? q := by
  induction entries using List.reverseRecOn with
  | nil => rfl
  | append_singleton entries e ih =>
    rw [collect_concat, find_dictSet, List.find?_append, ih, List.map_append, List.find?_append]
    rfl

/-- Lists in which the same is found have the same members. -/
theorem mem_iff_of_find {l l' : List κ} (h : ∀ q, l.find? q = l'.find? q) {k : κ} :
    k ∈ l ↔ k ∈ l' := by
  have hmem : ∀ l : List κ, k ∈ l ↔ (l.find? fun k' => decide (k' = k)).isSome = true := by
    intro l
    rw [List.find?_isSome]
    exact ⟨fun h => ⟨k, h, decide_eq_true rfl⟩, fun ⟨k', h, hk⟩ => of_decide_eq_true hk ▸ h⟩
  rw [hmem, h, ← hmem]

theorem mem_keys_collect {k : κ} :
    k ∈ (collect key add init entries).map Prod.fst ↔ ∃ e ∈ entries, key e = k := by
  rw [mem_iff_of_find find_collect, List.mem_map]

/-- A bucket that is overwritten has the last value. -/
theorem foldl_last {α β : Type} (f : α → β) (l : List α) (init : β) :
    l.foldl (fun _ x => f x) init = (l.map f).getLastD init := by
  induction l using List.reverseRecOn with
  | nil => rfl
  | append_singleton l x _ => simp

theorem exists_dictGet {d : List (κ × σ)} {k : κ} (h : k ∈ d.map Prod.fst) :
    ∃ v, dictGet k d = some v := by
  induction d with
  | nil => cases h
  | cons e rest ih =>
    obtain ⟨k', v⟩ := e
    rw [dictGet]
    by_cases hk : k' = k
    · exact ⟨v, if_pos hk⟩
    · rw [if_neg hk]
      exact ih ((List.mem_cons.mp h).resolve_left fun heq => hk heq.symm)

/-! ## The first of the greatest -/

/-- **The greatest value as the first that none exceeds.** -/
theorem argmax_eq_find {α β : Type} [LinearOrder β] (f : α → β) (l : List α) :
    l.argmax f = l.find? fun x => ∀ y ∈ l, f y ≤ f x := by
  induction l with
  | nil => rfl
  | cons a l ih =>
    rw [List.argmax_cons, ih]
    cases hfind : l.find? fun x => ∀ y ∈ l, f y ≤ f x with
    | none =>
      -- there is always a greatest one
      have hnil : l = [] := List.argmax_eq_none.mp (ih.trans hfind)
      subst hnil
      exact (List.find?_cons_of_pos (by simp)).symm
    | some c =>
      have hc : ∀ y ∈ l, f y ≤ f c := by simpa using List.find?_some hfind
      have hcmem : c ∈ l := List.mem_of_find?_eq_some hfind
      dsimp only
      by_cases hless : f a < f c
      · have ha : ¬ ∀ y ∈ a :: l, f y ≤ f a := fun h =>
          absurd (h c (List.mem_cons_of_mem _ hcmem)) (not_le.mpr hless)
        rw [if_pos hless, List.find?_cons_of_neg (by simpa using ha), ← hfind]
        apply List.find?_congr
        intro x _
        apply decide_eq_decide.mpr
        constructor
        · intro h
          exact List.forall_mem_cons.mpr ⟨hless.le.trans (h c hcmem), h⟩
        · intro h
          exact (List.forall_mem_cons.mp h).2
      · have ha : ∀ y ∈ a :: l, f y ≤ f a :=
          List.forall_mem_cons.mpr ⟨le_rfl, fun y hy => (hc y hy).trans (not_lt.mp hless)⟩
        rw [if_neg hless, List.find?_cons_of_pos (by simpa using ha)]

end Buckets
