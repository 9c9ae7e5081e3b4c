import Mathlib.Data.List.Basic
import Mathlib.Data.List.Range
import Mathlib.Order.Basic

/-!
# Mirroring the log of a chain that reorganises

A chain gives every height a block, with a hash and the log entries of that block, and is
replaced now and then by another chain. A mirror keeps the entries it has read and the
hash of every block it read them from. To catch up it walks those hashes back to a block
that is still there, keeps what it read up to that block, and reads the rest again.

* `walkBack_spec` — where the walk ends;
* `Mirrors.agree` — up to there, two chains have one log;
* `Mirrors.sync`  — so the mirror has the log of the new chain.
-/

namespace LogMirror

variable {H E : Type}

/-- A chain as a reader sees it. What is above `height` does not matter. -/
structure Chain (H E : Type) where
  height : Nat
  hash : Nat → H
  /-- the entries of a block, in order -/
  logs : Nat → List E

/-- The entries of the blocks from `low` on and below `high`. -/
def Chain.scan (c : Chain H E) (low high : Nat) : List E :=
  (List.range' low (high - low)).flatMap c.logs

/-- Equal hashes are hashes of equal histories. -/
def Linked (c d : Chain H E) : Prop :=
  ∀ n, n ≤ c.height → n ≤ d.height → c.hash n = d.hash n →
    ∀ m, m ≤ n → c.hash m = d.hash m ∧ c.logs m = d.logs m

/-- Every entry says which block it is in. -/
def Located (blockOf : E → Nat) (c : Chain H E) : Prop :=
  ∀ n, ∀ e ∈ c.logs n, blockOf e = n

section Scan

variable {c d : Chain H E} {low mid high : Nat}

theorem scan_of_le (h : high ≤ low) : c.scan low high = [] := by
  rw [Chain.scan, Nat.sub_eq_zero_of_le h, List.range'_zero, List.flatMap_nil]

theorem scan_append (hlow : low ≤ mid) (hhigh : mid ≤ high) :
    c.scan low mid ++ c.scan mid high = c.scan low high := by
  have hsplit : List.range' low (high - low) =
      List.range' low (mid - low) ++ List.range' mid (high - mid) := by
    have hsum : high - low = (mid - low) + (high - mid) := by omega
    have hmid : low + (mid - low) = mid := by omega
    rw [hsum, ← List.range'_append_1, hmid]
  rw [Chain.scan, Chain.scan, Chain.scan, hsplit, List.flatMap_append]

theorem mem_scan {e : E} : e ∈ c.scan low high ↔ ∃ n, low ≤ n ∧ n < high ∧ e ∈ c.logs n := by
  rw [Chain.scan, List.mem_flatMap]
  constructor
  · rintro ⟨n, hn, he⟩
    rw [List.mem_range'_1] at hn
    exact ⟨n, hn.1, by omega, he⟩
  · rintro ⟨n, hlow, hhigh, he⟩
    refine ⟨n, ?_, he⟩
    rw [List.mem_range'_1]
    omega

/-- Chains with the same blocks have the same entries. -/
theorem scan_congr (h : ∀ n, low ≤ n → n < high → c.logs n = d.logs n) :
    c.scan low high = d.scan low high := by
  unfold Chain.scan
  apply List.flatMap_congr
  intro n hn
  rw [List.mem_range'_1] at hn
  exact h n hn.1 (by omega)

theorem scan_of_silent (h : ∀ n, low ≤ n → n < high → c.logs n = []) :
    c.scan low high = [] := by
  rw [List.eq_nil_iff_forall_not_mem]
  intro e he
  obtain ⟨n, hlow, hhigh, hmem⟩ := mem_scan.mp he
  rw [h n hlow hhigh] at hmem
  cases hmem

/-- Blocks without entries need not be read. -/
theorem scan_skip (hle : low ≤ mid) (h : ∀ n, n < mid → c.logs n = []) :
    c.scan low high = c.scan mid high := by
  by_cases hhigh : mid ≤ high
  · rw [← scan_append hle hhigh, scan_of_silent fun n _ hn => h n hn, List.nil_append]
  · rw [scan_of_le (by omega : high ≤ mid)]
    exact scan_of_silent fun n _ hn => h n (by omega)

/-- Keeping what is below a height cuts the scan there. -/
theorem filter_scan {blockOf : E → Nat} (hloc : Located blockOf c) (cut : Nat) :
    (c.scan low high).filter (fun e => blockOf e < cut) = c.scan low (min cut high) := by
  by_cases hlow : low ≤ min cut high
  · rw [← scan_append hlow (Nat.min_le_right cut high), List.filter_append]
    have hkept : (c.scan low (min cut high)).filter (fun e => blockOf e < cut) =
        c.scan low (min cut high) := by
      rw [List.filter_eq_self]
      intro e he
      obtain ⟨n, -, hn, hmem⟩ := mem_scan.mp he
      rw [hloc n e hmem]
      exact decide_eq_true (by omega)
    have hdropped : (c.scan (min cut high) high).filter (fun e => blockOf e < cut) = [] := by
      rw [List.filter_eq_nil_iff]
      intro e he
      obtain ⟨n, hn, hhigh, hmem⟩ := mem_scan.mp he
      rw [hloc n e hmem, decide_eq_true_eq]
      omega
    rw [hkept, hdropped, List.append_nil]
  · -- nothing of the scan is below the cut
    rw [scan_of_le (by omega : min cut high ≤ low), List.filter_eq_nil_iff]
    intro e he
    obtain ⟨n, hn, hhigh, hmem⟩ := mem_scan.mp he
    rw [hloc n e hmem, decide_eq_true_eq]
    omega

end Scan

/-! ## Walking back -/

section Walk

variable [DecidableEq H]

/-- Down from `n`, the height above the first block that was not read or is still the one
that was read. -/
def walkBack (stored : Nat → Option H) (canonical : Nat → H) : Nat → Nat
  | 0 => 0
  | n + 1 =>
    match stored n with
    | none => n + 1
    | some h => if canonical n = h then n + 1 else walkBack stored canonical n

variable {stored : Nat → Option H} {canonical : Nat → H}

theorem walkBack_le (n : Nat) : walkBack stored canonical n ≤ n := by
  induction n with
  | zero => exact Nat.le_refl 0
  | succ n ih =>
    unfold walkBack
    split
    · exact Nat.le_refl _
    · split
      · exact Nat.le_refl _
      · exact ih.trans (Nat.le_succ n)

/-- Below the height where the walk ends there is a block that is still the same, one that
was never read, or none. -/
theorem walkBack_spec (n : Nat) :
    walkBack stored canonical n = 0 ∨ ∃ m, walkBack stored canonical n = m + 1 ∧
      (stored m = none ∨ stored m = some (canonical m)) := by
  induction n with
  | zero => exact .inl rfl
  | succ n ih =>
    unfold walkBack
    split
    · rename_i hnone
      exact .inr ⟨n, rfl, .inl hnone⟩
    · rename_i h hsome
      split
      · rename_i hsame
        exact .inr ⟨n, rfl, .inr (hsame ▸ hsome)⟩
      · exact ih

end Walk

/-! ## The mirror -/

/-- `entries` and `stored` are what reading the blocks of `c` from `first` on and below
`next` gives; there is nothing before `first`. -/
structure Mirrors (c : Chain H E) (first next : Nat) (stored : Nat → Option H)
    (entries : List E) : Prop where
  read : next ≤ c.height + 1
  stored : ∀ n, stored n = if first ≤ n ∧ n < next then some (c.hash n) else none
  entries : entries = c.scan first next

/-- A mirror that has read nothing catches up from wherever it starts. -/
theorem mirrors_first {d : Chain H E} {high : Nat} (hd : high ≤ d.height + 1) (low : Nat) :
    Mirrors d low high (fun n => if low ≤ n ∧ n < high then some (d.hash n) else none)
      (d.scan low high) :=
  ⟨hd, fun _ => rfl, rfl⟩

section Mirror

variable [DecidableEq H] {c d : Chain H E} {first next low high : Nat}
  {stored : Nat → Option H} {entries : List E} {blockOf : E → Nat}

/-- Where the walk ends above the first block read, the chains agree below. -/
theorem Mirrors.agree (h : Mirrors c first next stored entries) (hlinked : Linked c d)
    (hlow : low ≤ next) (hd : low ≤ d.height + 1)
    (hfirst : first < walkBack stored d.hash low) :
    ∀ n, n < walkBack stored d.hash low → c.hash n = d.hash n ∧ c.logs n = d.logs n := by
  intro n hn
  rcases @walkBack_spec H _ stored d.hash low with hzero | ⟨m, hm, hblock⟩
  · omega
  · have hle : walkBack stored d.hash low ≤ low := walkBack_le low
    have hread := h.read
    -- the block below was read, so it is still the same
    have hsome : stored m = some (c.hash m) := by
      rw [h.stored, if_pos ⟨by omega, by omega⟩]
    rw [hsome] at hblock
    rcases hblock with habsurd | hsame
    · cases habsurd
    · have hhash : c.hash m = d.hash m := Option.some.inj hsame
      exact hlinked m (by omega) (by omega) hhash n (by omega)

/-- **Catching up.** After a walk back from a block already read, what is kept and what is
read again is the log of the new chain. -/
theorem Mirrors.sync (h : Mirrors c first next stored entries) (hlinked : Linked c d)
    (hc : Located blockOf c) (hlow : low ≤ next) (hhigh : low ≤ high) (hd : high ≤ d.height + 1)
    {r : Nat} (hr : walkBack stored d.hash low = r) :
    Mirrors d (min first r) high
      (fun n => if r ≤ n ∧ n < high then some (d.hash n) else if n < r then stored n else none)
      (entries.filter (fun e => blockOf e < r) ++ d.scan r high) := by
  have hle : r ≤ low := hr ▸ walkBack_le low
  have hkept : entries.filter (fun e => blockOf e < r) = c.scan first r := by
    rw [h.entries, filter_scan hc, min_eq_left (hle.trans hlow)]
  rcases Nat.lt_or_ge first r with hcut | hcut
  · -- the part that is kept is common to both chains
    have hsame := h.agree hlinked hlow (hhigh.trans hd) (hr.symm ▸ hcut)
    rw [hr] at hsame
    rw [min_eq_left hcut.le]
    constructor
    · exact hd
    · intro n
      by_cases hnew : r ≤ n ∧ n < high
      · rw [if_pos hnew, if_pos ⟨by omega, hnew.2⟩]
      · rw [if_neg hnew]
        by_cases hold : n < r
        · rw [if_pos hold, h.stored, (hsame n hold).1]
          by_cases hn : first ≤ n
          · rw [if_pos ⟨hn, by omega⟩, if_pos ⟨hn, by omega⟩]
          · rw [if_neg (fun hn' => hn hn'.1), if_neg (fun hn' => hn hn'.1)]
        · rw [if_neg hold, if_neg (by omega)]
    · have hcommon : c.scan first r = d.scan first r :=
        scan_congr fun n _ hn => (hsame n hn).2
      rw [hkept, hcommon, scan_append hcut.le (hle.trans hhigh)]
  · -- nothing is kept
    rw [min_eq_right hcut]
    constructor
    · exact hd
    · intro n
      by_cases hnew : r ≤ n ∧ n < high
      · rw [if_pos hnew, if_pos hnew]
      · rw [if_neg hnew, if_neg hnew]
        by_cases hold : n < r
        · rw [if_pos hold, h.stored, if_neg (by omega)]
        · rw [if_neg hold]
    · rw [hkept, scan_of_le hcut, List.nil_append]

end Mirror

end LogMirror
