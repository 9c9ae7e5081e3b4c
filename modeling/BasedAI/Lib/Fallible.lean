import Mathlib.Algebra.Order.Ring.Nat
import Mathlib.Data.List.Basic

/-!
# Fallible straight-line programs

A transaction is a straight line of checks and checked arithmetic in
`Except ε`: the first failing line aborts the whole run and nothing it wrote
survives. This module gives the three building blocks (`revertIf`, the checked
operations, fallible foreign calls lifted from `Option`) and one inversion
lemma for each, so that a successful run unfolds to the list of facts its
lines established.

* `bind_ok`      — a successful sequence succeeds at every line;
* `revertIf_ok`  — a passed guard refutes its condition;
* `checkedAdd_ok`, `checkedSub_ok`, `checkedMul_ok` — a successful operation
  returns the exact integer and shows that it fits.
-/

namespace Fallible

variable {ε α β : Type}

/-- Abort with `e` when `c` holds. -/
def revertIf (c : Prop) [Decidable c] (e : ε) : Except ε Unit :=
  if c then .error e else .ok ()

/-- Abort with `e` when a foreign call gives no result. -/
def orRevert (e : ε) : Option α → Except ε α
  | some a => .ok a
  | none => .error e

/-- Unsigned addition on `w` bits that aborts instead of wrapping. -/
def checkedAdd (w : Nat) (e : ε) (a b : Nat) : Except ε Nat :=
  if a + b < 2 ^ w then .ok (a + b) else .error e

/-- Unsigned multiplication on `w` bits that aborts instead of wrapping. -/
def checkedMul (w : Nat) (e : ε) (a b : Nat) : Except ε Nat :=
  if a * b < 2 ^ w then .ok (a * b) else .error e

/-- Unsigned subtraction that aborts instead of wrapping. -/
def checkedSub (e : ε) (a b : Nat) : Except ε Nat :=
  -- the guard is what makes the truncated subtraction exact
  if b ≤ a then .ok (a - b) else .error e

/-! ## Inversion of successful runs -/

@[simp] theorem bind_ok {x : Except ε α} {f : α → Except ε β} {r : β} :
    (x >>= f) = .ok r ↔ ∃ a, x = .ok a ∧ f a = .ok r := by
  cases x with
  | error e => simp [bind, Except.bind]
  | ok a => simp [bind, Except.bind]

theorem mapError_ok {ε' : Type} {x : Except ε α} {f : ε → ε'} {a : α} :
    x.mapError f = .ok a ↔ x = .ok a := by
  cases x with
  | error e => simp [Except.mapError]
  | ok b => simp [Except.mapError]

theorem map_ok {x : Except ε α} {f : α → β} {r : β} :
    f <$> x = .ok r ↔ ∃ a, x = .ok a ∧ f a = r := by
  cases x with
  | error e => simp [Functor.map, Except.map]
  | ok a => simp [Functor.map, Except.map]

@[simp] theorem return_ok {a r : α} : (pure a : Except ε α) = .ok r ↔ a = r := by
  simp [pure, Except.pure]

@[simp] theorem revertIf_ok {c : Prop} [Decidable c] {e : ε} {u : Unit} :
    revertIf c e = .ok u ↔ ¬ c := by
  unfold revertIf
  split <;> simp_all

@[simp] theorem orRevert_ok {e : ε} {o : Option α} {a : α} :
    orRevert e o = .ok a ↔ o = some a := by
  cases o <;> simp [orRevert]

@[simp] theorem checkedAdd_ok {w : Nat} {e : ε} {a b r : Nat} :
    checkedAdd w e a b = .ok r ↔ a + b < 2 ^ w ∧ r = a + b := by
  unfold checkedAdd
  split
  case isTrue h => simp [h, eq_comm]
  case isFalse h => simp [h]

@[simp] theorem checkedMul_ok {w : Nat} {e : ε} {a b r : Nat} :
    checkedMul w e a b = .ok r ↔ a * b < 2 ^ w ∧ r = a * b := by
  unfold checkedMul
  split
  case isTrue h => simp [h, eq_comm]
  case isFalse h => simp [h]

@[simp] theorem checkedSub_ok {e : ε} {a b r : Nat} :
    checkedSub e a b = .ok r ↔ b ≤ a ∧ r = a - b := by
  unfold checkedSub
  split
  case isTrue h => simp [h, eq_comm]
  case isFalse h => simp [h]

/-! ## Inversion of aborted runs -/

theorem bind_error {x : Except ε α} {f : α → Except ε β} {e : ε} :
    (x >>= f) = .error e ↔ x = .error e ∨ ∃ a, x = .ok a ∧ f a = .error e := by
  cases x with
  | error e' => simp [bind, Except.bind]
  | ok a => simp [bind, Except.bind]

theorem return_error {a : α} {e : ε} : (pure a : Except ε α) = .error e ↔ False := by
  simp [pure, Except.pure]

theorem revertIf_error {c : Prop} [Decidable c] {e e' : ε} :
    revertIf c e = .error e' ↔ c ∧ e = e' := by
  unfold revertIf
  split <;> simp_all

theorem orRevert_error {e e' : ε} {o : Option α} :
    orRevert e o = .error e' ↔ o = none ∧ e = e' := by
  cases o <;> simp [orRevert]

theorem checkedAdd_error {w : Nat} {e e' : ε} {a b : Nat} :
    checkedAdd w e a b = .error e' ↔ 2 ^ w ≤ a + b ∧ e = e' := by
  unfold checkedAdd
  split
  case isTrue h => simp [Nat.not_le.mpr h]
  case isFalse h => simp [Nat.not_lt.mp h]

theorem checkedMul_error {w : Nat} {e e' : ε} {a b : Nat} :
    checkedMul w e a b = .error e' ↔ 2 ^ w ≤ a * b ∧ e = e' := by
  unfold checkedMul
  split
  case isTrue h => simp [Nat.not_le.mpr h]
  case isFalse h => simp [Nat.not_lt.mp h]

theorem checkedSub_error {e e' : ε} {a b : Nat} :
    checkedSub e a b = .error e' ↔ a < b ∧ e = e' := by
  unfold checkedSub
  split
  case isTrue h => simp [Nat.not_lt.mpr h]
  case isFalse h => simp [Nat.not_le.mp h]

/-! ## Running the lines forward -/

theorem ok_bind (a : α) (f : α → Except ε β) : (Except.ok a >>= f) = f a := rfl

/-- A run that succeeds returns its result. -/
theorem eq_ok_of_isOk {x : Except ε α} (d : α) (h : x.isOk = true) :
    x = .ok (x.toOption.getD d) := by
  cases x with
  | error e => cases h
  | ok a => rfl

theorem toOption_ok {x : Except ε α} {a : α} : x.toOption = some a ↔ x = .ok a := by
  cases x with
  | error e => simp [Except.toOption]
  | ok b => simp [Except.toOption]

theorem revertIf_neg {c : Prop} [Decidable c] {e : ε} (h : ¬ c) :
    revertIf c e = .ok () :=
  if_neg h

theorem checkedAdd_eq {w : Nat} {e : ε} {a b : Nat} (h : a + b < 2 ^ w) :
    checkedAdd w e a b = .ok (a + b) :=
  if_pos h

theorem checkedMul_eq {w : Nat} {e : ε} {a b : Nat} (h : a * b < 2 ^ w) :
    checkedMul w e a b = .ok (a * b) :=
  if_pos h

theorem checkedSub_eq {e : ε} {a b : Nat} (h : b ≤ a) :
    checkedSub e a b = .ok (a - b) :=
  if_pos h

/-! ## Loops -/

section Loops

variable {f : α → Except ε β} {xs : List α} {ys : List β}

/-- What a loop collects. -/
theorem mem_mapM (h : xs.mapM f = .ok ys) {y : β} : y ∈ ys ↔ ∃ x ∈ xs, f x = .ok y := by
  induction xs generalizing ys with
  | nil =>
    obtain rfl := return_ok.mp h
    simp
  | cons x rest ih =>
    simp only [List.mapM_cons, bind_ok, return_ok] at h
    obtain ⟨z, hz, zs, hzs, rfl⟩ := h
    rw [List.mem_cons, List.exists_mem_cons_iff, ih hzs, hz, Except.ok.injEq]
    exact or_congr_left eq_comm

theorem exists_of_mapM (h : xs.mapM f = .ok ys) {x : α} (hx : x ∈ xs) :
    ∃ y ∈ ys, f x = .ok y := by
  induction xs generalizing ys with
  | nil => exact absurd hx List.not_mem_nil
  | cons x' rest ih =>
    simp only [List.mapM_cons, bind_ok, return_ok] at h
    obtain ⟨y, hy, ys, hys, rfl⟩ := h
    rcases List.mem_cons.mp hx with rfl | hrest
    · exact ⟨y, List.mem_cons_self, hy⟩
    · obtain ⟨z, hz, hfz⟩ := ih hys hrest
      exact ⟨z, List.mem_cons_of_mem _ hz, hfz⟩

/-- What a loop collects, next to what it was collected for. -/
theorem zip_mapM (h : xs.mapM f = .ok ys) : ys.length = xs.length ∧
    (∀ p ∈ xs.zip ys, f p.1 = .ok p.2) ∧ ∀ x ∈ xs, ∃ y, (x, y) ∈ xs.zip ys := by
  induction xs generalizing ys with
  | nil =>
    obtain rfl := return_ok.mp h
    simp
  | cons x rest ih =>
    simp only [List.mapM_cons, bind_ok, return_ok] at h
    obtain ⟨y, hy, ys, hys, rfl⟩ := h
    obtain ⟨hlen, hall, hex⟩ := ih hys
    rw [List.zip_cons_cons]
    refine ⟨congrArg (· + 1) hlen, List.forall_mem_cons.mpr ⟨hy, hall⟩, ?_⟩
    intro x' hx'
    rcases List.mem_cons.mp hx' with rfl | hrest
    · exact ⟨y, List.mem_cons_self⟩
    · obtain ⟨y', hy'⟩ := hex x' hrest
      exact ⟨y', List.mem_cons_of_mem _ hy'⟩

/-- A loop none of whose steps aborts. -/
theorem mapM_ok {g : α → β} (xs : List α) (h : ∀ x ∈ xs, f x = .ok (g x)) :
    xs.mapM f = .ok (xs.map g) := by
  induction xs with
  | nil => rfl
  | cons x rest ih =>
    obtain ⟨hx, hrest⟩ := List.forall_mem_cons.mp h
    rw [List.mapM_cons, hx, ih hrest]
    rfl

/-- What answers at least as often answers the same. -/
theorem mapM_within {g : α → Except ε β} (hfg : ∀ x y, f x = .ok y → g x = .ok y)
    (h : xs.mapM f = .ok ys) : xs.mapM g = .ok ys := by
  induction xs generalizing ys with
  | nil => exact h
  | cons x rest ih =>
    simp only [List.mapM_cons, bind_ok, return_ok] at h ⊢
    obtain ⟨y, hy, ys, hys, rfl⟩ := h
    exact ⟨y, hfg x y hy, ys, ih hys, rfl⟩

theorem mapM_total (xs : List α) (h : ∀ x ∈ xs, ∃ y, f x = .ok y) :
    ∃ ys, xs.mapM f = .ok ys := by
  induction xs with
  | nil => exact ⟨[], rfl⟩
  | cons x rest ih =>
    obtain ⟨⟨y, hy⟩, hrest⟩ := List.forall_mem_cons.mp h
    obtain ⟨ys, hys⟩ := ih hrest
    refine ⟨y :: ys, ?_⟩
    rw [List.mapM_cons, hy, hys]
    rfl

end Loops

end Fallible
