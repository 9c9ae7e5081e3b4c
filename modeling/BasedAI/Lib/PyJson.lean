import BasedAI.Lib.Fallible
import BasedAI.Lib.PyText
import Mathlib.Data.Rat.Floor

/-!
# Python values read from JSON

What `json.loads` can return, and the operations programs apply to such values
before they know their type: subscripting, `in`, `dict.get`, truth, `int()`,
`.lower()`, `==` and `>`. Each fails the way Python's does.

A finite float is the rational number it denotes; no operation here computes with
floats.
-/

namespace Python

inductive PyFloat
  | finite (q : Rat)
  | inf
  | negInf
  | nan
  deriving DecidableEq

/-- A JSON value. The entries of a `dict` have distinct keys. -/
inductive Json
  | null
  | bool (b : Bool)
  | int (n : Int)
  | float (x : PyFloat)
  | str (t : Text)
  | list (xs : List Json)
  | dict (entries : List (Text × Json))

/-- The exceptions that matter: those of the built-in operations, those of the HTTP,
ABI and signature libraries, and a program's own `RuntimeError` and `ValueError` with
their messages. -/
inductive PyError
  | typeError
  | keyError
  | attributeError
  | overflowError
  | unicodeEncodeError
  | conversionError
  | httpError
  | encodingError
  | badSignature
  | valueError (message : String)
  | runtimeError (message : String)
  /-- a `RuntimeError` that quotes a value it was given -/
  | runtimeErrorWith (message : String) (value : Json)

/-- A computation that may raise. -/
abbrev Py := Except PyError

/-- `raise e` when `c` holds. -/
abbrev raiseIf (c : Prop) [Decidable c] (e : PyError) : Py Unit := Fallible.revertIf c e

/-- The result of an operation, or the exception it raises when it has none. -/
abbrev orRaise {α : Type} (e : PyError) (o : Option α) : Py α := Fallible.orRevert e o

/-! ## Dictionaries -/

section Dict

variable {κ α : Type} [DecidableEq κ]

def dictGet (key : κ) : List (κ × α) → Option α
  | [] => none
  | (k, v) :: rest => if k = key then some v else dictGet key rest

/-- `d[key] = value`: a new key goes to the end. -/
def dictSet (key : κ) (value : α) : List (κ × α) → List (κ × α)
  | [] => [(key, value)]
  | (k, v) :: rest => if k = key then (k, value) :: rest else (k, v) :: dictSet key value rest

variable {key : κ} {value : α} {d : List (κ × α)}

theorem mem_of_dictGet (h : dictGet key d = some value) : (key, value) ∈ d := by
  induction d with
  | nil => cases h
  | cons e rest ih =>
    obtain ⟨k, v⟩ := e
    rw [dictGet] at h
    split at h
    · rename_i hk
      obtain rfl : v = value := Option.some.inj h
      rw [hk]
      exact List.mem_cons_self
    · exact List.mem_cons_of_mem _ (ih h)

theorem mem_dictSet {e : κ × α} (h : e ∈ dictSet key value d) : e = (key, value) ∨ e ∈ d := by
  induction d with
  | nil => exact .inl (List.mem_singleton.mp h)
  | cons f rest ih =>
    obtain ⟨k, v⟩ := f
    rw [dictSet] at h
    split at h
    · rename_i hk
      rcases List.mem_cons.mp h with rfl | hrest
      · rw [hk]
        exact .inl rfl
      · exact .inr (List.mem_cons_of_mem _ hrest)
    · rcases List.mem_cons.mp h with rfl | hset
      · exact .inr List.mem_cons_self
      · exact (ih hset).imp_right (List.mem_cons_of_mem _)

/-- Every key stands once. -/
theorem nodup_dictSet (h : (d.map Prod.fst).Nodup) :
    ((dictSet key value d).map Prod.fst).Nodup := by
  induction d with
  | nil => exact List.nodup_cons.mpr ⟨List.not_mem_nil, List.nodup_nil⟩
  | cons e rest ih =>
    obtain ⟨k, v⟩ := e
    obtain ⟨hnew, hrest⟩ := List.nodup_cons.mp h
    rw [dictSet]
    split
    · exact h
    · rename_i hk
      refine List.nodup_cons.mpr ⟨?_, ih hrest⟩
      intro hmem
      obtain ⟨e, he, heq⟩ := List.mem_map.mp hmem
      rcases mem_dictSet he with rfl | hold
      · exact hk heq.symm
      · exact hnew (List.mem_map.mpr ⟨e, hold, heq⟩)

theorem dictGet_dictSet (k k' : κ) (v : α) (d : List (κ × α)) :
    dictGet k (dictSet k' v d) = if k' = k then some v else dictGet k d := by
  induction d with
  | nil => rfl
  | cons e rest ih =>
    obtain ⟨k'', v'⟩ := e
    simp only [dictSet]
    by_cases h : k'' = k'
    · rw [if_pos h, dictGet, dictGet, h]
      split <;> rfl
    · rw [if_neg h, dictGet, ih, dictGet]
      by_cases h' : k'' = k
      · rw [if_pos h', if_pos h', if_neg fun hk => h (h'.trans hk.symm)]
      · rw [if_neg h', if_neg h']

theorem dictGet_filter {q : κ → Bool} (k : κ) (d : List (κ × α)) :
    dictGet k (d.filter fun e => q e.1) = if q k then dictGet k d else none := by
  induction d with
  | nil => simp [dictGet]
  | cons e rest ih =>
    obtain ⟨k', v⟩ := e
    by_cases hq : q k'
    · rw [List.filter_cons_of_pos (by simpa using hq), dictGet, ih, dictGet]
      by_cases h : k' = k
      · rw [if_pos h, if_pos h, ← h, if_pos hq]
      · rw [if_neg h, if_neg h]
    · rw [List.filter_cons_of_neg (by simpa using hq), ih, dictGet]
      by_cases h : k' = k
      · rw [← h, if_neg hq, if_neg hq]
      · rw [if_neg h]

/-- Writing one value after another: the keys that were written have theirs. -/
theorem dictGet_update {f : κ → α} (k : κ) (keys : List κ) (d : List (κ × α)) :
    dictGet k ((keys.map fun n => (n, f n)).foldl (fun d e => dictSet e.1 e.2 d) d) =
      if k ∈ keys then some (f k) else dictGet k d := by
  induction keys generalizing d with
  | nil => rfl
  | cons n rest ih =>
    rw [List.map_cons, List.foldl_cons, ih, dictGet_dictSet]
    by_cases hrest : k ∈ rest
    · rw [if_pos hrest, if_pos (List.mem_cons_of_mem _ hrest)]
    · by_cases hn : n = k
      · rw [if_neg hrest, if_pos hn, hn, if_pos (List.mem_cons_self ..)]
      · rw [if_neg hrest, if_neg hn, if_neg]
        rintro (_ | ⟨_, h⟩)
        · exact hn rfl
        · exact hrest h

/-- Writing adds no key but the one written. -/
theorem forall_dictSet {P : κ → Prop} {k : κ} {v : α} {d : List (κ × α)} (hk : P k)
    (hd : ∀ e ∈ d, P e.1) : ∀ e ∈ dictSet k v d, P e.1 := by
  induction d with
  | nil => exact List.forall_mem_cons.mpr ⟨hk, List.forall_mem_nil _⟩
  | cons e rest ih =>
    obtain ⟨he, hrest⟩ := List.forall_mem_cons.mp hd
    simp only [dictSet]
    split
    · exact List.forall_mem_cons.mpr ⟨he, hrest⟩
    · exact List.forall_mem_cons.mpr ⟨he, ih hrest⟩

theorem forall_update {P : κ → Prop} {new d : List (κ × α)} (hnew : ∀ e ∈ new, P e.1)
    (hd : ∀ e ∈ d, P e.1) : ∀ e ∈ new.foldl (fun d e => dictSet e.1 e.2 d) d, P e.1 := by
  induction new generalizing d with
  | nil => exact hd
  | cons e rest ih =>
    obtain ⟨he, hrest⟩ := List.forall_mem_cons.mp hnew
    exact ih hrest (forall_dictSet he hd)

theorem dictGet_of_mem (hnodup : (d.map Prod.fst).Nodup) (h : (key, value) ∈ d) :
    dictGet key d = some value := by
  induction d with
  | nil => cases h
  | cons e rest ih =>
    obtain ⟨k, v⟩ := e
    obtain ⟨hnew, hrest⟩ := List.nodup_cons.mp hnodup
    rw [dictGet]
    rcases List.mem_cons.mp h with heq | hmem
    · obtain ⟨rfl, rfl⟩ := Prod.mk.inj heq
      exact if_pos rfl
    · rw [if_neg, ih hrest hmem]
      rintro rfl
      exact hnew (List.mem_map.mpr ⟨_, hmem, rfl⟩)

end Dict

namespace Json

/-! ## Access -/

/-- `value[key]`. -/
def subscript (key : String) : Json → Py Json
  | .dict entries => orRaise .keyError (dictGet (text key) entries)
  | _ => .error .typeError

/-- `value.get(key, default)`. -/
def get (value : Json) (key : String) (default : Json) : Py Json :=
  match value with
  | .dict entries => .ok ((dictGet (text key) entries).getD default)
  | _ => .error .attributeError

/-- `key in value`, for a text `key`. -/
def contains (key : String) : Json → Py Bool
  | .dict entries => .ok (dictGet (text key) entries).isSome
  -- an element equal to the text; only another text can be
  | .list xs => .ok (xs.any fun x => match x with | .str t => t = text key | _ => false)
  -- a substring is a prefix of some tail
  | .str t => .ok (t.tails.any fun tail => (text key).isPrefixOf tail)
  | _ => .error .typeError

/-! ## Conversion -/

def truthy : Json → Bool
  | .null => false
  | .bool b => b
  | .int n => n ≠ 0
  | .float (.finite q) => q ≠ 0
  | .float _ => true
  | .str t => t ≠ []
  | .list xs => !xs.isEmpty
  | .dict entries => !entries.isEmpty

/-- `int(value)`. -/
def toInt (u : Unicode) : Json → Py Int
  | .bool b => .ok (if b then 1 else 0)
  | .int n => .ok n
  -- towards zero
  | .float (.finite q) => .ok (if 0 ≤ q then q.floor else -(-q).floor)
  -- a NaN is a `ValueError`, an infinity an `OverflowError`
  | .float .nan => .error .conversionError
  | .float _ => .error .overflowError
  | .str t => orRaise .conversionError (intOfText u t)
  | _ => .error .typeError

/-- `str(value)`, where `repr` is the form of what is not a text. -/
def toStr (repr : Json → Text) : Json → Text
  | .str t => t
  | v => repr v

/-- `value.lower()`. -/
def toLower (u : Unicode) : Json → Py Text
  | .str t => .ok (lower u t)
  | _ => .error .attributeError

theorem toLower_ok {u : Unicode} {v : Json} {t : Text} :
    v.toLower u = .ok t ↔ ∃ s, v = .str s ∧ t = lower u s := by
  cases v <;> simp [toLower, eq_comm]

/-- `value.encode("utf-8")`. -/
def encodeUtf8 : Json → Py (List UInt8)
  | .str t => orRaise .unicodeEncodeError (utf8 t)
  | _ => .error .attributeError

/-! ## Comparison -/

/-- The number a value is compared as; `bool` is a kind of `int`. -/
def number : Json → Option PyFloat
  | .bool b => some (.finite (if b then 1 else 0))
  | .int n => some (.finite n)
  | .float x => some x
  | _ => none

end Json

/-- `x > y` for numbers. -/
def PyFloat.gt : PyFloat → PyFloat → Bool
  | .finite p, .finite q => q < p
  | .finite _, .negInf => true
  | .inf, .finite _ => true
  | .inf, .negInf => true
  | _, _ => false

/-- `s > t` for texts, by code points. -/
def textGt : Text → Text → Bool
  | [], _ => false
  -- a text is greater than its proper prefixes
  | _ :: _, [] => true
  | c :: s, d :: t => if c = d then textGt s t else d < c

namespace Json

mutual

/-- Two values are one object, or equal, which is what comparing containers looks
at. -/
def same : Json → Json → Bool
  | .null, b => match b with
    | .null => true
    | _ => false
  | .str s, b => match b with
    | .str t => s = t
    | _ => false
  | .list xs, b => match b with
    | .list ys => sameList xs ys
    | _ => false
  | .dict xs, b => match b with
    | .dict ys => xs.length = ys.length && sameEntries xs ys
    | _ => false
  | .bool a, b => number b = some (.finite (if a then 1 else 0))
  | .int n, b => number b = some (.finite n)
  -- `json.loads` gives one NaN object, so a NaN found twice is the same
  | .float x, b => number b = some x

def sameList : List Json → List Json → Bool
  | [], ys => ys.isEmpty
  | _ :: _, [] => false
  | x :: xs, y :: ys => same x y && sameList xs ys

/-- Every entry of the first `dict` is one of the second. -/
def sameEntries : List (Text × Json) → List (Text × Json) → Bool
  | [], _ => true
  | (k, v) :: rest, ys =>
    (match dictGet k ys with
      | some w => same v w
      | none => false) && sameEntries rest ys

end

mutual

/-- `a > b`. -/
def gt : Json → Json → Py Bool
  | .str s, b => match b with
    | .str t => .ok (textGt s t)
    | _ => .error .typeError
  | .list xs, b => match b with
    | .list ys => gtList xs ys
    | _ => .error .typeError
  | .bool a, b => match number b with
    | some y => .ok (PyFloat.gt (.finite (if a then 1 else 0)) y)
    | none => .error .typeError
  | .int n, b => match number b with
    | some y => .ok (PyFloat.gt (.finite n) y)
    | none => .error .typeError
  | .float x, b => match number b with
    | some y => .ok (PyFloat.gt x y)
    | none => .error .typeError
  | _, _ => .error .typeError

/-- Lists compare at the first place where they differ. -/
def gtList : List Json → List Json → Py Bool
  | [], _ => .ok false
  | _ :: _, [] => .ok true
  | x :: xs, y :: ys => if same x y then gtList xs ys else gt x y

end

/-- `a == b`: a NaN equals nothing. -/
def eq (a b : Json) : Bool :=
  match a with
  | .float .nan => false
  | _ => same a b

/-- Whether a value can be a dictionary key. -/
def hashable : Json → Bool
  | .list _ => false
  | .dict _ => false
  | _ => true

/-- `max(x :: xs, key=key)` once `key x` is known: the first of the greatest. -/
def maxFrom (key : Json → Py Json) : List Json → Json → Json → Py Json
  | [], best, _ => .ok best
  | x :: xs, best, bestKey => do
    let k ← key x
    -- an equal key does not replace the best one so far
    if ← gt k bestKey then maxFrom key xs x k else maxFrom key xs best bestKey

/-- What iterating over a value gives. -/
def iterate : Json → Py (List Json)
  | .list xs => .ok xs
  | .str t => .ok (t.map fun c => .str [c])
  | .dict entries => .ok (entries.map fun e => .str e.1)
  | _ => .error .typeError

/-- `max(value, key=key)`. -/
def maxBy (key : Json → Py Json) (value : Json) : Py Json := do
  match ← iterate value with
  | [] => .error (.valueError "max() iterable argument is empty")
  | x :: xs => maxFrom key xs x (← key x)

end Json

end Python
