import BasedAI.Lib.JsNumber
import Mathlib.Data.Nat.Digits.Lemmas
import Mathlib.Tactic.NormNum

/-!
# JavaScript values read from JSON

What `JSON.parse` makes of a text that Python's `json.dumps` wrote, and the other way
round; and the operations programs apply to such values: property access, `===`,
`BigInt()`, `.toLowerCase()`, `TextEncoder`. A text is its list of code points, with
lone surrogates among them.

What the standard leaves to tables, or spells out at a length that does not matter
here, is a parameter (`Engine`).

* `encodeText_eq`           — `TextEncoder` agrees with Python's UTF-8 where that exists;
* `intOfText_decimalText`   — Python's `int` reads what `bigint.toString` writes.
-/

namespace Js

open Python

/-- What a property of a value read from JSON can be. -/
inductive Value
  | undefined
  | null
  | bool (b : Bool)
  | number (x : Number)
  | str (t : Text)
  | array (xs : List Value)
  | object (entries : List (Text × Value))

/-- The errors of the language, and a program's own `Error` with its message. -/
inductive Thrown
  | typeError
  | rangeError
  | syntaxError
  /-- a rejected `fetch` -/
  | networkError
  /-- an error of a package -/
  | packageError
  | error (message : String)
  /-- an `Error` that quotes a text it was given -/
  | errorWith (message : String) (quoted : Text)

/-- A computation that may throw. -/
abbrev Eval := Except Thrown

/-- `if (c) throw e`. -/
abbrev throwIf (c : Prop) [Decidable c] (e : Thrown) : Eval Unit := Fallible.revertIf c e

/-- The result of an operation, or the error it throws when it has none. -/
abbrev orThrow {α : Type} (e : Thrown) (o : Option α) : Eval α := Fallible.orRevert e o

/-- The Unicode tables, `String(v)` and `Number(v)` for a `v` that is not a text, and what
`json.loads` reads where `JSON.stringify` wrote a number. -/
structure Engine where
  unicode : Unicode
  toText : Value → Option Text
  toNumber : Value → Option PyFloat
  numberJson : Number → Json

/-- An integer that `JSON.stringify` wrote reads back as the number it was: the double
nearest to what was read, which need not be that number itself. -/
def Engine.ReadsBack (engine : Engine) : Prop :=
  ∀ (x : Number) (n : Int), x.toInt = some n →
    (∃ k, engine.numberJson x = .int k ∧ Number.ofInt k = x) ∨
      engine.numberJson x = .float (.finite n)

/-! ## JSON -/

mutual

/-- `JSON.parse` of what `json.dumps` wrote; `none` is `SyntaxError`. Python writes
`NaN` and the infinities as words. -/
def parse : Json → Option Value
  | .null => some .null
  | .bool b => some (.bool b)
  | .int n => some (.number (.ofInt n))
  | .float (.finite q) =>
    if h : IsDouble (.finite q) then some (.number ⟨.finite q, h⟩) else none
  | .float _ => none
  | .str t => some (.str t)
  | .list xs => (parseList xs).map .array
  | .dict entries => (parseEntries entries).map .object

def parseList : List Json → Option (List Value)
  | [] => some []
  | x :: xs => do
    let v ← parse x
    let vs ← parseList xs
    return v :: vs

def parseEntries : List (Text × Json) → Option (List (Text × Value))
  | [] => some []
  | (k, x) :: rest => do
    let v ← parse x
    let entries ← parseEntries rest
    return (k, v) :: entries

end

section Engine

variable (engine : Engine)

mutual

/-- What `json.loads` reads where `JSON.stringify` wrote the value; `none` is a value it
leaves out. -/
def stringify : Value → Option Json
  | .undefined => none
  | .null => some .null
  | .bool b => some (.bool b)
  | .number x =>
    match x.value with
    | .finite _ => some (engine.numberJson x)
    | _ => some .null
  | .str t => some (.str t)
  | .array xs => some (.list (stringifyList xs))
  | .object entries => some (.dict (stringifyEntries entries))

def stringifyList : List Value → List Json
  | [] => []
  | v :: vs => (stringify v).getD .null :: stringifyList vs

def stringifyEntries : List (Text × Value) → List (Text × Json)
  | [] => []
  | (k, v) :: rest =>
    match stringify v with
    | some x => (k, x) :: stringifyEntries rest
    -- an undefined property is not written
    | none => stringifyEntries rest

end

namespace Value

/-! ## Access -/

/-- `value.key`, for a key that no prototype has. -/
def property (key : String) : Value → Eval Value
  | .undefined => .error .typeError
  | .null => .error .typeError
  | .object entries => .ok ((dictGet (text key) entries).getD .undefined)
  | _ => .ok .undefined

/-- `value ?? default`. -/
def orElse (value default : Value) : Value :=
  match value with
  | .undefined => default
  | .null => default
  | v => v

def truthy : Value → Bool
  | .undefined => false
  | .null => false
  | .bool b => b
  | .number x => x.value ≠ .finite 0 ∧ x.value ≠ .nan
  | .str t => t ≠ []
  | .array _ => true
  | .object _ => true

/-- `v === w`, where no object is reached from both sides. -/
def strictEq : Value → Value → Bool
  | .undefined, .undefined => true
  | .null, .null => true
  | .bool a, .bool b => a = b
  | .number x, .number y => x.strictEq y
  | .str s, .str t => s = t
  | _, _ => false

/-! ## Texts -/

/-- `value.toLowerCase()`. -/
def toLowerCase (u : Unicode) : Value → Eval Text
  | .str t => .ok (lower u t)
  | _ => .error .typeError

end Value

/-- `new TextEncoder().encode` of a text: a lone surrogate becomes U+FFFD. -/
def encodeText (t : Text) : List UInt8 :=
  t.flatMap fun c => (utf8Char c).getD [0xEF, 0xBF, 0xBD]

/-- `new TextEncoder().encode(value)`. -/
def encode : Value → Eval (List UInt8)
  | .undefined => .ok []
  | .str t => .ok (encodeText t)
  | v => (orThrow .typeError (engine.toText v)).map encodeText

/-! ## `BigInt` -/

/-- Digits of a base, at least one. -/
def digitsIn (base : Nat) (t : Text) : Option Nat := do
  let ds ← t.mapM hexDigit
  if ds ≠ [] ∧ ∀ d ∈ ds, d < base then some (ds.foldl (fun acc d => acc * base + d) 0)
  else none

/-- `BigInt` of a text; `none` is `SyntaxError`. -/
def bigIntOfText (u : Unicode) (t : Text) : Option Int :=
  match strip u t with
  | [] => some 0
  | [c] => (digitsIn 10 [c]).map Int.ofNat
  | c :: d :: rest =>
    -- no sign in front of another base
    if c.val = 0x30 ∧ (d.val = 0x78 ∨ d.val = 0x58) then (digitsIn 16 rest).map Int.ofNat
    else if c.val = 0x30 ∧ (d.val = 0x6F ∨ d.val = 0x4F) then (digitsIn 8 rest).map Int.ofNat
    else if c.val = 0x30 ∧ (d.val = 0x62 ∨ d.val = 0x42) then (digitsIn 2 rest).map Int.ofNat
    else
      let (sign, digits) := signSplit (c :: d :: rest)
      (digitsIn 10 digits).map fun n => sign * (n : Int)

/-- `BigInt(value)`. -/
def bigInt : Value → Eval Int
  | .undefined => .error .typeError
  | .null => .error .typeError
  | .bool b => .ok (if b then 1 else 0)
  | .number x => orThrow .rangeError x.toInt
  | .str t => orThrow .syntaxError (bigIntOfText engine.unicode t)
  | v => do
    let t ← orThrow .typeError (engine.toText v)
    orThrow .syntaxError (bigIntOfText engine.unicode t)

end Engine

/-- `TextEncoder` agrees with Python where Python encodes. -/
theorem encodeText_eq {t : Text} {bytes : List UInt8} (h : utf8 t = some bytes) :
    encodeText t = bytes := by
  induction t generalizing bytes with
  | nil => exact Option.some.inj h
  | cons c rest ih =>
    simp only [utf8, Option.bind_eq_bind, Option.bind_eq_some_iff, Option.pure_def,
      Option.some.injEq] at h
    obtain ⟨first, hfirst, tail, htail, rfl⟩ := h
    rw [encodeText, List.flatMap_cons, hfirst, Option.getD_some, ← encodeText, ih htail]

/-! ## Decimal texts -/

/-- The character of a decimal digit. -/
def digitChar (d : Nat) : CodePoint := Fin.ofNat _ (0x30 + d)

/-- The digits of `n`, the first one not zero unless it is the only one. -/
def decimals (n : Nat) : List Nat := if n = 0 then [0] else (Nat.digits 10 n).reverse

/-- `toString` of a `bigint`. -/
def decimalText (n : Int) : Text :=
  if n < 0 then text "-" ++ (decimals n.natAbs).map digitChar
  else (decimals n.natAbs).map digitChar

theorem val_digitChar {d : Nat} (h : d < 10) : (digitChar d).val = 0x30 + d := by
  show (0x30 + d) % 0x110000 = 0x30 + d
  omega

theorem decimals_lt {n d : Nat} (h : d ∈ decimals n) : d < 10 := by
  unfold decimals at h
  split at h
  · rw [List.mem_singleton.mp h]
    decide
  · exact Nat.digits_lt_base (by decide) (List.mem_reverse.mp h)

theorem decimals_ne_nil (n : Nat) : decimals n ≠ [] := by
  unfold decimals
  split
  · exact List.cons_ne_nil _ _
  · rename_i hn
    rw [Ne, List.reverse_eq_nil_iff, Nat.digits_eq_nil_iff_eq_zero]
    exact hn

theorem length_decimals_le {n k : Nat} (hk : 0 < k) (h : n < 10 ^ k) :
    (decimals n).length ≤ k := by
  unfold decimals
  split
  · exact hk
  · rw [List.length_reverse, Nat.digits_length_le_iff (by decide)]
    exact h

/-- The digits of a number, read from the left, are the number. -/
theorem foldl_decimals (n : Nat) : (decimals n).foldl (fun acc d => acc * 10 + d) 0 = n := by
  unfold decimals
  split
  · rename_i hn
    rw [hn]
    rfl
  · rw [List.foldl_reverse]
    calc (Nat.digits 10 n).foldr (fun d acc => acc * 10 + d) 0
        = (Nat.digits 10 n).foldr (fun d acc => d + 10 * acc) 0 := by
          congr 1
          funext d acc
          omega
      _ = Nat.ofDigits 10 (Nat.digits 10 n) := (Nat.ofDigits_eq_foldr 10 _).symm
      _ = n := Nat.ofDigits_digits 10 n

theorem decimalDigit_digitChar (u : Unicode) {d : Nat} (h : d < 10) :
    decimalDigit u (digitChar d) = some d := by
  unfold decimalDigit
  rw [val_digitChar h, if_pos (by omega), if_pos (by omega)]
  congr 1
  omega

theorem decimalDigits_map (u : Unicode) {ds : List Nat} (hne : ds ≠ [])
    (h : ∀ d ∈ ds, d < 10) : decimalDigits u (ds.map digitChar) = some ds := by
  match ds with
  | [] => exact absurd rfl hne
  | [d] =>
    have hd : d < 10 := h d (List.mem_cons_self ..)
    show (decimalDigit u (digitChar d)).map (fun d => [d]) = some [d]
    rw [decimalDigit_digitChar u hd]
    rfl
  | d :: d' :: rest =>
    have hd : d < 10 := h d (List.mem_cons_self ..)
    have hd' : d' < 10 := h d' (List.mem_cons_of_mem _ (List.mem_cons_self ..))
    have hrest : decimalDigits u ((d' :: rest).map digitChar) = some (d' :: rest) :=
      decimalDigits_map u (List.cons_ne_nil _ _) fun x hx => h x (List.mem_cons_of_mem _ hx)
    -- a digit is no underscore
    have hunder : (digitChar d').val ≠ 0x5F := by
      rw [val_digitChar hd']
      omega
    rw [List.map_cons] at hrest
    rw [List.map_cons, List.map_cons, decimalDigits, decimalDigit_digitChar u hd]
    simp only [if_neg hunder, hrest]
    rfl

theorem isSpace_digitChar (u : Unicode) {d : Nat} (h : d < 10) :
    isSpace u (digitChar d) = false := by
  have hval : (digitChar d).val = 0x30 + d := val_digitChar h
  rw [isSpace, hval, if_pos (by omega), isAsciiSpace, hval]
  exact decide_eq_false (by omega)

theorem dropWhile_of_none {p : CodePoint → Bool} {t : Text} (h : ∀ c ∈ t, p c = false) :
    t.dropWhile p = t := by
  cases t with
  | nil => rfl
  | cons c rest =>
    rw [List.dropWhile_cons, h c (List.mem_cons_self ..)]
    rfl

theorem strip_of_no_space {u : Unicode} {t : Text} (h : ∀ c ∈ t, isSpace u c = false) :
    strip u t = t := by
  unfold strip
  rw [dropWhile_of_none h,
    dropWhile_of_none fun c hc => h c (List.mem_reverse.mp hc), List.reverse_reverse]

theorem signSplit_map {ds : List Nat} (h : ∀ d ∈ ds, d < 10) :
    signSplit (ds.map digitChar) = (1, ds.map digitChar) := by
  cases ds with
  | nil => rfl
  | cons d rest =>
    have hval : (digitChar d).val = 0x30 + d := val_digitChar (h d (List.mem_cons_self ..))
    rw [List.map_cons, signSplit, if_neg (by omega), if_neg (by omega)]

/-- **Python reads what a `bigint` is written as**, unless it is too long for `int`. -/
theorem intOfText_decimalText (u : Unicode) (n : Nat) :
    intOfText u (decimalText n) =
      if MAX_STR_DIGITS < (decimals n).length then none else some (n : Int) := by
  have hwritten : decimalText n = (decimals n).map digitChar := by
    rw [decimalText, if_neg (by omega), Int.natAbs_natCast]
  have hspace : ∀ c ∈ (decimals n).map digitChar, isSpace u c = false := by
    intro c hc
    obtain ⟨d, hd, rfl⟩ := List.mem_map.mp hc
    exact isSpace_digitChar u (decimals_lt hd)
  rw [hwritten, intOfText, strip_of_no_space hspace, signSplit_map fun d hd => decimals_lt hd]
  dsimp only
  rw [decimalDigits_map u (decimals_ne_nil n) fun d hd => decimals_lt hd, Option.bind_eq_bind,
    Option.bind_some, foldl_decimals, Int.one_mul]
  rfl

/-- A word is short enough. -/
theorem intOfText_decimalText_word (u : Unicode) {n : Nat} (h : n < 2 ^ 256) :
    intOfText u (decimalText n) = some (n : Int) := by
  have hlen : (decimals n).length ≤ 78 := by
    apply length_decimals_le (by decide)
    exact h.trans_le (by norm_num)
  rw [intOfText_decimalText, if_neg]
  unfold MAX_STR_DIGITS
  omega

/-! ## Properties that are written -/

/-- A property of another name is not found under this one, written or not. -/
theorem dictGet_stringifyEntries_ne (engine : Engine) {k key : Text} (h : k ≠ key) (v : Value)
    (rest : List (Text × Value)) :
    dictGet key (stringifyEntries engine ((k, v) :: rest)) =
      dictGet key (stringifyEntries engine rest) := by
  rw [stringifyEntries]
  split
  · rw [dictGet, if_neg h]
  · rfl

/-- A text is found as it is. -/
theorem dictGet_stringifyEntries_str (engine : Engine) (key t : Text)
    (rest : List (Text × Value)) :
    dictGet key (stringifyEntries engine ((key, .str t) :: rest)) = some (.str t) := by
  rw [stringifyEntries, stringify]
  dsimp only
  rw [dictGet, if_pos rfl]

end Js
