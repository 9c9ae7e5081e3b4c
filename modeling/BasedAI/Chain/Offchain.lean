import BasedAI.Chain.Codec

/-!
# BasedAI — what the Python services run on

The primitives and library calls the validator, the aggregator and the miner share,
and the byte strings the signature library accepts.
-/

namespace BasedAI

open Fallible Python ByteWords

/-- What the Python services run on. `recoverMessage` is `Account.recover_message`
on a digest, which need not refuse what the contract's recovery refuses; `repr` is
`str()` of what is not a text. -/
structure Offchain where
  crypto : Crypto
  unicode : Unicode
  repr : Json → Text
  recoverMessage : Bytes32 → Bytes → Option Address

/-- `HexBytes` of a text. -/
def hexBytes (t : Text) : Py Bytes :=
  let digits := remove0xPrefix t
  let even := if digits.length % 2 = 1 then text "0" ++ digits else digits
  orRaise .conversionError (unhexlify even)

/-- `HexBytes` of a value; an integer is written on as few bytes as it needs. -/
def signatureBytes : Json → Py Bytes
  | .str t => hexBytes t
  | .bool b => .ok [if b then 1 else 0]
  | .int n =>
    if 0 ≤ n then .ok (bigEndian (n.toNat.log2 / 8 + 1) n.toNat) else .error .conversionError
  | _ => .error .typeError

/-- Whether `except (KeyError, ValueError, TypeError)` catches the exception. -/
def malformed : PyError → Bool
  | .keyError | .typeError | .valueError _ | .conversionError | .unicodeEncodeError => true
  | _ => false

/-- Python over the toy primitives. -/
def toyOffchain : Offchain where
  crypto := toyCrypto
  unicode := { lower := id, digit := fun _ => none, isSpace := fun _ => false }
  repr _ := []
  recoverMessage := toyCrypto.recover

end BasedAI
