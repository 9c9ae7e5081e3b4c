import BasedAI.Gateway.Indexer
import BasedAI.Lib.JsNumber

/-!
# BasedAI — the gateway's routes

`server.py` and `announce.py`: announcements, the proxy to a miner, and score submissions.
A handler answers, or dials a miner, or Python raises and the server answers 500. What
the handlers call outside the gateway is part of `Gateway`: the guard on URLs, and the
view of the scoring contract that verifies a score.
-/

namespace BasedAI

open Fallible Python

namespace Gateway

def ANNOUNCE_MAX_AGE : Int := 600

/-- A status and a JSON body. -/
abbrev Response := Nat × Json

def errorResponse (status : Nat) (message : Text) : Response :=
  (status, .dict [(text "error", .str message)])

/-- Why a handler stops early. -/
inductive Stop
  | answered (r : Response)
  | raised (e : PyError)

abbrev Handler := Except Stop

def attempt {α : Type} (x : Py α) : Handler α := x.mapError .raised

/-- `try: x except (KeyError, ValueError, TypeError): return r`. -/
def attemptElse {α : Type} (x : Py α) (r : Response) : Handler α :=
  x.mapError fun e => if malformed e then .answered r else .raised e

/-- `if c: return r`. -/
abbrev answerIf (c : Prop) [Decidable c] (r : Response) : Handler Unit :=
  revertIf c (.answered r)

/-- Verify the score of a miner in an epoch, with its proof. -/
abbrev ScoreVerifier := Int → Int → Text → Int → List Json → Py Bool

/-- What `make_app` is given. -/
structure App extends Offchain where
  /-- why a URL must not be dialled, if there is a reason -/
  urlGuard : Text → Py (Option Text)
  verifyScore : Option ScoreVerifier
  maxInflight : Nat

variable (app : App)

/-! ## Announcements -/

/-- A miner's claim to be reachable at a URL. -/
structure Announcement where
  address : Text
  url : Text
  ts : Int

/-- Bytes and the zeros that fill up the last word. -/
def padWords (bytes : Bytes) : Bytes :=
  bytes ++ List.replicate ((32 - bytes.length % 32) % 32) 0

/-- What `announce_digest` hashes: the domain tag, the Brain, the URL and the moment. The
text stands behind the four words of the head. -/
def announcePreimage (crypto : Crypto) (brainId : Int) (url : Text) (ts : Int) : Py Bytes := do
  let tag := crypto.keccak256 (asciiBytes "BasedAI:MinerAnnounce:v1")
  let brain ← encodeUint 256 brainId
  let bytes ← orRaise .unicodeEncodeError (utf8 url)
  let moment ← encodeUint 256 ts
  return abiEncode [tag.val, brain.val, 128, moment.val] ++
    abiEncode [bytes.length] ++ padWords bytes

/-- `recover_announce`. -/
def recoverAnnounce (brainId : Int) (url : Text) (ts : Int) (signature : Json) : Py Text := do
  let preimage ← announcePreimage app.crypto brainId url ts
  let bytes ← signatureBytes signature
  let signer ← orRaise .badSignature
    (app.recoverMessage (app.crypto.messageDigest preimage) bytes)
  return toChecksum app.crypto signer

/-- The fields of an announcement and its signature. -/
def readAnnouncement (body : Json) : Py (Announcement × Json) := do
  let address ← toChecksumAddress app.crypto (← body.subscript "address")
  let url := (← body.subscript "url").toStr app.repr
  let ts ← (← body.subscript "ts").toInt app.unicode
  let signature ← body.subscript "signature"
  return (⟨address, url, ts⟩, signature)

/-- `announce` up to the index: the announcement, if it is accepted. -/
def admitAnnounce (idx : MemberIndex) (brainId now : Int) (body : Json) :
    Handler Announcement := do
  let (a, signature) ← attemptElse (readAnnouncement app body)
    (errorResponse 400 (text "malformed announce"))
  answerIf (ANNOUNCE_MAX_AGE < |now - a.ts|)
    (errorResponse 400 (text "stale announce timestamp"))
  match ← attempt (app.urlGuard a.url) with
  | some reason => .error (.answered (errorResponse 400 (text "invalid url: " ++ reason)))
  | none =>
    let recovered ← (recoverAnnounce app brainId a.url a.ts signature).mapError fun _ =>
      Stop.answered (errorResponse 400 (text "bad signature"))
    answerIf (lower app.unicode recovered ≠ lower app.unicode a.address)
      (errorResponse 401 (text "signature does not match address"))
    answerIf (idx.isMiner app.unicode brainId a.address = false)
      (errorResponse 403 (text "not a registered miner"))
    return a

/-- `announce`. -/
def announce (idx : MemberIndex) (brainId now : Int) (body : Json) : MemberIndex :=
  match admitAnnounce app idx brainId now body with
  | .error _ => idx
  | .ok a => idx.announce app.unicode brainId a.address a.url a.ts

/-! ## The proxy -/

/-- The two requests that are passed on. -/
inductive Path
  | infer
  | settle
  deriving DecidableEq

/-- What the proxy does with a request. -/
inductive Forward
  | answer (r : Response)
  | raised (e : PyError)
  | dial (url : Text) (path : Path) (body : Json)

/-- The endpoint of the miner the body names, if it names one. -/
def targetEndpoint (idx : MemberIndex) (brainId : Int) (body : Json) : Py (Option Text) := do
  match ← body.get "target_miner" .null with
  | .str t => return if t = [] then none else idx.endpointOf app.unicode brainId t
  | v => if v.truthy then .error .attributeError else return none

/-- The URL to dial. -/
def targetUrl (idx : MemberIndex) (brainId now : Int) (body : Json) : Handler Text := do
  match ← attempt (targetEndpoint app idx brainId body) with
  | some url => return url
  | none =>
    match idx.listMiners brainId (some now) with
    | [] => .error (.answered (errorResponse 503
        (text s!"no miners available for brain {brainId}")))
    -- best-scored
    | best :: _ => return best.url

/-- `_proxy_to_target` up to the call of the miner. -/
def admitForward (idx : MemberIndex) (inflight : Nat) (brainId now : Int) (body : Json) :
    Handler Text := do
  let url ← targetUrl app idx brainId now body
  match ← attempt (app.urlGuard url) with
  | some reason => .error (.answered (errorResponse 502 (text "miner url blocked: " ++ reason)))
  | none =>
    answerIf (app.maxInflight ≤ inflight) (errorResponse 503 (text "gateway at capacity"))
    return url

/-- `_proxy_to_target`. -/
def proxyToTarget (idx : MemberIndex) (inflight : Nat) (brainId now : Int) (path : Path)
    (body : Json) : Forward :=
  match admitForward app idx inflight brainId now body with
  | .ok url => .dial url path body
  | .error (.answered r) => .answer r
  | .error (.raised e) => .raised e

/-! ## Scores -/

/-- `float(n)`. -/
def floatOfInt (n : Int) : Py PyFloat :=
  if (Js.roundInt n).natAbs < 2 ^ 1024 then .ok (.finite (Js.roundInt n))
  else .error .overflowError

/-- A score that was verified for an epoch. -/
structure VerifiedScore where
  epoch : Int
  miner : Text
  score : Int
  value : PyFloat

/-- An entry of a submission: the miner, the score and the proof. -/
def readScore (e : Json) : Py (Text × Int × List Json) := do
  let miner ← toChecksumAddress app.crypto (← e.subscript "miner")
  let score ← (← e.subscript "score").toInt app.unicode
  let proof ← (← e.get "proof" (.list [])).iterate
  return (miner, score, proof)

/-- One turn of the loop over the entries. What is malformed is skipped. -/
def verifyEntry (verify : ScoreVerifier) (epoch brainId : Int) (e : Json) :
    Py (Option VerifiedScore) :=
  match readScore app e with
  | .error err => if malformed err then .ok none else .error err
  | .ok (miner, score, proof) => do
    if ← verify epoch brainId miner score proof then
      return some ⟨epoch, miner, score, ← floatOfInt score⟩
    else return none

/-- The loop over the entries: those that verify, up to one that raises. -/
def verifiedScores (verify : ScoreVerifier) (epoch brainId : Int) :
    List Json → List VerifiedScore × Option PyError
  | [] => ([], none)
  | e :: rest =>
    match verifyEntry app verify epoch brainId e with
    | .error err => ([], some err)
    | .ok none => verifiedScores verify epoch brainId rest
    | .ok (some v) =>
      let (scores, stop) := verifiedScores verify epoch brainId rest
      (v :: scores, stop)

/-- The epoch and the entries of a submission. -/
def readSubmission (body : Json) : Py (Int × Json) := do
  let epoch ← (← body.subscript "epoch").toInt app.unicode
  let entries ← body.subscript "entries"
  return (epoch, entries)

/-- The scores a submission brings. -/
def submittedScores (brainId : Int) (body : Json) : List VerifiedScore :=
  match app.verifyScore, readSubmission app body with
  | some verify, .ok (epoch, entries) =>
    match entries.iterate with
    | .ok es => (verifiedScores app verify epoch brainId es).1
    | .error _ => []
  | _, _ => []

/-- `submit_scores`. -/
def submitScores (idx : MemberIndex) (brainId : Int) (body : Json) : MemberIndex :=
  (submittedScores app brainId body).foldl
    (fun idx v => idx.setScore app.unicode brainId v.miner v.value) idx

/-- What `submit_scores` answers. -/
def submitReply (brainId : Int) (body : Json) : Handler Response := do
  match app.verifyScore with
  | none => return errorResponse 503 (text "scoring not configured")
  | some verify =>
    let (epoch, entries) ← attemptElse (readSubmission app body)
      (errorResponse 400 (text "malformed scores"))
    let es ← attempt entries.iterate
    match verifiedScores app verify epoch brainId es with
    | (_, some e) => .error (.raised e)
    | (scores, none) =>
      return (200, .dict [(text "ok", .bool true), (text "applied", .int scores.length)])

end Gateway

end BasedAI
