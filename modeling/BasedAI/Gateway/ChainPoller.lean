import BasedAI.Gateway.Indexer
import BasedAI.Lib.JsValue

/-!
# BasedAI — the gateway's poller

`ChainPoller` and `CursorStore` of `server.py`: reading the registry's membership events
block by block, with the hash of every block read, and starting again from what was
saved. Any call of the node may raise; what a poll has done by then stays done.

Block numbers are naturals here. In the saved file the hashes are under the decimal texts
of the numbers, which are read back when the poller starts rather than when it polls.
-/

namespace BasedAI

open Fallible Python

namespace Gateway

/-! ## The node -/

/-- What a poll asks the node. -/
structure Rpc where
  blockNumber : Py Nat
  /-- `get_block(n)["hash"]` -/
  blockHash : Nat → Py Bytes32
  /-- `get_logs(from_block, to_block)` of one event, its entries decoded -/
  getLogs : EventName → Nat → Nat → Py (List Event)

/-! ## Events as texts -/

namespace EventName

/-- `_EVENTS`, in the order they are asked for. -/
def all : List EventName :=
  [minerRegistered, minerDeregistered, validatorRegistered, validatorDeregistered]

def toText : EventName → Text
  | minerRegistered => text "MinerRegistered"
  | minerDeregistered => text "MinerDeregistered"
  | validatorRegistered => text "ValidatorRegistered"
  | validatorDeregistered => text "ValidatorDeregistered"

def ofText (t : Text) : Option EventName := all.find? fun name => name.toText = t

end EventName

namespace Event

/-- The sorting key is the block and the place in it. -/
def le (a b : Event) : Bool :=
  a.blockNumber < b.blockNumber ∨ (a.blockNumber = b.blockNumber ∧ a.logIndex ≤ b.logIndex)

def toJson (e : Event) : Json :=
  .dict [
    (text "name", .str e.name.toText),
    (text "brain_id", .int e.brainId),
    (text "address", .str e.address),
    (text "block_number", .int e.blockNumber),
    (text "log_index", .int e.logIndex)]

/-- An event out of a saved file. -/
def ofJson (u : Unicode) (v : Json) : Py Event := do
  let name ← v.subscript "name"
  let brainId ← (← v.subscript "brain_id").toInt u
  let address ← v.subscript "address"
  let blockNumber ← (← v.subscript "block_number").toInt u
  let logIndex ← (← v.subscript "log_index").toInt u
  match name, address with
  | .str n, .str a =>
    let name ← orRaise .keyError (EventName.ofText n)
    return ⟨name, brainId, a, blockNumber.toNat, logIndex.toNat⟩
  | _, _ => .error .attributeError

end Event

/-! ## The poller -/

structure PollerConfig where
  unicode : Unicode
  startBlock : Nat
  confirmations : Nat
  reorgBuffer : Nat
  /-- whether there is a cursor file -/
  durable : Bool
  /-- seconds an endpoint stays fresh -/
  ttl : Int

structure Poller where
  index : MemberIndex
  events : List Event
  hashes : List (Nat × Text)
  nextBlock : Nat
  /-- what the cursor file holds -/
  file : Option Json

namespace CursorStore

/-- `save_state`. -/
def saveState (nextBlock : Nat) (events : List Event) (hashes : List (Nat × Text)) : Json :=
  .dict [
    (text "next_block", .int nextBlock),
    (text "events", .list (events.map Event.toJson)),
    (text "hashes", .dict (hashes.map fun h => (Js.decimalText h.1, .str h.2)))]

/-- The entries of the saved `hashes`. -/
def readHash (u : Unicode) (entry : Text × Json) : Py (Nat × Text) := do
  let n ← orRaise .conversionError (intOfText u entry.1)
  match entry.2 with
  | .str t => return (n.toNat, t)
  | _ => .error .typeError

/-- `load_state`: the cursor, the events and the hashes; nothing, if the file is no such
state. -/
def loadState (u : Unicode) (file : Option Json) :
    Option (Nat × List Json × List (Text × Json)) := do
  let state ← file
  let nextBlock ← (do (← state.subscript "next_block").toInt u : Py Int).toOption
  let events ← (do (← state.get "events" (.list [])).iterate : Py (List Json)).toOption
  match (state.get "hashes" (.dict [])).toOption with
  | some (.dict hashes) => some (nextBlock.toNat, events, hashes)
  | _ => none

end CursorStore

section Poll

variable (config : PollerConfig)

/-- An index nobody is in yet. -/
def MemberIndex.empty : MemberIndex where
  miners _ := []
  validators _ := []
  endpoints _ := none
  ttl := config.ttl

/-- `ChainPoller.__init__`, next to a new index. -/
def boot (file : Option Json) : Py Poller :=
  let index := MemberIndex.empty config
  match if config.durable then CursorStore.loadState config.unicode file else none with
  | none =>
    .ok {
      index := index.replaceMembership config.unicode []
      events := []
      hashes := []
      nextBlock := config.startBlock
      file := file }
  | some (nextBlock, events, hashes) => do
    let events ← events.mapM (Event.ofJson config.unicode)
    let hashes ← hashes.mapM (CursorStore.readHash config.unicode)
    return {
      index := index.replaceMembership config.unicode events
      events := events
      hashes := hashes
      nextBlock := nextBlock
      file := file }

variable (p : Poller) (rpc : Rpc)

/-- The walk back over stored hashes to a block that is still the same. What is one above
`probe` in the source is the argument here. -/
def walkBack (hashes : List (Nat × Text)) : Nat → Py Nat
  | 0 => .ok 0
  | n + 1 =>
    match dictGet n hashes with
    | none => .ok (n + 1)
    | some h => do
      let canonical ← rpc.blockHash n
      if hexText canonical = h then return n + 1 else walkBack hashes n

/-- The hashes of the blocks from `fromBlock` to `head`. -/
def canonicalHashes (fromBlock head : Nat) : Py (List (Nat × Text)) :=
  (List.range' fromBlock (head + 1 - fromBlock)).mapM fun n => do
    return (n, hexText (← rpc.blockHash n))

/-- What a poll is going to read again. -/
structure Rescan where
  fromBlock : Nat
  head : Nat
  hashes : List (Nat × Text)

/-- `poll_once` up to the log queries; nothing, if there is no new block. -/
def planRescan : Py (Option Rescan) := do
  let head : Int := ((← rpc.blockNumber : Nat) : Int) - config.confirmations
  if head < p.nextBlock then return none
  else
    let fromBlock ← walkBack rpc p.hashes (p.nextBlock - config.reorgBuffer)
    let hashes ← canonicalHashes rpc fromBlock head.toNat
    return some ⟨fromBlock, head.toNat, hashes⟩

/-- The events of some blocks, one query for each name, in the order of the chain. -/
def fetchLogs (fromBlock head : Nat) : Py (List Event) := do
  let found ← EventName.all.mapM fun name => rpc.getLogs name fromBlock head
  return found.flatten.mergeSort Event.le

/-- `poll_once`. -/
def pollOnce : Poller × Py Nat :=
  match planRescan config p rpc with
  | .error e => (p, .error e)
  | .ok none => (p, .ok 0)
  | .ok (some scan) =>
    -- the suffix is dropped before it is read again
    let kept := p.events.filter (fun e => e.blockNumber < scan.fromBlock)
    match fetchLogs rpc scan.fromBlock scan.head with
    | .error e => ({ p with events := kept }, .error e)
    | .ok applied =>
      let events := kept ++ applied
      let hashes := scan.hashes.foldl (fun d h => dictSet h.1 h.2 d)
        (p.hashes.filter fun h => h.1 < scan.fromBlock)
      ({
        index := p.index.replaceMembership config.unicode events
        events := events
        hashes := hashes
        nextBlock := scan.head + 1
        file :=
          if config.durable then some (CursorStore.saveState (scan.head + 1) events hashes)
          else p.file }, .ok applied.length)

end Poll

end Gateway

end BasedAI
