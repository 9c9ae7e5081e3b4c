import BasedAI.Chain.Offchain
import BasedAI.Lib.Replay
import Mathlib.Data.List.Nodup

/-!
# BasedAI — the gateway's index

`indexer.py`: who is a registered miner or validator of a Brain, from registry events, and
where the miners can be reached, from what they announce. A set is a list without
repetitions here; in what order Python goes through one is left open, so nothing may
depend on the order of a list.

* `replace_miner`, `replace_validator` — a rebuilt membership is the replay of the events;
* `replace_endpoints`                  — what the rebuild does to the endpoints.
-/

namespace BasedAI

open Python Replay

namespace Gateway

/-! ## Events -/

/-- The events of the registry that change membership. -/
inductive EventName
  | minerRegistered
  | minerDeregistered
  | validatorRegistered
  | validatorDeregistered
  deriving DecidableEq

/-- A membership event as the poller keeps it. -/
structure Event where
  name : EventName
  brainId : Int
  address : Text
  blockNumber : Nat
  logIndex : Nat
  deriving DecidableEq

/-! ## The index -/

/-- What a miner announced, with its score. -/
structure Endpoint where
  url : Text
  score : PyFloat
  ts : Int

/-- A Brain and an address in lower case. -/
abbrev MemberKey := Int × Text

structure MemberIndex where
  miners : Int → List Text
  validators : Int → List Text
  endpoints : MemberKey → Option Endpoint
  ttl : Int

/-- One entry of `miners()`. -/
structure MinerEntry where
  address : Text
  url : Text
  score : PyFloat

/-- `set.add`. -/
def addMember (t : Text) (s : List Text) : List Text := if t ∈ s then s else s ++ [t]

/-- `set.discard`. -/
def discard (t : Text) (s : List Text) : List Text := s.filter (· ≠ t)

namespace MemberIndex

variable (u : Unicode)

/-- `apply_event`. -/
def applyEvent (idx : MemberIndex) (e : Event) : MemberIndex :=
  let addr := lower u e.address
  match e.name with
  | .minerRegistered =>
    { idx with miners :=
        Function.update idx.miners e.brainId (addMember addr (idx.miners e.brainId)) }
  | .minerDeregistered =>
    { idx with
      miners := Function.update idx.miners e.brainId (discard addr (idx.miners e.brainId))
      endpoints := Function.update idx.endpoints (e.brainId, addr) none }
  | .validatorRegistered =>
    { idx with validators :=
        Function.update idx.validators e.brainId (addMember addr (idx.validators e.brainId)) }
  | .validatorDeregistered =>
    { idx with validators :=
        Function.update idx.validators e.brainId (discard addr (idx.validators e.brainId)) }

/-- `replace_membership`. -/
def replaceMembership (idx : MemberIndex) (events : List Event) : MemberIndex :=
  events.foldl (applyEvent u) { idx with miners := fun _ => [], validators := fun _ => [] }

/-- `is_miner`. -/
def isMiner (idx : MemberIndex) (brainId : Int) (address : Text) : Bool :=
  lower u address ∈ idx.miners brainId

/-- `is_validator`. -/
def isValidator (idx : MemberIndex) (brainId : Int) (address : Text) : Bool :=
  lower u address ∈ idx.validators brainId

/-- `announce`. -/
def announce (idx : MemberIndex) (brainId : Int) (address url : Text) (ts : Int) :
    MemberIndex :=
  { idx with endpoints :=
      Function.update idx.endpoints (brainId, lower u address) (some ⟨url, .finite 0, ts⟩) }

/-- `set_score`. -/
def setScore (idx : MemberIndex) (brainId : Int) (address : Text) (score : PyFloat) :
    MemberIndex :=
  let key := (brainId, lower u address)
  match idx.endpoints key with
  | some ep =>
    { idx with endpoints := Function.update idx.endpoints key (some { ep with score := score }) }
  | none => idx

/-- Whether an announcement is too old to be listed. -/
def stale (idx : MemberIndex) (now : Option Int) (ep : Endpoint) : Bool :=
  match now with
  | some now => idx.ttl ≠ 0 ∧ idx.ttl < now - ep.ts
  | none => false

/-- The entry of a registered miner, if it has one. -/
def entry (idx : MemberIndex) (brainId : Int) (now : Option Int) (addr : Text) :
    Option MinerEntry :=
  match idx.endpoints (brainId, addr) with
  | none => none
  | some ep => if idx.stale now ep then none else some ⟨addr, ep.url, ep.score⟩

/-- `miners`: the highest score first. -/
def listMiners (idx : MemberIndex) (brainId : Int) (now : Option Int) : List MinerEntry :=
  ((idx.miners brainId).filterMap (idx.entry brainId now)).mergeSort
    fun m m' => !PyFloat.gt m'.score m.score

/-- `endpoint_of`. -/
def endpointOf (idx : MemberIndex) (brainId : Int) (address : Text) : Option Text :=
  (idx.endpoints (brainId, lower u address)).map (·.url)

end MemberIndex

/-! ## Sets -/

@[simp] theorem mem_addMember {t v : Text} {s : List Text} :
    v ∈ addMember t s ↔ v = t ∨ v ∈ s := by
  unfold addMember
  split
  · constructor
    · exact .inr
    · rintro (rfl | h)
      · assumption
      · exact h
  · rw [List.mem_append, List.mem_singleton, or_comm]

@[simp] theorem mem_discard {t v : Text} {s : List Text} :
    v ∈ discard t s ↔ v ∈ s ∧ v ≠ t := by
  rw [discard, List.mem_filter, decide_eq_true_eq]

/-! ## What events say -/

/-- What an event says about the miners. -/
def minerChange (u : Unicode) (e : Event) : Option (MemberKey × Bool) :=
  match e.name with
  | .minerRegistered => some ((e.brainId, lower u e.address), true)
  | .minerDeregistered => some ((e.brainId, lower u e.address), false)
  | _ => none

/-- What an event says about the validators. -/
def validatorChange (u : Unicode) (e : Event) : Option (MemberKey × Bool) :=
  match e.name with
  | .validatorRegistered => some ((e.brainId, lower u e.address), true)
  | .validatorDeregistered => some ((e.brainId, lower u e.address), false)
  | _ => none

/-- A history as far as the miners go. -/
def minerChanges (u : Unicode) (events : List Event) : List (MemberKey × Bool) :=
  events.filterMap (minerChange u)

/-- A history as far as the validators go. -/
def validatorChanges (u : Unicode) (events : List Event) : List (MemberKey × Bool) :=
  events.filterMap (validatorChange u)

namespace MemberIndex

variable {u : Unicode} {idx : MemberIndex} {e : Event} {events : List Event}

/-- Who is a miner, as a table. -/
def minerFlags (idx : MemberIndex) (k : MemberKey) : Bool := k.2 ∈ idx.miners k.1

/-- Who is a validator, as a table. -/
def validatorFlags (idx : MemberIndex) (k : MemberKey) : Bool := k.2 ∈ idx.validators k.1

/-- Changing the set of one Brain changes one flag. -/
theorem flags_update {sets : Int → List Text} {b : Int} {t : Text} {s : List Text} {flag : Bool}
    (hs : ∀ v, decide (v ∈ s) = if v = t then flag else decide (v ∈ sets b)) (k : MemberKey) :
    decide (k.2 ∈ Function.update sets b s k.1) =
      Function.update (fun k : MemberKey => decide (k.2 ∈ sets k.1)) (b, t) flag k := by
  obtain ⟨b', t'⟩ := k
  by_cases hb : b' = b
  · subst hb
    rw [Function.update_self, hs t']
    by_cases ht : t' = t
    · subst ht
      rw [Function.update_self, if_pos rfl]
    · rw [Function.update_of_ne (fun h => ht (Prod.mk.inj h).2), if_neg ht]
  · rw [Function.update_of_ne hb, Function.update_of_ne (fun h => hb (Prod.mk.inj h).1)]

theorem decide_addMember (t : Text) (s : List Text) (v : Text) :
    decide (v ∈ addMember t s) = if v = t then true else decide (v ∈ s) := by
  by_cases h : v = t
  · simp [h]
  · simp [h]

theorem decide_discard (t : Text) (s : List Text) (v : Text) :
    decide (v ∈ discard t s) = if v = t then false else decide (v ∈ s) := by
  by_cases h : v = t
  · simp [h]
  · simp [h]

theorem minerFlags_applyEvent :
    (idx.applyEvent u e).minerFlags = replay idx.minerFlags (minerChange u e).toList := by
  funext k
  unfold applyEvent minerChange
  cases e.name with
  | minerRegistered => exact flags_update (decide_addMember _ _) k
  | minerDeregistered => exact flags_update (decide_discard _ _) k
  | validatorRegistered => rfl
  | validatorDeregistered => rfl

theorem validatorFlags_applyEvent :
    (idx.applyEvent u e).validatorFlags =
      replay idx.validatorFlags (validatorChange u e).toList := by
  funext k
  unfold applyEvent validatorChange
  cases e.name with
  | minerRegistered => rfl
  | minerDeregistered => rfl
  | validatorRegistered => exact flags_update (decide_addMember _ _) k
  | validatorDeregistered => exact flags_update (decide_discard _ _) k

/-- Applying events one by one replays them. -/
theorem flags_foldl {flags : MemberIndex → MemberKey → Bool}
    {change : Event → Option (MemberKey × Bool)}
    (hstep : ∀ (idx : MemberIndex) (e : Event),
      flags (idx.applyEvent u e) = replay (flags idx) (change e).toList)
    (events : List Event) (idx : MemberIndex) :
    flags (events.foldl (applyEvent u) idx) = replay (flags idx) (events.filterMap change) := by
  induction events generalizing idx with
  | nil => rfl
  | cons e rest ih =>
    rw [List.foldl_cons, ih, hstep, ← replay_append]
    congr 1
    cases h : change e with
    | none => rw [List.filterMap_cons_none h]; rfl
    | some c => rw [List.filterMap_cons_some h]; rfl

/-- **A rebuilt membership is the replay of the events**, whatever was there before. -/
theorem replace_miner (idx : MemberIndex) (events : List Event) :
    (idx.replaceMembership u events).minerFlags =
      replay (fun _ => false) (minerChanges u events) :=
  flags_foldl (fun _ _ => minerFlags_applyEvent) events _

theorem replace_validator (idx : MemberIndex) (events : List Event) :
    (idx.replaceMembership u events).validatorFlags =
      replay (fun _ => false) (validatorChanges u events) :=
  flags_foldl (fun _ _ => validatorFlags_applyEvent) events _

theorem isMiner_eq (idx : MemberIndex) (b : Int) (t : Text) :
    idx.isMiner u b t = idx.minerFlags (b, lower u t) := rfl

theorem isValidator_eq (idx : MemberIndex) (b : Int) (t : Text) :
    idx.isValidator u b t = idx.validatorFlags (b, lower u t) := rfl

theorem endpoints_applyEvent (k : MemberKey) :
    (idx.applyEvent u e).endpoints k =
      if minerChange u e = some (k, false) then none else idx.endpoints k := by
  unfold applyEvent minerChange
  cases e.name with
  | minerRegistered => simp
  | minerDeregistered =>
    by_cases hk : (e.brainId, lower u e.address) = k
    · subst hk
      simp
    · simp [hk, Function.update_of_ne (Ne.symm hk)]
  | validatorRegistered => simp
  | validatorDeregistered => simp

/-- **A rebuild drops the endpoint of everybody the history ever deregistered.** -/
theorem replace_endpoints (idx : MemberIndex) (events : List Event) (k : MemberKey) :
    (idx.replaceMembership u events).endpoints k =
      if (k, false) ∈ minerChanges u events then none else idx.endpoints k := by
  unfold replaceMembership
  -- along the history, for whatever index it starts on
  have hfold : ∀ (events : List Event) (idx : MemberIndex),
      (events.foldl (applyEvent u) idx).endpoints k =
        if (k, false) ∈ minerChanges u events then none else idx.endpoints k := by
    intro events
    induction events with
    | nil => exact fun idx => (if_neg (List.not_mem_nil)).symm
    | cons e rest ih =>
      intro idx
      have hmem : (k, false) ∈ minerChanges u (e :: rest) ↔
          minerChange u e = some (k, false) ∨ (k, false) ∈ minerChanges u rest := by
        simp [minerChanges, List.mem_filterMap]
      rw [List.foldl_cons, ih, endpoints_applyEvent]
      by_cases hrest : (k, false) ∈ minerChanges u rest
      · rw [if_pos hrest, if_pos (hmem.mpr (.inr hrest))]
      · by_cases he : minerChange u e = some (k, false)
        · rw [if_neg hrest, if_pos he, if_pos (hmem.mpr (.inl he))]
        · rw [if_neg hrest, if_neg he, if_neg fun h => (hmem.mp h).elim he hrest]
  exact hfold events _

/-- A rebuild keeps the time to live. -/
@[simp] theorem replace_ttl (idx : MemberIndex) (events : List Event) :
    (idx.replaceMembership u events).ttl = idx.ttl := by
  unfold replaceMembership
  have hfold : ∀ (events : List Event) (idx : MemberIndex),
      (events.foldl (applyEvent u) idx).ttl = idx.ttl := by
    intro events
    induction events with
    | nil => exact fun _ => rfl
    | cons e rest ih =>
      intro idx
      rw [List.foldl_cons, ih]
      unfold applyEvent
      cases e.name <;> rfl
  exact hfold events _

/-! ## The listing -/

/-- An entry is a registered miner's fresh announcement. -/
theorem mem_listMiners {b : Int} {now : Option Int} {m : MinerEntry} :
    m ∈ idx.listMiners b now ↔ m.address ∈ idx.miners b ∧
      ∃ ep, idx.endpoints (b, m.address) = some ep ∧ idx.stale now ep = false ∧
        m.url = ep.url ∧ m.score = ep.score := by
  rw [listMiners, List.mem_mergeSort, List.mem_filterMap]
  constructor
  · rintro ⟨addr, haddr, hentry⟩
    -- an entry is made where there is an endpoint that is not stale
    unfold entry at hentry
    split at hentry
    · cases hentry
    · rename_i ep hep
      split at hentry
      · cases hentry
      · rename_i hfresh
        obtain rfl := Option.some.inj hentry
        exact ⟨haddr, ep, hep, Bool.not_eq_true _ ▸ hfresh, rfl, rfl⟩
  · rintro ⟨haddr, ep, hep, hfresh, hurl, hscore⟩
    refine ⟨m.address, haddr, ?_⟩
    unfold entry
    rw [hep]
    dsimp only
    rw [hfresh, ← hurl, ← hscore]
    rfl

end MemberIndex

end Gateway

end BasedAI
