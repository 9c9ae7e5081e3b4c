import BasedAI.Gateway.ChainPoller
import BasedAI.Lib.LogMirror
import BasedAI.Lib.Transition
import BasedAI.Subnet.Membership

/-!
# BasedAI — the chain the gateway follows

A chain as far as the registry goes: the transactions of every block, the registry
between the blocks, and the events the transactions emit, each with its place in the
block. The node answers from one such chain.

* `members_replay` — the registry's membership is the replay of the events so far.
-/

namespace BasedAI

open Fallible Python Transition Mapping Replay LogMirror

/-! ## Events of the registry -/

/-- The membership event a call emits. -/
def RegistryCall.event : RegistryCall → Option (Gateway.EventName × BrainId)
  | .registerValidator b _ => some (.validatorRegistered, b)
  | .deregisterValidator b => some (.validatorDeregistered, b)
  | .registerMiner b _ => some (.minerRegistered, b)
  | .deregisterMiner b => some (.minerDeregistered, b)
  | _ => none

namespace Gateway

variable {T : Type} {env : RegistryEnv T} {crypto : Crypto}

/-- A transaction: a call of the registry that succeeded, with the index its event has in
the block, or anything else. -/
inductive RegistryTx
  | call (logIndex : Nat) (blk : Block) (caller : Address) (c : RegistryCall)
  | elsewhere

/-- What a transaction does. Nothing but its own calls writes the registry. -/
inductive RegistryStep (env : RegistryEnv T) :
    RegistryState T → RegistryTx → RegistryState T → Prop
  | call {s s' : RegistryState T} {i : Nat} {blk : Block} {caller : Address}
      {c : RegistryCall} (h : c.exec env blk caller s = .ok s') :
      RegistryStep env s (.call i blk caller c) s'
  | elsewhere {s s' : RegistryState T} (hsubnets : s'.subnets = s.subnets)
      (hmembers : s'.members = s.members) : RegistryStep env s .elsewhere s'

/-- The event of a transaction in block `n`, as it is decoded. -/
def RegistryTx.event (crypto : Crypto) (n : Nat) : RegistryTx → Option Event
  | .call i _ caller c => c.event.map fun (name, b) => ⟨name, b.val, toChecksum crypto caller, n, i⟩
  | .elsewhere => none

/-- The events of a block. -/
def blockEvents (crypto : Crypto) (n : Nat) (txs : List RegistryTx) : List Event :=
  txs.filterMap (RegistryTx.event crypto n)

/-! ## Chains -/

/-- A chain: block `n` leads from `states n` to `states (n + 1)`, and its events are in
the order of their indices. In the beginning nobody is a member. -/
structure RegistryChain (env : RegistryEnv T) (crypto : Crypto) where
  height : Nat
  /-- block numbers are words -/
  height_lt : height < 2 ^ 256
  hash : Nat → Bytes32
  txs : Nat → List RegistryTx
  states : Nat → RegistryState T
  genesis : (states 0).members = SubnetMembers.deploy
  executes : ∀ n, n ≤ height → Run (RegistryStep env) (states n) (txs n) (states (n + 1))
  ordered : ∀ n, (blockEvents crypto n (txs n)).Pairwise fun a b => a.logIndex < b.logIndex

namespace RegistryChain

/-- The chain as a log with hashes. -/
def log (c : RegistryChain env crypto) : Chain Text Event where
  height := c.height
  hash n := hexText (c.hash n)
  logs n := blockEvents crypto n (c.txs n)

/-- A node that is on this chain. -/
def rpc (c : RegistryChain env crypto) : Rpc where
  blockNumber := .ok c.height
  blockHash n := .ok (c.hash n)
  getLogs name fromBlock toBlock :=
    .ok ((c.log.scan fromBlock (toBlock + 1)).filter fun e => e.name = name)

/-- Equal hashes are hashes of equal chains. -/
def HashLinked (c d : RegistryChain env crypto) : Prop :=
  ∀ n, n ≤ c.height → n ≤ d.height → c.hash n = d.hash n →
    ∀ m, m ≤ n → c.hash m = d.hash m ∧ c.txs m = d.txs m

/-- Nothing happened to membership before block `n`. -/
def SilentBefore (c : RegistryChain env crypto) (n : Nat) : Prop :=
  ∀ m, m < n → c.log.logs m = []

end RegistryChain

section Log

variable {c d : RegistryChain env crypto}

theorem located_log (c : RegistryChain env crypto) : Located Event.blockNumber c.log := by
  intro n e he
  have hmem : e ∈ (c.txs n).filterMap (RegistryTx.event crypto n) := he
  obtain ⟨tx, -, htx⟩ := List.mem_filterMap.mp hmem
  cases tx with
  | elsewhere => cases htx
  | call i blk caller call =>
    simp only [RegistryTx.event, Option.map_eq_some_iff] at htx
    obtain ⟨_, -, rfl⟩ := htx
    rfl

theorem linked_log (h : c.HashLinked d) : Linked c.log d.log := by
  intro n hc hd hhash m hm
  obtain ⟨hhash', htxs⟩ := h n hc hd (hexText_inj hhash) m hm
  exact ⟨congrArg hexText hhash', congrArg (blockEvents crypto m) htxs⟩

/-- The log is in the order of the chain. -/
theorem sorted_scan (c : RegistryChain env crypto) (low high : Nat) :
    (c.log.scan low high).Pairwise fun a b =>
      a.blockNumber < b.blockNumber ∨
      (a.blockNumber = b.blockNumber ∧ a.logIndex < b.logIndex) := by
  unfold Chain.scan
  rw [List.pairwise_flatMap]
  constructor
  · intro n hn
    refine (c.ordered n).imp_of_mem ?_
    intro a b ha hb hlt
    exact .inr ⟨(located_log c n a ha).trans (located_log c n b hb).symm, hlt⟩
  · refine List.Pairwise.imp ?_ List.pairwise_lt_range'
    intro m n hlt a ha b hb
    rw [located_log c m a ha, located_log c n b hb]
    exact .inl hlt

end Log

/-! ## Membership is the replay of the events -/

/-- The registry's miners, as a table. -/
def minerTable (m : SubnetMembers) (k : BrainId × Address) : Bool := m.isMiner k.1 k.2

/-- The registry's validators, as a table. -/
def validatorTable (m : SubnetMembers) (k : BrainId × Address) : Bool := m.isValidator k.1 k.2

/-- What a transaction says about the miners. -/
def RegistryTx.minerChange : RegistryTx → Option ((BrainId × Address) × Bool)
  | .call _ _ caller (.registerMiner b _) => some ((b, caller), true)
  | .call _ _ caller (.deregisterMiner b) => some ((b, caller), false)
  | _ => none

/-- What a transaction says about the validators. -/
def RegistryTx.validatorChange : RegistryTx → Option ((BrainId × Address) × Bool)
  | .call _ _ caller (.registerValidator b _) => some ((b, caller), true)
  | .call _ _ caller (.deregisterValidator b) => some ((b, caller), false)
  | _ => none

/-- Whether an address is active in a roster, as a table. -/
def rosterTable (r : Roster) (k : BrainId × Address) : Bool := (r.info k.1 k.2).active

theorem rosterTable_set {r : Roster} {b : BrainId} {a : Address} {info : MemberInfo}
    {count : BrainId → Nat} :
    rosterTable ⟨set₂ r.info b a info, count⟩ =
      Function.update (rosterTable r) (b, a) info.active := by
  funext k
  obtain ⟨b', a'⟩ := k
  simp only [rosterTable, set₂_apply]
  by_cases h : b' = b ∧ a' = a
  · rw [if_pos h, h.1, h.2, Function.update_self]
  · rw [if_neg h, Function.update_of_ne fun heq => h (Prod.mk.inj heq)]
    rfl

theorem register_table {r r' : Roster} {capacity : Nat} {blk : Block} {b : BrainId} {a : Address}
    (h : r.register capacity blk b a = .ok r') :
    rosterTable r' = Function.update (rosterTable r) (b, a) true := by
  simp only [Roster.register, bind_ok, return_ok] at h
  obtain ⟨_, -, _, -, _, -, rfl⟩ := h
  exact rosterTable_set

theorem deregister_table {r r' : Roster} {b : BrainId} {a : Address}
    (h : r.deregister b a = .ok r') :
    rosterTable r' = Function.update (rosterTable r) (b, a) false := by
  simp only [Roster.deregister, bind_ok, return_ok] at h
  obtain ⟨_, -, _, -, rfl⟩ := h
  exact rosterTable_set

/-- Both tables of a registry after a transaction. -/
structure TablesAfter (tx : RegistryTx) (m m' : SubnetMembers) : Prop where
  miners : minerTable m' = replay (minerTable m) tx.minerChange.toList
  validators : validatorTable m' = replay (validatorTable m) tx.validatorChange.toList

theorem call_tables {s s' : RegistryState T} {i : Nat} {blk : Block} {caller : Address}
    {c : RegistryCall} (h : c.exec env blk caller s = .ok s') :
    TablesAfter (.call i blk caller c) s.members s'.members := by
  cases c with
  | registerValidator b maxFee =>
    simp only [RegistryCall.exec, SubnetRegistry.registerValidator, bind_ok] at h
    obtain ⟨_, -, validators, hregister, hfee⟩ := h
    obtain ⟨token, rfl, -⟩ := payFee_ok hfee
    exact ⟨rfl, register_table hregister⟩
  | deregisterValidator b =>
    simp only [RegistryCall.exec, SubnetRegistry.deregisterValidator, bind_ok, return_ok] at h
    obtain ⟨validators, hderegister, rfl⟩ := h
    exact ⟨rfl, deregister_table hderegister⟩
  | registerMiner b maxFee =>
    simp only [RegistryCall.exec, SubnetRegistry.registerMiner, bind_ok] at h
    obtain ⟨_, -, miners, hregister, hfee⟩ := h
    obtain ⟨token, rfl, -⟩ := payFee_ok hfee
    exact ⟨register_table hregister, rfl⟩
  | deregisterMiner b =>
    simp only [RegistryCall.exec, SubnetRegistry.deregisterMiner, bind_ok, return_ok] at h
    obtain ⟨miners, hderegister, rfl⟩ := h
    exact ⟨deregister_table hderegister, rfl⟩
  | _ =>
    -- a configured Brain has the members it had
    obtain ⟨b, subnet, rfl⟩ := configures_ok h rfl
    exact ⟨rfl, rfl⟩

theorem step_tables {s s' : RegistryState T} {tx : RegistryTx}
    (h : RegistryStep env s tx s') : TablesAfter tx s.members s'.members := by
  cases h with
  | call h => exact call_tables h
  | elsewhere hsubnets hmembers =>
    rw [hmembers]
    exact ⟨rfl, rfl⟩

/-- A block replays its transactions. -/
theorem run_tables {s s' : RegistryState T} {txs : List RegistryTx}
    (h : Run (RegistryStep env) s txs s') :
    minerTable s'.members = replay (minerTable s.members) (txs.filterMap RegistryTx.minerChange) ∧
    validatorTable s'.members =
      replay (validatorTable s.members) (txs.filterMap RegistryTx.validatorChange) := by
  have hcons : ∀ {flags : BrainId × Address → Bool} {tx : RegistryTx} {rest : List RegistryTx}
      (change : RegistryTx → Option ((BrainId × Address) × Bool)),
      replay flags ((tx :: rest).filterMap change) =
        replay (replay flags (change tx).toList) (rest.filterMap change) := by
    intro flags tx rest change
    rw [← replay_append]
    congr 1
    cases hchange : change tx with
    | none => rw [List.filterMap_cons_none hchange]; rfl
    | some k => rw [List.filterMap_cons_some hchange]; rfl
  -- along the block, a transaction at a time
  induction h with
  | nil s => exact ⟨rfl, rfl⟩
  | cons hstep _ ih =>
    obtain ⟨hminers, hvalidators⟩ := step_tables hstep
    rw [hcons, hcons, ← hminers, ← hvalidators]
    exact ih

/-- What the gateway calls a member. -/
def memberKey (u : Unicode) (crypto : Crypto) (k : BrainId × Address) : MemberKey :=
  ((k.1.val : Int), lower u (toChecksum crypto k.2))

theorem memberKey_injective (u : Unicode) (crypto : Crypto) :
    Function.Injective (memberKey u crypto) := by
  rintro ⟨b, a⟩ ⟨b', a'⟩ h
  obtain ⟨hb, ha⟩ := Prod.mk.inj h
  have hbrain : b = b' := Fin.ext (by exact_mod_cast hb)
  have haddress : a = a' :=
    hexAddress_eq_of_lower (hexAddress_toChecksum crypto a) (hexAddress_toChecksum crypto a') ha
  rw [hbrain, haddress]

/-- The events of a block say what its transactions say. -/
theorem changes_blockEvents (u : Unicode) (n : Nat) (txs : List RegistryTx) :
    minerChanges u (blockEvents crypto n txs) =
      (txs.filterMap RegistryTx.minerChange).map (fun c => (memberKey u crypto c.1, c.2)) ∧
    validatorChanges u (blockEvents crypto n txs) =
      (txs.filterMap RegistryTx.validatorChange).map (fun c => (memberKey u crypto c.1, c.2)) := by
  unfold minerChanges validatorChanges blockEvents
  simp only [List.filterMap_filterMap, List.map_filterMap]
  constructor
  · -- an event is written exactly where the table changes
    apply List.filterMap_congr
    intro tx _
    cases tx with
    | elsewhere => rfl
    | call i blk caller c => cases c <;> rfl
  · apply List.filterMap_congr
    intro tx _
    cases tx with
    | elsewhere => rfl
    | call i blk caller c => cases c <;> rfl

/-- **The membership of the registry is the replay of the log**, as the gateway reads the
log. -/
theorem members_replay (c : RegistryChain env crypto) (u : Unicode) {n : Nat}
    (hn : n ≤ c.height + 1) (b : BrainId) (a : Address) :
    (c.states n).members.isMiner b a =
        replay (fun _ => false) (minerChanges u (c.log.scan 0 n)) (memberKey u crypto (b, a)) ∧
      (c.states n).members.isValidator b a =
        replay (fun _ => false) (validatorChanges u (c.log.scan 0 n))
          (memberKey u crypto (b, a)) := by
  -- block by block
  have hblocks : ∀ n, n ≤ c.height + 1 → ∃ miners validators,
      minerChanges u (c.log.scan 0 n) =
        miners.map (fun k => (memberKey u crypto k.1, k.2)) ∧
      validatorChanges u (c.log.scan 0 n) =
        validators.map (fun k => (memberKey u crypto k.1, k.2)) ∧
      minerTable (c.states n).members = replay (fun _ => false) miners ∧
      validatorTable (c.states n).members = replay (fun _ => false) validators := by
    intro n
    induction n with
    | zero =>
      intro _
      refine ⟨[], [], by rw [scan_of_le le_rfl]; rfl, by rw [scan_of_le le_rfl]; rfl, ?_, ?_⟩
      · rw [c.genesis]
        rfl
      · rw [c.genesis]
        rfl
    | succ n ih =>
      intro hle
      obtain ⟨miners, validators, hminers, hvalidators, hm, hv⟩ := ih (by omega)
      obtain ⟨hm', hv'⟩ := run_tables (c.executes n (by omega))
      obtain ⟨hcm, hcv⟩ := @changes_blockEvents crypto u n (c.txs n)
      have hscan : c.log.scan 0 (n + 1) = c.log.scan 0 n ++ blockEvents crypto n (c.txs n) := by
        rw [← scan_append (Nat.zero_le n) (Nat.le_succ n)]
        congr 1
        have hone : n + 1 - n = 1 := by omega
        rw [Chain.scan, hone, List.range'_one, List.flatMap_singleton]
        rfl
      refine ⟨miners ++ (c.txs n).filterMap RegistryTx.minerChange,
        validators ++ (c.txs n).filterMap RegistryTx.validatorChange, ?_, ?_, ?_, ?_⟩
      · rw [hscan, minerChanges, List.filterMap_append, ← minerChanges, ← minerChanges, hminers,
          hcm, List.map_append]
      · rw [hscan, validatorChanges, List.filterMap_append, ← validatorChanges,
          ← validatorChanges, hvalidators, hcv, List.map_append]
      · rw [hm', hm, replay_append]
      · rw [hv', hv, replay_append]
  obtain ⟨miners, validators, hminers, hvalidators, hm, hv⟩ := hblocks n hn
  have hmap : ∀ changes, replay (fun _ => false)
      (changes.map fun k => (memberKey u crypto k.1, k.2)) (memberKey u crypto (b, a)) =
        replay (fun _ => false) changes (b, a) := by
    intro changes
    exact replay_map (memberKey_injective u crypto) changes rfl
  constructor
  · rw [hminers, hmap, ← hm]
    rfl
  · rw [hvalidators, hmap, ← hv]
    rfl

end Gateway

end BasedAI
