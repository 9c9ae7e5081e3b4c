import BasedAI.Gateway.MembershipMirror

/-!
# BasedAI — what a rebuild does to the endpoints

Every poll replays the whole history through `apply_event`, which drops the endpoint of a
miner at each of its deregistrations. So a miner that left and came back loses what it
announced at every poll. Besides, a poll takes those off the list whose registration is no
longer among its events: where an earlier poll failed, that may be a registered miner.

* `replace_members`      — the rebuilt sets do not depend on what was there;
* `rebuilt_run`          — between polls that succeed the sets are the rebuilt ones;
* `quiet_poll`           — a poll without new events rebuilds the sets all the same;
* `rebuild_harmless_iff` — when a rebuild does no harm.
-/

namespace BasedAI

open Fallible Python Transition Replay

namespace Gateway

variable {u : Unicode} {idx : MemberIndex} {events : List Event}

/-- The rebuilt sets do not depend on what was there. -/
theorem replace_members (idx idx' : MemberIndex) (events : List Event) :
    (idx.replaceMembership u events).miners = (idx'.replaceMembership u events).miners := by
  have hfold : ∀ (events : List Event) (idx idx' : MemberIndex), idx.miners = idx'.miners →
      (events.foldl (MemberIndex.applyEvent u) idx).miners =
        (events.foldl (MemberIndex.applyEvent u) idx').miners := by
    intro events
    -- by induction on the history: an event looks at the sets of miners alone
    induction events with
    | nil => exact fun _ _ h => h
    | cons e rest ih =>
      intro idx idx' h
      rw [List.foldl_cons, List.foldl_cons]
      apply ih
      unfold MemberIndex.applyEvent
      cases e.name <;> simp only [h]
  exact hfold events _ _ rfl

/-! ## Sets between polls -/

/-- The sets of the poller are those its events give. -/
def Rebuilt (config : PollerConfig) (p : Poller) : Prop :=
  ∀ idx : MemberIndex, p.index.miners = (idx.replaceMembership config.unicode p.events).miners

section Runs

variable {T : Type} {env : RegistryEnv T} {crypto : Crypto} {app : App} {config : PollerConfig}
  {p p' : Poller}

/-- A restart that succeeds has rebuilt the sets. -/
theorem rebuilt_boot {file : Option Json} (h : boot config file = .ok p) :
    Rebuilt config p := by
  unfold boot at h
  dsimp only at h
  split at h
  · obtain rfl := Except.ok.inj h
    exact fun idx => replace_members _ idx []
  · simp only [bind_ok, return_ok] at h
    obtain ⟨events, -, hashes, -, rfl⟩ := h
    exact fun idx => replace_members _ idx events

/-- After a run in which every poll succeeded, the sets are the rebuilt ones. -/
theorem rebuilt_run {ls : List (GatewayEvent env crypto)} (h : Rebuilt config p)
    (hrun : Run (GatewayStep app config) p ls p') : Rebuilt config p' := by
  refine hrun.invariant ?_ h
  intro s l t hstep hs
  cases hstep with
  | poll c =>
    rw [pollOnce_chain]
    split
    · exact hs
    · exact fun idx => replace_members _ idx _
  | restart hboot => exact rebuilt_boot hboot
  | announce brainId now body =>
    intro idx
    exact (announce_members app s.index brainId now body).1.trans (hs idx)
  | scores brainId body =>
    intro idx
    exact (submitScores_members app s.index brainId body).1.trans (hs idx)

end Runs

/-! ## When a rebuild does no harm -/

/-- A rebuild drops an endpoint only where the last event of the miner is a
deregistration. -/
def KeepsEndpoints (u : Unicode) (idx : MemberIndex) (events : List Event) : Prop :=
  ∀ k, idx.endpoints k ≠ none → (idx.replaceMembership u events).endpoints k = none →
    lastFlag k (minerChanges u events) = some false

/-- Every Brain is listed with the same entries. Where nobody is twice in its set, that is the
same listing up to the order in which a set is iterated. -/
def SameListings (idx idx' : MemberIndex) : Prop :=
  ∀ brainId now, (∀ m, m ∈ idx'.listMiners brainId now ↔ m ∈ idx.listMiners brainId now) ∧
    ((idx.miners brainId).Nodup →
      (idx'.listMiners brainId now).Perm (idx.listMiners brainId now))

/-- A poll that brings no new events changes no listing, in whatever state of the poller. -/
def QuietPollsKeep (u : Unicode) (idx : MemberIndex) (events : List Event) : Prop :=
  ∀ (config : PollerConfig) (p : Poller) (rpc : Rpc), config.unicode = u → p.index = idx →
    p.events = events → (pollOnce config p rpc).1.events = events →
      SameListings idx (pollOnce config p rpc).1.index

/-- The miner has left the Brain and is back. -/
def Rejoined (u : Unicode) (events : List Event) (k : MemberKey) : Prop :=
  (k, false) ∈ minerChanges u events ∧ lastFlag k (minerChanges u events) = some true

/-- The index has the miner just when its last event is a registration. -/
def Tracked (u : Unicode) (idx : MemberIndex) (events : List Event) (k : MemberKey) : Prop :=
  k.2 ∈ idx.miners k.1 ↔ lastFlag k (minerChanges u events) = some true

theorem keepsEndpoints_iff : KeepsEndpoints u idx events ↔
    ∀ k, idx.endpoints k ≠ none → ¬ Rejoined u events k := by
  constructor
  · rintro h k hk ⟨hleft, hback⟩
    have hdropped : (idx.replaceMembership u events).endpoints k = none := by
      rw [MemberIndex.replace_endpoints, if_pos hleft]
    rw [h k hk hdropped] at hback
    cases hback
  · intro h k hk hdropped
    rw [MemberIndex.replace_endpoints] at hdropped
    split at hdropped
    · rename_i hleft
      -- its last event is one or the other
      obtain ⟨flag, hlast⟩ := exists_lastFlag hleft
      cases flag with
      | false => exact hlast
      | true => exact absurd ⟨hleft, hlast⟩ (h k hk)
    · exact absurd hdropped hk

/-- After a rebuild every miner is tracked. -/
theorem tracked_replace (idx : MemberIndex) (k : MemberKey) :
    Tracked u (idx.replaceMembership u events) events k := by
  have hflag : decide (k.2 ∈ (idx.replaceMembership u events).miners k.1) =
      (lastFlag k (minerChanges u events)).getD false :=
    (congrFun (MemberIndex.replace_miner idx events) k).trans (replay_last _ _ k)
  unfold Tracked
  rw [← @decide_eq_true_iff (k.2 ∈ (idx.replaceMembership u events).miners k.1), hflag]
  cases lastFlag k (minerChanges u events) with
  | none => simp
  | some flag => simp

/-- A rebuild keeps the endpoint of a miner that is there and has not rejoined. -/
theorem replace_endpoint_kept {k : MemberKey} (h : ¬ Rejoined u events k)
    (hlast : lastFlag k (minerChanges u events) = some true) :
    (idx.replaceMembership u events).endpoints k = idx.endpoints k := by
  rw [MemberIndex.replace_endpoints, if_neg]
  exact fun hleft => h ⟨hleft, hlast⟩

/-! ## Listings of sets -/

theorem nodup_applyEvent (h : ∀ b, (idx.miners b).Nodup) (e : Event) (b : Int) :
    ((idx.applyEvent u e).miners b).Nodup := by
  have hadd : ∀ t b, (addMember t (idx.miners b)).Nodup := by
    intro t b
    unfold addMember
    split
    · exact h b
    · rename_i hnew
      exact List.nodup_append_comm.mp (List.nodup_cons.mpr ⟨hnew, h b⟩)
  unfold MemberIndex.applyEvent
  cases e.name with
  | minerRegistered =>
    dsimp only
    rw [Function.update_apply]
    split
    · exact hadd _ _
    · exact h b
  | minerDeregistered =>
    dsimp only
    rw [Function.update_apply]
    split
    · exact (h _).filter _
    · exact h b
  | validatorRegistered => exact h b
  | validatorDeregistered => exact h b

/-- A rebuilt set has nobody twice. -/
theorem nodup_replace (idx : MemberIndex) (b : Int) :
    ((idx.replaceMembership u events).miners b).Nodup := by
  have hfold : ∀ (events : List Event) (idx : MemberIndex), (∀ b, (idx.miners b).Nodup) →
      ((events.foldl (MemberIndex.applyEvent u) idx).miners b).Nodup := by
    intro events
    induction events with
    | nil => exact fun _ h => h b
    | cons e rest ih =>
      intro idx h
      exact ih _ (nodup_applyEvent h e)
  exact hfold events _ fun _ => List.nodup_nil

theorem nodup_listMiners {brainId : Int} {now : Option Int} (h : (idx.miners brainId).Nodup) :
    (idx.listMiners brainId now).Nodup := by
  unfold MemberIndex.listMiners
  refine (List.mergeSort_perm _ _).nodup_iff.mpr (h.filterMap ?_)
  -- an entry carries the address it is made for
  have haddress : ∀ addr m, m ∈ idx.entry brainId now addr → m.address = addr := by
    intro addr m hm
    unfold MemberIndex.entry at hm
    split at hm
    · cases hm
    · split at hm
      · cases hm
      · exact congrArg MinerEntry.address (Option.some.inj hm).symm
  intro addr addr' m hm hm'
  rw [← haddress addr m hm, haddress addr' m hm']

/-- A rebuild keeps the listings, where every announced miner is tracked and none has
rejoined. -/
theorem sameListings_replace
    (h : ∀ k, idx.endpoints k ≠ none → ¬ Rejoined u events k ∧ Tracked u idx events k) :
    SameListings idx (idx.replaceMembership u events) := by
  intro brainId now
  have hentries : ∀ m, m ∈ (idx.replaceMembership u events).listMiners brainId now ↔
      m ∈ idx.listMiners brainId now := by
    intro m
    rw [MemberIndex.mem_listMiners, MemberIndex.mem_listMiners]
    have hnew := @tracked_replace u events idx (brainId, m.address)
    unfold Tracked at hnew
    unfold MemberIndex.stale
    rw [MemberIndex.replace_ttl]
    constructor
    · rintro ⟨hmember, ep, hep, hrest⟩
      have hlast := hnew.mp hmember
      -- an endpoint that is there after the rebuild was there before
      have hold : idx.endpoints (brainId, m.address) = some ep := by
        rw [MemberIndex.replace_endpoints] at hep
        split at hep
        · cases hep
        · exact hep
      have hsome : idx.endpoints (brainId, m.address) ≠ none := hold ▸ Option.some_ne_none ep
      exact ⟨(h _ hsome).2.mpr hlast, ep, hold, hrest⟩
    · rintro ⟨hmember, ep, hep, hrest⟩
      have hsome : idx.endpoints (brainId, m.address) ≠ none := hep ▸ Option.some_ne_none ep
      obtain ⟨hstays, htracked⟩ := h _ hsome
      have hlast := htracked.mp hmember
      exact ⟨hnew.mpr hlast, ep, (replace_endpoint_kept hstays hlast).trans hep, hrest⟩
  exact ⟨hentries, fun hnodup => (List.perm_ext_iff_of_nodup
    (nodup_listMiners (nodup_replace idx brainId)) (nodup_listMiners hnodup)).mpr hentries⟩

/-! ## A poll that brings nothing -/

/-- A poller that has read the blocks to this height, and a node that has one more. -/
def quietPoller (idx : MemberIndex) (events : List Event) (height : Nat) : Poller where
  index := idx
  events := events
  hashes := []
  nextBlock := height + 1
  file := none

def quietConfig (u : Unicode) : PollerConfig where
  unicode := u
  startBlock := 0
  confirmations := 0
  reorgBuffer := 0
  durable := false
  ttl := 0

def quietRpc (height : Nat) : Rpc where
  blockNumber := .ok height
  blockHash n := .ok (Fin.ofNat _ n)
  getLogs _ _ _ := .ok []

/-- It rebuilds the sets from the events it has. -/
theorem quiet_poll (u : Unicode) (idx : MemberIndex) {events : List Event} {height : Nat}
    (h : ∀ e ∈ events, e.blockNumber ≤ height) :
    ∃ q, (pollOnce (quietConfig u) (quietPoller idx events height) (quietRpc (height + 1))).1 =
      q ∧ q.events = events ∧ q.index = idx.replaceMembership u events := by
  have hkept : events.filter (fun e => e.blockNumber < height + 1) = events :=
    List.filter_eq_self.mpr fun e he => decide_eq_true (Nat.lt_succ_of_le (h e he))
  obtain ⟨hashes, hhashes⟩ : ∃ hashes, canonicalHashes (quietRpc (height + 1)) (height + 1)
      (height + 1) = .ok hashes :=
    ⟨_, mapM_ok _ fun n _ => rfl⟩
  -- the head is the next block, and there is no hash to walk back over
  have hplan : planRescan (quietConfig u) (quietPoller idx events height)
      (quietRpc (height + 1)) = .ok (some ⟨height + 1, height + 1, hashes⟩) := by
    have hhead : ¬ (((height + 1 : Nat) : Int) - ((0 : Nat) : Int) < (height + 1 : Nat)) := by
      omega
    have hwalk : walkBack (quietRpc (height + 1)) [] (height + 1) = .ok (height + 1) := rfl
    unfold planRescan
    show (if ((height + 1 : Nat) : Int) - ((0 : Nat) : Int) < (height + 1 : Nat)
      then _ else _) = _
    rw [if_neg hhead]
    show (walkBack (quietRpc (height + 1)) [] (height + 1) >>= _) = _
    rw [hwalk, ok_bind]
    show (canonicalHashes (quietRpc (height + 1)) (height + 1) (height + 1) >>= _) = _
    rw [hhashes]
    rfl
  have hlogs : fetchLogs (quietRpc (height + 1)) (height + 1) (height + 1) = .ok [] := by
    have hfound : (EventName.all.mapM fun name =>
        (quietRpc (height + 1)).getLogs name (height + 1) (height + 1)) =
        .ok [[], [], [], []] := rfl
    unfold fetchLogs
    rw [hfound, ok_bind]
    exact congrArg _ List.mergeSort_nil
  unfold pollOnce
  rw [hplan]
  dsimp only
  rw [hlogs]
  dsimp only [quietPoller, quietConfig]
  rw [hkept, List.append_nil]
  exact ⟨_, rfl, rfl, rfl⟩

/-- **When rebuilding does no harm.** A rebuild drops only the endpoints of miners whose
last event is a deregistration, and a poll without new events changes no listing, just
when no announced miner has left and come back, and every one of them is in the index just
when its last event is a registration. Where all polls have succeeded so far, the second is
always so. -/
theorem rebuild_harmless_iff (u : Unicode) (idx : MemberIndex) (events : List Event) :
    (KeepsEndpoints u idx events ∧ QuietPollsKeep u idx events ↔
      ∀ k, idx.endpoints k ≠ none → ¬ Rejoined u events k ∧ Tracked u idx events k) ∧
    ∀ (config : PollerConfig) (p : Poller), config.unicode = u → p.index = idx →
      p.events = events → Rebuilt config p → ∀ k, Tracked u idx events k := by
  refine ⟨⟨?_, ?_⟩, ?_⟩
  · rintro ⟨hkeeps, hquiet⟩ k hk
    have hstays := keepsEndpoints_iff.mp hkeeps k hk
    refine ⟨hstays, ?_⟩
    obtain ⟨ep, hep⟩ := Option.ne_none_iff_exists'.mp hk
    have hheight : ∀ e ∈ events, e.blockNumber ≤ (events.map Event.blockNumber).sum :=
      fun e he => List.le_sum_of_mem (List.mem_map_of_mem he)
    obtain ⟨q, hpoll, hevents, hindex⟩ := quiet_poll u idx hheight
    have hsame := hquiet (quietConfig u) (quietPoller idx events _) _ rfl rfl rfl
      (by rw [hpoll, hevents]) k.1 none
    rw [hpoll, hindex] at hsame
    -- is the miner listed, before and after?
    have hentry := hsame.1 ⟨k.2, ep.url, ep.score⟩
    have hnew := @tracked_replace u events idx k
    rw [MemberIndex.mem_listMiners, MemberIndex.mem_listMiners] at hentry
    constructor
    · intro hmember
      exact hnew.mp (hentry.mpr ⟨hmember, ep, hep, rfl, rfl, rfl⟩).1
    · intro hlast
      have hkept := (@replace_endpoint_kept u idx events k hstays hlast).trans hep
      exact (hentry.mp ⟨hnew.mpr hlast, ep, hkept, rfl, rfl, rfl⟩).1
  · intro h
    refine ⟨keepsEndpoints_iff.mpr fun k hk => (h k hk).1, ?_⟩
    rintro config p rpc rfl rfl rfl hquiet
    unfold pollOnce at hquiet ⊢
    have hsame : SameListings p.index p.index := fun _ _ => ⟨fun _ => Iff.rfl, fun _ => .refl _⟩
    -- only a poll that reads the logs rebuilds
    split at hquiet
    · exact hsame
    · exact hsame
    · dsimp only at hquiet ⊢
      split at hquiet
      · exact hsame
      · dsimp only at hquiet ⊢
        rw [hquiet]
        exact sameListings_replace h
  · rintro config p rfl rfl rfl hrebuilt k
    have htracked := @tracked_replace config.unicode p.events p.index k
    unfold Tracked at htracked ⊢
    rwa [hrebuilt p.index]

/-! ## A miner that came back -/

/-- Account 7 registers with Brain 3, leaves, and registers again. -/
def toyReturn : List Event :=
  [⟨.minerRegistered, 3, text "0x07", 1, 0⟩, ⟨.minerDeregistered, 3, text "0x07", 2, 0⟩,
    ⟨.minerRegistered, 3, text "0x07", 3, 0⟩]

/-- It announced itself after that. -/
def toyAnnounced : MemberIndex :=
  ((MemberIndex.empty toyPollerConfig).replaceMembership toyPollerConfig.unicode
    toyReturn).announce toyPollerConfig.unicode 3 (text "0x07") (text "https://m") 100

/-- A poller that has read 20 blocks, and a node that has ten more without events. -/
def toyQuietPoller : Poller where
  index := toyAnnounced
  events := toyReturn
  hashes := []
  nextBlock := 20
  file := none

abbrev toyQuietRpc : Rpc := quietRpc 30

/-- Its endpoint is dropped although its last event is a registration, and the poll that
brings nothing new takes it off the list. -/
theorem rebuild_drops_rejoined :
    ¬ KeepsEndpoints toyPollerConfig.unicode toyAnnounced toyReturn ∧
      Rebuilt toyPollerConfig toyQuietPoller ∧
      (pollOnce toyPollerConfig toyQuietPoller toyQuietRpc).1.events = toyReturn ∧
      (toyQuietPoller.index.listMiners 3 (some 200)).length = 1 ∧
      (pollOnce toyPollerConfig toyQuietPoller toyQuietRpc).1.index.listMiners 3 (some 200) =
        [] := by
  refine ⟨?_, fun idx => replace_members _ idx toyReturn, by decide +kernel, ?_, ?_⟩
  · rw [keepsEndpoints_iff]
    intro h
    refine h (3, text "0x07") ?_ ⟨by decide +kernel, by decide +kernel⟩
    exact fun hnone => absurd (congrArg Option.isSome hnone) (by decide +kernel)
  · decide +kernel
  · apply List.eq_nil_of_length_eq_zero
    decide +kernel

end Gateway

end BasedAI
