import BasedAI.Gateway.Canonical
import BasedAI.Gateway.Server

/-!
# BasedAI — the gateway's membership is the chain's

What a poll does when the node is on one chain, what a restart reads back, and the
invariant between them: the poller mirrors the log of the chain it polled last.

* `pollOnce_chain`       — a poll of a chain, in one step;
* `boot_saveState`       — a restart finds what was saved;
* `membership_canonical` — after a poll, the events and the members are the chain's.
-/

namespace BasedAI

open Fallible Python Transition Mapping Replay LogMirror

namespace Gateway

variable {T : Type} {env : RegistryEnv T} {crypto : Crypto}

/-! ## A poll of a chain -/

section Poll

variable {config : PollerConfig} {p : Poller} (c : RegistryChain env crypto)

theorem walkBack_chain (hashes : List (Nat × Text)) (n : Nat) :
    walkBack c.rpc hashes n =
      .ok (LogMirror.walkBack (fun m => dictGet m hashes) c.log.hash n) := by
  induction n with
  | zero => rfl
  | succ n ih =>
    rw [walkBack, LogMirror.walkBack]
    cases dictGet n hashes with
    | none => rfl
    | some h =>
      -- both go down by one where the stored hash is not the chain's
      show (if hexText (c.hash n) = h then (return n + 1 : Py Nat) else walkBack c.rpc hashes n) = _
      rw [ih]
      dsimp only
      by_cases heq : hexText (c.hash n) = h
      · rw [if_pos heq]
        exact congrArg Except.ok (if_pos heq).symm
      · rw [if_neg heq]
        exact congrArg Except.ok (if_neg heq).symm

theorem canonicalHashes_chain (fromBlock head : Nat) :
    canonicalHashes c.rpc fromBlock head =
      .ok ((List.range' fromBlock (head + 1 - fromBlock)).map fun n => (n, c.log.hash n)) :=
  mapM_ok _ fun _ _ => rfl

/-- The queries by name find every event once. -/
theorem perm_byName (events : List Event) :
    ((EventName.all.map fun name => events.filter fun e => e.name = name).flatten).Perm events := by
  induction events with
  | nil => exact .refl _
  | cons e rest ih =>
    have hsplit : ∀ names : List EventName, names.Nodup →
        ((names.map fun name => (e :: rest).filter fun x => x.name = name).flatten).Perm
          ((if e.name ∈ names then [e] else []) ++
            (names.map fun name => rest.filter fun x => x.name = name).flatten) := by
      intro names hnodup
      induction names with
      | nil => exact .refl _
      | cons name names ihn =>
        obtain ⟨hnew, hrest⟩ := List.nodup_cons.mp hnodup
        have hperm := ihn hrest
        simp only [List.map_cons, List.flatten_cons]
        by_cases hname : e.name = name
        · -- the event is found now, and not again
          rw [List.filter_cons_of_pos (by simpa using hname),
      if_pos (hname ▸ List.mem_cons_self ..)]
          rw [if_neg (hname ▸ hnew), List.nil_append] at hperm
          exact (hperm.append_left _).cons e
        · rw [List.filter_cons_of_neg (by simpa using hname)]
          have hmem : e.name ∈ name :: names ↔ e.name ∈ names := by
            rw [List.mem_cons, or_iff_right hname]
          rw [if_congr hmem rfl rfl]
          refine (hperm.append_left _).trans ?_
          rw [← List.append_assoc, ← List.append_assoc]
          exact List.perm_append_comm.append_right _
    have hall : e.name ∈ EventName.all := by
      cases e.name <;> decide
    refine (hsplit EventName.all (by decide)).trans ?_
    rw [if_pos hall]
    exact ih.cons e

/-- The queries give the log. -/
theorem fetchLogs_chain (fromBlock head : Nat) :
    fetchLogs c.rpc fromBlock head = .ok (c.log.scan fromBlock (head + 1)) := by
  have hfound : EventName.all.mapM (fun name => c.rpc.getLogs name fromBlock head) =
      .ok (EventName.all.map fun name =>
        (c.log.scan fromBlock (head + 1)).filter fun e => e.name = name) :=
    mapM_ok _ fun _ _ => rfl
  unfold fetchLogs
  rw [hfound]
  apply congrArg Except.ok
  -- both are the same events, and the order of the chain is strict
  have hsorted := sorted_scan c fromBlock (head + 1)
  have htrans : ∀ a b d : Event, a.le b → b.le d → a.le d := by
    intro a b d hab hbd
    simp only [Event.le, decide_eq_true_eq] at hab hbd ⊢
    omega
  have htotal : ∀ a b : Event, (a.le b || b.le a) = true := by
    intro a b
    simp only [Event.le, Bool.or_eq_true, decide_eq_true_eq]
    omega
  refine List.Perm.eq_of_pairwise ?_ (List.pairwise_mergeSort htrans htotal _)
    (hsorted.imp fun {a b} hab => ?_) ((List.mergeSort_perm _ _).trans (perm_byName _))
  · intro a b ha hb hab hba
    have hdistinct : (c.log.scan fromBlock (head + 1)).Pairwise
        fun a b => ¬ (a.le b = true ∧ b.le a = true) := by
      refine hsorted.imp fun {a b} hab => ?_
      simp only [Event.le, decide_eq_true_eq]
      omega
    have hfound : a ∈ c.log.scan fromBlock (head + 1) :=
      (perm_byName _).mem_iff.mp (List.mem_mergeSort.mp ha)
    have hsymm : Std.Symm fun a b : Event => ¬ (a.le b = true ∧ b.le a = true) :=
      ⟨fun _ _ h h' => h ⟨h'.2, h'.1⟩⟩
    by_contra hne
    exact hdistinct.forall hfound hb hne ⟨hab, hba⟩
  · simp only [Event.le, decide_eq_true_eq]
    omega

/-- The poller after a poll that read up to `head`, where the walk ended at `r`. -/
def polled (config : PollerConfig) (p : Poller) (c : RegistryChain env crypto) (r head : Nat) :
    Poller :=
  let events := p.events.filter (fun e => e.blockNumber < r) ++ c.log.scan r (head + 1)
  let hashes := ((List.range' r (head + 1 - r)).map fun n => (n, c.log.hash n)).foldl
    (fun d h => dictSet h.1 h.2 d) (p.hashes.filter fun h => h.1 < r)
  { index := p.index.replaceMembership config.unicode events
    events := events
    hashes := hashes
    nextBlock := head + 1
    file :=
      if config.durable then some (CursorStore.saveState (head + 1) events hashes) else p.file }

/-- **A poll of a chain.** It returns early, or it walks back and reads again. -/
theorem pollOnce_chain : (pollOnce config p c.rpc).1 =
    if c.height < p.nextBlock + config.confirmations then p
    else polled config p c
      (LogMirror.walkBack (fun n => dictGet n p.hashes) c.log.hash
        (p.nextBlock - config.reorgBuffer))
      (c.height - config.confirmations) := by
  -- against a chain no request fails, so the plan is a function of it
  have hplan : planRescan config p c.rpc =
      if c.height < p.nextBlock + config.confirmations then .ok none
      else .ok (some ⟨LogMirror.walkBack (fun n => dictGet n p.hashes) c.log.hash
          (p.nextBlock - config.reorgBuffer), c.height - config.confirmations,
        (List.range' (LogMirror.walkBack (fun n => dictGet n p.hashes) c.log.hash
          (p.nextBlock - config.reorgBuffer)) (c.height - config.confirmations + 1 -
            LogMirror.walkBack (fun n => dictGet n p.hashes) c.log.hash
              (p.nextBlock - config.reorgBuffer))).map fun n => (n, c.log.hash n)⟩) := by
    show (if ((c.height : Nat) : Int) - config.confirmations < p.nextBlock then
      (return none : Py (Option Rescan)) else _) = _
    by_cases hearly : c.height < p.nextBlock + config.confirmations
    · rw [if_pos (by omega), if_pos hearly]
      rfl
    · have hhead : (((c.height : Nat) : Int) - config.confirmations).toNat =
          c.height - config.confirmations := by omega
      rw [if_neg (by omega), if_neg hearly, walkBack_chain, ok_bind, hhead, canonicalHashes_chain,
        ok_bind]
      rfl
  unfold pollOnce
  rw [hplan]
  by_cases hearly : c.height < p.nextBlock + config.confirmations
  · rw [if_pos hearly, if_pos hearly]
  · rw [if_neg hearly, if_neg hearly]
    dsimp only
    rw [fetchLogs_chain]
    rfl

end Poll

/-! ## A restart -/

section Restart

variable {config : PollerConfig}

theorem ofText_toText (name : EventName) : EventName.ofText name.toText = some name := by
  cases name <;> decide

theorem ofJson_toJson (u : Unicode) (e : Event) : Event.ofJson u e.toJson = .ok e := by
  have hname : (orRaise .keyError (EventName.ofText e.name.toText) : Py EventName) =
      .ok e.name := by
    rw [ofText_toText]
    rfl
  show (do
    let name ← orRaise .keyError (EventName.ofText e.name.toText)
    return ⟨name, e.brainId, e.address, (e.blockNumber : Int).toNat,
      (e.logIndex : Int).toNat⟩ : Py Event) = _
  rw [hname]
  rfl

theorem readHash_saved (u : Unicode) {h : Nat × Text} (hlt : h.1 < 2 ^ 256) :
    CursorStore.readHash u (Js.decimalText h.1, .str h.2) = .ok h := by
  have hkey : (orRaise .conversionError (intOfText u (Js.decimalText h.1)) : Py Int) =
      .ok (h.1 : Int) := by
    rw [Js.intOfText_decimalText_word u hlt]
    rfl
  unfold CursorStore.readHash
  rw [hkey]
  rfl

/-- A list that was written item by item is read item by item. -/
theorem mapM_written {α β : Type} {f : α → β} {g : β → Py α} (xs : List α)
    (h : ∀ x ∈ xs, g (f x) = .ok x) : (xs.map f).mapM g = .ok xs := by
  induction xs with
  | nil => rfl
  | cons x rest ih =>
    obtain ⟨hx, hrest⟩ := List.forall_mem_cons.mp h
    rw [List.map_cons, List.mapM_cons, hx, ih hrest]
    rfl

/-- **A restart finds what was saved.** -/
theorem boot_saveState (hdurable : config.durable = true) {nextBlock : Nat}
    {events : List Event} {hashes : List (Nat × Text)} (hlt : ∀ h ∈ hashes, h.1 < 2 ^ 256) :
    boot config (some (CursorStore.saveState nextBlock events hashes)) = .ok {
      index := (MemberIndex.empty config).replaceMembership config.unicode events
      events := events
      hashes := hashes
      nextBlock := nextBlock
      file := some (CursorStore.saveState nextBlock events hashes) } := by
  -- each part of the file reads back as what was written
  have hload : CursorStore.loadState config.unicode
      (some (CursorStore.saveState nextBlock events hashes)) =
      some (nextBlock, events.map Event.toJson,
        hashes.map fun h => (Js.decimalText h.1, .str h.2)) := rfl
  have hevents : (events.map Event.toJson).mapM (Event.ofJson config.unicode) = .ok events :=
    mapM_written events fun e _ => ofJson_toJson config.unicode e
  have hhashes : (hashes.map fun h => (Js.decimalText h.1, Json.str h.2)).mapM
      (CursorStore.readHash config.unicode) = .ok hashes :=
    mapM_written hashes fun h hh => readHash_saved config.unicode (hlt h hh)
  unfold boot
  rw [if_pos hdurable, hload]
  dsimp only
  rw [hevents, ok_bind, hhashes, ok_bind]
  rfl

/-- A poller that starts without a file starts at the start block. -/
theorem boot_none : boot config none = .ok {
    index := (MemberIndex.empty config).replaceMembership config.unicode []
    events := []
    hashes := []
    nextBlock := config.startBlock
    file := none } := by
  unfold boot
  split
  · rename_i h
    rfl
  · rename_i h
    split at h
    · cases h
    · cases h

end Restart

/-! ## Runs -/

/-- What happens to a gateway: a poll while the node is on some chain, a restart, and the
two requests that write the index. -/
inductive GatewayEvent (env : RegistryEnv T) (crypto : Crypto)
  | poll (c : RegistryChain env crypto)
  | restart
  | announce (brainId now : Int) (body : Json)
  | scores (brainId : Int) (body : Json)

/-- A step of a gateway. -/
inductive GatewayStep (app : App) (config : PollerConfig) :
    Poller → GatewayEvent env crypto → Poller → Prop
  | poll {p : Poller} (c : RegistryChain env crypto) :
      GatewayStep app config p (.poll c) (pollOnce config p c.rpc).1
  | restart {p p' : Poller} (h : boot config p.file = .ok p') :
      GatewayStep app config p .restart p'
  | announce {p : Poller} (brainId now : Int) (body : Json) :
      GatewayStep app config p (.announce brainId now body)
        { p with index := announce app p.index brainId now body }
  | scores {p : Poller} (brainId : Int) (body : Json) :
      GatewayStep app config p (.scores brainId body)
        { p with index := submitScores app p.index brainId body }

/-- The first block a poller reads. -/
def firstBlock (config : PollerConfig) : Nat := config.startBlock - config.reorgBuffer

/-- What holds between polls, when all chains polled are among `chains`. -/
structure Following (config : PollerConfig) (chains : RegistryChain env crypto → Prop)
    (p : Poller) : Prop where
  /-- nothing is read yet, or some chain is mirrored -/
  mirrors : (p.events = [] ∧ p.hashes = [] ∧ p.nextBlock = config.startBlock) ∨
    ∃ c first, chains c ∧ first ≤ firstBlock config ∧
      Mirrors c.log first p.nextBlock (fun n => dictGet n p.hashes) p.events
  members : p.index.minerFlags = replay (fun _ => false) (minerChanges config.unicode p.events) ∧
    p.index.validatorFlags =
      replay (fun _ => false) (validatorChanges config.unicode p.events)
  words : ∀ h ∈ p.hashes, h.1 < 2 ^ 256
  file : p.file = none ∨ (config.durable = true ∧
    p.file = some (CursorStore.saveState p.nextBlock p.events p.hashes))

/-- Requests change nobody's membership. -/
theorem announce_members (app : App) (idx : MemberIndex) (brainId now : Int) (body : Json) :
    (announce app idx brainId now body).miners = idx.miners ∧
      (announce app idx brainId now body).validators = idx.validators := by
  unfold announce
  split
  · exact ⟨rfl, rfl⟩
  · exact ⟨rfl, rfl⟩

theorem setScore_members (u : Unicode) (idx : MemberIndex) (brainId : Int) (address : Text)
    (score : PyFloat) :
    (idx.setScore u brainId address score).miners = idx.miners ∧
      (idx.setScore u brainId address score).validators = idx.validators := by
  unfold MemberIndex.setScore
  dsimp only
  split
  · exact ⟨rfl, rfl⟩
  · exact ⟨rfl, rfl⟩

theorem submitScores_members (app : App) (idx : MemberIndex) (brainId : Int) (body : Json) :
    (submitScores app idx brainId body).miners = idx.miners ∧
      (submitScores app idx brainId body).validators = idx.validators := by
  unfold submitScores
  generalize submittedScores app brainId body = scores
  induction scores generalizing idx with
  | nil => exact ⟨rfl, rfl⟩
  | cons v rest ih =>
    obtain ⟨hm, hv⟩ := setScore_members app.unicode idx brainId v.miner v.value
    rw [List.foldl_cons, (ih _).1, (ih _).2]
    exact ⟨hm, hv⟩

section Follow

variable {app : App} {config : PollerConfig} {chains : RegistryChain env crypto → Prop}
  {p p' : Poller}

/-- A new index with the same members follows as well. -/
theorem Following.index (h : Following config chains p) {idx : MemberIndex}
    (hm : idx.miners = p.index.miners) (hv : idx.validators = p.index.validators) :
    Following config chains { p with index := idx } := by
  refine { h with members := ?_ }
  have hminers : idx.minerFlags = p.index.minerFlags := by
    funext k
    unfold MemberIndex.minerFlags
    rw [hm]
  have hvalidators : idx.validatorFlags = p.index.validatorFlags := by
    funext k
    unfold MemberIndex.validatorFlags
    rw [hv]
  exact ⟨hminers.trans h.members.1, hvalidators.trans h.members.2⟩

theorem following_boot (h : boot config none = .ok p) : Following config chains p := by
  rw [boot_none, Except.ok.injEq] at h
  rw [← h]
  exact {
    mirrors := .inl ⟨rfl, rfl, rfl⟩
    members := ⟨MemberIndex.replace_miner _ _, MemberIndex.replace_validator _ _⟩
    words := by
      intro h hh
      cases hh
    file := .inl rfl }

/-- **A poll keeps up.** The part that was walked over is read again. -/
theorem Following.poll {c : RegistryChain env crypto} (h : Following config chains p)
    (hc : chains c) (hlinked : ∀ d, chains d → d.HashLinked c)
    (hnew : p.nextBlock + config.confirmations ≤ c.height) {r : Nat}
    (hr : LogMirror.walkBack (fun n => dictGet n p.hashes) c.log.hash
      (p.nextBlock - config.reorgBuffer) = r) :
    Following config chains (polled config p c r (c.height - config.confirmations)) ∧
      ∃ first, first ≤ firstBlock config ∧
        Mirrors c.log first (c.height - config.confirmations + 1)
          (fun n => dictGet n (polled config p c r (c.height - config.confirmations)).hashes)
          (polled config p c r (c.height - config.confirmations)).events := by
  have hle : r ≤ p.nextBlock - config.reorgBuffer := hr ▸ walkBack_le _
  have hhead : c.height - config.confirmations + 1 ≤ c.log.height + 1 := by
    show c.height - config.confirmations + 1 ≤ c.height + 1
    omega
  -- the hashes after the poll
  have hstored : (fun n => dictGet n
      (polled config p c r (c.height - config.confirmations)).hashes) =
      fun n => if r ≤ n ∧ n < c.height - config.confirmations + 1 then some (c.log.hash n)
        else if n < r then dictGet n p.hashes else none := by
    funext n
    show dictGet n ((List.map _ _).foldl _ (p.hashes.filter fun h => h.1 < r)) = _
    rw [dictGet_update, dictGet_filter (q := fun m => decide (m < r))]
    have hmem : n ∈ List.range' r (c.height - config.confirmations + 1 - r) ↔
        r ≤ n ∧ n < c.height - config.confirmations + 1 := by
      rw [List.mem_range'_1]
      omega
    rw [if_congr hmem rfl rfl]
    simp only [decide_eq_true_eq]
  have hmirror : ∃ first, first ≤ firstBlock config ∧
      Mirrors c.log first (c.height - config.confirmations + 1)
        (fun n => dictGet n (polled config p c r (c.height - config.confirmations)).hashes)
        (polled config p c r (c.height - config.confirmations)).events := by
    rw [hstored]
    rcases h.mirrors with ⟨hevents, hhashes, hnext⟩ | ⟨d, first, hd, hfirst, hm⟩
    · -- the first poll walks nowhere
      have hr' : r = p.nextBlock - config.reorgBuffer := by
        rw [← hr, hhashes]
        cases p.nextBlock - config.reorgBuffer with
        | zero => rfl
        | succ n => rfl
      refine ⟨r, by rw [hr', hnext]; exact le_rfl, ?_⟩
      have hmirrors := mirrors_first hhead r
      have hempty : ∀ n, (if n < r then dictGet n p.hashes else none) = none := by
        intro n
        rw [hhashes]
        split <;> rfl
      simp only [hempty]
      show Mirrors c.log r _ _ (p.events.filter _ ++ _)
      rw [hevents]
      exact hmirrors
    · exact ⟨min first r, (Nat.min_le_left _ _).trans hfirst,
        hm.sync (linked_log (hlinked d hd)) (located_log d) (Nat.sub_le _ _) (by omega) hhead hr⟩
  refine ⟨?_, hmirror⟩
  obtain ⟨first, hfirst, hm⟩ := hmirror
  exact {
    mirrors := .inr ⟨c, first, hc, hfirst, hm⟩
    members := ⟨MemberIndex.replace_miner _ _, MemberIndex.replace_validator _ _⟩
    words := by
      have hkept : ∀ e ∈ p.hashes.filter fun h => h.1 < r, e.1 < 2 ^ 256 :=
        fun e he => h.words e (List.mem_of_mem_filter he)
      refine @forall_update _ _ _ (fun n => n < 2 ^ 256) _ _ ?_ hkept
      intro e he
      obtain ⟨n, hn, rfl⟩ := List.mem_map.mp he
      rw [List.mem_range'_1] at hn
      have hword := c.height_lt
      show n < 2 ^ 256
      omega
    file := by
      unfold polled
      cases hdurable : config.durable with
      | true => exact .inr ⟨rfl, rfl⟩
      | false =>
        rcases h.file with hnone | ⟨hdurable', -⟩
        · exact .inl hnone
        · rw [hdurable] at hdurable'
          cases hdurable' }

/-- What a step keeps. -/
theorem Following.step {l : GatewayEvent env crypto}
    (hlinked : ∀ c d, chains c → chains d → c.HashLinked d)
    (hl : ∀ c, l = .poll c → chains c) (hstep : GatewayStep app config p l p')
    (h : Following config chains p) : Following config chains p' := by
  cases hstep with
  | poll c =>
    have hc : chains c := hl c rfl
    rw [pollOnce_chain]
    split
    · exact h
    · exact (h.poll hc (fun d hd => hlinked d c hd hc) (by omega) rfl).1
  | restart hboot =>
    -- nothing was saved, or all that the poller knew was
    rcases h.file with hnone | ⟨hdurable, hsaved⟩
    · rw [hnone] at hboot
      exact following_boot hboot
    · rw [hsaved, boot_saveState hdurable h.words, Except.ok.injEq] at hboot
      rw [← hboot]
      exact {
        mirrors := h.mirrors
        members := ⟨MemberIndex.replace_miner _ _, MemberIndex.replace_validator _ _⟩
        words := h.words
        file := .inr ⟨hdurable, rfl⟩ }
  | announce brainId now body =>
    obtain ⟨hm, hv⟩ := announce_members app p.index brainId now body
    exact h.index hm hv
  | scores brainId body =>
    obtain ⟨hm, hv⟩ := submitScores_members app p.index brainId body
    exact h.index hm hv

/-- A run of a gateway follows the chains it polls. -/
theorem following_run {ls : List (GatewayEvent env crypto)} (hstart : boot config none = .ok p)
    (hrun : Run (GatewayStep app config) p ls p') (hchains : ∀ c, .poll c ∈ ls → chains c)
    (hlinked : ∀ c d, chains c → chains d → c.HashLinked d) : Following config chains p' := by
  have hgood : ∀ l ∈ ls, ∀ c, l = .poll c → chains c := fun l hl c hc => hchains c (hc ▸ hl)
  have hlabels := hrun.restrict_labels hgood
  exact hlabels.invariant (fun hstep h => h.step hlinked hstep.2 hstep.1)
    (following_boot hstart)

/-- The membership in an index is the registry's in some state. -/
def AgreesWith (u : Unicode) (idx : MemberIndex) (m : SubnetMembers) : Prop :=
  ∀ (b : BrainId) (a : Address) (t : Text), hexAddress (text "0x" ++ t) = some a →
    idx.isMiner u b.val (text "0x" ++ t) = m.isMiner b a ∧
      idx.isValidator u b.val (text "0x" ++ t) = m.isValidator b a

/-- An index that replays the log of a chain agrees with the registry there. -/
theorem agreesWith_replay (c : RegistryChain env crypto) {u : Unicode} {idx : MemberIndex}
    {n : Nat} (hn : n ≤ c.height + 1)
    (hm : idx.minerFlags = replay (fun _ => false) (minerChanges u (c.log.scan 0 n)))
    (hv : idx.validatorFlags = replay (fun _ => false) (validatorChanges u (c.log.scan 0 n))) :
    AgreesWith u idx (c.states n).members := by
  intro b a t ht
  obtain ⟨hminer, hvalidator⟩ := members_replay c u hn b a
  have hkey : ((b.val : Int), lower u (text "0x" ++ t)) = memberKey u crypto (b, a) := by
    rw [memberKey, lower_toChecksum ht]
  rw [MemberIndex.isMiner_eq, MemberIndex.isValidator_eq, hkey, hm, hv]
  exact ⟨hminer.symm, hvalidator.symm⟩

/--
**The gateway's membership is the chain's.** Take any run of a gateway: polls of chains
that reorganise in any way between them, restarts, announcements and score submissions.
Equal block hashes belong to equal chains, and nothing happened to membership before the
first block the poller reads. After every poll that finds a new block, the stored events
are the log of the chain from that first block to the head, and the members are the
active ones at the head.
-/
theorem membership_canonical {ls : List (GatewayEvent env crypto)} {q q' : Poller}
    {c : RegistryChain env crypto} (hstart : boot config none = .ok p)
    (hlinked : ∀ c d : RegistryChain env crypto, .poll c ∈ ls → .poll d ∈ ls → c.HashLinked d)
    (hsilent : ∀ c : RegistryChain env crypto, .poll c ∈ ls →
      c.SilentBefore (firstBlock config))
    (hpoll : Along (GatewayStep app config) p ls p' q (.poll c) q')
    (hnew : q.nextBlock + config.confirmations ≤ c.height) :
    q'.events = c.log.scan (firstBlock config) (c.height - config.confirmations + 1) ∧
      AgreesWith config.unicode q'.index
        (c.states (c.height - config.confirmations + 1)).members := by
  have hmem : .poll c ∈ ls := hpoll.mem
  obtain ⟨pre, post, rfl, hpre, hstep, -⟩ := hpoll
  have hfollow : Following config (fun d => .poll d ∈ pre ++ .poll c :: post) q :=
    following_run hstart hpre (fun c hc => List.mem_append_left _ hc) hlinked
  cases hstep with
  | poll c =>
    rw [pollOnce_chain, if_neg (by omega)]
    obtain ⟨hafter, first, hfirst, hmirrors⟩ :=
      hfollow.poll hmem (fun d hd => hlinked d c hd hmem) hnew rfl
    have hquiet := hsilent c hmem
    -- there is nothing to read before the first block
    have hevents := hmirrors.entries.trans (scan_skip hfirst hquiet)
    refine ⟨hevents, ?_⟩
    have hall : c.log.scan 0 (c.height - config.confirmations + 1) =
        c.log.scan (firstBlock config) (c.height - config.confirmations + 1) :=
      scan_skip (Nat.zero_le _) hquiet
    obtain ⟨hm, hv⟩ := hafter.members
    rw [hevents, ← hall] at hm hv
    exact agreesWith_replay c (by omega) hm hv

end Follow

/-! ## A reorganisation deeper than the buffer -/

def toyRegistryEnv : RegistryEnv Ledger := ⟨ledgerToken, 9⟩

/-- Brain 3 is active and free to join. -/
def toyRegistry : RegistryState Ledger where
  token := ⟨fun _ => 0, fun _ _ => 0⟩
  subnets := ⟨fun _ => ⟨1, 0, "", 0, 800, 7609, 0, true⟩⟩
  members := .deploy
  brainOwners _ := none

/-- Account 7 joins as a miner. -/
def toyRegistration : RegistryTx := .call 4 ⟨60, by decide⟩ 7 (.registerMiner 3 0)

def toyJoined : RegistryState Ledger :=
  { toyRegistry with members := { toyRegistry.members with miners :=
      ⟨set₂ Roster.empty.info 3 7 ⟨60, 0, true⟩, set Roster.empty.count 3 1⟩ } }

/-- Up to block 4 the two toy chains are one; then account 7 registers in block 5. -/
def toyOrphan : RegistryChain toyRegistryEnv toyCrypto where
  height := 20
  height_lt := by decide
  hash n := if n < 5 then Fin.ofNat _ n else Fin.ofNat _ (n + 100)
  txs n := if n = 5 then [toyRegistration] else []
  states n := if n ≤ 5 then toyRegistry else toyJoined
  genesis := rfl
  executes n hn := by
    by_cases h : n = 5
    · rw [if_pos h, if_pos (by omega), if_neg (by omega)]
      exact .single (.call rfl)
    · rw [if_neg h]
      by_cases hlow : n ≤ 5
      · rw [if_pos hlow, if_pos (by omega)]
        exact .nil _
      · rw [if_neg hlow, if_neg (by omega)]
        exact .nil _
  ordered n := by
    by_cases h : n = 5
    · rw [if_pos h]
      exact List.pairwise_singleton _ _
    · rw [if_neg h]
      exact .nil

/-- In the chain that replaces it, nobody registers. -/
def toyCanonical : RegistryChain toyRegistryEnv toyCrypto where
  height := 30
  height_lt := by decide
  hash n := if n < 5 then Fin.ofNat _ n else Fin.ofNat _ (n + 200)
  txs _ := []
  states _ := toyRegistry
  genesis := rfl
  executes _ _ := .nil _
  ordered _ := .nil

def toyPollerConfig : PollerConfig where
  unicode := { lower := id, digit := fun _ => none, isSpace := fun _ => false }
  startBlock := 0
  confirmations := 2
  reorgBuffer := 12
  durable := true
  ttl := 600

def toyApp : App where
  crypto := toyCrypto
  unicode := toyPollerConfig.unicode
  repr _ := []
  recoverMessage := toyCrypto.recover
  urlGuard _ := .ok none
  verifyScore := none
  maxInflight := 64

theorem toyChains_linked : toyOrphan.HashLinked toyCanonical := by
  intro n hn _ hhash m hm
  have hlow : n < 5 := by
    by_contra hhigh
    have hvalue : (n + 100) % 2 ^ 256 = (n + 200) % 2 ^ 256 := by
      simpa [toyOrphan, toyCanonical, hhigh, Fin.ext_iff] using hhash
    have hbound : n ≤ 20 := hn
    omega
  have hsame : toyOrphan.hash m = toyCanonical.hash m := by
    show (if m < 5 then _ else _) = if m < 5 then _ else _
    rw [if_pos (by omega), if_pos (by omega)]
  have hempty : toyOrphan.txs m = toyCanonical.txs m := by
    show (if m = 5 then _ else _) = _
    rw [if_neg (by omega)]
    rfl
  exact ⟨hsame, hempty⟩

/-- After a poll of the first chain account 7 is a miner; after a poll of the second, whose
fork is deeper than the buffer, nothing is left of it. -/
theorem membership_canonical_reorg :
    ∃ p q q' : Poller, boot toyPollerConfig none = .ok p ∧
      Run (GatewayStep toyApp toyPollerConfig) p [.poll toyOrphan] q ∧
      Run (GatewayStep toyApp toyPollerConfig) q [.poll toyCanonical] q' ∧
      q.index.isMiner toyApp.unicode 3 (text "0x0000000000000000000000000000000000000007") = true ∧
      q'.index.isMiner toyApp.unicode 3
        (text "0x0000000000000000000000000000000000000007") = false ∧ q'.events = [] := by
  obtain ⟨p, hp⟩ : ∃ p, boot toyPollerConfig none = .ok p := ⟨_, boot_none⟩
  have hnext : p.nextBlock = 0 := by
    rw [boot_none, Except.ok.injEq] at hp
    rw [← hp]
    rfl
  let q := (pollOnce toyPollerConfig p toyOrphan.rpc).1
  let q' := (pollOnce toyPollerConfig q toyCanonical.rpc).1
  have hread : q.nextBlock = 19 := by
    show (pollOnce toyPollerConfig p toyOrphan.rpc).1.nextBlock = 19
    rw [pollOnce_chain, if_neg (by rw [hnext]; decide)]
    rfl
  have hfirst : GatewayStep toyApp toyPollerConfig p (.poll toyOrphan) q := .poll toyOrphan
  have hsecond : GatewayStep toyApp toyPollerConfig q (.poll toyCanonical) q' :=
    .poll toyCanonical
  have hpolled : ∀ c, GatewayEvent.poll c ∈ [.poll toyOrphan, .poll toyCanonical] →
      c = toyOrphan ∨ c = toyCanonical := by
    intro c hc
    simpa using hc
  -- two chains with one hash at a block are one chain up to it
  have hlinked : ∀ c d, GatewayEvent.poll c ∈ [.poll toyOrphan, .poll toyCanonical] →
      GatewayEvent.poll d ∈ [.poll toyOrphan, .poll toyCanonical] → c.HashLinked d := by
    intro c d hc hd
    rcases hpolled c hc with rfl | rfl <;> rcases hpolled d hd with rfl | rfl
    · exact fun n _ _ _ m _ => ⟨rfl, rfl⟩
    · exact toyChains_linked
    · intro n hn hn' hhash m hm
      obtain ⟨hsame, htxs⟩ := toyChains_linked n hn' hn hhash.symm m hm
      exact ⟨hsame.symm, htxs.symm⟩
    · exact fun n _ _ _ m _ => ⟨rfl, rfl⟩
  have hsilent : ∀ c : RegistryChain toyRegistryEnv toyCrypto,
      GatewayEvent.poll c ∈ [.poll toyOrphan, .poll toyCanonical] →
        c.SilentBefore (firstBlock toyPollerConfig) :=
    fun c _ m hm => absurd hm (Nat.not_lt_zero m)
  have haddress : hexAddress (text "0x" ++ text "0000000000000000000000000000000000000007") =
      some 7 := by decide +kernel
  -- the orphan's log is read first, and then taken back
  obtain ⟨-, hjoined⟩ := membership_canonical hp hlinked hsilent
    ⟨[], [.poll toyCanonical], rfl, .nil p, hfirst, .single hsecond⟩ (by rw [hnext]; decide)
  obtain ⟨hevents, hleft⟩ := membership_canonical hp hlinked hsilent
    ⟨[.poll toyOrphan], [], rfl, .single hfirst, hsecond, .nil q'⟩ (by rw [hread]; decide)
  refine ⟨p, q, q', hp, .single hfirst, .single hsecond, (hjoined 3 7 _ haddress).1.trans ?_,
    (hleft 3 7 _ haddress).1.trans rfl, hevents.trans (scan_of_silent fun _ _ _ => rfl)⟩
  show (toyOrphan.states 19).members.isMiner 3 7 = true
  decide +kernel

end Gateway

end BasedAI
