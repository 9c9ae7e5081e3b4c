import BasedAI.Gateway.MembershipMirror

/-!
# BasedAI — polls that fail

A poll drops the events from the block it rewinds to and then asks the node for them again.
If one of these queries raises, the events are gone, and the hashes, the next block and the
members are as before. The next poll rewinds anew: on another view of the chain it may not go
back as far, and never reads those blocks again.

* `planRescan_ok`     — when a poll comes to its queries, and from which block;
* `FailsClean`        — a poll that raises changes nothing;
* `failed_polls_iff`  — that is so all along a run when no stored event is at stake.
-/

namespace BasedAI

open Fallible Python Transition

namespace Gateway

variable {config : PollerConfig} {p q : Poller} {rpc : Rpc} {n head : Nat}

/-! ## The rescan -/

/-- A poll rewinds to `n`: from there up to the buffer every stored hash was replaced, and the
one below was not, or there is none. -/
structure Rewinds (hashes : List (Nat × Text)) (rpc : Rpc) (start n : Nat) : Prop where
  le : n ≤ start
  replaced : ∀ m, n ≤ m → m < start → ∃ h w, dictGet m hashes = some h ∧
    rpc.blockHash m = .ok w ∧ hexText w ≠ h
  anchor : ∀ m, n = m + 1 → ∀ h, dictGet m hashes = some h →
    ∃ w, rpc.blockHash m = .ok w ∧ hexText w = h

/-- A poll comes to its log queries, from `n` to `head`. -/
structure Rescans (config : PollerConfig) (p : Poller) (rpc : Rpc) (n head : Nat) : Prop where
  height : rpc.blockNumber = .ok (head + config.confirmations)
  new : p.nextBlock ≤ head
  rewinds : Rewinds p.hashes rpc (p.nextBlock - config.reorgBuffer) n
  hashes : ∀ m, n ≤ m → m ≤ head → ∃ w, rpc.blockHash m = .ok w

theorem walkBack_ok {hashes : List (Nat × Text)} {start : Nat} :
    walkBack rpc hashes start = .ok n ↔ Rewinds hashes rpc start n := by
  -- along the blocks the poll walks back over
  induction start with
  | zero =>
    rw [walkBack, Except.ok.injEq]
    constructor
    · rintro rfl
      exact ⟨le_rfl, fun m hle hlt => absurd hlt (by omega),
        fun m hm => absurd hm (Nat.succ_ne_zero m).symm⟩
    · exact fun h => (Nat.le_zero.mp h.le).symm
  | succ start ih =>
    rw [walkBack]
    cases hget : dictGet start hashes with
    | none =>
      dsimp only
      rw [Except.ok.injEq]
      constructor
      · rintro rfl
        refine ⟨le_rfl, fun m hle hlt => absurd hlt (by omega), ?_⟩
        rintro m ⟨⟩ h hm
        rw [hget] at hm
        cases hm
      · intro h
        -- a block whose hash is not stored was not replaced
        by_contra hne
        have hle := h.le
        obtain ⟨_, _, hstored, -, -⟩ := h.replaced start (by omega) (by omega)
        rw [hget] at hstored
        cases hstored
    | some stored =>
      dsimp only
      rw [bind_ok]
      constructor
      · rintro ⟨w, hw, h⟩
        split at h
        case isTrue hsame =>
          obtain rfl := return_ok.mp h
          refine ⟨le_rfl, fun m hle hlt => absurd hlt (by omega), ?_⟩
          rintro m ⟨⟩ h' hm
          rw [hget] at hm
          obtain rfl := Option.some.inj hm
          exact ⟨w, hw, hsame⟩
        -- replaced, so the walk goes on from the block before
        case isFalse hother =>
          have hrest := ih.mp h
          refine ⟨hrest.le.trans (Nat.le_succ _), ?_, hrest.anchor⟩
          intro m hle hlt
          rcases Nat.lt_or_eq_of_le (Nat.le_of_lt_succ hlt) with hlt | rfl
          · exact hrest.replaced m hle hlt
          · exact ⟨stored, w, hget, hw, hother⟩
      · intro h
        have hle := h.le
        by_cases heq : n = start + 1
        · obtain ⟨w, hw, hsame⟩ := h.anchor start heq stored hget
          refine ⟨w, hw, ?_⟩
          rw [if_pos hsame, heq]
          rfl
        · obtain ⟨stored', w, hstored, hw, hother⟩ := h.replaced start (by omega) (by omega)
          rw [hget] at hstored
          obtain rfl := Option.some.inj hstored
          refine ⟨w, hw, ?_⟩
          rw [if_neg hother]
          exact ih.mpr ⟨by omega, fun m hn hm => h.replaced m hn (by omega), h.anchor⟩

theorem canonicalHashes_total :
    (∃ hashes, canonicalHashes rpc n head = .ok hashes) ↔
      ∀ m, n ≤ m → m ≤ head → ∃ w, rpc.blockHash m = .ok w := by
  unfold canonicalHashes
  constructor
  · rintro ⟨hashes, h⟩ m hle hm
    obtain ⟨_, -, hentry⟩ := exists_of_mapM h (List.mem_range'_1.mpr ⟨hle, by omega⟩)
    obtain ⟨w, hw, -⟩ := bind_ok.mp hentry
    exact ⟨w, hw⟩
  · intro h
    apply mapM_total
    intro m hm
    obtain ⟨hle, hlt⟩ := List.mem_range'_1.mp hm
    obtain ⟨w, hw⟩ := h m hle (by omega)
    exact ⟨_, bind_ok.mpr ⟨w, hw, rfl⟩⟩

/-- **When a poll comes to its log queries.** -/
theorem planRescan_ok :
    (∃ hashes, planRescan config p rpc = .ok (some ⟨n, head, hashes⟩)) ↔
      Rescans config p rpc n head := by
  unfold planRescan
  constructor
  · rintro ⟨hashes, h⟩
    obtain ⟨number, hnumber, h⟩ := bind_ok.mp h
    dsimp only at h
    split at h
    case isTrue => cases return_ok.mp h
    case isFalse hnew =>
      simp only [bind_ok, return_ok, Option.some.injEq, Rescan.mk.injEq] at h
      obtain ⟨_, hwalk, _, hhashes, rfl, rfl, rfl⟩ := h
      exact {
        height := by
          rw [hnumber]
          -- the head that was read is the confirmed one plus the confirmations
          congr 1
          omega
        new := by omega
        rewinds := walkBack_ok.mp hwalk
        hashes := canonicalHashes_total.mp ⟨_, hhashes⟩ }
  · intro h
    obtain ⟨hashes, hhashes⟩ := canonicalHashes_total.mpr h.hashes
    refine ⟨hashes, ?_⟩
    have hhead : (((head + config.confirmations : Nat) : Int) - config.confirmations) = head := by
      omega
    have hnew : ¬ (head : Int) < p.nextBlock := by
      have hle := h.new
      omega
    rw [h.height, ok_bind]
    dsimp only
    rw [hhead, if_neg hnew, walkBack_ok.mpr h.rewinds, ok_bind, Int.toNat_natCast, hhashes]
    rfl

theorem fetchLogs_error : (∃ e, fetchLogs rpc n head = .error e) ↔
    ∃ name e, rpc.getLogs name n head = .error e := by
  constructor
  · rintro ⟨e, h⟩
    by_contra hnone
    -- if none of the queries raises, all of them answer
    have hall : ∀ name ∈ EventName.all, ∃ found, rpc.getLogs name n head = .ok found := by
      intro name _
      cases hlogs : rpc.getLogs name n head with
      | ok found => exact ⟨found, rfl⟩
      | error e => exact absurd ⟨name, e, hlogs⟩ hnone
    obtain ⟨found, hfound⟩ := mapM_total _ hall
    rw [fetchLogs, hfound] at h
    cases h
  · rintro ⟨name, e, h⟩
    cases hfetch : fetchLogs rpc n head with
    | error e => exact ⟨e, rfl⟩
    | ok events =>
      obtain ⟨found, hfound, -⟩ := bind_ok.mp hfetch
      have hname : name ∈ EventName.all := by cases name <;> decide
      obtain ⟨_, -, hlogs⟩ := exists_of_mapM hfound hname
      rw [h] at hlogs
      cases hlogs

/-! ## One poll -/

/-- What a poll keeps is as before. -/
structure Untouched (p q : Poller) : Prop where
  events : q.events = p.events
  hashes : q.hashes = p.hashes
  nextBlock : q.nextBlock = p.nextBlock
  miners : q.index.miners = p.index.miners
  validators : q.index.validators = p.index.validators

/-- A poll that raises changes nothing. -/
def FailsClean (config : PollerConfig) (p : Poller) (rpc : Rpc) (q : Poller) : Prop :=
  (∃ e, (pollOnce config p rpc).2 = .error e) → Untouched p q

/-- Where a poll comes to its log queries and one of them fails, no event is stored at or
after the block it rewinds to. -/
def NothingAtStake (config : PollerConfig) (p : Poller) (rpc : Rpc) : Prop :=
  ∀ n head, Rescans config p rpc n head → (∃ name e, rpc.getLogs name n head = .error e) →
    ∀ event ∈ p.events, event.blockNumber < n

/-- **A poll that raises changes nothing** exactly when nothing is at stake. -/
theorem failsClean_iff : FailsClean config p rpc (pollOnce config p rpc).1 ↔
    NothingAtStake config p rpc := by
  constructor
  · intro hclean n head hrescan hfails
    obtain ⟨hashes, hplan⟩ := planRescan_ok.mpr hrescan
    obtain ⟨e, hfetch⟩ := fetchLogs_error.mpr hfails
    -- the events are cut back before the logs are asked for
    have hpoll : pollOnce config p rpc =
        ({ p with events := p.events.filter fun event => event.blockNumber < n }, .error e) := by
      rw [pollOnce, hplan]
      dsimp only
      rw [hfetch]
    rw [FailsClean, hpoll] at hclean
    have hkept := (hclean ⟨e, rfl⟩).events
    intro event hevent
    exact of_decide_eq_true (List.filter_eq_self.mp hkept event hevent)
  · rintro hsafe ⟨e, herror⟩
    unfold pollOnce at herror ⊢
    split at herror
    · exact ⟨rfl, rfl, rfl, rfl, rfl⟩
    · cases herror
    case h_3 scan hplan =>
      dsimp only at herror ⊢
      split at herror
      case h_1 e' hfetch =>
        -- a query failed, so what was dropped is nothing
        have hall := hsafe scan.fromBlock scan.head (planRescan_ok.mp ⟨scan.hashes, hplan⟩)
          (fetchLogs_error.mp ⟨e', hfetch⟩)
        refine ⟨?_, rfl, rfl, rfl, rfl⟩
        exact List.filter_eq_self.mpr fun event hevent => decide_eq_true (hall event hevent)
      case h_2 => cases herror

/-! ## Runs -/

/-- What happens to a poller: a poll, whatever the node answers, a restart, and the two
requests that write the index. -/
inductive PollerEvent
  | poll (rpc : Rpc)
  | restart
  | announce (brainId now : Int) (body : Json)
  | scores (brainId : Int) (body : Json)

/-- A step of a poller. -/
inductive PollerStep (app : App) (config : PollerConfig) : Poller → PollerEvent → Poller → Prop
  | poll {p : Poller} (rpc : Rpc) : PollerStep app config p (.poll rpc) (pollOnce config p rpc).1
  | restart {p p' : Poller} (h : boot config p.file = .ok p') : PollerStep app config p .restart p'
  | announce {p : Poller} (brainId now : Int) (body : Json) :
      PollerStep app config p (.announce brainId now body)
        { p with index := announce app p.index brainId now body }
  | scores {p : Poller} (brainId : Int) (body : Json) :
      PollerStep app config p (.scores brainId body)
        { p with index := submitScores app p.index brainId body }

/-- **Failed polls change nothing**: in a run of the poller, from whatever state, every poll that
raises leaves the events, the hashes, the next block and the members as they were, exactly when
every poll of the run finds nothing at stake. -/
theorem failed_polls_iff (app : App) (config : PollerConfig) (start t : Poller)
    (ls : List PollerEvent) :
    (∀ p rpc q, Along (PollerStep app config) start ls t p (.poll rpc) q →
      FailsClean config p rpc q) ↔
    ∀ p rpc q, Along (PollerStep app config) start ls t p (.poll rpc) q →
      NothingAtStake config p rpc := by
  have hstep : ∀ p rpc q, Along (PollerStep app config) start ls t p (.poll rpc) q →
      (FailsClean config p rpc q ↔ NothingAtStake config p rpc) := by
    intro p rpc q halong
    cases halong.taken with
    | poll rpc => exact failsClean_iff
  constructor
  · intro h p rpc q halong
    exact (hstep p rpc q halong).mp (h p rpc q halong)
  · intro h p rpc q halong
    exact (hstep p rpc q halong).mpr (h p rpc q halong)

/-! ## A miner that is lost -/

/-- A node that has the first `height` blocks of a chain on which account 7 registers with
Brain 3 in block 5. -/
def toyView (height : Nat) : Rpc where
  blockNumber := .ok height
  blockHash n := .ok (Fin.ofNat _ n)
  getLogs name fromBlock head :=
    if name = .minerRegistered ∧ fromBlock ≤ 5 ∧ 5 ≤ head then
      .ok [⟨.minerRegistered, 3, text "0x07", 5, 0⟩]
    else .ok []

/-- A node on a branch of that chain from block 5 on, whose log queries fail. -/
def toyBranch : Rpc where
  blockNumber := .ok 21
  blockHash n := .ok (Fin.ofNat _ (if n < 5 then n else n + 100))
  getLogs _ _ _ := .error .httpError

/-- **A failed poll loses a miner**: the second poll rewinds to block 5, drops the registration
and fails; the third is back on the first chain, where nothing was replaced, and does not read
block 5 again. -/
theorem failed_poll_loses_miner :
    ∃ start p q r, boot toyPollerConfig none = .ok start ∧
      PollerStep toyApp toyPollerConfig start (.poll (toyView 20)) p ∧
      PollerStep toyApp toyPollerConfig p (.poll toyBranch) q ∧
      PollerStep toyApp toyPollerConfig q (.poll (toyView 30)) r ∧
      ¬ FailsClean toyPollerConfig p toyBranch q ∧
      p.index.isMiner toyApp.unicode 3 (text "0x07") = true ∧
      r.index.isMiner toyApp.unicode 3 (text "0x07") = false := by
  refine ⟨_, _, _, _, boot_none, .poll _, .poll _, .poll _, ?_, by decide +kernel,
    by decide +kernel⟩
  intro hclean
  have hkept := (hclean ⟨.httpError, rfl⟩).events
  exact absurd (congrArg List.length hkept) (by decide +kernel)

end Gateway

end BasedAI
