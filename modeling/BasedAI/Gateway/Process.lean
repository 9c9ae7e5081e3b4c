import BasedAI.Gateway.Endpoints
import BasedAI.Lib.FixedWindow
import BasedAI.Lib.Transition

/-!
# BasedAI — the gateway under load

The gateway is one process: a handler runs until it waits, for the body of its request or for
the miner it has called, and meanwhile others run. `Process` is what they share, with the
requests that wait. A request is counted against its address before anything else, and one that
is passed on takes a slot until its miner has answered, failed, or the client is gone.

* `ProcessInv`          — the slots taken are the calls that are out;
* `step_index`          — what a step does to the index of miners;
* `rate_bounded`        — how many requests of an address are admitted in any stretch of time;
* `refused_after_limit` — who is refused.
-/

namespace BasedAI

open Fallible Python Transition Mapping FixedWindow

namespace Gateway

/-! ## The process -/

/-- What a request is for, if the server knows it. -/
inductive Route
  | other
  | miners
  | announce
  | infer
  | settle
  | scores
  deriving DecidableEq, Repr

/-- A request that waits, for its body or for a miner. -/
inductive Task
  | reading (route : Route) (brainId : Int)
  | dialing (url : Text) (path : Path) (body : Json)

def Task.isDialing : Task → Bool
  | .dialing _ _ _ => true
  | .reading _ _ => false

/-- What the handlers share: the index, the hits of every address, the slots that are taken; and
the requests that wait. -/
structure Process where
  index : MemberIndex
  hits : Text → Window
  inflight : Nat
  tasks : List Task

/-- The bounds `make_app` is given. -/
structure Limits where
  rateLimit : Nat
  rateWindow : Nat

def DEFAULT_RATE_LIMIT : Nat := 240
def RATE_WINDOW : Nat := 60

/-- The bounds where none are given. -/
def Limits.default : Limits := ⟨DEFAULT_RATE_LIMIT, RATE_WINDOW⟩

/-- The process at its start. -/
def Process.boot (idx : MemberIndex) : Process where
  index := idx
  hits _ := ⟨0, 0⟩
  inflight := 0
  tasks := []

/-- `rate_limit_mw`: the hits after a request, if it is let through. -/
def rateLimitMw (limits : Limits) (now : Nat) (ip : Text) (hits : Text → Window) :
    Option (Text → Window) :=
  ((hits ip).hit limits.rateLimit limits.rateWindow now).map (set hits ip)

/-- What a request that is let through leaves waiting. The list of miners is answered at once,
as is what the server does not know. -/
def Route.start (route : Route) (brainId : Int) : List Task :=
  match route with
  | .other | .miners => []
  | _ => [.reading route brainId]

/-- The rest of a handler, once the body is there, up to where it waits again: what it shares
afterwards, and what is left of it. -/
def Process.handle (app : App) (s : Process) (route : Route) (brainId now : Int) (body : Json) :
    Process × Option Task :=
  match route with
  | .other | .miners => (s, none)
  | .announce => ({ s with index := announce app s.index brainId now body }, none)
  | .scores => ({ s with index := submitScores app s.index brainId body }, none)
  | .infer => forward .infer
  | .settle => forward .settle
where
  /-- `_proxy_to_target`. -/
  forward (path : Path) : Process × Option Task :=
    match proxyToTarget app s.index s.inflight brainId now path body with
    | .dial url path body =>
      ({ s with inflight := s.inflight + 1 }, some (.dialing url path body))
    | .answer _ | .raised _ => (s, none)

inductive ProcessEvent
  /-- a request that is let through, or refused -/
  | admitted (ip : Text) (now : Nat) (route : Route) (brainId : Int)
  | refused (ip : Text) (now : Nat)
  /-- the body of a request arrives -/
  | handled (route : Route) (brainId : Int) (now : Nat) (body : Json)
  /-- a body does not arrive, or its request is cancelled -/
  | dropped
  /-- a miner answers or fails, or its request is cancelled -/
  | returned
  /-- the poller rebuilds the membership -/
  | polled (events : List Event)

/-- One handler runs, from where it waited to where it waits next. -/
inductive ProcessStep (app : App) (limits : Limits) : Process → ProcessEvent → Process → Prop
  | admitted {s : Process} {hits : Text → Window} (ip : Text) (now : Nat) (route : Route)
      (brainId : Int) : rateLimitMw limits now ip s.hits = some hits →
      ProcessStep app limits s (.admitted ip now route brainId)
        { s with hits := hits, tasks := route.start brainId ++ s.tasks }
  | refused {s : Process} (ip : Text) (now : Nat) : rateLimitMw limits now ip s.hits = none →
      ProcessStep app limits s (.refused ip now) s
  | handled {s s' : Process} {left : Option Task} {before after : List Task} (route : Route)
      (brainId : Int) (now : Nat) (body : Json) :
      s.tasks = before ++ .reading route brainId :: after →
      s.handle app route brainId now body = (s', left) →
      ProcessStep app limits s (.handled route brainId now body)
        { s' with tasks := before ++ left.toList ++ after }
  | dropped {s : Process} {before after : List Task} {route : Route} {brainId : Int} :
      s.tasks = before ++ .reading route brainId :: after →
      ProcessStep app limits s .dropped { s with tasks := before ++ after }
  | returned {s : Process} {before after : List Task} {url : Text} {path : Path} {body : Json} :
      s.tasks = before ++ .dialing url path body :: after →
      ProcessStep app limits s .returned
        { s with inflight := s.inflight - 1, tasks := before ++ after }
  | polled {s : Process} (events : List Event) :
      ProcessStep app limits s (.polled events)
        { s with index := s.index.replaceMembership app.unicode events }

/-- **One step** and the index: an announcement or a list of scores is taken in, the membership
is rebuilt, or the index stays as it was. -/
theorem step_index {app : App} {limits : Limits} {s s' : Process} {l : ProcessEvent}
    (h : ProcessStep app limits s l s') :
    (∃ brainId now body, l = .handled .announce brainId now body ∧
      s'.index = announce app s.index brainId now body) ∨
    (∃ brainId now body, l = .handled .scores brainId now body ∧
      s'.index = submitScores app s.index brainId body) ∨
    (∃ events, l = .polled events ∧
      s'.index = s.index.replaceMembership app.unicode events) ∨
    s'.index = s.index := by
  cases h with
  | @handled s' left before after route brainId now body htasks hhandle =>
    cases route with
    | announce =>
      obtain ⟨rfl, -⟩ := Prod.mk.inj hhandle
      exact .inl ⟨brainId, now, body, rfl, rfl⟩
    | scores =>
      obtain ⟨rfl, -⟩ := Prod.mk.inj hhandle
      exact .inr (.inl ⟨brainId, now, body, rfl, rfl⟩)
    | infer | settle =>
      -- a request that is passed on reads the index only
      simp only [Process.handle, Process.handle.forward] at hhandle
      split at hhandle
      · obtain ⟨rfl, -⟩ := Prod.mk.inj hhandle
        exact .inr (.inr (.inr rfl))
      · obtain ⟨rfl, -⟩ := Prod.mk.inj hhandle
        exact .inr (.inr (.inr rfl))
      · obtain ⟨rfl, -⟩ := Prod.mk.inj hhandle
        exact .inr (.inr (.inr rfl))
    | other | miners =>
      obtain ⟨rfl, -⟩ := Prod.mk.inj hhandle
      exact .inr (.inr (.inr rfl))
  | polled events => exact .inr (.inr (.inl ⟨events, rfl, rfl⟩))
  | admitted | refused | dropped | returned => exact .inr (.inr (.inr rfl))

/-! ## Slots -/

/-- How many calls are out. -/
def Process.outstanding (s : Process) : Nat := s.tasks.countP Task.isDialing

/-- The slots taken are the calls that are out, and no more than there are. -/
structure ProcessInv (app : App) (s : Process) : Prop where
  slots : s.inflight = s.outstanding
  room : s.outstanding ≤ app.maxInflight

section Slots

variable {app : App} {limits : Limits} {s s' : Process} {l : ProcessEvent}
  {ls : List ProcessEvent} {route : Route} {brainId now : Int} {body : Json}
  {left : Option Task}

theorem start_no_dialing (route : Route) (brainId : Int) :
    (route.start brainId).countP Task.isDialing = 0 := by
  cases route with
  | other | miners | announce | infer | settle | scores => rfl

/-- What the rest of a handler does to the slots: one is taken just if a call goes out, and
then there was room. -/
theorem handle_slots (h : s.handle app route brainId now body = (s', left)) :
    s'.inflight = s.inflight + left.toList.countP Task.isDialing ∧
      (left = none ∨ s.inflight < app.maxInflight) := by
  have hforward : ∀ path, Process.handle.forward app s brainId now body path = (s', left) →
      s'.inflight = s.inflight + left.toList.countP Task.isDialing ∧
        (left = none ∨ s.inflight < app.maxInflight) := by
    intro path hf
    unfold Process.handle.forward at hf
    split at hf
    · next url path' body' hdial =>
      obtain ⟨rfl, rfl⟩ := Prod.mk.inj hf
      exact ⟨rfl, .inr (proxy_dial_iff.mp hdial).2.2.2.2⟩
    · obtain ⟨rfl, rfl⟩ := Prod.mk.inj hf
      exact ⟨rfl, .inl rfl⟩
    · obtain ⟨rfl, rfl⟩ := Prod.mk.inj hf
      exact ⟨rfl, .inl rfl⟩
  cases route with
  | infer => exact hforward .infer h
  | settle => exact hforward .settle h
  | other | miners | announce | scores =>
    obtain ⟨rfl, rfl⟩ := Prod.mk.inj h
    exact ⟨rfl, .inl rfl⟩

/-- **One step.** -/
theorem ProcessInv.step (h : ProcessInv app s) (hstep : ProcessStep app limits s l s') :
    ProcessInv app s' := by
  obtain ⟨hslots, hroom⟩ := h
  unfold Process.outstanding at hslots hroom
  cases hstep with
  | admitted ip now route brainId hhits =>
    have hcount : (route.start brainId ++ s.tasks).countP Task.isDialing =
        s.tasks.countP Task.isDialing := by
      rw [List.countP_append, start_no_dialing, Nat.zero_add]
    exact ⟨hslots.trans hcount.symm, hcount.trans_le hroom⟩
  | refused ip now hfull => exact ⟨hslots, hroom⟩
  | @handled s' left before after route brainId now body htasks hhandle =>
    obtain ⟨hinflight, hleft⟩ := handle_slots hhandle
    rw [htasks] at hslots hroom
    simp only [List.countP_append, List.countP_cons, Task.isDialing, Bool.false_eq_true,
      if_false, Nat.add_zero] at hslots hroom
    have hcount : (before ++ left.toList ++ after).countP Task.isDialing =
        s.inflight + left.toList.countP Task.isDialing := by
      rw [List.countP_append, List.countP_append, hslots]
      omega
    refine ⟨hinflight.trans hcount.symm, hcount.trans_le ?_⟩
    -- a call goes out only where there was room for one more
    rcases hleft with rfl | hfree
    · show s.inflight + 0 ≤ app.maxInflight
      omega
    · have hone : left.toList.countP Task.isDialing ≤ 1 := by
        cases left with
        | none => exact Nat.zero_le 1
        | some t => exact List.countP_le_length
      omega
  | @dropped before after route brainId htasks =>
    rw [htasks] at hslots hroom
    simp only [List.countP_append, List.countP_cons, Task.isDialing, Bool.false_eq_true,
      if_false, Nat.add_zero] at hslots hroom
    have hcount : (before ++ after).countP Task.isDialing = s.inflight := by
      rw [List.countP_append, hslots]
    exact ⟨hcount.symm, hcount.trans_le (hslots.trans_le hroom)⟩
  | @returned before after url path body htasks =>
    rw [htasks] at hslots hroom
    simp only [List.countP_append, List.countP_cons, Task.isDialing, if_true] at hslots hroom
    have hcount : (before ++ after).countP Task.isDialing = s.inflight - 1 := by
      rw [List.countP_append, hslots]
      omega
    exact ⟨hcount.symm, hcount.trans_le (by omega)⟩
  | polled events => exact ⟨hslots, hroom⟩

/--
**Slots are neither lost nor taken twice.** However handlers interleave, and whether miners
answer or fail or clients go away, the slots taken are exactly the calls that are out, and
never more than the gateway has. So a request that names a way to a miner is passed on just
when fewer calls are out than that.
-/
theorem slots_exact {idx : MemberIndex}
    (hrun : Run (ProcessStep app limits) (.boot idx) ls s) :
    s.inflight = s.outstanding ∧ s.outstanding ≤ app.maxInflight ∧
    ∀ brainId now path body url,
      proxyToTarget app s.index s.inflight brainId now path body = .dial url path body ↔
        targetUrl app s.index brainId now body = .ok url ∧ app.urlGuard url = .ok none ∧
          s.outstanding < app.maxInflight := by
  have hinv : ProcessInv app s :=
    hrun.invariant (I := ProcessInv app) (fun hstep h => h.step hstep) ⟨rfl, Nat.zero_le _⟩
  refine ⟨hinv.slots, hinv.room, fun brainId now path body url => ?_⟩
  rw [proxy_dial_iff, hinv.slots]
  simp

end Slots

/-! ## Rates -/

/-- The moment at which a request of `ip` is let through. -/
def ProcessEvent.admittedAt (ip : Text) : ProcessEvent → Option Nat
  | .admitted ip' now _ _ => if ip' = ip then some now else none
  | _ => none

/-- The clock as a request of `ip` finds it. -/
def ProcessEvent.readAt (ip : Text) : ProcessEvent → Option Nat
  | .admitted ip' now _ _ | .refused ip' now => if ip' = ip then some now else none
  | _ => none

/-- When the requests of `ip` were let through, in their order. -/
def admittedMoments (ip : Text) (ls : List ProcessEvent) : List Nat :=
  ls.filterMap (ProcessEvent.admittedAt ip)

section Rates

variable {app : App} {limits : Limits} {s s' : Process} {l : ProcessEvent}
  {ls : List ProcessEvent} {ip : Text}

theorem rateLimitMw_ok {now : Nat} {hits hits' : Text → Window}
    (h : rateLimitMw limits now ip hits = some hits') :
    ∃ w, (hits ip).hit limits.rateLimit limits.rateWindow now = some w ∧
      hits' = set hits ip w := by
  obtain ⟨w, hw, rfl⟩ := Option.map_eq_some_iff.mp h
  exact ⟨w, hw, rfl⟩

theorem rateLimitMw_none {now : Nat} {hits : Text → Window} :
    rateLimitMw limits now ip hits = none ↔
      (hits ip).hit limits.rateLimit limits.rateWindow now = none :=
  Option.map_eq_none_iff

/-- What one step does to the window of an address. -/
theorem step_hits (hstep : ProcessStep app limits s l s') (ip : Text) :
    (l.admittedAt ip = none ∧ s'.hits ip = s.hits ip) ∨
      ∃ now, l.admittedAt ip = some now ∧ l.readAt ip = some now ∧
        (s.hits ip).hit limits.rateLimit limits.rateWindow now = some (s'.hits ip) := by
  cases hstep with
  | admitted ip' now route brainId hhits =>
    obtain ⟨w, hw, rfl⟩ := rateLimitMw_ok hhits
    by_cases hip : ip' = ip
    · subst hip
      refine .inr ⟨now, if_pos rfl, if_pos rfl, ?_⟩
      rw [hw]
      exact congrArg some (set_same _ _ _).symm
    · exact .inl ⟨if_neg hip, set_of_ne _ _ (Ne.symm hip)⟩
  | @handled s' left before after route brainId now body htasks hhandle =>
    refine .inl ⟨rfl, ?_⟩
    -- handlers do not look at the hits
    have hkept : s'.hits = s.hits := by
      cases route with
      | infer | settle =>
        simp only [Process.handle, Process.handle.forward] at hhandle
        split at hhandle
        · obtain ⟨rfl, rfl⟩ := Prod.mk.inj hhandle
          rfl
        · obtain ⟨rfl, rfl⟩ := Prod.mk.inj hhandle
          rfl
        · obtain ⟨rfl, rfl⟩ := Prod.mk.inj hhandle
          rfl
      | other | miners | announce | scores =>
        obtain ⟨rfl, rfl⟩ := Prod.mk.inj hhandle
        rfl
    exact congrFun hkept ip
  | refused | dropped | returned | polled => exact .inl ⟨rfl, rfl⟩

theorem bounded_run {idx : MemberIndex} (hrun : Run (ProcessStep app limits) (.boot idx) ls s)
    (ip : Text) : (s.hits ip).Bounded limits.rateLimit := by
  refine hrun.invariant (I := fun s => (s.hits ip).Bounded limits.rateLimit) ?_ (Nat.zero_le _)
  intro s l s' hstep h
  rcases step_hits hstep ip with ⟨-, hsame⟩ | ⟨now, -, -, hhit⟩
  · rw [hsame]
    exact h
  · exact Window.bounded_hit hhit

/-- The requests of a stretch, counted from where it begins. -/
theorem admitted_run {a b n : Nat} (hrun : Run (ProcessStep app limits) s ls s')
    (hstretch : ∀ t ∈ admittedMoments ip ls, a ≤ t ∧ t ≤ b)
    (h : Admitted limits.rateLimit limits.rateWindow a b n (s.hits ip)) :
    Admitted limits.rateLimit limits.rateWindow a b (n + (admittedMoments ip ls).length)
      (s'.hits ip) := by
  induction hrun generalizing n with
  | nil s => exact h
  | @cons s t u l ls hstep hrest ih =>
    rcases step_hits hstep ip with ⟨hnone, hsame⟩ | ⟨now, hsome, -, hhit⟩
    · have hskip : admittedMoments ip (l :: ls) = admittedMoments ip ls :=
        List.filterMap_cons_none hnone
      rw [hskip] at hstretch ⊢
      exact ih hstretch (hsame ▸ h)
    · have hcons : admittedMoments ip (l :: ls) = now :: admittedMoments ip ls :=
        List.filterMap_cons_some hsome
      rw [hcons] at hstretch ⊢
      obtain ⟨⟨ha, hb⟩, hrest'⟩ := List.forall_mem_cons.mp hstretch
      have hstep' := ih hrest' (h.hit hhit ha hb)
      rw [List.length_cons]
      rwa [Nat.add_assoc, Nat.add_comm 1] at hstep'

/--
**The rate limit.** Whatever the gateway has done before, whoever else asks, and however the
handlers interleave: of the requests of one address that are let through in a stretch of time
there are at most as many as `rateLimit`, for every window that fits in and for two more. The
clock may go back.
-/
theorem rate_bounded {idx : MemberIndex} {before : List ProcessEvent} {a b : Nat}
    (hperiod : 0 < limits.rateWindow)
    (hbefore : Run (ProcessStep app limits) (.boot idx) before s)
    (hrun : Run (ProcessStep app limits) s ls s')
    (hstretch : ∀ t ∈ admittedMoments ip ls, a ≤ t ∧ t ≤ b) :
    (admittedMoments ip ls).length ≤
      ((b - a) / limits.rateWindow + 2) * max 1 limits.rateLimit := by
  have hstart : Admitted limits.rateLimit limits.rateWindow a b 0 (s.hits ip) :=
    .empty (bounded_run hbefore ip)
  have hend := admitted_run hrun hstretch hstart
  rw [Nat.zero_add] at hend
  exact hend.le hperiod

/-! ## Refusals -/

/-- Where the clock does not go back, a window is filled by the last requests let through. -/
theorem filled_run {moments : List Nat} (hrun : Run (ProcessStep app limits) s ls s')
    (hclock : (ls.filterMap (ProcessEvent.readAt ip)).Pairwise (· ≤ ·))
    (hstart : ∀ t ∈ ls.filterMap (ProcessEvent.readAt ip), (s.hits ip).start ≤ t)
    (h : Filled moments (s.hits ip)) :
    Filled (moments ++ admittedMoments ip ls) (s'.hits ip) := by
  induction hrun generalizing moments with
  | nil s =>
    show Filled (moments ++ []) (s.hits ip)
    rw [List.append_nil]
    exact h
  | @cons s t u l ls hstep hrest ih =>
    rcases step_hits hstep ip with ⟨hnone, hsame⟩ | ⟨now, hsome, hread, hhit⟩
    · have hskip : admittedMoments ip (l :: ls) = admittedMoments ip ls :=
        List.filterMap_cons_none hnone
      rw [hskip]
      -- the clock may have been read, for a request that was refused
      have hsub : (ls.filterMap (ProcessEvent.readAt ip)).Sublist
          ((l :: ls).filterMap (ProcessEvent.readAt ip)) :=
        (List.sublist_cons_self l ls).filterMap _
      exact ih (hclock.sublist hsub) (fun t ht => hsame ▸ hstart t (hsub.subset ht)) (hsame ▸ h)
    · have hcons : admittedMoments ip (l :: ls) = now :: admittedMoments ip ls :=
        List.filterMap_cons_some hsome
      have hreads : (l :: ls).filterMap (ProcessEvent.readAt ip) =
          now :: ls.filterMap (ProcessEvent.readAt ip) := List.filterMap_cons_some hread
      rw [hreads] at hclock hstart
      rw [hcons]
      obtain ⟨hlater, hclock⟩ := List.pairwise_cons.mp hclock
      have hnow := hstart now List.mem_cons_self
      have hopened : (t.hits ip).start ≤ now := by
        rcases Window.hit_cases hhit with ⟨-, hw⟩ | ⟨-, -, hw⟩
        · rw [hw]
        · rw [hw]
          exact hnow
      have hend := ih hclock (fun t ht => hopened.trans (hlater t ht)) (h.hit hnow hhit)
      rwa [List.append_assoc] at hend

/--
**Nobody is refused early.** Where the clock does not go back, an address is refused only if
`rateLimit` of its requests were let through within the last window.
-/
theorem refused_after_limit {idx : MemberIndex} {now : Nat}
    (hrun : Run (ProcessStep app limits) (.boot idx) ls s)
    (hclock : (ls.filterMap (ProcessEvent.readAt ip)).Pairwise (· ≤ ·))
    (hrefused : ProcessStep app limits s (.refused ip now) s') :
    limits.rateLimit ≤
      ((admittedMoments ip ls).filter fun t => now < t + limits.rateWindow).length := by
  have hstart : Filled [] ((Process.boot idx).hits ip) := .empty rfl
  have hfilled := filled_run hrun hclock (fun t _ => Nat.zero_le t) hstart
  cases hrefused with
  | refused _ _ hnone => exact hfilled.full (rateLimitMw_none.mp hnone)

end Rates

/-! ## An example -/

/-- One request in a minute. -/
def toyLimits : Limits := ⟨1, 60⟩

/-- The one miner is known, with its endpoint. -/
def toyAskable : MemberIndex :=
  toyKnown.announce toyApp.unicode 3 toyScored (text "https://m") 100

/-- After a request is let through. -/
def toyAsked : Process :=
  { Process.boot toyAskable with
    hits := set (Process.boot toyAskable).hits (text "a") ⟨100, 1⟩
    tasks := [.reading .infer 3] }

/-- After it is passed on. -/
def toyDialed : Process :=
  { toyAsked with
    inflight := 1
    tasks := [.dialing (text "https://m") .infer toyNaming] }

theorem toyAsked_step : ProcessStep toyApp toyLimits (.boot toyAskable)
    (.admitted (text "a") 100 .infer 3) toyAsked :=
  .admitted (text "a") 100 .infer 3 rfl

theorem toyDialed_step : ProcessStep toyApp toyLimits toyAsked
    (.handled .infer 3 110 toyNaming) toyDialed := by
  have htasks : toyAsked.tasks = [] ++ .reading .infer 3 :: [] := rfl
  have hhandle : toyAsked.handle toyApp .infer 3 110 toyNaming =
      ({ toyAsked with inflight := 1 }, some (.dialing (text "https://m") .infer toyNaming)) := rfl
  exact .handled .infer 3 110 toyNaming htasks hhandle

theorem slots_exact_dialed : ∃ ls s,
    Run (ProcessStep toyApp toyLimits) (.boot toyAskable) ls s ∧ s.inflight = 1 ∧
      s.outstanding = 1 := by
  have hrun := (Run.single toyAsked_step).append (.single toyDialed_step)
  obtain ⟨hslots, -⟩ := slots_exact hrun
  exact ⟨_, toyDialed, hrun, rfl, hslots.symm⟩

theorem toyRefused_step : ProcessStep toyApp toyLimits toyAsked (.refused (text "a") 110)
    toyAsked :=
  .refused (text "a") 110 rfl

/-- The second request of the minute is refused after the first was let through. -/
theorem refused_after_one :
    ProcessStep toyApp toyLimits toyAsked (.refused (text "a") 110) toyAsked ∧
      1 ≤ ((admittedMoments (text "a") [.admitted (text "a") 100 .infer 3]).filter
        fun t => 110 < t + 60).length := by
  have hclock : ([ProcessEvent.admitted (text "a") 100 .infer 3].filterMap
      (ProcessEvent.readAt (text "a"))).Pairwise (· ≤ ·) := by
    simp [ProcessEvent.readAt]
  exact ⟨toyRefused_step,
    refused_after_limit (.single toyAsked_step) hclock toyRefused_step⟩

/-- Three requests, the last one after the minute. -/
def toyAsking : List ProcessEvent :=
  [.admitted (text "a") 100 .infer 3, .refused (text "a") 110, .admitted (text "a") 160 .infer 3]

/-- From 100 to 160 at most three are let through, and there are two. -/
theorem rate_bounded_asked : ∃ s,
    Run (ProcessStep toyApp toyLimits) (.boot toyAskable) toyAsking s ∧
    admittedMoments (text "a") toyAsking = [100, 160] ∧
    (admittedMoments (text "a") toyAsking).length ≤ ((160 - 100) / 60 + 2) * max 1 1 := by
  obtain ⟨s, hlast⟩ : ∃ s, ProcessStep toyApp toyLimits toyAsked
      (.admitted (text "a") 160 .infer 3) s := ⟨_, .admitted (text "a") 160 .infer 3 rfl⟩
  have hrun : Run (ProcessStep toyApp toyLimits) (.boot toyAskable) toyAsking s :=
    .cons toyAsked_step (.cons toyRefused_step (.single hlast))
  have hmoments : admittedMoments (text "a") toyAsking = [100, 160] := rfl
  have hperiod : 0 < toyLimits.rateWindow := by decide
  refine ⟨s, hrun, hmoments, rate_bounded hperiod (.nil _) hrun ?_⟩
  rw [hmoments]
  decide

end Gateway

end BasedAI
