import BasedAI.Gateway.MembershipMirror
import BasedAI.Client.BudgetSafety
import BasedAI.Client.TypeScriptReceipts

/-!
# BasedAI — which miner a request reaches

The request for an inference names its miner and the settle request does not, and where
no endpoint is found the proxy falls back to the best listed miner. So a request reaches
the miner it was signed for just when it names a miner with an endpoint, or the fallback
is harmless.

* `proxy_dial_iff`     — when the proxy dials;
* `targetUrl_named`    — a body that names a miner;
* `targetUrl_fallback` — a body that does not;
* `reaches_miner_iff`  — when a client's request reaches its miner only.
-/

namespace BasedAI

open Fallible Python

namespace Gateway

variable {app : App} {idx : MemberIndex} {inflight : Nat} {brainId now : Int} {path : Path}
  {body : Json} {url : Text}

/-! ## What the proxy does -/

@[simp] theorem attempt_ok {α : Type} {x : Py α} {a : α} : attempt x = .ok a ↔ x = .ok a := by
  cases x with
  | error e => exact ⟨nofun, nofun⟩
  | ok b => rw [show attempt (.ok b : Py α) = .ok b from rfl, Except.ok.injEq, Except.ok.injEq]

/-- Python's exceptions are no answers. -/
theorem attempt_answered {α : Type} {x : Py α} {r : Response} :
    attempt x ≠ .error (.answered r) := by
  cases x with
  | error e => exact nofun
  | ok b => exact nofun

theorem admitForward_ok : admitForward app idx inflight brainId now body = .ok url ↔
    targetUrl app idx brainId now body = .ok url ∧ app.urlGuard url = .ok none ∧
      inflight < app.maxInflight := by
  unfold admitForward
  simp only [bind_ok, attempt_ok]
  constructor
  · rintro ⟨found, hfound, guarded, hguarded, hrest⟩
    cases guarded with
    | some reason => cases hrest
    | none =>
      simp only [bind_ok, revertIf_ok, return_ok, not_le] at hrest
      obtain ⟨-, hroom, rfl⟩ := hrest
      exact ⟨hfound, hguarded, hroom⟩
  · rintro ⟨hfound, hguard, hroom⟩
    refine ⟨url, hfound, none, hguard, ?_⟩
    simp only [bind_ok, revertIf_ok, return_ok, not_le]
    exact ⟨(), hroom, trivial⟩

/-- The proxy passes a request on as it is, and only to a URL it has checked. -/
theorem proxy_dial_iff {path' : Path} {body' : Json} :
    proxyToTarget app idx inflight brainId now path body = .dial url path' body' ↔
      path' = path ∧ body' = body ∧ targetUrl app idx brainId now body = .ok url ∧
        app.urlGuard url = .ok none ∧ inflight < app.maxInflight := by
  rw [← admitForward_ok]
  unfold proxyToTarget
  constructor
  · intro h
    split at h
    · rename_i found hfound
      obtain ⟨rfl, rfl, rfl⟩ := Forward.dial.inj h
      exact ⟨rfl, rfl, hfound⟩
    · cases h
    · cases h
  · rintro ⟨rfl, rfl, h⟩
    rw [h]

/-- Nobody is listed. -/
theorem targetUrl_answered {r : Response}
    (h : targetUrl app idx brainId now body = .error (.answered r)) :
    ∃ status message, r = errorResponse status message ∧ 500 ≤ status := by
  unfold targetUrl at h
  rcases bind_error.mp h with hraised | ⟨target, -, hrest⟩
  · exact absurd hraised attempt_answered
  · cases target with
    | some found => cases hrest
    | none =>
      dsimp only at hrest
      split at hrest
      · exact ⟨503, _, (Stop.answered.inj (Except.error.inj hrest)).symm, by decide⟩
      · cases hrest

/-- Where the proxy answers by itself, it answers with an error. -/
theorem proxy_answer {r : Response}
    (h : proxyToTarget app idx inflight brainId now path body = .answer r) :
    ∃ status message, r = errorResponse status message ∧ 500 ≤ status := by
  unfold proxyToTarget at h
  split at h
  · cases h
  · rename_i r' hstop
    obtain rfl := Forward.answer.inj h
    unfold admitForward at hstop
    -- the answer comes from the choice of a URL, the guard or the gateway's capacity
    rcases bind_error.mp hstop with hlist | ⟨found, -, hrest⟩
    · exact targetUrl_answered hlist
    · rcases bind_error.mp hrest with hraised | ⟨reason, -, hguarded⟩
      · exact absurd hraised attempt_answered
      · cases reason with
        | some reason =>
          exact ⟨502, _, (Stop.answered.inj (Except.error.inj hguarded)).symm, by decide⟩
        | none =>
          rcases bind_error.mp hguarded with hfull | ⟨-, -, hdial⟩
          · obtain ⟨-, hstopped⟩ := revertIf_error.mp hfull
            exact ⟨503, _, (Stop.answered.inj hstopped).symm, by decide⟩
          · cases hdial
  · cases h

/-- A body that names a miner with an endpoint goes there. -/
theorem targetUrl_named {t : Text} (hbody : body.get "target_miner" .null = .ok (.str t))
    (ht : t ≠ []) (hurl : idx.endpointOf app.unicode brainId t = some url) :
    targetUrl app idx brainId now body = .ok url := by
  have htarget : targetEndpoint app idx brainId body = .ok (some url) := by
    rw [targetEndpoint, hbody, ok_bind]
    dsimp only
    rw [if_neg ht, hurl]
    rfl
  rw [targetUrl, htarget]
  rfl

/-- Any other body goes to the best miner listed. -/
theorem targetUrl_fallback (htarget : targetEndpoint app idx brainId body = .ok none) :
    targetUrl app idx brainId now body = .ok url ↔
      ∃ best, (idx.listMiners brainId (some now)).head? = some best ∧ best.url = url := by
  have hattempt : attempt (targetEndpoint app idx brainId body) = .ok none :=
    attempt_ok.mpr htarget
  rw [targetUrl, hattempt, ok_bind]
  dsimp only
  cases idx.listMiners brainId (some now) with
  | nil => simp
  | cons best rest => simp

/-! ## The clients' requests -/

/-- A request a reference client sends for an inference with the miner `m`, whose address
its receipt spells `t`. What `JSON.stringify` wrote is read as `body`. -/
inductive Requests : Path → Json → Text → Address → Prop
  | pythonInfer {client : BasedClient.Client} {around : BasedClient.Surroundings}
      {req : BasedClient.InferenceRequest} {s : BasedClient.SignedReceipt} {t : Text}
      (signed : s ∈ (BasedClient.infer client around req).signed)
      (sent : .infer req.brainId (BasedClient.inferBody req s) ∈
        (BasedClient.infer client around req).sent)
      (spelled : s.receipt.miner = .str t) :
      Requests .infer (BasedClient.inferBody req s) t s.encoded.miner
  | pythonSettle {client : BasedClient.Client} {around : BasedClient.Surroundings}
      {req : BasedClient.InferenceRequest} {s : BasedClient.SignedReceipt} {t : Text}
      (signed : s ∈ (BasedClient.infer client around req).signed)
      (sent : .settle req.brainId (BasedClient.settleBody s) ∈
        (BasedClient.infer client around req).sent)
      (spelled : s.receipt.miner = .str t) :
      Requests .settle (BasedClient.settleBody s) t s.encoded.miner
  | typeScriptInfer {client : TypeScriptClient.Client}
      {around : TypeScriptClient.Surroundings} {req : TypeScriptClient.InferenceRequest}
      {s : TypeScriptClient.SignedReceipt} {t : Text} {body : Json}
      (documented : around.viem.Documented around.crypto)
      (signed : s ∈ (TypeScriptClient.infer client around req).signed)
      (sent : .infer req.brainId (TypeScriptClient.inferBody req s) ∈
        (TypeScriptClient.infer client around req).sent)
      (spelled : s.receipt.miner = .str t)
      (read : Js.stringify around.engine (TypeScriptClient.inferBody req s) = some body) :
      Requests .infer body t s.encoded.miner
  | typeScriptSettle {client : TypeScriptClient.Client}
      {around : TypeScriptClient.Surroundings} {req : TypeScriptClient.InferenceRequest}
      {s : TypeScriptClient.SignedReceipt} {t : Text} {body : Json}
      (documented : around.viem.Documented around.crypto)
      (signed : s ∈ (TypeScriptClient.infer client around req).signed)
      (sent : .settle req.brainId (TypeScriptClient.settleBody s) ∈
        (TypeScriptClient.infer client around req).sent)
      (spelled : s.receipt.miner = .str t)
      (read : Js.stringify around.engine (TypeScriptClient.settleBody s) = some body) :
      Requests .settle body t s.encoded.miner

variable {t : Text} {m : Address}

/-- The text denotes the miner. -/
theorem Requests.denotes (h : Requests path body t m) : hexAddress t = some m := by
  have hpython : ∀ {client around req} {s : BasedClient.SignedReceipt},
      s ∈ (BasedClient.infer client around req).signed → s.receipt.miner = .str t →
      hexAddress t = some s.encoded.miner := by
    intro client around req s hsigned hspelled
    -- what a client signed over is what its text denotes
    obtain ⟨v, hv, hdenotes⟩ := (BasedClient.infer_encodes hsigned).miner
    rw [hspelled] at hv
    exact Json.str.inj hv ▸ hdenotes
  have htypeScript : ∀ {client} {around : TypeScriptClient.Surroundings} {req}
      {s : TypeScriptClient.SignedReceipt}, around.viem.Documented around.crypto →
      s ∈ (TypeScriptClient.infer client around req).signed → s.receipt.miner = .str t →
      hexAddress t = some s.encoded.miner := by
    intro client around req s hviem hsigned hspelled
    obtain ⟨v, hv, hdenotes⟩ :=
      hviem.address_denotes _ _ (TypeScriptClient.infer_encodes hviem hsigned).miner
    rw [hspelled] at hv
    exact Js.Value.str.inj hv ▸ hdenotes
  cases h with
  | pythonInfer hsigned _ hspelled => exact hpython hsigned hspelled
  | pythonSettle hsigned _ hspelled => exact hpython hsigned hspelled
  | typeScriptInfer hviem hsigned _ hspelled _ => exact htypeScript hviem hsigned hspelled
  | typeScriptSettle hviem hsigned _ hspelled _ => exact htypeScript hviem hsigned hspelled

/-- An inference request names its miner. -/
theorem Requests.names (h : Requests .infer body t m) :
    body.get "target_miner" .null = .ok (.str t) := by
  generalize hpath : Path.infer = p at h
  cases h with
  | pythonInfer _ _ hspelled =>
    rw [← hspelled]
    rfl
  | pythonSettle => cases hpath
  | typeScriptInfer _ _ _ hspelled hread =>
    rw [TypeScriptClient.inferBody, Js.stringify, Option.some.injEq] at hread
    rw [← hread, Json.get, hspelled]
    -- the names before it are others
    simp (disch := decide) only [Js.dictGet_stringifyEntries_ne, Js.dictGet_stringifyEntries_str,
      Option.getD_some]
  | typeScriptSettle => cases hpath

/-- A settle request names nobody. -/
theorem Requests.anonymous (h : Requests .settle body t m) :
    body.get "target_miner" .null = .ok .null := by
  generalize hpath : Path.settle = p at h
  cases h with
  | pythonInfer => cases hpath
  | pythonSettle => rfl
  | typeScriptInfer => cases hpath
  | typeScriptSettle _ _ _ _ hread =>
    rw [TypeScriptClient.settleBody, Js.stringify, Option.some.injEq] at hread
    rw [← hread, Json.get]
    rw [Js.dictGet_stringifyEntries_ne _ (by decide), Js.dictGet_stringifyEntries_ne _ (by decide)]
    rfl

/-! ## Reaching the miner -/

/-- The miner announced itself at the URL. -/
def AnnouncedAt (idx : MemberIndex) (brainId : Int) (m : Address) (url : Text) : Prop :=
  ∃ t ep, hexAddress t = some m ∧ idx.endpoints (brainId, t) = some ep ∧ ep.url = url

/-- The proxy dials the miner with the request, or nobody and reports an error. -/
def ReachesOnly (idx : MemberIndex) (brainId : Int) (m : Address) (path : Path) (body : Json) :
    Forward → Prop
  | .answer r => ∃ status message, r = errorResponse status message ∧ 500 ≤ status
  | .raised _ => True
  | .dial url path' body' => path' = path ∧ body' = body ∧ AnnouncedAt idx brainId m url

/-- The request names a miner with an endpoint, or the best listed miner is the one meant
or not dialled. -/
def Routable (app : App) (idx : MemberIndex) (inflight : Nat) (brainId now : Int) (path : Path)
    (t : Text) (m : Address) : Prop :=
  (path = .infer ∧ idx.endpointOf app.unicode brainId t ≠ none) ∨
    ∀ best, (idx.listMiners brainId (some now)).head? = some best →
      AnnouncedAt idx brainId m best.url ∨ app.urlGuard best.url ≠ .ok none ∨
        app.maxInflight ≤ inflight

/-- An address in lower case is the same address. -/
theorem hexAddress_lower (u : Unicode) (h : hexAddress t = some m) :
    hexAddress (lower u t) = some m := by
  rw [lower_ascii (isAscii_of_hexAddress h), hexAddress_lowerAscii]
  exact h

theorem announcedAt_endpointOf {u : Unicode} (h : hexAddress t = some m)
    (hurl : idx.endpointOf u brainId t = some url) : AnnouncedAt idx brainId m url := by
  obtain ⟨ep, hep, hsame⟩ := Option.map_eq_some_iff.mp hurl
  exact ⟨lower u t, ep, hexAddress_lower u h, hep, hsame⟩

/-- What remains to be checked is where the proxy dials. -/
theorem reachesOnly_iff : ReachesOnly idx brainId m path body
      (proxyToTarget app idx inflight brainId now path body) ↔
    ∀ url, targetUrl app idx brainId now body = .ok url → app.urlGuard url = .ok none →
      inflight < app.maxInflight → AnnouncedAt idx brainId m url := by
  cases hforward : proxyToTarget app idx inflight brainId now path body with
  | answer r =>
    -- with a URL, no objection and room, the proxy would have dialled
    refine ⟨fun _ url hurl hguard hroom => ?_, fun _ => proxy_answer hforward⟩
    rw [(proxy_dial_iff).mpr ⟨rfl, rfl, hurl, hguard, hroom⟩] at hforward
    cases hforward
  | raised e =>
    refine ⟨fun _ url hurl hguard hroom => ?_, fun _ => trivial⟩
    rw [(proxy_dial_iff).mpr ⟨rfl, rfl, hurl, hguard, hroom⟩] at hforward
    cases hforward
  | dial url path' body' =>
    obtain ⟨hpath, hbody, hurl, hguard, hroom⟩ := proxy_dial_iff.mp hforward
    constructor
    · rintro ⟨-, -, hthere⟩ url' hurl' - -
      rw [hurl, Except.ok.injEq] at hurl'
      exact hurl' ▸ hthere
    · exact fun h => ⟨hpath, hbody, h url hurl hguard hroom⟩

/-- The fallback reaches the miner just when the best listed one is harmless. -/
theorem fallback_iff (htarget : targetEndpoint app idx brainId body = .ok none) :
    ReachesOnly idx brainId m path body
        (proxyToTarget app idx inflight brainId now path body) ↔
      ∀ best, (idx.listMiners brainId (some now)).head? = some best →
        AnnouncedAt idx brainId m best.url ∨ app.urlGuard best.url ≠ .ok none ∨
          app.maxInflight ≤ inflight := by
  rw [reachesOnly_iff]
  constructor
  · intro h best hbest
    -- a URL the guard objects to, or a full gateway, is never dialled
    by_cases hguard : app.urlGuard best.url = .ok none
    · by_cases hroom : inflight < app.maxInflight
      · exact .inl (h _ ((targetUrl_fallback htarget).mpr ⟨best, hbest, rfl⟩) hguard hroom)
      · exact .inr (.inr (not_lt.mp hroom))
    · exact .inr (.inl hguard)
  · intro h url hurl hguard hroom
    obtain ⟨best, hbest, rfl⟩ := (targetUrl_fallback htarget).mp hurl
    rcases h best hbest with hthere | hblocked | hfull
    · exact hthere
    · exact absurd hguard hblocked
    · exact absurd hroom (not_lt.mpr hfull)

/-- **When a request reaches the miner it was signed for.** Whatever the index has become
since the miners were listed, a client's request is passed to its miner or to nobody just
when it names a miner with an endpoint, or the fallback does no harm. -/
theorem reaches_miner_iff (app : App) (idx : MemberIndex) (inflight : Nat) (brainId now : Int)
    (h : Requests path body t m) :
    ReachesOnly idx brainId m path body
        (proxyToTarget app idx inflight brainId now path body) ↔
      Routable app idx inflight brainId now path t m := by
  have hdenotes : hexAddress t = some m := h.denotes
  have hne : t ≠ [] := by
    rintro rfl
    cases hdenotes
  cases path with
  | infer =>
    cases hurl : idx.endpointOf app.unicode brainId t with
    | some url =>
      refine iff_of_true (reachesOnly_iff.mpr ?_) (.inl ⟨rfl, by rw [hurl]; exact nofun⟩)
      intro url' hurl' _ _
      rw [targetUrl_named h.names hne hurl, Except.ok.injEq] at hurl'
      exact hurl' ▸ announcedAt_endpointOf hdenotes hurl
    | none =>
      -- the miner is gone, and the best listed one is dialled
      have htarget : targetEndpoint app idx brainId body = .ok none := by
        rw [targetEndpoint, h.names, ok_bind]
        dsimp only
        rw [if_neg hne, hurl]
        rfl
      rw [fallback_iff htarget, Routable, hurl]
      exact ⟨.inr, fun hroute => hroute.resolve_left fun hnamed => hnamed.2 rfl⟩
  | settle =>
    have htarget : targetEndpoint app idx brainId body = .ok none := by
      rw [targetEndpoint, h.anonymous, ok_bind]
      rfl
    rw [fallback_iff htarget, Routable]
    exact ⟨.inr, fun hroute => hroute.resolve_left fun hnamed => by cases hnamed.1⟩

/-! ## A settle request that goes elsewhere -/

set_option maxRecDepth 4000 in
/-- The toy call sends both requests, for account 7. -/
theorem toy_requests : ∃ p f,
    (BasedClient.infer toyClient toySurroundings toyRequest).signed = [p, f] ∧
      (BasedClient.infer toyClient toySurroundings toyRequest).sent =
        [.infer 3 (BasedClient.inferBody toyRequest p), .settle 3 (BasedClient.settleBody f)] ∧
      p.receipt.miner = toyMinerAddress ∧ f.receipt.miner = toyMinerAddress ∧
      p.encoded.miner = 7 ∧ f.encoded.miner = 7 :=
  ⟨_, _, rfl, rfl, rfl, rfl, by decide +kernel, by decide +kernel⟩

def toySeven : Text := text "0x0000000000000000000000000000000000000007"

/-- Account 8, who is listed with a better score. -/
def toyRival : Text := text "0x0000000000000000000000000000000000000008"

/-- Both accounts are registered with Brain 3 and announced, and the rival's score is 5. -/
def toyRanked : MemberIndex :=
  let u := toyApp.unicode
  let registered := (MemberIndex.empty toyPollerConfig).replaceMembership u
    [⟨.minerRegistered, 3, toySeven, 1, 0⟩, ⟨.minerRegistered, 3, toyRival, 1, 1⟩]
  let announced := registered.announce u 3 toySeven (text "https://m") 100
  (announced.announce u 3 toyRival (text "https://n") 100).setScore u 3 toyRival (.finite 5)

theorem toyRanked_best : ∃ best, (toyRanked.listMiners 3 (some 200)).head? = some best ∧
    best.url = text "https://n" := by
  have hentries : (toyRanked.miners 3).filterMap (toyRanked.entry 3 (some 200)) =
      [⟨toySeven, text "https://m", .finite 0⟩, ⟨toyRival, text "https://n", .finite 5⟩] := rfl
  have hgt : PyFloat.gt (.finite 5) (.finite 0) = true := by decide +kernel
  rw [MemberIndex.listMiners, hentries]
  exact ⟨⟨toyRival, text "https://n", .finite 5⟩, by simp [List.mergeSort, hgt], rfl⟩

/-- Account 7 is not announced at the rival's URL. -/
theorem toyRanked_announced : ¬ AnnouncedAt toyRanked 3 7 (text "https://n") := by
  rintro ⟨t, ep, hdenotes, hep, hurl⟩
  have hendpoints : toyRanked.endpoints = Function.update (Function.update (Function.update
      (fun _ => none) (3, toySeven) (some ⟨text "https://m", .finite 0, 100⟩))
      (3, toyRival) (some ⟨text "https://n", .finite 0, 100⟩))
      (3, toyRival) (some ⟨text "https://n", .finite 5, 100⟩) := rfl
  rw [hendpoints] at hep
  by_cases hrival : t = toyRival
  · -- that is another account
    rw [hrival] at hdenotes
    exact absurd hdenotes (by decide +kernel)
  · have hother : ((3 : Int), t) ≠ (3, toyRival) := fun h => hrival (Prod.mk.inj h).2
    rw [Function.update_of_ne hother, Function.update_of_ne hother] at hep
    by_cases hseven : t = toySeven
    · rw [hseven, Function.update_self, Option.some.injEq] at hep
      rw [← hep] at hurl
      exact absurd hurl (by decide +kernel)
    · rw [Function.update_of_ne fun h => hseven (Prod.mk.inj h).2] at hep
      cases hep

/-- With the same ranking, the inference request reaches account 7. -/
theorem reaches_miner_named : ∃ body, Requests .infer body toySeven 7 ∧
    ReachesOnly toyRanked 3 7 .infer body
      (proxyToTarget toyApp toyRanked 0 3 200 .infer body) := by
  obtain ⟨p, f, hsigned, hsent, hspelled, -, hminer, -⟩ := toy_requests
  have hrequest : Requests .infer (BasedClient.inferBody toyRequest p) toySeven 7 := by
    rw [← hminer]
    refine @Requests.pythonInfer toyClient toySurroundings toyRequest p _ ?_ ?_ hspelled
    · rw [hsigned]
      exact List.mem_cons_self
    · rw [hsent]
      exact List.mem_cons_self
  refine ⟨_, hrequest, (reaches_miner_iff toyApp toyRanked 0 3 200 hrequest).mpr ?_⟩
  exact .inl ⟨rfl, by decide +kernel⟩

/-- The settle request for account 7 is passed on to the rival. -/
theorem settle_reaches_rival : ∃ body, Requests .settle body toySeven 7 ∧
    proxyToTarget toyApp toyRanked 0 3 200 .settle body = .dial (text "https://n") .settle body ∧
    toyRanked.endpointOf toyApp.unicode 3 toySeven = some (text "https://m") ∧
    ¬ ReachesOnly toyRanked 3 7 .settle body
      (proxyToTarget toyApp toyRanked 0 3 200 .settle body) := by
  obtain ⟨p, f, hsigned, hsent, -, hspelled, -, hminer⟩ := toy_requests
  have hrequest : Requests .settle (BasedClient.settleBody f) toySeven 7 := by
    rw [← hminer]
    refine @Requests.pythonSettle toyClient toySurroundings toyRequest f _ ?_ ?_ hspelled
    · rw [hsigned]
      exact List.mem_cons_of_mem _ List.mem_cons_self
    · rw [hsent]
      exact List.mem_cons_of_mem _ List.mem_cons_self
  have hdial : proxyToTarget toyApp toyRanked 0 3 200 .settle (BasedClient.settleBody f) =
      .dial (text "https://n") .settle (BasedClient.settleBody f) := by
    rw [proxy_dial_iff]
    refine ⟨rfl, rfl, ?_, rfl, by decide⟩
    refine (targetUrl_fallback ?_).mpr toyRanked_best
    -- a settle request names no miner, so the best one gets it
    rw [targetEndpoint, hrequest.anonymous, ok_bind]
    rfl
  refine ⟨_, hrequest, hdial, by decide +kernel, ?_⟩
  rw [hdial]
  exact fun hreaches => toyRanked_announced hreaches.2.2

end Gateway

end BasedAI
