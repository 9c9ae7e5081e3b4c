import BasedAI.Gateway.Ranking
import BasedAI.Gateway.Routing

/-!
# BasedAI — which endpoint stands, and which is dialled

An announcement is checked against the clock, not against the one it replaces: of those
delivered within the window, the last stands, whichever is newest. And the proxy lists
registered miners with fresh announcements only, but looks up a miner that is named in the
endpoints alone, whether it is still registered and however old its announcement is.

* `admitAnnounce_ok`   — everything an announcement is checked for;
* `announced_url_iff`  — when the newest announcement stands;
* `listMiners_live`    — the listed miners are live;
* `dials_live_iff`     — when the proxy dials live miners only.
-/

namespace BasedAI

open Fallible Python Transition

namespace Gateway

/-! ## What an announcement is checked for -/

section Announce

variable {app : App} {idx : MemberIndex} {brainId now : Int} {body : Json} {a : Announcement}

theorem attemptElse_ok {α : Type} {x : Py α} {r : Response} {v : α} :
    attemptElse x r = .ok v ↔ x = .ok v :=
  mapError_ok

/-- The body is an announcement, in time, of a URL that may be dialled, and signed by the
address it names. -/
structure ValidAnnounce (app : App) (brainId now : Int) (body : Json) (a : Announcement) :
    Prop where
  signed : ∃ signature signer, readAnnouncement app body = .ok (a, signature) ∧
    recoverAnnounce app brainId a.url a.ts signature = .ok signer ∧
    lower app.unicode signer = lower app.unicode a.address
  fresh : |now - a.ts| ≤ ANNOUNCE_MAX_AGE
  guarded : app.urlGuard a.url = .ok none

theorem admitAnnounce_ok : admitAnnounce app idx brainId now body = .ok a ↔
    ValidAnnounce app brainId now body a ∧
      idx.isMiner app.unicode brainId a.address = true := by
  unfold admitAnnounce
  simp only [bind_ok, attemptElse_ok, attempt_ok, revertIf_ok, not_lt]
  constructor
  · rintro ⟨⟨read, signature⟩, hread, -, hfresh, reason, hguard, hrest⟩
    -- a URL the guard objects to is refused before the signature is looked at
    cases reason with
    | some reason => cases hrest
    | none =>
      simp only [bind_ok, mapError_ok, revertIf_ok, return_ok, not_not, Bool.not_eq_false]
        at hrest
      obtain ⟨signer, hsigner, -, hsame, -, hmember, rfl⟩ := hrest
      exact ⟨⟨⟨signature, signer, hread, hsigner, hsame⟩, hfresh, hguard⟩, hmember⟩
  · rintro ⟨⟨⟨signature, signer, hread, hsigner, hsame⟩, hfresh, hguard⟩, hmember⟩
    refine ⟨(a, signature), hread, (), hfresh, none, hguard, ?_⟩
    simp only [bind_ok, mapError_ok, revertIf_ok, return_ok, not_not, Bool.not_eq_false]
    exact ⟨signer, hsigner, (), hsame, (), hmember, trivial⟩

end Announce

/-! ## Announcements in any order -/

section Deliveries

variable {app : App} {idx : MemberIndex} {brainId : Int} {t : Text}

/-- An announcement that somebody delivers, at a moment. -/
structure Delivery where
  now : Int
  body : Json
  announcement : Announcement

/-- The delivery brings a valid announcement of the miner. -/
structure Delivers (app : App) (brainId : Int) (t : Text) (d : Delivery) : Prop where
  valid : ValidAnnounce app brainId d.now d.body d.announcement
  own : lower app.unicode d.announcement.address = lower app.unicode t

/-- The index after the deliveries, in their order. -/
def deliverAll (app : App) (brainId : Int) (idx : MemberIndex) (ds : List Delivery) :
    MemberIndex :=
  ds.foldl (fun idx d => announce app idx brainId d.now d.body) idx

/-- Among the announcements delivered, this one has the greatest timestamp. -/
def Newest (ds : List Delivery) (a : Announcement) : Prop :=
  (∃ d ∈ ds, d.announcement = a) ∧ ∀ d ∈ ds, d.announcement.ts ≤ a.ts

/-- What a delivery writes. -/
theorem announce_delivered {d : Delivery} (h : Delivers app brainId t d)
    (hminer : idx.isMiner app.unicode brainId t = true) :
    announce app idx brainId d.now d.body =
      idx.announce app.unicode brainId t d.announcement.url d.announcement.ts := by
  have hmember : idx.isMiner app.unicode brainId d.announcement.address = true := by
    unfold MemberIndex.isMiner at hminer ⊢
    rw [h.own]
    exact hminer
  unfold announce
  rw [admitAnnounce_ok.mpr ⟨h.valid, hmember⟩]
  dsimp only
  unfold MemberIndex.announce
  rw [h.own]

/-- **The last one stands.** -/
theorem deliverAll_endpoint (hminer : idx.isMiner app.unicode brainId t = true)
    {ds : List Delivery} (hds : ∀ d ∈ ds, Delivers app brainId t d) :
    (deliverAll app brainId idx ds).endpointOf app.unicode brainId t =
      match ds.getLast? with
      | none => idx.endpointOf app.unicode brainId t
      | some d => some d.announcement.url := by
  -- announcing does not change who is a miner
  have hminers : ∀ ds, (deliverAll app brainId idx ds).isMiner app.unicode brainId t = true := by
    intro ds
    induction ds using List.reverseRecOn with
    | nil => exact hminer
    | append_singleton ds d ih =>
      rw [deliverAll, List.foldl_concat]
      unfold MemberIndex.isMiner at ih ⊢
      rw [(announce_members app _ brainId d.now d.body).1]
      exact ih
  -- the last delivery overwrites what stood there
  induction ds using List.reverseRecOn with
  | nil => rfl
  | append_singleton ds d =>
    have hd : Delivers app brainId t d := hds d (List.mem_append_right _ List.mem_cons_self)
    rw [deliverAll, List.foldl_concat, List.getLast?_concat]
    have hstep := announce_delivered hd (hminers ds)
    unfold deliverAll at hstep
    rw [hstep]
    unfold MemberIndex.endpointOf MemberIndex.announce
    dsimp only
    rw [Function.update_self]
    rfl

/-- **When announcements are not rolled back.** However valid announcements of a registered
miner are delivered, the endpoint is at the URL of the newest just when the last delivery
brings that URL. -/
theorem announced_url_iff (hminer : idx.isMiner app.unicode brainId t = true)
    {ds : List Delivery} (hds : ∀ d ∈ ds, Delivers app brainId t d) {a : Announcement}
    (hnewest : Newest ds a) :
    (deliverAll app brainId idx ds).endpointOf app.unicode brainId t = some a.url ↔
      ∃ d, ds.getLast? = some d ∧ d.announcement.url = a.url := by
  rw [deliverAll_endpoint hminer hds]
  cases hlast : ds.getLast? with
  | none =>
    -- the newest announcement was delivered
    obtain ⟨⟨d, hd, -⟩, -⟩ := hnewest
    rw [List.getLast?_eq_none_iff.mp hlast] at hd
    exact absurd hd List.not_mem_nil
  | some d =>
    dsimp only
    rw [Option.some.injEq]
    constructor
    · exact fun h => ⟨d, rfl, h⟩
    · rintro ⟨_, ⟨⟩, h⟩
      exact h

end Deliveries

/-! ## Live miners -/

section Live

variable {app : App} {idx : MemberIndex} {brainId now : Int} {url : Text}

/-- The text is a registered miner that announced the URL, no longer ago than the time to
live. A time to live of 0 is none. -/
def FreshAt (idx : MemberIndex) (brainId now : Int) (t url : Text) : Prop :=
  t ∈ idx.miners brainId ∧ ∃ ep, idx.endpoints (brainId, t) = some ep ∧ ep.url = url ∧
    (idx.ttl ≠ 0 → now - ep.ts ≤ idx.ttl)

/-- The URL is that of a live miner. -/
def Live (idx : MemberIndex) (brainId now : Int) (url : Text) : Prop :=
  ∃ t, FreshAt idx brainId now t url

theorem stale_eq_false {ep : Endpoint} :
    idx.stale (some now) ep = false ↔ (idx.ttl ≠ 0 → now - ep.ts ≤ idx.ttl) := by
  unfold MemberIndex.stale
  dsimp only
  rw [decide_eq_false_iff_not, not_and, not_lt]

/-- The listed miners are live. -/
theorem listMiners_live {m : MinerEntry} (h : m ∈ idx.listMiners brainId (some now)) :
    FreshAt idx brainId now m.address m.url := by
  obtain ⟨hmember, ep, hep, hfresh, hurl, -⟩ := MemberIndex.mem_listMiners.mp h
  exact ⟨hmember, ep, hep, hurl.symm, stale_eq_false.mp hfresh⟩

/-- What happens to a gateway that also serves requests. -/
inductive ProxyEvent {T : Type} (env : RegistryEnv T) (crypto : Crypto)
  | gateway (l : GatewayEvent env crypto)
  | request (inflight : Nat) (brainId now : Int) (path : Path) (body : Json)

variable {T : Type} {env : RegistryEnv T} {crypto : Crypto} {config : PollerConfig}

/-- A request changes nothing of the index. -/
inductive ProxyStep (app : App) (config : PollerConfig) :
    Poller → ProxyEvent env crypto → Poller → Prop
  | gateway {p p' : Poller} {l : GatewayEvent env crypto} (h : GatewayStep app config p l p') :
      ProxyStep app config p (.gateway l) p'
  | request {p : Poller} (inflight : Nat) (brainId now : Int) (path : Path) (body : Json) :
      ProxyStep app config p (.request inflight brainId now path body) p

/-- A URL that is dialled is that of a live miner. -/
def DialsLive (app : App) (p : Poller) : ProxyEvent env crypto → Prop
  | .gateway _ => True
  | .request inflight brainId now path body => ∀ url path' body',
      proxyToTarget app p.index inflight brainId now path body = .dial url path' body' →
        Live p.index brainId now url

/-- A miner that is named and can be dialled is registered and its announcement fresh, or
some other such miner is at the same URL. -/
def NamesLive (app : App) (p : Poller) : ProxyEvent env crypto → Prop
  | .gateway _ => True
  | .request inflight brainId now _ body => ∀ t url,
      body.get "target_miner" .null = .ok (.str t) → t ≠ [] →
        p.index.endpointOf app.unicode brainId t = some url → app.urlGuard url = .ok none →
        inflight < app.maxInflight →
          FreshAt p.index brainId now (lower app.unicode t) url ∨
            ∃ other ≠ lower app.unicode t, FreshAt p.index brainId now other url

/-- Where the proxy finds its URL. -/
theorem targetUrl_ok {body : Json} (h : targetUrl app idx brainId now body = .ok url) :
    (∃ t, body.get "target_miner" .null = .ok (.str t) ∧ t ≠ [] ∧
      idx.endpointOf app.unicode brainId t = some url) ∨
    ∃ m ∈ idx.listMiners brainId (some now), m.url = url := by
  unfold targetUrl at h
  obtain ⟨target, htarget, hrest⟩ := bind_ok.mp h
  cases target with
  | some found =>
    -- the body names a miner
    obtain rfl : found = url := return_ok.mp hrest
    left
    unfold targetEndpoint at htarget
    obtain ⟨v, hv, hfound⟩ := bind_ok.mp (attempt_ok.mp htarget)
    split at hfound
    · rename_i t
      split at hfound
      · cases return_ok.mp hfound
      · rename_i ht
        exact ⟨t, hv, ht, return_ok.mp hfound⟩
    · split at hfound
      · cases hfound
      · cases return_ok.mp hfound
  | none =>
    right
    dsimp only at hrest
    split at hrest
    · cases hrest
    · rename_i best rest hlist
      rw [hlist]
      exact ⟨best, List.mem_cons_self, return_ok.mp hrest⟩

/-- The listed miners may always be dialled. -/
theorem dialsLive_iff (p : Poller) (l : ProxyEvent env crypto) :
    DialsLive app p l ↔ NamesLive app p l := by
  cases l with
  | gateway l => exact Iff.rfl
  | request inflight brainId now path body =>
    unfold DialsLive NamesLive
    dsimp only
    constructor
    · intro h t url hbody ht hurl hguard hroom
      -- the body names a miner whose endpoint is dialled
      have hdial : proxyToTarget app p.index inflight brainId now path body =
          .dial url path body :=
        proxy_dial_iff.mpr ⟨rfl, rfl, targetUrl_named hbody ht hurl, hguard, hroom⟩
      obtain ⟨other, hother⟩ := h url path body hdial
      by_cases hsame : other = lower app.unicode t
      · exact .inl (hsame ▸ hother)
      · exact .inr ⟨other, hsame, hother⟩
    · intro h url path' body' hdial
      obtain ⟨-, -, hurl, hguard, hroom⟩ := proxy_dial_iff.mp hdial
      rcases targetUrl_ok hurl with ⟨t, hbody, ht, hnamed⟩ | ⟨m, hm, rfl⟩
      · rcases h t url hbody ht hnamed hguard hroom with hfresh | ⟨other, -, hfresh⟩
        · exact ⟨_, hfresh⟩
        · exact ⟨other, hfresh⟩
      · -- the listing leaves stale endpoints out
        exact ⟨m.address, listMiners_live hm⟩

/-- **When only live miners are dialled.** In a run of polls of any chains, restarts,
announcements, submissions and requests, every URL that is dialled is that of a live miner
just when every request that names a miner with an endpoint names a live one. -/
theorem dials_live_iff (app : App) (config : PollerConfig) (p₀ : Poller)
    (ls : List (ProxyEvent env crypto)) (t : Poller) :
    (∀ p l q, Along (ProxyStep app config) p₀ ls t p l q → DialsLive app p l) ↔
      ∀ p l q, Along (ProxyStep app config) p₀ ls t p l q → NamesLive app p l := by
  refine forall_congr' fun p => forall_congr' fun l => forall_congr' fun q => ?_
  exact imp_congr_right fun _ => dialsLive_iff p l

end Live

/-! ## A miner that is gone -/

/-- A request that names account 7. -/
def toyNaming : Json := .dict [(text "target_miner", .str toyScored)]

/-- Account 7 registers and announces itself; then the block it registered in is replaced,
and a request names it. -/
def toyGone : List (ProxyEvent toyRegistryEnv toyCrypto) :=
  [.gateway (.poll toyOrphan), .gateway (.announce 3 100 (toyAnnouncement 100)),
    .gateway (.poll toyCanonical), .request 0 3 110 .infer toyNaming]

/-- It is dialled, although nobody is registered. -/
theorem gone_miner_dialled : ∃ p t, boot toyPollerConfig none = .ok p ∧
    Run (ProxyStep toyApp toyPollerConfig) p toyGone t ∧ t.index.miners 3 = [] ∧
    proxyToTarget toyApp t.index 0 3 110 .infer toyNaming =
      .dial (text "https://m") .infer toyNaming ∧
    ¬ Live t.index 3 110 (text "https://m") := by
  obtain ⟨p, t, hp, hrun, hminers, hurl⟩ : ∃ p t, boot toyPollerConfig none = .ok p ∧
      Run (ProxyStep toyApp toyPollerConfig) p toyGone t ∧ t.index.miners 3 = [] ∧
      t.index.endpointOf toyApp.unicode 3 toyScored = some (text "https://m") :=
    ⟨_, _, boot_none, .cons (.gateway (.poll _)) (.cons (.gateway (.announce _ _ _))
      (.cons (.gateway (.poll _)) (.single (.request _ _ _ _ _)))), by decide +kernel,
      by decide +kernel⟩
  refine ⟨p, t, hp, hrun, hminers, ?_, ?_⟩
  · exact proxy_dial_iff.mpr ⟨rfl, rfl, targetUrl_named rfl (by decide) hurl, rfl, by decide⟩
  · rintro ⟨other, hmember, -⟩
    rw [hminers] at hmember
    exact absurd hmember List.not_mem_nil

/-! ## An announcement that is delivered again -/

/-- Account 7 moves to a URL. -/
def toyMove (url : Text) (ts : Int) : Json :=
  .dict [
    (text "address", .str toyScored),
    (text "url", .str url),
    (text "ts", .int ts),
    (text "signature", .str (text "0x0700"))]

/-- It moved from one URL to another at the moment 220. -/
def toyOld : Announcement := ⟨toyScored, text "https://m", 100⟩

def toyNew : Announcement := ⟨toyScored, text "https://n", 220⟩

/-- The gateway knows that it is a miner of Brain 3. -/
def toyKnown : MemberIndex :=
  (MemberIndex.empty toyPollerConfig).applyEvent toyApp.unicode
    ⟨.minerRegistered, 3, toyScored, 1, 0⟩

theorem toyKnown_isMiner : toyKnown.isMiner toyApp.unicode 3 toyScored = true := by
  decide +kernel

/-- What the signature of an announcement is checked for. -/
abbrev ToySigned (body : Json) (a : Announcement) : Prop :=
  ∃ signature signer, readAnnouncement toyApp body = .ok (a, signature) ∧
    recoverAnnounce toyApp 3 a.url a.ts signature = .ok signer ∧
    lower toyApp.unicode signer = lower toyApp.unicode a.address

set_option maxRecDepth 4000 in
theorem toyMove_signed : ToySigned (toyMove (text "https://m") 100) toyOld ∧
    ToySigned (toyMove (text "https://n") 220) toyNew :=
  ⟨⟨_, _, rfl, rfl, rfl⟩, _, _, rfl, rfl, rfl⟩

/-- Until the moment 700 either announcement is valid, whoever delivers it. -/
theorem toyMove_delivers {now : Int} (hnow : 220 ≤ now ∧ now ≤ 700) :
    Delivers toyApp 3 toyScored ⟨now, toyMove (text "https://m") 100, toyOld⟩ ∧
      Delivers toyApp 3 toyScored ⟨now, toyMove (text "https://n") 220, toyNew⟩ := by
  have hold : |now - 100| ≤ 600 := by
    rw [abs_le]
    omega
  have hnew : |now - 220| ≤ 600 := by
    rw [abs_le]
    omega
  exact ⟨⟨⟨toyMove_signed.1, hold, rfl⟩, rfl⟩, ⟨toyMove_signed.2, hnew, rfl⟩, rfl⟩

/-- Both are delivered at the moment `now`. -/
def toyDeliveries (now : Int) : List Delivery :=
  [⟨now, toyMove (text "https://m") 100, toyOld⟩, ⟨now, toyMove (text "https://n") 220, toyNew⟩]

/-- Delivered in order, the new one stands. -/
theorem announced_url_in_order :
    Newest (toyDeliveries 230) toyNew ∧
      (deliverAll toyApp 3 toyKnown (toyDeliveries 230)).endpointOf toyApp.unicode 3 toyScored =
        some (text "https://n") := by
  obtain ⟨hold, hnew⟩ := toyMove_delivers (by decide : 220 ≤ (230 : Int) ∧ (230 : Int) ≤ 700)
  have hnewest : Newest (toyDeliveries 230) toyNew := by
    refine ⟨⟨_, List.mem_cons_of_mem _ List.mem_cons_self, rfl⟩, ?_⟩
    simp [toyDeliveries, toyOld, toyNew]
  refine ⟨hnewest, (announced_url_iff toyKnown_isMiner ?_ hnewest).mpr ⟨_, rfl, rfl⟩⟩
  simp only [toyDeliveries, List.forall_mem_cons]
  exact ⟨hold, hnew, fun _ h => absurd h List.not_mem_nil⟩

/-- Whoever delivers the old one again rolls it back. -/
theorem old_announcement_stands :
    (∀ d ∈ toyDeliveries 230 ++ [⟨240, toyMove (text "https://m") 100, toyOld⟩],
      Delivers toyApp 3 toyScored d) ∧
    Newest (toyDeliveries 230 ++ [⟨240, toyMove (text "https://m") 100, toyOld⟩]) toyNew ∧
    (deliverAll toyApp 3 toyKnown (toyDeliveries 230 ++
      [⟨240, toyMove (text "https://m") 100, toyOld⟩])).endpointOf toyApp.unicode 3 toyScored =
        some (text "https://m") ∧
    some (text "https://m") ≠ some toyNew.url := by
  obtain ⟨hold, hnew⟩ := toyMove_delivers (by decide : 220 ≤ (230 : Int) ∧ (230 : Int) ≤ 700)
  obtain ⟨hagain, -⟩ := toyMove_delivers (by decide : 220 ≤ (240 : Int) ∧ (240 : Int) ≤ 700)
  -- all three are fresh, and the miner signed them
  have hall : ∀ d ∈ toyDeliveries 230 ++ [⟨240, toyMove (text "https://m") 100, toyOld⟩],
      Delivers toyApp 3 toyScored d := by
    simp only [toyDeliveries, List.cons_append, List.nil_append, List.forall_mem_cons]
    exact ⟨hold, hnew, hagain, fun _ h => absurd h List.not_mem_nil⟩
  refine ⟨hall, ⟨⟨_, List.mem_cons_of_mem _ List.mem_cons_self, rfl⟩, ?_⟩, ?_, by decide⟩
  · simp [toyDeliveries, toyOld, toyNew]
  · rw [deliverAll_endpoint toyKnown_isMiner hall]
    rfl

end Gateway

end BasedAI
