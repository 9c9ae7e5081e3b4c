import BasedAI.Gateway.Process
import BasedAI.System.SignedMessages

/-!
# BasedAI — announcements from the miner to the dial

The miner signs where it can be reached (`http_server.py`), and the gateway takes it from there:
it checks the signature, keeps the URL, and dials it when a request comes. The two sides lay the
signed message out on their own and are to be kept in lockstep.

* `announcePreimage_lockstep` — they are;
* `Displaces`                 — the steps that take an endpoint away;
* `announcement_reaches`      — when what the miner sends is accepted, and that it is dialled
  until then;
* `announcePreimage_inj`      — a signed announcement is for one Brain, one URL and one moment;
* `endpoints_authentic`       — nobody but a miner sets its endpoint, and nothing else is dialled.
-/

namespace BasedAI

open Fallible Python Transition Mapping

/-! ## The miner's side -/

namespace Miner

/-- What `_announce_digest` hashes. -/
def announcePreimage (crypto : Crypto) (brainId : Int) (url : Text) (ts : Int) : Py Bytes := do
  let domain := crypto.keccak256 (asciiBytes "BasedAI:MinerAnnounce:v1")
  let brain ← encodeUint 256 brainId
  let bytes ← orRaise .unicodeEncodeError (utf8 url)
  let moment ← encodeUint 256 ts
  return abiEncode [domain.val, brain.val, 128, moment.val] ++
    abiEncode [bytes.length] ++ Gateway.padWords bytes

end Miner

namespace Gateway

variable {app : App} {idx : MemberIndex} {account : Account} {brainId now ts : Int} {url : Text}
  {payload body : Json} {a : Announcement}

/-- The two signing conventions are one. -/
theorem announcePreimage_lockstep (crypto : Crypto) (brainId : Int) (url : Text) (ts : Int) :
    Miner.announcePreimage crypto brainId url ts = announcePreimage crypto brainId url ts :=
  rfl

/-- The gateway reads what the miner has written. -/
theorem readAnnouncement_payload {address url signature : Text} {ts : Int} {a : Address}
    (haddress : hexAddress address = some a) :
    readAnnouncement app (.dict [(text "address", .str address), (text "url", .str url),
      (text "ts", .int ts), (text "signature", .str signature)]) =
        .ok (⟨toChecksum app.crypto a, url, ts⟩, .str signature) := by
  have hread : toChecksumAddress app.crypto (.str address) = .ok (toChecksum app.crypto a) := by
    rw [toChecksumAddress, haddress]
    rfl
  simp only [readAnnouncement, bind_ok, return_ok]
  exact ⟨.str address, rfl, _, hread, .str url, rfl, .int ts, rfl, ts, rfl, .str signature, rfl,
    rfl⟩

/-- A signature is read back from its digits. -/
theorem signatureBytes_hexlify (sig : Bytes) :
    signatureBytes (.str (text "0x" ++ hexlify sig)) = .ok sig := by
  have hdigits := unhexlify_hexlify sig
  have heven := unhexlify_length hdigits
  show hexBytes (text "0x" ++ hexlify sig) = .ok sig
  unfold hexBytes
  dsimp only
  rw [remove0xPrefix_text_0x, if_neg (by omega), hdigits]
  rfl

/-- The step takes the endpoint from `k`, or puts another in its place: an announcement for it is
accepted, or the membership is rebuilt from a history in which the miner leaves. -/
def Displaces (app : App) (k : MemberKey) (s : Process) : ProcessEvent → Prop
  | .handled .announce brainId now body =>
    ∃ a, admitAnnounce app s.index brainId now body = .ok a ∧
      (brainId, lower app.unicode a.address) = k
  | .polled events => (k, false) ∈ minerChanges app.unicode events
  | _ => False

/-- A score changes neither the URL nor the moment of an endpoint. -/
theorem submitScores_announced (k : MemberKey) :
    ((submitScores app idx brainId body).endpoints k).map (fun ep => (ep.url, ep.ts)) =
      (idx.endpoints k).map fun ep => (ep.url, ep.ts) := by
  rw [submitScores, setScores_endpoints]
  split
  · rfl
  · rw [Option.map_map]
    rfl

/-- The endpoint of `k` is at `url`. -/
def IsAt (k : MemberKey) (url : Text) (s : Process) : Prop :=
  ∃ ep, s.index.endpoints k = some ep ∧ ep.url = url

/-- **One step** that displaces nothing. -/
theorem IsAt.step {limits : Limits} {s s' : Process} {l : ProcessEvent} {k : MemberKey}
    (h : IsAt k url s) (hstep : ProcessStep app limits s l s') (hkeeps : ¬ Displaces app k s l) :
    IsAt k url s' := by
  obtain ⟨ep, hep, rfl⟩ := h
  rcases step_index hstep with ⟨brainId, now, body, rfl, hindex⟩ |
    ⟨brainId, now, body, rfl, hindex⟩ | ⟨events, rfl, hindex⟩ | hindex
  · refine ⟨ep, ?_, rfl⟩
    rw [hindex, Gateway.announce]
    cases hadmitted : admitAnnounce app s.index brainId now body with
    | error e => exact hep
    | ok a =>
      -- it is somebody else's
      have hother : k ≠ (brainId, lower app.unicode a.address) :=
        fun heq => hkeeps ⟨a, hadmitted, heq.symm⟩
      exact (Function.update_of_ne hother _ _).trans hep
  · have hsame := @submitScores_announced app s.index brainId body k
    rw [hep] at hsame
    obtain ⟨ep', hep', heq⟩ := Option.map_eq_some_iff.mp hsame
    exact ⟨ep', by rw [hindex]; exact hep', congrArg Prod.fst heq⟩
  · -- a rebuild takes the endpoints of those who leave in the history it replays
    have hstays : (k, false) ∉ minerChanges app.unicode events := hkeeps
    refine ⟨ep, ?_, rfl⟩
    rw [hindex, MemberIndex.replace_endpoints, if_neg hstays]
    exact hep
  · exact ⟨ep, by rw [hindex]; exact hep, rfl⟩

/-- **Whole runs** that displace nothing. -/
theorem IsAt.run {limits : Limits} {s s' : Process} {ls : List ProcessEvent} {k : MemberKey}
    (h : IsAt k url s)
    (hrun : Run (restrict (ProcessStep app limits) fun p l => ¬ Displaces app k p l) s ls s') :
    IsAt k url s' :=
  hrun.invariant (I := IsAt k url) (fun hstep hat => hat.step hstep.1 hstep.2) h

/-- **What is signed is one announcement**: the Brain, the URL and the moment can be read off
the bytes. -/
theorem announcePreimage_inj {crypto : Crypto} {brainId' ts' : Int} {url' : Text}
    {preimage : Bytes} (h : announcePreimage crypto brainId url ts = .ok preimage)
    (h' : announcePreimage crypto brainId' url' ts' = .ok preimage) :
    brainId' = brainId ∧ url' = url ∧ ts' = ts := by
  simp only [announcePreimage, bind_ok, orRevert_ok, return_ok] at h h'
  obtain ⟨b, hb, bytes, hurl, t, ht, rfl⟩ := h
  obtain ⟨b', hb', bytes', hurl', t', ht', heq⟩ := h'
  obtain ⟨rfl, rfl, rfl⟩ := announcement_inj heq
  exact ⟨(encodeUint_ok hb').symm.trans (encodeUint_ok hb), utf8_inj hurl' hurl,
    (encodeUint_ok ht').symm.trans (encodeUint_ok ht)⟩

/-! ## Endpoints are their miners' -/

/-- What the gateway hashes and recovers with. -/
def App.signing (app : App) : Crypto := ⟨app.crypto.keccak256, app.recoverMessage⟩

/-- The announcements that are delivered in a run, as the bytes to sign, with the signatures
that come with them. -/
def presentedAnnouncements (app : App) (ls : List ProcessEvent) : Set (Bytes × Bytes) :=
  {m | ∃ brainId now body a signature, .handled .announce brainId now body ∈ ls ∧
    readAnnouncement app body = .ok (a, signature) ∧
    announcePreimage app.crypto brainId a.url a.ts = .ok m.1 ∧ signatureBytes signature = .ok m.2}

/-- The messages that matter: what anybody has signed, and what is delivered. -/
def announcementsOf (app : App) (signedBy : Address → Set Bytes) (ls : List ProcessEvent) :
    Set Bytes :=
  {m | (∃ signer, m ∈ signedBy signer) ∨ ∃ sig, (m, sig) ∈ presentedAnnouncements app ls}

/-- The miner has signed an announcement of the endpoint for the Brain. -/
def AnnouncedBy (app : App) (signedBy : Address → Set Bytes) (k : MemberKey) (url : Text)
    (ts : Int) : Prop :=
  ∃ signer preimage, lower app.unicode (toChecksum app.crypto signer) = k.2 ∧
    announcePreimage app.crypto k.1 url ts = .ok preimage ∧ preimage ∈ signedBy signer

/-- All endpoints are their miners' own. -/
def Authentic (app : App) (signedBy : Address → Set Bytes) (idx : MemberIndex) : Prop :=
  ∀ k ep, idx.endpoints k = some ep → AnnouncedBy app signedBy k ep.url ep.ts

section Authenticity

variable {signedBy : Address → Set Bytes} {ls : List ProcessEvent} {limits : Limits}
  {s s' : Process} {l : ProcessEvent} {path : Path}

theorem recoverAnnounce_ok {signature : Json} {t : Text}
    (h : recoverAnnounce app brainId url ts signature = .ok t) :
    ∃ preimage bytes signer, announcePreimage app.crypto brainId url ts = .ok preimage ∧
      signatureBytes signature = .ok bytes ∧
      app.recoverMessage (app.crypto.messageDigest preimage) bytes = some signer ∧
      t = toChecksum app.crypto signer := by
  simp only [recoverAnnounce, bind_ok, orRevert_ok, return_ok] at h
  obtain ⟨preimage, hpreimage, bytes, hbytes, signer, hsigner, rfl⟩ := h
  exact ⟨preimage, bytes, signer, hpreimage, hbytes, hsigner, rfl⟩

/-- An announcement that is accepted in a run was signed by its miner. -/
theorem admitted_signed (hunforged : app.signing.Unforged signedBy (presentedAnnouncements app ls))
    (hfree : app.signing.DigestsCollisionFree (announcementsOf app signedBy ls)) {now : Nat}
    (hmem : .handled .announce brainId now body ∈ ls)
    (h : admitAnnounce app idx brainId now body = .ok a) :
    AnnouncedBy app signedBy (brainId, lower app.unicode a.address) a.url a.ts := by
  obtain ⟨⟨⟨signature, t, hread, hrecover, hsame⟩, -, -⟩, -⟩ := admitAnnounce_ok.mp h
  obtain ⟨preimage, bytes, signer, hpreimage, hbytes, hsigner, rfl⟩ := recoverAnnounce_ok hrecover
  have hpresented : (preimage, bytes) ∈ presentedAnnouncements app ls :=
    ⟨brainId, now, body, a, signature, hmem, hread, hpreimage, hbytes⟩
  have hsigned : ∀ u, signedBy u ⊆ announcementsOf app signedBy ls := fun u m hm => .inl ⟨u, hm⟩
  have hown : preimage ∈ signedBy signer :=
    hunforged.signed hfree hsigned hpresented (.inr ⟨bytes, hpresented⟩) hsigner
  exact ⟨signer, preimage, hsame, hpreimage, hown⟩

theorem Authentic.announce (h : Authentic app signedBy idx) {now : Nat}
    (hunforged : app.signing.Unforged signedBy (presentedAnnouncements app ls))
    (hfree : app.signing.DigestsCollisionFree (announcementsOf app signedBy ls))
    (hmem : .handled .announce brainId now body ∈ ls) :
    Authentic app signedBy (Gateway.announce app idx brainId now body) := by
  unfold Gateway.announce
  cases hadmitted : admitAnnounce app idx brainId now body with
  | error e => exact h
  | ok a =>
    intro k ep hep
    unfold MemberIndex.announce at hep
    dsimp only at hep
    by_cases hk : k = (brainId, lower app.unicode a.address)
    · subst hk
      rw [Function.update_self] at hep
      obtain rfl := Option.some.inj hep
      exact admitted_signed hunforged hfree hmem hadmitted
    · rw [Function.update_of_ne hk] at hep
      exact h k ep hep

/-- **One step.** -/
theorem Authentic.step (h : Authentic app signedBy s.index)
    (hunforged : app.signing.Unforged signedBy (presentedAnnouncements app ls))
    (hfree : app.signing.DigestsCollisionFree (announcementsOf app signedBy ls))
    (hstep : ProcessStep app limits s l s') (hmem : l ∈ ls) :
    Authentic app signedBy s'.index := by
  rcases step_index hstep with ⟨brainId, now, body, rfl, hindex⟩ |
    ⟨brainId, now, body, rfl, hindex⟩ | ⟨events, rfl, hindex⟩ | hindex
  · rw [hindex]
    exact h.announce hunforged hfree hmem
  · intro k ep hep
    rw [hindex] at hep
    have hsame := @submitScores_announced app s.index brainId body k
    rw [hep] at hsame
    obtain ⟨old, hold, heq⟩ := Option.map_eq_some_iff.mp hsame.symm
    obtain ⟨hurl, hts⟩ := Prod.mk.inj heq
    exact hurl ▸ hts ▸ h k old hold
  · intro k ep hep
    -- a rebuild drops endpoints, and adds none
    rw [hindex, MemberIndex.replace_endpoints] at hep
    split at hep
    · cases hep
    · exact h k ep hep
  · rw [hindex]
    exact h

/--
**Nobody but a miner sets its endpoint, and nothing else is dialled.** Provided the signatures
delivered to the gateway are not forged: in every state it reaches, with whatever is asked of it
and however handlers and polls interleave, every endpoint of a miner is one the miner itself has
signed for that Brain; and every URL that is dialled for a Brain is one that some account has
signed for that Brain, the named miner where the request names one that has an endpoint.
-/
theorem endpoints_authentic (hempty : ∀ k, idx.endpoints k = none)
    (hrun : Run (ProcessStep app limits) (.boot idx) ls s)
    (hunforged : app.signing.Unforged signedBy (presentedAnnouncements app ls))
    (hfree : app.signing.DigestsCollisionFree (announcementsOf app signedBy ls)) :
    Authentic app signedBy s.index ∧
    ∀ brainId now path body url path' body',
      proxyToTarget app s.index s.inflight brainId now path body = .dial url path' body' →
        (∃ t ts, AnnouncedBy app signedBy (brainId, t) url ts) ∧
        ∀ t, body.get "target_miner" .null = .ok (.str t) → t ≠ [] →
          s.index.endpointOf app.unicode brainId t ≠ none →
            ∃ ts, AnnouncedBy app signedBy (brainId, lower app.unicode t) url ts := by
  have hauthentic : Authentic app signedBy s.index := by
    refine (hrun.restrict_labels fun l hl => hl).invariant
      (I := fun s : Process => Authentic app signedBy s.index)
      (fun hstep h => h.step hunforged hfree hstep.1 hstep.2) ?_
    intro k ep hep
    have hnone : idx.endpoints k = some ep := hep
    rw [hempty k] at hnone
    cases hnone
  refine ⟨hauthentic, ?_⟩
  intro brainId now path body url path' body' hdial
  obtain ⟨-, -, htarget, -, -⟩ := proxy_dial_iff.mp hdial
  have hnamed : ∀ t, s.index.endpointOf app.unicode brainId t = some url →
      ∃ ts, AnnouncedBy app signedBy (brainId, lower app.unicode t) url ts := by
    intro t hurl
    obtain ⟨ep, hep, rfl⟩ := Option.map_eq_some_iff.mp hurl
    exact ⟨ep.ts, hauthentic _ ep hep⟩
  constructor
  · rcases targetUrl_ok htarget with ⟨t, -, -, hurl⟩ | ⟨m, hm, rfl⟩
    · obtain ⟨ts, hts⟩ := hnamed t hurl
      exact ⟨_, ts, hts⟩
    · obtain ⟨-, ep, hep, hurl, -⟩ := listMiners_live hm
      exact ⟨m.address, ep.ts, hurl ▸ hauthentic _ ep hep⟩
  · intro t hbody ht hsome
    obtain ⟨found, hfound⟩ := Option.ne_none_iff_exists'.mp hsome
    obtain rfl := Except.ok.inj (htarget.symm.trans (targetUrl_named hbody ht hfound))
    exact hnamed t hfound

end Authenticity

/-! ## An example -/

/-- Account 7, as the toy primitives have it. -/
def toyMiner : Account := ⟨7, fun digest => [7, UInt8.ofNat (digest.val % 256)]⟩

theorem toyMiner_checksum : toChecksum toyApp.crypto toyMiner.address = toyScored := by
  decide +kernel

/-- The gateway has let the miner's announcement in. -/
def toyReading : Process :=
  { Process.boot toyKnown with
    hits := set (Process.boot toyKnown).hits (text "a") ⟨100, 1⟩
    tasks := [.reading .announce 3] }

/-- And has accepted it. -/
def toyPosted : Process :=
  { (toyReading.handle toyApp .announce 3 (110 : Nat) (toyMove (text "https://m") 100)).1 with
    tasks := [] }

def toyPosting : List ProcessEvent :=
  [.admitted (text "a") 100 .announce 3, .handled .announce 3 110 (toyMove (text "https://m") 100)]

theorem toyPosting_run : Run (ProcessStep toyApp toyLimits) (.boot toyKnown) toyPosting
    toyPosted := by
  have htasks : toyReading.tasks = [] ++ .reading .announce 3 :: [] := rfl
  have hlet : ProcessStep toyApp toyLimits (.boot toyKnown) (.admitted (text "a") 100 .announce 3)
      toyReading := .admitted (text "a") 100 .announce 3 rfl
  have hhandle : toyReading.handle toyApp .announce 3 (110 : Nat)
      (toyMove (text "https://m") 100) =
        ((toyReading.handle toyApp .announce 3 (110 : Nat) (toyMove (text "https://m") 100)).1,
          none) := by
    unfold Process.handle
    rfl
  exact .cons hlet (.single (.handled .announce 3 110 _ htasks hhandle))

theorem toyMove_read : readAnnouncement toyApp (toyMove (text "https://m") 100) =
    .ok (toyOld, .str (text "0x0700")) ∧ signatureBytes (.str (text "0x0700")) = .ok [7, 0] := by
  have haddress : hexAddress toyScored = some 7 := rfl
  have hdigits : text "0x0700" = text "0x" ++ hexlify [7, 0] := by decide
  constructor
  · have hsame : toChecksum toyApp.crypto 7 = toyScored := toyMiner_checksum
    have hread : readAnnouncement toyApp (toyMove (text "https://m") 100) =
        .ok (⟨toChecksum toyApp.crypto 7, text "https://m", 100⟩, .str (text "0x0700")) :=
      readAnnouncement_payload haddress
    rw [hsame] at hread
    exact hread
  · rw [hdigits]
    exact signatureBytes_hexlify [7, 0]

/-- All that is delivered is the announcement of account 7. -/
theorem toyPosting_presented {m : Bytes × Bytes}
    (h : m ∈ presentedAnnouncements toyApp toyPosting) :
    announcePreimage toyCrypto 3 (text "https://m") 100 = .ok m.1 ∧ m.2 = [7, 0] := by
  obtain ⟨brainId, now, body, a, signature, hmem, hread, hpreimage, hbytes⟩ := h
  obtain ⟨rfl, -, rfl⟩ : brainId = 3 ∧ now = 110 ∧ body = toyMove (text "https://m") 100 := by
    simpa [toyPosting] using hmem
  rw [toyMove_read.1] at hread
  obtain ⟨rfl, rfl⟩ := Prod.mk.inj (Except.ok.inj hread)
  rw [toyMove_read.2] at hbytes
  exact ⟨hpreimage, (Except.ok.inj hbytes).symm⟩

/-- What account 7 has signed. -/
def toyKeys (signer : Address) : Set Bytes :=
  {m | signer = 7 ∧ announcePreimage toyCrypto 3 (text "https://m") 100 = .ok m}

theorem toyKeys_unforged :
    toyApp.signing.Unforged toyKeys (presentedAnnouncements toyApp toyPosting) := by
  intro m sig u hm hrecover
  obtain ⟨hpreimage, rfl⟩ := toyPosting_presented hm
  refine ⟨m, ⟨?_, hpreimage⟩, rfl⟩
  -- a signature that begins with 7 is nobody else's
  have hseven : ∀ digest, toyCrypto.recover digest [7, 0] = some u → u = 7 := by
    intro digest h
    simp only [toyCrypto] at h
    split at h
    · exact (Option.some.inj h).symm
    · cases h
  have hsame : toyApp.signing.recover = toyCrypto.recover := rfl
  rw [hsame] at hrecover
  exact hseven _ hrecover

/-- It is the only message. -/
theorem toyKeys_collisionFree :
    toyApp.signing.DigestsCollisionFree (announcementsOf toyApp toyKeys toyPosting) := by
  have hsame : ∀ m ∈ announcementsOf toyApp toyKeys toyPosting,
      announcePreimage toyCrypto 3 (text "https://m") 100 = .ok m := by
    rintro m (⟨signer, -, hm⟩ | ⟨sig, hm⟩)
    · exact hm
    · exact (toyPosting_presented hm).1
  refine Crypto.digestsCollisionFree_of_subsingleton fun m hm m' hm' => ?_
  exact Except.ok.inj ((hsame m hm).symm.trans (hsame m' hm'))

/-- The endpoint of account 7 is its own, and a request that names it goes there. -/
theorem endpoints_authentic_posted : ∃ ts,
    proxyToTarget toyApp toyPosted.index toyPosted.inflight 3 110 .infer toyNaming =
      .dial (text "https://m") .infer toyNaming ∧
    AnnouncedBy toyApp toyKeys (3, toyScored) (text "https://m") ts := by
  have hempty : ∀ k, toyKnown.endpoints k = none := fun _ => rfl
  obtain ⟨-, hdials⟩ := endpoints_authentic hempty toyPosting_run toyKeys_unforged
    toyKeys_collisionFree
  have hurl : toyPosted.index.endpointOf toyApp.unicode 3 toyScored = some (text "https://m") := by
    decide +kernel
  have hdial : proxyToTarget toyApp toyPosted.index toyPosted.inflight 3 110 .infer toyNaming =
      .dial (text "https://m") .infer toyNaming :=
    proxy_dial_iff.mpr ⟨rfl, rfl, targetUrl_named rfl (by decide) hurl, rfl, by decide⟩
  obtain ⟨-, hnamed⟩ := hdials 3 110 .infer toyNaming _ _ _ hdial
  obtain ⟨ts, hts⟩ := hnamed toyScored rfl (by decide) (by rw [hurl]; simp)
  exact ⟨ts, hdial, hts⟩

end Gateway

end BasedAI
