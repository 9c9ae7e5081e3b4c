import BasedAI.Chain.Authority
import BasedAI.Tokens.BrainBridge
import BasedAI.Tokens.Soulbound

/-!
# BasedAI — the deployment on mainnet

`DeployMainnet.s.sol` creates the Brain NFT with its deployer as governance, makes the
canonical bridge and the adapter its endpoints where both are known already, and hands
governance over.

* `mainnet_ok`       — what the script leaves, which is all there is to the roles and endpoints;
* `enter_guarded`    — one call of the NFT, open calls aside;
* `mainnet_governed` — what stays of that over whole runs.
-/

namespace BasedAI

open Fallible Mapping Transition CallStack AccessControl

/-! ## The script -/

/-- The parameters of `runWithConfig`, with the account of the key in place of the key. -/
structure MainnetConfig where
  deployer : Address
  pepecoin : Address
  basedAI : Address
  pepeStake : Nat
  basedStake : Nat
  governance : Address
  brainNFTL2 : Address
  l1Bridge : Address

/-- What is read from the environment of `run`; the first two tokens and governance have to
be set. -/
structure MainnetVars where
  pepecoin : Address
  basedAI : Address
  pepeStake : Option Nat
  basedStake : Option Nat
  governance : Address
  brainNFTL2 : Option Address
  l1Bridge : Option Address

/-- The configuration of `run`, with its defaults. -/
def MainnetVars.config (deployer : Address) (vars : MainnetVars) : MainnetConfig where
  deployer := deployer
  pepecoin := vars.pepecoin
  basedAI := vars.basedAI
  pepeStake := vars.pepeStake.getD (100000 * 10 ^ 18)
  basedStake := vars.basedStake.getD (10000 * 10 ^ 18)
  governance := vars.governance
  brainNFTL2 := vars.brainNFTL2.getD 0
  l1Bridge := vars.l1Bridge.getD 0

/-- Where the script creates its contracts. -/
structure MainnetAddresses where
  brainNFT : Address
  adapter : Address

/-- What it leaves. -/
structure MainnetDeployment where
  nft : BrainNFT
  PEPECOIN : Address
  BASEDAI : Address
  bridgeAdapter : Option BridgeAdapterEnv

namespace MainnetConfig

variable (at_ : MainnetAddresses) (cfg : MainnetConfig)

/-- Both ends of the bridge are known. -/
def WireAdapter : Prop := cfg.brainNFTL2 ≠ 0 ∧ cfg.l1Bridge ≠ 0

instance decidableWireAdapter : Decidable cfg.WireAdapter :=
  inferInstanceAs (Decidable (cfg.brainNFTL2 ≠ 0 ∧ cfg.l1Bridge ≠ 0))

/-- The adapter, and the endpoints of the bridge. -/
def wire (nft : BrainNFT) : Exec (BrainNFT × Option BridgeAdapterEnv) :=
  if cfg.WireAdapter then do
    let nft ← nft.setBridge cfg.deployer cfg.l1Bridge
    let nft ← nft.setBridgeEndpoint cfg.deployer at_.adapter true
    return (nft, some ⟨at_.brainNFT, cfg.brainNFTL2, cfg.l1Bridge, at_.adapter⟩)
  else return (nft, none)

/-- Governance goes to who is to have it. -/
def handOver (roles : AccessControl BrainRole) : Exec (AccessControl BrainRole) :=
  if cfg.governance ≠ cfg.deployer then do
    let roles ← roles.grantRole .defaultAdmin cfg.deployer .governance cfg.governance
    let roles ← roles.grantRole .defaultAdmin cfg.deployer .defaultAdmin cfg.governance
    let roles ← roles.renounceRole cfg.deployer .governance cfg.deployer
    roles.renounceRole cfg.deployer .defaultAdmin cfg.deployer
  else return roles

end MainnetConfig

def DeployMainnet.runWithConfig (at_ : MainnetAddresses) (cfg : MainnetConfig) :
    Exec MainnetDeployment := do
  let (nft, adapter) ←
    cfg.wire at_ (BrainNFT.deploy cfg.pepeStake cfg.basedStake cfg.deployer)
  let roles ← cfg.handOver nft.roles
  return {
    nft := { nft with roles := roles }
    PEPECOIN := cfg.pepecoin
    BASEDAI := cfg.basedAI
    bridgeAdapter := adapter }

/-! ## What it leaves -/

section Script

variable {at_ : MainnetAddresses} {cfg : MainnetConfig} {m : MainnetDeployment}

theorem setBridge_iff {nft nft' : BrainNFT} {caller newBridge : Address} :
    nft.setBridge caller newBridge = .ok nft' ↔
      nft.roles.hasRole .governance caller = true ∧ nft' = { nft with bridge := newBridge } := by
  simp only [BrainNFT.setBridge, bind_ok, onlyRole_ok, return_ok, exists_and_left, exists_const]
  exact and_congr_right fun _ => eq_comm

theorem setBridgeEndpoint_iff {nft nft' : BrainNFT} {caller endpoint : Address} {allowed : Bool} :
    nft.setBridgeEndpoint caller endpoint allowed = .ok nft' ↔
      nft.roles.hasRole .governance caller = true ∧
        nft' = { nft with isBridgeEndpoint := set nft.isBridgeEndpoint endpoint allowed } := by
  simp only [BrainNFT.setBridgeEndpoint, bind_ok, onlyRole_ok, return_ok, exists_and_left,
    exists_const]
  exact and_congr_right fun _ => eq_comm

/-- The endpoints of the bridge, once there are any. -/
def MainnetConfig.IsEndpoint (cfg : MainnetConfig) (at_ : MainnetAddresses) (a : Address) : Prop :=
  cfg.WireAdapter ∧ a ≠ 0 ∧ (a = cfg.l1Bridge ∨ a = at_.adapter)

/-- The NFT with its endpoints, as the deployer leaves it. -/
def MainnetConfig.wired (cfg : MainnetConfig) (at_ : MainnetAddresses) : BrainNFT :=
  let nft := BrainNFT.deploy cfg.pepeStake cfg.basedStake cfg.deployer
  if cfg.WireAdapter then
    { nft with
      bridge := cfg.l1Bridge
      isBridgeEndpoint := set nft.isBridgeEndpoint at_.adapter true }
  else nft

/-- The adapter, if there is one. -/
def MainnetConfig.adapter (cfg : MainnetConfig) (at_ : MainnetAddresses) :
    Option BridgeAdapterEnv :=
  if cfg.WireAdapter then some ⟨at_.brainNFT, cfg.brainNFTL2, cfg.l1Bridge, at_.adapter⟩ else none

theorem wire_exact :
    cfg.wire at_ (BrainNFT.deploy cfg.pepeStake cfg.basedStake cfg.deployer) =
      .ok (cfg.wired at_, cfg.adapter at_) := by
  unfold MainnetConfig.wire MainnetConfig.wired MainnetConfig.adapter
  by_cases hwire : cfg.WireAdapter
  · simp only [if_pos hwire, bind_ok, return_ok, setBridge_iff, setBridgeEndpoint_iff]
    exact ⟨_, ⟨by simp [BrainNFT.deploy], rfl⟩, _, ⟨by simp [BrainNFT.deploy], rfl⟩, rfl⟩
  · simp only [if_neg hwire]
    rfl

/-- Governance can be handed over, and is then with that one account. -/
theorem handOver_exact {roles : AccessControl BrainRole}
    (h : ∀ r a, roles.hasRole r a = true ↔ a = cfg.deployer) :
    ∃ roles', cfg.handOver roles = .ok roles' ∧
      ∀ r a, roles'.hasRole r a = true ↔ a = cfg.governance := by
  unfold MainnetConfig.handOver
  by_cases hself : cfg.governance = cfg.deployer
  · refine ⟨roles, by simp [hself], ?_⟩
    rw [hself]
    exact h
  · simp only [ne_eq, hself, not_false_eq_true, if_true]
    have hadmin := (h .defaultAdmin cfg.deployer).mpr rfl
    -- every step is the deployer's, which administers until the last
    obtain ⟨roles₁, h₁⟩ : ∃ roles₁, roles.grantRole .defaultAdmin cfg.deployer .governance
        cfg.governance = .ok roles₁ := ⟨_, grantRole_iff.mpr ⟨hadmin, rfl⟩⟩
    obtain ⟨roles₂, h₂⟩ : ∃ roles₂, roles₁.grantRole .defaultAdmin cfg.deployer .defaultAdmin
        cfg.governance = .ok roles₂ :=
      ⟨_, grantRole_iff.mpr ⟨(grantRole_hasRole h₁ _ _).mpr (.inl hadmin), rfl⟩⟩
    obtain ⟨roles₃, h₃⟩ : ∃ roles₃, roles₂.renounceRole cfg.deployer .governance cfg.deployer =
        .ok roles₃ := ⟨_, renounceRole_self⟩
    obtain ⟨roles₄, h₄⟩ : ∃ roles₄, roles₃.renounceRole cfg.deployer .defaultAdmin
        cfg.deployer = .ok roles₄ := ⟨_, renounceRole_self⟩
    refine ⟨roles₄, ?_, fun r a => ?_⟩
    · simp only [h₁, h₂, h₃, h₄, bind, Except.bind]
    · rw [renounceRole_hasRole h₄, renounceRole_hasRole h₃, grantRole_hasRole h₂,
        grantRole_hasRole h₁, h]
      have hsucceeds := succeeds (a := a) hself
      cases r with
      | defaultAdmin => simpa using hsucceeds
      | governance => simpa using hsucceeds

/-- **What the script leaves.** It always goes through. The roles are governance's alone, and
the endpoints are the bridge and the adapter, or there are none. -/
theorem mainnet_ok (at_ : MainnetAddresses) (cfg : MainnetConfig) :
    ∃ m, DeployMainnet.runWithConfig at_ cfg = .ok m ∧
    (∃ roles, m.nft = { cfg.wired at_ with roles := roles }) ∧
    m.bridgeAdapter = cfg.adapter at_ ∧
    (∀ r a, m.nft.roles.hasRole r a = true ↔ a = cfg.governance) ∧
    ∀ a, m.nft.endpoint a = true ↔ cfg.IsEndpoint at_ a := by
  have hdeployer : ∀ r a, (cfg.wired at_).roles.hasRole r a = true ↔ a = cfg.deployer := by
    intro r a
    unfold MainnetConfig.wired
    split
    · simp [BrainNFT.deploy]
    · simp [BrainNFT.deploy]
  obtain ⟨roles, hroles, hheld⟩ := handOver_exact hdeployer
  refine ⟨⟨{ cfg.wired at_ with roles := roles }, cfg.pepecoin, cfg.basedAI, cfg.adapter at_⟩,
    ?_, ⟨roles, rfl⟩, rfl, hheld, fun a => ?_⟩
  · rw [DeployMainnet.runWithConfig, wire_exact, ok_bind]
    simp only [hroles, ok_bind]
    rfl
  · rw [BrainNFT.endpoint_iff]
    unfold MainnetConfig.wired
    by_cases hwire : cfg.WireAdapter
    · simp [hwire, BrainNFT.deploy, set_apply, MainnetConfig.IsEndpoint]
    · simp [hwire, BrainNFT.deploy, MainnetConfig.IsEndpoint]

end Script

/-! ## One call -/

/-- The role a call needs. -/
def BrainNFTCall.needs : BrainNFTCall → Option BrainRole
  | .setStakeAmount _ _ | .mintReserved _ _ | .setBridge _ | .setBridgeEndpoint _ _ =>
    some .governance
  | .grantRole _ _ | .revokeRole _ _ => some .defaultAdmin
  | _ => none

/-- The calls by which governance changes who may do what. -/
def BrainNFTCall.administers : BrainNFTCall → Bool
  | .grantRole _ _ | .revokeRole _ _ => true
  | _ => false

/-- The call by which an account gives a role up. -/
def BrainNFTCall.renounces : BrainNFTCall → Bool
  | .renounceRole _ _ => true
  | _ => false

/-- The calls by which it changes the endpoints. -/
def BrainNFTCall.rewires : BrainNFTCall → Bool
  | .setBridge _ | .setBridgeEndpoint _ _ => true
  | _ => false

section Enter

open BrainNFT

variable {nft nft' : BrainNFT} {blk : Block} {caller : Address} {q : Option Pending}
  {c : BrainNFTCall}

/-- **One call.** Privileged calls are governance's, and only its calls change the roles and
the endpoints. -/
theorem enter_guarded (h : c.enter blk caller nft = .ok (q, nft')) :
    Guarded caller c.needs c.administers c.renounces nft.roles nft'.roles ∧
      (c.rewires = false → nft'.endpoint = nft.endpoint) := by
  cases c with
  | mintByPepecoinStake =>
    obtain ⟨-, rfl⟩ := mintByStake_ok h
    exact ⟨guarded_free rfl, fun _ => rfl⟩
  | mintByBasedStake =>
    obtain ⟨-, rfl⟩ := mintByStake_ok h
    exact ⟨guarded_free rfl, fun _ => rfl⟩
  | deactivateAndUnstake b =>
    obtain ⟨-, -, -, -, -, approvals, rfl⟩ := deactivateAndUnstake_ok h
    exact ⟨guarded_free rfl, fun _ => rfl⟩
  | setStakeAmount asset newAmount =>
    obtain ⟨-, hset⟩ := atOnce_ok h
    have hrole : nft.roles.hasRole .governance caller = true := by
      simp only [setStakeAmount, bind_ok, onlyRole_ok] at hset
      obtain ⟨_, hrole, -⟩ := hset
      exact hrole
    obtain ⟨_, _, _, _, rfl⟩ := setStakeAmount_ok hset
    exact ⟨guarded_onlyRole hrole rfl, fun _ => rfl⟩
  | mintReserved recipient b =>
    have hrole : nft.roles.hasRole .governance caller = true := by
      simp only [BrainNFTCall.enter, mintReserved, bind_ok, onlyRole_ok] at h
      obtain ⟨_, hrole, -⟩ := h
      exact hrole
    obtain ⟨-, -, -, approvals, rfl⟩ := mintReserved_ok h
    exact ⟨guarded_onlyRole hrole rfl, fun _ => rfl⟩
  | setBridge newBridge =>
    obtain ⟨-, hset⟩ := atOnce_ok h
    obtain ⟨hrole, rfl⟩ := setBridge_iff.mp hset
    exact ⟨guarded_onlyRole hrole rfl, fun hnot => by cases hnot⟩
  | setBridgeEndpoint endpoint allowed =>
    obtain ⟨-, hset⟩ := atOnce_ok h
    obtain ⟨hrole, rfl⟩ := setBridgeEndpoint_iff.mp hset
    exact ⟨guarded_onlyRole hrole rfl, fun hnot => by cases hnot⟩
  | transferFrom src recipient b =>
    obtain ⟨-, rfl⟩ := enter_transfers rfl h
    exact ⟨guarded_free rfl, fun _ => rfl⟩
  | safeTransferFrom src recipient b =>
    obtain ⟨-, rfl⟩ := enter_transfers rfl h
    exact ⟨guarded_free rfl, fun _ => rfl⟩
  | approve spender b =>
    obtain ⟨-, happrove⟩ := atOnce_ok h
    obtain ⟨-, rfl⟩ := approve_iff.mp happrove
    exact ⟨guarded_free rfl, fun _ => rfl⟩
  | setApprovalForAll operator approved =>
    obtain ⟨-, hset⟩ := atOnce_ok h
    simp only [setApprovalForAll, bind_ok, return_ok] at hset
    obtain ⟨_, -, rfl⟩ := hset
    exact ⟨guarded_free rfl, fun _ => rfl⟩
  | grantRole role account =>
    obtain ⟨-, hset⟩ := atOnce_ok h
    obtain ⟨roles, hroles, rfl⟩ := map_ok.mp hset
    exact ⟨guarded_grantRole hroles, fun _ => rfl⟩
  | revokeRole role account =>
    obtain ⟨-, hset⟩ := atOnce_ok h
    obtain ⟨roles, hroles, rfl⟩ := map_ok.mp hset
    exact ⟨guarded_revokeRole hroles, fun _ => rfl⟩
  | renounceRole role confirmation =>
    obtain ⟨-, hset⟩ := atOnce_ok h
    obtain ⟨roles, hroles, rfl⟩ := map_ok.mp hset
    exact ⟨guarded_renounceRole hroles, fun _ => rfl⟩

/-- The rest of a call changes neither. -/
theorem resume_guards {T : Type} {env : BrainNFTEnv T} {s s' : BrainState T} {p : Pending}
    (h : p.resume env s = .ok (q, s')) :
    s'.nft.roles = s.nft.roles ∧ s'.nft.endpoint = s.nft.endpoint := by
  rcases Pending.resume_nft h with hnft | hnft | ⟨blk, staker, asset, amount, hmint⟩
  · rw [hnft]
    exact ⟨rfl, rfl⟩
  · rw [hnft]
    exact ⟨rfl, rfl⟩
  · obtain ⟨-, -, -, approvals, hnft⟩ := mintStaked_ok hmint
    rw [hnft]
    exact ⟨rfl, rfl⟩

end Enter

/-! ## Whole runs -/

/-- Roles are governance's alone, and the endpoints are those allowed. -/
structure BrainNFT.GovernedBy (governance : Address) (ends : Address → Prop) (nft : BrainNFT) :
    Prop where
  roles : nft.roles.Within fun _ a => a = governance
  endpoints : ∀ a, nft.endpoint a = true ↔ ends a

/-- That of every state an open call could fall back to. -/
def GovernedWorld {T : Type} (governance : Address) (ends : Address → Prop) :
    List Pending → BrainWorld T → Prop :=
  fun _ w => w.state.nft.GovernedBy governance ends

/-- Governance has every role. -/
def BrainNFT.Governs (governance : Address) (nft : BrainNFT) : Prop :=
  ∀ r, nft.roles.hasRole r governance = true

/-- That next to it. -/
def GoverningWorld {T : Type} (governance : Address) (ends : Address → Prop) :
    List Pending → BrainWorld T → Prop :=
  fun ps w => GovernedWorld governance ends ps w ∧ w.state.nft.Governs governance

/-- Governance changes neither the roles nor the endpoints. -/
def BrainLabel.Quiet (governance : Address) : BrainLabel → Prop
  | .call _ caller c => caller = governance → c.administers = false ∧ c.rewires = false
  | _ => True

/-- `a` gives a role up. -/
def BrainLabel.GivesUp (a : Address) : BrainLabel → Prop
  | .call _ caller c => caller = a ∧ c.renounces = true
  | _ => False

/-- What governance alone may do is done by governance, and Brains are transferred from or to
an endpoint. -/
def BrainLabel.Governed (governance : Address) (ends : Address → Prop) : BrainLabel → Prop
  | .call _ caller c => (c.needs ≠ none → caller = governance) ∧
    ∀ src recipient b, c.transfers = some (src, recipient, b) → ends src ∨ ends recipient
  | _ => True

section Runs

variable {T : Type} {env : BrainNFTEnv T} {governance : Address} {ends : Address → Prop}

theorem BrainNFT.GovernedBy.enter {nft nft' : BrainNFT} {blk : Block} {caller : Address}
    {q : Option Pending} {c : BrainNFTCall} (h : nft.GovernedBy governance ends)
    (hquiet : BrainLabel.Quiet governance (.call blk caller c))
    (henter : c.enter blk caller nft = .ok (q, nft')) :
    nft'.GovernedBy governance ends ∧
      BrainLabel.Governed governance ends (.call blk caller c) ∧
      (¬ BrainLabel.GivesUp governance (.call blk caller c) → nft.Governs governance →
        nft'.Governs governance) := by
  obtain ⟨hguarded, hends⟩ := enter_guarded henter
  have hneeds : c.needs ≠ none → caller = governance := by
    intro hsome
    obtain ⟨role, hrole⟩ := Option.ne_none_iff_exists'.mp hsome
    exact hguarded.caller_allowed h.roles hrole
  -- whoever is not governance makes no such call
  have hnone : c.administers = false ∧ c.rewires = false := by
    by_cases hcaller : caller = governance
    · exact hquiet hcaller
    · have hfree : c.needs = none := by
        by_contra hsome
        exact hcaller (hneeds hsome)
      cases c with
      | setBridge | setBridgeEndpoint | grantRole | revokeRole => cases hfree
      | _ => exact ⟨rfl, rfl⟩
  refine ⟨⟨hguarded.within hnone.1 h.roles, ?_⟩, ⟨hneeds, ?_⟩, ?_⟩
  · rw [hends hnone.2]
    exact h.endpoints
  · intro src recipient b htransfers
    obtain ⟨hchecks, -⟩ := enter_transfers htransfers henter
    exact hchecks.endpoints.imp (h.endpoints src).mp (h.endpoints recipient).mp
  · intro hgives hgoverns r
    apply hguarded.kept hnone.1 r governance _ (hgoverns r)
    intro heq
    by_contra hgiven
    exact hgives ⟨heq.symm, by simpa using hgiven⟩

/-- **One piece of code.** -/
theorem governed_code {q q' : Option Pending} {w w' : BrainWorld T} {l : BrainLabel}
    (h : w.state.nft.GovernedBy governance ends) (hcode : BrainCode env q w l q' w')
    (hquiet : l.Quiet governance) :
    w'.state.nft.GovernedBy governance ends ∧ l.Governed governance ends ∧
      (¬ l.GivesUp governance → w.state.nft.Governs governance →
        w'.state.nft.Governs governance) := by
  cases hcode with
  | call _ henter => exact h.enter hquiet henter
  | resume hresume =>
    obtain ⟨hroles, hends⟩ := resume_guards hresume
    refine ⟨⟨?_, ?_⟩, trivial, fun _ hgoverns r => ?_⟩
    · show AccessControl.Within _ _
      rw [hroles]
      exact h.roles
    · rw [hends]
      exact h.endpoints
    · rw [hroles]
      exact hgoverns r
  | elsewhere _ => exact ⟨h, trivial, fun _ hgoverns => hgoverns⟩

/--
**Governed by one account.** From what the script leaves, in every run in which governance
changes neither roles nor endpoints, with whatever calls are open inside others and whatever
reverts: governance alone holds a role, and holds each as long as it renounces none; the bridge
and the adapter are endpoints, and nobody else is; what needs a role is called by governance;
and every Brain that is transferred comes from or goes to one of the endpoints, so that without
the bridge none is transferred at all.
-/
theorem mainnet_governed {at_ : MainnetAddresses} {cfg : MainnetConfig} {m : MainnetDeployment}
    {tokens : Address → T} {ls : List (Option BrainLabel)} {c : Config (BrainWorld T) Pending}
    (hdeploy : DeployMainnet.runWithConfig at_ cfg = .ok m)
    (hrun : Run (BrainStep env) ⟨⟨⟨m.nft, tokens⟩, ⟨[], []⟩⟩, []⟩ ls c)
    (hquiet : ∀ l, some l ∈ ls → l.Quiet cfg.governance) :
    (∀ r a, c.state.state.nft.roles.hasRole r a = true → a = cfg.governance) ∧
    ((∀ l, some l ∈ ls → ¬ l.GivesUp cfg.governance) →
      c.state.state.nft.Governs cfg.governance) ∧
    (∀ a, c.state.state.nft.endpoint a = true ↔ cfg.IsEndpoint at_ a) ∧
    ∀ l, some l ∈ ls → l.Governed cfg.governance (cfg.IsEndpoint at_) := by
  obtain ⟨m', hm', -, -, hroles, hends⟩ := mainnet_ok at_ cfg
  obtain rfl : m' = m := Except.ok.inj (hm'.symm.trans hdeploy)
  have hstart : m'.nft.GovernedBy cfg.governance (cfg.IsEndpoint at_) :=
    ⟨fun r a hheld => (hroles r a).mp hheld, hends⟩
  -- whatever reverts restores a state that was governed as well
  have hkept : KeptByCode (CallStack.onLabels (BrainLabel.Quiet cfg.governance) (BrainCode env))
      (GovernedWorld cfg.governance (cfg.IsEndpoint at_)) :=
    fun _ hcode h => (governed_code h hcode.1 hcode.2).1
  have hunder := run_underLabels hrun hquiet
  have hend : c.state.state.nft.GovernedBy cfg.governance (cfg.IsEndpoint at_) :=
    (Holds.run hkept hunder hstart).now
  refine ⟨hend.roles, ?_, hend.endpoints,
    Holds.run_labels hkept (fun _ hcode h => (governed_code h hcode.1 hcode.2).2.1) hunder hstart⟩
  intro hgives
  have hboth : KeptByCode (CallStack.onLabels
      (fun l : BrainLabel => l.Quiet cfg.governance ∧ ¬ l.GivesUp cfg.governance) (BrainCode env))
      (GoverningWorld cfg.governance (cfg.IsEndpoint at_)) := by
    intro q w l q' w' ps hcode h
    obtain ⟨hgoverned, -, hgoverns⟩ := governed_code h.1 hcode.1 hcode.2.1
    exact ⟨hgoverned, hgoverns hcode.2.2 h.2⟩
  have hgoverns : m'.nft.Governs cfg.governance := fun r => (hroles r _).mpr rfl
  have hall := run_underLabels hrun fun l hl => And.intro (hquiet l hl) (hgives l hl)
  exact (Holds.run hboth hall ⟨hstart, hgoverns⟩).now.2

end Runs

/-- The script of account 9 for governance 1, with the bridge at 8 and the adapter at 13. -/
def toyMainnet : MainnetConfig where
  deployer := 9
  pepecoin := 11
  basedAI := 12
  pepeStake := 100
  basedStake := 200
  governance := 1
  brainNFTL2 := 14
  l1Bridge := 8

def toyMainnetAddresses : MainnetAddresses := ⟨10, 13⟩

/-- Governance mints Brain 0 for account 5, which moves it to the bridge. -/
def toyMoved : List BrainLabel :=
  [.call toyMint 1 (.mintReserved 5 0), .resumed, .call toyMint 5 (.transferFrom 5 8 0)]

theorem mainnet_governed_moved : ∃ m c,
    DeployMainnet.runWithConfig toyMainnetAddresses toyMainnet = .ok m ∧
    Run (BrainStep toyBrainEnv) ⟨⟨⟨m.nft, fun _ => toyLedger⟩, ⟨[], []⟩⟩, []⟩
      (toyMoved.map some) c ∧
    c.state.state.nft.owners 0 = some 8 ∧
    ∀ r a, c.state.state.nft.roles.hasRole r a = true ↔ a = 1 := by
  have hmoved : ((DeployMainnet.runWithConfig toyMainnetAddresses toyMainnet).toOption.bind
      fun m => (toyMoved.foldlM (advance toyBrainEnv)
        ⟨⟨⟨m.nft, fun _ => toyLedger⟩, ⟨[], []⟩⟩, []⟩).map
          fun c => c.state.state.nft.owners 0) = some (some 8) := by
    decide +kernel
  obtain ⟨m, hm, howner⟩ := Option.bind_eq_some_iff.mp hmoved
  obtain ⟨c, hc, howner⟩ := Option.map_eq_some_iff.mp howner
  have hcalls : ∀ l ∈ toyMoved, l.Quiet toyMainnet.governance ∧
      ¬ l.GivesUp toyMainnet.governance := by
    simp [toyMoved, BrainLabel.Quiet, BrainLabel.GivesUp, BrainNFTCall.administers,
      BrainNFTCall.rewires, BrainNFTCall.renounces]
  have hlabels : ∀ l, some l ∈ toyMoved.map some →
      l.Quiet toyMainnet.governance ∧ ¬ l.GivesUp toyMainnet.governance := by
    intro l hl
    obtain ⟨k, hk, heq⟩ := List.mem_map.mp hl
    exact Option.some.inj heq ▸ hcalls k hk
  obtain ⟨hroles, hgoverns, -⟩ := mainnet_governed (toOption_ok.mp hm) (advance_run hc)
    fun l hl => (hlabels l hl).1
  refine ⟨m, c, toOption_ok.mp hm, advance_run hc, howner, fun r a => ⟨hroles r a, ?_⟩⟩
  rintro rfl
  exact hgoverns (fun l hl => (hlabels l hl).2) r

end BasedAI
