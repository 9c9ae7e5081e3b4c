import BasedAI.Scoring.StakeWindow
import BasedAI.Staking.Dilution
import BasedAI.System.DeployScript

/-!
# BasedAI — who is slashed

The vault lets the holders of `SLASHER_ROLE` slash, and the script gives that role to the
scoring registry alone. The registry slashes for one thing: two signed roots for one epoch and
Brain. So the stake behind a validator that signs one root an epoch is safe, whoever else is
caught, and its worth does not fall.

* `slash_step`        — a step that slashes is a proof of equivocation;
* `equivocators_only` — along whole runs of the deployed contracts.
-/

namespace BasedAI

open Fallible Mapping Transition ScoringRegistry AccessControl

section Slashing

variable {T : Type} (env : ScriptEnv T)

/-- The scoring registry as the script deploys it. -/
def Deployment.scoringEnv (d : Deployment T) : ScoringEnv T where
  crypto := env.crypto
  staking := env.vaultEnv
  self := env.scoring
  chainId := env.chainId
  genesisTimestamp := Fin.ofNat _ d.genesisTimestamp

/-- The registry and the vault after the script. -/
def Deployment.scoring (d : Deployment T) : ScoringState T where
  now := d.genesisTimestamp
  staking := d.system.staking
  registry := .deploy

/-- A call is no grant and no revocation of the timelock. -/
def ScoringLabel.Quiet (timelock : Address) : ScoringLabel → Prop
  | .vault _ caller c => caller = timelock → c.administers = false
  | _ => True

/-- A call of `u` about its own shares in the pool of `w`. -/
def ScoringLabel.Own (b : BrainId) (w u : Address) : ScoringLabel → Prop
  | .vault _ caller c => u = caller ∧ c.pool = some (b, w)
  | _ => False

/-! ## Proofs of equivocation -/

/-- The roots that are shown to the registry in a run, with their signatures. -/
def rootsShown (sc : ScoringEnv T) (ls : List ScoringLabel) : Set (Bytes × Bytes) :=
  {p | ∃ blk e b rootA sigA rootB sigB w,
    .registry blk (.challengeEquivocation e b rootA sigA rootB sigB w) ∈ ls ∧
      (p = (commitmentPreimage sc e b rootA, sigA) ∨
        p = (commitmentPreimage sc e b rootB, sigB))}

/-- The byte strings that matter: what anybody has signed, and what is shown. -/
def rootMessages (sc : ScoringEnv T) (signedBy : Address → Set Bytes) (ls : List ScoringLabel) :
    Set Bytes :=
  {m | (∃ u, m ∈ signedBy u) ∨ ∃ sig, (m, sig) ∈ rootsShown sc ls}

/-- `w` has signed two roots for the epoch and the Brain. -/
def SignedTwo (sc : ScoringEnv T) (signedBy : Address → Set Bytes) (e : Epoch) (b : BrainId)
    (w : Address) : Prop :=
  ∃ rootA rootB, rootA ≠ rootB ∧ commitmentPreimage sc e b rootA ∈ signedBy w ∧
    commitmentPreimage sc e b rootB ∈ signedBy w

/-- What the registry has found when it slashes `w` on `b`: `w` co-signed a commitment that
stood until then, has signed its root, and another one for the same epoch and Brain. -/
def Caught (sc : ScoringEnv T) (signedBy : Address → Set Bytes) (b : BrainId) (w : Address)
    (p q : ScoringState T) : Prop :=
  ∃ e other, other ≠ (p.registry.epochs e b).merkleRoot ∧
    commitmentPreimage sc e b (p.registry.epochs e b).merkleRoot ∈ signedBy w ∧
    commitmentPreimage sc e b other ∈ signedBy w ∧
    p.registry.isCommitmentSigner e b w = true ∧
    (p.registry.epochs e b).invalidated = false ∧ (q.registry.epochs e b).invalidated = true

theorem Caught.signedTwo {sc : ScoringEnv T} {signedBy : Address → Set Bytes} {b : BrainId}
    {w : Address} {p q : ScoringState T} (h : Caught sc signedBy b w p q) :
    ∃ e, SignedTwo sc signedBy e b w := by
  obtain ⟨e, other, hother, hstood, hsigned, -⟩ := h
  exact ⟨e, _, other, hother.symm, hstood, hsigned⟩

section Steps

variable {sc : ScoringEnv T} {cfg : DeployConfig} {s t : ScoringState T} {l : ScoringLabel}
  {b : BrainId} {w u : Address} {signedBy : Address → Set Bytes} {ls : List ScoringLabel}

/-- The registry changes no role of the vault. -/
theorem registry_roles {blk : Block} {c : ScoringCall} (h : c.exec sc blk s = .ok t) :
    t.staking.vault.roles = s.staking.vault.roles := by
  cases c with
  | proposeEpoch e b root signers signatures =>
    obtain ⟨-, -, -, -, -, -, -, -, -, rfl⟩ := proposeEpoch_ok h
    rfl
  | finalizeEpoch e b =>
    obtain ⟨-, -, ⟨-, rfl⟩ | ⟨-, -, rfl⟩⟩ := finalizeEpoch_ok h
    · rfl
    · rfl
  | challengeEquivocation e b rootA sigA rootB sigB w =>
    obtain ⟨-, -, -, -, -, -, -, staking, rfl, ⟨-, rfl⟩ | ⟨-, hcut⟩⟩ :=
      challengeEquivocation_ok h
    · rfl
    · exact exec_roles (c := .slash b w _) hcut rfl

/-- Who may do what in the vault, where the registry is the only slasher. -/
abbrev Ruled (env : SystemEnv T) (cfg : DeployConfig) (s : ScoringState T) : Prop :=
  s.staking.vault.roles.Within (VaultRole.Holder env cfg)

/-- **One step.** The roles stay, and a step that slashes is a proof of equivocation. -/
theorem slash_step {env : SystemEnv T} (hself : sc.self = cfg.scoring)
    (hruled : Ruled env cfg s) (h : ScoringStep sc s l t) (hquiet : l.Quiet cfg.timelock) :
    Ruled env cfg t ∧ (Slashes b w l → ∃ blk e rootA sigA rootB sigB,
      l = .registry blk (.challengeEquivocation e b rootA sigA rootB sigB w)) := by
  cases h with
  | received => exact ⟨hruled, fun hslash => hslash.elim⟩
  | registry blk c hnow hexec =>
    refine ⟨?_, fun hslash => ?_⟩
    · exact (congrArg (Within · (VaultRole.Holder env cfg)) (registry_roles hexec)).mpr hruled
    · cases c with
      | challengeEquivocation e b' rootA sigA rootB sigB w' =>
        obtain ⟨rfl, rfl⟩ := hslash
        exact ⟨blk, e, rootA, sigA, rootB, sigB, rfl⟩
      | _ => exact hslash.elim
  | vault blk caller c hnow hnotself _ hexec =>
    have hg := VaultCall.guarded hexec
    have hadmin : c.administers = false := by
      cases c with
      | grantRole | revokeRole =>
        -- the timelock is the only administrator
        have hholder : VaultRole.Holder env cfg .defaultAdmin caller :=
          hg.caller_allowed hruled rfl
        exact hquiet hholder
      | _ => rfl
    refine ⟨hg.within hadmin hruled, fun hslash => ?_⟩
    cases c with
    | slash b' w' amount =>
      -- only the registry may slash, and it does not call the vault by itself
      have hscoring : VaultRole.Holder env cfg .slasher caller := hg.caller_allowed hruled rfl
      have hcaller : caller = sc.self := Eq.trans hscoring hself.symm
      exact absurd hcaller hnotself
    | _ => exact hslash.elim

/-- A proof that is accepted in a run shows two roots that were signed. -/
theorem challenge_caught {blk : Block} {e : Epoch} {rootA rootB : Bytes32} {sigA sigB : Bytes}
    (hunforged : sc.crypto.Unforged signedBy (rootsShown sc ls))
    (hfree : sc.crypto.DigestsCollisionFree (rootMessages sc signedBy ls))
    (hmem : .registry blk (.challengeEquivocation e b rootA sigA rootB sigB w) ∈ ls)
    (h : challengeEquivocation sc blk e b rootA sigA rootB sigB w s = .ok t) :
    Caught sc signedBy b w s { t with now := blk.timestamp } := by
  obtain ⟨hroots, -, hvalid, hsigner, hours, hA, hB, staking, rfl, -⟩ :=
    challengeEquivocation_ok h
  -- the contract recovered the validator from both signatures it was shown
  have hsigned : ∀ u, signedBy u ⊆ rootMessages sc signedBy ls := fun u m hm => .inl ⟨u, hm⟩
  have hshownA : (commitmentPreimage sc e b rootA, sigA) ∈ rootsShown sc ls :=
    ⟨blk, e, b, rootA, sigA, rootB, sigB, w, hmem, .inl rfl⟩
  have hshownB : (commitmentPreimage sc e b rootB, sigB) ∈ rootsShown sc ls :=
    ⟨blk, e, b, rootA, sigA, rootB, sigB, w, hmem, .inr rfl⟩
  have hpenA := hunforged.signed hfree hsigned hshownA (.inr ⟨sigA, hshownA⟩) hA
  have hpenB := hunforged.signed hfree hsigned hshownB (.inr ⟨sigB, hshownB⟩) hB
  have hvoided : ((s.registry.voided e b).epochs e b).invalidated = true := by
    rw [voided, withEpoch_epochs, if_pos ⟨rfl, rfl⟩]
  -- one of the two is the root of the commitment
  rcases hours with hA | hB
  · exact ⟨e, rootB, hA ▸ hroots.symm, hA ▸ hpenA, hpenB, hsigner, hvalid, hvoided⟩
  · exact ⟨e, rootA, hB ▸ hroots, hB ▸ hpenB, hpenA, hsigner, hvalid, hvoided⟩

/-- A step that neither slashes a pool nor is a call of `u` about it dilutes nothing `u` has in
it. -/
theorem scoringStep_notDiluted (h : ScoringStep sc s l t) (hv : VaultInv s.staking.vault)
    (hslash : ¬ Slashes b w l) (hown : ¬ l.Own b w u) :
    NotDiluted s.staking.vault t.staking.vault b w u := by
  cases h with
  | received => exact .refl _ _ _ _
  | vault blk caller c _ _ _ hexec =>
    refine exec_notDiluted hexec hv ?_ hown
    rintro amount rfl
    exact hslash ⟨rfl, rfl⟩
  | registry blk c hnow hexec =>
    cases c with
    | proposeEpoch e b' root signers signatures =>
      obtain ⟨-, -, -, -, -, -, -, -, -, rfl⟩ := proposeEpoch_ok hexec
      exact .refl _ _ _ _
    | finalizeEpoch e b' =>
      obtain ⟨-, -, ⟨-, rfl⟩ | ⟨-, -, rfl⟩⟩ := finalizeEpoch_ok hexec
      · exact .refl _ _ _ _
      · exact .refl _ _ _ _
    | challengeEquivocation e b' rootA sigA rootB sigB w' =>
      obtain ⟨-, -, -, -, -, -, -, staking, rfl, ⟨-, rfl⟩ | ⟨-, hcut⟩⟩ :=
        challengeEquivocation_ok hexec
      · exact .refl _ _ _ _
      · -- another pool is slashed
        refine exec_notDiluted (c := .slash b' w' _) hcut hv ?_ fun hpool => ?_
        · intro amount heq
          obtain ⟨rfl, rfl, -⟩ := VaultCall.slash.inj heq
          exact hslash ⟨rfl, rfl⟩
        · cases hpool.2

end Steps

/-- What holds in every state of such a run. -/
structure StakeInv (cfg : DeployConfig) (s : ScoringState T) : Prop where
  ruled : Ruled env.toSystemEnv cfg s
  vault : VaultInv s.staking.vault

variable {env} {cfg : ScriptConfig} {blk : Block} {token : T} {brainOwners : BrainOwners}
  {d : Deployment T} {ls : List ScoringLabel} {s : ScoringState T}
  {signedBy : Address → Set Bytes}

theorem StakeInv.deployed (hfresh : env.timelock ≠ cfg.deployer)
    (hdeploy : Deploy.runWithConfig env cfg blk token brainOwners = .ok d) :
    StakeInv env (cfg.deployConfig env) d.scoring := by
  obtain ⟨-, hroles, hsystem, -⟩ := runWithConfig_ok hfresh hdeploy
  obtain ⟨-, -, -, -, roles, hvault⟩ := deploy_ok hsystem
  refine ⟨fun r a h => (hroles.vault r a).mp h, ?_⟩
  show VaultInv d.system.vault
  rw [hvault]
  -- the script has changed its roles, and no books
  have hfreshVault := vaultInv_deploy (cfg.deployConfig env).deployer
  exact ⟨hfreshVault.shares_sum, hfreshVault.brain_sum, hfreshVault.total_sum,
    hfreshVault.no_shares⟩

theorem StakeInv.step {t : ScoringState T} {l : ScoringLabel}
    (hinv : StakeInv env (cfg.deployConfig env) s) (h : ScoringStep (d.scoringEnv env) s l t)
    (hquiet : l.Quiet env.timelock) : StakeInv env (cfg.deployConfig env) t :=
  ⟨(slash_step (b := 0) (w := 0) rfl hinv.ruled h hquiet).1, scoringStep_vaultInv h hinv.vault⟩

/-- A step of the run that slashes. -/
theorem StakeInv.caught {p q : ScoringState T} {l : ScoringLabel} {b : BrainId} {w : Address}
    (hinv : StakeInv env (cfg.deployConfig env) p) (hquiet : l.Quiet env.timelock)
    (hunforged : env.crypto.Unforged signedBy (rootsShown (d.scoringEnv env) ls))
    (hfree : env.crypto.DigestsCollisionFree (rootMessages (d.scoringEnv env) signedBy ls))
    (hmem : l ∈ ls) (hstep : ScoringStep (d.scoringEnv env) p l q) (hslash : Slashes b w l) :
    Caught (d.scoringEnv env) signedBy b w p q := by
  obtain ⟨blk, e, rootA, sigA, rootB, sigB, rfl⟩ :=
    (slash_step rfl hinv.ruled hstep hquiet).2 hslash
  cases hstep with
  | registry _ _ _ hexec => exact challenge_caught hunforged hfree hmem hexec

/-- Over a stretch of the run, the stake behind a validator that signs one root an epoch keeps
its worth. -/
theorem StakeInv.notDiluted {p q : ScoringState T} {mid : List ScoringLabel} {b : BrainId}
    {w u : Address} (hinv : StakeInv env (cfg.deployConfig env) p)
    (hunforged : env.crypto.Unforged signedBy (rootsShown (d.scoringEnv env) ls))
    (hfree : env.crypto.DigestsCollisionFree (rootMessages (d.scoringEnv env) signedBy ls))
    (hone : ∀ e, ¬ SignedTwo (d.scoringEnv env) signedBy e b w)
    (hrun : Run (ScoringStep (d.scoringEnv env)) p mid q)
    (hmid : ∀ l ∈ mid, l ∈ ls ∧ l.Quiet env.timelock ∧ ¬ l.Own b w u) :
    NotDiluted p.staking.vault q.staking.vault b w u := by
  -- along the run: no step slashes this pool, since that would take two signed roots
  induction hrun with
  | nil p => exact .refl _ _ _ _
  | @cons p r q l mid hstep hrest ih =>
    obtain ⟨⟨hmem, hquiet, hown⟩, hlater⟩ := List.forall_mem_cons.mp hmid
    have hslash : ¬ Slashes b w l := by
      intro hslash
      obtain ⟨e, htwo⟩ := (hinv.caught hquiet hunforged hfree hmem hstep hslash).signedTwo
      exact hone e htwo
    have hfirst := scoringStep_notDiluted hstep hinv.vault hslash hown
    exact hfirst.trans (ih (hinv.step hstep hquiet) hlater)

/--
**Only equivocators are slashed.** In every run of the scoring registry and the vault as the
script deploys them, in which the timelock calls for no role and no signature that is shown is
forged: every step that slashes a validator proves that it signed two roots for one epoch and
Brain, of which it had co-signed the one that stood, and the commitment falls with it. So the stake
behind a validator that signs one root for each epoch and Brain is never slashed: over any
stretch of the run, and whoever else is slashed meanwhile, what any staker has in its pool is
worth at least what it was, until the staker itself moves it.
-/
theorem equivocators_only (hfresh : env.timelock ≠ cfg.deployer)
    (hdeploy : Deploy.runWithConfig env cfg blk token brainOwners = .ok d)
    (hrun : Run (ScoringStep (d.scoringEnv env)) d.scoring ls s)
    (hquiet : ∀ l ∈ ls, l.Quiet env.timelock)
    (hunforged : env.crypto.Unforged signedBy (rootsShown (d.scoringEnv env) ls))
    (hfree : env.crypto.DigestsCollisionFree (rootMessages (d.scoringEnv env) signedBy ls)) :
    (∀ p l q b w, Along (ScoringStep (d.scoringEnv env)) d.scoring ls s p l q →
      Slashes b w l → Caught (d.scoringEnv env) signedBy b w p q) ∧
    ∀ b w, (∀ e, ¬ SignedTwo (d.scoringEnv env) signedBy e b w) →
      ∀ pre mid post p q u, ls = pre ++ mid ++ post →
        Run (ScoringStep (d.scoringEnv env)) d.scoring pre p →
        Run (ScoringStep (d.scoringEnv env)) p mid q → (∀ l ∈ mid, ¬ l.Own b w u) →
          NotDiluted p.staking.vault q.staking.vault b w u := by
  have hstart := StakeInv.deployed hfresh hdeploy
  -- every state of the run is one of the deployment's
  have hreach : ∀ {pre p}, (∀ l ∈ pre, l ∈ ls) →
      Run (ScoringStep (d.scoringEnv env)) d.scoring pre p →
        StakeInv env (cfg.deployConfig env) p := by
    intro pre p hsub hpre
    exact (hpre.restrict_labels fun l hl => hquiet l (hsub l hl)).invariant
      (I := StakeInv env (cfg.deployConfig env)) (fun h hinv => hinv.step h.1 h.2) hstart
  constructor
  · rintro p l q b w halong hslash
    have hmem := halong.mem
    obtain ⟨pre, post, rfl, hpre, hstep, -⟩ := halong
    have hinv := hreach (fun l hl => List.mem_append_left _ hl) hpre
    exact hinv.caught (hquiet l hmem) hunforged hfree hmem hstep hslash
  · rintro b w hone pre mid post p q u rfl hpre hmid hown
    have hinv := hreach (fun l hl => List.mem_append_left _ (List.mem_append_left _ hl)) hpre
    have hsub : ∀ l ∈ mid, l ∈ pre ++ mid ++ post :=
      fun l hl => List.mem_append_left _ (List.mem_append_right _ hl)
    exact hinv.notDiluted hunforged hfree hone hmid
      fun l hl => ⟨hsub l hl, hquiet l (hsub l hl), hown l hl⟩

end Slashing

/-! ## An example -/

/-- The toy registry, as the script deploys it at the moment 0. -/
def toyScoring : ScoringEnv Ledger where
  crypto := toyCrypto
  staking := toySystem.vaultEnv
  self := 8
  chainId := 1
  genesisTimestamp := 0

/-- Accounts 2 and 5 stake for the validators 7 and 6, who sign the root 5 of the first epoch; then
somebody shows that 6 has also signed the root 9. -/
def toyCatch : List ScoringLabel :=
  [.vault (toyBlockAt 100) 2 (.stake 3 7 1000), .vault (toyBlockAt 100) 5 (.stake 3 6 500),
    .registry (toyBlockAt 3600) (.proposeEpoch 0 3 5 [6, 7] [[6, 5], [7, 5]]),
    .registry (toyBlockAt 3700) (.challengeEquivocation 0 3 5 [6, 5] 9 [6, 9] 6)]

/-- Validator 6 signs whatever it is asked to, and validator 7 the root 5. -/
def toyPens (u : Address) : Set Bytes :=
  {m | u = 6 ∧ ∃ root, m = commitmentPreimage toyScoring 0 3 root} ∪
    {m | u = 7 ∧ m = commitmentPreimage toyScoring 0 3 5}

theorem toyScoring_keccak (e : Epoch) (b : BrainId) (root : Bytes32) :
    toyCrypto.keccak256 (commitmentPreimage toyScoring e b root) = root :=
  toyCrypto_keccak_abiEncode [_, _, _, _, _] root

theorem toyCatch_shown {p : Bytes × Bytes} (h : p ∈ rootsShown toyScoring toyCatch) :
    ∃ root low, p = (commitmentPreimage toyScoring 0 3 root, [6, low]) := by
  obtain ⟨blk, e, b, rootA, sigA, rootB, sigB, w, hmem, hp⟩ := h
  simp only [toyCatch, List.mem_cons, reduceCtorEq, false_or, List.not_mem_nil, or_false,
    ScoringLabel.registry.injEq, and_false, ScoringCall.challengeEquivocation.injEq] at hmem
  obtain ⟨-, rfl, rfl, rfl, rfl, rfl, rfl, rfl⟩ := hmem
  rcases hp with rfl | rfl
  · exact ⟨5, 5, rfl⟩
  · exact ⟨9, 9, rfl⟩

theorem toyPens_unforged : toyCrypto.Unforged toyPens (rootsShown toyScoring toyCatch) := by
  intro m sig u hm hrecover
  obtain ⟨root, low, hp⟩ := toyCatch_shown hm
  obtain ⟨rfl, rfl⟩ := Prod.mk.inj hp
  -- a signature that begins with 6 is nobody else's
  have hsix : ∀ digest, toyCrypto.recover digest [6, low] = some u → u = 6 := by
    intro digest h
    simp only [toyCrypto] at h
    split at h
    · exact (Option.some.inj h).symm
    · cases h
  exact ⟨_, .inl ⟨hsix _ hrecover, root, rfl⟩, rfl⟩

theorem toyPens_collisionFree :
    toyCrypto.DigestsCollisionFree (rootMessages toyScoring toyPens toyCatch) := by
  have hall : ∀ m ∈ rootMessages toyScoring toyPens toyCatch,
      ∃ root, m = commitmentPreimage toyScoring 0 3 root := by
    rintro m (⟨u, ⟨-, root, hm⟩ | ⟨-, hm⟩⟩ | ⟨sig, hm⟩)
    · exact ⟨root, hm⟩
    · exact ⟨5, hm⟩
    · obtain ⟨root, low, hp⟩ := toyCatch_shown hm
      exact ⟨root, (Prod.mk.inj hp).1⟩
  constructor
  · intro m hm m' hm' heq
    obtain ⟨root, rfl⟩ := hall m hm
    obtain ⟨root', rfl⟩ := hall m' hm'
    rw [toyScoring_keccak, toyScoring_keccak] at heq
    rw [heq]
  · rintro _ ⟨m, hm, rfl⟩ _ ⟨m', hm', rfl⟩ heq
    obtain ⟨root, rfl⟩ := hall m hm
    obtain ⟨root', rfl⟩ := hall m' hm'
    have hsame : toyCrypto.keccak256 (commitmentPreimage toyScoring 0 3 root) =
        toyCrypto.keccak256 (commitmentPreimage toyScoring 0 3 root') :=
      ((toyCrypto_toEthSignedMessageHash _).symm.trans heq).trans
        (toyCrypto_toEthSignedMessageHash _)
    rw [toyScoring_keccak, toyScoring_keccak] at hsame
    rw [hsame]

/-- The four steps go through. -/
theorem toyCatch_run : ∃ d s,
    Deploy.runWithConfig toyScriptEnv toyScript ⟨0, by decide⟩ toyLedger toyOwners = .ok d ∧
      Run (ScoringStep toyScoring) d.scoring toyCatch s ∧
      s.staking.vault.vAssets 3 6 = 0 ∧ s.staking.vault.vAssets 3 7 = 1000 := by
  have hruns : (do
      let d ← Deploy.runWithConfig toyScriptEnv toyScript ⟨0, by decide⟩ toyLedger toyOwners
      let v ← (VaultCall.stake 3 7 1000).exec toySystem.vaultEnv ⟨100, by decide⟩ 2
        d.system.staking
      let v' ← (VaultCall.stake 3 6 500).exec toySystem.vaultEnv ⟨100, by decide⟩ 5 v
      let t ← (ScoringCall.proposeEpoch 0 3 5 [6, 7] [[6, 5], [7, 5]]).exec toyScoring
        ⟨3600, by decide⟩ ⟨100, v', .deploy⟩
      let t' ← (ScoringCall.challengeEquivocation 0 3 5 [6, 5] 9 [6, 9] 6).exec toyScoring
        ⟨3700, by decide⟩ { t with now := 3600 }
      return (d.genesisTimestamp, t'.staking.vault.vAssets 3 6,
        t'.staking.vault.vAssets 3 7) : Exec (Nat × Nat × Nat)).toOption = some (0, 0, 1000) := by
    decide +kernel
  have hruns := toOption_ok.mp hruns
  simp only [bind_ok, return_ok, Prod.mk.injEq] at hruns
  obtain ⟨d, hd, v, hv, v', hv', t, ht, t', ht', hgenesis, hsix, hseven⟩ := hruns
  have hstart : d.genesisTimestamp ≤ 100 := by omega
  refine ⟨d, _, hd, .cons (.vault ⟨100, by decide⟩ 2 (.stake 3 7 1000) hstart (by decide)
    (by decide) hv) (.cons (.vault ⟨100, by decide⟩ 5 (.stake 3 6 500) le_rfl (by decide)
    (by decide) hv') (.cons (.registry ⟨3600, by decide⟩ _ ?_ ht)
    (.single (.registry ⟨3700, by decide⟩ _ ?_ ht')))), hsix, hseven⟩
  · show (100 : Nat) ≤ 3600
    decide
  · show (3600 : Nat) ≤ 3700
    decide

/-- Validator 6 loses its stake, and what account 2 has with validator 7 keeps its worth. -/
theorem equivocators_only_caught : ∃ d s,
    Deploy.runWithConfig toyScriptEnv toyScript ⟨0, by decide⟩ toyLedger toyOwners = .ok d ∧
      Run (ScoringStep toyScoring) d.scoring toyCatch s ∧ s.staking.vault.vAssets 3 6 = 0 ∧
      ∀ p, Run (ScoringStep toyScoring) d.scoring (toyCatch.take 1) p →
        Run (ScoringStep toyScoring) p (toyCatch.drop 1) s →
          NotDiluted p.staking.vault s.staking.vault 3 7 2 := by
  obtain ⟨d, s, hd, hrun, hsix, -⟩ := toyCatch_run
  have hfresh : toyScriptEnv.timelock ≠ toyScript.deployer := by decide
  obtain ⟨-, -, -, -, -, -, hgenesis⟩ := runWithConfig_ok hfresh hd
  have henv : d.scoringEnv toyScriptEnv = toyScoring := by
    unfold Deployment.scoringEnv
    rw [hgenesis]
    rfl
  have hquiet : ∀ l ∈ toyCatch, l.Quiet toyScriptEnv.timelock := by
    simp [toyCatch, ScoringLabel.Quiet, VaultCall.administers]
  have hunforged : toyScriptEnv.crypto.Unforged toyPens
      (rootsShown (d.scoringEnv toyScriptEnv) toyCatch) := henv ▸ toyPens_unforged
  have hresult := equivocators_only hfresh hd (henv ▸ hrun) hquiet hunforged
    (henv ▸ toyPens_collisionFree)
  rw [henv] at hresult
  -- validator 7 signs one root only
  have hone : ∀ e, ¬ SignedTwo toyScoring toyPens e 3 7 := by
    rintro e ⟨rootA, rootB, hroots, ⟨hA, -⟩ | ⟨-, hA⟩, ⟨hB, -⟩ | ⟨-, hB⟩⟩
    · cases hA
    · cases hA
    · cases hB
    · have hsame := congrArg toyCrypto.keccak256 (hA.trans hB.symm)
      rw [toyScoring_keccak, toyScoring_keccak] at hsame
      exact hroots hsame
  refine ⟨d, s, hd, hrun, hsix, fun p hpre hmid => ?_⟩
  refine hresult.2 3 7 hone _ _ [] p s 2 rfl hpre hmid ?_
  simp [toyCatch, ScoringLabel.Own, VaultCall.pool]

end BasedAI
