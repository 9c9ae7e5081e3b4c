import BasedAI.Staking.VaultAccounting

/-!
# BasedAI — stake snapshots

Governance reads stake from the past. Every operation that moves stake checkpoints it
after its last write, so a past answer is the stake at that moment, it never changes
again, and the Brains' answers add up to the total's although their traces are written
at different moments.

The vault's clock is the block timestamp cut to 48 bits, and moments are readings of it.

* `push_lookup_before`, `push_lookup_since` — what a checkpoint changes for a lookup;
* `Snapshot`       — from the moments so far on, a lookup answers the present stake;
* `step_keeps`     — a step after a moment changes no answer for it;
* `snapshots_exact` — the answers are exact, final, and add up.
-/

namespace BasedAI

open Fallible Mapping Transition

/-! ## Traces -/

section Traces

variable {trace trace' : Trace208} {key value t : Nat}

/-- A checkpoint leaves the answers for the time before it. -/
theorem push_lookup_before (h : trace.push key value = .ok trace') (ht : t < key) :
    trace'.upperLookupRecent t = trace.upperLookupRecent t := by
  have hskip : ¬ key ≤ t := Nat.not_le.mpr ht
  cases trace with
  | nil =>
    cases h
    simp [Trace208.upperLookupRecent, hskip]
  | cons last older =>
    unfold Trace208.push at h
    dsimp only at h
    split_ifs at h with hold hsame
    · -- the overwritten checkpoint has the same key, and the lookup skips both
      cases h
      have hlast : ¬ last.key ≤ t := hsame ▸ hskip
      simp [Trace208.upperLookupRecent, hskip, hlast]
    · cases h
      simp [Trace208.upperLookupRecent, hskip]

/-- And answers for the time since. -/
theorem push_lookup_since (h : trace.push key value = .ok trace') (ht : key ≤ t) :
    trace'.upperLookupRecent t = value := by
  cases trace with
  | nil =>
    cases h
    simp [Trace208.upperLookupRecent, ht]
  | cons last older =>
    unfold Trace208.push at h
    dsimp only at h
    split_ifs at h with hold hsame
    · cases h
      simp [Trace208.upperLookupRecent, ht]
    · cases h
      simp [Trace208.upperLookupRecent, ht]

/-- No checkpoint of the trace is newer than `now`. -/
def Trace208.UpTo (now : Nat) (trace : Trace208) : Prop :=
  ∀ c ∈ trace.head?, c.key ≤ now

/-- A checkpoint in the present is taken, and is the newest one then. -/
theorem push_present (h : trace.UpTo key) :
    ∃ trace', trace.push key value = .ok trace' := by
  cases trace with
  | nil => exact ⟨_, rfl⟩
  | cons last older =>
    have hle : ¬ key < last.key := Nat.not_lt.mpr (h last rfl)
    unfold Trace208.push
    dsimp only
    rw [if_neg hle]
    split
    · exact ⟨_, rfl⟩
    · exact ⟨_, rfl⟩

theorem push_upTo (h : trace.push key value = .ok trace') : trace'.UpTo key := by
  intro c hc
  cases trace with
  | nil =>
    cases h
    cases hc
    exact le_rfl
  | cons last older =>
    unfold Trace208.push at h
    dsimp only at h
    split_ifs at h
    · cases h
      cases hc
      exact le_rfl
    · cases h
      cases hc
      exact le_rfl

theorem Trace208.UpTo.later (h : trace.UpTo key) (ht : key ≤ t) : trace.UpTo t :=
  fun c hc => (h c hc).trans ht

end Traces

/-! ## Steps in time -/

/-- A call happens when the clock of its block says, tokens arrive at any moment. -/
def VaultLabel.moment : VaultLabel → Nat → Prop
  | .call blk _ _, n => StakingVault.clock blk = n
  | .received _, _ => True

/-- A call at its block's time. -/
theorem timedCall {T : Type} {step : VaultState T → VaultLabel → VaultState T → Prop}
    {now : Nat} {s s' : VaultState T} {blk : Block} {caller : Address} {c : VaultCall}
    (hstep : step s (.call blk caller c) s') (hle : now ≤ StakingVault.clock blk) :
    TimedStep step VaultLabel.moment ⟨now, s⟩ (.call blk caller c)
      ⟨StakingVault.clock blk, s'⟩ :=
  .mk hle rfl hstep

/-- Steps of the vault at moments that do not go back, with the total staked always
below `2 ^ 208`. -/
def SnapshotStep {T : Type} (env : VaultEnv T) :
    Timed (VaultState T) → VaultLabel → Timed (VaultState T) → Prop :=
  TimedStep (fun s l s' => VaultStep env s l s' ∧ s'.vault.totalAssets < 2 ^ 208)
    VaultLabel.moment

/-- Asked for the moment `t`, both histories of `v` answer the present stake. -/
structure Snapshot (t : Nat) (v : StakingVault) : Prop where
  brain : ∀ b, v.getPastBrainStake b t = v.brainStake b
  total : v.getPastTotalStaked t = v.totalStaked

/-- Asked for the moment `t`, the histories of `v` and of `v'` answer the same. -/
structure SamePast (t : Nat) (v v' : StakingVault) : Prop where
  brain : ∀ b, v'.getPastBrainStake b t = v.getPastBrainStake b t
  total : v'.getPastTotalStaked t = v.getPastTotalStaked t

namespace SamePast

variable {t : Nat} {v v' v'' : StakingVault}

theorem refl (t : Nat) (v : StakingVault) : SamePast t v v := ⟨fun _ => rfl, rfl⟩

theorem trans (h : SamePast t v v') (h' : SamePast t v' v'') : SamePast t v v'' :=
  ⟨fun b => (h'.brain b).trans (h.brain b), h'.total.trans h.total⟩

end SamePast

section Calls

variable {blk : Block} {v v' : StakingVault} {t : Nat}

/-- A recorded call by the moment `t` is seen at `t`. -/
theorem recorded_snapshot (h : Recorded blk v v') (hv : VaultInv v')
    (hsmall : v'.totalAssets < 2 ^ 208) (ht : StakingVault.clock blk ≤ t)
    (hs : Snapshot t v) : Snapshot t v' := by
  cases h with
  | still htotal hbrain hth hbh =>
    refine ⟨fun b => ?_, ?_⟩
    · have := hs.brain b
      unfold StakingVault.getPastBrainStake StakingVault.brainStake at this ⊢
      rw [hbh, hbrain, this]
    · have := hs.total
      unfold StakingVault.getPastTotalStaked StakingVault.totalStaked at this ⊢
      rw [hth, htotal, this]
  | moved b trace hpushTotal hpushBrain hbh hother =>
    refine ⟨fun b' => ?_, ?_⟩
    · unfold StakingVault.getPastBrainStake StakingVault.brainStake
      rw [hbh]
      by_cases hb : b' = b
      · -- a Brain's stake is part of the total, so the cast to 208 bits keeps it
        subst hb
        have hfits : v'.brainAssets b' < 2 ^ 208 := (hv.brain_le_total b').trans_lt hsmall
        rw [set_same, push_lookup_since hpushBrain ht]
        exact Nat.mod_eq_of_lt hfits
      · rw [set_of_ne _ _ hb, hother b' hb]
        exact hs.brain b'
    · unfold StakingVault.getPastTotalStaked StakingVault.totalStaked
      rw [push_lookup_since hpushTotal ht]
      exact Nat.mod_eq_of_lt hsmall

/-- No checkpoint of either history is newer than `now`. -/
structure InTime (now : Nat) (v : StakingVault) : Prop where
  total : v.totalHistory.UpTo now
  brain : ∀ b, (v.brainHistory b).UpTo now

theorem inTime_deploy (now : Nat) (admin : Address) : InTime now (.deploy admin) where
  total _ hc := by cases hc
  brain _ _ hc := by cases hc

theorem recorded_inTime {now : Nat} (h : Recorded blk v v')
    (hnow : now ≤ StakingVault.clock blk) (hi : InTime now v) :
    InTime (StakingVault.clock blk) v' := by
  cases h with
  | still _ _ hth hbh =>
    refine ⟨?_, fun b => ?_⟩
    · rw [hth]
      exact hi.total.later hnow
    · rw [hbh]
      exact (hi.brain b).later hnow
  | moved b trace hpushTotal hpushBrain hbh _ =>
    refine ⟨push_upTo hpushTotal, fun b' => ?_⟩
    rw [hbh]
    -- the total and one Brain get a checkpoint at this moment
    by_cases hb : b' = b
    · subst hb
      rw [set_same]
      exact push_upTo hpushBrain
    · rw [set_of_ne _ _ hb]
      exact (hi.brain b').later hnow

/-- A checkpoint that is not in the past succeeds. -/
theorem checkpoint_present {b : BrainId} (hi : InTime (StakingVault.clock blk) v) :
    ∃ v', StakingVault.checkpoint blk b v = .ok v' := by
  obtain ⟨total, htotal⟩ := @push_present _ _ (uint208 v.totalAssets) hi.total
  obtain ⟨brain, hbrain⟩ := @push_present _ _ (uint208 (v.brainAssets b)) (hi.brain b)
  unfold StakingVault.checkpoint
  simp only [bind_ok, return_ok]
  exact ⟨_, total, htotal, brain, hbrain, rfl⟩

/-- A recorded call after the moment `t` changes no answer for it. -/
theorem recorded_keeps (h : Recorded blk v v') (ht : t < StakingVault.clock blk) :
    SamePast t v v' := by
  cases h with
  | still htotal hbrain hth hbh =>
    exact ⟨fun b => by unfold StakingVault.getPastBrainStake; rw [hbh],
      by unfold StakingVault.getPastTotalStaked; rw [hth]⟩
  | moved b trace hpushTotal hpushBrain hbh hother =>
    refine ⟨fun b' => ?_, ?_⟩
    · unfold StakingVault.getPastBrainStake
      rw [hbh]
      by_cases hb : b' = b
      · subst hb
        rw [set_same]
        exact push_lookup_before hpushBrain ht
      · rw [set_of_ne _ _ hb]
    · exact push_lookup_before hpushTotal ht

end Calls

section Steps

variable {T : Type} {env : VaultEnv T} {s s' : Timed (VaultState T)} {l : VaultLabel}
  {ls : List VaultLabel} {t : Nat}

/-- A step by the moment `t` is seen at `t`. -/
theorem step_snapshot (h : SnapshotStep env s l s') (ht : s'.now ≤ t)
    (hv : VaultInv s.state.vault) (hs : Snapshot t s.state.vault) :
    Snapshot t s'.state.vault := by
  cases h with
  | mk _ hmoment hstep =>
    obtain ⟨hstep, hsmall⟩ := hstep
    cases hstep with
    | received => exact hs
    | call blk caller c _ hexec =>
      -- the call is made when the clock of its block says
      have hat : StakingVault.clock blk = _ := hmoment
      exact recorded_snapshot (exec_recorded hexec) (exec_inv hexec hv) hsmall
        (hat.le.trans ht) hs

/-- A step after the moment `t` changes no answer for it. -/
theorem step_keeps (h : SnapshotStep env s l s') (ht : t < s'.now) :
    SamePast t s.state.vault s'.state.vault := by
  cases h with
  | mk _ hmoment hstep =>
    cases hstep.1 with
    | received => exact .refl t _
    | call blk caller c _ hexec =>
      have hat : StakingVault.clock blk = _ := hmoment
      exact recorded_keeps (exec_recorded hexec) (ht.trans_eq hat.symm)

/-- Steps of the timed vault are steps of the vault. -/
theorem snapshotRun_run (h : Run (SnapshotStep env) s ls s') :
    Run (VaultStep env) s.state ls s'.state :=
  h.untimed.mono And.left

/-- What was true by the moment `t` is seen at `t`. -/
theorem run_snapshot (h : Run (SnapshotStep env) s ls s') (ht : s'.now ≤ t)
    (hv : VaultInv s.state.vault) (hs : Snapshot t s.state.vault) :
    Snapshot t s'.state.vault := by
  induction h with
  | nil s => exact hs
  | @cons s p q l ls hstep hrun ih =>
    have hp : p.now ≤ t := hrun.time_le.trans ht
    have hvp : VaultInv p.state.vault := vaultRun_inv (snapshotRun_run (.single hstep)) hv
    exact ih ht hvp (step_snapshot hstep hp hv hs)

/-- What happens after the moment `t` changes no answer for it. -/
theorem run_keeps (h : Run (After t (SnapshotStep env)) s ls s') :
    SamePast t s.state.vault s'.state.vault := by
  induction h with
  | nil s => exact .refl t _
  | cons hstep _ ih => exact (step_keeps hstep.1 hstep.2).trans ih

/-- What the histories of `v` tell at the moment `now`: the present from then on, and at
every moment the parts of one total. -/
structure Remembered (now : Nat) (v : StakingVault) : Prop where
  inv : VaultInv v
  present : ∀ t, now ≤ t → Snapshot t v
  sums : ∀ t, ∑ b, v.getPastBrainStake b t = v.getPastTotalStaked t

theorem remembered_deploy (now : Nat) (admin : Address) : Remembered now (.deploy admin) where
  inv := vaultInv_deploy admin
  present _ _ := ⟨fun _ => rfl, rfl⟩
  sums _ := Finset.sum_const_zero

theorem Remembered.later {now later : Nat} {v : StakingVault} (hr : Remembered now v)
    (h : now ≤ later) : Remembered later v :=
  ⟨hr.inv, fun t ht => hr.present t (h.trans ht), hr.sums⟩

theorem step_remembered (h : SnapshotStep env s l s') (hr : Remembered s.now s.state.vault) :
    Remembered s'.now s'.state.vault := by
  have hinv : VaultInv s'.state.vault := vaultRun_inv (snapshotRun_run (.single h)) hr.inv
  have hpresent : ∀ t, s'.now ≤ t → Snapshot t s'.state.vault :=
    fun t ht => step_snapshot h ht hr.inv (hr.present t (h.le.trans ht))
  refine ⟨hinv, hpresent, fun t => ?_⟩
  -- a moment before the step is answered as before, and a later one by the present
  by_cases ht : t < s'.now
  · have hkept := step_keeps h ht
    rw [hkept.total, ← hr.sums t]
    exact Finset.sum_congr rfl fun b _ => hkept.brain b
  · have hseen := hpresent t (Nat.le_of_not_lt ht)
    rw [hseen.total]
    calc ∑ b, s'.state.vault.getPastBrainStake b t
        = ∑ b, s'.state.vault.brainAssets b := Finset.sum_congr rfl fun b _ => hseen.brain b
      _ = s'.state.vault.totalAssets := hinv.total_sum.symm

end Steps

/-! ## Snapshots -/

/--
**Snapshots are exact and final.** Take a run with moments that do not go back and any
moment `t`. The answers for `t` are the stakes after the last step taken by `t`; no step
from a later moment on changes them; and over all Brains they add up to the answer for
the total.
-/
theorem snapshots_exact {T : Type} {env : VaultEnv T} {admin : Address} {t₀ : T}
    {ls : List VaultLabel} {now : Nat} {s : VaultState T}
    (h : Run (SnapshotStep env) ⟨0, t₀, .deploy admin⟩ ls ⟨now, s⟩) (t : Nat) :
    (∃ pre p post, ls = pre ++ post ∧
      Run (SnapshotStep env) ⟨0, t₀, .deploy admin⟩ pre p ∧ p.now ≤ t ∧
      Run (After t (SnapshotStep env)) p post ⟨now, s⟩ ∧
      (∀ b, s.vault.getPastBrainStake b t = p.state.vault.brainStake b) ∧
      s.vault.getPastTotalStaked t = p.state.vault.totalStaked) ∧
    (∀ current ks q, t < current → Run (SnapshotStep env) ⟨current, s⟩ ks q →
      (∀ b, q.state.vault.getPastBrainStake b t = s.vault.getPastBrainStake b t) ∧
      q.state.vault.getPastTotalStaked t = s.vault.getPastTotalStaked t) ∧
    ∑ b, s.vault.getPastBrainStake b t = s.vault.getPastTotalStaked t := by
  -- the steps taken by `t`, and those taken after it
  obtain ⟨pre, p, post, hls, hpre, hp, hpost⟩ := Run.split h (Nat.zero_le t)
  have hdeploy : Snapshot t (.deploy admin) := ⟨fun _ => rfl, rfl⟩
  have hseen : Snapshot t p.state.vault := run_snapshot hpre hp (vaultInv_deploy admin) hdeploy
  have hkept : SamePast t p.state.vault s.vault := run_keeps hpost
  have hbrain : ∀ b, s.vault.getPastBrainStake b t = p.state.vault.brainStake b :=
    fun b => (hkept.brain b).trans (hseen.brain b)
  have htotal : s.vault.getPastTotalStaked t = p.state.vault.totalStaked :=
    hkept.total.trans hseen.total
  refine ⟨⟨pre, p, post, hls, hpre, hp, hpost, hbrain, htotal⟩, ?_, ?_⟩
  · intro current ks q ht hks
    have hlater : SamePast t s.vault q.state.vault := run_keeps (Run.after hks ht)
    exact ⟨hlater.brain, hlater.total⟩
  · have hv : VaultInv p.state.vault :=
      vaultRun_inv (snapshotRun_run hpre) (vaultInv_deploy admin)
    calc ∑ b, s.vault.getPastBrainStake b t
        = ∑ b, p.state.vault.brainStake b := Finset.sum_congr rfl fun b _ => hbrain b
      _ = p.state.vault.totalStaked := hv.total_sum.symm
      _ = s.vault.getPastTotalStaked t := htotal.symm

set_option maxRecDepth 8000 in
/-- 1000 staked at 100 and 500 more at 200 are 1000 at 150. -/
theorem snapshots_exact_between :
    ∃ s : VaultState Ledger, s.vault.getPastBrainStake 3 150 = 1000 ∧
      s.vault.brainStake 3 = 1500 ∧
      ∑ b, s.vault.getPastBrainStake b 150 = s.vault.getPastTotalStaked 150 := by
  have hsum := (@snapshots_exact Ledger ⟨ledgerToken, 1, by decide⟩ 9 toyLedger _ 200 _
    (.cons (timedCall ⟨.call ⟨100, by decide⟩ 2 (.stake 3 7 1000) (by decide) rfl, by decide⟩
      (by decide))
    (.cons (timedCall ⟨.call ⟨200, by decide⟩ 5 (.stake 3 7 500) (by decide) rfl, by decide⟩
      (by decide))
    (.nil _))) 150).2.2
  exact ⟨_, rfl, rfl, hsum⟩

set_option maxRecDepth 8000 in
/-- The clock is 48 bits wide: a stake `2 ^ 48` seconds after another overwrites its
checkpoint, and with it what was answered for that moment. -/
theorem snapshot_overwritten :
    ∃ s s' : VaultState Ledger,
      Run (VaultStep ⟨ledgerToken, 1, by decide⟩) ⟨toyLedger, .deploy 9⟩
        [.call ⟨5, by decide⟩ 2 (.stake 3 7 1000)] s ∧
      Run (VaultStep ⟨ledgerToken, 1, by decide⟩) s
        [.call ⟨2 ^ 48 + 5, by decide⟩ 2 (.stake 3 7 500)] s' ∧
      s'.vault.totalStaked < 2 ^ 208 ∧
      s'.vault.getPastBrainStake 3 5 ≠ s.vault.getPastBrainStake 3 5 := by
  refine ⟨_, _, .single (.call _ _ _ (by decide) rfl), .single (.call _ _ _ (by decide) rfl),
    ?_, ?_⟩
  · decide
  · decide

end BasedAI
