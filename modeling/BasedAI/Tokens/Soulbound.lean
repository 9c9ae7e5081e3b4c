import BasedAI.Tokens.BrainEscrow

/-!
# BasedAI — a Brain and its staker

A Brain that was minted for a stake is meant to stay with its staker, the bridge aside:
whoever gives it up is to be the one that is refunded. The NFT looks at the two ends of a
transfer only, so this depends on what the endpoints of the bridge do, and on when they
stop being such.

* `AtHome`          — every staked Brain is its staker's, or at an endpoint;
* `KeepsHome`       — the condition on a step;
* `brains_home_iff` — the steps of a run meet it just if all Brains stay at home, and all
  refunds go to who asks for them.
-/

namespace BasedAI

open Fallible Mapping Transition CallStack

/-- Every staked Brain is at an endpoint of the bridge, or with its staker. -/
def BrainNFT.AtHome (nft : BrainNFT) : Prop :=
  ∀ b owner, nft.owners b = some owner → (nft.stakes b).asset ≠ .none →
    nft.endpoint owner = true ∨ owner = (nft.stakes b).staker

/-- The calls that take no Brain from home: a staked Brain is moved to an endpoint or to its
staker, an endpoint that is revoked holds none but its own, and no endpoint gives up another
one's. -/
def BrainNFTCall.KeepsHome (caller : Address) (nft : BrainNFT) : BrainNFTCall → Prop
  | .transferFrom _ recipient b
  | .safeTransferFrom _ recipient b => (nft.stakes b).asset ≠ .none →
    nft.endpoint recipient = true ∨ recipient = (nft.stakes b).staker
  | .setBridge newBridge => ∀ b, (nft.stakes b).asset ≠ .none →
    nft.owners b = some nft.bridge → nft.isBridgeEndpoint nft.bridge = true ∨
      nft.bridge = newBridge ∨ nft.bridge = (nft.stakes b).staker
  | .setBridgeEndpoint endpoint allowed => ∀ b, (nft.stakes b).asset ≠ .none →
    nft.owners b = some endpoint → allowed = true ∨ endpoint = nft.bridge ∨
      endpoint = (nft.stakes b).staker
  | .deactivateAndUnstake b => nft.endpoint caller = true → caller = (nft.stakes b).staker
  | _ => True

/-- Who gives a Brain up is the one that is refunded. -/
def BrainNFTCall.PaysCaller (caller : Address) (nft : BrainNFT) : BrainNFTCall → Prop
  | .deactivateAndUnstake b => (nft.stakes b).staker = caller
  | _ => True

section Labels

variable {T : Type}

/-- The condition on a step from `w`. -/
def KeepsHome (w : BrainWorld T) : Option BrainLabel → Prop
  | some (.call _ caller c) => c.KeepsHome caller w.state.nft
  | _ => True

def PaysCaller (w : BrainWorld T) : Option BrainLabel → Prop
  | some (.call _ caller c) => c.PaysCaller caller w.state.nft
  | _ => True

end Labels

/-! ## Calls -/

namespace BrainNFT

variable {nft nft' : BrainNFT} {b : BrainId} {a caller recipient src : Address} {blk : Block}

theorem endpoint_iff : nft.endpoint a = true ↔
    a ≠ 0 ∧ (a = nft.bridge ∨ nft.isBridgeEndpoint a = true) := by
  unfold endpoint
  simp only [Bool.and_eq_true, Bool.or_eq_true, decide_eq_true_eq]

theorem atHome_deploy (pepecoinStake basedStake : Nat) (governance : Address) :
    (deploy pepecoinStake basedStake governance).AtHome := by
  intro b owner howner
  cases howner

/-- What it depends on. -/
theorem AtHome.of_eq (h : nft.AtHome) (howners : nft'.owners = nft.owners)
    (hstakes : nft'.stakes = nft.stakes) (hbridge : nft'.bridge = nft.bridge)
    (hendpoints : nft'.isBridgeEndpoint = nft.isBridgeEndpoint) : nft'.AtHome := by
  intro b owner howner hasset
  rw [howners] at howner
  rw [hstakes] at hasset ⊢
  rw [endpoint_iff, hbridge, hendpoints, ← endpoint_iff]
  exact h b owner howner hasset

/-- One Brain gets an owner. -/
theorem AtHome.moved (h : nft.AtHome) {approvals : BrainId → Address} :
    AtHome { nft with
      owners := set nft.owners b (some recipient), tokenApprovals := approvals } ↔
    ((nft.stakes b).asset ≠ .none →
      nft.endpoint recipient = true ∨ recipient = (nft.stakes b).staker) := by
  constructor
  · intro hafter hasset
    exact hafter b recipient (set_same _ _ _) hasset
  · intro hmove b' owner howner hasset
    have howner : set nft.owners b (some recipient) b' = some owner := howner
    by_cases hb : b' = b
    · subst hb
      rw [set_same] at howner
      obtain rfl : recipient = owner := Option.some.inj howner
      exact hmove hasset
    · rw [set_of_ne _ _ hb] at howner
      exact h b' owner howner hasset

theorem AtHome.transferFrom (h : nft.AtHome)
    (htransfer : nft.transferFrom caller src recipient b = .ok nft') :
    nft'.AtHome ↔ ((nft.stakes b).asset ≠ .none →
      nft.endpoint recipient = true ∨ recipient = (nft.stakes b).staker) := by
  obtain ⟨-, -, approvals, rfl⟩ := transferFrom_ok htransfer
  exact h.moved

/-- A reserved Brain is nobody's stake. -/
theorem AtHome.mintReserved {q : Option Pending} (h : nft.AtHome)
    (hreserved : ∀ b, b.val < FIRST_PUBLIC_ID → (nft.stakes b).asset = .none)
    (hmint : nft.mintReserved caller recipient b = .ok (q, nft')) : nft'.AtHome := by
  obtain ⟨-, hlow, -, approvals, rfl⟩ := mintReserved_ok hmint
  have hsupplied : AtHome { nft with totalSupply := nft.totalSupply + 1 } :=
    h.of_eq rfl rfl rfl rfl
  apply hsupplied.moved.mpr
  intro hasset
  exact absurd (hreserved b hlow) hasset

/-- A Brain that is burned is nowhere. -/
theorem AtHome.deactivated {q : Option Pending} (h : nft.AtHome)
    (hcall : nft.deactivateAndUnstake blk caller b = .ok (q, nft')) : nft'.AtHome := by
  obtain ⟨-, -, -, -, -, approvals, rfl⟩ := deactivateAndUnstake_ok hcall
  intro b' owner howner hasset
  have howner : set nft.owners b none b' = some owner := howner
  have hb : b' ≠ b := by
    rintro rfl
    rw [set_same] at howner
    cases howner
  have hasset : (set nft.stakes b .empty b').asset ≠ .none := hasset
  show nft.endpoint owner = true ∨ owner = (set nft.stakes b .empty b').staker
  rw [set_of_ne _ _ hb] at howner hasset ⊢
  exact h b' owner howner hasset

theorem AtHome.setBridge {newBridge : Address} (h : nft.AtHome)
    (hset : nft.setBridge caller newBridge = .ok nft') :
    nft'.AtHome ↔ (BrainNFTCall.setBridge newBridge).KeepsHome caller nft := by
  obtain rfl := setBridge_ok hset
  constructor
  · intro hafter b hasset howner
    rcases hafter b _ howner hasset with hend | hstaker
    · obtain ⟨-, hnew | hlisted⟩ := endpoint_iff.mp hend
      · exact .inr (.inl hnew)
      · exact .inl hlisted
    · exact .inr (.inr hstaker)
  · intro hkeeps b owner howner hasset
    rcases h b owner howner hasset with hend | hstaker
    · obtain ⟨hzero, rfl | hlisted⟩ := endpoint_iff.mp hend
      · -- the bridge that is replaced
        rcases hkeeps b hasset howner with hlisted | hnew | hstaker
        · exact .inl (endpoint_iff.mpr ⟨hzero, .inr hlisted⟩)
        · exact .inl (endpoint_iff.mpr ⟨hzero, .inl hnew⟩)
        · exact .inr hstaker
      · exact .inl (endpoint_iff.mpr ⟨hzero, .inr hlisted⟩)
    · exact .inr hstaker

theorem AtHome.setBridgeEndpoint {endpoint : Address} {allowed : Bool} (h : nft.AtHome)
    (hset : nft.setBridgeEndpoint caller endpoint allowed = .ok nft') :
    nft'.AtHome ↔ (BrainNFTCall.setBridgeEndpoint endpoint allowed).KeepsHome caller nft := by
  obtain rfl := setBridgeEndpoint_ok hset
  constructor
  · intro hafter b hasset howner
    rcases hafter b _ howner hasset with hend | hstaker
    · obtain ⟨-, hbridge | hlisted⟩ := endpoint_iff.mp hend
      · exact .inr (.inl hbridge)
      · exact .inl ((set_same nft.isBridgeEndpoint endpoint allowed).symm.trans hlisted)
    · exact .inr (.inr hstaker)
  · intro hkeeps b owner howner hasset
    rcases h b owner howner hasset with hend | hstaker
    · obtain ⟨hzero, hbridge | hlisted⟩ := endpoint_iff.mp hend
      · exact .inl (endpoint_iff.mpr ⟨hzero, .inl hbridge⟩)
      · -- only Brains at the endpoint in question can lose their home
        by_cases hrevoked : owner = endpoint
        · subst hrevoked
          rcases hkeeps b hasset howner with hallowed | hbridge | hstaker
          · exact .inl (endpoint_iff.mpr ⟨hzero, .inr ((set_same _ _ _).trans hallowed)⟩)
          · exact .inl (endpoint_iff.mpr ⟨hzero, .inl hbridge⟩)
          · exact .inr hstaker
        · exact .inl (endpoint_iff.mpr ⟨hzero, .inr ((set_of_ne _ _ hrevoked).trans hlisted)⟩)
    · exact .inr hstaker

/-- **Calls.** A call leaves all Brains at home, and has its caller refunded, just if it
meets the condition. -/
theorem AtHome.enter {q : Option Pending} {c : BrainNFTCall} (h : nft.AtHome)
    (hreserved : ∀ b, b.val < FIRST_PUBLIC_ID → (nft.stakes b).asset = .none)
    (henter : c.enter blk caller nft = .ok (q, nft')) :
    (nft'.AtHome ∧ c.PaysCaller caller nft) ↔ c.KeepsHome caller nft := by
  cases c with
  | mintByPepecoinStake =>
    obtain ⟨-, rfl⟩ := mintByStake_ok henter
    exact iff_of_true ⟨h.of_eq rfl rfl rfl rfl, trivial⟩ trivial
  | mintByBasedStake =>
    obtain ⟨-, rfl⟩ := mintByStake_ok henter
    exact iff_of_true ⟨h.of_eq rfl rfl rfl rfl, trivial⟩ trivial
  | deactivateAndUnstake b =>
    -- the refund goes to the staker of record, who need not be the owner
    obtain ⟨-, hasset, -, howner, -⟩ := deactivateAndUnstake_ok henter
    constructor
    · rintro ⟨-, hpays⟩ -
      exact hpays.symm
    · intro hkeeps
      refine ⟨h.deactivated henter, ?_⟩
      rcases h b caller howner hasset with hend | hstaker
      · exact (hkeeps hend).symm
      · exact hstaker.symm
  | setStakeAmount asset newAmount =>
    obtain ⟨-, hset⟩ := atOnce_ok henter
    obtain ⟨_, _, _, _, rfl⟩ := setStakeAmount_ok hset
    exact iff_of_true ⟨h.of_eq rfl rfl rfl rfl, trivial⟩ trivial
  | mintReserved recipient b =>
    exact iff_of_true ⟨h.mintReserved hreserved henter, trivial⟩ trivial
  | setBridge newBridge =>
    obtain ⟨-, hset⟩ := atOnce_ok henter
    -- the other way for a staked Brain to be away: an endpoint that stops being one
    rw [h.setBridge hset]
    exact and_iff_left trivial
  | setBridgeEndpoint endpoint allowed =>
    obtain ⟨-, hset⟩ := atOnce_ok henter
    rw [h.setBridgeEndpoint hset]
    exact and_iff_left trivial
  | transferFrom src recipient b =>
    obtain ⟨-, htransfer⟩ := atOnce_ok henter
    -- or it is moved
    rw [h.transferFrom htransfer]
    exact and_iff_left trivial
  | safeTransferFrom src recipient b =>
    obtain ⟨nft₁, htransfer, hpair⟩ := map_ok.mp henter
    obtain ⟨rfl, rfl⟩ := Prod.mk.inj hpair
    rw [h.transferFrom htransfer]
    exact and_iff_left trivial
  | _ =>
    obtain ⟨-, approvals, operators, roles, rfl⟩ := permission_ok henter rfl
    exact iff_of_true ⟨h.of_eq rfl rfl rfl rfl, trivial⟩ trivial

end BrainNFT

/-! ## Steps -/

section Steps

open BrainNFT

variable {T : Type} {env : BrainNFTEnv T} {s s' : BrainState T} {q : Option Pending}

/-- A Brain is minted for its staker; the rest of a call moves none. -/
theorem resume_atHome {p : Pending} (h : s.nft.AtHome) (hresume : p.resume env s = .ok (q, s')) :
    s'.nft.AtHome := by
  rcases Pending.resume_nft hresume with hnft | hnft | ⟨blk, staker, asset, amount, hmint⟩
  · rw [hnft]
    exact h
  · rw [hnft]
    exact h.of_eq rfl rfl rfl rfl
  · obtain ⟨-, -, -, approvals, hnft⟩ := mintStaked_ok hmint
    rw [hnft]
    intro b owner howner hasset
    have howner : set s.nft.owners s.nft.candidate (some staker) b = some owner := howner
    have hasset : (set s.nft.stakes s.nft.candidate
      (stakeRecord blk staker asset amount) b).asset ≠ .none := hasset
    show s.nft.endpoint owner = true ∨ owner =
      (set s.nft.stakes s.nft.candidate (stakeRecord blk staker asset amount) b).staker
    -- the new Brain is with the one who staked for it
    by_cases hb : b = s.nft.candidate
    · rw [hb, set_same] at howner
      rw [hb, set_same]
      exact .inr (Option.some.inj howner).symm
    · rw [set_of_ne _ _ hb] at howner hasset ⊢
      exact h b owner howner hasset

/-- The books keep the reserved Brains free of stakes. -/
theorem BooksInv.reserved_free {ps : List Pending} {nft : BrainNFT} {k : Chronicle}
    (h : BooksInv env ps nft k) (b : BrainId) (hlow : b.val < FIRST_PUBLIC_ID) :
    (nft.stakes b).asset = .none := by
  by_contra hasset
  exact absurd (h.exists_of_staked b hasset).2 (Nat.not_le_of_lt hlow)

theorem brainCode_home {q q' : Option Pending} {w w' : BrainWorld T} {l : BrainLabel}
    {ps : List Pending} (h : w.state.nft.AtHome) (hinv : BrainInv env ps w)
    (hcode : BrainCode env q w l q' w') :
    (w'.state.nft.AtHome ∧ PaysCaller w (some l)) ↔ KeepsHome w (some l) := by
  cases hcode with
  | call hcaller henter => exact h.enter hinv.books.reserved_free henter
  | resume hresume => exact iff_of_true ⟨resume_atHome h hresume, trivial⟩ trivial
  | elsewhere hheld => exact iff_of_true ⟨h, trivial⟩ trivial

/-- All Brains are at home, and would be if what is open reverted. -/
def HomeNow (c : Config (BrainWorld T) Pending) : Prop :=
  c.state.state.nft.AtHome ∧ ∀ f ∈ c.frames, f.found.state.nft.AtHome

variable {c c' : Config (BrainWorld T) Pending} {l : Option BrainLabel}

/-- What an open call found was the state of a configuration before. -/
theorem homeNow_step (h : HomeNow c) (hstep : BrainStep env c l c')
    (hafter : c'.state.state.nft.AtHome) : HomeNow c' := by
  refine ⟨hafter, ?_⟩
  obtain ⟨hnow, hfound⟩ := h
  cases hstep with
  | plain _ => exact hfound
  | enter _ => exact List.forall_mem_cons.mpr ⟨hnow, hfound⟩
  | resume _ =>
    obtain ⟨hf, hfs⟩ := List.forall_mem_cons.mp hfound
    exact List.forall_mem_cons.mpr ⟨hf, hfs⟩
  | leave _ => exact (List.forall_mem_cons.mp hfound).2
  | foreign => exact List.forall_mem_cons.mpr ⟨hnow, hfound⟩
  | returned => exact (List.forall_mem_cons.mp hfound).2
  | revert => exact (List.forall_mem_cons.mp hfound).2

/-- **Steps.** -/
theorem brainStep_home (h : HomeNow c) (hinv : Holds (BrainInv env) c.state c.frames)
    (hstep : BrainStep env c l c') :
    (c'.state.state.nft.AtHome ∧ PaysCaller c.state l) ↔ KeepsHome c.state l := by
  obtain ⟨hnow, hfound⟩ := h
  cases hstep with
  | plain hcode => exact brainCode_home hnow hinv.now hcode
  | enter hcode => exact brainCode_home hnow hinv.now hcode
  | resume hcode => exact brainCode_home hnow hinv.now hcode
  | leave hcode => exact brainCode_home hnow hinv.now hcode
  | foreign => exact iff_of_true ⟨hnow, trivial⟩ trivial
  | returned => exact iff_of_true ⟨hnow, trivial⟩ trivial
  | revert => exact iff_of_true ⟨(List.forall_mem_cons.mp hfound).1, trivial⟩ trivial

end Steps

/-! ## Runs -/

/-- **A Brain stays with its staker** in a run, and whoever gives it up is refunded, if and
only if every step of the run meets the condition: staked Brains are moved to endpoints or
to their stakers only, no endpoint is revoked that holds another one's, and none gives
another one's up. -/
theorem brains_home_iff {T : Type} (env : BrainNFTEnv T) (pepecoinStake basedStake : Nat)
    (governance : Address) (tokens : Address → T) (ls : List (Option BrainLabel))
    (c : Config (BrainWorld T) Pending) :
    (∀ p l q, Along (BrainStep env)
        ⟨.deploy pepecoinStake basedStake governance tokens, []⟩ ls c p l q →
      q.state.state.nft.AtHome ∧ PaysCaller p.state l) ↔
    ∀ p l q, Along (BrainStep env)
        ⟨.deploy pepecoinStake basedStake governance tokens, []⟩ ls c p l q →
      KeepsHome p.state l := by
  have hdeploy : HomeNow (⟨.deploy pepecoinStake basedStake governance tokens, []⟩ :
        Config (BrainWorld T) Pending) ∧
      Holds (BrainInv env) (.deploy pepecoinStake basedStake governance tokens) [] := by
    refine ⟨⟨BrainNFT.atHome_deploy _ _ _, ?_⟩, brainInv_deploy _ _ _ _⟩
    intro f hf
    exact absurd hf List.not_mem_nil
  constructor
  · intro hall p l q halong
    -- up to every step, all Brains have been at home
    obtain ⟨⟨hhome, hinv⟩, -⟩ := along_of
      (I := fun c => HomeNow c ∧ Holds (BrainInv env) c.state c.frames)
      (C := fun p l q => q.state.state.nft.AtHome ∧ PaysCaller p.state l)
      (fun hstep hafter hbefore =>
        ⟨homeNow_step hbefore.1 hstep hafter.1, Holds.step brainInv_kept hstep hbefore.2⟩)
      hdeploy hall p l q halong
    exact (brainStep_home hhome hinv halong.taken).mp (hall p l q halong)
  · intro hall p l q halong
    obtain ⟨⟨hhome, hinv⟩, -⟩ := along_of
      (I := fun c => HomeNow c ∧ Holds (BrainInv env) c.state c.frames)
      (C := fun p l _ => KeepsHome p.state l)
      (fun hstep hkeeps hbefore =>
        have hafter := ((brainStep_home hbefore.1 hbefore.2 hstep).mpr hkeeps).1
        ⟨homeNow_step hbefore.1 hstep hafter, Holds.step brainInv_kept hstep hbefore.2⟩)
      hdeploy hall p l q halong
    exact (brainStep_home hhome hinv halong.taken).mpr (hall p l q halong)

/-- Account 5 stakes for Brain 7 and moves it to the bridge, which releases it to
account 6. -/
def toyReleased : List BrainLabel :=
  [.call toyMint 5 .mintByPepecoinStake, .resumed, .resumed, .resumed,
    .call toyMint 1 (.setBridgeEndpoint 8 true),
    .call toyMint 5 (.transferFrom 5 8 7), .call toyMint 8 (.transferFrom 8 6 7)]

/-- There account 6 gives it up, and account 5 is refunded. -/
def toyGivenUp : List BrainLabel :=
  [.call toyUnlock 6 (.deactivateAndUnstake 7), .resumed, .resumed]

/-- A Brain that is neither at an endpoint nor its staker's, and a refund that does not go to
who asks for it. -/
theorem brain_away : ∃ c c',
    Run (BrainStep toyBrainEnv) ⟨toyBrains, []⟩ (toyReleased.map some) c ∧
      c.state.state.nft.owners 7 = some 6 ∧
      (c.state.state.nft.stakes 7).asset = .pepecoin ∧
      (c.state.state.nft.stakes 7).staker = 5 ∧
      c.state.state.nft.endpoint 6 = false ∧
    Run (BrainStep toyBrainEnv) c (toyGivenUp.map some) c' ∧
      c'.state.chronicle.paid.map (StakePayout.seen 11 [9, 5, 6]) =
        [(7, [(5100, 5000), (4900, 5000), (5000, 5000)])] := by
  have hreleased : ((toyReleased.foldlM (advance toyBrainEnv) ⟨toyBrains, []⟩).map fun c =>
      (c.state.state.nft.owners 7, c.state.state.nft.stakes 7,
        c.state.state.nft.endpoint 6)) =
      some (some 6, ⟨5, 60 + 90 * 24 * 60 * 60, .pepecoin, 100⟩, false) := by
    decide +kernel
  obtain ⟨c, hc, htriple⟩ := Option.map_eq_some_iff.mp hreleased
  obtain ⟨howner, hpair⟩ := Prod.mk.inj htriple
  obtain ⟨hstake, hend⟩ := Prod.mk.inj hpair
  -- the account it went to gives it up, and the staker is paid
  have hgiven : ((toyReleased ++ toyGivenUp).foldlM (advance toyBrainEnv) ⟨toyBrains, []⟩).map
      (fun c => c.state.chronicle.paid.map (StakePayout.seen 11 [9, 5, 6])) =
      some [(7, [(5100, 5000), (4900, 5000), (5000, 5000)])] := by
    decide +kernel
  obtain ⟨c', hc', hpaid⟩ := Option.map_eq_some_iff.mp hgiven
  rw [List.foldlM_append, hc] at hc'
  refine ⟨c, c', advance_run hc, howner, ?_, ?_, hend, advance_run hc', hpaid⟩
  · rw [hstake]
  · rw [hstake]

end BasedAI
