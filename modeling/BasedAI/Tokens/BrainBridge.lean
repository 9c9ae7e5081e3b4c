import BasedAI.Tokens.BrainEscrow
import BasedAI.Tokens.BrainNFTL2
import BasedAI.Tokens.BridgeAdapter

/-!
# BasedAI — Brains on two chains

A Brain crosses to the second layer by being locked: the canonical bridge takes it on the
first layer, and mints it on the second when word has arrived; on the way back it burns it,
and releases it when word of that has arrived. Anybody calls either NFT in between, and on
the first layer calls are open while others are made.

The two bridges are not part of the repository. What is assumed of them is in `EscrowRule`
and `Relayed`: the one of the first layer does nothing with the NFT but lock and release, the
Brains it locks are bridged for `BRAIN_NFT_L2`, and neither acts without word from the other.
Who owns a Brain meanwhile is up to the two NFTs.

* `enter_disposes`     — a call does what its caller may do, with the Brains it may dispose of;
* `enter_untouched`    — a Brain whose owner has approved nobody stays where it is;
* `Placed`             — what the bridges have done, next to who owns what;
* `brain_in_one_place` — a Brain is in one place at a time;
* `crossing_completes` — one that is on its way can always arrive.
-/

namespace BasedAI

open Fallible Mapping Transition CallStack

/-! ## The two chains -/

/-- The first layer, and how often its bridge has locked and released each Brain. -/
structure Layer1 (T : Type) where
  world : BrainWorld T
  locked : BrainId → Nat
  released : BrainId → Nat

/-- What the two NFTs are deployed with, and the bridge of the first layer. -/
structure BridgedEnv (T : Type) where
  layer1 : BrainNFTEnv T
  layer2 : BrainNFTL2Env
  escrow : Address

/-- Both layers; how often the second has minted and burned each Brain. -/
structure Bridged (T : Type) where
  layer1 : Config (Layer1 T) Pending
  layer2 : BrainNFTL2
  minted : BrainId → Nat
  burned : BrainId → Nat

/-- From whom to whom a call transfers which Brain, if it does. -/
def BrainNFTCall.transfers : BrainNFTCall → Option (Address × Address × BrainId)
  | .transferFrom src recipient b | .safeTransferFrom src recipient b => some (src, recipient, b)
  | _ => none

/-- What the bridge of the first layer counts: a Brain it takes is locked, one it gives away is
released. -/
def Layer1.count {T : Type} (escrow : Address) (s : Layer1 T) (world : BrainWorld T) :
    BrainLabel → Layer1 T
  | .call _ caller c =>
    if caller = escrow then
      match c.transfers with
      | some (_, recipient, b) =>
        if recipient = escrow then
          { s with world := world, locked := set s.locked b (s.locked b + 1) }
        else { s with world := world, released := set s.released b (s.released b + 1) }
      | none => { s with world := world }
    else { s with world := world }
  | _ => { s with world := world }

/-- The bridge of the first layer does nothing but take Brains from others, and give back those
that were burned on the second layer, each as often as it was burned.

Whoever bridges names the contract that mints on the other side. What is counted here is
locked for `BRAIN_NFT_L2`, as the adapter has it, and what is burned is burned there: a Brain
locked for another contract would come back without word from this one. -/
def EscrowRule {T : Type} (escrow : Address) (burned : BrainId → Nat) (s : Layer1 T) :
    BrainLabel → Prop
  | .call _ caller c => caller = escrow → ∃ src recipient b,
    c.transfers = some (src, recipient, b) ∧
      (recipient = escrow ∧ src ≠ escrow ∨
        src = escrow ∧ recipient ≠ escrow ∧ s.released b < burned b)
  | _ => True

/-- A Brain is minted on the second layer as often as it was locked on the first. -/
def BrainNFTL2Call.Relayed (locked minted : BrainId → Nat) : BrainNFTL2Call → Prop
  | .safeMint _ b => minted b < locked b
  | .burn _ _ => True

section Counts

variable {T : Type} {escrow : Address} {s : Layer1 T} {world : BrainWorld T} {blk : Block}
  {caller src recipient : Address} {c : BrainNFTCall} {b : BrainId}

theorem count_other (h : caller ≠ escrow) :
    s.count escrow world (.call blk caller c) = { s with world := world } :=
  if_neg h

theorem count_lock (hc : c.transfers = some (src, escrow, b)) :
    s.count escrow world (.call blk escrow c) =
      { s with world := world, locked := set s.locked b (s.locked b + 1) } := by
  simp only [Layer1.count, hc, if_true]

theorem count_release (hc : c.transfers = some (src, recipient, b))
    (hrecipient : recipient ≠ escrow) :
    s.count escrow world (.call blk escrow c) =
      { s with world := world, released := set s.released b (s.released b + 1) } := by
  simp only [Layer1.count, hc, if_true, if_neg hrecipient]

/-- The counts are kept next to the NFT, which does not read them. -/
theorem world_count (l : BrainLabel) : (s.count escrow world l).world = world := by
  unfold Layer1.count
  split
  · split
    · split
      · split
        case isTrue => rfl
        case isFalse => rfl
      · rfl
    · rfl
  · rfl

end Counts

section Machine

variable {T : Type} (env : BridgedEnv T)

/-- What the NFT of the first layer does, and what the bridge there counts of it. -/
inductive Layer1Code : Option Pending → Layer1 T → BrainLabel → Option Pending →
    Layer1 T → Prop
  | mk {q q' : Option Pending} {s : Layer1 T} {l : BrainLabel} {world : BrainWorld T} :
      BrainCode env.layer1 q s.world l q' world →
      Layer1Code q s l q' (s.count env.escrow world l)

inductive BridgedLabel
  | layer1 (l : Option BrainLabel)
  | layer2 (caller : Address) (c : BrainNFTL2Call)

/-- What the second layer counts. -/
def Bridged.counted (s : Bridged T) (nft : BrainNFTL2) : BrainNFTL2Call → Bridged T
  | .safeMint _ b => { s with layer2 := nft, minted := set s.minted b (s.minted b + 1) }
  | .burn _ b => { s with layer2 := nft, burned := set s.burned b (s.burned b + 1) }

/-- A step on one of the layers. Word reaches the second layer of what has happened on the
first, which leaves out the transactions that are still open there. -/
inductive BridgedStep : Bridged T → BridgedLabel → Bridged T → Prop
  | layer1 {s : Bridged T} {l : Option BrainLabel} {c : Config (Layer1 T) Pending} :
      CallStep (Layer1Code env) s.layer1 l c →
      (∀ k, l = some k → EscrowRule env.escrow s.burned s.layer1.state k) →
      BridgedStep s (.layer1 l) { s with layer1 := c }
  | layer2 {s : Bridged T} {caller : Address} {c : BrainNFTL2Call} {nft : BrainNFTL2} :
      s.layer1.frames = [] → c.exec env.layer2 caller s.layer2 = .ok nft →
      c.Relayed s.layer1.state.locked s.minted →
      BridgedStep s (.layer2 caller c) (s.counted nft c)

/-- The two NFTs as deployed. -/
def Bridged.deploy (pepecoinStake basedStake : Nat) (governance : Address)
    (tokens : Address → T) : Bridged T where
  layer1 := ⟨⟨.deploy pepecoinStake basedStake governance tokens, fun _ => 0, fun _ => 0⟩, []⟩
  layer2 := .deploy
  minted _ := 0
  burned _ := 0

variable (s : Bridged T) (b : BrainId)

/-- The NFT of the first layer. -/
def Bridged.nft : BrainNFT := s.layer1.state.world.state.nft

/-- How many times the Brain exists on the second layer, is on its way there, and back. -/
def Bridged.onLayer2 : Nat := if (s.layer2.owners b).isSome then 1 else 0
def Bridged.inbound : Nat := s.layer1.state.locked b - s.minted b
def Bridged.outbound : Nat := s.burned b - s.layer1.state.released b

end Machine

/-! ## Brains that stay where they are -/

namespace BrainNFT

variable {nft nft' : BrainNFT} {b b' : BrainId} {a caller src dst : Address} {blk : Block}
  {q : Option Pending}

/-- The owner of a Brain has approved nobody, for this one or for all. -/
structure Unapproved (nft : BrainNFT) (a : Address) (b : BrainId) : Prop where
  owner : nft.owners b = some a
  approval : nft.tokenApprovals b = 0

/-- An account has approved nobody for all it owns. -/
def NoOperators (nft : BrainNFT) (a : Address) : Prop :=
  ∀ o, nft.operatorApprovals a o = false

/-- An account may dispose of a Brain that it owns or was approved for, or that nobody has. -/
def MayDispose (nft : BrainNFT) (caller : Address) (b : BrainId) : Prop :=
  ∀ a, nft.owners b = some a → a = caller ∨ nft.operatorApprovals a caller = true ∨
    (caller ≠ 0 ∧ nft.tokenApprovals b = caller)

/-- A Brain has the owner it had, and the same account is approved for it. -/
structure Undisturbed (nft nft' : BrainNFT) (b : BrainId) : Prop where
  owner : nft'.owners b = nft.owners b
  approval : nft'.tokenApprovals b = nft.tokenApprovals b

/-- An account has done nothing but with the Brains it may dispose of, and has let others act
for nobody but itself. -/
structure Disposes (caller : Address) (nft nft' : BrainNFT) : Prop where
  brains : ∀ b, nft.MayDispose caller b ∨ nft.Undisturbed nft' b
  operators : ∀ a, a ≠ caller → nft'.operatorApprovals a = nft.operatorApprovals a

theorem Disposes.of_eq (howners : nft'.owners = nft.owners)
    (happrovals : nft'.tokenApprovals = nft.tokenApprovals)
    (hoperators : nft'.operatorApprovals = nft.operatorApprovals) : Disposes caller nft nft' where
  brains b := .inr ⟨congrFun howners b, congrFun happrovals b⟩
  operators a _ := congrFun hoperators a

theorem Disposes.of_brain (hmay : nft.MayDispose caller b')
    (hothers : ∀ b, b ≠ b' → nft.Undisturbed nft' b)
    (hoperators : nft'.operatorApprovals = nft.operatorApprovals) : Disposes caller nft nft' where
  brains b := by
    by_cases hb : b = b'
    · rw [hb]
      exact .inl hmay
    · exact .inr (hothers b hb)
  operators a _ := congrFun hoperators a

theorem update_exact {recipient auth previousOwner : Option Address}
    (h : nft.update recipient b auth = .ok (previousOwner, nft')) :
    nft' = { nft with
      owners := set nft.owners b recipient
      tokenApprovals := if (nft.owners b).isSome then set nft.tokenApprovals b 0
        else nft.tokenApprovals } := by
  simp only [update, bind_ok, return_ok] at h
  obtain ⟨_, -, _, -, hpair⟩ := h
  exact (Prod.mk.inj hpair).2.symm

/-- An update is of one Brain. -/
theorem update_others {recipient auth previousOwner : Option Address}
    (h : nft.update recipient b' auth = .ok (previousOwner, nft')) :
    (∀ b, b ≠ b' → nft.Undisturbed nft' b) ∧
      nft'.operatorApprovals = nft.operatorApprovals := by
  obtain rfl := update_exact h
  refine ⟨fun b hne => ⟨set_of_ne _ _ hne, ?_⟩, rfl⟩
  show (if (nft.owners b').isSome then set nft.tokenApprovals b' 0 else nft.tokenApprovals) b =
    nft.tokenApprovals b
  split
  case isTrue => exact set_of_ne _ _ hne
  case isFalse => rfl

/-- A mint is of a Brain that nobody has. -/
theorem mint_others (h : nft.mint dst b' = .ok nft') :
    nft.owners b' = none ∧ (∀ b, b ≠ b' → nft.Undisturbed nft' b) ∧
      nft'.operatorApprovals = nft.operatorApprovals := by
  refine ⟨(mint_ok h).1, ?_⟩
  simp only [mint, bind_ok, return_ok] at h
  obtain ⟨_, -, ⟨previousOwner, nft₁⟩, hupdate, _, -, rfl⟩ := h
  exact update_others hupdate

theorem transferFrom_disposes (h : nft.transferFrom caller src dst b' = .ok nft') :
    Disposes caller nft nft' := by
  obtain ⟨hchecks, rfl⟩ := transferFrom_iff.mp h
  have hmay : nft.MayDispose caller b' := by
    intro a ha
    -- the three ways to be authorized are the three ways to dispose of it
    obtain rfl := Option.some.inj (ha.symm.trans hchecks.owner)
    have hauth := hchecks.authorized
    simp only [isAuthorized, Bool.and_eq_true, Bool.or_eq_true, decide_eq_true_eq] at hauth
    obtain ⟨hzero, (hown | hoperator) | happroved⟩ := hauth
    · exact .inl hown
    · exact .inr (.inl hoperator)
    · exact .inr (.inr ⟨hzero, happroved⟩)
  exact .of_brain hmay (fun b hne => ⟨set_of_ne _ _ hne, set_of_ne _ _ hne⟩) rfl

/-- **What a call does** is with Brains its caller may dispose of, and in its own name. -/
theorem enter_disposes {c : BrainNFTCall} (h : c.enter blk caller nft = .ok (q, nft')) :
    Disposes caller nft nft' := by
  cases c with
  | mintByPepecoinStake =>
    obtain ⟨-, rfl⟩ := mintByStake_ok h
    exact .of_eq rfl rfl rfl
  | mintByBasedStake =>
    obtain ⟨-, rfl⟩ := mintByStake_ok h
    exact .of_eq rfl rfl rfl
  | deactivateAndUnstake b' =>
    -- only the owner gives a Brain up
    obtain ⟨-, -, -, howner, -⟩ := deactivateAndUnstake_ok h
    have hmay : nft.MayDispose caller b' :=
      fun a ha => .inl (Option.some.inj (ha.symm.trans howner))
    simp only [BrainNFTCall.enter, deactivateAndUnstake, burn, bind_ok, return_ok] at h
    obtain ⟨nft₁, hguard, _, -, _, -, _, -, _, -, nft₂, ⟨⟨_, nft₃⟩, hupdate, _, -, rfl⟩, _, -,
      hpair⟩ := h
    obtain ⟨-, rfl⟩ := Prod.mk.inj hpair
    simp only [nonReentrantBefore, bind_ok, return_ok] at hguard
    obtain ⟨_, -, rfl⟩ := hguard
    obtain ⟨hothers, hoperators⟩ := update_others hupdate
    exact .of_brain hmay (fun b hne => ⟨(hothers b hne).owner, (hothers b hne).approval⟩)
      hoperators
  | setStakeAmount asset newAmount =>
    obtain ⟨-, hset⟩ := atOnce_ok h
    obtain ⟨_, _, _, _, rfl⟩ := setStakeAmount_ok hset
    exact .of_eq rfl rfl rfl
  | mintReserved dst b' =>
    simp only [BrainNFTCall.enter, mintReserved, bind_ok, return_ok] at h
    obtain ⟨_, -, _, -, supply, -, nft₁, hmint, hpair⟩ := h
    obtain ⟨-, rfl⟩ := Prod.mk.inj hpair
    obtain ⟨hnew, hothers, hoperators⟩ := mint_others hmint
    -- only a Brain that nobody has is minted
    have hmay : nft.MayDispose caller b' :=
      fun a ha => (Option.some_ne_none a (ha.symm.trans hnew)).elim
    exact .of_brain hmay (fun b hne => ⟨(hothers b hne).owner, (hothers b hne).approval⟩)
      hoperators
  | setBridge newBridge =>
    obtain ⟨-, hset⟩ := atOnce_ok h
    obtain rfl := setBridge_ok hset
    exact .of_eq rfl rfl rfl
  | setBridgeEndpoint endpoint allowed =>
    obtain ⟨-, hset⟩ := atOnce_ok h
    obtain rfl := setBridgeEndpoint_ok hset
    exact .of_eq rfl rfl rfl
  | transferFrom src dst b' =>
    obtain ⟨-, htransfer⟩ := atOnce_ok h
    exact transferFrom_disposes htransfer
  | safeTransferFrom src dst b' =>
    obtain ⟨nft₁, htransfer, hpair⟩ := map_ok.mp h
    obtain ⟨-, rfl⟩ := Prod.mk.inj hpair
    exact transferFrom_disposes htransfer
  | approve spender b' =>
    obtain ⟨-, happrove⟩ := atOnce_ok h
    obtain ⟨⟨owner, howner, hallowed⟩, rfl⟩ := approve_iff.mp happrove
    have hmay : nft.MayDispose caller b' := by
      intro a ha
      obtain rfl := Option.some.inj (ha.symm.trans howner)
      exact hallowed.imp_right .inl
    exact .of_brain hmay (fun b hne => ⟨rfl, set_of_ne _ _ hne⟩) rfl
  | setApprovalForAll operator allowed =>
    obtain ⟨-, hset⟩ := atOnce_ok h
    simp only [setApprovalForAll, bind_ok, return_ok] at hset
    obtain ⟨_, -, rfl⟩ := hset
    refine ⟨fun b => .inr ⟨rfl, rfl⟩, fun a hne => ?_⟩
    -- the row of the caller is another one
    funext o
    exact set₂_of_ne _ _ fun hrow => hne hrow.1
  | grantRole role account =>
    obtain ⟨-, hroles⟩ := atOnce_ok h
    obtain ⟨_, -, rfl⟩ := map_ok.mp hroles
    exact .of_eq rfl rfl rfl
  | revokeRole role account =>
    obtain ⟨-, hroles⟩ := atOnce_ok h
    obtain ⟨_, -, rfl⟩ := map_ok.mp hroles
    exact .of_eq rfl rfl rfl
  | renounceRole role confirmation =>
    obtain ⟨-, hroles⟩ := atOnce_ok h
    obtain ⟨_, -, rfl⟩ := map_ok.mp hroles
    exact .of_eq rfl rfl rfl

theorem Unapproved.undisturbed (h : nft.Unapproved a b) (hsame : nft.Undisturbed nft' b) :
    nft'.Unapproved a b :=
  ⟨hsame.owner.trans h.owner, hsame.approval.trans h.approval⟩

/-- It would take the owner to dispose of such a Brain, or one it has approved. -/
theorem Unapproved.not_mayDispose (h : nft.Unapproved a b) (hoperators : nft.NoOperators a)
    (hcaller : caller ≠ a) : ¬ nft.MayDispose caller b := by
  intro hmay
  rcases hmay a h.owner with rfl | hoperator | ⟨hzero, happroved⟩
  · exact hcaller rfl
  · rw [hoperators caller] at hoperator
    cases hoperator
  · exact hzero (happroved.symm.trans h.approval)

/-- **What others call** does not move a Brain whose owner has approved nobody, nor approve
anybody for it. -/
theorem enter_untouched {c : BrainNFTCall} (h : nft.Unapproved a b)
    (hoperators : nft.NoOperators a) (hcaller : caller ≠ a)
    (henter : c.enter blk caller nft = .ok (q, nft')) : nft'.Unapproved a b := by
  rcases (enter_disposes henter).brains b with hmay | hsame
  · exact absurd hmay (h.not_mayDispose hoperators hcaller)
  · exact h.undisturbed hsame

/-- Nobody else lets anybody move what an account owns. -/
theorem enter_noOperators {c : BrainNFTCall} (h : nft.NoOperators a) (hcaller : caller ≠ a)
    (henter : c.enter blk caller nft = .ok (q, nft')) : nft'.NoOperators a := by
  intro o
  rw [(enter_disposes henter).operators a hcaller.symm]
  exact h o

/-- A call that transfers a Brain has moved it, and done nothing else. -/
theorem enter_transfers {c : BrainNFTCall} (hc : c.transfers = some (src, dst, b))
    (henter : c.enter blk caller nft = .ok (q, nft')) :
    nft.Transferable caller src dst b ∧ nft' = nft.moved b dst := by
  cases c with
  | transferFrom src' dst' b' =>
    cases hc
    obtain ⟨-, htransfer⟩ := atOnce_ok henter
    exact transferFrom_iff.mp htransfer
  | safeTransferFrom src' dst' b' =>
    cases hc
    obtain ⟨nft₁, htransfer, hpair⟩ := map_ok.mp henter
    obtain ⟨-, rfl⟩ := Prod.mk.inj hpair
    exact transferFrom_iff.mp htransfer
  | _ => cases hc

/-- The rest of a call mints at most, and only what nobody has. -/
theorem resume_untouched {T : Type} {env : BrainNFTEnv T} {s s' : BrainState T} {p : Pending}
    (h : s.nft.Unapproved a b) (hresume : p.resume env s = .ok (q, s')) :
    s'.nft.Unapproved a b := by
  rcases Pending.resume_nft hresume with hnft | hnft | ⟨blk, staker, asset, amount, hmint⟩
  · rw [hnft]
    exact h
  · rw [hnft]
    exact h.undisturbed ⟨rfl, rfl⟩
  · simp only [mintStaked, bind_ok, return_ok] at hmint
    obtain ⟨nft₁, hallocate, unlockAt, -, nft₂, hmint, hpair⟩ := hmint
    obtain ⟨-, hnft⟩ := Prod.mk.inj hpair
    obtain ⟨-, rfl⟩ := allocateBrainId_ok hallocate
    obtain ⟨hfree, hothers, -⟩ := mint_others hmint
    -- what is minted had no owner
    have hne : b ≠ s.nft.candidate := by
      rintro rfl
      exact Option.some_ne_none a (h.owner.symm.trans hfree)
    rw [← hnft]
    exact h.undisturbed ⟨(hothers b hne).owner, (hothers b hne).approval⟩

theorem resume_noOperators {T : Type} {env : BrainNFTEnv T} {s s' : BrainState T} {p : Pending}
    (h : s.nft.NoOperators a) (hresume : p.resume env s = .ok (q, s')) :
    s'.nft.NoOperators a := by
  rcases Pending.resume_nft hresume with hnft | hnft | ⟨blk, staker, asset, amount, hmint⟩
  · rw [hnft]
    exact h
  · rw [hnft]
    exact h
  · obtain ⟨-, -, -, _, hnft⟩ := mintStaked_ok hmint
    rw [hnft]
    exact h

end BrainNFT

/-! ## Where the Brains are -/

section Placed

open BrainNFT

variable {T : Type} {env : BridgedEnv T} {escrow : Address} {burned minted : BrainId → Nat}
  {s s' : Layer1 T} {b : BrainId}

/-- What has been released was burned, what was minted is locked, a Brain is locked once more
than it is released at most, and then it is the bridge's, which has approved nobody. -/
structure Placed (escrow : Address) (burned minted : BrainId → Nat) (s : Layer1 T) : Prop where
  released_le : ∀ b, s.released b ≤ burned b
  minted_le : ∀ b, minted b ≤ s.locked b
  locked_le : ∀ b, s.locked b ≤ s.released b + 1
  held : ∀ b, s.locked b = s.released b + 1 → s.world.state.nft.Unapproved escrow b
  operators : s.world.state.nft.NoOperators escrow

/-- Nothing is counted, and what the bridge holds is untouched. -/
theorem Placed.aside {world : BrainWorld T} (h : Placed escrow burned minted s)
    (huntouched : ∀ b, s.world.state.nft.Unapproved escrow b → world.state.nft.Unapproved escrow b)
    (hoperators : world.state.nft.NoOperators escrow) :
    Placed escrow burned minted { s with world := world } where
  released_le := h.released_le
  minted_le := h.minted_le
  locked_le := h.locked_le
  held b hlocked := huntouched b (h.held b hlocked)
  operators := hoperators

theorem unapproved_moved {nft : BrainNFT} {a dst : Address} {b b' : BrainId}
    (h : nft.Unapproved a b) (hne : b ≠ b') : (nft.moved b' dst).Unapproved a b :=
  ⟨(set_of_ne _ _ hne).trans h.owner, (set_of_ne _ _ hne).trans h.approval⟩

/-- The bridge takes a Brain from somebody else. -/
theorem Placed.locks {world : BrainWorld T} {src : Address} (h : Placed escrow burned minted s)
    (howner : s.world.state.nft.owners b = some src) (hsrc : src ≠ escrow)
    (hnft : world.state.nft = s.world.state.nft.moved b escrow) :
    Placed escrow burned minted
      { s with world := world, locked := set s.locked b (s.locked b + 1) } := by
  -- the Brain was not locked before, as it was somebody else's
  have hfree : s.locked b ≤ s.released b := by
    rcases Nat.lt_or_ge (s.released b) (s.locked b) with hlt | hge
    · have hheld := h.held b (Nat.le_antisymm (h.locked_le b) hlt)
      exact absurd (Option.some.inj (howner.symm.trans hheld.owner)) hsrc
    · exact hge
  constructor
  case released_le => exact h.released_le
  case minted_le =>
    intro b'
    show minted b' ≤ set s.locked b (s.locked b + 1) b'
    rw [set_apply]
    split
    case isTrue hb =>
      subst hb
      exact (h.minted_le b').trans (Nat.le_succ _)
    case isFalse => exact h.minted_le b'
  case locked_le =>
    intro b'
    show set s.locked b (s.locked b + 1) b' ≤ s.released b' + 1
    rw [set_apply]
    split
    case isTrue hb =>
      subst hb
      exact Nat.succ_le_succ hfree
    case isFalse => exact h.locked_le b'
  case held =>
    intro b' hlocked
    have hlocked : set s.locked b (s.locked b + 1) b' = s.released b' + 1 := hlocked
    show world.state.nft.Unapproved escrow b'
    rw [hnft]
    by_cases hb : b' = b
    · subst hb
      exact ⟨set_same _ _ _, set_same _ _ _⟩
    · rw [set_of_ne _ _ hb] at hlocked
      exact unapproved_moved (h.held b' hlocked) hb
  case operators =>
    show world.state.nft.NoOperators escrow
    rw [hnft]
    exact h.operators

/-- The bridge gives a Brain back that was burned. -/
theorem Placed.releases {world : BrainWorld T} {recipient : Address}
    (h : Placed escrow burned minted s) (hburned : s.released b < burned b)
    (hnft : world.state.nft = s.world.state.nft.moved b recipient) :
    Placed escrow burned minted
      { s with world := world, released := set s.released b (s.released b + 1) } := by
  constructor
  case released_le =>
    intro b'
    show set s.released b (s.released b + 1) b' ≤ burned b'
    rw [set_apply]
    split
    case isTrue hb =>
      subst hb
      exact hburned
    case isFalse => exact h.released_le b'
  case minted_le => exact h.minted_le
  case locked_le =>
    intro b'
    show s.locked b' ≤ set s.released b (s.released b + 1) b' + 1
    rw [set_apply]
    split
    case isTrue hb =>
      subst hb
      exact (h.locked_le b').trans (Nat.le_succ _)
    case isFalse => exact h.locked_le b'
  case held =>
    intro b' hlocked
    have hlocked : s.locked b' = set s.released b (s.released b + 1) b' + 1 := hlocked
    show world.state.nft.Unapproved escrow b'
    rw [hnft]
    by_cases hb : b' = b
    · -- it is locked no more
      subst hb
      rw [set_same] at hlocked
      have hle := h.locked_le b'
      omega
    · rw [set_of_ne _ _ hb] at hlocked
      exact unapproved_moved (h.held b' hlocked) hb
  case operators =>
    show world.state.nft.NoOperators escrow
    rw [hnft]
    exact h.operators

/-- What the NFT of the first layer does under the rule. -/
theorem Placed.code {q q' : Option Pending} {l : BrainLabel}
    (h : Placed env.escrow burned minted s) (hcode : Layer1Code env q s l q' s')
    (hrule : EscrowRule env.escrow burned s l) : Placed env.escrow burned minted s' := by
  obtain ⟨hcode⟩ := hcode
  obtain ⟨⟨st, k⟩, locked, released⟩ := s
  cases hcode with
  | @call _ nft' _ _ blk caller c hself henter =>
    by_cases hcaller : caller = env.escrow
    · obtain ⟨src, recipient, b, hc, hways⟩ := hrule hcaller
      obtain ⟨hchecks, hnft⟩ := enter_transfers hc henter
      subst hcaller
      -- the rule leaves two things for the bridge to do
      rcases hways with ⟨rfl, hsrc⟩ | ⟨hsrc, hrecipient, hburned⟩
      · rw [count_lock hc]
        exact h.locks hchecks.owner hsrc hnft
      · rw [count_release hc hrecipient]
        exact h.releases hburned hnft
    · rw [count_other hcaller]
      exact h.aside (fun b hb => enter_untouched hb h.operators hcaller henter)
        (enter_noOperators h.operators hcaller henter)
  | resume hresume =>
    exact h.aside (fun b hb => resume_untouched hb hresume)
      (resume_noOperators h.operators hresume)
  | elsewhere hheld => exact h.aside (fun b hb => hb) h.operators

end Placed

/-! ## Both layers -/

namespace BrainNFTL2

variable {nft nft' : BrainNFTL2} {env : BrainNFTL2Env} {caller recipient owner : Address}
  {b : BrainId}

theorem safeMint_ok (h : nft.safeMint env caller recipient b = .ok nft') :
    nft.owners b = none ∧ nft'.owners = set nft.owners b (some recipient) := by
  simp only [safeMint, bind_ok] at h
  obtain ⟨_, -, _, -, h⟩ := h
  split at h
  · cases h
  · next hnone =>
    simp only [bind_ok, return_ok] at h
    obtain ⟨_, -, rfl⟩ := h
    exact ⟨hnone, rfl⟩

theorem burn_ok (owner : Address) (h : nft.burn env caller owner b = .ok nft') :
    nft.owners b ≠ none ∧ nft'.owners = set nft.owners b none := by
  simp only [burn, bind_ok] at h
  obtain ⟨_, -, h⟩ := h
  split at h
  · cases h
  · next hsome =>
    obtain rfl := return_ok.mp h
    refine ⟨?_, rfl⟩
    rw [hsome]
    exact Option.some_ne_none _

/-- The bridge can mint what does not exist. -/
theorem safeMint_iff (hnone : nft.owners b = none) :
    (∃ nft', nft.safeMint env env.bridge recipient b = .ok nft') ↔
      recipient ≠ 0 ∧ env.receives recipient b = true := by
  constructor
  · rintro ⟨nft', h⟩
    simp only [safeMint, bind_ok, revertIf_ok] at h
    obtain ⟨_, -, _, hrecipient, h⟩ := h
    split at h
    · cases h
    · simp only [bind_ok, revertIf_ok, Bool.not_eq_false] at h
      obtain ⟨_, hreceives, -⟩ := h
      exact ⟨hrecipient, hreceives⟩
  · rintro ⟨hrecipient, hreceives⟩
    refine ⟨nft.assign recipient b hnone, ?_⟩
    simp only [safeMint, onlyBridge, bind_ok, revertIf_ok]
    refine ⟨(), fun h => h rfl, (), hrecipient, ?_⟩
    split
    · next howner =>
      rw [hnone] at howner
      cases howner
    · simp only [bind_ok, revertIf_ok, return_ok, Bool.not_eq_false]
      exact ⟨(), hreceives, trivial⟩

/-- The bridge can burn what exists. -/
theorem burn_total (h : nft.owners b ≠ none) :
    ∃ nft', nft.burn env env.bridge owner b = .ok nft' := by
  obtain ⟨a, ha⟩ := Option.ne_none_iff_exists'.mp h
  refine ⟨nft.release a b ha, ?_⟩
  simp only [burn, onlyBridge, bind_ok, revertIf_ok]
  refine ⟨(), fun h => h rfl, ?_⟩
  split
  · next hnone =>
    rw [ha] at hnone
    cases hnone
  · next a' ha' =>
    obtain rfl : a = a' := Option.some.inj (ha.symm.trans ha')
    rfl

end BrainNFTL2

section Runs

variable {T : Type} {env : BridgedEnv T} {s s' : Bridged T} {l : BridgedLabel} {b : BrainId}

/-- On the first layer everything is where the counts say, now and in every state the open calls
could fall back to; on the second, what was minted more often than burned exists. -/
structure BridgedInv (env : BridgedEnv T) (s : Bridged T) : Prop where
  layer1 : Holds (fun ps l => BrainInv env.layer1 ps l.world ∧
    Placed env.escrow s.burned s.minted l) s.layer1.state s.layer1.frames
  layer2 : ∀ b, s.minted b = s.burned b + s.onLayer2 b

theorem bridgedInv_deploy (pepecoinStake basedStake : Nat) (governance : Address)
    (tokens : Address → T) :
    BridgedInv env (.deploy pepecoinStake basedStake governance tokens) where
  layer1 := by
    refine ⟨brainInv_deploy _ _ _ _, fun _ => le_rfl, fun _ => le_rfl, fun _ => Nat.zero_le _, ?_,
      fun _ => rfl⟩
    intro b hlocked
    cases hlocked
  layer2 _ := rfl

theorem layer1_kept {burned minted : BrainId → Nat} :
    KeptByCode (fun q s l q' s' => Layer1Code env q s l q' s' ∧ EscrowRule env.escrow burned s l)
      fun ps l => BrainInv env.layer1 ps l.world ∧ Placed env.escrow burned minted l := by
  intro q s l q' s' ps hcode hinv
  obtain ⟨hcode, hrule⟩ := hcode
  refine ⟨?_, hinv.2.code hcode hrule⟩
  obtain ⟨hcode⟩ := hcode
  rw [world_count]
  exact brainInv_kept ps hcode hinv.1

/-- **One step**, on either layer. -/
theorem bridgedInv_step (hstep : BridgedStep env s l s') (h : BridgedInv env s) :
    BridgedInv env s' := by
  cases hstep with
  | layer1 hcall hrule => exact ⟨h.layer1.step layer1_kept (hcall.under hrule), h.layer2⟩
  | @layer2 caller c nft hframes hexec hrelayed =>
    obtain ⟨hlayer1, hlayer2⟩ := h
    rw [hframes] at hlayer1
    obtain ⟨hbrains, hplaced⟩ := hlayer1
    cases c with
    | safeMint recipient b =>
      obtain ⟨hnone, howners⟩ := BrainNFTL2.safeMint_ok hexec
      constructor
      · show Holds _ s.layer1.state s.layer1.frames
        rw [hframes]
        refine ⟨hbrains, hplaced.released_le, ?_, hplaced.locked_le, hplaced.held,
          hplaced.operators⟩
        -- it was locked once more than it was minted
        intro b'
        show set s.minted b (s.minted b + 1) b' ≤ _
        rw [set_apply]
        split
        case isTrue hb =>
          subst hb
          exact hrelayed
        case isFalse => exact hplaced.minted_le b'
      · intro b'
        show set s.minted b (s.minted b + 1) b' = s.burned b' + if (nft.owners b').isSome then 1
          else 0
        rw [howners, set_apply, set_apply]
        have hold := hlayer2 b'
        by_cases hb : b' = b
        · subst hb
          rw [Bridged.onLayer2, hnone] at hold
          simpa using hold
        · rw [if_neg hb, if_neg hb]
          exact hold
    | burn owner b =>
      obtain ⟨hsome, howners⟩ := BrainNFTL2.burn_ok owner hexec
      constructor
      · show Holds _ s.layer1.state s.layer1.frames
        rw [hframes]
        refine ⟨hbrains, ?_, hplaced.minted_le, hplaced.locked_le, hplaced.held,
          hplaced.operators⟩
        intro b'
        show _ ≤ set s.burned b (s.burned b + 1) b'
        rw [set_apply]
        split
        case isTrue hb =>
          subst hb
          exact (hplaced.released_le b').trans (Nat.le_succ _)
        case isFalse => exact hplaced.released_le b'
      · intro b'
        show s.minted b' = set s.burned b (s.burned b + 1) b' + if (nft.owners b').isSome then 1
          else 0
        rw [howners, set_apply, set_apply]
        have hold := hlayer2 b'
        by_cases hb : b' = b
        · subst hb
          rw [Bridged.onLayer2, if_pos (Option.isSome_iff_ne_none.mpr hsome)] at hold
          simpa using hold
        · rw [if_neg hb, if_neg hb]
          exact hold

variable {pepecoinStake basedStake : Nat} {governance : Address} {tokens : Address → T}
  {ls : List BridgedLabel}

theorem BridgedInv.run
    (h : Run (BridgedStep env) (.deploy pepecoinStake basedStake governance tokens) ls s) :
    BridgedInv env s :=
  h.invariant (I := BridgedInv env) bridgedInv_step (bridgedInv_deploy _ _ _ _)

/-- What the counts of a Brain add up to. -/
theorem BridgedInv.counts (h : BridgedInv env s) (b : BrainId) :
    s.onLayer2 b + s.inbound b + s.outbound b =
      s.layer1.state.locked b - s.layer1.state.released b ∧
    s.layer1.state.locked b ≤ s.layer1.state.released b + 1 := by
  obtain ⟨-, hplaced⟩ := h.layer1.now
  have hreleased := hplaced.released_le b
  have hminted := hplaced.minted_le b
  have hexists := h.layer2 b
  refine ⟨?_, hplaced.locked_le b⟩
  unfold Bridged.inbound Bridged.outbound
  omega

/-- **A Brain is in one place.** Whatever anybody calls on either chain, and however long word
takes from one to the other: a Brain exists on the second layer, is on its way there, or is on
its way back, or none of these, and never two of them; and where it is one of them, the Brain
of the first layer is locked with the bridge, and has an id below 64. -/
theorem brain_in_one_place
    (h : Run (BridgedStep env) (.deploy pepecoinStake basedStake governance tokens) ls s)
    (b : BrainId) :
    s.onLayer2 b + s.inbound b + s.outbound b ≤ 1 ∧
      (s.onLayer2 b + s.inbound b + s.outbound b = 1 →
        s.nft.owners b = some env.escrow ∧ b.val < 64) := by
  have hinv := BridgedInv.run h
  obtain ⟨hbrains, hplaced⟩ := hinv.layer1.now
  obtain ⟨hsum, hlocked⟩ := hinv.counts b
  refine ⟨by omega, ?_⟩
  intro hone
  have hheld := hplaced.held b (by omega)
  have hexists : s.nft.owners b ≠ none := by
    rw [Bridged.nft, hheld.owner]
    exact Option.some_ne_none _
  exact ⟨hheld.owner, (hbrains.books.below b hexists).trans_le hbrains.books.le_max⟩

/-- **What is on its way can arrive.** Where no call is open on the first layer, the bridge of the
second can mint a Brain that is on its way there, for whoever can receive one, and burn one
that exists; and that of the first can release a Brain that is on its way back, to whomever it
likes, just as long as it, or the recipient, is an endpoint. -/
theorem crossing_completes (hescrow : env.escrow ≠ 0)
    (h : Run (BridgedStep env) (.deploy pepecoinStake basedStake governance tokens) ls s)
    (b : BrainId) :
    (s.inbound b = 1 → ∀ recipient,
      (∃ nft, s.layer2.safeMint env.layer2 env.layer2.bridge recipient b = .ok nft) ↔
        recipient ≠ 0 ∧ env.layer2.receives recipient b = true) ∧
    (s.onLayer2 b = 1 → ∀ owner,
      ∃ nft, s.layer2.burn env.layer2 env.layer2.bridge owner b = .ok nft) ∧
    (s.outbound b = 1 → ∀ recipient,
      (∃ nft, s.nft.transferFrom env.escrow env.escrow recipient b = .ok nft) ↔
        recipient ≠ 0 ∧ (s.nft.endpoint env.escrow = true ∨ s.nft.endpoint recipient = true)) := by
  have hinv := BridgedInv.run h
  obtain ⟨-, hplaced⟩ := hinv.layer1.now
  obtain ⟨hsum, hlocked⟩ := hinv.counts b
  refine ⟨?_, ?_, ?_⟩
  · intro hin recipient
    -- it is not there already
    have hnone : s.layer2.owners b = none := by
      have hzero : s.onLayer2 b = 0 := by omega
      unfold Bridged.onLayer2 at hzero
      split at hzero
      case isTrue => cases hzero
      case isFalse hnot => exact Option.not_isSome_iff_eq_none.mp hnot
    exact BrainNFTL2.safeMint_iff hnone
  · intro hon owner
    have hsome : s.layer2.owners b ≠ none := by
      intro hnone
      rw [Bridged.onLayer2, hnone] at hon
      cases hon
    exact BrainNFTL2.burn_total hsome
  · intro hout recipient
    have howner : s.nft.owners b = some env.escrow := (hplaced.held b (by omega)).owner
    constructor
    · rintro ⟨nft, htransfer⟩
      obtain ⟨hchecks, -⟩ := BrainNFT.transferFrom_iff.mp htransfer
      exact ⟨hchecks.recipient, hchecks.endpoints⟩
    · rintro ⟨hrecipient, hends⟩
      have hself : s.nft.isAuthorized env.escrow env.escrow b = true := by
        simp [BrainNFT.isAuthorized, hescrow]
      exact ⟨_, BrainNFT.transferFrom_iff.mpr ⟨⟨hrecipient, howner, hself, hends⟩, rfl⟩⟩

end Runs

/-! ## The adapter on the two chains -/

section Adapter

open BrainNFT

variable {T B : Type} {env : BridgedEnv T} {adapter : BridgeAdapterEnv} {bridge : L1Bridge B}
  {sent : B → List BridgeMessage} {s : Bridged T} {caller recipient : Address} {b : BrainId}

/-- The NFT of the first layer in another state. -/
def Bridged.withNft (s : Bridged T) (nft : BrainNFT) : Bridged T :=
  let state := s.layer1.state
  { s with layer1 := ⟨{ state with world := { state.world with
      state := { state.world.state with nft := nft } } }, s.layer1.frames⟩ }

/-- A Brain locked once more. -/
def Bridged.lockedOnce (s : Bridged T) (b : BrainId) : Bridged T :=
  let state := s.layer1.state
  { s with layer1 := ⟨{ state with locked := set state.locked b (state.locked b + 1) },
      s.layer1.frames⟩ }

@[simp] theorem nft_withNft (nft : BrainNFT) : (s.withNft nft).nft = nft := rfl
@[simp] theorem withNft_withNft (nft nft' : BrainNFT) :
    (s.withNft nft).withNft nft' = s.withNft nft' := rfl

/-- A call of somebody else than the bridge, that does not call out. -/
theorem bridgedStep_other {nft : BrainNFT} {blk : Block} {c : BrainNFTCall}
    (hcaller : caller ≠ env.layer1.self) (hother : caller ≠ env.escrow)
    (henter : c.enter blk caller s.nft = .ok (none, nft)) :
    BridgedStep env s (.layer1 (some (.call blk caller c))) (s.withNft nft) := by
  have hrule : ∀ k, some (BrainLabel.call blk caller c) = some k →
      EscrowRule env.escrow s.burned s.layer1.state k := by
    rintro k ⟨⟩ hescrow
    exact absurd hescrow hother
  have hstep := BridgedStep.layer1 (.plain (.mk (.call hcaller henter))) hrule
  rwa [count_other hother] at hstep

/-- The bridge takes a Brain of somebody else's. -/
theorem bridgedStep_lock {nft : BrainNFT} {blk : Block} {src : Address}
    (hescrow : env.escrow ≠ env.layer1.self) (hsrc : src ≠ env.escrow)
    (htransfer : s.nft.transferFrom env.escrow src env.escrow b = .ok nft) :
    BridgedStep env s (.layer1 (some (.call blk env.escrow (.transferFrom src env.escrow b))))
      ((s.withNft nft).lockedOnce b) := by
  have henter : (BrainNFTCall.transferFrom src env.escrow b).enter blk env.escrow s.nft =
      .ok (none, nft) := map_ok.mpr ⟨_, htransfer, rfl⟩
  have hrule : ∀ k,
      some (BrainLabel.call blk env.escrow (.transferFrom src env.escrow b)) = some k →
      EscrowRule env.escrow s.burned s.layer1.state k := by
    rintro k ⟨⟩ -
    exact ⟨src, env.escrow, b, rfl, .inl ⟨rfl, hsrc⟩⟩
  have hstep := BridgedStep.layer1 (.plain (.mk (.call hescrow henter))) hrule
  rwa [count_lock rfl] at hstep

/-- The three calls that one call of the adapter makes. -/
def adapterCalls (adapter : BridgeAdapterEnv) (blk : Block) (caller : Address) (b : BrainId) :
    List BrainLabel :=
  [.call blk adapter.self (.transferFrom caller adapter.self b),
    .call blk adapter.self (.approve adapter.BRIDGE b),
    .call blk adapter.BRIDGE (.transferFrom adapter.self adapter.BRIDGE b)]

/-- **The adapter's call is a lock.** Where it goes through, it is three steps of the machine,
after which the Brain is with the bridge and on its way to the second layer, once more than
before, and nothing else has changed. -/
theorem bridgeToL2_locks (hescrows : bridge.Escrows adapter.BRIDGE adapter.BRAIN_NFT sent)
    (hbridge : adapter.BRIDGE = env.escrow) (hself : adapter.self ≠ env.layer1.self)
    (hescrow : env.escrow ≠ env.layer1.self) (hadapter : adapter.self ≠ env.escrow)
    (blk : Block) {store store' : B} {nft : BrainNFT}
    (h : BridgeAdapter.bridgeToL2 adapter bridge caller b recipient s.nft store =
      .ok (nft, store')) :
    nft = s.nft.moved b env.escrow ∧ Run (BridgedStep env) s
      ((adapterCalls adapter blk caller b).map fun l => .layer1 (some l))
      ((s.withNft nft).lockedOnce b) := by
  obtain ⟨hbridgeable, rfl, -⟩ := BridgeAdapter.bridgeToL2_ok hescrows h
  rw [hbridge]
  refine ⟨rfl, ?_⟩
  -- it takes the Brain
  have htake : s.nft.transferFrom adapter.self caller adapter.self b =
      .ok (s.nft.moved b adapter.self) :=
    transferFrom_iff.mpr ⟨⟨isAuthorized_ne_zero hbridgeable.authorized, hbridgeable.owner,
      hbridgeable.authorized, hbridgeable.taken⟩, rfl⟩
  have hfirst : BridgedStep env s
      (.layer1 (some (.call blk adapter.self (.transferFrom caller adapter.self b))))
      (s.withNft (s.nft.moved b adapter.self)) :=
    bridgedStep_other hself hadapter (map_ok.mpr ⟨_, htake, rfl⟩)
  -- lets the bridge move it
  have happrove : (s.nft.moved b adapter.self).approve adapter.self env.escrow b =
      .ok ((s.nft.moved b adapter.self).approved b env.escrow) :=
    approve_iff.mpr ⟨⟨adapter.self, set_same _ _ _, .inl rfl⟩, rfl⟩
  have hsecond : BridgedStep env (s.withNft (s.nft.moved b adapter.self))
      (.layer1 (some (.call blk adapter.self (.approve env.escrow b))))
      (s.withNft ((s.nft.moved b adapter.self).approved b env.escrow)) :=
    bridgedStep_other hself hadapter (map_ok.mpr ⟨_, happrove, rfl⟩)
  -- and has it pull
  have hlock : ((s.nft.moved b adapter.self).approved b env.escrow).transferFrom env.escrow
      adapter.self env.escrow b = .ok (s.nft.moved b env.escrow) := by
    have hways := BridgeAdapter.transferable_to_bridge b hbridgeable.bridge hbridgeable.passed
    rw [hbridge] at hways
    exact transferFrom_iff.mpr ⟨hways, moved_approved_moved.symm⟩
  have hthird : BridgedStep env (s.withNft ((s.nft.moved b adapter.self).approved b env.escrow))
      (.layer1 (some (.call blk env.escrow (.transferFrom adapter.self env.escrow b))))
      ((s.withNft (s.nft.moved b env.escrow)).lockedOnce b) :=
    bridgedStep_lock hescrow hadapter hlock
  unfold adapterCalls
  rw [hbridge]
  exact .cons hfirst (.cons hsecond (.cons hthird (.nil _)))

end Adapter

/-! ## A crossing -/

def toyBridgedEnv : BridgedEnv Ledger := ⟨toyBrainEnv, ⟨30, fun _ _ => true⟩, 8⟩

def toyBridged : Bridged Ledger := .deploy 100 200 1 fun _ => toyLedger

/-- Account 6 has Brain 0. -/
def toyReservedBrain : BrainNFT :=
  { BrainNFT.deploy 100 200 1 with totalSupply := 1, owners := set (fun _ => none) 0 (some 6) }

/-- The bridge is an endpoint, and may move it. -/
def toyBridgeable : BrainNFT :=
  { toyReservedBrain with bridge := 8, tokenApprovals := set (fun _ => 0) 0 8 }

/-- Brain 0 is locked, and then account 4 has it on the second layer. -/
def toyLocked : Bridged Ledger :=
  (toyBridged.withNft (toyBridgeable.moved 0 8)).lockedOnce 0

def toyArrived : Bridged Ledger :=
  toyLocked.counted (BrainNFTL2.deploy.assign 4 0 rfl) (.safeMint 4 0)

theorem toy_arrived : ∃ ls, Run (BridgedStep toyBridgedEnv) toyBridged ls toyArrived := by
  -- governance mints it, and its receiver acknowledges it
  have hmint : BridgedStep toyBridgedEnv toyBridged
      (.layer1 (some (.call toyMint 1 (.mintReserved 6 0))))
      { toyBridged with layer1 := ⟨(toyBridged.withNft toyReservedBrain).layer1.state,
        [⟨toyBridged.layer1.state, some (.received false)⟩]⟩ } :=
    .layer1 (.enter (.mk (.call (by decide) rfl))) (by rintro k ⟨⟩ hcaller; cases hcaller)
  have hreceived : BridgedStep toyBridgedEnv
      { toyBridged with layer1 := ⟨(toyBridged.withNft toyReservedBrain).layer1.state,
        [⟨toyBridged.layer1.state, some (.received false)⟩]⟩ }
      (.layer1 (some .resumed)) (toyBridged.withNft toyReservedBrain) :=
    .layer1 (.leave (.mk (.resume rfl))) (by rintro k ⟨⟩; trivial)
  have hendpoint : BridgedStep toyBridgedEnv (toyBridged.withNft toyReservedBrain)
      (.layer1 (some (.call toyMint 1 (.setBridge 8))))
      (toyBridged.withNft { toyReservedBrain with bridge := 8 }) :=
    bridgedStep_other (by decide) (by decide) rfl
  have happrove : BridgedStep toyBridgedEnv
      (toyBridged.withNft { toyReservedBrain with bridge := 8 })
      (.layer1 (some (.call toyMint 6 (.approve 8 0)))) (toyBridged.withNft toyBridgeable) :=
    bridgedStep_other (by decide) (by decide) rfl
  have hlock : BridgedStep toyBridgedEnv (toyBridged.withNft toyBridgeable)
      (.layer1 (some (.call toyMint 8 (.transferFrom 6 8 0)))) toyLocked :=
    bridgedStep_lock (by decide) (by decide) (BrainNFT.transferFrom_iff.mpr
      ⟨⟨by decide, rfl, by decide, .inr (by decide)⟩, rfl⟩)
  have hthere : BridgedStep toyBridgedEnv toyLocked (.layer2 30 (.safeMint 4 0)) toyArrived :=
    .layer2 rfl rfl Nat.zero_lt_one
  exact ⟨_, .cons hmint (.cons hreceived (.cons hendpoint (.cons happrove (.cons hlock
    (.cons hthere (.nil _))))))⟩

/-- There it is burned, and on its way back. -/
theorem toy_crossed : ∃ ls s, Run (BridgedStep toyBridgedEnv) toyBridged ls s ∧
    s.outbound 0 = 1 ∧ s.nft.endpoint 8 = true := by
  obtain ⟨ls, hrun⟩ := toy_arrived
  have hback : BridgedStep toyBridgedEnv toyArrived (.layer2 30 (.burn 4 0))
      (toyArrived.counted ((BrainNFTL2.deploy.assign 4 0 rfl).release 4 0 rfl) (.burn 4 0)) :=
    .layer2 rfl rfl trivial
  exact ⟨_, _, hrun.append (.single hback), rfl, by decide⟩

/-- It is with the bridge of the first layer, -/
theorem brain_locked : ∃ ls s, Run (BridgedStep toyBridgedEnv) toyBridged ls s ∧
    s.onLayer2 0 + s.inbound 0 + s.outbound 0 = 1 ∧ s.nft.owners 0 = some 8 := by
  obtain ⟨ls, s, hrun, hout, -⟩ := toy_crossed
  obtain ⟨hle, hplace⟩ := brain_in_one_place hrun 0
  have hone : s.onLayer2 0 + s.inbound 0 + s.outbound 0 = 1 := by omega
  exact ⟨ls, s, hrun, hone, (hplace hone).1⟩

/-- which can give it back. -/
theorem brain_returnable : ∃ ls s, Run (BridgedStep toyBridgedEnv) toyBridged ls s ∧
    ∃ nft, s.nft.transferFrom 8 8 6 0 = .ok nft := by
  obtain ⟨ls, s, hrun, hout, hend⟩ := toy_crossed
  obtain ⟨-, -, hreturns⟩ := crossing_completes (by decide) hrun 0
  exact ⟨ls, s, hrun, (hreturns hout 6).mpr ⟨by decide, .inl hend⟩⟩

end BasedAI
