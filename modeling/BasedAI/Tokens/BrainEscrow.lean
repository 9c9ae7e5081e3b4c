import BasedAI.Lib.CallStack
import BasedAI.Tokens.BrainNFT

/-!
# BasedAI — the stakes behind the Brains

The NFT counts its Brains by hand, hands out their ids by a cursor, and holds two kinds of
tokens for the stakes it has recorded. The token and the receiver of a Brain are foreign
code, which can call back while a mint or a burn is under way; the calls are therefore
those of a machine with open calls, each of which can still revert.

* `BrainCode`    — what the NFT does between two times that foreign code has control;
* `Chronicle`    — what was minted for a stake and what was paid out, which no code reads;
* `BooksInv`     — supply, cursor, records and chronicle agree;
* `Escrowed`     — the tokens held cover the stakes, and what is being moved;
* `brain_escrow` — both, in every state a call can meet.
-/

namespace BasedAI

open Fallible Mapping Transition CallStack

/-! ## The chronicle -/

/-- A Brain minted for a stake, with the record made of it. -/
structure StakeMint where
  brainId : BrainId
  record : StakeRecord
  time : Nat
  deriving DecidableEq

/-- A stake paid out: what everybody held in every token before it, and after it. -/
structure StakePayout where
  brainId : BrainId
  before : Address → Address → Nat
  after : Address → Address → Nat
  time : Nat

/-- The mints and the payouts, the last ones first. -/
structure Chronicle where
  minted : List StakeMint
  paid : List StakePayout

/-- The NFT, the tokens, and what has happened. -/
structure BrainWorld (T : Type) where
  state : BrainState T
  chronicle : Chronicle

section Machine

variable {T : Type} (env : BrainNFTEnv T)

/-- What `a` holds in the token at `p`. -/
def BrainState.balances (s : BrainState T) (p a : Address) : Nat :=
  (env.token p).balanceOf (s.tokens p) a

/-- What the NFT holds in the token at `p`. -/
def BrainState.held (s : BrainState T) (p : Address) : Nat := s.balances env p env.self

/-- What `p.resume`, which led from `s` to `s'`, adds to the chronicle. Of a payout that is
what the tokens say of both states, and not what the record asked for. -/
def Pending.chronicle (s s' : BrainState T) (c : Chronicle) : Pending → Chronicle
  | .funded blk _ _ _ =>
    let b := s.nft.candidate
    { c with minted := ⟨b, s'.nft.stakes b, blk.timestamp⟩ :: c.minted }
  | .paying blk b _ =>
    { c with paid := ⟨b, s.balances env, s'.balances env, blk.timestamp⟩ :: c.paid }
  | _ => c

/-- The amount of the record has moved from the NFT to the staker, in the token it was staked
in, and nothing else has. -/
def StakePayout.Pays (d : StakePayout) (record : StakeRecord) : Prop :=
  let p := env.stakeToken record.asset
  record.amount ≤ d.before p env.self ∧
    d.after = set d.before p (moved (d.before p) env.self record.staker record.amount)

inductive BrainLabel
  | call (blk : Block) (caller : Address) (c : BrainNFTCall)
  | resumed
  | elsewhere

/-- The NFT never calls itself, and nobody else can spend the tokens it holds. -/
inductive BrainCode : Option Pending → BrainWorld T → BrainLabel → Option Pending →
    BrainWorld T → Prop
  | call {s : BrainState T} {nft' : BrainNFT} {k : Chronicle} {q : Option Pending} {blk : Block}
      {caller : Address} {c : BrainNFTCall} :
      caller ≠ env.self → c.enter blk caller s.nft = .ok (q, nft') →
      BrainCode none ⟨s, k⟩ (.call blk caller c) q ⟨{ s with nft := nft' }, k⟩
  | resume {s s' : BrainState T} {k : Chronicle} {p : Pending} {q : Option Pending} :
      p.resume env s = .ok (q, s') →
      BrainCode (some p) ⟨s, k⟩ .resumed q ⟨s', p.chronicle env s s' k⟩
  | elsewhere {s : BrainState T} {k : Chronicle} {tokens : Address → T} :
      (∀ p, s.held env p ≤ { s with tokens := tokens }.held env p) →
      BrainCode none ⟨s, k⟩ .elsewhere none ⟨{ s with tokens := tokens }, k⟩

/-- One step of a call of the NFT, or of foreign code. -/
abbrev BrainStep := CallStep (BrainCode env)

/-- The NFT as deployed, next to tokens in any state. -/
def BrainWorld.deploy (pepecoinStake basedStake : Nat) (governance : Address)
    (tokens : Address → T) : BrainWorld T :=
  ⟨⟨.deploy pepecoinStake basedStake governance, tokens⟩, ⟨[], []⟩⟩

end Machine

/-! ## What entering a call does -/

/-- What the supply, the ids and the stakes depend on is the same. -/
structure BrainNFT.SameBooks (nft nft' : BrainNFT) : Prop where
  existing : ∀ b, (nft'.owners b).isSome = (nft.owners b).isSome
  stakes : nft'.stakes = nft.stakes
  totalSupply : nft'.totalSupply = nft.totalSupply
  nextPublicId : nft'.nextPublicId = nft.nextPublicId

/-- The calls, by what they do to the books. -/
inductive Entered (blk : Block) (caller : Address) (nft : BrainNFT) :
    Option Pending → BrainNFT → Prop
  | aside {q : Option Pending} {nft' : BrainNFT} : q = none ∨ q = some (.received false) →
      nft.SameBooks nft' → Entered blk caller nft q nft'
  | funding {asset : StakeAsset} {amount : Nat} {nft' : BrainNFT} : asset ≠ .none →
      nft.SameBooks nft' → Entered blk caller nft (some (.funding blk caller asset amount)) nft'
  | reserved {b : BrainId} {dst : Address} {approvals : BrainId → Address} :
      b.val < BrainNFT.FIRST_PUBLIC_ID → nft.owners b = none →
      Entered blk caller nft (some (.received false))
        { nft with
          totalSupply := nft.totalSupply + 1
          owners := set nft.owners b (some dst)
          tokenApprovals := approvals }
  | deactivated {b : BrainId} {approvals : BrainId → Address} :
      (nft.stakes b).asset ≠ .none → (nft.stakes b).unlockAt ≤ blk.timestamp →
      nft.owners b = some caller → 1 ≤ nft.totalSupply →
      Entered blk caller nft (some (.paying blk b (nft.stakes b)))
        { nft with
          entered := true
          stakes := set nft.stakes b .empty
          owners := set nft.owners b none
          tokenApprovals := approvals
          totalSupply := nft.totalSupply - 1 }

section Enter

open BrainNFT

variable {blk : Block} {caller src dst : Address} {nft nft' : BrainNFT} {q : Option Pending}
  {b : BrainId}

theorem transferFrom_sameBooks (h : nft.transferFrom caller src dst b = .ok nft') :
    nft.SameBooks nft' := by
  obtain ⟨hsrc, -, approvals, rfl⟩ := transferFrom_ok h
  refine ⟨?_, rfl, rfl, rfl⟩
  intro b'
  show (set nft.owners b (some dst) b').isSome = (nft.owners b').isSome
  rw [set_apply]
  split
  case isTrue hb => rw [hb, hsrc]; rfl
  case isFalse => rfl

theorem sameBooks_of_eq (howners : nft'.owners = nft.owners) (hstakes : nft'.stakes = nft.stakes)
    (hsupply : nft'.totalSupply = nft.totalSupply)
    (hnext : nft'.nextPublicId = nft.nextPublicId) : nft.SameBooks nft' :=
  ⟨fun b => by rw [howners], hstakes, hsupply, hnext⟩

theorem enter_cases {c : BrainNFTCall} (h : c.enter blk caller nft = .ok (q, nft')) :
    Entered blk caller nft q nft' := by
  cases c with
  | mintByPepecoinStake =>
    obtain ⟨rfl, rfl⟩ := mintByStake_ok h
    exact .funding nofun (sameBooks_of_eq rfl rfl rfl rfl)
  | mintByBasedStake =>
    obtain ⟨rfl, rfl⟩ := mintByStake_ok h
    exact .funding nofun (sameBooks_of_eq rfl rfl rfl rfl)
  | deactivateAndUnstake b =>
    obtain ⟨rfl, hasset, hlock, howner, hpos, approvals, rfl⟩ := deactivateAndUnstake_ok h
    -- the only entry that takes something off the books
    exact .deactivated hasset hlock howner hpos
  | setStakeAmount asset newAmount =>
    obtain ⟨rfl, hset⟩ := atOnce_ok h
    obtain ⟨_, _, _, _, rfl⟩ := setStakeAmount_ok hset
    exact .aside (.inl rfl) (sameBooks_of_eq rfl rfl rfl rfl)
  | mintReserved dst b =>
    obtain ⟨rfl, hlow, hnew, approvals, rfl⟩ := mintReserved_ok h
    exact .reserved hlow hnew
  | setBridge newBridge =>
    obtain ⟨rfl, hset⟩ := atOnce_ok h
    obtain rfl := setBridge_ok hset
    exact .aside (.inl rfl) (sameBooks_of_eq rfl rfl rfl rfl)
  | setBridgeEndpoint endpoint allowed =>
    obtain ⟨rfl, hset⟩ := atOnce_ok h
    obtain rfl := setBridgeEndpoint_ok hset
    exact .aside (.inl rfl) (sameBooks_of_eq rfl rfl rfl rfl)
  | transferFrom src dst b =>
    obtain ⟨rfl, htransfer⟩ := atOnce_ok h
    exact .aside (.inl rfl) (transferFrom_sameBooks htransfer)
  | safeTransferFrom src dst b =>
    obtain ⟨nft₁, htransfer, hpair⟩ := map_ok.mp h
    obtain ⟨rfl, rfl⟩ := Prod.mk.inj hpair
    exact .aside (.inr rfl) (transferFrom_sameBooks htransfer)
  | _ =>
    obtain ⟨rfl, approvals, operators, roles, rfl⟩ := permission_ok h rfl
    exact .aside (.inl rfl) (sameBooks_of_eq rfl rfl rfl rfl)

end Enter

/-! ## The books -/

/-- Whether a Brain exists, as a number. -/
def BrainNFT.present (nft : BrainNFT) (b : BrainId) : Nat :=
  if (nft.owners b).isSome then 1 else 0

/-- The Brain whose stake is being paid out. -/
def Pending.leaving : Pending → Option BrainId
  | .paying _ b _ => some b
  | _ => none

/-- The Brains whose stakes have been paid out, or are being. -/
def Chronicle.gone (k : Chronicle) (ps : List Pending) : List BrainId :=
  ps.filterMap Pending.leaving ++ k.paid.map StakePayout.brainId

/-- The record of a Brain that was minted. -/
def Chronicle.Recorded (k : Chronicle) (b : BrainId) (r : StakeRecord) : Prop :=
  ∃ m ∈ k.minted, m.brainId = b ∧ m.record = r

section Books

variable {T : Type} (env : BrainNFTEnv T)

/-- What an interrupted call knows. -/
def Pending.Valid (k : Chronicle) : Pending → Prop
  | .funding _ staker asset _ => staker ≠ env.self ∧ asset ≠ .none
  | .funded _ staker asset _ => staker ≠ env.self ∧ asset ≠ .none
  | .paying blk b record =>
    record.asset ≠ .none ∧ k.Recorded b record ∧ record.unlockAt ≤ blk.timestamp
  | _ => True

/-- The supply is the number of Brains, the ids are below the cursor, a Brain has a record
just if it was minted for a stake, and what is paid out was recorded, and is paid once. -/
structure BooksInv (ps : List Pending) (nft : BrainNFT) (k : Chronicle) : Prop where
  supply : nft.totalSupply = ∑ b, nft.present b
  first_le : BrainNFT.FIRST_PUBLIC_ID ≤ nft.nextPublicId
  le_max : nft.nextPublicId ≤ BrainNFT.MAX_SUPPLY
  below : ∀ b, nft.owners b ≠ none → b.val < nft.nextPublicId
  staked : ∀ b, nft.owners b ≠ none → BrainNFT.FIRST_PUBLIC_ID ≤ b.val →
    (nft.stakes b).asset ≠ .none
  exists_of_staked : ∀ b, (nft.stakes b).asset ≠ .none →
    nft.owners b ≠ none ∧ BrainNFT.FIRST_PUBLIC_ID ≤ b.val
  recorded : ∀ b, (nft.stakes b).asset ≠ .none → k.Recorded b (nft.stakes b)
  increasing : (k.minted.map StakeMint.brainId).Pairwise (· > ·)
  minted_range : ∀ m ∈ k.minted, BrainNFT.FIRST_PUBLIC_ID ≤ m.brainId.val ∧
    m.brainId.val < nft.nextPublicId
  locked : ∀ m ∈ k.minted, m.record.unlockAt = m.time + BrainNFT.STAKE_LOCK_DURATION
  pending : ∀ p ∈ ps, p.Valid env k
  outside : ∀ m ∈ k.minted, m.record.staker ≠ env.self
  paid : ∀ d ∈ k.paid, ∃ m ∈ k.minted, m.brainId = d.brainId ∧ d.Pays env m.record ∧
    m.record.unlockAt ≤ d.time
  once : (k.gone ps).Nodup
  burned : ∀ b ∈ k.gone ps, nft.owners b = none

end Books

section BooksSteps

open BrainNFT

variable {T : Type} {env : BrainNFTEnv T} {ps ps' : List Pending} {nft nft' : BrainNFT}
  {k : Chronicle} {b : BrainId} {blk : Block} {staker : Address} {asset : StakeAsset}
  {amount : Nat}

theorem booksInv_deploy (pepecoinStake basedStake : Nat) (governance : Address) :
    BooksInv env [] (.deploy pepecoinStake basedStake governance) ⟨[], []⟩ where
  supply := by
    have hnobody : ∀ b, present (.deploy pepecoinStake basedStake governance) b = 0 :=
      fun _ => rfl
    rw [Finset.sum_congr rfl fun b _ => hnobody b, Finset.sum_const_zero]
    rfl
  first_le := le_rfl
  le_max := by
    show FIRST_PUBLIC_ID ≤ MAX_SUPPLY
    decide
  -- there are no Brains, no records, no calls under way
  below b h := absurd rfl h
  staked b h := absurd rfl h
  exists_of_staked b h := absurd rfl h
  recorded b h := absurd rfl h
  increasing := .nil
  minted_range m hm := absurd hm List.not_mem_nil
  locked m hm := absurd hm List.not_mem_nil
  pending p hp := absurd hp List.not_mem_nil
  outside m hm := absurd hm List.not_mem_nil
  paid d hd := absurd hd List.not_mem_nil
  once := List.nodup_nil
  burned b hb := absurd hb List.not_mem_nil

theorem BrainNFT.SameBooks.owners_iff (h : nft.SameBooks nft') (b : BrainId) :
    nft'.owners b ≠ none ↔ nft.owners b ≠ none := by
  rw [← Option.isSome_iff_ne_none, ← Option.isSome_iff_ne_none, h.existing]

/-- The supply follows the owners. -/
theorem supply_set (hsupply : nft.totalSupply = ∑ b, nft.present b) {owner : Option Address}
    {n : Nat} (howners : nft'.owners = set nft.owners b owner)
    (hn : n + nft.present b = nft.totalSupply + if owner.isSome then 1 else 0) :
    n = ∑ b, nft'.present b := by
  have hpresent : nft'.present = set nft.present b (if owner.isSome then 1 else 0) := by
    funext b'
    rw [present, howners, set_apply, set_apply]
    split
    case isTrue => rfl
    case isFalse => rfl
  have hsum := sum_set_add nft.present b (if owner.isSome then 1 else 0)
  rw [hpresent]
  omega

/-- Nothing about the Brains has changed. -/
theorem BooksInv.aside (h : BooksInv env ps nft k) (hbooks : nft.SameBooks nft')
    (hgone : ps'.filterMap Pending.leaving = ps.filterMap Pending.leaving)
    (hpending : ∀ p ∈ ps', p.Valid env k) : BooksInv env ps' nft' k := by
  -- nothing on the books is touched, so every part carries over
  have hsame : k.gone ps' = k.gone ps := congrArg (· ++ _) hgone
  constructor
  case supply =>
    have hpresent : ∀ b, nft'.present b = nft.present b := by
      intro b
      rw [present, present, hbooks.existing]
    rw [hbooks.totalSupply, Finset.sum_congr rfl fun b _ => hpresent b]
    exact h.supply
  case first_le => rw [hbooks.nextPublicId]; exact h.first_le
  case le_max => rw [hbooks.nextPublicId]; exact h.le_max
  case below =>
    intro b hb
    rw [hbooks.nextPublicId]
    exact h.below b ((hbooks.owners_iff b).mp hb)
  case staked =>
    intro b hb hfirst
    rw [hbooks.stakes]
    exact h.staked b ((hbooks.owners_iff b).mp hb) hfirst
  case exists_of_staked =>
    intro b hb
    rw [hbooks.stakes] at hb
    obtain ⟨hexists, hfirst⟩ := h.exists_of_staked b hb
    exact ⟨(hbooks.owners_iff b).mpr hexists, hfirst⟩
  case recorded =>
    intro b hb
    rw [hbooks.stakes] at hb ⊢
    exact h.recorded b hb
  case increasing => exact h.increasing
  case minted_range =>
    intro m hm
    rw [hbooks.nextPublicId]
    exact h.minted_range m hm
  case locked => exact h.locked
  case pending => exact hpending
  case outside => exact h.outside
  case paid => exact h.paid
  case once => rw [hsame]; exact h.once
  case burned =>
    intro b hb
    rw [hsame] at hb
    by_contra hexists
    exact (hbooks.owners_iff b).mp hexists (h.burned b hb)

/-- What is gone was minted for a stake. -/
theorem BooksInv.gone_range (h : BooksInv env ps nft k) (hb : b ∈ k.gone ps) :
    FIRST_PUBLIC_ID ≤ b.val ∧ b.val < nft.nextPublicId := by
  -- on its way out, or paid out
  rcases List.mem_append.mp hb with hleaving | hpaid
  · obtain ⟨p, hp, hbrain⟩ := List.mem_filterMap.mp hleaving
    have hvalid := h.pending p hp
    cases p with
    | paying blk b' record =>
      obtain rfl : b' = b := Option.some.inj hbrain
      obtain ⟨-, ⟨m, hm, rfl, -⟩, -⟩ := hvalid
      exact h.minted_range m hm
    | funding => cases hbrain
    | funded => cases hbrain
    | received => cases hbrain
    | paid => cases hbrain
  · obtain ⟨d, hd, rfl⟩ := List.mem_map.mp hpaid
    obtain ⟨m, hm, hbrain, -⟩ := h.paid d hd
    rw [← hbrain]
    exact h.minted_range m hm

/-- A reserved Brain is minted. -/
theorem BooksInv.reserved (h : BooksInv env ps nft k) {dst : Address}
    {approvals : BrainId → Address} (hlow : b.val < FIRST_PUBLIC_ID)
    (hnew : nft.owners b = none) :
    BooksInv env (.received false :: ps)
      { nft with
        totalSupply := nft.totalSupply + 1
        owners := set nft.owners b (some dst)
        tokenApprovals := approvals } k := by
  have howned : ∀ b', set nft.owners b (some dst) b' ≠ none → b' ≠ b → nft.owners b' ≠ none := by
    intro b' hb' hne
    rwa [set_of_ne _ _ hne] at hb'
  constructor
  case supply =>
    apply supply_set h.supply rfl
    rw [present, hnew]
    rfl
  case first_le => exact h.first_le
  case le_max => exact h.le_max
  case below =>
    intro b' hb'
    by_cases heq : b' = b
    · rw [heq]
      exact lt_of_lt_of_le hlow h.first_le
    · exact h.below b' (howned b' hb' heq)
  case staked =>
    intro b' hb' hfirst
    have heq : b' ≠ b := by
      rintro rfl
      omega
    exact h.staked b' (howned b' hb' heq) hfirst
  case exists_of_staked =>
    intro b' hb'
    obtain ⟨hexists, hfirst⟩ := h.exists_of_staked b' hb'
    refine ⟨?_, hfirst⟩
    show set nft.owners b (some dst) b' ≠ none
    rw [set_apply]
    split
    case isTrue => exact nofun
    case isFalse => exact hexists
  case recorded => exact h.recorded
  case increasing => exact h.increasing
  case minted_range => exact h.minted_range
  case locked => exact h.locked
  case pending => exact List.forall_mem_cons.mpr ⟨trivial, h.pending⟩
  case outside => exact h.outside
  case paid => exact h.paid
  case once => exact h.once
  case burned =>
    intro b' hb'
    -- what is gone was minted for a stake
    have hfirst : FIRST_PUBLIC_ID ≤ b'.val := (h.gone_range hb').1
    have heq : b' ≠ b := by
      rintro rfl
      omega
    show set nft.owners b (some dst) b' = none
    rw [set_of_ne _ _ heq]
    exact h.burned b' hb'

/-- A Brain is burned, to be paid out. -/
theorem BooksInv.deactivated (h : BooksInv env ps nft k) {caller : Address}
    {approvals : BrainId → Address} (hasset : (nft.stakes b).asset ≠ .none)
    (hlock : (nft.stakes b).unlockAt ≤ blk.timestamp) (howner : nft.owners b = some caller)
    (hpos : 1 ≤ nft.totalSupply) :
    BooksInv env (.paying blk b (nft.stakes b) :: ps)
      { nft with
        entered := true
        stakes := set nft.stakes b .empty
        owners := set nft.owners b none
        tokenApprovals := approvals
        totalSupply := nft.totalSupply - 1 } k := by
  -- only the burned Brain loses its stake and its owner
  have hkept : ∀ b', (set nft.stakes b .empty b').asset ≠ .none → b' ≠ b := by
    rintro b' hb' rfl
    rw [set_same] at hb'
    exact hb' rfl
  have howned : ∀ b', set nft.owners b none b' ≠ none → b' ≠ b ∧ nft.owners b' ≠ none := by
    intro b' hb'
    by_cases heq : b' = b
    · rw [heq, set_same] at hb'
      exact absurd rfl hb'
    · rw [set_of_ne _ _ heq] at hb'
      exact ⟨heq, hb'⟩
  constructor
  case supply =>
    apply supply_set h.supply rfl
    rw [present, howner]
    exact Nat.sub_add_cancel hpos
  case first_le => exact h.first_le
  case le_max => exact h.le_max
  case below =>
    intro b' hb'
    exact h.below b' (howned b' hb').2
  case staked =>
    intro b' hb' hfirst
    obtain ⟨heq, hold⟩ := howned b' hb'
    show (set nft.stakes b .empty b').asset ≠ .none
    rw [set_of_ne _ _ heq]
    exact h.staked b' hold hfirst
  case exists_of_staked =>
    intro b' hb'
    have heq := hkept b' hb'
    show set nft.owners b none b' ≠ none ∧ _
    rw [set_of_ne _ _ heq]
    apply h.exists_of_staked
    have hold : (set nft.stakes b .empty b').asset ≠ .none := hb'
    rwa [set_of_ne _ _ heq] at hold
  case recorded =>
    intro b' hb'
    have heq := hkept b' hb'
    have hold : (set nft.stakes b .empty b').asset ≠ .none := hb'
    show k.Recorded b' (set nft.stakes b .empty b')
    rw [set_of_ne _ _ heq] at hold ⊢
    exact h.recorded b' hold
  case increasing => exact h.increasing
  case minted_range => exact h.minted_range
  case locked => exact h.locked
  case pending =>
    have hpaying : Pending.Valid env k (.paying blk b (nft.stakes b)) :=
      ⟨hasset, h.recorded b hasset, hlock⟩
    exact List.forall_mem_cons.mpr ⟨hpaying, h.pending⟩
  case outside => exact h.outside
  case paid => exact h.paid
  case once =>
    -- a Brain that has left has no owner, and this one still has
    have hin : b ∉ k.gone ps := by
      intro hgone
      rw [h.burned b hgone] at howner
      cases howner
    exact List.nodup_cons.mpr ⟨hin, h.once⟩
  case burned =>
    intro b' hb'
    show set nft.owners b none b' = none
    rw [set_apply]
    split
    case isTrue => rfl
    case isFalse hne => exact h.burned b' ((List.mem_cons.mp hb').resolve_left hne)

theorem candidate_val (hroom : nft.nextPublicId < MAX_SUPPLY) :
    nft.candidate.val = nft.nextPublicId :=
  Nat.mod_eq_of_lt (hroom.trans (by decide))

theorem Chronicle.Recorded.later {r : StakeRecord} {m : StakeMint} (h : k.Recorded b r) :
    Chronicle.Recorded { k with minted := m :: k.minted } b r := by
  obtain ⟨m', hm', hrecord⟩ := h
  exact ⟨m', List.mem_cons_of_mem _ hm', hrecord⟩

theorem Pending.Valid.later {p : Pending} {m : StakeMint} (h : p.Valid env k) :
    p.Valid env { k with minted := m :: k.minted } := by
  cases p with
  | funding => exact h
  | funded => exact h
  | received => exact h
  | paying =>
    obtain ⟨hasset, hrecorded, hlock⟩ := h
    exact ⟨hasset, hrecorded.later, hlock⟩
  | paid => exact h

/-- A Brain is minted for a stake, with the id at the cursor. -/
theorem BooksInv.minted (h : BooksInv env (.funded blk staker asset amount :: ps) nft k)
    {approvals : BrainId → Address} (hroom : nft.nextPublicId < MAX_SUPPLY)
    (hnew : nft.owners nft.candidate = none)
    (hnft' : nft' = { nft with
      nextPublicId := nft.nextPublicId + 1
      totalSupply := nft.totalSupply + 1
      stakes := set nft.stakes nft.candidate (stakeRecord blk staker asset amount)
      owners := set nft.owners nft.candidate (some staker)
      tokenApprovals := approvals }) :
    BooksInv env (.received true :: ps) nft'
      { k with
        minted := ⟨nft.candidate, nft'.stakes nft.candidate, blk.timestamp⟩ :: k.minted } := by
  subst hnft'
  have hval : nft.candidate.val = nft.nextPublicId := candidate_val hroom
  obtain ⟨⟨hstaker, hasset⟩, hpending⟩ := List.forall_mem_cons.mp h.pending
  -- every Brain but the new one keeps its owner and its stake
  have hold : ∀ b', b' ≠ nft.candidate →
      set nft.owners nft.candidate (some staker) b' = nft.owners b' ∧
      set nft.stakes nft.candidate (stakeRecord blk staker asset amount) b' = nft.stakes b' :=
    fun b' hne => ⟨set_of_ne _ _ hne, set_of_ne _ _ hne⟩
  constructor
  case supply =>
    apply supply_set h.supply rfl
    rw [present, hnew]
    rfl
  case first_le => exact h.first_le.trans (Nat.le_succ _)
  case le_max => exact hroom
  case below =>
    intro b' hb'
    show b'.val < nft.nextPublicId + 1
    by_cases heq : b' = nft.candidate
    · rw [heq, hval]
      exact Nat.lt_succ_self _
    · have hb' : set nft.owners nft.candidate (some staker) b' ≠ none := hb'
      rw [(hold b' heq).1] at hb'
      exact Nat.lt_succ_of_lt (h.below b' hb')
  case staked =>
    intro b' hb' hfirst
    have hb' : set nft.owners nft.candidate (some staker) b' ≠ none := hb'
    show (set nft.stakes nft.candidate (stakeRecord blk staker asset amount) b').asset ≠ .none
    by_cases heq : b' = nft.candidate
    · rw [heq, set_same]
      exact hasset
    · rw [(hold b' heq).1] at hb'
      rw [(hold b' heq).2]
      exact h.staked b' hb' hfirst
  case exists_of_staked =>
    intro b' hb'
    have hb' : (set nft.stakes nft.candidate (stakeRecord blk staker asset amount) b').asset ≠
      .none := hb'
    show set nft.owners nft.candidate (some staker) b' ≠ none ∧ _
    by_cases heq : b' = nft.candidate
    · rw [heq, set_same, hval]
      exact ⟨nofun, h.first_le⟩
    · rw [(hold b' heq).2] at hb'
      rw [(hold b' heq).1]
      exact h.exists_of_staked b' hb'
  case recorded =>
    intro b' hb'
    have hb' : (set nft.stakes nft.candidate (stakeRecord blk staker asset amount) b').asset ≠
      .none := hb'
    show Chronicle.Recorded _ b'
      (set nft.stakes nft.candidate (stakeRecord blk staker asset amount) b')
    by_cases heq : b' = nft.candidate
    · rw [heq]
      exact ⟨_, List.mem_cons_self, rfl, rfl⟩
    · rw [(hold b' heq).2] at hb' ⊢
      exact (h.recorded b' hb').later
  case increasing =>
    refine List.pairwise_cons.mpr ⟨?_, h.increasing⟩
    intro b' hb'
    obtain ⟨m, hm, rfl⟩ := List.mem_map.mp hb'
    have hlt : m.brainId.val < nft.candidate.val := by
      rw [hval]
      exact (h.minted_range m hm).2
    exact hlt
  case minted_range =>
    refine List.forall_mem_cons.mpr ⟨?_, ?_⟩
    · show FIRST_PUBLIC_ID ≤ nft.candidate.val ∧ nft.candidate.val < nft.nextPublicId + 1
      rw [hval]
      exact ⟨h.first_le, Nat.lt_succ_self _⟩
    · intro m hm
      obtain ⟨hfirst, hlt⟩ := h.minted_range m hm
      exact ⟨hfirst, Nat.lt_succ_of_lt hlt⟩
  case locked =>
    refine List.forall_mem_cons.mpr ⟨?_, h.locked⟩
    show (set nft.stakes nft.candidate (stakeRecord blk staker asset amount)
      nft.candidate).unlockAt = _
    rw [set_same]
    rfl
  case pending =>
    refine List.forall_mem_cons.mpr ⟨trivial, ?_⟩
    intro p hp
    exact (hpending p hp).later
  case outside =>
    refine List.forall_mem_cons.mpr ⟨?_, h.outside⟩
    show (set nft.stakes nft.candidate (stakeRecord blk staker asset amount)
      nft.candidate).staker ≠ env.self
    rw [set_same]
    exact hstaker
  case paid =>
    intro d hd
    obtain ⟨m, hm, hpaid⟩ := h.paid d hd
    exact ⟨m, List.mem_cons_of_mem _ hm, hpaid⟩
  case once => exact h.once
  case burned =>
    intro b' hb'
    -- what has left was minted earlier, and ids only grow
    have heq : b' ≠ nft.candidate := by
      rintro rfl
      have hlt := (h.gone_range hb').2
      omega
    show set nft.owners nft.candidate (some staker) b' = none
    rw [(hold b' heq).1]
    exact h.burned b' hb'

/-- The stake of a Brain is paid out. -/
theorem BooksInv.paidOut {record : StakeRecord} {before after : Address → Address → Nat}
    (h : BooksInv env (.paying blk b record :: ps) nft k)
    (hpays : StakePayout.Pays env ⟨b, before, after, blk.timestamp⟩ record) :
    BooksInv env (.paid :: ps) nft
      { k with paid := ⟨b, before, after, blk.timestamp⟩ :: k.paid } := by
  obtain ⟨⟨hasset, ⟨m, hm, hbrain, hrecord⟩, hlock⟩, hpending⟩ :=
    List.forall_mem_cons.mp h.pending
  -- the Brain moves from those leaving to those paid
  have hgone : (Chronicle.gone { k with paid := ⟨b, before, after, blk.timestamp⟩ :: k.paid }
      (.paid :: ps)).Perm (k.gone (.paying blk b record :: ps)) := List.perm_middle
  constructor
  case supply => exact h.supply
  case first_le => exact h.first_le
  case le_max => exact h.le_max
  case below => exact h.below
  case staked => exact h.staked
  case exists_of_staked => exact h.exists_of_staked
  case recorded => exact h.recorded
  case increasing => exact h.increasing
  case minted_range => exact h.minted_range
  case locked => exact h.locked
  case pending =>
    refine List.forall_mem_cons.mpr ⟨trivial, ?_⟩
    intro p hp
    have hvalid := hpending p hp
    cases p with
    | funding => exact hvalid
    | funded => exact hvalid
    | received => exact hvalid
    | paying => exact hvalid
    | paid => exact hvalid
  case outside => exact h.outside
  case paid =>
    refine List.forall_mem_cons.mpr ⟨⟨m, hm, hbrain, ?_⟩, h.paid⟩
    rw [hrecord]
    exact ⟨hpays, hlock⟩
  case once => exact hgone.nodup_iff.mpr h.once
  case burned =>
    intro b' hb'
    exact h.burned b' (hgone.mem_iff.mp hb')

end BooksSteps

/-! ## The escrow -/

section Escrow

variable {T : Type} (env : BrainNFTEnv T)

/-- What a record stakes in the token at `p`. -/
def StakeRecord.inToken (p : Address) (r : StakeRecord) : Nat :=
  if r.asset ≠ .none ∧ env.stakeToken r.asset = p then r.amount else 0

/-- The recorded stakes in the token at `p`, those of both assets where it is both. -/
def BrainNFT.stakedIn (nft : BrainNFT) (p : Address) : Nat :=
  ∑ b, (nft.stakes b).inToken env p

/-- What an interrupted call is moving: a stake that is taken and not yet recorded, or no
longer recorded and not yet refunded. -/
def Pending.owed (p : Address) : Pending → Nat
  | .funded _ _ asset amount => if env.stakeToken asset = p then amount else 0
  | .paying _ _ record => record.inToken env p
  | _ => 0

def owedBy (ps : List Pending) (p : Address) : Nat := (ps.map (Pending.owed env p)).sum

/-- The tokens held cover the stakes. -/
def Escrowed (ps : List Pending) (s : BrainState T) : Prop :=
  ∀ p, s.nft.stakedIn env p + owedBy env ps p ≤ s.held env p

end Escrow

section EscrowSteps

open BrainNFT

variable {T : Type} {env : BrainNFTEnv T} {ps : List Pending} {s s' : BrainState T}
  {nft nft' : BrainNFT} {b : BrainId} {p p' : Address} {t : T}

theorem escrowed_deploy (pepecoinStake basedStake : Nat) (governance : Address)
    (tokens : Address → T) :
    Escrowed env [] ⟨.deploy pepecoinStake basedStake governance, tokens⟩ := by
  intro p
  have hnone : ∀ b, ((deploy pepecoinStake basedStake governance).stakes b).inToken env p = 0 :=
    fun _ => if_neg fun h => h.1 rfl
  have hstaked : stakedIn env (deploy pepecoinStake basedStake governance) p = 0 :=
    (Finset.sum_congr rfl fun b _ => hnone b).trans Finset.sum_const_zero
  rw [hstaked]
  exact Nat.zero_le _

theorem owedBy_cons (pending : Pending) :
    owedBy env (pending :: ps) p = pending.owed env p + owedBy env ps p := by
  rw [owedBy, List.map_cons, List.sum_cons, owedBy]

/-- One record is rewritten. -/
theorem stakedIn_set {r : StakeRecord} (hstakes : nft'.stakes = set nft.stakes b r) :
    nft'.stakedIn env p + (nft.stakes b).inToken env p = nft.stakedIn env p + r.inToken env p := by
  have hset : (fun b' => (nft'.stakes b').inToken env p) =
      set (fun b' => (nft.stakes b').inToken env p) b (r.inToken env p) := by
    funext b'
    rw [hstakes, set_apply, set_apply]
    split
    case isTrue => rfl
    case isFalse => rfl
  have hsum := sum_set_add (fun b' => (nft.stakes b').inToken env p) b (r.inToken env p)
  rw [← hset] at hsum
  exact hsum

theorem inToken_empty : StakeRecord.empty.inToken env p = 0 := if_neg fun h => h.1 rfl

theorem inToken_le (r : StakeRecord) :
    r.inToken env p ≤ if env.stakeToken r.asset = p then r.amount else 0 := by
  unfold StakeRecord.inToken
  split_ifs with hboth htoken <;> simp_all

theorem inToken_eq {r : StakeRecord} (h : r.asset ≠ .none) :
    r.inToken env p = if env.stakeToken r.asset = p then r.amount else 0 := by
  unfold StakeRecord.inToken
  simp only [h, ne_eq, not_false_eq_true, true_and]

/-- One token moves. -/
theorem balances_set : ({ s with tokens := set s.tokens p t } : BrainState T).balances env =
    set (s.balances env) p ((env.token p).balanceOf t) := by
  funext p'
  show (env.token p').balanceOf (set s.tokens p t p') = _
  rw [set_apply, set_apply]
  split
  case isTrue h => rw [h]
  case isFalse => rfl

theorem held_set : ({ s with tokens := set s.tokens p t } : BrainState T).held env p' =
    if p' = p then (env.token p).balanceOf t env.self else s.held env p' := by
  show ({ s with tokens := set s.tokens p t } : BrainState T).balances env p' env.self = _
  rw [balances_set, set_apply]
  split
  case isTrue => rfl
  case isFalse => rfl

/-- A stake that is taken is held. -/
theorem held_funding {staker : Address} {amount : Nat} (hstaker : staker ≠ env.self)
    (h : safeTransferFrom (env.token p) (s.tokens p) env.self staker env.self amount = .ok t) :
    ({ s with tokens := set s.tokens p t } : BrainState T).held env p' =
      s.held env p' + if p = p' then amount else 0 := by
  obtain ⟨-, hmoved⟩ := safeTransferFrom_ok h
  rw [held_set]
  by_cases hp : p' = p
  · rw [if_pos hp, if_pos hp.symm, hmoved, moved_dst hstaker, hp]
    rfl
  · rw [if_neg hp, if_neg (Ne.symm hp), Nat.add_zero]

/-- A refund is paid. -/
theorem pays_refund {record : StakeRecord} {time : Nat}
    (h : safeTransfer (env.token (env.stakeToken record.asset))
      (s.tokens (env.stakeToken record.asset)) env.self record.staker record.amount = .ok t) :
    StakePayout.Pays env ⟨b, s.balances env,
      ({ s with tokens := set s.tokens (env.stakeToken record.asset) t } :
        BrainState T).balances env, time⟩ record := by
  obtain ⟨hle, hmoved⟩ := safeTransfer_ok h
  refine ⟨hle, ?_⟩
  -- no other token is asked to move anything
  dsimp only
  rw [balances_set, hmoved]
  rfl

/-- A refund takes no more than itself. -/
theorem held_paying {staker : Address} {amount : Nat}
    (h : safeTransfer (env.token p) (s.tokens p) env.self staker amount = .ok t) :
    s.held env p' ≤ ({ s with tokens := set s.tokens p t } : BrainState T).held env p' +
      if p = p' then amount else 0 := by
  obtain ⟨-, hmoved⟩ := safeTransfer_ok h
  rw [held_set]
  by_cases hp : p' = p
  · rw [if_pos hp, if_pos hp.symm, hmoved, hp]
    exact le_moved_add ((env.token p).balanceOf (s.tokens p)) env.self staker env.self amount
  · rw [if_neg hp, if_neg (Ne.symm hp), Nat.add_zero]

end EscrowSteps

/-! ## What every step keeps -/

/-- The books agree, and the stakes are covered. -/
structure BrainInv {T : Type} (env : BrainNFTEnv T) (ps : List Pending) (w : BrainWorld T) :
    Prop where
  books : BooksInv env ps w.state.nft w.chronicle
  escrow : Escrowed env ps w.state

section Steps

open BrainNFT

variable {T : Type} {env : BrainNFTEnv T} {ps : List Pending} {s s' : BrainState T}
  {k : Chronicle} {nft' : BrainNFT} {q : Option Pending}

/-- Nothing is moved, and no record is rewritten. -/
theorem Escrowed.aside {ps' : List Pending} (h : Escrowed env ps s)
    (hstakes : nft'.stakes = s.nft.stakes)
    (howed : ∀ p, owedBy env ps' p = owedBy env ps p) :
    Escrowed env ps' { s with nft := nft' } := by
  intro p
  have hstaked : nft'.stakedIn env p = s.nft.stakedIn env p := by
    unfold stakedIn
    rw [hstakes]
  show nft'.stakedIn env p + _ ≤ s.held env p
  rw [hstaked, howed]
  exact h p

/-- A stake is no longer recorded, and owed. -/
theorem Escrowed.deactivated {blk : Block} {b : BrainId} (h : Escrowed env ps s)
    (hstakes : nft'.stakes = set s.nft.stakes b .empty) :
    Escrowed env (.paying blk b (s.nft.stakes b) :: ps) { s with nft := nft' } := by
  intro p
  have hset := @stakedIn_set _ env s.nft nft' b p .empty hstakes
  have hbefore := h p
  rw [inToken_empty] at hset
  show nft'.stakedIn env p + owedBy env (.paying blk b (s.nft.stakes b) :: ps) p ≤ s.held env p
  rw [owedBy_cons]
  show _ + ((s.nft.stakes b).inToken env p + _) ≤ _
  omega

/-- A stake is taken, and owed. -/
theorem Escrowed.funding {blk : Block} {staker : Address} {asset : StakeAsset} {amount : Nat}
    {t : T} (h : Escrowed env (.funding blk staker asset amount :: ps) s)
    (hstaker : staker ≠ env.self)
    (htoken : safeTransferFrom (env.token (env.stakeToken asset))
      (s.tokens (env.stakeToken asset)) env.self staker env.self amount = .ok t) :
    Escrowed env (.funded blk staker asset amount :: ps)
      { s with tokens := set s.tokens (env.stakeToken asset) t } := by
  intro p
  have hbefore := h p
  rw [owedBy_cons] at hbefore ⊢
  rw [held_funding hstaker htoken]
  have hnothing : Pending.owed env p (.funding blk staker asset amount) = 0 := rfl
  have howed : Pending.owed env p (.funded blk staker asset amount) =
    if env.stakeToken asset = p then amount else 0 := rfl
  show s.nft.stakedIn env p + _ ≤ _
  omega

/-- A stake that was owed is recorded. -/
theorem Escrowed.minted {blk : Block} {staker : Address} {asset : StakeAsset} {amount : Nat}
    {b : BrainId} (h : Escrowed env (.funded blk staker asset amount :: ps) s)
    (hstakes : nft'.stakes = set s.nft.stakes b (stakeRecord blk staker asset amount)) :
    Escrowed env (.received true :: ps) { s with nft := nft' } := by
  intro p
  have hset := @stakedIn_set _ env s.nft nft' b p _ hstakes
  have hle : (stakeRecord blk staker asset amount).inToken env p ≤
    if env.stakeToken asset = p then amount else 0 := inToken_le _
  have hbefore := h p
  rw [owedBy_cons] at hbefore ⊢
  have howed : Pending.owed env p (.funded blk staker asset amount) =
    if env.stakeToken asset = p then amount else 0 := rfl
  have hnothing : Pending.owed env p (.received true) = 0 := rfl
  show nft'.stakedIn env p + _ ≤ s.held env p
  omega

/-- A stake that was owed is refunded. -/
theorem Escrowed.paying {blk : Block} {b : BrainId} {record : StakeRecord} {t : T}
    (h : Escrowed env (.paying blk b record :: ps) s) (hasset : record.asset ≠ .none)
    (htoken : safeTransfer (env.token (env.stakeToken record.asset))
      (s.tokens (env.stakeToken record.asset)) env.self record.staker record.amount = .ok t) :
    Escrowed env (.paid :: ps)
      { s with tokens := set s.tokens (env.stakeToken record.asset) t } := by
  intro p
  have hheld := @held_paying _ _ s _ p _ _ _ htoken
  have hbefore := h p
  rw [owedBy_cons] at hbefore ⊢
  have howed : Pending.owed env p (.paying blk b record) =
    if env.stakeToken record.asset = p then record.amount else 0 := inToken_eq hasset
  have hnothing : Pending.owed env p .paid = 0 := rfl
  show s.nft.stakedIn env p + _ ≤ _
  omega

theorem BrainInv.enter {blk : Block} {caller : Address} {c : BrainNFTCall}
    (h : BrainInv env ps ⟨s, k⟩) (hcaller : caller ≠ env.self)
    (henter : c.enter blk caller s.nft = .ok (q, nft')) :
    BrainInv env (q.toList ++ ps) ⟨{ s with nft := nft' }, k⟩ := by
  obtain ⟨hbooks, hescrow⟩ := h
  cases enter_cases henter with
  | aside hq hsame =>
    -- a receiver may be called, but nothing is owed to anybody
    rcases hq with rfl | rfl
    · exact ⟨hbooks.aside hsame rfl hbooks.pending, hescrow.aside hsame.stakes fun _ => rfl⟩
    · refine ⟨hbooks.aside hsame rfl (List.forall_mem_cons.mpr ⟨trivial, hbooks.pending⟩), ?_⟩
      exact hescrow.aside hsame.stakes fun p => Nat.zero_add _
  | funding hasset hsame =>
    refine ⟨hbooks.aside hsame rfl (List.forall_mem_cons.mpr
      ⟨⟨hcaller, hasset⟩, hbooks.pending⟩), ?_⟩
    exact hescrow.aside hsame.stakes fun p => Nat.zero_add _
  | reserved hlow hnew =>
    exact ⟨hbooks.reserved hlow hnew, hescrow.aside rfl fun p => Nat.zero_add _⟩
  | deactivated hasset hlock howner hpos =>
    exact ⟨hbooks.deactivated hasset hlock howner hpos, hescrow.deactivated rfl⟩

theorem BrainInv.resume {pending : Pending} (h : BrainInv env (pending :: ps) ⟨s, k⟩)
    (hresume : pending.resume env s = .ok (q, s')) :
    BrainInv env (q.toList ++ ps) ⟨s', pending.chronicle env s s' k⟩ := by
  obtain ⟨hbooks, hescrow⟩ := h
  obtain ⟨hvalid, hpending⟩ := List.forall_mem_cons.mp hbooks.pending
  -- one case for each point at which a call waits for a token or a receiver
  cases pending with
  | funding blk staker asset amount =>
    simp only [Pending.resume, bind_ok, return_ok] at hresume
    obtain ⟨t, htoken, hpair⟩ := hresume
    obtain ⟨rfl, rfl⟩ := Prod.mk.inj hpair
    obtain ⟨hstaker, hasset⟩ := hvalid
    refine ⟨?_, hescrow.funding hstaker htoken⟩
    exact hbooks.aside ⟨fun _ => rfl, rfl, rfl, rfl⟩ rfl
      (List.forall_mem_cons.mpr ⟨⟨hstaker, hasset⟩, hpending⟩)
  | funded blk staker asset amount =>
    simp only [Pending.resume, bind_ok, return_ok] at hresume
    obtain ⟨⟨q', nft'⟩, hmint, hpair⟩ := hresume
    obtain ⟨rfl, rfl⟩ := Prod.mk.inj hpair
    obtain ⟨rfl, hroom, hnew, approvals, hnft'⟩ := mintStaked_ok hmint
    exact ⟨hbooks.minted hroom hnew hnft', hescrow.minted (by rw [hnft'])⟩
  | received guarded =>
    simp only [Pending.resume, return_ok] at hresume
    obtain ⟨rfl, rfl⟩ := Prod.mk.inj hresume
    have howed : ∀ p, owedBy env ps p = owedBy env (.received guarded :: ps) p :=
      fun p => (Nat.zero_add _).symm
    cases guarded with
    | true =>
      exact ⟨hbooks.aside ⟨fun _ => rfl, rfl, rfl, rfl⟩ rfl hpending, hescrow.aside rfl howed⟩
    | false =>
      exact ⟨hbooks.aside ⟨fun _ => rfl, rfl, rfl, rfl⟩ rfl hpending, hescrow.aside rfl howed⟩
  | paying blk b record =>
    simp only [Pending.resume, bind_ok, return_ok] at hresume
    obtain ⟨t, htoken, hpair⟩ := hresume
    obtain ⟨rfl, rfl⟩ := Prod.mk.inj hpair
    exact ⟨hbooks.paidOut (pays_refund htoken), hescrow.paying hvalid.1 htoken⟩
  | paid =>
    simp only [Pending.resume, return_ok] at hresume
    obtain ⟨rfl, rfl⟩ := Prod.mk.inj hresume
    refine ⟨hbooks.aside ⟨fun _ => rfl, rfl, rfl, rfl⟩ rfl hpending, ?_⟩
    exact hescrow.aside rfl fun p => (Nat.zero_add _).symm

theorem brainInv_kept : KeptByCode (BrainCode env) (BrainInv env) := by
  intro q w l q' w' ps hcode h
  cases hcode with
  | call hcaller henter => exact h.enter hcaller henter
  | resume hresume => exact h.resume hresume
  | elsewhere hheld =>
    refine ⟨h.books, ?_⟩
    intro p
    exact (h.escrow p).trans (hheld p)

end Steps

/-! ## The escrow of the NFT -/

section Main

open BrainNFT

variable {T : Type} {env : BrainNFTEnv T} {ps : List Pending} {nft : BrainNFT} {k : Chronicle}

/-- The number of Brains. -/
theorem sum_present (nft : BrainNFT) :
    ∑ b, nft.present b = (Finset.univ.filter fun b => nft.owners b ≠ none).card := by
  rw [Finset.card_filter]
  apply Finset.sum_congr rfl
  intro b _
  unfold present
  simp only [Option.isSome_iff_ne_none]

/-- There are at most as many Brains as ids. -/
theorem BooksInv.card_le (h : BooksInv env ps nft k) :
    (Finset.univ.filter fun b => nft.owners b ≠ none).card ≤ MAX_SUPPLY := by
  rw [← Finset.card_range MAX_SUPPLY]
  apply Finset.card_le_card_of_injOn (fun b : BrainId => b.val)
  · intro b hb
    have hexists := (Finset.mem_filter.mp hb).2
    exact Finset.mem_coe.mpr (Finset.mem_range.mpr ((h.below b hexists).trans_le h.le_max))
  · exact Fin.val_injective.injOn

theorem brainInv_deploy (pepecoinStake basedStake : Nat) (governance : Address)
    (tokens : Address → T) :
    BrainInv env [] (.deploy pepecoinStake basedStake governance tokens) where
  books := booksInv_deploy _ _ _
  escrow := escrowed_deploy _ _ _ _

theorem BrainInv.run {pepecoinStake basedStake : Nat} {governance : Address}
    {tokens : Address → T} {c : Config (BrainWorld T) Pending} {ls : List (Option BrainLabel)}
    (h : Run (BrainStep env) ⟨.deploy pepecoinStake basedStake governance tokens, []⟩ ls c) :
    BrainInv env (pendings c.frames) c.state :=
  (Holds.run brainInv_kept h (brainInv_deploy _ _ _ _)).now

end Main

/-- **The supply and the stakes.** Whatever is called, by whom, and from inside which other
call, and whatever reverts: the supply is the number of Brains, at most 64; their ids are
below 64, and those from 7 on are handed out in increasing order and never again; a Brain
has a stake just if its id is one of these; the NFT holds every stake it has recorded; and
a stake is paid out once, which moves the recorded amount of the recorded asset from the NFT
to the staker and nothing else, 90 days after its mint or later. -/
theorem brain_escrow {T : Type} {env : BrainNFTEnv T} {pepecoinStake basedStake : Nat}
    {governance : Address} {tokens : Address → T} {c : Config (BrainWorld T) Pending}
    {ls : List (Option BrainLabel)}
    (h : Run (BrainStep env) ⟨.deploy pepecoinStake basedStake governance tokens, []⟩ ls c) :
    let s := c.state.state
    let k := c.state.chronicle
    (s.nft.totalSupply = (Finset.univ.filter fun b => s.nft.owners b ≠ none).card ∧
      s.nft.totalSupply ≤ 64) ∧
    (∀ b, s.nft.owners b ≠ none → b.val < 64) ∧
    ((k.minted.map StakeMint.brainId).Pairwise (· > ·) ∧
      (∀ m ∈ k.minted, 7 ≤ m.brainId.val) ∧
      (∀ b, s.nft.owners b ≠ none → 7 ≤ b.val → b ∈ k.minted.map StakeMint.brainId) ∧
      ∀ d ∈ k.paid, s.nft.owners d.brainId = none) ∧
    ((∀ b, s.nft.owners b ≠ none → 7 ≤ b.val → (s.nft.stakes b).asset ≠ .none) ∧
      ∀ b, b.val < 7 → (s.nft.stakes b).asset = .none) ∧
    (∀ p, ∑ b, (s.nft.stakes b).inToken env p ≤ (env.token p).balanceOf (s.tokens p) env.self) ∧
    (k.paid.map StakePayout.brainId).Nodup ∧
    (∀ d ∈ k.paid, ∃ m ∈ k.minted, m.brainId = d.brainId ∧ m.record.staker ≠ env.self ∧
      d.Pays env m.record ∧ m.time + 90 * 24 * 60 * 60 ≤ d.time) ∧
    ∀ b, (s.nft.stakes b).asset ≠ .none →
      ∃ m ∈ k.minted, m.brainId = b ∧ m.record = s.nft.stakes b := by
  intro s k
  -- everything is read off the invariant of the run
  obtain ⟨hbooks, hescrow⟩ := BrainInv.run h
  refine ⟨⟨?_, ?_⟩, ?_, ⟨hbooks.increasing, ?_, ?_, ?_⟩, ⟨hbooks.staked, ?_⟩, ?_, ?_, ?_,
    hbooks.recorded⟩
  · rw [hbooks.supply]
    exact sum_present _
  · rw [hbooks.supply, sum_present]
    exact hbooks.card_le
  · intro b hb
    exact (hbooks.below b hb).trans_le hbooks.le_max
  · intro m hm
    exact (hbooks.minted_range m hm).1
  · intro b hb hfirst
    obtain ⟨m, hm, hbrain, -⟩ := hbooks.recorded b (hbooks.staked b hb hfirst)
    exact List.mem_map.mpr ⟨m, hm, hbrain⟩
  · intro d hd
    exact hbooks.burned _ (List.mem_append_right _ (List.mem_map.mpr ⟨d, hd, rfl⟩))
  · intro b hlow
    by_contra hasset
    exact absurd (hbooks.exists_of_staked b hasset).2 (Nat.not_le_of_lt hlow)
  · intro p
    exact (Nat.le_add_right _ _).trans (hescrow p)
  · exact (List.nodup_append.mp hbooks.once).2.1
  · intro d hd
    obtain ⟨m, hm, hbrain, hpays, hlock⟩ := hbooks.paid d hd
    rw [hbooks.locked m hm] at hlock
    exact ⟨m, hm, hbrain, hbooks.outside m hm, hpays, hlock⟩

/-! ### Runs, computed -/

section Computed

variable {T : Type} (env : BrainNFTEnv T)

/-- The step with a label, where there is one. -/
def advance (c : Config (BrainWorld T) Pending) :
    BrainLabel → Option (Config (BrainWorld T) Pending)
  | .call blk caller call =>
    if caller = env.self then none
    else match call.enter blk caller c.state.state.nft with
      | .error _ => none
      | .ok (none, nft) =>
        some ⟨{ c.state with state := { c.state.state with nft := nft } }, c.frames⟩
      | .ok (some p, nft) =>
        some ⟨{ c.state with state := { c.state.state with nft := nft } },
          ⟨c.state, some p⟩ :: c.frames⟩
  | .resumed =>
    match c.frames with
    | ⟨found, some p⟩ :: frames =>
      match p.resume env c.state.state with
      | .error _ => none
      | .ok (none, s) =>
        some ⟨⟨s, p.chronicle env c.state.state s c.state.chronicle⟩, frames⟩
      | .ok (some p', s) =>
        some ⟨⟨s, p.chronicle env c.state.state s c.state.chronicle⟩,
          ⟨found, some p'⟩ :: frames⟩
    | _ => none
  | .elsewhere => none

variable {env} {c c' : Config (BrainWorld T) Pending}

theorem advance_step {l : BrainLabel} (h : advance env c l = some c') :
    BrainStep env c (some l) c' := by
  obtain ⟨w, frames⟩ := c
  -- what `advance` computes is one step of the relation
  cases l with
  | call blk caller call =>
    unfold advance at h
    dsimp only at h
    split at h
    case isTrue => cases h
    case isFalse hcaller =>
      split at h
      · cases h
      · next henter =>
        cases h
        exact .plain (.call hcaller henter)
      · next henter =>
        cases h
        exact .enter (.call hcaller henter)
  | resumed =>
    unfold advance at h
    dsimp only at h
    split at h
    · split at h
      · cases h
      · next hresume =>
        cases h
        exact .leave (.resume hresume)
      · next hresume =>
        cases h
        exact .resume (.resume hresume)
    · cases h
  | elsewhere => cases h

theorem advance_run {ls : List BrainLabel} (h : ls.foldlM (advance env) c = some c') :
    Run (BrainStep env) c (ls.map some) c' := by
  induction ls generalizing c with
  | nil =>
    obtain rfl : c = c' := Option.some.inj h
    exact .nil c
  | cons l ls ih =>
    obtain ⟨c₁, hstep, hrest⟩ := Option.bind_eq_some_iff.mp h
    exact .cons (advance_step hstep) (ih hrest)

end Computed

/-- Two tokens, and the NFT between them. -/
def toyBrainEnv : BrainNFTEnv Ledger := ⟨11, 12, 9, fun _ => ledgerToken⟩

def toyBrains : BrainWorld Ledger := .deploy 100 200 1 fun _ => toyLedger

def toyMint : Block := toyBlockAt 60
def toyUnlock : Block := toyBlockAt (60 + 90 * 24 * 60 * 60)

/-- Account 5 stakes for Brain 7. While it acknowledges it, account 1 mints Brain 0; and
after 90 days the stake is taken back. -/
def toyStaking : List BrainLabel :=
  [.call toyMint 5 .mintByPepecoinStake, .resumed, .resumed,
    .call toyMint 1 (.mintReserved 6 0), .resumed, .resumed,
    .call toyUnlock 5 (.deactivateAndUnstake 7), .resumed, .resumed]

/-- What `d` says of the accounts `accounts` in the token at `p`. -/
def StakePayout.seen (p : Address) (accounts : List Address) (d : StakePayout) :
    BrainId × List (Nat × Nat) :=
  (d.brainId, accounts.map fun a => (d.before p a, d.after p a))

/-- Brain 0 is left, and the stake has gone from the NFT back to account 5. -/
theorem brain_escrow_unstaked : ∃ ls c,
    Run (BrainStep toyBrainEnv) ⟨toyBrains, []⟩ ls c ∧ c.state.state.nft.totalSupply = 1 ∧
      c.state.chronicle.paid.map (StakePayout.seen 11 [9, 5]) =
        [(7, [(5100, 5000), (4900, 5000)])] ∧
      (c.state.chronicle.paid.map StakePayout.brainId).Nodup ∧
      ∀ d ∈ c.state.chronicle.paid, ∃ m ∈ c.state.chronicle.minted,
        m.brainId = d.brainId ∧ m.record.staker ≠ 9 ∧ d.Pays toyBrainEnv m.record ∧
        m.time + 90 * 24 * 60 * 60 ≤ d.time := by
  have hrun : ((toyStaking.foldlM (advance toyBrainEnv) ⟨toyBrains, []⟩).map fun c =>
      (c.state.state.nft.totalSupply,
        c.state.chronicle.paid.map (StakePayout.seen 11 [9, 5]))) =
      some (1, [(7, [(5100, 5000), (4900, 5000)])]) := by
    decide +kernel
  obtain ⟨c, hc, hpair⟩ := Option.map_eq_some_iff.mp hrun
  obtain ⟨hsupply, hpaid⟩ := Prod.mk.inj hpair
  obtain ⟨-, -, -, -, -, honce, hpays, -⟩ := brain_escrow (advance_run hc)
  exact ⟨_, c, advance_run hc, hsupply, hpaid, honce, hpays⟩

end BasedAI
