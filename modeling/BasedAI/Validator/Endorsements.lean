import BasedAI.Lib.Buckets
import BasedAI.Lib.WeightedQuorum
import BasedAI.Validator.RootSpellings

/-!
# BasedAI — what the commitment aggregator has collected

An endorsement is a commitment that `add_commitment` took: a root in some spelling, and an
account whose signature on it was recovered. The aggregator's store is a function of the
endorsements, in their order, and so is everything it reads from the store.

* `addAll_eq`      — the store after a sequence of calls;
* `bestRoot_eq`    — the root it tries is the leading spelling;
* `quorumMet_eq`   — it meets the quorum when those who endorsed that spelling hold it;
* `assemble_eq`    — the signers, in ascending order, with their last signatures;
* `nextProposal_eq` — what is proposed.
-/

namespace BasedAI

open Fallible Python ByteWords Buckets WeightedQuorum CommitmentAggregator

/-! ## Endorsements -/

structure Endorsement where
  epoch : Int
  brainId : Int
  /-- the text the root is kept under -/
  spelling : Text
  root : Bytes32
  signer : Address
  /-- the signature as it is kept -/
  signature : Text
  deriving DecidableEq

/-- The key an endorsement is kept under. -/
def Endorsement.key (v : Endorsement) : Int × Int × Text := (v.epoch, v.brainId, v.spelling)

section Calls

variable (o : Offchain) (domain : CommitmentDomain)

/-- What a call adds, if it adds anything. -/
def endorsementOf (c : CommitmentCall) : Option Endorsement := do
  let root ← c.root.asRootBytes.toOption
  let commitment ← (encodeCommitment domain c.epoch c.brainId root).toOption
  let signature ← (hexBytes c.signature).toOption
  let signer ← o.recoverMessage (o.crypto.messageDigest (commitment.preimage o.crypto)) signature
  if lower o.unicode (toChecksum o.crypto signer) = lower o.unicode c.signer then
    return {
      epoch := c.epoch
      brainId := c.brainId
      spelling := c.root.normalize o.unicode
      root := root
      signer := signer
      signature := withPrefix c.signature }
  else none

/-- What a sequence of calls adds, in their order. -/
def endorsements (calls : List CommitmentCall) : List Endorsement :=
  calls.filterMap (endorsementOf o domain)

/-- Keep the signature of an endorsement. -/
def addSignature (signatures : Signatures) (v : Endorsement) : Signatures :=
  dictSet (toChecksum o.crypto v.signer) v.signature signatures

/-- The aggregator that has collected these endorsements, and proposed nothing. -/
def collected (votes : List Endorsement) : CommitmentAggregator where
  minQuorumBps := 5001
  pending := collect Endorsement.key (addSignature o) [] votes
  proposed := []

variable {o domain} {c : CommitmentCall} {v : Endorsement} {agg : CommitmentAggregator}

theorem endorsementOf_some (h : endorsementOf o domain c = some v) :
    c.root.asRootBytes = .ok v.root ∧
      recoverSigner o domain c = .ok (toChecksum o.crypto v.signer) ∧
      lower o.unicode (toChecksum o.crypto v.signer) = lower o.unicode c.signer ∧
      v.epoch = c.epoch ∧ v.brainId = c.brainId ∧ v.spelling = c.root.normalize o.unicode ∧
      v.signature = withPrefix c.signature := by
  unfold endorsementOf at h
  simp only [Option.bind_eq_bind, Option.bind_eq_some_iff, toOption_ok, Option.pure_def] at h
  obtain ⟨root, hroot, commitment, hcommitment, signature, hsignature, signer, hsigner, h⟩ := h
  -- the claimed signer is compared lowered
  split at h
  case isFalse => cases h
  case isTrue hclaimed =>
    obtain rfl := Option.some.inj h
    refine ⟨hroot, ?_, hclaimed, rfl, rfl, rfl, rfl⟩
    unfold recoverSigner recoverCommitmentSigner
    simp only [bind_ok, orRevert_ok, return_ok]
    exact ⟨root, hroot, commitment, hcommitment, signature, hsignature, signer, hsigner, rfl⟩

theorem endorsementOf_none (h : endorsementOf o domain c = none) {recovered : Text}
    (hrecovered : recoverSigner o domain c = .ok recovered) :
    lower o.unicode recovered ≠ lower o.unicode c.signer := by
  unfold recoverSigner recoverCommitmentSigner at hrecovered
  simp only [bind_ok, orRevert_ok, return_ok] at hrecovered
  obtain ⟨root, hroot, commitment, hcommitment, signature, hsignature, signer, hsigner, rfl⟩ :=
    hrecovered
  intro hclaimed
  unfold endorsementOf at h
  rw [hroot] at h
  simp only [Option.bind_eq_bind, Except.toOption, Option.bind_some, hcommitment, hsignature,
    hsigner, if_pos hclaimed] at h
  cases h

/-- A call that adds an endorsement keeps its signature, under its key. -/
theorem addCommitment_some (h : endorsementOf o domain c = some v) :
    agg.addCommitment o domain c =
      ({ agg with
        pending := dictSet v.key (addSignature o ((dictGet v.key agg.pending).getD []) v)
          agg.pending }, .ok true) := by
  obtain ⟨-, hrecovered, hclaimed, hepoch, hbrain, hspelling, hsignature⟩ := endorsementOf_some h
  -- what is recovered is checksummed already
  have hchecksum : toChecksumAddress o.crypto (.str (toChecksum o.crypto v.signer)) =
      .ok (toChecksum o.crypto v.signer) := by
    rw [toChecksumAddress, hexAddress_toChecksum]
    rfl
  have hkey : keyOf o.unicode c.epoch c.brainId c.root = v.key := by
    rw [Endorsement.key, hepoch, hbrain, hspelling]
    rfl
  unfold addCommitment store addSignature
  rw [hrecovered]
  dsimp only
  rw [if_neg (not_not.mpr hclaimed), hchecksum, hkey, hsignature]

/-- Any other call changes nothing, and does not return `True`. -/
theorem addCommitment_none (h : endorsementOf o domain c = none) :
    (agg.addCommitment o domain c).1 = agg ∧ (agg.addCommitment o domain c).2 ≠ .ok true := by
  unfold addCommitment
  split
  case h_1 => exact ⟨rfl, fun heq => nomatch heq⟩
  case h_2 recovered hrecovered =>
    rw [if_pos (endorsementOf_none h hrecovered)]
    exact ⟨rfl, fun heq => nomatch heq⟩

/-- **The store after a sequence of calls.** -/
theorem addAll_eq (calls : List CommitmentCall) :
    CommitmentAggregator.empty.addAll o domain calls =
      collected o (endorsements o domain calls) := by
  -- from the right: the last call acts on what the others collected
  induction calls using List.reverseRecOn with
  | nil => rfl
  | append_singleton calls c ih =>
    have hstep : CommitmentAggregator.empty.addAll o domain (calls ++ [c]) =
        ((CommitmentAggregator.empty.addAll o domain calls).addCommitment o domain c).1 := by
      rw [addAll, List.foldl_append]
      rfl
    have hall : endorsements o domain (calls ++ [c]) =
        endorsements o domain calls ++ (endorsementOf o domain c).toList := by
      rw [endorsements, List.filterMap_append]
      cases hc : endorsementOf o domain c with
      | none => rw [List.filterMap_cons_none hc]; rfl
      | some v => rw [List.filterMap_cons_some hc]; rfl
    rw [hstep, ih, hall]
    cases hc : endorsementOf o domain c with
    | none =>
      rw [(addCommitment_none hc).1, Option.toList_none, List.append_nil]
    | some v =>
      rw [addCommitment_some hc, Option.toList_some, collected, collected, collect_concat]

end Calls

/-! ## What is read from the store -/

section Reading

variable {o : Offchain} {vault : StakingVault} {epoch : Int} {b : BrainId}
  {votes : List Endorsement}

/-- The endorsements of an (epoch, Brain). -/
def endorsementsFor (epoch : Int) (b : BrainId) (votes : List Endorsement) : List Endorsement :=
  votes.filter fun v => v.epoch = epoch ∧ v.brainId = b.val

/-- Those who endorsed a root under a spelling. -/
def signersUnder (votes : List Endorsement) (t : Text) : List Address :=
  ((votes.filter fun v => v.spelling = t).map Endorsement.signer).dedup

/-- The last signature an account handed in under a spelling. -/
def lastSignature (votes : List Endorsement) (t : Text) (a : Address) : Text :=
  ((votes.filter fun v => v.spelling = t ∧ v.signer = a).map Endorsement.signature).getLastD []

/-- What those who endorsed a spelling have at stake. -/
def backing (vault : StakingVault) (b : BrainId) (votes : List Endorsement) (t : Text) : Nat :=
  weightOf (vault.validatorStake b) (signersUnder votes t)

/-- No spelling that was endorsed has more backing. -/
def Leads (vault : StakingVault) (b : BrainId) (votes : List Endorsement) (t : Text) : Prop :=
  ∀ v ∈ votes, backing vault b votes v.spelling ≤ backing vault b votes t

instance : DecidablePred (Leads vault b votes) := fun t =>
  inferInstanceAs (Decidable (∀ v ∈ votes,
    backing vault b votes v.spelling ≤ backing vault b votes t))

/-- The first spelling that leads. -/
def leading (vault : StakingVault) (b : BrainId) (votes : List Endorsement) : Option Text :=
  (votes.map Endorsement.spelling).find? (Leads vault b votes)

/-- The signatures kept under a spelling. -/
def kept (o : Offchain) (votes : List Endorsement) (t : Text) : Signatures :=
  collect (fun v => toChecksum o.crypto v.signer) (fun _ v => v.signature) []
    (votes.filter fun v => v.spelling = t)

theorem signersOf_collected (root : RootArg) :
    (collected o votes).signersOf o.unicode epoch b.val root =
      kept o (endorsementsFor epoch b votes) (root.normalize o.unicode) := by
  have hfilter : (votes.filter fun v => v.key = keyOf o.unicode epoch b.val root) =
      (endorsementsFor epoch b votes).filter fun v => v.spelling = root.normalize o.unicode := by
    rw [endorsementsFor, List.filter_filter]
    apply List.filter_congr
    intro v _
    simp only [Endorsement.key, keyOf, Prod.mk.injEq, ← Bool.decide_and]
    apply decide_eq_decide.mpr
    tauto
  unfold signersOf collected
  rw [dictGet_collect, hfilter]
  rfl

/-- The roots there are signatures for are the spellings that were endorsed, in this order. -/
theorem rootsOf_find (q : Text → Bool) :
    ((collected o votes).rootsOf epoch b.val).find? q =
      ((endorsementsFor epoch b votes).map Endorsement.spelling).find? q := by
  -- the first key that fits is that of the first endorsement that does
  have hkeys := @find_collect _ _ _ _ Endorsement.key (addSignature o) [] votes fun k =>
    decide (decide (k.1 = epoch ∧ k.2.1 = b.val) = true ∧ q k.2.2 = true)
  unfold rootsOf collected endorsementsFor
  rw [List.find?_map, List.find?_filter, List.find?_map, List.find?_filter]
  rw [List.find?_map, List.find?_map] at hkeys
  have hlast := congrArg (Option.map fun k => k.2.2) hkeys
  rw [Option.map_map, Option.map_map] at hlast
  exact hlast

/-! ### Signers -/

theorem toChecksum_inj {crypto : Crypto} {a a' : Address}
    (h : toChecksum crypto a = toChecksum crypto a') : a = a' := by
  have hsome := hexAddress_toChecksum crypto a
  rw [h, hexAddress_toChecksum] at hsome
  exact (Option.some.inj hsome).symm

theorem mem_signersUnder {votes : List Endorsement} {t : Text} {a : Address} :
    a ∈ signersUnder votes t ↔ ∃ v ∈ votes, v.spelling = t ∧ v.signer = a := by
  unfold signersUnder
  rw [List.mem_dedup, List.mem_map]
  -- a signer is someone with an endorsement under the spelling
  constructor
  · rintro ⟨v, hv, rfl⟩
    obtain ⟨hmem, ht⟩ := List.mem_filter.mp hv
    exact ⟨v, hmem, of_decide_eq_true ht, rfl⟩
  · rintro ⟨v, hmem, ht, rfl⟩
    exact ⟨v, List.mem_filter.mpr ⟨hmem, decide_eq_true ht⟩, rfl⟩

/-- The keys are the checksummed addresses of the signers. -/
theorem keys_kept_perm (o : Offchain) (votes : List Endorsement) (t : Text) :
    ((kept o votes t).map Prod.fst).Perm ((signersUnder votes t).map (toChecksum o.crypto)) := by
  have hnodup : ((signersUnder votes t).map (toChecksum o.crypto)).Nodup :=
    (List.nodup_dedup _).map fun a a' h => toChecksum_inj h
  -- both lists are without repetition and have the same elements
  apply (List.perm_ext_iff_of_nodup nodup_collect hnodup).mpr
  intro key
  rw [mem_keys_collect, List.mem_map]
  constructor
  · rintro ⟨v, hv, rfl⟩
    obtain ⟨hmem, ht⟩ := List.mem_filter.mp hv
    exact ⟨v.signer, mem_signersUnder.mpr ⟨v, hmem, of_decide_eq_true ht, rfl⟩, rfl⟩
  · rintro ⟨a, ha, rfl⟩
    obtain ⟨v, hmem, ht, rfl⟩ := mem_signersUnder.mp ha
    exact ⟨v, List.mem_filter.mpr ⟨hmem, decide_eq_true ht⟩, rfl⟩

/-- The signature kept for a signer is the last it handed in. -/
theorem dictGet_kept {votes : List Endorsement} {t : Text} {a : Address}
    (h : a ∈ signersUnder votes t) :
    dictGet (toChecksum o.crypto a) (kept o votes t) = some (lastSignature votes t a) := by
  have hkey : toChecksum o.crypto a ∈ (kept o votes t).map Prod.fst :=
    (keys_kept_perm o votes t).mem_iff.mpr (List.mem_map.mpr ⟨a, h, rfl⟩)
  obtain ⟨signature, hsignature⟩ := exists_dictGet hkey
  -- one key is one signer, since a checksummed address is read back
  have hfilter : ((votes.filter fun v => v.spelling = t).filter fun v =>
      toChecksum o.crypto v.signer = toChecksum o.crypto a) =
      votes.filter fun v => v.spelling = t ∧ v.signer = a := by
    rw [List.filter_filter]
    apply List.filter_congr
    intro v _
    rw [← Bool.decide_and]
    apply decide_eq_decide.mpr
    exact ⟨fun h => ⟨h.2, toChecksum_inj h.1⟩, fun h => ⟨congrArg _ h.2, h.1⟩⟩
  have hbucket := @dictGet_collect _ _ _ _ (fun v : Endorsement => toChecksum o.crypto v.signer)
    (fun _ v => v.signature) [] (votes.filter fun v => v.spelling = t) (toChecksum o.crypto a)
  rw [foldl_last, hfilter] at hbucket
  have hlast : signature = lastSignature votes t a := by
    unfold kept at hsignature
    rw [hsignature] at hbucket
    exact hbucket
  rw [hsignature, hlast]

/-- The signers in ascending order. -/
def sortedSigners (votes : List Endorsement) (t : Text) : List Address :=
  (signersUnder votes t).insertionSort fun a a' => a ≤ a'

/-- The digits of bytes, read as one number. -/
theorem foldl_hexDigit {t : Text} {bytes : Bytes} (h : unhexlify t = some bytes) (acc : Nat) :
    t.foldl (fun n c => 16 * n + (hexDigit c).getD 0) acc =
      acc * 256 ^ bytes.length + spelled bytes := by
  induction t using unhexlify.induct generalizing bytes acc with
  | case1 =>
    obtain rfl : [] = bytes := Option.some.inj h
    rw [List.length_nil, Nat.pow_zero, Nat.mul_one]
    rfl
  | case2 c => exact absurd h (by simp [unhexlify])
  | case3 hi lo rest ih =>
    simp only [unhexlify, hexByte, Option.bind_eq_bind, Option.bind_eq_some_iff,
      Option.pure_def, Option.some.injEq] at h
    obtain ⟨byte, ⟨m, hhi, n, hlo, rfl⟩, tail, htail, rfl⟩ := h
    have hm : m < 16 := hexDigit_lt hhi
    have hn : n < 16 := hexDigit_lt hlo
    have hbyte : spelled [UInt8.ofNat (16 * m + n)] = 16 * m + n := by
      show 0 * 256 + (16 * m + n) % 256 = 16 * m + n
      omega
    -- two digits are one byte, most significant first
    have hsplit := spelled_append [UInt8.ofNat (16 * m + n)] tail
    rw [hbyte] at hsplit
    rw [List.foldl_cons, List.foldl_cons, hhi, hlo, ih htail, ← List.singleton_append, hsplit,
      List.length_append, List.length_singleton, Nat.pow_add]
    dsimp only [Option.getD_some]
    ring

theorem hexInt_toChecksum (crypto : Crypto) (a : Address) :
    hexInt (toChecksum crypto a) = a.val := by
  -- twenty bytes hold the address
  have ha : a.val < 256 ^ 20 := a.isLt.trans_eq two_pow_160
  unfold hexInt toChecksum
  rw [remove0xPrefix_text_0x, foldl_hexDigit (unhexlify_checksumDigits crypto a),
    spelled_bigEndian ha, Nat.zero_mul, Nat.zero_add]

/-- The keys in the order of their numbers. -/
theorem sort_keys_kept (votes : List Endorsement) (t : Text) :
    ((kept o votes t).map Prod.fst).insertionSort (fun s s' => hexInt s ≤ hexInt s') =
      (sortedSigners votes t).map (toChecksum o.crypto) := by
  have htotal : Std.Total fun s s' : Text => hexInt s ≤ hexInt s' := ⟨fun _ _ => le_total _ _⟩
  have htrans : IsTrans Text fun s s' => hexInt s ≤ hexInt s' := ⟨fun _ _ _ => le_trans⟩
  have hperm := keys_kept_perm o votes t
  -- both are sorted, of the same keys
  apply List.Perm.eq_of_pairwise _ (List.pairwise_insertionSort _ _) _
    ((List.perm_insertionSort _ _).trans
      (hperm.trans ((List.perm_insertionSort _ _).symm.map _)))
  · -- two keys with one number are one key
    intro s s' hs hs' hle hge
    rw [List.mem_insertionSort, hperm.mem_iff] at hs
    obtain ⟨a, -, rfl⟩ := List.mem_map.mp hs
    obtain ⟨a', -, rfl⟩ := List.mem_map.mp hs'
    rw [hexInt_toChecksum, hexInt_toChecksum] at hle hge
    rw [Fin.ext (Nat.le_antisymm hle hge)]
  · rw [List.pairwise_map]
    apply (List.pairwise_insertionSort _ _).imp
    intro a a' hle
    rw [hexInt_toChecksum, hexInt_toChecksum]
    exact hle

/-- **The signers, in ascending order, with their last signatures.** -/
theorem assemble_eq (root : RootArg) :
    (collected o votes).assemble o.unicode epoch b.val root =
      .ok ((sortedSigners (endorsementsFor epoch b votes) (root.normalize o.unicode)).map
          (toChecksum o.crypto),
        (sortedSigners (endorsementsFor epoch b votes) (root.normalize o.unicode)).map
          (lastSignature (endorsementsFor epoch b votes) (root.normalize o.unicode))) := by
  generalize hvotes : endorsementsFor epoch b votes = ours
  generalize ht : root.normalize o.unicode = t
  -- every sorted key is in the dictionary it came from
  have hsignatures : ((sortedSigners ours t).map (toChecksum o.crypto)).mapM
      (fun key => orRaise .keyError (dictGet key (kept o ours t))) =
      .ok ((sortedSigners ours t).map (lastSignature ours t)) := by
    rw [List.mapM_map]
    apply mapM_ok
    intro a ha
    rw [Function.comp_apply, dictGet_kept ((List.mem_insertionSort _).mp ha)]
    rfl
  unfold assemble
  rw [signersOf_collected, hvotes, ht]
  dsimp only
  rw [sort_keys_kept, hsignatures]
  rfl

/-! ### Stakes -/

theorem stakeOf_toChecksum (crypto : Crypto) (vault : StakingVault) (b : BrainId) (a : Address) :
    (chainStakes crypto vault).stakeOf b.val (toChecksum crypto a) =
      .ok (vault.validatorStake b a) := by
  have hchecksum : toChecksumAddress crypto (.str (toChecksum crypto a)) =
      .ok (toChecksum crypto a) := by
    rw [toChecksumAddress, hexAddress_toChecksum]
    rfl
  unfold chainStakes
  dsimp only
  rw [hchecksum, encodeUint_eq b.isLt]
  simp only [ok_bind]
  rw [encodeAddress_toChecksum]
  rfl

theorem totalStake_eq (crypto : Crypto) (vault : StakingVault) (b : BrainId) :
    (chainStakes crypto vault).totalStake b.val = .ok (vault.brainStake b) := by
  unfold chainStakes
  dsimp only
  rw [encodeUint_eq b.isLt]
  rfl

/-- The stake behind a root is that of those who endorsed its spelling. -/
theorem backingStake_eq (root : RootArg) :
    (collected o votes).backingStake o.unicode (chainStakes o.crypto vault) epoch b.val root =
      .ok (backing vault b (endorsementsFor epoch b votes) (root.normalize o.unicode)) := by
  generalize hvotes : endorsementsFor epoch b votes = ours
  generalize ht : root.normalize o.unicode = t
  have hkeys := keys_kept_perm o ours t
  -- every key is that of a signer, so every stake is read
  have hheld : (kept o ours t).mapM
      (fun s => (chainStakes o.crypto vault).stakeOf b.val s.1) =
      .ok ((kept o ours t).map fun s =>
        (((hexAddress s.1).map (vault.validatorStake b)).getD 0 : Int)) := by
    apply mapM_ok
    intro s hs
    obtain ⟨a, -, ha⟩ := List.mem_map.mp (hkeys.subset (List.mem_map.mpr ⟨s, hs, rfl⟩))
    rw [← ha, stakeOf_toChecksum, hexAddress_toChecksum]
    rfl
  -- a sum of stakes does not depend on the order of the keys
  have hsum : ((kept o ours t).map fun s =>
      (((hexAddress s.1).map (vault.validatorStake b)).getD 0 : Int)).sum =
      backing vault b ours t := by
    have hperm := hkeys.map fun key =>
      (((hexAddress key).map (vault.validatorStake b)).getD 0 : Int)
    rw [List.map_map, List.map_map] at hperm
    have hstakes : ((fun key => (((hexAddress key).map (vault.validatorStake b)).getD 0 : Int)) ∘
        toChecksum o.crypto) = fun a => (vault.validatorStake b a : Int) := by
      funext a
      rw [Function.comp_apply, hexAddress_toChecksum]
      rfl
    have heq := hperm.sum_eq
    rw [hstakes] at heq
    rw [backing, weightOf, Nat.cast_list_sum, List.map_map]
    exact heq
  unfold backingStake
  rw [signersOf_collected, hvotes, ht, hheld, ← hsum]
  rfl

/-- The contract's quorum. -/
def HasQuorum (vault : StakingVault) (b : BrainId) (signers : List Address) : Prop :=
  vault.brainStake b ≠ 0 ∧
    (vault.brainStake b * ScoringRegistry.MIN_QUORUM_BPS + 9999) / 10000 ≤
      weightOf (vault.validatorStake b) signers

instance (signers : List Address) : Decidable (HasQuorum vault b signers) :=
  inferInstanceAs (Decidable (_ ∧ _))

/-- **The aggregator counts the contract's quorum.** -/
theorem quorumMet_eq (root : RootArg) :
    (collected o votes).quorumMet o.unicode (chainStakes o.crypto vault) epoch b.val root =
      .ok (decide (HasQuorum vault b
        (signersUnder (endorsementsFor epoch b votes) (root.normalize o.unicode)))) := by
  unfold quorumMet
  rw [totalStake_eq, backingStake_eq]
  simp only [ok_bind]
  -- without stake on the Brain the aggregator answers `False`, where the contract reverts
  by_cases htotal : vault.brainStake b = 0
  · have hnone : ¬ HasQuorum vault b
        (signersUnder (endorsementsFor epoch b votes) (root.normalize o.unicode)) :=
      fun h => h.1 htotal
    rw [if_pos (by exact_mod_cast htotal), decide_eq_false hnone]
    rfl
  · rw [if_neg (by exact_mod_cast htotal)]
    apply congrArg Except.ok
    apply decide_eq_decide.mpr
    unfold HasQuorum collected ScoringRegistry.MIN_QUORUM_BPS backing
    dsimp only
    omega

/-! ### The root that is tried -/

theorem mem_rootsOf {t : Text} : t ∈ (collected o votes).rootsOf epoch b.val ↔
    ∃ v ∈ endorsementsFor epoch b votes, v.spelling = t := by
  rw [mem_iff_of_find rootsOf_find, List.mem_map]

/-- **The root that is tried is the leading spelling.** -/
theorem bestRoot_eq (hkept : ∀ v ∈ votes, lower o.unicode v.spelling = v.spelling) :
    (collected o votes).bestRoot o.unicode (chainStakes o.crypto vault) epoch b.val =
      .ok (leading vault b (endorsementsFor epoch b votes)) := by
  have hbacked : ((collected o votes).rootsOf epoch b.val).mapM (fun r => do
      let backing ← (collected o votes).backingStake o.unicode (chainStakes o.crypto vault) epoch
        b.val (.str r)
      return (r, backing)) =
      .ok (((collected o votes).rootsOf epoch b.val).map fun r =>
        (r, (backing vault b (endorsementsFor epoch b votes) r : Int))) := by
    apply mapM_ok
    intro r hr
    -- what is a key was kept lowered
    obtain ⟨v, hv, rfl⟩ := mem_rootsOf.mp hr
    have hnormal : (RootArg.str v.spelling).normalize o.unicode = v.spelling :=
      hkept v (List.mem_filter.mp hv).1
    rw [backingStake_eq, hnormal]
    rfl
  unfold bestRoot
  rw [hbacked]
  simp only [ok_bind]
  apply congrArg Except.ok
  rw [argmax_eq_find, List.find?_map, rootsOf_find, Option.map_map]
  -- nothing exceeds a spelling exactly when it leads
  have hleads : ((fun x => decide (∀ y ∈ ((collected o votes).rootsOf epoch b.val).map fun r =>
      (r, (backing vault b (endorsementsFor epoch b votes) r : Int)), y.2 ≤ x.2)) ∘ fun r =>
      (r, (backing vault b (endorsementsFor epoch b votes) r : Int))) =
      fun r => decide (Leads vault b (endorsementsFor epoch b votes) r) := by
    funext r
    rw [Function.comp_apply]
    apply decide_eq_decide.mpr
    rw [List.forall_mem_map]
    constructor
    · intro h v hv
      exact Int.ofNat_le.mp (h v.spelling (mem_rootsOf.mpr ⟨v, hv, rfl⟩))
    · intro h r' hr'
      obtain ⟨v, hv, rfl⟩ := mem_rootsOf.mp hr'
      exact Int.ofNat_le.mpr (h v hv)
  rw [hleads]
  exact Option.map_id'

/-! ### The proposal -/

/-- What is proposed of a spelling. -/
def proposalOf (o : Offchain) (epoch : Int) (b : BrainId) (votes : List Endorsement) (t : Text)
    (root : Bytes) : Proposal where
  epoch := epoch
  brainId := b.val
  root := root
  signers := (sortedSigners votes t).map (toChecksum o.crypto)
  signatures := (sortedSigners votes t).map (lastSignature votes t)

/-- **What is proposed**: the leading spelling, if it has the quorum and can be read without
its first two characters. -/
theorem nextProposal_eq (hkept : ∀ v ∈ votes, lower o.unicode v.spelling = v.spelling)
    (p : Proposal) :
    (collected o votes).nextProposal o.unicode (chainStakes o.crypto vault) epoch b.val =
        .ok (some p) ↔
      ∃ t root, leading vault b (endorsementsFor epoch b votes) = some t ∧
        HasQuorum vault b (signersUnder (endorsementsFor epoch b votes) t) ∧
        fromHex (t.drop 2) = some root ∧
        p = proposalOf o epoch b (endorsementsFor epoch b votes) t root := by
  have hnew : (epoch, (b.val : Int)) ∉ (collected o votes).proposed := List.not_mem_nil
  unfold nextProposal
  rw [if_neg hnew, bestRoot_eq hkept]
  simp only [ok_bind]
  cases hlead : leading vault b (endorsementsFor epoch b votes) with
  | none =>
    constructor
    · intro h
      cases return_ok.mp h
    · rintro ⟨t, root, ht, -⟩
      cases ht
  | some t =>
    -- the leading spelling was kept lowered, so looking it up again finds it
    have hnormal : (RootArg.str t).normalize o.unicode = t := by
      obtain ⟨v, hv, rfl⟩ := List.mem_map.mp (List.mem_of_find?_eq_some hlead)
      exact hkept v (List.mem_filter.mp hv).1
    dsimp only
    rw [quorumMet_eq, assemble_eq, hnormal]
    simp only [ok_bind]
    -- below the quorum nothing is proposed
    by_cases hquorum : HasQuorum vault b (signersUnder (endorsementsFor epoch b votes) t)
    · rw [if_neg (by simpa using hquorum)]
      simp only [bind_ok, orRevert_ok, return_ok, Option.some.injEq]
      constructor
      · rintro ⟨root, hroot, rfl⟩
        exact ⟨t, root, rfl, hquorum, hroot, rfl⟩
      · rintro ⟨t', root, rfl, -, hroot, rfl⟩
        exact ⟨root, hroot, rfl⟩
    · rw [if_pos (decide_eq_false hquorum)]
      constructor
      · intro h
        cases return_ok.mp h
      · rintro ⟨t', root, ht', hquorum', -⟩
        obtain rfl := Option.some.inj ht'
        exact absurd hquorum' hquorum

end Reading

end BasedAI
