import BasedAI.Validator.Runtime

/-!
# BasedAI — what a canonical root stands for

Inversion of the candidate pool and its service: whatever the pool freezes, and
whatever the service hands out as canonical, is the Merkle root of the rows next to
it; and the text it travels as decodes to that root again.

* `add_frozen`, `submitCandidate_frozen` — the effect of one request on what is
  frozen;
* `ownReply_canonical` — a canonical answer to the validator's own submission is for
  the validator's Brain;
* `rootOfText_hexText` — the round trip of a root.
-/

namespace BasedAI

open Fallible Python ByteWords Mapping CanonicalCandidatePool

variable {o : Offchain}

/-! ## Roots as text -/

theorem spelled_wordBytes (w : Bytes32) : spelled (wordBytes w) = w.val :=
  spelled_bigEndian (w.isLt.trans_eq two_pow_256)

theorem rootOfBytes_wordBytes (w : Bytes32) : rootOfBytes (wordBytes w) = .ok w := by
  have hlen : (wordBytes w).length = 32 := length_bigEndian 32 w.val
  have hword : Fin.ofNat (2 ^ 256) (spelled (wordBytes w)) = w := by
    rw [spelled_wordBytes]
    exact Fin.ofNat_val_eq_self w
  unfold rootOfBytes
  rw [hword]
  exact bind_ok.mpr ⟨(), revertIf_neg (not_not_intro hlen), rfl⟩

theorem isPrefixOf_0x (t : Text) : (text "0x").isPrefixOf (text "0x" ++ t) = true := rfl

theorem drop_0x (t : Text) : (text "0x" ++ t).drop 2 = t := rfl

/-- **The text of a root decodes to the root.** -/
theorem rootOfText_hexText (w : Bytes32) : rootOfText (hexText w) = .ok w := by
  unfold rootOfText hexText
  dsimp only
  rw [if_pos (isPrefixOf_0x _), drop_0x, fromHex_hexlify]
  exact bind_ok.mpr ⟨wordBytes w, rfl, rootOfBytes_wordBytes w⟩

/-! ## The pool -/

/-- The leaves of canonical rows. -/
def canonicalLeaves (brainId : Int) (rows : List ScoreRow) : List ScoreLeaf :=
  rows.map fun row => ⟨brainId, row.miner, row.score⟩

/-- The root of a frozen result is the Merkle root of its rows. -/
def Rooted (o : Offchain) (brainId : Int) (frozen : Frozen) : Prop :=
  ∃ root hashed, buildMerkleRoot o.crypto (canonicalLeaves brainId frozen.rows) =
    .ok (root, hashed) ∧ frozen.root = hexText root

/-- So it is for everything the pool has frozen. -/
def PoolRooted (o : Offchain) (pool : CanonicalCandidatePool) : Prop :=
  ∀ epoch brainId frozen, pool.frozen epoch brainId = some frozen → Rooted o brainId frozen

theorem empty_rooted : PoolRooted o .empty := by
  intro epoch brainId frozen h
  cases h

theorem canonicalize_rooted {stakes : Stakes} {brainId minQuorumBps : Int}
    {contributors : List (Text × Candidate)} {frozen : Frozen}
    (h : canonicalize o stakes brainId minQuorumBps contributors = .ok (some frozen)) :
    Rooted o brainId frozen := by
  unfold canonicalize at h
  simp only [bind_ok] at h
  obtain ⟨total, -, stakesHeld, -, h⟩ := h
  split at h
  · simp [return_ok] at h
  · simp only [bind_ok, return_ok, Option.some.injEq] at h
    obtain ⟨rows, -, _, -, ⟨root, hashed⟩, hroot, rfl⟩ := h
    exact ⟨root, hashed, hroot, rfl⟩

/-- What an addition can change of what is frozen, and what it returns. -/
theorem add_frozen {stakes : Stakes} {pool : CanonicalCandidatePool} {epoch brainId : Int}
    {signer : Text} {scores : List Json} (hpool : PoolRooted o pool) :
    PoolRooted o (pool.add o stakes brainId epoch signer scores).1 ∧
      ∀ frozen, (pool.add o stakes brainId epoch signer scores).2 = .ok (some frozen) →
        Rooted o brainId frozen := by
  unfold add
  split
  · -- frozen already
    rename_i frozen hfrozen
    refine ⟨hpool, ?_⟩
    intro frozen' heq
    cases heq
    exact hpool epoch brainId frozen hfrozen
  · split
    · exact ⟨hpool, fun frozen heq => nomatch heq⟩
    · dsimp only
      split
      · exact ⟨hpool, fun frozen heq => nomatch heq⟩
      · exact ⟨hpool, fun frozen heq => nomatch heq⟩
      · rename_i frozen hcanonical
        have hrooted : Rooted o brainId frozen := canonicalize_rooted hcanonical
        refine ⟨?_, ?_⟩
        · intro epoch' brainId' frozen' heq
          dsimp only at heq
          rw [set₂_apply] at heq
          split at heq
          · rename_i hkey
            obtain ⟨rfl, rfl⟩ := hkey
            cases heq
            exact hrooted
          · exact hpool epoch' brainId' frozen' heq
        · intro frozen' heq
          cases heq
          exact hrooted

/-- The same for a request to the service. -/
theorem submitCandidate_frozen {domain : CommitmentDomain} {stakes : Stakes}
    {pool : CanonicalCandidatePool} {body : Option Json} (hpool : PoolRooted o pool) :
    PoolRooted o (submitCandidate o domain stakes pool body).1 ∧
      ∀ c frozen, openCandidate o body = .ok c →
        (submitCandidate o domain stakes pool body).2 = .accepted (some frozen) →
        Rooted o c.brainId frozen := by
  unfold submitCandidate
  split
  · exact ⟨hpool, fun c frozen _ heq => nomatch heq⟩
  · rename_i c hopen
    split
    · exact ⟨hpool, fun c frozen _ heq => nomatch heq⟩
    · exact ⟨hpool, fun c frozen _ heq => nomatch heq⟩
    · have hadd := @add_frozen o stakes pool c.epoch c.brainId c.signer c.scores hpool
      split
      · rename_i pool' e heq
        rw [heq] at hadd
        exact ⟨hadd.1, fun c frozen _ heq => nomatch heq⟩
      · rename_i pool' result heq
        rw [heq] at hadd
        refine ⟨hadd.1, ?_⟩
        intro c' frozen hopen' hreply
        -- the body was opened once
        have hsame : c' = c := Except.ok.inj (hopen'.symm.trans hopen)
        rw [hsame]
        exact hadd.2 frozen (congrArg Except.ok (CandidateReply.accepted.inj hreply))

/-! ## The validator's own submission -/

variable {v : Validator}

/-- The service reads the submission as the validator wrote it. -/
theorem open_submissionBody (c : OwnCandidate) :
    openCandidate o (some (submissionBody o v c)) = .ok {
      epoch := c.epoch
      brainId := v.brainId
      signer := toChecksum o.crypto v.account.address
      scores := c.scores.map fun s => .dict [(text "miner", s.1), (text "score", .int s.2)]
      signature := text "0x" ++ hexlify c.signed.signature } := rfl

theorem ownReply_rooted {stakes : Stakes} {pool : CanonicalCandidatePool} {c : OwnCandidate}
    (hpool : PoolRooted o pool) : PoolRooted o (ownReply o v stakes pool c).1 :=
  (submitCandidate_frozen hpool).1

theorem ownReply_canonical {stakes : Stakes} {pool : CanonicalCandidatePool}
    {c : OwnCandidate} {frozen : Frozen} (hpool : PoolRooted o pool)
    (hreply : (ownReply o v stakes pool c).2 = .accepted (some frozen)) :
    Rooted o v.brainId frozen :=
  (submitCandidate_frozen hpool).2 _ frozen (open_submissionBody c) hreply

end BasedAI
