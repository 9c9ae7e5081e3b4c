import BasedAI.Gateway.Server
import BasedAI.Miner.Challenges
import BasedAI.Validator.Challenges

/-!
# BasedAI — the messages that are signed

Five kinds of messages are signed with the keys of the system: spending receipts, epoch
commitments, announcements, challenges and the answers to them. Each service lays its own
out in its own module; here they are one type, and the question is which of them a
signature can be taken for.

* `SignedMessage`        — the five kinds with their fields, their layout and digest;
* `preimage_cases`       — two messages of one layout are one message, or a challenge and
  an answer that cross;
* `digests_separate_iff` — when a digest belongs to one message only.
-/

namespace BasedAI

open Fallible Python ByteWords

/-- A text that UTF-8 can encode, with its bytes. -/
structure Utf8Text where
  text : Text
  bytes : Bytes
  encodes : utf8 text = some bytes

theorem Utf8Text.ext_bytes {s t : Utf8Text} (h : s.bytes = t.bytes) : s = t := by
  obtain ⟨s, bytes, hs⟩ := s
  obtain ⟨t, bytes', ht⟩ := t
  obtain rfl : bytes = bytes' := h
  obtain rfl : s = t := utf8_inj hs ht
  rfl

/-- A message of one of the five kinds. -/
inductive SignedMessage
  | receipt (e : Miner.EncodedReceipt)
  | commitment (c : Commitment)
  | announcement (brainId : BrainId) (url : Utf8Text) (ts : Fin (2 ^ 256))
  | challenge (brainId : BrainId) (prompt : Utf8Text) (seed : Fin (2 ^ 256))
  | response (brainId : BrainId) (promptHash responseHash : Bytes32)

/-- The two domain tags. -/
def announceTag : Bytes := asciiBytes "BasedAI:MinerAnnounce:v1"
def commitmentTag : Bytes := asciiBytes "BasedAI:ScoringRegistry:v2"

namespace SignedMessage

/-- What is hashed of a message. -/
def preimage (crypto : Crypto) : SignedMessage → Bytes
  | .receipt e => e.preimage
  | .commitment c => c.preimage crypto
  | .announcement brainId url ts =>
    abiEncode [(crypto.keccak256 announceTag).val, brainId.val, 128, ts.val] ++
      abiEncode [url.bytes.length] ++ Gateway.padWords url.bytes
  | .challenge brainId prompt seed =>
    abiEncode [brainId.val, (crypto.keccak256 prompt.bytes).val, seed.val]
  | .response brainId promptHash responseHash =>
    abiEncode [brainId.val, promptHash.val, responseHash.val]

/-- What is signed of a message. -/
def digest (crypto : Crypto) (m : SignedMessage) : Bytes32 :=
  crypto.messageDigest (m.preimage crypto)

end SignedMessage

/-! ## The services sign and verify these messages -/

section Services

variable {o : Offchain} {v : Validator}

theorem announcement_layout {app : Gateway.App} {brainId ts : Int} {url : Text} {bytes : Bytes}
    (h : Gateway.announcePreimage app.crypto brainId url ts = .ok bytes) :
    ∃ b u t, (b.val : Int) = brainId ∧ u.text = url ∧ (t.val : Int) = ts ∧
      bytes = (SignedMessage.announcement b u t).preimage app.crypto := by
  simp only [Gateway.announcePreimage, bind_ok, orRevert_ok, return_ok] at h
  obtain ⟨b, hb, urlBytes, hurl, t, ht, rfl⟩ := h
  exact ⟨b, ⟨url, urlBytes, hurl⟩, t, encodeUint_ok hb, rfl, encodeUint_ok ht, rfl⟩

theorem keccakText_ok {crypto : Crypto} {prompt : Text} {w : Bytes32}
    (h : keccakText crypto (.str prompt) = .ok w) :
    ∃ u : Utf8Text, u.text = prompt ∧ w = crypto.keccak256 u.bytes := by
  simp only [keccakText, bind_ok, orRevert_ok, return_ok] at h
  obtain ⟨bytes, hbytes, rfl⟩ := h
  exact ⟨⟨prompt, bytes, hbytes⟩, rfl, rfl⟩

/-- The challenge a validator signs. -/
theorem challenge_layout {prompt : Text} {brainId seed : Int} {e : EncodedChallenge}
    (h : encodeChallenge o brainId (.str prompt) seed = .ok e) :
    ∃ b u t, (b.val : Int) = brainId ∧ u.text = prompt ∧ (t.val : Int) = seed ∧
      e.preimage = (SignedMessage.challenge b u t).preimage o.crypto := by
  simp only [encodeChallenge, bind_ok, return_ok] at h
  obtain ⟨hash, hhash, b, hb, t, ht, rfl⟩ := h
  obtain ⟨u, hu, rfl⟩ := keccakText_ok hhash
  exact ⟨b, u, t, encodeUint_ok hb, hu, encodeUint_ok ht, rfl⟩

/-- The challenge a miner verifies. -/
theorem challengeWords_layout {config : Miner.MinerConfig} {s : Miner.Services}
    {prompt : Text} {seed : Int} {w : Miner.ChallengeWords}
    (h : Miner.challengeWords config s prompt seed = .ok w) :
    ∃ b u t, (b.val : Int) = config.brainId ∧ u.text = prompt ∧ (t.val : Int) = seed ∧
      w.preimage = (SignedMessage.challenge b u t).preimage s.crypto := by
  simp only [Miner.challengeWords, bind_ok, return_ok] at h
  obtain ⟨hash, hhash, b, hb, t, ht, rfl⟩ := h
  obtain ⟨u, hu, rfl⟩ := keccakText_ok hhash
  exact ⟨b, u, t, encodeUint_ok hb, hu, encodeUint_ok ht, rfl⟩

/-- The answer a miner signs. -/
theorem response_signed {config : Miner.MinerConfig} {s : Miner.Services}
    {response : Miner.InferenceResponse} {sig : Bytes}
    (h : Miner.signResponse config s response = .ok sig) :
    ∃ b promptHash responseHash, (b.val : Int) = config.brainId ∧
      sig = config.account.sign
        ((SignedMessage.response b promptHash responseHash).digest s.crypto) := by
  simp only [Miner.signResponse, bind_ok, return_ok] at h
  obtain ⟨b, hb, _, -, _, -, promptHash, -, responseHash, -, rfl⟩ := h
  exact ⟨b, promptHash, responseHash, encodeUint_ok hb, rfl⟩

end Services

/-! ## Layouts -/

section Layouts

open Gateway

/-- The words of a receipt fit. -/
theorem encodedReceipt_inj {e e' : Miner.EncodedReceipt} (h : e.preimage = e'.preimage) :
    e = e' := by
  have hlt : ∀ e : Miner.EncodedReceipt, ∀ w ∈ [e.market.val, e.chainId.val,
      e.receipt.user.val, e.receipt.miner.val, e.receipt.brainId.val, e.receipt.promptHash.val,
      e.receipt.responseHash.val, e.receipt.amount.val, e.receipt.expiry.val,
      e.receipt.nonce.val], w < 2 ^ 256 := by
    intro e
    simp only [List.forall_mem_cons, List.not_mem_nil, false_imp_iff, implies_true, and_true]
    exact ⟨address_lt_word _, Fin.isLt _, address_lt_word _, address_lt_word _, Fin.isLt _,
      Fin.isLt _, Fin.isLt _, Fin.isLt _, uint64_lt_word _, Fin.isLt _⟩
  have hwords := abiEncode_inj (by rfl) (hlt e) (hlt e') h
  simp only [List.cons.injEq, Fin.val_inj, and_true] at hwords
  obtain ⟨market, chainId, user, miner, brainId, promptHash, responseHash, amount, expiry,
    nonce⟩ := e
  obtain ⟨rfl, rfl, rfl, rfl, rfl, rfl, rfl, rfl, rfl, rfl⟩ := hwords
  rfl

/-- Three words. -/
theorem threeWords_inj {a b c a' b' c' : Fin (2 ^ 256)}
    (h : abiEncode [a.val, b.val, c.val] = abiEncode [a'.val, b'.val, c'.val]) :
    a = a' ∧ b = b' ∧ c = c' := by
  have hlt : ∀ a b c : Fin (2 ^ 256), ∀ w ∈ [a.val, b.val, c.val], w < 2 ^ 256 := by
    intro a b c
    simp only [List.forall_mem_cons, List.not_mem_nil, false_imp_iff, implies_true, and_true]
    exact ⟨a.isLt, b.isLt, c.isLt⟩
  have hwords := abiEncode_inj (by rfl) (hlt a b c) (hlt a' b' c') h
  simp only [List.cons.injEq, Fin.val_inj, and_true] at hwords
  exact hwords

theorem length_padWords (bytes : Bytes) :
    (padWords bytes).length = bytes.length + (32 - bytes.length % 32) % 32 := by
  rw [padWords, List.length_append, List.length_replicate]

/-- Padded bytes are determined by their number and the padded bytes. -/
theorem padWords_inj {s t : Bytes} (hlen : s.length = t.length)
    (h : padWords s = padWords t) : s = t :=
  (List.append_inj h hlen).1

theorem announcement_inj {tag : Bytes32} {b b' : BrainId} {ts ts' : Fin (2 ^ 256)} {s t : Bytes}
    (h : abiEncode [tag.val, b.val, 128, ts.val] ++ abiEncode [s.length] ++ padWords s =
      abiEncode [tag.val, b'.val, 128, ts'.val] ++ abiEncode [t.length] ++ padWords t) :
    b = b' ∧ ts = ts' ∧ s = t := by
  have hlt : ∀ (b : BrainId) (ts : Fin (2 ^ 256)), ∀ w ∈ [tag.val, b.val, 128, ts.val],
      w < 2 ^ 256 := by
    intro b ts
    simp only [List.forall_mem_cons, List.not_mem_nil, false_imp_iff, implies_true, and_true]
    exact ⟨tag.isLt, b.isLt, by norm_num, ts.isLt⟩
  rw [List.append_assoc, List.append_assoc] at h
  obtain ⟨hhead, htail⟩ := List.append_inj h (by rw [length_abiEncode, length_abiEncode]; rfl)
  obtain ⟨hcount, hpadded⟩ :=
    List.append_inj htail (by rw [length_abiEncode, length_abiEncode]; rfl)
  have hwords := abiEncode_inj (by rfl) (hlt b ts) (hlt b' ts') hhead
  simp only [List.cons.injEq, Fin.val_inj, and_true, true_and] at hwords
  -- the length word wraps, but the padded lengths leave no room for that
  have hmod : s.length % 2 ^ 256 = t.length % 2 ^ 256 := by
    have hone : ∀ n, abiEncode [n] = bigEndian 32 n := fun n => List.append_nil _
    rw [hone, hone] at hcount
    rw [two_pow_256, ← spelled_bigEndian_mod, ← spelled_bigEndian_mod, hcount]
  have hlen := congrArg List.length hpadded
  rw [length_padWords, length_padWords] at hlen
  have hsame : s.length = t.length := by omega
  exact ⟨hwords.1, hwords.2, padWords_inj hsame hpadded⟩

end Layouts

/-! ## Which messages a digest can belong to -/

namespace SignedMessage

variable {crypto : Crypto} {m m' : SignedMessage}

/-- A challenge and an answer that are the same three words: the answer is to the prompt of
the challenge, on the same Brain, and the seed is its hash. -/
def Crosses (crypto : Crypto) : SignedMessage → SignedMessage → Prop
  | .challenge b prompt seed, .response b' promptHash responseHash
  | .response b' promptHash responseHash, .challenge b prompt seed =>
    b = b' ∧ crypto.keccak256 prompt.bytes = promptHash ∧ seed = responseHash
  | _, _ => False

/-- What is hashed on the way to a message, before its digest. -/
def prompts : SignedMessage → Set Bytes
  | .challenge _ prompt _ => {prompt.bytes}
  | _ => ∅

/-- What is assumed of the hash about two messages: it has no collision among what is
hashed of them, and the two tags hash to different words; that of the announcements,
which stands where a receipt has an address, is none. -/
structure Hashed (crypto : Crypto) (m m' : SignedMessage) : Prop where
  digests : crypto.DigestsCollisionFree {m.preimage crypto, m'.preimage crypto}
  prompts : crypto.CollisionFree (m.prompts ∪ m'.prompts)
  tags : crypto.keccak256 announceTag ≠ crypto.keccak256 commitmentTag
  tag_high : ∀ a : Address, (crypto.keccak256 announceTag).val ≠ a.val

theorem length_receipt (e : Miner.EncodedReceipt) :
    ((receipt e).preimage crypto).length = 320 :=
  length_abiEncode _

theorem length_commitment (c : Commitment) :
    ((commitment c).preimage crypto).length = 192 :=
  length_abiEncode _

theorem length_announcement (b : BrainId) (url : Utf8Text) (ts : Fin (2 ^ 256)) :
    160 ≤ ((announcement b url ts).preimage crypto).length := by
  show 160 ≤ (abiEncode _ ++ abiEncode _ ++ Gateway.padWords url.bytes).length
  rw [List.length_append, List.length_append, length_abiEncode, length_abiEncode]
  exact Nat.le_add_right 160 _

theorem length_challenge (b : BrainId) (prompt : Utf8Text) (seed : Fin (2 ^ 256)) :
    ((challenge b prompt seed).preimage crypto).length = 96 :=
  length_abiEncode _

theorem length_response (b : BrainId) (promptHash responseHash : Bytes32) :
    ((response b promptHash responseHash).preimage crypto).length = 96 :=
  length_abiEncode _

/-- The first word of an announcement is its tag. -/
theorem announcement_head {n : Nat} {ns : List Nat} {b : BrainId} {url : Utf8Text}
    {ts : Fin (2 ^ 256)} (hn : n < 2 ^ 256)
    (h : abiEncode (n :: ns) = (announcement b url ts).preimage crypto) :
    n = (crypto.keccak256 announceTag).val := by
  have hsame : abiEncode (n :: ns) ++ [] =
      abiEncode ((crypto.keccak256 announceTag).val :: [b.val, 128, ts.val]) ++
        (abiEncode [url.bytes.length] ++ Gateway.padWords url.bytes) := by
    rw [List.append_nil, ← List.append_assoc]
    exact h
  exact abiEncode_head hn (Fin.isLt _) hsame

/-- The market of a receipt is an address, and the tag of an announcement is not. -/
theorem receipt_ne_announcement
    (htag : ∀ a : Address, (crypto.keccak256 announceTag).val ≠ a.val)
    {e : Miner.EncodedReceipt} {b : BrainId} {url : Utf8Text} {ts : Fin (2 ^ 256)} :
    (receipt e).preimage crypto ≠ (announcement b url ts).preimage crypto := by
  intro h
  have hwords : abiEncode (e.market.val :: [e.chainId.val, e.receipt.user.val,
      e.receipt.miner.val, e.receipt.brainId.val, e.receipt.promptHash.val,
      e.receipt.responseHash.val, e.receipt.amount.val, e.receipt.expiry.val,
      e.receipt.nonce.val]) = (announcement b url ts).preimage crypto := h
  exact htag e.market (announcement_head (address_lt_word _) hwords).symm

/-- The tags differ. -/
theorem commitment_ne_announcement
    (htags : crypto.keccak256 announceTag ≠ crypto.keccak256 commitmentTag) {c : Commitment}
    {b : BrainId} {url : Utf8Text} {ts : Fin (2 ^ 256)} :
    (commitment c).preimage crypto ≠ (announcement b url ts).preimage crypto := by
  intro h
  have hwords : abiEncode ((crypto.keccak256 commitmentTag).val :: [c.chainId.val,
      c.scoringRegistry.val, c.epoch.val, c.brainId.val, c.root.val]) =
      (announcement b url ts).preimage crypto := h
  exact htags (Fin.ext (announcement_head (Fin.isLt _) hwords).symm)

/-- Two challenges of one layout are one, as their prompts hash alike. -/
theorem challenge_inj {b b' : BrainId} {prompt prompt' : Utf8Text} {seed seed' : Fin (2 ^ 256)}
    (hprompts : crypto.CollisionFree ({prompt.bytes} ∪ {prompt'.bytes}))
    (h : (challenge b prompt seed).preimage crypto =
      (challenge b' prompt' seed').preimage crypto) :
    challenge b prompt seed = challenge b' prompt' seed' := by
  obtain ⟨rfl, hhash, rfl⟩ := threeWords_inj h
  have hbytes : prompt.bytes = prompt'.bytes := hprompts (.inl rfl) (.inr rfl) hhash
  rw [Utf8Text.ext_bytes hbytes]

/-- **Layouts.** Two messages of one layout are one message, or cross. -/
theorem preimage_cases (hf : Hashed crypto m m')
    (h : m.preimage crypto = m'.preimage crypto) : m = m' ∨ Crosses crypto m m' := by
  -- the lengths tell the kinds apart, but for challenge and response, and for announcements
  have hlen := congrArg List.length h
  cases m with
  | receipt e =>
    rw [length_receipt] at hlen
    cases m' with
    | receipt e' => exact .inl (congrArg receipt (encodedReceipt_inj h))
    | announcement b' url' ts' => exact absurd h (receipt_ne_announcement hf.tag_high)
    | commitment c' => rw [length_commitment] at hlen; omega
    | challenge b' prompt' seed' => rw [length_challenge] at hlen; omega
    | response b' promptHash' responseHash' => rw [length_response] at hlen; omega
  | commitment c =>
    rw [length_commitment] at hlen
    cases m' with
    | receipt e' => rw [length_receipt] at hlen; omega
    | announcement b' url' ts' => exact absurd h (commitment_ne_announcement hf.tags)
    | commitment c' => exact .inl (congrArg commitment (commitmentPreimage_inj h))
    | challenge b' prompt' seed' => rw [length_challenge] at hlen; omega
    | response b' promptHash' responseHash' => rw [length_response] at hlen; omega
  | announcement b url ts =>
    have hlong := @length_announcement crypto b url ts
    cases m' with
    | receipt e' => exact absurd h.symm (receipt_ne_announcement hf.tag_high)
    | announcement b' url' ts' =>
      obtain ⟨rfl, rfl, hbytes⟩ := announcement_inj h
      rw [Utf8Text.ext_bytes hbytes]
      exact .inl rfl
    | commitment c' => exact absurd h.symm (commitment_ne_announcement hf.tags)
    | challenge b' prompt' seed' => rw [length_challenge] at hlen; omega
    | response b' promptHash' responseHash' => rw [length_response] at hlen; omega
  | challenge b prompt seed =>
    rw [length_challenge] at hlen
    cases m' with
    | receipt e' => rw [length_receipt] at hlen; omega
    | announcement b' url' ts' =>
      have hlong := @length_announcement crypto b' url' ts'
      omega
    | commitment c' => rw [length_commitment] at hlen; omega
    | challenge b' prompt' seed' => exact .inl (challenge_inj hf.prompts h)
    | response b' promptHash' responseHash' => exact .inr (threeWords_inj h)
  | response b promptHash responseHash =>
    rw [length_response] at hlen
    cases m' with
    | receipt e' => rw [length_receipt] at hlen; omega
    | announcement b' url' ts' =>
      have hlong := @length_announcement crypto b' url' ts'
      omega
    | commitment c' => rw [length_commitment] at hlen; omega
    | challenge b' prompt' seed' => exact .inr (threeWords_inj h.symm)
    | response b' promptHash' responseHash' =>
      obtain ⟨rfl, rfl, rfl⟩ := threeWords_inj h
      exact .inl rfl

/-- Messages that cross are of two kinds, and have one layout. -/
theorem Crosses.preimage_eq (h : Crosses crypto m m') :
    m ≠ m' ∧ m.preimage crypto = m'.preimage crypto := by
  unfold Crosses at h
  split at h
  · obtain ⟨rfl, rfl, rfl⟩ := h
    exact ⟨nofun, rfl⟩
  · obtain ⟨rfl, rfl, rfl⟩ := h
    exact ⟨nofun, rfl⟩
  · exact h.elim

end SignedMessage

/--
**A digest belongs to one message, unless two cross.** Of any two messages of the five
kinds, equal digests make them the same message, of one kind and with the same fields, if
and only if they are not a challenge and an answer to its prompt on the same Brain whose
hash is the challenge's seed.
-/
theorem digests_separate_iff {crypto : Crypto} {m m' : SignedMessage}
    (hf : SignedMessage.Hashed crypto m m') :
    (m.digest crypto = m'.digest crypto → m = m') ↔ ¬ SignedMessage.Crosses crypto m m' := by
  constructor
  · intro hsame hcross
    obtain ⟨hne, hpreimage⟩ := hcross.preimage_eq
    apply hne
    apply hsame
    unfold SignedMessage.digest
    rw [hpreimage]
  · intro hcross hdigest
    have hpreimage : m.preimage crypto = m'.preimage crypto :=
      hf.digests.injOn (Set.mem_insert _ _)
        (Set.mem_insert_of_mem _ (Set.mem_singleton _)) hdigest
    exact (SignedMessage.preimage_cases hf hpreimage).resolve_right hcross

/-! ## A challenge and an answer, run -/

/-- A prompt of two letters. -/
def toyPrompt : Utf8Text := ⟨text "hi", asciiBytes "hi", rfl⟩

/-- A challenge on Brain 3 with this prompt. -/
def toyChallenge : SignedMessage := .challenge 3 toyPrompt 5

/-- The answer to this prompt on Brain 3 with a response of this hash. -/
def toyAnswer (responseHash : Bytes32) : SignedMessage :=
  .response 3 (toyCrypto.keccak256 toyPrompt.bytes) responseHash

theorem toyTag_high : 2 ^ 160 ≤ (toyCrypto.keccak256 announceTag).val := by decide

/-- The toy hash of three words is the last. -/
theorem toyChallenge_hash : toyCrypto.keccak256 (toyChallenge.preimage toyCrypto) = 5 :=
  toyCrypto_keccak_abiEncode [3, _] 5

theorem toyAnswer_hash (responseHash : Bytes32) :
    toyCrypto.keccak256 ((toyAnswer responseHash).preimage toyCrypto) = responseHash :=
  toyCrypto_keccak_abiEncode [3, _] responseHash

/-- What is assumed of the hash is so of the toy hash and these messages. -/
theorem toyHashed {responseHash : Bytes32}
    (hfree : toyCrypto.DigestsCollisionFree
      {toyChallenge.preimage toyCrypto, (toyAnswer responseHash).preimage toyCrypto}) :
    SignedMessage.Hashed toyCrypto toyChallenge (toyAnswer responseHash) where
  digests := hfree
  prompts := by
    -- only the challenge has a prompt
    have hprompts : SignedMessage.prompts toyChallenge ∪
        SignedMessage.prompts (toyAnswer responseHash) = {toyPrompt.bytes} := Set.union_empty _
    rw [hprompts]
    exact Set.subsingleton_singleton.injOn _
  tags := by decide +kernel
  tag_high := fun a hword => absurd (hword ▸ toyTag_high) (not_le_of_gt a.isLt)

/-- An answer whose hash is not the seed is told from the challenge. -/
theorem digests_separate_toyAnswer :
    (toyChallenge.digest toyCrypto = (toyAnswer 6).digest toyCrypto →
      toyChallenge = toyAnswer 6) ↔
    ¬ SignedMessage.Crosses toyCrypto toyChallenge (toyAnswer 6) := by
  apply digests_separate_iff
  apply toyHashed
  constructor
  · -- the hashes are 5 and 6
    rintro _ (rfl | rfl) _ (rfl | rfl) heq
    · rfl
    · rw [toyChallenge_hash, toyAnswer_hash] at heq
      exact absurd heq (by decide)
    · rw [toyChallenge_hash, toyAnswer_hash] at heq
      exact absurd heq (by decide)
    · rfl
  · rintro _ ⟨_, rfl | rfl, rfl⟩ _ ⟨_, rfl | rfl, rfl⟩ heq
    · rfl
    · have hsame := (toyCrypto_keccak _ _).symm.trans (heq.trans (toyCrypto_keccak _ _))
      rw [toyChallenge_hash, toyAnswer_hash] at hsame
      exact absurd hsame (by decide)
    · have hsame := (toyCrypto_keccak _ _).symm.trans (heq.trans (toyCrypto_keccak _ _))
      rw [toyChallenge_hash, toyAnswer_hash] at hsame
      exact absurd hsame (by decide)
    · rfl

/-- The answer with the hash 5 is signed as the challenge with the seed 5 is. -/
theorem answer_signed_as_challenge :
    SignedMessage.Hashed toyCrypto toyChallenge (toyAnswer 5) ∧
      toyChallenge.digest toyCrypto = (toyAnswer 5).digest toyCrypto ∧
      toyChallenge ≠ toyAnswer 5 := by
  have hlayout : toyChallenge.preimage toyCrypto = (toyAnswer 5).preimage toyCrypto := rfl
  refine ⟨toyHashed ?_, ?_, nofun⟩
  · apply Crypto.digestsCollisionFree_of_subsingleton
    rw [← hlayout, Set.pair_eq_singleton]
    exact Set.subsingleton_singleton
  · unfold SignedMessage.digest
    rw [hlayout]

end BasedAI
