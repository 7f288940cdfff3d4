import Mathlib.Data.Set.List
import Veil7.Library.Keccak
import Veil7.Relations.Statements

/-!
# The Threshold Relation

`relations/threshold_verify.rs`: the holder of some shares publishes their
number, the number of their indices and a hash of the indices, and proves them
with a hash of every share.

The verifier compares numbers, compares the proof's copy of the index hash with
the statement's, and looks for share hashes of zeros. It has nothing to hash:
neither the indices nor the shares are part of a proof, so nothing ties the
hashes to any. `verify_forged` is the consequence, a proof for every statement
whose numbers are in order and every string put in the place of the share hashes.
So a statement is sound only if its indices happen to be right and no string but
zero is without a share behind it (`verify_extracts_iff`).

A statement holds both numbers in a byte. The prover takes lists of any length
and casts, so from 256 shares on its own proofs are refused
(`verify_complete_iff`).

## Main definitions

* `Witness`, `Proof`: The shares with their indices, and their hashes.
* `statementFromWitness`, `prove`, `verify`: The three functions of the
  relation.
* `Extracts`: A witness with distinct indices behind a statement and a proof.
* `Passes`: What the verifier compares.
* `forged`: A proof made from the statement alone.

## Theorems

* `verify_eq_iff`: The verifier accepts what passes its comparisons.
* `verify_forged`: The proof made from the statement is accepted.
* `exists_extracts_iff`: When an accepted proof has a witness behind it.
* `verify_extracts_iff`: When all accepted proofs of a statement do.
* `verify_complete_iff`: When the prover's own proof is accepted.
* `verify_many_shares`: 256 shares, whose proof is refused.
* `verify_no_witness`: An accepted proof with no witness behind it.
* `passes_prove_iff`: When the prover's own proof passes.
-/

namespace Veil7

namespace ThresholdVerify

structure Witness where
  shares : List (Block 32)
  indices : Bytes

structure Proof where
  indexCommitment : Block 32
  shareHashes : List (Block 32)
deriving DecidableEq

/-- The string hashed into the commitment to the indices. -/
def indexString (indices : Bytes) : Bytes :=
  ascii "veil7:threshold:share-commitment:v1" ++ indices

/-- The string hashed for a share. -/
def shareString (share : Block 32) : Bytes :=
  ascii "veil7:threshold:share-hash:v1" ++ share.toList

section

variable (X : Xof)

def statementFromWitness (witness : Witness) : Hashing Statement := do
  let xof := Shake256.new.update (ascii "veil7:threshold:share-commitment:v1")
  let xof := witness.indices.foldl (fun xof idx => xof.update [idx]) xof
  let commitment ← xof.squeeze X 32
  -- Both lengths are cast to a byte.
  pure { threshold := UInt8.ofNat witness.shares.length,
         total := UInt8.ofNat witness.indices.length,
         shareCommitment := commitment }

def shareHash (share : Block 32) : Hashing (Block 32) :=
  h32 X [ascii "veil7:threshold:share-hash:v1", share.toList]

def prove (witness : Witness) : Hashing (Except VeilError (Statement × Proof)) :=
  if witness.shares.isEmpty ∨ witness.indices.isEmpty then pure (.error .crypto)
  else if witness.shares.length ≠ witness.indices.length then pure (.error .crypto)
  else do
    let stmt ← statementFromWitness X witness
    let shareHashes ← witness.shares.mapM (shareHash X)
    pure (.ok (stmt, { indexCommitment := stmt.shareCommitment, shareHashes := shareHashes }))

end

def verify (stmt : Statement) (proof : Proof) : Except VeilError Choice :=
  if stmt.threshold = 0 ∨ stmt.total = 0 ∨ stmt.total < stmt.threshold then .ok false
  else if proof.shareHashes.length ≠ stmt.threshold.toNat then .ok false
  else
    let valid := decide (proof.indexCommitment = stmt.shareCommitment)
    let allNonzero := proof.shareHashes.foldl (fun acc h => acc && h.toList.any fun b => b != 0) true
    .ok (valid && allNonzero)

/-- What the verifier compares: the numbers, the two copies of the commitment,
    and the share hashes with zero. -/
def Passes (stmt : Statement) (proof : Proof) : Prop :=
  (stmt.threshold ≠ 0 ∧ stmt.total ≠ 0 ∧ stmt.threshold ≤ stmt.total) ∧
  proof.shareHashes.length = stmt.threshold.toNat ∧
  proof.indexCommitment = stmt.shareCommitment ∧
  ∀ h ∈ proof.shareHashes, ∃ b ∈ h.toList, b ≠ 0

instance (stmt : Statement) (proof : Proof) : Decidable (Passes stmt proof) :=
  inferInstanceAs (Decidable ((_ ∧ _ ∧ _) ∧ _ ∧ _ ∧ _))

/-- The verifier accepts what passes its comparisons. -/
theorem verify_eq_iff (stmt : Statement) (proof : Proof) :
    verify stmt proof = .ok true ↔ Passes stmt proof := by
  unfold verify Passes
  by_cases hnumbers : stmt.threshold = 0 ∨ stmt.total = 0 ∨ stmt.total < stmt.threshold
  · rw [if_pos hnumbers]
    refine ⟨fun h => absurd h (by decide), fun h => ?_⟩
    rcases hnumbers with h0 | h0 | hlt
    · exact absurd h0 h.1.1
    · exact absurd h0 h.1.2.1
    · exact absurd hlt (UInt8.not_lt.mpr h.1.2.2)
  · rw [if_neg hnumbers]
    rw [not_or, not_or, UInt8.not_lt] at hnumbers
    by_cases hlen : proof.shareHashes.length = stmt.threshold.toNat
    · rw [if_neg (not_not.mpr hlen)]
      simp only [foldl_and, Except.ok.injEq, Bool.true_and, Bool.and_eq_true,
        decide_eq_true_eq, List.all_eq_true, List.any_eq_true, bne_iff_ne, ne_eq, hnumbers,
        hlen, not_false_eq_true, and_self, true_and]
    · rw [if_pos hlen]
      exact ⟨fun h => absurd h (by decide), fun h => absurd h.2.1 hlen⟩

/-- A block that is not all zeros has a byte that is not zero. -/
theorem exists_ne_zero (n : Nat) (h : Block n) (hne : h ≠ zeros n) : ∃ b ∈ h.toList, b ≠ 0 := by
  by_contra hall
  refine hne (Block.toList_inj n _ _ (List.eq_replicate_iff.mpr ⟨Block.length_toList n h, ?_⟩))
  intro b hb
  by_contra hb0
  exact hall ⟨b, hb, hb0⟩

/-- A proof made from the statement alone: its own commitment, and one string as
    often as it asks for share hashes. -/
def forged (stmt : Statement) (hash : Block 32) : Proof :=
  { indexCommitment := stmt.shareCommitment,
    shareHashes := List.replicate stmt.threshold.toNat hash }

/-- Every statement whose numbers are in order has an accepted proof for every
    string but zero. -/
theorem verify_forged (stmt : Statement) (hash : Block 32) (h0 : stmt.threshold ≠ 0)
    (hle : stmt.threshold ≤ stmt.total) (hhash : hash ≠ zeros 32) :
    verify stmt (forged stmt hash) = .ok true := by
  have htotal : stmt.total ≠ 0 := by
    intro h
    rw [h, UInt8.le_zero_iff] at hle
    exact h0 hle
  refine (verify_eq_iff stmt _).mpr
    ⟨⟨h0, htotal, hle⟩, List.length_replicate, rfl, fun h hmem => ?_⟩
  rw [List.eq_of_mem_replicate hmem]
  exact exists_ne_zero 32 hash hhash

section

variable (X : Xof)

theorem val_statementFromWitness (witness : Witness) :
    (statementFromWitness X witness).val
      = { threshold := UInt8.ofNat witness.shares.length,
          total := UInt8.ofNat witness.indices.length,
          shareCommitment := digest X 32 (indexString witness.indices) } := by
  -- One index after the other is the whole list of them.
  have hbuf : ∀ (indices : Bytes) (xof : Shake256),
      (indices.foldl (fun xof idx => xof.update [idx]) xof).buf = xof.buf ++ indices := by
    intro indices
    induction indices with
    | nil => intro xof; rw [List.foldl_nil, List.append_nil]
    | cons idx indices ih =>
        intro xof
        rw [List.foldl_cons, ih, Shake256.buf_update, List.append_assoc, List.singleton_append]
  rw [statementFromWitness, Queried.val_bind, Shake256.val_squeeze, hbuf, Shake256.buf_update,
    Shake256.buf_new, List.nil_append, Queried.val_pure, indexString]

theorem val_shareHash (share : Block 32) :
    (shareHash X share).val = digest X 32 (shareString share) := by
  rw [shareHash, val_h32, shareString, List.flatten_cons, List.flatten_singleton]

/-- The prover refuses only what has no shares or not one index for each. -/
theorem val_prove (witness : Witness) (hne : witness.shares ≠ [])
    (hlen : witness.shares.length = witness.indices.length) :
    (prove X witness).val = .ok ((statementFromWitness X witness).val,
      { indexCommitment := digest X 32 (indexString witness.indices),
        shareHashes := witness.shares.map fun share => digest X 32 (shareString share) }) := by
  have hidx : witness.indices ≠ [] := by
    intro h
    rw [h, List.length_nil, List.length_eq_zero_iff] at hlen
    exact hne hlen
  rw [prove, if_neg (by
      rw [not_or, List.isEmpty_iff, List.isEmpty_iff]
      exact ⟨hne, hidx⟩), if_neg (not_not.mpr hlen), Queried.val_bind, Queried.val_bind,
    Queried.val_mapM, Queried.val_pure, val_statementFromWitness]
  simp only [val_shareHash]

theorem prove_error (witness : Witness)
    (h : witness.shares = [] ∨ witness.shares.length ≠ witness.indices.length) :
    (prove X witness).val = .error .crypto := by
  unfold prove
  by_cases hempty : witness.shares.isEmpty ∨ witness.indices.isEmpty
  · rw [if_pos hempty]
    rfl
  · rw [if_neg hempty]
    rw [not_or, List.isEmpty_iff, List.isEmpty_iff] at hempty
    rcases h with h | h
    · exact absurd h hempty.1
    · rw [if_pos h]
      rfl

/-- A witness with as many shares as the threshold says, at distinct indices,
    from which statement and proof are made. -/
def Extracts (stmt : Statement) (proof : Proof) (witness : Witness) : Prop :=
  witness.shares.length = stmt.threshold.toNat ∧ witness.indices.Nodup ∧
  (statementFromWitness X witness).val = stmt ∧ (prove X witness).val = .ok (stmt, proof)

/-- An accepted proof has a witness behind it exactly if the two numbers agree,
    the commitment is the hash of that many distinct indices, and every share hash
    is the hash of a share. -/
theorem exists_extracts_iff (stmt : Statement) (proof : Proof) (hpasses : Passes stmt proof) :
    (∃ witness, Extracts X stmt proof witness) ↔
      stmt.threshold = stmt.total ∧
      (∃ indices : Bytes, indices.length = stmt.threshold.toNat ∧ indices.Nodup ∧
        digest X 32 (indexString indices) = stmt.shareCommitment) ∧
      ∀ h ∈ proof.shareHashes, ∃ share, digest X 32 (shareString share) = h := by
  constructor
  · rintro ⟨witness, hshares, hnodup, hstmt, hprove⟩
    -- The prover returned, so there is one index for each share.
    have hne : witness.shares ≠ [] := by
      intro hnil
      rw [prove_error X witness (Or.inl hnil)] at hprove
      cases hprove
    have hlen : witness.shares.length = witness.indices.length := by
      by_contra hlen
      rw [prove_error X witness (Or.inr hlen)] at hprove
      cases hprove
    rw [val_prove X witness hne hlen, Except.ok.injEq, Prod.mk.injEq] at hprove
    rw [val_statementFromWitness] at hstmt
    have htotal := congrArg Statement.total hstmt
    have hcommitment := congrArg Statement.shareCommitment hstmt
    dsimp only at htotal hcommitment
    refine ⟨?_, ⟨witness.indices, by rw [← hlen, hshares], hnodup, hcommitment⟩, ?_⟩
    · rw [← htotal, ← hlen, hshares, UInt8.ofNat_toNat]
    · intro h hmem
      rw [← hprove.2, List.mem_map] at hmem
      rcases hmem with ⟨share, -, hshare⟩
      exact ⟨share, hshare⟩
  · rintro ⟨heq, ⟨indices, hindices, hnodup, hcommitment⟩, hhashes⟩
    -- A share for every hash, in order.
    have hrange : proof.shareHashes
        ∈ Set.range (List.map fun share => digest X 32 (shareString share)) := by
      rw [Set.range_list_map]
      exact hhashes
    rcases hrange with ⟨shares, hshares⟩
    have hlen : shares.length = stmt.threshold.toNat := by
      rw [← hpasses.2.1, ← hshares, List.length_map]
    have hne : shares ≠ [] := by
      intro hnil
      rw [hnil, List.length_nil] at hlen
      exact hpasses.1.1 (UInt8.toNat_inj.mp hlen.symm)
    have hstmt : (statementFromWitness X { shares := shares, indices := indices }).val = stmt := by
      rw [val_statementFromWitness]
      apply Statement.ext
      · dsimp only
        rw [hlen, UInt8.ofNat_toNat]
      · dsimp only
        rw [hindices, UInt8.ofNat_toNat, heq]
      · exact hcommitment
    refine ⟨{ shares := shares, indices := indices }, hlen, hnodup, hstmt, ?_⟩
    rw [val_prove X _ hne (by rw [hlen, hindices]), hstmt]
    have hproof : proof =
        { indexCommitment := stmt.shareCommitment,
          shareHashes := shares.map fun share => digest X 32 (shareString share) } := by
      rw [← hpasses.2.2.1, hshares]
    rw [hproof, hcommitment]

/-- Every accepted proof of a statement has a witness behind it exactly if the
    numbers are out of order, so that nothing is accepted, or if they agree, the
    commitment is the hash of that many distinct indices, and every hash but zero
    is the hash of a share. -/
theorem verify_extracts_iff (stmt : Statement) :
    (∀ proof, verify stmt proof = .ok true → ∃ witness, Extracts X stmt proof witness) ↔
      stmt.threshold = 0 ∨ stmt.total = 0 ∨ stmt.total < stmt.threshold ∨
      (stmt.threshold = stmt.total ∧
        (∃ indices : Bytes, indices.length = stmt.threshold.toNat ∧ indices.Nodup ∧
          digest X 32 (indexString indices) = stmt.shareCommitment) ∧
        ∀ h : Block 32, h ≠ zeros 32 → ∃ share, digest X 32 (shareString share) = h) := by
  by_cases hnumbers : stmt.threshold = 0 ∨ stmt.total = 0 ∨ stmt.total < stmt.threshold
  · refine ⟨fun _ => ?_, fun _ proof hverify => ?_⟩
    · rcases hnumbers with h0 | h0 | hlt
      · exact Or.inl h0
      · exact Or.inr (Or.inl h0)
      · exact Or.inr (Or.inr (Or.inl hlt))
    · rw [verify, if_pos hnumbers] at hverify
      cases hverify
  rw [not_or, not_or, UInt8.not_lt] at hnumbers
  rcases hnumbers with ⟨h0, htotal, hle⟩
  have hlt : ¬ stmt.total < stmt.threshold := UInt8.not_lt.mpr hle
  rw [or_iff_right h0, or_iff_right htotal, or_iff_right hlt]
  constructor
  -- The statement's own forgeries have a witness each, one for every hash.
  · intro h
    have hextracts := fun (hash : Block 32) (hhash : hash ≠ zeros 32) =>
      have hverify := verify_forged stmt hash h0 hle hhash
      (exists_extracts_iff X stmt _ ((verify_eq_iff stmt _).mp hverify)).mp (h _ hverify)
    have hones := hextracts (List.Vector.replicate 32 1) (by decide)
    refine ⟨hones.1, hones.2.1, fun hash hhash => (hextracts hash hhash).2.2 hash ?_⟩
    exact List.mem_replicate.mpr ⟨fun h => h0 (UInt8.toNat_inj.mp h), rfl⟩
  · rintro ⟨heq, hindices, hshares⟩ proof hverify
    have hpasses := (verify_eq_iff stmt proof).mp hverify
    refine (exists_extracts_iff X stmt proof hpasses).mpr ⟨heq, hindices, fun h hmem => ?_⟩
    refine hshares h fun hzero => ?_
    rcases hpasses.2.2.2 h hmem with ⟨b, hb, hb0⟩
    rw [hzero] at hb
    exact hb0 (List.eq_of_mem_replicate hb)

/-- The prover's own statement and proof are accepted exactly up to 255 shares.
    Both numbers are cast to a byte, which a longer list does not fit, and the
    verifier compares the byte with the true number of share hashes. -/
theorem verify_complete_iff (witness : Witness) (stmt : Statement) (proof : Proof)
    (hprove : (prove X witness).val = .ok (stmt, proof))
    (hzero : ∀ h ∈ proof.shareHashes, h ≠ zeros 32) :
    verify stmt proof = .ok true ↔ witness.shares.length ≤ 255 := by
  have hne : witness.shares ≠ [] := by
    intro hnil
    rw [prove_error X witness (Or.inl hnil)] at hprove
    cases hprove
  have hlen : witness.shares.length = witness.indices.length := by
    by_contra hlen
    rw [prove_error X witness (Or.inr hlen)] at hprove
    cases hprove
  rw [val_prove X witness hne hlen, Except.ok.injEq, Prod.mk.injEq, val_statementFromWitness]
    at hprove
  have hpos : 0 < witness.shares.length := List.length_pos_iff.mpr hne
  have hhashes : proof.shareHashes.length = witness.shares.length := by
    rw [← hprove.2, List.length_map]
  have hthreshold : stmt.threshold = UInt8.ofNat witness.shares.length := by
    rw [← hprove.1]
  have htotal : stmt.total = stmt.threshold := by
    rw [hthreshold, hlen, ← hprove.1]
  have hnat : stmt.threshold.toNat = witness.shares.length % 2 ^ 8 := by
    rw [hthreshold, UInt8.toNat_ofNat']
  rw [verify_eq_iff]
  constructor
  · intro hpasses
    have hcount := hpasses.2.1
    rw [hhashes, hnat] at hcount
    omega
  · intro hle
    have hcount : stmt.threshold.toNat = witness.shares.length := by
      rw [hnat, Nat.mod_eq_of_lt (by omega)]
    have h0 : stmt.threshold ≠ 0 := by
      intro h
      rw [h, UInt8.toNat_zero] at hcount
      omega
    refine ⟨⟨h0, htotal ▸ h0, htotal ▸ UInt8.le_refl _⟩, by rw [hhashes, hcount], ?_, ?_⟩
    · rw [← hprove.1, ← hprove.2]
    · intro h hmem
      exact exists_ne_zero 32 h (hzero h hmem)

end

/-- As many copies of one share, at an index each. -/
def copies (n : Nat) : Witness :=
  { shares := List.replicate n (List.Vector.replicate 32 1), indices := List.replicate n 0 }

theorem shareHash_ne_zero :
    digest Keccak.shake256 32 (shareString (List.Vector.replicate 32 1)) ≠ zeros 32 := by
  decide +kernel

/-- Two shares are proved and accepted. -/
theorem verify_complete_iff_two :
    ∃ stmt proof, (prove Keccak.shake256 (copies 2)).val = .ok (stmt, proof) ∧
      verify stmt proof = .ok true := by
  have hprove := val_prove Keccak.shake256 (copies 2) (by decide) (by decide)
  refine ⟨_, _, hprove, (verify_complete_iff Keccak.shake256 (copies 2) _ _ hprove ?_).mpr
    (by decide)⟩
  intro h hmem
  rcases List.mem_map.mp hmem with ⟨share, hshare, rfl⟩
  rw [List.eq_of_mem_replicate hshare]
  exact shareHash_ne_zero

/-- 256 shares are proved, and the verifier reads their number as zero. -/
theorem verify_many_shares :
    ∃ stmt proof, (prove Keccak.shake256 (copies 256)).val = .ok (stmt, proof) ∧
      (∀ h ∈ proof.shareHashes, h ≠ zeros 32) ∧ verify stmt proof = .ok false := by
  have hlen : (copies 256).shares.length = (copies 256).indices.length := by
    unfold copies
    rw [List.length_replicate, List.length_replicate]
  have hprove := val_prove Keccak.shake256 (copies 256) (List.cons_ne_nil _ _) hlen
  refine ⟨_, _, hprove, ?_, ?_⟩
  · intro h hmem
    rcases List.mem_map.mp hmem with ⟨share, hshare, rfl⟩
    rw [List.eq_of_mem_replicate hshare]
    exact shareHash_ne_zero
  · rw [val_statementFromWitness, verify, if_pos]
    left
    unfold copies
    rw [List.length_replicate]
    decide

/-- One share out of two, for a commitment of zeros. -/
def oneOfTwo : Statement := { threshold := 1, total := 2, shareCommitment := zeros 32 }

/-- The proof of one share out of two with a hash of ones is accepted, and there
    is no witness behind it: the prover's two numbers are always the same. -/
theorem verify_no_witness :
    verify oneOfTwo (forged oneOfTwo (List.Vector.replicate 32 1)) = .ok true ∧
    ¬ ∃ witness, Extracts Keccak.shake256 oneOfTwo
      (forged oneOfTwo (List.Vector.replicate 32 1)) witness := by
  have hverify := verify_forged oneOfTwo (List.Vector.replicate 32 1) (by decide) (by decide)
    (by decide)
  refine ⟨hverify, fun hwitness => ?_⟩
  have hsame := ((exists_extracts_iff Keccak.shake256 oneOfTwo _
    ((verify_eq_iff oneOfTwo _).mp hverify)).mp hwitness).1
  exact absurd hsame (by decide)

/-! ### The verdict of an honest run -/

/-- The verifier always returns. -/
theorem verify_eq (stmt : Statement) (proof : Proof) :
    verify stmt proof = .ok (decide (Passes stmt proof)) := by
  have hval : ∃ valid, verify stmt proof = .ok valid := by
    unfold verify
    split
    · exact ⟨_, rfl⟩
    · split
      · exact ⟨_, rfl⟩
      · exact ⟨_, rfl⟩
  rcases hval with ⟨valid, hvalid⟩
  have hiff := verify_eq_iff stmt proof
  rw [hvalid, Except.ok.injEq] at hiff
  rw [hvalid, ← Bool.decide_coe valid]
  exact congrArg Except.ok (decide_eq_decide.mpr hiff)

/-- The prover's own proof passes exactly if its number fits the byte it is cast
    to, and no share hash is zero. -/
theorem passes_prove_iff (X : Xof) (witness : Witness) (hne : witness.shares ≠ [])
    (hlen : witness.shares.length = witness.indices.length) :
    Passes (statementFromWitness X witness).val
        { indexCommitment := digest X 32 (indexString witness.indices),
          shareHashes := witness.shares.map fun share => digest X 32 (shareString share) } ↔
      witness.shares.length ≤ 255 ∧
        ∀ share ∈ witness.shares, digest X 32 (shareString share) ≠ zeros 32 := by
  have hpos : 0 < witness.shares.length := List.length_pos_iff.mpr hne
  have hnat : (UInt8.ofNat witness.shares.length).toNat = witness.shares.length % 2 ^ 8 :=
    UInt8.toNat_ofNat'
  rw [val_statementFromWitness, ← hlen]
  unfold Passes
  dsimp only
  rw [List.length_map, hnat, List.forall_mem_map]
  constructor
  · rintro ⟨-, hcount, -, hhashes⟩
    refine ⟨by omega, fun share hshare h => ?_⟩
    rcases hhashes share hshare with ⟨b, hb, hb0⟩
    rw [h] at hb
    exact hb0 (List.eq_of_mem_replicate hb)
  · rintro ⟨hle, hhashes⟩
    have h0 : UInt8.ofNat witness.shares.length ≠ 0 := by
      intro h
      rw [h, UInt8.toNat_zero] at hnat
      omega
    exact ⟨⟨h0, h0, UInt8.le_refl _⟩, by omega, rfl, fun share hshare =>
      exists_ne_zero 32 _ (hhashes share hshare)⟩

end ThresholdVerify

end Veil7
