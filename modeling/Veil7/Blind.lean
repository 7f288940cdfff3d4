import Mathlib.Data.List.GetD
import Mathlib.Data.Vector.Zip
import Veil7.Core.Shake256
import Veil7.Library.Pool

/-!
# Blinded Claims

`blind.rs`: a claim is hidden from the engine by adding a mask to it, byte by
byte and modulo two, and the transcript of the verdict is unblinded with a
second mask from the same nonce.

The claim's mask has 32 bytes and is used over again for longer claims. The
masks form a group that acts on the claims (`AddAction`), so what the blinded
bytes tell is what the orbits are: claims of one length that differ by one and
the same string over every 32 bytes. For claims of at most 32 bytes that is no
restriction, and nothing is told but the length. From 33 bytes on, the sum of
two bytes 32 places apart is the same before and after (`blind_hides_iff`).

## Main definitions

* `BlindFactor`: The nonce and the mask made of it.
* `blindClaim`, `unblindTranscript`: The two operations of the caller.
* `Alike`: Two claims differ by a string repeated every 32 bytes.

## Theorems

* `blindClaim_blindClaim`: Blinding twice gives the claim back.
* `mem_orbit_iff`: The claims that a claim can be masked to.
* `blind_hides_iff`: When two claims are hidden from each other.
* `blind_hides_of_le`: Short claims always are.
* `blind_reveals_repeat`: Two claims of 33 bytes that are not.
-/

namespace Veil7

namespace Blind

def blindMask : Bytes := ascii "veil7:blind:mask:v1"

def blindUnmask : Bytes := ascii "veil7:blind:unmask:v1"

/-- The blinding material held by the caller. -/
structure BlindFactor where
  nonce : Block 32
  mask : Block 32

/-- The factor of a stored nonce. -/
def BlindFactor.fromNonce (X : Xof) (nonce : Block 32) : Hashing BlindFactor := do
  let mask ← ((Shake256.new.update blindMask).update nonce.toList).squeeze X 32
  pure { nonce := nonce, mask := mask }

/-- A fresh factor; `drawn` is what `getrandom` returned. -/
def BlindFactor.fresh (X : Xof) (drawn : Option (Block 32)) :
    Hashing (Except VeilError BlindFactor) :=
  match drawn with
  | none => pure (.error .entropy)
  | some nonce => do
    let mask ← ((Shake256.new.update blindMask).update nonce.toList).squeeze X 32
    pure (.ok { nonce := nonce, mask := mask })

/-- `mask[i % 32]`. -/
def maskByte (mask : Block 32) (i : Nat) : UInt8 :=
  mask.get ⟨i % 32, Nat.mod_lt i (by omega)⟩

/-- `blinded[i] = claim[i] ^ mask[i % 32]`. -/
def blindClaim (claim : Bytes) (factor : BlindFactor) : Bytes :=
  claim.mapIdx fun i b => b ^^^ maskByte factor.mask i

/-- `unblinded[i] = transcript[i] ^ unmask[i]`. -/
def unblindTranscript (X : Xof) (transcript : Block 32) (factor : BlindFactor) :
    Hashing (Block 32) := do
  let unmask ← ((Shake256.new.update blindUnmask).update factor.nonce.toList).squeeze X 32
  pure (List.Vector.zipWith (· ^^^ ·) transcript unmask)

/-- A fresh factor is the factor of the nonce that was drawn. -/
theorem fresh_eq (X : Xof) (nonce : Block 32) :
    BlindFactor.fresh X (some nonce) = Except.ok <$> BlindFactor.fromNonce X nonce := rfl

/-! ### The group of masks -/

section

variable {n : Nat}

instance : Add (Block n) := ⟨List.Vector.zipWith (· ^^^ ·)⟩

instance : Zero (Block n) := ⟨zeros n⟩

instance : Neg (Block n) := ⟨fun a => a⟩

theorem get_add (a b : Block n) (i : Fin n) : (a + b).get i = a.get i ^^^ b.get i :=
  List.Vector.zipWith_get _ a b i

theorem get_zero (i : Fin n) : (0 : Block n).get i = 0 := List.Vector.get_replicate ..

/-- Masks are added byte by byte, modulo two, and each is its own inverse. -/
instance : AddGroup (Block n) where
  nsmul := nsmulRec
  zsmul := zsmulRec
  add_assoc a b c := by
    apply List.Vector.ext
    intro i
    rw [get_add, get_add, get_add, get_add, UInt8.xor_assoc]
  zero_add a := by
    apply List.Vector.ext
    intro i
    rw [get_add, get_zero, UInt8.zero_xor]
  add_zero a := by
    apply List.Vector.ext
    intro i
    rw [get_add, get_zero, UInt8.xor_zero]
  neg_add_cancel a := by
    apply List.Vector.ext
    intro i
    change (a + a).get i = (0 : Block n).get i
    rw [get_add, get_zero, UInt8.xor_self]

end

instance finiteUInt8 : Finite UInt8 :=
  Finite.of_injective (fun b : UInt8 => (⟨b.toNat, b.toNat_lt⟩ : Fin (2 ^ 8)))
    fun _ _ h => UInt8.toNat_inj.mp (Fin.mk.inj_iff.mp h)

theorem maskByte_add (a b : Block 32) (i : Nat) :
    maskByte (a + b) i = maskByte a i ^^^ maskByte b i := get_add a b _

theorem maskByte_zero (i : Nat) : maskByte 0 i = 0 := get_zero _

/-- The masks act on the claims by blinding. -/
instance : AddAction (Block 32) Bytes where
  vadd mask claim := claim.mapIdx fun i b => b ^^^ maskByte mask i
  zero_vadd claim := by
    apply List.ext_getElem
    · exact List.length_mapIdx
    · intro i h h'
      change (claim.mapIdx fun i b => b ^^^ maskByte 0 i)[i] = claim[i]
      rw [List.getElem_mapIdx, maskByte_zero, UInt8.xor_zero]
  add_vadd a b claim := by
    apply List.ext_getElem
    · change (claim.mapIdx _).length = ((claim.mapIdx _).mapIdx _).length
      rw [List.length_mapIdx, List.length_mapIdx, List.length_mapIdx]
    · intro i h h'
      change (claim.mapIdx fun i x => x ^^^ maskByte (a + b) i)[i]
        = ((claim.mapIdx fun i x => x ^^^ maskByte b i).mapIdx fun i x => x ^^^ maskByte a i)[i]
      rw [List.getElem_mapIdx, List.getElem_mapIdx, List.getElem_mapIdx, maskByte_add,
        UInt8.xor_assoc, UInt8.xor_comm (maskByte a i)]

/-- Blinding is the action of the mask. -/
theorem blindClaim_eq_vadd (claim : Bytes) (factor : BlindFactor) :
    blindClaim claim factor = factor.mask +ᵥ claim := rfl

theorem length_blindClaim (claim : Bytes) (factor : BlindFactor) :
    (blindClaim claim factor).length = claim.length := List.length_mapIdx

/-- Blinding with one factor twice gives the claim back. -/
theorem blindClaim_blindClaim (claim : Bytes) (factor : BlindFactor) :
    blindClaim (blindClaim claim factor) factor = claim := by
  rw [blindClaim_eq_vadd, blindClaim_eq_vadd, vadd_vadd]
  exact (congrArg (· +ᵥ claim) (neg_add_cancel factor.mask)).trans (zero_vadd _ claim)

/-! ### What the blinded bytes tell -/

/-- The two claims differ by the same byte at places that share a mask byte. -/
def Alike (claim claim' : Bytes) : Prop :=
  ∀ i < claim.length, ∀ j < claim.length, i % 32 = j % 32 →
    claim.getD i 0 ^^^ claim'.getD i 0 = claim.getD j 0 ^^^ claim'.getD j 0

instance (claim claim' : Bytes) : Decidable (Alike claim claim') :=
  inferInstanceAs (Decidable (∀ i < claim.length, ∀ j < claim.length, _ → _))

theorem getD_vadd (mask : Block 32) (claim : Bytes) (i : Nat) (hi : i < claim.length) :
    (mask +ᵥ claim).getD i 0 = claim.getD i 0 ^^^ maskByte mask i := by
  change (claim.mapIdx fun i b => b ^^^ maskByte mask i).getD i 0 = _
  rw [List.getD_eq_getElem _ _ (by rw [List.length_mapIdx]; exact hi), List.getElem_mapIdx,
    List.getD_eq_getElem _ _ hi]

/-- A claim can be masked to exactly the claims of its length that it is alike
    to. -/
theorem mem_orbit_iff (claim claim' : Bytes) (hlen : claim.length = claim'.length) :
    claim' ∈ AddAction.orbit (Block 32) claim ↔ Alike claim claim' := by
  constructor
  · rintro ⟨mask, rfl⟩ i hi j hj hij
    dsimp only
    -- What is left of each sum is the mask byte the two places share.
    rw [getD_vadd mask claim i hi, getD_vadd mask claim j hj, ← UInt8.xor_assoc, UInt8.xor_self,
      UInt8.zero_xor, ← UInt8.xor_assoc, UInt8.xor_self, UInt8.zero_xor]
    unfold maskByte
    simp only [hij]
  · intro halike
    -- The mask is read off the first 32 places.
    refine ⟨List.Vector.ofFn fun k : Fin 32 => claim.getD k 0 ^^^ claim'.getD k 0, ?_⟩
    apply List.ext_getElem
    · exact List.length_mapIdx.trans hlen
    · intro i hi hi'
      have hlt : i < claim.length := by rw [hlen]; exact hi'
      have hmask := halike i hlt (i % 32) (lt_of_le_of_lt (Nat.mod_le i 32) hlt)
        (Nat.mod_mod i 32).symm
      rw [← List.getD_eq_getElem _ 0 hi, ← List.getD_eq_getElem _ 0 hi', getD_vadd _ _ i hlt]
      unfold maskByte
      rw [List.Vector.get_ofFn]
      dsimp only
      rw [← hmask, ← UInt8.xor_assoc, UInt8.xor_self, UInt8.zero_xor]

/-- Claims of at most 32 bytes have a mask byte of their own at every place. -/
theorem alike_of_le (claim claim' : Bytes) (h : claim.length ≤ 32) : Alike claim claim' := by
  intro i hi j hj hij
  rw [Nat.mod_eq_of_lt (by omega), Nat.mod_eq_of_lt (by omega)] at hij
  rw [hij]

/-- Two claims of one length are blinded to every output by equally many masks
    exactly if they differ by the same byte at any two places 32 apart. -/
theorem blind_hides_iff (nonce : Block 32) (claim claim' : Bytes)
    (hlen : claim.length = claim'.length) :
    (∀ b, Nat.card { mask : Block 32 // blindClaim claim { nonce := nonce, mask := mask } = b }
        = Nat.card { mask : Block 32 // blindClaim claim' { nonce := nonce, mask := mask } = b }) ↔
      Alike claim claim' := by
  rw [← mem_orbit_iff claim claim' hlen]
  exact card_vadd_eq_iff claim claim'

/-- Claims of at most 32 bytes are hidden but for their length. -/
theorem blind_hides_of_le (nonce : Block 32) (claim claim' : Bytes)
    (hlen : claim.length = claim'.length) (h : claim.length ≤ 32) (b : Bytes) :
    Nat.card { mask : Block 32 // blindClaim claim { nonce := nonce, mask := mask } = b }
      = Nat.card { mask : Block 32 // blindClaim claim' { nonce := nonce, mask := mask } = b } :=
  card_vadd_eq_of_mem_orbit claim claim'
    ((mem_orbit_iff claim claim' hlen).mpr (alike_of_le claim claim' h)) b

/-- Two claims of 33 bytes that differ everywhere by the same byte. -/
theorem blind_hides_flipped :
    Nat.card { mask : Block 32 // blindClaim (List.replicate 33 0)
        { nonce := zeros 32, mask := mask } = List.replicate 33 0 }
      = Nat.card { mask : Block 32 // blindClaim (List.replicate 33 1)
        { nonce := zeros 32, mask := mask } = List.replicate 33 0 } :=
  (blind_hides_iff (zeros 32) (List.replicate 33 0) (List.replicate 33 1) rfl).mpr (by decide) _

/-- The claims `0 … 0` and `0 … 0 1` of 33 bytes are told apart: some mask blinds
    the first to `0 … 0`, and none the second. -/
theorem blind_reveals_repeat :
    (List.replicate 33 (0 : UInt8)).length = (List.replicate 32 (0 : UInt8) ++ [1]).length ∧
    Nat.card { mask : Block 32 // blindClaim (List.replicate 33 0)
        { nonce := zeros 32, mask := mask } = List.replicate 33 0 }
      ≠ Nat.card { mask : Block 32 // blindClaim (List.replicate 32 0 ++ [1])
        { nonce := zeros 32, mask := mask } = List.replicate 33 0 } := by
  refine ⟨rfl, fun h => ?_⟩
  have hpos : 0 < Nat.card { mask : Block 32 // blindClaim (List.replicate 33 0)
      { nonce := zeros 32, mask := mask } = List.replicate 33 0 } :=
    Nat.card_pos_iff.mpr
      ⟨⟨0, (blindClaim_eq_vadd _ _).trans (zero_vadd (Block 32) _)⟩, inferInstance⟩
  rw [h] at hpos
  rcases (Nat.card_pos_iff.mp hpos).1 with ⟨mask, hmask⟩
  have horbit := (mem_orbit_iff (List.replicate 32 0 ++ [1]) (List.replicate 33 0) rfl).mp
    ⟨mask, hmask⟩
  exact absurd (horbit 0 (by decide) 32 (by decide) rfl) (by decide)

end Blind

end Veil7
