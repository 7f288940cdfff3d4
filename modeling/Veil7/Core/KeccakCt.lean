import Veil7.Core.Window

/-!
# The Masked Hasher

`CtShake256` of `keccak_ct.rs`: a hasher that XORs what it absorbs with a stream
of bytes made from its mask, so that its inner hasher never sees the data.

The stream is read from a reader like any other, and a reader has 256 bytes to
give. From there on it is filled with zeros, and so the bytes of longer data are
absorbed as they are (`fed_eq_append`). `ctUpdate_masks_iff` is the exact condition,
for a call after any others.

## Main definitions

* `CtShake256`: The hasher, its mask and its count of calls.
* `ctUpdate`, `updatePublic`: The two ways to absorb.
* `Call`, `runCalls`: A call, and a sequence of calls.
* `maskStream`: The output that data of a length is to be masked with.
* `fed`: What a call hands to the inner hasher.

## Theorems

* `fed_eq_append`: The masked bytes and the ones in the clear.
* `mask_runCalls`, `callCounter_runCalls`: The state after a sequence of calls.
* `ctUpdate_masks_iff`: When a call masks all of its data.
* `ctUpdate_past_window`: A byte that is absorbed in the clear.
-/

namespace Veil7

structure CtShake256 where
  inner : Shake256
  mask : Block 32
  callCounter : UInt64

namespace CtShake256

def withMask (mask : Block 32) : CtShake256 :=
  { inner := Shake256.new, mask := mask, callCounter := 0 }

section

variable (X : Xof)

/-- Absorb data with masking. -/
def ctUpdate (h : CtShake256) (data : Bytes) : Hashing CtShake256 := do
  let maskXof := Shake256.new.update (ascii "veil7:ct:mask-stream")
  let maskXof := maskXof.update h.mask.toList
  let maskXof := maskXof.update (u64Bytes h.callCounter.toNat)
  let maskXof := maskXof.update (u64Bytes data.length)
  let maskStream ← maskXof.squeeze X data.length
  let masked := xorBytes data maskStream.toList
  -- The counter wraps around.
  pure { h with inner := h.inner.update masked, callCounter := h.callCounter + 1 }

/-- Absorb data without masking. -/
def updatePublic (h : CtShake256) (data : Bytes) : CtShake256 :=
  { h with inner := h.inner.update data }

end

/-- A call with its data. -/
inductive Call where
  | ctUpdate (data : Bytes)
  | updatePublic (data : Bytes)

/-- The data of the call is masked. -/
def Call.isMasked : Call → Bool
  | ctUpdate _ => true
  | updatePublic _ => false

section

variable (X : Xof)

def runCall (h : CtShake256) : Call → Hashing CtShake256
  | .ctUpdate data => h.ctUpdate X data
  | .updatePublic data => pure (h.updatePublic data)

def runCalls (h : CtShake256) (calls : List Call) : Hashing CtShake256 :=
  calls.foldlM (runCall X) h

/-- The string a mask stream is the output for. -/
def maskString (mask : Block 32) (callCounter : UInt64) (len : Nat) : Bytes :=
  ascii "veil7:ct:mask-stream" ++ mask.toList ++ u64Bytes callCounter.toNat ++ u64Bytes len

/-- The SHAKE256 output that data of a length is to be masked with. -/
def maskStream (mask : Block 32) (callCounter : UInt64) (len : Nat) : Bytes :=
  (X (maskString mask callCounter len) len).toList

/-- The bytes that a call hands to the inner hasher. -/
def fed (h : CtShake256) (data : Bytes) : Bytes :=
  (h.ctUpdate X data).val.inner.buf.drop h.inner.buf.length

/-- What a call hands on is the data with what the reader serves. -/
theorem fed_eq (h : CtShake256) (data : Bytes) :
    fed X h data
      = xorBytes data (digest X data.length
          (maskString h.mask h.callCounter data.length)).toList := by
  rw [fed, ctUpdate, Queried.val_bind, Queried.val_pure, Shake256.val_squeeze]
  dsimp only
  rw [Shake256.buf_update, List.drop_left]
  rfl

/-- The reader serves the stream's first 256 bytes and then zeros. -/
theorem toList_digest_maskString (hX : X.Continues) (mask : Block 32) (callCounter : UInt64)
    (len : Nat) :
    (digest X len (maskString mask callCounter len)).toList
      = (maskStream X mask callCounter len).take 256 ++ List.replicate (len - 256) 0 := by
  change (Shake256Reader.read _ len).1.toList = _
  rw [Shake256Reader.toList_read]
  change (List.drop 0 (X _ 256).toList).take len ++ _ = _
  rw [List.drop_zero, maskStream]
  congr 1
  rcases Nat.le_total len 256 with h | h
  · rw [hX _ _ _ h, List.take_of_length_le (by rw [Block.length_toList]; exact h)]
  · rw [hX _ _ _ h, List.take_of_length_le (by rw [Block.length_toList]; exact h)]

/-- The first 256 bytes are handed on masked, and the rest in the clear. -/
theorem fed_eq_append (hX : X.Continues) (h : CtShake256) (data : Bytes) :
    fed X h data
      = xorBytes (data.take 256) ((maskStream X h.mask h.callCounter data.length).take 256)
        ++ data.drop 256 := by
  have hstream : (maskStream X h.mask h.callCounter data.length).length = data.length :=
    Block.length_toList _ _
  have htake : ((maskStream X h.mask h.callCounter data.length).take 256).length
      = min 256 data.length := by
    rw [List.length_take, hstream]
  rw [fed_eq, toList_digest_maskString X hX, xorBytes_eq_append _ _ 256]
  congr 1
  · rcases Nat.le_total data.length 256 with hle | hle
    · rw [Nat.sub_eq_zero_of_le hle, List.replicate_zero, List.append_nil, List.take_take,
        Nat.min_self]
    · rw [List.take_append_of_le_length (by omega), List.take_take, Nat.min_self]
  · refine (xorBytes_eq_self_iff _ _ ?_).mpr fun x hx => ?_
    · rw [List.length_drop, List.length_append, htake, List.length_replicate, List.length_drop]
      omega
    -- What is left after the window is the reader's zeros.
    · rw [List.drop_append, List.drop_of_length_le (by omega), List.nil_append] at hx
      exact List.eq_of_mem_replicate (List.mem_of_mem_drop hx)

theorem buf_ctUpdate (h : CtShake256) (data : Bytes) :
    (h.ctUpdate X data).val.inner.buf = h.inner.buf ++ fed X h data := by
  rw [fed_eq]
  rfl

theorem mask_runCalls (h : CtShake256) (calls : List Call) :
    (runCalls X h calls).val.mask = h.mask := by
  rw [runCalls, Queried.val_foldlM]
  induction calls generalizing h with
  | nil => rfl
  | cons c calls ih =>
      rw [List.foldl_cons, ih]
      cases c with
      | ctUpdate data => rfl
      | updatePublic data => rfl

/-- The counter counts the masked calls. -/
theorem callCounter_runCalls (h : CtShake256) (calls : List Call) :
    (runCalls X h calls).val.callCounter
      = h.callCounter + UInt64.ofNat (calls.countP Call.isMasked) := by
  rw [runCalls, Queried.val_foldlM]
  induction calls generalizing h with
  | nil => exact (UInt64.add_zero _).symm
  | cons c calls ih =>
      rw [List.foldl_cons, ih]
      cases c with
      | ctUpdate data =>
          rw [List.countP_cons_of_pos rfl]
          change h.callCounter + 1 + _ = _
          rw [UInt64.add_assoc, UInt64.ofNat_add, UInt64.add_comm 1]
          rfl
      | updatePublic data =>
          rw [List.countP_cons_of_neg Bool.false_ne_true]
          rfl

/-- After any calls, the next one hands on its data masked with the stream if
    and only if it has no byte beyond the window, or the stream has only zeros
    there. -/
theorem ctUpdate_masks_iff (hX : X.Continues) (mask : Block 32) (calls : List Call)
    (data : Bytes) :
    fed X (runCalls X (withMask mask) calls).val data
        = xorBytes data (maskStream X mask (UInt64.ofNat (calls.countP Call.isMasked)) data.length)
      ↔ data.length ≤ 256 ∨
        ∀ b ∈ (maskStream X mask (UInt64.ofNat (calls.countP Call.isMasked)) data.length).drop 256,
          b = 0 := by
  have hmask : (runCalls X (withMask mask) calls).val.mask = mask := mask_runCalls X _ calls
  have hcounter : (runCalls X (withMask mask) calls).val.callCounter
      = UInt64.ofNat (calls.countP Call.isMasked) := by
    rw [callCounter_runCalls]
    exact UInt64.zero_add _
  rw [fed_eq_append X hX, hmask, hcounter]
  generalize hk : maskStream X mask (UInt64.ofNat (calls.countP Call.isMasked)) data.length = k
  have hlen : k.length = data.length := by
    rw [← hk]
    exact Block.length_toList _ _
  -- The two agree on the window, and beyond it the one is the data itself.
  rw [xorBytes_eq_append data k 256, List.append_cancel_left_eq, eq_comm,
    xorBytes_eq_self_iff _ _ (by rw [List.length_drop, List.length_drop, hlen])]
  constructor
  · exact Or.inr
  · rintro (hshort | hzero)
    · intro b hb
      rw [List.drop_of_length_le (by omega)] at hb
      cases hb
    · exact hzero

/-- Three bytes after a masked call and a public one. -/
theorem ctUpdate_masks_iff_short :
    fed Keccak.shake256
        (runCalls Keccak.shake256 (withMask (zeros 32))
          [.ctUpdate (ascii "ab"), .updatePublic (ascii "c")]).val (ascii "abc")
      = xorBytes (ascii "abc") (maskStream Keccak.shake256 (zeros 32) 1 3) :=
  (ctUpdate_masks_iff Keccak.shake256 continues_shake256 (zeros 32)
    [.ctUpdate (ascii "ab"), .updatePublic (ascii "c")] (ascii "abc")).mpr
    (Or.inl (by decide))

/-- The last of 257 bytes is handed on in the clear. -/
theorem ctUpdate_past_window :
    Xof.Continues Keccak.shake256 ∧
    fed Keccak.shake256 (withMask (zeros 32)) (List.replicate 257 1)
      ≠ xorBytes (List.replicate 257 1)
          (maskStream Keccak.shake256 (zeros 32) 0 257) := by
  refine ⟨continues_shake256, fun h => ?_⟩
  -- The last byte of the stream is not zero.
  have hlast : (xorBytes (List.replicate 257 1)
      (maskStream Keccak.shake256 (zeros 32) 0 257)).getLast? ≠ some 1 := by
    decide +kernel
  rw [← h, fed_eq_append _ continues_shake256] at hlast
  exact hlast (List.getLast?_concat ..)

end

end CtShake256

end Veil7
