import Mathlib.Data.Vector.Basic
import Veil7.Library.Encoding

/-!
# Bytes and Domain Tags

The byte-level vocabulary of the engine: strings, fixed-size arrays, the two
errors, and the tags that keep the steps of the engine apart inside the one
hash function they share.

A Rust array `[u8; N]` is a `Block N`, a list that carries its length, so a
32-byte digest cannot be confused with a 64-byte state. `subtle::Choice` is a
`Bool`; the branch-free way it is computed has no counterpart here.

## Main definitions

* `Bytes`, `Block`: Byte strings and byte arrays.
* `u64Bytes`: The little-endian bytes of a 64-bit number.
* `xorBytes`: Byte-wise exclusive or.
* `VeilError`: The two errors the engine reports.
* `Domain`: The domain-separation tags.
-/

namespace Veil7

/-- A byte string, `&[u8]` or `Vec<u8>`. -/
abbrev Bytes : Type := List UInt8

/-- A byte array, `[u8; n]`. -/
abbrev Block (n : Nat) : Type := List.Vector UInt8 n

/-- The array of `n` zeros, `[0u8; n]`. -/
def zeros (n : Nat) : Block n := List.Vector.replicate n 0

/-- The bytes of an ASCII literal. -/
def ascii (s : String) : Bytes := s.toList.map fun c => UInt8.ofNat c.toNat

/-- The number cast to `u64`, as little-endian bytes. -/
def u64Bytes (n : Nat) : Bytes := leBytes 8 n

@[simp] theorem length_u64Bytes (n : Nat) : (u64Bytes n).length = 8 := length_leBytes 8 n

@[simp] theorem Block.length_toList (n : Nat) (b : Block n) : b.toList.length = n :=
  List.Vector.toList_length b

theorem Block.toList_inj (n : Nat) (a b : Block n) (h : a.toList = b.toList) : a = b :=
  List.Vector.toList_injective h

/-- Arrays written at the front of two strings are read back, with the rest. -/
theorem Block.toList_append_inj (n : Nat) (a b : Block n) (u v : Bytes)
    (h : a.toList ++ u = b.toList ++ v) : a = b ∧ u = v := by
  have hab := List.append_inj h (by rw [Block.length_toList, Block.length_toList])
  exact ⟨Block.toList_inj n a b hab.1, hab.2⟩

/-- `a ^ b`, byte by byte. -/
def xorBytes (a b : Bytes) : Bytes := List.zipWith (· ^^^ ·) a b

theorem xorBytes_eq_append (a b : Bytes) (n : Nat) :
    xorBytes a b = xorBytes (a.take n) (b.take n) ++ xorBytes (a.drop n) (b.drop n) := by
  rw [xorBytes, xorBytes, xorBytes, ← List.take_zipWith, ← List.drop_zipWith,
    List.take_append_drop]

/-- Only zeros leave all the bytes as they are. -/
theorem xorBytes_eq_self_iff (a b : Bytes) (hlen : b.length = a.length) :
    xorBytes a b = a ↔ ∀ x ∈ b, x = 0 := by
  induction a generalizing b with
  | nil =>
      rw [List.eq_nil_of_length_eq_zero hlen]
      exact iff_of_true rfl (fun _ hx => nomatch hx)
  | cons c a ih =>
      cases b with
      | nil => cases hlen
      | cons x b =>
          rw [List.length_cons, List.length_cons, Nat.succ_inj] at hlen
          rw [List.forall_mem_cons, ← ih b hlen]
          change (c ^^^ x) :: xorBytes a b = c :: a ↔ _
          rw [List.cons.injEq, ← UInt8.xor_eq_zero_iff, UInt8.xor_comm c x, UInt8.xor_assoc,
            UInt8.xor_self, UInt8.xor_zero]

/-- The errors of the engine. -/
inductive VeilError where
  | entropy
  | crypto
deriving DecidableEq

/-- A constant-time truth value, `subtle::Choice`. -/
abbrev Choice : Type := Bool

/-- Checks combined without an early exit. -/
theorem foldl_and {α : Type} (p : α → Choice) (l : List α) (acc : Choice) :
    l.foldl (fun acc a => acc && p a) acc = (acc && l.all p) := by
  induction l generalizing acc with
  | nil => rw [List.foldl_nil, List.all_nil, Bool.and_true]
  | cons a l ih => rw [List.foldl_cons, ih, List.all_cons, Bool.and_assoc]

namespace Domain

def entropyMix : Bytes := ascii "veil7:L1:entropy-mix:v1"

def entropyFold : Bytes := ascii "veil7:L1:entropy-fold:v1"

def entropyFinalize : Bytes := ascii "veil7:L1:entropy-finalize:v1"

def entropySourceOsPrimary : Bytes := ascii "veil7:L1:src:os-primary:v1"

def entropySourceOsSecondary : Bytes := ascii "veil7:L1:src:os-secondary:v1"

def entropySourceWallClock : Bytes := ascii "veil7:L1:src:wall-clock:v1"

def entropySourceStackAddr : Bytes := ascii "veil7:L1:src:stack-addr:v1"

def entropySourceThreadId : Bytes := ascii "veil7:L1:src:thread-id:v1"

def entropySourceHwCounter : Bytes := ascii "veil7:L1:src:hw-counter:v1"

def entropySourceProcessId : Bytes := ascii "veil7:L1:src:process-id:v1"

def entropySourceMemoryAlloc : Bytes := ascii "veil7:L1:src:memory-alloc:v1"

def entropySourceCpuCache : Bytes := ascii "veil7:L1:src:cpu-cache:v1"

def entropySourcePageFault : Bytes := ascii "veil7:L1:src:page-fault:v1"

def entropySourceInterrupt : Bytes := ascii "veil7:L1:src:interrupt:v1"

def entropySourceMemoryContention : Bytes := ascii "veil7:L1:src:memory-contention:v1"

def kemSeed : Bytes := ascii "veil7:L2:kem-seed:v1"

def sigSeed : Bytes := ascii "veil7:L2:sig-seed:v1"

def kemEncapCoins : Bytes := ascii "veil7:L2:kem-encap-coins:v1"

def commitment : Bytes := ascii "veil7:L3:commitment:v1"

def transcript : Bytes := ascii "veil7:L7:transcript:v1"

def fsProtocol : Bytes := ascii "veil7:fs:protocol:v1"

def fsAbsorb : Bytes := ascii "veil7:fs:absorb:v1"

def fsSqueeze : Bytes := ascii "veil7:fs:squeeze:v1"

def fsPostChallenge : Bytes := ascii "veil7:fs:post-challenge:v1"

def chainHead : Bytes := ascii "veil7:chain:head:v1"

def chainStep : Bytes := ascii "veil7:chain:step:v1"

def lamportSecret : Bytes := ascii "veil7:rel:lamport:secret:v1"

def lamportPubnode : Bytes := ascii "veil7:rel:lamport:pubnode:v1"

def merkleLeaf : Bytes := ascii "veil7:rel:merkle:leaf:v1"

def merkleNode : Bytes := ascii "veil7:rel:merkle:node:v1"

def pedersenOpen : Bytes := ascii "veil7:rel:pedersen:open:v1"

def rangeBit : Bytes := ascii "veil7:rel:range:bit:v1"

def batchHead : Bytes := ascii "veil7:batch:head:v1"

def batchStep : Bytes := ascii "veil7:batch:step:v1"

end Domain

end Veil7
