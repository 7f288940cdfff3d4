import Mathlib.Data.Vector.Zip
import Mathlib.Logic.Equiv.Basic
import Veil7.Core.Shake256
import Veil7.Library.Simulation
import Veil7.Library.Sweep

/-!
# The Oblivious Memory

`storage/oram.rs`: 256 slots of 64 bytes, every one of which is touched by
every access. Where ordinary memory would index, each operation sweeps over all
slots and keeps or replaces the bytes with a mask that is all ones at the slot
it is after and all zeros elsewhere.

`slot` is what the masks amount to: the address modulo 256. On the 256 contents
the operations are those of a plain array (`step_simulates`), with the hash of
what is written in place of the value, and so is every history of them
(`runOps_new`). The reads of the padding have no counterpart.

## Main definitions

* `ObliviousRAM`: The slots with their padding.
* `select`, `maskFor`: The masked update and its mask.
* `read`, `write`, `readModifyWrite`, `swap`: The four operations.
* `Op`, `step`: An operation with its arguments, and its effect.
* `plainStep`: The same operation on an array of 256 values.

## Theorems

* `select_maskFor`: The masked update replaces at one position.
* `scan_eq`, `contents_store`, `contents_swap`: What the sweeps amount to.
* `read_write`: What is read back.
* `step_simulates`: One operation.
* `runOps_new`: Every history from a fresh memory.
-/

namespace Veil7

namespace Oram

/-- The content of a fresh slot. -/
def genesis : Block 64 := zeros 64

structure CacheLine where
  content : Block 64
  pad : Block 64

structure ObliviousRAM where
  data : List.Vector CacheLine 256

def new : ObliviousRAM :=
  { data := List.Vector.replicate 256 { content := genesis, pad := zeros 64 } }

/-- `0u8.wrapping_sub((i == index) as u8)`. -/
def maskFor (i : Fin 256) (index : UInt64) : UInt8 :=
  0 - (if i.val = index.toNat then 1 else 0)

/-- `(old & !mask) | (new & mask)`, byte by byte. -/
def select (mask : UInt8) (old new : Block 64) : Block 64 :=
  List.Vector.zipWith (fun old new => (old &&& ~~~mask) ||| (new &&& mask)) old new

/-- The sweep that reads. -/
def scan (oram : ObliviousRAM) (index : UInt64) : Block 64 :=
  (List.finRange 256).foldl
    (fun result i => select (maskFor i index) result (oram.data.get i).content) genesis

/-- The sweep that writes. -/
def store (oram : ObliviousRAM) (index : UInt64) (hashed : Block 64) : ObliviousRAM :=
  { data := sweep (fun i line =>
      { line with content := select (maskFor i index) line.content hashed }) oram.data }

section

variable (X : Xof)

def oramHash (input : Bytes) : Hashing (Block 64) :=
  ((Shake256.new.update (ascii "veil7:oram:hash:v1")).update input).squeeze X 64

def read (oram : ObliviousRAM) (addr : UInt64) : Block 64 :=
  let index := addr &&& 0xFF
  scan oram index

def write (oram : ObliviousRAM) (addr : UInt64) (value : Block 64) : Hashing ObliviousRAM := do
  let index := addr &&& 0xFF
  let hashed ← oramHash X value.toList
  pure (store oram index hashed)

def readModifyWrite (oram : ObliviousRAM) (addr : UInt64) (f : Block 64 → Block 64) :
    Hashing (Block 64 × ObliviousRAM) := do
  let index := addr &&& 0xFF
  let oldValue := scan oram index
  let modified := f oldValue
  let newHashed ← oramHash X modified.toList
  pure (modified, store oram index newHashed)

def swap (oram : ObliviousRAM) (addrA addrB : UInt64) : ObliviousRAM :=
  let indexA := addrA &&& 0xFF
  let indexB := addrB &&& 0xFF
  -- Both values are read in one sweep and written back in another.
  let vals := (List.finRange 256).foldl
    (fun (vals : Block 64 × Block 64) i =>
      (select (maskFor i indexA) vals.1 (oram.data.get i).content,
        select (maskFor i indexB) vals.2 (oram.data.get i).content)) (genesis, genesis)
  { data := sweep (fun i line =>
      let newA := select (maskFor i indexA) line.content vals.2
      let newB := select (maskFor i indexB) newA vals.1
      { line with content := newB }) oram.data }

/-- An operation with its arguments. -/
inductive Op where
  | write (addr : UInt64) (value : Block 64)
  | read (addr : UInt64)
  | readModifyWrite (addr : UInt64) (f : Block 64 → Block 64)
  | swap (addrA addrB : UInt64)

/-- What an operation returns, and the memory after it. -/
def step (oram : ObliviousRAM) : Op → Hashing (Option (Block 64) × ObliviousRAM)
  | .write addr value => do
    let oram ← write X oram addr value
    pure (none, oram)
  | .read addr => pure (some (read oram addr), oram)
  | .readModifyWrite addr f => do
    let (modified, oram) ← readModifyWrite X oram addr f
    pure (some modified, oram)
  | .swap addrA addrB => pure (none, swap oram addrA addrB)

/-! ### The plain array -/

/-- An array of 256 values. -/
abbrev Slots : Type := Fin 256 → Block 64

/-- The slot an address stands for. -/
def slot (addr : UInt64) : Fin 256 := ⟨addr.toNat % 256, Nat.mod_lt _ (by omega)⟩

/-- The operations of the memory on an array, as they are meant. -/
def plainStep (slots : Slots) : Op → Hashing (Option (Block 64) × Slots)
  | .write addr value => do
    let hashed ← oramHash X value.toList
    pure (none, Function.update slots (slot addr) hashed)
  | .read addr => pure (some (slots (slot addr)), slots)
  | .readModifyWrite addr f => do
    let modified := f (slots (slot addr))
    let hashed ← oramHash X modified.toList
    pure (some modified, Function.update slots (slot addr) hashed)
  | .swap addrA addrB => pure (none, slots ∘ Equiv.swap (slot addrA) (slot addrB))

/-- The contents of the slots. -/
def contents (oram : ObliviousRAM) : Slots := fun i => (oram.data.get i).content

end

/-! ### What the sweeps amount to -/

theorem toNat_and_mask (addr : UInt64) : (addr &&& 0xFF).toNat = addr.toNat % 256 := by
  rw [UInt64.toNat_and]
  exact Nat.and_two_pow_sub_one_eq_mod addr.toNat 8

/-- The mask is set at the slot of the address and nowhere else. -/
theorem maskFor_and_mask (i : Fin 256) (addr : UInt64) :
    maskFor i (addr &&& 0xFF) = if i = slot addr then 0xFF else 0 := by
  have hiff : i.val = (addr &&& 0xFF).toNat ↔ i = slot addr := by
    rw [toNat_and_mask, Fin.ext_iff]
    rfl
  unfold maskFor
  by_cases h : i = slot addr
  · rw [if_pos h, if_pos (hiff.mpr h)]
    decide
  · rw [if_neg h, if_neg (fun heq => h (hiff.mp heq))]
    decide

theorem select_ones (old new : Block 64) : select 0xFF old new = new := by
  apply List.Vector.ext
  intro j
  rw [select, List.Vector.zipWith_get, show (~~~(0xFF : UInt8)) = 0 by decide, UInt8.and_zero,
    UInt8.zero_or]
  exact UInt8.and_neg_one

theorem select_zeros (old new : Block 64) : select 0 old new = old := by
  apply List.Vector.ext
  intro j
  rw [select, List.Vector.zipWith_get, UInt8.and_zero, UInt8.or_zero,
    show (~~~(0 : UInt8)) = -1 by decide, UInt8.and_neg_one]

/-- The masked update replaces the bytes at the slot of the address and keeps
    them everywhere else. -/
theorem select_maskFor (i : Fin 256) (addr : UInt64) (old new : Block 64) :
    select (maskFor i (addr &&& 0xFF)) old new = if i = slot addr then new else old := by
  rw [maskFor_and_mask]
  by_cases h : i = slot addr
  · rw [if_pos h, if_pos h, select_ones]
  · rw [if_neg h, if_neg h, select_zeros]

theorem scan_eq (oram : ObliviousRAM) (addr : UInt64) :
    scan oram (addr &&& 0xFF) = contents oram (slot addr) := by
  unfold scan
  simp only [select_maskFor]
  exact foldl_pick (contents oram) (slot addr) genesis

theorem contents_store (oram : ObliviousRAM) (addr : UInt64) (hashed : Block 64) :
    contents (store oram (addr &&& 0xFF) hashed)
      = Function.update (contents oram) (slot addr) hashed := by
  funext i
  unfold contents store
  rw [get_sweep, Function.update_apply]
  exact select_maskFor i addr _ _

/-- What is read back is the hash of what was written. -/
theorem read_write (X : Xof) (oram : ObliviousRAM) (addr : UInt64) (value : Block 64) :
    read (write X oram addr value).val addr = (oramHash X value.toList).val := by
  rw [read, scan_eq, write, Queried.val_bind, Queried.val_pure, contents_store,
    Function.update_self]

/-- The reads of a swap are two scans. -/
theorem scan_pair (oram : ObliviousRAM) (indexA indexB : UInt64) :
    (List.finRange 256).foldl
      (fun (vals : Block 64 × Block 64) i =>
        (select (maskFor i indexA) vals.1 (oram.data.get i).content,
          select (maskFor i indexB) vals.2 (oram.data.get i).content)) (genesis, genesis)
      = (scan oram indexA, scan oram indexB) :=
  foldl_prod (fun acc i => select (maskFor i indexA) acc (oram.data.get i).content)
    (fun acc i => select (maskFor i indexB) acc (oram.data.get i).content) _ _ _

/-- A swap exchanges the two slots. At one and the same slot both masks are
    set, and the second update puts back what the first replaced. -/
theorem contents_swap (oram : ObliviousRAM) (addrA addrB : UInt64) :
    contents (swap oram addrA addrB) = contents oram ∘ Equiv.swap (slot addrA) (slot addrB) := by
  funext i
  unfold contents swap
  dsimp only
  rw [get_sweep, scan_pair]
  dsimp only
  rw [scan_eq, scan_eq, select_maskFor, select_maskFor, Function.comp_apply, Equiv.swap_apply_def]
  by_cases ha : i = slot addrA
  · rw [if_pos ha, if_pos ha]
    by_cases hb : i = slot addrB
    · rw [if_pos hb, ← ha, ← hb]
      rfl
    · rw [if_neg hb]
      rfl
  · rw [if_neg ha, if_neg ha]
    by_cases hb : i = slot addrB
    · rw [if_pos hb, if_pos hb]
      rfl
    · rw [if_neg hb, if_neg hb]

/-! ### The simulation -/

section

variable (X : Xof)

/-- One operation on the memory is the same operation on its contents. -/
theorem step_simulates (oram : ObliviousRAM) (op : Op) :
    plainStep X (contents oram) op = Prod.map id contents <$> step X oram op := by
  cases op with
  | write addr value =>
      simp only [plainStep, step, write, bind_assoc, pure_bind, map_bind, map_pure,
        Prod.map_apply, id_eq, contents_store]
  | read addr =>
      simp only [plainStep, step, read, map_pure, Prod.map_apply, id_eq, scan_eq]
  | readModifyWrite addr f =>
      simp only [plainStep, step, readModifyWrite, bind_assoc, pure_bind, map_bind, map_pure,
        Prod.map_apply, id_eq, contents_store, scan_eq]
  | swap addrA addrB =>
      simp only [plainStep, step, map_pure, Prod.map_apply, id_eq, contents_swap]

theorem contents_new : contents new = fun _ => genesis := by
  funext i
  unfold contents new
  rw [List.Vector.get_replicate]

/-- Every history of operations returns from a fresh memory what it returns
    from an array of zeros, and leaves the same values in the slots. -/
theorem runOps_new (ops : List Op) :
    (runOps (step X) new ops).val.1 = (runOps (plainStep X) (fun _ => genesis) ops).val.1 ∧
      contents (runOps (step X) new ops).val.2
        = (runOps (plainStep X) (fun _ => genesis) ops).val.2 := by
  rw [← contents_new, runOps_simulates (step X) (plainStep X) contents (step_simulates X) new ops,
    Queried.val_map]
  exact ⟨rfl, rfl⟩

end

end Oram

end Veil7
