import Veil7.Library.Encoding
import Veil7.Library.Query
import Veil7.Storage.Oram

/-!
# What the Bus Sees of the Oblivious Memory

The four operations of `storage/oram.rs` once more, byte by byte and with a
record of every byte of the memory that they read or write, in order. The record
is what an observer of the bus has; the buffers an operation keeps on its stack
and the table of the hash are not part of it.

Without the record the operations are those of `Storage/Oram` (`val_busStep`).
The record does not depend on any address, value, content or function: an
operation makes one sweep that reads, or one that writes, or both, and the
record of a sweep is always the same (`queries_busStep`). So two histories look
alike exactly if they make the same sweeps in the same order (`bus_eq_iff`). A
swap looks like a modification, and either looks like a read followed by a
write; a read and a write do not look alike.

## Main definitions

* `Access`: A byte touched.
* `readLine`, `writeLine`, `swapLine`: The byte loops at one slot.
* `busStep`: An operation with its record.
* `Pass`, `Op.passes`: The sweeps an operation makes.

## Theorems

* `val_busStep`: The operation without the record.
* `queries_busStep`: The record.
* `bus_eq_iff`: The histories that look alike.
-/

namespace Veil7

namespace Oram

/-- A byte of a slot that is touched: of its padding or of its content. -/
inductive Access where
  | pad (i : Fin 256) (j : Fin 64)
  | load (i : Fin 256) (j : Fin 64)
  | store (i : Fin 256) (j : Fin 64)
deriving DecidableEq

/-- A computation with a record of the bytes it touches. -/
abbrev Bus : Type → Type := Queried Access

def touch (access : Access) : Bus Unit := { val := (), queries := [access] }

/-! ### The byte loops -/

/-- `(old & !mask) | (new & mask)`. -/
def selectByte (mask old new : UInt8) : UInt8 := (old &&& ~~~mask) ||| (new &&& mask)

/-- The bytes of a slot on their way into the buffer. -/
def readLine (oram : ObliviousRAM) (mask : UInt8) (i : Fin 256) (result : Block 64) :
    Bus (Block 64) :=
  (List.finRange 64).foldlM (fun out j => do
    touch (.pad i j)
    touch (.load i j)
    let byte := (oram.data.get i).content.get j
    pure (out.set j (selectByte mask (out.get j) byte))) result

/-- The sweep that reads. -/
def busScan (oram : ObliviousRAM) (index : UInt64) : Bus (Block 64) :=
  (List.finRange 256).foldlM (fun result i => readLine oram (maskFor i index) i result) genesis

/-- The byte of a slot at a position, replaced. -/
def ObliviousRAM.setByte (oram : ObliviousRAM) (i : Fin 256) (j : Fin 64) (b : UInt8) :
    ObliviousRAM :=
  let line := oram.data.get i
  { data := oram.data.set i { line with content := line.content.set j b } }

/-- The bytes of a slot as they are written, each a function of the old one. -/
def rewriteLine (f : Fin 64 → UInt8 → UInt8) (i : Fin 256) (oram : ObliviousRAM) :
    Bus ObliviousRAM :=
  (List.finRange 64).foldlM (fun oram j => do
    touch (.load i j)
    let old := (oram.data.get i).content.get j
    touch (.store i j)
    let oram := oram.setByte i j (f j old)
    touch (.pad i j)
    pure oram) oram

/-- The byte loop of a write. -/
def writeLine (mask : UInt8) (hashed : Block 64) : Fin 256 → ObliviousRAM → Bus ObliviousRAM :=
  rewriteLine fun j old => selectByte mask old (hashed.get j)

/-- The sweep that writes. -/
def busStore (oram : ObliviousRAM) (index : UInt64) (hashed : Block 64) : Bus ObliviousRAM :=
  (List.finRange 256).foldlM (fun oram i => writeLine (maskFor i index) hashed i oram) oram

/-- The bytes of a slot on their way into the two buffers of a swap. -/
def readLines (oram : ObliviousRAM) (maskA maskB : UInt8) (i : Fin 256)
    (vals : Block 64 × Block 64) : Bus (Block 64 × Block 64) :=
  (List.finRange 64).foldlM (fun vals j => do
    touch (.pad i j)
    touch (.load i j)
    let byte := (oram.data.get i).content.get j
    pure (vals.1.set j (selectByte maskA (vals.1.get j) byte),
      vals.2.set j (selectByte maskB (vals.2.get j) byte))) vals

/-- The byte loop of a swap: the first slot gets the second value and the second
    slot the first. -/
def swapLine (maskA maskB : UInt8) (vals : Block 64 × Block 64) :
    Fin 256 → ObliviousRAM → Bus ObliviousRAM :=
  rewriteLine fun j old =>
    let newA := selectByte maskA old (vals.2.get j)
    selectByte maskB newA (vals.1.get j)

def busSwap (oram : ObliviousRAM) (addrA addrB : UInt64) : Bus ObliviousRAM := do
  let indexA := addrA &&& 0xFF
  let indexB := addrB &&& 0xFF
  let vals ← (List.finRange 256).foldlM
    (fun vals i => readLines oram (maskFor i indexA) (maskFor i indexB) i vals) (genesis, genesis)
  (List.finRange 256).foldlM
    (fun oram i => swapLine (maskFor i indexA) (maskFor i indexB) vals i oram) oram

section

variable (X : Xof)

/-- An operation with the bytes it touches. The hash has memory of its own. -/
def busStep (oram : ObliviousRAM) : Op → Bus (Option (Block 64) × ObliviousRAM)
  | .write addr value => do
    let hashed := (oramHash X value.toList).val
    let oram ← busStore oram (addr &&& 0xFF) hashed
    pure (none, oram)
  | .read addr => do
    let result ← busScan oram (addr &&& 0xFF)
    pure (some result, oram)
  | .readModifyWrite addr f => do
    let oldValue ← busScan oram (addr &&& 0xFF)
    let modified := f oldValue
    let newHashed := (oramHash X modified.toList).val
    let oram ← busStore oram (addr &&& 0xFF) newHashed
    pure (some modified, oram)
  | .swap addrA addrB => do
    let oram ← busSwap oram addrA addrB
    pure (none, oram)

end

/-! ### The operations without the record -/

theorem select_eq_sweep (mask : UInt8) (old new : Block 64) :
    select mask old new = sweep (fun j b => selectByte mask b (new.get j)) old := by
  apply List.Vector.ext
  intro j
  rw [get_sweep, select, List.Vector.zipWith_get]
  rfl

theorem val_readLine (oram : ObliviousRAM) (mask : UInt8) (i : Fin 256) (result : Block 64) :
    (readLine oram mask i result).val = select mask result (oram.data.get i).content := by
  rw [readLine, Queried.val_foldlM, select_eq_sweep, sweep]
  generalize List.finRange 64 = js
  rfl

theorem val_readLines (oram : ObliviousRAM) (maskA maskB : UInt8) (i : Fin 256)
    (vals : Block 64 × Block 64) :
    (readLines oram maskA maskB i vals).val
      = (select maskA vals.1 (oram.data.get i).content,
          select maskB vals.2 (oram.data.get i).content) := by
  rw [readLines, Queried.val_foldlM, select_eq_sweep, select_eq_sweep, sweep, sweep]
  generalize List.finRange 64 = js
  exact foldl_prod
    (fun out j => out.set j (selectByte maskA (out.get j) ((oram.data.get i).content.get j)))
    (fun out j => out.set j (selectByte maskB (out.get j) ((oram.data.get i).content.get j)))
    js vals.1 vals.2

/-- The byte loop that writes changes one slot, as a sweep over its bytes. -/
theorem val_rewriteLine (f : Fin 64 → UInt8 → UInt8) (i : Fin 256) (oram : ObliviousRAM) :
    (rewriteLine f i oram).val
      = { data := oram.data.set i
            { oram.data.get i with content := sweep f (oram.data.get i).content } } := by
  have hloop : ∀ (js : List (Fin 64)) (oram : ObliviousRAM),
      js.foldl (fun oram j => oram.setByte i j (f j ((oram.data.get i).content.get j))) oram
        = { data := oram.data.set i { oram.data.get i with
              content := js.foldl (fun v j => v.set j (f j (v.get j)))
                (oram.data.get i).content } } := by
    intro js
    induction js with
    | nil =>
        intro oram
        have hself : oram.data.set i (oram.data.get i) = oram.data := by
          apply List.Vector.ext
          intro k
          rw [List.Vector.get_set_eq_if]
          split
          case isTrue h => rw [h]
          case isFalse => rfl
        change oram = { data := oram.data.set i (oram.data.get i) }
        rw [hself]
    | cons j js ih =>
        intro oram
        rw [List.foldl_cons, ih, List.foldl_cons, ObliviousRAM.setByte]
        dsimp only
        rw [List.Vector.get_set_same]
        congr 1
        apply List.Vector.ext
        intro k
        rw [List.Vector.get_set_eq_if, List.Vector.get_set_eq_if, List.Vector.get_set_eq_if]
        split
        · rfl
        · rfl
  rw [rewriteLine, Queried.val_foldlM]
  exact hloop (List.finRange 64) oram

/-- Slot after slot this is a sweep over the slots. -/
theorem val_rewriteLines (f : Fin 256 → Fin 64 → UInt8 → UInt8) (oram : ObliviousRAM) :
    ((List.finRange 256).foldlM (fun oram i => rewriteLine (f i) i oram) oram).val
      = { data := sweep (fun i line => { line with content := sweep (f i) line.content })
            oram.data } := by
  rw [Queried.val_foldlM, sweep]
  simp only [val_rewriteLine]
  generalize List.finRange 256 = is
  exact List.foldl_hom ObliviousRAM.mk fun _ _ => rfl

theorem val_busScan (oram : ObliviousRAM) (index : UInt64) :
    (busScan oram index).val = scan oram index := by
  rw [busScan, Queried.val_foldlM, scan]
  simp only [val_readLine]

theorem val_busStore (oram : ObliviousRAM) (index : UInt64) (hashed : Block 64) :
    (busStore oram index hashed).val = store oram index hashed := by
  rw [store]
  simp only [select_eq_sweep]
  exact val_rewriteLines (fun i j old => selectByte (maskFor i index) old (hashed.get j)) oram

theorem val_busSwap (oram : ObliviousRAM) (addrA addrB : UInt64) :
    (busSwap oram addrA addrB).val = swap oram addrA addrB := by
  have hvals : ((List.finRange 256).foldlM (fun vals i => readLines oram
      (maskFor i (addrA &&& 0xFF)) (maskFor i (addrB &&& 0xFF)) i vals) (genesis, genesis)).val
        = (scan oram (addrA &&& 0xFF), scan oram (addrB &&& 0xFF)) := by
    rw [Queried.val_foldlM, ← scan_pair]
    simp only [val_readLines]
  rw [busSwap, Queried.val_bind, hvals, swap, scan_pair]
  simp only [select_eq_sweep, sweep_sweep, swapLine]
  rw [val_rewriteLines]

section

variable (X : Xof)

/-- Without the record an operation is that of the memory. -/
theorem val_busStep (oram : ObliviousRAM) (op : Op) :
    (busStep X oram op).val = (step X oram op).val := by
  cases op with
  | write addr value =>
      rw [busStep, Queried.val_bind, val_busStore]
      rfl
  | read addr =>
      rw [busStep, Queried.val_bind, val_busScan]
      rfl
  | readModifyWrite addr f =>
      rw [busStep, Queried.val_bind, Queried.val_bind, val_busScan, val_busStore]
      rfl
  | swap addrA addrB =>
      rw [busStep, Queried.val_bind, val_busSwap]
      rfl

end

/-! ### The record -/

/-- A sweep over all slots. -/
inductive Pass where
  | reads
  | writes
deriving DecidableEq

/-- What a sweep does at a byte of a slot. -/
def Pass.atByte : Pass → Fin 256 → Fin 64 → List Access
  | reads, i, j => [.pad i j, .load i j]
  | writes, i, j => [.load i j, .store i j, .pad i j]

/-- What a sweep does at a slot. -/
def Pass.atLine (p : Pass) (i : Fin 256) : List Access := (List.finRange 64).flatMap (p.atByte i)

/-- The bytes a sweep touches, in order. -/
def Pass.trace (p : Pass) : List Access := (List.finRange 256).flatMap p.atLine

/-- The sweeps an operation makes. -/
def Op.passes : Op → List Pass
  | write _ _ => [.writes]
  | read _ => [.reads]
  | readModifyWrite _ _ => [.reads, .writes]
  | swap _ _ => [.reads, .writes]

theorem queries_readLine (oram : ObliviousRAM) (mask : UInt8) (i : Fin 256) (result : Block 64) :
    (readLine oram mask i result).queries = Pass.reads.atLine i := by
  rw [readLine, Pass.atLine]
  exact Queried.queries_foldlM _ (Pass.reads.atByte i) (fun _ _ => rfl) _ _

theorem queries_readLines (oram : ObliviousRAM) (maskA maskB : UInt8) (i : Fin 256)
    (vals : Block 64 × Block 64) :
    (readLines oram maskA maskB i vals).queries = Pass.reads.atLine i := by
  rw [readLines, Pass.atLine]
  exact Queried.queries_foldlM _ (Pass.reads.atByte i) (fun _ _ => rfl) _ _

theorem queries_rewriteLine (f : Fin 64 → UInt8 → UInt8) (i : Fin 256) (oram : ObliviousRAM) :
    (rewriteLine f i oram).queries = Pass.writes.atLine i := by
  rw [rewriteLine, Pass.atLine]
  exact Queried.queries_foldlM _ (Pass.writes.atByte i) (fun _ _ => rfl) _ _

theorem queries_busScan (oram : ObliviousRAM) (index : UInt64) :
    (busScan oram index).queries = Pass.reads.trace := by
  rw [busScan, Pass.trace]
  exact Queried.queries_foldlM _ Pass.reads.atLine
    (fun result i => queries_readLine oram (maskFor i index) i result) _ _

theorem queries_busStore (oram : ObliviousRAM) (index : UInt64) (hashed : Block 64) :
    (busStore oram index hashed).queries = Pass.writes.trace := by
  rw [busStore, Pass.trace]
  exact Queried.queries_foldlM _ Pass.writes.atLine
    (fun oram i => queries_rewriteLine _ i oram) _ _

theorem queries_busSwap (oram : ObliviousRAM) (addrA addrB : UInt64) :
    (busSwap oram addrA addrB).queries = Pass.reads.trace ++ Pass.writes.trace := by
  rw [busSwap, Pass.trace, Pass.trace, Queried.queries_bind,
    Queried.queries_foldlM _ Pass.reads.atLine fun vals i => queries_readLines oram _ _ i vals]
  exact congrArg _ (Queried.queries_foldlM _ Pass.writes.atLine
    (fun oram i => queries_rewriteLine _ i oram) _ _)

/-- The record of an operation is that of its sweeps, whatever its arguments and
    whatever is in the memory. -/
theorem queries_busStep (X : Xof) (oram : ObliviousRAM) (op : Op) :
    (busStep X oram op).queries = op.passes.flatMap Pass.trace := by
  cases op with
  | write addr value => rw [busStep, Queried.queries_bind, queries_busStore]; rfl
  | read addr => rw [busStep, Queried.queries_bind, queries_busScan]; rfl
  | readModifyWrite addr f =>
      rw [busStep, Queried.queries_bind, Queried.queries_bind, queries_busScan, queries_busStore]
      rfl
  | swap addrA addrB =>
      rw [busStep, Queried.queries_bind, queries_busSwap]
      exact List.append_assoc _ _ _

theorem queries_runBus (X : Xof) (oram : ObliviousRAM) (ops : List Op) :
    (runOps (busStep X) oram ops).queries = (ops.flatMap Op.passes).flatMap Pass.trace := by
  rw [queries_runOps _ _ (queries_busStep X), List.flatMap_assoc]

/-- A sweep over a number of places begins at the first of them. -/
theorem exists_append_flatMap {β : Type} (n : Nat) (f : Fin (n + 1) → List β) :
    ∃ rest, (List.finRange (n + 1)).flatMap f = f 0 ++ rest := by
  rw [List.finRange_succ, List.flatMap_cons]
  exact ⟨_, rfl⟩

theorem exists_append_trace (p : Pass) : ∃ rest, p.trace = p.atByte 0 0 ++ rest := by
  obtain ⟨lines, hlines⟩ := exists_append_flatMap 255 p.atLine
  obtain ⟨bytes, hbytes⟩ := exists_append_flatMap 63 (p.atByte 0)
  refine ⟨bytes ++ lines, hlines.trans ?_⟩
  rw [← List.append_assoc, ← hbytes]
  rfl

/-- The first byte already says which sweep it is. -/
theorem prefixFree_trace : PrefixFree Pass.trace := by
  intro p q u v h
  obtain ⟨rest, hp⟩ := exists_append_trace p
  obtain ⟨rest', hq⟩ := exists_append_trace q
  rw [hp, hq] at h
  cases p with
  | reads =>
      cases q with
      | reads => rfl
      | writes => cases (List.cons.inj h).1
  | writes =>
      cases q with
      | reads => cases (List.cons.inj h).1
      | writes => rfl

theorem trace_ne_nil (p : Pass) : p.trace ≠ [] := by
  obtain ⟨rest, hp⟩ := exists_append_trace p
  rw [hp]
  cases p with
  | reads => exact List.cons_ne_nil _ _
  | writes => exact List.cons_ne_nil _ _

/-- On the bus two histories look alike exactly if they make the same sweeps in
    the same order, whatever the memories, addresses, values and functions are;
    and what is seen there are the operations of the memory. -/
theorem bus_eq_iff (X X' : Xof) (oram oram' : ObliviousRAM) (ops ops' : List Op) :
    (runOps (busStep X) oram ops).val = (runOps (step X) oram ops).val ∧
      ((runOps (busStep X) oram ops).queries = (runOps (busStep X') oram' ops').queries ↔
        ops.flatMap Op.passes = ops'.flatMap Op.passes) := by
  refine ⟨val_runOps_eq _ _ (val_busStep X) oram ops, ?_⟩
  rw [queries_runBus, queries_runBus]
  exact ⟨flatMap_inj Pass.trace prefixFree_trace trace_ne_nil _ _, fun h => by rw [h]⟩

end Oram

end Veil7
