import Veil7.Core.Shake256

/-!
# The Stack Machine

`execution/vm.rs`: a machine of 128 64-bit slots that runs a byte string and
returns a 64-byte root, the hash of a trace of what it executed.

The slots are an array with a pointer to the next free one, as in the source;
the pointer's bound is part of the structure, so every access is in bounds.
Popped slots are zeroed. Every failure wipes the machine and leaves the
interpreter loop at once, which is `Except.error` here, with the wiped machine
inside.

The branch-free arithmetic of `Div`, `Eq` and `Lt` is kept bit by bit. The
trace is hashed by the one hasher of the engine.

## Main definitions

* `OpCode`: The seventeen instructions, with `fromU8`.
* `MicroVM`: The machine, with `push`, `pop` and `wipeState`.
* `binaryResult`: The result of a two-operand instruction.
* `MicroVM.exec`: One instruction, after its opcode has been fetched.
* `MicroVM.iterate`, `MicroVM.interpret`: The loop.
* `MicroVM.enter`: Where a call starts it.
* `MicroVM.execute`: A whole call.
* `BytecodeBuilder`: The typed construction of programs.

## Theorems

* `fromU8_eq_some_iff`: The opcode bytes are those of the instructions.
* `pc_lt_of_iterate`: Every turn of the loop moves the program counter on.
-/

namespace Veil7

namespace Vm

inductive OpCode where
  | nop
  | add
  | xor
  | mul
  | div
  | push
  | pop
  | dup
  | swap
  | and
  | or
  | not
  | shl
  | shr
  | rot
  | eq
  | lt
deriving DecidableEq

namespace OpCode

/-- `op as u8`. -/
def toU8 : OpCode → UInt8
  | nop => 0x00
  | add => 0x01
  | xor => 0x02
  | mul => 0x03
  | div => 0x04
  | push => 0x05
  | pop => 0x06
  | dup => 0x07
  | swap => 0x08
  | and => 0x09
  | or => 0x0A
  | not => 0x0B
  | shl => 0x0C
  | shr => 0x0D
  | rot => 0x0E
  | eq => 0x0F
  | lt => 0x10

def fromU8 (b : UInt8) : Option OpCode :=
  match b with
  | 0x00 => some nop
  | 0x01 => some add
  | 0x02 => some xor
  | 0x03 => some mul
  | 0x04 => some div
  | 0x05 => some push
  | 0x06 => some pop
  | 0x07 => some dup
  | 0x08 => some swap
  | 0x09 => some and
  | 0x0A => some or
  | 0x0B => some not
  | 0x0C => some shl
  | 0x0D => some shr
  | 0x0E => some rot
  | 0x0F => some eq
  | 0x10 => some lt
  | _ => none

@[simp] theorem fromU8_toU8 (op : OpCode) : fromU8 op.toU8 = some op := by
  cases op <;> rfl

/-- The opcode bytes are those of the instructions, one each. -/
theorem fromU8_eq_some_iff (b : UInt8) (op : OpCode) : fromU8 b = some op ↔ b = op.toU8 := by
  constructor
  · intro h
    unfold fromU8 at h
    split at h <;> cases h <;> rfl
  · intro h
    rw [h, fromU8_toU8]

end OpCode

/-- The longest program, in bytes. -/
def maxCode : Nat := 4096

/-- The number of operand slots. -/
def stackDepth : Nat := 128

/-- The operand slots. -/
abbrev Slots : Type := List.Vector UInt64 stackDepth

/-- The slots all zero. -/
def Slots.clear : Slots := List.Vector.replicate stackDepth 0

structure MicroVM where
  stack : Slots
  sp : Nat
  canary : UInt64
  sp_le : sp ≤ stackDepth

/-- `u64::MAX`. -/
def u64Max : UInt64 := 0xFFFFFFFFFFFFFFFF

/-- `u64::to_le_bytes`. -/
def toLeBytes (v : UInt64) : Bytes := leBytes 8 v.toNat

/-- `u64::from_le_bytes`. -/
def fromLeBytes (buf : Bytes) : UInt64 := UInt64.ofNat (ofLeBytes buf)

/-- `u64::overflowing_sub`. -/
def overflowingSub (a b : UInt64) : UInt64 × Bool := (a - b, decide (a < b))

/-- `u64::wrapping_shl`. -/
def wrappingShl (a : UInt64) (n : UInt32) : UInt64 := a <<< n.toUInt64

/-- `u64::wrapping_shr`. -/
def wrappingShr (a : UInt64) (n : UInt32) : UInt64 := a >>> n.toUInt64

/-- The result pushed by a two-operand instruction, `none` for the others. -/
def binaryResult (op : OpCode) (a b : UInt64) : Option UInt64 :=
  match op with
  | .add => some (a + b)
  | .xor => some (a ^^^ b)
  | .mul => some (a * b)
  | .div =>
    -- One for a non-zero divisor; then the divisor itself, or one instead of zero.
    let isNonzero := (b ||| -b) >>> 63
    let safeB := b ||| (1 - isNonzero)
    let raw := a / safeB
    some (raw &&& (0 - isNonzero))
  | .and => some (a &&& b)
  | .or => some (a ||| b)
  | .shl => some (wrappingShl a (b &&& 63).toUInt32)
  | .shr => some (wrappingShr a (b &&& 63).toUInt32)
  | .eq =>
    let diff := a ^^^ b
    some (((diff ||| -diff) >>> 63) ^^^ 1)
  | .lt =>
    -- The subtraction borrows exactly when `a` is below `b`.
    let borrow := (overflowingSub a b).2
    some borrow.toUInt64
  | _ => none

namespace MicroVM

def withCanary (canary : UInt64) : MicroVM :=
  { stack := Slots.clear, sp := 0, canary := canary, sp_le := Nat.zero_le _ }

/-- `MicroVM::new()`, from what `getrandom` left in the zeroed buffer; its error
    is ignored. -/
def new (bytes : Block 8) : MicroVM := withCanary (fromLeBytes bytes.toList)

/-- `MicroVM::default()`. -/
def default : MicroVM := withCanary 1

/-- Zeroes the slots and the pointer. The canary stays. -/
def wipeState (vm : MicroVM) : MicroVM :=
  { stack := Slots.clear, sp := 0, canary := vm.canary, sp_le := Nat.zero_le _ }

/-- The machine with the value on top, or `none` if it is full. -/
def push (vm : MicroVM) (val : UInt64) : Option MicroVM :=
  if h : vm.sp < stackDepth then
    some { vm with stack := vm.stack.set ⟨vm.sp, h⟩ val, sp := vm.sp + 1, sp_le := h }
  else none

/-- The value on top and the machine without it, or `none` if it is empty. -/
def pop (vm : MicroVM) : Option (UInt64 × MicroVM) :=
  if h : vm.sp = 0 then none
  else
    have hlt : vm.sp - 1 < stackDepth := by
      have hle := vm.sp_le
      omega
    some (vm.stack.get ⟨vm.sp - 1, hlt⟩,
      { vm with stack := vm.stack.set ⟨vm.sp - 1, hlt⟩ 0, sp := vm.sp - 1, sp_le := hlt.le })

/-- `self.stack[self.sp - 1]`, when there is one. -/
def top (vm : MicroVM) (h : vm.sp ≠ 0) : UInt64 :=
  vm.stack.get ⟨vm.sp - 1, by
    have hle := vm.sp_le
    omega⟩

/-- The two values on top exchanged, `self.stack.swap(self.sp - 1, self.sp - 2)`. -/
def swap (vm : MicroVM) (h : 2 ≤ vm.sp) : MicroVM :=
  have hle := vm.sp_le
  let i : Fin stackDepth := ⟨vm.sp - 1, by omega⟩
  let j : Fin stackDepth := ⟨vm.sp - 2, by omega⟩
  { vm with stack := (vm.stack.set i (vm.stack.get j)).set j (vm.stack.get i) }

/-- `for i in 0..n { self.stack[i] = self.stack[i + 1]; }`. -/
def shiftDown (stack : Slots) : (n : Nat) → n < stackDepth → Slots
  | 0, _ => stack
  | n + 1, h =>
    let stack := shiftDown stack n (by omega)
    stack.set ⟨n, by omega⟩ (stack.get ⟨n + 1, h⟩)

/-- The bottom value moved to the top, the others down by one. -/
def rot (vm : MicroVM) : MicroVM :=
  if h : vm.sp < 2 then vm
  else
    have hlt : vm.sp - 1 < stackDepth := by
      have hle := vm.sp_le
      omega
    let bottom := vm.stack.get ⟨0, by decide⟩
    { vm with stack := (shiftDown vm.stack (vm.sp - 1) hlt).set ⟨vm.sp - 1, hlt⟩ bottom }

/-- The variables of the interpreter loop. -/
structure Loop where
  vm : MicroVM
  trace : Shake256
  pc : Nat

/-- The end of a failing run: the wiped machine. -/
def failClosed (vm : MicroVM) : Except MicroVM Loop := .error vm.wipeState

/-- Absorbs a result and pushes it. -/
def pushResult (vm : MicroVM) (trace : Shake256) (pc : Nat) (result : UInt64) :
    Except MicroVM Loop :=
  let trace := trace.update (toLeBytes result)
  match vm.push result with
  | none => failClosed vm
  | some vm => .ok { vm := vm, trace := trace, pc := pc }

/-- The arm of the two-operand instructions: `b` is popped before `a`. -/
def execBinary (op : OpCode) (vm : MicroVM) (trace : Shake256) (pc : Nat) :
    Except MicroVM Loop :=
  match vm.pop with
  | none => failClosed vm
  | some (b, vm) =>
    match vm.pop with
    | none => failClosed vm
    | some (a, vm) =>
      match binaryResult op a b with
      | none => failClosed vm
      | some result => pushResult vm trace pc result

/-- The match over the opcode just fetched and absorbed, with `pc` after it. -/
def exec (code : Bytes) (op : OpCode) (vm : MicroVM) (trace : Shake256) (pc : Nat) :
    Except MicroVM Loop :=
  match op with
  | .nop => .ok { vm := vm, trace := trace, pc := pc }
  | .push =>
    -- A truncated immediate.
    if pc + 8 > code.length then failClosed vm
    else
      let buf := (code.drop pc).take 8
      match vm.push (fromLeBytes buf) with
      | none => failClosed vm
      | some vm => .ok { vm := vm, trace := trace.update buf, pc := pc + 8 }
  | .pop =>
    match vm.pop with
    | none => failClosed vm
    | some (_, vm) => .ok { vm := vm, trace := trace, pc := pc }
  | .dup =>
    if h : vm.sp = 0 then failClosed vm
    else
      match vm.push (vm.top h) with
      | none => failClosed vm
      | some vm => .ok { vm := vm, trace := trace, pc := pc }
  | .swap =>
    if h : vm.sp < 2 then failClosed vm
    else .ok { vm := vm.swap (by omega), trace := trace, pc := pc }
  | .rot => .ok { vm := vm.rot, trace := trace, pc := pc }
  | .not =>
    match vm.pop with
    | none => failClosed vm
    | some (a, vm) => pushResult vm trace pc (~~~a)
  | op => execBinary op vm trace pc

/-- One turn of the loop: fetch, absorb the opcode, execute. -/
def iterate (code : Bytes) (s : Loop) (h : s.pc < code.length) : Except MicroVM Loop :=
  match OpCode.fromU8 code[s.pc] with
  | none => failClosed s.vm
  | some op => exec code op s.vm (s.trace.update [code[s.pc]]) (s.pc + 1)

theorem pc_of_pushResult (vm : MicroVM) (trace : Shake256) (pc : Nat) (result : UInt64) (s : Loop)
    (h : pushResult vm trace pc result = .ok s) : s.pc = pc := by
  unfold pushResult at h
  cases hpush : vm.push result with
  | none =>
      rw [hpush] at h
      cases h
  | some vm' =>
      rw [hpush] at h
      cases h
      rfl

theorem pc_of_execBinary (op : OpCode) (vm : MicroVM) (trace : Shake256) (pc : Nat) (s : Loop)
    (h : execBinary op vm trace pc = .ok s) : s.pc = pc := by
  unfold execBinary failClosed at h
  split at h
  · cases h
  · split at h
    · cases h
    · split at h
      · cases h
      · exact pc_of_pushResult _ _ _ _ _ h

/-- No instruction moves the program counter back. -/
theorem le_pc_of_exec (code : Bytes) (op : OpCode) (vm : MicroVM) (trace : Shake256) (pc : Nat)
    (s : Loop) (h : exec code op vm trace pc = .ok s) : pc ≤ s.pc := by
  unfold exec failClosed at h
  split at h
  · cases h
    exact le_rfl
  · split at h
    · cases h
    · dsimp only at h
      split at h
      · cases h
      · cases h
        exact Nat.le_add_right pc 8
  · split at h
    · cases h
    · cases h
      exact le_rfl
  · split at h
    · cases h
    · split at h
      · cases h
      · cases h
        exact le_rfl
  · split at h
    · cases h
    · cases h
      exact le_rfl
  · cases h
    exact le_rfl
  · split at h
    · cases h
    · exact (pc_of_pushResult _ _ _ _ _ h).ge
  · exact (pc_of_execBinary _ _ _ _ _ h).ge

theorem pc_lt_of_iterate (code : Bytes) (s s' : Loop) (hlt : s.pc < code.length)
    (h : iterate code s hlt = .ok s') : s.pc < s'.pc := by
  unfold iterate at h
  split at h
  · cases h
  · exact le_pc_of_exec _ _ _ _ _ _ h

/-- `while pc < code.len()`. -/
def interpret (code : Bytes) (s : Loop) : Except MicroVM Loop :=
  if hlt : s.pc < code.length then
    match h : iterate code s hlt with
    | .error vm => .error vm
    | .ok s' =>
      have := pc_lt_of_iterate code s s' hlt h
      interpret code s'
  else .ok s
termination_by code.length - s.pc

/-- The tag that starts every trace. -/
def traceTag : Bytes := ascii "veil7:vm-trace:v2"

/-- The variables as a call enters the loop: cleared slots, the tag, the first
    byte. -/
def enter (vm : MicroVM) : Loop :=
  { vm := { vm with stack := Slots.clear, sp := 0, sp_le := Nat.zero_le _ },
    trace := Shake256.new.update traceTag, pc := 0 }

@[simp] theorem canary_enter (vm : MicroVM) : (enter vm).vm.canary = vm.canary := rfl

@[simp] theorem pc_enter (vm : MicroVM) : (enter vm).pc = 0 := rfl

/-- The canary values that mark a damaged machine. -/
def canaryDamaged (vm : MicroVM) : Bool := vm.canary == 0 || vm.canary == u64Max

/-- One call: the root of the program, or zeros on any failure, and the machine
    left behind. -/
def execute (X : Xof) (vm : MicroVM) (code : Bytes) : Hashing (Block 64 × MicroVM) :=
  if hguard : code.isEmpty || code.length > maxCode then pure (zeros 64, vm)
  else
    have hne : 0 < code.length := by
      rw [Bool.or_eq_true, List.isEmpty_iff, not_or] at hguard
      exact List.length_pos_iff.mpr hguard.1
    -- These three exits leave the machine as it is; the later ones wipe it.
    if (OpCode.fromU8 code[0]).isNone then pure (zeros 64, vm)
    else if vm.canaryDamaged then pure (zeros 64, vm)
    else
      match interpret code (enter vm) with
      | .error vm => pure (zeros 64, vm)
      | .ok s =>
        if s.vm.canaryDamaged then pure (zeros 64, s.vm.wipeState)
        else do
          let root ← (s.trace.update (u64Bytes s.vm.sp)).squeeze X 64
          pure (root, s.vm.wipeState)

end MicroVM

/-! ### The builder -/

structure BytecodeBuilder where
  code : Bytes

namespace BytecodeBuilder

def new : BytecodeBuilder := { code := [] }

/-- Appends a raw opcode. -/
def op (b : BytecodeBuilder) (byte : UInt8) : BytecodeBuilder := { code := b.code ++ [byte] }

def push (b : BytecodeBuilder) (val : UInt64) : BytecodeBuilder :=
  { code := (b.op OpCode.push.toU8).code ++ toLeBytes val }

def nop (b : BytecodeBuilder) : BytecodeBuilder := b.op OpCode.nop.toU8

def add (b : BytecodeBuilder) : BytecodeBuilder := b.op OpCode.add.toU8

def xor (b : BytecodeBuilder) : BytecodeBuilder := b.op OpCode.xor.toU8

def mul (b : BytecodeBuilder) : BytecodeBuilder := b.op OpCode.mul.toU8

def div (b : BytecodeBuilder) : BytecodeBuilder := b.op OpCode.div.toU8

def pop (b : BytecodeBuilder) : BytecodeBuilder := b.op OpCode.pop.toU8

def dup (b : BytecodeBuilder) : BytecodeBuilder := b.op OpCode.dup.toU8

def swap (b : BytecodeBuilder) : BytecodeBuilder := b.op OpCode.swap.toU8

def and (b : BytecodeBuilder) : BytecodeBuilder := b.op OpCode.and.toU8

def or (b : BytecodeBuilder) : BytecodeBuilder := b.op OpCode.or.toU8

def not (b : BytecodeBuilder) : BytecodeBuilder := b.op OpCode.not.toU8

def shl (b : BytecodeBuilder) : BytecodeBuilder := b.op OpCode.shl.toU8

def shr (b : BytecodeBuilder) : BytecodeBuilder := b.op OpCode.shr.toU8

def rot (b : BytecodeBuilder) : BytecodeBuilder := b.op OpCode.rot.toU8

def eq (b : BytecodeBuilder) : BytecodeBuilder := b.op OpCode.eq.toU8

def lt (b : BytecodeBuilder) : BytecodeBuilder := b.op OpCode.lt.toU8

def build (b : BytecodeBuilder) : Bytes := b.code

end BytecodeBuilder

end Vm

end Veil7
