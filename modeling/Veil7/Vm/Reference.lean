import Veil7.Library.Interpreter
import Veil7.Vm.Machine

/-!
# The Reference Machine

What the instructions mean, on a list of 64-bit values with the top first. It
is a statement of the machine's purpose and not a translation of its code:
arithmetic is that of the natural numbers, cut to 64 bits, and the depth limit
is the only trace of the array.

Programs are lists of `Instr`. Their bytes are an opcode, followed for a push
by the eight bytes of its value, and `instrCode` shows that a program can be
read back.

## Main definitions

* `BinOp`: The two-operand instructions, with their values.
* `Instr`: The instructions.
* `instrCode`: Their bytes.
* `Instr.step`: What an instruction does to the stack, and the bytes it produces.
* `Instr.stepStrict`: The same, where `rot` needs an operand.
* `referenceRoot`: The root a program should have.
-/

namespace Veil7

namespace Vm

inductive BinOp where
  | add
  | xor
  | mul
  | div
  | and
  | or
  | shl
  | shr
  | eq
  | lt
deriving DecidableEq

namespace BinOp

def opCode : BinOp → OpCode
  | add => .add
  | xor => .xor
  | mul => .mul
  | div => .div
  | and => .and
  | or => .or
  | shl => .shl
  | shr => .shr
  | eq => .eq
  | lt => .lt

/-- The value of `a` and `b`, where `b` was on top. -/
def value (f : BinOp) (a b : UInt64) : UInt64 :=
  match f with
  | add => UInt64.ofNat ((a.toNat + b.toNat) % 2 ^ 64)
  | xor => UInt64.ofNat (a.toNat ^^^ b.toNat)
  | mul => UInt64.ofNat (a.toNat * b.toNat % 2 ^ 64)
  | div => if b.toNat = 0 then 0 else UInt64.ofNat (a.toNat / b.toNat)
  | and => UInt64.ofNat (a.toNat &&& b.toNat)
  | or => UInt64.ofNat (a.toNat ||| b.toNat)
  | shl => UInt64.ofNat (a.toNat * 2 ^ (b.toNat % 64) % 2 ^ 64)
  | shr => UInt64.ofNat (a.toNat / 2 ^ (b.toNat % 64))
  | eq => if a.toNat = b.toNat then 1 else 0
  | lt => if a.toNat < b.toNat then 1 else 0

end BinOp

inductive Instr where
  | nop
  | push (v : UInt64)
  | pop
  | dup
  | swap
  | rot
  | not
  | binary (f : BinOp)
deriving DecidableEq

namespace Instr

def opCode : Instr → OpCode
  | nop => .nop
  | push _ => .push
  | pop => .pop
  | dup => .dup
  | swap => .swap
  | rot => .rot
  | not => .not
  | binary f => f.opCode

def immediate : Instr → Bytes
  | push v => toLeBytes v
  | _ => []

def encode (i : Instr) : Bytes := i.opCode.toU8 :: i.immediate

/-- The instruction of an opcode, reading the eight bytes of a push. -/
def ofOpCode (op : OpCode) (rest : Bytes) : Option (Instr × Bytes) :=
  match op with
  | .push => if 8 ≤ rest.length then some (push (fromLeBytes (rest.take 8)), rest.drop 8) else none
  | .nop => some (nop, rest)
  | .pop => some (pop, rest)
  | .dup => some (dup, rest)
  | .swap => some (swap, rest)
  | .rot => some (rot, rest)
  | .not => some (not, rest)
  | .add => some (binary .add, rest)
  | .xor => some (binary .xor, rest)
  | .mul => some (binary .mul, rest)
  | .div => some (binary .div, rest)
  | .and => some (binary .and, rest)
  | .or => some (binary .or, rest)
  | .shl => some (binary .shl, rest)
  | .shr => some (binary .shr, rest)
  | .eq => some (binary .eq, rest)
  | .lt => some (binary .lt, rest)

def decode : Bytes → Option (Instr × Bytes)
  | [] => none
  | b :: rest => (OpCode.fromU8 b).bind fun op => ofOpCode op rest

end Instr

theorem length_toLeBytes (v : UInt64) : (toLeBytes v).length = 8 := length_leBytes 8 v.toNat

theorem fromLeBytes_toLeBytes (v : UInt64) : fromLeBytes (toLeBytes v) = v := by
  have hlt : v.toNat < 256 ^ 8 := v.toNat_lt
  rw [fromLeBytes, toLeBytes, ofLeBytes_leBytes 8 v.toNat hlt, UInt64.ofNat_toNat]

theorem toLeBytes_fromLeBytes (buf : Bytes) (h : buf.length = 8) :
    toLeBytes (fromLeBytes buf) = buf := by
  have hlt : ofLeBytes buf < 2 ^ 64 := by
    have hbound := ofLeBytes_lt buf
    rw [h] at hbound
    exact hbound
  rw [toLeBytes, fromLeBytes, UInt64.toNat_ofNat_of_lt' hlt, ← h, leBytes_ofLeBytes]

theorem ofOpCode_encode (i : Instr) (rest : Bytes) :
    Instr.ofOpCode i.opCode (i.immediate ++ rest) = some (i, rest) := by
  cases i with
  | push v =>
      have hlen := length_toLeBytes v
      have himm : (Instr.push v).immediate = toLeBytes v := rfl
      rw [himm, Instr.opCode, Instr.ofOpCode, if_pos (by rw [List.length_append]; omega),
        List.take_left' hlen, List.drop_left' hlen, fromLeBytes_toLeBytes]
  | binary f => cases f <;> rfl
  | _ => rfl

theorem encode_of_ofOpCode (op : OpCode) (l : Bytes) (i : Instr) (rest : Bytes)
    (h : Instr.ofOpCode op l = some (i, rest)) : op = i.opCode ∧ l = i.immediate ++ rest := by
  cases op with
  | push =>
      simp only [Instr.ofOpCode] at h
      by_cases hlen : 8 ≤ l.length
      · rw [if_pos hlen, Option.some.injEq, Prod.mk.injEq] at h
        have htake : (l.take 8).length = 8 := by
          rw [List.length_take]
          omega
        rw [← h.1, ← h.2]
        refine ⟨rfl, ?_⟩
        rw [Instr.immediate, toLeBytes_fromLeBytes _ htake, List.take_append_drop]
      · rw [if_neg hlen] at h
        cases h
  | _ =>
      cases h
      exact ⟨rfl, rfl⟩

/-- The bytes of the instructions can be read back. -/
def instrCode : StreamCode Instr UInt8 where
  encode := Instr.encode
  decode := Instr.decode
  decode_encode := by
    intro i rest
    rw [Instr.encode, List.cons_append, Instr.decode, OpCode.fromU8_toU8, Option.bind_some,
      ofOpCode_encode]
  encode_of_decode := by
    intro l i rest h
    cases l with
    | nil => cases h
    | cons b l =>
        rw [Instr.decode, Option.bind_eq_some_iff] at h
        rcases h with ⟨op, hop, h⟩
        rcases encode_of_ofOpCode op l i rest h with ⟨hopi, hl⟩
        rw [OpCode.fromU8_eq_some_iff] at hop
        rw [hop, hopi, hl]
        rfl
  encode_ne_nil := fun i => List.cons_ne_nil _ _

namespace Instr

/-- The bottom value moved to the top. -/
def rotate (s : List UInt64) : List UInt64 :=
  match s.getLast? with
  | none => s
  | some bottom => bottom :: s.dropLast

/-- The distance from the greatest value. -/
def complement (a : UInt64) : UInt64 := UInt64.ofNat (2 ^ 64 - 1 - a.toNat)

/-- What an instruction does to the stack, top first, and the bytes of the value
    it computes. It fails on too few operands and beyond the depth limit. -/
def step : Instr → List UInt64 → Option (List UInt64 × Bytes)
  | nop, s => some (s, [])
  | push v, s => if s.length < stackDepth then some (v :: s, []) else none
  | pop, _ :: s => some (s, [])
  | dup, a :: s => if s.length + 1 < stackDepth then some (a :: a :: s, []) else none
  | swap, b :: a :: s => some (a :: b :: s, [])
  | rot, s => some (rotate s, [])
  | not, a :: s =>
    let result := complement a
    some (result :: s, toLeBytes result)
  | binary f, b :: a :: s =>
    let result := f.value a b
    some (result :: s, toLeBytes result)
  | _, _ => none

@[simp] theorem step_push (v : UInt64) (s : List UInt64) :
    (push v).step s = if s.length < stackDepth then some (v :: s, []) else none := rfl

@[simp] theorem step_dup (a : UInt64) (s : List UInt64) :
    dup.step (a :: s) = if s.length + 1 < stackDepth then some (a :: a :: s, []) else none := rfl

/-- The operands an instruction works on; `rot` needs a bottom to move. -/
def arity : Instr → Nat
  | nop => 0
  | push _ => 0
  | pop => 1
  | dup => 1
  | swap => 2
  | rot => 1
  | not => 1
  | binary _ => 2

/-- The step that fails on too few operands for every instruction, `rot` too. -/
def stepStrict (i : Instr) (s : List UInt64) : Option (List UInt64 × Bytes) :=
  if s.length < i.arity then none else i.step s

end Instr

/-- The bytes hashed for a run that ends on the stack `s` with the record `t`. -/
def traceString (s : List UInt64) (t : Bytes) : Bytes :=
  MicroVM.traceTag ++ t ++ u64Bytes s.length

/-- The outcome of a program on the reference machine: its final stack and its
    record, if its size is in bounds, it decodes, and it runs to the end. -/
def outcome (step : Instr → List UInt64 → Option (List UInt64 × Bytes)) (code : Bytes) :
    Option (List UInt64 × Bytes) :=
  if 1 ≤ code.length ∧ code.length ≤ maxCode then instrCode.interpret step code [] else none

/-- The root a program should have. -/
def referenceRoot (X : Xof) (step : Instr → List UInt64 → Option (List UInt64 × Bytes))
    (code : Bytes) : Block 64 :=
  match outcome step code with
  | none => zeros 64
  | some (s, t) => digest X 64 (traceString s t)

end Vm

end Veil7
