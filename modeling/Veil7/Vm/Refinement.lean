import Veil7.Library.Keccak
import Veil7.Vm.Operations

/-!
# Execution Refines the Reference Machine

The machine of `execution/vm.rs` runs byte strings with a program counter and
an array; the reference machine runs lists of instructions on a list. One turn
of the loop is one step of the reference machine (`exec_meets`), so the loop is
a simulation in the sense of the interpreter library, and a call of `execute`
returns the root the reference machine assigns to the program
(`execute_refines`).

The two differ from a machine that fails on every missing operand in one
place: `Rot` on an empty stack does nothing (`rot_on_empty`).

A trace has no lengths and no separators: opcodes, immediates and results run
together, and the depth at the end is eight bytes that could as well be code.
It can still be read back (`traceString_inj`). Two runs start on one stack, so as
long as they agree they compute the same results, and the first opcode read
decides how far the next one is; the depth has a fixed size, so neither trace can
end inside it.

## Main definitions

* `Meets`: What an executed opcode must amount to.
* `MicroVM.turn`: One turn of the loop, if there is one to take.
* `related`: The states of the two machines that correspond.
* `BytecodeBuilder.append`: The builder's method for an instruction.

## Theorems

* `exec_meets`: An opcode does what its instruction means.
* `interpret_refines`: The loop interprets its program.
* `execute_eq`: What a call returns, hashes and leaves behind.
* `build_foldl_append`: The builder writes the code of what is appended.
* `execute_refines`: A call returns the reference root.
* `stepStrict_of_ne_rot`: All instructions but `rot` fail on too few operands.
* `rot_on_empty`: `Rot` does not fail on an empty stack.
* `outcome_eq_some_iff`: What it takes for a program to run to the end.
* `traceString_inj`: One trace, one program.
-/

namespace Veil7

namespace Vm

open MicroVM

/-- The result of executing an opcode, against what its instruction means on the
    stack: a wiped machine for a failure, or else the new stack, the bytes
    absorbed and the rest of the code. -/
def Meets (code : Bytes) (vm : MicroVM) (trace : Shake256) (absorbed rest : Bytes)
    (result : Except MicroVM Loop) : Option (List UInt64 × Bytes) → Prop
  | none => result = .error (withCanary vm.canary)
  | some (s, r) => ∃ l : Loop, result = .ok l ∧ l.vm.operands = s ∧ l.vm.canary = vm.canary ∧
      l.trace.buf = trace.buf ++ (absorbed ++ r) ∧ code.drop l.pc = rest

section

variable (code : Bytes) (vm : MicroVM) (trace : Shake256) (pc : Nat)

/-- A failure leaves a wiped machine. -/
theorem failClosed_meets (absorbed rest : Bytes) :
    Meets code vm trace absorbed rest (failClosed vm) none := by
  unfold Meets failClosed wipeState withCanary
  rfl

theorem pushResult_meets (result : UInt64) (s : List UInt64) (h : vm.operands = s)
    (hs : s.length < stackDepth) :
    Meets code vm trace [] (code.drop pc) (pushResult vm trace pc result)
      (some (result :: s, toLeBytes result)) := by
  rcases vm.operands_push result (by rw [h]; exact hs) with ⟨vm', hpush, hvm', hcanary⟩
  refine ⟨{ vm := vm', trace := trace.update (toLeBytes result), pc := pc }, ?_, ?_, hcanary,
    rfl, rfl⟩
  · unfold pushResult
    rw [hpush]
  · rw [hvm', h]

theorem exec_push_meets (v : UInt64) (rest : Bytes) (h : code.drop pc = toLeBytes v ++ rest) :
    Meets code vm trace (toLeBytes v) rest (exec code .push vm trace pc)
      ((Instr.push v).step vm.operands) := by
  have hlen := congrArg List.length h
  have hv := length_toLeBytes v
  rw [List.length_drop, List.length_append, hv] at hlen
  have hbuf : (code.drop pc).take 8 = toLeBytes v := by
    rw [h, List.take_left' hv]
  simp only [exec, hbuf, fromLeBytes_toLeBytes]
  rw [if_neg (by omega), Instr.step_push]
  by_cases hfull : vm.operands.length < stackDepth
  · rcases vm.operands_push v hfull with ⟨vm', hpush, hvm', hcanary⟩
    rw [if_pos hfull, hpush]
    refine ⟨_, rfl, hvm', hcanary, ?_, ?_⟩
    · rw [Shake256.buf_update, List.append_nil]
    · rw [← List.drop_drop, h, List.drop_left' hv]
  · rw [if_neg hfull, vm.push_of_full v hfull]
    exact failClosed_meets code vm trace _ rest

theorem exec_pop_meets :
    Meets code vm trace [] (code.drop pc) (exec code .pop vm trace pc)
      (Instr.pop.step vm.operands) := by
  simp only [exec]
  cases h : vm.operands with
  | nil =>
      rw [vm.pop_of_empty h]
      exact failClosed_meets code vm trace [] _
  | cons a s =>
      rcases vm.operands_pop a s h with ⟨vm', hpop, hvm', hcanary⟩
      rw [hpop]
      exact ⟨_, rfl, hvm', hcanary, (List.append_nil _).symm, rfl⟩

theorem exec_dup_meets :
    Meets code vm trace [] (code.drop pc) (exec code .dup vm trace pc)
      (Instr.dup.step vm.operands) := by
  have hsp := vm.length_operands
  simp only [exec]
  cases h : vm.operands with
  | nil =>
      rw [h, List.length_nil] at hsp
      rw [dif_pos hsp.symm]
      exact failClosed_meets code vm trace [] _
  | cons a s =>
      rw [h, List.length_cons] at hsp
      have hne : vm.sp ≠ 0 := by omega
      rw [dif_neg hne, vm.top_of_operands a s h, Instr.step_dup]
      by_cases hfull : vm.operands.length < stackDepth
      · rcases vm.operands_push a hfull with ⟨vm', hpush, hvm', hcanary⟩
        rw [h, List.length_cons] at hfull
        rw [if_pos hfull, hpush]
        refine ⟨_, rfl, ?_, hcanary, (List.append_nil _).symm, rfl⟩
        rw [hvm', h]
      · rw [vm.push_of_full a hfull]
        rw [h, List.length_cons] at hfull
        rw [if_neg hfull]
        exact failClosed_meets code vm trace [] _

theorem exec_swap_meets :
    Meets code vm trace [] (code.drop pc) (exec code .swap vm trace pc)
      (Instr.swap.step vm.operands) := by
  have hsp := vm.length_operands
  simp only [exec]
  cases h : vm.operands with
  | nil =>
      rw [h, List.length_nil] at hsp
      rw [dif_pos (by omega)]
      exact failClosed_meets code vm trace [] _
  | cons b s =>
      cases s with
      | nil =>
          rw [h, List.length_cons, List.length_nil] at hsp
          rw [dif_pos (by omega)]
          exact failClosed_meets code vm trace [] _
      | cons a s =>
          rw [h, List.length_cons, List.length_cons] at hsp
          rw [dif_neg (by omega)]
          exact ⟨_, rfl, vm.operands_swap a b s h (by omega), rfl, (List.append_nil _).symm, rfl⟩

theorem canary_rot : vm.rot.canary = vm.canary := by
  unfold rot
  by_cases h : vm.sp < 2
  · rw [dif_pos h]
  · rw [dif_neg h]

theorem exec_not_meets :
    Meets code vm trace [] (code.drop pc) (exec code .not vm trace pc)
      (Instr.not.step vm.operands) := by
  have hle := vm.sp_le
  have hsp := vm.length_operands
  simp only [exec]
  cases h : vm.operands with
  | nil =>
      rw [vm.pop_of_empty h]
      exact failClosed_meets code vm trace [] _
  | cons a s =>
      rw [h, List.length_cons] at hsp
      rcases vm.operands_pop a s h with ⟨vm', hpop, hvm', hcanary⟩
      simp only [hpop]
      rw [not_eq_complement]
      rcases pushResult_meets code vm' trace pc _ s hvm' (by omega) with
        ⟨l, hl, hstack, hl', hbuf, hpc⟩
      exact ⟨l, hl, hstack, hl'.trans hcanary, hbuf, hpc⟩

/-- The two-operand instructions have one arm. -/
theorem exec_opCode (f : BinOp) :
    exec code f.opCode vm trace pc = execBinary f.opCode vm trace pc := by
  cases f <;> rfl

theorem exec_binary_meets (f : BinOp) :
    Meets code vm trace [] (code.drop pc) (exec code f.opCode vm trace pc)
      ((Instr.binary f).step vm.operands) := by
  have hle := vm.sp_le
  have hsp := vm.length_operands
  rw [exec_opCode, execBinary]
  cases h : vm.operands with
  | nil =>
      rw [vm.pop_of_empty h]
      exact failClosed_meets code vm trace [] _
  | cons b s =>
      rcases vm.operands_pop b s h with ⟨vm₁, hpop, hvm₁, hcanary⟩
      simp only [hpop]
      cases s with
      | nil =>
          simp only [vm₁.pop_of_empty hvm₁]
          -- The operand already popped is wiped with the rest.
          have hfail := failClosed_meets code vm₁ trace [] (code.drop pc)
          unfold Meets at hfail
          rw [hcanary] at hfail
          exact hfail
      | cons a s =>
          rw [h, List.length_cons, List.length_cons] at hsp
          rcases vm₁.operands_pop a s hvm₁ with ⟨vm₂, hpop₂, hvm₂, hcanary₂⟩
          simp only [hpop₂, binaryResult_opCode]
          rcases pushResult_meets code vm₂ trace pc (f.value a b) s hvm₂ (by omega) with
            ⟨l, hl, hstack, hl', hbuf, hpc⟩
          exact ⟨l, hl, hstack, (hl'.trans hcanary₂).trans hcanary, hbuf, hpc⟩

/-- An opcode does what its instruction means. -/
theorem exec_meets (i : Instr) (rest : Bytes) (h : code.drop pc = i.immediate ++ rest) :
    Meets code vm trace i.immediate rest (exec code i.opCode vm trace pc)
      (i.step vm.operands) := by
  cases i with
  | push v => exact exec_push_meets code vm trace pc v rest h
  | nop => exact ⟨_, rfl, rfl, rfl, (List.append_nil _).symm, h⟩
  | rot => exact ⟨_, rfl, vm.operands_rot, canary_rot vm, (List.append_nil _).symm, h⟩
  | pop =>
      have hrest : code.drop pc = rest := h
      rw [← hrest]
      exact exec_pop_meets code vm trace pc
  | dup =>
      have hrest : code.drop pc = rest := h
      rw [← hrest]
      exact exec_dup_meets code vm trace pc
  | swap =>
      have hrest : code.drop pc = rest := h
      rw [← hrest]
      exact exec_swap_meets code vm trace pc
  | not =>
      have hrest : code.drop pc = rest := h
      rw [← hrest]
      exact exec_not_meets code vm trace pc
  | binary f =>
      have hrest : code.drop pc = rest := h
      rw [← hrest]
      exact exec_binary_meets code vm trace pc f

/-! ### The loop -/

/-- One turn of the loop, if there is one to take. -/
def turn (s : Loop) : Except MicroVM Loop :=
  if h : s.pc < code.length then iterate code s h else .ok s

/-- The states of the two machines that correspond, with the record so far. -/
def related (canary : UInt64) (l : Loop) (s : List UInt64) (t : Bytes) : Prop :=
  l.vm.operands = s ∧ l.vm.canary = canary ∧ l.trace.buf = traceTag ++ t

theorem lt_of_drop_ne_nil (pc : Nat) (h : code.drop pc ≠ []) : pc < code.length := by
  rw [Ne, List.drop_eq_nil_iff] at h
  omega

/-- Only a push can fail to be read once its opcode is. -/
theorem ofOpCode_eq_none (op : OpCode) (l : Bytes) (h : Instr.ofOpCode op l = none) :
    op = .push ∧ l.length < 8 := by
  cases op with
  | push =>
      by_cases hlen : 8 ≤ l.length
      · rw [Instr.ofOpCode, if_pos hlen] at h
        cases h
      · exact ⟨rfl, by omega⟩
  | _ => cases h

theorem turn_of_stuck (l : Loop) (hne : code.drop l.pc ≠ [])
    (h : instrCode.decode (code.drop l.pc) = none) :
    turn code l = .error (withCanary l.vm.canary) := by
  have hlt := lt_of_drop_ne_nil code l.pc hne
  rw [List.drop_eq_getElem_cons hlt] at h
  rw [turn, dif_pos hlt, iterate]
  cases hop : OpCode.fromU8 code[l.pc] with
  | none => rfl
  | some op =>
      change (OpCode.fromU8 code[l.pc]).bind _ = none at h
      rw [hop, Option.bind_some] at h
      rcases ofOpCode_eq_none op _ h with ⟨hpush, hlen⟩
      rw [List.length_drop] at hlen
      simp only [hpush, exec]
      rw [if_pos (by omega)]
      rfl

theorem turn_meets (l : Loop) (i : Instr) (rest : Bytes)
    (h : code.drop l.pc = instrCode.encode i ++ rest) :
    Meets code l.vm l.trace (instrCode.encode i) rest (turn code l) (i.step l.vm.operands) := by
  have hlt := lt_of_drop_ne_nil code l.pc (by
    rw [h]
    exact List.cons_ne_nil _ _)
  rw [List.drop_eq_getElem_cons hlt] at h
  have hop : code[l.pc] = i.opCode.toU8 := (List.cons.inj h).1
  have hmeets := exec_meets code l.vm (l.trace.update [code[l.pc]]) (l.pc + 1) i rest
    (List.cons.inj h).2
  have hturn : turn code l = exec code i.opCode l.vm (l.trace.update [code[l.pc]]) (l.pc + 1) := by
    rw [turn, dif_pos hlt, iterate, hop, OpCode.fromU8_toU8]
  rw [hturn]
  cases hstep : i.step l.vm.operands with
  | none =>
      rw [hstep] at hmeets
      exact hmeets
  | some sr =>
      rw [hstep] at hmeets
      rcases hmeets with ⟨l', hl', hstack, hcanary, hbuf, hpc⟩
      refine ⟨l', hl', hstack, hcanary, ?_, hpc⟩
      -- The opcode was absorbed before the instruction was executed.
      rw [hbuf, Shake256.buf_update, hop, List.append_assoc]
      rfl

/-- One turn of the loop is one step of the reference machine. -/
theorem simulates (canary : UInt64) :
    instrCode.Simulates Instr.step (fun l : Loop => code.drop l.pc) (turn code) (related canary)
      (fun vm => vm = withCanary canary) where
  stuck := by
    intro l s t hrel hne hstuck
    exact ⟨_, turn_of_stuck code l hne hstuck, by rw [hrel.2.1]⟩
  fails := by
    intro l s t i rest hrel hfetch hstep
    have hmeets := turn_meets code l i rest hfetch
    rw [hrel.1, hstep] at hmeets
    exact ⟨_, hmeets, by rw [hrel.2.1]⟩
  steps := by
    intro l s t i rest s' r hrel hfetch hstep
    have hmeets := turn_meets code l i rest hfetch
    rw [hrel.1, hstep] at hmeets
    rcases hmeets with ⟨l', hl', hstack, hcanary, hbuf, hpc⟩
    refine ⟨l', hl', hpc, hstack, hcanary.trans hrel.2.1, ?_⟩
    rw [hbuf, hrel.2.2, List.append_assoc]

theorem interpret_of_done (l : Loop) (h : code.drop l.pc = []) :
    MicroVM.interpret code l = .ok l := by
  rw [List.drop_eq_nil_iff] at h
  rw [MicroVM.interpret, dif_neg (by omega)]

theorem interpret_eq_turn (l : Loop) (h : code.drop l.pc ≠ []) :
    MicroVM.interpret code l = (turn code l).bind (MicroVM.interpret code) := by
  have hlt := lt_of_drop_ne_nil code l.pc h
  rw [MicroVM.interpret, dif_pos hlt, turn, dif_pos hlt]
  split <;> simp_all only [Except.bind]

/-- The loop interprets its program. -/
theorem interpret_refines (l : Loop) (s : List UInt64) (t : Bytes)
    (hrel : related l.vm.canary l s t) :
    match instrCode.interpret Instr.step (code.drop l.pc) s with
    | none => MicroVM.interpret code l = .error (withCanary l.vm.canary)
    | some (s', t') => ∃ l', MicroVM.interpret code l = .ok l' ∧
        related l.vm.canary l' s' (t ++ t') := by
  have hsim := (simulates code l.vm.canary).interpret_eq _ _ _ _ _ _ (MicroVM.interpret code)
    (interpret_of_done code) (interpret_eq_turn code) l s t hrel
  cases h : instrCode.interpret Instr.step (code.drop l.pc) s with
  | none =>
      rw [h] at hsim
      rcases hsim with ⟨vm, hloop, hvm⟩
      rw [hloop, hvm]
  | some st =>
      rw [h] at hsim
      exact hsim

end

/-! ### A whole call -/

theorem canaryDamaged_eq_false_iff (vm : MicroVM) :
    vm.canaryDamaged = false ↔ vm.canary ≠ 0 ∧ vm.canary ≠ u64Max := by
  rw [canaryDamaged, Bool.or_eq_false_iff, beq_eq_false_iff_ne, beq_eq_false_iff_ne]

section

variable (X : Xof) (vm : MicroVM) (code : Bytes)

/-- A call on code that is not of a size to run does nothing. -/
theorem execute_of_size (h : ¬ (1 ≤ code.length ∧ code.length ≤ maxCode)) :
    execute X vm code = pure (zeros 64, vm) := by
  have hguard : (code.isEmpty || decide (code.length > maxCode)) = true := by
    rw [Bool.or_eq_true, List.isEmpty_iff, decide_eq_true_eq]
    by_cases hempty : code = []
    · exact Or.inl hempty
    · have hpos := List.length_pos_iff.mpr hempty
      exact Or.inr (by omega)
  rw [execute, dif_pos hguard]

/-- What a call on a sound machine returns, hashes and leaves behind, by the
    outcome of the program. -/
theorem execute_eq (h0 : vm.canary ≠ 0) (hmax : vm.canary ≠ u64Max) :
    match outcome Instr.step code with
    | none => execute X vm code = pure (zeros 64, vm) ∨
        execute X vm code = pure (zeros 64, withCanary vm.canary)
    | some (s, t) => execute X vm code
        = { val := (digest X 64 (traceString s t), withCanary vm.canary),
            queries := [traceString s t] } := by
  by_cases hsize : 1 ≤ code.length ∧ code.length ≤ maxCode
  swap
  · rw [outcome, if_neg hsize]
    exact Or.inl (execute_of_size X vm code hsize)
  -- The code is of a size to run, so the size guard lets it pass.
  have hguard : ¬ (code.isEmpty || decide (code.length > maxCode)) = true := by
    rw [Bool.or_eq_true, List.isEmpty_iff, decide_eq_true_eq, ← List.length_eq_zero_iff]
    omega
  rw [outcome, if_pos hsize, execute, dif_neg hguard]
  by_cases hfirst : (OpCode.fromU8 code[0]).isNone = true
  · -- The first guard repeats a check that the loop makes.
    have hne : code ≠ [] := List.length_pos_iff.mp hsize.1
    have hstuck : instrCode.decode code = none := by
      rw [Option.isNone_iff_eq_none] at hfirst
      rw [← List.drop_zero (l := code), List.drop_eq_getElem_cons hsize.1]
      change (OpCode.fromU8 code[0]).bind _ = none
      rw [hfirst]
      rfl
    rw [instrCode.interpret_of_stuck _ _ _ hne hstuck, if_pos hfirst]
    exact Or.inl rfl
  rw [if_neg hfirst, (canaryDamaged_eq_false_iff vm).mpr ⟨h0, hmax⟩]
  -- The loop starts on cleared slots, whatever the machine held before.
  have hloop := interpret_refines code (enter vm) [] [] ⟨rfl, rfl, by
    rw [List.append_nil]
    rfl⟩
  rw [canary_enter, pc_enter, List.drop_zero] at hloop
  cases hrun : instrCode.interpret Instr.step code [] with
  | none =>
      rw [hrun] at hloop
      refine Or.inr ?_
      simp only [Bool.false_eq_true, if_false, hloop]
  | some st =>
      rcases st with ⟨s, t⟩
      rw [hrun] at hloop
      rcases hloop with ⟨l, hl, hstack, hcanary, hbuf⟩
      -- No instruction touches the canary, so the second check passes too.
      have hsound : l.vm.canaryDamaged = false := by
        rw [canaryDamaged_eq_false_iff, hcanary]
        exact ⟨h0, hmax⟩
      have hstring : (l.trace.update (u64Bytes l.vm.sp)).buf = traceString s t := by
        rw [Shake256.buf_update, hbuf, ← length_operands, hstack, List.nil_append, traceString]
      simp only [Bool.false_eq_true, if_false, hl, hsound]
      rw [← hstring, ← hcanary]
      rfl

/-- The root a call returns, and the string it hashes. -/
theorem val_execute (h0 : vm.canary ≠ 0) (hmax : vm.canary ≠ u64Max) :
    (execute X vm code).val.1 = referenceRoot X Instr.step code := by
  have hcall := execute_eq X vm code h0 hmax
  unfold referenceRoot
  cases h : outcome Instr.step code with
  | none =>
      rw [h] at hcall
      rcases hcall with hcall | hcall
      · rw [hcall]
        rfl
      · rw [hcall]
        rfl
  | some st =>
      rw [h] at hcall
      rw [hcall]

theorem queries_execute (h0 : vm.canary ≠ 0) (hmax : vm.canary ≠ u64Max) :
    (execute X vm code).queries
      = ((outcome Instr.step code).map fun st => traceString st.1 st.2).toList := by
  have hcall := execute_eq X vm code h0 hmax
  cases h : outcome Instr.step code with
  | none =>
      rw [h] at hcall
      rcases hcall with hcall | hcall
      · rw [hcall]
        rfl
      · rw [hcall]
        rfl
  | some st =>
      rw [h] at hcall
      rw [hcall]
      rfl

/-- A machine with a damaged canary runs nothing. -/
theorem execute_of_damaged (h : vm.canaryDamaged = true) :
    execute X vm code = pure (zeros 64, vm) := by
  unfold execute
  split
  · rfl
  · simp only [ite_self]

end

/-! ### Programs from the builder -/

/-- The builder's method for an instruction. -/
def BytecodeBuilder.append (b : BytecodeBuilder) : Instr → BytecodeBuilder
  | .nop => b.nop
  | .push v => b.push v
  | .pop => b.pop
  | .dup => b.dup
  | .swap => b.swap
  | .rot => b.rot
  | .not => b.not
  | .binary .add => b.add
  | .binary .xor => b.xor
  | .binary .mul => b.mul
  | .binary .div => b.div
  | .binary .and => b.and
  | .binary .or => b.or
  | .binary .shl => b.shl
  | .binary .shr => b.shr
  | .binary .eq => b.eq
  | .binary .lt => b.lt

theorem code_append (b : BytecodeBuilder) (i : Instr) :
    (b.append i).code = b.code ++ i.encode := by
  cases i with
  | push v => exact List.append_assoc _ _ _
  | binary f => cases f <;> rfl
  | _ => rfl

/-- The builder writes the code of the instructions appended, in order. -/
theorem build_foldl_append (is : List Instr) :
    (is.foldl BytecodeBuilder.append BytecodeBuilder.new).build = is.flatMap Instr.encode := by
  have hfold : ∀ (is : List Instr) (b : BytecodeBuilder),
      (is.foldl BytecodeBuilder.append b).code = b.code ++ is.flatMap Instr.encode := by
    intro is
    induction is with
    | nil =>
        intro b
        rw [List.foldl_nil, List.flatMap_nil, List.append_nil]
    | cons i is ih =>
        intro b
        rw [List.foldl_cons, ih, code_append, List.flatMap_cons, List.append_assoc]
  exact hfold is BytecodeBuilder.new

/-- A call on a sound machine returns the root that the reference machine
    assigns to the code; for a program from the builder, of a size to run, that
    is the root of the instructions appended. -/
theorem execute_refines (X : Xof) (vm : MicroVM) (h0 : vm.canary ≠ 0) (hmax : vm.canary ≠ u64Max) :
    (∀ code : Bytes, (execute X vm code).val.1 = referenceRoot X Instr.step code) ∧
    (∀ is : List Instr,
      let code := (is.foldl BytecodeBuilder.append BytecodeBuilder.new).build
      1 ≤ code.length → code.length ≤ maxCode →
      instrCode.decodeAll code = some is ∧
      (execute X vm code).val.1 =
        match instrCode.run Instr.step is [] with
        | none => zeros 64
        | some (s, t) => digest X 64 (traceString s t)) := by
  refine ⟨fun code => val_execute X vm code h0 hmax, ?_⟩
  intro is code hpos hle
  have hdecode : instrCode.decodeAll code = some is := by
    rw [instrCode.decodeAll_eq_some_iff]
    exact build_foldl_append is
  refine ⟨hdecode, ?_⟩
  rw [val_execute X vm code h0 hmax, referenceRoot, outcome, if_pos ⟨hpos, hle⟩,
    StreamCode.interpret, hdecode, Option.bind_some]
  rfl

/-- Ten and twenty, added: the record of the reference run, and one value left. -/
theorem execute_refines_add :
    (execute Keccak.shake256 default ((BytecodeBuilder.new.push 10).push 20).add.build).val.1
      = digest Keccak.shake256 64 (traceString [30]
          (0x05 :: toLeBytes 10 ++ 0x05 :: toLeBytes 20 ++ 0x01 :: toLeBytes 30)) := by
  have hcall := (execute_refines Keccak.shake256 default (by decide) (by decide)).2
    [.push 10, .push 20, .binary .add] (by decide) (by decide)
  exact hcall.2

/-- All instructions but `rot` fail on too few operands. -/
theorem stepStrict_of_ne_rot (i : Instr) (s : List UInt64) (h : i ≠ .rot) :
    i.stepStrict s = i.step s := by
  unfold Instr.stepStrict
  by_cases hshort : s.length < i.arity
  · rw [if_pos hshort]
    cases i with
    | rot => exact absurd rfl h
    | nop => exact absurd hshort (Nat.not_lt_zero _)
    | push v => exact absurd hshort (Nat.not_lt_zero _)
    | _ =>
        cases s with
        | nil => rfl
        | cons a s =>
            cases s with
            | nil => first | rfl | exact absurd hshort (lt_irrefl _)
            | cons b s =>
                simp only [List.length_cons, Instr.arity] at hshort
                omega
  · rw [if_neg hshort]

/-- `Rot` on an empty stack: a machine that fails on every missing operand
    refuses the program, and the call returns a root. -/
theorem rot_on_empty :
    default.canary ≠ 0 ∧ default.canary ≠ u64Max ∧
    referenceRoot Keccak.shake256 Instr.stepStrict [OpCode.rot.toU8] = zeros 64 ∧
    (execute Keccak.shake256 default [OpCode.rot.toU8]).val.1 ≠ zeros 64 := by
  decide +kernel

/-! ### The trace and the program -/

theorem outcome_eq_some_iff (step : Instr → List UInt64 → Option (List UInt64 × Bytes))
    (code : Bytes) (s : List UInt64) (t : Bytes) :
    outcome step code = some (s, t) ↔
      (1 ≤ code.length ∧ code.length ≤ maxCode) ∧
      ∃ is, instrCode.decodeAll code = some is ∧ instrCode.run step is [] = some (s, t) := by
  unfold outcome
  by_cases hsize : 1 ≤ code.length ∧ code.length ≤ maxCode
  · rw [if_pos hsize, StreamCode.interpret, Option.bind_eq_some_iff]
    exact ⟨fun h => ⟨hsize, h⟩, fun h => h.2⟩
  · rw [if_neg hsize]
    exact ⟨fun h => absurd h.symm (Option.some_ne_none _), fun h => absurd h.1 hsize⟩

/-- Programs that run to the end with one trace are one program. -/
theorem traceString_inj (code code' : Bytes) (s s' : List UInt64) (t t' : Bytes)
    (h : outcome Instr.step code = some (s, t)) (h' : outcome Instr.step code' = some (s', t'))
    (heq : traceString s t = traceString s' t') : code = code' := by
  rw [outcome_eq_some_iff] at h h'
  rcases h with ⟨-, is, hdecode, hrun⟩
  rcases h' with ⟨-, is', hdecode', hrun'⟩
  rw [traceString, traceString, List.append_assoc, List.append_assoc,
    List.append_cancel_left_eq] at heq
  have his := instrCode.run_inj Instr.step is is' [] s s' t t' _ _ hrun hrun'
    (by rw [length_u64Bytes, length_u64Bytes]) heq
  rw [(instrCode.decodeAll_eq_some_iff code is).mp hdecode, his,
    ← (instrCode.decodeAll_eq_some_iff code' is').mp hdecode']

end Vm

end Veil7
