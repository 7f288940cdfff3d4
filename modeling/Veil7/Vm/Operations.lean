import Veil7.Vm.Reference

/-!
# Machine Operations

The pieces of the machine, one by one, against the reference machine: the
arithmetic of the two-operand instructions, and the array operations as
operations on the list of values from the top down.

Nothing here mentions programs. Each lemma says what one operation returns and
what it does to `MicroVM.operands`, and that the canary is not touched.

## Main definitions

* `MicroVM.operands`: The values on the stack, top first.

## Theorems

* `binaryResult_opCode`: The branch-free arithmetic computes the values.
* `operands_push`, `push_of_full`: A push, with room and without.
* `operands_pop`, `pop_of_empty`: A pop, with a value and without.
* `operands_swap`: An exchange of the two values on top.
* `get_shiftDown`, `operands_rot`: The shifting loop, and the rotation by it.
-/

namespace Veil7

namespace Vm

/-! ### Arithmetic -/

theorem toNat_ofNat_of_lt (n : Nat) (h : n < 2 ^ 64) : (UInt64.ofNat n).toNat = n :=
  UInt64.toNat_ofNat_of_lt' h

/-- The sign bit of a number joined with its negation says whether the number
    is zero. -/
theorem isNonzero_of_ne (b : UInt64) (h : b ≠ 0) : (b ||| -b) >>> 63 = 1 := by
  have hpos : b.toNat ≠ 0 := fun h0 => h (UInt64.toNat_inj.mp h0)
  have hlt := b.toNat_lt
  have hneg : (-b).toNat = 2 ^ 64 - b.toNat := by
    rw [UInt64.toNat_neg]
    exact Nat.mod_eq_of_lt (by change 2 ^ 64 - b.toNat < 2 ^ 64; omega)
  have hor : (b ||| -b).toNat < 2 ^ 64 := (b ||| -b).toNat_lt
  -- The sign bit is set in the number or in its negation.
  have hge : 2 ^ 63 ≤ (b ||| -b).toNat := by
    rw [UInt64.toNat_or]
    by_cases hb : 2 ^ 63 ≤ b.toNat
    · exact hb.trans Nat.left_le_or
    · exact le_trans (by omega) Nat.right_le_or
  apply UInt64.toNat_inj.mp
  rw [UInt64.toNat_shiftRight, Nat.shiftRight_eq_div_pow]
  change (b ||| -b).toNat / 2 ^ 63 = 1
  omega

theorem isNonzero_zero : ((0 : UInt64) ||| -0) >>> 63 = 0 := rfl

theorem toNat_and_63 (b : UInt64) : (b &&& 63).toUInt32.toUInt64.toNat = b.toNat % 64 := by
  have hand : b.toNat &&& 63 = b.toNat % 64 := Nat.and_two_pow_sub_one_eq_mod b.toNat 6
  rw [UInt32.toNat_toUInt64, UInt64.toNat_toUInt32, UInt64.toNat_and]
  change (b.toNat &&& 63) % 2 ^ 32 = _
  omega

/-- Every two-operand instruction computes its value, the branch-free ones too. -/
theorem binaryResult_opCode (f : BinOp) (a b : UInt64) :
    binaryResult f.opCode a b = some (f.value a b) := by
  have ha := a.toNat_lt
  have hb := b.toNat_lt
  cases f with
  | add =>
      simp only [BinOp.opCode, binaryResult, BinOp.value, Option.some.injEq]
      apply UInt64.toNat_inj.mp
      rw [UInt64.toNat_add, toNat_ofNat_of_lt _ (Nat.mod_lt _ (by omega))]
  | xor =>
      simp only [BinOp.opCode, binaryResult, BinOp.value, Option.some.injEq]
      rw [← UInt64.toNat_xor, UInt64.ofNat_toNat]
  | mul =>
      simp only [BinOp.opCode, binaryResult, BinOp.value, Option.some.injEq]
      apply UInt64.toNat_inj.mp
      rw [UInt64.toNat_mul, toNat_ofNat_of_lt _ (Nat.mod_lt _ (by omega))]
  | div =>
      simp only [BinOp.opCode, binaryResult, BinOp.value, Option.some.injEq]
      -- The divisor is never zero: a zero is replaced by one, and the result masked.
      by_cases h0 : b = 0
      · rw [h0, isNonzero_zero, if_pos (by rfl)]
        exact UInt64.and_zero
      · have h0' : ¬ b.toNat = 0 := fun h => h0 (UInt64.toNat_inj.mp h)
        rw [isNonzero_of_ne b h0, if_neg h0', ← UInt64.toNat_div, UInt64.ofNat_toNat]
        change a / (b ||| 0) &&& -1 = a / b
        rw [UInt64.or_zero, UInt64.and_neg_one]
  | and =>
      simp only [BinOp.opCode, binaryResult, BinOp.value, Option.some.injEq]
      rw [← UInt64.toNat_and, UInt64.ofNat_toNat]
  | or =>
      simp only [BinOp.opCode, binaryResult, BinOp.value, Option.some.injEq]
      rw [← UInt64.toNat_or, UInt64.ofNat_toNat]
  | shl =>
      simp only [BinOp.opCode, binaryResult, BinOp.value, Option.some.injEq, wrappingShl]
      apply UInt64.toNat_inj.mp
      rw [UInt64.toNat_shiftLeft, toNat_ofNat_of_lt _ (Nat.mod_lt _ (by omega)),
        toNat_and_63, Nat.mod_mod, Nat.shiftLeft_eq]
  | shr =>
      simp only [BinOp.opCode, binaryResult, BinOp.value, Option.some.injEq, wrappingShr]
      apply UInt64.toNat_inj.mp
      rw [UInt64.toNat_shiftRight, toNat_and_63, Nat.mod_mod, Nat.shiftRight_eq_div_pow, 
        toNat_ofNat_of_lt _ (lt_of_le_of_lt (Nat.div_le_self _ _) ha)]
  | eq =>
      simp only [BinOp.opCode, binaryResult, BinOp.value, Option.some.injEq, UInt64.toNat_inj]
      -- The difference is zero exactly for equal operands.
      by_cases h : a = b
      · rw [if_pos h, h, UInt64.xor_self, isNonzero_zero]
        rfl
      · rw [if_neg h, isNonzero_of_ne _ (fun h0 => h (UInt64.xor_eq_zero_iff.mp h0))]
        rfl
  | lt =>
      simp only [BinOp.opCode, binaryResult, BinOp.value, Option.some.injEq, overflowingSub,
        UInt64.lt_iff_toNat_lt]
      by_cases h : a.toNat < b.toNat
      · rw [if_pos h, decide_eq_true h]
        rfl
      · rw [if_neg h, decide_eq_false h]
        rfl

theorem not_eq_complement (a : UInt64) : ~~~a = Instr.complement a := by
  have ha := a.toNat_lt
  apply UInt64.toNat_inj.mp
  rw [UInt64.toNat_not, UInt64.size, Instr.complement, toNat_ofNat_of_lt _ (by omega)]
  omega

/-! ### The slots as a list -/

theorem take_succ_set (l : List UInt64) (n : Nat) (v : UInt64) (h : n < l.length) :
    (l.set n v).take (n + 1) = l.take n ++ [v] := by
  rw [List.take_succ_eq_append_getElem (by rw [List.length_set]; exact h), List.getElem_set_self,
    List.take_set_of_le (le_refl n)]

namespace MicroVM

/-- The values on the stack, top first. -/
def operands (vm : MicroVM) : List UInt64 := (vm.stack.toList.take vm.sp).reverse

theorem length_stack (vm : MicroVM) : vm.stack.toList.length = stackDepth :=
  List.Vector.toList_length vm.stack

@[simp] theorem length_operands (vm : MicroVM) : vm.operands.length = vm.sp := by
  rw [operands, List.length_reverse, List.length_take, length_stack, Nat.min_eq_left vm.sp_le]

theorem operands_push (vm : MicroVM) (v : UInt64) (h : vm.operands.length < stackDepth) :
    ∃ vm', vm.push v = some vm' ∧ vm'.operands = v :: vm.operands ∧ vm'.canary = vm.canary := by
  rw [length_operands] at h
  refine ⟨_, dif_pos h, ?_, rfl⟩
  simp only [operands, List.Vector.toList_set]
  rw [take_succ_set _ _ _ (by rw [length_stack]; exact h), List.reverse_append]
  rfl

theorem push_of_full (vm : MicroVM) (v : UInt64) (h : ¬ vm.operands.length < stackDepth) :
    vm.push v = none := by
  rw [length_operands] at h
  exact dif_neg h

theorem pop_of_empty (vm : MicroVM) (h : vm.operands = []) : vm.pop = none := by
  have hsp := vm.length_operands
  rw [h] at hsp
  exact dif_pos hsp.symm

/-- The value on top, and what is left when its slot is given up. -/
theorem take_of_operands (vm : MicroVM) (a : UInt64) (s : List UInt64)
    (h : vm.operands = a :: s) :
    ∃ hlt : vm.sp - 1 < stackDepth, vm.sp ≠ 0 ∧ vm.stack.get ⟨vm.sp - 1, hlt⟩ = a ∧
      vm.stack.toList.take (vm.sp - 1) = s.reverse := by
  have hsp := vm.length_operands
  have hle := vm.sp_le
  rw [h, List.length_cons] at hsp
  have hlt : vm.sp - 1 < vm.stack.toList.length := by
    rw [length_stack]
    omega
  have htake := List.take_succ_eq_append_getElem hlt
  have hrev : vm.stack.toList.take vm.sp = s.reverse ++ [a] := by
    rw [← List.reverse_cons, ← h, operands, List.reverse_reverse]
  rw [Nat.sub_add_cancel (by omega), hrev] at htake
  have hparts := List.append_inj' htake rfl
  refine ⟨by omega, by omega, ?_, hparts.1.symm⟩
  rw [List.Vector.get_eq_get_toList]
  exact (List.cons.inj hparts.2).1.symm

theorem operands_pop (vm : MicroVM) (a : UInt64) (s : List UInt64) (h : vm.operands = a :: s) :
    ∃ vm', vm.pop = some (a, vm') ∧ vm'.operands = s ∧ vm'.canary = vm.canary := by
  rcases vm.take_of_operands a s h with ⟨hlt, hsp, hget, htake⟩
  refine ⟨{ vm with stack := vm.stack.set ⟨vm.sp - 1, hlt⟩ 0, sp := vm.sp - 1, sp_le := hlt.le },
    ?_, ?_, rfl⟩
  · rw [pop, dif_neg hsp, ← hget]
  · simp only [operands, List.Vector.toList_set]
    rw [List.take_set_of_le (le_refl _), htake, List.reverse_reverse]

theorem top_of_operands (vm : MicroVM) (a : UInt64) (s : List UInt64) (h : vm.operands = a :: s)
    (hsp : vm.sp ≠ 0) : vm.top hsp = a := by
  rcases vm.take_of_operands a s h with ⟨hlt, -, hget, -⟩
  exact hget

theorem operands_swap (vm : MicroVM) (a b : UInt64) (s : List UInt64)
    (h : vm.operands = b :: a :: s) (hsp : 2 ≤ vm.sp) :
    (vm.swap hsp).operands = a :: b :: s := by
  have hlen := vm.length_stack
  have hle := vm.sp_le
  have hm : vm.sp - 2 < vm.stack.toList.length := by omega
  have hn : vm.sp - 2 + 1 < vm.stack.toList.length := by omega
  have hsp2 : vm.sp = vm.sp - 2 + 1 + 1 := by omega
  -- The two slots on top, cut off before and after the exchange.
  have hbefore : s.reverse ++ [a] ++ [b] = vm.stack.toList.take (vm.sp - 2)
      ++ [vm.stack.toList[vm.sp - 2]] ++ [vm.stack.toList[vm.sp - 2 + 1]] := by
    rw [← List.take_succ_eq_append_getElem hm, ← List.take_succ_eq_append_getElem hn, ← hsp2,
      ← List.reverse_cons, ← List.reverse_cons, ← h, operands, List.reverse_reverse]
  have htop := List.append_inj' hbefore rfl
  have hsecond := List.append_inj' htop.1 rfl
  have ha := (List.cons.inj hsecond.2).1
  have hb := (List.cons.inj htop.2).1
  have hafter : (vm.swap hsp).stack.toList
      = (vm.stack.toList.set (vm.sp - 2 + 1) a).set (vm.sp - 2) b := by
    have hi : vm.sp - 1 = vm.sp - 2 + 1 := by omega
    simp only [swap, List.Vector.toList_set, List.Vector.get_eq_get_toList, List.get_eq_getElem,
      ha, hb, hi]
    rfl
  change ((vm.swap hsp).stack.toList.take vm.sp).reverse = a :: b :: s
  rw [hafter, List.set_comm _ _ (by omega)]
  nth_rewrite 1 [hsp2]
  rw [take_succ_set _ _ _ (by rw [List.length_set]; exact hn), take_succ_set _ _ _ hm,
    ← hsecond.1]
  simp only [List.reverse_append, List.reverse_reverse, List.reverse_cons, List.reverse_nil,
    List.nil_append, List.cons_append]

/-- After `n` turns of the shifting loop the first `n` slots hold their
    successors' values. -/
theorem get_shiftDown (stack : Slots) (n : Nat) (h : n < stackDepth) (i : Fin stackDepth) :
    (shiftDown stack n h).get i
      = if hi : i.val < n then stack.get ⟨i.val + 1, by omega⟩ else stack.get i := by
  induction n generalizing i with
  | zero => rw [dif_neg (Nat.not_lt_zero _), shiftDown]
  | succ n ih =>
      rw [shiftDown, List.Vector.get_set_eq_if]
      by_cases heq : (⟨n, by omega⟩ : Fin stackDepth) = i
      · -- The turn that writes this slot reads one not yet written.
        rw [if_pos heq, ih, dif_neg (by simp only; omega), ← heq,
          dif_pos (Nat.lt_succ_self n)]
      · have hne : n ≠ i.val := fun h => heq (Fin.ext h)
        rw [if_neg heq, ih]
        by_cases hi : i.val < n
        · rw [dif_pos hi, dif_pos (by omega)]
        · rw [dif_neg hi, dif_neg (by omega)]

theorem rotate_concat (s : List UInt64) (bottom : UInt64) :
    Instr.rotate (s ++ [bottom]) = bottom :: s := by
  unfold Instr.rotate
  rw [List.getLast?_concat, List.dropLast_concat]

theorem rotate_of_length_lt (s : List UInt64) (h : s.length < 2) : Instr.rotate s = s := by
  cases s with
  | nil => rfl
  | cons a s =>
      cases s with
      | nil => rfl
      | cons b s =>
          rw [List.length_cons, List.length_cons] at h
          omega

theorem operands_rot (vm : MicroVM) : vm.rot.operands = Instr.rotate vm.operands := by
  unfold rot
  by_cases h : vm.sp < 2
  · rw [dif_pos h, rotate_of_length_lt]
    rw [length_operands]
    exact h
  have hlen := vm.length_stack
  have hle := vm.sp_le
  rw [dif_neg h]
  -- The values below the top slot of the result are those above the bottom one.
  have hlt : vm.sp - 1 < stackDepth := by omega
  have hshift : (shiftDown vm.stack (vm.sp - 1) hlt).toList.take (vm.sp - 1)
      = (vm.stack.toList.take vm.sp).tail := by
    apply List.ext_getElem
    · simp only [List.length_take, List.length_tail, List.Vector.toList_length, hlen]
      omega
    · intro i hi hi'
      have hi₁ : i < vm.sp - 1 := by
        rw [List.length_take] at hi
        omega
      have hget := get_shiftDown vm.stack (vm.sp - 1) hlt ⟨i, by omega⟩
      rw [dif_pos hi₁, List.Vector.get_eq_get_toList, List.Vector.get_eq_get_toList] at hget
      rw [List.getElem_take, List.getElem_tail, List.getElem_take]
      exact hget
  have hbottom : vm.stack.toList.take vm.sp
      = vm.stack.get ⟨0, by decide⟩ :: (vm.stack.toList.take vm.sp).tail := by
    have hne : vm.stack.toList.take vm.sp ≠ [] := by
      rw [← List.length_pos_iff, List.length_take]
      omega
    have hhead : (vm.stack.toList.take vm.sp).head hne = vm.stack.get ⟨0, by decide⟩ := by
      rw [List.head_eq_getElem, List.getElem_take, List.Vector.get_eq_get_toList]
      rfl
    rw [← hhead, List.cons_head_tail]
  have hoperands : vm.operands
      = (vm.stack.toList.take vm.sp).tail.reverse ++ [vm.stack.get ⟨0, by decide⟩] := by
    rw [operands, ← List.reverse_cons, ← hbottom]
  have htake := take_succ_set (shiftDown vm.stack (vm.sp - 1) hlt).toList (vm.sp - 1)
    (vm.stack.get ⟨0, by decide⟩) (by rw [List.Vector.toList_length]; exact hlt)
  rw [Nat.sub_add_cancel (by omega), hshift] at htake
  rw [hoperands, rotate_concat]
  simp only [operands, List.Vector.toList_set, htake, List.reverse_append, List.reverse_cons,
    List.reverse_nil, List.nil_append, List.cons_append]

end MicroVM

end Vm

end Veil7
