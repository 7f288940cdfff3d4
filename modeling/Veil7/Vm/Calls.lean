import Veil7.Vm.Refinement

/-!
# Call after Call

What one machine carries from one call of `execute` to the next, and what a run
of the loop keeps on the way.

Between calls every machine is as it was built, with clear slots and a pointer
at zero, whichever exit its calls took (`after_eq`): the early exits leave a
machine that was clear, the others wipe it. Inside a call the slots from the
pointer on are zero (`Tidy`), because a pop zeroes what it takes and no other
instruction writes beyond the pointer.

So a call depends on the code and on the canary, and on the canary only through
the two values that mark a damaged machine. But nothing keeps a machine from
being built with one of them. `new` ignores the error of `getrandom` and so
takes the canary zero when it fails, and a machine with that canary answers
every program with zeros (`execute_same_root_iff`).

## Main definitions

* `Built`, `after`: The machines as they are built, and after calls.
* `ClearFrom`, `Tidy`: The slots from a place, or from the pointer, are zero.
* `Visits`: The states of the loop in a call.

## Theorems

* `after_eq`: A machine between calls is as it was built.
* `tidy_exec`: One instruction keeps the slots tidy.
* `tidy_of_visits`, `visits_of_interpret`: So does the loop, to its end.
* `exists_visits_of_execute`: A call hashes what its loop ends with.
* `leaves_nothing`: No call leaves anything on the machine.
* `execute_same_root_iff`: When two machines return one root for a program.
* `execute_binds_program`: A call that succeeds binds its program.
-/

namespace Veil7

namespace Vm

open MicroVM

/-! ### Between calls -/

/-- The machines as they are built. -/
inductive Built : MicroVM → Prop where
  | new (bytes : Block 8) : Built (MicroVM.new bytes)
  | default : Built MicroVM.default
  | withCanary (canary : UInt64) : Built (MicroVM.withCanary canary)

/-- A machine after calls on the codes, in order. -/
def after (X : Xof) (vm : MicroVM) (codes : List Bytes) : MicroVM :=
  codes.foldl (fun vm code => (execute X vm code).val.2) vm

theorem built_eq (vm : MicroVM) (h : Built vm) : vm = withCanary vm.canary := by
  cases h <;> rfl

section

variable (X : Xof)

/-- A call leaves the machine as it is, or wiped. -/
theorem left_by_execute (vm : MicroVM) (code : Bytes) :
    (execute X vm code).val.2 = vm ∨ (execute X vm code).val.2 = withCanary vm.canary := by
  by_cases hdamaged : vm.canaryDamaged = true
  · rw [execute_of_damaged X vm code hdamaged]
    exact Or.inl rfl
  · rw [Bool.not_eq_true, canaryDamaged_eq_false_iff] at hdamaged
    have hcall := execute_eq X vm code hdamaged.1 hdamaged.2
    cases h : outcome Instr.step code with
    | none =>
        rw [h] at hcall
        rcases hcall with hcall | hcall
        · rw [hcall]
          exact Or.inl rfl
        · rw [hcall]
          exact Or.inr rfl
    | some st =>
        rw [h] at hcall
        rw [hcall]
        exact Or.inr rfl

/-- Between calls a machine is as it was built. -/
theorem after_eq (vm : MicroVM) (h : Built vm) (codes : List Bytes) : after X vm codes = vm := by
  induction codes with
  | nil => rfl
  | cons code codes ih =>
      have hleft : (execute X vm code).val.2 = vm := by
        rcases left_by_execute X vm code with hleft | hleft
        · exact hleft
        · exact hleft.trans (built_eq vm h).symm
      unfold after at ih ⊢
      rw [List.foldl_cons, hleft, ih]

end

/-! ### Inside a call -/

/-- The slots from the `n`-th on are zero. -/
def ClearFrom (n : Nat) (stack : Slots) : Prop :=
  ∀ i : Fin stackDepth, n ≤ i.val → stack.get i = 0

/-- The slots from the pointer on are zero. -/
def Tidy (vm : MicroVM) : Prop := ClearFrom vm.sp vm.stack

theorem clearFrom_clear (n : Nat) : ClearFrom n Slots.clear :=
  fun i _ => List.Vector.get_replicate 0 i

theorem clearFrom_mono (m n : Nat) (stack : Slots) (hmn : m ≤ n) (h : ClearFrom m stack) :
    ClearFrom n stack :=
  fun i hi => h i (hmn.trans hi)

/-- Below the clear slots anything may be written. -/
theorem clearFrom_set (n : Nat) (stack : Slots) (k : Fin stackDepth) (v : UInt64) (hk : k.val < n)
    (h : ClearFrom n stack) : ClearFrom n (stack.set k v) := by
  intro i hi
  have hne : k ≠ i := by
    intro heq
    rw [heq] at hk
    omega
  rw [List.Vector.get_set_of_ne hne]
  exact h i hi

/-- A slot that is zeroed joins the clear slots above it. -/
theorem clearFrom_set_zero (stack : Slots) (k : Fin stackDepth)
    (h : ClearFrom (k.val + 1) stack) : ClearFrom k.val (stack.set k 0) := by
  intro i hi
  rw [List.Vector.get_set_eq_if]
  by_cases heq : k = i
  · rw [if_pos heq]
  · have hne : k.val ≠ i.val := fun hval => heq (Fin.ext hval)
    rw [if_neg heq]
    exact h i (by omega)

section

variable (vm vm' : MicroVM) (v : UInt64)

theorem tidy_push (h : Tidy vm) (hpush : vm.push v = some vm') : Tidy vm' := by
  unfold MicroVM.push at hpush
  by_cases hlt : vm.sp < stackDepth
  · rw [dif_pos hlt, Option.some.injEq] at hpush
    rw [← hpush]
    exact clearFrom_set _ _ _ _ (Nat.lt_succ_self _)
      (clearFrom_mono _ _ _ (Nat.le_succ _) h)
  · rw [dif_neg hlt] at hpush
    cases hpush

/-- The slot of a popped value is zeroed. -/
theorem tidy_pop (h : Tidy vm) (hpop : vm.pop = some (v, vm')) : Tidy vm' := by
  unfold MicroVM.pop at hpop
  by_cases hsp : vm.sp = 0
  · rw [dif_pos hsp] at hpop
    cases hpop
  · rw [dif_neg hsp, Option.some.injEq, Prod.mk.injEq] at hpop
    rw [← hpop.2]
    have hlt : vm.sp - 1 < stackDepth := by
      have hle := vm.sp_le
      omega
    exact clearFrom_set_zero vm.stack ⟨vm.sp - 1, hlt⟩
      (clearFrom_mono vm.sp _ _ (by dsimp only; omega) h)

theorem tidy_swap (h2 : 2 ≤ vm.sp) (h : Tidy vm) : Tidy (vm.swap h2) := by
  unfold MicroVM.swap
  exact clearFrom_set _ _ _ _ (by dsimp only; omega)
    (clearFrom_set _ _ _ _ (by dsimp only; omega) h)

theorem tidy_rot (h : Tidy vm) : Tidy vm.rot := by
  unfold MicroVM.rot
  by_cases hlt : vm.sp < 2
  · rw [dif_pos hlt]
    exact h
  · rw [dif_neg hlt]
    refine clearFrom_set _ _ _ _ (by dsimp only; omega) ?_
    -- The values move down, below the pointer.
    intro i hi
    dsimp only at hi
    rw [get_shiftDown, dif_neg (by omega)]
    exact h i hi

end

section

variable (vm : MicroVM) (trace : Shake256) (pc : Nat) (s : Loop)

theorem tidy_pushResult (result : UInt64) (h : Tidy vm)
    (hok : pushResult vm trace pc result = .ok s) : Tidy s.vm := by
  unfold pushResult failClosed at hok
  cases hpush : vm.push result with
  | none =>
      rw [hpush] at hok
      cases hok
  | some vm' =>
      rw [hpush] at hok
      cases hok
      exact tidy_push vm vm' result h hpush

theorem tidy_execBinary (op : OpCode) (h : Tidy vm) (hok : execBinary op vm trace pc = .ok s) :
    Tidy s.vm := by
  unfold execBinary failClosed at hok
  split at hok
  · cases hok
  · rename_i b vm₁ hpop
    have h₁ := tidy_pop vm vm₁ b h hpop
    split at hok
    · cases hok
    · rename_i a vm₂ hpop₂
      have h₂ := tidy_pop vm₁ vm₂ a h₁ hpop₂
      split at hok
      · cases hok
      · exact tidy_pushResult vm₂ trace pc s _ h₂ hok

/-- One instruction keeps the slots tidy. -/
theorem tidy_exec (code : Bytes) (op : OpCode) (h : Tidy vm)
    (hok : exec code op vm trace pc = .ok s) : Tidy s.vm := by
  unfold exec failClosed at hok
  split at hok
  · cases hok
    exact h
  · -- Push.
    split at hok
    · cases hok
    · dsimp only at hok
      split at hok
      · cases hok
      · rename_i vm' hpush
        cases hok
        exact tidy_push vm vm' _ h hpush
  · -- Pop.
    split at hok
    · cases hok
    · rename_i a vm' hpop
      cases hok
      exact tidy_pop vm vm' a h hpop
  · -- Dup.
    split at hok
    · cases hok
    · split at hok
      · cases hok
      · rename_i vm' hpush
        cases hok
        exact tidy_push vm vm' _ h hpush
  · -- Swap.
    split at hok
    · cases hok
    · rename_i h2
      cases hok
      exact tidy_swap vm (Nat.le_of_not_lt h2) h
  · cases hok
    exact tidy_rot vm h
  · -- Not.
    split at hok
    · cases hok
    · rename_i a vm' hpop
      exact tidy_pushResult vm' trace pc s _ (tidy_pop vm vm' a h hpop) hok
  · exact tidy_execBinary vm trace pc s _ h hok

end

/-- The states of the loop in a call: those it is entered with, and what the turns
    make of them. -/
inductive Visits (vm : MicroVM) (code : Bytes) : Loop → Prop where
  | start : Visits vm code (enter vm)
  | turn (s s' : Loop) (hlt : s.pc < code.length) (h : Visits vm code s)
      (hturn : iterate code s hlt = .ok s') : Visits vm code s'

/-- The loop keeps the slots tidy. -/
theorem tidy_of_visits (vm : MicroVM) (code : Bytes) (s : Loop) (h : Visits vm code s) :
    Tidy s.vm := by
  induction h with
  | start => exact clearFrom_clear 0
  | turn s s' hlt _ hturn ih =>
      unfold iterate failClosed at hturn
      split at hturn
      · cases hturn
      · exact tidy_exec _ _ _ _ code _ ih hturn

/-- The loop ends in a state it visits. -/
theorem visits_of_interpret (vm : MicroVM) (code : Bytes) (s s' : Loop) (h : Visits vm code s)
    (hloop : interpret code s = .ok s') : Visits vm code s' := by
  induction s using interpret.induct code with
  | case1 s hlt vm' hturn =>
      rw [interpret, dif_pos hlt] at hloop
      split at hloop
      · cases hloop
      · rename_i hturn'
        rw [hturn] at hturn'
        cases hturn'
  | case2 s hlt s₁ hturn _ ih =>
      rw [interpret, dif_pos hlt] at hloop
      split at hloop
      · cases hloop
      · rename_i s₂ hturn'
        rw [hturn, Except.ok.injEq] at hturn'
        dsimp only at hloop
        rw [← hturn'] at hloop
        exact ih (.turn s s₁ hlt h hturn) hloop
  | case3 s hlt =>
      rw [interpret, dif_neg hlt, Except.ok.injEq] at hloop
      rw [← hloop]
      exact h

/-- A call that hashes something has run the loop from where it is entered to a
    state it visits, and hashes the trace and the depth found there. -/
theorem exists_visits_of_execute (X : Xof) (vm : MicroVM) (code : Bytes)
    (h : (execute X vm code).queries ≠ []) :
    ∃ s, interpret code (enter vm) = .ok s ∧ Visits vm code s ∧
      (execute X vm code).queries = [s.trace.buf ++ u64Bytes s.vm.sp] ∧
      (execute X vm code).val.2 = s.vm.wipeState := by
  by_cases hguard : (code.isEmpty || decide (code.length > maxCode)) = true
  · rw [execute, dif_pos hguard] at h
    exact absurd rfl h
  have hpos : 0 < code.length := by
    rw [Bool.or_eq_true, List.isEmpty_iff, not_or] at hguard
    exact List.length_pos_iff.mpr hguard.1
  rw [execute, dif_neg hguard] at h ⊢
  by_cases hfirst : (OpCode.fromU8 code[0]).isNone = true
  · rw [if_pos hfirst] at h
    exact absurd rfl h
  rw [if_neg hfirst] at h ⊢
  by_cases hdamaged : vm.canaryDamaged = true
  · rw [if_pos hdamaged] at h
    exact absurd rfl h
  rw [if_neg hdamaged] at h ⊢
  cases hloop : interpret code (enter vm) with
  | error vm' =>
      rw [hloop] at h
      exact absurd rfl h
  | ok s =>
      rw [hloop] at h
      dsimp only at h ⊢
      by_cases hend : s.vm.canaryDamaged = true
      · rw [if_pos hend] at h
        exact absurd rfl h
      rw [if_neg hend]
      exact ⟨s, rfl, visits_of_interpret vm code (enter vm) s .start hloop, rfl, rfl⟩

theorem stackDepth_pos : 0 < stackDepth := by decide

/-- The code of one push. -/
def pushSeven : Bytes := [0x05, 7, 0, 0, 0, 0, 0, 0, 0]

/-- The loop's variables after it. -/
def afterPush : Loop :=
  { vm := { stack := Slots.clear.set ⟨0, stackDepth_pos⟩ 7, sp := 1, canary := 1,
            sp_le := stackDepth_pos },
    trace := ((Shake256.new.update traceTag).update [0x05]).update [7, 0, 0, 0, 0, 0, 0, 0],
    pc := 9 }

theorem visits_afterPush : Visits default pushSeven afterPush :=
  .turn (enter default) afterPush (by decide) .start rfl

/-- No call leaves anything on the machine. After any calls the pointer and all
    slots are zero, and inside the next one the pointer stays within the slots
    and those from the pointer on are zero. -/
theorem leaves_nothing (X : Xof) (vm : MicroVM) (h : Built vm) (codes : List Bytes) :
    (after X vm codes).sp = 0 ∧
    (∀ i : Fin stackDepth, (after X vm codes).stack.get i = 0) ∧
    ∀ code s, Visits (after X vm codes) code s →
      s.vm.sp ≤ stackDepth ∧ ∀ i : Fin stackDepth, s.vm.sp ≤ i.val → s.vm.stack.get i = 0 := by
  refine ⟨?_, ?_, ?_⟩
  · rw [after_eq X vm h, built_eq vm h]
    rfl
  · intro i
    rw [after_eq X vm h, built_eq vm h]
    exact clearFrom_clear 0 i (Nat.zero_le _)
  · intro code s hs
    exact ⟨s.vm.sp_le, tidy_of_visits _ code s hs⟩

/-- A call that succeeds and one that fails on a truncated push leave nothing, and
    the next call has its first value on the stack and nothing above it. -/
theorem leaves_nothing_after_two :
    (after Keccak.shake256 default [pushSeven, [0x00, 0x05]]).sp = 0 ∧
    (∀ i, (after Keccak.shake256 default [pushSeven, [0x00, 0x05]]).stack.get i = 0) ∧
    ∃ s, Visits (after Keccak.shake256 default [pushSeven, [0x00, 0x05]]) pushSeven s ∧
      s.vm.sp = 1 ∧ s.vm.stack.get ⟨0, stackDepth_pos⟩ = 7 ∧
      ∀ i : Fin stackDepth, 1 ≤ i.val → s.vm.stack.get i = 0 := by
  rcases leaves_nothing Keccak.shake256 default .default [pushSeven, [0x00, 0x05]] with
    ⟨hsp, hslots, hinside⟩
  refine ⟨hsp, hslots, afterPush, ?_, rfl, rfl, ?_⟩
  · rw [after_eq Keccak.shake256 default .default]
    exact visits_afterPush
  · refine (hinside pushSeven afterPush ?_).2
    rw [after_eq Keccak.shake256 default .default]
    exact visits_afterPush

/-! ### The root and the machine -/

section

variable (X : Xof) (vm vm' : MicroVM)

/-- A machine whose canary marks damage answers with zeros, another one with the
    reference root. -/
theorem val_execute_cases (code : Bytes) :
    (execute X vm code).val.1
      = if vm.canaryDamaged then zeros 64 else referenceRoot X Instr.step code := by
  by_cases h : vm.canaryDamaged = true
  · rw [if_pos h, execute_of_damaged X vm code h]
    rfl
  · rw [if_neg h]
    rw [Bool.not_eq_true, canaryDamaged_eq_false_iff] at h
    exact val_execute X vm code h.1 h.2

/-- Two machines return one root for a program, whatever they ran before, if
    both or neither were built with a canary that marks damage, or if the
    program does not run to the end. Only then do they, unless its trace is
    hashed to zeros. -/
theorem execute_same_root_iff (h : Built vm) (h' : Built vm') (codes codes' : List Bytes)
    (code : Bytes) :
    (vm.canaryDamaged = vm'.canaryDamaged ∨ outcome Instr.step code = none →
      (execute X (after X vm codes) code).val.1 = (execute X (after X vm' codes') code).val.1) ∧
    ((∀ s t, outcome Instr.step code = some (s, t) → digest X 64 (traceString s t) ≠ zeros 64) →
      ((execute X (after X vm codes) code).val.1 = (execute X (after X vm' codes') code).val.1 ↔
        vm.canaryDamaged = vm'.canaryDamaged ∨ outcome Instr.step code = none)) := by
  rw [after_eq X vm h, after_eq X vm' h', val_execute_cases, val_execute_cases]
  have hfails : outcome Instr.step code = none → referenceRoot X Instr.step code = zeros 64 := by
    intro hnone
    rw [referenceRoot, hnone]
  have hsame : vm.canaryDamaged = vm'.canaryDamaged ∨ outcome Instr.step code = none →
      (if vm.canaryDamaged then zeros 64 else referenceRoot X Instr.step code)
        = if vm'.canaryDamaged then zeros 64 else referenceRoot X Instr.step code := by
    rintro (hcanary | hnone)
    · rw [hcanary]
    · rw [hfails hnone, ite_self, ite_self]
  refine ⟨hsame, ?_⟩
  intro hzeros
  refine ⟨?_, hsame⟩
  intro heq
  by_cases hcanary : vm.canaryDamaged = vm'.canaryDamaged
  · exact Or.inl hcanary
  refine Or.inr ?_
  -- One machine answers with zeros, so the other does, and no trace is hashed to them.
  have hroot : referenceRoot X Instr.step code = zeros 64 := by
    by_cases hd : vm.canaryDamaged = true
    · have hd' : ¬ vm'.canaryDamaged = true := fun hd' => hcanary (hd.trans hd'.symm)
      rw [if_pos hd, if_neg hd'] at heq
      exact heq.symm
    · have hd' : vm'.canaryDamaged = true := by
        by_contra hno
        exact hcanary ((Bool.eq_false_of_not_eq_true hd).trans
          (Bool.eq_false_of_not_eq_true hno).symm)
      rw [if_neg hd, if_pos hd'] at heq
      exact heq
  cases houtcome : outcome Instr.step code with
  | none => rfl
  | some st =>
      rw [referenceRoot, houtcome] at hroot
      exact absurd hroot (hzeros st.1 st.2 houtcome)

/-- A machine that was used before, and one with another canary. -/
theorem execute_same_root_used :
    (execute Keccak.shake256 (after Keccak.shake256 default [[0x05]]) [0x00]).val.1
      = (execute Keccak.shake256 (after Keccak.shake256 (withCanary 7) []) [0x00]).val.1 :=
  (execute_same_root_iff Keccak.shake256 default (withCanary 7) .default (.withCanary 7)
    [[0x05]] [] [0x00]).1 (Or.inl rfl)

/-- A machine built while `getrandom` fails, and one built by `default`. -/
theorem execute_new_zeros :
    Built (MicroVM.new (zeros 8)) ∧ Built default ∧
      (execute Keccak.shake256 (MicroVM.new (zeros 8)) [0x00]).val.1
        ≠ (execute Keccak.shake256 default [0x00]).val.1 := by
  refine ⟨.new _, .default, ?_⟩
  rw [val_execute_cases, val_execute_cases]
  decide +kernel

/-! ### The root and the program -/

/-- A call hashes something exactly if the canary is sound and the program runs
    to the end; then it hashes the trace. -/
theorem exists_of_queries_ne_nil (code : Bytes) (h : (execute X vm code).queries ≠ []) :
    ∃ s t, outcome Instr.step code = some (s, t) ∧
      (execute X vm code).queries = [traceString s t] ∧
      (execute X vm code).val.1 = digest X 64 (traceString s t) := by
  by_cases hdamaged : vm.canaryDamaged = true
  · rw [execute_of_damaged X vm code hdamaged] at h
    exact absurd rfl h
  · rw [Bool.not_eq_true, canaryDamaged_eq_false_iff] at hdamaged
    have hcall := execute_eq X vm code hdamaged.1 hdamaged.2
    cases houtcome : outcome Instr.step code with
    | none =>
        rw [houtcome] at hcall
        rcases hcall with hcall | hcall
        · rw [hcall] at h
          exact absurd rfl h
        · rw [hcall] at h
          exact absurd rfl h
    | some st =>
        rw [houtcome] at hcall
        exact ⟨st.1, st.2, rfl, by rw [hcall], by rw [hcall]⟩

/-- A call that hashes nothing has taken one of the failing exits. -/
theorem val_execute_of_queries_nil (code : Bytes) (h : (execute X vm code).queries = []) :
    (execute X vm code).val.1 = zeros 64 := by
  rw [val_execute_cases]
  by_cases hdamaged : vm.canaryDamaged = true
  · rw [if_pos hdamaged]
  · rw [if_neg hdamaged]
    rw [Bool.not_eq_true, canaryDamaged_eq_false_iff] at hdamaged
    rw [queries_execute X vm code hdamaged.1 hdamaged.2] at h
    unfold referenceRoot
    cases houtcome : outcome Instr.step code with
    | none => rfl
    | some st =>
        rw [houtcome] at h
        exact absurd h (List.cons_ne_nil _ _)

/-- Calls that succeed, that is, that hash a trace, hash different traces for
    different programs, and return different roots unless these collide. -/
theorem execute_binds_program (code code' : Bytes) (h : (execute X vm code).queries ≠ [])
    (h' : (execute X vm' code').queries ≠ []) :
    ((execute X vm code).queries = (execute X vm' code').queries → code = code') ∧
    (code ≠ code' →
      CollisionFree (digest X 64) ((execute X vm code).queries ++ (execute X vm' code').queries) →
        (execute X vm code).val.1 ≠ (execute X vm' code').val.1) := by
  rcases exists_of_queries_ne_nil X vm code h with ⟨s, t, houtcome, hqueries, hroot⟩
  rcases exists_of_queries_ne_nil X vm' code' h' with ⟨s', t', houtcome', hqueries', hroot'⟩
  have hbinds := traceString_inj code code' s s' t t' houtcome houtcome'
  rw [hqueries, hqueries', hroot, hroot']
  constructor
  · intro hsame
    exact hbinds (List.singleton_inj.mp hsame)
  · intro hne hcf hsame
    have hstring := CollisionFree.eq_of_pair _ _ _ hcf hsame
    exact hne (hbinds hstring)

end

/-- One and two instructions that do nothing. -/
theorem execute_binds_program_nops :
    (execute Keccak.shake256 default [0x00]).queries
      ≠ (execute Keccak.shake256 default [0x00, 0x00]).queries := by
  have hruns : ∀ code : Bytes, (outcome Instr.step code).isSome →
      (execute Keccak.shake256 default code).queries ≠ [] := by
    intro code h
    rcases Option.isSome_iff_exists.mp h with ⟨st, hst⟩
    rw [queries_execute Keccak.shake256 default code (by decide) (by decide), hst]
    exact List.cons_ne_nil _ _
  intro h
  exact absurd ((execute_binds_program Keccak.shake256 default default [0x00] [0x00, 0x00]
    (hruns _ (by decide +kernel)) (hruns _ (by decide +kernel))).1 h) (by decide)

end Vm

end Veil7
