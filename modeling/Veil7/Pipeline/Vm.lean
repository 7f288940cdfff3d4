import Veil7.Pipeline.Iteration
import Veil7.Vm.Refinement

/-!
# The Machine-Bound Pipeline

`verify_once_with_vm` of `pipeline.rs`: run the claim's bytes on the machine,
and use the first half of the root, twice, as the entropy seed of an ordinary
iteration.

The root is meant to make the iteration's key pair depend on the claim. It does
for claims that are programs and run to the end. For all others `execute`
answers with zeros, and where the command line treats zeros as a failure, this
function seeds the iteration with them: every claim that does not run is
attested under one fixed key pair (`passedSeed_of_not_executes`).

`verify_once_with_seed` is a parameter here; the seed it is given is all that
matters.

## Main definitions

* `verifyOnceWithVm`: The pipeline.
* `passedSeed`: The seed it passes on.
* `Executes`: The claim is a program that runs to the end on its machine.

## Theorems

* `verifyOnceWithVm_eq`: The pipeline is the ordinary one on the passed seed.
* `passedSeed_of_executes`, `passedSeed_of_not_executes`: The seed.
* `passedSeed_ne_iff`: When two claims get different seeds.
* `verifyOnceWithVm_of_not_executes`: No claim is refused.
* `passedSeed_not_programs`: Two claims with the seed of zeros.
-/

namespace Veil7

/-- The root's first 32 bytes, twice. -/
def seedOfRoot (vmRoot : Block 64) : Seed :=
  ⟨vmRoot.toList.take 32 ++ vmRoot.toList.take 32, by
    rw [List.length_append, List.length_take, Block.length_toList]
    rfl⟩

section

variable (X : Xof) {α : Type}

/-- One iteration seeded by the machine's root; `canary` is what `getrandom`
    left in the buffer of the new machine's canary. -/
def verifyOnceWithVm (verifyOnceWithSeed : Seed → Claim → Hashing α) (canary : Block 8)
    (claim : Claim) : Hashing α := do
  let vm := Vm.MicroVM.new canary
  let (vmRoot, _) ← vm.execute X claim.bytes
  -- The root is used as it comes; a root of zeros is not told from a hash.
  let seed := seedOfRoot vmRoot
  verifyOnceWithSeed seed claim

/-- The seed that `verify_once_with_vm` passes to `verify_once_with_seed`. -/
def passedSeed (canary : Block 8) (claim : Claim) : Hashing Seed :=
  verifyOnceWithVm X (fun seed _ => pure seed) canary claim

/-- The pipeline is the ordinary iteration on the passed seed. -/
theorem verifyOnceWithVm_eq (verifyOnceWithSeed : Seed → Claim → Hashing α) (canary : Block 8)
    (claim : Claim) :
    verifyOnceWithVm X verifyOnceWithSeed canary claim
      = passedSeed X canary claim >>= fun seed => verifyOnceWithSeed seed claim := by
  simp only [passedSeed, verifyOnceWithVm, bind_assoc, pure_bind]

/-- The claim's bytes are a program, and it runs to the end on a machine with a
    sound canary. -/
def Executes (canary : Block 8) (claim : Claim) : Prop :=
  (Vm.MicroVM.new canary).canaryDamaged = false ∧
    (Vm.outcome Vm.Instr.step claim.bytes).isSome = true

instance (canary : Block 8) (claim : Claim) : Decidable (Executes canary claim) :=
  inferInstanceAs (Decidable (_ ∧ _))

theorem val_passedSeed (canary : Block 8) (claim : Claim) :
    (passedSeed X canary claim).val
      = seedOfRoot ((Vm.MicroVM.new canary).execute X claim.bytes).val.1 := rfl

theorem queries_passedSeed (canary : Block 8) (claim : Claim) :
    (passedSeed X canary claim).queries
      = ((Vm.MicroVM.new canary).execute X claim.bytes).queries := by
  rw [passedSeed, verifyOnceWithVm, Queried.queries_bind, Queried.queries_pure, List.append_nil]

/-- The seed of a program that runs to the end: half its trace's hash, twice. -/
theorem passedSeed_of_executes (canary : Block 8) (claim : Claim) (h : Executes canary claim) :
    ∃ s t, Vm.outcome Vm.Instr.step claim.bytes = some (s, t) ∧
      (passedSeed X canary claim).queries = [Vm.traceString s t] ∧
      (passedSeed X canary claim).val = seedOfRoot (digest X 64 (Vm.traceString s t)) := by
  rcases Option.isSome_iff_exists.mp h.2 with ⟨⟨s, t⟩, hst⟩
  have hsound := (Vm.canaryDamaged_eq_false_iff _).mp h.1
  have hcall := Vm.execute_eq X (Vm.MicroVM.new canary) claim.bytes hsound.1 hsound.2
  rw [hst] at hcall
  refine ⟨s, t, hst, ?_, ?_⟩
  · rw [queries_passedSeed, hcall]
  · rw [val_passedSeed, hcall]

/-- The seed of all other claims, whatever their bytes. -/
theorem passedSeed_of_not_executes (canary : Block 8) (claim : Claim)
    (h : ¬ Executes canary claim) : passedSeed X canary claim = pure (zeros 64) := by
  have hzero : ∃ vm', (Vm.MicroVM.new canary).execute X claim.bytes = pure (zeros 64, vm') := by
    cases hcanary : (Vm.MicroVM.new canary).canaryDamaged with
    | true => exact ⟨_, Vm.execute_of_damaged X _ _ hcanary⟩
    | false =>
        have hsound := (Vm.canaryDamaged_eq_false_iff _).mp hcanary
        have hcall := Vm.execute_eq X (Vm.MicroVM.new canary) claim.bytes hsound.1 hsound.2
        cases houtcome : Vm.outcome Vm.Instr.step claim.bytes with
        | none =>
            rw [houtcome] at hcall
            rcases hcall with hcall | hcall
            · exact ⟨_, hcall⟩
            · exact ⟨_, hcall⟩
        | some st =>
            refine absurd ⟨hcanary, ?_⟩ h
            rw [houtcome]
            rfl
  rcases hzero with ⟨vm', hcall⟩
  rw [passedSeed, verifyOnceWithVm, hcall, pure_bind]
  rfl

/-- A claim that does not run is not refused: it goes on with the one seed. -/
theorem verifyOnceWithVm_of_not_executes (verifyOnceWithSeed : Seed → Claim → Hashing α)
    (canary : Block 8) (claim : Claim) (h : ¬ Executes canary claim) :
    verifyOnceWithVm X verifyOnceWithSeed canary claim = verifyOnceWithSeed (zeros 64) claim := by
  rw [verifyOnceWithVm_eq, passedSeed_of_not_executes X canary claim h, pure_bind]

theorem seedOfRoot_digest (s : Bytes) :
    (seedOfRoot (digest X 64 s)).toList = (digest X 32 s).toList ++ (digest X 32 s).toList := by
  change (digest X 64 s).toList.take 32 ++ (digest X 64 s).toList.take 32 = _
  rw [take_digest X 32 64 s (by omega) (by omega)]

/-- Seeds made from equal hashes are made from hashes with equal halves. -/
theorem digest_eq_of_seedOfRoot (s s' : Bytes)
    (h : seedOfRoot (digest X 64 s) = seedOfRoot (digest X 64 s')) :
    digest X 32 s = digest X 32 s' := by
  have hlist := congrArg List.Vector.toList h
  rw [seedOfRoot_digest, seedOfRoot_digest] at hlist
  exact (Block.toList_append_inj 32 _ _ _ _ hlist).1

theorem digest_eq_zeros_of_seedOfRoot (s : Bytes) (h : seedOfRoot (digest X 64 s) = zeros 64) :
    digest X 32 s = zeros 32 := by
  have hlist := congrArg List.Vector.toList h
  rw [seedOfRoot_digest] at hlist
  exact (Block.toList_append_inj 32 _ (zeros 32) _ (zeros 32).toList hlist).1

end

/-- Two claims get different seeds exactly when at least one of them runs to the
    end, and not both as the same program. The hash is assumed to separate the
    traces hashed and to send none of them to zeros. -/
theorem passedSeed_ne_iff (X : Xof) (canary canary' : Block 8) (claim claim' : Claim)
    (hcf : CollisionFree (digest X 32)
      ((passedSeed X canary claim).queries ++ (passedSeed X canary' claim').queries))
    (hzero : ∀ q ∈ (passedSeed X canary claim).queries ++ (passedSeed X canary' claim').queries,
      digest X 32 q ≠ zeros 32) :
    (passedSeed X canary claim).val ≠ (passedSeed X canary' claim').val ↔
      (Executes canary claim ∨ Executes canary' claim') ∧
      ¬ (Executes canary claim ∧ Executes canary' claim' ∧ claim.bytes = claim'.bytes) := by
  by_cases h : Executes canary claim
  · rcases passedSeed_of_executes X canary claim h with ⟨s, t, hst, hqueries, hval⟩
    rw [hqueries] at hcf hzero
    by_cases h' : Executes canary' claim'
    · rcases passedSeed_of_executes X canary' claim' h' with ⟨s', t', hst', hqueries', hval'⟩
      rw [hqueries'] at hcf hzero
      constructor
      · intro hne
        refine ⟨Or.inl h, fun hboth => hne ?_⟩
        rw [← hboth.2.2, hst, Option.some.injEq, Prod.mk.injEq] at hst'
        rw [hval, hval', hst'.1, hst'.2]
      · intro hboth heq
        rw [hval, hval'] at heq
        -- Both runs hashed their traces, so equal seeds come from one trace.
        have htrace := hcf _ (List.mem_append_left _ List.mem_cons_self) _
          (List.mem_append_right _ List.mem_cons_self) (digest_eq_of_seedOfRoot X _ _ heq)
        exact hboth.2 ⟨h, h', Vm.traceString_inj _ _ s s' t t' hst hst' htrace⟩
    -- One runs and the other does not: a hash against zeros.
    · refine ⟨fun _ => ⟨Or.inl h, fun hboth => h' hboth.2.1⟩, fun _ heq => ?_⟩
      rw [hval, passedSeed_of_not_executes X canary' claim' h'] at heq
      exact hzero _ (List.mem_append_left _ List.mem_cons_self)
        (digest_eq_zeros_of_seedOfRoot X _ heq)
  · by_cases h' : Executes canary' claim'
    · rcases passedSeed_of_executes X canary' claim' h' with ⟨s', t', -, hqueries', hval'⟩
      rw [hqueries'] at hzero
      refine ⟨fun _ => ⟨Or.inr h', fun hboth => h hboth.1⟩, fun _ heq => ?_⟩
      rw [hval', passedSeed_of_not_executes X canary claim h] at heq
      exact hzero _ (List.mem_append_right _ List.mem_cons_self)
        (digest_eq_zeros_of_seedOfRoot X _ heq.symm)
    -- Neither runs: both seeds are the zeros of a failure.
    · rw [passedSeed_of_not_executes X canary claim h,
        passedSeed_of_not_executes X canary' claim' h']
      exact ⟨fun hne => absurd rfl hne, fun hor => absurd hor.1 (by rw [not_or]; exact ⟨h, h'⟩)⟩

/-- A canary of one, as drawn. -/
def canaryOne : Block 8 := ⟨[1, 0, 0, 0, 0, 0, 0, 0], rfl⟩

theorem executes_nop_push : Executes canaryOne (Claim.new [0x00]) ∧
    ¬ Executes canaryOne (Claim.new [0x05]) := by decide +kernel

theorem queries_passedSeed_nop_push :
    (passedSeed Keccak.shake256 canaryOne (Claim.new [0x00])).queries
        ++ (passedSeed Keccak.shake256 canaryOne (Claim.new [0x05])).queries
      = [Vm.traceString [] [0x00]] ∧
    digest Keccak.shake256 32 (Vm.traceString [] [0x00]) ≠ zeros 32 := by decide +kernel

/-- A program and a truncated one get different seeds. -/
theorem passedSeed_ne_nop_push :
    (passedSeed Keccak.shake256 canaryOne (Claim.new [0x00])).val
        ≠ (passedSeed Keccak.shake256 canaryOne (Claim.new [0x05])).val ∧
      Executes canaryOne (Claim.new [0x00]) := by
  have hqueries := queries_passedSeed_nop_push
  refine ⟨?_, executes_nop_push.1⟩
  refine (passedSeed_ne_iff Keccak.shake256 canaryOne canaryOne _ _ ?_ ?_).mpr
    ⟨Or.inl executes_nop_push.1, fun hboth => executes_nop_push.2 hboth.2.1⟩
  · rw [hqueries.1]
    intro q hq r hr _
    rw [List.mem_singleton.mp hq, List.mem_singleton.mp hr]
  · rw [hqueries.1]
    intro q hq
    rw [List.mem_singleton.mp hq]
    exact hqueries.2

/-- Two different claims, neither of them a program, that get one seed, of
    zeros, with nothing hashed that could collide. -/
theorem passedSeed_not_programs :
    Claim.new (ascii "same data") ≠ Claim.new (ascii "test data for VM pipeline") ∧
    CollisionFree (digest Keccak.shake256 32)
      ((passedSeed Keccak.shake256 canaryOne (Claim.new (ascii "same data"))).queries
        ++ (passedSeed Keccak.shake256 canaryOne
          (Claim.new (ascii "test data for VM pipeline"))).queries) ∧
    (passedSeed Keccak.shake256 canaryOne (Claim.new (ascii "same data"))).val
      = (passedSeed Keccak.shake256 canaryOne (Claim.new (ascii "test data for VM pipeline"))).val ∧
    (passedSeed Keccak.shake256 canaryOne (Claim.new (ascii "same data"))).val = zeros 64 := by
  decide +kernel

end Veil7
