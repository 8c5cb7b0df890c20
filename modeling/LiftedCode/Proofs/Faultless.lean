/-
Neither backend has a fault of its own. Faults are what is left when a computation
has no answer: assertions about widths, fields that are not there, and numbers out
of range. The checks that assignments go through are enough to rule out the
first two in both backends, and the third but for numbers that are too large by
themselves (`no_faults`).

- In a trace, each operation is matched with what its own check promises
  (`Trace.settles_appTerm`).
- In the lowering, the operands at hand may be of other types than the values they
  are for, so types are followed from where they are bound
  (`Lowering.Carries`, `Lowering.obtains_app`).
-/
import LiftedCode.Proofs.Lowering.Faultless.Routine
import LiftedCode.Proofs.Trace.Faultless

namespace LiftedCode

/-- Code whose assignments were all made by their checks has no faults, in a trace
or in the lowering: either ends with a result, or with an error that says what is
wrong with the code. This is so for all statements, writes that were never checked
among them, and whatever the registers, the classifier and the options are; all
that is asked for is that the numbers which the code names fit. -/
theorem no_faults :
    (∀ (ctx : Trace.Context) (nextLocal : Nat) (b : MachineBlock) (log : Log),
      (∀ a, .assign a ∈ b.stmts → Assignment.make a.id a.rhs = .ok a) →
      Trace.InRange ctx nextLocal b →
      ∀ f, ((Trace.block ctx nextLocal b).run.run log).1 ≠ .error (.code (.fault f)))
    ∧ ∀ (target : Lowering.Target) (r : Routine) (log : Log),
      (∀ b ∈ r.blocks, ∀ a, .assign a ∈ b.stmts → Assignment.make a.id a.rhs = .ok a) →
      (∀ b ∈ r.blocks, Lowering.InRange target b) →
      ∀ f, ((Lowering.routine target r).run.run log).1 ≠ .error (.code (.fault f)) :=
  ⟨fun _ _ _ log hmade hfits => (Trace.settles_block hmade hfits log).ne_fault,
    fun _ _ log hmade hfits => (Lowering.settles_routine hfits hmade log).ne_fault⟩

-- ============================================================= an example

/-- Whether one more than three, as numbers of three bits, leaves the signed range. -/
def threeAndCarry : Assignment Value :=
  ⟨0, .app (.carry .sadcOverflows 3 (.bits ⟨3, 3, by decide, by decide, by decide⟩)
    (.bits ⟨3, 0, by decide, by decide, valueCount_pos _⟩) (.bool true)), .bool⟩

/-- A block that adds with a carry, after a mark of its instruction. -/
def carryBlock : MachineBlock :=
  ⟨4096, 4, [.instruction 0 "adc", .assign threeAndCarry], .fetch ∅⟩

theorem fits_carryBlock : Trace.InRange ⟨∅, 4096, ∅⟩ 7 carryBlock := by
  refine ⟨fun c hc => ?_, by decide⟩
  rcases List.mem_pair.1 hc with rfl | rfl
  · exact (by decide : 4096 + 0 < Address.limit)
  · refine ⟨rfl, ?_⟩
    rintro app ⟨⟩
    rfl

/-- Three bytes from memory, the most significant one first. -/
def threeBytes : Assignment Value := ⟨0, .read (.arg 0 (.bits 64)) (.bits 3 .big), .bits 24⟩

/-- Three bytes are read and written back to where they came from. -/
def copyThree : RoutineBlock :=
  ⟨0, 4, [], [.assign threeBytes, .write (.arg 0 (.bits 64)) (.bits 3 .big) (.assigned threeBytes)],
    .ret [], ∅⟩

/-- A routine of the one block that copies three bytes. -/
def threeBytesRoutine : Routine := ⟨"copy", 0, ⟨[.bits 64], [], false⟩, 0, [copyThree]⟩

theorem assign_mem_copyThree {a : Assignment Value} (h : .assign a ∈ copyThree.stmts) :
    a = threeBytes := by
  rcases List.mem_pair.1 h with h | h
  · exact Stmt.assign.inj h
  · contradiction

/-- What is bound in the block has three bytes. -/
theorem int_of_carries {id : Ident} {t : Llvm.Ty} (h : Lowering.Carries copyThree id t) :
    t = .int 24 := by
  cases h with
  | phi hp => exact absurd hp List.not_mem_nil
  | returned hc => rcases List.mem_pair.1 hc with hc | hc <;> contradiction
  | assigned ha =>
      obtain rfl := assign_mem_copyThree ha
      rfl
  | passed ha hv _ hid _ =>
      obtain rfl := assign_mem_copyThree ha
      obtain rfl := List.mem_singleton.1 hv
      contradiction

theorem fits_copyThree (options : Options) : Lowering.InRange ⟨options, .little⟩ copyThree := by
  have hroom : Lowering.ReversalFits 24 := fun _ _ _ => by decide
  refine ⟨fun p hp => absurd hp List.not_mem_nil, fun c hc => ?_, fun c hc w hw => ?_⟩
  · rcases List.mem_pair.1 hc with rfl | rfl
    · rfl
    · exact ⟨rfl, rfl⟩
  · cases hw with
    | operation h _ =>
        obtain rfl := assign_mem_copyThree hc
        contradiction
    | read h _ hw =>
        obtain rfl := assign_mem_copyThree hc
        cases h
        cases hw
        exact hroom
    | readIf h _ _ =>
        obtain rfl := assign_mem_copyThree hc
        contradiction
    | default h _ _ _ =>
        obtain rfl := assign_mem_copyThree hc
        contradiction
    | write _ hv hw =>
        rcases List.mem_pair.1 hc with h | h
        · contradiction
        · cases h
          rw [int_of_carries hv] at hw
          cases hw
          exact hroom
    | writeIf _ _ _ => rcases List.mem_pair.1 hc with h | h <;> contradiction

/-- The overflow predicate has four bits on the way and the reversals four bytes, and
neither is too much. -/
theorem no_faults_four :
    (∀ f, ((Trace.block ⟨∅, 4096, ∅⟩ 7 carryBlock).run.run #[]).1 ≠ .error (.code (.fault f)))
    ∧ ∀ f, ((Lowering.routine ⟨{}, .little⟩ threeBytesRoutine).run.run #[]).1
      ≠ .error (.code (.fault f)) := by
  constructor
  · refine no_faults.1 _ _ _ _ (fun a ha => ?_) fits_carryBlock
    rcases List.mem_pair.1 ha with h | h
    · contradiction
    · obtain rfl := Stmt.assign.inj h
      rfl
  · refine no_faults.2 _ _ _ (fun b hb a ha => ?_) fun b hb => ?_
    · obtain rfl := List.mem_singleton.1 hb
      obtain rfl := assign_mem_copyThree ha
      rfl
    · obtain rfl := List.mem_singleton.1 hb
      exact fits_copyThree _

end LiftedCode
