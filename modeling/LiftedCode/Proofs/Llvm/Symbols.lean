/-
The symbols of code: the names of functions that it refers to, in calls and as
addresses, and what it means that they are declared (`Definition.Linked`). A
call by name is written with the type of its result and with arguments of its
own, and is in step with the declaration of the function if it has the type and
the number of arguments that are declared (`DirectCall.Matches`).
-/
import LiftedCode.Proofs.Llvm.Locals

namespace LiftedCode.Llvm

-- ========================================================== occurrences

/-- The names of functions in an operand. One that is only text counts as such a
name, as there is no telling what it refers to. -/
def Operand.symbols : Operand → List String
  | global f | functionAddress f => [f]
  | verbatim s => [s]
  | reg _ | int _ | allOnes | bool _ | undef => []

/-- A call of a function by its name, as it is written. -/
structure DirectCall where
  name : String
  ret : Ty
  args : List Typed

/-- The function that is called, if it is called by its name. -/
def Op.directCall? : Op → Option DirectCall
  | call _ t (.global f) args => some ⟨f, t, args⟩
  | _ => none

/-- A call is direct if what is called is a function by its name. -/
theorem Op.of_directCall?_call {tail : Bool} {t : Ty} {o : Operand} {args : List Typed}
    {k : DirectCall} (h : k ∈ (call tail t o args).directCall?) :
    o = .global k.name ∧ k.ret = t ∧ k.args = args := by
  cases o with
  | global f =>
      cases h
      exact ⟨rfl, rfl, rfl⟩
  | reg | int | allOnes | bool | undef | functionAddress | verbatim => cases h

namespace Instr

/-- The call of a named function that an instruction makes. -/
def directCall? : Instr → Option DirectCall
  | assign _ op => op.directCall?
  | call f args => some ⟨f, .void, args⟩
  | comment _ | store _ _ | asm _ => none

/-- The names of functions that the instruction calls or takes the address of. -/
def symbols (i : Instr) : List String :=
  match i with
  | call f args => f :: args.flatMap fun a => a.operand.symbols
  | i => i.operands.flatMap Operand.symbols

end Instr

/-- The functions that a phi variable mentions. -/
def Phi.symbols (p : Phi) : List String := p.incoming.flatMap fun e => e.1.symbols

/-- The functions that a terminator mentions. -/
def Terminator.symbols (t : Terminator) : List String := t.operands.flatMap Operand.symbols

/-- The functions that a block mentions. -/
def Block.symbols (b : Block Instr Terminator) : List String :=
  b.phis.flatMap Phi.symbols ++ b.instrs.flatMap Instr.symbols ++ b.terminator.symbols

/-- All names of functions that the code refers to. -/
def Definition.symbols (d : Code) : List String := d.blocks.flatMap Block.symbols

-- =============================================================== linking

/-- The declaration is of the function that is called, and has the type of the
call and as many arguments. -/
structure DirectCall.Matches (k : DirectCall) (d : Declaration) : Prop where
  name : d.name = k.name
  ret : d.ret = k.ret
  arity : d.args.length = k.args.length

section

variable (declared : Declaration → Prop)

/-- The functions in the operand are declared. -/
def Operand.Linked (o : Operand) : Prop := ∀ f ∈ o.symbols, ∃ d, declared d ∧ d.name = f

/-- The functions in the operands are declared, and so is one that is called, in
step with the call. -/
structure Instr.Linked (i : Instr) : Prop where
  operands : ∀ o ∈ i.operands, o.Linked declared
  call : ∀ k ∈ i.directCall?, ∃ d, declared d ∧ k.Matches d

/-- Whatever the code refers to is declared. -/
structure Definition.Linked (d : Code) : Prop where
  phis : ∀ b ∈ d.blocks, ∀ p ∈ b.phis, ∀ e ∈ p.incoming, e.1.Linked declared
  instrs : ∀ b ∈ d.blocks, ∀ i ∈ b.instrs, i.Linked declared
  terminators : ∀ b ∈ d.blocks, ∀ o ∈ b.terminator.operands, o.Linked declared

end

variable {declared declared' : Declaration → Prop}

/-- More functions can be declared. -/
theorem Operand.Linked.mono {o : Operand} (h : o.Linked declared)
    (hd : ∀ d, declared d → declared' d) : o.Linked declared' := by
  intro f hf
  obtain ⟨d, hdecl, hname⟩ := h f hf
  exact ⟨d, hd d hdecl, hname⟩

theorem Instr.Linked.mono {i : Instr} (h : i.Linked declared)
    (hd : ∀ d, declared d → declared' d) : i.Linked declared' where
  operands o ho := (h.operands o ho).mono hd
  call k hk := by
    obtain ⟨d, hdecl, hmatch⟩ := h.call k hk
    exact ⟨d, hd d hdecl, hmatch⟩

theorem Instr.Linked.exists_declared {i : Instr} (h : i.Linked declared) {f : String}
    (hf : f ∈ i.symbols) : ∃ d, declared d ∧ d.name = f := by
  have hoperands : f ∈ i.operands.flatMap Operand.symbols → ∃ d, declared d ∧ d.name = f := by
    intro hf
    obtain ⟨o, ho, hf⟩ := List.mem_flatMap.1 hf
    exact h.operands o ho f hf
  cases i with
  | call g args =>
      rcases List.mem_cons.1 hf with rfl | hf
      · obtain ⟨d, hd, hmatch⟩ := h.call _ rfl
        exact ⟨d, hd, hmatch.name⟩
      · apply hoperands
        rw [Instr.operands, List.flatMap_map]
        exact hf
  | comment | assign | store | asm => exact hoperands hf

/-- All symbols of linked code are declared. -/
theorem Definition.Linked.exists_declared {d : Code} (h : d.Linked declared) {f : String}
    (hf : f ∈ d.symbols) : ∃ d, declared d ∧ d.name = f := by
  obtain ⟨b, hb, hf⟩ := List.mem_flatMap.1 hf
  rcases List.mem_append.1 hf with hf | hf
  · rcases List.mem_append.1 hf with hf | hf
    · obtain ⟨p, hp, hf⟩ := List.mem_flatMap.1 hf
      obtain ⟨e, he, hf⟩ := List.mem_flatMap.1 hf
      exact h.phis b hb p hp e he f hf
    · obtain ⟨i, hi, hf⟩ := List.mem_flatMap.1 hf
      exact (h.instrs b hb i hi).exists_declared hf
  · obtain ⟨o, ho, hf⟩ := List.mem_flatMap.1 hf
    exact h.terminators b hb o ho f hf

end LiftedCode.Llvm
