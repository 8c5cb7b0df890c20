/-
Values: literals, registers and variables, and the results of assignments. An
assignment binds an identifier to a right-hand side once and for all, and the
values that refer to it carry it whole, so a value is a tree in which shared
assignments occur again. The written form of a value names an assignment by
its identifier and does not descend into it.
-/
import LiftedCode.Expr.App
import LiftedCode.Expr.Literal
import LiftedCode.Expr.Machine
import LiftedCode.Layout
import LiftedCode.Register

namespace LiftedCode

/-- The name of an assignment, of a phi variable or of the variable of a
call's result. -/
abbrev Ident := Nat

/-- The written form of an identifier. -/
def identText (id : Ident) : String := "r" ++ toString id

/-- What an assignment computes. -/
inductive Rhs (ν : Type) where
  | app (app : App ν)
  /-- Some value of the type, left open. -/
  | undefined (ty : Ty)
  | read (addr : ν) (layout : Layout)
  /-- The value in memory if the condition holds, the default otherwise. -/
  | readIf (layout : Layout) (cond addr default : ν)
  | machine (fn : MachineFn ν)
deriving DecidableEq, Inhabited

/-- An identifier bound to a right-hand side, with the type of its result. -/
structure Assignment (ν : Type) where
  id : Ident
  rhs : Rhs ν
  ty : Ty
deriving Inhabited

/-- A typed variable that is bound outside of assignments. -/
structure Variable where
  id : Ident
  ty : Ty
deriving DecidableEq, Inhabited

/-- A known function: its name, the address of its code, and its type. -/
structure FunctionRef where
  name : String
  addr : Nat
  signature : Signature
deriving DecidableEq, Inhabited

/-- A value: a literal, the result of an assignment, or something that comes from outside. -/
inductive Value where
  | bits (literal : Literal)
  | bool (b : Bool)
  /-- The result of an assignment. -/
  | assigned (a : Assignment Value)
  /-- What a register held on entry to the block. -/
  | initial (reg : Register)
  /-- A variable that takes a register's value from the predecessor. -/
  | phi (var : Variable)
  /-- A variable for a value that a call returned. -/
  | returned (var : Variable)
  /-- An argument of the enclosing function. -/
  | arg (index : Nat) (ty : Ty)
  /-- The address of a known function. -/
  | entry (fn : FunctionRef)
deriving Inhabited

/-- How values are written: alone, or followed by their types. -/
inductive ValueStyle where
  | plain
  | typed
deriving DecidableEq, Repr, Inhabited

-- ===================================================== right-hand sides

namespace Rhs

variable {ν : Type}

/-- The values that the right-hand side reads, in order. -/
def operands : Rhs ν → List ν
  | app a => a.operands
  | undefined _ => []
  | read a _ => [a]
  | readIf _ c a d => [c, a, d]
  | machine f => f.operands

/-- The type of the result. -/
def ty : Rhs ν → Except Fault Ty
  | app a => a.ty
  | undefined t => .ok t
  | read _ l | readIf l _ _ _ => l.checkedTy
  | machine f => f.ty

/-- The written form, from those of the operands. -/
def text (operand : ν → String) : Rhs ν → String
  | app a => a.text operand
  | undefined t => "undef " ++ t.text
  | read a l => blankSeparated ["read_mem", operand a, l.text]
  | readIf l c a d => blankSeparated ["cond_read_mem", l.text, operand c, operand a, operand d]
  | machine f => f.text operand

/-- Whether the written form names no width beyond 32 bits. -/
def textFits : Rhs ν → Bool
  | read _ l | readIf l _ _ _ => l.bitsFit
  | _ => true

/-- The right-hand side with nothing in the place of its operands. -/
def shape : Rhs ν → Rhs Unit
  | app a => app a.shape
  | undefined t => undefined t
  | read _ l => read () l
  | readIf l _ _ _ => readIf l () () ()
  | machine f => machine f.shape

/-- A right-hand side is given by its shape and its operands. -/
theorem eq_iff_shape {r s : Rhs ν} : r = s ↔ r.shape = s.shape ∧ r.operands = s.operands := by
  refine ⟨fun h => h ▸ ⟨rfl, rfl⟩, fun ⟨hs, ho⟩ => ?_⟩
  cases r with
  | app a =>
      cases s with
      | app b => rw [App.eq_iff_shape.2 ⟨app.inj hs, ho⟩]
      | undefined | read | readIf | machine => contradiction
  | machine f =>
      cases s with
      | machine g => rw [MachineFn.eq_iff_shape.2 ⟨machine.inj hs, ho⟩]
      | app | undefined | read | readIf => contradiction
  | undefined | read | readIf => cases s <;> simp_all [shape, operands]

/-- An operand is smaller than the right-hand side that reads it. -/
theorem sizeOf_lt_of_mem_operands [SizeOf ν] {r : Rhs ν} {v : ν} (h : v ∈ r.operands) :
    sizeOf v < sizeOf r := by
  cases r with
  | app a => have := App.sizeOf_lt_of_mem_operands h; simp; omega
  | machine f => have := MachineFn.sizeOf_lt_of_mem_operands h; simp; omega
  | undefined => simp [operands] at h
  | read => simp [operands] at h; simp [h]; omega
  | readIf => simp [operands] at h; simp; grind

end Rhs

-- =============================================================== values

namespace Value

/-- The type of a value. -/
def ty : Value → Ty
  | bits l => .bits l.width
  | bool _ => .bool
  | assigned a => a.ty
  | initial r => r.ty
  | phi v | returned v => v.ty
  | arg _ t => t
  | entry _ => .bits 64

/-- The truth value, if this is a literal one. -/
def boolLiteral? : Value → Option Bool
  | bool b => some b
  | _ => none

/-- The bitvector literal, if this is one. -/
def bitsLiteral? : Value → Option Literal
  | bits l => some l
  | _ => none

/-- The assignment that the value refers to. -/
def assignment? : Value → Option (Assignment Value)
  | assigned a => some a
  | _ => none

/-- The written form of a value without its type. -/
def plainText : Value → String
  | bits l => Numeral.hex l.magnitude
  | bool b => toString b
  | assigned a => identText a.id
  | initial r => "%" ++ r.name
  | phi v | returned v => identText v.id
  | arg i _ => "arg" ++ toString i
  | entry f => "@" ++ f.name

/-- The written form of a value in a style. -/
def text (style : ValueStyle) (v : Value) : String :=
  match style with
  | .plain => v.plainText
  | .typed => v.plainText ++ ":" ++ v.ty.text

end Value

namespace Assignment

/-- The written form of an assignment. -/
def text (style : ValueStyle) (a : Assignment Value) : String :=
  identText a.id ++ " := " ++ a.rhs.text (Value.text style)

/-- An operand is smaller than the assignment that reads it. -/
theorem sizeOf_lt_of_mem_operands {a : Assignment Value} {v : Value}
    (h : v ∈ a.rhs.operands) : sizeOf v < sizeOf a := by
  have := Rhs.sizeOf_lt_of_mem_operands h
  cases a
  simp at this ⊢
  omega

end Assignment

end LiftedCode
