/-
The typing rules of the target language, as far as its instructions are used.
Instructions are judged in a scope, which has the types of locals and the
functions that are declared, and what is well typed in one scope is so in every
larger one (`Instr.WellTyped.mono`).
-/
import LiftedCode.Proofs.Effect
import LiftedCode.Proofs.Llvm.Locals

namespace LiftedCode.Llvm

-- ================================================================ types

namespace Ty

/-- Whether values of the type are floating-point numbers. -/
def isFloat : Ty → Bool
  | half | float | double | extended => true
  | _ => false

/-- Whether vectors may have elements of the type. -/
def isScalar (t : Ty) : Bool := t.isInt || t.isFloat || t == ptr

mutual

/-- Whether there are values of the type that a local can hold: integers have a
bit at least, vectors an element, and the elements are scalar. The target
language also limits the width of its integers, to 2^23 bits; that limit is not
among the rules modelled. -/
def legal : Ty → Bool
  | .int w => w != 0
  | .half | .float | .double | .extended | .ptr => true
  | .void => false
  | .vector n t => n != 0 && t.isScalar && legal t
  | .struct ts => allLegal ts

/-- Whether all of the types are legal. -/
def allLegal : List Ty → Bool
  | [] => true
  | t :: ts => legal t && allLegal ts

end

@[simp] theorem legal_int {w : Nat} : (int w).legal = true ↔ 0 < w := by
  simp [legal, Nat.pos_iff_ne_zero]

/-- The width that was computed is that of the type. -/
theorem width?_of_checkedWidth {t : Ty} {w : Option Nat} (h : t.checkedWidth = .ok w) :
    t.width? = w := (ok_of_inRange h).2.symm

/-- A structure is legal if the types of its fields are. -/
theorem allLegal_iff {ts : List Ty} : allLegal ts = true ↔ ∀ t ∈ ts, t.legal = true := by
  induction ts with
  | nil => simp [allLegal]
  | cons t ts ih => rw [allLegal, Bool.and_eq_true, List.forall_mem_cons, ih]

/-- A legal type has no width of zero. -/
theorem pos_of_legal : (t : Ty) → {w : Nat} → t.legal = true → t.width? = some w → 0 < w
  | .int v, _, hl, h => by
    cases h
    exact legal_int.1 hl
  | .half, _, _, h | .float, _, _, h | .double, _, _, h | .extended, _, _, h => by
    cases h
    decide
  | .ptr, _, _, h | .void, _, _, h | .struct _, _, _, h => by contradiction
  | .vector n t, w, hl, h => by
    obtain ⟨v, hv, rfl⟩ := Option.map_eq_some_iff.1 h
    rw [legal, Bool.and_eq_true, Bool.and_eq_true, bne_iff_ne] at hl
    exact Nat.mul_pos (Nat.pos_of_ne_zero hl.1.1) (pos_of_legal t hl.2 hv)

end Ty

/-- The types that an operator is for. -/
def BinaryOperator.takes : BinaryOperator → Ty → Bool
  | fadd | fsub | fmul | fdiv => Ty.isFloat
  | _ => Ty.isInt

/-- Whether a cast of the first type to the second is one: it changes widths
strictly and in its own direction, and only bits of one number are cast to each
other. -/
def CastOperator.allows : CastOperator → Ty → Ty → Bool
  | trunc, .int v, .int w => w < v
  | zext, .int v, .int w | sext, .int v, .int w => v < w
  | bitcast, t, u => t.width?.isSome && t.width? == u.width?
  | intToPtr, t, u => t.isInt && u == .ptr
  | floatExtend, t, u => t.isFloat && u.isFloat && t.width?.getD 0 < u.width?.getD 0
  | floatTruncate, t, u => t.isFloat && u.isFloat && u.width?.getD 0 < t.width?.getD 0
  | signedToFloat, t, u => t.isInt && u.isFloat
  | floatToSigned, t, u => t.isFloat && u.isInt
  | trunc, _, _ | zext, _, _ | sext, _, _ => false

/-- The type of the result of an operation. -/
def Op.ty? : Op → Option Ty
  | binary _ a _ | select _ a _ | insertValue a _ _ | insertFirst a _ => some a.ty
  | compare _ _ _ | floatCompare _ _ _ => some (.int 1)
  | cast _ _ t | load t _ | call _ t _ _ => some t
  | extractValue a i => match a.ty with
    | .struct ts => ts[i]?
    | _ => none
  | extractFirst a => match a.ty with
    | .vector _ t => some t
    | _ => none
  | asm c => some c.ty

-- ================================================================ scopes

/-- What there is to refer to: locals of some types, and declared functions. -/
structure Scope where
  locals : Local → Ty → Prop
  declared : Declaration → Prop

/-- Whether a scope is part of a larger one. -/
structure Scope.Within (Γ Δ : Scope) : Prop where
  locals : ∀ x t, Γ.locals x t → Δ.locals x t
  declared : ∀ d, Γ.declared d → Δ.declared d

section

variable (Γ : Scope)

/-- Whether the operand can have the type. Functions are called, and are no
operands otherwise; what an operand that is only text stands for is not known. -/
def Operand.HasTy (t : Ty) : Operand → Prop
  | reg x => Γ.locals x t
  | int _ | allOnes => t.isInt = true
  | bool _ => t = .int 1
  | undef => True
  | functionAddress f => t = .int 64 ∧ ∃ d, Γ.declared d ∧ d.name = f
  | global _ | verbatim _ => False

/-- The type is legal, and the operand has it. -/
structure Typed.WellTyped (x : Typed) : Prop where
  legal : x.ty.legal = true
  operand : x.operand.HasTy Γ x.ty

/-- Calls that agree with what they call. -/
inductive Calls : Operand → Ty → List Typed → Prop where
  | declared (d : Declaration) (args : List Typed) (hd : Γ.declared d)
      (hargs : d.args = args.map (·.ty)) : Calls (.global d.name) d.ret args
  /-- The type of a function at an address is not known. -/
  | address (f : Operand) (ret : Ty) (args : List Typed) (hf : f.HasTy Γ .ptr) : Calls f ret args

/-- What is handed to the instruction is of 32 bits. -/
def AsmValue.WellTyped (c : AsmValue) : Prop :=
  ∀ a ∈ c.args, a.ty = .int 32 ∧ a.WellTyped Γ

/-- The typing rule of every operation. -/
def Op.WellTyped : Op → Prop
  | binary op a b => op.takes a.ty = true ∧ a.WellTyped Γ ∧ Typed.WellTyped Γ ⟨a.ty, b⟩
  | compare _ a b => a.ty.isInt = true ∧ a.WellTyped Γ ∧ Typed.WellTyped Γ ⟨a.ty, b⟩
  | floatCompare _ a b => a.ty.isFloat = true ∧ a.WellTyped Γ ∧ Typed.WellTyped Γ ⟨a.ty, b⟩
  | cast op a t => op.allows a.ty t = true ∧ t.legal = true ∧ a.WellTyped Γ
  | select c a b => c.ty = .int 1 ∧ b.ty = a.ty ∧ c.WellTyped Γ ∧ a.WellTyped Γ ∧ b.WellTyped Γ
  | extractValue a i => (∃ ts, a.ty = .struct ts ∧ i < ts.length) ∧ a.WellTyped Γ
  | insertValue a x i =>
    (∃ ts, a.ty = .struct ts ∧ ts[i]? = some x.ty) ∧ a.WellTyped Γ ∧ x.WellTyped Γ
  | extractFirst v => (∃ n t, v.ty = .vector n t) ∧ v.WellTyped Γ
  | insertFirst v x => (∃ n, v.ty = .vector n x.ty) ∧ v.WellTyped Γ ∧ x.WellTyped Γ
  | load t p => t.legal = true ∧ p.ty = .ptr ∧ p.WellTyped Γ
  | call _ t f args => t.legal = true ∧ Calls Γ f t args ∧ ∀ a ∈ args, a.WellTyped Γ
  | asm c => c.WellTyped Γ

namespace Instr

/-- The typing rule of every instruction. -/
def WellTyped : Instr → Prop
  | comment _ | asm .emptyMmx => True
  | assign _ op => op.WellTyped Γ
  | store v p => p.ty = .ptr ∧ v.WellTyped Γ ∧ p.WellTyped Γ
  | call f args => Calls Γ (.global f) .void args ∧ ∀ a ∈ args, a.WellTyped Γ
  | asm (.storeX87Control p) => p.HasTy Γ .ptr

/-- Whether the instruction casts an integer of one bit to its own type. -/
def IsUnitCast : Instr → Prop
  | assign _ (.cast op a t) =>
    (op = .trunc ∨ op = .zext) ∧ a.ty = .int 1 ∧ t = .int 1 ∧ a.WellTyped Γ
  | _ => False

end Instr

/-- The typing rule of every terminator, in a function that returns values of a type. -/
def Terminator.WellTyped (result : Ty) : Terminator → Prop
  | jump _ | unreachable => True
  | branch c _ _ => c.ty = .int 1 ∧ c.WellTyped Γ
  | switch i _ w _ => i.ty = .int w ∧ i.WellTyped Γ
  | ret v => v.ty = result ∧ v.WellTyped Γ

/-- All that a phi variable is given has its type. -/
structure Phi.WellTyped (p : Phi) : Prop where
  legal : p.ty.legal = true
  incoming : ∀ e ∈ p.incoming, e.1.HasTy Γ p.ty

end

namespace Definition

/-- The scope of all that some code defines. -/
def scope (d : Code) (declared : Declaration → Prop) : Scope where
  locals x t := (t, x) ∈ d.params ∨ ∃ b ∈ d.blocks,
    (∃ p ∈ b.phis, p.name = x ∧ p.ty = t) ∨ ∃ op, .assign x op ∈ b.instrs ∧ op.ty? = some t
  declared := declared

/-- Everything in the code obeys the typing rules, apart from casts of an integer
of one bit to its own type, which there may be if `casts` holds. -/
structure WellTyped (declared : Declaration → Prop) (casts : Prop) (d : Code) : Prop where
  instrs : ∀ b ∈ d.blocks, ∀ i ∈ b.instrs,
    i.WellTyped (d.scope declared) ∨ casts ∧ i.IsUnitCast (d.scope declared)
  terminators : ∀ b ∈ d.blocks, b.terminator.WellTyped (d.scope declared) d.ret
  phis : ∀ b ∈ d.blocks, ∀ p ∈ b.phis, p.WellTyped (d.scope declared)

end Definition

-- ========================================================= larger scopes

section

variable {Γ Δ : Scope} {t : Ty}

/-- More may be in scope. -/
theorem Operand.HasTy.mono {x : Operand} (h : x.HasTy Γ t) (hΓ : Γ.Within Δ) : x.HasTy Δ t := by
  cases x with
  | reg x => exact hΓ.locals x t h
  | functionAddress f =>
      obtain ⟨ht, d, hd, hname⟩ := h
      exact ⟨ht, d, hΓ.declared d hd, hname⟩
  | global | int | allOnes | bool | undef | verbatim => exact h

theorem Typed.WellTyped.mono {x : Typed} (h : x.WellTyped Γ) (hΓ : Γ.Within Δ) : x.WellTyped Δ :=
  ⟨h.legal, h.operand.mono hΓ⟩

theorem Calls.mono {f : Operand} {args : List Typed} (h : Calls Γ f t args) (hΓ : Γ.Within Δ) :
    Calls Δ f t args := by
  cases h with
  | declared d args hd hargs => exact .declared d args (hΓ.declared d hd) hargs
  | address f t args hf => exact .address f t args (hf.mono hΓ)

theorem Op.WellTyped.mono {op : Op} (h : op.WellTyped Γ) (hΓ : Γ.Within Δ) : op.WellTyped Δ := by
  cases op with
  | binary | compare | floatCompare =>
      obtain ⟨ht, ha, hb⟩ := h
      exact ⟨ht, ha.mono hΓ, hb.mono hΓ⟩
  | cast op a t =>
      obtain ⟨hop, ht, ha⟩ := h
      exact ⟨hop, ht, ha.mono hΓ⟩
  | select c a b =>
      obtain ⟨htc, htb, hc, ha, hb⟩ := h
      exact ⟨htc, htb, hc.mono hΓ, ha.mono hΓ, hb.mono hΓ⟩
  | extractValue | extractFirst => exact ⟨h.1, h.2.mono hΓ⟩
  | insertValue | insertFirst => exact ⟨h.1, h.2.1.mono hΓ, h.2.2.mono hΓ⟩
  | load t p => exact ⟨h.1, h.2.1, h.2.2.mono hΓ⟩
  | call _ t f args => exact ⟨h.1, h.2.1.mono hΓ, fun a ha => (h.2.2 a ha).mono hΓ⟩
  | asm c => exact fun a ha => ⟨(h a ha).1, (h a ha).2.mono hΓ⟩

namespace Instr

variable {i : Instr}

/-- An instruction stays well typed where more is in scope. -/
theorem WellTyped.mono (h : i.WellTyped Γ) (hΓ : Γ.Within Δ) : i.WellTyped Δ := by
  cases i with
  | comment => exact trivial
  | assign x op => exact Op.WellTyped.mono h hΓ
  | store v p => exact ⟨h.1, h.2.1.mono hΓ, h.2.2.mono hΓ⟩
  | call f args => exact ⟨h.1.mono hΓ, fun a ha => (h.2 a ha).mono hΓ⟩
  | asm c =>
      cases c with
      | storeX87Control p => exact Operand.HasTy.mono h hΓ
      | emptyMmx => exact trivial

theorem IsUnitCast.mono (h : i.IsUnitCast Γ) (hΓ : Γ.Within Δ) : i.IsUnitCast Δ := by
  unfold IsUnitCast at h ⊢
  split at h
  case h_1 =>
    obtain ⟨hop, ha, ht, hx⟩ := h
    exact ⟨hop, ha, ht, hx.mono hΓ⟩
  case h_2 => exact h.elim

/-- The language has no such cast, whatever there is to refer to. -/
theorem IsUnitCast.not_wellTyped (h : i.IsUnitCast Γ) : ¬i.WellTyped Δ := by
  unfold IsUnitCast at h
  split at h
  case h_1 op a t =>
    obtain ⟨hop, ha, rfl, -⟩ := h
    rintro ⟨hallows, -, -⟩
    rw [ha] at hallows
    rcases hop with rfl | rfl <;> exact absurd hallows (by decide)
  case h_2 => exact h.elim

end Instr

/-- A terminator stays well typed where more is in scope. -/
theorem Terminator.WellTyped.mono {c : Terminator} (h : c.WellTyped Γ t) (hΓ : Γ.Within Δ) :
    c.WellTyped Δ t := by
  cases c with
  | jump | unreachable => exact trivial
  | branch | switch | ret => exact ⟨h.1, h.2.mono hΓ⟩

end

end LiftedCode.Llvm
