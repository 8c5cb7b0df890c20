/-
The meaning of straight-line code in the target language: what operands stand
for, what operations give, and what a sequence of instructions does to locals.

# Data

Whatever has a width is its bits, a pointer is its 64-bit address, and a
structure is its fields. An operation whose result the language leaves open
gives `poison`, and passes on what is poison among its operands. Only a choice
is not touched by the arm that it does not take. Undefined constants are read
as poison, which is the worst that they can be.

Operations without a meaning here (`none`) are those on operands of a wrong
form, divisions, floating-point arithmetic and accesses to memory. Extensions
and truncations between equal widths are read as identities.

# Functions

The language has some operations on integers as functions. They are recognized
by the names that they are declared under (`Builtin.find?_name`), and only where
an integer is expected of them. Every other function is what a `Linkage` says.
-/
import LiftedCode.Llvm.Intrinsic
import LiftedCode.Llvm.OfTy
import LiftedCode.Proofs.Meaning.Datum
import LiftedCode.Proofs.Meaning.Bits

namespace LiftedCode.Llvm

-- ================================================================= data

/-- What an operand stands for. -/
inductive Data where
  | poison
  | bits (width : Nat) (x : BitVec width)
  | struct (fields : List Data)
deriving Inhabited

namespace Data

mutual

/-- The datum in the target language. -/
def ofDatum : Datum → Data
  | .bool b => .bits 1 (BitVec.ofBool b)
  | .bits w x => .bits w x
  | .tuple ds => .struct (ofData ds)

/-- The data in the target language. -/
def ofData : List Datum → List Data
  | [] => []
  | d :: ds => ofDatum d :: ofData ds

end

/-- A field of a structure. Those of poison are poison. -/
def field (i : Nat) : Data → Option Data
  | poison => some poison
  | struct ds => ds[i]?
  | bits _ _ => none

/-- A structure of a type with one field replaced. -/
def setField (t : Ty) (i : Nat) : Data → Data → Option Data
  | poison, d => match t with
    | .struct ts =>
      if i < ts.length then some (struct ((List.replicate ts.length poison).set i d)) else none
    | _ => none
  | struct ds, d => if i < ds.length then some (struct (ds.set i d)) else none
  | bits _ _, _ => none

/-- The first datum if the condition holds, the second otherwise. -/
def choose (a b : Data) : Data → Option Data
  | poison => some poison
  | bits 1 c => some (if c = 1#1 then a else b)
  | _ => none

theorem getElem?_ofData (ds : List Datum) (i : Nat) : (ofData ds)[i]? = ds[i]?.map ofDatum := by
  induction ds generalizing i with
  | nil => rfl
  | cons d ds ih =>
      cases i with
      | zero => rfl
      | succ i =>
          rw [ofData, List.getElem?_cons_succ, List.getElem?_cons_succ]
          exact ih i

/-- The bits of a value read at a type are the same bits. -/
theorem ofDatum_ofFlat {t : LiftedCode.Ty} {w : Nat} (x : BitVec w) (h : t.width? = some w) :
    ofDatum (.ofFlat t x) = .bits w x := by
  by_cases ht : t = .bool
  · subst ht
    obtain rfl : 1 = w := Option.some.inj h
    rw [Datum.ofFlat_bool, ofDatum]
    congr 1
    apply BitVec.eq_of_getLsbD_eq
    intro i hi
    obtain rfl : i = 0 := by omega
    simp
  · rw [Datum.ofFlat_of_ne x ht, ofDatum]

/-- Whether a datum may be one of a structure with some number of fields. -/
def IsStruct (n : Nat) : Data → Prop
  | poison => True
  | struct ds => ds.length = n
  | bits _ _ => False

/-- A field of a structure is replaced, and the others stay. -/
theorem setField_of_isStruct {ts : List Ty} {i : Nat} {d D : Data} (h : D.IsStruct ts.length)
    (hi : i < ts.length) :
    ∃ D', D.setField (.struct ts) i d = some D' ∧ D'.IsStruct ts.length ∧ D'.field i = some d
      ∧ ∀ j, j < ts.length → j ≠ i → D'.field j = D.field j := by
  cases D with
  | poison =>
      refine ⟨.struct ((List.replicate ts.length poison).set i d), ?_, ?_, ?_, ?_⟩
      · show (if i < ts.length then _ else none) = _
        rw [if_pos hi]
      · rw [IsStruct, List.length_set, List.length_replicate]
      · rw [field, List.getElem?_set_self (by rw [List.length_replicate]; exact hi)]
      · intro j hj hji
        show ((List.replicate ts.length poison).set i d)[j]? = some poison
        rw [List.getElem?_set_ne hji.symm, List.getElem?_replicate, if_pos hj]
  | struct ds =>
      have hlen : ds.length = ts.length := h
      refine ⟨.struct (ds.set i d), ?_, ?_, ?_, ?_⟩
      · show (if i < ds.length then _ else none) = _
        rw [hlen, if_pos hi]
      · rw [IsStruct, List.length_set, hlen]
      · rw [field, List.getElem?_set_self (by rw [hlen]; exact hi)]
      · intro j _ hji
        show (ds.set i d)[j]? = ds[j]?
        rw [List.getElem?_set_ne hji.symm]
  | bits => exact h.elim

@[simp] theorem choose_ofBool (a b : Data) (c : Bool) :
    choose a b (.bits 1 (BitVec.ofBool c)) = some (if c then a else b) := by
  cases c <;> rfl

end Data

-- ============================================================ operators

/-- The operator on two numbers, where it always has a result. A shift by the
width or more gives poison. -/
def BinaryOperator.value {w : Nat} (op : BinaryOperator) (x y : BitVec w) : Option Data :=
  match op with
  | add => some (.bits w (x + y))
  | sub => some (.bits w (x - y))
  | mul => some (.bits w (x * y))
  | and => some (.bits w (x &&& y))
  | or => some (.bits w (x ||| y))
  | xor => some (.bits w (x ^^^ y))
  | shl => some (if y.toNat < w then .bits w (x <<< y.toNat) else .poison)
  | lshr => some (if y.toNat < w then .bits w (x >>> y.toNat) else .poison)
  | ashr => some (if y.toNat < w then .bits w (x.sshiftRight y.toNat) else .poison)
  | udiv | urem | sdiv | srem | fadd | fsub | fmul | fdiv => none

/-- Whether the operator is one on numbers that always has a result. -/
def BinaryOperator.isTotal : BinaryOperator → Bool
  | add | sub | mul | and | or | xor | shl | lshr | ashr => true
  | udiv | urem | sdiv | srem | fadd | fsub | fmul | fdiv => false

/-- The result of an operator on data of one width. Only an operator that is defined for all of
them passes poison on. -/
def BinaryOperator.eval (op : BinaryOperator) : Data → Data → Option Data
  | .bits v x, .bits w y => if h : v = w then op.value (x.cast h) y else none
  | .struct _, _ | _, .struct _ => none
  | _, _ => if op.isTotal then some .poison else none

/-- Whether a comparison holds of two integers. -/
def IntPredicate.value {w : Nat} (pred : IntPredicate) (x y : BitVec w) : Bool :=
  match pred with
  | eq => x == y
  | ult => x.ult y
  | ule => x.ule y
  | slt => x.slt y
  | sle => x.sle y

/-- The result of a comparison on data of one width. Poison is passed on. -/
def IntPredicate.eval (pred : IntPredicate) : Data → Data → Option Data
  | .bits v x, .bits w y =>
    if h : v = w then some (.bits 1 (BitVec.ofBool (pred.value (x.cast h) y))) else none
  | .struct _, _ | _, .struct _ => none
  | _, _ => some .poison

/-- The conversion of some bits, from a type to a type. -/
def CastOperator.value {v : Nat} (op : CastOperator) (x : BitVec v) (t u : Ty) : Option Data :=
  match op, t, u with
  | trunc, .int _, .int w => if w ≤ v then some (.bits w (x.setWidth w)) else none
  | zext, .int _, .int w => if v ≤ w then some (.bits w (x.setWidth w)) else none
  | sext, .int _, .int w => if v ≤ w then some (.bits w (x.signExtend w)) else none
  | bitcast, _, u => if u.width? = some v then some (.bits v x) else none
  | intToPtr, .int _, .ptr => if v = 64 then some (.bits v x) else none
  | _, _, _ => none

/-- The conversion from a type to a type. -/
def CastOperator.eval (op : CastOperator) (t u : Ty) : Data → Option Data
  | .bits _ x => op.value x t u
  | .poison => some .poison
  | .struct _ => none

@[simp] theorem BinaryOperator.eval_bits {w : Nat} (op : BinaryOperator) (x y : BitVec w) :
    op.eval (.bits w x) (.bits w y) = op.value x y := by
  simp [eval]

@[simp] theorem IntPredicate.eval_bits {w : Nat} (pred : IntPredicate) (x y : BitVec w) :
    pred.eval (.bits w x) (.bits w y) = some (.bits 1 (BitVec.ofBool (pred.value x y))) := by
  simp [eval]

theorem CastOperator.eval_trunc {v w : Nat} (x : BitVec v) (h : w ≤ v) :
    trunc.eval (.int v) (.int w) (.bits v x) = some (.bits w (x.setWidth w)) := if_pos h

theorem CastOperator.eval_zext {v w : Nat} (x : BitVec v) (h : v ≤ w) :
    zext.eval (.int v) (.int w) (.bits v x) = some (.bits w (x.setWidth w)) := if_pos h

theorem CastOperator.eval_sext {v w : Nat} (x : BitVec v) (h : v ≤ w) :
    sext.eval (.int v) (.int w) (.bits v x) = some (.bits w (x.signExtend w)) := if_pos h

/-- A number below the width is an amount by which to shift. -/
theorem toNat_ofNat_of_lt {n w : Nat} (h : n < w) : (BitVec.ofNat w n).toNat = n := by
  rw [BitVec.toNat_ofNat]
  exact Nat.mod_eq_of_lt (Nat.lt_trans h Nat.lt_two_pow_self)

/-- Comparing for order tells the order of the numbers. -/
theorem IntPredicate.value_ult {w : Nat} (x y : BitVec w) :
    IntPredicate.ult.value x y = decide (x.toNat < y.toNat) := rfl

-- ============================================== operations as functions

/-- The operations on integers that the language has as functions. -/
inductive Builtin where
  | popCount
  | swapBytes
  | trailingZeros
  | leadingZeros
deriving DecidableEq, Repr, Inhabited

namespace Builtin

/-- All operations that the language comes with and that are given a meaning here. -/
def all : List Builtin := [popCount, swapBytes, trailingZeros, leadingZeros]

/-- The declaration for integers of some bits. -/
def declaration (w : Nat) : Builtin → Declaration
  | popCount => Intrinsic.popCount w
  | swapBytes => Intrinsic.swapBytes (.int w)
  | trailingZeros => Intrinsic.countTrailingZeros w
  | leadingZeros => Intrinsic.countLeadingZeros w

/-- The operation with a name, for integers of some bits. -/
def find? (name : String) (w : Nat) : Option Builtin :=
  all.find? fun b => (b.declaration w).name == name

/-- The operation on integers of `w` bits. A count of zeros takes a flag, which
leaves the count in zero open. Only a whole number of byte pairs is swapped. -/
def eval (w : Nat) : Builtin → List Data → Option Data
  | popCount, [.bits v x] => if v = w then some (.bits v x.cpop) else none
  | swapBytes, [.bits v x] =>
    if v = w ∧ v % 16 = 0 then some (.bits v (Bits.reverseBytes x)) else none
  | trailingZeros, [.bits v x, .bits 1 open?] =>
    if v = w then some (if x = 0#v ∧ open? = 1#1 then .poison else .bits v x.ctz) else none
  | leadingZeros, [.bits v x, .bits 1 open?] =>
    if v = w then some (if x = 0#v ∧ open? = 1#1 then .poison else .bits v x.clz) else none
  | popCount, [.poison] | swapBytes, [.poison] | trailingZeros, [.poison, .bits 1 _]
  | leadingZeros, [.poison, .bits 1 _] => some .poison
  | _, _ => none

/-- The part of the name that does not depend on the width. -/
def stem : Builtin → String
  | popCount => "llvm.ctpop.i"
  | swapBytes => "llvm.bswap.i"
  | trailingZeros => "llvm.cttz.i"
  | leadingZeros => "llvm.ctlz.i"

theorem name_declaration (w : Nat) (b : Builtin) :
    (b.declaration w).name = b.stem ++ toString w := by
  cases b with
  | popCount | trailingZeros | leadingZeros => rfl
  | swapBytes =>
      show "llvm.bswap." ++ ("i" ++ toString w) = "llvm.bswap.i" ++ toString w
      rw [← String.append_assoc]
      rfl

/-- An operation is found under the name that it is declared under. -/
theorem find?_name (w : Nat) (b : Builtin) : find? (b.declaration w).name w = some b := by
  have h : ∀ c : Builtin, ((c.declaration w).name == (b.declaration w).name) = (c == b) := by
    intro c
    rw [name_declaration, name_declaration, Bool.eq_iff_iff, beq_iff_eq, beq_iff_eq]
    constructor
    · intro hs
      have hl := congrArg String.toList hs
      rw [String.toList_append, String.toList_append] at hl
      have hst : c.stem = b.stem := String.toList_inj.1 (List.append_cancel_right hl)
      revert hst
      cases b <;> cases c <;> decide
    · intro hs
      rw [hs]
  unfold find?
  rw [show (fun c => (c.declaration w).name == (b.declaration w).name) = (· == b) from funext h]
  cases b <;> rfl

end Builtin

-- ====================================================== straight-line code

/-- What the names outside of a definition stand for: where functions are, and
what the code at an address gives for some arguments. -/
structure Linkage where
  address : String → BitVec 64
  result : BitVec 64 → List Data → Data

/-- What locals stand for. -/
abbrev Frame := Local → Option Data

/-- Let a local stand for a datum. -/
def Frame.set (ρ : Frame) (x : Local) (d : Data) : Frame := fun y => if y = x then some d else ρ y

@[simp] theorem Frame.set_self (ρ : Frame) (x : Local) (d : Data) : ρ.set x d x = some d := by
  rw [Frame.set, if_pos rfl]

theorem Frame.set_of_ne {ρ : Frame} {x y : Local} {d : Data} (h : y ≠ x) :
    ρ.set x d y = ρ y := by
  rw [Frame.set, if_neg h]

section

variable (link : Linkage) (ρ : Frame)

/-- What a constant of a type stands for. -/
def constant (t : Ty) : Operand → Option Data
  | .int n => match t with
    | .int w => some (.bits w (BitVec.ofNat w n))
    | _ => none
  | .allOnes => match t with
    | .int w => some (.bits w (BitVec.allOnes w))
    | _ => none
  | .bool b => if t = .int 1 then some (.bits 1 (BitVec.ofBool b)) else none
  | .undef => some .poison
  | .functionAddress f => if t = .int 64 then some (.bits 64 (link.address f)) else none
  | .reg _ | .global _ | .verbatim _ => none

/-- What an operand stands for. -/
def Typed.eval (x : Typed) : Option Data :=
  match x.operand with
  | .reg name => ρ name
  | o => constant link x.ty o

/-- Where the code is that a call goes to. -/
def calleeAddress (f : Operand) : Option (BitVec 64) :=
  match f with
  | .global name => some (link.address name)
  | _ => match Typed.eval link ρ ⟨.ptr, f⟩ with
    | some (.bits 64 a) => some a
    | _ => none

/-- The operation that a call stands for, if it calls one. -/
def builtin? (f : Operand) (t : Ty) : Option (Builtin × Nat) :=
  match f, t with
  | .global name, .int w => (Builtin.find? name w).map (·, w)
  | _, _ => none

/-- What a call gives. -/
def callResult (t : Ty) (f : Operand) (args : List Data) : Option Data :=
  match builtin? f t with
  | some (b, w) => b.eval w args
  | none => (calleeAddress link ρ f).map (link.result · args)

/-- What an operation gives. -/
def Op.eval : Op → Option Data
  | .binary op a b =>
    if a.ty.isInt then do op.eval (← a.eval link ρ) (← Typed.eval link ρ ⟨a.ty, b⟩) else none
  | .compare pred a b =>
    if a.ty.isInt then do pred.eval (← a.eval link ρ) (← Typed.eval link ρ ⟨a.ty, b⟩) else none
  | .cast op a t => do op.eval a.ty t (← a.eval link ρ)
  | .select c a b => do Data.choose (← a.eval link ρ) (← b.eval link ρ) (← c.eval link ρ)
  | .extractValue a i => do (← a.eval link ρ).field i
  | .insertValue a x i => do (← a.eval link ρ).setField a.ty i (← x.eval link ρ)
  | .call _ t f args => do callResult link ρ t f (← args.mapM (Typed.eval link ρ))
  | .floatCompare _ _ _ | .extractFirst _ | .insertFirst _ _ | .load _ _ | .asm _ => none

/-- What an instruction makes of the locals. -/
def Instr.exec : Instr → Option Frame
  | .comment _ => some ρ
  | .assign x op => (op.eval link ρ).map (ρ.set x)
  | .store _ _ | .call _ _ | .asm _ => none

/-- What instructions make of the locals, one after the other. -/
def run (is : List Instr) : Option Frame := is.foldlM (Instr.exec link) ρ

end

variable {link : Linkage} {ρ ρ' : Frame}

theorem run_append {is js : List Instr} (h : run link ρ is = some ρ') :
    run link ρ (is ++ js) = run link ρ' js := by
  unfold run at *
  rw [List.foldlM_append, h]
  rfl

/-- An operand depends on no local but the one that it names. -/
theorem Typed.eval_congr {x : Typed} (h : ∀ y, x.operand = .reg y → ρ' y = ρ y) :
    x.eval link ρ' = x.eval link ρ := by
  obtain ⟨t, o⟩ := x
  cases o with
  | reg y => exact h y rfl
  | global | int | allOnes | bool | undef | functionAddress | verbatim => rfl

/-- The code that a pointer leads to. -/
theorem calleeAddress_of_eval {f : Operand} {a : BitVec 64}
    (h : Typed.eval link ρ ⟨.ptr, f⟩ = some (.bits 64 a)) : calleeAddress link ρ f = some a := by
  cases f with
  | global => exact nomatch h
  | reg | int | allOnes | bool | undef | functionAddress | verbatim =>
      unfold calleeAddress
      rw [h]
      rfl

/-- A call of a declared operation is that operation. -/
theorem callResult_builtin (b : Builtin) (w : Nat) (args : List Data) :
    callResult link ρ (.int w) (.global (b.declaration w).name) args = b.eval w args := by
  have h : builtin? (.global (b.declaration w).name) (.int w) = some (b, w) := by
    show (Builtin.find? (b.declaration w).name w).map (·, w) = _
    rw [Builtin.find?_name]
    rfl
  rw [callResult, h]

end LiftedCode.Llvm
