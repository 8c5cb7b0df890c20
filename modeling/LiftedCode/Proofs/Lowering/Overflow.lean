/-
Tests for overflow in lowered code. The target language has additions and
subtractions of two numbers that tell whether they left the range, and a test
with a carry takes two of them: one for the operands, one for what that gave and
the carry. The two flags together say whether the exact result of all three left
the range, since a wrapped number lies at the other end of it, where the carry
alone cannot make it leave again the same way:

- signed, the second step can only undo what the first did, so exactly one of
  the flags is set (`xor_leavesSigned`);
- unsigned, the second step cannot leave a wrapped range, so one of the flags is
  enough (`or_leavesUnsigned`).

Both need the carry to be one of the numbers of the width. A carry that is set
is no signed number of a single bit: there it is read as -1, and the flag is
turned around (`CarryOp.misread`). At every other width, and for every form of
the carry, the flag is that of the exact integer (`overflow_exact`).

What the functions give is part of the target language, not of the code that is
lowered, and enters as an assumption on the linkage (`TellsOverflow`).
-/
import LiftedCode.Proofs.Lowering.Operation

namespace LiftedCode

namespace Bits

variable {w : Nat} {n e : Int}

-- ============================================================= wrapping

/-- A number that is wrapped into the signed range at most once. -/
theorem toInt_ofInt_of_near (hw : 0 < w) (hlo : -(2 : Int) ^ w ≤ n) (hhi : n < (2 : Int) ^ w) :
    (BitVec.ofInt w n).toInt = if n < -(2 : Int) ^ (w - 1) then n + 2 ^ w
      else if (2 : Int) ^ (w - 1) ≤ n then n - 2 ^ w else n := by
  obtain ⟨v, rfl⟩ : ∃ v, w = v + 1 := ⟨w - 1, by omega⟩
  have hp : (2 : Int) ^ (v + 1) = 2 ^ v * 2 := Int.pow_succ 2 v
  have hpos : (0 : Int) < 2 ^ v := Int.pow_pos (by decide)
  rw [BitVec.toInt_ofInt, Int.bmod_def, ← intCast_two_pow, Nat.add_sub_cancel]
  rw [hp] at hlo hhi ⊢
  clear hp
  generalize (2 : Int) ^ v = q at *
  by_cases h0 : n < 0
  · rw [← Int.add_emod_right, Int.emod_eq_of_lt (by omega) (by omega)]
    split <;> split <;> omega
  · rw [Int.emod_eq_of_lt (by omega) hhi]
    split <;> split <;> omega

/-- A number that is wrapped into the unsigned range at most once. -/
theorem toNat_ofInt_of_near (hlo : -(2 : Int) ^ w ≤ n) (hhi : n < 2 * (2 : Int) ^ w) :
    ((BitVec.ofInt w n).toNat : Int) = if n < 0 then n + 2 ^ w
      else if (2 : Int) ^ w ≤ n then n - 2 ^ w else n := by
  have hpos : (0 : Int) < 2 ^ w := Int.pow_pos (by decide)
  have hne : ((2 ^ w : Nat) : Int) ≠ 0 := by
    rw [← intCast_two_pow]
    omega
  rw [BitVec.toNat_ofInt, Int.toNat_of_nonneg (Int.emod_nonneg _ hne), ← intCast_two_pow]
  generalize (2 : Int) ^ w = q at *
  by_cases h0 : n < 0
  · rw [if_pos h0, ← Int.add_emod_right, Int.emod_eq_of_lt (by omega) (by omega)]
  · rw [if_neg h0]
    split
    case isTrue => rw [← Int.sub_emod_right, Int.emod_eq_of_lt (by omega) (by omega)]
    case isFalse => exact Int.emod_eq_of_lt (by omega) (by omega)

-- ============================================================ two steps

/-- A number leaves the signed range with a carry or a borrow if exactly one of
the two steps leaves it. -/
theorem xor_leavesSigned (hw : 0 < w) (hlo : -(2 : Int) ^ w ≤ n) (hhi : n < (2 : Int) ^ w)
    (he : -1 ≤ e) (he' : e ≤ 1) :
    (leavesSigned w n ^^ leavesSigned w ((BitVec.ofInt w n).toInt + e))
      = leavesSigned w (n + e) := by
  have hp : (2 : Int) ^ w = 2 ^ (w - 1) * 2 := by
    rw [← Int.pow_succ, Nat.succ_eq_add_one, Nat.sub_add_cancel hw]
  have hpos : (0 : Int) < 2 ^ (w - 1) := Int.pow_pos (by decide)
  rw [toInt_ofInt_of_near hw hlo hhi]
  simp only [leavesSigned]
  rw [hp] at hlo hhi ⊢
  clear hp
  generalize (2 : Int) ^ (w - 1) = q at *
  -- the three places where the first step may be
  by_cases hneg : n < -q
  · simp only [hneg, if_true, decide_true, Bool.true_or, Bool.true_xor]
    rw [Bool.eq_iff_iff]
    simp
    omega
  by_cases hbig : q ≤ n
  · simp only [hneg, hbig, if_true, if_false, decide_true, Bool.or_true, Bool.true_xor]
    rw [Bool.eq_iff_iff]
    simp
    omega
  · simp only [hneg, hbig, if_false, decide_false, Bool.or_false, Bool.false_xor]

/-- A sum with a carry, or a difference less a borrow, leaves the unsigned range
if one of the two steps leaves it. -/
theorem or_leavesUnsigned (hlo : -(2 : Int) ^ w ≤ n) (hhi : n < 2 * (2 : Int) ^ w)
    (hdir : 0 ≤ n ∧ 0 ≤ e ∨ n < (2 : Int) ^ w ∧ e ≤ 0) :
    (leavesUnsigned w n || leavesUnsigned w ((BitVec.ofInt w n).toNat + e))
      = leavesUnsigned w (n + e) := by
  have hpos : (0 : Int) < 2 ^ w := Int.pow_pos (by decide)
  rw [toNat_ofInt_of_near hlo hhi]
  simp only [leavesUnsigned]
  generalize (2 : Int) ^ w = q at *
  by_cases hneg : n < 0
  · have hstay : n + e < 0 := by omega
    simp [hneg, hstay]
  by_cases hbig : q ≤ n
  · have hstay : q ≤ n + e := by omega
    simp [hbig, hstay]
  · simp only [hneg, hbig, if_false, decide_false, Bool.or_false, Bool.false_or]

end Bits

-- ========================================================== the functions

namespace Llvm

variable {w : Nat}

/-- Whether the sum or the difference of two numbers leaves the range. -/
def leavesRange (signed subtract : Bool) (x y : BitVec w) : Bool :=
  match signed, subtract with
  | false, false => Bits.leavesUnsigned w ((x.toNat : Int) + y.toNat)
  | false, true => Bits.leavesUnsigned w ((x.toNat : Int) - y.toNat)
  | true, false => Bits.leavesSigned w (x.toInt + y.toInt)
  | true, true => Bits.leavesSigned w (x.toInt - y.toInt)

/-- The sum or the difference of two numbers. -/
def sumOrDifference (subtract : Bool) (x y : BitVec w) : BitVec w :=
  if subtract then x - y else x + y

/-- What an addition or a subtraction gives that tells whether it left the
range: the wrapped number and the flag. -/
def withOverflow (signed subtract : Bool) (x y : BitVec w) : Data :=
  .struct [.bits w (sumOrDifference subtract x y),
    .bits 1 (BitVec.ofBool (leavesRange signed subtract x y))]

/-- Whether the function that adds or subtracts numbers of a width and tells
whether it left the range is there, and does. -/
def Linkage.TellsOverflow (link : Linkage) (signed subtract : Bool) (w : Nat) : Prop :=
  ∀ x y : BitVec w, link.result (link.address (Intrinsic.withOverflow signed subtract w).name)
    [.bits w x, .bits w y] = withOverflow signed subtract x y

end Llvm

-- =============================================================== the flag

namespace CarryOp

/-- Whether the operands of a test for overflow are signed numbers. -/
def isSigned : CarryOp → Bool
  | sadcOverflows | ssbbOverflows => true
  | _ => false

/-- Whether the operator subtracts. -/
def subtracts : CarryOp → Bool
  | sbb | usbbOverflows | ssbbOverflows => true
  | _ => false

/-- Whether a carry of the width of the operands is read as another number than
it stands for: as a signed number of one bit, it is -1 if it is set. -/
def misread (op : CarryOp) (w : Nat) (c : Bool) : Bool := op.isSigned && w == 1 && c

/-- The flag of a test that takes two steps. -/
def flagOfSteps {w : Nat} (op : CarryOp) (x y : BitVec w) (c : Bool) : Bool :=
  let first := Llvm.leavesRange op.isSigned op.subtracts x y
  let second := Llvm.leavesRange op.isSigned op.subtracts
    (Llvm.sumOrDifference op.subtracts x y) (BitVec.ofNat w c.toNat)
  if op.isSigned then first ^^ second else first || second

variable {w : Nat}

/-- A carry is an unsigned number of every width. -/
theorem toNat_carry (hw : 0 < w) (c : Bool) :
    ((BitVec.ofNat w c.toNat).toNat : Int) = c.toNat := by
  have hlt : c.toNat < 2 ^ w :=
    Nat.lt_of_le_of_lt (Bool.toNat_le c) (Nat.one_lt_two_pow (Nat.ne_of_gt hw))
  rw [BitVec.toNat_ofNat, Nat.mod_eq_of_lt hlt]

/-- A carry is a signed number of more than one bit. -/
theorem toInt_carry (hw : 1 < w) (c : Bool) : (BitVec.ofNat w c.toNat).toInt = c.toNat := by
  have hlt : 2 * c.toNat < 2 ^ w := by
    have h4 : 2 ^ 2 ≤ 2 ^ w := Nat.pow_le_pow_right (by decide) hw
    have := Bool.toNat_le c
    omega
  rw [BitVec.toInt_eq_toNat_of_lt] <;> rw [BitVec.toNat_ofNat, Nat.mod_eq_of_lt (by omega)]
  exact hlt

/-- The flag of two signed steps on more than one bit is the exact overflow. -/
theorem signed_flagOfSteps (hw : 1 < w) (x y : BitVec w) (c : Bool) :
    sadcOverflows.flagOfSteps x y c = Bits.leavesSigned w (x.toInt + y.toInt + c.toNat)
      ∧ ssbbOverflows.flagOfSteps x y c = Bits.leavesSigned w (x.toInt - y.toInt - c.toNat) := by
  have hXlo := BitVec.le_toInt x
  have hYlo := BitVec.le_toInt y
  have hXhi := BitVec.toInt_lt (x := x)
  have hYhi := BitVec.toInt_lt (x := y)
  have hp : (2 : Int) ^ w = 2 ^ (w - 1) * 2 := by
    rw [← Int.pow_succ, Nat.succ_eq_add_one, Nat.sub_add_cancel (by omega)]
  have hc := Bool.toNat_le c
  constructor
  · have hsum : x + y = BitVec.ofInt w (x.toInt + y.toInt) := by
      rw [BitVec.ofInt_add, BitVec.ofInt_toInt, BitVec.ofInt_toInt]
    show (Bits.leavesSigned w _ ^^ Bits.leavesSigned w ((x + y).toInt + _)) = _
    rw [toInt_carry hw, hsum]
    exact Bits.xor_leavesSigned (by omega) (by omega) (by omega) (by omega) (by omega)
  · have hdiff : x - y = BitVec.ofInt w (x.toInt - y.toInt) := by
      rw [Bits.ofInt_sub, BitVec.ofInt_toInt, BitVec.ofInt_toInt]
    show (Bits.leavesSigned w _ ^^ Bits.leavesSigned w ((x - y).toInt - _)) = _
    simp only [toInt_carry hw, hdiff, Int.sub_eq_add_neg (b := (c.toNat : Int))]
    exact Bits.xor_leavesSigned (by omega) (by omega) (by omega) (by omega) (by omega)

/-- The flag of two unsigned steps is the exact overflow. -/
theorem unsigned_flagOfSteps (hw : 0 < w) (x y : BitVec w) (c : Bool) :
    uadcOverflows.flagOfSteps x y c = Bits.leavesUnsigned w ((x.toNat : Int) + y.toNat + c.toNat)
      ∧ usbbOverflows.flagOfSteps x y c
        = Bits.leavesUnsigned w ((x.toNat : Int) - y.toNat - c.toNat) := by
  have hX := x.isLt
  have hY := y.isLt
  have hp := Bits.intCast_two_pow w
  constructor
  · have hsum : x + y = BitVec.ofInt w ((x.toNat : Int) + y.toNat) := by
      rw [BitVec.ofInt_add, BitVec.ofInt_natCast, BitVec.ofInt_natCast, BitVec.ofNat_toNat,
        BitVec.ofNat_toNat, BitVec.setWidth_eq, BitVec.setWidth_eq]
    show (Bits.leavesUnsigned w _ || Bits.leavesUnsigned w (((x + y).toNat : Int) + _)) = _
    rw [toNat_carry hw, hsum]
    exact Bits.or_leavesUnsigned (by omega) (by omega) (.inl (by omega))
  · have hdiff : x - y = BitVec.ofInt w ((x.toNat : Int) - y.toNat) := by
      rw [Bits.ofInt_sub, BitVec.ofInt_natCast, BitVec.ofInt_natCast, BitVec.ofNat_toNat,
        BitVec.ofNat_toNat, BitVec.setWidth_eq, BitVec.setWidth_eq]
    show (Bits.leavesUnsigned w _ || Bits.leavesUnsigned w (((x - y).toNat : Int) - _)) = _
    simp only [toNat_carry hw, hdiff, Int.sub_eq_add_neg (b := (c.toNat : Int))]
    exact Bits.or_leavesUnsigned (by omega) (by omega) (.inr (by omega))

/-- The flag of two signed steps on one bit is the opposite of the exact
overflow if the carry is set. -/
theorem signed_flagOfSteps_one : ∀ (x y : BitVec 1) (c : Bool),
    sadcOverflows.flagOfSteps x y c = (Bits.leavesSigned 1 (x.toInt + y.toInt + c.toNat) ^^ c)
      ∧ ssbbOverflows.flagOfSteps x y c
        = (Bits.leavesSigned 1 (x.toInt - y.toInt - c.toNat) ^^ c) := by
  decide

/-- The flag of two steps is the exact overflow, or the opposite if the carry is
misread. -/
theorem value_of_steps {op : CarryOp} (hop : op.isTest = true) (hw : 0 < w) (x y : BitVec w)
    (c : Bool) : op.value x y c = .bool (op.flagOfSteps x y c ^^ op.misread w c) := by
  cases op with
  | uadcOverflows => rw [(unsigned_flagOfSteps hw x y c).1]; simp [value, misread, isSigned]
  | usbbOverflows => rw [(unsigned_flagOfSteps hw x y c).2]; simp [value, misread, isSigned]
  | sadcOverflows =>
      by_cases h1 : w = 1
      · subst h1
        rw [(signed_flagOfSteps_one x y c).1]
        simp [value, misread, isSigned]
      · rw [(signed_flagOfSteps (by omega) x y c).1]
        simp [value, misread, beq_eq_false_iff_ne.2 h1]
  | ssbbOverflows =>
      by_cases h1 : w = 1
      · subst h1
        rw [(signed_flagOfSteps_one x y c).2]
        simp [value, misread, isSigned]
      · rw [(signed_flagOfSteps (by omega) x y c).2]
        simp [value, misread, beq_eq_false_iff_ne.2 h1]
  | adc | sbb => contradiction

/-- Without a carry the second step leaves the flag of the first as it is. -/
theorem flagOfSteps_noCarry {op : CarryOp} (hop : op.isTest = true) (hw : 0 < w)
    (x y : BitVec w) :
    op.flagOfSteps x y false = Llvm.leavesRange op.isSigned op.subtracts x y := by
  have h := value_of_steps hop hw x y false
  rw [misread, Bool.and_false, Bool.xor_false] at h
  refine (Datum.bool.inj (Eq.trans ?_ h)).symm
  cases op with
  | uadcOverflows | sadcOverflows | usbbOverflows | ssbbOverflows =>
      simp [value, Llvm.leavesRange, isSigned, subtracts]
  | adc | sbb => contradiction

end CarryOp

-- ======================================================== the instructions

namespace Lowering

open Llvm (Typed Data Frame Linkage)

variable {link : Linkage} {wanted : Llvm.Declaration → Prop} {tooWide : Prop} {env : Env}
  {s : State} {ρ : Frame} {w : Nat}

/-- A call of an addition or a subtraction that tells whether it left the
range. -/
theorem gives_withOverflow {signed subtract : Bool} {x y : Typed} {X Y : BitVec w}
    (hlink : link.TellsOverflow signed subtract w)
    (hd : wanted (Llvm.Intrinsic.withOverflow signed subtract w))
    (hx : Stands link s ρ x (.int w) (.bits w X)) (hy : Stands link s ρ y (.int w) (.bits w Y)) :
    Gives link wanted tooWide (Step.call (Llvm.Intrinsic.withOverflow signed subtract w) [x, y]) s ρ
      (.struct [.int w, .int 1]) (Llvm.withOverflow signed subtract X Y) := by
  apply (lowers_declare hd).bind
  intro _ s₁ ρ₁ hf _
  apply gives_assign
  rw [Llvm.Op.eval, List.mapM_cons, List.mapM_cons, (hx.mono hf).eval, (hy.mono hf).eval]
  exact congrArg some (hlink X Y)

/-- A field of a structure. -/
theorem gives_extract {x : Typed} {t u : Llvm.Ty} {d e : Data} {i : Nat}
    (hx : Stands link s ρ x t d) (h : d.field i = some e) :
    Gives link wanted tooWide (Step.assign u (.extractValue x i)) s ρ u e := by
  apply gives_assign
  rw [Llvm.Op.eval, hx.eval]
  exact h

/-- Only a literal is known to be one. -/
theorem eq_false_of_boolLiteral {c : Value} {p : Bool} (hlit : c.boolLiteral? = some false)
    (hc : Known link env s ρ c (.bits 1 (BitVec.ofBool p))) : p = false := by
  cases c with
  | bool b =>
      obtain rfl : b = false := Option.some.inj hlit
      have hk : Data.bits 1 (BitVec.ofBool p) = .bits 1 (BitVec.ofBool false) := hc
      cases p with
      | false => rfl
      | true => cases hk
  | bits | assigned | initial | phi | returned | arg | entry => contradiction

/-- The second step, on what the first gave and the carry. -/
theorem gives_secondStep {op : CarryOp} {c : Value} {r o : Typed} {t : Llvm.Ty} {X Y : BitVec w}
    {p : Bool} (hw : 0 < w) (hlink : link.TellsOverflow op.isSigned op.subtracts w)
    (hd : wanted (Llvm.Intrinsic.withOverflow op.isSigned op.subtracts w))
    (hr : Stands link s ρ r t (Llvm.withOverflow op.isSigned op.subtracts X Y))
    (ho : Stands link s ρ o (.int 1)
      (.bits 1 (BitVec.ofBool (Llvm.leavesRange op.isSigned op.subtracts X Y))))
    (hc : Usable link wanted env s ρ c (.int 1) (.bits 1 (BitVec.ofBool p))) :
    Gives link wanted tooWide (do
      let c ← value env c
      let c ← Step.cast .zext c (.int w)
      let s ← Step.assign (.int w) (.extractValue r 0)
      let r' ← Step.call (Llvm.Intrinsic.withOverflow op.isSigned op.subtracts w) [s, c]
      let o' ← Step.assign (.int 1) (.extractValue r' 1)
      Step.binary (combineOverflow op.isSigned) o o') s ρ (.int 1)
      (.bits 1 (BitVec.ofBool (op.flagOfSteps X Y p))) := by
  have hext : Llvm.CastOperator.zext.eval (.int 1) (.int w) (.bits 1 (BitVec.ofBool p))
      = some (.bits w (BitVec.ofNat w p.toNat)) := by
    rw [← setWidth_ofBool w]
    exact Llvm.CastOperator.eval_zext _ hw
  apply hc.gives.bind
  intro z s₁ ρ₁ h₁ hz
  apply (gives_cast hz hext).bind
  intro z' s₂ ρ₂ h₂ hz'
  apply (gives_extract ((hr.mono h₁).mono h₂) rfl).bind
  intro t s₃ ρ₃ h₃ ht
  apply (gives_withOverflow hlink hd ht (hz'.mono h₃)).bind
  intro r' s₄ ρ₄ h₄ hr'
  apply (gives_extract hr' rfl).bind
  intro o' s₅ ρ₅ h₅ ho'
  refine gives_binary (((((ho.mono h₁).mono h₂).mono h₃).mono h₄).mono h₅) ho' ?_
  unfold combineOverflow CarryOp.flagOfSteps
  cases op.isSigned with
  | true => exact congrArg (some ∘ Data.bits 1) BitVec.ofBool_xor_ofBool
  | false => exact congrArg (some ∘ Data.bits 1) BitVec.ofBool_or_ofBool

/-- The instructions of a test for overflow give the flag of two steps, with and
without the second. -/
theorem gives_overflow {op : CarryOp} {a b c : Value} {X Y : BitVec w} {p : Bool}
    (hop : op.isTest = true) (hw : 0 < w) (hlink : link.TellsOverflow op.isSigned op.subtracts w)
    (hd : wanted (Llvm.Intrinsic.withOverflow op.isSigned op.subtracts w))
    (ha : Usable link wanted env s ρ a (.int w) (.bits w X))
    (hb : Usable link wanted env s ρ b (.int w) (.bits w Y))
    (hc : Usable link wanted env s ρ c (.int 1) (.bits 1 (BitVec.ofBool p))) :
    Gives link wanted tooWide (overflow env op.isSigned op.subtracts w a b c) s ρ (.int 1)
      (.bits 1 (BitVec.ofBool (op.flagOfSteps X Y p))) := by
  unfold overflow
  apply (lowers_operands ha hb).bind
  rintro ⟨x, y⟩ s₁ ρ₁ h₁ ⟨hx, hy⟩
  apply (gives_withOverflow hlink hd hx hy).bind
  intro r s₂ ρ₂ h₂ hr
  apply (gives_extract hr rfl).bind
  intro o s₃ ρ₃ h₃ ho
  by_cases hlit : c.boolLiteral? = some false
  · simp only [if_pos hlit]
    obtain rfl := eq_false_of_boolLiteral hlit hc.known
    rw [CarryOp.flagOfSteps_noCarry hop hw]
    exact lowers_pure ho
  · simp only [if_neg hlit]
    exact gives_secondStep hw hlink hd (hr.mono h₃) ho (((hc.mono h₁).mono h₂).mono h₃)

/-- The declarations that a test for overflow asks for. -/
def overflowDeclarations (op : CarryOp) (w : Nat) (operands : List Value) :
    List Llvm.Declaration :=
  Llvm.Intrinsic.withOverflow op.isSigned op.subtracts w :: operands.filterMap valueDeclaration

/-- Tests for overflow are exact in lowered code. For operands of any width and
any data, and a carry in any form, run from any state in which they are known,
the lowering emits instructions whose execution leaves the flag that the exact
integer left the range, or the opposite if the carry is misread. It is refused
only if a declaration clashes. -/
theorem overflow_exact {op : CarryOp} {a b c : Value} {X Y : BitVec w} {p : Bool}
    (hop : op.isTest = true) (hcheck : (App.carry op w a b c).check = .ok ())
    (hlink : link.TellsOverflow op.isSigned op.subtracts w)
    (ha : Known link env s ρ a (.bits w X)) (hb : Known link env s ρ b (.bits w Y))
    (hc : Known link env s ρ c (.bits 1 (BitVec.ofBool p))) :
    ∃ o, op.value X Y p = .bool o
      ∧ Gives link (· ∈ overflowDeclarations op w [a, b, c]) False
        (app env (.carry op w a b c)) s ρ (.int 1)
        (.bits 1 (BitVec.ofBool (o ^^ op.misread w p))) := by
  obtain ⟨hw, hat, hbt, hct⟩ := App.typed_of_check hcheck
  have hentry : ∀ v ∈ [a, b, c], ∀ f, v = .entry f →
      .ofFunction f.name f.signature ∈ overflowDeclarations op w [a, b, c] := by
    rintro v hv f rfl
    exact List.mem_cons_of_mem _ (List.mem_filterMap.2 ⟨_, hv, rfl⟩)
  refine ⟨_, CarryOp.value_of_steps hop hw X Y p, ?_⟩
  rw [Bool.xor_assoc, Bool.xor_self, Bool.xor_false]
  have h : Gives link (· ∈ overflowDeclarations op w [a, b, c]) False
      (overflow env op.isSigned op.subtracts w a b c) s ρ (.int 1)
      (.bits 1 (BitVec.ofBool (op.flagOfSteps X Y p))) :=
    gives_overflow hop hw hlink List.mem_cons_self ⟨ha, by rw [hat]; rfl, hentry a (by simp)⟩
      ⟨hb, by rw [hbt]; rfl, hentry b (by simp)⟩ ⟨hc, by rw [hct]; rfl, hentry c (by simp)⟩
  cases op with
  | uadcOverflows | sadcOverflows | usbbOverflows | ssbbOverflows => exact h
  | adc | sbb => contradiction

/-- Where there is no function but one that tells whether it left the range. -/
def soleOverflow (signed subtract : Bool) : Linkage where
  address _ := 0#64
  result _ args := match args with
    | [.bits v x, .bits u y] =>
      if h : v = u then Llvm.withOverflow signed subtract (x.cast h) y else .poison
    | _ => .poison

/-- The one function is the documented one. -/
theorem tellsOverflow_sole (signed subtract : Bool) (w : Nat) :
    (soleOverflow signed subtract).TellsOverflow signed subtract w := by
  intro x y
  simp [soleOverflow]

/-- The test on the first three arguments. -/
def overflowOfArguments (op : CarryOp) (w : Nat) : App Value :=
  .carry op w (.arg 0 (.bits w)) (.arg 1 (.bits w)) (.arg 2 .bool)

/-- A routine with two numbers and a carry as arguments. -/
def carryEnv (w : Nat) : Env := ⟨default, 0, [.bits w, .bits w, .bool]⟩

/-- The values of the arguments. -/
def carryFrame {w : Nat} (x y : BitVec w) (c : Bool) : Frame := fun
  | .arg 0 => some (.bits w x)
  | .arg 1 => some (.bits w y)
  | .arg 2 => some (.bits 1 (BitVec.ofBool c))
  | _ => none

/-- The signed minimum of eight bits, less nothing and a borrow, leaves the
range. -/
theorem overflow_exact_borrow :
    ∃ x s' ρ', Succeeds (app (carryEnv 8) (overflowOfArguments .ssbbOverflows 8))
        ⟨0, ∅, ∅, #[], #[]⟩ x s'
      ∧ Llvm.run (soleOverflow true true) (carryFrame 128#8 0#8 true) s'.instrs.toList = some ρ'
      ∧ x.eval (soleOverflow true true) ρ' = some (.bits 1 1#1) := by
  obtain ⟨o, ho, h⟩ := @overflow_exact (soleOverflow true true) (carryEnv 8) ⟨0, ∅, ∅, #[], #[]⟩
    (carryFrame 128#8 0#8 true) 8 .ssbbOverflows (.arg 0 (.bits 8)) (.arg 1 (.bits 8))
    (.arg 2 .bool) 128#8 0#8 true rfl rfl (tellsOverflow_sole true true 8) ⟨rfl, rfl⟩ ⟨rfl, rfl⟩
    ⟨rfl, rfl⟩
  cases ho
  obtain ⟨ρ', hf, hx⟩ := h.of_succeeds rfl
  obtain ⟨is, his, hrun⟩ := hf.ran
  refine ⟨_, _, ρ', rfl, ?_, ?_⟩
  · rw [his]
    exact hrun
  · exact hx.eval

/-- Nothing and nothing with a carry leave the signed range of one bit, which
ends at zero, but the code says that they do not. -/
theorem overflow_carry_misread :
    (overflowOfArguments .sadcOverflows 1).check = .ok ()
      ∧ CarryOp.sadcOverflows.value 0#1 0#1 true = .bool true
      ∧ ∃ x s' ρ', Succeeds (app (carryEnv 1) (overflowOfArguments .sadcOverflows 1))
          ⟨0, ∅, ∅, #[], #[]⟩ x s'
        ∧ Llvm.run (soleOverflow true false) (carryFrame 0#1 0#1 true) s'.instrs.toList = some ρ'
        ∧ x.eval (soleOverflow true false) ρ' = some (.bits 1 0#1) := by
  exact ⟨rfl, rfl, _, _, _, rfl, rfl, rfl⟩

end Lowering

end LiftedCode
