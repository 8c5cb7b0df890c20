/-
The types of the results of operations. Each has the type for the operation's own or,
where the instruction keeps the type of an operand, that of the operand (`ResultTy`),
under what the check of the operation has made sure of (`obtains_app`). A machine
operation has the type that the machine has for it (`obtains_machineFn`).
-/
import LiftedCode.Lowering.Machine
import LiftedCode.Proofs.Lowering.Types.Step

namespace LiftedCode.Lowering

open Llvm (Typed BinaryOperator IntPredicate FloatPredicate)

variable {types : Ident → Llvm.Ty → Prop} {fits : Prop} {env : Env} {w : Nat} {u v c : Value}

-- ============================================================== operands

theorem obtains_operands (u v : Value) : Obtains types fits (operands env u v) fun p =>
    u.MayBe types p.1.ty ∧ v.MayBe types p.2.ty :=
  (obtains_value env u).bind fun _ hx => (obtains_value env v).bind fun _ hy =>
    obtains_pure ⟨hx, hy⟩

theorem obtains_plain (op : BinaryOperator) (u v : Value) :
    Obtains types fits (plain env op u v) fun r => u.MayBe types r.ty :=
  (obtains_operands u v).bind fun _ hp => (obtains_binary _ _ _).imp fun _ hr => hr ▸ hp.1

theorem obtains_comparison (pred : IntPredicate) (u v : Value) :
    Obtains types fits (comparison env pred u v) (·.ty = .int 1) :=
  (obtains_operands u v).bind fun _ _ => obtains_compare _ _ _

theorem obtains_floatComparison (pred : FloatPredicate) (u v : Value) :
    Obtains types fits (floatComparison env pred u v) (·.ty = .int 1) :=
  (obtains_operands u v).bind fun _ _ => obtains_assign _ _

-- ============================================= shifts, carries and overflow

theorem obtains_shift (op : BinaryOperator) (w : Nat) (u v : Value) :
    Obtains types fits (shift env op w u v) fun r => u.MayBe types r.ty := by
  refine (obtains_operands u v).bind fun p hp => ?_
  dsimp only
  split
  · exact (obtains_binary _ _ _).imp fun _ hr => hr ▸ hp.1
  · refine (obtains_compare _ _ _).bind fun _ _ => (obtains_binary _ _ _).bind fun r hr => ?_
    exact (obtains_select _ _ _).imp fun _ hs => (hs.trans hr) ▸ hp.1

theorem obtains_shiftSigned (hw : 0 < w) (u v : Value) :
    Obtains types fits (shiftSigned env w u v) fun r => u.MayBe types r.ty := by
  refine (obtains_operands u v).bind fun p hp => ?_
  dsimp only
  split
  · exact (obtains_binary _ _ _).imp fun _ hr => hr ▸ hp.1
  · refine (obtains_compare _ _ _).bind fun _ _ => ?_
    refine (obtains_ofFault fun _ => Width.settles_sub hw).bind fun _ _ => ?_
    refine (obtains_select _ _ _).bind fun _ _ => ?_
    exact (obtains_binary _ _ _).imp fun _ hr => hr ▸ hp.1

theorem obtains_testBit (w : Nat) (u v : Value) :
    Obtains types fits (testBit env w u v) (·.ty = .int 1) := by
  refine (obtains_operands u v).bind fun p _ => ?_
  refine (obtains_binary _ _ _).bind fun _ _ => (obtains_cast _ _ _).bind fun r hr => ?_
  split
  · exact obtains_pure hr
  · refine (obtains_compare _ _ _).bind fun _ _ => ?_
    exact (obtains_select _ _ _).imp fun _ hs => hs.trans hr

theorem obtains_overflow (signed subtract : Bool) (w : Nat) (u v c : Value) :
    Obtains types fits (overflow env signed subtract w u v c) (·.ty = .int 1) := by
  refine (obtains_operands u v).bind fun p _ => (obtains_call _ _).bind fun _ _ => ?_
  refine (obtains_assign _ _).bind fun o ho => ?_
  split
  · exact obtains_pure ho
  · refine (obtains_value env c).bind fun _ _ => (obtains_cast _ _ _).bind fun _ _ => ?_
    refine (obtains_assign _ _).bind fun _ _ => (obtains_call _ _).bind fun _ _ => ?_
    refine (obtains_assign _ _).bind fun _ _ => ?_
    exact (obtains_binary _ _ _).imp fun _ hr => hr.trans ho

theorem obtains_withCarry (op : BinaryOperator) (w : Nat) (u v c : Value) :
    Obtains types fits (withCarry env op w u v c) fun r => u.MayBe types r.ty := by
  refine (obtains_operands u v).bind fun p hp => (obtains_binary _ _ _).bind fun s hs => ?_
  refine (obtains_value env c).bind fun _ _ => (obtains_cast _ _ _).bind fun _ _ => ?_
  exact (obtains_binary _ _ _).imp fun _ hr => (hr.trans hs) ▸ hp.1

-- ==================================================== operators by shape

theorem obtains_binaryApp {op : BinaryOp} (hw : 0 < w) (hu : u.ty = .bits w) :
    Obtains types fits (binaryApp env op w u v)
      fun r => ResultTy types [u, v] (if op.isTest then .bool else .bits w) r.ty := by
  have hmem : u ∈ [u, v] := List.mem_cons_self
  cases op with
  | add | sub | mul | udiv | urem | sdiv | srem | and | or | xor =>
      exact (obtains_plain _ u v).imp fun _ hr => .operand hmem hu hr
  | ult | ule | slt | sle => exact (obtains_comparison _ u v).imp fun _ hr => .own hr
  | testBit => exact (obtains_testBit w u v).imp fun _ hr => .own hr
  | shl | shr => exact (obtains_shift _ w u v).imp fun _ hr => .operand hmem hu hr
  | sar => exact (obtains_shiftSigned hw u v).imp fun _ hr => .operand hmem hu hr

theorem obtains_carryApp {op : CarryOp} (hu : u.ty = .bits w) :
    Obtains types fits (carryApp env op w u v c)
      fun r => ResultTy types [u, v, c] (if op.isTest then .bool else .bits w) r.ty := by
  cases op with
  | adc | sbb =>
      exact (obtains_withCarry _ w u v c).imp fun _ hr => .operand List.mem_cons_self hu hr
  | uadcOverflows | sadcOverflows | usbbOverflows | ssbbOverflows =>
      exact (obtains_overflow _ _ w u v c).imp fun _ hr => .own hr

theorem obtains_unaryApp {op : UnaryOp} (hw : 0 < w)
    (hhalves : op.halves = true → 2 * w < Width.limit) (hu : u.ty = .bits (op.operandWidth w))
    (hrev : fits → op = .reverseBytes → ∀ n, u.MayBe types (.int n) → ReversalFits n) :
    Obtains types fits (unaryApp env op w u) fun r => ResultTy types [u] (.bits w) r.ty := by
  have hmem : u ∈ [u] := List.mem_cons_self
  refine (obtains_value env u).bind fun x hx => ?_
  cases op with
  | upperHalf =>
      refine (obtains_ofFault fun _ => Width.settles_mul (hhalves rfl)).bind fun _ _ => ?_
      exact (obtains_binary _ _ _).bind fun _ _ => (obtains_cast _ _ _).imp fun _ hr => .own hr
  | lowerHalf => exact (obtains_cast _ _ _).imp fun _ hr => .own hr
  | complement => exact (obtains_binary _ _ _).imp fun _ hr => .operand hmem hu (hr ▸ hx)
  | popCount | scanForward => exact (obtains_call _ _).imp fun _ hr => .own hr
  | reverseBytes =>
      refine (obtains_reverseBytes fun hfits n hn => hrev hfits rfl n (hn ▸ hx)).imp fun _ hr => ?_
      exact .operand hmem hu (hr ▸ hx)
  | scanReverse =>
      refine (obtains_call _ _).bind fun _ _ => ?_
      refine (obtains_ofFault fun _ => Width.settles_sub hw).bind fun _ _ => ?_
      exact (obtains_binary _ _ _).imp fun _ hr => .own hr

theorem obtains_logicApp {op : LogicOp} (hu : u.ty = .bool) :
    Obtains types fits (logicApp env op u v) fun r => ResultTy types [u, v] .bool r.ty := by
  cases op with
  | and | or | xor =>
      exact (obtains_plain _ u v).imp fun _ hr => .operand List.mem_cons_self hu hr

theorem obtains_floatBinaryApp {op : FloatBinaryOp} {f : FloatFormat} (hu : u.ty = .float f) :
    Obtains types fits (floatBinaryApp env op u v)
      fun r => ResultTy types [u, v] (if op.isTest then .bool else .float f) r.ty := by
  cases op with
  | add | sub | mul | div =>
      exact (obtains_plain _ u v).imp fun _ hr => .operand List.mem_cons_self hu hr
  | lt | eq => exact (obtains_floatComparison _ u v).imp fun _ hr => .own hr

theorem obtains_floatUnaryApp (op : FloatUnaryOp) (f : FloatFormat) :
    Obtains types fits (floatUnaryApp env op f u)
      fun r => ResultTy types [u] (if op.isTest then .bool else .float f) r.ty := by
  cases op with
  | sqrt =>
      exact (obtains_value env u).bind fun _ _ => (obtains_call _ _).imp fun _ hr => .own hr
  | isNaN => exact (obtains_floatComparison _ u u).imp fun _ hr => .own hr

/-- The result of a checked operation. For a comparison, the widths of whatever is bound
have to be 32-bit numbers, and for a reversal there has to be room for a byte. -/
theorem obtains_app {op : App Value} {t : Ty} (hcheck : op.check = .ok ()) (ht : op.ty = .ok t)
    (hbound : fits → ∀ id t, types id t → t.widthFits = true)
    (hrev : fits → ∀ w v, op = .unary .reverseBytes w v → ∀ n, v.MayBe types (.int n) →
      ReversalFits n) :
    Obtains types fits (app env op) fun r => ResultTy types op.operands t r.ty := by
  have htyped := App.typed_of_check hcheck
  cases op with
  | eq u v =>
      cases ht
      obtain ⟨hty, hfit, -⟩ := htyped
      refine (obtains_value env u).bind fun x hx => ?_
      refine (obtains_asInt fun hf => widthFits_of_mayBe hx (hbound hf) hfit).bind fun _ _ => ?_
      refine (obtains_value env v).bind fun y hy => ?_
      refine (obtains_asInt fun hf => ?_).bind fun _ _ => ?_
      · exact widthFits_of_mayBe hy (hbound hf) (hty ▸ hfit)
      exact (obtains_compare _ _ _).imp fun _ hr => .own hr
  | mux t c u v =>
      cases ht
      obtain ⟨-, hu, -⟩ := htyped
      refine (obtains_value env c).bind fun _ _ => (obtains_value env u).bind fun x hx => ?_
      refine (obtains_value env v).bind fun _ _ => (obtains_select _ _ _).imp fun _ hr => ?_
      exact .operand (List.mem_cons_of_mem _ List.mem_cons_self) hu (hr ▸ hx)
  | logic op u v =>
      cases ht
      exact obtains_logicApp htyped.1
  | not u =>
      cases ht
      refine (obtains_value env u).bind fun x hx => (obtains_binary _ _ _).imp fun _ hr => ?_
      exact .operand List.mem_cons_self htyped (hr ▸ hx)
  | resize op u m n =>
      cases ht
      exact (obtains_value env u).bind fun _ _ => (obtains_cast _ _ _).imp fun _ hr => .own hr
  | bitcast u s t =>
      cases ht
      refine (obtains_value env u).bind fun x _ => ?_
      dsimp only
      split
      case isTrue hx => exact obtains_pure (.own hx)
      case isFalse => exact (obtains_cast _ _ _).imp fun _ hr => .own hr
  | field ts u i =>
      obtain ⟨-, hi⟩ := htyped
      rw [App.ty, List.getElem?_eq_getElem hi] at ht
      cases ht
      refine (obtains_value env u).bind fun x _ => ?_
      rw [List.getElem?_eq_getElem hi]
      exact (obtains_assign _ _).imp fun _ hr => .own hr
  | concat m l u v =>
      obtain ⟨n, hn, rfl⟩ := ok_of_map ht
      have hsum : Settles (Width.add m l) (· = n) := settles_of_ok hn rfl
      refine (obtains_ofFault fun _ => hsum).bind fun k hk => ?_
      obtain rfl : n = k := Except.ok.inj (hn.symm.trans hk)
      refine (obtains_value env u).bind fun _ _ => (obtains_cast _ _ _).bind fun x hx => ?_
      refine (obtains_value env v).bind fun _ _ => (obtains_cast _ _ _).bind fun y _ => ?_
      refine (obtains_binary _ _ _).bind fun s hs => (obtains_binary _ _ _).imp fun _ hr => ?_
      exact .own (hr.trans (hs.trans hx))
  | evenParity u =>
      cases ht
      refine (obtains_value env u).bind fun _ _ => (obtains_call _ _).bind fun _ _ => ?_
      refine (obtains_cast _ _ _).bind fun o ho => (obtains_binary _ _ _).imp fun _ hr => ?_
      exact .own (hr.trans ho)
  | unary op w u =>
      cases ht
      obtain ⟨hw, -, hhalves, hu⟩ := htyped
      exact obtains_unaryApp hw hhalves hu fun hf hop => hrev hf w u (hop ▸ rfl)
  | binary op w u v =>
      cases ht
      exact obtains_binaryApp htyped.1 htyped.2.1
  | carry op w u v c =>
      cases ht
      exact obtains_carryApp htyped.2.1
  | floatUnary op f u =>
      cases ht
      exact obtains_floatUnaryApp op f
  | floatBinary op f u v =>
      cases ht
      obtain ⟨_, hu, -⟩ := ok_of_bind hcheck
      exact obtains_floatBinaryApp (App.eq_of_expectTy hu)
  | floatConvert f u g =>
      cases ht
      have hu : u.ty = .float f := App.eq_of_expectTy hcheck
      refine (obtains_value env u).bind fun x hx => ?_
      split
      · exact (obtains_cast _ _ _).imp fun _ hr => .own hr
      · split
        · exact (obtains_cast _ _ _).imp fun _ hr => .own hr
        · have hfg : f = g := FloatFormat.eq_of_width (by omega)
          exact obtains_pure (.operand List.mem_cons_self (hfg ▸ hu) hx)
  | floatOfSigned w u f | signedOfFloat f u w =>
      cases ht
      exact (obtains_value env u).bind fun _ _ => (obtains_cast _ _ _).imp fun _ hr => .own hr

-- ===================================================== machine operations

theorem obtains_joinHalves (pair : Typed) :
    Obtains types fits (joinHalves pair) (·.ty = .int 64) := by
  refine (obtains_assign _ _).bind fun _ _ => (obtains_assign _ _).bind fun _ _ => ?_
  refine (obtains_cast _ _ _).bind fun _ _ => (obtains_cast _ _ _).bind fun hi hhi => ?_
  refine (obtains_binary _ _ _).bind fun s hs => (obtains_binary _ _ _).imp fun _ hr => ?_
  exact hr.trans (hs.trans hhi)

theorem obtains_machineFn {f : MachineFn Value} {t : Ty} (ht : f.ty = .ok t) :
    Obtains types fits (machineFn env f) (·.ty = .ofTy t) := by
  unfold machineFn
  split
  case h_1 | h_2 =>
    cases ht
    exact obtains_assign _ _
  case h_3 u v =>
    cases ht
    exact (obtains_operands u v).bind fun _ _ => obtains_assign _ _
  case h_4 =>
    cases ht
    exact obtains_call _ _
  case h_5 u =>
    cases ht
    refine (obtains_value env u).bind fun _ _ => (obtains_assign _ _).bind fun _ _ => ?_
    exact obtains_joinHalves _
  case h_6 u v =>
    cases ht
    refine (obtains_value env u).bind fun _ _ => (obtains_cast _ _ _).bind fun _ _ => ?_
    refine (obtains_value env v).bind fun _ _ => (obtains_cast _ _ _).bind fun _ _ => ?_
    exact (obtains_call _ _).bind fun _ _ => obtains_cast _ _ _
  case h_7 => exact obtains_throw nofun

end LiftedCode.Lowering
