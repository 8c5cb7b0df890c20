/-
Operations under different options. Every operation is lowered alike; the counts
of zeros alone look at the options, for a flag that is no part of the essence
(`alike_unaryApp`). The lemmas follow the definitions, one for each.
-/
import LiftedCode.Lowering.Machine
import LiftedCode.Proofs.Lowering.Options.Step

namespace LiftedCode.Lowering

open Llvm (Typed BinaryOperator IntPredicate FloatPredicate Declaration Intrinsic.swapBytes
  Intrinsic.maskedLoad Intrinsic.maskedStore Intrinsic.withOverflow Intrinsic.popCount
  Intrinsic.squareRoot Intrinsic.readTimestamp Intrinsic.shuffle128 Intrinsic.moveBytes
  Intrinsic.fillBytes)

theorem isFree_pair {a b : Value} (h : ∀ v ∈ [a, b], v.IsFree) : a.IsFree ∧ b.IsFree :=
  ⟨h a List.mem_cons_self, h b (List.mem_cons_of_mem a List.mem_cons_self)⟩

-- ============================================================== byte order

theorem alike_asInt (x : Typed) : Alike (Step.asInt x) (Step.asInt x) := by
  unfold Step.asInt
  split
  case isTrue => exact alike_pure x
  case isFalse =>
    refine (alike_ofFault _).bind fun w => ?_
    cases w with
    | some w => exact alike_cast _ _ _
    | none => exact alike_throw _

theorem alike_swapBytes (t : Llvm.Ty) (x : Typed) :
    Alike (Step.call (Intrinsic.swapBytes t) [x]) (Step.call (Intrinsic.swapBytes t) [x]) := by
  refine alike_call ?_ _
  simp [Declaration.IsIntrinsic, Intrinsic.swapBytes, Llvm.Intrinsic.plain]

theorem alike_reverseBytes (x : Typed) : Alike (Step.reverseBytes x) (Step.reverseBytes x) := by
  unfold Step.reverseBytes
  split
  case h_1 w hw =>
    split
    case isTrue => exact alike_throw _
    case isFalse =>
      split
      case isTrue => exact alike_pure x
      case isFalse =>
        split
        case isTrue => exact alike_swapBytes _ _
        case isFalse =>
          refine (alike_ofFault _).bind fun wider => ?_
          refine (alike_cast _ _ _).bind fun x => ?_
          refine (alike_swapBytes _ _).bind fun x => ?_
          exact (alike_binary _ _ _).bind fun x => alike_cast _ _ _
  case h_2 => exact alike_throw _

variable {env : Env} {o o' : Options}

theorem alike_matchOrder (l : Layout) (x : Typed) :
    Alike (Step.matchOrder (env.withOptions o) l x) (Step.matchOrder (env.withOptions o') l x) := by
  show Alike (Step.matchOrder env l x) (Step.matchOrder env l x)
  unfold Step.matchOrder
  split
  case isTrue => exact alike_pure x
  case isFalse =>
    split
    case h_1 => exact alike_reverseBytes x
    case h_2 =>
      refine (alike_asInt x).bind fun i => ?_
      exact (alike_reverseBytes i).bind fun s => alike_cast _ _ _
    case h_3 =>
      split
      case isTrue => exact alike_pure x
      case isFalse =>
        split
        case isTrue => exact alike_swapBytes _ _
        case isFalse => exact agree_refuse _ _
    case h_4 => exact agree_refuse _ _

-- ================================================================= memory

section

variable {a b c : Value}

theorem alike_address (ha : a.IsFree) :
    Alike (address (env.withOptions o) a) (address (env.withOptions o') a) :=
  (alike_value ha).bind fun x => alike_pointer x

theorem alike_layoutTy (l : Layout) : Alike (layoutTy l) (layoutTy l) :=
  (alike_ofFault _).bind fun _ => alike_pure _

theorem alike_mask (hc : c.IsFree) :
    Alike (mask (env.withOptions o) c) (mask (env.withOptions o') c) :=
  (alike_value hc).bind fun x => alike_cast _ x _

theorem alike_singleton (x : Typed) : Alike (singleton x) (singleton x) := alike_assign _ _

theorem alike_read (ha : a.IsFree) (l : Layout) :
    Alike (read (env.withOptions o) a l) (read (env.withOptions o') a l) := by
  refine (alike_address ha).bind fun p => ?_
  refine (alike_layoutTy l).bind fun t => ?_
  exact (alike_assign _ _).bind fun x => alike_matchOrder l x

theorem alike_readIf (l : Layout) (hc : c.IsFree) (ha : a.IsFree) (hb : b.IsFree) :
    Alike (readIf (env.withOptions o) l c a b) (readIf (env.withOptions o') l c a b) := by
  have hload : ∀ t xs, Alike (Step.call (Intrinsic.maskedLoad t) xs)
      (Step.call (Intrinsic.maskedLoad t) xs) := by
    intro t xs
    refine alike_call ?_ xs
    simp [Declaration.IsIntrinsic, Intrinsic.maskedLoad, Llvm.Intrinsic.plain]
  unfold readIf
  by_cases hp : l.isPacked = true
  · simp only [if_pos hp]
    exact (agree_refuse (R := fun _ _ => False) _ _).bindRel fun _ _ h => h.elim
  · simp only [if_neg hp]
    refine (alike_layoutTy l).bind fun t => ?_
    refine (alike_mask hc).bind fun m => ?_
    refine (alike_address ha).bind fun p => ?_
    refine (alike_value hb).bind fun d => ?_
    refine (alike_matchOrder l d).bind fun d => ?_
    refine (alike_assign _ _).bind fun v => ?_
    refine (hload t _).bind fun r => ?_
    exact (alike_assign _ _).bind fun x => alike_matchOrder l x

theorem alike_write (ha : a.IsFree) (l : Layout) (hb : b.IsFree) :
    Alike (write (env.withOptions o) a l b) (write (env.withOptions o') a l b) := by
  refine (alike_value hb).bind fun x => ?_
  refine (alike_matchOrder l x).bind fun x => ?_
  exact (alike_address ha).bind fun p => alike_emit _

theorem alike_writeIf (hc : c.IsFree) (ha : a.IsFree) (l : Layout) (hb : b.IsFree) :
    Alike (writeIf (env.withOptions o) c a l b) (writeIf (env.withOptions o') c a l b) := by
  have hstore : ∀ t xs, Alike (Step.callVoid (Intrinsic.maskedStore t) xs)
      (Step.callVoid (Intrinsic.maskedStore t) xs) := by
    intro t xs
    refine alike_callVoid ?_ xs
    simp [Declaration.IsIntrinsic, Intrinsic.maskedStore, Llvm.Intrinsic.plain]
  refine (alike_value hb).bind fun x => ?_
  refine (alike_matchOrder l x).bind fun x => ?_
  by_cases hp : l.isPacked = true
  · simp only [if_pos hp]
    exact (agree_refuse (R := fun _ _ => False) _ _).bindRel fun _ _ h => h.elim
  · simp only [if_neg hp]
    refine (alike_mask hc).bind fun m => ?_
    refine (alike_address ha).bind fun p => ?_
    exact (alike_singleton x).bind fun s => hstore x.ty _

-- ============================================================== operators

theorem alike_operands (ha : a.IsFree) (hb : b.IsFree) :
    Alike (operands (env.withOptions o) a b) (operands (env.withOptions o') a b) :=
  (alike_value ha).bind fun _ => (alike_value hb).bind fun _ => alike_pure _

theorem alike_shift (op : BinaryOperator) (w : Nat) (ha : a.IsFree) (hb : b.IsFree) :
    Alike (shift (env.withOptions o) op w a b) (shift (env.withOptions o') op w a b) := by
  refine (alike_operands ha hb).bind fun (x, n) => ?_
  dsimp only
  split
  case isTrue => exact alike_binary _ _ _
  case isFalse =>
    refine (alike_compare _ _ _).bind fun ok => ?_
    exact (alike_binary _ _ _).bind fun r => alike_select _ _ _

theorem alike_shiftSigned (w : Nat) (ha : a.IsFree) (hb : b.IsFree) :
    Alike (shiftSigned (env.withOptions o) w a b) (shiftSigned (env.withOptions o') w a b) := by
  refine (alike_operands ha hb).bind fun (x, n) => ?_
  dsimp only
  split
  case isTrue => exact alike_binary _ _ _
  case isFalse =>
    refine (alike_compare _ _ _).bind fun ok => ?_
    refine (alike_ofFault _).bind fun most => ?_
    exact (alike_select _ _ _).bind fun n => alike_binary _ _ _

theorem alike_testBit (w : Nat) (ha : a.IsFree) (hb : b.IsFree) :
    Alike (testBit (env.withOptions o) w a b) (testBit (env.withOptions o') w a b) := by
  refine (alike_operands ha hb).bind fun (x, i) => ?_
  refine (alike_binary _ _ _).bind fun s => ?_
  refine (alike_cast _ _ _).bind fun b => ?_
  split
  case isTrue => exact alike_pure b
  case isFalse => exact (alike_compare _ _ _).bind fun ok => alike_select _ _ _

theorem alike_overflow (signed subtract : Bool) (w : Nat) (ha : a.IsFree) (hb : b.IsFree)
    (hc : c.IsFree) :
    Alike (overflow (env.withOptions o) signed subtract w a b c)
      (overflow (env.withOptions o') signed subtract w a b c) := by
  have hcall : ∀ xs, Alike (Step.call (Intrinsic.withOverflow signed subtract w) xs)
      (Step.call (Intrinsic.withOverflow signed subtract w) xs) := by
    refine alike_call ?_
    simp [Declaration.IsIntrinsic, Intrinsic.withOverflow, Llvm.Intrinsic.plain]
  refine (alike_operands ha hb).bind fun p => ?_
  obtain ⟨x, y⟩ := p
  refine (hcall _).bind fun r => ?_
  refine (alike_assign _ _).bind fun flag => ?_
  split
  case isTrue => exact alike_pure flag
  case isFalse =>
    refine (alike_value hc).bind fun k => ?_
    refine (alike_cast _ _ _).bind fun k => ?_
    refine (alike_assign _ _).bind fun s => ?_
    refine (hcall _).bind fun r' => ?_
    exact (alike_assign _ _).bind fun flag' => alike_binary _ _ _

theorem alike_withCarry (op : BinaryOperator) (w : Nat) (ha : a.IsFree) (hb : b.IsFree)
    (hc : c.IsFree) :
    Alike (withCarry (env.withOptions o) op w a b c)
      (withCarry (env.withOptions o') op w a b c) := by
  refine (alike_operands ha hb).bind fun (x, y) => ?_
  refine (alike_binary _ _ _).bind fun s => ?_
  refine (alike_value hc).bind fun k => ?_
  exact (alike_cast _ _ _).bind fun k => alike_binary _ _ _

theorem alike_plain (op : BinaryOperator) (ha : a.IsFree) (hb : b.IsFree) :
    Alike (plain (env.withOptions o) op a b) (plain (env.withOptions o') op a b) :=
  (alike_operands ha hb).bind fun (x, y) => alike_binary op x y

theorem alike_comparison (pred : IntPredicate) (ha : a.IsFree) (hb : b.IsFree) :
    Alike (comparison (env.withOptions o) pred a b) (comparison (env.withOptions o') pred a b) :=
  (alike_operands ha hb).bind fun (x, y) => alike_compare pred x y

theorem alike_floatComparison (pred : FloatPredicate) (ha : a.IsFree) (hb : b.IsFree) :
    Alike (floatComparison (env.withOptions o) pred a b)
      (floatComparison (env.withOptions o') pred a b) :=
  (alike_operands ha hb).bind fun _ => alike_assign _ _

-- ============================================================= operations

theorem alike_binaryApp (op : BinaryOp) (w : Nat) (ha : a.IsFree) (hb : b.IsFree) :
    Alike (binaryApp (env.withOptions o) op w a b) (binaryApp (env.withOptions o') op w a b) := by
  cases op with
  | add | sub | mul | udiv | urem | sdiv | srem | and | or | xor => exact alike_plain _ ha hb
  | ult | ule | slt | sle => exact alike_comparison _ ha hb
  | testBit => exact alike_testBit w ha hb
  | shl | shr => exact alike_shift _ w ha hb
  | sar => exact alike_shiftSigned w ha hb

theorem alike_popCount (w : Nat) (xs : List Typed) :
    Alike (Step.call (Intrinsic.popCount w) xs) (Step.call (Intrinsic.popCount w) xs) := by
  refine alike_call ?_ xs
  simp [Declaration.IsIntrinsic, Intrinsic.popCount, Llvm.Intrinsic.plain]

/-- The options decide on the flag of a scan, and on nothing else. -/
theorem alike_unaryApp (op : UnaryOp) (w : Nat) (ha : a.IsFree) :
    Alike (unaryApp (env.withOptions o) op w a) (unaryApp (env.withOptions o') op w a) := by
  refine (alike_value ha).bind fun x => ?_
  cases op with
  | upperHalf =>
      refine (alike_ofFault _).bind fun twice => ?_
      exact (alike_binary _ _ _).bind fun s => alike_cast _ _ _
  | lowerHalf => exact alike_cast _ _ _
  | complement => exact alike_binary _ _ _
  | popCount => exact alike_popCount w _
  | reverseBytes => exact alike_reverseBytes x
  | scanForward => exact alike_countZeros (.inr rfl) x _ _
  | scanReverse =>
      refine (alike_countZeros (.inl rfl) x _ _).bind fun z => ?_
      exact (alike_ofFault _).bind fun most => alike_binary _ _ _

theorem alike_carryApp (op : CarryOp) (w : Nat) (ha : a.IsFree) (hb : b.IsFree) (hc : c.IsFree) :
    Alike (carryApp (env.withOptions o) op w a b c) (carryApp (env.withOptions o') op w a b c) := by
  cases op with
  | adc | sbb => exact alike_withCarry _ w ha hb hc
  | uadcOverflows | sadcOverflows | usbbOverflows | ssbbOverflows =>
      exact alike_overflow _ _ w ha hb hc

theorem alike_logicApp (op : LogicOp) (ha : a.IsFree) (hb : b.IsFree) :
    Alike (logicApp (env.withOptions o) op a b) (logicApp (env.withOptions o') op a b) := by
  cases op with
  | and | or | xor => exact alike_plain _ ha hb

theorem alike_floatBinaryApp (op : FloatBinaryOp) (ha : a.IsFree) (hb : b.IsFree) :
    Alike (floatBinaryApp (env.withOptions o) op a b)
      (floatBinaryApp (env.withOptions o') op a b) := by
  cases op with
  | add | sub | mul | div => exact alike_plain _ ha hb
  | lt | eq => exact alike_floatComparison _ ha hb

theorem alike_floatUnaryApp (op : FloatUnaryOp) (f : FloatFormat) (ha : a.IsFree) :
    Alike (floatUnaryApp (env.withOptions o) op f a)
      (floatUnaryApp (env.withOptions o') op f a) := by
  cases op with
  | sqrt =>
      refine (alike_value ha).bind fun x => alike_call ?_ _
      simp [Declaration.IsIntrinsic, Intrinsic.squareRoot, Llvm.Intrinsic.plain]
  | isNaN => exact alike_floatComparison _ ha ha

end

/-- An operation on values that do not ask for the report of a failure. -/
theorem alike_app (f : App Value) (hf : ∀ v ∈ f.operands, v.IsFree) :
    Alike (app (env.withOptions o) f) (app (env.withOptions o') f) := by
  cases f with
  | eq a b =>
      obtain ⟨ha, hb⟩ := isFree_pair hf
      refine (alike_value ha).bind fun x => ?_
      refine (alike_asInt x).bind fun x => ?_
      refine (alike_value hb).bind fun y => ?_
      exact (alike_asInt y).bind fun y => alike_compare _ _ _
  | mux t c a b =>
      obtain ⟨hc, hf⟩ := List.forall_mem_cons.1 hf
      obtain ⟨ha, hb⟩ := isFree_pair hf
      refine (alike_value hc).bind fun p => ?_
      refine (alike_value ha).bind fun x => ?_
      exact (alike_value hb).bind fun y => alike_select _ _ _
  | logic op a b =>
      obtain ⟨ha, hb⟩ := isFree_pair hf
      exact alike_logicApp op ha hb
  | not a =>
      exact (alike_value (List.forall_mem_singleton.1 hf)).bind fun x => alike_binary _ _ _
  | resize op a v w =>
      exact (alike_value (List.forall_mem_singleton.1 hf)).bind fun x => alike_cast _ _ _
  | bitcast a t u =>
      refine (alike_value (List.forall_mem_singleton.1 hf)).bind fun x => ?_
      dsimp only
      split
      case isTrue => exact alike_pure x
      case isFalse => exact alike_cast _ _ _
  | field ts a i =>
      refine (alike_value (List.forall_mem_singleton.1 hf)).bind fun x => ?_
      split
      case h_1 t ht => exact alike_assign _ _
      case h_2 => exact alike_ofFault _
  | concat h l a b =>
      obtain ⟨ha, hb⟩ := isFree_pair hf
      refine (alike_ofFault _).bind fun w => ?_
      refine (alike_value ha).bind fun x => ?_
      refine (alike_cast _ _ _).bind fun x => ?_
      refine (alike_value hb).bind fun y => ?_
      refine (alike_cast _ _ _).bind fun y => ?_
      exact (alike_binary _ _ _).bind fun x => alike_binary _ _ _
  | evenParity a =>
      refine (alike_value (List.forall_mem_singleton.1 hf)).bind fun x => ?_
      refine (alike_popCount 8 _).bind fun n => ?_
      exact (alike_cast _ _ _).bind fun odd => alike_binary _ _ _
  | unary op w a => exact alike_unaryApp op w (List.forall_mem_singleton.1 hf)
  | binary op w a b =>
      obtain ⟨ha, hb⟩ := isFree_pair hf
      exact alike_binaryApp op w ha hb
  | carry op w a b c =>
      obtain ⟨ha, hf⟩ := List.forall_mem_cons.1 hf
      obtain ⟨hb, hc⟩ := isFree_pair hf
      exact alike_carryApp op w ha hb hc
  | floatUnary op f a => exact alike_floatUnaryApp op f (List.forall_mem_singleton.1 hf)
  | floatBinary op f a b =>
      obtain ⟨ha, hb⟩ := isFree_pair hf
      exact alike_floatBinaryApp op ha hb
  | floatConvert f a g =>
      refine (alike_value (List.forall_mem_singleton.1 hf)).bind fun x => ?_
      split
      case isTrue => exact alike_cast _ _ _
      case isFalse =>
        split
        case isTrue => exact alike_cast _ _ _
        case isFalse => exact alike_pure x
  | floatOfSigned w a f =>
      exact (alike_value (List.forall_mem_singleton.1 hf)).bind fun x => alike_cast _ _ _
  | signedOfFloat f a w =>
      exact (alike_value (List.forall_mem_singleton.1 hf)).bind fun x => alike_cast _ _ _

-- ========================================================= machine operations

theorem alike_joinHalves (pair : Typed) : Alike (joinHalves pair) (joinHalves pair) := by
  refine (alike_assign _ _).bind fun lo => ?_
  refine (alike_assign _ _).bind fun hi => ?_
  refine (alike_cast _ _ _).bind fun lo => ?_
  refine (alike_cast _ _ _).bind fun hi => ?_
  exact (alike_binary _ _ _).bind fun hi => alike_binary _ _ _

theorem alike_shuffle128 {a b : Value} (ha : a.IsFree) (hb : b.IsFree) :
    Alike (shuffle128 (env.withOptions o) a b) (shuffle128 (env.withOptions o') a b) := by
  have hd : Intrinsic.shuffle128.IsIntrinsic := by
    simp [Declaration.IsIntrinsic, Intrinsic.shuffle128, Llvm.Intrinsic.plain]
  refine (alike_value ha).bind fun x => ?_
  refine (alike_cast _ _ _).bind fun x => ?_
  refine (alike_value hb).bind fun i => ?_
  refine (alike_cast _ _ _).bind fun i => ?_
  exact (alike_call hd _).bind fun r => alike_cast _ _ _

theorem alike_machineFn (f : MachineFn Value) (hf : ∀ v ∈ f.operands, v.IsFree) :
    Alike (machineFn (env.withOptions o) f) (machineFn (env.withOptions o') f) := by
  unfold machineFn
  split
  case h_1 | h_2 => exact alike_assign _ _
  case h_3 a b =>
    obtain ⟨ha, hb⟩ := isFree_pair hf
    exact (alike_operands ha hb).bind fun (x, y) => alike_assign _ _
  case h_4 =>
    refine alike_call ?_ _
    simp [Declaration.IsIntrinsic, Intrinsic.readTimestamp, Llvm.Intrinsic.plain]
  case h_5 a =>
    refine (alike_value (List.forall_mem_singleton.1 hf)).bind fun x => ?_
    exact (alike_assign _ _).bind fun pair => alike_joinHalves pair
  case h_6 a b =>
    obtain ⟨ha, hb⟩ := isFree_pair hf
    exact alike_shuffle128 ha hb
  case h_7 => exact alike_throw _

theorem alike_forwards (s : MachineStmt Value) (v : Value) :
    Alike (forwards s v) (forwards s v) := by
  unfold forwards
  split
  case isTrue => exact alike_pure ()
  case isFalse => exact alike_throw _

theorem alike_lengthInBytes {n : Value} (hn : n.IsFree) (bytes : Nat) :
    Alike (lengthInBytes (env.withOptions o) n bytes)
      (lengthInBytes (env.withOptions o') n bytes) := by
  refine (alike_value hn).bind fun x => ?_
  split
  case isTrue => exact alike_pure x
  case isFalse => exact alike_assign _ _

theorem alike_machineStmt (s : MachineStmt Value) (hs : ∀ v ∈ s.operands, v.IsFree) :
    Alike (machineStmt (env.withOptions o) s) (machineStmt (env.withOptions o') s) := by
  have hmove : Intrinsic.moveBytes.IsIntrinsic := by
    simp [Declaration.IsIntrinsic, Intrinsic.moveBytes, Llvm.Intrinsic.plain]
  have hfill : Intrinsic.fillBytes.IsIntrinsic := by
    simp [Declaration.IsIntrinsic, Intrinsic.fillBytes, Llvm.Intrinsic.plain]
  unfold machineStmt
  split
  case h_1 a => exact (alike_address (List.forall_mem_singleton.1 hs)).bind fun p => alike_emit _
  case h_2 bytes dest src count direction =>
    obtain ⟨hdest, hs⟩ := List.forall_mem_cons.1 hs
    obtain ⟨hsrc, hs⟩ := List.forall_mem_cons.1 hs
    obtain ⟨hcount, -⟩ := isFree_pair hs
    refine (alike_forwards _ _).bind fun _ => ?_
    refine (alike_address hdest).bind fun d => ?_
    refine (alike_address hsrc).bind fun x => ?_
    exact (alike_lengthInBytes hcount bytes).bind fun n => alike_callVoid hmove _
  case h_3 dest v count direction =>
    obtain ⟨hdest, hs⟩ := List.forall_mem_cons.1 hs
    obtain ⟨hv, hs⟩ := List.forall_mem_cons.1 hs
    obtain ⟨hcount, -⟩ := isFree_pair hs
    refine (alike_forwards _ _).bind fun _ => ?_
    refine (alike_address hdest).bind fun d => ?_
    refine (alike_value hv).bind fun x => ?_
    exact (alike_lengthInBytes hcount 1).bind fun n => alike_callVoid hfill _
  case h_4 => exact alike_throw _
  case h_5 => exact alike_emit _

end LiftedCode.Lowering
