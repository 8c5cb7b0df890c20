/-
The encoding of operations is exact: the term for an operation stands for the
datum that the operation gives.

- One theorem for each family of operators says what the term of its operators
  stands for (`eval_binaryTerm`, `eval_unaryTerm`, `eval_carryTerm`, …). An
  overflow predicate computes with one more bit, in which the exact integer
  fits (`eval_wide`), and reads the answer off the two top bits.
- `Encodes` says what the term for an operation is made of, and which operations
  have one (`appTerm_eq_some_iff`).
- `appTerm_of_suits` puts them together: one case for every constructor.
- `appTerm_exact` starts from the check of an operation instead of the form of
  its operands. Its one reservation is the fault of a width that is not a 32-bit
  number (`App.encodingFits`).
-/
import LiftedCode.Proofs.Effect
import LiftedCode.Proofs.Meaning.Operation
import LiftedCode.Proofs.Trace.Fold
import LiftedCode.Trace.Block

namespace LiftedCode

namespace Trace

open Smt (Term TermSort Env)

variable {ρ : Env} {a b c : Term} {w : Nat}

/-- Arithmetic that stays in its range is a step without errors. -/
@[simp] theorem liftM_fault_ok {α : Type} (x : α) :
    (liftM (Except.ok x : Except Fault α) : Except TraceError α) = .ok x := rfl

/-- Arithmetic that leaves its range is an error of the code. -/
@[simp] theorem liftM_fault_error {α : Type} (e : Fault) :
    (liftM (Except.error e : Except Fault α) : Except TraceError α) = .error (.code (.fault e)) :=
  rfl

/-- A success of arithmetic in a step is a success of the arithmetic. -/
theorem ok_of_liftM_fault {α : Type} {x : Except Fault α} {r : α}
    (h : (liftM x : Except TraceError α) = .ok r) : x = .ok r := by
  cases x with
  | ok y => exact congrArg Except.ok (Except.ok.inj h)
  | error e => contradiction

-- ============================================================= literals

/-- A truth value as a bitvector stands for one or zero. -/
theorem eval_ofBool {p : Bool} (hw : 0 < w) (hc : c.eval ρ = some (.bool p)) :
    ∃ t, Term.ofBool w c = .ok t ∧ t.eval ρ = some (.bits w (BitVec.ofNat w p.toNat)) := by
  obtain ⟨t, ht, hte⟩ := Term.eval_literal (ρ := ρ) (m := 1) hw (by decide)
  obtain ⟨u, hu, hue⟩ := Term.eval_literal (ρ := ρ) (m := 0) hw (by decide)
  refine ⟨Term.ite c t u, ?_, ?_⟩
  · rw [Term.ofBool, ht, hu]
    rfl
  · rw [Term.eval_ite_bits hc hte hue]
    cases p <;> rfl

-- ============================================================= overflow

/-- Zeros in front keep the unsigned number. -/
theorem eval_zeroExtend_one {X : BitVec w} (ha : a.eval ρ = some (.bits w X)) :
    (Term.zeroExtend 1 a).eval ρ = some (.bits (w + 1) (BitVec.ofInt (w + 1) X.toNat)) := by
  rw [Term.eval_zeroExtend ha, BitVec.ofInt_natCast, BitVec.ofNat_toNat]

/-- Copies of the sign bit in front keep the signed number. -/
theorem eval_signExtend_one {X : BitVec w} (ha : a.eval ρ = some (.bits w X)) :
    (Term.signExtend 1 a).eval ρ = some (.bits (w + 1) (BitVec.ofInt (w + 1) X.toInt)) := by
  rw [Term.eval_signExtend ha]
  rfl

/-- A symbol that computes with integers, applied to two bitvectors and a
carry, computes with the integers that they were made from. -/
theorem eval_wide {name : String} {f : Int → Int → Int} {v : Nat} {m n k : Int}
    (hname : name ≠ "concat")
    (hf : ∀ m n, Smt.pairCall name (BitVec.ofInt v m) (BitVec.ofInt v n)
      = some (.bits v (BitVec.ofInt v (f m n))))
    (ha : a.eval ρ = some (.bits v (BitVec.ofInt v m)))
    (hb : b.eval ρ = some (.bits v (BitVec.ofInt v n)))
    (hc : c.eval ρ = some (.bits v (BitVec.ofInt v k))) :
    (Term.binary name (Term.binary name a b) c).eval ρ
      = some (.bits v (BitVec.ofInt v (f (f m n) k))) := by
  have hab := Term.eval_binary hname ha hb
  rw [hf] at hab
  rw [Term.eval_binary hname hab hc, hf]

/-- The symbol for sums computes with integers. -/
theorem pairCall_bvadd (v : Nat) (m n : Int) :
    Smt.pairCall "bvadd" (BitVec.ofInt v m) (BitVec.ofInt v n)
      = some (.bits v (BitVec.ofInt v (m + n))) := by
  rw [BitVec.ofInt_add]
  rfl

/-- The symbol for differences computes with integers. -/
theorem pairCall_bvsub (v : Nat) (m n : Int) :
    Smt.pairCall "bvsub" (BitVec.ofInt v m) (BitVec.ofInt v n)
      = some (.bits v (BitVec.ofInt v (m - n))) := by
  rw [Bits.ofInt_sub]
  rfl

/-- The unsigned overflow is the extra bit. -/
theorem overflowTerm_unsigned {name : String} {k : Term} (hfit : w + 1 < Width.limit)
    (hk : Term.ofBool (w + 1) c = .ok k) :
    overflowTerm name false w a b c = .ok (Term.testBit w
      (Term.binary name (Term.binary name (Term.zeroExtend 1 a) (Term.zeroExtend 1 b)) k)) := by
  simp [overflowTerm, Width.add, inRange, hfit, hk]

/-- The signed overflow is the difference of the two top bits. -/
theorem overflowTerm_signed {name : String} {k : Term} (hw : 0 < w) (hfit : w + 1 < Width.limit)
    (hk : Term.ofBool (w + 1) c = .ok k) {r : Term}
    (hr : r = Term.binary name (Term.binary name (Term.signExtend 1 a) (Term.signExtend 1 b)) k) :
    overflowTerm name true w a b c
      = .ok (Term.distinct (Term.bitAt w r) (Term.bitAt (w - 1) r)) := by
  subst hr
  simp [overflowTerm, Width.add, Width.sub, inRange, hfit, hk, show 1 ≤ w from hw]

/-- With no room for one more bit, there is no overflow predicate. -/
theorem overflowTerm_of_not_fit {name : String} {signed : Bool}
    (hfit : ¬ w + 1 < Width.limit) : overflowTerm name signed w a b c = .error .overflow := by
  simp [overflowTerm, Width.add, inRange, hfit]

/-- The unsigned overflow of a symbol whose exact results one more bit holds. -/
theorem eval_overflowTerm_unsigned {name : String} {f : Int → Int → Int} {X Y : BitVec w}
    {p : Bool} (hname : name ≠ "concat")
    (hf : ∀ m n, Smt.pairCall name (BitVec.ofInt (w + 1) m) (BitVec.ofInt (w + 1) n)
      = some (.bits (w + 1) (BitVec.ofInt (w + 1) (f m n))))
    (hfit : w + 1 < Width.limit)
    (hlo : -(2 : Int) ^ w ≤ f (f X.toNat Y.toNat) p.toNat)
    (hhi : f (f X.toNat Y.toNat) p.toNat < (2 : Int) ^ (w + 1))
    (ha : a.eval ρ = some (.bits w X)) (hb : b.eval ρ = some (.bits w Y))
    (hc : c.eval ρ = some (.bool p)) :
    ∃ t, overflowTerm name false w a b c = .ok t
      ∧ t.eval ρ = some (.bool (Bits.leavesUnsigned w (f (f X.toNat Y.toNat) p.toNat))) := by
  obtain ⟨k, hk, hke⟩ := eval_ofBool (w := w + 1) (by omega) hc
  rw [← BitVec.ofInt_natCast] at hke
  have hr := eval_wide hname hf (eval_zeroExtend_one ha) (eval_zeroExtend_one hb) hke
  refine ⟨_, overflowTerm_unsigned hfit hk, ?_⟩
  rw [Term.eval_testBit (by omega) hr, Bits.getLsbD_ofInt_top hlo hhi]

/-- The signed overflow of a symbol whose exact results one more bit holds. -/
theorem eval_overflowTerm_signed {name : String} {f : Int → Int → Int} {X Y : BitVec w}
    {p : Bool} (hname : name ≠ "concat")
    (hf : ∀ m n, Smt.pairCall name (BitVec.ofInt (w + 1) m) (BitVec.ofInt (w + 1) n)
      = some (.bits (w + 1) (BitVec.ofInt (w + 1) (f m n))))
    (hw : 0 < w) (hfit : w + 1 < Width.limit)
    (hlo : -(2 : Int) ^ w ≤ f (f X.toInt Y.toInt) p.toNat)
    (hhi : f (f X.toInt Y.toInt) p.toNat < (2 : Int) ^ w)
    (ha : a.eval ρ = some (.bits w X)) (hb : b.eval ρ = some (.bits w Y))
    (hc : c.eval ρ = some (.bool p)) :
    ∃ t, overflowTerm name true w a b c = .ok t
      ∧ t.eval ρ = some (.bool (Bits.leavesSigned w (f (f X.toInt Y.toInt) p.toNat))) := by
  obtain ⟨k, hk, hke⟩ := eval_ofBool (w := w + 1) (by omega) hc
  rw [← BitVec.ofInt_natCast] at hke
  have hr := eval_wide hname hf (eval_signExtend_one ha) (eval_signExtend_one hb) hke
  refine ⟨_, overflowTerm_signed hw hfit hk rfl, ?_⟩
  have htop := Term.eval_bitAt (i := w) (by omega) hr
  have hnext := Term.eval_bitAt (i := w - 1) (by omega) hr
  rw [Term.eval_distinct htop hnext, ← Bits.ofInt_tops_differ hw hlo hhi]
  cases (BitVec.ofInt (w + 1) (f (f X.toInt Y.toInt) p.toNat)).getLsbD w <;>
    cases (BitVec.ofInt (w + 1) (f (f X.toInt Y.toInt) p.toNat)).getLsbD (w - 1) <;> rfl

-- ============================================================ operators

/-- The term for an operator on two truth values. -/
theorem eval_logicTerm {op : LogicOp} {p q : Bool} (ha : a.eval ρ = some (.bool p))
    (hb : b.eval ρ = some (.bool q)) :
    (logicTerm op a b).eval ρ = some (.bool (op.value p q)) := by
  cases op with
  | and => exact Term.eval_bools ha hb
  | or => exact Term.eval_bools ha hb
  | xor => exact Term.eval_bools ha hb

/-- The term for an operator on two bitvectors, where it has a result. -/
theorem eval_binaryTerm {op : BinaryOp} {X Y : BitVec w} (hw : 0 < w)
    (ht : op.traps X Y = false) (ha : a.eval ρ = some (.bits w X))
    (hb : b.eval ρ = some (.bits w Y)) :
    (binaryTerm op a b).eval ρ = some (op.value X Y) := by
  cases op with
  | udiv =>
      have hy : Y ≠ 0#w := by simpa [BinaryOp.traps] using ht
      rw [binaryTerm, binarySymbol?]
      show (Term.binary "bvudiv" a b).eval ρ = _
      rw [Term.eval_binary (by decide) ha hb]
      show some (Datum.bits w (X.smtUDiv Y)) = _
      rw [BitVec.smtUDiv_eq, if_neg hy]
      rfl
  | sdiv =>
      have hy : Y ≠ 0#w := by
        intro h
        simp [BinaryOp.traps, h] at ht
      show (Term.binary "bvsdiv" a b).eval ρ = _
      rw [Term.eval_binary (by decide) ha hb]
      show some (Datum.bits w (X.smtSDiv Y)) = _
      rw [Bits.smtSDiv_eq_sdiv X hy, Bits.sdiv_eq_ofInt]
      rfl
  | srem =>
      show (Term.binary "bvsrem" a b).eval ρ = _
      rw [Term.eval_binary (by decide) ha hb]
      show some (Datum.bits w (X.srem Y)) = _
      rw [Bits.srem_eq_ofInt]
      rfl
  | testBit =>
      show (Term.testBit 0 (Term.binary "bvlshr" a b)).eval ρ = _
      have hs : (Term.binary "bvlshr" a b).eval ρ = some (.bits w (X >>> Y.toNat)) :=
        Term.eval_binary (by decide) ha hb
      rw [Term.eval_testBit hw hs, BitVec.getLsbD_ushiftRight, Nat.add_zero]
      rfl
  | add | sub | mul | urem | ult | ule | slt | sle | and | or | xor | shl | shr | sar =>
      exact Term.eval_binary (by decide) ha hb

/-- The term for an operator on one bitvector. A width beyond all literals has
no index of its own. -/
theorem eval_unaryTerm {op : UnaryOp} {X : BitVec (op.operandWidth w)} (hw : 0 < w)
    (h8 : op = .reverseBytes → 8 ∣ w) (hl : op.halves = true → 2 * w < Width.limit)
    (hscan : op = .scanForward → w < valueCount magnitudeBits) (hrev : op ≠ .scanReverse)
    (ha : a.eval ρ = some (.bits (op.operandWidth w) X)) :
    ∃ t, unaryTerm op w a = .ok t ∧ t.eval ρ = some (.bits w (op.value w X)) := by
  cases op with
  | upperHalf =>
      have h2 : 2 * w < Width.limit := hl rfl
      change BitVec (2 * w) at X
      change a.eval ρ = some (.bits (2 * w) X) at ha
      refine ⟨Smt.Term.app (.extract (2 * w - 1) w) [a], ?_, ?_⟩
      · simp [unaryTerm, Width.mul, Width.sub, inRange, h2, Term.extract,
          show 1 ≤ 2 * w by omega, show w ≤ 2 * w - 1 by omega]
      · rw [Term.eval_extract (by omega) (by omega) ha]
        refine congrArg some (Datum.bits_congr_getLsbD (by omega) fun i hi => ?_)
        show _ = (X.extractLsb' w w).getLsbD i
        rw [BitVec.getLsbD_extractLsb, BitVec.getLsbD_extractLsb',
          show 2 * w - 1 - w + 1 = w by omega]
  | lowerHalf =>
      change BitVec (2 * w) at X
      change a.eval ρ = some (.bits (2 * w) X) at ha
      refine ⟨Smt.Term.app (.extract (w - 1) 0) [a], ?_, ?_⟩
      · simp [unaryTerm, Width.sub, inRange, Term.extract, show 1 ≤ w from hw]
      · rw [Term.eval_extract (by omega) (by omega) ha]
        refine congrArg some (Datum.bits_congr_getLsbD (by omega) fun i hi => ?_)
        show _ = (X.extractLsb' 0 w).getLsbD i
        rw [BitVec.getLsbD_extractLsb, BitVec.getLsbD_extractLsb', show w - 1 - 0 + 1 = w by omega]
  | complement => exact ⟨_, rfl, Term.eval_complement ha⟩
  | popCount => exact eval_popCountTerm hw ha
  | reverseBytes => exact ⟨_, rfl, eval_reverseBytesTerm hw (h8 rfl) ha⟩
  | scanForward =>
      have hlim := hscan rfl
      obtain ⟨o, ho, hoe⟩ := Term.eval_literal (ρ := ρ) (m := w) hw hlim
      refine ⟨_, by rw [unaryTerm, ho]; rfl, ?_⟩
      exact eval_scanTerm hlim (fun i hi => List.mem_range.1 hi) ha hoe
  | scanReverse => exact absurd rfl hrev

/-- The term for an operator on two bitvectors and a carry. An overflow
predicate needs room for one more bit. -/
theorem eval_carryTerm {op : CarryOp} {X Y : BitVec w} {p : Bool} (hw : 0 < w)
    (hfit : op.isTest = true → w + 1 < Width.limit) (ha : a.eval ρ = some (.bits w X))
    (hb : b.eval ρ = some (.bits w Y)) (hc : c.eval ρ = some (.bool p)) :
    ∃ t, carryTerm op w a b c = .ok t ∧ t.eval ρ = some (op.value X Y p) := by
  have hXn := X.isLt
  have hYn := Y.isLt
  have hXlo := BitVec.le_two_mul_toInt (x := X)
  have hYlo := BitVec.le_two_mul_toInt (x := Y)
  have hXhi := BitVec.two_mul_toInt_lt (x := X)
  have hYhi := BitVec.two_mul_toInt_lt (x := Y)
  have hp : p.toNat ≤ 1 := Bool.toNat_le p
  have hpow : 2 ^ (w + 1) = 2 ^ w * 2 := Nat.pow_succ 2 w
  have heven : 2 ^ w = 2 ^ (w - 1) * 2 := by
    rw [← Nat.pow_succ, Nat.succ_eq_add_one, Nat.sub_add_cancel hw]
  rw [Bits.intCast_two_pow] at hXlo hYlo hXhi hYhi
  cases op with
  | adc =>
      obtain ⟨k, hk, hke⟩ := eval_ofBool hw hc
      have hab := Term.eval_binary (f := "bvadd") (by decide) ha hb
      refine ⟨_, by rw [carryTerm, hk]; rfl, ?_⟩
      exact Term.eval_binary (by decide) hab hke
  | sbb =>
      obtain ⟨k, hk, hke⟩ := eval_ofBool hw hc
      have hab := Term.eval_binary (f := "bvsub") (by decide) ha hb
      refine ⟨_, by rw [carryTerm, hk]; rfl, ?_⟩
      exact Term.eval_binary (by decide) hab hke
  | uadcOverflows =>
      refine eval_overflowTerm_unsigned (by decide) (pairCall_bvadd _) (hfit rfl) ?_ ?_ ha hb hc
      · rw [Bits.intCast_two_pow]; omega
      · rw [Bits.intCast_two_pow]; omega
  | sadcOverflows =>
      refine eval_overflowTerm_signed (by decide) (pairCall_bvadd _) hw (hfit rfl) ?_ ?_ ha hb hc
      · rw [Bits.intCast_two_pow]; omega
      · rw [Bits.intCast_two_pow]; omega
  | usbbOverflows =>
      refine eval_overflowTerm_unsigned (by decide) (pairCall_bvsub _) (hfit rfl) ?_ ?_ ha hb hc
      · rw [Bits.intCast_two_pow]; omega
      · rw [Bits.intCast_two_pow]; omega
  | ssbbOverflows =>
      refine eval_overflowTerm_signed (by decide) (pairCall_bvsub _) hw (hfit rfl) ?_ ?_ ha hb hc
      · rw [Bits.intCast_two_pow]; omega
      · rw [Bits.intCast_two_pow]; omega

/-- The term for a bitvector brought to another width. -/
theorem eval_resizeTerm {op : ResizeOp} {v : Nat} {X : BitVec v} (hw : 0 < w)
    (hr : App.ResizeOp.relates op v w = true) (ha : a.eval ρ = some (.bits v X)) :
    ∃ t, resizeTerm op a v w = .ok t ∧ t.eval ρ = some (.bits w (op.value w X)) := by
  cases op with
  | truncate =>
      have hvw : w < v := of_decide_eq_true hr
      refine ⟨Smt.Term.app (.extract (w - 1) 0) [a], ?_, ?_⟩
      · simp [resizeTerm, Width.sub, inRange, Term.extract, show 1 ≤ w from hw]
      · rw [Term.eval_extract (by omega) (by omega) ha]
        refine congrArg some (Datum.bits_congr_getLsbD (by omega) fun i hi => ?_)
        show _ = (X.setWidth w).getLsbD i
        rw [BitVec.getLsbD_extractLsb, BitVec.getLsbD_setWidth, show w - 1 - 0 + 1 = w by omega,
          Nat.zero_add]
  | signExtend =>
      have hvw : v < w := of_decide_eq_true hr
      refine ⟨Term.signExtend (w - v) a, ?_, ?_⟩
      · simp [resizeTerm, Width.sub, inRange, Nat.le_of_lt hvw]
      · rw [Term.eval_signExtend ha, show v + (w - v) = w by omega]
        rfl
  | zeroExtend =>
      have hvw : v < w := of_decide_eq_true hr
      refine ⟨Term.zeroExtend (w - v) a, ?_, ?_⟩
      · simp [resizeTerm, Width.sub, inRange, Nat.le_of_lt hvw]
      · rw [Term.eval_zeroExtend ha, show v + (w - v) = w by omega]
        rfl

/-- The term for the bits of a truth value at another type. -/
theorem eval_bitcastTerm_of_bool {t : Ty} {p : Bool} (ht : t.width? = some 1)
    (ha : a.eval ρ = some (.bool p)) :
    ∃ u, bitcastTerm a .bool t = .ok u
      ∧ u.eval ρ = some (Datum.ofFlat t (BitVec.ofBool p)) := by
  by_cases hb : t = .bool
  · subst hb
    refine ⟨a, rfl, ?_⟩
    rw [ha]
    cases p <;> rfl
  · obtain ⟨u, hu, hue⟩ := eval_ofBool (w := 1) (by decide) ha
    refine ⟨u, ?_, ?_⟩
    · rw [← hu]
      cases t with
      | bool => exact absurd rfl hb
      | bits | float | tuple | vector => rfl
    · rw [hue, Datum.ofFlat_of_ne _ hb]
      cases p <;> rfl

/-- The term for the bits of a bitvector at another type. -/
theorem eval_bitcastTerm_of_bits {s t : Ty} {X : BitVec w} (hw : 0 < w) (hs : s ≠ .bool)
    (ha : a.eval ρ = some (.bits w X)) :
    ∃ u, bitcastTerm a s t = .ok u ∧ u.eval ρ = some (Datum.ofFlat t X) := by
  by_cases hb : t = .bool
  · subst hb
    refine ⟨Term.testBit 0 a, ?_, Term.eval_testBit hw ha⟩
    cases s with
    | bool => exact absurd rfl hs
    | bits | float | tuple | vector => rfl
  · refine ⟨a, ?_, ?_⟩
    · cases s with
      | bool => exact absurd rfl hs
      | bits | float | tuple | vector =>
          cases t with
          | bool => exact absurd rfl hb
          | bits | float | tuple | vector => rfl
    · rw [ha, Datum.ofFlat_of_ne _ hb]

/-- The choice between two values of a type with a sort. -/
theorem eval_ite_of_sort {s : Ty} {sort : TermSort} {p : Bool} {d e : Datum}
    (hs : sortOf s = some sort) (hd : s.admits d = true) (he : s.admits e = true)
    (ha : a.eval ρ = some (.bool p)) (hb : b.eval ρ = some d) (hc : c.eval ρ = some e) :
    (Term.ite a b c).eval ρ = some (if p then d else e) := by
  by_cases hbool : s = .bool
  · subst hbool
    obtain ⟨q, rfl⟩ := Ty.eq_bool_of_admits hd
    obtain ⟨q', rfl⟩ := Ty.eq_bool_of_admits he
    rw [Term.eval_ite_bool ha hb hc]
    cases p <;> rfl
  · obtain ⟨w, hw⟩ : ∃ w, s.width? = some w := by
      cases s with
      | bool => exact absurd rfl hbool
      | bits | float => exact ⟨_, rfl⟩
      | tuple => simp [sortOf, Ty.width?] at hs
      | vector =>
          obtain ⟨w, hw, -⟩ := Option.map_eq_some_iff.1 hs
          exact ⟨w, hw⟩
    obtain ⟨x, rfl⟩ := Ty.eq_bits_of_admits hd hbool hw
    obtain ⟨y, rfl⟩ := Ty.eq_bits_of_admits he hbool hw
    rw [Term.eval_ite_bits ha hb hc]
    cases p <;> rfl

end Trace

-- =========================================================== operations

namespace App

variable {ν : Type}

/-- Whether an operation has a term: it is not on floating-point numbers, and
neither a tuple nor the choice of a value without a sort. -/
def hasTerm : App ν → Bool
  | mux t _ _ _ => (Trace.sortOf t).isSome
  | field _ _ _ => false
  | a => !a.isFloat

/-- An operation with a term is not on floating-point numbers. -/
theorem isFloat_of_hasTerm {app : App ν} (h : app.hasTerm = true) : app.isFloat = false := by
  cases app with
  | floatUnary | floatBinary | floatConvert | floatOfSigned | signedOfFloat => contradiction
  | _ => rfl

/-- Whether an operation looks for a set bit. -/
def isScan : App ν → Bool
  | unary .scanForward _ _ | unary .scanReverse _ _ => true
  | _ => false

/-- Whether the widths that the encoding computes are 32-bit numbers: that of a
chosen value, and one more than the width of an overflow predicate. -/
def encodingFits : App ν → Bool
  | mux t _ _ _ => t.widthFits
  | carry op w _ _ _ => !op.isTest || w + 1 < Width.limit
  | _ => true

end App

namespace Trace

open Smt (Term Env)

variable {ν : Type} {ρ : Env} {look : ν → Except TraceError Term} {den : ν → Datum} {app : App ν}

/-- The term is made of those that `look` gives for the operands, in the way that goes
with the operation. -/
inductive Encodes (look : ν → Except TraceError Term) : App ν → Term → Prop where
  | eq {a b : ν} {t u : Term} (ha : look a = .ok t) (hb : look b = .ok u) :
      Encodes look (.eq a b) (Term.eq t u)
  | mux {s : Ty} {σ : Smt.TermSort} {c a b : ν} {k t u : Term} (hs : checkedSortOf s = .ok (some σ))
      (hc : look c = .ok k) (ha : look a = .ok t) (hb : look b = .ok u) :
      Encodes look (.mux s c a b) (Term.ite k t u)
  | logic {op : LogicOp} {a b : ν} {t u : Term} (ha : look a = .ok t) (hb : look b = .ok u) :
      Encodes look (.logic op a b) (logicTerm op t u)
  | not {a : ν} {t : Term} (ha : look a = .ok t) : Encodes look (.not a) (Term.not t)
  | resize {op : ResizeOp} {a : ν} {v w : Nat} {t r : Term} (ha : look a = .ok t)
      (hr : resizeTerm op t v w = .ok r) : Encodes look (.resize op a v w) r
  | bitcast {a : ν} {s s' : Ty} {t r : Term} (ha : look a = .ok t)
      (hr : bitcastTerm t s s' = .ok r) : Encodes look (.bitcast a s s') r
  | concat {m l : Nat} {a b : ν} {t u : Term} (ha : look a = .ok t) (hb : look b = .ok u) :
      Encodes look (.concat m l a b) (Term.concat t u)
  | evenParity {a : ν} {t : Term} (ha : look a = .ok t) :
      Encodes look (.evenParity a) (evenParityTerm t)
  | unary {op : UnaryOp} {w : Nat} {a : ν} {t r : Term} (ha : look a = .ok t)
      (hr : unaryTerm op w t = .ok r) : Encodes look (.unary op w a) r
  | binary {op : BinaryOp} {w : Nat} {a b : ν} {t u : Term} (ha : look a = .ok t)
      (hb : look b = .ok u) : Encodes look (.binary op w a b) (binaryTerm op t u)
  | carry {op : CarryOp} {w : Nat} {a b c : ν} {t u k r : Term} (ha : look a = .ok t)
      (hb : look b = .ok u) (hc : look c = .ok k) (hr : carryTerm op w t u k = .ok r) :
      Encodes look (.carry op w a b c) r

theorem encodes_of_appTerm {t : Term} (h : appTerm look app = .ok (some t)) :
    Encodes look app t := by
  cases app with
  | mux s c a b =>
      obtain ⟨σ, hs, h⟩ := ok_of_bind h
      cases σ with
      | none => exact nomatch Except.ok.inj h
      | some σ =>
          obtain ⟨k, hk, h⟩ := ok_of_bind h
          obtain ⟨t, ht, h⟩ := ok_of_bind h
          obtain ⟨u, hu, h⟩ := ok_of_bind h
          cases h
          exact .mux (ok_of_liftM_fault hs) hk ht hu
  | eq | logic | concat | binary =>
      obtain ⟨t, ht, h⟩ := ok_of_bind h
      obtain ⟨u, hu, h⟩ := ok_of_bind h
      cases h
      constructor <;> assumption
  | carry op w a b c =>
      obtain ⟨t, ht, h⟩ := ok_of_bind h
      obtain ⟨u, hu, h⟩ := ok_of_bind h
      obtain ⟨k, hk, h⟩ := ok_of_bind h
      obtain ⟨r, hr, h⟩ := ok_of_bind h
      cases h
      exact .carry ht hu hk (ok_of_liftM_fault hr)
  | not | evenParity =>
      obtain ⟨t, ht, h⟩ := ok_of_bind h
      cases h
      constructor
      exact ht
  | resize | bitcast | unary =>
      obtain ⟨t, ht, h⟩ := ok_of_bind h
      obtain ⟨r, hr, h⟩ := ok_of_bind h
      cases h
      constructor
      · exact ht
      · exact ok_of_liftM_fault hr
  | field | floatUnary | floatBinary | floatConvert | floatOfSigned | signedOfFloat =>
      exact nomatch Except.ok.inj h

/-- The operations that have a term, and what their terms are made of. -/
theorem appTerm_eq_some_iff {t : Term} : appTerm look app = .ok (some t) ↔ Encodes look app t := by
  refine ⟨encodes_of_appTerm, fun h => ?_⟩
  cases h <;> simp [appTerm, *]

/-- An operation on data of its form has a term, which stands for what the
operation gives. -/
theorem appTerm_of_suits (hs : app.Suits den) (hterm : app.hasTerm = true)
    (hfit : app.encodingFits = true)
    (hscan : ∀ w x, app = .unary .scanForward w x → w < valueCount magnitudeBits)
    (hrev : ∀ w x, app ≠ .unary .scanReverse w x)
    (hlook : ∀ v ∈ app.operands, ∃ t, look v = .ok t ∧ t.eval ρ = some (den v))
    {r : Datum} (hr : app.eval (fun v => .ok (den v)) = .ok r) :
    ∃ t, appTerm look app = .ok (some t) ∧ t.eval ρ = some r := by
  cases app with
  | eq a b =>
      obtain ⟨t, ht, hte⟩ := hlook a (by simp [App.operands])
      obtain ⟨u, hu, hue⟩ := hlook b (by simp [App.operands])
      refine ⟨Term.eq t u, appTerm_eq_some_iff.2 (.eq ht hu), ?_⟩
      rcases hs with ⟨p, q, ha, hb⟩ | ⟨w, x, y, ha, hb⟩
      · rw [ha] at hte
        rw [hb] at hue
        obtain rfl : .bool (p == q) = r := by simpa [App.eval, ha, hb] using hr
        exact Term.eval_bools hte hue
      · rw [ha] at hte
        rw [hb] at hue
        obtain rfl : .bool (x == y) = r := by simpa [App.eval, ha, hb] using hr
        exact Term.eval_binary (by decide) hte hue
  | mux s c a b =>
      obtain ⟨⟨p, hc⟩, ha, hb⟩ := hs
      obtain ⟨k, hk, hke⟩ := hlook c (by simp [App.operands])
      obtain ⟨t, ht, hte⟩ := hlook a (by simp [App.operands])
      obtain ⟨u, hu, hue⟩ := hlook b (by simp [App.operands])
      obtain ⟨σ, hσ⟩ := Option.isSome_iff_exists.1 hterm
      have hsort : checkedSortOf s = .ok (some σ) := by
        rw [checkedSortOf, inRange, if_pos (show s.widthFits = true from hfit), hσ]
      refine ⟨Term.ite k t u, appTerm_eq_some_iff.2 (.mux hsort hk ht hu), ?_⟩
      obtain rfl : (if p then den a else den b) = r := by simpa [App.eval, hc] using hr
      exact eval_ite_of_sort hσ ha hb (hc ▸ hke) hte hue
  | logic op a b =>
      obtain ⟨p, q, ha, hb⟩ := hs
      obtain ⟨t, ht, hte⟩ := hlook a (by simp [App.operands])
      obtain ⟨u, hu, hue⟩ := hlook b (by simp [App.operands])
      refine ⟨logicTerm op t u, appTerm_eq_some_iff.2 (.logic ht hu), ?_⟩
      obtain rfl : .bool (op.value p q) = r := by simpa [App.eval, ha, hb] using hr
      exact eval_logicTerm (ha ▸ hte) (hb ▸ hue)
  | not a =>
      obtain ⟨p, ha⟩ := hs
      obtain ⟨t, ht, hte⟩ := hlook a (by simp [App.operands])
      refine ⟨Term.not t, appTerm_eq_some_iff.2 (.not ht), ?_⟩
      obtain rfl : .bool (!p) = r := by simpa [App.eval, ha] using hr
      exact Term.eval_not (ha ▸ hte)
  | resize op a v w =>
      obtain ⟨-, hw, hrel, x, ha⟩ := hs
      obtain ⟨t, ht, hte⟩ := hlook a (by simp [App.operands])
      obtain ⟨u, hu, hue⟩ := eval_resizeTerm hw hrel (ha ▸ hte)
      refine ⟨u, appTerm_eq_some_iff.2 (.resize ht hu), ?_⟩
      obtain rfl : .bits w (op.value w x) = r := by simpa [App.eval, ha] using hr
      exact hue
  | bitcast a s u =>
      obtain ⟨w, hw, hsw, huw, hform⟩ := hs
      obtain ⟨t, ht, hte⟩ := hlook a (by simp [App.operands])
      rcases hform with ⟨rfl, p, ha⟩ | ⟨hs, x, ha⟩
      · obtain rfl : 1 = w := Option.some.inj hsw
        obtain ⟨k, hk, hke⟩ := eval_bitcastTerm_of_bool huw (ha ▸ hte)
        refine ⟨k, appTerm_eq_some_iff.2 (.bitcast ht hk), ?_⟩
        obtain rfl : Datum.ofFlat u (BitVec.ofBool p) = r := by
          simpa [App.eval, ha, Datum.reread] using hr
        exact hke
      · obtain ⟨k, hk, hke⟩ := eval_bitcastTerm_of_bits (t := u) hw hs (ha ▸ hte)
        refine ⟨k, appTerm_eq_some_iff.2 (.bitcast ht hk), ?_⟩
        obtain rfl : Datum.ofFlat u x = r := by simpa [App.eval, ha, Datum.reread] using hr
        exact hke
  | concat h l a b =>
      obtain ⟨-, -, ⟨x, ha⟩, y, hb⟩ := hs
      obtain ⟨t, ht, hte⟩ := hlook a (by simp [App.operands])
      obtain ⟨u, hu, hue⟩ := hlook b (by simp [App.operands])
      refine ⟨Term.concat t u, appTerm_eq_some_iff.2 (.concat ht hu), ?_⟩
      obtain rfl : .bits (h + l) (x ++ y) = r := by simpa [App.eval, ha, hb] using hr
      exact Term.eval_concat (ha ▸ hte) (hb ▸ hue)
  | evenParity a =>
      obtain ⟨x, ha⟩ := hs
      obtain ⟨t, ht, hte⟩ := hlook a (by simp [App.operands])
      refine ⟨evenParityTerm t, appTerm_eq_some_iff.2 (.evenParity ht), ?_⟩
      obtain rfl : .bool (Bits.countSet x % 2 = 0) = r := by simpa [App.eval, ha] using hr
      exact eval_evenParityTerm (ha ▸ hte)
  | unary op w a =>
      obtain ⟨hw, h8, hl, x, ha⟩ := hs
      obtain ⟨t, ht, hte⟩ := hlook a (by simp [App.operands])
      obtain ⟨u, hu, hue⟩ := eval_unaryTerm hw h8 hl (fun e => hscan w a (e ▸ rfl))
        (fun e => hrev w a (e ▸ rfl)) (ha ▸ hte)
      refine ⟨u, appTerm_eq_some_iff.2 (.unary ht hu), ?_⟩
      obtain rfl : .bits w (op.value w x) = r := by simpa [App.eval, ha] using hr
      exact hue
  | binary op w a b =>
      obtain ⟨hw, x, y, ha, hb⟩ := hs
      obtain ⟨t, ht, hte⟩ := hlook a (by simp [App.operands])
      obtain ⟨u, hu, hue⟩ := hlook b (by simp [App.operands])
      refine ⟨binaryTerm op t u, appTerm_eq_some_iff.2 (.binary ht hu), ?_⟩
      have hev : (if op.traps x y then .error Stop.trap else .ok (op.value x y)) = Except.ok r := by
        simpa [App.eval, ha, hb] using hr
      split at hev
      case isTrue => contradiction
      case isFalse htrap =>
        cases hev
        exact eval_binaryTerm hw (by simpa using htrap) (ha ▸ hte) (hb ▸ hue)
  | carry op w a b c =>
      obtain ⟨hw, x, y, p, ha, hb, hc⟩ := hs
      obtain ⟨t, ht, hte⟩ := hlook a (by simp [App.operands])
      obtain ⟨u, hu, hue⟩ := hlook b (by simp [App.operands])
      obtain ⟨k, hk, hke⟩ := hlook c (by simp [App.operands])
      have hroom : op.isTest = true → w + 1 < Width.limit := by
        intro h
        simpa [App.encodingFits, h] using hfit
      obtain ⟨v, hv, hve⟩ := eval_carryTerm hw hroom (ha ▸ hte) (hb ▸ hue) (hc ▸ hke)
      refine ⟨v, appTerm_eq_some_iff.2 (.carry ht hu hk hv), ?_⟩
      obtain rfl : op.value x y p = r := by simpa [App.eval, ha, hb, hc] using hr
      exact hve
  | field | floatUnary | floatBinary | floatConvert | floatOfSigned | signedOfFloat =>
      exact absurd hterm (by simp [App.hasTerm, App.isFloat])

/-- An operation with terms for its operands, but with a width beyond 32 bits,
is an error. -/
theorem appTerm_of_not_fit (hfit : app.encodingFits = false)
    (hlook : ∀ v ∈ app.operands, ∃ t, look v = .ok t) :
    appTerm look app = .error (.code (.fault .overflow)) := by
  cases app with
  | mux s c a b =>
      have hs : s.widthFits = false := hfit
      simp [appTerm, checkedSortOf, inRange, hs]
  | carry op w a b c =>
      obtain ⟨t, ht⟩ := hlook a (by simp [App.operands])
      obtain ⟨u, hu⟩ := hlook b (by simp [App.operands])
      obtain ⟨k, hk⟩ := hlook c (by simp [App.operands])
      simp only [App.encodingFits, Bool.or_eq_false_iff, Bool.not_eq_false',
        decide_eq_false_iff_not] at hfit
      obtain ⟨htest, hw⟩ := hfit
      have hv : carryTerm op w t u k = .error .overflow := by
        cases op with
        | adc | sbb => contradiction
        | uadcOverflows | sadcOverflows | usbbOverflows | ssbbOverflows =>
            exact overflowTerm_of_not_fit hw
      simp [appTerm, ht, hu, hk, hv]
  | eq | logic | not | resize | bitcast | field | concat | evenParity | unary | binary
  | floatUnary | floatBinary | floatConvert | floatOfSigned | signedOfFloat => contradiction

/-- What a success with a term was made from: the operation has terms, and so
has every operand. -/
theorem of_appTerm {t : Term} (h : appTerm look app = .ok (some t)) :
    app.hasTerm = true ∧ ∀ v ∈ app.operands, ∃ u, look v = .ok u := by
  cases encodes_of_appTerm h with
  | mux hs hc ha hb =>
      refine ⟨?_, by simp [App.operands, hc, ha, hb]⟩
      obtain ⟨-, hs⟩ := ok_of_inRange hs
      simp [App.hasTerm, ← hs]
  | eq ha hb | logic ha hb | concat ha hb | binary ha hb =>
      exact ⟨rfl, by simp [App.operands, ha, hb]⟩
  | carry ha hb hc => exact ⟨rfl, by simp [App.operands, ha, hb, hc]⟩
  | not ha | evenParity ha | resize ha | bitcast ha | unary ha =>
      exact ⟨rfl, by simp [App.operands, ha]⟩

/-- The encoding of operations is exact. An operation that passes the check and
has a term, on data of its operands' types for which it does not trap, gives a
datum, and its term stands for that datum whenever the terms of the operands
stand for theirs; no more can go wrong than a width beyond 32 bits. -/
theorem appTerm_exact {app : App Value} {look : Value → Except TraceError Term}
    {den : Value → Datum} (hcheck : app.check = .ok ()) (hterm : app.hasTerm = true)
    (hscan : app.isScan = false) (hty : ∀ v ∈ app.operands, v.ty.admits (den v) = true)
    (htrap : app.eval (fun v => .ok (den v)) ≠ .error .trap)
    (hlook : ∀ v ∈ app.operands, ∃ t, look v = .ok t ∧ t.eval ρ = some (den v)) :
    ∃ r, app.eval (fun v => .ok (den v)) = .ok r
      ∧ if app.encodingFits then ∃ t, appTerm look app = .ok (some t) ∧ t.eval ρ = some r
        else appTerm look app = .error (.code (.fault .overflow)) := by
  have hs := App.suits_of_typed (App.typed_of_check hcheck) hty
  obtain ⟨r, hr, -⟩ := hs.eval (App.isFloat_of_hasTerm hterm) htrap
  refine ⟨r, hr, ?_⟩
  split
  case isTrue hfit =>
    refine appTerm_of_suits hs hterm hfit ?_ ?_ hlook hr
    · rintro w x rfl
      contradiction
    · rintro w x rfl
      contradiction
  case isFalse hfit =>
    refine appTerm_of_not_fit (by simpa using hfit) fun v hv => ?_
    obtain ⟨t, ht, -⟩ := hlook v hv
    exact ⟨t, ht⟩

/-- Three and zero with a carry leave the signed range of three bits. -/
theorem appTerm_exact_three_bits :
    ∃ t, appTerm (valueTerm ∅ ∅)
        (.carry .sadcOverflows 3 (.bits ⟨3, 3, by decide, by decide, by decide⟩)
          (.bits ⟨3, 0, by decide, by decide, by decide⟩) (.bool true)) = .ok (some t)
      ∧ t.eval (fun _ => none) = some (.bool true) := by
  obtain ⟨r, hr, h⟩ := @appTerm_exact (fun _ => none)
    (.carry .sadcOverflows 3 (.bits ⟨3, 3, by decide, by decide, by decide⟩)
      (.bits ⟨3, 0, by decide, by decide, by decide⟩) (.bool true))
    (valueTerm ∅ ∅)
    (fun
      | .bits l => .bits l.width (BitVec.ofNat l.width l.magnitude)
      | .bool b => .bool b
      | _ => .tuple [])
    rfl rfl rfl
    (by simp [App.operands, Value.ty, Ty.admits]) (by simp [App.eval])
    (by simp [App.operands, valueTerm])
  obtain rfl : .bool true = r := Except.ok.inj hr
  exact h

end Trace

end LiftedCode
