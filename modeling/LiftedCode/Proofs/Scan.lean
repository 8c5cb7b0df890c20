/-
Bit scans. A scan gives the place of the set bit that is nearest to one end of
its operand, and a fixed number if no bit is set: the width for a scan from the
low end, all ones for one from the high end. The verification term finds the
place by a chain of choices (`eval_scanTerm`), the lowered code by counting the
zeros in front of it (`gives_scanForward`, `gives_scanReverse`).

Both are the documented scan for all data of all widths, but for one number. The
chain of choices from the high end stops at a literal, and literals are made
from 128-bit numbers: the ones that stand for "no bit is set" do not reach
beyond bit 127 (`Smt.Term.eval_ones`, `scanGap`).
-/
import LiftedCode.Proofs.Literal
import LiftedCode.Proofs.Lowering.Operation
import LiftedCode.Proofs.Trace.Encoding

namespace LiftedCode

namespace UnaryOp

/-- Whether the operator looks for a set bit. -/
def isScan : UnaryOp → Bool
  | scanForward | scanReverse => true
  | _ => false

/-- Whether a scan from the high end has no bit to find in an operand with more
bits than a magnitude. -/
def scanGap {v : Nat} (op : UnaryOp) (x : BitVec v) : Prop :=
  op = .scanReverse ∧ x = 0#v ∧ magnitudeBits < v

instance {v : Nat} (op : UnaryOp) (x : BitVec v) : Decidable (op.scanGap x) :=
  inferInstanceAs (Decidable (_ ∧ _ ∧ _))

end UnaryOp

-- ================================================================ terms

namespace Trace

open Smt (Term Env)

variable {ρ : Env} {x : Term} {w : Nat}

/-- Up to the width of a magnitude, the largest one is all ones. -/
theorem ofNat_largestMagnitude (hw : w ≤ magnitudeBits) :
    BitVec.ofNat w (largestMagnitude magnitudeBits) = BitVec.allOnes w := by
  apply BitVec.eq_of_toNat_eq
  rw [toNat_ofNat_largestMagnitude, BitVec.toNat_allOnes]
  exact largestMagnitude_eq_iff.2 hw

/-- The term for a scan from the high end. -/
theorem eval_scanReverse {X : BitVec w} (hw : 0 < w) (hlimit : w < valueCount magnitudeBits)
    (hx : x.eval ρ = some (.bits w X)) :
    ∃ t, unaryTerm .scanReverse w x = .ok t
      ∧ t.eval ρ = some (.bits w (match Bits.highestSet? X with
        | some i => BitVec.ofNat w i
        | none => BitVec.ofNat w (largestMagnitude magnitudeBits))) := by
  obtain ⟨o, ho, hoe⟩ := Term.eval_ones (ρ := ρ) hw
  refine ⟨scanTerm w x o (List.range w).reverse, by rw [unaryTerm, ho]; rfl, ?_⟩
  exact eval_scanTerm hlimit (fun i hi => List.mem_range.1 (List.mem_reverse.1 hi)) hx hoe

/-- The term for a scan stands for the documented number, except in the gap. -/
theorem eval_scan {op : UnaryOp} {X : BitVec (op.operandWidth w)} (hop : op.isScan = true)
    (hw : 0 < w) (hlimit : w < valueCount magnitudeBits)
    (hx : x.eval ρ = some (.bits (op.operandWidth w) X)) :
    ∃ t, unaryTerm op w x = .ok t
      ∧ t.eval ρ = some (.bits w (if op.scanGap X
        then BitVec.ofNat w (largestMagnitude magnitudeBits) else op.value w X)) := by
  cases op with
  | scanForward =>
      obtain ⟨t, ht, hte⟩ : ∃ t, unaryTerm .scanForward w x = .ok t
          ∧ t.eval ρ = some (.bits w (UnaryOp.scanForward.value w X)) :=
        eval_unaryTerm hw nofun nofun (fun _ => hlimit) nofun hx
      refine ⟨t, ht, ?_⟩
      rw [hte, if_neg (by simp [UnaryOp.scanGap])]
  | scanReverse =>
      change BitVec w at X
      obtain ⟨t, ht, hte⟩ := eval_scanReverse hw hlimit hx
      refine ⟨t, ht, ?_⟩
      rw [hte, UnaryOp.value_scanReverse, Bits.highestSet?_eq]
      by_cases hX : X = 0#w
      · simp only [if_pos hX]
        by_cases hwide : magnitudeBits < w
        · rw [if_pos ⟨rfl, hX, hwide⟩]
        · rw [if_neg fun h => hwide h.2.2, ofNat_largestMagnitude (Nat.le_of_not_lt hwide)]
      · simp only [if_neg hX]
        rw [if_neg fun h => hX h.2.1]
  | upperHalf | lowerHalf | complement | popCount | reverseBytes => contradiction

end Trace

-- ========================================================= both backends

namespace Lowering

open Llvm (Frame Linkage)

/-- A scan of a value that is known gives the documented number. It is refused
only for the declarations that it asks for. -/
theorem gives_scan {link : Linkage} {env : Env} {s : State} {ρ : Frame} {op : UnaryOp} {w : Nat}
    {a : Value} {X : BitVec (op.operandWidth w)} (hop : op.isScan = true)
    (ht : (App.unary op w a).Typed Value.ty) (hundef : env.target.options.allowUndefined = false)
    (ha : Known link env s ρ a (.bits (op.operandWidth w) X)) :
    Gives link (· ∈ appDeclarations (.unary op w a)) False (app env (.unary op w a)) s ρ (.int w)
      (.bits w (op.value w X)) := by
  obtain ⟨hw, h8, hhalf, hty⟩ := ht
  refine gives_unaryApp hw h8 hhalf hundef ⟨ha, by rw [hty]; rfl, ?_⟩ ?_ ?_
  · rintro f rfl
    exact List.mem_append_left _ (List.mem_filterMap.2 ⟨_, List.mem_cons_self, rfl⟩)
  · intro b hb
    exact List.mem_append_right _ (List.mem_map.2 ⟨b, hb, rfl⟩)
  · intro hwide
    cases op with
    | scanForward | scanReverse => exact hwide
    | upperHalf | lowerHalf | complement | popCount | reverseBytes => contradiction

end Lowering

/-- Scans give the documented number, in verification terms as in lowered code
where undefined behaviour is not allowed, for all data of all widths that pass
the check. Only the term for a scan from the high end differs, and only for zero
with more bits than a magnitude: it gives the largest magnitude. -/
theorem scans_exact {op : UnaryOp} {w : Nat} {a : Value} {X : BitVec (op.operandWidth w)}
    (hop : op.isScan = true) (hcheck : (App.unary op w a).check = .ok ())
    (hwidth : w < Width.limit) :
    (∀ (ρ : Smt.Env) (look : Value → Except Trace.TraceError Smt.Term) x, look a = .ok x →
      x.eval ρ = some (.bits (op.operandWidth w) X) →
      ∃ t, Trace.appTerm look (.unary op w a) = .ok (some t)
        ∧ t.eval ρ = some (.bits w (if op.scanGap X
          then BitVec.ofNat w (largestMagnitude magnitudeBits) else op.value w X)))
    ∧ ∀ (link : Llvm.Linkage) (env : Lowering.Env) (s : Lowering.State) (ρ : Llvm.Frame),
      env.target.options.allowUndefined = false →
      Lowering.Known link env s ρ a (.bits (op.operandWidth w) X) →
      Lowering.Gives link (· ∈ Lowering.appDeclarations (.unary op w a)) False
        (Lowering.app env (.unary op w a)) s ρ (.int w) (.bits w (op.value w X)) := by
  have ht := App.typed_of_check hcheck
  constructor
  · intro ρ look x hlook hx
    have hlimit : w < valueCount magnitudeBits := Nat.lt_trans hwidth (by decide)
    obtain ⟨t, hterm, hte⟩ := Trace.eval_scan hop ht.1 hlimit hx
    exact ⟨t, by simp [Trace.appTerm, hlook, hterm], hte⟩
  · intro link env s ρ hundef ha
    exact Lowering.gives_scan hop ht hundef ha

/-- The result of an assignment of 256 bits that leaves them open. -/
def wideValue : Value := .assigned ⟨0, .undefined (.bits 256), .bits 256⟩

/-- The number that the wide value happens to be: 2^200 + 1. -/
def wideNumber : BitVec 256 := BitVec.ofNat 256 (2 ^ 200 + 1)

/-- The wide value was declared as a local of the trace. -/
def wideBindings : Trace.Bindings := Dict.insert ∅ 0 (.term (.var "x0"))

/-- The wide value was bound to the first argument of the lowered code. -/
def wideState : Lowering.State := ⟨0, ∅, Dict.insert ∅ 0 ⟨.int 256, .reg (.arg 0)⟩, #[], #[]⟩

/-- The local of the trace is the number. -/
def wideEnv : Smt.Env
  | "x0" => some (.bits 256 wideNumber)
  | _ => none

/-- The argument of the lowered code is the number. -/
def wideFrame : Llvm.Frame
  | .arg 0 => some (.bits 256 wideNumber)
  | _ => none

/-- The highest set bit of a value that happens to be 2^200 + 1 is found at place
200, by the term and by the lowered code. -/
theorem scans_exact_wide :
    (∃ t, Trace.appTerm (Trace.valueTerm ∅ wideBindings) (.unary .scanReverse 256 wideValue)
        = .ok (some t)
      ∧ t.eval wideEnv = some (.bits 256 200#256))
    ∧ ∃ x s' ρ', Succeeds (Lowering.app default (.unary .scanReverse 256 wideValue)) wideState x s'
      ∧ Llvm.run Lowering.noLinkage wideFrame s'.instrs.toList = some ρ'
      ∧ x.eval Lowering.noLinkage ρ' = some (.bits 256 200#256) := by
  have hvalue : UnaryOp.scanReverse.value 256 wideNumber = 200#256 := by
    decide +kernel
  obtain ⟨hterm, hlowered⟩ :=
    @scans_exact .scanReverse 256 wideValue wideNumber rfl rfl (by decide)
  constructor
  · obtain ⟨t, ht, hte⟩ := hterm wideEnv (Trace.valueTerm ∅ wideBindings) _ rfl rfl
    refine ⟨t, ht, ?_⟩
    have hne : wideNumber ≠ 0#256 := by decide
    rw [hte, if_neg fun h => hne h.2.1, hvalue]
  · have hknown : Lowering.Known Lowering.noLinkage default wideState wideFrame wideValue
        (.bits 256 wideNumber) := ⟨_, rfl, rfl, rfl, by simp⟩
    obtain ⟨ρ', hf, hx⟩ := (hlowered Lowering.noLinkage default wideState wideFrame rfl
      hknown).of_succeeds rfl
    obtain ⟨is, his, hrun⟩ := hf.ran
    refine ⟨_, _, ρ', rfl, ?_, ?_⟩
    · rw [his]
      exact hrun
    · rw [hx.eval, hvalue]

/-- Zero with 256 bits. -/
def wideZero : Value := .bits ⟨256, 0, by decide, by decide, valueCount_pos _⟩

/-- The term for the scan of 256 zeros from the high end has zeros above bit
127, where the documented scan has ones. -/
theorem scanReverse_wide_zero :
    (App.unary .scanReverse 256 wideZero).check = .ok ()
    ∧ ∃ t, Trace.appTerm (Trace.valueTerm ∅ ∅) (.unary .scanReverse 256 wideZero) = .ok (some t)
      ∧ t.eval (fun _ => none) = some (.bits 256 (BitVec.ofNat 256 (2 ^ 128 - 1)))
      ∧ UnaryOp.scanReverse.value 256 0#256 = BitVec.allOnes 256
      ∧ BitVec.ofNat 256 (2 ^ 128 - 1) ≠ BitVec.allOnes 256 := by
  refine ⟨rfl, ?_⟩
  obtain ⟨t, ht, hte⟩ := @Trace.eval_scan (fun _ => none) (.bits 256 0) 256 .scanReverse 0#256 rfl
    (by decide) (by decide) rfl
  refine ⟨t, by simp [Trace.appTerm, wideZero, Trace.valueTerm, ht], ?_, ?_, by decide⟩
  · rw [hte, if_pos ⟨rfl, rfl, by decide⟩]
    rfl
  · rw [UnaryOp.value_scanReverse, Bits.highestSet?_eq]
    rfl

end LiftedCode
