/-
The variables of encodings. The term for an operation has no variables but
those of the terms for its operands (`appTerm_over`), however often it repeats
them, and neither has the term for a machine function (`machineFnTerm_over`).
-/
import LiftedCode.Proofs.Smt.Variables
import LiftedCode.Proofs.Trace.Encoding

namespace LiftedCode.Trace

open Smt (Term)

variable {known : String → Prop} {a b c t : Term}

-- ====================================================== terms from terms

theorem over_of_ofBool {w : Nat} (h : Term.ofBool w c = .ok t) (hc : c.Over known) :
    t.Over known := by
  obtain ⟨one, hone, h⟩ := ok_of_bind h
  obtain ⟨zero, hzero, h⟩ := ok_of_bind h
  cases h
  exact Term.over_ite.2 ⟨hc, Term.over_of_literal hone, Term.over_of_literal hzero⟩

theorem over_of_popCountTerm {w : Nat} (h : popCountTerm w a = .ok t) (ha : a.Over known) :
    t.Over known := by
  unfold popCountTerm at h
  dsimp only at h
  split at h
  case h_1 u hu =>
    cases h
    refine of_reduceTerms (fun _ _ hx hy => Term.over_binary.2 ⟨hx, hy⟩) ?_ hu
    simp only [List.mem_map, forall_exists_index, and_imp]
    rintro _ i - rfl
    split <;> simpa using ha
  case h_2 => exact Term.over_of_literal h

theorem over_reverseBytesTerm {w : Nat} (ha : a.Over known) :
    (reverseBytesTerm w a).Over known := by
  unfold reverseBytesTerm
  cases h : reduceTerms Term.concat ((List.range (w / 8)).map (Term.byteAt · a)) with
  | none => exact ha
  | some t =>
      refine of_reduceTerms (fun _ _ hx hy => Term.over_concat.2 ⟨hx, hy⟩) ?_ h
      simp only [List.mem_map, forall_exists_index, and_imp]
      rintro _ i - rfl
      exact Term.over_byteAt.2 ha

theorem over_scanTerm {w : Nat} {l : List Nat} (ha : a.Over known) (hb : b.Over known) :
    (scanTerm w a b l).Over known := by
  refine List.foldrRecOn l _ hb fun rest hrest i _ => ?_
  simp [ha, hrest]

theorem over_evenParityTerm (ha : a.Over known) : (evenParityTerm a).Over known := by
  have hparity : ((List.range 7).foldl
      (fun acc i => Term.binary "bvxor" acc (Term.bitAt (i + 1) a)) (Term.bitAt 0 a)).Over known :=
    List.foldlRecOn _ _ (Term.over_bitAt.2 ha) fun acc hacc i _ => by simp [ha, hacc]
  exact Term.over_eq.2 ⟨hparity, Term.over_bits 1 0⟩

theorem over_of_overflowTerm {name : String} {signed : Bool} {w : Nat}
    (h : overflowTerm name signed w a b c = .ok t) (ha : a.Over known) (hb : b.Over known)
    (hc : c.Over known) : t.Over known := by
  obtain ⟨v, -, h⟩ := ok_of_bind h
  obtain ⟨k, hk, h⟩ := ok_of_bind h
  have hk := over_of_ofBool hk hc
  cases signed with
  | false =>
      cases h
      simp [ha, hb, hk]
  | true =>
      obtain ⟨u, -, h⟩ := ok_of_bind h
      cases h
      simp [ha, hb, hk]

-- ============================================================== operators

theorem over_binaryTerm {op : BinaryOp} (ha : a.Over known) (hb : b.Over known) :
    (binaryTerm op a b).Over known := by
  unfold binaryTerm
  split <;> simp [ha, hb]

theorem over_logicTerm {op : LogicOp} (ha : a.Over known) (hb : b.Over known) :
    (logicTerm op a b).Over known := by
  cases op <;> simp [logicTerm, Term.and, Term.or, Term.xor, ha, hb]

theorem over_of_unaryTerm {op : UnaryOp} {w : Nat} (h : unaryTerm op w a = .ok t)
    (ha : a.Over known) : t.Over known := by
  cases op with
  | upperHalf =>
      obtain ⟨v, -, h⟩ := ok_of_bind h
      obtain ⟨u, -, h⟩ := ok_of_bind h
      exact Term.over_of_extract h ha
  | lowerHalf =>
      obtain ⟨v, -, h⟩ := ok_of_bind h
      exact Term.over_of_extract h ha
  | complement =>
      cases h
      exact Term.over_complement.2 ha
  | popCount => exact over_of_popCountTerm h ha
  | reverseBytes =>
      cases h
      exact over_reverseBytesTerm ha
  | scanForward | scanReverse =>
      obtain ⟨otherwise, hother, h⟩ := ok_of_bind h
      cases h
      exact over_scanTerm ha (Term.over_of_literal hother)

theorem over_of_carryTerm {op : CarryOp} {w : Nat} (h : carryTerm op w a b c = .ok t)
    (ha : a.Over known) (hb : b.Over known) (hc : c.Over known) : t.Over known := by
  cases op with
  | adc | sbb =>
      obtain ⟨k, hk, h⟩ := ok_of_bind h
      cases h
      simp [ha, hb, over_of_ofBool hk hc]
  | uadcOverflows | sadcOverflows | usbbOverflows | ssbbOverflows =>
      exact over_of_overflowTerm h ha hb hc

theorem over_of_resizeTerm {op : ResizeOp} {v w : Nat} (h : resizeTerm op a v w = .ok t)
    (ha : a.Over known) : t.Over known := by
  cases op with
  | truncate =>
      obtain ⟨n, -, h⟩ := ok_of_bind h
      exact Term.over_of_extract h ha
  | signExtend =>
      obtain ⟨n, -, h⟩ := ok_of_bind h
      cases h
      exact Term.over_signExtend.2 ha
  | zeroExtend =>
      obtain ⟨n, -, h⟩ := ok_of_bind h
      cases h
      exact Term.over_zeroExtend.2 ha

theorem over_of_bitcastTerm {t u : Ty} {r : Term} (h : bitcastTerm a t u = .ok r)
    (ha : a.Over known) : r.Over known := by
  unfold bitcastTerm at h
  split at h
  case h_1 | h_4 =>
    cases h
    exact ha
  case h_2 => exact over_of_ofBool h ha
  case h_3 =>
    cases h
    exact Term.over_testBit.2 ha

-- ============================================================= operations

section

variable {ν : Type} {look : ν → Except TraceError Term}

/-- The term for an operation has no variables but those of its operands'. -/
theorem appTerm_over {app : App ν} (h : appTerm look app = .ok (some t))
    (hlook : ∀ v u, look v = .ok u → u.Over known) : t.Over known := by
  cases encodes_of_appTerm h with
  | eq ha hb => exact Term.over_eq.2 ⟨hlook _ _ ha, hlook _ _ hb⟩
  | mux _ hc ha hb => exact Term.over_ite.2 ⟨hlook _ _ hc, hlook _ _ ha, hlook _ _ hb⟩
  | logic ha hb => exact over_logicTerm (hlook _ _ ha) (hlook _ _ hb)
  | not ha => exact Term.over_not.2 (hlook _ _ ha)
  | resize ha hr => exact over_of_resizeTerm hr (hlook _ _ ha)
  | bitcast ha hr => exact over_of_bitcastTerm hr (hlook _ _ ha)
  | concat ha hb => exact Term.over_concat.2 ⟨hlook _ _ ha, hlook _ _ hb⟩
  | evenParity ha => exact over_evenParityTerm (hlook _ _ ha)
  | unary ha hr => exact over_of_unaryTerm hr (hlook _ _ ha)
  | binary ha hb => exact over_binaryTerm (hlook _ _ ha) (hlook _ _ hb)
  | carry ha hb hc hr =>
      exact over_of_carryTerm hr (hlook _ _ ha) (hlook _ _ hb) (hlook _ _ hc)

/-- A machine function with a term is a shuffle of 16 bytes. -/
theorem of_machineFnTerm {f : MachineFn ν} (h : machineFnTerm look f = .ok (some t)) :
    ∃ src index a b, f = .shuffleBytes 16 src index ∧ look src = .ok a ∧ look index = .ok b
      ∧ t = Term.shuffle128 a b := by
  unfold machineFnTerm at h
  split at h
  case h_1 src index =>
    obtain ⟨a, ha, h⟩ := ok_of_bind h
    obtain ⟨b, hb, h⟩ := ok_of_bind h
    cases h
    exact ⟨src, index, a, b, rfl, ha, hb, rfl⟩
  case h_2 => exact nomatch Except.ok.inj h

/-- The term for a machine function has no variables but those of its
operands'. -/
theorem machineFnTerm_over {f : MachineFn ν} (h : machineFnTerm look f = .ok (some t))
    (hlook : ∀ v u, look v = .ok u → u.Over known) : t.Over known := by
  obtain ⟨src, index, a, b, rfl, ha, hb, rfl⟩ := of_machineFnTerm h
  exact Term.over_shuffle128 (hlook src a ha) (hlook index b hb)

end

end LiftedCode.Trace
