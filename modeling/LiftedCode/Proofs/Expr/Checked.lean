/-
What the checks of assignments and writes promise. Accesses to memory are at
addresses that are bitvectors, with values of the layout's type. A value that is
made of assignments that passed their checks (`Value.Within`) has a type without
parts of zero width (`nonempty_ty`), as every check either asks for one or finds
it in an operand that the result takes its type from (`Rhs.sources`).
-/
import LiftedCode.Proofs.Meaning.Operation
import LiftedCode.Stmt

namespace LiftedCode

/-- A value that another is made of. -/
inductive Value.Within : Value → Value → Prop where
  | self (v : Value) : Within v v
  | operand {u v : Value} {a : Assignment Value} (hv : v ∈ a.rhs.operands) (h : Within u v) :
    Within u (.assigned a)

/-- What a value is made of is made of what that is made of. -/
theorem Value.Within.trans {u v w : Value} (huv : u.Within v) (hvw : v.Within w) : u.Within w := by
  induction hvw with
  | self => exact huv
  | operand hv _ ih => exact .operand hv ih

/-- An assignment is made of itself and of what its operands are made of. -/
theorem Value.within_assigned {u : Value} {a : Assignment Value} :
    u.Within (.assigned a) ↔ u = .assigned a ∨ ∃ v ∈ a.rhs.operands, u.Within v := by
  constructor
  · intro h
    cases h with
    | self => exact .inl rfl
    | operand hv h => exact .inr ⟨_, hv, h⟩
  · rintro (rfl | ⟨v, hv, h⟩)
    · exact .self _
    · exact .operand hv h

/-- What is no assignment is made of itself alone. -/
theorem Value.within_of_leaf {u v : Value} (hv : v.assignment? = none) : u.Within v ↔ u = v := by
  constructor
  · intro h
    cases h with
    | self => rfl
    | operand => contradiction
  · rintro rfl
    exact .self u

-- =============================================================== memory

/-- The type that was computed for a layout is that of its values. -/
theorem Layout.of_checkedTy {l : Layout} {t : Ty} (h : l.checkedTy = .ok t) : l.ty = t :=
  (ok_of_inRange h).2.symm

/-- A checked read is from an address. -/
theorem Rhs.of_check_read {addr : Value} {l : Layout} (h : (Rhs.read addr l).check = .ok ()) :
    ∃ w, addr.ty = .bits w := by
  obtain ⟨t, -, h⟩ := ok_of_bind h
  obtain ⟨_, -, h⟩ := ok_of_bind h
  obtain ⟨w, hw, -⟩ := ok_of_bind h
  exact ⟨w, App.eq_of_expectBits hw⟩

/-- A checked read under a condition has a default of the layout's type. -/
theorem Rhs.of_check_readIf {cond addr d : Value} {l : Layout}
    (h : (Rhs.readIf l cond addr d).check = .ok ()) :
    cond.ty = .bool ∧ (∃ w, addr.ty = .bits w) ∧ d.ty = l.ty := by
  obtain ⟨t, ht, h⟩ := ok_of_bind h
  obtain ⟨_, -, h⟩ := ok_of_bind h
  obtain ⟨_, hcond, h⟩ := ok_of_bind h
  obtain ⟨w, hw, hd⟩ := ok_of_bind h
  rw [Layout.of_checkedTy (ok_of_mapError ht)]
  exact ⟨App.eq_of_expectTy hcond, ⟨w, App.eq_of_expectBits hw⟩, App.eq_of_expectTy hd⟩

/-- A checked write is to an address, of a value of the layout's type. -/
theorem Stmt.of_ofWrite {addr v : Value} {l : Layout} {c : Stmt}
    (h : Stmt.ofWrite addr l v = .ok c) : (∃ w, addr.ty = .bits w) ∧ v.ty = l.ty := by
  obtain ⟨w, hw, h⟩ := ok_of_bind h
  obtain ⟨t, ht, h⟩ := ok_of_bind h
  obtain ⟨_, hv, -⟩ := ok_of_bind h
  rw [Layout.of_checkedTy (ok_of_mapError ht)]
  exact ⟨⟨w, App.eq_of_expectBits hw⟩, App.eq_of_expectTy hv⟩

/-- A checked conditional write is to an address, of a value of the layout's
type. -/
theorem Stmt.of_ofWriteIf {cond addr v : Value} {l : Layout} {c : Stmt}
    (h : Stmt.ofWriteIf cond addr l v = .ok c) :
    cond.ty = .bool ∧ (∃ w, addr.ty = .bits w) ∧ v.ty = l.ty := by
  obtain ⟨_, hcond, h⟩ := ok_of_bind h
  obtain ⟨w, hw, h⟩ := ok_of_bind h
  obtain ⟨t, ht, h⟩ := ok_of_bind h
  obtain ⟨_, hv, -⟩ := ok_of_bind h
  rw [Layout.of_checkedTy (ok_of_mapError ht)]
  exact ⟨App.eq_of_expectTy hcond, ⟨w, App.eq_of_expectBits hw⟩, App.eq_of_expectTy hv⟩

-- ============================================================= nonempty

namespace Ty

/-- A field of a tuple without parts of zero width has none. -/
theorem nonempty_of_mem {ts : List Ty} (h : allNonempty ts = true) {t : Ty} (ht : t ∈ ts) :
    t.nonempty = true := by
  induction ts with
  | nil => exact absurd ht List.not_mem_nil
  | cons u ts ih =>
      rw [allNonempty, Bool.and_eq_true] at h
      rcases List.mem_cons.1 ht with rfl | ht
      · exact h.1
      · exact ih h.2 ht

/-- A type has a width other than zero only if it has no part of zero width. -/
theorem nonempty_of_width : (t : Ty) → {w : Nat} → t.width? = some w → 0 < w → t.nonempty = true
  | .bool, _, _, _ => rfl
  | .float _, _, _, _ => rfl
  | .bits w, v, h, hv => by
    cases h
    simpa [nonempty] using Nat.ne_of_gt hv
  | .tuple _, _, h, _ => by contradiction
  | .vector n t, w, h, hw => by
    obtain ⟨v, hv, rfl⟩ := Option.map_eq_some_iff.1 h
    have hn : 0 < n := Nat.pos_of_mul_pos_right hw
    have ht := nonempty_of_width t hv (Nat.pos_of_mul_pos_left hw)
    simp [nonempty, ht, Nat.ne_of_gt hn]

/-- A type without parts of zero width has no width of zero. -/
theorem width_pos : (t : Ty) → {w : Nat} → t.nonempty = true → t.width? = some w → 0 < w
  | .bool, _, _, h => by cases h; decide
  | .float f, _, _, h => by
    cases h
    cases f <;> decide
  | .bits w, _, hn, h => by
    cases h
    simpa [nonempty, Nat.pos_iff_ne_zero] using hn
  | .tuple _, _, _, h => by contradiction
  | .vector n t, w, hn, h => by
    obtain ⟨v, hv, rfl⟩ := Option.map_eq_some_iff.1 h
    obtain ⟨h0, ht⟩ : n ≠ 0 ∧ t.nonempty = true := by simpa [nonempty] using hn
    exact Nat.mul_pos (Nat.pos_of_ne_zero h0) (width_pos t ht hv)

end Ty

/-- What was asked for has no part of zero width. -/
theorem of_expectNonempty {site : Site} {t : Ty} (h : expectNonempty site t = .ok ()) :
    t.nonempty = true := by
  unfold expectNonempty at h
  split at h
  case isTrue hn => exact hn
  case isFalse => contradiction

/-- The operands that the result takes its type from, or a part of it, without
another check: the arms of a choice, and the tuple of a field. -/
def App.sources {ν : Type} : App ν → List ν
  | mux _ _ a b => [a, b]
  | field _ a _ => [a]
  | _ => []

/-- The operands that the result takes its type from. -/
def Rhs.sources {ν : Type} : Rhs ν → List ν
  | app a => a.sources
  | _ => []

theorem Rhs.mem_operands_of_mem_sources {ν : Type} {r : Rhs ν} {v : ν} (h : v ∈ r.sources) :
    v ∈ r.operands := by
  cases r with
  | app a =>
      cases a with
      | mux => exact List.mem_cons_of_mem _ h
      | field => exact h
      | eq | logic | not | resize | bitcast | concat | evenParity | unary | binary | carry
      | floatUnary | floatBinary | floatConvert | floatOfSigned | signedOfFloat => contradiction
  | undefined | read | readIf | machine => contradiction

/-- A checked operation has a result without parts of zero width, unless it
takes one over from an operand. -/
theorem App.nonempty_ty {app : App Value} {t : Ty} (hcheck : app.check = .ok ())
    (ht : app.ty = .ok t) (hsrc : ∀ v ∈ app.sources, v.ty.nonempty = true) :
    t.nonempty = true := by
  have hbits : ∀ w, 0 < w → (Ty.bits w).nonempty = true := fun w hw => by
    simpa [Ty.nonempty] using Nat.ne_of_gt hw
  have htyped := App.typed_of_check hcheck
  cases app with
  | eq | logic | not | evenParity =>
      cases ht
      rfl
  | mux t c a b =>
      cases ht
      obtain ⟨-, ha, -⟩ := htyped
      exact ha ▸ hsrc a List.mem_cons_self
  | resize op a v w =>
      cases ht
      exact hbits w htyped.2.1
  | bitcast a s u =>
      cases ht
      obtain ⟨w, hw, -, -, hu⟩ := htyped
      exact Ty.nonempty_of_width t hu hw
  | field ts a i =>
      obtain ⟨ha, hi⟩ := htyped
      have htuple : (Ty.tuple ts).nonempty = true := ha ▸ hsrc a List.mem_cons_self
      rw [App.ty, List.getElem?_eq_getElem hi] at ht
      cases ht
      exact Ty.nonempty_of_mem htuple (List.getElem_mem hi)
  | concat m l a b =>
      obtain ⟨hm, -⟩ := htyped
      obtain ⟨n, hn, rfl⟩ := ok_of_map ht
      obtain rfl := of_add hn
      exact hbits _ (Nat.add_pos_left hm l)
  | unary op w a =>
      cases ht
      exact hbits w htyped.1
  | binary op w a b =>
      cases ht
      cases op.isTest with
      | true => rfl
      | false => exact hbits w htyped.1
  | carry op w a b c =>
      cases ht
      cases op.isTest with
      | true => rfl
      | false => exact hbits w htyped.1
  | floatUnary op | floatBinary op =>
      cases ht
      cases op.isTest <;> rfl
  | floatConvert | floatOfSigned =>
      cases ht
      rfl
  | signedOfFloat f a w =>
      cases ht
      obtain ⟨_, hw, -⟩ := ok_of_bind hcheck
      exact hbits w (of_positiveBits hw).1

/-- A checked right-hand side has a result without parts of zero width, unless
it takes one over from an operand. -/
theorem Rhs.nonempty_ty {r : Rhs Value} {t : Ty} (hcheck : r.check = .ok ()) (ht : r.ty = .ok t)
    (hsrc : ∀ v ∈ r.sources, v.ty.nonempty = true) : t.nonempty = true := by
  cases r with
  | app f => exact App.nonempty_ty hcheck ht hsrc
  | undefined u =>
      cases ht
      exact of_expectNonempty hcheck
  | read a l =>
      obtain ⟨u, hu, hcheck⟩ := ok_of_bind hcheck
      obtain ⟨_, hn, -⟩ := ok_of_bind hcheck
      cases ht.symm.trans (ok_of_mapError hu)
      exact of_expectNonempty hn
  | readIf l c a d =>
      obtain ⟨u, hu, hcheck⟩ := ok_of_bind hcheck
      obtain ⟨_, hn, -⟩ := ok_of_bind hcheck
      cases ht.symm.trans (ok_of_mapError hu)
      exact of_expectNonempty hn
  | machine f =>
      obtain ⟨u, hu, hcheck⟩ := ok_of_bind hcheck
      cases ht.symm.trans (ok_of_mapError hu)
      exact of_expectNonempty hcheck

/-- A value has no part of zero width if the assignments that it is made of
passed their checks, and what else it is made of has none. -/
theorem Value.nonempty_ty : (v : Value) →
    (∀ a, (Value.assigned a).Within v → Assignment.make a.id a.rhs = .ok a) →
    (∀ u : Value, u.Within v → u.assignment? = none → u.ty.nonempty = true) →
    v.ty.nonempty = true
  | .assigned a, hmade, hleaf => by
    obtain ⟨hcheck, hty⟩ := Assignment.of_make (hmade a (.self _))
    refine Rhs.nonempty_ty hcheck hty fun u hsrc => ?_
    have hu := Rhs.mem_operands_of_mem_sources hsrc
    exact nonempty_ty u (fun c hc => hmade c (.operand hu hc))
      fun w hw => hleaf w (.operand hu hw)
  | .bits _, _, hleaf | .bool _, _, hleaf | .initial _, _, hleaf | .phi _, _, hleaf
  | .returned _, _, hleaf | .arg _ _, _, hleaf | .entry _, _, hleaf => hleaf _ (.self _) rfl
termination_by v => sizeOf v
decreasing_by
  have hlt := Assignment.sizeOf_lt_of_mem_operands hu
  simp only [Value.assigned.sizeOf_spec]
  omega

end LiftedCode
