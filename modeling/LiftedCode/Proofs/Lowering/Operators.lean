/-
How operators are lowered: the instructions for an operator, executed on
operands that stand for numbers, give an operand that stands for the result.

- Operators that the target language has are emitted as they are
  (`gives_plain`, `gives_comparison`).
- Shifts and tests of bits are guarded, as the target language leaves them open
  from the width on (`gives_shift`, `gives_shiftSigned`, `gives_testBit`). The
  guard takes the arm that is not poison (`gives_guarded`), and the path without
  a guard is taken only for literals below the width (`toNat_lt_of_literal`).
- Bytes are reversed in pairs, so an odd number of them gets another one first
  (`gives_reverseBytes`).
- Scans count the zeros at one end (`gives_scanForward`, `gives_scanReverse`).
-/
import LiftedCode.Lowering.App
import LiftedCode.Proofs.Lowering.Step
import LiftedCode.Proofs.Meaning.Operation
import LiftedCode.Proofs.Width

namespace LiftedCode.Lowering

open Llvm (Typed BinaryOperator IntPredicate CastOperator Declaration Data Frame Linkage Builtin)

variable {link : Linkage} {wanted : Declaration → Prop} {tooWide : Prop} {env : Env}
  {s s' : State} {ρ ρ' : Frame} {w : Nat}

-- ============================================================== operands

section

variable (link wanted env)

/-- A value that can be used as an operand: it is known, and if it is a known
function, its declaration may be asked for. -/
structure Usable (s : State) (ρ : Frame) (v : Value) (t : Llvm.Ty) (d : Data) : Prop where
  known : Known link env s ρ v d
  ty : .ofTy v.ty = t
  declared : ∀ f, v = .entry f → wanted (.ofFunction f.name f.signature)

end

/-- A usable value stays usable. -/
theorem Usable.mono {v : Value} {t : Llvm.Ty} {d : Data} (h : Usable link wanted env s ρ v t d)
    (hf : Follows link wanted s ρ s' ρ') : Usable link wanted env s' ρ' v t d :=
  ⟨h.known.mono hf, h.ty, h.declared⟩

/-- A usable value has an operand that stands for it. -/
theorem Usable.gives {v : Value} {t : Llvm.Ty} {d : Data} (h : Usable link wanted env s ρ v t d) :
    Gives link wanted tooWide (value env v) s ρ t d := by
  rw [← h.ty]
  exact gives_value h.known h.declared

section

variable {a b c : Value} {X Y : BitVec w} {d e : Data} {t u : Llvm.Ty}

/-- Two usable values have operands that stand for them. -/
theorem lowers_operands (ha : Usable link wanted env s ρ a t d)
    (hb : Usable link wanted env s ρ b u e) :
    Lowers link wanted tooWide (operands env a b) s ρ
      fun p s' ρ' => Stands link s' ρ' p.1 t d ∧ Stands link s' ρ' p.2 u e := by
  unfold operands
  apply ha.gives.bind
  intro x s₁ ρ₁ h₁ hx
  apply (hb.mono h₁).gives.bind
  intro y s₂ ρ₂ h₂ hy
  exact lowers_pure ⟨hx.mono h₂, hy⟩

-- ============================================== operators without a guard

/-- An operator of the target language gives what it is defined as. -/
theorem gives_plain {op : BinaryOperator} (ha : Usable link wanted env s ρ a (.int w) (.bits w X))
    (hb : Usable link wanted env s ρ b (.int w) (.bits w Y)) (h : op.value X Y = some d) :
    Gives link wanted tooWide (plain env op a b) s ρ (.int w) d := by
  unfold plain
  apply (lowers_operands ha hb).bind
  rintro ⟨x, y⟩ s₁ ρ₁ - ⟨hx, hy⟩
  exact gives_binary hx hy h

theorem gives_comparison {pred : IntPredicate}
    (ha : Usable link wanted env s ρ a (.int w) (.bits w X))
    (hb : Usable link wanted env s ρ b (.int w) (.bits w Y)) :
    Gives link wanted tooWide (comparison env pred a b) s ρ (.int 1)
      (.bits 1 (BitVec.ofBool (pred.value X Y))) := by
  unfold comparison
  apply (lowers_operands ha hb).bind
  rintro ⟨x, y⟩ s₁ ρ₁ - ⟨hx, hy⟩
  exact gives_compare hx hy

/-- A carry widened to a width is the number of that width. -/
theorem setWidth_ofBool (w : Nat) (p : Bool) :
    (BitVec.ofBool p).setWidth w = BitVec.ofNat w p.toNat := by
  apply BitVec.eq_of_toNat_eq
  rw [BitVec.toNat_setWidth, BitVec.toNat_ofBool, BitVec.toNat_ofNat]

/-- An operator followed by the same operator on the carry. -/
theorem gives_withCarry {op : BinaryOperator} {f : BitVec w → BitVec w → BitVec w} {p : Bool}
    (hop : ∀ X Y : BitVec w, op.value X Y = some (.bits w (f X Y))) (hw : 0 < w)
    (ha : Usable link wanted env s ρ a (.int w) (.bits w X))
    (hb : Usable link wanted env s ρ b (.int w) (.bits w Y))
    (hc : Usable link wanted env s ρ c (.int 1) (.bits 1 (BitVec.ofBool p))) :
    Gives link wanted tooWide (withCarry env op w a b c) s ρ (.int w)
      (.bits w (f (f X Y) (BitVec.ofNat w p.toNat))) := by
  unfold withCarry
  apply (lowers_operands ha hb).bind
  rintro ⟨x, y⟩ s₁ ρ₁ h₁ ⟨hx, hy⟩
  apply (gives_binary hx hy (hop X Y)).bind
  intro r s₂ ρ₂ h₂ hr
  apply ((hc.mono h₁).mono h₂).gives.bind
  intro z s₃ ρ₃ h₃ hz
  have hext : CastOperator.zext.eval (.int 1) (.int w) (.bits 1 (BitVec.ofBool p))
      = some (.bits w (BitVec.ofNat w p.toNat)) := by
    rw [← setWidth_ofBool w]
    exact CastOperator.eval_zext _ hw
  apply (gives_cast hz hext).bind
  intro z' s₄ ρ₄ h₄ hz'
  exact gives_binary ((hr.mono h₃).mono h₄) hz' (hop _ _)

-- ======================================================== guarded operators

/-- A literal below the width is known to stand for a number below it. -/
theorem toNat_lt_of_literal (hb : Usable link wanted env s ρ b t (.bits w Y))
    (hl : isLiteralBelow b w = true) : Y.toNat < w := by
  unfold isLiteralBelow at hl
  cases b with
  | bits l =>
      have hk : Data.bits w Y = .bits l.width (BitVec.ofNat l.width l.magnitude) := hb.known
      obtain ⟨rfl, hY⟩ := Data.bits.inj hk
      obtain rfl := eq_of_heq hY
      rw [BitVec.toNat_ofNat]
      exact Nat.lt_of_le_of_lt (Nat.mod_le _ _) (of_decide_eq_true hl)
  | bool | assigned | initial | phi | returned | arg | entry => contradiction

/-- A comparison with the width tells whether a number is below it. -/
theorem gives_belowWidth {y : Typed} (hy : Stands link s ρ y (.int w) (.bits w Y)) :
    Gives link wanted tooWide (Step.compare .ult y (.int w w)) s ρ (.int 1)
      (.bits 1 (BitVec.ofBool (decide (Y.toNat < w)))) := by
  have hlt : IntPredicate.ult.value Y (BitVec.ofNat w w) = decide (Y.toNat < w) := by
    rw [Llvm.IntPredicate.value_ult, BitVec.toNat_ofNat, Nat.mod_eq_of_lt Nat.lt_two_pow_self]
  rw [← hlt]
  exact gives_compare hy (stands_int w w)

/-- A guard chooses what is not poison. -/
theorem gives_guarded {ok x y : Typed} {n : Nat}
    (hok : Stands link s ρ ok (.int 1) (.bits 1 (BitVec.ofBool (decide (n < w)))))
    (hx : Stands link s ρ x t (if n < w then d else .poison)) (hy : Stands link s ρ y t e)
    (h : w ≤ n → e = d) : Gives link wanted tooWide (Step.select ok x y) s ρ t d := by
  have hd : (if decide (n < w) = true then (if n < w then d else .poison) else e) = d := by
    by_cases hlt : n < w
    · rw [if_pos (decide_eq_true hlt), if_pos hlt]
    · rw [if_neg (by simpa using hlt), h (Nat.le_of_not_lt hlt)]
  rw [← hd]
  exact gives_select hok hx hy

/-- A shift that brings in zeros: guarded or not, it gives what the exact shift
gives. -/
theorem gives_shift {op : BinaryOperator} {f : BitVec w → Nat → BitVec w}
    (hop : ∀ X Y : BitVec w,
      op.value X Y = some (if Y.toNat < w then .bits w (f X Y.toNat) else .poison))
    (hzero : ∀ n, w ≤ n → f X n = 0#w)
    (ha : Usable link wanted env s ρ a (.int w) (.bits w X))
    (hb : Usable link wanted env s ρ b (.int w) (.bits w Y)) :
    Gives link wanted tooWide (shift env op w a b) s ρ (.int w) (.bits w (f X Y.toNat)) := by
  unfold shift
  apply (lowers_operands ha hb).bind
  rintro ⟨x, y⟩ s₁ ρ₁ h₁ ⟨hx, hy⟩
  by_cases hl : isLiteralBelow b w = true
  · have hlt : Y.toNat < w := toNat_lt_of_literal hb hl
    simp only [if_pos hl]
    apply gives_binary hx hy
    rw [hop, if_pos hlt]
  · simp only [if_neg hl]
    apply (gives_belowWidth hy).bind
    intro ok s₂ ρ₂ h₂ hok
    apply (gives_binary (hx.mono h₂) (hy.mono h₂) (hop X Y)).bind
    intro r s₃ ρ₃ h₃ hr
    exact gives_guarded (hok.mono h₃) hr (stands_int w 0) fun hge => by rw [hzero _ hge]

theorem sub_one (hw : 0 < w) : Width.sub w 1 = .ok (w - 1) := by
  rw [Width.sub, decide_eq_true (Nat.succ_le_of_lt hw)]
  rfl

/-- A shift that brings in sign bits. -/
theorem gives_shiftSigned (hw : 0 < w)
    (ha : Usable link wanted env s ρ a (.int w) (.bits w X))
    (hb : Usable link wanted env s ρ b (.int w) (.bits w Y)) :
    Gives link wanted tooWide (shiftSigned env w a b) s ρ (.int w)
      (.bits w (X.sshiftRight Y.toNat)) := by
  unfold shiftSigned
  apply (lowers_operands ha hb).bind
  rintro ⟨x, y⟩ s₁ ρ₁ h₁ ⟨hx, hy⟩
  by_cases hl : isLiteralBelow b w = true
  · have hlt : Y.toNat < w := toNat_lt_of_literal hb hl
    simp only [if_pos hl]
    exact gives_binary hx hy (congrArg some (if_pos hlt))
  · simp only [if_neg hl]
    apply (gives_belowWidth hy).bind
    intro ok s₂ ρ₂ h₂ hok
    refine Lowers.bind (Q := fun n _ _ => n = w - 1) (lowers_ofFault (.inl ⟨_, sub_one hw, rfl⟩)) ?_
    rintro _ s₃ ρ₃ h₃ rfl
    apply (gives_select (hok.mono h₃) ((hy.mono h₂).mono h₃) (stands_int w (w - 1))).bind
    intro n s₄ ρ₄ h₄ hn
    have hx₄ := ((hx.mono h₂).mono h₃).mono h₄
    -- the amount is below the width in either arm
    by_cases hlt : Y.toNat < w
    · rw [if_pos (decide_eq_true hlt)] at hn
      exact gives_binary hx₄ hn (congrArg some (if_pos hlt))
    · rw [if_neg (by simpa using hlt)] at hn
      have hlt' : w - 1 < w := Nat.sub_lt hw Nat.one_pos
      apply gives_binary hx₄ hn
      rw [BinaryOperator.value, Llvm.toNat_ofNat_of_lt hlt', if_pos hlt',
        Bits.sshiftRight_of_le X (Nat.le_of_not_lt hlt)]

/-- The bit of a shifted number that comes out first. -/
theorem setWidth_one_ushiftRight (X : BitVec w) (n : Nat) :
    (X >>> n).setWidth 1 = BitVec.ofBool (X.getLsbD n) := by
  apply BitVec.eq_of_getLsbD_eq
  intro i hi
  obtain rfl : i = 0 := by omega
  simp

/-- A test of a bit by a shift, guarded where the place may be out of range. -/
theorem gives_testBit (hw : 0 < w) (ha : Usable link wanted env s ρ a (.int w) (.bits w X))
    (hb : Usable link wanted env s ρ b (.int w) (.bits w Y)) :
    Gives link wanted tooWide (testBit env w a b) s ρ (.int 1)
      (.bits 1 (BitVec.ofBool (X.getLsbD Y.toNat))) := by
  unfold testBit
  apply (lowers_operands ha hb).bind
  rintro ⟨x, y⟩ s₁ ρ₁ h₁ ⟨hx, hy⟩
  have htrunc : CastOperator.trunc.eval (.int w) (.int 1)
        (if Y.toNat < w then .bits w (X >>> Y.toNat) else .poison)
      = some (if Y.toNat < w then .bits 1 (BitVec.ofBool (X.getLsbD Y.toNat)) else .poison) := by
    by_cases hlt : Y.toNat < w
    · rw [if_pos hlt, if_pos hlt, ← setWidth_one_ushiftRight]
      exact CastOperator.eval_trunc _ hw
    · rw [if_neg hlt, if_neg hlt]
      rfl
  apply (gives_binary hx hy rfl).bind
  intro r s₂ ρ₂ h₂ hr
  apply (gives_cast hr htrunc).bind
  intro z s₃ ρ₃ h₃ hz
  by_cases hl : isLiteralBelow b w = true
  · simp only [if_pos hl]
    rw [if_pos (toNat_lt_of_literal hb hl)] at hz
    exact lowers_pure hz
  · simp only [if_neg hl]
    apply (gives_belowWidth ((hy.mono h₂).mono h₃)).bind
    intro ok s₄ ρ₄ h₄ hok
    refine gives_guarded hok (hz.mono h₄) (stands_bool false) fun hge => ?_
    rw [BitVec.getLsbD_of_ge _ _ hge]

end

-- ==================================================== types and conversions

theorem length_ofTys (ts : List Ty) : (Llvm.Ty.ofTys ts).length = ts.length := by
  induction ts with
  | nil => rfl
  | cons t ts ih => rw [Llvm.Ty.ofTys, List.length_cons, List.length_cons, ih]

/-- A value of any type with a width, as an integer. -/
theorem gives_asInt {x : Typed} {X : BitVec w} {t : Ty}
    (hx : Stands link s ρ x (.ofTy t) (.bits w X))
    (hw : t.width? = some w) (hf : t.widthFits = true) :
    Gives link wanted tooWide (Step.asInt x) s ρ (.int w) (.bits w X) := by
  unfold Step.asInt
  by_cases hi : x.ty.isInt = true
  · simp only [if_pos hi]
    refine lowers_pure ⟨?_, hx.eval, hx.old⟩
    have hwx : x.ty.width? = some w := by rw [hx.ty, width?_ofTy, hw]
    cases hty : x.ty with
    | int v =>
        rw [hty] at hwx
        rw [Option.some.inj hwx]
    | half | float | double | extended | ptr | void | vector | struct =>
        rw [hty] at hi
        contradiction
  · simp only [if_neg hi]
    have hc : x.ty.checkedWidth = .ok (some w) := by
      rw [Llvm.Ty.checkedWidth, hx.ty, widthFits_ofTy, hf, width?_ofTy, hw]
      rfl
    refine Lowers.bind (Q := fun v _ _ => v = some w) (lowers_ofFault (.inl ⟨_, hc, rfl⟩)) ?_
    rintro _ s₁ ρ₁ h₁ rfl
    exact gives_cast (hx.mono h₁) (if_pos rfl)

/-- The bytes of an integer in the opposite order. -/
theorem gives_reverseBytes {x : Typed} {X : BitVec w} (hx : Stands link s ρ x (.int w) (.bits w X))
    (h8 : 8 ∣ w)
    (hd : w ≠ 8 → w % 16 = 0 → wanted (Builtin.swapBytes.declaration w))
    (hd' : w ≠ 8 → w % 16 ≠ 0 → wanted (Builtin.swapBytes.declaration (w + 8)))
    (hwide : Width.limit ≤ w + 8 → tooWide) :
    Gives link wanted tooWide (Step.reverseBytes x) s ρ (.int w)
      (.bits w (Bits.reverseBytes X)) := by
  unfold Step.reverseBytes
  have h8' : w % 8 = 0 := Nat.mod_eq_zero_of_dvd h8
  simp only [hx.ty, h8', bne_self_eq_false, Bool.false_eq_true, if_false]
  by_cases h : w = 8
  · subst h
    simp only [if_true]
    rw [Bits.reverseBytes_of_byte]
    exact lowers_pure hx
  simp only [if_neg h]
  by_cases h16 : w % 16 = 0
  · simp only [if_pos h16]
    exact gives_call_one (b := .swapBytes) (hd h h16) hx (if_pos ⟨rfl, h16⟩)
  · simp only [if_neg h16]
    refine Lowers.bind (Q := fun v _ _ => v = w + 8) (lowers_ofFault ?_) ?_
    · unfold Width.add inRange
      by_cases hl : w + 8 < Width.limit
      · exact .inl ⟨w + 8, if_pos (decide_eq_true hl), rfl⟩
      · exact .inr ⟨if_neg (by simpa using hl), hwide (Nat.le_of_not_lt hl)⟩
    rintro _ s₁ ρ₁ h₁ rfl
    apply (gives_cast (hx.mono h₁) (CastOperator.eval_zext X (Nat.le_add_right w 8))).bind
    intro y s₂ ρ₂ h₂ hy
    apply (gives_call_one (b := .swapBytes) (hd' h h16) hy (if_pos ⟨rfl, by omega⟩)).bind
    intro z s₃ ρ₃ h₃ hz
    have hlt : 8 < w + 8 := by omega
    have hshift : BinaryOperator.lshr.value (Bits.reverseBytes (X.setWidth (w + 8)))
          (BitVec.ofNat (w + 8) 8)
        = some (.bits (w + 8) (Bits.reverseBytes (X.setWidth (w + 8)) >>> 8)) := by
      rw [BinaryOperator.value, Llvm.toNat_ofNat_of_lt hlt, if_pos hlt]
    apply (gives_binary hz (stands_int (w + 8) 8) hshift).bind
    intro r s₄ ρ₄ h₄ hr
    rw [← Bits.reverseBytes_widened X h8]
    exact gives_cast hr (CastOperator.eval_trunc _ (Nat.le_add_right w 8))

-- =============================================== operators on one number

section

variable {x : Typed}

/-- The upper half is shifted down and cut off. -/
theorem gives_upperHalf {X : BitVec (2 * w)}
    (hx : Stands link s ρ x (.int (2 * w)) (.bits (2 * w) X))
    (hw : 0 < w) (hlimit : 2 * w < Width.limit) :
    Gives link wanted tooWide (do
      let twice ← Step.ofFault (Width.mul 2 w)
      let s ← Step.binary .lshr x (.int twice w)
      Step.cast .trunc s (.int w)) s ρ (.int w) (.bits w (X.extractLsb' w w)) := by
  have htwice : Width.mul 2 w = .ok (2 * w) := by
    rw [Width.mul, decide_eq_true hlimit]
    rfl
  refine Lowers.bind (Q := fun n _ _ => n = 2 * w) (lowers_ofFault (.inl ⟨_, htwice, rfl⟩)) ?_
  rintro _ s₁ ρ₁ h₁ rfl
  have hlt : w < 2 * w := by omega
  have hshift : BinaryOperator.lshr.value X (BitVec.ofNat (2 * w) w)
      = some (.bits (2 * w) (X >>> w)) := by
    rw [BinaryOperator.value, Llvm.toNat_ofNat_of_lt hlt, if_pos hlt]
  apply (gives_binary (hx.mono h₁) (stands_int (2 * w) w) hshift).bind
  intro y s₂ ρ₂ h₂ hy
  have hX : X.extractLsb' w w = (X >>> w).setWidth w := by
    apply BitVec.eq_of_getLsbD_eq
    intro i hi
    rw [BitVec.getLsbD_extractLsb', BitVec.getLsbD_setWidth, BitVec.getLsbD_ushiftRight]
  rw [hX]
  exact gives_cast hy (CastOperator.eval_trunc _ (Nat.le_of_lt hlt))

/-- The lower half is cut off. -/
theorem gives_lowerHalf {X : BitVec (2 * w)}
    (hx : Stands link s ρ x (.int (2 * w)) (.bits (2 * w) X)) :
    Gives link wanted tooWide (Step.cast .trunc x (.int w)) s ρ (.int w)
      (.bits w (X.extractLsb' 0 w)) := by
  have hle : w ≤ 2 * w := Nat.le_mul_of_pos_left w (by decide)
  rw [← BitVec.setWidth_eq_extractLsb' hle]
  exact gives_cast hx (CastOperator.eval_trunc X hle)

variable {X : BitVec w}

/-- The complement is the exclusive or with all ones. -/
theorem gives_complement (hx : Stands link s ρ x (.int w) (.bits w X)) :
    Gives link wanted tooWide (Step.binary .xor x ⟨.int w, .allOnes⟩) s ρ (.int w)
      (.bits w (BitVec.not X)) := by
  have hnot : BinaryOperator.xor.value X (BitVec.allOnes w) = some (.bits w (BitVec.not X)) := by
    rw [BinaryOperator.value, BitVec.xor_allOnes]
    rfl
  exact gives_binary hx ⟨rfl, rfl, nofun⟩ hnot

theorem gives_popCount (hx : Stands link s ρ x (.int w) (.bits w X))
    (hd : wanted (Builtin.popCount.declaration w)) :
    Gives link wanted tooWide (Step.call (Llvm.Intrinsic.popCount w) [x]) s ρ (.int w)
      (.bits w (BitVec.ofNat w (Bits.countSet X))) := by
  rw [← Bits.cpop_eq_countSet]
  exact gives_call_one (b := .popCount) hd hx (if_pos rfl)

/-- The flag that leaves a count in zero open is not set. -/
theorem stands_closed (h : env.target.options.allowUndefined = false) :
    Stands link s ρ (.bool env.target.options.allowUndefined) (.int 1) (.bits 1 0#1) := by
  rw [h]
  exact stands_bool false

/-- The lowest set bit lies above the zeros at the end. -/
theorem gives_scanForward (hx : Stands link s ρ x (.int w) (.bits w X))
    (hd : wanted (Builtin.trailingZeros.declaration w))
    (hundef : env.target.options.allowUndefined = false) :
    Gives link wanted tooWide (Step.call (Llvm.Intrinsic.countTrailingZeros w)
        [x, .bool env.target.options.allowUndefined]) s ρ (.int w)
      (.bits w (UnaryOp.scanForward.value w X)) := by
  have hvalue : UnaryOp.scanForward.value w X = X.ctz := by
    rw [UnaryOp.value_scanForward, Bits.lowestSet?_eq]
    by_cases hX : X = 0#w
    · simp only [if_pos hX]
      rw [hX, Bits.ctz_zero]
    · simp only [if_neg hX]
      rw [BitVec.ofNat_toNat, BitVec.setWidth_eq]
  rw [hvalue]
  apply gives_call_two (b := .trailingZeros) hd hx (stands_closed hundef)
  simp [Builtin.eval]

/-- The highest set bit lies below the zeros in front. -/
theorem gives_scanReverse (hx : Stands link s ρ x (.int w) (.bits w X)) (hw : 0 < w)
    (hd : wanted (Builtin.leadingZeros.declaration w))
    (hundef : env.target.options.allowUndefined = false) :
    Gives link wanted tooWide (do
      let z ← Step.call (Llvm.Intrinsic.countLeadingZeros w)
        [x, .bool env.target.options.allowUndefined]
      let most ← Step.ofFault (Width.sub w 1)
      Step.binary .sub (.int w most) z) s ρ (.int w)
      (.bits w (UnaryOp.scanReverse.value w X)) := by
  have hcount : Builtin.leadingZeros.eval w [.bits w X, .bits 1 0#1] = some (.bits w X.clz) := by
    simp [Builtin.eval]
  apply (gives_call_two (b := .leadingZeros) hd hx (stands_closed hundef) hcount).bind
  intro z s₁ ρ₁ h₁ hz
  refine Lowers.bind (Q := fun n _ _ => n = w - 1) (lowers_ofFault (.inl ⟨_, sub_one hw, rfl⟩)) ?_
  rintro _ s₂ ρ₂ h₂ rfl
  have hvalue : UnaryOp.scanReverse.value w X = BitVec.ofNat w (w - 1) - X.clz := by
    rw [UnaryOp.value_scanReverse, Bits.highestSet?_eq]
    have hpow : w < 2 ^ w := Nat.lt_two_pow_self
    apply BitVec.eq_of_toNat_eq
    rw [BitVec.toNat_sub, Llvm.toNat_ofNat_of_lt (Nat.sub_lt hw Nat.one_pos)]
    by_cases hX : X = 0#w
    · simp only [if_pos hX]
      rw [hX, Bits.clz_zero, BitVec.toNat_ofNat, Nat.mod_eq_of_lt hpow, BitVec.toNat_allOnes]
      generalize 2 ^ w = p at *
      rw [show p - w + (w - 1) = p - 1 by omega, Nat.mod_eq_of_lt (by omega)]
    · have hlt : X.clz.toNat < w := Bits.clz_lt hX
      simp only [if_neg hX]
      rw [BitVec.toNat_ofNat]
      generalize 2 ^ w = p at *
      rw [Nat.mod_eq_of_lt (by omega),
        show p - X.clz.toNat + (w - 1) = (w - 1 - X.clz.toNat) + p by omega,
        Nat.add_mod_right, Nat.mod_eq_of_lt (by omega)]
  rw [hvalue]
  exact gives_binary (stands_int w (w - 1)) (hz.mono h₂) rfl

end

end LiftedCode.Lowering
