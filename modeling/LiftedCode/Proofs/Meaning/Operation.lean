/-
The meaning of operations: the datum that each of them is documented to give
for the data of its operands. A division stops where it has no result, and
floating-point arithmetic is not interpreted.

An operation that passes the check is typed (`App.typed_of_check`), and typed
operands have the form that the operation needs (`App.suits_of_typed`): from
then on a proof about operations goes by their constructors and never looks at
the check again. Such an operation gives a datum of its type unless it traps
(`App.Suits.eval`).
-/
import LiftedCode.Expr.Check
import LiftedCode.Proofs.Effect
import LiftedCode.Proofs.Meaning.Bits
import LiftedCode.Proofs.Meaning.Datum

namespace LiftedCode

-- ============================================================ operators

/-- What an operator gives for two truth values. -/
def LogicOp.value : LogicOp → Bool → Bool → Bool
  | and => Bool.and
  | or => Bool.or
  | xor => Bool.xor

/-- A bitvector brought to another width. -/
def ResizeOp.value {v : Nat} (op : ResizeOp) (w : Nat) (x : BitVec v) : BitVec w :=
  match op with
  | truncate => x.setWidth w
  | signExtend => x.signExtend w
  | zeroExtend => x.setWidth w

/-- The number of bits that the operand has, for a result of `w` bits. -/
def UnaryOp.operandWidth (op : UnaryOp) (w : Nat) : Nat := if op.halves then 2 * w else w

/-- The operator on one bitvector, with a result of `w` bits. -/
def UnaryOp.value (op : UnaryOp) (w : Nat) (x : BitVec (op.operandWidth w)) : BitVec w :=
  match op, x with
  | upperHalf, x => x.extractLsb' w w
  | lowerHalf, x => x.extractLsb' 0 w
  | complement, x => BitVec.not x
  | popCount, x => BitVec.ofNat w (Bits.countSet x)
  | reverseBytes, x => Bits.reverseBytes x
  | scanForward, x => match Bits.lowestSet? x with
    | some i => BitVec.ofNat w i
    | none => BitVec.ofNat w w
  | scanReverse, x => match Bits.highestSet? x with
    | some i => BitVec.ofNat w i
    | none => BitVec.allOnes w

/-- The place of the lowest set bit, or the width. -/
theorem UnaryOp.value_scanForward {w : Nat} (x : BitVec w) : scanForward.value w x =
    match Bits.lowestSet? x with
    | some i => BitVec.ofNat w i
    | none => BitVec.ofNat w w := rfl

/-- The place of the highest set bit, or minus one. -/
theorem UnaryOp.value_scanReverse {w : Nat} (x : BitVec w) : scanReverse.value w x =
    match Bits.highestSet? x with
    | some i => BitVec.ofNat w i
    | none => BitVec.allOnes w := rfl

/-- Whether the operator has no result: a division by zero, or the signed
minimum divided by minus one. -/
def BinaryOp.traps {w : Nat} (op : BinaryOp) (x y : BitVec w) : Bool :=
  match op with
  | udiv | urem => y == 0#w
  | sdiv | srem => y == 0#w || x == BitVec.intMin w && y == BitVec.allOnes w
  | _ => false

/-- The operator on two bitvectors of one width. Signed division rounds
towards zero, and the remainder has the sign of the dividend. -/
def BinaryOp.value {w : Nat} (op : BinaryOp) (x y : BitVec w) : Datum :=
  match op with
  | add => .bits w (x + y)
  | sub => .bits w (x - y)
  | mul => .bits w (x * y)
  | udiv => .bits w (x / y)
  | urem => .bits w (x % y)
  | sdiv => .bits w (BitVec.ofInt w (x.toInt.tdiv y.toInt))
  | srem => .bits w (BitVec.ofInt w (x.toInt.tmod y.toInt))
  | ult => .bool (x.toNat < y.toNat)
  | ule => .bool (x.toNat ≤ y.toNat)
  | slt => .bool (x.toInt < y.toInt)
  | sle => .bool (x.toInt ≤ y.toInt)
  | testBit => .bool (x.getLsbD y.toNat)
  | and => .bits w (x &&& y)
  | or => .bits w (x ||| y)
  | xor => .bits w (x ^^^ y)
  | shl => .bits w (x <<< y.toNat)
  | shr => .bits w (x >>> y.toNat)
  | sar => .bits w (x.sshiftRight y.toNat)

/-- The operator on two bitvectors and a carry; the overflow of a sum or a
difference is that of the exact integer. -/
def CarryOp.value {w : Nat} (op : CarryOp) (x y : BitVec w) (c : Bool) : Datum :=
  match op with
  | adc => .bits w (x + y + BitVec.ofNat w c.toNat)
  | sbb => .bits w (x - y - BitVec.ofNat w c.toNat)
  | uadcOverflows => .bool (Bits.leavesUnsigned w ((x.toNat : Int) + y.toNat + c.toNat))
  | sadcOverflows => .bool (Bits.leavesSigned w (x.toInt + y.toInt + c.toNat))
  | usbbOverflows => .bool (Bits.leavesUnsigned w ((x.toNat : Int) - y.toNat - c.toNat))
  | ssbbOverflows => .bool (Bits.leavesSigned w (x.toInt - y.toInt - c.toNat))

/-- The result is a truth value for a test, and as wide as the operands for
every other operator. -/
theorem BinaryOp.admits_value {w : Nat} (op : BinaryOp) (x y : BitVec w) :
    (if op.isTest then Ty.bool else .bits w).admits (op.value x y) = true := by
  cases op <;> simp [isTest, value, Ty.admits]

/-- The result is a truth value for a test, and as wide as the operands for
every other operator. -/
theorem CarryOp.admits_value {w : Nat} (op : CarryOp) (x y : BitVec w) (c : Bool) :
    (if op.isTest then Ty.bool else .bits w).admits (op.value x y c) = true := by
  cases op <;> simp [isTest, value, Ty.admits]

-- =========================================================== operations

namespace App

variable {ν : Type}

/-- The datum that an operation gives, from those of its operands. -/
def eval (look : ν → Except Stop Datum) (app : App ν) : Except Stop Datum := do
  match app with
  | .eq a b => return .bool (← Datum.same (← look a) (← look b))
  | .mux _ c a b =>
    let cond ← (← look c).toBool
    let x ← look a
    let y ← look b
    return if cond then x else y
  | .logic op a b => return .bool (op.value (← (← look a).toBool) (← (← look b).toBool))
  | .not a => return .bool (!(← (← look a).toBool))
  | .resize op a v w => return .bits w (op.value w (← (← look a).toBits v))
  | .bitcast a _ t => (← look a).reread t
  | .field _ a i => (← look a).field i
  | .concat h l a b =>
    return .bits (h + l) ((← (← look a).toBits h) ++ (← (← look b).toBits l))
  | .evenParity a => return .bool (Bits.countSet (← (← look a).toBits 8) % 2 = 0)
  | .unary op w a => return .bits w (op.value w (← (← look a).toBits (op.operandWidth w)))
  | .binary op w a b =>
    let x ← (← look a).toBits w
    let y ← (← look b).toBits w
    if op.traps x y then throw .trap else return op.value x y
  | .carry op w a b c =>
    return op.value (← (← look a).toBits w) (← (← look b).toBits w) (← (← look c).toBool)
  | .floatUnary _ _ _ | .floatBinary _ _ _ _ | .floatConvert _ _ _ | .floatOfSigned _ _ _
  | .signedOfFloat _ _ _ => throw .shape

/-- Whether an operation is on floating-point numbers. -/
def isFloat : App ν → Bool
  | floatUnary _ _ _ | floatBinary _ _ _ _ | floatConvert _ _ _ | floatOfSigned _ _ _
  | signedOfFloat _ _ _ => true
  | _ => false

/-- An operation looks at nothing but its operands. -/
theorem eval_congr {look look' : ν → Except Stop Datum} {app : App ν}
    (h : ∀ v ∈ app.operands, look v = look' v) : app.eval look = app.eval look' := by
  cases app <;> simp_all [App.eval, operands]

-- ========================================================= well-typedness

/-- Whether the operands have the types that the operation's widths call for,
and the widths are related as the operation needs. Floating-point operations
are not looked into. -/
def Typed (ty : ν → Ty) : App ν → Prop
  | eq a b => ty a = ty b ∧ (ty a).widthFits = true ∧ ∃ w, (ty a).width? = some w
  | mux t c a b => ty c = .bool ∧ ty a = t ∧ ty b = t
  | logic _ a b => ty a = .bool ∧ ty b = .bool
  | not a => ty a = .bool
  | resize op a v w => 0 < v ∧ 0 < w ∧ ResizeOp.relates op v w = true ∧ ty a = .bits v
  | bitcast a t u => ∃ w, 0 < w ∧ ty a = t ∧ t.width? = some w ∧ u.width? = some w
  | field ts a i => ty a = .tuple ts ∧ i < ts.length
  | concat h l a b => 0 < h ∧ 0 < l ∧ ty a = .bits h ∧ ty b = .bits l
  | evenParity a => ty a = .bits 8
  | unary op w a =>
    0 < w ∧ (op = .reverseBytes → 8 ∣ w) ∧ (op.halves = true → 2 * w < Width.limit)
      ∧ ty a = .bits (op.operandWidth w)
  | binary _ w a b => 0 < w ∧ ty a = .bits w ∧ ty b = .bits w
  | carry _ w a b c => 0 < w ∧ ty a = .bits w ∧ ty b = .bits w ∧ ty c = .bool
  | floatUnary _ _ _ | floatBinary _ _ _ _ | floatConvert _ _ _ | floatOfSigned _ _ _
  | signedOfFloat _ _ _ => True

/-- The only type that is expected is the one that is found. -/
theorem eq_of_expectTy {site : Site} {t u : Ty} (h : expectTy site t u = .ok ()) : u = t := by
  unfold expectTy at h
  split at h
  case isTrue e => exact e.symm
  case isFalse => contradiction

/-- The type whose width is given is that of the bitvectors of the width. -/
theorem eq_of_expectBits {site : Site} {t : Ty} {w : Nat} (h : expectBits site t = .ok w) :
    t = .bits w := by
  cases t with
  | bits v => rw [Except.ok.inj h]
  | bool | float | tuple | vector => contradiction

/-- The bitvectors of a width are asked for only if there are some. -/
theorem of_positiveBits {name : String} {w : Nat} {t : Ty} (h : positiveBits name w = .ok t) :
    0 < w ∧ t = .bits w := by
  unfold positiveBits at h
  split at h
  case isTrue => contradiction
  case isFalse e => exact ⟨Nat.pos_of_ne_zero e, (Except.ok.inj h).symm⟩

/-- A width that was computed is the width of the type. -/
theorem of_checkedWidth {t : Ty} {w : Option Nat}
    (h : (liftM t.checkedWidth : Except CodeError (Option Nat)) = .ok w) :
    t.widthFits = true ∧ t.width? = w := by
  obtain ⟨hfits, rfl⟩ := ok_of_inRange (ok_of_mapError h)
  exact ⟨hfits, rfl⟩

/-- A product that was computed is a width. -/
theorem of_mul {a b v : Nat} (h : Width.mul a b = .ok v) : a * b < Width.limit ∧ v = a * b := by
  obtain ⟨hfits, rfl⟩ := ok_of_inRange h
  exact ⟨of_decide_eq_true hfits, rfl⟩

/-- A sum that was computed is the sum. -/
theorem of_add {m n k : Nat} (h : Width.add m n = .ok k) : k = m + n := (ok_of_inRange h).2

/-- A difference that was computed is no negative number. -/
theorem of_sub {m n k : Nat} (h : Width.sub m n = .ok k) : n ≤ m ∧ k = m - n := by
  obtain ⟨hle, rfl⟩ := ok_of_inRange h
  exact ⟨of_decide_eq_true hle, rfl⟩

/-- A condition that is an error does not hold where there is none. -/
theorem not_of_guard {c : Prop} [Decidable c] {e : CodeError}
    (h : (if c then throw e else pure () : Except CodeError Unit) = .ok ()) : ¬ c := by
  intro hc
  rw [if_pos hc] at h
  contradiction

/-- A checked operation on one bitvector is on one of the width it is for. -/
theorem typed_unary_of_check {op : UnaryOp} {w : Nat} {x : Value}
    (h : (App.unary op w x).check = .ok ()) : (App.unary op w x).Typed Value.ty := by
  unfold check at h
  dsimp only at h
  split at h
  case isTrue => contradiction
  case isFalse hb =>
    have h8 : op = .reverseBytes → 8 ∣ w := by
      rintro rfl
      apply Nat.dvd_of_mod_eq_zero
      simpa using hb
    split at h
    case isTrue hh =>
      obtain ⟨v, hv, h⟩ := ok_of_bind h
      obtain ⟨hl, rfl⟩ := of_mul (ok_of_mapError hv)
      obtain ⟨t, ht, h⟩ := ok_of_bind h
      obtain ⟨h0, rfl⟩ := of_positiveBits ht
      refine ⟨by omega, h8, fun _ => hl, ?_⟩
      rw [UnaryOp.operandWidth, if_pos hh]
      exact eq_of_expectTy h
    case isFalse hh =>
      obtain ⟨v, hv, h⟩ := ok_of_bind h
      obtain rfl : w = v := Except.ok.inj hv
      obtain ⟨t, ht, h⟩ := ok_of_bind h
      obtain ⟨h0, rfl⟩ := of_positiveBits ht
      refine ⟨h0, h8, fun h => absurd h hh, ?_⟩
      rw [UnaryOp.operandWidth, if_neg hh]
      exact eq_of_expectTy h

/-- An operation that passes the check is typed. -/
theorem typed_of_check {a : App Value} (h : a.check = .ok ()) : a.Typed Value.ty := by
  cases a with
  | eq x y =>
      obtain ⟨w, hw, h⟩ := ok_of_bind h
      obtain ⟨hf, hw⟩ := of_checkedWidth hw
      cases w with
      | none => contradiction
      | some w => exact ⟨(eq_of_expectTy h).symm, hf, w, hw⟩
  | mux t c x y =>
      obtain ⟨_, hc, h⟩ := ok_of_bind h
      obtain ⟨_, hx, hy⟩ := ok_of_bind h
      exact ⟨eq_of_expectTy hc, eq_of_expectTy hx, eq_of_expectTy hy⟩
  | logic op x y =>
      obtain ⟨_, hx, hy⟩ := ok_of_bind h
      exact ⟨eq_of_expectTy hx, eq_of_expectTy hy⟩
  | not x => exact eq_of_expectTy h
  | resize op x v w =>
      obtain ⟨t, ht, h⟩ := ok_of_bind h
      obtain ⟨hv, rfl⟩ := of_positiveBits ht
      obtain ⟨_, hx, h⟩ := ok_of_bind h
      have hr : 0 < w ∧ ResizeOp.relates op v w = true := by
        by_cases ho : op = .truncate
        · rw [if_pos ho] at h
          obtain ⟨_, hw, h⟩ := ok_of_bind h
          exact ⟨(of_positiveBits hw).1, by simpa using not_of_guard h⟩
        · rw [if_neg ho] at h
          have hr : ResizeOp.relates op v w = true := by simpa using not_of_guard h
          refine ⟨Nat.lt_trans hv ?_, hr⟩
          cases op with
          | truncate => exact absurd rfl ho
          | signExtend | zeroExtend => exact of_decide_eq_true hr
      exact ⟨hv, hr.1, hr.2, eq_of_expectTy hx⟩
  | bitcast x t u =>
      obtain ⟨_, hx, h⟩ := ok_of_bind h
      obtain ⟨v, hv, h⟩ := ok_of_bind h
      obtain ⟨w, hw, h⟩ := ok_of_bind h
      obtain ⟨_, hv⟩ := of_checkedWidth hv
      obtain ⟨_, hw⟩ := of_checkedWidth hw
      have hg := not_of_guard h
      simp only [Bool.or_eq_true, not_or, bne_iff_ne, ne_eq, Decidable.not_not, beq_iff_eq] at hg
      obtain ⟨⟨hs, rfl⟩, h0⟩ := hg
      cases v with
      | none => exact absurd rfl hs
      | some n =>
          refine ⟨n, Nat.pos_of_ne_zero ?_, eq_of_expectTy hx, hv, hw⟩
          rintro rfl
          exact h0 rfl
  | field ts x i =>
      obtain ⟨_, hx, h⟩ := ok_of_bind h
      exact ⟨eq_of_expectTy hx, Nat.lt_of_not_le (not_of_guard h)⟩
  | concat m l x y =>
      obtain ⟨t, ht, h⟩ := ok_of_bind h
      obtain ⟨hm, rfl⟩ := of_positiveBits ht
      obtain ⟨_, hx, h⟩ := ok_of_bind h
      obtain ⟨u, hu, hy⟩ := ok_of_bind h
      obtain ⟨hl, rfl⟩ := of_positiveBits hu
      exact ⟨hm, hl, eq_of_expectTy hx, eq_of_expectTy hy⟩
  | evenParity x => exact eq_of_expectTy h
  | unary op w x => exact typed_unary_of_check h
  | binary op w x y =>
      obtain ⟨t, ht, h⟩ := ok_of_bind h
      obtain ⟨hw, rfl⟩ := of_positiveBits ht
      obtain ⟨_, hx, hy⟩ := ok_of_bind h
      exact ⟨hw, eq_of_expectTy hx, eq_of_expectTy hy⟩
  | carry op w x y c =>
      obtain ⟨t, ht, h⟩ := ok_of_bind h
      obtain ⟨hw, rfl⟩ := of_positiveBits ht
      obtain ⟨_, hx, h⟩ := ok_of_bind h
      obtain ⟨_, hy, hc⟩ := ok_of_bind h
      exact ⟨hw, eq_of_expectTy hx, eq_of_expectTy hy, eq_of_expectTy hc⟩
  | floatUnary | floatBinary | floatConvert | floatOfSigned | signedOfFloat => exact trivial

-- ===================================================== forms of operands

/-- Whether the data of the operands have the form that the operation is for,
and the widths are related as it needs. -/
def Suits (den : ν → Datum) : App ν → Prop
  | eq a b =>
    (∃ p q, den a = .bool p ∧ den b = .bool q) ∨ ∃ w x y, den a = .bits w x ∧ den b = .bits w y
  | mux t c a b => (∃ p, den c = .bool p) ∧ t.admits (den a) = true ∧ t.admits (den b) = true
  | logic _ a b => ∃ p q, den a = .bool p ∧ den b = .bool q
  | not a => ∃ p, den a = .bool p
  | resize op a v w =>
    0 < v ∧ 0 < w ∧ ResizeOp.relates op v w = true ∧ ∃ x, den a = .bits v x
  | bitcast a t u => ∃ w, 0 < w ∧ t.width? = some w ∧ u.width? = some w
      ∧ ((t = .bool ∧ ∃ p, den a = .bool p) ∨ t ≠ .bool ∧ ∃ x, den a = .bits w x)
  | field ts a i => ∃ ds, den a = .tuple ds ∧ Ty.admitsEach ts ds = true ∧ i < ts.length
  | concat h l a b => 0 < h ∧ 0 < l ∧ (∃ x, den a = .bits h x) ∧ ∃ y, den b = .bits l y
  | evenParity a => ∃ x, den a = .bits 8 x
  | unary op w a =>
    0 < w ∧ (op = .reverseBytes → 8 ∣ w) ∧ (op.halves = true → 2 * w < Width.limit)
      ∧ ∃ x, den a = .bits (op.operandWidth w) x
  | binary _ w a b => 0 < w ∧ ∃ x y, den a = .bits w x ∧ den b = .bits w y
  | carry _ w a b c =>
    0 < w ∧ ∃ x y p, den a = .bits w x ∧ den b = .bits w y ∧ den c = .bool p
  | floatUnary _ _ _ | floatBinary _ _ _ _ | floatConvert _ _ _ | floatOfSigned _ _ _
  | signedOfFloat _ _ _ => True

/-- A datum of a type is read off as a truth value or as bits. -/
theorem bool_or_bits_of_admits {t : Ty} {w : Nat} {d : Datum} (h : t.admits d = true)
    (hw : t.width? = some w) :
    (t = .bool ∧ ∃ p, d = .bool p) ∨ t ≠ .bool ∧ ∃ x, d = .bits w x := by
  by_cases ht : t = .bool
  · subst ht
    exact .inl ⟨rfl, Ty.eq_bool_of_admits h⟩
  · exact .inr ⟨ht, Ty.eq_bits_of_admits h ht hw⟩

/-- Operands whose data are of their types have the form that a typed
operation is for. -/
theorem suits_of_typed {ty : ν → Ty} {den : ν → Datum} {app : App ν} (ht : app.Typed ty)
    (hd : ∀ v ∈ app.operands, (ty v).admits (den v) = true) : app.Suits den := by
  -- what the type of an operand says of its datum
  have isBool : ∀ v ∈ app.operands, ty v = .bool → ∃ p, den v = .bool p :=
    fun v hv h => Ty.eq_bool_of_admits (h ▸ hd v hv)
  have isBits : ∀ v ∈ app.operands, ∀ w, ty v = .bits w → ∃ x, den v = .bits w x :=
    fun v hv w h => Ty.eq_bits_of_admits_bits (h ▸ hd v hv)
  cases app with
  | eq a b =>
      obtain ⟨hab, -, w, hw⟩ := ht
      have ha := hd a (by simp [operands])
      have hb := hd b (by simp [operands])
      rcases bool_or_bits_of_admits ha hw with ⟨e, p, hp⟩ | ⟨e, x, hx⟩
      · rw [← hab, e] at hb
        obtain ⟨q, hq⟩ := Ty.eq_bool_of_admits hb
        exact .inl ⟨p, q, hp, hq⟩
      · rw [← hab] at hb
        obtain ⟨y, hy⟩ := Ty.eq_bits_of_admits hb e hw
        exact .inr ⟨w, x, y, hx, hy⟩
  | mux t c a b =>
      obtain ⟨hc, ha, hb⟩ := ht
      refine ⟨isBool c (by simp [operands]) hc, ?_, ?_⟩
      · exact ha ▸ hd a (by simp [operands])
      · exact hb ▸ hd b (by simp [operands])
  | logic op a b =>
      obtain ⟨p, hp⟩ := isBool a (by simp [operands]) ht.1
      obtain ⟨q, hq⟩ := isBool b (by simp [operands]) ht.2
      exact ⟨p, q, hp, hq⟩
  | not a => exact isBool a (by simp [operands]) ht
  | resize op a v w =>
      obtain ⟨hv, hw, hr, ha⟩ := ht
      exact ⟨hv, hw, hr, isBits a (by simp [operands]) v ha⟩
  | bitcast a t u =>
      obtain ⟨w, h0, ha, htw, huw⟩ := ht
      exact ⟨w, h0, htw, huw, bool_or_bits_of_admits (ha ▸ hd a (by simp [operands])) htw⟩
  | field ts a i =>
      obtain ⟨ha, hi⟩ := ht
      have h := hd a (by simp [operands])
      rw [ha] at h
      cases hda : den a with
      | tuple ds => exact ⟨ds, hda, by simpa [hda, Ty.admits] using h, hi⟩
      | bool | bits => simp [hda, Ty.admits] at h
  | concat h l a b =>
      obtain ⟨hh, hl, ha, hb⟩ := ht
      exact ⟨hh, hl, isBits a (by simp [operands]) h ha, isBits b (by simp [operands]) l hb⟩
  | evenParity a => exact isBits a (by simp [operands]) 8 ht
  | unary op w a =>
      obtain ⟨hw, h8, hl, ha⟩ := ht
      exact ⟨hw, h8, hl, isBits a (by simp [operands]) _ ha⟩
  | binary op w a b =>
      obtain ⟨hw, ha, hb⟩ := ht
      obtain ⟨x, hx⟩ := isBits a (by simp [operands]) w ha
      obtain ⟨y, hy⟩ := isBits b (by simp [operands]) w hb
      exact ⟨hw, x, y, hx, hy⟩
  | carry op w a b c =>
      obtain ⟨hw, ha, hb, hc⟩ := ht
      obtain ⟨x, hx⟩ := isBits a (by simp [operands]) w ha
      obtain ⟨y, hy⟩ := isBits b (by simp [operands]) w hb
      obtain ⟨p, hp⟩ := isBool c (by simp [operands]) hc
      exact ⟨hw, x, y, p, hx, hy, hp⟩
  | floatUnary | floatBinary | floatConvert | floatOfSigned | signedOfFloat => exact trivial

/-- The datum is of the one type that the operation has. -/
theorem exists_eval_of_ty {den : ν → Datum} {app : App ν} {r : Datum} {t : Ty}
    (hr : app.eval (fun v => .ok (den v)) = .ok r) (ht : app.ty = .ok t)
    (hadm : t.admits r = true) :
    ∃ r, app.eval (fun v => .ok (den v)) = .ok r ∧ ∀ t, app.ty = .ok t → t.admits r = true := by
  refine ⟨r, hr, fun u hu => ?_⟩
  rw [← Except.ok.inj (ht.symm.trans hu)]
  exact hadm

/-- Suitable operands that no division traps on give a datum, and it is one of
the result's type. -/
theorem Suits.eval_of_traps {den : ν → Datum} {app : App ν} (hs : app.Suits den)
    (hf : app.isFloat = false)
    (htrap : ∀ op w a b (x y : BitVec w), app = binary op w a b → den a = .bits w x →
      den b = .bits w y → op.traps x y = false) :
    ∃ r, app.eval (fun v => .ok (den v)) = .ok r ∧ ∀ t, app.ty = .ok t → t.admits r = true := by
  cases app with
  | eq a b =>
      rcases hs with ⟨p, q, ha, hb⟩ | ⟨w, x, y, ha, hb⟩
      · exact exists_eval_of_ty (r := .bool (p == q)) (by simp [App.eval, ha, hb]) rfl rfl
      · exact exists_eval_of_ty (r := .bool (x == y)) (by simp [App.eval, ha, hb]) rfl rfl
  | mux t c a b =>
      obtain ⟨⟨p, hc⟩, ha, hb⟩ := hs
      refine exists_eval_of_ty (r := if p then den a else den b) (by simp [App.eval, hc]) rfl ?_
      cases p
      · exact hb
      · exact ha
  | logic op a b =>
      obtain ⟨p, q, ha, hb⟩ := hs
      exact exists_eval_of_ty (r := .bool (op.value p q)) (by simp [App.eval, ha, hb]) rfl rfl
  | not a =>
      obtain ⟨p, ha⟩ := hs
      exact exists_eval_of_ty (r := .bool (!p)) (by simp [App.eval, ha]) rfl rfl
  | resize op a v w =>
      obtain ⟨-, -, -, x, ha⟩ := hs
      exact exists_eval_of_ty (r := .bits w (op.value w x)) (by simp [App.eval, ha]) rfl
        (Ty.admits_bits _ (by simp) rfl)
  | bitcast a t u =>
      obtain ⟨w, -, htw, huw, hd⟩ := hs
      rcases hd with ⟨rfl, p, hp⟩ | ⟨-, x, hx⟩
      · obtain rfl : 1 = w := Option.some.inj htw
        exact exists_eval_of_ty (r := Datum.ofFlat u (BitVec.ofBool p))
          (by simp [App.eval, hp, Datum.reread]) rfl (Ty.admits_ofFlat _ huw)
      · exact exists_eval_of_ty (r := Datum.ofFlat u x) (by simp [App.eval, hx, Datum.reread]) rfl
          (Ty.admits_ofFlat x huw)
  | field ts a i =>
      obtain ⟨ds, ha, hds, hi⟩ := hs
      have hti : ts[i]? = some ts[i] := List.getElem?_eq_getElem hi
      obtain ⟨d, hd, hadm⟩ := Ty.field_of_admitsEach hds hti
      exact exists_eval_of_ty (r := d) (by simp [App.eval, ha, Datum.field, hd])
        (by simp [App.ty, hti]) hadm
  | concat h l a b =>
      obtain ⟨-, -, ⟨x, ha⟩, y, hb⟩ := hs
      -- the width of the result may be too large, and then the operation has no type
      refine ⟨.bits (h + l) (x ++ y), by simp [App.eval, ha, hb], ?_⟩
      intro t ht
      obtain ⟨w, hw, rfl⟩ := ok_of_map ht
      obtain rfl := of_add hw
      exact Ty.admits_bits _ (by simp) rfl
  | evenParity a =>
      obtain ⟨x, ha⟩ := hs
      exact exists_eval_of_ty (r := .bool (Bits.countSet x % 2 = 0)) (by simp [App.eval, ha]) rfl
        rfl
  | unary op w a =>
      obtain ⟨-, -, -, x, ha⟩ := hs
      exact exists_eval_of_ty (r := .bits w (op.value w x)) (by simp [App.eval, ha]) rfl
        (Ty.admits_bits _ (by simp) rfl)
  | binary op w a b =>
      obtain ⟨-, x, y, ha, hb⟩ := hs
      have ht := htrap op w a b x y rfl ha hb
      exact exists_eval_of_ty (r := op.value x y) (by simp [App.eval, ha, hb, ht]) rfl
        (op.admits_value x y)
  | carry op w a b c =>
      obtain ⟨-, x, y, p, ha, hb, hc⟩ := hs
      exact exists_eval_of_ty (r := op.value x y p) (by simp [App.eval, ha, hb, hc]) rfl
        (op.admits_value x y p)
  | floatUnary | floatBinary | floatConvert | floatOfSigned | signedOfFloat => contradiction

/-- Suitable operands that lie in the domain of the operation give a datum, and
it is one of the result's type. -/
theorem Suits.eval {den : ν → Datum} {app : App ν} (hs : app.Suits den)
    (hf : app.isFloat = false) (htrap : app.eval (fun v => .ok (den v)) ≠ .error .trap) :
    ∃ r, app.eval (fun v => .ok (den v)) = .ok r ∧ ∀ t, app.ty = .ok t → t.admits r = true := by
  apply hs.eval_of_traps hf
  rintro op w a b x y rfl ha hb
  cases ht : op.traps x y with
  | false => rfl
  | true =>
      refine absurd ?_ htrap
      simp [App.eval, ha, hb, ht]

end App

/-- What is known of an assignment that was made. -/
theorem Assignment.of_make {a : Assignment Value} (h : Assignment.make a.id a.rhs = .ok a) :
    a.rhs.check = .ok () ∧ a.rhs.ty = .ok a.ty := by
  obtain ⟨_, hcheck, h⟩ := ok_of_bind h
  obtain ⟨t, ht, h⟩ := ok_of_bind h
  refine ⟨hcheck, ?_⟩
  have ha : (⟨a.id, a.rhs, t⟩ : Assignment Value) = a := Except.ok.inj h
  rw [← ha]
  exact ok_of_mapError ht

end LiftedCode
