/-
Exactness of the lowering of operations. The instructions that an operation is
lowered to give an operand that stands for the documented result, and is never
poison, for all operands that are not (`app_exact`). Only floating-point
operations, divisions and tests for overflow are left out, and an operation is
refused only for the declarations that it asks for (`appDeclarations`) or for a
width that leaves its range (`TooWide`).
-/
import LiftedCode.Proofs.Lowering.Operators

namespace LiftedCode

-- =============================================================== the scope

/-- Whether the operation divides, looks for an overflow, or is on
floating-point numbers. -/
def App.isSpecial {ν : Type} : App ν → Bool
  | binary op _ _ _ => match op with
    | .udiv | .urem | .sdiv | .srem => true
    | _ => false
  | carry op _ _ _ _ => op.isTest
  | a => a.isFloat

theorem App.isFloat_of_isSpecial {ν : Type} {a : App ν} (h : a.isSpecial = false) :
    a.isFloat = false := by
  cases a with
  | floatUnary | floatBinary | floatConvert | floatOfSigned | signedOfFloat => contradiction
  | _ => rfl

theorem App.traps_of_isSpecial {ν : Type} {a : App ν} {den : ν → Datum}
    (h : a.isSpecial = false) (op : BinaryOp) (w : Nat) (b c : ν) (x y : BitVec w)
    (ha : a = .binary op w b c) (_ : den b = .bits w x) (_ : den c = .bits w y) :
    op.traps x y = false := by
  subst ha
  cases op with
  | udiv | urem | sdiv | srem => contradiction
  | _ => rfl

namespace Lowering

open Llvm (Typed BinaryOperator CastOperator Declaration Data Frame Linkage Builtin)

/-- The operations of the target language that an operation calls as functions,
with their widths. -/
def builtins {ν : Type} : App ν → List (Builtin × Nat)
  | .evenParity _ => [(.popCount, 8)]
  | .unary .popCount w _ => [(.popCount, w)]
  | .unary .scanForward w _ => [(.trailingZeros, w)]
  | .unary .scanReverse w _ => [(.leadingZeros, w)]
  | .unary .reverseBytes w _ =>
    if w = 8 then [] else if w % 16 = 0 then [(.swapBytes, w)] else [(.swapBytes, w + 8)]
  | _ => []

/-- The declaration that a value asks for. -/
def valueDeclaration : Value → Option Declaration
  | .entry f => some (.ofFunction f.name f.signature)
  | _ => none

/-- The declarations that an operation asks for. -/
def appDeclarations (a : App Value) : List Declaration :=
  a.operands.filterMap valueDeclaration ++ (builtins a).map fun b => b.1.declaration b.2

/-- Whether a width on the way to the result of an operation leaves its range. -/
def TooWide {ν : Type} : App ν → Prop
  | .concat h l _ _ => Width.limit ≤ h + l
  | .unary .reverseBytes w _ => Width.limit ≤ w + 8
  | _ => False

variable {link : Linkage} {wanted : Declaration → Prop} {tooWide : Prop} {env : Env}
  {s s' : State} {ρ ρ' : Frame} {w : Nat}

-- ===================================================== operators by operands

theorem gives_unaryApp {op : UnaryOp} {a : Value} {X : BitVec (op.operandWidth w)} (hw : 0 < w)
    (h8 : op = .reverseBytes → 8 ∣ w) (hhalf : op.halves = true → 2 * w < Width.limit)
    (hundef : env.target.options.allowUndefined = false)
    (ha : Usable link wanted env s ρ a (.int (op.operandWidth w)) (.bits (op.operandWidth w) X))
    (hd : ∀ b ∈ builtins (.unary op w a), wanted (b.1.declaration b.2))
    (hwide : TooWide (.unary op w a) → tooWide) :
    Gives link wanted tooWide (unaryApp env op w a) s ρ (.int w) (.bits w (op.value w X)) := by
  unfold unaryApp
  apply ha.gives.bind
  intro x s₁ ρ₁ h₁ hx
  cases op with
  | upperHalf => exact gives_upperHalf hx hw (hhalf rfl)
  | lowerHalf => exact gives_lowerHalf hx
  | complement => exact gives_complement hx
  | popCount => exact gives_popCount hx (hd (.popCount, w) (by simp [builtins]))
  | reverseBytes =>
      refine gives_reverseBytes hx (h8 rfl) ?_ ?_ hwide
      · intro h h16
        exact hd (.swapBytes, w) (by simp [builtins, h, h16])
      · intro h h16
        exact hd (.swapBytes, w + 8) (by simp [builtins, h, h16])
  | scanForward => exact gives_scanForward hx (hd (.trailingZeros, w) (by simp [builtins])) hundef
  | scanReverse => exact gives_scanReverse hx hw (hd (.leadingZeros, w) (by simp [builtins])) hundef

-- =========================================================== all operations

theorem gives_logicApp {op : LogicOp} {a b : Value} {p q : Bool}
    (ha : Usable link wanted env s ρ a (.int 1) (.bits 1 (BitVec.ofBool p)))
    (hb : Usable link wanted env s ρ b (.int 1) (.bits 1 (BitVec.ofBool q))) :
    Gives link wanted tooWide (logicApp env op a b) s ρ (.int 1)
      (.bits 1 (BitVec.ofBool (op.value p q))) := by
  cases op with
  | and => exact gives_plain ha hb (by cases p <;> cases q <;> rfl)
  | or => exact gives_plain ha hb (by cases p <;> cases q <;> rfl)
  | xor => exact gives_plain ha hb (by cases p <;> cases q <;> rfl)

theorem gives_binaryApp {op : BinaryOp} {a b : Value} {X Y : BitVec w} (hw : 0 < w)
    (hspecial : (App.binary op w a b).isSpecial = false)
    (ha : Usable link wanted env s ρ a (.int w) (.bits w X))
    (hb : Usable link wanted env s ρ b (.int w) (.bits w Y)) :
    Gives link wanted tooWide (binaryApp env op w a b) s ρ
      (.ofTy (if op.isTest then .bool else .bits w)) (.ofDatum (op.value X Y)) := by
  cases op with
  | add | sub | mul | and | or | xor => exact gives_plain ha hb rfl
  | ult | ule | slt | sle => exact gives_comparison ha hb
  | testBit => exact gives_testBit hw ha hb
  | shl =>
      refine gives_shift (fun _ _ => rfl) ?_ ha hb
      intro n hn
      exact BitVec.shiftLeft_eq_zero hn
  | shr =>
      refine gives_shift (fun _ _ => rfl) ?_ ha hb
      intro n hn
      exact BitVec.ushiftRight_eq_zero hn
  | sar => exact gives_shiftSigned hw ha hb
  | udiv | urem | sdiv | srem => contradiction

theorem gives_carryApp {op : CarryOp} {a b c : Value} {X Y : BitVec w} {p : Bool} (hw : 0 < w)
    (hspecial : (App.carry op w a b c).isSpecial = false)
    (ha : Usable link wanted env s ρ a (.int w) (.bits w X))
    (hb : Usable link wanted env s ρ b (.int w) (.bits w Y))
    (hc : Usable link wanted env s ρ c (.int 1) (.bits 1 (BitVec.ofBool p))) :
    Gives link wanted tooWide (carryApp env op w a b c) s ρ
      (.ofTy (if op.isTest then .bool else .bits w)) (.ofDatum (op.value X Y p)) := by
  cases op with
  | adc | sbb => exact gives_withCarry (fun _ _ => rfl) hw ha hb hc
  | uadcOverflows | sadcOverflows | usbbOverflows | ssbbOverflows => contradiction

/-- The lowest bit of a count tells whether it is odd. -/
theorem parity_bit (n : Nat) : (BitVec.ofNat 8 n).setWidth 1 = BitVec.ofNat 1 (n % 2) := by
  apply BitVec.eq_of_toNat_eq
  rw [BitVec.toNat_setWidth, BitVec.toNat_ofNat, BitVec.toNat_ofNat]
  omega

/-- Comparing two values of one type compares their bits. -/
theorem gives_eq {a b : Value} {t : Ty} {X Y : BitVec w} (hw : t.width? = some w)
    (hfit : t.widthFits = true) (ha : Usable link wanted env s ρ a (.ofTy t) (.bits w X))
    (hb : Usable link wanted env s ρ b (.ofTy t) (.bits w Y)) :
    Gives link wanted tooWide (app env (.eq a b)) s ρ (.int 1)
      (.bits 1 (BitVec.ofBool (X == Y))) := by
  apply ha.gives.bind
  intro x s₁ ρ₁ h₁ hx
  apply (gives_asInt hx hw hfit).bind
  intro x' s₂ ρ₂ h₂ hx'
  apply ((hb.mono h₁).mono h₂).gives.bind
  intro y s₃ ρ₃ h₃ hy
  apply (gives_asInt hy hw hfit).bind
  intro y' s₄ ρ₄ h₄ hy'
  exact gives_compare ((hx'.mono h₃).mono h₄) hy'

theorem gives_mux {c a b : Value} {t t' : Ty} {p : Bool} {d e : Data}
    (hc : Usable link wanted env s ρ c (.int 1) (.bits 1 (BitVec.ofBool p)))
    (ha : Usable link wanted env s ρ a (.ofTy t) d)
    (hb : Usable link wanted env s ρ b (.ofTy t) e) :
    Gives link wanted tooWide (app env (.mux t' c a b)) s ρ (.ofTy t) (if p then d else e) := by
  apply hc.gives.bind
  intro z s₁ ρ₁ h₁ hz
  apply (ha.mono h₁).gives.bind
  intro x s₂ ρ₂ h₂ hx
  apply ((hb.mono h₁).mono h₂).gives.bind
  intro y s₃ ρ₃ h₃ hy
  exact gives_select ((hz.mono h₂).mono h₃) (hx.mono h₃) hy

theorem gives_resize {op : ResizeOp} {a : Value} {v : Nat} {X : BitVec v}
    (hrel : App.ResizeOp.relates op v w = true)
    (ha : Usable link wanted env s ρ a (.int v) (.bits v X)) :
    Gives link wanted tooWide (app env (.resize op a v w)) s ρ (.int w)
      (.bits w (op.value w X)) := by
  have hcast : (resizeCast op).eval (.int v) (.int w) (.bits v X)
      = some (.bits w (op.value w X)) := by
    cases op with
    | truncate => exact CastOperator.eval_trunc X (Nat.le_of_lt (of_decide_eq_true hrel))
    | signExtend => exact CastOperator.eval_sext X (Nat.le_of_lt (of_decide_eq_true hrel))
    | zeroExtend => exact CastOperator.eval_zext X (Nat.le_of_lt (of_decide_eq_true hrel))
  apply ha.gives.bind
  intro x s₁ ρ₁ h₁ hx
  exact gives_cast hx hcast

/-- The bits stay where the types are of one width. No instruction is needed
where the types are the same in the target language. -/
theorem gives_bitcast {a : Value} {t u : Ty} {X : BitVec w} (huw : u.width? = some w)
    (ha : Usable link wanted env s ρ a (.ofTy t) (.bits w X)) :
    Gives link wanted tooWide (app env (.bitcast a t u)) s ρ (.ofTy u) (.bits w X) := by
  apply ha.gives.bind
  intro x s₁ ρ₁ h₁ hx
  by_cases htu : x.ty = .ofTy u
  · simp only [if_pos htu]
    exact lowers_pure ⟨htu, hx.eval, hx.old⟩
  · simp only [if_neg htu]
    apply gives_cast hx
    exact if_pos ((width?_ofTy u).trans huw)

theorem gives_field {a : Value} {ts : List Ty} {t : Ty} {ds : List Datum} {d : Datum} {i : Nat}
    (ht : ts[i]? = some t) (hd : ds[i]? = some d)
    (ha : Usable link wanted env s ρ a (.ofTy (.tuple ts)) (.ofDatum (.tuple ds))) :
    Gives link wanted tooWide (app env (.field ts a i)) s ρ (.ofTy t) (.ofDatum d) := by
  apply ha.gives.bind
  intro x s₁ ρ₁ h₁ hx
  simp only [ht]
  apply gives_assign
  rw [Llvm.Op.eval, hx.eval]
  show (Data.ofData ds)[i]? = some (.ofDatum d)
  rw [Data.getElem?_ofData, hd]
  rfl

/-- Both parts are widened, and the upper one is shifted over the lower one. -/
theorem gives_concat {h l : Nat} {a b : Value} {X : BitVec h} {Y : BitVec l} (hh : 0 < h)
    (ha : Usable link wanted env s ρ a (.int h) (.bits h X))
    (hb : Usable link wanted env s ρ b (.int l) (.bits l Y))
    (hwide : TooWide (.concat h l a b) → tooWide) :
    Lowers link wanted tooWide (app env (.concat h l a b)) s ρ fun x s' ρ' =>
      Width.add h l = .ok (h + l)
        ∧ Stands link s' ρ' x (.int (h + l)) (.bits (h + l) (X ++ Y)) := by
  refine Lowers.bind (Q := fun n _ _ => n = h + l ∧ Width.add h l = .ok (h + l))
    (lowers_ofFault ?_) ?_
  · unfold Width.add inRange
    by_cases hlt : h + l < Width.limit
    · exact .inl ⟨h + l, if_pos (decide_eq_true hlt), rfl, if_pos (decide_eq_true hlt)⟩
    · exact .inr ⟨if_neg (by simpa using hlt), hwide (Nat.le_of_not_lt hlt)⟩
  rintro _ s₁ ρ₁ h₁ ⟨rfl, hadd⟩
  apply (ha.mono h₁).gives.bind
  intro x s₂ ρ₂ h₂ hx
  apply (gives_cast hx (CastOperator.eval_zext X (Nat.le_add_right h l))).bind
  intro x' s₃ ρ₃ h₃ hx'
  apply (((hb.mono h₁).mono h₂).mono h₃).gives.bind
  intro y s₄ ρ₄ h₄ hy
  apply (gives_cast hy (CastOperator.eval_zext Y (Nat.le_add_left l h))).bind
  intro y' s₅ ρ₅ h₅ hy'
  -- the shift is by less than the width, since the upper part is not empty
  have hlt : l < h + l := Nat.lt_add_of_pos_left hh
  have hshift : BinaryOperator.shl.value (X.setWidth (h + l)) (BitVec.ofNat (h + l) l)
      = some (.bits (h + l) (X.setWidth (h + l) <<< l)) := by
    rw [BinaryOperator.value, Llvm.toNat_ofNat_of_lt hlt, if_pos hlt]
  apply (gives_binary ((hx'.mono h₄).mono h₅) (stands_int (h + l) l) hshift).bind
  intro z s₆ ρ₆ h₆ hz
  rw [← Bits.concat_eq]
  exact (gives_binary hz (hy'.mono h₆) rfl).imp fun r s' ρ' hr => ⟨hadd, hr⟩

/-- The lowest bit of the number of set bits, turned around. -/
theorem gives_evenParity {a : Value} {X : BitVec 8}
    (ha : Usable link wanted env s ρ a (.int 8) (.bits 8 X))
    (hd : wanted (Builtin.popCount.declaration 8)) :
    Gives link wanted tooWide (app env (.evenParity a)) s ρ (.int 1)
      (.bits 1 (BitVec.ofBool (Bits.countSet X % 2 = 0))) := by
  apply ha.gives.bind
  intro x s₁ ρ₁ h₁ hx
  apply (gives_popCount hx hd).bind
  intro n s₂ ρ₂ h₂ hn
  apply (gives_cast hn (CastOperator.eval_trunc _ (by decide))).bind
  intro odd s₃ ρ₃ h₃ hodd
  have hnot : BinaryOperator.xor.value ((BitVec.ofNat 8 (Bits.countSet X)).setWidth 1)
        (BitVec.ofBool true)
      = some (.bits 1 (BitVec.ofBool (decide (Bits.countSet X % 2 = 0)))) := by
    rw [BinaryOperator.value, parity_bit]
    rcases Nat.mod_two_eq_zero_or_one (Bits.countSet X) with h | h <;> rw [h] <;> rfl
  exact gives_binary hodd (stands_bool true) hnot

/-- Data of one type with a width are equal where their bits are. -/
theorem bits_of_eq {a b : Value} {den : Value → Datum} {t : Ty} {r : Datum}
    (hw : t.width? = some w) (ha : t.admits (den a) = true) (hb : t.admits (den b) = true)
    (hr : (App.eq a b).eval (fun v => .ok (den v)) = .ok r) :
    ∃ X Y : BitVec w, Data.ofDatum (den a) = .bits w X ∧ Data.ofDatum (den b) = .bits w Y
      ∧ r = .bool (X == Y) := by
  rcases App.bool_or_bits_of_admits ha hw with ⟨rfl, p, hp⟩ | ⟨ht, X, hX⟩
  · obtain ⟨q, hq⟩ := Ty.eq_bool_of_admits hb
    obtain rfl : 1 = w := Option.some.inj hw
    refine ⟨BitVec.ofBool p, BitVec.ofBool q, by rw [hp]; rfl, by rw [hq]; rfl, ?_⟩
    have hpq : r = .bool (p == q) := by simpa [App.eval, hp, hq] using hr.symm
    rw [hpq]
    cases p <;> cases q <;> rfl
  · obtain ⟨Y, hY⟩ := Ty.eq_bits_of_admits hb ht hw
    refine ⟨X, Y, by rw [hX]; rfl, by rw [hY]; rfl, ?_⟩
    simpa [App.eval, hX, hY] using hr.symm

/-- Rereading a datum at another type of its width keeps the bits. -/
theorem bits_of_bitcast {a : Value} {den : Value → Datum} {t u : Ty} {r : Datum}
    (htw : t.width? = some w) (huw : u.width? = some w) (ha : t.admits (den a) = true)
    (hr : (App.bitcast a t u).eval (fun v => .ok (den v)) = .ok r) :
    ∃ X : BitVec w, Data.ofDatum (den a) = .bits w X ∧ Data.ofDatum r = .bits w X := by
  rcases App.bool_or_bits_of_admits ha htw with ⟨rfl, p, hp⟩ | ⟨-, X, hX⟩
  · obtain rfl : 1 = w := Option.some.inj htw
    obtain rfl : .ofFlat u (BitVec.ofBool p) = r := by
      simpa [App.eval, hp, Datum.reread] using hr
    exact ⟨BitVec.ofBool p, by rw [hp]; rfl, Data.ofDatum_ofFlat _ huw⟩
  · obtain rfl : .ofFlat u X = r := by
      simpa [App.eval, hX, Datum.reread] using hr
    exact ⟨X, by rw [hX]; rfl, Data.ofDatum_ofFlat _ huw⟩

/-- An operation on operands of its types gives an operand of the type of its
result, which stands for the documented result. -/
theorem lowers_app {a : App Value} {den : Value → Datum} {r : Datum} (ht : a.Typed Value.ty)
    (hadm : ∀ v ∈ a.operands, v.ty.admits (den v) = true) (hspecial : a.isSpecial = false)
    (hundef : env.target.options.allowUndefined = false)
    (hu : ∀ v ∈ a.operands, Usable link wanted env s ρ v (.ofTy v.ty) (.ofDatum (den v)))
    (hd : ∀ b ∈ builtins a, wanted (b.1.declaration b.2)) (hwide : TooWide a → tooWide)
    (hr : a.eval (fun v => .ok (den v)) = .ok r) :
    Lowers link wanted tooWide (app env a) s ρ fun x s' ρ' =>
      ∃ t, a.ty = .ok t ∧ Stands link s' ρ' x (.ofTy t) (.ofDatum r) := by
  have hs := App.suits_of_typed ht hadm
  -- operands by their types and data
  have use : ∀ v ∈ a.operands, ∀ t d, v.ty = t → den v = d →
      Usable link wanted env s ρ v (.ofTy t) (.ofDatum d) := by
    rintro v hv _ _ rfl rfl
    exact hu v hv
  cases a with
  | eq a b =>
      obtain ⟨hab, hfit, w, hw⟩ := ht
      have hadmA := hadm a (by simp [App.operands])
      have hadmB := hadm b (by simp [App.operands])
      rw [← hab] at hadmB
      obtain ⟨X, Y, hX, hY, rfl⟩ := bits_of_eq hw hadmA hadmB hr
      have ha := hu a (by simp [App.operands])
      have hb := hu b (by simp [App.operands])
      rw [hX] at ha
      rw [hY, ← hab] at hb
      exact (gives_eq hw hfit ha hb).imp fun x s' ρ' hx => ⟨.bool, rfl, hx⟩
  | mux t c a b =>
      obtain ⟨hct, hat, hbt⟩ := ht
      obtain ⟨⟨p, hp⟩, -, -⟩ := hs
      have hc := use c (by simp [App.operands]) _ _ hct hp
      have ha := use a (by simp [App.operands]) _ _ hat rfl
      have hb := use b (by simp [App.operands]) _ _ hbt rfl
      have hr' : r = if p then den a else den b := by
        simpa [App.eval, hp] using hr.symm
      rw [hr', apply_ite Data.ofDatum]
      exact (gives_mux hc ha hb).imp fun x s' ρ' hx => ⟨t, rfl, hx⟩
  | logic op a b =>
      obtain ⟨p, q, hp, hq⟩ := hs
      have ha := use a (by simp [App.operands]) _ _ ht.1 hp
      have hb := use b (by simp [App.operands]) _ _ ht.2 hq
      obtain rfl : .bool (op.value p q) = r := by
        simpa [App.eval, hp, hq] using hr
      exact (gives_logicApp ha hb).imp fun x s' ρ' hx => ⟨.bool, rfl, hx⟩
  | not a =>
      obtain ⟨p, hp⟩ := hs
      have ha := use a (by simp [App.operands]) _ _ ht hp
      obtain rfl : .bool (!p) = r := by
        simpa [App.eval, hp] using hr
      apply ha.gives.bind
      intro x s₁ ρ₁ h₁ hx
      have hnot : BinaryOperator.xor.value (BitVec.ofBool p) (BitVec.ofBool true)
          = some (.bits 1 (BitVec.ofBool (!p))) := by
        cases p <;> rfl
      exact (gives_binary hx (stands_bool true) hnot).imp fun y s' ρ' hy => ⟨.bool, rfl, hy⟩
  | resize op a v w =>
      obtain ⟨hv, hw, hrel, hat⟩ := ht
      obtain ⟨-, -, -, X, hX⟩ := hs
      have ha := use a (by simp [App.operands]) _ _ hat hX
      obtain rfl : .bits w (op.value w X) = r := by
        simpa [App.eval, hX] using hr
      exact (gives_resize hrel ha).imp fun x s' ρ' hx => ⟨.bits w, rfl, hx⟩
  | bitcast a t u =>
      obtain ⟨w, -, hat, htw, huw⟩ := ht
      have hadmA := hadm a (by simp [App.operands])
      rw [hat] at hadmA
      obtain ⟨X, hX, hrX⟩ := bits_of_bitcast htw huw hadmA hr
      have ha := use a (by simp [App.operands]) _ _ hat rfl
      rw [hX] at ha
      rw [hrX]
      exact (gives_bitcast huw ha).imp fun x s' ρ' hx => ⟨u, rfl, hx⟩
  | field ts a i =>
      obtain ⟨hat, hi⟩ := ht
      obtain ⟨ds, hda, hds, -⟩ := hs
      have hti : ts[i]? = some ts[i] := List.getElem?_eq_getElem hi
      obtain ⟨d, hdi, -⟩ := Ty.field_of_admitsEach hds hti
      obtain rfl : d = r := by
        simpa [App.eval, hda, Datum.field, hdi] using hr
      have ha := use a (by simp [App.operands]) _ _ hat hda
      refine (gives_field hti hdi ha).imp fun x s' ρ' hx => ⟨ts[i], ?_, hx⟩
      rw [App.ty, hti]
  | concat h l a b =>
      obtain ⟨hh, hl, hat, hbt⟩ := ht
      obtain ⟨-, -, ⟨X, hX⟩, Y, hY⟩ := hs
      have ha := use a (by simp [App.operands]) _ _ hat hX
      have hb := use b (by simp [App.operands]) _ _ hbt hY
      obtain rfl : .bits (h + l) (X ++ Y) = r := by
        simpa [App.eval, hX, hY] using hr
      refine (gives_concat hh ha hb hwide).imp fun x s' ρ' hx => ⟨.bits (h + l), ?_, hx.2⟩
      rw [App.ty, hx.1]
      rfl
  | evenParity a =>
      obtain ⟨X, hX⟩ := hs
      have ha := use a (by simp [App.operands]) _ _ ht hX
      obtain rfl : .bool (Bits.countSet X % 2 = 0) = r := by
        simpa [App.eval, hX] using hr
      refine (gives_evenParity ha ?_).imp fun x s' ρ' hx => ⟨.bool, rfl, hx⟩
      exact hd (.popCount, 8) (by simp [builtins])
  | unary op w a =>
      obtain ⟨hw, h8, hl, hat⟩ := ht
      obtain ⟨-, -, -, X, hX⟩ := hs
      have ha := use a (by simp [App.operands]) _ _ hat hX
      obtain rfl : .bits w (op.value w X) = r := by
        simpa [App.eval, hX] using hr
      exact (gives_unaryApp hw h8 hl hundef ha hd hwide).imp fun x s' ρ' hx => ⟨.bits w, rfl, hx⟩
  | binary op w a b =>
      obtain ⟨hw, hat, hbt⟩ := ht
      obtain ⟨-, X, Y, hX, hY⟩ := hs
      have ha := use a (by simp [App.operands]) _ _ hat hX
      have hb := use b (by simp [App.operands]) _ _ hbt hY
      have hr' : op.value X Y = r := by
        have hev : (if op.traps X Y then .error Stop.trap else .ok (op.value X Y))
            = Except.ok r := by
          rw [← hr]
          simp [App.eval, hX, hY]
        split at hev
        · contradiction
        · exact Except.ok.inj hev
      subst hr'
      exact (gives_binaryApp hw hspecial ha hb).imp fun x s' ρ' hx => ⟨_, rfl, hx⟩
  | carry op w a b c =>
      obtain ⟨hw, hat, hbt, hct⟩ := ht
      obtain ⟨-, X, Y, p, hX, hY, hp⟩ := hs
      have ha := use a (by simp [App.operands]) _ _ hat hX
      have hb := use b (by simp [App.operands]) _ _ hbt hY
      have hc := use c (by simp [App.operands]) _ _ hct hp
      obtain rfl : op.value X Y p = r := by
        simpa [App.eval, hX, hY, hp] using hr
      exact (gives_carryApp hw hspecial ha hb hc).imp fun x s' ρ' hx => ⟨_, rfl, hx⟩
  | floatUnary | floatBinary | floatConvert | floatOfSigned | signedOfFloat => contradiction

-- ============================================================ exactness

/-- The lowering of an operation is exact. For all data of its operands the
operation has a result, and run from any state in which the operands are known,
the lowering emits instructions whose execution succeeds and leaves an operand
of the result's type that stands for it. It is refused only if a width leaves
its range or a declaration clashes. -/
theorem app_exact {a : App Value} {den : Value → Datum} (hcheck : a.check = .ok ())
    (hspecial : a.isSpecial = false) (hundef : env.target.options.allowUndefined = false)
    (hden : ∀ v ∈ a.operands,
      v.ty.admits (den v) = true ∧ Known link env s ρ v (.ofDatum (den v))) :
    ∃ r, a.eval (fun v => .ok (den v)) = .ok r
      ∧ Lowers link (· ∈ appDeclarations a) (TooWide a) (app env a) s ρ fun x s' ρ' =>
        ∃ t, a.ty = .ok t ∧ Stands link s' ρ' x (.ofTy t) (.ofDatum r) := by
  have ht := App.typed_of_check hcheck
  have hadm : ∀ v ∈ a.operands, v.ty.admits (den v) = true := fun v hv => (hden v hv).1
  obtain ⟨r, hr, -⟩ := (App.suits_of_typed ht hadm).eval_of_traps
    (App.isFloat_of_isSpecial hspecial) (App.traps_of_isSpecial hspecial)
  refine ⟨r, hr, lowers_app ht hadm hspecial hundef ?_ ?_ id hr⟩
  · intro v hv
    refine ⟨(hden v hv).2, rfl, ?_⟩
    rintro f rfl
    exact List.mem_append_left _ (List.mem_filterMap.2 ⟨_, hv, rfl⟩)
  · intro b hb
    exact List.mem_append_right _ (List.mem_map.2 ⟨b, hb, rfl⟩)

/-- The arithmetic shift of one argument by another, both of eight bits. -/
def shiftArguments : App Value := .binary .sar 8 (.arg 0 (.bits 8)) (.arg 1 (.bits 8))

/-- The first argument is -128, the second is beyond the width. -/
def shiftData : Value → Datum
  | .arg 0 _ => .bits 8 128#8
  | _ => .bits 8 200#8

/-- The numbers 128 and 200 as arguments. -/
def shiftFrame : Frame := fun
  | .arg 0 => some (.bits 8 128#8)
  | .arg 1 => some (.bits 8 200#8)
  | _ => none

/-- Where there are no other functions. -/
def noLinkage : Linkage := ⟨fun _ => 0#64, fun _ _ => .poison⟩

/-- The shift is lowered to instructions that give -1, as all bits are copies of
the sign. -/
theorem app_exact_shift :
    ∃ x s' ρ', Succeeds (app ⟨default, 0, [.bits 8, .bits 8]⟩ shiftArguments)
        ⟨0, ∅, ∅, #[], #[]⟩ x s'
      ∧ Llvm.run noLinkage shiftFrame s'.instrs.toList = some ρ'
      ∧ x.eval noLinkage ρ' = some (.bits 8 255#8) := by
  obtain ⟨r, hr, h⟩ := @app_exact noLinkage ⟨default, 0, [.bits 8, .bits 8]⟩
    ⟨0, ∅, ∅, #[], #[]⟩ shiftFrame shiftArguments shiftData rfl rfl rfl
    (by
      intro v hv
      simp only [shiftArguments, App.operands, List.mem_cons, List.not_mem_nil, or_false] at hv
      rcases hv with rfl | rfl
      · exact ⟨rfl, rfl, rfl⟩
      · exact ⟨rfl, rfl, rfl⟩)
  obtain ⟨ρ', hf, t, ht, hx⟩ := h.of_succeeds rfl
  obtain ⟨is, his, hrun⟩ := hf.ran
  refine ⟨_, _, ρ', rfl, ?_, ?_⟩
  · rw [his]
    exact hrun
  · cases hr
    exact hx.eval

end Lowering

end LiftedCode
