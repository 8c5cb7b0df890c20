/-
The discipline of operations. Each is judged under the types that its check
calls for, and gives an operand of its own type (`yields_app`). There are
operations on integers of one bit for which a cast to one bit is emitted as for
any other width (`App.castsUnit`), and then it is one from a type to itself
(`yieldsCast_app`).
-/
import LiftedCode.Proofs.Lowering.Sound.Memory

namespace LiftedCode

/-- Whether the operation is lowered to a cast of an integer of one bit to its
own type: the carry is brought to the width of the operands, and the bit that is
asked for is cut off from them. -/
def App.castsUnit : App Value → Bool
  | .binary .testBit w _ _ => w == 1
  | .carry op w _ _ d => w == 1 && !(op.isTest && d.boolLiteral? == some false)
  | _ => false

namespace Lowering

open Llvm (Typed BinaryOperator IntPredicate FloatPredicate CastOperator Op)

variable {c : Setting} {s : State} {a b d carry : Value} {t u : Llvm.Ty} {w : Nat} {x : Typed}

-- ================================================================ casts

/-- A truth value as an integer, which may have one bit itself. -/
theorem yieldsCast_widen (hx : c.Sees s x (.int 1)) (hw : c.typed → 0 < w)
    (hcasts : c.typed → w = 1 → c.casts) :
    YieldsCast c (Step.cast .zext x (.int w)) s (.int w) (w = 1) := by
  by_cases h : w = 1
  · subst h
    exact (yieldsCast_unit (.inr rfl) hx fun hc => hcasts hc rfl).imp
      fun _ _ hy => ⟨hy.1, fun hc _ => hy.2 hc trivial⟩
  · have hy : Yields c (Step.cast .zext x (.int w)) s (.int w) := yields_zext hx fun hc => by
      have := hw hc
      omega
    exact hy.without_cast h

/-- The lowest bit of an integer, which may have no other. -/
theorem yieldsCast_lowest (hx : c.Sees s x (.int w)) (hcasts : c.typed → w = 1 → c.casts) :
    YieldsCast c (Step.cast .trunc x (.int 1)) s (.int 1) (w = 1) := by
  by_cases h : w = 1
  · subst h
    exact (yieldsCast_unit (.inl rfl) hx fun hc => hcasts hc rfl).imp
      fun _ _ hy => ⟨hy.1, fun hc _ => hy.2 hc trivial⟩
  · have hy : Yields c (Step.cast .trunc x (.int 1)) s (.int 1) := yields_trunc hx fun hc => by
      have := hx.pos hc
      omega
    exact hy.without_cast h

-- ============================================================= operators

/-- Two operands are in sight at the types at which they are read. -/
theorem keeps_operands (ha : c.Reads a t) (hb : c.Reads b u) :
    Keeps c (operands c.env a b) s fun p s' => c.Sees s' p.1 t ∧ c.Sees s' p.2 u :=
  (yields_value ha).bind fun _ _ _ hx => (yields_value hb).bind fun _ _ h hy =>
    keeps_pure ⟨hx.mono h, hy⟩

/-- An operator of the target language on operands that it takes. -/
theorem yields_plain {op : BinaryOperator} (ha : c.Reads a t) (hb : c.Reads b t)
    (hop : c.typed → op.takes t = true) : Yields c (plain c.env op a b) s t :=
  (keeps_operands ha hb).bind fun _ _ _ h => yields_binary h.1 h.2 hop

theorem yields_comparison {pred : IntPredicate} (ha : c.Reads a (.int w))
    (hb : c.Reads b (.int w)) : Yields c (comparison c.env pred a b) s (.int 1) :=
  (keeps_operands ha hb).bind fun _ _ _ h => yields_compare h.1 h.2 fun _ => rfl

theorem yields_floatComparison {pred : FloatPredicate} (ha : c.Reads a t) (hb : c.Reads b t)
    (ht : c.typed → t.isFloat = true) : Yields c (floatComparison c.env pred a b) s (.int 1) := by
  refine (keeps_operands ha hb).bind fun p s₁ _ h => ?_
  obtain ⟨hx, hy⟩ := h
  refine yields_assign (forall_mem_pair hx.finds hy.finds) nofun (fun _ => rfl)
    (fun _ => ⟨rfl, rfl⟩) fun hc _ => .inl ⟨?_, hx.wellTyped hc, hy.wellTyped_operand hx hc⟩
  rw [hx.ty hc]
  exact ht hc

theorem yields_shift {op : BinaryOperator} (ha : c.Reads a (.int w)) (hb : c.Reads b (.int w))
    (hop : op.takes (.int w) = true) : Yields c (shift c.env op w a b) s (.int w) := by
  unfold shift
  refine (keeps_operands ha hb).bind fun p s₁ _ h => ?_
  obtain ⟨hx, hn⟩ := h
  by_cases hl : isLiteralBelow b w = true
  · simp only [if_pos hl]
    exact yields_binary hx hn fun _ => hop
  · simp only [if_neg hl]
    refine (yields_compare hn (Setting.sees_int w hn.pos) fun _ => rfl).bind fun ok s₂ h₂ hok => ?_
    refine (yields_binary (hx.mono h₂) (hn.mono h₂) fun _ => hop).bind fun r s₃ h₃ hr => ?_
    exact yields_select (hok.mono h₃) hr (Setting.sees_int 0 hr.pos)

theorem yields_shiftSigned (ha : c.Reads a (.int w)) (hb : c.Reads b (.int w)) :
    Yields c (shiftSigned c.env w a b) s (.int w) := by
  unfold shiftSigned
  refine (keeps_operands ha hb).bind fun p s₁ _ h => ?_
  obtain ⟨hx, hn⟩ := h
  by_cases hl : isLiteralBelow b w = true
  · simp only [if_pos hl]
    exact yields_binary hx hn fun _ => rfl
  · simp only [if_neg hl]
    refine (yields_compare hn (Setting.sees_int w hn.pos) fun _ => rfl).bind fun ok s₂ h₂ hok => ?_
    refine (keeps_ofFault _).bind fun most s₃ h₃ _ => ?_
    have hn₃ := hn.mono (h₂.trans h₃)
    refine (yields_select (hok.mono h₃) hn₃ (Setting.sees_int most hn₃.pos)).bind
      fun m s₄ h₄ hm => ?_
    exact yields_binary (hx.mono (h₂.trans (h₃.trans h₄))) hm fun _ => rfl

/-- A test of a bit ends in a conversion to one bit, which casts a bit to a bit if the width
is one. -/
theorem yieldsCast_testBit (ha : c.Reads a (.int w)) (hb : c.Reads b (.int w))
    (hcasts : c.typed → w = 1 → c.casts) :
    YieldsCast c (testBit c.env w a b) s (.int 1) (w = 1) := by
  unfold testBit
  refine (keeps_operands ha hb).bind fun p s₁ _ h => ?_
  obtain ⟨hx, hi⟩ := h
  refine (yields_binary hx hi fun _ => rfl).bind fun r s₂ h₂ hr => ?_
  refine (yieldsCast_lowest hr hcasts).bind fun z s₃ h₃ hz => ?_
  by_cases hl : isLiteralBelow b w = true
  · simp only [if_pos hl]
    exact keeps_pure hz
  · simp only [if_neg hl]
    have hi₃ := hi.mono (h₂.trans h₃)
    refine (yields_compare hi₃ (Setting.sees_int w hi₃.pos) fun _ => rfl).bind
      fun ok s₄ h₄ hok => ?_
    exact (yields_select hok (hz.1.mono h₄) (Setting.sees_bool false)).after_cast
      fun hc hw => (hz.2 hc hw).mono h₄

/-- A carry is converted to the width, which casts a bit to a bit if the width is one. -/
theorem yieldsCast_withCarry {op : BinaryOperator} (ha : c.Reads a (.int w))
    (hb : c.Reads b (.int w)) (hcarry : c.Reads carry (.int 1)) (hop : op.takes (.int w) = true)
    (hcasts : c.typed → w = 1 → c.casts) :
    YieldsCast c (withCarry c.env op w a b carry) s (.int w) (w = 1) := by
  refine (keeps_operands ha hb).bind fun p s₁ _ h => ?_
  refine (yields_binary h.1 h.2 fun _ => hop).bind fun r s₂ h₂ hr => ?_
  refine (yields_value hcarry).bind fun i s₃ h₃ hi => ?_
  refine (yieldsCast_widen hi hr.pos hcasts).bind fun j s₄ h₄ hj => ?_
  exact (yields_binary (hr.mono (h₃.trans h₄)) hj.1 fun _ => hop).after_cast hj.2

/-- A carry that is looked at is converted to the width. -/
theorem yieldsCast_overflow {signed subtract : Bool} (ha : c.Reads a (.int w))
    (hb : c.Reads b (.int w)) (hcarry : c.Reads carry (.int 1))
    (hcasts : c.typed → w = 1 → carry.boolLiteral? ≠ some false → c.casts) :
    YieldsCast c (overflow c.env signed subtract w a b carry) s (.int 1)
      (w = 1 ∧ carry.boolLiteral? ≠ some false) := by
  unfold overflow
  refine (keeps_operands ha hb).bind fun p s₁ _ h => ?_
  obtain ⟨hx, hy⟩ := h
  have hret : c.typed → (Llvm.Ty.struct [.int w, .int 1]).legal = true := fun hc => by
    simp [Llvm.Ty.legal, Llvm.Ty.allLegal, Nat.ne_of_gt (hx.pos hc)]
  have hd : ∀ {s : State} {x y : Typed}, c.Sees s x (.int w) → c.Sees s y (.int w) →
      Yields c (Step.call (Llvm.Intrinsic.withOverflow signed subtract w) [x, y]) s
        (.struct [.int w, .int 1]) := fun hx hy =>
    yields_call (d := Llvm.Intrinsic.withOverflow signed subtract w) (.cons hx (.cons hy .nil)) hret
  refine (hd hx hy).bind fun r s₂ h₂ hr => ?_
  refine (yields_extractValue hr fun _ => rfl).bind fun o s₃ h₃ ho => ?_
  by_cases hfalse : carry.boolLiteral? = some false
  · simp only [if_pos hfalse]
    exact keeps_pure ⟨ho, fun _ hw => absurd hfalse hw.2⟩
  · simp only [if_neg hfalse]
    refine (yields_value hcarry).bind fun i s₄ h₄ hi => ?_
    refine (yieldsCast_widen hi hx.pos fun hc hw => hcasts hc hw hfalse).bind fun j s₅ h₅ hj => ?_
    refine (yields_extractValue (hr.mono (h₃.trans (h₄.trans h₅))) fun _ => rfl).bind
      fun k s₆ h₆ hk => ?_
    refine (hd hk (hj.1.mono h₆)).bind fun r' s₇ h₇ hr' => ?_
    refine (yields_extractValue hr' fun _ => rfl).bind fun o' s₈ h₈ ho' => ?_
    have h₅₈ := h₆.trans (h₇.trans h₈)
    have hsum : Yields c (Step.binary (combineOverflow signed) o o') s₈ (.int 1) := by
      refine yields_binary (ho.mono (h₄.trans (h₅.trans h₅₈))) ho' fun _ => ?_
      cases signed <;> rfl
    exact hsum.after_cast fun hc hw => (hj.2 hc hw.1).mono h₅₈

theorem yields_unaryApp {op : UnaryOp} (ha : c.Reads a (.int (op.operandWidth w))) :
    Yields c (unaryApp c.env op w a) s (.int w) := by
  refine (yields_value ha).bind fun x s₁ _ hx => ?_
  have hcall : ∀ {d : Llvm.Declaration} {xs : List Typed}, List.Forall₂ (c.Sees s₁) xs d.args →
      d.ret = .int w → (c.typed → 0 < w) → Yields c (Step.call d xs) s₁ (.int w) := by
    intro d xs hxs hret hw
    rw [← hret]
    exact yields_call hxs fun hc => by rw [hret, Llvm.Ty.legal_int]; exact hw hc
  cases op with
  | upperHalf =>
      refine (keeps_ofFault _).bind fun twice s₂ h₂ htwice => ?_
      obtain rfl := (App.of_mul htwice).2
      have hx₂ : c.Sees s₂ x (.int (2 * w)) := hx.mono h₂
      refine (yields_binary hx₂ (Setting.sees_int w hx₂.pos) fun _ => rfl).bind fun r s₃ h₃ hr => ?_
      exact yields_trunc hr fun hc => by
        have := hr.pos hc
        omega
  | lowerHalf =>
      have hx : c.Sees s₁ x (.int (2 * w)) := hx
      exact yields_trunc hx fun hc => by
        have := hx.pos hc
        omega
  | complement =>
      have hones : c.Sees s₁ ⟨.int w, .allOnes⟩ (.int w) :=
        ⟨⟨nofun, nofun⟩, fun _ => rfl, fun hc => ⟨Llvm.Ty.legal_int.2 (hx.pos hc), rfl⟩⟩
      exact yields_binary hx hones fun _ => rfl
  | popCount => exact hcall (.cons hx .nil) rfl hx.pos
  | reverseBytes => exact yields_reverseBytes hx
  | scanForward => exact hcall (.cons hx (.cons (Setting.sees_bool _) .nil)) rfl hx.pos
  | scanReverse =>
      refine (hcall (.cons hx (.cons (Setting.sees_bool _) .nil)) rfl hx.pos).bind
        fun z s₂ h₂ hz => ?_
      refine (keeps_ofFault _).bind fun most s₃ h₃ _ => ?_
      exact yields_binary (Setting.sees_int most hz.pos) (hz.mono h₃) fun _ => rfl

theorem yields_binaryApp {op : BinaryOp} (ha : c.Reads a (.int w)) (hb : c.Reads b (.int w))
    (hcasts : c.typed → op = .testBit → w = 1 → c.casts) :
    Yields c (binaryApp c.env op w a b) s (if op.isTest then .int 1 else .int w) := by
  cases op with
  | add | sub | mul | udiv | urem | sdiv | srem | and | or | xor =>
      exact yields_plain ha hb fun _ => rfl
  | ult | ule | slt | sle => exact yields_comparison ha hb
  | testBit => exact (yieldsCast_testBit ha hb fun hc hw => hcasts hc rfl hw).yields
  | shl | shr => exact yields_shift ha hb rfl
  | sar => exact yields_shiftSigned ha hb

/-- Every operator with a carry converts it, except where a test has none. -/
theorem yieldsCast_carryApp {op : CarryOp} (ha : c.Reads a (.int w)) (hb : c.Reads b (.int w))
    (hcarry : c.Reads carry (.int 1))
    (hcasts : c.typed → w = 1 → ¬ (op.isTest = true ∧ carry.boolLiteral? = some false) → c.casts) :
    YieldsCast c (carryApp c.env op w a b carry) s (if op.isTest then .int 1 else .int w)
      (w = 1 ∧ ¬ (op.isTest = true ∧ carry.boolLiteral? = some false)) := by
  cases op with
  | adc | sbb =>
      exact (yieldsCast_withCarry ha hb hcarry rfl fun hc hw => hcasts hc hw nofun).imp
        fun _ _ hx => ⟨hx.1, fun hc hw => hx.2 hc hw.1⟩
  | uadcOverflows | sadcOverflows | usbbOverflows | ssbbOverflows =>
      refine (yieldsCast_overflow ha hb hcarry fun hc hw hl => hcasts hc hw fun h => hl h.2).imp
        fun _ _ hx => ⟨hx.1, fun hc hw => hx.2 hc ⟨hw.1, fun hl => hw.2 ⟨rfl, hl⟩⟩⟩

/-- A value is read at a type that its own is equal to. -/
theorem Setting.Reads.of_ty {v : Value} {τ : Ty} (h : c.Reads v (.ofTy v.ty))
    (hτ : c.typed → v.ty = τ) : c.Reads v (.ofTy τ) := by
  intro hc
  obtain ⟨-, hl, hk⟩ := h hc
  exact ⟨congrArg _ (hτ hc), hl, hk⟩

/-- The types of formats are of floating-point numbers, and have the widths of
the formats. -/
theorem isFloat_ofFormat (f : FloatFormat) : (Llvm.Ty.ofFormat f).isFloat = true
    ∧ (Llvm.Ty.ofFormat f).width? = some f.width ∧ (Llvm.Ty.ofFormat f).legal = true := by
  cases f <;> exact ⟨rfl, rfl, rfl⟩

theorem yields_floatBinaryApp {op : FloatBinaryOp} {f : FloatFormat}
    (ha : c.Reads a (.ofFormat f)) (hb : c.Reads b (.ofFormat f)) :
    Yields c (floatBinaryApp c.env op a b) s (if op.isTest then .int 1 else .ofFormat f) := by
  have hf := (isFloat_ofFormat f).1
  cases op with
  | add | sub | mul | div => exact yields_plain ha hb fun _ => hf
  | lt | eq => exact yields_floatComparison ha hb fun _ => hf

theorem yields_floatUnaryApp {op : FloatUnaryOp} {f : FloatFormat} (ha : c.Reads a (.ofFormat f)) :
    Yields c (floatUnaryApp c.env op f a) s (if op.isTest then .int 1 else .ofFormat f) := by
  cases op with
  | sqrt =>
      refine (yields_value ha).bind fun x s₁ _ hx => ?_
      exact yields_call (d := Llvm.Intrinsic.squareRoot (.ofFormat f)) (.cons hx .nil) hx.legal
  | isNaN => exact yields_floatComparison ha ha fun _ => (isFloat_ofFormat f).1

theorem yields_floatConvert {f g : FloatFormat} (ha : c.Reads a (.ofFormat f)) :
    Yields c (app c.env (.floatConvert f a g)) s (.ofFormat g) := by
  obtain ⟨hf, hfw, -⟩ := isFloat_ofFormat f
  obtain ⟨hg, hgw, hlegal⟩ := isFloat_ofFormat g
  refine (yields_value ha).bind fun x s₁ _ hx => ?_
  by_cases hlt : f.width < g.width
  · simp only [if_pos hlt]
    exact yields_cast hx fun _ => ⟨by simp [CastOperator.allows, hf, hg, hfw, hgw, hlt], hlegal⟩
  simp only [if_neg hlt]
  by_cases hgt : g.width < f.width
  · simp only [if_pos hgt]
    exact yields_cast hx fun _ => ⟨by simp [CastOperator.allows, hf, hg, hfw, hgw, hgt], hlegal⟩
  · simp only [if_neg hgt]
    refine keeps_pure (hx.of_eq fun _ => ?_)
    cases f <;> cases g <;>
      first | rfl | exact absurd (by decide) hlt | exact absurd (by decide) hgt

/-- Operands of any type with a width are compared as integers. -/
theorem yields_equality (ha : c.Reads a t) (hb : c.Reads b u)
    (hw : c.typed → t.width? = some w ∧ u.width? = some w) :
    Yields c (app c.env (.eq a b)) s (.int 1) := by
  refine (yields_value ha).bind fun x₀ s₁ _ hx₀ => ?_
  refine (yields_asInt hx₀ fun hc => (hw hc).1).bind fun x s₂ _ hx => ?_
  refine (yields_value hb).bind fun y₀ s₃ h₃ hy₀ => ?_
  refine (yields_asInt hy₀ fun hc => (hw hc).2).bind fun y s₄ h₄ hy => ?_
  exact yields_compare (hx.mono (h₃.trans h₄)) hy fun _ => rfl

theorem yields_choice {υ : Ty} (hd : c.Reads d (.int 1)) (ha : c.Reads a t) (hb : c.Reads b t) :
    Yields c (app c.env (.mux υ d a b)) s t := by
  refine (yields_value hd).bind fun z s₁ _ hz => ?_
  refine (yields_value ha).bind fun x s₂ h₂ hx => ?_
  refine (yields_value hb).bind fun y s₃ h₃ hy => ?_
  exact yields_select (hz.mono (h₂.trans h₃)) (hx.mono h₃) hy

/-- Bits of a type that is the same in the target language are left alone. -/
theorem yields_reinterpretation {υ φ : Ty} (ha : c.Reads a t)
    (hw : c.typed → t.width? = some w ∧ (Llvm.Ty.ofTy φ).width? = some w)
    (hφ : c.typed → (Llvm.Ty.ofTy φ).legal = true) :
    Yields c (app c.env (.bitcast a υ φ)) s (.ofTy φ) := by
  refine (yields_value ha).bind fun x s₁ _ hx => ?_
  by_cases hsame : x.ty = .ofTy φ
  · simp only [if_pos hsame]
    exact keeps_pure (hx.of_eq fun hc => (hx.ty hc).symm.trans hsame)
  · simp only [if_neg hsame]
    exact yields_bitcast hx hw hφ

theorem yields_field {ts : List Ty} {υ : Ty} {i : Nat} (ha : c.Reads a (.ofTy (.tuple ts)))
    (hi : c.typed → ts[i]? = some υ) : Yields c (app c.env (.field ts a i)) s (.ofTy υ) := by
  refine (yields_value ha).bind fun x s₁ _ hx => ?_
  cases hget : ts[i]? with
  | none =>
      refine (keeps_ofFault _).imp fun _ _ h => ?_
      contradiction
  | some φ =>
      refine Yields.of_eq (yields_extractValue hx fun _ => ?_) fun hc => ?_
      · rw [Llvm.Ty.ofTys_eq_map, List.getElem?_map, hget]
        rfl
      · rw [Option.some.inj (hget.symm.trans (hi hc))]

/-- The two operands are brought to the width of both together. -/
theorem yields_concat {m l : Nat} (ha : c.Reads a (.int m)) (hb : c.Reads b (.int l))
    (hpos : c.typed → 0 < m ∧ 0 < l) :
    Yields c (app c.env (.concat m l a b)) s (.int (m + l)) := by
  refine (keeps_ofFault _).bind fun w s₁ _ hw => ?_
  obtain rfl := App.of_add hw
  refine (yields_value ha).bind fun x₀ s₂ _ hx₀ => ?_
  refine (yields_zext hx₀ fun hc => Nat.lt_add_of_pos_right (hpos hc).2).bind fun x s₃ _ hx => ?_
  refine (yields_value hb).bind fun y₀ s₄ h₄ hy₀ => ?_
  refine (yields_zext hy₀ fun hc => Nat.lt_add_of_pos_left (hpos hc).1).bind fun y s₅ h₅ hy => ?_
  refine (yields_binary (hx.mono (h₄.trans h₅)) (Setting.sees_int l hx.pos) fun _ => rfl).bind
    fun z s₆ h₆ hz => ?_
  exact yields_binary hz (hy.mono h₆) fun _ => rfl

theorem yields_evenParity (ha : c.Reads a (.int 8)) :
    Yields c (app c.env (.evenParity a)) s (.int 1) := by
  refine (yields_value ha).bind fun x s₁ _ hx => ?_
  refine (yields_call (d := Llvm.Intrinsic.popCount 8) (.cons hx .nil) fun _ => rfl).bind
    fun n s₂ _ hn => ?_
  refine (yields_trunc hn fun _ => ⟨by decide, by decide⟩).bind fun odd s₃ _ hodd => ?_
  exact yields_binary hodd (Setting.sees_bool true) fun _ => rfl

/-- An operation that passed its check gives an operand of its own type. -/
theorem yields_app {f : App Value} {τ : Ty} (hv : ∀ v ∈ f.operands, c.Reads v (.ofTy v.ty))
    (hcheck : c.typed → f.check = .ok ()) (hτ : c.typed → f.ty = .ok τ ∧ τ.lowerable = true)
    (hcasts : c.typed → f.castsUnit = true → c.casts) :
    Yields c (app c.env f) s (.ofTy τ) := by
  have ht : c.typed → f.Typed Value.ty := fun hc => App.typed_of_check (hcheck hc)
  have hty : c.typed → f.ty = .ok τ := fun hc => (hτ hc).1
  -- the type of the operation, where types are looked at
  have hof : ∀ {υ : Ty}, (c.typed → f.ty = .ok υ) → c.typed → Llvm.Ty.ofTy υ = .ofTy τ :=
    fun h hc => congrArg _ (Except.ok.inj ((h hc).symm.trans (hty hc)))
  have hread : ∀ {v : Value} {υ : Ty}, v ∈ f.operands → (c.typed → v.ty = υ) →
      c.Reads v (.ofTy υ) := fun hmem h => (hv _ hmem).of_ty h
  cases f with
  | eq a b =>
      refine Yields.of_eq (yields_equality (w := a.ty.width?.getD 0) (hv a (by simp [App.operands]))
        (hv b (by simp [App.operands])) fun hc => ?_) (hof fun _ => rfl)
      obtain ⟨hab, -, w, hw⟩ := ht hc
      rw [width?_ofTy, width?_ofTy, ← hab, hw]
      exact ⟨rfl, rfl⟩
  | mux υ p a b =>
      have hυ : c.typed → υ = τ := fun hc => Except.ok.inj (hty hc)
      have hp : c.Reads p (.int 1) := hread (by simp [App.operands]) fun hc => (ht hc).1
      have ha : c.Reads a (.ofTy τ) :=
        hread (by simp [App.operands]) fun hc => (ht hc).2.1.trans (hυ hc)
      have hb : c.Reads b (.ofTy τ) :=
        hread (by simp [App.operands]) fun hc => (ht hc).2.2.trans (hυ hc)
      exact yields_choice hp ha hb
  | logic op a b =>
      have ha : c.Reads a (.int 1) := hread (by simp [App.operands]) fun hc => (ht hc).1
      have hb : c.Reads b (.int 1) := hread (by simp [App.operands]) fun hc => (ht hc).2
      refine Yields.of_eq ?_ (hof fun _ => rfl)
      cases op <;> exact yields_plain ha hb fun _ => rfl
  | not a =>
      have ha : c.Reads a (.int 1) := hread (by simp [App.operands]) fun hc => ht hc
      refine Yields.of_eq ?_ (hof fun _ => rfl)
      refine (yields_value ha).bind fun x s₁ _ hx => ?_
      exact yields_binary hx (Setting.sees_bool true) fun _ => rfl
  | resize op a v w =>
      have ha : c.Reads a (.int v) := hread (by simp [App.operands]) fun hc => (ht hc).2.2.2
      refine Yields.of_eq ?_ (hof fun _ => rfl)
      refine (yields_value ha).bind fun x s₁ _ hx => ?_
      refine yields_cast hx fun hc => ⟨?_, Llvm.Ty.legal_int.2 (ht hc).2.1⟩
      have hrel := (ht hc).2.2.1
      cases op <;> exact hrel
  | bitcast a υ φ =>
      have ha : c.Reads a (.ofTy υ) := hread (by simp [App.operands]) fun hc => by
        obtain ⟨w, -, ha, -⟩ := ht hc
        exact ha
      refine Yields.of_eq (yields_reinterpretation (w := φ.width?.getD 0) ha (fun hc => ?_)
        fun hc => ?_) (hof fun _ => rfl)
      · obtain ⟨w, -, -, hυw, hφw⟩ := ht hc
        rw [width?_ofTy, width?_ofTy, hυw, hφw]
        exact ⟨rfl, rfl⟩
      · obtain ⟨h, hl⟩ := hτ hc
        obtain rfl := Except.ok.inj h
        exact Ty.legal_of_lowerable hl
  | field ts a i =>
      refine yields_field (hread (by simp [App.operands]) fun hc => (ht hc).1) fun hc => ?_
      have hfield := hty hc
      rw [App.ty] at hfield
      split at hfield
      case h_1 υ hi => rw [hi, Except.ok.inj hfield]
      case h_2 => contradiction
  | concat m l a b =>
      have ha : c.Reads a (.int m) := hread (by simp [App.operands]) fun hc => (ht hc).2.2.1
      have hb : c.Reads b (.int l) := hread (by simp [App.operands]) fun hc => (ht hc).2.2.2
      refine Yields.of_eq (yields_concat ha hb fun hc => ⟨(ht hc).1, (ht hc).2.1⟩) fun hc => ?_
      obtain ⟨w, hw, rfl⟩ := ok_of_map (hty hc)
      rw [App.of_add hw]
      rfl
  | evenParity a =>
      exact Yields.of_eq (yields_evenParity (hread (by simp [App.operands]) ht)) (hof fun _ => rfl)
  | unary op w a =>
      have ha : c.Reads a (.int (op.operandWidth w)) :=
        hread (by simp [App.operands]) fun hc => (ht hc).2.2.2
      exact Yields.of_eq (yields_unaryApp ha) (hof fun _ => rfl)
  | binary op w a b =>
      have ha : c.Reads a (.int w) := hread (by simp [App.operands]) fun hc => (ht hc).2.1
      have hb : c.Reads b (.int w) := hread (by simp [App.operands]) fun hc => (ht hc).2.2
      refine Yields.of_eq (yields_binaryApp ha hb ?_) fun hc => ?_
      · rintro hc rfl rfl
        exact hcasts hc rfl
      · rw [← hof (fun _ => rfl) hc]
        cases op.isTest <;> rfl
  | carry op w a b d =>
      have ha : c.Reads a (.int w) := hread (by simp [App.operands]) fun hc => (ht hc).2.1
      have hb : c.Reads b (.int w) := hread (by simp [App.operands]) fun hc => (ht hc).2.2.1
      have hd : c.Reads d (.int 1) := hread (by simp [App.operands]) fun hc => (ht hc).2.2.2
      refine Yields.of_eq (yieldsCast_carryApp ha hb hd ?_).yields fun hc => ?_
      · rintro hc rfl hd
        refine hcasts hc ?_
        simpa [App.castsUnit, Classical.or_iff_not_imp_left] using hd
      · rw [← hof (fun _ => rfl) hc]
        cases op.isTest <;> rfl
  | floatUnary op f a =>
      have ha : c.Reads a (.ofFormat f) :=
        hread (by simp [App.operands]) fun hc => App.eq_of_expectTy (hcheck hc)
      refine Yields.of_eq (yields_floatUnaryApp ha) fun hc => ?_
      rw [← hof (fun _ => rfl) hc]
      cases op.isTest <;> rfl
  | floatBinary op f a b =>
      have hab : c.typed → a.ty = .float f ∧ b.ty = .float f := fun hc => by
        obtain ⟨_, ha, hb⟩ := ok_of_bind (hcheck hc)
        exact ⟨App.eq_of_expectTy ha, App.eq_of_expectTy hb⟩
      have ha : c.Reads a (.ofFormat f) := hread (by simp [App.operands]) fun hc => (hab hc).1
      have hb : c.Reads b (.ofFormat f) := hread (by simp [App.operands]) fun hc => (hab hc).2
      refine Yields.of_eq (yields_floatBinaryApp ha hb) fun hc => ?_
      rw [← hof (fun _ => rfl) hc]
      cases op.isTest <;> rfl
  | floatConvert f a g =>
      have ha : c.Reads a (.ofFormat f) :=
        hread (by simp [App.operands]) fun hc => App.eq_of_expectTy (hcheck hc)
      exact Yields.of_eq (yields_floatConvert ha) (hof fun _ => rfl)
  | floatOfSigned w a f =>
      have hbits : c.typed → a.ty = .bits w := fun hc => by
        obtain ⟨υ, hw, ha⟩ := ok_of_bind (hcheck hc)
        exact (App.eq_of_expectTy ha).trans (App.of_positiveBits hw).2
      have ha : c.Reads a (.int w) := hread (by simp [App.operands]) hbits
      obtain ⟨hf, -, hlegal⟩ := isFloat_ofFormat f
      refine Yields.of_eq ?_ (hof fun _ => rfl)
      refine (yields_value ha).bind fun x s₁ _ hx => yields_cast hx fun _ => ⟨?_, hlegal⟩
      exact hf
  | signedOfFloat f a w =>
      have hcheck' : c.typed → 0 < w ∧ a.ty = .float f := fun hc => by
        obtain ⟨υ, hw, ha⟩ := ok_of_bind (hcheck hc)
        exact ⟨(App.of_positiveBits hw).1, App.eq_of_expectTy ha⟩
      have ha : c.Reads a (.ofFormat f) := hread (by simp [App.operands]) fun hc => (hcheck' hc).2
      refine Yields.of_eq ?_ (hof fun _ => rfl)
      refine (yields_value ha).bind fun x s₁ _ hx => yields_cast hx fun hc => ⟨?_, ?_⟩
      · rw [CastOperator.allows, (isFloat_ofFormat f).1]
        rfl
      · exact Llvm.Ty.legal_int.2 (hcheck' hc).1

/-- An operation that is said to be lowered to a cast of an integer of one bit to
its own type is. -/
theorem yieldsCast_app {f : App Value} {τ : Ty} (hv : ∀ v ∈ f.operands, c.Reads v (.ofTy v.ty))
    (hcheck : c.typed → f.check = .ok ()) (hτ : c.typed → f.ty = .ok τ ∧ τ.lowerable = true)
    (hcasts : c.typed → f.castsUnit = true → c.casts) :
    YieldsCast c (app c.env f) s (.ofTy τ) (f.castsUnit = true) := by
  have hyields : Yields c (app c.env f) s (.ofTy τ) := yields_app hv hcheck hτ hcasts
  by_cases hf : f.castsUnit = true
  case neg => exact hyields.without_cast hf
  refine hyields.and ?_
  have ht : c.typed → f.Typed Value.ty := fun hc => App.typed_of_check (hcheck hc)
  have hread : ∀ {v : Value} {υ : Ty}, v ∈ f.operands → (c.typed → v.ty = υ) →
      c.Reads v (.ofTy υ) := fun hmem h => (hv _ hmem).of_ty h
  have hpass : c.typed → c.casts := fun hc => hcasts hc hf
  unfold App.castsUnit at hf
  split at hf
  case h_1 w a b =>
    have ha : c.Reads a (.int w) := hread (by simp [App.operands]) fun hc => (ht hc).2.1
    have hb : c.Reads b (.int w) := hread (by simp [App.operands]) fun hc => (ht hc).2.2
    exact (yieldsCast_testBit ha hb fun hc _ => hpass hc).imp
      fun _ _ hx hc _ => hx.2 hc (eq_of_beq hf)
  case h_2 op w a b d =>
    have ha : c.Reads a (.int w) := hread (by simp [App.operands]) fun hc => (ht hc).2.1
    have hb : c.Reads b (.int w) := hread (by simp [App.operands]) fun hc => (ht hc).2.2.1
    have hd : c.Reads d (.int 1) := hread (by simp [App.operands]) fun hc => (ht hc).2.2.2
    refine (yieldsCast_carryApp ha hb hd fun hc _ _ => hpass hc).imp
      fun _ _ hx hc _ => hx.2 hc ?_
    simpa [Classical.or_iff_not_imp_left] using hf
  case h_3 => contradiction

end Lowering

end LiftedCode
