/-
The discipline of accesses to memory. A value keeps its type when its bytes are
reversed, and what is read or written has the type of the layout.
-/
import LiftedCode.Proofs.Expr.Checked
import LiftedCode.Proofs.Lowering.Sound.Step

namespace LiftedCode.Lowering

open Llvm (Typed CastOperator Intrinsic.swapBytes Intrinsic.maskedLoad Intrinsic.maskedStore)

variable {c : Setting} {s : State} {x : Typed} {t u : Llvm.Ty} {w v : Nat}

-- ============================================================ conversions

/-- A cast between types of one width. -/
theorem yields_bitcast (hx : c.Sees s x t)
    (hw : c.typed → t.width? = some w ∧ u.width? = some w)
    (hu : c.typed → u.legal = true) : Yields c (Step.cast .bitcast x u) s u := by
  refine yields_cast hx fun hc => ⟨?_, hu hc⟩
  rw [CastOperator.allows, (hw hc).1, (hw hc).2, beq_self_eq_true]
  rfl

theorem yields_trunc (hx : c.Sees s x (.int v)) (hw : c.typed → 0 < w ∧ w < v) :
    Yields c (Step.cast .trunc x (.int w)) s (.int w) :=
  yields_cast hx fun hc => ⟨decide_eq_true (hw hc).2, Llvm.Ty.legal_int.2 (hw hc).1⟩

theorem yields_zext (hx : c.Sees s x (.int v)) (hw : c.typed → v < w) :
    Yields c (Step.cast .zext x (.int w)) s (.int w) :=
  yields_cast hx fun hc =>
    ⟨decide_eq_true (hw hc), Llvm.Ty.legal_int.2 (Nat.lt_of_le_of_lt (Nat.zero_le v) (hw hc))⟩

/-- A value of any type with a width, as an integer. -/
theorem yields_asInt (hx : c.Sees s x t) (hw : c.typed → t.width? = some w) :
    Yields c (Step.asInt x) s (.int w) := by
  unfold Step.asInt
  by_cases hi : x.ty.isInt = true
  · simp only [if_pos hi]
    refine keeps_pure (hx.of_eq fun hc => ?_)
    have hw := hw hc
    rw [← hx.ty hc] at hw ⊢
    cases hty : x.ty with
    | int v =>
        rw [hty] at hw
        rw [Option.some.inj hw]
    | half | float | double | extended | ptr | void | vector | struct =>
        rw [hty] at hi
        contradiction
  · simp only [if_neg hi]
    refine (keeps_ofFault _).bind fun r s₁ h₁ hr => ?_
    cases r with
    | none => exact keeps_throw
    | some v =>
        have hvw : c.typed → v = w := by
          intro hc
          have hv := Llvm.Ty.width?_of_checkedWidth hr
          rw [hx.ty hc, hw hc] at hv
          exact (Option.some.inj hv).symm
        have hwidth : c.typed → t.width? = some w ∧ (Llvm.Ty.int v).width? = some w := fun hc => by
          rw [hvw hc]
          exact ⟨hw hc, rfl⟩
        refine Yields.of_eq (yields_bitcast (hx.mono h₁) hwidth fun hc => ?_)
          fun hc => congrArg _ (hvw hc)
        rw [hvw hc, Llvm.Ty.legal_int]
        exact Llvm.Ty.pos_of_legal t (hx.legal hc) (hw hc)

/-- The bytes in the opposite order make a value of the same type. -/
theorem yields_swapBytes (hx : c.Sees s x t) :
    Yields c (Step.call (Intrinsic.swapBytes t) [x]) s t :=
  yields_call (d := Intrinsic.swapBytes t) (.cons hx .nil) hx.legal

theorem yields_reverseBytes (hx : c.Sees s x t) : Yields c (Step.reverseBytes x) s t := by
  unfold Step.reverseBytes
  split
  case h_2 => exact keeps_throw
  case h_1 v hty =>
    have hv : c.typed → t = .int v := fun hc => (hx.ty hc).symm.trans hty
    have hx := hx.of_eq hv
    refine Yields.of_eq ?_ fun hc => (hv hc).symm
    refine keeps_guard fun _ => ?_
    by_cases h : v = 8
    · simp only [if_pos h]
      exact keeps_pure hx
    simp only [if_neg h]
    by_cases h16 : v % 16 = 0
    · simp only [if_pos h16]
      rw [hty]
      exact yields_swapBytes hx
    · simp only [if_neg h16]
      refine (keeps_ofFault _).bind fun wider s₁ h₁ hwider => ?_
      obtain rfl := App.of_add hwider
      have hlt : v < v + 8 := Nat.lt_add_of_pos_right (by decide)
      refine (yields_zext (hx.mono h₁) fun _ => hlt).bind fun y s₂ h₂ hy => ?_
      refine (yields_swapBytes hy).bind fun z s₃ h₃ hz => ?_
      refine (yields_binary hz (Setting.sees_int 8 hz.pos) fun _ => rfl).bind fun r s₄ h₄ hr => ?_
      exact yields_trunc hr fun hc => ⟨hx.pos hc, hlt⟩

/-- A value of a layout's type keeps it whether or not it is brought to another
byte order. -/
theorem yields_matchOrder {l : Layout} (hx : c.Sees s x t) (ht : c.typed → .ofTy l.ty = t) :
    Yields c (Step.matchOrder c.env l x) s t := by
  unfold Step.matchOrder
  by_cases ho : l.order = c.env.target.order
  · simp only [if_pos ho]
    exact keeps_pure hx
  simp only [if_neg ho]
  split
  case h_1 => exact yields_reverseBytes hx
  case h_2 f e =>
    have hwidth : c.typed → t.width? = some f.width := fun hc => by
      rw [← ht hc, width?_ofTy]
      rfl
    refine (yields_asInt hx hwidth).bind fun i s₁ h₁ hi => ?_
    refine (yields_reverseBytes hi).bind fun r s₂ h₂ hr => ?_
    refine Yields.of_eq (yields_bitcast hr (fun hc => ⟨rfl, ?_⟩) fun hc => ?_) hx.ty
    · rw [hx.ty hc]
      exact hwidth hc
    · rw [hx.ty hc]
      exact hx.legal hc
  case h_3 n m e =>
    by_cases h1 : m = 1
    · simp only [if_pos h1]
      exact keeps_pure hx
    simp only [if_neg h1]
    by_cases h2 : m % 2 = 0
    · simp only [if_pos h2]
      exact (yields_swapBytes (hx.of_eq fun hc => (hx.ty hc).symm)).of_eq hx.ty
    · simp only [if_neg h2]
      exact keeps_refuse
  case h_4 => exact keeps_refuse

-- ================================================================ accesses

variable {addr cond d a : Value} {l : Layout}

/-- Whether a value can be read as an address. -/
def Setting.Addresses (c : Setting) (v : Value) : Prop :=
  ∃ t, c.Reads v t ∧ (c.typed → t.isInt = true)

/-- Bitvectors can be read as addresses. -/
theorem Setting.Reads.addresses {v : Value} (h : c.Reads v (.ofTy v.ty))
    (hv : c.typed → ∃ w, v.ty = .bits w) : c.Addresses v := by
  refine ⟨_, h, fun hc => ?_⟩
  obtain ⟨w, hw⟩ := hv hc
  rw [hw]
  rfl

theorem yields_address (ha : c.Addresses addr) : Yields c (address c.env addr) s .ptr := by
  obtain ⟨t, ha, ht⟩ := ha
  refine (yields_value ha).bind fun _ _ _ hx => yields_cast hx fun hc => ⟨?_, rfl⟩
  rw [CastOperator.allows, ht hc]
  rfl

theorem keeps_layoutTy : Keeps c (layoutTy l) s fun t _ => t = .ofTy l.ty := by
  refine (keeps_ofFault _).bind fun t s₁ _ ht => keeps_pure ?_
  rw [Layout.of_checkedTy ht]

theorem yields_mask (hcond : c.Reads cond (.int 1)) :
    Yields c (mask c.env cond) s (.single (.int 1)) :=
  (yields_value hcond).bind fun _ _ _ hx =>
    yields_bitcast hx (fun _ => ⟨rfl, rfl⟩) fun _ => legal_single rfl rfl

/-- The type of a layout that is not one of packed elements has no parts. -/
theorem isScalar_of_isPacked (hl : l.isPacked = false) : (Llvm.Ty.ofTy l.ty).isScalar = true := by
  cases l with
  | bits => rfl
  | float f => cases f <;> rfl
  | packed => contradiction

theorem yields_read (ha : c.Addresses addr)
    (hl : c.typed → (Llvm.Ty.ofTy l.ty).legal = true) :
    Yields c (read c.env addr l) s (.ofTy l.ty) := by
  refine (yields_address ha).bind fun p s₁ _ hp => ?_
  refine keeps_layoutTy.bind fun _ s₂ h₂ ht => ?_
  subst ht
  refine (yields_load (hp.mono h₂) hl).bind fun x s₃ _ hx => ?_
  exact yields_matchOrder hx fun _ => rfl

theorem yields_readIf (hcond : c.Reads cond (.int 1)) (ha : c.Addresses addr)
    (hd : c.Reads d (.ofTy l.ty)) : Yields c (readIf c.env l cond addr d) s (.ofTy l.ty) := by
  unfold readIf
  by_cases hp : l.isPacked = true
  · simp only [if_pos hp]
    exact (keeps_refuse (Q := fun _ _ => False)).bind fun _ _ _ h => h.elim
  simp only [if_neg hp]
  have hscalar := isScalar_of_isPacked (Bool.eq_false_iff.2 hp)
  refine keeps_layoutTy.bind fun _ s₂ _ ht => ?_
  subst ht
  refine (yields_mask hcond).bind fun m s₃ _ hm => ?_
  refine (yields_address ha).bind fun p s₄ h₄ hp => ?_
  refine (yields_value hd).bind fun d₀ s₅ h₅ hd₀ => ?_
  refine (yields_matchOrder hd₀ fun _ => rfl).bind fun d s₆ h₆ hd => ?_
  refine (yields_insertFirst hd (fun _ => rfl) fun _ => hscalar).bind fun v s₇ h₇ hv => ?_
  have h₅₇ := h₅.trans (h₆.trans h₇)
  refine (yields_call (d := Intrinsic.maskedLoad (.ofTy l.ty)) (.cons (hp.mono h₅₇)
    (.cons (Setting.sees_int 1 fun _ => by decide)
      (.cons (hm.mono (h₄.trans h₅₇)) (.cons hv .nil))))
    hv.legal).bind fun r s₈ h₈ hr => ?_
  refine (yields_extractFirst hr hd.legal).bind fun x s₉ _ hx => ?_
  exact yields_matchOrder hx fun _ => rfl

theorem keeps_write (ha : c.Addresses addr) (hv : c.Reads a t)
    (ht : c.typed → .ofTy l.ty = t) : Keeps c (write c.env addr l a) s fun _ _ => True := by
  refine (yields_value hv).bind fun x₀ s₁ _ hx₀ => ?_
  refine (yields_matchOrder hx₀ ht).bind fun x s₂ _ hx => ?_
  refine (yields_address ha).bind fun p s₃ h₃ hp => ?_
  exact keeps_store (hx.mono h₃) hp

theorem keeps_writeIf (hcond : c.Reads cond (.int 1)) (ha : c.Addresses addr)
    (hv : c.Reads a t) (ht : c.typed → .ofTy l.ty = t) :
    Keeps c (writeIf c.env cond addr l a) s fun _ _ => True := by
  refine (yields_value hv).bind fun x₀ s₁ _ hx₀ => ?_
  refine (yields_matchOrder hx₀ ht).bind fun x s₂ _ hx => ?_
  by_cases hp : l.isPacked = true
  · simp only [if_pos hp]
    exact (keeps_refuse (Q := fun _ _ => False)).bind fun _ _ _ h => h.elim
  simp only [if_neg hp]
  have hscalar : c.typed → t.isScalar = true := fun hc => by
    rw [← ht hc]
    exact isScalar_of_isPacked (Bool.eq_false_iff.2 hp)
  refine (yields_mask hcond).bind fun m s₃ h₃ hm => ?_
  refine (yields_address ha).bind fun p s₄ h₄ hp => ?_
  have hx₄ : c.Sees s₄ x x.ty := (hx.mono (h₃.trans h₄)).of_eq fun hc => (hx.ty hc).symm
  have hsingle : Yields c (singleton x) s₄ x.ty.single :=
    yields_insertFirst hx₄ (fun _ => rfl) fun hc => by
      rw [hx.ty hc]
      exact hscalar hc
  refine hsingle.bind fun v s₅ h₅ hv => ?_
  exact keeps_callVoid (d := Intrinsic.maskedStore x.ty) (.cons hv (.cons (hp.mono h₅)
    (.cons (Setting.sees_int 1 fun _ => by decide) (.cons (hm.mono (h₄.trans h₅)) .nil)))) rfl

end LiftedCode.Lowering
