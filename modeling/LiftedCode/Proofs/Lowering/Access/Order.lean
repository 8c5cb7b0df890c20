/-
The byte order of accesses. A value that is brought to the order of its layout is the number
whose bytes, the lowest first, are those of the value in that order (`givesIn_matchOrder`).
Layouts for which there is no code to do so are refused (`not_succeeds_matchOrder`).
-/
import LiftedCode.Proofs.Lowering.Access.Step

namespace LiftedCode

-- =============================================================== the scope

namespace Layout

/-- Whether accesses with the layout are lowered for a memory of a byte order: packed
elements of the other one have to be numbers of one byte or of an even number of them. -/
def accepts (l : Layout) (target : ByteOrder) : Bool :=
  l.order == target || match l with
    | bits _ _ | float _ _ => true
    | packed _ (bits n _) => n == 1 || n % 2 == 0
    | packed _ _ => false

/-- Whether a width that an access computes leaves its range: that of the layout, or that
with one more byte of a number of which the bytes are reversed. -/
def TooWide : Layout → Prop
  | bits n .big => Width.limit ≤ 8 * n + 8
  | l => l.bitsFit = false

theorem tooWide_of_bitsFit {l : Layout} (h : l.bitsFit = false) : l.TooWide := by
  unfold TooWide
  split
  case h_1 n =>
    have hwide : Width.limit ≤ 8 * n := by simpa [bitsFit] using h
    omega
  case h_2 => exact h

end Layout

namespace Lowering

open Llvm (Typed Op Declaration Data Frame Linkage Intrinsic.swapBytes)

/-- The declarations that bringing a value to the order of a layout asks for. -/
def orderDeclarations : Layout → List Declaration
  | .bits n .big => (builtins (.unary .reverseBytes (8 * n) ())).map fun b => b.1.declaration b.2
  | .float f .big => (builtins (.unary .reverseBytes f.width ())).map fun b => b.1.declaration b.2
  | .packed c (.bits n .big) => [Intrinsic.swapBytes (.vector c (.int (8 * n)))]
  | _ => []

variable {link : Linkage} {wanted : Declaration → Prop} {tooWide : Prop} {env : Env}
  {s s' : State} {ρ : Frame} {M : Memory} {l : Layout} {w : Nat}

-- =============================================================== byte order

/-- The bytes of a number in the opposite order. -/
theorem givesIn_reverseBytes {x : Typed} {X : BitVec w}
    (hx : Stands link s ρ x (.int w) (.bits w X)) (h8 : 8 ∣ w)
    (hd : ∀ b ∈ builtins (.unary .reverseBytes w ()), wanted (b.1.declaration b.2))
    (hwide : Width.limit ≤ w + 8 → tooWide) :
    GivesIn link wanted tooWide (Step.reverseBytes x) s ρ M (.int w)
      (.bits w (Bits.reverseBytes X)) := by
  refine (gives_reverseBytes hx h8 ?_ ?_ hwide).performs (staysLocal_reverseBytes hx.ty) M
  · intro h h16
    exact hd (.swapBytes, w) (by simp [builtins, h, h16])
  · intro h h16
    exact hd (.swapBytes, w + 8) (by simp [builtins, h, h16])

/-- The bytes of every element of a vector in the opposite order, if there is an even number
of them. -/
theorem givesIn_swapElements {c n : Nat} {x : Typed} {X : BitVec w} (hw : w = 8 * (c * n))
    (hn : n % 2 = 0) (hx : Stands link s ρ x (.vector c (.int (8 * n))) (.bits w X))
    (hd : wanted (Intrinsic.swapBytes (.vector c (.int (8 * n))))) :
    GivesIn link wanted tooWide (Step.call (Intrinsic.swapBytes x.ty) [x]) s ρ M
      (.vector c (.int (8 * n))) (.bits w (Bits.reverseElements (8 * n) X)) := by
  rw [hx.ty]
  refine givesIn_call hd fun s₁ ρ₁ hp => ?_
  refine Op.evalIn_swapElements (hw.trans (Nat.mul_left_comm 8 c n)) (by omega) ?_
  rw [List.mapM_cons, (hx.of_preserves hp).eval]
  rfl

/-- What is asked of accesses with a layout to a memory with the lowest byte first. -/
structure Accessible (wanted : Declaration → Prop) (tooWide : Prop) (env : Env) (l : Layout) :
    Prop where
  order : env.target.order = .little
  accepts : l.accepts .little = true
  declared : ∀ d ∈ orderDeclarations l, wanted d
  wide : l.TooWide → tooWide

/-- A value in the order of memory brought to that of its layout, or back. -/
theorem givesIn_matchOrder (hl : Accessible wanted tooWide env l) (hw : w = 8 * l.byteSize)
    {x : Typed} {X : BitVec w} (hx : Stands link s ρ x (.ofTy l.ty) (.bits w X)) :
    GivesIn link wanted tooWide (Step.matchOrder env l x) s ρ M (.ofTy l.ty)
      (.bits w (l.reorder X)) := by
  obtain ⟨henv, hl, hd, hwide⟩ := hl
  unfold Step.matchOrder
  by_cases ho : l.order = .little
  · simp only [henv, if_pos ho]
    rw [Layout.reorder_of_little ho]
    exact performs_pure ⟨rfl, hx⟩
  simp only [henv, if_neg ho]
  cases l with
  | bits n o =>
      cases o with
      | little => exact absurd rfl ho
      | big =>
          subst hw
          rw [Layout.reorder_of_big (fun _ => rfl) rfl]
          refine givesIn_reverseBytes hx (Nat.dvd_mul_right 8 n) (fun b hb => hd _ ?_) hwide
          exact List.mem_map.2 ⟨b, hb, rfl⟩
  | float f o =>
      cases o with
      | little => exact absurd rfl ho
      | big =>
          obtain rfl : w = f.width := by cases f <;> exact hw
          have hroom : f.width + 8 < Width.limit := by cases f <;> decide
          have hint : GivesIn link wanted tooWide (Step.asInt x) s ρ M (.int f.width)
              (.bits f.width X) :=
            (gives_asInt (t := .float f) hx rfl rfl).performs (staysLocal_asInt x) M
          apply hint.bind
          rintro i s₁ ρ₁ M h₁ ⟨rfl, hi⟩
          have hreverse : GivesIn link wanted tooWide (Step.reverseBytes i) s₁ ρ₁ M (.int f.width)
              (.bits f.width (Bits.reverseBytes X)) := by
            refine givesIn_reverseBytes hi (hw ▸ Nat.dvd_mul_right 8 _) (fun b hb => hd _ ?_)
              fun hlimit => absurd hlimit (Nat.not_le_of_lt hroom)
            exact List.mem_map.2 ⟨b, hb, rfl⟩
          apply hreverse.bind
          rintro r s₂ ρ₂ M h₂ ⟨rfl, hr⟩
          rw [Layout.reorder_of_big (fun _ => rfl) hw, hx.ty]
          refine givesIn_cast (by decide) hr ?_
          exact if_pos (width?_ofTy (.float f))
  | packed c e =>
      cases e with
      | bits n o =>
          cases o with
          | little => exact absurd rfl ho
          | big =>
              dsimp only
              by_cases h1 : n = 1
              · subst h1
                simp only [if_true]
                rw [Layout.reorder_packed_byte]
                exact performs_pure ⟨rfl, hx⟩
              have heven : n % 2 = 0 := by simpa [Layout.accepts, Layout.order, h1] using hl
              simp only [if_neg h1, if_pos heven]
              rw [Layout.reorder_packed_big (n := n) hw]
              exact givesIn_swapElements hw heven hx (hd _ List.mem_cons_self)
      | float f o => exact absurd hl (by simpa [Layout.accepts] using ho)
      | packed c e => exact absurd hl (by simpa [Layout.accepts] using ho)

/-- Values are not brought to any other order. -/
theorem not_succeeds_matchOrder {x y : Typed} (h : l.accepts env.target.order = false) :
    ¬ Succeeds (Step.matchOrder env l x) s y s' := by
  obtain ⟨ho, hshape⟩ := Bool.or_eq_false_iff.1 h
  unfold Step.matchOrder
  simp only [if_neg (show ¬ l.order = env.target.order by simpa using ho)]
  cases l with
  | bits | float => contradiction
  | packed c e =>
      cases e with
      | bits n o =>
          obtain ⟨h1, heven⟩ := Bool.or_eq_false_iff.1 hshape
          simp only [if_neg (show ¬ n = 1 by simpa using h1),
            if_neg (show ¬ n % 2 = 0 by simpa using heven)]
          exact not_succeeds_refuse
      | float | packed => exact not_succeeds_refuse

/-- A value is brought to the order of accepted layouts only. -/
theorem accepts_of_matchOrder {x y : Typed} (h : Succeeds (Step.matchOrder env l x) s y s') :
    l.accepts env.target.order = true :=
  Bool.of_not_eq_false fun hl => not_succeeds_matchOrder hl h

end Lowering

end LiftedCode
