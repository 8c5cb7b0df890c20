/-
Widths. The width of a type is computed for the types of values and for those of the
target language, in bytes for layouts, and once more for the sorts of terms. All four
agree (`widths_agree`): only tuples have no width, and vectors of what has none, and
where the products in the width of a type are 32-bit numbers, so are the ones that
the others compute.
-/
import LiftedCode.Layout
import LiftedCode.Llvm.OfTy
import LiftedCode.Trace.Event

namespace LiftedCode

-- =============================================================== types

/-- Whether a type is a tuple, or a vector over one at any depth. -/
inductive Ty.OverTuple : Ty → Prop where
  | tuple (ts : List Ty) : OverTuple (.tuple ts)
  | vector (n : Nat) {t : Ty} (h : OverTuple t) : OverTuple (.vector n t)

theorem Ty.width?_eq_none_iff (t : Ty) : t.width? = none ↔ t.OverTuple := by
  constructor
  · intro h
    match t with
    | .tuple ts => exact .tuple ts
    | .vector n t => exact .vector n ((width?_eq_none_iff t).1 (Option.map_eq_none_iff.1 h))
  · intro h
    induction h with
    | tuple => rfl
    | vector n _ ih => exact Option.map_eq_none_iff.2 ih

namespace Lowering

/-- A type has the width of the type that stands for it. -/
theorem width?_ofTy : (t : Ty) → (Llvm.Ty.ofTy t).width? = t.width?
  | .bool | .bits _ | .tuple _ => rfl
  | .float f => by cases f <;> rfl
  | .vector n t => by
    rw [Llvm.Ty.ofTy, Llvm.Ty.width?, Ty.width?, width?_ofTy t]

theorem widthFits_ofTy : (t : Ty) → (Llvm.Ty.ofTy t).widthFits = t.widthFits
  | .bool | .bits _ | .tuple _ => rfl
  | .float f => by cases f <;> rfl
  | .vector n t => by
    rw [Llvm.Ty.ofTy, Llvm.Ty.widthFits, Ty.widthFits, widthFits_ofTy t, width?_ofTy t]

end Lowering

-- ============================================================= layouts

namespace Layout

/-- A value is as wide as its layout has bytes. -/
theorem width?_ty (l : Layout) : l.ty.width? = some (8 * l.byteSize) := by
  induction l with
  | bits n o => rfl
  | float f o => cases f <;> rfl
  | packed n l ih =>
      show l.ty.width?.map (n * ·) = some (8 * (n * l.byteSize))
      rw [ih, Option.map_some, Nat.mul_left_comm]

/-- Where the bits of a value can be counted, its bytes can. -/
theorem byteSizeFits_of_widthFits {l : Layout} (hl : l.bitsFit = true)
    (hw : l.ty.widthFits = true) : l.byteSizeFits = true ∧ 8 * l.byteSize < Width.limit := by
  induction l with
  | bits n o => exact ⟨rfl, of_decide_eq_true hl⟩
  | float f o => cases f <;> exact ⟨rfl, of_decide_eq_true rfl⟩
  | packed n l ih =>
      rw [ty, Ty.widthFits, width?_ty, Bool.and_eq_true] at hw
      obtain ⟨hfits, -⟩ := ih hl hw.1
      have hbits : n * (8 * l.byteSize) < Width.limit := of_decide_eq_true hw.2
      have hbytes : 8 * (n * l.byteSize) < Width.limit := by rwa [Nat.mul_left_comm]
      refine ⟨?_, hbytes⟩
      rw [byteSizeFits, hfits, Bool.true_and, decide_eq_true_eq]
      omega

end Layout

-- =============================================================== sorts

namespace Trace

/-- Everything but truth values is a bitvector of its width, if it has one. -/
theorem sortOf_of_ne_bool {τ : Ty} (hτ : τ ≠ .bool) : sortOf τ = τ.width?.map .bits := by
  cases τ with
  | bool => exact absurd rfl hτ
  | bits | float | tuple | vector => rfl

/-- Every type with a width but that of truth values is one of bitvectors. -/
theorem sortOf_of_width {τ : Ty} {w : Nat} (hτ : τ ≠ .bool) (hw : τ.width? = some w) :
    sortOf τ = some (.bits w) := by
  rw [sortOf_of_ne_bool hτ, hw]
  rfl

/-- The values of a layout have a width, and hence a sort. -/
theorem exists_sortOf_layout (l : Layout) : ∃ s, sortOf l.ty = some s := by
  cases l with
  | bits | float | packed => exact ⟨_, sortOf_of_width Ty.noConfusion (Layout.width?_ty _)⟩

theorem sortOf_eq_none_iff (τ : Ty) : sortOf τ = none ↔ τ.width? = none := by
  by_cases hτ : τ = .bool
  · rw [hτ]
    exact ⟨nofun, nofun⟩
  · rw [sortOf_of_ne_bool hτ, Option.map_eq_none_iff]

theorem sortOf_eq_bool_iff (τ : Ty) : sortOf τ = some .bool ↔ τ = .bool := by
  by_cases hτ : τ = .bool
  · rw [hτ]
    exact ⟨fun _ => rfl, fun _ => rfl⟩
  · rw [sortOf_of_ne_bool hτ, Option.map_eq_some_iff]
    exact ⟨fun ⟨_, _, hsort⟩ => Smt.TermSort.noConfusion hsort, fun h => absurd h hτ⟩

end Trace

/-- Where the widths of a type are 32-bit numbers, the type that stands for it has the same
width, there is none exactly over tuples, and its sort is that of the width, except for
truth values. The type of a layout is eight times as wide as the layout has bytes. -/
theorem widths_agree {t : Ty} (ht : t.widthFits = true) {l : Layout} (hl : l.bitsFit = true)
    (hlt : l.ty.widthFits = true) :
    (∃ w s, t.checkedWidth = .ok w ∧ (Llvm.Ty.ofTy t).checkedWidth = .ok w
        ∧ (w = none ↔ t.OverTuple) ∧ Trace.checkedSortOf t = .ok s ∧ (s = none ↔ w = none)
        ∧ (s = some .bool ↔ t = .bool) ∧ (t ≠ .bool → s = w.map .bits))
      ∧ ∃ u n v, l.checkedTy = .ok u ∧ l.checkedByteSize = .ok n ∧ Width.mul 8 n = .ok v
        ∧ u.checkedWidth = .ok (some v) := by
  constructor
  · refine ⟨t.width?, Trace.sortOf t, ?_, ?_, t.width?_eq_none_iff, ?_,
      Trace.sortOf_eq_none_iff t, Trace.sortOf_eq_bool_iff t, Trace.sortOf_of_ne_bool⟩
    · rw [Ty.checkedWidth, ht]
      rfl
    · rw [Llvm.Ty.checkedWidth, Lowering.widthFits_ofTy, ht, Lowering.width?_ofTy]
      rfl
    · rw [Trace.checkedSortOf, ht]
      rfl
  · obtain ⟨hbytes, hmul⟩ := Layout.byteSizeFits_of_widthFits hl hlt
    refine ⟨l.ty, l.byteSize, 8 * l.byteSize, ?_, ?_, ?_, ?_⟩
    · rw [Layout.checkedTy, hl]
      rfl
    · rw [Layout.checkedByteSize, hbytes]
      rfl
    · rw [Width.mul, decide_eq_true hmul]
      rfl
    · rw [Ty.checkedWidth, hlt, Layout.width?_ty]
      rfl

/-- Vectors of vectors over a tuple, which have no width, and of numbers, which lie in
memory with the highest byte first. -/
theorem widths_agree_nested :
    let pairs := Ty.vector 2 (.vector 4096 (.tuple [.bits 8, .bool]))
    let quads := Layout.packed 2 (.packed 4 (.float .extended .big))
    pairs.widthFits = true ∧ quads.bitsFit = true ∧ quads.ty.widthFits = true
      ∧ quads.ty = .vector 2 (.vector 4 (.float .extended))
      ∧ (Llvm.Ty.ofTy pairs).checkedWidth = .ok none ∧ Trace.checkedSortOf pairs = .ok none
      ∧ quads.checkedByteSize = .ok 80 ∧ quads.ty.checkedWidth = .ok (some 640)
      ∧ Trace.checkedSortOf quads.ty = .ok (some (.bits 640)) := by
  intro pairs quads
  obtain ⟨⟨w, s, hw, hllvm, hnone, hs, hsw, -, -⟩, u, n, v, hu, hn, hv, huv⟩ :=
    @widths_agree pairs rfl quads rfl rfl
  obtain ⟨⟨w', s', hw', -, -, hs', -, -, hbits⟩, -⟩ := @widths_agree quads.ty rfl quads rfl rfl
  cases hu
  cases hn
  cases hv
  obtain rfl : w' = some 640 := (Except.ok.inj (hw'.symm.trans huv))
  obtain rfl : w = none := hnone.2 (.vector _ (.vector _ (.tuple _)))
  rw [hsw.2 rfl] at hs
  rw [hbits nofun] at hs'
  exact ⟨rfl, rfl, rfl, rfl, hllvm, hs, rfl, huv, hs'⟩

end LiftedCode
