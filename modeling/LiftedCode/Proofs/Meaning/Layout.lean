/-
Where the bytes of a value lie. A layout says for every offset in memory which byte of
the value is there (`Layout.source`): the same, the one as far from the other end, or, for
packed elements, one of the element that lies there. From an offset to a byte and on in the
same way leads back (`source_source`), so that what was brought to the order of a layout is
brought back in the same way (`reorder_reorder`).
-/
import LiftedCode.Layout
import LiftedCode.Proofs.Meaning.Bits

namespace LiftedCode

namespace Bits

/-- Every element of `w` bits with its bytes in the opposite order. -/
def reverseElements (w : Nat) {v : Nat} (x : BitVec v) : BitVec v :=
  ofBits v fun i => (reverseBytes (x.extractLsb' (w * (i / w)) w)).getLsbD (i % w)

theorem getLsbD_reverseElements {n v : Nat} (hn : 0 < n) (x : BitVec v) {i : Nat} (hi : i < v) :
    (reverseElements (8 * n) x).getLsbD i
      = x.getLsbD (8 * (n * (i / 8 / n) + (n - 1 - i / 8 % n)) + i % 8) := by
  unfold reverseElements
  rw [getLsbD_ofBits _ hi]
  have hrow : i / (8 * n) = i / 8 / n := (Nat.div_div_eq_div_mul i 8 n).symm
  have hbyte : i % (8 * n) / 8 = i / 8 % n := Nat.mod_mul_right_div_self i 8 n
  have hbit : i % (8 * n) % 8 = i % 8 := Nat.mod_mul_right_mod i 8 n
  have hin : i % (8 * n) < 8 * n := Nat.mod_lt i (by omega)
  have hcol : i / 8 % n < n := Nat.mod_lt _ hn
  rw [getLsbD_reverseBytes _ hin, BitVec.getLsbD_extractLsb', hrow, hbyte, hbit,
    Nat.mul_div_cancel_left n (by decide)]
  have hlt : 8 * (n - 1 - i / 8 % n) + i % 8 < 8 * n := by omega
  rw [decide_eq_true hlt, Bool.true_and]
  congr 1
  rw [Nat.mul_add, Nat.mul_assoc, Nat.add_assoc]

end Bits

/-- The byte of a number of `n` bytes that lies at an offset. -/
def ByteOrder.source : ByteOrder → Nat → Nat → Nat
  | little, _, k => k
  | big, n, k => n - 1 - k

theorem ByteOrder.source_lt (o : ByteOrder) {n k : Nat} (hk : k < n) : o.source n k < n := by
  cases o with
  | little => exact hk
  | big =>
      show n - 1 - k < n
      omega

theorem ByteOrder.source_source (o : ByteOrder) {n k : Nat} (hk : k < n) :
    o.source n (o.source n k) = k := by
  cases o with
  | little => rfl
  | big =>
      show n - 1 - (n - 1 - k) = k
      omega

namespace Layout

/-- The byte of a value that lies at an offset. -/
def source : Layout → Nat → Nat
  | bits n o, k => o.source n k
  | float f o, k => o.source (f.width / 8) k
  | packed _ l, k => l.byteSize * (k / l.byteSize) + l.source (k % l.byteSize)

theorem source_packed (n : Nat) (l : Layout) (k : Nat) : (packed n l).source k
    = l.byteSize * (k / l.byteSize) + l.source (k % l.byteSize) := rfl

theorem source_lt (l : Layout) {k : Nat} (hk : k < l.byteSize) : l.source k < l.byteSize := by
  induction l generalizing k with
  | bits n o => exact o.source_lt hk
  | float f o => exact o.source_lt hk
  | packed n l ih =>
      have hpos : 0 < l.byteSize := Nat.pos_of_ne_zero fun h0 => by
        rw [byteSize, h0] at hk
        exact absurd hk (Nat.not_lt_zero k)
      have hrow : k / l.byteSize < n := Nat.div_lt_of_lt_mul (Nat.mul_comm n _ ▸ hk)
      have hlast : l.byteSize * (k / l.byteSize) + l.byteSize ≤ n * l.byteSize := by
        rw [← Nat.mul_succ, Nat.mul_comm n]
        exact Nat.mul_le_mul_left _ hrow
      have hbyte := ih (Nat.mod_lt k hpos)
      rw [source_packed, byteSize]
      omega

/-- The byte at an offset lies at the offset of that number, and the other way round. -/
theorem source_source (l : Layout) {k : Nat} (hk : k < l.byteSize) : l.source (l.source k) = k := by
  induction l generalizing k with
  | bits n o => exact o.source_source hk
  | float f o => exact o.source_source hk
  | packed n l ih =>
      have hpos : 0 < l.byteSize := Nat.pos_of_ne_zero fun h0 => by
        rw [byteSize, h0] at hk
        exact absurd hk (Nat.not_lt_zero k)
      have hin := Nat.mod_lt k hpos
      have hbyte := l.source_lt hin
      rw [source_packed, source_packed, Nat.mul_add_div hpos, Nat.div_eq_of_lt hbyte,
        Nat.add_zero, Nat.mul_add_mod, Nat.mod_eq_of_lt hbyte, ih hin]
      exact Nat.div_add_mod k l.byteSize

/-- The lowest byte first is the order of the bytes of a number. -/
theorem source_of_little {l : Layout} (h : l.order = .little) (k : Nat) : l.source k = k := by
  induction l generalizing k with
  | bits n o | float f o =>
      cases h
      rfl
  | packed n l ih =>
      rw [source_packed, ih h]
      exact Nat.div_add_mod k l.byteSize

-- ============================================================ whole values

section

variable {w : Nat}

/-- The byte of a value at an offset. -/
def byteAt (l : Layout) (x : BitVec w) (k : Nat) : BitVec 8 := x.extractLsb' (8 * l.source k) 8

/-- The number whose bytes, the lowest first, are those of a value in the order of the
layout. -/
def reorder (l : Layout) (x : BitVec w) : BitVec w :=
  Bits.ofBits w fun i => x.getLsbD (8 * l.source (i / 8) + i % 8)

theorem getLsbD_reorder (l : Layout) (x : BitVec w) {i : Nat} (hi : i < w) :
    (l.reorder x).getLsbD i = x.getLsbD (8 * l.source (i / 8) + i % 8) :=
  Bits.getLsbD_ofBits _ hi

theorem extractLsb'_reorder (l : Layout) (hw : w = 8 * l.byteSize) (x : BitVec w) {k : Nat}
    (hk : k < l.byteSize) : (l.reorder x).extractLsb' (8 * k) 8 = l.byteAt x k := by
  apply BitVec.eq_of_getLsbD_eq
  intro i hi
  unfold byteAt
  rw [BitVec.getLsbD_extractLsb', BitVec.getLsbD_extractLsb', l.getLsbD_reorder x (by omega)]
  have hbyte : (8 * k + i) / 8 = k := by omega
  have hbit : (8 * k + i) % 8 = i := by omega
  rw [hbyte, hbit]

/-- What was brought to the order of a layout is brought back in the same way. -/
theorem reorder_reorder (l : Layout) (hw : w = 8 * l.byteSize) (x : BitVec w) :
    l.reorder (l.reorder x) = x := by
  apply BitVec.eq_of_getLsbD_eq
  intro i hi
  have hk : i / 8 < l.byteSize := by omega
  have hsource := l.source_lt hk
  rw [l.getLsbD_reorder _ hi, l.getLsbD_reorder x (by omega)]
  have hbyte : (8 * l.source (i / 8) + i % 8) / 8 = l.source (i / 8) := by omega
  have hbit : (8 * l.source (i / 8) + i % 8) % 8 = i % 8 := by omega
  rw [hbyte, hbit, l.source_source hk, Nat.div_add_mod]

theorem reorder_of_source {l : Layout} (h : ∀ k, l.source k = k) (x : BitVec w) :
    l.reorder x = x := by
  apply BitVec.eq_of_getLsbD_eq
  intro i hi
  rw [l.getLsbD_reorder x hi, h, Nat.div_add_mod]

theorem reorder_of_little {l : Layout} (h : l.order = .little) (x : BitVec w) : l.reorder x = x :=
  reorder_of_source (source_of_little h) x

/-- The highest byte of a number first. -/
theorem reorder_of_big {l : Layout} {n : Nat} (h : ∀ k, l.source k = ByteOrder.big.source n k)
    (hw : w = 8 * n) (x : BitVec w) : l.reorder x = Bits.reverseBytes x := by
  apply BitVec.eq_of_getLsbD_eq
  intro i hi
  have hsize : w / 8 = n := by omega
  rw [l.getLsbD_reorder x hi, Bits.getLsbD_reverseBytes x hi, h, hsize]
  rfl

/-- The highest byte of every element first. -/
theorem reorder_packed_big {c n : Nat} (hw : w = 8 * (c * n)) (x : BitVec w) :
    (packed c (bits n .big)).reorder x = Bits.reverseElements (8 * n) x := by
  apply BitVec.eq_of_getLsbD_eq
  intro i hi
  have hn : 0 < n := Nat.pos_of_ne_zero fun h0 => by
    rw [h0, Nat.mul_zero, Nat.mul_zero] at hw
    exact Nat.not_lt_zero i (hw ▸ hi)
  rw [getLsbD_reorder _ x hi, Bits.getLsbD_reverseElements hn x hi]
  rfl

/-- There is no other order of one byte. -/
theorem reorder_packed_byte (c : Nat) (o : ByteOrder) (x : BitVec w) :
    (packed c (bits 1 o)).reorder x = x := by
  refine reorder_of_source (fun k => ?_) x
  have hone : o.source 1 (k % 1) = 0 := Nat.lt_one_iff.1 (o.source_lt (Nat.mod_lt k Nat.one_pos))
  show 1 * (k / 1) + o.source 1 (k % 1) = k
  rw [hone, Nat.div_one, Nat.one_mul, Nat.add_zero]

end

end Layout

end LiftedCode
