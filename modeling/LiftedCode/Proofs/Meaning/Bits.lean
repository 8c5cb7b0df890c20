/-
Bitvectors bit by bit: the bit-level descriptions that operations are held
against, and the arithmetic behind them.

- counting: `countSet` is the number of set bits, and a sum over the bits gives
  it (`countSet_eq_sum`); the exclusive disjunction of the bits tells whether it
  is odd (`foldl_xor`).
- searching: `lowestSet?` and `highestSet?` look for a set bit from either end,
  and find it next to the zeros at that end (`lowestSet?_eq`, `highestSet?_eq`).
- bytes: `reverseBytes` and `shuffle128` name every bit of the result by the bit
  it comes from, and a shuffle is known byte by byte (`byte_shuffle128`).
- ranges: `leavesUnsigned` and `leavesSigned` say when an exact integer is not
  one of the values of a width, and the two top bits of a bitvector with one
  more bit say the same (`getLsbD_ofInt_top`, `ofInt_tops_differ`).
- division: the signed quotient and remainder of bitvectors are those of the
  integers (`sdiv_eq_ofInt`, `srem_eq_ofInt`).
-/
import Mathlib.Algebra.Ring.Int.Defs
import Mathlib.Algebra.Ring.Nat

namespace LiftedCode.Bits

-- ================================================== descriptions by bits

/-- The bitvector with the given bits. -/
def ofBits (w : Nat) (f : Nat → Bool) : BitVec w :=
  (BitVec.iunfoldr (fun i (_ : Unit) => ((), f i)) ()).2

/-- Every bit is the one that was given. -/
theorem getLsbD_ofBits {w : Nat} (f : Nat → Bool) {i : Nat} (h : i < w) :
    (ofBits w f).getLsbD i = f i :=
  BitVec.iunfoldr_getLsbD (fun _ => ()) ⟨i, h⟩ (fun _ => rfl)

/-- The byte at a position, counted from the lowest. -/
def byte {w : Nat} (x : BitVec w) (i : Nat) : BitVec 8 := x.extractLsb' (8 * i) 8

/-- How many bits are set. -/
def countSet {w : Nat} (x : BitVec w) : Nat := (List.range w).countP x.getLsbD

/-- The index of the lowest set bit. -/
def lowestSet? {w : Nat} (x : BitVec w) : Option Nat := (List.range w).find? x.getLsbD

/-- The index of the highest set bit. -/
def highestSet? {w : Nat} (x : BitVec w) : Option Nat := (List.range w).reverse.find? x.getLsbD

/-- The bytes in the opposite order. -/
def reverseBytes {w : Nat} (x : BitVec w) : BitVec w :=
  ofBits w fun i => x.getLsbD (8 * (w / 8 - 1 - i / 8) + i % 8)

/-- The bytes of `src` picked by those of `index`, both of 128 bits: a byte of
the index names a byte of the source by its low four bits, and zero if its top
bit is set. -/
def shuffle128 (src index : BitVec 128) : BitVec 128 :=
  ofBits 128 fun i =>
    !index.getLsbD (8 * (i / 8) + 7)
      && src.getLsbD (8 * (index.toNat / 2 ^ (8 * (i / 8)) % 16) + i % 8)

/-- Whether an integer is not the unsigned reading of `w` bits. -/
def leavesUnsigned (w : Nat) (n : Int) : Bool := n < 0 || (2 : Int) ^ w ≤ n

/-- Whether an integer is not the signed reading of `w` bits. -/
def leavesSigned (w : Nat) (n : Int) : Bool :=
  n < -(2 : Int) ^ (w - 1) || (2 : Int) ^ (w - 1) ≤ n

-- ============================================================== counting

/-- Counting over a list is summing zeros and ones. -/
theorem countP_eq_sum (f : Nat → Bool) (l : List Nat) :
    l.countP f = (l.map fun i => (f i).toNat).sum := by
  induction l with
  | nil => rfl
  | cons i l ih =>
      rw [List.countP_cons, List.map_cons, List.sum_cons, ih]
      cases f i
      · simp
      · simp [Nat.add_comm]

/-- The set bits are counted by summing the bits. -/
theorem countSet_eq_sum {w : Nat} (x : BitVec w) :
    countSet x = ((List.range w).map fun i => (x.getLsbD i).toNat).sum :=
  countP_eq_sum _ _

/-- The exclusive disjunction of the bits at some indices tells whether an odd
number of them is set. -/
theorem foldl_xor (f : Nat → Bool) (l : List Nat) (b : Bool) :
    l.foldl (fun acc i => acc ^^ f i) b = (b ^^ decide (l.countP f % 2 = 1)) := by
  induction l generalizing b with
  | nil => simp
  | cons i l ih =>
      rw [List.foldl_cons, ih, List.countP_cons]
      cases f i
      · simp
      · simp only [Bool.xor_true, if_true]
        have h : decide ((l.countP f + 1) % 2 = 1) = !decide (l.countP f % 2 = 1) := by
          rw [← decide_not]
          exact decide_eq_decide.2 (by omega)
        rw [h]
        simp

/-- The library counts the same set bits. -/
theorem cpop_eq_countSet {w : Nat} (x : BitVec w) : x.cpop = BitVec.ofNat w (countSet x) := by
  have h : ∀ n, x.cpopNatRec n 0 = (List.range n).countP x.getLsbD := by
    intro n
    induction n with
    | zero => rfl
    | succ n ih =>
        rw [BitVec.cpopNatRec_succ, BitVec.cpopNatRec_eq, ih, List.range_succ, List.countP_append,
          List.countP_singleton, Nat.zero_add]
        cases x.getLsbD n <;> rfl
  rw [BitVec.cpop, h, countSet]

/-- Below the trailing zeros nothing is set. -/
theorem lowestSet?_eq {w : Nat} (x : BitVec w) :
    lowestSet? x = if x = 0#w then none else some x.ctz.toNat := by
  by_cases hx : x = 0#w
  · rw [if_pos hx, hx, lowestSet?, List.find?_range_eq_none]
    intro i _
    simp
  · rw [if_neg hx, lowestSet?, List.find?_range_eq_some]
    refine ⟨BitVec.getLsbD_true_ctz_of_ne_zero hx, ?_, ?_⟩
    · rw [List.mem_range]
      exact BitVec.lt_of_getLsbD (BitVec.getLsbD_true_ctz_of_ne_zero hx)
    · intro j hj
      rw [BitVec.getLsbD_false_of_lt_ctz hj]
      rfl

/-- A number that is not zero has fewer leading zeros than bits. -/
theorem clz_lt {w : Nat} {x : BitVec w} (hx : x ≠ 0#w) : x.clz.toNat < w := by
  have h := BitVec.lt_def.1 (BitVec.clz_lt_iff_ne_zero.2 hx)
  rwa [BitVec.natCast_eq_ofNat, BitVec.toNat_ofNat, Nat.mod_eq_of_lt Nat.lt_two_pow_self] at h

/-- Above what is left by the leading zeros nothing is set. -/
theorem highestSet?_eq {w : Nat} (x : BitVec w) :
    highestSet? x = if x = 0#w then none else some (w - 1 - x.clz.toNat) := by
  by_cases hx : x = 0#w
  · rw [if_pos hx, hx, highestSet?, List.find?_eq_none]
    intro i _
    simp
  · rw [if_neg hx, highestSet?, List.find?_eq_some_iff_getElem]
    have hw : 0 < w := by
      apply Nat.pos_of_ne_zero
      rintro rfl
      exact hx (BitVec.of_length_zero)
    refine ⟨BitVec.getLsbD_true_clz_of_ne_zero hw hx, x.clz.toNat, by simpa using clz_lt hx, ?_, ?_⟩
    · simp
    · intro j hj
      have hf : x.getLsbD (w - 1 - j) = false := by
        apply Nat.testBit_lt_two_pow
        exact Nat.lt_of_lt_of_le BitVec.toNat_lt_two_pow_sub_clz
          (Nat.pow_le_pow_right (by decide) (by omega))
      simp [hf]

theorem clz_zero (w : Nat) : (0#w).clz = BitVec.ofNat w w := BitVec.clz_eq_iff_eq_zero.2 rfl

theorem ctz_zero (w : Nat) : (0#w).ctz = BitVec.ofNat w w := by
  rw [BitVec.ctz, BitVec.reverse_eq_zero_iff.2 rfl, clz_zero]

-- ================================================================ bytes

/-- A bit of a byte is a bit of the number. -/
theorem getLsbD_byte {w : Nat} (x : BitVec w) (i : Nat) {j : Nat} (hj : j < 8) :
    (byte x i).getLsbD j = x.getLsbD (8 * i + j) := by
  rw [byte, BitVec.getLsbD_extractLsb', decide_eq_true hj, Bool.true_and]

/-- The low four bits of a byte are also those of the number moved down to it. -/
theorem toNat_byte_mod {w : Nat} (x : BitVec w) (i : Nat) :
    (byte x i).toNat % 16 = x.toNat / 2 ^ (8 * i) % 16 := by
  rw [byte, BitVec.extractLsb'_toNat, Nat.shiftRight_eq_div_pow]
  omega

/-- A byte of a shuffle is zero if its byte of the index has the top bit set,
and else the byte of the source that the low four bits name. -/
theorem byte_shuffle128 (src index : BitVec 128) {i : Nat} (hi : i < 16) :
    byte (shuffle128 src index) i
      = if (byte index i).getLsbD 7 then 0#8 else byte src ((byte index i).toNat % 16) := by
  refine BitVec.eq_of_getLsbD_eq fun j hj => ?_
  have hbit : (byte (shuffle128 src index) i).getLsbD j = (!(byte index i).getLsbD 7
      && (byte src ((byte index i).toNat % 16)).getLsbD j) := by
    rw [getLsbD_byte _ i hj, shuffle128, getLsbD_ofBits _ (by omega),
      show (8 * i + j) / 8 = i by omega, show (8 * i + j) % 8 = j by omega,
      getLsbD_byte index i (by omega), getLsbD_byte src _ hj, toNat_byte_mod]
  rw [hbit]
  cases (byte index i).getLsbD 7
  · rfl
  · rw [if_pos rfl, BitVec.getLsbD_zero]
    rfl

/-- A bit of the reversed bytes lies in the byte as far from the other end. -/
theorem getLsbD_reverseBytes {w : Nat} (x : BitVec w) {i : Nat} (h : i < w) :
    (reverseBytes x).getLsbD i = x.getLsbD (8 * (w / 8 - 1 - i / 8) + i % 8) :=
  getLsbD_ofBits _ h

/-- One byte is its own reverse. -/
theorem reverseBytes_of_byte (x : BitVec 8) : reverseBytes x = x := by
  apply BitVec.eq_of_getLsbD_eq
  intro i hi
  rw [getLsbD_reverseBytes x hi]
  congr 1
  omega

/-- The bytes come out reversed also with a zero byte in front that is taken
away at the other end. -/
theorem reverseBytes_widened {w : Nat} (x : BitVec w) (h8 : 8 ∣ w) :
    (reverseBytes (x.setWidth (w + 8)) >>> 8).setWidth w = reverseBytes x := by
  obtain ⟨n, rfl⟩ := h8
  apply BitVec.eq_of_getLsbD_eq
  intro i hi
  rw [BitVec.getLsbD_setWidth, BitVec.getLsbD_ushiftRight, getLsbD_reverseBytes _ (by omega),
    getLsbD_reverseBytes x hi, BitVec.getLsbD_setWidth]
  have : 8 * ((8 * n + 8) / 8 - 1 - (8 + i) / 8) + (8 + i) % 8
      = 8 * (8 * n / 8 - 1 - i / 8) + i % 8 := by omega
  rw [this]
  have hj : 8 * (8 * n / 8 - 1 - i / 8) + i % 8 < 8 * n + 8 := by omega
  rw [decide_eq_true hi, decide_eq_true hj, Bool.true_and, Bool.true_and]

-- ============================================== shifts and concatenations

/-- A shift to the right by the width or more leaves only copies of the sign. -/
theorem sshiftRight_of_le {w n : Nat} (x : BitVec w) (h : w ≤ n) :
    x.sshiftRight n = x.sshiftRight (w - 1) := by
  apply BitVec.eq_of_getLsbD_eq
  intro i hi
  rw [BitVec.getLsbD_sshiftRight, BitVec.getLsbD_sshiftRight, if_neg (by omega)]
  by_cases h0 : i = 0
  · subst h0
    rw [if_pos (by omega), Nat.add_zero, ← BitVec.msb_eq_getLsbD_last]
  · rw [if_neg (by omega)]

/-- A concatenation is the upper part shifted over the lower. -/
theorem concat_eq {h l : Nat} (x : BitVec h) (y : BitVec l) :
    x.setWidth (h + l) <<< l ||| y.setWidth (h + l) = x ++ y := by
  apply BitVec.eq_of_getLsbD_eq
  intro i hi
  rw [BitVec.getLsbD_or, BitVec.getLsbD_shiftLeft, BitVec.getLsbD_append,
    BitVec.getLsbD_setWidth, BitVec.getLsbD_setWidth]
  by_cases hl : i < l
  · simp [hl, hi]
  · have : y.getLsbD i = false := BitVec.getLsbD_of_ge _ _ (by omega)
    simp [hl, hi, this]
    omega

-- =============================================================== ranges

/-- Of a bitvector with one bit more than `w`, the extra bit is set exactly if
the unsigned reading is beyond `w` bits. -/
theorem top_set_iff {w : Nat} (r : BitVec (w + 1)) : r.getLsbD w = true ↔ 2 ^ w ≤ r.toNat := by
  have hp : 0 < 2 ^ w := Nat.two_pow_pos w
  have hr : r.toNat < 2 ^ w * 2 := by
    have := r.isLt
    rwa [Nat.pow_succ] at this
  have hd : r.toNat / 2 ^ w < 2 := Nat.div_lt_of_lt_mul hr
  have hle : 1 ≤ r.toNat / 2 ^ w ↔ 1 * 2 ^ w ≤ r.toNat := Nat.le_div_iff_mul_le hp
  rw [Nat.one_mul] at hle
  rw [BitVec.getLsbD, Nat.testBit_eq_decide_div_mod_eq, decide_eq_true_iff, ← hle]
  generalize r.toNat / 2 ^ w = q at *
  omega

/-- Of a bitvector with one bit more than `w`, the two top bits differ exactly
if the signed reading leaves the range of `w` bits. -/
theorem leavesSigned_iff_top {w : Nat} (hw : 0 < w) (r : BitVec (w + 1)) :
    leavesSigned w r.toInt = (r.getLsbD w != r.getLsbD (w - 1)) := by
  obtain ⟨n, rfl⟩ : ∃ n, w = n + 1 := ⟨w - 1, by omega⟩
  have hp : 0 < 2 ^ n := Nat.two_pow_pos n
  have hr : r.toNat < 2 ^ n * 4 := by
    have := r.isLt
    rw [Nat.pow_succ, Nat.pow_succ] at this
    omega
  -- `q` is the number that the two top bits make
  obtain ⟨q, hq⟩ : ∃ q, q = r.toNat / 2 ^ n := ⟨_, rfl⟩
  have hlo : q * 2 ^ n ≤ r.toNat := hq ▸ Nat.div_mul_le_self _ _
  have hhi : r.toNat < (q + 1) * 2 ^ n := by
    rw [hq, Nat.add_mul, Nat.one_mul]
    exact Nat.lt_div_mul_add hp
  have hq4 : q < 4 := by
    rw [hq]
    exact Nat.div_lt_of_lt_mul hr
  have hbit : r.getLsbD n = decide (q % 2 = 1) := by
    rw [BitVec.getLsbD, Nat.testBit_eq_decide_div_mod_eq, hq]
  have htop : r.getLsbD (n + 1) = decide (q / 2 % 2 = 1) := by
    rw [BitVec.getLsbD, Nat.testBit_eq_decide_div_mod_eq, hq, Nat.pow_succ, Nat.div_div_eq_div_mul]
  have hint : r.toInt = if q < 2 then (r.toNat : Int) else (r.toNat : Int) - 4 * (2 ^ n : Nat) := by
    rw [BitVec.toInt_eq_toNat_cond]
    have h4 : 2 ^ (n + 1 + 1) = 2 ^ n * 4 := by rw [Nat.pow_succ, Nat.pow_succ]; omega
    rw [h4]
    have hiff : 2 * r.toNat < 2 ^ n * 4 ↔ q < 2 := by
      constructor
      · intro h
        refine Nat.lt_of_not_le fun h2 => ?_
        have := Nat.mul_le_mul_right (2 ^ n) h2
        omega
      · intro h
        have : (q + 1) * 2 ^ n ≤ 2 * 2 ^ n := Nat.mul_le_mul_right (2 ^ n) h
        omega
    simp only [hiff]
    split
    · rfl
    · push_cast
      omega
  have hcast : ((2 : Int) ^ n) = ((2 ^ n : Nat) : Int) := by push_cast; rfl
  rw [Nat.add_sub_cancel, hbit, htop, leavesSigned, Nat.add_sub_cancel, hint, hcast]
  generalize 2 ^ n = p at *
  generalize r.toNat = m at *
  have hcases : q = 0 ∨ q = 1 ∨ q = 2 ∨ q = 3 := by omega
  rcases hcases with rfl | rfl | rfl | rfl
  · simp; omega
  · simp; omega
  · simp; omega
  · simp; omega

/-- The bitvector of a difference is the difference of the bitvectors. -/
theorem ofInt_sub {w : Nat} (m n : Int) :
    BitVec.ofInt w (m - n) = BitVec.ofInt w m - BitVec.ofInt w n := by
  rw [Int.sub_eq_add_neg, BitVec.ofInt_add, BitVec.ofInt_neg, BitVec.sub_eq_add_neg]

/-- A power of two is the same number as an integer. -/
theorem intCast_two_pow (w : Nat) : (2 : Int) ^ w = ((2 ^ w : Nat) : Int) := by
  push_cast
  rfl

/-- An integer that one more bit can hold, as an unsigned number or as a
negative one, leaves the unsigned range exactly if the extra bit is set. -/
theorem getLsbD_ofInt_top {w : Nat} {n : Int} (hlo : -(2 : Int) ^ w ≤ n)
    (hhi : n < (2 : Int) ^ (w + 1)) :
    (BitVec.ofInt (w + 1) n).getLsbD w = leavesUnsigned w n := by
  have hp : 2 ^ (w + 1) = 2 ^ w * 2 := Nat.pow_succ 2 w
  have hpos : 0 < 2 ^ (w + 1) := Nat.two_pow_pos _
  have hn : ((BitVec.ofInt (w + 1) n).toNat : Int)
      = if n < 0 then n + (2 ^ (w + 1) : Nat) else n := by
    rw [BitVec.toNat_ofInt, Int.toNat_of_nonneg (Int.emod_nonneg _ (by omega))]
    rw [intCast_two_pow] at hlo hhi
    split
    case isTrue h =>
      rw [← Int.add_emod_right, Int.emod_eq_of_lt (by omega) (by omega)]
    case isFalse h => exact Int.emod_eq_of_lt (by omega) hhi
  have hiff : (BitVec.ofInt (w + 1) n).getLsbD w = true ↔ leavesUnsigned w n = true := by
    rw [top_set_iff, ← Int.ofNat_le, hn, leavesUnsigned, Bool.or_eq_true, decide_eq_true_iff,
      decide_eq_true_iff, intCast_two_pow]
    rw [intCast_two_pow] at hlo
    split <;> omega
  exact Bool.eq_iff_iff.2 hiff

/-- An integer that one more bit can hold as a signed number leaves the signed
range exactly if the two top bits differ. -/
theorem ofInt_tops_differ {w : Nat} (hw : 0 < w) {n : Int} (hlo : -(2 : Int) ^ w ≤ n)
    (hhi : n < (2 : Int) ^ w) :
    ((BitVec.ofInt (w + 1) n).getLsbD w != (BitVec.ofInt (w + 1) n).getLsbD (w - 1))
      = leavesSigned w n := by
  rw [← leavesSigned_iff_top hw, BitVec.toInt_ofInt_eq_self (Nat.succ_pos w) hlo hhi]

-- ============================================================= division

/-- Reducing an integer to a width first does not change its bitvector. -/
theorem ofInt_bmod {w : Nat} (n : Int) : BitVec.ofInt w (n.bmod (2 ^ w)) = BitVec.ofInt w n := by
  apply BitVec.eq_of_toInt_eq
  rw [BitVec.toInt_ofInt, BitVec.toInt_ofInt, Int.bmod_bmod]

/-- The signed quotient is that of the integers. -/
theorem sdiv_eq_ofInt {w : Nat} (x y : BitVec w) :
    x.sdiv y = BitVec.ofInt w (x.toInt.tdiv y.toInt) := by
  rw [← ofInt_bmod, ← BitVec.toInt_sdiv, BitVec.ofInt_toInt]

/-- The signed remainder is that of the integers. -/
theorem srem_eq_ofInt {w : Nat} (x y : BitVec w) :
    x.srem y = BitVec.ofInt w (x.toInt.tmod y.toInt) := by
  rw [← BitVec.toInt_srem, BitVec.ofInt_toInt]

/-- A division by something other than zero has the quotient in the sense of
every convention. -/
theorem smtSDiv_eq_sdiv {w : Nat} (x : BitVec w) {y : BitVec w} (hy : y ≠ 0#w) :
    x.smtSDiv y = x.sdiv y := by
  have hn : -y ≠ 0#w := by rwa [Ne, BitVec.neg_eq_zero_iff]
  rw [BitVec.smtSDiv_eq, BitVec.sdiv_eq]
  cases x.msb <;> cases y.msb <;> simp [BitVec.smtUDiv_eq, hy, hn]

end LiftedCode.Bits
