/-
Literals in two's complement. Literals and the literals of terms have the number that
they are made from, reduced to their width, at every width. A signed number and the
number that is all ones at every width are given in 128 bits first, and what is reduced
is that: beyond 128 bits a literal has zeros, where two's complement has copies of the
sign and all ones has ones (`Literal.twosComplement`).
-/
import LiftedCode.Proofs.Smt.Eval

namespace LiftedCode

variable {w m : Nat} {v : Int}

-- ============================================================= numbers

/-- Magnitudes are reduced by a mask. -/
theorem reduceMagnitude_eq_and (w m : Nat) :
    reduceMagnitude w m = m &&& largestMagnitude w :=
  (Nat.and_two_pow_sub_one_eq_mod m _).symm

/-- What fits in a magnitude is reduced to the width, also if the width is larger. -/
theorem reduceMagnitude_eq_mod (hm : m < valueCount magnitudeBits) :
    reduceMagnitude w m = m % valueCount w := by
  unfold reduceMagnitude
  rcases Nat.le_total w magnitudeBits with h | h
  · rw [Nat.min_eq_left h]
  · rw [Nat.min_eq_right h, Nat.mod_eq_of_lt hm,
      Nat.mod_eq_of_lt (Nat.lt_of_lt_of_le hm (valueCount_le_valueCount h))]

theorem reduceMagnitude_largestMagnitude (w : Nat) :
    reduceMagnitude w (largestMagnitude magnitudeBits) = largestMagnitude w := by
  have hlt : largestMagnitude w < 2 ^ magnitudeBits :=
    Nat.lt_of_lt_of_le (Nat.sub_lt (valueCount_pos _) Nat.zero_lt_one)
      (valueCount_le_valueCount (Nat.min_le_right _ _))
  rw [reduceMagnitude_eq_and, Nat.and_comm]
  exact Nat.and_two_pow_sub_one_of_lt_two_pow hlt

theorem valueCount_lt_valueCount {k : Nat} (h : k < w) : valueCount k < valueCount w :=
  Nat.pow_lt_pow_right (by decide) h

/-- Up to 128 bits, and not beyond, the largest magnitude is all ones. -/
theorem largestMagnitude_eq_iff : largestMagnitude w = valueCount w - 1 ↔ w ≤ magnitudeBits := by
  unfold largestMagnitude
  rcases Nat.lt_or_ge magnitudeBits w with h | h
  · have hlt := valueCount_lt_valueCount h
    have hpos := valueCount_pos magnitudeBits
    rw [Nat.min_eq_right (Nat.le_of_lt h)]
    omega
  · rw [Nat.min_eq_left h]
    exact iff_of_true rfl h

/-- A signed number in two's complement of 128 bits, reduced to the width. -/
theorem natCast_reduceMagnitude (w : Nat) (v : Int) :
    (reduceMagnitude w (v % Int.ofNat (valueCount magnitudeBits)).toNat : Int)
      = v % valueCount (min w magnitudeBits) := by
  have hpos : (Int.ofNat (valueCount magnitudeBits)) ≠ 0 :=
    Int.ofNat_ne_zero.2 (Nat.ne_of_gt (valueCount_pos _))
  have hdvd : (valueCount (min w magnitudeBits) : Int) ∣ Int.ofNat (valueCount magnitudeBits) :=
    Int.ofNat_dvd.2 (Nat.pow_dvd_pow 2 (Nat.min_le_right _ _))
  rw [reduceMagnitude, Int.natCast_emod, Int.toNat_of_nonneg (Int.emod_nonneg v hpos),
    Int.emod_emod_of_dvd v hdvd]

/-- Beyond 128 bits, a negative number is not what is left of it in 128 bits. -/
theorem emod_valueCount_eq_iff (hlo : -(valueCount 127 : Int) ≤ v) (hhi : v < valueCount 127) :
    v % valueCount (min w magnitudeBits) = v % valueCount w ↔ w ≤ magnitudeBits ∨ 0 ≤ v := by
  have hcount : valueCount 127 < valueCount magnitudeBits := by decide
  rcases Nat.lt_or_ge magnitudeBits w with hw | hw
  · have hlt := valueCount_lt_valueCount hw
    rw [Nat.min_eq_right (Nat.le_of_lt hw)]
    rcases Int.lt_or_le v 0 with hv | hv
    · rw [Int.emod_eq_add_self_emod, Int.emod_eq_of_lt (by omega) (by omega),
        Int.emod_eq_add_self_emod (b := valueCount w),
        Int.emod_eq_of_lt (b := valueCount w) (by omega) (by omega)]
      omega
    · rw [Int.emod_eq_of_lt hv (by omega), Int.emod_eq_of_lt hv (by omega)]
      exact iff_of_true rfl (.inr hv)
  · rw [Nat.min_eq_left hw]
    exact iff_of_true rfl (.inl hw)

-- ============================================================ literals

open Smt (Term Env)

theorem Literal.ofNat_eq_ok (hw : 0 < w) : ∃ l, Literal.ofNat w m = .ok l ∧ l.width = w
    ∧ l.magnitude = reduceMagnitude w m :=
  ⟨_, dif_pos hw, rfl, rfl⟩

theorem Smt.Term.literal_eq_ok (hw : 0 < w) :
    Term.literal w m = .ok (.bits w (reduceMagnitude w m)) :=
  if_neg (Nat.ne_of_gt hw)

/-- The number of a literal is reduced to its width. -/
theorem Smt.Term.ofNat_reduceMagnitude (hm : m < valueCount magnitudeBits) :
    BitVec.ofNat w (reduceMagnitude w m) = BitVec.ofNat w m := by
  apply BitVec.eq_of_toNat_eq
  rw [BitVec.toNat_ofNat, BitVec.toNat_ofNat, reduceMagnitude_eq_mod hm]
  exact Nat.mod_mod m _

/-- A literal of at least one bit stands for its number. -/
theorem Smt.Term.eval_literal {ρ : Env} (hw : 0 < w) (hm : m < valueCount magnitudeBits) :
    ∃ t, Term.literal w m = .ok t ∧ t.eval ρ = some (.bits w (BitVec.ofNat w m)) := by
  refine ⟨_, literal_eq_ok hw, ?_⟩
  rw [Term.eval_bits, ofNat_reduceMagnitude hm]

/-- The literal of ones stands for the largest magnitude. -/
theorem Smt.Term.eval_ones {ρ : Env} (hw : 0 < w) : ∃ t, Term.ones w = .ok t
    ∧ t.eval ρ = some (.bits w (BitVec.ofNat w (largestMagnitude magnitudeBits))) :=
  eval_literal hw (by decide)

/-- The largest magnitude is reduced to that of the width. -/
theorem toNat_ofNat_largestMagnitude (w : Nat) :
    (BitVec.ofNat w (largestMagnitude magnitudeBits)).toNat = largestMagnitude w := by
  have hmax : largestMagnitude magnitudeBits < valueCount magnitudeBits := by decide
  rw [BitVec.toNat_ofNat, ← reduceMagnitude_largestMagnitude w, reduceMagnitude_eq_mod hmax]
  rfl

/-- Literals have the number that they are made from, reduced to the width. That of a
signed number is the number in two's complement, and that of ones has all its bits set,
up to 128 bits; beyond, a literal has what they are in 128 bits, which is right only for
numbers that are not negative. -/
theorem Literal.twosComplement (hw : 0 < w) (hm : m < valueCount magnitudeBits)
    (hlo : -(valueCount 127 : Int) ≤ v) (hhi : v < valueCount 127) (ρ : Env) :
    (∃ l, Literal.ofNat w m = .ok l ∧ l.width = w ∧ l.magnitude = m % valueCount w)
      ∧ Term.literal w m = .ok (.bits w (m % valueCount w))
      ∧ (∃ l, Literal.ofInt w v = .ok l ∧ l.width = w ∧ l.magnitude < valueCount w
        ∧ (l.magnitude : Int) = v % valueCount (min w magnitudeBits)
        ∧ ((l.magnitude : Int) = v % valueCount w ↔ w ≤ magnitudeBits ∨ 0 ≤ v))
      ∧ ∃ t x, Term.ones w = .ok t ∧ t.eval ρ = some (.bits w x)
        ∧ x.toNat = valueCount (min w magnitudeBits) - 1
        ∧ (x.toNat = valueCount w - 1 ↔ w ≤ magnitudeBits) := by
  rw [← reduceMagnitude_eq_mod hm]
  refine ⟨ofNat_eq_ok hw, Term.literal_eq_ok hw, ?_, ?_⟩
  · obtain ⟨l, hl, hwidth, hmagnitude⟩ :=
      @ofNat_eq_ok w (v % Int.ofNat (valueCount magnitudeBits)).toNat hw
    have hv : (l.magnitude : Int) = v % valueCount (min w magnitudeBits) := by
      rw [hmagnitude, natCast_reduceMagnitude]
    refine ⟨l, hl, hwidth, hwidth ▸ l.magnitude_lt, hv, ?_⟩
    rw [hv, emod_valueCount_eq_iff hlo hhi]
  · obtain ⟨t, ht, hx⟩ := Term.eval_ones (ρ := ρ) hw
    have hones := toNat_ofNat_largestMagnitude w
    exact ⟨t, _, ht, hx, hones, by rw [hones, largestMagnitude_eq_iff]⟩

/-- The largest magnitude and the number below zero in the width of a vector register. -/
theorem Literal.twosComplement_wide :
    (0 < 256 ∧ valueCount 128 - 1 < valueCount magnitudeBits ∧ -(valueCount 127 : Int) ≤ -1
        ∧ (-1 : Int) < valueCount 127)
      ∧ Term.literal 256 (valueCount 128 - 1)
        = .ok (.bits 256 ((valueCount 128 - 1) % valueCount 256))
      ∧ (∃ l, Literal.ofInt 256 (-1) = .ok l ∧ (l.magnitude : Int) = -1 % valueCount 128)
      ∧ ∃ t x, Term.ones 256 = .ok t ∧ t.eval (fun _ => none) = some (.bits 256 x)
        ∧ x.toNat = valueCount 128 - 1 := by
  have hm : valueCount 128 - 1 < valueCount magnitudeBits := by decide
  obtain ⟨-, hterm, ⟨l, hl, -, -, hv, -⟩, t, x, ht, hx, hones, -⟩ :=
    @Literal.twosComplement 256 (valueCount 128 - 1) (-1) (by decide) hm (by decide) (by decide)
      fun _ => none
  exact ⟨⟨by decide, hm, by decide, by decide⟩, hterm, ⟨l, hl, hv⟩, t, x, ht, hx, hones⟩

/-- In the width of a vector register, the literal of the number below zero is not that
number in two's complement, and that of ones has not all its bits set. -/
theorem Literal.not_twosComplement_wide :
    (¬∃ l, Literal.ofInt 256 (-1) = .ok l ∧ (l.magnitude : Int) = -1 % valueCount 256)
      ∧ ¬∃ t x, Term.ones 256 = .ok t ∧ t.eval (fun _ => none) = some (.bits 256 x)
        ∧ x.toNat = valueCount 256 - 1 := by
  constructor
  · rintro ⟨l, hl, hv⟩
    cases hl
    exact absurd hv (by decide)
  · rintro ⟨t, x, ht, hx, hones⟩
    cases ht
    cases hx
    exact absurd hones (by decide)

end LiftedCode
