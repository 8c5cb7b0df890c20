/-
Numerals read back. A numeral in a base of at most sixteen is read from its most
significant digit on, in either case. What was written is read as the same number,
also with zeros in front (`value?_paddedDigits`), and a number that fits the digits
it is padded to has exactly so many (`length_paddedDigits`). A decimal numeral has
no zeros in front (`decimal?`).
-/
import LiftedCode.Text.Numeral
import Mathlib.Algebra.Ring.Nat

namespace LiftedCode.Numeral

variable {base : Nat}

-- =============================================================== reading

/-- The number below the base that a character is the digit for. -/
def digitValue? (base : Nat) (c : Char) : Option Nat :=
  (List.range base).find? fun d => Nat.digitChar d == c.toLower

/-- A number with one more digit at its end. -/
def pushDigit (base n : Nat) (c : Char) : Option Nat :=
  (digitValue? base c).map (base * n + ·)

/-- The number that a numeral in the base stands for; it has at least one digit. -/
def value? (base : Nat) (cs : List Char) : Option Nat :=
  if cs.isEmpty then none else cs.foldlM (pushDigit base) 0

/-- The number that a decimal numeral stands for: zero is `0`, and no other number
begins with a zero. -/
def decimal? (s : String) : Option Nat :=
  if s.toList.head? = some '0' ∧ s ≠ "0" then none else value? 10 s.toList

-- ================================================================ digits

theorem toLower_digitChar : ∀ d < 16, (Nat.digitChar d).toLower = Nat.digitChar d := by
  decide

/-- A digit is read back. -/
theorem digitValue?_digitChar (hbase : base ≤ 16) {d : Nat} (hd : d < base) :
    digitValue? base (Nat.digitChar d) = some d := by
  rw [digitValue?, toLower_digitChar d (by omega), List.find?_range_eq_some]
  refine ⟨beq_self_eq_true _, List.mem_range.2 hd, fun e he => ?_⟩
  have hne : Nat.digitChar e ≠ Nat.digitChar d := fun h =>
    Nat.ne_of_lt he (digitChar_injective e (by omega) d (by omega) h)
  simpa using hne

/-- Numerals are made from those of the quotients by one more digit. -/
theorem toDigits_induction {P : Nat → List Char → Prop} (hbase : 1 < base)
    (single : ∀ n < base, P n [Nat.digitChar n])
    (more : ∀ n cs, base ≤ n → P (n / base) cs → P n (cs ++ [Nat.digitChar (n % base)]))
    (n : Nat) : P n (Nat.toDigits base n) := by
  induction n using Nat.strongRecOn with
  | ind n ih =>
      by_cases hn : n < base
      · rw [Nat.toDigits_of_lt_base hn]
        exact single n hn
      · rw [Nat.toDigits_of_base_le hbase (by omega)]
        exact more n _ (by omega) (ih (n / base) (Nat.div_lt_self (by omega) hbase))

/-- A number is read back from its digits. -/
theorem foldlM_toDigits (hbase : 1 < base) (h16 : base ≤ 16) (n : Nat) :
    (Nat.toDigits base n).foldlM (pushDigit base) 0 = some n := by
  refine toDigits_induction (P := fun n cs => cs.foldlM (pushDigit base) 0 = some n) hbase
    (fun n hn => ?_) (fun n cs _ ih => ?_) n
  · show (pushDigit base 0 _).bind some = some n
    rw [pushDigit, digitValue?_digitChar h16 hn]
    simp
  · have hd : n % base < base := Nat.mod_lt n (by omega)
    rw [List.foldlM_append, ih]
    show (pushDigit base (n / base) _).bind some = some n
    rw [pushDigit, digitValue?_digitChar h16 hd, Option.map_some, Nat.div_add_mod]
    rfl

/-- Zeros in front do not change the number. -/
theorem foldlM_zeros (hbase : 0 < base) (h16 : base ≤ 16) (k : Nat) :
    (List.replicate k '0').foldlM (pushDigit base) 0 = some 0 := by
  induction k with
  | zero => rfl
  | succ k ih =>
      have hzero : pushDigit base 0 '0' = some 0 := by
        rw [pushDigit, show '0' = Nat.digitChar 0 from rfl, digitValue?_digitChar h16 hbase]
        rfl
      rw [List.replicate_succ, List.foldlM_cons, hzero]
      exact ih

/-- A padded numeral is read as the number that was written. -/
theorem value?_paddedDigits (hbase : 1 < base) (h16 : base ≤ 16) (width n : Nat) :
    value? base (paddedDigits base width n).toList = some n := by
  rw [paddedDigits, String.toList_ofList, List.leftpad, value?, if_neg (by simp),
    List.foldlM_append, foldlM_zeros (by omega) h16]
  exact foldlM_toDigits hbase h16 n

/-- A number that fits is padded to just the width. -/
theorem length_paddedDigits (hbase : 1 < base) {width n : Nat} (hw : 0 < width)
    (hn : n < base ^ width) : (paddedDigits base width n).toList.length = width := by
  have hle := (Nat.length_toDigits_le_iff hbase hw).2 hn
  rw [paddedDigits, String.toList_ofList, List.length_leftpad]
  exact Nat.max_eq_left hle

theorem digit_of_mem_toDigits (hbase : 1 < base) {n : Nat} {c : Char}
    (hc : c ∈ Nat.toDigits base n) : ∃ d < base, c = Nat.digitChar d := by
  refine toDigits_induction (P := fun _ cs => ∀ c ∈ cs, ∃ d < base, c = Nat.digitChar d) hbase
    (fun n hn c hc => ?_) (fun n cs _ ih c hc => ?_) n c hc
  · exact ⟨n, hn, List.mem_singleton.1 hc⟩
  · rcases List.mem_append.1 hc with hc | hc
    · exact ih c hc
    · exact ⟨n % base, Nat.mod_lt n (by omega), List.mem_singleton.1 hc⟩

/-- What a padded numeral is made of. -/
theorem digit_of_mem_paddedDigits (hbase : 1 < base) {width n : Nat} {c : Char}
    (hc : c ∈ (paddedDigits base width n).toList) : ∃ d < base, c = Nat.digitChar d := by
  rw [paddedDigits, String.toList_ofList, List.leftpad] at hc
  rcases List.mem_append.1 hc with hc | hc
  · exact ⟨0, by omega, List.eq_of_mem_replicate hc⟩
  · exact digit_of_mem_toDigits hbase hc

-- =============================================================== decimal

/-- A numeral begins with a zero only if it is that of zero. -/
theorem toDigits_of_head_zero {n : Nat} (h : (Nat.toDigits 10 n).head? = some '0') : n = 0 := by
  have hhead : ∃ c cs, Nat.toDigits 10 n = c :: cs ∧ (c = '0' → n = 0) := by
    refine @toDigits_induction 10 (fun n ds => ∃ c cs, ds = c :: cs ∧ (c = '0' → n = 0))
      (by decide) (fun n _ => ?_) (fun n ds hle ih => ?_) n
    · exact ⟨_, [], rfl, fun hc => Nat.digitChar_eq_zero.1 hc⟩
    · obtain ⟨c, cs, rfl, ih⟩ := ih
      refine ⟨c, cs ++ _, rfl, fun hc => ?_⟩
      -- the number has a digit more than its quotient, which is therefore not zero
      have := ih hc
      omega
  obtain ⟨c, cs, hcs, hzero⟩ := hhead
  rw [hcs] at h
  exact hzero (Option.some.inj h)

/-- A number is read back from its decimal form. -/
theorem decimal?_toString (n : Nat) : decimal? (toString n) = some n := by
  rw [Nat.toString_eq_repr, decimal?, Nat.toList_repr, if_neg ?_]
  · rw [value?, if_neg (by simp)]
    exact foldlM_toDigits (by decide) (by decide) n
  · intro h
    obtain rfl := toDigits_of_head_zero h.1
    exact h.2 rfl

end LiftedCode.Numeral
