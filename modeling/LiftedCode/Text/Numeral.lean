/-
Numerals: the spellings of natural numbers other than plain decimal, and lists
of texts with a separator between them. Names that are numbered in sequence are
different, as their numerals are.
-/

namespace LiftedCode

namespace Numeral

/-- The digits of `n` in base `base`, in lower case, the most significant
first; zero has one digit. -/
def digits (base n : Nat) : String := String.ofList (Nat.toDigits base n)

/-- The most digits to which a numeral can be padded: they are counted in 16
bits. -/
def paddingLimit : Nat := 65535

/-- The digits of `n` in base `base`, with zeros in front up to `width` digits. -/
def paddedDigits (base width n : Nat) : String :=
  String.ofList ((Nat.toDigits base n).leftpad width '0')

/-- A hexadecimal numeral, marked as such: `0x1f`. -/
def hex (n : Nat) : String := "0x" ++ digits 16 n

end Numeral

/-- Two numbers with one decimal numeral are equal. -/
theorem toString_nat_injective {m n : Nat} (h : toString m = toString n) : m = n := by
  have hd : ∀ k : Nat, Nat.ofDigitChars 10 (toString k).toList 0 = k := fun k => by
    rw [Nat.toString_eq_repr, Nat.toList_repr, Nat.ofDigitChars_ten_toDigits]
  rw [← hd m, ← hd n, h]

/-- Texts with one beginning are equal only if they go on alike. -/
theorem append_left_injective {s t u : String} (h : s ++ t = s ++ u) : t = u := by
  have hl := congrArg String.toList h
  rw [String.toList_append, String.toList_append] at hl
  exact String.toList_inj.1 (List.append_cancel_left hl)

namespace Numeral

/-- The digits below sixteen are different. -/
theorem digitChar_injective : ∀ m < 16, ∀ n < 16, Nat.digitChar m = Nat.digitChar n → m = n := by
  decide

/-- Numbers with one hexadecimal numeral have one digit or both have more. -/
theorem lt_sixteen_iff {m n : Nat} (h : Nat.toDigits 16 m = Nat.toDigits 16 n) :
    m < 16 ↔ n < 16 := by
  have hlength : ∀ k, (Nat.toDigits 16 k).length ≤ 1 ↔ k < 16 := fun k => by
    rw [Nat.length_toDigits_le_iff (by decide) (by decide), Nat.pow_one]
  rw [← hlength m, h, hlength]

theorem toDigits_injective {m n : Nat} (h : Nat.toDigits 16 m = Nat.toDigits 16 n) : m = n := by
  induction m using Nat.strongRecOn generalizing n with
  | ind m ih =>
      by_cases hm : m < 16
      · have hn := (lt_sixteen_iff h).1 hm
        rw [Nat.toDigits_of_lt_base hm, Nat.toDigits_of_lt_base hn] at h
        exact digitChar_injective m hm n hn (List.cons.inj h).1
      · have hn := fun hn => hm ((lt_sixteen_iff h).2 hn)
        -- all digits but the last are those of the quotients
        rw [Nat.toDigits_of_base_le (by decide) (Nat.le_of_not_lt hm),
          Nat.toDigits_of_base_le (by decide) (Nat.le_of_not_lt hn)] at h
        have hdiv : m / 16 = n / 16 :=
          ih (m / 16) (by omega) (List.append_inj_left' h rfl)
        have hmod : m % 16 = n % 16 := digitChar_injective _ (Nat.mod_lt _ (by decide)) _
          (Nat.mod_lt _ (by decide)) (List.cons.inj (List.append_inj_right' h rfl)).1
        rw [← Nat.div_add_mod m 16, hdiv, hmod, Nat.div_add_mod]

/-- Two numbers with one hexadecimal numeral are equal. -/
theorem digits_injective {m n : Nat} (h : digits 16 m = digits 16 n) : m = n :=
  toDigits_injective (String.ofList_injective h)

end Numeral

/-- The numbers up to `m` and those from there on. -/
theorem range'_append_range' {k m n : Nat} (hkm : k ≤ m) (hmn : m ≤ n) :
    List.range' k (m - k) ++ List.range' m (n - m) = List.range' k (n - k) := by
  have h := List.range'_append_1 (s := k) (m := m - k) (n := n - m)
  rwa [show k + (m - k) = m by omega, show m - k + (n - m) = n - k by omega] at h

/-- The texts, with `", "` between each two. -/
def commaSeparated (xs : List String) : String := ", ".intercalate xs

/-- The texts, with a blank between each two. -/
def blankSeparated (xs : List String) : String := " ".intercalate xs

end LiftedCode
