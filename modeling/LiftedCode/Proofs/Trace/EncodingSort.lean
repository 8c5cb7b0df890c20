/-
The sorts of encodings. A term is of a type if it has the sort of the values of
the type (`HasTy`). The term for a typed operation on terms of its operands'
types is of the type of the operation's result (`appTerm_hasTy`): one lemma for
every family of operators, and then one case for every constructor. The one encoding
of a machine function, the shuffle, has its sort and its value together
(`shuffle128_exact`).
-/
import LiftedCode.Proofs.Smt.Sort
import LiftedCode.Proofs.Trace.Variables
import LiftedCode.Proofs.Width

namespace LiftedCode.Trace

open Smt (Term TermSort Sorting Env)

variable {Γ : Sorting} {a b c t : Term} {v w : Nat}

/-- Whether a term has the sort of the values of a type. -/
def HasTy (Γ : Sorting) (t : Term) (τ : Ty) : Prop :=
  ∃ s, sortOf τ = some s ∧ t.sort? Γ = some s

@[simp] theorem hasTy_bool : HasTy Γ t .bool ↔ t.sort? Γ = some .bool := by
  simp [HasTy, sortOf]

@[simp] theorem hasTy_bits : HasTy Γ t (.bits w) ↔ t.sort? Γ = some (.bits w) := by
  simp [HasTy, sortOf, Ty.width?]

/-- A test is a truth value, and everything else as wide as its operands. -/
theorem hasTy_of_isTest {test : Bool}
    (h : t.sort? Γ = some (if test then .bool else .bits w)) :
    HasTy Γ t (if test then .bool else .bits w) := by
  cases test with
  | true => exact hasTy_bool.2 h
  | false => exact hasTy_bits.2 h

/-- A term of a type with a width, other than that of truth values. -/
theorem hasTy_of_width {τ : Ty} (hτ : τ ≠ .bool) (hw : τ.width? = some w) :
    HasTy Γ t τ ↔ t.sort? Γ = some (.bits w) := by
  simp [HasTy, sortOf_of_width hτ hw]

/-- Sorts for more variables do not change the type of a term. -/
theorem HasTy.mono {Δ : Sorting} {τ : Ty} (h : HasTy Γ t τ)
    (hmono : ∀ x s, Γ x = some s → Δ x = some s) : HasTy Δ t τ := by
  obtain ⟨s, hs, ht⟩ := h
  exact ⟨s, hs, Term.sort?_mono hmono t s ht⟩

-- ============================================================= literals

theorem sort?_of_literal {n : Nat} (h : Term.literal w n = .ok t) :
    t.sort? Γ = some (.bits w) := by
  rw [Term.literal] at h
  split at h
  case isTrue => contradiction
  case isFalse hw =>
    cases h
    exact Term.sort?_bits (Nat.pos_of_ne_zero hw) (reduceMagnitude_lt w n)

theorem sort?_of_ofBool (h : Term.ofBool w c = .ok t) (hc : c.sort? Γ = some .bool) :
    t.sort? Γ = some (.bits w) := by
  obtain ⟨one, hone, h⟩ := ok_of_bind h
  obtain ⟨zero, hzero, h⟩ := ok_of_bind h
  cases h
  exact Term.sort?_ite hc (sort?_of_literal hone) (sort?_of_literal hzero)

/-- Bits that are taken out are of the places between the two. -/
theorem sort?_of_extract {hi lo : Nat} (h : Term.extract hi lo a = .ok t) (hw : hi < w)
    (ha : a.sort? Γ = some (.bits w)) : t.sort? Γ = some (.bits (hi - lo + 1)) := by
  rw [Term.extract] at h
  split at h
  case isTrue hle =>
    cases h
    exact Term.sort?_extract hle hw ha
  case isFalse => contradiction

-- ===================================================== folds over a term

theorem sort?_of_popCountTerm (h : popCountTerm w a = .ok t) (ha : a.sort? Γ = some (.bits w)) :
    t.sort? Γ = some (.bits w) := by
  unfold popCountTerm at h
  dsimp only at h
  split at h
  case h_1 u hu =>
    cases h
    refine of_reduceTerms (P := fun u => u.sort? Γ = some (.bits w))
      (fun _ _ => Term.sort?_arithmetic (by decide)) ?_ hu
    intro u hu
    obtain ⟨i, hi, rfl⟩ := List.mem_map.1 hu
    have hbit := Term.sort?_bitAt (List.mem_range.1 hi) ha
    split
    case isTrue h1 => rw [hbit, h1]
    case isFalse =>
      have hi := List.mem_range.1 hi
      rw [Term.sort?_zeroExtend hbit, show 1 + (w - 1) = w by omega]
  case h_2 => exact sort?_of_literal h

/-- A byte within the width has eight bits. -/
theorem sort?_byteAt {i : Nat} (hi : 8 * i + 7 < w) (ha : a.sort? Γ = some (.bits w)) :
    (Term.byteAt i a).sort? Γ = some (.bits 8) := by
  rw [Term.byteAt, Term.sort?_extract (by omega) hi ha, show 8 * i + 7 - 8 * i + 1 = 8 by omega]

/-- The lowest bytes in the opposite order, of which there is at least one. -/
theorem sort?_bytes_reversed {n : Nat} (hn : 8 * n + 7 < w) (ha : a.sort? Γ = some (.bits w)) :
    ∃ t, reduceTerms Term.concat ((List.range (n + 1)).map (Term.byteAt · a)) = some t
      ∧ t.sort? Γ = some (.bits (8 * (n + 1))) := by
  induction n with
  | zero => exact ⟨Term.byteAt 0 a, rfl, sort?_byteAt hn ha⟩
  | succ n ih =>
      obtain ⟨t, ht, hsort⟩ := ih (by omega)
      rw [List.range_succ, List.map_append, List.map_singleton, reduceTerms_append_singleton, ht]
      exact ⟨_, rfl, Term.sort?_concat hsort (sort?_byteAt hn ha)⟩

/-- Whole bytes in the opposite order have the same width. -/
theorem sort?_reverseBytesTerm (hw : 0 < w) (h8 : 8 ∣ w) (ha : a.sort? Γ = some (.bits w)) :
    (reverseBytesTerm w a).sort? Γ = some (.bits w) := by
  obtain ⟨k, rfl⟩ := h8
  obtain ⟨n, rfl⟩ : ∃ n, k = n + 1 := ⟨k - 1, by omega⟩
  obtain ⟨t, ht, hsort⟩ := sort?_bytes_reversed (n := n) (by omega) ha
  rw [reverseBytesTerm, Nat.mul_div_cancel_left _ (by decide), ht]
  exact hsort

theorem sort?_scanTerm {l : List Nat} (hl : ∀ i ∈ l, i < w) (ha : a.sort? Γ = some (.bits w))
    (hb : b.sort? Γ = some (.bits w)) : (scanTerm w a b l).sort? Γ = some (.bits w) := by
  refine List.foldrRecOn (motive := fun t : Term => t.sort? Γ = some (.bits w)) l _ hb
    fun rest hrest i hi => ?_
  have hw : 0 < w := Nat.zero_lt_of_lt (hl i hi)
  exact Term.sort?_ite (Term.sort?_testBit (hl i hi) ha)
    (Term.sort?_bits hw (reduceMagnitude_lt w i)) hrest

theorem sort?_evenParityTerm (ha : a.sort? Γ = some (.bits 8)) :
    (evenParityTerm a).sort? Γ = some .bool := by
  have hparity : ((List.range 7).foldl
      (fun acc i => Term.binary "bvxor" acc (Term.bitAt (i + 1) a)) (Term.bitAt 0 a)).sort? Γ
        = some (.bits 1) := by
    refine List.foldlRecOn (motive := fun t : Term => t.sort? Γ = some (.bits 1)) _ _
      (Term.sort?_bitAt (by decide) ha) fun acc hacc i hi => ?_
    have hi := List.mem_range.1 hi
    exact Term.sort?_arithmetic (by decide) hacc (Term.sort?_bitAt (by omega) ha)
  exact Term.sort?_eq hparity (Term.sort?_bits (by decide) (by decide))

-- ================================================================ shuffle

/-- How far a byte of the index shifts the source, in the width of the source. -/
theorem sort?_shift {i : Nat} (hb : (Term.byteAt i b).sort? Γ = some (.bits 8)) :
    (Term.zeroExtend 120 (Term.binary "bvmul" (Term.binary "bvand" (Term.byteAt i b) (.bits 8 15))
      (.bits 8 8))).sort? Γ = some (.bits 128) := by
  refine Term.sort?_zeroExtend (w := 8) ?_
  refine Term.sort?_arithmetic (by decide) ?_ (Term.sort?_bits (by decide) (by decide))
  exact Term.sort?_arithmetic (by decide) hb (Term.sort?_bits (by decide) (by decide))

/-- A byte of a shuffle has eight bits, where the source has 16 bytes and the indices no
fewer. -/
theorem sort?_shuffledByte {i : Nat} (hi : i < 16) (ha : a.sort? Γ = some (.bits 128))
    (hw : 128 ≤ w) (hb : b.sort? Γ = some (.bits w)) :
    (Term.shuffledByte a b i).sort? Γ = some (.bits 8) := by
  have hchoice := sort?_byteAt (i := i) (by omega) hb
  refine Term.sort?_ite (Term.sort?_testBit (by decide) hchoice)
    (Term.sort?_bits (by decide) (by decide)) (sort?_byteAt (w := 128) (by decide) ?_)
  exact Term.sort?_arithmetic (by decide) ha (sort?_shift hchoice)

/-- The lowest bytes of a shuffle. -/
theorem sort?_shuffled_bytes {n : Nat} (hn : n < 16) (ha : a.sort? Γ = some (.bits 128))
    (hw : 128 ≤ w) (hb : b.sort? Γ = some (.bits w)) :
    ((List.range n).foldl (fun acc i => Term.concat (Term.shuffledByte a b (i + 1)) acc)
      (Term.shuffledByte a b 0)).sort? Γ = some (.bits (8 * (n + 1))) := by
  induction n with
  | zero => exact sort?_shuffledByte (by decide) ha hw hb
  | succ n ih =>
      rw [List.range_succ, List.foldl_append]
      have hcat := Term.sort?_concat (sort?_shuffledByte hn ha hw hb) (ih (by omega))
      rw [show 8 + 8 * (n + 1) = 8 * (n + 1 + 1) by omega] at hcat
      exact hcat

/-- A shuffle does not look at what its index has beyond 128 bits. -/
theorem sort?_shuffle128 (ha : a.sort? Γ = some (.bits 128)) (hw : 128 ≤ w)
    (hb : b.sort? Γ = some (.bits w)) : (Term.shuffle128 a b).sort? Γ = some (.bits 128) :=
  sort?_shuffled_bytes (n := 15) (by decide) ha hw hb

/-- The shuffle of two vectors of 128 bits is another. Where the two have
values it has one, and every byte of that is zero if its byte of the index has
the top bit set, and else the byte of the source that the low four bits name. -/
theorem shuffle128_exact {src index : Term} (hsrc : src.sort? Γ = some (.bits 128))
    (hindex : index.sort? Γ = some (.bits 128)) :
    (Term.shuffle128 src index).sort? Γ = some (.bits 128)
      ∧ ∀ (ρ : Env) (X Y : BitVec 128),
        src.eval ρ = some (.bits 128 X) → index.eval ρ = some (.bits 128 Y) →
          ∃ Z : BitVec 128, (Term.shuffle128 src index).eval ρ = some (.bits 128 Z)
            ∧ ∀ i, i < 16 → Bits.byte Z i = if (Bits.byte Y i).getLsbD 7 then 0#8
              else Bits.byte X ((Bits.byte Y i).toNat % 16) := by
  refine ⟨sort?_shuffle128 hsrc (Nat.le_refl 128) hindex, fun ρ X Y hX hY => ?_⟩
  exact ⟨Bits.shuffle128 X Y, eval_shuffle128 hX hY, fun i hi => Bits.byte_shuffle128 X Y hi⟩

/-- The bytes of the source are their own positions. The lowest byte of the
index, 19, picks the one at 3, and the next, 128, picks none. -/
theorem shuffle128_exact_positions :
    let ρ : Env := fun x => some (.bits 128 (if x = "src" then
      0x0f0e0d0c0b0a09080706050403020100#128 else 0x8013#128))
    ∃ Z : BitVec 128, (Term.shuffle128 (.var "src") (.var "index")).eval ρ = some (.bits 128 Z)
      ∧ Bits.byte Z 0 = 3#8 ∧ Bits.byte Z 1 = 0#8 ∧ Bits.byte Z 15 = 0#8 := by
  intro ρ
  obtain ⟨-, hvalue⟩ :=
    @shuffle128_exact (fun _ => some (.bits 128)) (.var "src") (.var "index") rfl rfl
  obtain ⟨Z, hZ, hbytes⟩ := hvalue ρ _ _ rfl rfl
  refine ⟨Z, hZ, ?_, ?_, ?_⟩
  · rw [hbytes 0 (by omega)]
    decide
  · rw [hbytes 1 (by omega)]
    decide
  · rw [hbytes 15 (by omega)]
    decide

/-- The highest byte of a shuffle is picked by the highest of the 16 bytes of the index, and
is found in the source moved by a number of its own width. -/
theorem of_sort?_shuffle128 {s : TermSort} (h : (Term.shuffle128 a b).sort? Γ = some s) :
    a.sort? Γ = some (.bits 128) ∧ ∃ w, 128 ≤ w ∧ b.sort? Γ = some (.bits w) := by
  obtain ⟨rest, hrest⟩ :
      ∃ rest, Term.shuffle128 a b = Term.concat (Term.shuffledByte a b 15) rest := ⟨_, rfl⟩
  rw [hrest] at h
  obtain ⟨s', h⟩ := Term.sorted_of_subterm (.arg List.mem_cons_self (.self _)) h
  have hpicks : Term.Subterm (Term.byteAt 15 b) (Term.shuffledByte a b 15) :=
    .arg List.mem_cons_self (.arg List.mem_cons_self (.arg List.mem_cons_self (.self _)))
  obtain ⟨_, hpick⟩ := Term.sorted_of_subterm hpicks h
  obtain ⟨_, w, hargs, hb, -, hw⟩ := Term.extract_of_sort? hpick
  obtain rfl := List.head_eq_of_cons_eq hargs
  have hmoves : Term.Subterm (Term.binary "bvlshr" a _) (Term.shuffledByte a b 15) :=
    .arg (List.mem_of_getElem? (i := 2) rfl) (.arg List.mem_cons_self (.self _))
  obtain ⟨_, hmove⟩ := Term.sorted_of_subterm hmoves h
  obtain ⟨v, ha, hshift⟩ := Term.of_sort?_arithmetic (by decide) hmove
  rw [sort?_shift (sort?_byteAt (by omega) hb)] at hshift
  cases hshift
  exact ⟨ha, w, hw, hb⟩

-- ============================================================== operators

/-- A test for overflow is a truth value. -/
theorem sort?_of_overflowTerm {name : String} {signed : Bool} (hname : name ∈ Smt.arithmeticNames)
    (h : overflowTerm name signed w a b c = .ok t) (ha : a.sort? Γ = some (.bits w))
    (hb : b.sort? Γ = some (.bits w)) (hc : c.sort? Γ = some .bool) :
    t.sort? Γ = some .bool := by
  obtain ⟨v, hv, h⟩ := ok_of_bind h
  obtain rfl := App.of_add hv
  obtain ⟨k, hk, h⟩ := ok_of_bind h
  have hk := sort?_of_ofBool hk hc
  cases signed with
  | false =>
      cases h
      have hsum := Term.sort?_arithmetic hname (Term.sort?_zeroExtend (n := 1) ha)
        (Term.sort?_zeroExtend (n := 1) hb)
      exact Term.sort?_testBit (Nat.lt_succ_self w) (Term.sort?_arithmetic hname hsum hk)
  | true =>
      obtain ⟨u, hu, h⟩ := ok_of_bind h
      obtain ⟨-, rfl⟩ := App.of_sub hu
      cases h
      have hsum := Term.sort?_arithmetic hname (Term.sort?_signExtend (n := 1) ha)
        (Term.sort?_signExtend (n := 1) hb)
      have hr := Term.sort?_arithmetic hname hsum hk
      exact Term.sort?_distinct (Term.sort?_bitAt (Nat.lt_succ_self w) hr)
        (Term.sort?_bitAt (by omega) hr)

/-- A test of two bitvectors is a truth value, any other operator gives their width. -/
theorem sort?_binaryTerm {op : BinaryOp} (hw : 0 < w) (ha : a.sort? Γ = some (.bits w))
    (hb : b.sort? Γ = some (.bits w)) :
    (binaryTerm op a b).sort? Γ = some (if op.isTest then .bool else .bits w) := by
  cases op with
  | testBit => exact Term.sort?_testBit hw (Term.sort?_arithmetic (by decide) ha hb)
  | ult | ule | slt | sle => exact Term.sort?_comparison (by decide) ha hb
  | add | sub | mul | udiv | urem | sdiv | srem | and | or | xor | shl | shr | sar =>
      exact Term.sort?_arithmetic (by decide) ha hb

theorem sort?_logicTerm {op : LogicOp} (ha : a.sort? Γ = some .bool)
    (hb : b.sort? Γ = some .bool) : (logicTerm op a b).sort? Γ = some .bool := by
  cases op with
  | and | or | xor => exact Term.sort?_connective (by decide) ha hb

/-- A unary operator on a bitvector of the width that it takes gives its own width. -/
theorem sort?_of_unaryTerm {op : UnaryOp} (h : unaryTerm op w a = .ok t) (hw : 0 < w)
    (h8 : op = .reverseBytes → 8 ∣ w) (ha : a.sort? Γ = some (.bits (op.operandWidth w))) :
    t.sort? Γ = some (.bits w) := by
  cases op with
  | upperHalf =>
      obtain ⟨n, hn, h⟩ := ok_of_bind h
      obtain ⟨-, rfl⟩ := App.of_mul hn
      obtain ⟨u, hu, h⟩ := ok_of_bind h
      obtain ⟨-, rfl⟩ := App.of_sub hu
      have ha : a.sort? Γ = some (.bits (2 * w)) := ha
      rw [sort?_of_extract h (by omega) ha, show 2 * w - 1 - w + 1 = w by omega]
  | lowerHalf =>
      obtain ⟨n, hn, h⟩ := ok_of_bind h
      obtain ⟨-, rfl⟩ := App.of_sub hn
      have ha : a.sort? Γ = some (.bits (2 * w)) := ha
      rw [sort?_of_extract h (by omega) ha, show w - 1 - 0 + 1 = w by omega]
  | complement =>
      cases h
      exact Term.sort?_complement ha
  | popCount => exact sort?_of_popCountTerm h ha
  | reverseBytes =>
      cases h
      exact sort?_reverseBytesTerm hw (h8 rfl) ha
  | scanForward =>
      obtain ⟨otherwise, hother, h⟩ := ok_of_bind h
      cases h
      exact sort?_scanTerm (fun i hi => List.mem_range.1 hi) ha (sort?_of_literal hother)
  | scanReverse =>
      obtain ⟨otherwise, hother, h⟩ := ok_of_bind h
      cases h
      exact sort?_scanTerm (fun i hi => List.mem_range.1 (List.mem_reverse.1 hi)) ha
        (sort?_of_literal hother)

theorem sort?_of_carryTerm {op : CarryOp} (h : carryTerm op w a b c = .ok t)
    (ha : a.sort? Γ = some (.bits w)) (hb : b.sort? Γ = some (.bits w))
    (hc : c.sort? Γ = some .bool) :
    t.sort? Γ = some (if op.isTest then .bool else .bits w) := by
  cases op with
  | adc | sbb =>
      obtain ⟨k, hk, h⟩ := ok_of_bind h
      cases h
      exact Term.sort?_arithmetic (by decide) (Term.sort?_arithmetic (by decide) ha hb)
        (sort?_of_ofBool hk hc)
  | uadcOverflows | sadcOverflows | usbbOverflows | ssbbOverflows =>
      exact sort?_of_overflowTerm (by decide) h ha hb hc

/-- A conversion gives the width that it is to. -/
theorem sort?_of_resizeTerm {op : ResizeOp} (h : resizeTerm op a v w = .ok t)
    (hr : App.ResizeOp.relates op v w = true) (ha : a.sort? Γ = some (.bits v)) :
    t.sort? Γ = some (.bits w) := by
  cases op with
  | truncate =>
      have hlt : w < v := of_decide_eq_true hr
      obtain ⟨n, hn, h⟩ := ok_of_bind h
      obtain ⟨h1, rfl⟩ := App.of_sub hn
      rw [sort?_of_extract h (by omega) ha, show w - 1 - 0 + 1 = w by omega]
  | signExtend =>
      obtain ⟨n, hn, h⟩ := ok_of_bind h
      obtain ⟨hle, rfl⟩ := App.of_sub hn
      cases h
      rw [Term.sort?_signExtend ha, show v + (w - v) = w by omega]
  | zeroExtend =>
      obtain ⟨n, hn, h⟩ := ok_of_bind h
      obtain ⟨hle, rfl⟩ := App.of_sub hn
      cases h
      rw [Term.sort?_zeroExtend ha, show v + (w - v) = w by omega]

/-- The term for the same bits is of the other type. -/
theorem hasTy_of_bitcastTerm {τ υ : Ty} (h : bitcastTerm a τ υ = .ok t) (hw : 0 < w)
    (hτ : τ.width? = some w) (hυ : υ.width? = some w) (ha : HasTy Γ a τ) : HasTy Γ t υ := by
  unfold bitcastTerm at h
  split at h
  case h_1 =>
    cases h
    exact ha
  case h_2 hne =>
    obtain rfl : 1 = w := Option.some.inj hτ
    exact (hasTy_of_width hne hυ).2 (sort?_of_ofBool h (hasTy_bool.1 ha))
  case h_3 hne =>
    cases h
    obtain rfl : 1 = w := Option.some.inj hυ
    exact hasTy_bool.2 (Term.sort?_testBit hw ((hasTy_of_width hne hτ).1 ha))
  case h_4 hτne hυne _ =>
    cases h
    exact (hasTy_of_width hυne hυ).2 ((hasTy_of_width hτne hτ).1 ha)

-- ============================================================= operations

/-- The term for a typed operation is of the type of the result. -/
theorem appTerm_hasTy {ν : Type} {look : ν → Except TraceError Term} {ty : ν → Ty} {app : App ν}
    {τ : Ty} (htyped : app.Typed ty) (h : appTerm look app = .ok (some t)) (hτ : app.ty = .ok τ)
    (hlook : ∀ v u, v ∈ app.operands → look v = .ok u → HasTy Γ u (ty v)) : HasTy Γ t τ := by
  -- operands by the sorts of their terms
  have hbool : ∀ {x a}, x ∈ app.operands → ty x = .bool → look x = .ok a →
      a.sort? Γ = some .bool := fun hmem hx ha => hasTy_bool.1 (hx ▸ hlook _ _ hmem ha)
  have hbits : ∀ {x a w}, x ∈ app.operands → ty x = .bits w → look x = .ok a →
      a.sort? Γ = some (.bits w) := fun hmem hx ha => hasTy_bits.1 (hx ▸ hlook _ _ hmem ha)
  cases encodes_of_appTerm h with
  | eq ha hb =>
      obtain ⟨hty, -⟩ := htyped
      obtain ⟨s, hs, has⟩ := hlook _ _ (by simp [App.operands]) ha
      obtain ⟨s', hs', hbs⟩ := hlook _ _ (by simp [App.operands]) hb
      rw [← hty, hs] at hs'
      cases hs'
      cases hτ
      exact hasTy_bool.2 (Term.sort?_eq has hbs)
  | mux _ hc ha hb =>
      obtain ⟨hx, hy, hz⟩ := htyped
      have hcs := hbool (by simp [App.operands]) hx hc
      obtain ⟨s, hs, has⟩ := hlook _ _ (by simp [App.operands]) ha
      obtain ⟨s', hs', hbs⟩ := hlook _ _ (by simp [App.operands]) hb
      rw [hz, ← hy, hs] at hs'
      cases hs'
      cases hτ
      exact ⟨s, hy ▸ hs, Term.sort?_ite hcs has hbs⟩
  | logic ha hb =>
      obtain ⟨hx, hy⟩ := htyped
      have has := hbool (by simp [App.operands]) hx ha
      have hbs := hbool (by simp [App.operands]) hy hb
      cases hτ
      exact hasTy_bool.2 (sort?_logicTerm has hbs)
  | not ha =>
      have has := hbool (by simp [App.operands]) htyped ha
      cases hτ
      exact hasTy_bool.2 (Term.sort?_not has)
  | resize ha hr =>
      obtain ⟨-, -, hrel, hx⟩ := htyped
      have has := hbits (by simp [App.operands]) hx ha
      cases hτ
      exact hasTy_bits.2 (sort?_of_resizeTerm hr hrel has)
  | bitcast ha hr =>
      obtain ⟨w, hw, hx, hs, hs'⟩ := htyped
      have has := hlook _ _ (by simp [App.operands]) ha
      rw [hx] at has
      cases hτ
      exact hasTy_of_bitcastTerm hr hw hs hs' has
  | concat ha hb =>
      obtain ⟨-, -, hx, hy⟩ := htyped
      have has := hbits (by simp [App.operands]) hx ha
      have hbs := hbits (by simp [App.operands]) hy hb
      obtain ⟨n, hn, rfl⟩ := ok_of_map hτ
      obtain rfl := App.of_add hn
      exact hasTy_bits.2 (Term.sort?_concat has hbs)
  | evenParity ha =>
      have has := hbits (by simp [App.operands]) htyped ha
      cases hτ
      exact hasTy_bool.2 (sort?_evenParityTerm has)
  | unary ha hr =>
      obtain ⟨hw, h8, -, hx⟩ := htyped
      have has := hbits (by simp [App.operands]) hx ha
      cases hτ
      exact hasTy_bits.2 (sort?_of_unaryTerm hr hw h8 has)
  | binary ha hb =>
      obtain ⟨hw, hx, hy⟩ := htyped
      have has := hbits (by simp [App.operands]) hx ha
      have hbs := hbits (by simp [App.operands]) hy hb
      cases hτ
      exact hasTy_of_isTest (sort?_binaryTerm hw has hbs)
  | carry ha hb hc hr =>
      obtain ⟨-, hx, hy, hz⟩ := htyped
      have has := hbits (by simp [App.operands]) hx ha
      have hbs := hbits (by simp [App.operands]) hy hb
      have hcs := hbool (by simp [App.operands]) hz hc
      cases hτ
      exact hasTy_of_isTest (sort?_of_carryTerm hr has hbs hcs)

end LiftedCode.Trace
