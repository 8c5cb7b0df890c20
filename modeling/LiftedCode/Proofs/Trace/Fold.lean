/-
Terms that run through the bits or the bytes of a term. Each of them is a fold
over a range of indices, and what it stands for follows by induction on the
range: the sum of the bits so far (`popCountTerm`), the bytes so far in the
opposite order (`reverseBytesTerm`), the first set bit among the indices that
remain (`scanTerm`), the parity so far (`evenParityTerm`), the lowest bytes of a
shuffle (`shuffle128`).
-/
import LiftedCode.Proofs.Literal
import LiftedCode.Proofs.Meaning.Bits
import LiftedCode.Trace.Encoding

namespace LiftedCode.Trace

open Smt (Term Env)

variable {ρ : Env} {x : Term} {w : Nat}

/-- One term more is combined with all those before. -/
theorem reduceTerms_append_singleton (f : Term → Term → Term) (ts : List Term) (t : Term) :
    reduceTerms f (ts ++ [t]) = some (match reduceTerms f ts with
      | some acc => f acc t
      | none => t) := by
  cases ts with
  | nil => rfl
  | cons u ts =>
      rw [List.cons_append, reduceTerms, List.foldl_append]
      rfl

/-- What a combination keeps, terms combined have that all have it. -/
theorem of_reduceTerms {P : Term → Prop} {f : Term → Term → Term} {ts : List Term} {t : Term}
    (hf : ∀ a b, P a → P b → P (f a b)) (hts : ∀ u ∈ ts, P u) (h : reduceTerms f ts = some t) :
    P t := by
  cases ts with
  | nil => contradiction
  | cons u ts =>
      cases h
      refine List.foldlRecOn ts _ (hts u List.mem_cons_self) fun acc hacc v hv => ?_
      exact hf acc v hacc (hts v (List.mem_cons_of_mem u hv))

-- ============================================================= counting

/-- A bit as a bitvector of `w` bits, as the count adds it up. -/
theorem eval_bit_of_width {X : BitVec w} {i : Nat} (hi : i < w)
    (hx : x.eval ρ = some (.bits w X)) :
    (if w = 1 then Term.bitAt i x else Term.zeroExtend (w - 1) (Term.bitAt i x)).eval ρ
      = some (.bits w (BitVec.ofNat w (X.getLsbD i).toNat)) := by
  have hb := Term.eval_bitAt hi hx
  split
  case isTrue h1 =>
    subst h1
    rw [hb]
    cases X.getLsbD i <;> rfl
  case isFalse h1 =>
    rw [Term.eval_zeroExtend hb]
    refine congrArg some (Datum.bits_congr (by omega) ?_)
    have h2 : (X.getLsbD i).toNat < 2 ^ w :=
      Nat.lt_of_lt_of_le (Bool.toNat_lt _) (Nat.one_lt_two_pow (by omega))
    rw [BitVec.toNat_setWidth, BitVec.toNat_ofBool, BitVec.toNat_ofNat,
      show 1 + (w - 1) = w by omega]

/-- The sum of the lowest bits, of which there is at least one. -/
theorem eval_sum_of_bits {X : BitVec w} {g : Nat → Term} {n : Nat} (hn : n < w)
    (hg : ∀ i, i < w → (g i).eval ρ = some (.bits w (BitVec.ofNat w (X.getLsbD i).toNat))) :
    ∃ t, reduceTerms (Term.binary "bvadd") ((List.range (n + 1)).map g) = some t
      ∧ t.eval ρ = some (.bits w
        (BitVec.ofNat w ((List.range (n + 1)).map fun i => (X.getLsbD i).toNat).sum)) := by
  induction n with
  | zero => exact ⟨g 0, rfl, by rw [hg 0 hn]; simp⟩
  | succ n ih =>
      obtain ⟨t, ht, hte⟩ := ih (by omega)
      rw [List.range_succ, List.map_append, List.map_append, List.map_singleton,
        List.map_singleton, reduceTerms_append_singleton, ht]
      refine ⟨_, rfl, ?_⟩
      show (Term.binary "bvadd" t (g (n + 1))).eval ρ = _
      rw [Term.eval_binary (by decide) hte (hg (n + 1) hn), List.sum_append, List.sum_singleton,
        BitVec.ofNat_add]
      rfl

theorem eval_popCountTerm {X : BitVec w} (hw : 0 < w) (hx : x.eval ρ = some (.bits w X)) :
    ∃ t, popCountTerm w x = .ok t
      ∧ t.eval ρ = some (.bits w (BitVec.ofNat w (Bits.countSet X))) := by
  obtain ⟨n, rfl⟩ : ∃ n, w = n + 1 := ⟨w - 1, by omega⟩
  obtain ⟨t, ht, hte⟩ := eval_sum_of_bits (n := n) (by omega) fun i hi => eval_bit_of_width hi hx
  refine ⟨t, ?_, ?_⟩
  · rw [popCountTerm, ht]
  · rw [hte, Bits.countSet_eq_sum]

-- ================================================================ bytes

theorem eval_byteAt {X : BitVec w} {i : Nat} (hi : 8 * i + 7 < w)
    (hx : x.eval ρ = some (.bits w X)) :
    (Term.byteAt i x).eval ρ = some (.bits 8 (Bits.byte X i)) := by
  rw [Term.byteAt, Term.eval_extract (by omega) hi hx]
  refine congrArg some (Datum.bits_congr_getLsbD (by omega) fun j hj => ?_)
  rw [BitVec.getLsbD_extractLsb, Bits.byte, BitVec.getLsbD_extractLsb']
  rw [show 8 * i + 7 - 8 * i + 1 = 8 by omega]

/-- The lowest bytes in the opposite order, of which there is at least one. -/
theorem eval_bytes_reversed {X : BitVec w} {n : Nat} (hn : 8 * n + 7 < w)
    (hx : x.eval ρ = some (.bits w X)) :
    ∃ t, reduceTerms Term.concat ((List.range (n + 1)).map (Term.byteAt · x)) = some t
      ∧ ∃ Y, t.eval ρ = some (.bits (8 * (n + 1)) Y)
        ∧ ∀ i, i < 8 * (n + 1) → Y.getLsbD i = X.getLsbD (8 * (n - i / 8) + i % 8) := by
  induction n with
  | zero =>
      refine ⟨Term.byteAt 0 x, rfl, _, eval_byteAt hn hx, fun i hi => ?_⟩
      rw [Bits.getLsbD_byte X 0 hi]
      exact congrArg X.getLsbD (by omega)
  | succ n ih =>
      obtain ⟨t, ht, Y, hte, hY⟩ := ih (by omega)
      have hb := eval_byteAt (i := n + 1) hn hx
      rw [List.range_succ, List.map_append, List.map_singleton, reduceTerms_append_singleton, ht]
      refine ⟨_, rfl, Y ++ Bits.byte X (n + 1), Term.eval_concat hte hb, fun i hi => ?_⟩
      rw [BitVec.getLsbD_append]
      split
      case isTrue h8 =>
        rw [Bits.getLsbD_byte X (n + 1) h8]
        exact congrArg X.getLsbD (by omega)
      case isFalse h8 =>
        rw [hY (i - 8) (by omega)]
        exact congrArg X.getLsbD (by omega)

/-- The bytes in the opposite order. -/
theorem eval_reverseBytesTerm {X : BitVec w} (hw : 0 < w) (h8 : 8 ∣ w)
    (hx : x.eval ρ = some (.bits w X)) :
    (reverseBytesTerm w x).eval ρ = some (.bits w (Bits.reverseBytes X)) := by
  obtain ⟨k, rfl⟩ := h8
  obtain ⟨n, rfl⟩ : ∃ n, k = n + 1 := ⟨k - 1, by omega⟩
  obtain ⟨t, ht, Y, hte, hY⟩ := eval_bytes_reversed (n := n) (by omega) hx
  have hk : 8 * (n + 1) / 8 = n + 1 := by omega
  rw [reverseBytesTerm, hk, ht, Option.getD_some, hte]
  refine congrArg some (Datum.bits_congr_getLsbD rfl fun i hi => ?_)
  rw [hY i hi, Bits.getLsbD_reverseBytes X hi, hk]
  rfl

-- ============================================================ searching

/-- The first of some indices whose bit is set. -/
theorem eval_scanTerm {X d : BitVec w} {otherwise : Term} {indices : List Nat}
    (hw : w < valueCount magnitudeBits) (hi : ∀ i ∈ indices, i < w)
    (hx : x.eval ρ = some (.bits w X)) (ho : otherwise.eval ρ = some (.bits w d)) :
    (scanTerm w x otherwise indices).eval ρ
      = some (.bits w (match indices.find? X.getLsbD with
        | some i => BitVec.ofNat w i
        | none => d)) := by
  induction indices with
  | nil => exact ho
  | cons i indices ih =>
      have hrest := ih fun j hj => hi j (List.mem_cons_of_mem i hj)
      have hiw := hi i List.mem_cons_self
      have hlit := Term.eval_bits (ρ := ρ) (w := w) (reduceMagnitude w i)
      rw [Term.ofNat_reduceMagnitude (Nat.lt_trans hiw hw)] at hlit
      rw [scanTerm, List.foldr_cons, ← scanTerm]
      rw [Term.eval_ite_bits (Term.eval_testBit hiw hx) hlit hrest, List.find?_cons]
      cases X.getLsbD i <;> rfl

-- =============================================================== parity

/-- The exclusive disjunction of some bits. -/
theorem eval_foldl_xor {X : BitVec w} {acc : Term} {b : Bool} {l : List Nat}
    (hi : ∀ i ∈ l, i + 1 < w) (hx : x.eval ρ = some (.bits w X))
    (ha : acc.eval ρ = some (.bits 1 (BitVec.ofBool b))) :
    (l.foldl (fun acc i => Term.binary "bvxor" acc (Term.bitAt (i + 1) x)) acc).eval ρ
      = some (.bits 1
        (BitVec.ofBool (l.foldl (fun acc i => acc ^^ X.getLsbD (i + 1)) b))) := by
  induction l generalizing acc b with
  | nil => exact ha
  | cons i l ih =>
      have hb := Term.eval_bitAt (hi i List.mem_cons_self) hx
      refine ih (fun j hj => hi j (List.mem_cons_of_mem i hj)) ?_
      rw [Term.eval_binary (by decide) ha hb]
      show some (Datum.bits 1 (BitVec.ofBool b ^^^ BitVec.ofBool (X.getLsbD (i + 1)))) = _
      rw [BitVec.ofBool_xor_ofBool]

/-- The even parity of a byte. -/
theorem eval_evenParityTerm {X : BitVec 8} (hx : x.eval ρ = some (.bits 8 X)) :
    (evenParityTerm x).eval ρ = some (.bool (Bits.countSet X % 2 = 0)) := by
  have hb := Term.eval_bitAt (i := 0) (by omega) hx
  have hp := eval_foldl_xor (l := List.range 7)
    (fun i hi => by have := List.mem_range.1 hi; omega) hx hb
  rw [evenParityTerm, Term.eq, ← Term.binary,
    Term.eval_binary (by decide) hp (Term.eval_bits 0), Bits.foldl_xor]
  have hc : Bits.countSet X = (X.getLsbD 0).toNat
      + (List.range 7).countP fun i => X.getLsbD (i + 1) := by
    rw [Bits.countSet, List.range_succ_eq_map, List.countP_cons, List.countP_map, Nat.add_comm]
    congr 1
    cases X.getLsbD 0 <;> rfl
  rw [hc]
  generalize (List.range 7).countP (fun i => X.getLsbD (i + 1)) = n
  rcases Nat.mod_two_eq_zero_or_one n with hn | hn <;> cases X.getLsbD 0
  · simp [Smt.pairCall, hn]
  · simp [Smt.pairCall, hn, Nat.add_mod]
  · simp [Smt.pairCall, hn]
  · simp [Smt.pairCall, hn, Nat.add_mod]

-- ============================================================== shuffle

/-- The low four bits of a byte, eight times over, are the distance in bits of
the byte that they number. -/
theorem toNat_byte_distance (c : BitVec 8) : ((c &&& 15#8) * 8#8).toNat = 8 * (c.toNat % 16) := by
  have h15 : (c &&& 15#8).toNat = c.toNat % 16 := Nat.and_two_pow_sub_one_eq_mod c.toNat 4
  rw [BitVec.toNat_mul, h15]
  show c.toNat % 16 * 8 % 2 ^ 8 = _
  omega

theorem eval_shuffledByte {src index : Term} {X Y : BitVec 128} {i : Nat} (hi : i < 16)
    (hs : src.eval ρ = some (.bits 128 X)) (hx : index.eval ρ = some (.bits 128 Y)) :
    ∃ B, (Term.shuffledByte src index i).eval ρ = some (.bits 8 B)
      ∧ ∀ j, j < 8 → B.getLsbD j = (!Y.getLsbD (8 * i + 7)
        && X.getLsbD (8 * (Y.toNat / 2 ^ (8 * i) % 16) + j)) := by
  have hc := eval_byteAt (i := i) (by omega) hx
  obtain ⟨c, hcdef⟩ : ∃ c, c = Bits.byte Y i := ⟨_, rfl⟩
  rw [← hcdef] at hc
  have hlow : (Term.binary "bvand" (Term.byteAt i index) (.bits 8 15)).eval ρ
      = some (.bits 8 (c &&& 15#8)) := Term.eval_binary (by decide) hc (Term.eval_bits 15)
  have hdist : (Term.binary "bvmul" (Term.binary "bvand" (Term.byteAt i index) (.bits 8 15))
      (.bits 8 8)).eval ρ = some (.bits 8 ((c &&& 15#8) * 8#8)) :=
    Term.eval_binary (by decide) hlow (Term.eval_bits 8)
  have hshift := Term.eval_binary (f := "bvlshr") (by decide) hs
    (Term.eval_zeroExtend (n := 120) hdist)
  have hsel := eval_byteAt (i := 0) (by omega) hshift
  have htop := Term.eval_testBit (i := 7) (by omega) hc
  refine ⟨_, Term.eval_ite_bits htop (Term.eval_bits 0) hsel, fun j hj => ?_⟩
  have hct : c.getLsbD 7 = Y.getLsbD (8 * i + 7) := by rw [hcdef, Bits.getLsbD_byte Y i (by omega)]
  have hamount : (((c &&& 15#8) * 8#8).setWidth (8 + 120)).toNat
      = 8 * (Y.toNat / 2 ^ (8 * i) % 16) := by
    rw [BitVec.toNat_setWidth_of_le (by omega), toNat_byte_distance, hcdef, Bits.toNat_byte_mod]
  rw [hct]
  cases Y.getLsbD (8 * i + 7)
  · rw [Bool.not_false, Bool.true_and]
    show (Bits.byte (X >>> ((c &&& 15#8) * 8#8).setWidth (8 + 120)) 0).getLsbD j = _
    rw [Bits.getLsbD_byte _ 0 hj, BitVec.ushiftRight_eq', BitVec.getLsbD_ushiftRight, hamount]
    exact congrArg X.getLsbD (by omega)
  · simp

/-- The lowest bytes of the shuffle. -/
theorem eval_shuffled_bytes {src index : Term} {X Y : BitVec 128} {n : Nat} (hn : n < 16)
    (hs : src.eval ρ = some (.bits 128 X)) (hx : index.eval ρ = some (.bits 128 Y)) :
    ∃ Z, ((List.range n).foldl (fun acc i => Term.concat (Term.shuffledByte src index (i + 1)) acc)
        (Term.shuffledByte src index 0)).eval ρ = some (.bits (8 * (n + 1)) Z)
      ∧ ∀ j, j < 8 * (n + 1) → Z.getLsbD j = (!Y.getLsbD (8 * (j / 8) + 7)
        && X.getLsbD (8 * (Y.toNat / 2 ^ (8 * (j / 8)) % 16) + j % 8)) := by
  induction n with
  | zero =>
      obtain ⟨B, hB, hbits⟩ := eval_shuffledByte (i := 0) (by omega) hs hx
      refine ⟨B, hB, fun j hj => ?_⟩
      rw [hbits j hj, show j / 8 = 0 by omega, show j % 8 = j by omega]
  | succ n ih =>
      obtain ⟨Z, hZ, hbits⟩ := ih (by omega)
      obtain ⟨B, hB, hbyte⟩ := eval_shuffledByte (i := n + 1) hn hs hx
      rw [List.range_succ, List.foldl_append]
      have hcat := Term.eval_concat hB hZ
      refine ⟨(B ++ Z).cast (by omega), ?_, fun j hj => ?_⟩
      · refine hcat.trans (congrArg some (Datum.bits_congr (by omega) ?_))
        rw [BitVec.toNat_cast]
      · rw [BitVec.getLsbD_cast, BitVec.getLsbD_append]
        split
        case isTrue hlt => exact hbits j hlt
        case isFalse hge =>
          rw [hbyte _ (by omega), show j / 8 = n + 1 by omega,
            show j - 8 * (n + 1) = j % 8 by omega]

/-- The shuffle of the bytes of a vector. -/
theorem eval_shuffle128 {src index : Term} {X Y : BitVec 128}
    (hs : src.eval ρ = some (.bits 128 X)) (hx : index.eval ρ = some (.bits 128 Y)) :
    (Term.shuffle128 src index).eval ρ = some (.bits 128 (Bits.shuffle128 X Y)) := by
  obtain ⟨Z, hZ, hbits⟩ := eval_shuffled_bytes (n := 15) (by omega) hs hx
  rw [Term.shuffle128, hZ]
  refine congrArg some (Datum.bits_congr_getLsbD rfl fun j hj => ?_)
  rw [hbits j hj, Bits.shuffle128, Bits.getLsbD_ofBits _ hj]

end LiftedCode.Trace
