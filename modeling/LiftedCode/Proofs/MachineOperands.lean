/-
The operands of machine functions. The check of a machine function is about its result, and
lets operands of any type pass. What the function leads to depends on them all the same: a
term for it has a sort exactly if the terms of its operands fit (`MachineFn.TermsFit`), and
the code for it obeys the typing rules exactly if its operands are of types that the code
takes (`MachineFn.Takes`). The widths of the machine are right for both
(`MachineFn.typed_iff_fits`), and a shuffle of single bytes passes its check and is wrong
for both (`MachineFn.shuffle_mistyped`).

# The argument

An operand is lowered to what it would have been lowered to at first, and without an
instruction, so the code is known but for its operands. Every operand is read by an
instruction that says its type, which is why the types are needed; all others are on results
of the code itself, which is why they are enough.
-/
import LiftedCode.Proofs.Lowering.Demand
import LiftedCode.Proofs.Lowering.Phis
import LiftedCode.Proofs.Lowering.Sound.Stmt
import LiftedCode.Proofs.Trace.EncodingSort

namespace LiftedCode

-- ================================================================= checks

/-- A machine function that passes its check has a result of some type. -/
theorem Rhs.of_check_machine {f : MachineFn Value} (h : (Rhs.machine f).check = .ok ()) :
    ∃ τ, f.ty = .ok τ ∧ τ.nonempty = true := by
  obtain ⟨τ, hτ, h⟩ := ok_of_bind h
  exact ⟨τ, ok_of_mapError hτ, of_expectNonempty h⟩

/-- Other operands make no difference to the check. -/
theorem Rhs.check_machine_map (f : MachineFn Value) (g : Value → Value) :
    (Rhs.machine (f.map g)).check = (Rhs.machine f).check := by
  cases f <;> rfl

-- ================================================================== terms

section

open Smt (Term Sorting)
open Trace

variable {look : Value → Except TraceError Term} {Γ : Sorting} {f : MachineFn Value} {t : Term}
  {τ : Ty}

/-- Whether the terms of the operands fit the term for the function: the source of a shuffle
has as many bits as the result, and the index has no fewer. -/
def MachineFn.TermsFit (look : Value → Except TraceError Term) (Γ : Sorting) :
    MachineFn Value → Prop
  | shuffleBytes n src index => (∀ a, look src = .ok a → a.sort? Γ = some (.bits (8 * n)))
    ∧ ∀ b, look index = .ok b → ∃ w, 8 * n ≤ w ∧ b.sort? Γ = some (.bits w)
  | _ => True

/-- Operands of the widths of the machine have terms that fit. -/
theorem MachineFn.Architectural.termsFit (h : f.Architectural)
    (hlook : ∀ v ∈ f.operands, ∀ a, look v = .ok a → HasTy Γ a v.ty) : f.TermsFit look Γ := by
  cases f with
  | readFsBase | readGsBase | cpuid | readTimestamp | readControl => trivial
  | shuffleBytes n src index =>
      refine ⟨fun a ha => ?_, fun b hb => ⟨8 * n, Nat.le_refl _, ?_⟩⟩
      · rw [← hasTy_bits, ← h.1]
        exact hlook src (by simp [operands]) a ha
      · rw [← hasTy_bits, ← h.2]
        exact hlook index (by simp [operands]) b hb

/-- The term for a machine function is of the type of the function exactly if those of its
operands fit, and has no sort otherwise. -/
theorem sorted_machineFnTerm (ht : machineFnTerm look f = .ok (some t)) (hτ : f.ty = .ok τ) :
    (∀ σ, t.sort? Γ = some σ → HasTy Γ t τ) ∧ (HasTy Γ t τ ↔ f.TermsFit look Γ) := by
  obtain ⟨src, index, a, b, rfl, ha, hb, rfl⟩ := of_machineFnTerm ht
  obtain rfl : Ty.bits 128 = τ := Except.ok.inj hτ
  rw [hasTy_bits]
  have hfits : ∀ σ, (Term.shuffle128 a b).sort? Γ = some σ →
      (MachineFn.shuffleBytes 16 src index).TermsFit look Γ := by
    intro σ hσ
    obtain ⟨hsrc, hindex⟩ := of_sort?_shuffle128 hσ
    refine ⟨fun a' ha' => ?_, fun b' hb' => ?_⟩
    · rw [← Except.ok.inj (ha.symm.trans ha')]
      exact hsrc
    · rw [← Except.ok.inj (hb.symm.trans hb')]
      exact hindex
  have hsorted : (MachineFn.shuffleBytes 16 src index).TermsFit look Γ →
      (Term.shuffle128 a b).sort? Γ = some (.bits 128) := by
    intro h
    obtain ⟨w, hw, hindex⟩ := h.2 b hb
    exact sort?_shuffle128 (h.1 a ha) hw hindex
  exact ⟨fun σ hσ => hsorted (hfits σ hσ), hfits _, hsorted⟩

end

-- =================================================================== code

/-- Whether the code for a machine function can take an operand of a type: machine code has
integers in its registers, and a shuffle is of vectors of any kind. -/
def MachineFn.Takes : MachineFn Value → Llvm.Ty → Prop
  | readFsBase, _ | readGsBase, _ | readTimestamp, _ => True
  | cpuid _ _, t | readControl _, t => t = .int 32
  | shuffleBytes n _ _, t => t.width? = some (8 * n)

/-- Code takes operands of the widths of the machine. -/
theorem MachineFn.Architectural.takes {f : MachineFn Value} (h : f.Architectural) :
    ∀ v ∈ f.operands, f.Takes (.ofTy v.ty) := by
  cases f with
  | readFsBase | readGsBase | readTimestamp => exact nofun
  | cpuid a b => exact Lowering.forall_mem_pair (congrArg _ h.1) (congrArg _ h.2)
  | readControl a => exact List.forall_mem_singleton.2 (congrArg _ h)
  | shuffleBytes n a b =>
      refine Lowering.forall_mem_pair ?_ ?_
      · exact (congrArg (Llvm.Ty.ofTy · |>.width?) h.1).trans rfl
      · exact (congrArg (Llvm.Ty.ofTy · |>.width?) h.2).trans rfl

namespace Lowering

open Llvm (Typed Instr Op Local Scope Declaration)

/-- Whether there are the results of some instructions in a scope, and all that is
declared. -/
structure Encloses (Γ : Scope) (is : List Instr) (ds : Declarations) : Prop where
  locals : ∀ x op t, .assign x op ∈ is → op.ty? = some t → Γ.locals x t
  declared : ∀ d : Declaration, ds.get? d.name = some d → Γ.declared d

variable {env : Env} {s s' : State} {a b : Value} {x y : Typed} {f : MachineFn Value} {τ : Ty}
  {Γ : Scope} {is : List Instr} {ds : Declarations}

theorem Encloses.tail {i : Instr} (h : Encloses Γ (i :: is) ds) : Encloses Γ is ds :=
  ⟨fun x op t hmem => h.locals x op t (List.mem_cons_of_mem i hmem), h.declared⟩

/-- The result of an instruction is an operand after it. -/
theorem Encloses.result (h : Encloses Γ is ds) {l : Local} {op : Op} {t : Llvm.Ty}
    (hmem : .assign l op ∈ is) (hop : op.ty? = some t) (ht : t.legal = true) :
    Typed.WellTyped Γ ⟨t, .reg l⟩ := ⟨ht, h.locals l op t hmem hop⟩

/-- A step has one result. -/
theorem forall_succeeds_iff {α : Type} {m : Step α} {r : α} {p : α → Prop}
    (h : Succeeds m s r s') : (∀ q s₁, Succeeds m s q s₁ → p q) ↔ p r := by
  refine ⟨fun hall => hall r s' h, fun hr q s₁ hq => ?_⟩
  rw [← Except.ok.inj (Prod.mk.inj (h.symm.trans hq)).1]
  exact hr

/-- The two halves are put together from results of the code itself. -/
theorem wellTyped_joinHalves (h : Succeeds (joinHalves x) s y s')
    (hx : x.ty = .struct [.int 32, .int 32]) :
    y.ty = .int 64 ∧ ∃ is, s'.instrs.toList = s.instrs.toList ++ is
      ∧ ∀ Γ ds, Encloses Γ is ds → x.WellTyped Γ → ∀ i ∈ is, i.WellTyped Γ := by
  cases h
  refine ⟨rfl, _, by simp only [Array.toList_push, List.append_assoc]; rfl, fun Γ ds hΓ hwell => ?_⟩
  have hlo : Typed.WellTyped Γ ⟨.int 32, .reg (.temp s.nextTemp)⟩ :=
    hΓ.result (List.mem_of_getElem? (i := 0) rfl) (by rw [Op.ty?, hx]; rfl) rfl
  have hhi : Typed.WellTyped Γ ⟨.int 32, .reg (.temp (s.nextTemp + 1))⟩ :=
    hΓ.result (List.mem_of_getElem? (i := 1) rfl) (by rw [Op.ty?, hx]; rfl) rfl
  have hlow : Typed.WellTyped Γ ⟨.int 64, .reg (.temp (s.nextTemp + 2))⟩ :=
    hΓ.result (List.mem_of_getElem? (i := 2) rfl) rfl rfl
  have hwide : Typed.WellTyped Γ ⟨.int 64, .reg (.temp (s.nextTemp + 3))⟩ :=
    hΓ.result (List.mem_of_getElem? (i := 3) rfl) rfl rfl
  have hhigh : Typed.WellTyped Γ ⟨.int 64, .reg (.temp (s.nextTemp + 4))⟩ :=
    hΓ.result (List.mem_of_getElem? (i := 4) rfl) rfl rfl
  have hfield : ∀ i < 2, (Op.extractValue x i).WellTyped Γ := fun i hi => ⟨⟨_, hx, hi⟩, hwell⟩
  simp only [List.forall_mem_append, List.forall_mem_singleton]
  exact ⟨hfield 0 (by decide), hfield 1 (by decide), ⟨rfl, rfl, hlo⟩, ⟨rfl, rfl, hhi⟩,
    ⟨rfl, hwide, rfl, rfl⟩, ⟨rfl, hhigh, hlow⟩⟩

theorem forall_mem_pair_iff {α : Type} {p : α → Prop} {a b : α} :
    (∀ x ∈ [a, b], p x) ↔ p a ∧ p b := by
  rw [List.forall_mem_cons, List.forall_mem_singleton]

/-- A cast of bits is one of an operand of as many bits. -/
theorem wellTyped_bitcast_iff {t : Llvm.Ty} {w : Nat} (hw : t.width? = some w)
    (ht : t.legal = true) :
    (Op.cast .bitcast y t).WellTyped Γ ↔ y.ty.width? = some w ∧ y.WellTyped Γ := by
  rw [Op.WellTyped, Llvm.CastOperator.allows, hw, Bool.and_eq_true, beq_iff_eq]
  constructor
  · rintro ⟨⟨-, hy⟩, -, hwell⟩
    exact ⟨hy, hwell⟩
  · rintro ⟨hy, hwell⟩
    exact ⟨⟨by rw [hy]; rfl, hy⟩, ht, hwell⟩

/-- The shuffle of 16 bytes is well typed exactly if both of its vectors have 128 bits. -/
theorem wellTyped_shuffle128_iff (h : Succeeds (shuffle128 env a b) s x s') :
    x.ty = .int 128 ∧ ∃ is, s'.instrs.toList = s.instrs.toList ++ is
      ∧ ∀ Γ, Encloses Γ is s'.declarations → ((∀ i ∈ is, i.WellTyped Γ)
        ↔ ∀ v ∈ [a, b], ∀ y s₁, Succeeds (value env v) s y s₁ →
          y.ty.width? = some 128 ∧ y.WellTyped Γ) := by
  obtain ⟨y, s₁, hy, h⟩ := succeeds_bind h
  obtain ⟨p, s₂, hp, h⟩ := succeeds_bind h
  cases hp
  obtain ⟨z, s₃, hz, h⟩ := succeeds_bind h
  obtain ⟨q, s₄, hq, h⟩ := succeeds_bind h
  cases hq
  obtain ⟨r, s₅, hr, h⟩ := succeeds_bind h
  obtain ⟨_, s₆, hdeclare, hr⟩ := succeeds_bind hr
  obtain ⟨ds, log, rfl, hd, -⟩ := succeeds_declare hdeclare
  cases hr
  cases h
  have hwidens := widens_value hy
  obtain ⟨s₇, hz'⟩ : ∃ s₇, Succeeds (value env b) s z s₇ :=
    Widens.exists_value (by exact ⟨hwidens.values, hwidens.declared⟩) hz
  refine ⟨rfl, _, by simp only [Array.toList_push, List.append_assoc, instrs_of_value hz,
    instrs_of_value hy]; rfl, fun Γ hΓ => ?_⟩
  rw [forall_mem_pair_iff, forall_succeeds_iff hy, forall_succeeds_iff hz']
  simp only [List.forall_mem_append, List.forall_mem_singleton]
  refine and_congr (wellTyped_bitcast_iff rfl rfl)
    ((and_iff_left ⟨?_, ?_⟩).trans (wellTyped_bitcast_iff rfl rfl))
  · refine ⟨rfl, .declared Llvm.Intrinsic.shuffle128 _ (hΓ.declared _ hd) rfl, ?_⟩
    refine forall_mem_pair ?_ ?_
    · exact hΓ.result (List.mem_of_getElem? (i := 0) rfl) rfl rfl
    · exact hΓ.result (List.mem_of_getElem? (i := 1) rfl) rfl rfl
  · refine (wellTyped_bitcast_iff rfl rfl).2 ⟨rfl, ?_⟩
    exact hΓ.result (List.mem_of_getElem? (i := 2) rfl) rfl rfl

/-- The code for a machine function obeys the typing rules exactly if the function takes
what its operands are lowered to. -/
theorem wellTyped_machineFn_iff (h : Succeeds (machineFn env f) s x s') (hτ : f.ty = .ok τ) :
    x.ty = .ofTy τ ∧ ∃ is, s'.instrs.toList = s.instrs.toList ++ is
      ∧ ∀ Γ, Encloses Γ is s'.declarations → ((∀ i ∈ is, i.WellTyped Γ)
        ↔ ∀ v ∈ f.operands, ∀ y s₁, Succeeds (value env v) s y s₁ →
          f.Takes y.ty ∧ y.WellTyped Γ) := by
  cases f with
  | readFsBase | readGsBase =>
      cases h
      cases hτ
      refine ⟨rfl, [_], Array.toList_push, fun Γ _ => ⟨fun _ => List.forall_mem_nil _, fun _ => ?_⟩⟩
      exact List.forall_mem_singleton.2 (List.forall_mem_nil _)
  | cpuid a b =>
      obtain ⟨⟨y, z⟩, s₂, hyz, h⟩ := succeeds_bind h
      obtain ⟨y', s₁, hy, hyz⟩ := succeeds_bind hyz
      obtain ⟨z', s₃, hz, hyz⟩ := succeeds_bind hyz
      obtain ⟨hp, rfl⟩ := succeeds_pure hyz
      cases hp
      cases h
      cases hτ
      obtain ⟨s₄, hz'⟩ := (widens_value hy).exists_value hz
      refine ⟨rfl, [_], by rw [Array.toList_push, instrs_of_value hz, instrs_of_value hy],
        fun Γ _ => ?_⟩
      rw [List.forall_mem_singleton, MachineFn.operands, forall_mem_pair_iff,
        forall_succeeds_iff hy, forall_succeeds_iff hz']
      exact forall_mem_pair_iff
  | readTimestamp =>
      obtain ⟨_, s₁, hdeclare, h⟩ := succeeds_bind h
      obtain ⟨ds, log, rfl, hd, -⟩ := succeeds_declare hdeclare
      cases h
      cases hτ
      refine ⟨rfl, [_], Array.toList_push,
        fun Γ hΓ => ⟨fun _ => List.forall_mem_nil _, fun _ => ?_⟩⟩
      refine List.forall_mem_singleton.2 ⟨rfl, ?_, List.forall_mem_nil _⟩
      exact .declared Llvm.Intrinsic.readTimestamp [] (hΓ.declared _ hd) rfl
  | readControl a =>
      obtain ⟨y, s₁, hy, h⟩ := succeeds_bind h
      obtain ⟨r, s₂, hr, h⟩ := succeeds_bind h
      cases hr
      cases hτ
      obtain ⟨hx, is, his, hwell⟩ := wellTyped_joinHalves h rfl
      rw [Array.toList_push, instrs_of_value hy, List.append_assoc, List.singleton_append] at his
      refine ⟨hx, _, his, fun Γ hΓ => ?_⟩
      rw [List.forall_mem_cons, MachineFn.operands, List.forall_mem_singleton,
        forall_succeeds_iff hy]
      refine (and_iff_left ?_).trans List.forall_mem_singleton
      exact hwell Γ _ hΓ.tail (hΓ.result List.mem_cons_self rfl rfl)
  | shuffleBytes n a b =>
      by_cases hn : n = 16
      · subst hn
        cases hτ
        exact wellTyped_shuffle128_iff h
      · unfold machineFn at h
        split at h
        case h_6 heq => exact absurd (MachineFn.shuffleBytes.inj heq).1 hn
        case h_7 => exact absurd h not_succeeds_throw
        all_goals contradiction

end Lowering

-- ================================================================= results

section

open Smt (Term)
open Trace Lowering

/-- A machine function that passes its check does so with any operands. If it has a term,
then one of the sort of its result if the terms of its operands fit, and one of no sort
otherwise. If it is lowered, then to an operand of the type of its result, and to code that
obeys the typing rules exactly if its operands do and are of types that it takes. What the
machine has for operands is right for both. -/
theorem MachineFn.typed_iff_fits {f : MachineFn Value} (hf : (Rhs.machine f).check = .ok ()) :
    ∃ τ, f.ty = .ok τ ∧ τ.nonempty = true
      ∧ (∀ g : Value → Value, (Rhs.machine (f.map g)).check = .ok ())
      ∧ (∀ look Γ t, machineFnTerm look f = .ok (some t) →
          (∀ σ, t.sort? Γ = some σ → HasTy Γ t τ) ∧ (HasTy Γ t τ ↔ f.TermsFit look Γ))
      ∧ (∀ env s x s', Succeeds (machineFn env f) s x s' → x.ty = .ofTy τ
          ∧ ∃ is, s'.instrs.toList = s.instrs.toList ++ is
            ∧ ∀ Γ, Encloses Γ is s'.declarations → ((∀ i ∈ is, i.WellTyped Γ)
              ↔ ∀ v ∈ f.operands, ∀ y s₁, Succeeds (value env v) s y s₁ →
                f.Takes y.ty ∧ y.WellTyped Γ))
      ∧ (f.Architectural → (∀ v ∈ f.operands, f.Takes (.ofTy v.ty))
          ∧ ∀ look Γ, (∀ v ∈ f.operands, ∀ a, look v = .ok a → HasTy Γ a v.ty) →
            f.TermsFit look Γ) := by
  obtain ⟨τ, hτ, hpos⟩ := Rhs.of_check_machine hf
  refine ⟨τ, hτ, hpos, fun g => (Rhs.check_machine_map f g).trans hf, ?_, ?_, ?_⟩
  · exact fun look Γ t ht => sorted_machineFnTerm ht hτ
  · exact fun env s x s' h => wellTyped_machineFn_iff h hτ
  · exact fun h => ⟨h.takes, fun look Γ hlook => h.termsFit hlook⟩

/-- The bytes of an integer, shuffled by a vector of bytes. -/
def vectorShuffle : MachineFn Value :=
  .shuffleBytes 16 (.arg 0 (.bits 128)) (.arg 1 (.vector 16 (.bits 8)))

/-- An integer and a vector of bytes as arguments. -/
def vectorEnv : Env := ⟨default, 0, [.bits 128, .vector 16 (.bits 8)]⟩

theorem machineFn_vectorShuffle :
    ∃ x s', Succeeds (machineFn vectorEnv vectorShuffle) default x s' := ⟨_, _, rfl⟩

/-- Both have 128 bits, so the shuffle has a term of the sort of its result, and code that is
well typed. -/
theorem MachineFn.typed_iff_fits_vectors : (Rhs.machine vectorShuffle).check = .ok ()
    ∧ (∃ t, machineFnTerm (fun _ => .ok (.var "x")) vectorShuffle = .ok (some t)
      ∧ HasTy (fun _ => some (.bits 128)) t (.bits 128))
    ∧ ∃ x s' Γ, Succeeds (machineFn vectorEnv vectorShuffle) default x s'
      ∧ Encloses Γ s'.instrs.toList s'.declarations ∧ ∀ i ∈ s'.instrs.toList, i.WellTyped Γ := by
  have hcheck : (Rhs.machine vectorShuffle).check = .ok () := rfl
  obtain ⟨τ, hτ, -, -, hterm, hcode, -⟩ := MachineFn.typed_iff_fits hcheck
  obtain rfl : Ty.bits 128 = τ := Except.ok.inj hτ
  refine ⟨hcheck, ⟨_, rfl, (hterm (fun _ => .ok (.var "x")) _ _ rfl).2.2 ⟨?_, ?_⟩⟩, ?_⟩
  · rintro a ⟨⟩
    rfl
  · rintro b ⟨⟩
    exact ⟨128, Nat.le_refl _, rfl⟩
  · obtain ⟨x, s', h⟩ := machineFn_vectorShuffle
    obtain ⟨-, is, his, hiff⟩ := hcode _ _ _ _ h
    obtain rfl : s'.instrs.toList = is := his
    have hΓ : Encloses ⟨fun l t => (l, t) ∈ [(.arg 0, .int 128), (.arg 1, .vector 16 (.int 8))]
        ∨ ∃ op, .assign l op ∈ s'.instrs.toList ∧ op.ty? = some t,
        fun d => s'.declarations.get? d.name = some d⟩ s'.instrs.toList s'.declarations :=
      ⟨fun l op t hmem hop => .inr ⟨op, hmem, hop⟩, fun d hd => hd⟩
    refine ⟨x, s', _, h, hΓ, (hiff _ hΓ).2 (forall_mem_pair ?_ ?_)⟩
    · rintro y s₁ ⟨⟩
      exact ⟨rfl, rfl, .inl List.mem_cons_self⟩
    · rintro y s₁ ⟨⟩
      exact ⟨rfl, rfl, .inl (List.mem_cons_of_mem _ List.mem_cons_self)⟩

-- ========================================================= the exception

/-- A shuffle of 16 bytes that is given one byte, and one byte as the order. -/
def byteShuffle : Assignment Value :=
  ⟨0, .machine (.shuffleBytes 16 (.arg 0 (.bits 8)) (.arg 1 (.bits 8))), .bits 128⟩

/-- A routine that returns the shuffle of two bytes. -/
def shuffleOfBytes : Routine where
  name := "shuffle"
  addr := 0
  signature := ⟨[.bits 8, .bits 8], [.bits 128], false⟩
  entry := 0
  blocks := [⟨0, 1, [], [.assign byteShuffle], .ret [some (.assigned byteShuffle)], ∅⟩]

theorem blockMap_shuffleOfBytes :
    shuffleOfBytes.blockMap = .ok ⟨shuffleOfBytes.blocks, Dict.ofList [(0, [])]⟩ :=
  BlockMap.build_of_pairwise (by decide) rfl rfl rfl

/-- The shuffle of bytes is lowered to a cast of eight bits to sixteen bytes. -/
theorem routine_shuffleOfBytes : ∃ lowered log,
    Succeeds (routine default shuffleOfBytes) #[] lowered log
      ∧ lowered.definition.blocks.map (·.instrs.head?) = [some
        (.assign (.temp 0) (.cast .bitcast ⟨.int 8, .reg (.arg 0)⟩ (.vector 16 (.int 8))))] := by
  apply exists_succeeds_of_toOption
  unfold routine
  rw [blockMap_shuffleOfBytes]
  decide +kernel

/-- A shuffle of single bytes is made with its check, its first instruction casts a byte to
a vector of 16, and its term shifts a byte by a number of 128 bits. -/
theorem MachineFn.shuffle_mistyped : Assignment.make 0 byteShuffle.rhs = .ok byteShuffle
    ∧ (∃ lowered log, Succeeds (routine default shuffleOfBytes) #[] lowered log
      ∧ ∃ b ∈ lowered.definition.blocks, ∃ i ∈ b.instrs, ∀ Γ, ¬i.WellTyped Γ)
    ∧ ∃ f t, byteShuffle.rhs = .machine f
      ∧ machineFnTerm (fun _ => .ok (.var "x")) f = .ok (some t)
      ∧ ∀ σ, t.sort? (fun _ => some (.bits 8)) ≠ some σ := by
  refine ⟨rfl, ?_, _, _, rfl, rfl, fun σ hσ => ?_⟩
  · obtain ⟨lowered, log, h, hinstrs⟩ := routine_shuffleOfBytes
    obtain ⟨b, hb, hhead⟩ := List.mem_map.1 (hinstrs ▸ List.mem_singleton_self _)
    exact ⟨lowered, log, h, b, hb, _, List.mem_of_mem_head? hhead,
      fun Γ hwell => absurd hwell.1 (by decide)⟩
  · have hsource := (of_sort?_shuffle128 hσ).1
    exact nomatch Smt.TermSort.bits.inj (Option.some.inj hsource)

end

end LiftedCode
