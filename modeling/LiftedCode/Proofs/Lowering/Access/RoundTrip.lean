/-
Accesses to memory. What is written is there in the order of its layout, and what is read in
that order is the value that is there; a condition that does not hold keeps memory as it is,
and a read gives its default (`access_roundTrip`). This is so for accepted layouts, and no
others are lowered (`accepts_of_read`, `accepts_of_write`).
-/
import LiftedCode.Proofs.Lowering.Access.Order

namespace LiftedCode.Lowering

open Llvm (Typed Instr Op Declaration Data Frame Linkage Intrinsic.maskedLoad
  Intrinsic.maskedStore Intrinsic.swapBytes)

/-- The declarations that an access through some functions and with some operands asks for. -/
def accessDeclarations (l : Layout) (fs : List Declaration) (vs : List Value) :
    List Declaration := vs.filterMap valueDeclaration ++ (orderDeclarations l ++ fs)

variable {link : Linkage} {wanted : Declaration → Prop} {tooWide : Prop} {env : Env}
  {s s' : State} {ρ ρ' : Frame} {M : Memory} {l : Layout} {w n : Nat}

-- =============================================================== accesses

theorem width?_ofTy_layout (hw : w = 8 * l.byteSize) : (Llvm.Ty.ofTy l.ty).width? = some w := by
  rw [width?_ofTy, l.width?_ty, hw]

/-- An address of any width, as a pointer. -/
theorem givesIn_address {a : Value} {A : BitVec n}
    (ha : Usable link wanted env s ρ a (.int n) (.bits n A)) :
    GivesIn link wanted tooWide (address env a) s ρ M .ptr (.bits 64 (A.setWidth 64)) := by
  apply (ha.givesIn M).bind
  rintro x s₁ ρ₁ M h₁ ⟨rfl, hx⟩
  apply givesIn_assign
  rw [Op.evalIn, if_pos rfl, hx.ty, if_pos ⟨rfl, rfl⟩, hx.eval]
  rfl

theorem givesIn_mask {c : Value} {p : Bool}
    (hc : Usable link wanted env s ρ c (.int 1) (.bits 1 (BitVec.ofBool p))) :
    GivesIn link wanted tooWide (mask env c) s ρ M (Llvm.Ty.single (.int 1))
      (.bits 1 (BitVec.ofBool p)) := by
  apply (hc.givesIn M).bind
  rintro x s₁ ρ₁ M h₁ ⟨rfl, hx⟩
  exact givesIn_cast (fun h => nomatch h) hx rfl

theorem performs_layoutTy (hwide : l.TooWide → tooWide) :
    Performs link wanted tooWide (layoutTy l) s ρ M
      fun t _ _ M' => M' = M ∧ t = .ofTy l.ty := by
  have hlocal : StaysLocal (layoutTy l) :=
    (staysLocal_ofExcept _).bind fun _ => staysLocal_pure _
  refine Lowers.performs (Q := fun t _ _ => t = .ofTy l.ty) ?_ hlocal M
  refine Lowers.bind (Q := fun t _ _ => t = l.ty) (lowers_ofFault ?_) ?_
  · unfold Layout.checkedTy inRange
    by_cases hfit : l.bitsFit = true
    · exact .inl ⟨l.ty, if_pos hfit, rfl⟩
    · exact .inr ⟨if_neg hfit, hwide (Layout.tooWide_of_bitsFit (by simpa using hfit))⟩
  · rintro _ s₁ ρ₁ - rfl
    exact lowers_pure rfl

/-- A vector with the one element. -/
theorem givesIn_insertFirst {x : Typed} {t : Llvm.Ty} {d : Data} (hx : Stands link s ρ x t d) :
    GivesIn link wanted tooWide (Step.assign t.single (.insertFirst ⟨t.single, .undef⟩ x)) s ρ M
      t.single d :=
  givesIn_assign ((Op.evalIn_insertFirst t _ x).trans hx.eval)

section

variable {a c v d : Value} {A : BitVec n} {p : Bool} {X D : BitVec w}

/-- What is read is the value that is held. -/
theorem givesIn_read (hl : Accessible wanted tooWide env l) (hw : w = 8 * l.byteSize)
    (ha : Usable link wanted env s ρ a (.int n) (.bits n A))
    (hheld : l.HeldAt M (A.setWidth 64) X) :
    GivesIn link wanted tooWide (read env a l) s ρ M (.ofTy l.ty) (.bits w X) := by
  apply (givesIn_address ha).bind
  rintro q s₁ ρ₁ M h₁ ⟨rfl, hq⟩
  apply (performs_layoutTy hl.wide).bind
  rintro t s₂ ρ₂ M h₂ ⟨rfl, rfl⟩
  have hload : (Op.load (.ofTy l.ty) q).evalIn M link ρ₂ = some (.bits w (l.reorder X)) := by
    rw [← Layout.load_of_heldAt hw hheld]
    exact Op.evalIn_load (hq.of_preserves h₂).eval (width?_ofTy_layout hw) (by omega)
  apply (givesIn_assign hload).bind
  rintro x s₃ ρ₃ M h₃ ⟨rfl, hx⟩
  have hback := givesIn_matchOrder (M := M) hl hw hx
  rwa [l.reorder_reorder hw] at hback

/-- What is read under a condition is the value that is held if the condition holds, and the
default if not. -/
theorem givesIn_readIf (hl : Accessible wanted tooWide env l) (hp : l.isPacked = false)
    (hw : w = 8 * l.byteSize) (hd : wanted (Intrinsic.maskedLoad (.ofTy l.ty)))
    (hc : Usable link wanted env s ρ c (.int 1) (.bits 1 (BitVec.ofBool p)))
    (ha : Usable link wanted env s ρ a (.int n) (.bits n A))
    (hdef : Usable link wanted env s ρ d (.ofTy l.ty) (.bits w D))
    (hheld : p = true → l.HeldAt M (A.setWidth 64) X) :
    GivesIn link wanted tooWide (readIf env l c a d) s ρ M (.ofTy l.ty)
      (.bits w (if p then X else D)) := by
  unfold readIf
  simp only [hp, Bool.false_eq_true, if_false]
  apply (performs_layoutTy hl.wide).bind
  rintro t s₁ ρ₁ M h₁ ⟨rfl, rfl⟩
  apply (givesIn_mask (hc.of_preserves h₁)).bind
  rintro m s₂ ρ₂ M h₂ ⟨rfl, hm⟩
  apply (givesIn_address ((ha.of_preserves h₁).of_preserves h₂)).bind
  rintro q s₃ ρ₃ M h₃ ⟨rfl, hq⟩
  apply ((((hdef.of_preserves h₁).of_preserves h₂).of_preserves h₃).givesIn M).bind
  rintro y s₄ ρ₄ M h₄ ⟨rfl, hy⟩
  apply (givesIn_matchOrder hl hw hy).bind
  rintro y s₅ ρ₅ M h₅ ⟨rfl, hy⟩
  apply (givesIn_insertFirst hy).bind
  rintro e s₆ ρ₆ M h₆ ⟨rfl, he⟩
  have hargs : ∀ s₇ ρ₇, Preserves wanted s₆ ρ₆ s₇ ρ₇ →
      [q, .int 32 1, m, e].mapM (Typed.eval link ρ₇) = some [.bits 64 (A.setWidth 64),
        .bits 32 1#32, .bits 1 (BitVec.ofBool p), .bits w (l.reorder D)] := by
    intro s₇ ρ₇ h₇
    have h₃₇ := ((h₄.trans h₅).trans h₆).trans h₇
    exact Typed.mapM_eval_cons (hq.of_preserves h₃₇).eval (Typed.mapM_eval_cons rfl
      (Typed.mapM_eval_cons (hm.of_preserves (h₃.trans h₃₇)).eval
        (Typed.mapM_eval_cons (he.of_preserves h₇).eval rfl)))
  have hcall : GivesIn link wanted tooWide
      (Step.call (Intrinsic.maskedLoad (.ofTy l.ty)) [q, .int 32 1, m, e]) s₆ ρ₆ M
      (Llvm.Ty.ofTy l.ty).single (.bits w (l.reorder (if p then X else D))) := by
    refine givesIn_call hd fun s₇ ρ₇ h₇ => ?_
    refine (Op.evalIn_maskedLoad (width?_ofTy_layout hw) (by omega) (hargs s₇ ρ₇ h₇)).trans ?_
    cases p with
    | false => rfl
    | true =>
        rw [if_pos rfl, if_pos rfl, Layout.load_of_heldAt hw (hheld rfl)]
  apply hcall.bind
  rintro r s₇ ρ₇ M h₇ ⟨rfl, hr⟩
  apply (givesIn_assign ((Op.evalIn_extractFirst hr.ty).trans hr.eval)).bind
  rintro x s₈ ρ₈ M h₈ ⟨rfl, hx⟩
  have hback := givesIn_matchOrder (M := M) hl hw hx
  rwa [l.reorder_reorder hw] at hback

/-- What is written is put into memory. -/
theorem performs_write (hl : Accessible wanted tooWide env l) (hw : w = 8 * l.byteSize)
    (ha : Usable link wanted env s ρ a (.int n) (.bits n A))
    (hv : Usable link wanted env s ρ v (.ofTy l.ty) (.bits w X)) :
    Performs link wanted tooWide (write env a l v) s ρ M
      fun _ _ _ M' => M' = l.put M (A.setWidth 64) X := by
  apply (hv.givesIn M).bind
  rintro x s₁ ρ₁ M h₁ ⟨rfl, hx⟩
  apply (givesIn_matchOrder hl hw hx).bind
  rintro x s₂ ρ₂ M h₂ ⟨rfl, hx⟩
  apply (givesIn_address ((ha.of_preserves h₁).of_preserves h₂)).bind
  rintro q s₃ ρ₃ M h₃ ⟨rfl, hq⟩
  rw [← l.store_reorder hw]
  exact performs_emit (Instr.execIn_store hq.eval (hx.of_preserves h₃).eval (by omega))

/-- What is written under a condition is put into memory if the condition holds. -/
theorem performs_writeIf (hl : Accessible wanted tooWide env l) (hp : l.isPacked = false)
    (hw : w = 8 * l.byteSize) (hd : wanted (Intrinsic.maskedStore (.ofTy l.ty)))
    (hc : Usable link wanted env s ρ c (.int 1) (.bits 1 (BitVec.ofBool p)))
    (ha : Usable link wanted env s ρ a (.int n) (.bits n A))
    (hv : Usable link wanted env s ρ v (.ofTy l.ty) (.bits w X)) :
    Performs link wanted tooWide (writeIf env c a l v) s ρ M
      fun _ _ _ M' => M' = if p then l.put M (A.setWidth 64) X else M := by
  unfold writeIf
  apply (hv.givesIn M).bind
  rintro x s₁ ρ₁ M h₁ ⟨rfl, hx⟩
  apply (givesIn_matchOrder hl hw hx).bind
  rintro x s₂ ρ₂ M h₂ ⟨rfl, hx⟩
  simp only [hp, Bool.false_eq_true, if_false]
  apply (givesIn_mask ((hc.of_preserves h₁).of_preserves h₂)).bind
  rintro m s₃ ρ₃ M h₃ ⟨rfl, hm⟩
  apply (givesIn_address (((ha.of_preserves h₁).of_preserves h₂).of_preserves h₃)).bind
  rintro q s₄ ρ₄ M h₄ ⟨rfl, hq⟩
  unfold singleton
  rw [hx.ty]
  apply (givesIn_insertFirst ((hx.of_preserves h₃).of_preserves h₄)).bind
  rintro e s₅ ρ₅ M h₅ ⟨rfl, he⟩
  have hargs : [e, q, .int 32 1, m].mapM (Typed.eval link ρ₅) = some [.bits w (l.reorder X),
      .bits 64 (A.setWidth 64), .bits 32 1#32, .bits 1 (BitVec.ofBool p)] :=
    Typed.mapM_eval_cons he.eval (Typed.mapM_eval_cons (hq.of_preserves h₅).eval
      (Typed.mapM_eval_cons rfl (Typed.mapM_eval_cons
        ((hm.of_preserves h₄).of_preserves h₅).eval rfl)))
  rw [← l.store_reorder hw]
  apply (performs_emit (Instr.execIn_maskedStore he.ty (by omega) hargs)).bind
  rintro _ s₆ ρ₆ M' h₆ rfl
  exact performs_declare hd

end

-- ================================================================ refusals

/-- A read that is lowered is of an accepted layout. -/
theorem accepts_of_read {a : Value} {x : Typed} (h : Succeeds (read env a l) s x s') :
    l.accepts env.target.order = true := by
  obtain ⟨_, _, -, h⟩ := succeeds_bind h
  obtain ⟨_, _, -, h⟩ := succeeds_bind h
  obtain ⟨_, _, -, h⟩ := succeeds_bind h
  exact accepts_of_matchOrder h

/-- A write that is lowered is of an accepted layout. -/
theorem accepts_of_write {a v : Value} {u : Unit} (h : Succeeds (write env a l v) s u s') :
    l.accepts env.target.order = true := by
  obtain ⟨_, _, -, h⟩ := succeeds_bind h
  obtain ⟨_, _, horder, -⟩ := succeeds_bind h
  exact accepts_of_matchOrder horder

/-- A conditional read that is lowered is of one number, in an accepted layout. -/
theorem accepts_of_readIf {c a d : Value} {x : Typed}
    (h : Succeeds (readIf env l c a d) s x s') :
    l.isPacked = false ∧ l.accepts env.target.order = true := by
  unfold readIf at h
  by_cases hl : l.isPacked = true
  · simp only [if_pos hl] at h
    obtain ⟨_, _, hrefuse, -⟩ := succeeds_bind h
    exact absurd hrefuse not_succeeds_refuse
  · simp only [if_neg hl] at h
    obtain ⟨_, _, -, h⟩ := succeeds_bind h
    obtain ⟨_, _, -, h⟩ := succeeds_bind h
    obtain ⟨_, _, -, h⟩ := succeeds_bind h
    obtain ⟨_, _, -, h⟩ := succeeds_bind h
    obtain ⟨_, _, horder, -⟩ := succeeds_bind h
    exact ⟨Bool.of_not_eq_true hl, accepts_of_matchOrder horder⟩

/-- A conditional write that is lowered is of one number, in an accepted layout. -/
theorem accepts_of_writeIf {c a v : Value} {u : Unit}
    (h : Succeeds (writeIf env c a l v) s u s') :
    l.isPacked = false ∧ l.accepts env.target.order = true := by
  obtain ⟨_, _, -, h⟩ := succeeds_bind h
  obtain ⟨_, _, horder, h⟩ := succeeds_bind h
  refine ⟨Bool.of_not_eq_true fun hl => ?_, accepts_of_matchOrder horder⟩
  simp only [if_pos hl] at h
  obtain ⟨_, _, hrefuse, -⟩ := succeeds_bind h
  exact not_succeeds_refuse hrefuse

-- ============================================================= round trips

/-- An access to memory with the lowest byte first asks for the declarations that it is
said to ask for. -/
theorem accessible_of_accepts (henv : env.target.order = .little) (hl : l.accepts .little = true)
    (fs : List Declaration) (vs : List Value) :
    Accessible (· ∈ accessDeclarations l fs vs) l.TooWide env l where
  order := henv
  accepts := hl
  declared _ hd := List.mem_append_right _ (List.mem_append_left _ hd)
  wide := id

theorem usable_of_known {fs : List Declaration} {vs : List Value} {v : Value} {t : Ty} {d : Data}
    (h : v.ty = t ∧ Known link env s ρ v d) (hv : v ∈ vs) :
    Usable link (· ∈ accessDeclarations l fs vs) env s ρ v (.ofTy t) d where
  known := h.2
  ty := congrArg _ h.1
  declared _ hf := List.mem_append_left _ (List.mem_filterMap.2 ⟨v, hv, hf ▸ rfl⟩)

theorem mem_accessDeclarations {fs : List Declaration} {vs : List Value} {d : Declaration}
    (hd : d ∈ fs) : d ∈ accessDeclarations l fs vs :=
  List.mem_append_right _ (List.mem_append_right _ hd)

/-- What is written in the order of a layout is there, and is read back. A write puts the
bytes of the value into memory, and changes no others. A read gives the value whose bytes
are there, also right after the write. Under a condition that does not hold, a write
changes nothing and a read gives the default. An access is refused only if a width leaves
its range or a declaration clashes. The bytes have to fit into memory, which is so for all
packed numbers with a count and a width of 32 bits. -/
theorem access_roundTrip {a c v d : Value} {A : BitVec n} {p : Bool} {X D : BitVec w}
    (henv : env.target.order = .little) (hl : l.accepts .little = true)
    (hfit : l.byteSize ≤ 2 ^ 64) (hw : l.ty.width? = some w)
    (ha : a.ty = .bits n ∧ Known link env s ρ a (.bits n A))
    (hc : c.ty = .bool ∧ Known link env s ρ c (.bits 1 (BitVec.ofBool p)))
    (hv : v.ty = l.ty ∧ Known link env s ρ v (.bits w X))
    (hd : d.ty = l.ty ∧ Known link env s ρ d (.bits w D)) (M : Memory) :
    l.HeldAt (l.put M (A.setWidth 64) X) (A.setWidth 64) X
      ∧ Performs link (· ∈ accessDeclarations l [] [v, a]) l.TooWide (write env a l v) s ρ M
        (fun _ _ _ M' => M' = l.put M (A.setWidth 64) X)
      ∧ (l.HeldAt M (A.setWidth 64) X →
        GivesIn link (· ∈ accessDeclarations l [] [a]) l.TooWide (read env a l) s ρ M
          (.ofTy l.ty) (.bits w X))
      ∧ Performs link (· ∈ accessDeclarations l [] [v, a]) l.TooWide
        (do write env a l v; read env a l) s ρ M
        (fun x s' ρ' M' => M' = l.put M (A.setWidth 64) X
          ∧ Stands link s' ρ' x (.ofTy l.ty) (.bits w X))
      ∧ (l.isPacked = false →
        Performs link
            (· ∈ accessDeclarations l [Intrinsic.maskedStore (.ofTy l.ty)] [c, a, v]) l.TooWide
            (writeIf env c a l v) s ρ M
            (fun _ _ _ M' => M' = if p then l.put M (A.setWidth 64) X else M)
          ∧ ((p = true → l.HeldAt M (A.setWidth 64) X) →
            GivesIn link
              (· ∈ accessDeclarations l [Intrinsic.maskedLoad (.ofTy l.ty)] [c, a, d]) l.TooWide
              (readIf env l c a d) s ρ M (.ofTy l.ty) (.bits w (if p then X else D)))) := by
  obtain rfl : w = 8 * l.byteSize := Option.some.inj (hw.symm.trans l.width?_ty)
  have hheld := Layout.heldAt_put hfit M (A.setWidth 64) X
  have haccess := fun fs vs => accessible_of_accepts henv hl fs vs
  have hwrite : Performs link (· ∈ accessDeclarations l [] [v, a]) l.TooWide (write env a l v)
      s ρ M (fun _ _ _ M' => M' = l.put M (A.setWidth 64) X) :=
    performs_write (haccess _ _) rfl (usable_of_known ha (by simp)) (usable_of_known hv (by simp))
  refine ⟨hheld, hwrite, fun hheld => ?_, ?_, fun hscalar => ⟨?_, fun hheld => ?_⟩⟩
  · exact givesIn_read (haccess _ _) rfl (usable_of_known ha (by simp)) hheld
  · apply hwrite.bind
    rintro _ s₁ ρ₁ M₁ h₁ rfl
    exact givesIn_read (haccess _ _) rfl ((usable_of_known ha (by simp)).of_preserves h₁) hheld
  · exact performs_writeIf (haccess _ _) hscalar rfl (mem_accessDeclarations (by simp))
      (usable_of_known hc (by simp)) (usable_of_known ha (by simp)) (usable_of_known hv (by simp))
  · exact givesIn_readIf (haccess _ _) hscalar rfl (mem_accessDeclarations (by simp))
      (usable_of_known hc (by simp)) (usable_of_known ha (by simp)) (usable_of_known hd (by simp))
      hheld

/-- An address, a condition, and two numbers of three bytes. -/
def threeByteArguments : List Ty := [.bits 64, .bool, .bits 24, .bits 24]

/-- The condition does not hold. -/
def threeByteFrame : Frame := fun
  | .arg 0 => some (.bits 64 4096#64)
  | .arg 1 => some (.bits 1 0#1)
  | .arg 2 => some (.bits 24 0x010203#24)
  | .arg 3 => some (.bits 24 0x0a0b0c#24)
  | _ => none

/-- The arguments for an access to three bytes. -/
def threeByteEnv : Env := ⟨⟨default, .little⟩, 0, threeByteArguments⟩

/-- Three bytes, the highest first, are written and read back. Under a condition that does
not hold the default comes out, whatever is there. -/
theorem access_roundTrip_threeBytes :
    (∃ x s' ρ' M', Succeeds (do
          write threeByteEnv (.arg 0 (.bits 64)) (.bits 3 .big) (.arg 2 (.bits 24))
          read threeByteEnv (.arg 0 (.bits 64)) (.bits 3 .big)) ⟨0, ∅, ∅, #[], #[]⟩ x s'
        ∧ Llvm.runIn (fun _ => 0#8) noLinkage threeByteFrame s'.instrs.toList = some (ρ', M')
        ∧ M' 4096#64 = 1#8 ∧ M' 4097#64 = 2#8 ∧ M' 4098#64 = 3#8 ∧ M' 4099#64 = 0#8
        ∧ x.eval noLinkage ρ' = some (.bits 24 0x010203#24))
      ∧ ∃ x s' ρ', Succeeds (readIf threeByteEnv (.bits 3 .big) (.arg 1 .bool)
            (.arg 0 (.bits 64)) (.arg 3 (.bits 24))) ⟨0, ∅, ∅, #[], #[]⟩ x s'
          ∧ Llvm.runIn (fun _ => 0#8) noLinkage threeByteFrame s'.instrs.toList
            = some (ρ', fun _ => 0#8)
          ∧ x.eval noLinkage ρ' = some (.bits 24 0x0a0b0c#24) := by
  obtain ⟨-, -, -, hpair, hcond⟩ := @access_roundTrip noLinkage threeByteEnv
    ⟨0, ∅, ∅, #[], #[]⟩ threeByteFrame (.bits 3 .big) 24 64 (.arg 0 (.bits 64)) (.arg 1 .bool)
    (.arg 2 (.bits 24)) (.arg 3 (.bits 24)) 4096#64 false 0x010203#24 0x0a0b0c#24
    rfl rfl (by decide) rfl ⟨rfl, rfl, rfl⟩ ⟨rfl, rfl, rfl⟩ ⟨rfl, rfl, rfl⟩ ⟨rfl, rfl, rfl⟩
    (fun _ => 0#8)
  have hroom : ¬ (Layout.bits 3 .big).TooWide := by
    show ¬ Width.limit ≤ 32
    decide
  constructor
  · have hclear := @not_clash_of_names [Intrinsic.swapBytes (.int 32)]
      (List.nodup_singleton _)
    obtain ⟨x, s', ρ', M', hrun, hadv, hM, hx⟩ := hpair.succeeds hroom hclear
    obtain ⟨is, his, hexec⟩ := hadv.ran
    refine ⟨x, s', ρ', M', hrun, ?_, ?_, ?_, ?_, ?_, hx.eval⟩
    · rw [his]
      exact hexec
    all_goals
      rw [hM]
      decide
  · have hclear :=
      @not_clash_of_names [Intrinsic.swapBytes (.int 32), Intrinsic.maskedLoad (.int 24)]
        (List.pairwise_pair.2 (Llvm.name_swapBytes_ne_maskedLoad _ _))
    obtain ⟨x, s', ρ', M', hrun, hadv, rfl, hx⟩ :=
      ((hcond rfl).2 nofun).succeeds hroom hclear
    obtain ⟨is, his, hexec⟩ := hadv.ran
    refine ⟨x, s', ρ', hrun, ?_, hx.eval⟩
    rw [his]
    exact hexec

end LiftedCode.Lowering
