/-
What a step does to memory. `Performs` is the triple for a step whose code may read and
write: executed on the locals and the memory that it begins with, what it emits gives those
of its result, or the step is refused. A step whose code means the same without memory
(`StaysLocal`) performs what it is lowered to, and memory stays as it is
(`Lowers.performs`).
-/
import LiftedCode.Proofs.Llvm.Memory
import LiftedCode.Proofs.Lowering.Demand
import Mathlib.Data.List.Nodup

namespace LiftedCode.Lowering

open Llvm (Typed Instr Op CastOperator Declaration Data Frame Linkage)

-- ============================================================= relations

section

variable (link : Linkage) (wanted : Declaration → Prop) (tooWide : Prop)

/-- The instructions that were added on the way from `s` to `s'` take the locals and the
memory of the one to those of the other. -/
structure Advances (s : State) (ρ : Frame) (M : Memory) (s' : State) (ρ' : Frame)
    (M' : Memory) : Prop extends Preserves wanted s ρ s' ρ' where
  ran : ∃ is, s'.instrs.toList = s.instrs.toList ++ is ∧ Llvm.runIn M link ρ is = some (ρ', M')

/-- Run from `s`, the step ends in a state that advances and with a result that has the
property, or it is refused. -/
def Performs {α : Type} (m : Step α) (s : State) (ρ : Frame) (M : Memory)
    (Q : α → State → Frame → Memory → Prop) : Prop :=
  (∃ a s' ρ' M', Succeeds m s a s' ∧ Advances link wanted s ρ M s' ρ' M' ∧ Q a s' ρ' M')
    ∨ ∃ e s', m.run.run s = (.error e, s') ∧ Refused wanted tooWide s.declarations e

/-- The step gives an operand of a type that stands for a datum and leaves memory as it is,
or it is refused. -/
abbrev GivesIn (m : Step Typed) (s : State) (ρ : Frame) (M : Memory) (t : Llvm.Ty) (d : Data) :
    Prop :=
  Performs link wanted tooWide m s ρ M fun x s' ρ' M' => M' = M ∧ Stands link s' ρ' x t d

/-- What the step adds means the same without memory. -/
def StaysLocal {α : Type} (m : Step α) : Prop := ∀ s a s', Succeeds m s a s' →
  ∃ is, s'.instrs.toList = s.instrs.toList ++ is ∧ ∀ i ∈ is, i.isLocal = true

end

section

variable {link : Linkage} {wanted : Declaration → Prop} {tooWide : Prop} {env : Env}
  {s s₁ s' : State} {ρ ρ₁ ρ' : Frame} {M M₁ M' : Memory} {α β : Type} {m : Step α}

-- ============================================================ local steps

/-- One step after the other. -/
theorem StaysLocal.bind {f : α → Step β} (hm : StaysLocal m) (hf : ∀ a, StaysLocal (f a)) :
    StaysLocal (m >>= f) := by
  intro s b s' h
  obtain ⟨a, s₁, hrun, hrest⟩ := succeeds_bind h
  obtain ⟨is, his, hlocal⟩ := hm s a s₁ hrun
  obtain ⟨js, hjs, hlocal'⟩ := hf a s₁ b s' hrest
  refine ⟨is ++ js, ?_, ?_⟩
  · rw [hjs, his, List.append_assoc]
  · exact List.forall_mem_append.2 ⟨hlocal, hlocal'⟩

/-- A step that adds no instructions. -/
theorem staysLocal_of_instrs (h : ∀ {s a s'}, Succeeds m s a s' → s'.instrs = s.instrs) :
    StaysLocal m := by
  intro s a s' hrun
  refine ⟨[], ?_, fun _ hi => absurd hi List.not_mem_nil⟩
  rw [h hrun, List.append_nil]

theorem staysLocal_pure (a : α) : StaysLocal (pure a : Step α) :=
  staysLocal_of_instrs fun h => (succeeds_pure h).2 ▸ rfl

theorem staysLocal_throw (e : LoweringError) : StaysLocal (throw e : Step α) :=
  fun _ _ _ h => absurd h not_succeeds_throw

theorem staysLocal_ofExcept (x : Except LoweringError α) : StaysLocal (Step.ofExcept x) :=
  staysLocal_of_instrs fun h => (succeeds_ofExcept h).2 ▸ rfl

/-- A local operation does not touch memory. -/
theorem staysLocal_assign (t : Llvm.Ty) {op : Op} (h : op.isLocal = true) :
    StaysLocal (Step.assign t op) := by
  intro s a s' hrun
  cases hrun
  exact ⟨[_], Array.toList_push, List.forall_mem_singleton.2 h⟩

theorem staysLocal_declare (d : Declaration) : StaysLocal (Step.declare d) := by
  refine staysLocal_of_instrs fun h => ?_
  obtain ⟨_, _, rfl, -, -⟩ := succeeds_declare h
  rfl

theorem staysLocal_call {d : Declaration} (h : d.ret.isInt = true) (xs : List Typed) :
    StaysLocal (Step.call d xs) :=
  (staysLocal_declare d).bind fun _ => staysLocal_assign _ h

theorem staysLocal_value (env : Env) (v : Value) : StaysLocal (value env v) :=
  staysLocal_of_instrs instrs_of_value

theorem staysLocal_asInt (x : Typed) : StaysLocal (Step.asInt x) := by
  unfold Step.asInt
  split
  · exact staysLocal_pure x
  · refine (staysLocal_ofExcept _).bind fun width => ?_
    cases width with
    | some w => exact staysLocal_assign _ rfl
    | none => exact staysLocal_throw _

/-- Reversing the bytes of an integer does not touch memory. -/
theorem staysLocal_reverseBytes {x : Typed} {w : Nat} (hx : x.ty = .int w) :
    StaysLocal (Step.reverseBytes x) := by
  unfold Step.reverseBytes
  rw [hx]
  dsimp only
  by_cases h8 : (w % 8 != 0) = true
  · simp only [if_pos h8]
    exact staysLocal_throw _
  simp only [if_neg h8]
  by_cases hbyte : w = 8
  · simp only [if_pos hbyte]
    exact staysLocal_pure x
  simp only [if_neg hbyte]
  by_cases h16 : w % 16 = 0
  · simp only [if_pos h16]
    exact staysLocal_call rfl _
  simp only [if_neg h16]
  refine (staysLocal_ofExcept _).bind fun v => (staysLocal_assign _ rfl).bind fun y => ?_
  refine (staysLocal_call rfl _).bind fun z => (staysLocal_assign _ rfl).bind fun r => ?_
  exact staysLocal_assign _ rfl

-- ============================================================== sequences

theorem Preserves.trans (h : Preserves wanted s ρ s₁ ρ₁) (h' : Preserves wanted s₁ ρ₁ s' ρ') :
    Preserves wanted s ρ s' ρ' where
  values := h'.values.trans h.values
  numbered := Nat.le_trans h.numbered h'.numbered
  kept x hx := by
    rw [h'.kept x fun k hk => Nat.lt_of_lt_of_le (hx k hk) h.numbered]
    exact h.kept x hx
  declared name d hd := by
    rcases h'.declared name d hd with hd | hd
    · exact h.declared name d hd
    · exact .inr hd

/-- One way after the other. -/
theorem Advances.trans (h : Advances link wanted s ρ M s₁ ρ₁ M₁)
    (h' : Advances link wanted s₁ ρ₁ M₁ s' ρ' M') : Advances link wanted s ρ M s' ρ' M' where
  toPreserves := h.toPreserves.trans h'.toPreserves
  ran := by
    obtain ⟨is, his, hrun⟩ := h.ran
    obtain ⟨js, hjs, hrun'⟩ := h'.ran
    refine ⟨is ++ js, ?_, ?_⟩
    · rw [hjs, his, List.append_assoc]
    · rw [Llvm.runIn_append hrun, hrun']

/-- Steps in sequence. The second may use that its state advances from the first. -/
theorem Performs.bind {f : α → Step β} {Q : α → State → Frame → Memory → Prop}
    {R : β → State → Frame → Memory → Prop} (h : Performs link wanted tooWide m s ρ M Q)
    (hf : ∀ a s₁ ρ₁ M₁, Preserves wanted s ρ s₁ ρ₁ → Q a s₁ ρ₁ M₁ →
      Performs link wanted tooWide (f a) s₁ ρ₁ M₁ R) :
    Performs link wanted tooWide (m >>= f) s ρ M R := by
  rcases h with ⟨a, s₁, ρ₁, M₁, hrun, hadv, hQ⟩ | ⟨e, s₁, hrun, href⟩
  · rcases hf a s₁ ρ₁ M₁ hadv.toPreserves hQ with
      ⟨b, s', ρ', M', hrest, hadv', hR⟩ | ⟨e, s', hrest, href⟩
    · exact .inl ⟨b, s', ρ', M', hrun.bind hrest, hadv.trans hadv', hR⟩
    · refine .inr ⟨e, s', ?_, href.of_preserves hadv.toPreserves⟩
      rw [run_bind, hrun]
      exact hrest
  · refine .inr ⟨e, s₁, ?_, href⟩
    rw [run_bind, hrun]

/-- A weaker property. -/
theorem Performs.imp {Q R : α → State → Frame → Memory → Prop}
    (h : Performs link wanted tooWide m s ρ M Q)
    (hQ : ∀ a s' ρ' M', Q a s' ρ' M' → R a s' ρ' M') :
    Performs link wanted tooWide m s ρ M R := by
  rcases h with ⟨a, s', ρ', M', hrun, hadv, h⟩ | href
  · exact .inl ⟨a, s', ρ', M', hrun, hadv, hQ a s' ρ' M' h⟩
  · exact .inr href

/-- Without a reason to be refused, a step succeeds. -/
theorem Performs.succeeds {Q : α → State → Frame → Memory → Prop}
    (h : Performs link wanted tooWide m s ρ M Q) (hroom : ¬ tooWide)
    (hclear : ∀ name, ¬ Clash wanted s.declarations name) :
    ∃ a s' ρ' M', Succeeds m s a s' ∧ Advances link wanted s ρ M s' ρ' M' ∧ Q a s' ρ' M' := by
  rcases h with h | ⟨e, s', -, ⟨-, hwide⟩ | ⟨name, -, hclash⟩⟩
  · exact h
  · exact absurd hwide hroom
  · exact absurd hclash (hclear name)

/-- Where nothing is declared, declarations of different names do not clash. -/
theorem not_clash_of_names {ds : List Declaration} (h : (ds.map (·.name)).Nodup)
    (name : String) : ¬ Clash (· ∈ ds) ∅ name := by
  rintro ⟨d, d', hd, hname, hne, hget | ⟨hd', hname'⟩⟩
  · contradiction
  · exact hne (List.inj_on_of_nodup_map h hd' hd (hname'.trans hname.symm))

/-- Code that means the same without memory leaves it as it is. -/
theorem Lowers.performs {Q : α → State → Frame → Prop} (h : Lowers link wanted tooWide m s ρ Q)
    (hm : StaysLocal m) (M : Memory) :
    Performs link wanted tooWide m s ρ M fun a s' ρ' M' => M' = M ∧ Q a s' ρ' := by
  rcases hrun : m.run.run s with ⟨e | a, s'⟩
  · refine .inr ⟨e, s', hrun, ?_⟩
    unfold Lowers at h
    rw [hrun] at h
    exact h
  · obtain ⟨ρ', hf, hQ⟩ := h.of_succeeds hrun
    obtain ⟨is, his, hlocal⟩ := hm s a s' hrun
    obtain ⟨js, hjs, hexec⟩ := hf.ran
    obtain rfl : is = js := List.append_cancel_left (his.symm.trans hjs)
    exact .inl ⟨a, s', ρ', M, hrun,
      ⟨hf.preserves, is, his, Llvm.runIn_of_isLocal hlocal hexec⟩, rfl, hQ⟩

/-- A step that does nothing leaves memory as it is. -/
theorem performs_pure {a : α} {Q : α → State → Frame → Memory → Prop} (h : Q a s ρ M) :
    Performs link wanted tooWide (pure a : Step α) s ρ M Q :=
  .inl ⟨a, s, ρ, M, rfl,
    ⟨⟨rfl, Nat.le_refl _, fun _ _ => rfl, fun _ _ h => .inl h⟩, [], (List.append_nil _).symm, rfl⟩,
    h⟩

-- =========================================================== instructions

/-- An instruction whose operation may look at memory. -/
theorem givesIn_assign {t : Llvm.Ty} {op : Op} {d : Data} (h : op.evalIn M link ρ = some d) :
    GivesIn link wanted tooWide (Step.assign t op) s ρ M t d := by
  refine .inl ⟨_, _, ρ.set (.temp s.nextTemp) d, M, rfl,
    ⟨⟨rfl, Nat.le_succ _, ?_, ?_⟩, ?_⟩, rfl, ?_⟩
  · intro x hx
    rw [Llvm.Frame.set_of_ne]
    rintro rfl
    exact Nat.lt_irrefl _ (hx _ rfl)
  · exact fun _ _ hd => .inl hd
  · refine ⟨[.assign (.temp s.nextTemp) op], Array.toList_push, ?_⟩
    show ((op.evalIn M link ρ).map fun d => (ρ.set (.temp s.nextTemp) d, M)) >>= pure = _
    rw [h]
    rfl
  · refine ⟨rfl, Llvm.Frame.set_self _ _ _, ?_⟩
    intro k hk
    cases hk
    exact Nat.lt_succ_self _

/-- An instruction that writes. -/
theorem performs_emit {i : Instr} (h : i.execIn M link ρ = some (ρ, M')) :
    Performs link wanted tooWide (Step.emit i) s ρ M fun _ _ _ M₁ => M₁ = M' := by
  refine .inl ⟨(), _, ρ, M', rfl, ⟨⟨rfl, Nat.le_refl _, fun _ _ => rfl, ?_⟩, ?_⟩, rfl⟩
  · exact fun _ _ hd => .inl hd
  · refine ⟨[i], Array.toList_push, ?_⟩
    show i.execIn M link ρ >>= pure = _
    rw [h]
    rfl

/-- A declaration that may be asked for. -/
theorem performs_declare {d : Declaration} (hd : wanted d) :
    Performs link wanted tooWide (Step.declare d) s ρ M fun _ _ _ M' => M' = M :=
  ((lowers_declare hd).performs (staysLocal_declare d) M).imp fun _ _ _ _ h => h.1

/-- A conversion that means the same without memory. -/
theorem givesIn_cast {op : CastOperator} {x : Typed} {t u : Llvm.Ty} {d e : Data}
    (hop : op ≠ .intToPtr) (hx : Stands link s ρ x t d) (h : op.eval t u d = some e) :
    GivesIn link wanted tooWide (Step.cast op x u) s ρ M u e :=
  (gives_cast hx h).performs (staysLocal_assign _ (by simpa [Op.isLocal] using hop)) M

/-- A call of a declared function whose operation may look at memory. -/
theorem givesIn_call {d : Declaration} {xs : List Typed} {r : Data} (hd : wanted d)
    (h : ∀ s₁ ρ₁, Preserves wanted s ρ s₁ ρ₁ →
      (Op.call false d.ret (.global d.name) xs).evalIn M link ρ₁ = some r) :
    GivesIn link wanted tooWide (Step.call d xs) s ρ M d.ret r := by
  apply (performs_declare hd).bind
  rintro _ s₁ ρ₁ _ hp rfl
  exact givesIn_assign (h s₁ ρ₁ hp)

-- =============================================================== values

/-- A value that is usable stays so. -/
theorem Usable.of_preserves {v : Value} {t : Llvm.Ty} {d : Data}
    (h : Usable link wanted env s ρ v t d) (hp : Preserves wanted s ρ s' ρ') :
    Usable link wanted env s' ρ' v t d := ⟨h.known.of_preserves hp, h.ty, h.declared⟩

/-- A usable value has an operand that stands for it, in any memory. -/
theorem Usable.givesIn {v : Value} {t : Llvm.Ty} {d : Data} (h : Usable link wanted env s ρ v t d)
    (M : Memory) : GivesIn link wanted tooWide (value env v) s ρ M t d :=
  h.gives.performs (staysLocal_value env v) M

end

end LiftedCode.Lowering
