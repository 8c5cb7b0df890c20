/-
What a step of the lowering needs. There is an operand for a value only where
the block has bound it, so a step that succeeds was run in a state that has an
operand for every value the step reads (`Demands`). A function that is read asks
to be declared, and no declaration is lost, so the step ends in a state that has
a declaration for every function the step reads. The values that a step reads
are all the operands of an operation, be it of the machine or not
(`demands_app`, `demands_machineFn`), of an access to memory, and of a call
(`demands_callResults`). An operand that a step does not look at is a literal,
which is always there.
-/
import LiftedCode.Lowering.Stmt
import LiftedCode.Proofs.Lowering.Operation

namespace LiftedCode.Lowering

open Llvm (Typed BinaryOperator IntPredicate FloatPredicate CastOperator Declaration Instr Op)

variable {env : Env} {α β : Type} {vs ws : List Value}

/-- Whether there is an operand for a value, where the block has bound some. -/
def Available (env : Env) (bound : Dict Ident Typed) : Value → Prop
  | .bits _ | .bool _ | .entry _ => True
  | .assigned a => ∃ x, bound.get? a.id = some x
  | .phi v | .returned v => ∃ x, bound.get? v.id = some x
  | .initial _ => False
  | .arg i t => env.args[i]? = some t

/-- From `ds` to `ds'` no declaration is lost, and the functions among some
values come to be declared with their types. -/
structure Declared (vs : List Value) (ds ds' : Declarations) : Prop where
  kept : ∀ name d, ds.get? name = some d → ds'.get? name = some d
  entries : ∀ f, .entry f ∈ vs → ds'.get? f.name = some (.ofFunction f.name f.signature)

/-- Between `s` and `s'` some values were looked at: there were operands for
them, and the functions among them are declared. -/
structure Met (env : Env) (vs : List Value) (s s' : State) : Prop
    extends Declared vs s.declarations s'.declarations where
  available : ∀ v ∈ vs, Available env s.values v

/-- Whether the step binds nothing, and succeeds only by looking at some
values. -/
def Demands (env : Env) (vs : List Value) (m : Step α) : Prop :=
  ∀ s a s', Succeeds m s a s' → s'.values = s.values ∧ Met env vs s s'

-- =========================================================== declarations

variable {ds ds₁ ds' : Declarations} {s s' : State}

theorem Declared.refl (ds : Declarations) : Declared [] ds ds := ⟨fun _ _ hd => hd, nofun⟩

/-- What is declared on the way stays declared. -/
theorem Declared.trans (h : Declared vs ds ds₁) (h' : Declared ws ds₁ ds') :
    Declared (vs ++ ws) ds ds' where
  kept name d hd := h'.kept name d (h.kept name d hd)
  entries f hf := by
    rcases List.mem_append.1 hf with hf | hf
    · exact h'.kept _ _ (h.entries f hf)
    · exact h'.entries f hf

/-- Less may be said to be declared. -/
theorem Declared.subset (h : Declared vs ds ds') (hsub : ws ⊆ vs) : Declared ws ds ds' :=
  ⟨h.kept, fun f hf => h.entries f (hsub hf)⟩

/-- No operands are needed where nothing is looked at. -/
theorem met_nil (h : Declared [] s.declarations s'.declarations) : Met env [] s s' := ⟨h, nofun⟩

-- ================================================================ the rules

/-- One step after the other needs what both of them need. -/
theorem Demands.bind {m : Step α} {f : α → Step β} (hm : Demands env vs m)
    (hf : ∀ a, Demands env ws (f a)) : Demands env (vs ++ ws) (m >>= f) := by
  intro s b s' h
  obtain ⟨a, s₁, h₁, h₂⟩ := succeeds_bind h
  obtain ⟨hv₁, hvs⟩ := hm s a s₁ h₁
  obtain ⟨hv₂, hws⟩ := hf a s₁ b s' h₂
  refine ⟨hv₂.trans hv₁, hvs.toDeclared.trans hws.toDeclared, ?_⟩
  intro v hv
  rcases List.mem_append.1 hv with hv | hv
  · exact hvs.available v hv
  · rw [← hv₁]
    exact hws.available v hv

/-- Less may be said to be needed. -/
theorem Demands.subset {m : Step α} (hm : Demands env vs m) (h : ws ⊆ vs) : Demands env ws m := by
  intro s a s' hrun
  obtain ⟨hvalues, hvs⟩ := hm s a s' hrun
  exact ⟨hvalues, hvs.toDeclared.subset h, fun w hw => hvs.available w (h hw)⟩

/-- It does not matter what is needed first. -/
theorem Demands.swap {m : Step α} (hm : Demands env (vs ++ ws) m) : Demands env (ws ++ vs) m :=
  hm.subset List.perm_append_comm.subset

/-- A literal is always there. -/
theorem Demands.literal {m : Step α} (hm : Demands env [] m) {v : Value} {b : Bool}
    (hv : v.boolLiteral? = some b) : Demands env [v] m := by
  intro s a s' hrun
  obtain ⟨hvalues, hnone⟩ := hm s a s' hrun
  refine ⟨hvalues, ⟨hnone.kept, fun f hf => ?_⟩, fun u hu => ?_⟩
  · rw [← List.mem_singleton.1 hf] at hv
    contradiction
  · rw [List.mem_singleton.1 hu]
    cases v with
    | bool => trivial
    | bits | assigned | initial | phi | returned | arg | entry => contradiction

/-- What does not succeed anywhere needs anything. -/
theorem demands_throw (e : LoweringError) : Demands env vs (throw e : Step α) :=
  fun _ _ _ h => absurd h not_succeeds_throw

/-- What a guard stops needs nothing. -/
theorem demands_guard {p : Prop} [Decidable p] {e : LoweringError} {m : Step α}
    (h : ¬p → Demands env vs m) : Demands env vs (if p then throw e else m) := by
  intro s a s' hrun
  obtain ⟨hp, hrun⟩ := succeeds_guard hrun
  exact h hp s a s' hrun

/-- A step that does nothing needs nothing. -/
theorem demands_pure (a : α) : Demands env [] (pure a : Step α) := by
  intro s b s' h
  obtain ⟨-, rfl⟩ := succeeds_pure h
  exact ⟨rfl, met_nil (.refl _)⟩

theorem demands_ofExcept (x : Except LoweringError α) : Demands env [] (Step.ofExcept x) := by
  intro s a s' h
  obtain ⟨-, rfl⟩ := succeeds_ofExcept h
  exact ⟨rfl, met_nil (.refl _)⟩

theorem demands_assign (t : Llvm.Ty) (op : Op) : Demands env [] (Step.assign t op) := by
  intro s a s' h
  cases h
  exact ⟨rfl, met_nil (.refl _)⟩

/-- What is asked for is declared, no other declaration is lost, and nothing
else changes but the log. -/
theorem succeeds_declare {d : Declaration} {u : Unit} (h : Succeeds (Step.declare d) s u s') :
    ∃ ds log, s' = { s with declarations := ds, log := log } ∧ ds.get? d.name = some d
      ∧ Declared [] s.declarations ds := by
  rw [Succeeds, run_declare] at h
  split at h
  case h_1 ds log hdeclare =>
    obtain ⟨hd, hkept⟩ := Declarations.of_declare hdeclare
    obtain rfl := (Prod.mk.inj h).2
    exact ⟨ds, log, rfl, hd, hkept, fun _ hf => absurd hf List.not_mem_nil⟩
  case h_2 => cases h

theorem demands_declare (d : Declaration) : Demands env [] (Step.declare d) := by
  intro s a s' h
  obtain ⟨ds, log, rfl, -, hkept⟩ := succeeds_declare h
  exact ⟨rfl, met_nil hkept⟩

/-- A function that is asked for needs no operand. -/
theorem demands_entry {f : FunctionRef} {m : Step α} (hm : Demands env [] m) :
    Demands env [.entry f] (do Step.declare (.ofFunction f.name f.signature); m) := by
  intro s a s' h
  obtain ⟨u, s₁, hdeclare, h⟩ := succeeds_bind h
  obtain ⟨ds, log, rfl, hd, hkept⟩ := succeeds_declare hdeclare
  obtain ⟨hvalues, hrest⟩ := hm _ a s' h
  refine ⟨hvalues, ⟨(hkept.trans hrest.toDeclared).kept, fun g hg => ?_⟩, fun v hv => ?_⟩
  · cases List.mem_singleton.1 hg
    exact hrest.kept _ _ hd
  · rw [List.mem_singleton.1 hv]
    trivial

theorem demands_emit (i : Instr) : Demands env [] (Step.emit i) := by
  intro s u s' h
  obtain rfl := succeeds_modify h
  exact ⟨rfl, met_nil (.refl _)⟩

theorem demands_call (d : Declaration) (xs : List Typed) : Demands env [] (Step.call d xs) :=
  (demands_declare d).bind fun _ => demands_assign _ _

theorem demands_callVoid (d : Declaration) (xs : List Typed) :
    Demands env [] (Step.callVoid d xs) :=
  (demands_emit _).bind fun _ => demands_declare d

/-- An identifier that an operand was found for is bound. -/
theorem succeeds_bound {id : Ident} {s s' : State} {x : Typed}
    (h : Succeeds (Step.bound id) s x s') : s = s' ∧ s.values.get? id = some x := by
  obtain ⟨_, _, hget, h⟩ := succeeds_bind h
  obtain ⟨rfl, rfl⟩ := succeeds_get hget
  split at h
  case h_1 y hy =>
    obtain ⟨rfl, rfl⟩ := succeeds_pure h
    exact ⟨rfl, hy⟩
  case h_2 => exact absurd h not_succeeds_throw

/-- A value that takes no step to look at needs its operand. -/
theorem met_singleton {v : Value} (hv : Available env s.values v) (hentry : ∀ f, v ≠ .entry f) :
    Met env [v] s s := by
  refine ⟨⟨fun _ _ h => h, fun f hf => ?_⟩, fun u hu => ?_⟩
  · exact absurd (List.mem_singleton.1 hf).symm (hentry f)
  · rw [List.mem_singleton.1 hu]
    exact hv

/-- The operand for a value needs just the value. -/
theorem demands_value (v : Value) : Demands env [v] (value env v) := by
  cases v with
  | entry f => exact demands_entry (demands_pure _)
  | initial => exact demands_throw _
  | bits | bool =>
      intro s x s' h
      obtain ⟨-, rfl⟩ := succeeds_pure h
      exact ⟨rfl, met_singleton trivial nofun⟩
  | assigned | phi | returned =>
      intro s x s' h
      obtain ⟨rfl, hx⟩ := succeeds_bound h
      exact ⟨rfl, met_singleton ⟨x, hx⟩ nofun⟩
  | arg i t =>
      intro s x s' h
      unfold value at h
      dsimp only at h
      split at h
      case h_1 => exact absurd h not_succeeds_throw
      case h_2 expected hi =>
        obtain ⟨_, s₁, hcheck, hrest⟩ := succeeds_bind h
        obtain ⟨hty, rfl⟩ := succeeds_ofExcept hcheck
        obtain ⟨-, rfl⟩ := succeeds_pure hrest
        refine ⟨rfl, met_singleton ?_ nofun⟩
        rw [Available, hi, App.eq_of_expectTy (ok_of_mapError hty)]

/-- The operand for a value comes without an instruction. -/
theorem instrs_of_value {v : Value} {s s' : State} {x : Typed}
    (h : Succeeds (value env v) s x s') : s'.instrs = s.instrs := by
  cases v with
  | bits | bool => exact (succeeds_pure h).2 ▸ rfl
  | assigned | phi | returned => exact (succeeds_bound h).1 ▸ rfl
  | initial => exact absurd h not_succeeds_throw
  | arg i t =>
      unfold value at h
      dsimp only at h
      split at h
      case h_1 => exact absurd h not_succeeds_throw
      case h_2 =>
        obtain ⟨_, s₁, hcheck, hrest⟩ := succeeds_bind h
        obtain ⟨-, rfl⟩ := succeeds_ofExcept hcheck
        exact (succeeds_pure hrest).2 ▸ rfl
  | entry f =>
      obtain ⟨_, s₁, hdeclare, hrest⟩ := succeeds_bind h
      obtain ⟨_, _, rfl, -, -⟩ := succeeds_declare hdeclare
      exact (succeeds_pure hrest).2 ▸ rfl

theorem demands_binary (op : BinaryOperator) (x y : Typed) : Demands env [] (Step.binary op x y) :=
  demands_assign _ _

theorem demands_cast (op : CastOperator) (x : Typed) (t : Llvm.Ty) :
    Demands env [] (Step.cast op x t) :=
  demands_assign _ _

theorem demands_asInt (x : Typed) : Demands env [] (Step.asInt x) := by
  unfold Step.asInt
  by_cases hi : x.ty.isInt = true
  · simp only [if_pos hi]
    exact demands_pure x
  · simp only [if_neg hi]
    refine (demands_ofExcept _).bind fun w => ?_
    cases w with
    | some w => exact demands_cast _ _ _
    | none => exact fun s a s' h => absurd h not_succeeds_throw

-- ================================================================ operators

variable {a b c : Value} {w : Nat}

theorem demands_operands : Demands env [a, b] (operands env a b) :=
  (demands_value a).bind fun _ => (demands_value b).bind fun _ => demands_pure _

theorem demands_plain (op : BinaryOperator) : Demands env [a, b] (plain env op a b) :=
  demands_operands.bind fun _ => demands_binary _ _ _

theorem demands_comparison (pred : IntPredicate) : Demands env [a, b] (comparison env pred a b) :=
  demands_operands.bind fun _ => demands_assign _ _

theorem demands_shift (op : BinaryOperator) : Demands env [a, b] (shift env op w a b) := by
  refine demands_operands.bind fun p => ?_
  by_cases hl : isLiteralBelow b w = true
  · simp only [if_pos hl]
    exact demands_binary _ _ _
  · simp only [if_neg hl]
    exact (demands_assign _ _).bind fun _ => (demands_binary _ _ _).bind fun _ =>
      demands_assign _ _

theorem demands_shiftSigned : Demands env [a, b] (shiftSigned env w a b) := by
  refine demands_operands.bind fun p => ?_
  by_cases hl : isLiteralBelow b w = true
  · simp only [if_pos hl]
    exact demands_binary _ _ _
  · simp only [if_neg hl]
    exact (demands_assign _ _).bind fun _ => (demands_ofExcept _).bind fun _ =>
      (demands_assign _ _).bind fun _ => demands_binary _ _ _

theorem demands_testBit : Demands env [a, b] (testBit env w a b) := by
  refine demands_operands.bind fun p => ?_
  refine (demands_binary _ _ _).bind fun s => (demands_cast _ _ _).bind fun z => ?_
  by_cases hl : isLiteralBelow b w = true
  · simp only [if_pos hl]
    exact demands_pure z
  · simp only [if_neg hl]
    exact (demands_assign _ _).bind fun _ => demands_assign _ _

theorem demands_withCarry (op : BinaryOperator) :
    Demands env [a, b, c] (withCarry env op w a b c) :=
  demands_operands.bind fun _ => (demands_binary _ _ _).bind fun _ =>
    (demands_value c).bind fun _ => (demands_cast _ _ _).bind fun _ => demands_binary _ _ _

theorem demands_reverseBytes (x : Typed) : Demands env [] (Step.reverseBytes x) := by
  unfold Step.reverseBytes
  split
  case h_2 => exact demands_throw _
  case h_1 w _ =>
    refine demands_guard fun _ => ?_
    by_cases h : w = 8
    · simp only [if_pos h]
      exact demands_pure x
    simp only [if_neg h]
    by_cases h16 : w % 16 = 0
    · simp only [if_pos h16]
      exact demands_call _ _
    · simp only [if_neg h16]
      exact (demands_ofExcept _).bind fun _ => (demands_cast _ _ _).bind fun _ =>
        (demands_call _ _).bind fun _ => (demands_binary _ _ _).bind fun _ => demands_cast _ _ _

theorem demands_unaryApp (op : UnaryOp) : Demands env [a] (unaryApp env op w a) := by
  refine (demands_value a).bind fun x => ?_
  cases op with
  | upperHalf =>
      exact (demands_ofExcept _).bind fun _ => (demands_binary _ _ _).bind fun _ =>
        demands_cast _ _ _
  | lowerHalf => exact demands_cast _ _ _
  | complement => exact demands_binary _ _ _
  | popCount | scanForward => exact demands_call _ _
  | reverseBytes => exact demands_reverseBytes x
  | scanReverse =>
      exact (demands_call _ _).bind fun _ => (demands_ofExcept _).bind fun _ =>
        demands_binary _ _ _

/-- A carry that is not looked at is the literal false. -/
theorem demands_overflow (signed subtract : Bool) :
    Demands env [a, b, c] (overflow env signed subtract w a b c) := by
  refine demands_operands.bind fun p => (demands_call _ _).bind fun r =>
    (demands_assign _ _).bind fun o => ?_
  by_cases hc : c.boolLiteral? = some false
  · simp only [if_pos hc]
    exact (demands_pure o).literal hc
  · simp only [if_neg hc]
    exact (demands_value c).bind fun _ => (demands_cast _ _ _).bind fun _ =>
      (demands_assign _ _).bind fun _ => (demands_call _ _).bind fun _ =>
      (demands_assign _ _).bind fun _ => demands_binary _ _ _

theorem demands_floatComparison (pred : FloatPredicate) :
    Demands env [a, b] (floatComparison env pred a b) :=
  demands_operands.bind fun _ => demands_assign _ _

/-- An operation needs all of its operands. -/
theorem demands_app (f : App Value) : Demands env f.operands (app env f) := by
  cases f with
  | eq a b =>
      exact (demands_value a).bind fun _ => (demands_asInt _).bind fun _ =>
        (demands_value b).bind fun _ => (demands_asInt _).bind fun _ => demands_assign _ _
  | mux t c a b =>
      exact (demands_value c).bind fun _ => (demands_value a).bind fun _ =>
        (demands_value b).bind fun _ => demands_assign _ _
  | logic op a b => cases op <;> exact demands_plain _
  | not a => exact (demands_value a).bind fun _ => demands_binary _ _ _
  | resize op a v w => exact (demands_value a).bind fun _ => demands_cast _ _ _
  | bitcast a t u =>
      refine (demands_value a).bind fun x => ?_
      by_cases htu : x.ty = .ofTy u
      · simp only [if_pos htu]
        exact demands_pure x
      · simp only [if_neg htu]
        exact demands_cast _ _ _
  | field ts a i =>
      refine (demands_value a).bind fun x => ?_
      cases ts[i]? with
      | some t => exact demands_assign _ _
      | none => exact demands_ofExcept _
  | concat h l a b =>
      exact (demands_ofExcept _).bind fun _ => (demands_value a).bind fun _ =>
        (demands_cast _ _ _).bind fun _ => (demands_value b).bind fun _ =>
        (demands_cast _ _ _).bind fun _ => (demands_binary _ _ _).bind fun _ =>
        demands_binary _ _ _
  | evenParity a =>
      exact (demands_value a).bind fun _ => (demands_call _ _).bind fun _ =>
        (demands_cast _ _ _).bind fun _ => demands_binary _ _ _
  | unary op w a => exact demands_unaryApp op
  | binary op w a b =>
      cases op with
      | add | sub | mul | udiv | urem | sdiv | srem | and | or | xor => exact demands_plain _
      | ult | ule | slt | sle => exact demands_comparison _
      | testBit => exact demands_testBit
      | shl | shr => exact demands_shift _
      | sar => exact demands_shiftSigned
  | carry op w a b c =>
      cases op with
      | adc | sbb => exact demands_withCarry _
      | uadcOverflows | sadcOverflows | usbbOverflows | ssbbOverflows => exact demands_overflow _ _
  | floatUnary op g a =>
      cases op with
      | sqrt => exact (demands_value a).bind fun _ => demands_call _ _
      | isNaN => exact (demands_floatComparison _).subset (List.subset_cons_self a [a])
  | floatBinary op g a b =>
      cases op with
      | add | sub | mul | div => exact demands_plain _
      | lt | eq => exact demands_floatComparison _
  | floatConvert g a h =>
      refine (demands_value a).bind fun x => ?_
      by_cases hlt : g.width < h.width
      · simp only [if_pos hlt]
        exact demands_cast _ _ _
      simp only [if_neg hlt]
      by_cases hgt : h.width < g.width
      · simp only [if_pos hgt]
        exact demands_cast _ _ _
      · simp only [if_neg hgt]
        exact demands_pure x
  | floatOfSigned w a h | signedOfFloat h a w =>
      exact (demands_value a).bind fun _ => demands_cast _ _ _

-- ================================================================== memory

theorem demands_address : Demands env [a] (address env a) :=
  (demands_value a).bind fun _ => demands_cast _ _ _

theorem demands_mask : Demands env [a] (mask env a) :=
  (demands_value a).bind fun _ => demands_cast _ _ _

theorem demands_layoutTy (l : Layout) : Demands env [] (layoutTy l) :=
  (demands_ofExcept _).bind fun _ => demands_pure _

/-- A refusal does not succeed. -/
theorem not_succeeds_refuse {what : Layout → Unsupported} {l : Layout} {s s' : State} {x : α} :
    ¬ Succeeds (Step.refuse what l) s x s' := by
  intro h
  obtain ⟨_, _, -, h⟩ := succeeds_bind h
  exact not_succeeds_throw h

theorem demands_refuse (what : Layout → Unsupported) (l : Layout) :
    Demands env vs (Step.refuse what l : Step α) :=
  fun _ _ _ h => absurd h not_succeeds_refuse

/-- Nothing comes after a refusal. -/
theorem demands_refuse_bind (what : Layout → Unsupported) (l : Layout) (f : β → Step α) :
    Demands env vs (Step.refuse what l >>= f) := by
  intro s x s' h
  obtain ⟨_, _, hrefuse, -⟩ := succeeds_bind h
  exact absurd hrefuse not_succeeds_refuse

theorem demands_matchOrder (l : Layout) (x : Typed) :
    Demands env [] (Step.matchOrder env l x) := by
  unfold Step.matchOrder
  split
  · exact demands_pure x
  split
  · exact demands_reverseBytes x
  · exact (demands_asInt x).bind fun _ => (demands_reverseBytes _).bind fun _ =>
      demands_cast _ _ _
  · split
    · exact demands_pure x
    split
    · exact demands_call _ _
    · exact demands_refuse _ _
  · exact demands_refuse _ _

/-- A read needs its address. -/
theorem demands_read (l : Layout) : Demands env [a] (read env a l) :=
  demands_address.bind fun _ => (demands_layoutTy l).bind fun _ =>
    (demands_assign _ _).bind fun _ => demands_matchOrder l _

/-- A conditional read of a packed layout is refused before anything is read. -/
theorem demands_readIf (l : Layout) : Demands env [c, a, b] (readIf env l c a b) := by
  unfold readIf
  by_cases hl : l.isPacked = true
  · simp only [if_pos hl]
    exact demands_refuse_bind _ l _
  simp only [if_neg hl]
  exact (demands_layoutTy l).bind fun _ => demands_mask.bind fun _ =>
    demands_address.bind fun _ => (demands_value b).bind fun _ =>
    (demands_matchOrder l _).bind fun _ => (demands_assign _ _).bind fun _ =>
    (demands_call _ _).bind fun _ => (demands_assign _ _).bind fun _ => demands_matchOrder l _

/-- The value is read before the address. -/
theorem demands_write (l : Layout) : Demands env [a, b] (write env a l b) := by
  have h : Demands env ([b] ++ [a]) (write env a l b) :=
    (demands_value b).bind fun _ => (demands_matchOrder l _).bind fun _ =>
      demands_address.bind fun _ => demands_emit _
  exact h.swap

/-- The value of a conditional write is read first, also where the write is refused. -/
theorem demands_writeIf (l : Layout) : Demands env [c, a, b] (writeIf env c a l b) := by
  unfold writeIf
  refine Demands.swap (?_ : Demands env ([b] ++ [c, a]) _)
  refine (demands_value b).bind fun x => (demands_matchOrder l x).bind fun y => ?_
  by_cases hl : l.isPacked = true
  · simp only [if_pos hl]
    exact demands_refuse_bind _ l _
  simp only [if_neg hl]
  exact demands_mask.bind fun _ => demands_address.bind fun _ =>
    (demands_assign _ _).bind fun _ => demands_callVoid _ _

-- ===================================================== machine operations

theorem demands_joinHalves (x : Typed) : Demands env [] (joinHalves x) :=
  (demands_assign _ _).bind fun _ => (demands_assign _ _).bind fun _ =>
    (demands_cast _ _ _).bind fun _ => (demands_cast _ _ _).bind fun _ =>
    (demands_binary _ _ _).bind fun _ => demands_binary _ _ _

theorem demands_shuffle128 : Demands env [a, b] (shuffle128 env a b) :=
  (demands_value a).bind fun _ => (demands_cast _ _ _).bind fun _ =>
    (demands_value b).bind fun _ => (demands_cast _ _ _).bind fun _ =>
    (demands_call _ _).bind fun _ => demands_cast _ _ _

/-- A machine function needs all of its operands. -/
theorem demands_machineFn (f : MachineFn Value) : Demands env f.operands (machineFn env f) := by
  cases f with
  | readFsBase | readGsBase => exact demands_assign _ _
  | cpuid a b => exact demands_operands.bind fun _ => demands_assign _ _
  | readTimestamp => exact demands_call _ _
  | readControl a =>
      exact (demands_value a).bind fun _ => (demands_assign _ _).bind fun _ =>
        demands_joinHalves _
  | shuffleBytes n a b =>
      unfold machineFn
      split
      case h_6 heq =>
        cases heq
        exact demands_shuffle128
      case h_7 => exact demands_throw _
      all_goals contradiction

/-- The direction has to be the literal false. -/
theorem demands_forwards (m : MachineStmt Value) (direction : Value) :
    Demands env [direction] (forwards m direction) := by
  unfold forwards
  split
  case isTrue h => exact (demands_pure ()).literal h
  case isFalse => exact demands_throw _

theorem demands_lengthInBytes (n : Nat) : Demands env [a] (lengthInBytes env a n) := by
  refine (demands_value a).bind fun x => ?_
  split
  · exact demands_pure x
  · exact demands_assign _ _

/-- A string operation looks at its direction first. -/
theorem demands_machineStmt (m : MachineStmt Value) :
    Demands env m.operands (machineStmt env m) := by
  cases m with
  | storeX87Control a => exact demands_address.bind fun _ => demands_emit _
  | repeatMove n d x k dir =>
      have h : Demands env ([dir] ++ [d, x, k]) (machineStmt env (.repeatMove n d x k dir)) :=
        (demands_forwards _ dir).bind fun _ => demands_address.bind fun _ =>
          demands_address.bind fun _ => (demands_lengthInBytes n).bind fun _ =>
          demands_callVoid _ _
      exact h.swap
  | repeatStore n d x k dir =>
      unfold machineStmt
      split
      case h_3 heq =>
        cases heq
        refine Demands.swap (?_ : Demands env ([dir] ++ [d, x, k]) _)
        exact (demands_forwards _ dir).bind fun _ => demands_address.bind fun _ =>
          (demands_value x).bind fun _ => (demands_lengthInBytes 1).bind fun _ =>
          demands_callVoid _ _
      case h_4 => exact demands_throw _
      all_goals contradiction
  | emptyMmx => exact demands_emit _

-- =================================================================== calls

theorem demands_calleeAt (dest : Value) : Demands env [dest] (calleeAt env dest) :=
  (demands_ofExcept _).bind fun _ => demands_address.bind fun _ => demands_pure _

/-- A function is always there, and any other destination is an address. -/
theorem demands_callee (dest : Value) (sig : Signature) :
    Demands env [dest] (callee env dest sig) := by
  refine demands_guard fun _ => ?_
  cases dest with
  | entry f =>
      refine demands_guard fun hsig => ?_
      rw [← not_not.1 hsig]
      exact demands_entry (demands_pure _)
  | bits | bool | assigned | initial | phi | returned | arg => exact demands_calleeAt _

/-- Arguments are read as long as there are types for them. -/
theorem demands_arguments (i : Nat) {vs : List Value} {ts : List Ty}
    (h : vs.length = ts.length) : Demands env vs (arguments env i vs ts) := by
  induction vs generalizing i ts with
  | nil => cases ts <;> exact demands_pure _
  | cons v vs ih =>
      cases ts with
      | nil => contradiction
      | cons t ts =>
          refine (demands_ofExcept _).bind fun _ => (demands_value v).bind fun _ => ?_
          exact ((ih (i + 1) (Nat.succ.inj h)).bind fun _ => demands_pure _).subset
            (List.subset_append_left vs [])

/-- A call needs its destination and its arguments. -/
theorem demands_callResults (isTail : Bool) (dest : Value) (sig : Signature) (vs : List Value) :
    Demands env (dest :: vs) (callResults env isTail dest sig vs) := by
  refine (demands_callee dest sig).bind fun f => ?_
  refine demands_guard fun hlen => ?_
  exact ((demands_arguments 0 (not_not.1 hlen)).bind fun _ => demands_assign _ _).subset
    (List.subset_append_left vs [])

end LiftedCode.Lowering
