/-
What a traced block reads is there. A block that has a trace reads only literals,
registers that hold something on entry, and assignments that it has made before;
values that have a meaning only in a routine are not among them (`operands_defined`).

The operand of a statement is looked at when its term is needed, and a term is
found for such values only (`Bound.definedAfter`). The exception are operations
without a term: they are approximated by any value at all, so their operands are
not looked at (`Rhs.isApproximated`), and may be whatever they like
(`operands_undefined`).
-/
import LiftedCode.Proofs.Trace.Encoding
import LiftedCode.Proofs.Trace.Step

namespace LiftedCode

-- ============================================================ definitions

section

variable {ν : Type}

/-- Whether a machine function has a term: the shuffle of 16 bytes alone has one. -/
def MachineFn.hasTerm : MachineFn ν → Bool
  | shuffleBytes 16 _ _ => true
  | _ => false

/-- Whether a right-hand side is an operation without a term, for which any value
has to do. -/
def Rhs.isApproximated : Rhs ν → Bool
  | app f => !f.hasTerm
  | machine f => !f.hasTerm
  | undefined _ | read _ _ | readIf _ _ _ _ => false

end

/-- Whether a statement is an assignment for which any value has to do. -/
def Stmt.isApproximated : Stmt → Bool
  | assign a => a.rhs.isApproximated
  | write _ _ _ | writeIf _ _ _ _ | call _ | machine _ | comment _ | instruction _ _ => false

/-- Whether a value is there after some statements of a machine block: it is a
literal, the content of a register that holds something on entry, or has been
assigned. -/
def Value.DefinedAfter (registers : Trace.RegisterTerms) (pre : List Stmt) : Value → Prop
  | bits _ | bool _ => True
  | initial r => ∃ t, registers.get? r = some t
  | assigned a => ∃ b, .assign b ∈ pre ∧ b.id = a.id
  | phi _ | returned _ | arg _ _ | entry _ => False

namespace Trace

open Smt (Term)

-- =============================================== which operands are looked at

section

variable {ν : Type} {look : ν → Except TraceError Term}

/-- An operation that is traced without a term has none. -/
theorem hasTerm_of_appTerm {f : App ν} (h : appTerm look f = .ok none) : f.hasTerm = false := by
  cases f with
  | mux t c a b =>
      obtain ⟨σ, hσ, h⟩ := ok_of_bind h
      cases σ with
      | none =>
          have hsort := of_checkedSortOf (ok_of_mapError (ok_of_mapError hσ))
          rw [App.hasTerm, hsort]
          rfl
      | some σ =>
          obtain ⟨k, -, h⟩ := ok_of_bind h
          obtain ⟨x, -, h⟩ := ok_of_bind h
          obtain ⟨y, -, h⟩ := ok_of_bind h
          exact absurd (Except.ok.inj h) (Option.some_ne_none _)
  | field | floatUnary | floatBinary | floatConvert | floatOfSigned | signedOfFloat => rfl
  | eq | logic | concat | binary =>
      obtain ⟨x, -, h⟩ := ok_of_bind h
      obtain ⟨y, -, h⟩ := ok_of_bind h
      exact absurd (Except.ok.inj h) (Option.some_ne_none _)
  | not | evenParity =>
      obtain ⟨x, -, h⟩ := ok_of_bind h
      exact absurd (Except.ok.inj h) (Option.some_ne_none _)
  | resize | bitcast | unary =>
      obtain ⟨x, -, h⟩ := ok_of_bind h
      obtain ⟨y, -, h⟩ := ok_of_bind h
      exact absurd (Except.ok.inj h) (Option.some_ne_none _)
  | carry =>
      obtain ⟨x, -, h⟩ := ok_of_bind h
      obtain ⟨y, -, h⟩ := ok_of_bind h
      obtain ⟨k, -, h⟩ := ok_of_bind h
      obtain ⟨t, -, h⟩ := ok_of_bind h
      exact absurd (Except.ok.inj h) (Option.some_ne_none _)

/-- A machine function is traced without a term, or with one that was made from
the terms of its operands. -/
theorem hasTerm_of_machineFnTerm {f : MachineFn ν} {t : Option Term}
    (h : machineFnTerm look f = .ok t) : t = none ∧ f.hasTerm = false
      ∨ f.hasTerm = true ∧ ∀ v ∈ f.operands, ∃ u, look v = .ok u := by
  unfold machineFnTerm at h
  split at h
  case h_1 src index =>
    obtain ⟨x, hx, h⟩ := ok_of_bind h
    obtain ⟨y, hy, h⟩ := ok_of_bind h
    exact .inr ⟨rfl, by simp [MachineFn.operands, hx, hy]⟩
  case h_2 hne =>
    refine .inl ⟨(Except.ok.inj h).symm, ?_⟩
    unfold MachineFn.hasTerm
    split
    case h_1 src index => exact absurd rfl (hne src index)
    case h_2 => rfl

end

/-- The operands of an operation have terms, unless the operation has none. -/
theorem of_rhsTerm {look : Value → Except TraceError Term} {r : Rhs Value} {t : Option Term}
    (hop : isOperation r = true) (h : rhsTerm look r = .ok t) (hr : r.isApproximated = false) :
    ∀ v ∈ r.operands, ∃ u, look v = .ok u := by
  cases r with
  | app f =>
      have hf : f.hasTerm = true := by simpa [Rhs.isApproximated] using hr
      cases t with
      | none => exact absurd (hasTerm_of_appTerm h) (by simp [hf])
      | some t => exact (of_appTerm h).2
  | machine f =>
      have hf : f.hasTerm = true := by simpa [Rhs.isApproximated] using hr
      rcases hasTerm_of_machineFnTerm h with ⟨-, hnone⟩ | ⟨-, hv⟩
      · exact absurd hnone (by simp [hf])
      · exact hv
  | undefined | read | readIf => contradiction

-- ========================================================= statement by statement

section

variable {ctx : Context} {s s' : State} {pre : List Stmt} {c : Stmt}

/-- Where a statement is traced, its operands have terms, unless it is
approximated. -/
theorem Traced.operands (h : Traced ctx s c s') (hc : c.isApproximated = false) :
    ∀ v ∈ c.operands, ∃ t, valueTerm ctx.registers s.bindings v = .ok t := by
  cases h with
  | defined hterm => exact of_rhsTerm (isOperation_of_rhsTerm hterm) hterm hc
  | approximated hterm _ hop | unrepresented hterm _ hop => exact of_rhsTerm hop hterm hc
  | declared hrhs | sortless hrhs => simp [Stmt.operands, hrhs, Rhs.operands]
  | read hrhs haddr => simp [Stmt.operands, hrhs, Rhs.operands, haddr]
  | write haddr hvalue => simp [Stmt.operands, haddr, hvalue]
  | comment | instruction | passedOver => exact List.forall_mem_nil _

/-- What is bound after some statements has been assigned by them. -/
def Bound (pre : List Stmt) (s : State) : Prop :=
  ∀ id b, s.bindings.get? id = some b → ∃ a, .assign a ∈ pre ∧ a.id = id

/-- Only an assignment binds anything. -/
theorem Bound.stmt (h : Bound pre s) (ht : Traced ctx s c s') : Bound (pre ++ [c]) s' := by
  have hpre : Bound (pre ++ [c]) s := by
    intro id b hb
    obtain ⟨a, ha, hid⟩ := h id b hb
    exact ⟨a, List.mem_append_left _ ha, hid⟩
  have hassign : ∀ {a : Assignment Value} {b : Binding}, c = .assign a → ∀ id b',
      (s.bindings.insert a.id b).get? id = some b' → ∃ a, .assign a ∈ pre ++ [c] ∧ a.id = id := by
    intro a b hc id b' hb
    rw [Dict.get?_insert] at hb
    split at hb
    case isTrue hid => exact ⟨a, by simp [hc], hid⟩
    case isFalse => exact hpre id b' hb
  cases ht with
  | defined | declared | sortless | read | approximated | unrepresented => exact hassign rfl
  | write | comment | instruction | passedOver => exact hpre

/-- A value with a term is there. -/
theorem Bound.definedAfter (h : Bound pre s) {v : Value} {t : Term}
    (hv : valueTerm ctx.registers s.bindings v = .ok t) : v.DefinedAfter ctx.registers pre := by
  cases v with
  | bits | bool => trivial
  | initial r =>
      rw [valueTerm] at hv
      split at hv
      case h_1 u hu => exact ⟨u, hu⟩
      case h_2 => contradiction
  | assigned a =>
      rw [valueTerm] at hv
      split at hv
      case h_1 u hu => exact h a.id _ hu
      case h_2 | h_3 => contradiction
  | phi | returned | arg | entry => contradiction

end

-- ============================================================ whole blocks

/-- The operands of a traced block are defined. Every value that a statement
reads, unless it is approximated, and every value that the block hands on is a
literal, the content of a register that holds something on entry, or has been
assigned by an earlier statement. -/
theorem operands_defined {ctx : Context} {n : Nat} {b : MachineBlock} {trace : BlockTrace}
    {log log' : Log} (h : Succeeds (block ctx n b) log trace log') :
    (∀ pre c post, b.stmts = pre ++ c :: post → c.isApproximated = false →
        ∀ v ∈ c.operands, v.DefinedAfter ctx.registers pre)
      ∧ ∃ values, b.ending = .fetch values
        ∧ ∀ r v, values.get? r = some v → v.DefinedAfter ctx.registers b.stmts := by
  obtain ⟨start, s, values, terms, -, -, -, hbindings, hstmts, hend, hterms, -⟩ :=
    state_of_block h
  have hstart : Bound [] start := by
    intro id b hb
    rw [hbindings] at hb
    exact nomatch hb
  refine ⟨?_, values, hend, ?_⟩
  · intro pre c post hsplit hc v hv
    rw [hsplit] at hstmts
    obtain ⟨s₁, s₂, hpre, hstep⟩ := traced_of_split hstmts
    have hbound := invariant_of_prefixes (fun _ _ _ _ => Bound.stmt) hpre hstart
    obtain ⟨t, ht⟩ := hstep.operands hc v hv
    exact hbound.definedAfter ht
  · intro r v hv
    have hbound := invariant_of_prefixes (fun _ _ _ _ => Bound.stmt) hstmts hstart
    obtain ⟨-, hin, -⟩ := succeeds_registerTerms values.sorted hterms
    obtain ⟨t, -, ht⟩ := hin r v ((Dict.get?_eq_some_iff values r v).1 hv)
    exact hbound.definedAfter ht

/-- The square root of a variable that has a value in a routine only. -/
def root : Assignment Value :=
  ⟨0, .app (.floatUnary .sqrt .double (.phi ⟨7, .float .double⟩)), .float .double⟩

/-- Its bits. -/
def rootBits : Assignment Value :=
  ⟨1, .app (.bitcast (.assigned root) (.float .double) (.bits 64)), .bits 64⟩

/-- A block that hands the bits of the square root on. -/
def rootBlock : MachineBlock :=
  ⟨4096, 4, [.assign root, .assign rootBits],
    .fetch (Dict.ofList [(.gp 0, .assigned rootBits)])⟩

/-- The square root is taken before its bits, and those before they are handed on. -/
theorem operands_defined_root :
    (Value.assigned root).DefinedAfter ∅ [.assign root]
      ∧ (Value.assigned rootBits).DefinedAfter ∅ rootBlock.stmts := by
  obtain ⟨hstmts, values, hend, hregs⟩ :=
    @operands_defined ⟨∅, 4096, ∅⟩ 0 rootBlock _ #[] _ rfl
  cases hend
  exact ⟨hstmts [.assign root] (.assign rootBits) [] rfl rfl _ List.mem_cons_self,
    hregs (.gp 0) (.assigned rootBits) rfl⟩

/-- The block is traced, although the square root is that of a variable which
means nothing in a block. -/
theorem operands_undefined :
    ∃ trace log pre c post v,
      Succeeds (block ⟨∅, 4096, ∅⟩ 0 rootBlock) #[] trace log
        ∧ rootBlock.stmts = pre ++ c :: post ∧ v ∈ c.operands ∧ ¬ v.DefinedAfter ∅ pre :=
  ⟨_, _, [], .assign root, [.assign rootBits], .phi ⟨7, .float .double⟩, rfl, rfl,
    List.mem_cons_self, id⟩

end Trace

end LiftedCode
