/-
The trace of a block has no faults. What the terms ask of widths is what the
checks of operations have made sure of: a literal and an extraction have bits
because the operation's widths are positive, and a difference of widths is none
below zero because the widths are related as the operation needs
(`settles_appTerm`). What remains are numbers that are too large (`InRange`): the
width of a vector, one more than the width of an overflow predicate, the address
of an instruction, and the number of a local. For the last, every assignment that
has a sort takes one local, and no other statement takes any (`Room`).
-/
import LiftedCode.Proofs.Trace.Sorted
import LiftedCode.Proofs.Verdict

namespace LiftedCode

-- ================================================================ terms

namespace Smt.Term

variable {w : Nat} {x : Term}

theorem settles_literal (hw : 0 < w) (n : Nat) : Settles (literal w n) fun _ => True := by
  rw [literal, if_neg (Nat.ne_of_gt hw)]
  trivial

theorem settles_ofBool (hw : 0 < w) : Settles (ofBool w x) fun _ => True :=
  (settles_literal hw 1).bind fun _ _ => (settles_literal hw 0).bind fun _ _ => trivial

/-- Bits in their order can be taken out. -/
theorem settles_extract {hi lo : Nat} (h : lo ≤ hi) : Settles (extract hi lo x) fun _ => True := by
  rw [extract, if_pos h]
  trivial

end Smt.Term

namespace Trace

open Smt (Term TermSort)

variable {w : Nat} {a b c x : Term}

/-- A test for overflow extends its operands by one bit, so this has to be a width. -/
theorem settles_overflowTerm {name : String} {signed : Bool} (hw : 0 < w)
    (hfit : w + 1 < Width.limit) :
    Settles (overflowTerm name signed w a b c) fun _ => True := by
  refine (Width.settles_add hfit).bind fun v hv => ?_
  refine (Term.settles_ofBool (hv ▸ Nat.succ_pos w)).bind fun k _ => ?_
  split
  · exact (Width.settles_sub hw).bind fun _ _ => trivial
  · trivial

theorem settles_popCountTerm (hw : 0 < w) : Settles (popCountTerm w x) fun _ => True := by
  unfold popCountTerm
  dsimp only
  split
  · trivial
  · exact Term.settles_literal hw 0

/-- Only halves are of values of twice the width. -/
theorem settles_unaryTerm {op : UnaryOp} (hw : 0 < w)
    (hhalves : op.halves = true → 2 * w < Width.limit) :
    Settles (unaryTerm op w x) fun _ => True := by
  cases op with
  | upperHalf =>
      refine (Width.settles_mul (hhalves rfl)).bind fun v hv => ?_
      refine (Width.settles_sub (by omega)).bind fun hi hhi => ?_
      exact Term.settles_extract (by omega)
  | lowerHalf =>
      exact (Width.settles_sub hw).bind fun _ _ => Term.settles_extract (Nat.zero_le _)
  | complement | reverseBytes => trivial
  | popCount => exact settles_popCountTerm hw
  | scanForward | scanReverse => exact (Term.settles_literal hw _).bind fun _ _ => trivial

/-- Only tests for overflow need one bit more. -/
theorem settles_carryTerm {op : CarryOp} (hw : 0 < w)
    (hfit : op.isTest = true → w + 1 < Width.limit) :
    Settles (carryTerm op w a b c) fun _ => True := by
  cases op with
  | adc | sbb => exact (Term.settles_ofBool hw).bind fun _ _ => trivial
  | uadcOverflows | sadcOverflows | usbbOverflows | ssbbOverflows =>
      exact settles_overflowTerm hw (hfit rfl)

theorem settles_resizeTerm {op : ResizeOp} {v : Nat} (hw : 0 < w)
    (hr : App.ResizeOp.relates op v w = true) : Settles (resizeTerm op x v w) fun _ => True := by
  cases op with
  | truncate =>
      exact (Width.settles_sub hw).bind fun _ _ => Term.settles_extract (Nat.zero_le _)
  | signExtend | zeroExtend =>
      have hvw : v < w := of_decide_eq_true hr
      exact (Width.settles_sub (Nat.le_of_lt hvw)).bind fun _ _ => trivial

theorem settles_bitcastTerm (t u : Ty) : Settles (bitcastTerm x t u) fun _ => True := by
  unfold bitcastTerm
  split
  · trivial
  · exact Term.settles_ofBool Nat.one_pos
  · trivial
  · trivial

/-- Arithmetic that has a result has one in a trace. -/
theorem settles_liftM {α : Type} {y : Except Fault α} {Q : α → Prop} (h : Settles y Q) :
    Settles (liftM y : Except TraceError α) Q := by
  obtain ⟨a, rfl, ha⟩ := settles_fault.1 h
  exact ha

/-- The term for a value is found, or refused with a verdict. -/
theorem settles_valueTerm (registers : RegisterTerms) (bindings : Bindings) (v : Value) :
    Settles (valueTerm registers bindings v) fun _ => True := by
  cases v with
  | bits | bool => trivial
  | assigned a =>
      rw [valueTerm]
      split
      · trivial
      · rintro f ⟨⟩
      · rintro f ⟨⟩
  | initial r =>
      rw [valueTerm]
      split
      · trivial
      · rintro f ⟨⟩
  | phi | returned | arg | entry => rintro f ⟨⟩

/-- Where the width of a type fits, its sort is computed. -/
theorem settles_checkedSortOf {t : Ty} (h : t.widthFits = true) :
    Settles (checkedSortOf t) (· = sortOf t) := settles_inRange h

/-- A checked operation has a term if its operands do, or an error that is no
fault, provided that the widths it computes are 32-bit numbers. -/
theorem settles_appTerm {look : Value → Except TraceError Term} {app : App Value}
    (hlook : ∀ v, Settles (look v) fun _ => True) (hcheck : app.check = .ok ())
    (hfit : app.encodingFits = true) : Settles (appTerm look app) fun _ => True := by
  have htyped := App.typed_of_check hcheck
  cases app with
  | eq a b | logic op a b | concat m l a b | binary op w a b =>
      exact (hlook a).bind fun _ _ => (hlook b).bind fun _ _ => trivial
  | not a | evenParity a => exact (hlook a).bind fun _ _ => trivial
  | mux t c a b =>
      refine (settles_liftM (settles_checkedSortOf hfit)).bind fun σ _ => ?_
      cases σ with
      | none => trivial
      | some σ =>
          exact (hlook c).bind fun _ _ => (hlook a).bind fun _ _ =>
            (hlook b).bind fun _ _ => trivial
  | resize op a v w =>
      obtain ⟨-, hw, hr, -⟩ := htyped
      exact (hlook a).bind fun _ _ =>
        (settles_liftM (settles_resizeTerm hw hr)).bind fun _ _ => trivial
  | bitcast a t u =>
      exact (hlook a).bind fun _ _ =>
        (settles_liftM (settles_bitcastTerm t u)).bind fun _ _ => trivial
  | unary op w a =>
      obtain ⟨hw, -, hhalves, -⟩ := htyped
      exact (hlook a).bind fun _ _ =>
        (settles_liftM (settles_unaryTerm hw hhalves)).bind fun _ _ => trivial
  | carry op w a b c =>
      obtain ⟨hw, -⟩ := htyped
      have hcarry : op.isTest = true → w + 1 < Width.limit := by
        intro htest
        simpa [App.encodingFits, htest] using hfit
      exact (hlook a).bind fun _ _ => (hlook b).bind fun _ _ => (hlook c).bind fun _ _ =>
        (settles_liftM (settles_carryTerm hw hcarry)).bind fun _ _ => trivial
  | field | floatUnary | floatBinary | floatConvert | floatOfSigned | signedOfFloat => trivial

theorem settles_machineFnTerm {look : Value → Except TraceError Term}
    (hlook : ∀ v, Settles (look v) fun _ => True) (f : MachineFn Value) :
    Settles (machineFnTerm look f) fun _ => True := by
  unfold machineFnTerm
  split
  · exact (hlook _).bind fun _ _ => (hlook _).bind fun _ _ => trivial
  · trivial

-- =========================================================== basic steps

/-- There are numbers for `k` more locals. -/
def Room (k : Nat) (s : State) : Prop := s.nextLocal + k < Address.limit

/-- The step settles and takes no locals. -/
abbrev Stays {α : Type} (k : Nat) (m : Step α) : Prop := SettlesFrom (Room k) m fun _ => Room k

section

variable {k : Nat}

/-- Where there is room for more locals there is room for fewer. -/
theorem Room.mono {j : Nat} {s : State} (h : Room k s) (hj : j ≤ k) : Room j s := by
  unfold Room at h ⊢
  omega

theorem stays_record (r : LogRecord) : Stays k (Step.record r) := settles_modify fun _ h => h

theorem stays_emit (e : Event) : Stays k (Step.emit e) := settles_modify fun _ h => h

/-- A step without a state, on what is known of its result. -/
theorem settles_ofFault {α : Type} {P : State → Prop} {y : Except Fault α} {Q : α → Prop}
    (h : Settles y Q) : SettlesFrom P (Step.ofFault y) fun a s => Q a ∧ P s := by
  refine settles_ofExcept (h.mapError fun e he => ?_)
  exact absurd rfl (he e)

/-- A new local takes the room of one. -/
theorem settles_freshName : SettlesFrom (Room (k + 1)) Step.freshName fun _ => Room k := by
  refine settles_get_bind fun s hs => ?_
  have hnext : Settles (Address.add s.nextLocal 1) (· = s.nextLocal + 1) :=
    Address.settles_add (by unfold Room at hs; omega)
  refine (settles_ofFault hnext).bindWith fun next hn => ?_
  refine (settles_set ?_).bind fun _ => settles_pure fun _ h => h
  unfold Room at hs ⊢
  dsimp only
  omega

theorem settles_define (sort : TermSort) (t : Term) :
    SettlesFrom (Room (k + 1)) (Step.define sort t) fun _ => Room k :=
  settles_freshName.bind fun _ => (stays_emit _).bind fun _ => settles_pure fun _ h => h

theorem settles_declare (sort : TermSort) :
    SettlesFrom (Room (k + 1)) (Step.declare sort) fun _ => Room k :=
  settles_freshName.bind fun _ => (stays_emit _).bind fun _ => settles_pure fun _ h => h

theorem stays_warn (what : Approximation) : Stays k (Step.warn what) :=
  settles_get_bind fun _ _ => (stays_record _).bind fun _ => stays_emit _

theorem stays_bind (id : Ident) (b : Binding) : Stays k (Step.bind id b) := by
  refine settles_get_bind fun s _ => ?_
  have hmodify : Stays k
      (modify fun s => { s with bindings := s.bindings.insert id b } : Step Unit) :=
    settles_modify fun _ h => h
  refine hmodify.bind fun _ => ?_
  split
  case isTrue => exact settles_throw nofun
  case isFalse => exact settles_pure fun _ h => h

variable (ctx : Context)

theorem stays_term (v : Value) : Stays k (term ctx v) :=
  settles_get_bind fun s _ => (settles_ofExcept (settles_valueTerm ctx.registers s.bindings v)).imp
    fun _ _ h => h.2

theorem stays_classify : Stays k (classify ctx) := by
  refine settles_get_bind fun s _ => ?_
  dsimp only
  split
  · exact settles_pure fun _ h => h
  · exact settles_throw nofun

end

-- ========================================================== assignments

section

variable {k : Nat} {a : Assignment Value}

/-- The number of locals that a statement takes: one if it is an assignment to
something that has a sort. -/
def localsOf : Stmt → Nat
  | .assign a => if (sortOf a.ty).isSome then 1 else 0
  | _ => 0

theorem localsOf_of_sort {σ : TermSort} (h : sortOf a.ty = some σ) : localsOf (.assign a) = 1 := by
  rw [localsOf, h]
  rfl

/-- An unknown value takes a local if it has a sort. -/
theorem settles_bindUnknown (hfit : a.ty.widthFits = true) :
    SettlesFrom (Room (k + localsOf (.assign a))) (bindUnknown a) fun _ => Room k := by
  refine (settles_ofFault (settles_checkedSortOf hfit)).bindWith fun σ hσ => ?_
  cases σ with
  | some σ =>
      rw [localsOf_of_sort hσ.symm]
      exact (settles_declare σ).bind fun _ => stays_bind _ _
  | none => exact (stays_bind _ _).of_imp fun _ h => h.mono (Nat.le_add_right _ _)

/-- A term takes a local; where there is none, an unknown value stands for it. -/
theorem settles_bindTerm (hfit : a.ty.widthFits = true) (what : Approximation) (t : Option Term) :
    SettlesFrom (Room (k + localsOf (.assign a))) (bindTerm a what t) fun _ => Room k := by
  cases t with
  | some t =>
      have hsort : SettlesFrom (Room (k + localsOf (.assign a))) (resultSort a) fun σ s =>
          sortOf a.ty = some σ ∧ Room (k + localsOf (.assign a)) s := by
        refine (settles_ofFault (settles_checkedSortOf hfit)).bindWith fun σ hσ => ?_
        cases σ with
        | some σ => exact settles_pure fun _ h => ⟨hσ.symm, h⟩
        | none => exact settles_throw nofun
      refine hsort.bindWith fun σ hσ => ?_
      rw [localsOf_of_sort hσ]
      exact (settles_define σ t).bind fun _ => stays_bind _ _
  | none => exact (stays_warn what).bind fun _ => settles_bindUnknown hfit

/-- A made assignment settles, provided that its widths are 32-bit numbers. -/
theorem settles_assign (ctx : Context) (hmade : Assignment.make a.id a.rhs = .ok a)
    (hfit : a.ty.widthFits = true)
    (henc : ∀ app, a.rhs = .app app → app.encodingFits = true) :
    SettlesFrom (Room (k + localsOf (.assign a))) (assign ctx a) fun _ => Room k := by
  obtain ⟨hcheck, hty⟩ := Assignment.of_make hmade
  refine (stays_record _).bind fun _ => ?_
  cases hrhs : a.rhs with
  | app app =>
      rw [hrhs] at hcheck
      refine settles_get_bind fun s _ => ?_
      have hterm := settles_appTerm (settles_valueTerm ctx.registers s.bindings) hcheck
        (henc app hrhs)
      exact (settles_ofExcept hterm).bindWith fun t _ => settles_bindTerm hfit _ t
  | undefined => exact settles_bindUnknown hfit
  | read v l =>
      obtain ⟨σ, hσ⟩ := exists_sortOf_layout l
      rw [hrhs] at hty
      rw [Layout.of_checkedTy hty] at hσ
      rw [localsOf_of_sort hσ]
      refine (stays_term ctx v).bind fun t => (stays_classify ctx).bind fun kind => ?_
      exact settles_freshName.bind fun name => (stays_emit _).bind fun _ => stays_bind _ _
  | readIf => exact settles_throw nofun
  | machine f =>
      refine settles_get_bind fun s _ => ?_
      have hterm := settles_machineFnTerm (settles_valueTerm ctx.registers s.bindings) f
      exact (settles_ofExcept hterm).bindWith fun t _ => settles_bindTerm hfit _ t

end

-- =========================================================== statements

/-- What a statement asks of the numbers that its trace computes: the widths of its
type and of its overflow predicate, or the address of its instruction, are in
range. -/
def StmtInRange (ctx : Context) : Stmt → Prop
  | .assign a => a.ty.widthFits = true ∧ ∀ app, a.rhs = .app app → app.encodingFits = true
  | .instruction offset _ => ctx.start + offset < Address.limit
  | _ => True

/-- A statement takes the room of its locals, and meets no fault. -/
theorem settles_stmt {ctx : Context} {k : Nat} {c : Stmt}
    (hmade : ∀ a, c = .assign a → Assignment.make a.id a.rhs = .ok a) (h : StmtInRange ctx c) :
    SettlesFrom (Room (k + localsOf c)) (stmt ctx c) fun _ => Room k := by
  cases c with
  | assign a => exact settles_assign ctx (hmade a rfl) h.1 h.2
  | write addr l v =>
      refine (stays_term ctx addr).bind fun t => (stays_term ctx v).bind fun u => ?_
      exact (stays_classify ctx).bind fun _ => stays_emit _
  | writeIf | call => exact settles_get_bind fun s _ => settles_throw nofun
  | machine s =>
      cases s with
      | emptyMmx => exact stays_warn _
      | storeX87Control | repeatMove | repeatStore =>
          exact settles_get_bind fun s _ => settles_throw nofun
  | comment => exact settles_pure fun _ hs => hs
  | instruction offset name =>
      refine (settles_ofFault (Address.settles_add h)).bindWith fun addr _ => ?_
      have hmodify : Stays k (modify fun s => { s with current := addr } : Step Unit) :=
        settles_modify fun _ hs => hs
      exact hmodify.bind fun _ => (stays_record _).bind fun _ => stays_emit _

/-- Statement by statement, there is room for the locals of those to come. -/
theorem settles_stmts {ctx : Context} {cs : List Stmt}
    (hmade : ∀ a, .assign a ∈ cs → Assignment.make a.id a.rhs = .ok a)
    (h : ∀ c ∈ cs, StmtInRange ctx c) :
    SettlesFrom (Room ((cs.map localsOf).sum)) (cs.forM (stmt ctx)) fun _ => Room 0 := by
  induction cs with
  | nil => exact settles_pure fun _ hs => hs
  | cons c cs ih =>
      have hc : ∀ a, c = .assign a → Assignment.make a.id a.rhs = .ok a := by
        rintro a rfl
        exact hmade a List.mem_cons_self
      rw [List.map_cons, List.sum_cons, Nat.add_comm]
      refine (settles_stmt hc (h c List.mem_cons_self)).bind fun _ => ?_
      exact ih (fun a ha => hmade a (List.mem_cons_of_mem c ha))
        fun d hd => h d (List.mem_cons_of_mem c hd)

theorem stays_registerTerms (ctx : Context) {k : Nat} (l : List (Register × Value)) :
    Stays k (registerTerms ctx l) := by
  induction l with
  | nil => exact settles_pure fun _ hs => hs
  | cons e rest ih =>
      exact (stays_term ctx e.2).bind fun _ => ih.bind fun _ => settles_pure fun _ hs => hs

theorem stays_ending (ctx : Context) {k : Nat} (e : BlockEnd) : Stays k (ending ctx e) := by
  cases e with
  | fetch regs => exact (stays_registerTerms ctx regs.entries).bind fun _ => stays_emit _
  | untranslated | exit => exact settles_get_bind fun s _ => settles_throw nofun

/-- What a block asks of the numbers that its trace computes: those of its
statements, and those of its locals, from `nextLocal` on, are in range. -/
structure InRange (ctx : Context) (nextLocal : Nat) (b : MachineBlock) : Prop where
  stmts : ∀ c ∈ b.stmts, StmtInRange ctx c
  locals : nextLocal + (b.stmts.map localsOf).sum < Address.limit

/-- The trace of a block whose assignments were made has no faults. -/
theorem settles_block {ctx : Context} {n : Nat} {b : MachineBlock}
    (hmade : ∀ a, .assign a ∈ b.stmts → Assignment.make a.id a.rhs = .ok a)
    (hfits : InRange ctx n b) (log : Log) :
    Settles ((block ctx n b).run.run log).1 fun _ => True := by
  have hbody : SettlesFrom (Room ((b.stmts.map localsOf).sum)) (body ctx b) fun _ => Room 0 :=
    (settles_stmts hmade hfits.stmts).bind fun _ => stays_ending ctx b.ending
  have hrun := hbody ⟨#[], n, ctx.start, ∅, log.push (.tracingBlock ctx.start)⟩ hfits.locals
  simp only [block, ExceptT.run_mk, StateT.run] at hrun ⊢
  generalize (body ctx b).run _ = out at hrun ⊢
  obtain ⟨e | u, s⟩ := out
  · exact hrun
  · trivial

end Trace

end LiftedCode
