/-
Operand lists are complete. A statement reads the values in its list of operands, and
nothing that it lists is left out: in lowering (`Lowering.readsOnly_stmt`) and in traces,
where assignments other than those of its operands and its own make no difference to
its events (`Trace.respects_stmt`). So what is put off, shared or looked up for the
operands of a statement is all that the statement needs (`operands_complete`).
-/
import LiftedCode.Proofs.Lowering.Reads
import LiftedCode.Trace.Block

namespace LiftedCode

namespace Trace

open Smt (Term TermSort)

/-- The states are the same but for what they bind, and bind the identifiers alike. -/
structure State.AgreeOn (ids : List Ident) (s t : State) : Prop where
  events : s.events = t.events
  nextLocal : s.nextLocal = t.nextLocal
  current : s.current = t.current
  log : s.log = t.log
  bindings : ∀ id ∈ ids, s.bindings.get? id = t.bindings.get? id

variable {ids : List Ident}

-- =========================================================== basic steps

theorem respects_record (r : LogRecord) : Respects (State.AgreeOn ids) (Step.record r) :=
  respects_modify fun _ _ h =>
    ⟨h.events, h.nextLocal, h.current, congrArg (·.push r) h.log, h.bindings⟩

theorem respects_emit (e : Event) : Respects (State.AgreeOn ids) (Step.emit e) :=
  respects_modify fun _ _ h =>
    ⟨congrArg (·.push e) h.events, h.nextLocal, h.current, h.log, h.bindings⟩

/-- A local is numbered by those before it. -/
theorem respects_freshName : Respects (State.AgreeOn ids) Step.freshName := by
  intro s t h
  unfold Step.freshName
  rw [run_get_bind, run_get_bind, ← h.nextLocal]
  cases Address.add s.nextLocal 1 with
  | ok n => exact ⟨rfl, h.events, rfl, h.current, h.log, h.bindings⟩
  | error f => exact ⟨rfl, h⟩

theorem respects_define (sort : TermSort) (body : Term) :
    Respects (State.AgreeOn ids) (Step.define sort body) :=
  respects_freshName.bind fun _ => (respects_emit _).bind fun _ => respects_pure _

theorem respects_declare (sort : TermSort) : Respects (State.AgreeOn ids) (Step.declare sort) :=
  respects_freshName.bind fun _ => (respects_emit _).bind fun _ => respects_pure _

theorem respects_warn (what : Approximation) : Respects (State.AgreeOn ids) (Step.warn what) := by
  refine respects_get_bind (fun s t h => ?_) fun s => ?_
  · rw [h.current]
  · exact (respects_record _).bind fun _ => respects_emit _

theorem respects_bind {id : Ident} (hid : id ∈ ids) (b : Binding) :
    Respects (State.AgreeOn ids) (Step.bind id b) := by
  refine respects_get_bind (fun s t h => ?_) fun s => ?_
  · rw [Dict.contains, Dict.contains, h.bindings id hid]
  · refine Respects.bind ?_ fun _ => ?_
    · refine respects_modify fun s t h => ⟨h.events, h.nextLocal, h.current, h.log, ?_⟩
      intro id' hid'
      rw [Dict.get?_insert, Dict.get?_insert, h.bindings id' hid']
    · split
      · exact respects_throw _
      · exact respects_pure _

-- ================================================================ values

/-- A value has one term wherever its assignment is bound alike. -/
theorem valueTerm_congr {registers : RegisterTerms} {bs cs : Bindings} {v : Value}
    (h : ∀ id, v.ident? = some id → bs.get? id = cs.get? id) :
    valueTerm registers bs v = valueTerm registers cs v := by
  cases v with
  | assigned a => rw [valueTerm, valueTerm, h a.id rfl]
  | bits | bool | initial | phi | returned | arg | entry => rfl

section

variable {ν : Type} {look look' : ν → Except TraceError Term}

/-- An operation is encoded through the terms of its operands. -/
theorem appTerm_congr {f : App ν} (h : ∀ v ∈ f.operands, look v = look' v) :
    appTerm look f = appTerm look' f := by
  cases f with
  | mux t c a b | carry op w a b c =>
      simp only [App.operands, List.forall_mem_cons] at h
      simp only [appTerm, h]
  | eq a b | logic op a b | concat v w a b | binary op w a b =>
      simp only [App.operands, List.forall_mem_cons] at h
      simp only [appTerm, h]
  | not a | resize op a v w | bitcast a t u | evenParity a | unary op w a =>
      simp only [App.operands, List.forall_mem_cons] at h
      simp only [appTerm, h]
  | field | floatUnary | floatBinary | floatConvert | floatOfSigned | signedOfFloat => rfl

/-- The term for a machine function is made from the terms of its operands. -/
theorem machineFnTerm_congr {f : MachineFn ν} (h : ∀ v ∈ f.operands, look v = look' v) :
    machineFnTerm look f = machineFnTerm look' f := by
  unfold machineFnTerm
  split
  · simp only [MachineFn.operands, List.forall_mem_cons] at h
    simp only [h]
  · rfl

end

-- ============================================================ statements

section

variable {ctx : Context} {vs : List Value}

/-- States that agree on the identifiers of some values have the same terms for them. -/
theorem State.AgreeOn.valueTerm {s t : State} (h : s.AgreeOn ids t)
    (hvs : ∀ id ∈ identsOf vs, id ∈ ids) {v : Value} (hv : v ∈ vs) :
    valueTerm ctx.registers s.bindings v = Trace.valueTerm ctx.registers t.bindings v :=
  valueTerm_congr fun id hid => h.bindings id (hvs id (List.mem_filterMap.2 ⟨v, hv, hid⟩))

/-- The term for a value depends on the binding of its identifier only. -/
theorem respects_term (hvs : ∀ id ∈ identsOf vs, id ∈ ids) {v : Value} (hv : v ∈ vs) :
    Respects (State.AgreeOn ids) (term ctx v) := by
  refine respects_get_bind (fun s t h => ?_) fun s => respects_ofExcept _
  rw [h.valueTerm hvs hv]

theorem respects_classify : Respects (State.AgreeOn ids) (classify ctx) := by
  refine respects_get_bind (fun s t h => ?_) fun s => ?_
  · rw [h.current]
  · dsimp only
    cases ctx.classifier.get? s.current with
    | some k => exact respects_pure k
    | none => exact respects_throw _

theorem respects_bindUnknown {a : Assignment Value} (ha : a.id ∈ ids) :
    Respects (State.AgreeOn ids) (bindUnknown a) := by
  refine (respects_ofExcept _).bind fun σ => ?_
  cases σ with
  | some σ => exact (respects_declare σ).bind fun _ => respects_bind ha _
  | none => exact respects_bind ha _

theorem respects_resultSort (a : Assignment Value) :
    Respects (State.AgreeOn ids) (resultSort a) := by
  refine (respects_ofExcept _).bind fun σ => ?_
  cases σ with
  | some σ => exact respects_pure σ
  | none => exact respects_throw _

theorem respects_bindTerm {a : Assignment Value} (ha : a.id ∈ ids) (what : Approximation)
    (t : Option Term) : Respects (State.AgreeOn ids) (bindTerm a what t) := by
  cases t with
  | some t =>
      exact (respects_resultSort a).bind fun σ => (respects_define σ t).bind fun _ =>
        respects_bind ha _
  | none => exact (respects_warn what).bind fun _ => respects_bindUnknown ha

/-- An assignment depends on the bindings of its operands, and of itself. -/
theorem respects_assign {a : Assignment Value} (ha : a.id ∈ ids)
    (hvs : ∀ id ∈ identsOf a.rhs.operands, id ∈ ids) :
    Respects (State.AgreeOn ids) (assign ctx a) := by
  refine (respects_record _).bind fun _ => ?_
  cases hrhs : a.rhs with
  | app f =>
      rw [hrhs] at hvs
      refine respects_get_bind (fun s t h => ?_) fun s => ?_
      · dsimp only
        rw [appTerm_congr fun v hv => h.valueTerm hvs hv]
      · exact (respects_ofExcept _).bind fun t => respects_bindTerm ha _ t
  | undefined t => exact respects_bindUnknown ha
  | read addr l =>
      rw [hrhs] at hvs
      exact (respects_term hvs List.mem_cons_self).bind fun _ => respects_classify.bind fun _ =>
        respects_freshName.bind fun _ => (respects_emit _).bind fun _ => respects_bind ha _
  | readIf => exact respects_throw _
  | machine f =>
      rw [hrhs] at hvs
      refine respects_get_bind (fun s t h => ?_) fun s => ?_
      · dsimp only
        rw [machineFnTerm_congr fun v hv => h.valueTerm hvs hv]
      · exact (respects_ofExcept _).bind fun t => respects_bindTerm ha _ t

/-- Nothing comes of a statement that is not supported, wherever it is. -/
theorem respects_throwAt (e : Nat → TraceError) :
    Respects (State.AgreeOn ids) (do throw (e (← get).current) : Step Unit) := by
  refine respects_get_bind (fun s t h => ?_) fun s => respects_throw _
  rw [h.current]

/-- A statement cannot tell states apart that agree on what it reads and binds. -/
theorem respects_stmt (ctx : Context) (st : Stmt) :
    Respects (State.AgreeOn (identsOf st.operands ++ st.binds)) (stmt ctx st) := by
  have hvs : ∀ id ∈ identsOf st.operands, id ∈ identsOf st.operands ++ st.binds :=
    fun _ hid => List.mem_append_left st.binds hid
  cases st with
  | assign a => exact respects_assign (List.mem_append_right _ List.mem_cons_self) hvs
  | write addr l v =>
      have haddr : addr ∈ (Stmt.write addr l v).operands := List.mem_cons_self
      have hvalue : v ∈ (Stmt.write addr l v).operands :=
        List.mem_cons_of_mem addr List.mem_cons_self
      exact (respects_term hvs haddr).bind fun _ => (respects_term hvs hvalue).bind fun _ =>
        respects_classify.bind fun _ => respects_emit _
  | writeIf => exact respects_throwAt _
  | call => exact respects_throwAt _
  | machine m =>
      cases m with
      | emptyMmx => exact respects_warn _
      | storeX87Control | repeatMove | repeatStore => exact respects_throwAt (.machineStmt · _)
  | comment => exact respects_pure ()
  | instruction offset name =>
      refine (respects_ofExcept _).bind fun addr => Respects.bind ?_ fun _ =>
        (respects_record _).bind fun _ => respects_emit _
      exact respects_modify fun _ _ h => ⟨h.events, h.nextLocal, rfl, h.log, h.bindings⟩

end

end Trace

-- ================================================================ the lists

/-- The operands of a statement, and those of the right-hand side of an assignment, are
all that is read. Two states of a block that agree on everything but bindings, and on
the bindings of the operands and of what the statement binds itself, lead to the same
result or error and to states that agree again, in lowering and in traces. In lowering
every operand with an identifier is bound where the statement succeeds, and an
identifier that is missed is that of an operand. -/
theorem operands_complete :
    (∀ (env : Lowering.Env) (rhs : Rhs Value),
      Lowering.ReadsOnly rhs.operands [] (Lowering.operandOf env rhs))
    ∧ (∀ (env : Lowering.Env) (st : Stmt),
      Lowering.ReadsOnly st.operands st.binds (Lowering.stmt env st))
    ∧ ∀ (ctx : Trace.Context) (st : Stmt),
      Respects (Trace.State.AgreeOn (identsOf st.operands ++ st.binds)) (Trace.stmt ctx st) :=
  ⟨Lowering.readsOnly_operandOf, Lowering.readsOnly_stmt, Trace.respects_stmt⟩

/-- The sum of an assignment and itself. -/
def doubled : Assignment Value :=
  let x := Value.assigned ⟨1, .undefined (.bits 64), .bits 64⟩
  ⟨2, .app (.binary .add 64 x x), .bits 64⟩

/-- Where 1 is bound the sum is lowered and traced alike, whatever 3 is bound to, and
where it is not, it is what is missed. -/
theorem operands_complete_doubled :
    let add := Lowering.stmt default (.assign doubled)
    let s : Lowering.State := ⟨0, ∅, Dict.ofList [(1, .int 64 7)], #[], #[]⟩
    let t : Lowering.State := { s with values := s.values.insert 3 (.bool true) }
    let σ : Trace.State := ⟨#[], 0, 4096, Dict.ofList [(1, .term (.var "x"))], #[]⟩
    let τ : Trace.State := { σ with bindings := σ.bindings.insert 3 .opaqueValue }
    ((add.run.run s).1 = .ok () ∧ (add.run.run s).1 = (add.run.run t).1
        ∧ (add.run.run s).2.instrs = (add.run.run t).2.instrs ∧ ∃ x, s.values.get? 1 = some x)
      ∧ ((add.run.run default).1 = .error (.unboundValue 1)
        ∧ 1 ∈ identsOf (Stmt.assign doubled).operands)
      ∧ ((Trace.stmt default (.assign doubled)).run.run σ).2.events
        = ((Trace.stmt default (.assign doubled)).run.run τ).2.events := by
  intro add s t σ τ
  obtain ⟨-, hlowering, htrace⟩ := operands_complete
  obtain ⟨hrespects, hbound, hunbound⟩ := hlowering default (.assign doubled)
  have hst : s.AgreeOn [1, 1, 2] t := ⟨rfl, rfl, rfl, rfl, by decide⟩
  have hστ : σ.AgreeOn [1, 1, 2] τ := ⟨rfl, rfl, rfl, rfl, by decide⟩
  obtain ⟨hresult, hstates⟩ := hrespects s t hst
  refine ⟨⟨rfl, hresult, hstates.instrs, ?_⟩, ⟨rfl, hunbound default 1 rfl⟩, ?_⟩
  · exact hbound s () _ rfl 1 List.mem_cons_self
  · exact (htrace default (.assign doubled) σ τ hστ).2.events

end LiftedCode
