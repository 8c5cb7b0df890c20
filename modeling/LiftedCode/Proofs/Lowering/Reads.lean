/-
What a statement reads when it is lowered. It looks at what the identifiers of its
operands are bound to, and at whether those that it binds itself are bound already; no
other binding makes a difference to what comes out (`ReadsOnly.respects`). It looks at all
its operands, so it succeeds only where each of them is bound, and when it finds an
identifier unbound, that is one of theirs (`readsOnly_stmt`).

The first and the last are about every step that is put together from confined ones
and bindings (`Composed.respects`, `Composed.mem_of_unbound`), where the reach is that
of the operands. The other is about what a step needs (`Demands`).
-/
import LiftedCode.Proofs.Lowering.Confined.Block
import LiftedCode.Proofs.Lowering.Options.Step

namespace LiftedCode

/-- The identifiers under which values are bound. -/
def identsOf (vs : List Value) : List Ident := vs.filterMap Value.ident?

namespace Lowering

open Llvm (Typed)

/-- The states are the same but for what they bind, and bind the identifiers alike. -/
structure State.AgreeOn (ids : List Ident) (s t : State) : Prop where
  nextTemp : s.nextTemp = t.nextTemp
  declarations : s.declarations = t.declarations
  instrs : s.instrs = t.instrs
  log : s.log = t.log
  values : ∀ id ∈ ids, s.values.get? id = t.values.get? id

/-- The step reads the values, binds the identifiers, and looks at no others. -/
structure ReadsOnly {α : Type} (vs : List Value) (ids : List Ident) (m : Step α) : Prop where
  /-- Other bindings make no difference. -/
  respects : Respects (State.AgreeOn (identsOf vs ++ ids)) m
  /-- Every value is looked at. -/
  bound : ∀ s a s', Succeeds m s a s' → ∀ id ∈ identsOf vs, ∃ x, s.values.get? id = some x
  /-- No other identifier is asked for. -/
  unbound : ∀ s id, (m.run.run s).1 = .error (.unboundValue id) → id ∈ identsOf vs

variable {R : Reach} {ids : List Ident} {α : Type} {m : Step α}

-- ============================================================ other bindings

theorem State.AgreeOn.contains {s t : State} (h : s.AgreeOn ids t) {id : Ident} (hid : id ∈ ids) :
    s.values.contains id = t.values.contains id := by
  rw [Dict.contains, Dict.contains, h.values id hid]

theorem respects_bound {id : Ident} (hid : id ∈ ids) :
    Respects (State.AgreeOn ids) (Step.bound id) := by
  intro s t h
  have hvalue := h.values id hid
  cases hs : s.values.get? id with
  | some x =>
      rw [hs] at hvalue
      rw [run_bound hs, run_bound hvalue.symm]
      exact ⟨rfl, h⟩
  | none =>
      rw [hs] at hvalue
      rw [run_bound_of_none hs, run_bound_of_none hvalue.symm]
      exact ⟨rfl, h⟩

theorem respects_declare (d : Llvm.Declaration) :
    Respects (State.AgreeOn ids) (Step.declare d) := by
  intro s t h
  rw [run_declare, run_declare, ← h.declarations, ← h.log]
  split
  · exact ⟨rfl, h.nextTemp, rfl, h.instrs, rfl, h.values⟩
  · exact ⟨rfl, h.nextTemp, rfl, h.instrs, rfl, h.values⟩

/-- A confined step looks at no other bindings than those within reach. -/
theorem Confined.respects (h : Confined R m) (hR : ∀ id, R.idents id → id ∈ ids) :
    Respects (State.AgreeOn ids) m := by
  induction h with
  | pure a => exact respects_pure a
  | bind _ _ ihx ihf => exact ihx.bind ihf
  | ofExcept => exact respects_ofExcept _
  | @emit i _ =>
      refine respects_modify fun s t h => ?_
      exact ⟨h.nextTemp, h.declarations, congrArg (·.push i) h.instrs, h.log, h.values⟩
  | assign ty op =>
      intro s t h
      refine ⟨?_, congrArg (· + 1) h.nextTemp, h.declarations, ?_, h.log, h.values⟩
      · show Except.ok (Typed.mk ty (.reg (.temp s.nextTemp))) = _
        rw [h.nextTemp]
        rfl
      · show s.instrs.push (.assign (.temp s.nextTemp) op) = _
        rw [h.instrs, h.nextTemp]
        rfl
  | declare => exact respects_declare _
  | bound hid => exact respects_bound (hR _ hid)

/-- Bound afterwards is what was bound before, or has been bound now. -/
theorem respects_bindIdent {id : Ident} (hid : id ∈ ids) (x : Typed) :
    Respects (State.AgreeOn ids) (Step.bind id x) := by
  intro s t h
  rw [run_bindIdent, run_bindIdent, h.contains hid]
  refine ⟨rfl, h.nextTemp, h.declarations, h.instrs, h.log, fun id' hid' => ?_⟩
  rw [Dict.get?_insert, Dict.get?_insert, h.values id' hid']

/-- A composed step looks at no other bindings than those within reach, and those it
makes. -/
theorem Composed.respects {known : List Ident} (h : Composed R known m)
    (hR : ∀ id, R.idents id → id ∈ ids) (hknown : ∀ id ∈ known, id ∈ ids) :
    Respects (State.AgreeOn ids) m := by
  induction h with
  | confined h => exact h.respects hR
  | bindIdent id x => exact respects_bindIdent (hknown id List.mem_cons_self) x
  | bind _ _ ihx ihf =>
      rw [List.forall_mem_append] at hknown
      exact (ihx hknown.1).bind fun a => ihf a hknown.2
  | fewer _ hsub ih => exact ih fun id hid => hknown id (hsub.mem hid)

-- ===================================================== unbound identifiers

/-- What a confined step finds unbound is within reach. -/
theorem Confined.mem_of_unbound (h : Confined R m) {s : State} {id : Ident}
    (hrun : (m.run.run s).1 = .error (.unboundValue id)) : R.idents id := by
  induction h generalizing s with
  | pure a => nomatch hrun
  | bind _ _ ihx ihf =>
      rcases error_of_run_bind hrun with hx | ⟨a, _, hf⟩
      · exact ihx hx
      · exact ihf a hf
  | ofExcept h => exact (h _ hrun).elim
  | emit => nomatch hrun
  | assign => nomatch hrun
  | @declare d _ =>
      rw [run_declare_eq] at hrun
      split at hrun
      · split at hrun <;> nomatch hrun
      · nomatch hrun
  | @bound id' hid =>
      cases hget : s.values.get? id' with
      | some x =>
          rw [run_bound hget] at hrun
          nomatch hrun
      | none =>
          rw [run_bound_of_none hget] at hrun
          cases hrun
          exact hid

theorem Composed.mem_of_unbound {known : List Ident} (h : Composed R known m) {s : State}
    {id : Ident} (hrun : (m.run.run s).1 = .error (.unboundValue id)) : R.idents id := by
  induction h generalizing s with
  | confined h => exact h.mem_of_unbound hrun
  | bindIdent id' x =>
      rw [run_bindIdent] at hrun
      split at hrun <;> nomatch hrun
  | bind _ _ ihx ihf =>
      rcases error_of_run_bind hrun with hx | ⟨a, _, hf⟩
      · exact ihx hx
      · exact ihf a hf
  | fewer _ _ ih => exact ih hrun

-- ============================================================= statements

/-- The reach of some values: their own identifiers, all functions, and comments. -/
def Reach.ofValues (vs : List Value) : Reach := ⟨(· ∈ identsOf vs), fun _ => True, True⟩

theorem Reach.has_ofValues {vs : List Value} : ∀ v ∈ vs, (Reach.ofValues vs).Has v :=
  fun v hv => ⟨fun _ hid => List.mem_filterMap.2 ⟨v, hv, hid⟩, fun _ _ => trivial⟩

/-- A value that there is an operand for is bound, if it has an identifier. -/
theorem Available.bound {env : Env} {bound : Dict Ident Typed} {v : Value} {id : Ident}
    (h : Available env bound v) (hid : v.ident? = some id) : ∃ x, bound.get? id = some x := by
  cases v with
  | assigned | phi | returned =>
      obtain rfl := Option.some.inj hid
      exact h
  | bits | bool | initial | arg | entry => nomatch hid

variable {env : Env}

/-- What is composed within the reach of some values, and needs all of them, reads just
these. -/
theorem Composed.readsOnly {vs : List Value} (h : Composed (Reach.ofValues vs) ids m)
    (hbound : ∀ s a s', Succeeds m s a s' → ∀ v ∈ vs, Available env s.values v) :
    ReadsOnly vs ids m where
  respects := h.respects (fun _ hid => List.mem_append_left ids hid)
    fun _ hid => List.mem_append_right (identsOf vs) hid
  bound s a s' hrun id hid := by
    obtain ⟨v, hv, hid⟩ := List.mem_filterMap.1 hid
    exact (hbound s a s' hrun v hv).bound hid
  unbound _ _ hrun := h.mem_of_unbound hrun

/-- A right-hand side needs all of its operands. -/
theorem demands_operandOf (rhs : Rhs Value) : Demands env rhs.operands (operandOf env rhs) := by
  cases rhs with
  | app f => exact demands_app f
  | undefined t => exact demands_pure _
  | read a l => exact demands_read l
  | readIf l c a d => exact demands_readIf l
  | machine f => exact demands_machineFn f

/-- The results of a call are bound without a declaration. -/
theorem declared_bindResults {x : Typed} {i : Nat} {vs : List Variable} {ts : List Ty}
    {s s' : State} {u : Unit} (h : Succeeds (bindResults x i vs ts) s u s') :
    Declared [] s.declarations s'.declarations := by
  induction vs generalizing i ts s with
  | nil => exact (succeeds_pure h).2 ▸ .refl _
  | cons v vs ih =>
      cases ts with
      | nil => exact (succeeds_pure h).2 ▸ .refl _
      | cons t ts =>
          obtain ⟨_, _, hcheck, h⟩ := succeeds_bind h
          obtain ⟨-, rfl⟩ := succeeds_ofExcept hcheck
          obtain ⟨_, s₁, hassign, h⟩ := succeeds_bind h
          cases hassign
          obtain ⟨_, s₂, hbind, h⟩ := succeeds_bind h
          obtain rfl := succeeds_bindIdent hbind
          have hrest := ih h
          exact hrest

/-- A step that needs nothing can be left out. -/
theorem demands_when {p : Prop} [Decidable p] {m : Step Unit} (h : Demands env [] m) :
    Demands env [] (if p then m else pure ()) := by
  split
  · exact h
  · exact demands_pure ()

/-- A statement that succeeds has looked at the values that it reads. -/
theorem met_of_stmt {st : Stmt} {s s' : State} {u : Unit} (h : Succeeds (stmt env st) s u s') :
    Met env st.operands s s' := by
  cases st with
  | assign a =>
      rw [stmt, assignment_eq] at h
      obtain ⟨x, s₁, hx, hbind⟩ := succeeds_bind h
      obtain rfl := succeeds_bindIdent hbind
      have hmet := (demands_operandOf a.rhs s x s₁ hx).2
      exact ⟨⟨hmet.kept, hmet.entries⟩, hmet.available⟩
  | write a l v => exact (demands_write l s u s' h).2
  | writeIf c a l v => exact (demands_writeIf l s u s' h).2
  | call k =>
      obtain ⟨r, s₁, hr, h⟩ := succeeds_bind h
      obtain ⟨-, h⟩ := succeeds_guard h
      have hmet := (demands_callResults false k.dest k.signature k.args s r s₁ hr).2
      exact ⟨(hmet.toDeclared.trans (declared_bindResults h)).subset (List.subset_append_left _ _),
        hmet.available⟩
  | machine m => exact (demands_machineStmt m s u s' h).2
  | comment => exact (demands_when (demands_emit _) s u s' h).2
  | instruction =>
      exact (demands_when ((demands_ofExcept _).bind fun _ => demands_emit _) s u s' h).2

/-- A right-hand side reads just its operands. -/
theorem readsOnly_operandOf (env : Env) (rhs : Rhs Value) :
    ReadsOnly rhs.operands [] (operandOf env rhs) :=
  (Composed.confined (confined_operandOf rhs Reach.has_ofValues)).readsOnly fun s a s' h =>
    (demands_operandOf rhs s a s' h).2.available

/-- A statement reads just its operands. -/
theorem readsOnly_stmt (env : Env) (st : Stmt) : ReadsOnly st.operands st.binds (stmt env st) :=
  (composed_stmt st (fun _ => trivial) Reach.has_ofValues).readsOnly fun _ _ _ h =>
    (met_of_stmt h).available

end Lowering

end LiftedCode
