/-
What tracing a statement can do. `Traced` lists every way in which a statement
is traced without an error, with the events that it adds and what it binds;
`traced_of_succeeds` says that there is no other. A statement that is not
modelled exactly adds a warning, and then goes on like an undefined value. The
events before a statement stay (`Traced.grows`).
-/
import LiftedCode.Proofs.Data.Dict
import LiftedCode.Proofs.Effect
import LiftedCode.Proofs.Trace.Replay

namespace LiftedCode.Trace

open Smt (Term TermSort)

-- =========================================================== basic steps

section

variable {s s' : State} {u : Unit}

/-- A computation without a state stays where it is. -/
theorem succeeds_stateless {α : Type} {x : Except TraceError α} {a : α}
    (h : Succeeds (Step.ofExcept x) s a s') : x = .ok a ∧ s = s' :=
  succeeds_ofExcept h

/-- Arithmetic that stays in its range stays where it is. -/
theorem succeeds_ofFault {α : Type} {x : Except Fault α} {a : α}
    (h : Succeeds (Step.ofFault x) s a s') : x = .ok a ∧ s = s' := by
  obtain ⟨hx, hs⟩ := succeeds_ofExcept h
  exact ⟨ok_of_mapError hx, hs⟩

/-- A sum of addresses that was computed is the sum. -/
theorem of_address_add {a b c : Nat} (h : Address.add a b = .ok c) : c = a + b :=
  (ok_of_inRange h).2

/-- A fresh name is that of the next local. -/
theorem succeeds_freshName {name : String} (h : Succeeds Step.freshName s name s') :
    name = localName s.nextLocal ∧ s' = { s with nextLocal := s.nextLocal + 1 } := by
  obtain ⟨_, _, hget, h⟩ := succeeds_bind h
  obtain ⟨rfl, rfl⟩ := succeeds_get hget
  obtain ⟨n, _, hadd, h⟩ := succeeds_bind h
  obtain ⟨hn, rfl⟩ := succeeds_ofFault hadd
  obtain ⟨_, _, hset, h⟩ := succeeds_bind h
  obtain ⟨hname, rfl⟩ := succeeds_pure h
  refine ⟨hname.symm, ?_⟩
  rw [succeeds_set hset, of_address_add hn]

/-- A definition is an event for the next local. -/
theorem succeeds_define {sort : TermSort} {body t : Term}
    (h : Succeeds (Step.define sort body) s t s') :
    t = .var (localName s.nextLocal) ∧ s' = { s with
      nextLocal := s.nextLocal + 1
      events := s.events.push (.command (.define (localName s.nextLocal) [] sort body)) } := by
  obtain ⟨name, _, hname, h⟩ := succeeds_bind h
  obtain ⟨rfl, rfl⟩ := succeeds_freshName hname
  obtain ⟨_, _, hemit, h⟩ := succeeds_bind h
  obtain ⟨ht, rfl⟩ := succeeds_pure h
  exact ⟨ht.symm, succeeds_modify hemit⟩

/-- A declaration is an event for the next local. -/
theorem succeeds_declare {sort : TermSort} {t : Term}
    (h : Succeeds (Step.declare sort) s t s') :
    t = .var (localName s.nextLocal) ∧ s' = { s with
      nextLocal := s.nextLocal + 1
      events := s.events.push (.command (.declare (localName s.nextLocal) [] sort)) } := by
  obtain ⟨name, _, hname, h⟩ := succeeds_bind h
  obtain ⟨rfl, rfl⟩ := succeeds_freshName hname
  obtain ⟨_, _, hemit, h⟩ := succeeds_bind h
  obtain ⟨ht, rfl⟩ := succeeds_pure h
  exact ⟨ht.symm, succeeds_modify hemit⟩

/-- Only what is not bound yet is bound. -/
theorem succeeds_bindAssignment {id : Ident} {b : Binding}
    (h : Succeeds (Step.bind id b) s u s') :
    s.bindings.get? id = none ∧ s' = { s with bindings := s.bindings.insert id b } := by
  obtain ⟨_, _, hget, h⟩ := succeeds_bind h
  obtain ⟨rfl, rfl⟩ := succeeds_get hget
  obtain ⟨_, _, hmod, h⟩ := succeeds_bind h
  obtain rfl := succeeds_modify hmod
  split at h
  case isTrue => exact absurd h not_succeeds_throw
  case isFalse hb =>
    obtain ⟨-, rfl⟩ := succeeds_pure h
    exact ⟨by simpa [Dict.contains] using hb, rfl⟩

/-- A warning is a record and an event. -/
theorem succeeds_warn {what : Approximation} (h : Succeeds (Step.warn what) s u s') :
    ∃ log, s' = { s with events := s.events.push (.warning what), log := log } := by
  obtain ⟨_, _, hget, h⟩ := succeeds_bind h
  obtain ⟨rfl, rfl⟩ := succeeds_get hget
  obtain ⟨_, _, hrec, h⟩ := succeeds_bind h
  obtain rfl := succeeds_modify hrec
  exact ⟨_, succeeds_modify h⟩

end

-- ============================================================ statements

/-- The term for what an assignment computes, if it has an exact one. -/
def rhsTerm (look : Value → Except TraceError Term) : Rhs Value → Except TraceError (Option Term)
  | .app a => appTerm look a
  | .machine f => machineFnTerm look f
  | .undefined _ | .read _ _ | .readIf _ _ _ _ => .ok none

/-- Whether a right-hand side is an operation, be it of the machine. -/
def isOperation : Rhs Value → Bool
  | .app _ | .machine _ => true
  | .undefined _ | .read _ _ | .readIf _ _ _ _ => false

/-- Only an operation has a term. -/
theorem isOperation_of_rhsTerm {look : Value → Except TraceError Term} {r : Rhs Value} {t : Term}
    (h : rhsTerm look r = .ok (some t)) : isOperation r = true := by
  cases r with
  | app | machine => rfl
  | undefined | read | readIf => exact nomatch Except.ok.inj h

/-- The ways in which a statement is traced. -/
inductive Traced (ctx : Context) (s : State) : Stmt → State → Prop where
  /-- An assignment with a term becomes a definition. -/
  | defined {a : Assignment Value} {t : Term} {sort : TermSort} {log : Log}
    (hterm : rhsTerm (valueTerm ctx.registers s.bindings) a.rhs = .ok (some t))
    (hsort : sortOf a.ty = some sort) :
    Traced ctx s (.assign a)
      ⟨s.events.push (.command (.define (localName s.nextLocal) [] sort t)), s.nextLocal + 1,
        s.current, s.bindings.insert a.id (.term (.var (localName s.nextLocal))), log⟩
  /-- An undefined value with a sort becomes a declaration. -/
  | declared {a : Assignment Value} {t : Ty} {sort : TermSort} {log : Log}
    (hrhs : a.rhs = .undefined t) (hsort : sortOf a.ty = some sort) :
    Traced ctx s (.assign a)
      ⟨s.events.push (.command (.declare (localName s.nextLocal) [] sort)), s.nextLocal + 1,
        s.current, s.bindings.insert a.id (.term (.var (localName s.nextLocal))), log⟩
  /-- An undefined value without a sort is bound to nothing that can be used. -/
  | sortless {a : Assignment Value} {t : Ty} {log : Log}
    (hrhs : a.rhs = .undefined t) (hsort : sortOf a.ty = none) :
    Traced ctx s (.assign a)
      ⟨s.events, s.nextLocal, s.current, s.bindings.insert a.id .opaqueValue, log⟩
  | read {a : Assignment Value} {addr : Value} {layout : Layout} {t : Term} {kind : AccessKind}
    {log : Log} (hrhs : a.rhs = .read addr layout)
    (haddr : valueTerm ctx.registers s.bindings addr = .ok t)
    (hkind : ctx.classifier.get? s.current = some kind) :
    Traced ctx s (.assign a)
      ⟨s.events.push (.read t layout (localName s.nextLocal) kind), s.nextLocal + 1,
        s.current, s.bindings.insert a.id (.term (.var (localName s.nextLocal))), log⟩
  | write {addr value : Value} {layout : Layout} {t u : Term} {kind : AccessKind} {log : Log}
    (haddr : valueTerm ctx.registers s.bindings addr = .ok t)
    (hvalue : valueTerm ctx.registers s.bindings value = .ok u)
    (hkind : ctx.classifier.get? s.current = some kind) :
    Traced ctx s (.write addr layout value)
      ⟨s.events.push (.write t layout u kind), s.nextLocal, s.current, s.bindings, log⟩
  | comment {text : String} : Traced ctx s (.comment text) s
  | instruction {offset : Nat} {name : String} {log : Log} :
    Traced ctx s (.instruction offset name)
      ⟨s.events.push (.instruction (ctx.start + offset)), s.nextLocal, ctx.start + offset,
        s.bindings, log⟩
  /-- What has no exact term is a warning and a declaration. -/
  | approximated {a : Assignment Value} {what : Approximation} {sort : TermSort} {log : Log}
    (hterm : rhsTerm (valueTerm ctx.registers s.bindings) a.rhs = .ok none)
    (hsort : sortOf a.ty = some sort) (hrhs : isOperation a.rhs = true) :
    Traced ctx s (.assign a)
      ⟨(s.events.push (.warning what)).push
          (.command (.declare (localName s.nextLocal) [] sort)), s.nextLocal + 1,
        s.current, s.bindings.insert a.id (.term (.var (localName s.nextLocal))), log⟩
  /-- What has neither a term nor a sort is a warning, and cannot be used. -/
  | unrepresented {a : Assignment Value} {what : Approximation} {log : Log}
    (hterm : rhsTerm (valueTerm ctx.registers s.bindings) a.rhs = .ok none)
    (hsort : sortOf a.ty = none) (hrhs : isOperation a.rhs = true) :
    Traced ctx s (.assign a)
      ⟨s.events.push (.warning what), s.nextLocal, s.current,
        s.bindings.insert a.id .opaqueValue, log⟩
  /-- A machine statement that verification passes over is a warning. -/
  | passedOver {what : Approximation} {log : Log} :
    Traced ctx s (.machine .emptyMmx)
      ⟨s.events.push (.warning what), s.nextLocal, s.current, s.bindings, log⟩

/-- The events before a statement stay. -/
theorem Traced.grows {ctx : Context} {s s' : State} {c : Stmt} (h : Traced ctx s c s') :
    ∃ new, s'.events.toList = s.events.toList ++ new := by
  cases h with
  | defined | declared | read | write | instruction | unrepresented | passedOver =>
      exact ⟨_, Array.toList_push⟩
  | approximated =>
      exact ⟨_, by rw [Array.toList_push, Array.toList_push, List.append_assoc]⟩
  | sortless | comment => exact ⟨[], (List.append_nil _).symm⟩

section

variable {ctx : Context} {s s' : State} {u : Unit}

/-- A sort that was computed is that of the type. -/
theorem of_checkedSortOf {t : Ty} {σ : Option TermSort} (h : checkedSortOf t = .ok σ) :
    sortOf t = σ := (ok_of_inRange h).2.symm

/-- An unknown value is declared if it has a sort. -/
theorem succeeds_bindUnknown {a : Assignment Value} (h : Succeeds (bindUnknown a) s u s') :
    (∃ sort, sortOf a.ty = some sort ∧ s' = { s with
        nextLocal := s.nextLocal + 1
        events := s.events.push (.command (.declare (localName s.nextLocal) [] sort))
        bindings := s.bindings.insert a.id (.term (.var (localName s.nextLocal))) })
      ∨ sortOf a.ty = none ∧ s' = { s with bindings := s.bindings.insert a.id .opaqueValue } := by
  obtain ⟨σ, _, hσ, h⟩ := succeeds_bind h
  obtain ⟨hchecked, rfl⟩ := succeeds_ofFault hσ
  have hsort := of_checkedSortOf hchecked
  cases σ with
  | none => exact .inr ⟨hsort, (succeeds_bindAssignment h).2⟩
  | some sort =>
      obtain ⟨t, _, hdecl, h⟩ := succeeds_bind h
      obtain ⟨rfl, rfl⟩ := succeeds_declare hdecl
      exact .inl ⟨sort, hsort, (succeeds_bindAssignment h).2⟩

/-- An assignment is bound to its term, or to an unknown value with a warning. -/
theorem traced_of_bindTerm {a : Assignment Value} {what : Approximation} {t : Option Term}
    {log : Log} (hrhs : isOperation a.rhs = true)
    (hterm : rhsTerm (valueTerm ctx.registers s.bindings) a.rhs = .ok t)
    (h : Succeeds (bindTerm a what t) { s with log := log } u s') :
    Traced ctx s (.assign a) s' := by
  cases t with
  | some t =>
      obtain ⟨sort, _, hsort, h⟩ := succeeds_bind h
      obtain ⟨σ, _, hσ, hsort⟩ := succeeds_bind hsort
      obtain ⟨hchecked, rfl⟩ := succeeds_ofFault hσ
      have hsortOf := of_checkedSortOf hchecked
      cases σ with
      | none => exact absurd hsort not_succeeds_throw
      | some sort' =>
          obtain ⟨rfl, rfl⟩ := succeeds_pure hsort
          obtain ⟨v, _, hdef, h⟩ := succeeds_bind h
          obtain ⟨rfl, rfl⟩ := succeeds_define hdef
          rw [(succeeds_bindAssignment h).2]
          exact .defined hterm hsortOf
  | none =>
      obtain ⟨_, _, hwarn, h⟩ := succeeds_bind h
      obtain ⟨log', rfl⟩ := succeeds_warn hwarn
      rcases succeeds_bindUnknown h with ⟨sort, hsort, rfl⟩ | ⟨hsort, rfl⟩
      · exact .approximated hterm hsort hrhs
      · exact .unrepresented hterm hsort hrhs

/-- The term for a value is found without a change. -/
theorem succeeds_term {v : Value} {t : Term} (h : Succeeds (term ctx v) s t s') :
    valueTerm ctx.registers s.bindings v = .ok t ∧ s = s' := by
  obtain ⟨_, _, hget, h⟩ := succeeds_bind h
  obtain ⟨rfl, rfl⟩ := succeeds_get hget
  exact succeeds_stateless h

/-- The kind of memory is found without a change. -/
theorem succeeds_classify {k : AccessKind} (h : Succeeds (classify ctx) s k s') :
    ctx.classifier.get? s.current = some k ∧ s = s' := by
  obtain ⟨_, _, hget, h⟩ := succeeds_bind h
  obtain ⟨rfl, rfl⟩ := succeeds_get hget
  dsimp only at h
  split at h
  case h_1 k' hk =>
    obtain ⟨rfl, rfl⟩ := succeeds_pure h
    exact ⟨hk, rfl⟩
  case h_2 => exact absurd h not_succeeds_throw

/-- An assignment is traced in one of the ways listed. -/
theorem traced_of_assign {a : Assignment Value} (h : Succeeds (assign ctx a) s u s') :
    Traced ctx s (.assign a) s' := by
  obtain ⟨_, _, hrec, h⟩ := succeeds_bind h
  obtain rfl := succeeds_modify hrec
  cases hrhs : a.rhs with
  | app f =>
      rw [hrhs] at h
      obtain ⟨_, _, hget, h⟩ := succeeds_bind h
      obtain ⟨rfl, rfl⟩ := succeeds_get hget
      obtain ⟨t, _, ht, h⟩ := succeeds_bind h
      obtain ⟨hterm, rfl⟩ := succeeds_stateless ht
      exact traced_of_bindTerm (by rw [hrhs]; rfl) (by rw [hrhs]; exact hterm) h
  | undefined t =>
      rw [hrhs] at h
      rcases succeeds_bindUnknown h with ⟨sort, hsort, rfl⟩ | ⟨hsort, rfl⟩
      · exact .declared hrhs hsort
      · exact .sortless hrhs hsort
  | read addr layout =>
      rw [hrhs] at h
      obtain ⟨t, _, ht, h⟩ := succeeds_bind h
      obtain ⟨haddr, rfl⟩ := succeeds_term ht
      obtain ⟨k, _, hk, h⟩ := succeeds_bind h
      obtain ⟨hkind, rfl⟩ := succeeds_classify hk
      obtain ⟨name, _, hname, h⟩ := succeeds_bind h
      obtain ⟨rfl, rfl⟩ := succeeds_freshName hname
      obtain ⟨_, _, hemit, h⟩ := succeeds_bind h
      obtain rfl := succeeds_modify hemit
      rw [(succeeds_bindAssignment h).2]
      exact .read hrhs haddr hkind
  | readIf =>
      rw [hrhs] at h
      exact absurd h not_succeeds_throw
  | machine f =>
      rw [hrhs] at h
      obtain ⟨_, _, hget, h⟩ := succeeds_bind h
      obtain ⟨rfl, rfl⟩ := succeeds_get hget
      obtain ⟨t, _, ht, h⟩ := succeeds_bind h
      obtain ⟨hterm, rfl⟩ := succeeds_stateless ht
      exact traced_of_bindTerm (by rw [hrhs]; rfl) (by rw [hrhs]; exact hterm) h

/-- A statement is traced in one of the ways listed. -/
theorem traced_of_succeeds {c : Stmt} (h : Succeeds (stmt ctx c) s u s') : Traced ctx s c s' := by
  cases c with
  | assign a => exact traced_of_assign h
  | write addr layout value =>
      obtain ⟨t, _, ht, h⟩ := succeeds_bind h
      obtain ⟨haddr, rfl⟩ := succeeds_term ht
      obtain ⟨v, _, hv, h⟩ := succeeds_bind h
      obtain ⟨hvalue, rfl⟩ := succeeds_term hv
      obtain ⟨k, _, hk, h⟩ := succeeds_bind h
      obtain ⟨hkind, rfl⟩ := succeeds_classify hk
      obtain rfl := succeeds_modify h
      exact .write haddr hvalue hkind
  | writeIf =>
      obtain ⟨_, _, hget, h⟩ := succeeds_bind h
      exact absurd h not_succeeds_throw
  | call =>
      obtain ⟨_, _, hget, h⟩ := succeeds_bind h
      exact absurd h not_succeeds_throw
  | machine m =>
      cases m with
      | emptyMmx =>
          obtain ⟨log, rfl⟩ := succeeds_warn h
          exact .passedOver
      | storeX87Control | repeatMove | repeatStore =>
          obtain ⟨_, _, hget, h⟩ := succeeds_bind h
          exact absurd h not_succeeds_throw
  | comment text =>
      obtain ⟨-, rfl⟩ := succeeds_pure h
      exact .comment
  | instruction offset name =>
      obtain ⟨addr, _, haddr, h⟩ := succeeds_bind h
      obtain ⟨hsum, rfl⟩ := succeeds_ofFault haddr
      obtain ⟨_, _, hmod, h⟩ := succeeds_bind h
      obtain rfl := succeeds_modify hmod
      obtain ⟨_, _, hrec, h⟩ := succeeds_bind h
      obtain rfl := succeeds_modify hrec
      obtain rfl := succeeds_modify h
      rw [of_address_add hsum]
      exact .instruction

-- ============================================================ whole blocks

/-- What every way of tracing a statement keeps, tracing some statements keeps. -/
theorem invariant_of_stmts {P : State → Prop} {cs : List Stmt}
    (hstep : ∀ c ∈ cs, ∀ s s', P s → Traced ctx s c s' → P s')
    (h : Succeeds (cs.forM (stmt ctx)) s u s') (hs : P s) : P s' := by
  induction cs generalizing s with
  | nil =>
      obtain ⟨-, rfl⟩ := succeeds_pure h
      exact hs
  | cons c cs ih =>
      obtain ⟨_, s₁, hc, hcs⟩ := succeeds_bind h
      have h₁ := hstep c List.mem_cons_self s s₁ hs (traced_of_succeeds hc)
      exact ih (fun d hd => hstep d (List.mem_cons_of_mem c hd)) hcs h₁

/-- What every way of tracing a statement carries from the statements before it
to those with it, tracing some statements carries from none to all of them. -/
theorem invariant_of_prefixes {P : List Stmt → State → Prop} {pre cs : List Stmt}
    (hstep : ∀ pre c s s', P pre s → Traced ctx s c s' → P (pre ++ [c]) s')
    (h : Succeeds (cs.forM (stmt ctx)) s u s') (hs : P pre s) : P (pre ++ cs) s' := by
  induction cs generalizing pre s with
  | nil =>
      obtain ⟨-, rfl⟩ := succeeds_pure h
      rw [List.append_nil]
      exact hs
  | cons c cs ih =>
      obtain ⟨_, s₁, hc, hcs⟩ := succeeds_bind h
      rw [List.append_cons]
      exact ih hcs (hstep pre c s s₁ hs (traced_of_succeeds hc))

/-- A statement among others is traced from where those in front of it end. -/
theorem traced_of_split {pre post : List Stmt} {c : Stmt}
    (h : Succeeds ((pre ++ c :: post).forM (stmt ctx)) s u s') :
    ∃ s₁ s₂, Succeeds (pre.forM (stmt ctx)) s () s₁ ∧ Traced ctx s₁ c s₂ := by
  induction pre generalizing s with
  | nil =>
      obtain ⟨_, s₁, hc, -⟩ := succeeds_bind h
      exact ⟨s, s₁, rfl, traced_of_succeeds hc⟩
  | cons d pre ih =>
      obtain ⟨_, s₁, hd, hpre⟩ := succeeds_bind h
      obtain ⟨s₂, s₃, hpre, hc⟩ := ih hpre
      exact ⟨s₂, s₃, hd.bind hpre, hc⟩

/-- The registers handed on are those of the block's end, each with the term
for its value. -/
theorem succeeds_registerTerms {l : List (Register × Value)} {terms : RegisterTerms}
    (hl : l.Pairwise fun e f => compare e.1 f.1 = .lt)
    (h : Succeeds (registerTerms ctx l) s terms s') :
    s = s' ∧ (∀ r v, (r, v) ∈ l →
        ∃ t, terms.get? r = some t ∧ valueTerm ctx.registers s.bindings v = .ok t)
      ∧ ∀ r, (∀ v, (r, v) ∉ l) → terms.get? r = none := by
  induction l generalizing terms with
  | nil =>
      obtain ⟨rfl, rfl⟩ := succeeds_pure h
      exact ⟨rfl, by simp, fun _ _ => rfl⟩
  | cons e l ih =>
      obtain ⟨r₀, v₀⟩ := e
      rw [List.pairwise_cons] at hl
      obtain ⟨t, _, ht, hrest⟩ := succeeds_bind h
      obtain ⟨hterm, rfl⟩ := succeeds_term ht
      obtain ⟨terms', _, hterms, hlast⟩ := succeeds_bind hrest
      obtain ⟨rfl, rfl⟩ := succeeds_pure hlast
      obtain ⟨rfl, hin, hout⟩ := ih hl.2 hterms
      refine ⟨rfl, ?_, ?_⟩
      · intro r v hmem
        rcases List.mem_cons.1 hmem with heq | hmem
        · obtain ⟨rfl, rfl⟩ := Prod.mk.inj heq
          exact ⟨t, Dict.get?_insert_self _ _ _, hterm⟩
        · have hne : r₀ ≠ r := by
            rintro rfl
            have hlt := hl.1 _ hmem
            have heq : compare r₀ r₀ = .eq := Std.ReflCmp.compare_self
            rw [heq] at hlt
            contradiction
          obtain ⟨u, hu, huv⟩ := hin r v hmem
          exact ⟨u, by rw [Dict.get?_insert_of_ne hne, hu], huv⟩
      · intro r hr
        have hne : r₀ ≠ r := by
          rintro rfl
          exact hr v₀ List.mem_cons_self
        rw [Dict.get?_insert_of_ne hne]
        exact hout r fun v hv => hr v (List.mem_cons_of_mem _ hv)

/-- A register that is handed on has the term for its value at the end. -/
theorem of_get?_registerTerms {values : RegisterValues} {terms : RegisterTerms} {r : Register}
    {t : Term} (h : Succeeds (registerTerms ctx values.entries) s terms s')
    (ht : terms.get? r = some t) :
    ∃ v, (r, v) ∈ values.entries ∧ valueTerm ctx.registers s.bindings v = .ok t := by
  obtain ⟨-, hin, hout⟩ := succeeds_registerTerms values.sorted h
  by_cases hr : ∃ v, (r, v) ∈ values.entries
  · obtain ⟨v, hv⟩ := hr
    obtain ⟨u, hu, huv⟩ := hin r v hv
    rw [hu] at ht
    cases ht
    exact ⟨v, hv, huv⟩
  · rw [hout r fun v hv => hr ⟨v, hv⟩] at ht
    contradiction

end

/-- What a block's trace was made from: its statements, and then the registers
that its end hands on. -/
theorem state_of_block {ctx : Context} {n : Nat} {b : MachineBlock} {trace : BlockTrace}
    {log log' : Log} (h : Succeeds (block ctx n b) log trace log') :
    ∃ start s values terms, start.events = #[] ∧ start.nextLocal = n
      ∧ start.current = ctx.start ∧ start.bindings = ∅
      ∧ Succeeds (b.stmts.forM (stmt ctx)) start () s
      ∧ b.ending = .fetch values ∧ Succeeds (registerTerms ctx values.entries) s terms s
      ∧ trace.events = s.events.toList ++ [.fetch terms] ∧ trace.nextLocal = s.nextLocal := by
  obtain ⟨start, hstart⟩ : ∃ start : State,
      start = ⟨#[], n, ctx.start, ∅, log.push (.tracingBlock ctx.start)⟩ := ⟨_, rfl⟩
  have hbody : ∃ s', Succeeds (body ctx b) start () s' ∧ trace.events = s'.events.toList
      ∧ trace.nextLocal = s'.nextLocal := by
    rw [Succeeds, block, ExceptT.run_mk] at h
    dsimp only [StateT.run] at h
    rw [← hstart] at h
    split at h
    case h_1 s hs =>
      rw [← Except.ok.inj (Prod.mk.inj h).1]
      exact ⟨s, hs, rfl, rfl⟩
    case h_2 =>
      have herror := (Prod.mk.inj h).1
      contradiction
  obtain ⟨s', hbody, hevents, hnext⟩ := hbody
  obtain ⟨_, s, hstmts, hending⟩ := succeeds_bind hbody
  cases hend : b.ending with
  | fetch values =>
      rw [hend] at hending
      obtain ⟨terms, s₁, hterms, hemit⟩ := succeeds_bind hending
      obtain ⟨rfl, -, -⟩ := succeeds_registerTerms values.sorted hterms
      refine ⟨start, s, values, terms, ?_, ?_, ?_, ?_, hstmts, rfl, hterms, ?_, ?_⟩
      · rw [hstart]
      · rw [hstart]
      · rw [hstart]
      · rw [hstart]
      · rw [hevents, succeeds_modify hemit, Array.toList_push]
      · rw [hnext, succeeds_modify hemit]
  | untranslated | exit =>
      rw [hend] at hending
      obtain ⟨_, _, -, hthrow⟩ := succeeds_bind hending
      exact absurd hthrow not_succeeds_throw

/-- The events of a block are those of its statements, and then that of its
end. -/
theorem of_block {ctx : Context} {n : Nat} {b : MachineBlock} {trace : BlockTrace}
    {log log' : Log} (h : Succeeds (block ctx n b) log trace log') :
    ∃ start s values terms, start.events = #[] ∧ start.nextLocal = n ∧ start.bindings = ∅
      ∧ Succeeds (b.stmts.forM (stmt ctx)) start () s
      ∧ b.ending = .fetch values ∧ Succeeds (registerTerms ctx values.entries) s terms s
      ∧ trace.events = s.events.toList ++ [.fetch terms] := by
  obtain ⟨start, s, values, terms, hevents, hnext, -, hbindings, hstmts, hend, hterms, htrace, -⟩ :=
    state_of_block h
  exact ⟨start, s, values, terms, hevents, hnext, hbindings, hstmts, hend, hterms, htrace⟩

end LiftedCode.Trace
