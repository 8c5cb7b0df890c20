/-
The names in a trace: the events of a block introduce the locals from the first
that is free to the last that is used, one after the other, and speak of no
name that is not there yet (`Scoped`, which every statement keeps). Blocks that
take over from each other have one sequence of locals, so that no name is
introduced twice and none changes the meaning of a term that was there before
(`names_scoped`).
-/
import LiftedCode.Proofs.Trace.Step
import LiftedCode.Proofs.Trace.Variables
import Mathlib.Data.List.Chain
import Mathlib.Data.List.Nodup

namespace LiftedCode.Trace

open Smt (Term TermSort)

-- ====================================================== names of events

namespace Event

/-- The names that an event introduces. -/
def introduces : Event → List String
  | command c => [c.name]
  | read _ _ x _ => [x]
  | warning _ | instruction _ | write _ _ _ _ | fetch _ => []

/-- The terms of an event. -/
def terms : Event → List Term
  | command (.define _ _ _ t) => [t]
  | command (.declare _ _ _) | warning _ | instruction _ => []
  | read a _ _ _ => [a]
  | write a _ v _ => [a, v]
  | fetch rs => rs.values

/-- The variables of the terms of an event. -/
def vars (e : Event) : List String := e.terms.flatMap Term.vars

/-- Whether all variables of an event are among some names. -/
def Over (known : String → Prop) (e : Event) : Prop := ∀ t ∈ e.terms, t.Over known

theorem Over.mono {known known' : String → Prop} {e : Event} (h : e.Over known)
    (hk : ∀ x, known x → known' x) : e.Over known' := fun t ht => (h t ht).mono hk

/-- A variable of an event over some names is one of them. -/
theorem Over.known {known : String → Prop} {e : Event} {x : String} (h : e.Over known)
    (hx : x ∈ e.vars) : known x := by
  obtain ⟨t, ht, hxt⟩ := List.mem_flatMap.1 hx
  exact h t ht x hxt

end Event

/-- The names that events introduce, in order. -/
def names (es : List Event) : List String := es.flatMap Event.introduces

/-- The locals from `n` on that come before `m`. -/
def locals (n m : Nat) : List String := (List.range' n (m - n)).map localName

/-- Whether every variable of an event is known beforehand or introduced by an
event strictly before. -/
def WellScoped (known : String → Prop) : List Event → Prop
  | [] => True
  | e :: es => e.Over known ∧ WellScoped (fun x => known x ∨ x ∈ e.introduces) es

/-- Whether every name that is introduced is new: neither known beforehand, nor
introduced before, nor in a term of an event so far. -/
def CaptureFree (known : String → Prop) : List Event → Prop
  | [] => True
  | e :: es => (∀ x ∈ e.introduces, ¬ known x ∧ x ∉ e.vars)
    ∧ CaptureFree (fun x => known x ∨ x ∈ e.introduces ∨ x ∈ e.vars) es

/-- Whether a name is in a term that a register holds. -/
def RegisterTerms.Mentions (registers : RegisterTerms) (x : String) : Prop :=
  ∃ r t, registers.get? r = some t ∧ x ∈ t.vars

section

variable {known known' : String → Prop} {es fs : List Event} {e : Event}

@[simp] theorem names_append : names (es ++ fs) = names es ++ names fs := List.flatMap_append

@[simp] theorem names_singleton : names [e] = e.introduces := by simp [names]

/-- The locals up to `m` and those from there on. -/
theorem locals_append {k m n : Nat} (hkm : k ≤ m) (hmn : m ≤ n) :
    locals k m ++ locals m n = locals k n := by
  rw [locals, locals, locals, ← List.map_append, range'_append_range' hkm hmn]

theorem locals_succ {m n : Nat} (h : m ≤ n) : locals m (n + 1) = locals m n ++ [localName n] := by
  rw [← locals_append h (Nat.le_succ n)]
  simp [locals]

theorem mem_locals {x : String} {m n : Nat} (h : x ∈ locals m n) :
    ∃ k, m ≤ k ∧ localName k = x := by
  obtain ⟨k, hk, hx⟩ := List.mem_map.1 h
  exact ⟨k, (List.mem_range'_1.1 hk).1, hx⟩

/-- No local occurs twice among those in sequence. -/
theorem nodup_locals (m n : Nat) : (locals m n).Nodup :=
  (List.nodup_range' 1).map fun _ _ heq => localName_injective heq

/-- More names can be known. -/
theorem WellScoped.mono (h : WellScoped known es) (hk : ∀ x, known x → known' x) :
    WellScoped known' es := by
  induction es generalizing known known' with
  | nil => exact trivial
  | cons e es ih => exact ⟨h.1.mono hk, ih h.2 fun x => Or.imp_left (hk x)⟩

/-- Events after others know the names of those. -/
theorem wellScoped_append :
    WellScoped known (es ++ fs)
      ↔ WellScoped known es ∧ WellScoped (fun x => known x ∨ x ∈ names es) fs := by
  induction es generalizing known with
  | nil => simp [WellScoped, names]
  | cons e es ih => simp only [List.cons_append, WellScoped, ih, and_assoc, names, or_assoc,
      List.flatMap_cons, List.mem_append]

theorem wellScoped_singleton : WellScoped known [e] ↔ e.Over known := by simp [WellScoped]

/-- Every variable in sight is known beforehand or introduced. -/
theorem WellScoped.known_or_mem (h : WellScoped known es) {x : String} (he : e ∈ es)
    (hx : x ∈ e.vars) : known x ∨ x ∈ names es := by
  induction es generalizing known with
  | nil => exact absurd he List.not_mem_nil
  | cons f es ih =>
      rcases List.mem_cons.1 he with rfl | he
      · exact .inl (h.1.known hx)
      · rcases ih h.2 he with (hk | hf) | hes
        · exact .inl hk
        · exact .inr (List.mem_flatMap.2 ⟨f, List.mem_cons_self, hf⟩)
        · exact .inr (List.mem_append_right _ hes)

/-- Nothing is captured where variables are in scope and names distinct and
not known beforehand. -/
theorem WellScoped.captureFree (h : WellScoped known es) (hnodup : (names es).Nodup)
    (hnew : ∀ x ∈ names es, ¬ known x) : CaptureFree known es := by
  induction es generalizing known with
  | nil => exact trivial
  | cons e es ih =>
      obtain ⟨hover, hrest⟩ := h
      obtain ⟨-, hes, hdisjoint⟩ := List.nodup_append.1 hnodup
      refine ⟨fun x hx => ?_, ih (hrest.mono fun x hx => hx.imp_right .inl) hes fun x hx => ?_⟩
      · have hk : ¬ known x := hnew x (List.mem_append_left _ hx)
        exact ⟨hk, fun hv => hk (hover.known hv)⟩
      · have hk : ¬ known x := hnew x (List.mem_append_right _ hx)
        rintro (hknown | hintro | hvar)
        · exact hk hknown
        · exact hdisjoint x hintro x hx rfl
        · exact hk (hover.known hvar)

end

-- ============================================================ one block

/-- What a trace under way that began with local `n` has introduced and speaks
of. -/
structure Scoped (known : String → Prop) (n : Nat) (s : State) : Prop where
  le : n ≤ s.nextLocal
  names : names s.events.toList = locals n s.nextLocal
  events : WellScoped known s.events.toList
  bindings : ∀ id t, s.bindings.get? id = some (.term t) →
    t.Over fun x => known x ∨ x ∈ Trace.names s.events.toList

section

variable {ctx : Context} {n : Nat} {s s' : State} {e : Event}

/-- The term for a value has only variables that are known. -/
theorem Scoped.valueTerm (h : Scoped ctx.registers.Mentions n s) {v : Value} {t : Term}
    (hv : valueTerm ctx.registers s.bindings v = .ok t) :
    t.Over fun x => ctx.registers.Mentions x ∨ x ∈ Trace.names s.events.toList := by
  cases v with
  | bits l =>
      cases hv
      exact Term.over_bits _ _
  | bool b =>
      cases hv
      exact Term.over_bool _
  | assigned a =>
      rw [Trace.valueTerm] at hv
      split at hv
      case h_1 u hu =>
        cases hv
        exact h.bindings _ _ hu
      case h_2 | h_3 => contradiction
  | initial r =>
      rw [Trace.valueTerm] at hv
      split at hv
      case h_1 u hu =>
        cases hv
        exact fun x hx => .inl ⟨r, _, hu, hx⟩
      case h_2 => contradiction
  | phi | returned | arg | entry => contradiction

/-- The term for what an assignment computes has only variables that are known. -/
theorem Scoped.rhsTerm (h : Scoped ctx.registers.Mentions n s) {r : Rhs Value} {t : Term}
    (ht : rhsTerm (Trace.valueTerm ctx.registers s.bindings) r = .ok (some t)) :
    t.Over fun x => ctx.registers.Mentions x ∨ x ∈ Trace.names s.events.toList := by
  cases r with
  | app f => exact appTerm_over ht fun _ _ => h.valueTerm
  | machine f => exact machineFnTerm_over ht fun _ _ => h.valueTerm
  | undefined | read | readIf => exact nomatch Except.ok.inj ht

variable {known : String → Prop} {current : Nat} {log : Log} {id : Ident}

/-- An event that introduces nothing. -/
theorem Scoped.pass (h : Scoped known n s) (hnone : e.introduces = [])
    (he : e.Over fun x => known x ∨ x ∈ Trace.names s.events.toList) :
    Scoped known n ⟨s.events.push e, s.nextLocal, current, s.bindings, log⟩ where
  le := h.le
  names := by simp [hnone, h.names]
  events := by
    rw [Array.toList_push, wellScoped_append, wellScoped_singleton]
    exact ⟨h.events, he⟩
  bindings := by simpa [hnone] using h.bindings

/-- An event that introduces the next local, to which an assignment is bound. -/
theorem Scoped.bindLocal (h : Scoped known n s) (hintro : e.introduces = [localName s.nextLocal])
    (he : e.Over fun x => known x ∨ x ∈ Trace.names s.events.toList) :
    Scoped known n ⟨s.events.push e, s.nextLocal + 1, current,
      s.bindings.insert id (.term (.var (localName s.nextLocal))), log⟩ where
  le := Nat.le_succ_of_le h.le
  names := by simp [hintro, h.names, locals_succ h.le]
  events := by
    rw [Array.toList_push, wellScoped_append, wellScoped_singleton]
    exact ⟨h.events, he⟩
  bindings i t ht := by
    dsimp only at ht
    rw [Array.toList_push, names_append, names_singleton, hintro]
    rw [Dict.get?_insert] at ht
    split at ht
    case isTrue =>
      cases ht
      simp
    case isFalse =>
      refine (h.bindings i t ht).mono fun x hx => hx.imp_right fun hx => ?_
      exact List.mem_append_left _ hx

/-- An assignment that is bound to nothing that can be used. -/
theorem Scoped.bindNothing (h : Scoped known n s) :
    Scoped known n ⟨s.events, s.nextLocal, current, s.bindings.insert id .opaqueValue, log⟩ where
  le := h.le
  names := h.names
  events := h.events
  bindings i t ht := by
    dsimp only at ht
    rw [Dict.get?_insert] at ht
    split at ht
    case isTrue => exact nomatch ht
    case isFalse => exact h.bindings i t ht

/-- A statement introduces locals in sequence and speaks of what is there. -/
theorem Scoped.stmt {c : Stmt} (h : Scoped ctx.registers.Mentions n s) (ht : Traced ctx s c s') :
    Scoped ctx.registers.Mentions n s' := by
  cases ht with
  | defined hterm =>
      exact h.bindLocal rfl (by simpa [Event.Over, Event.terms] using h.rhsTerm hterm)
  | declared => exact h.bindLocal rfl (by simp [Event.Over, Event.terms])
  | sortless => exact h.bindNothing
  | read _ haddr =>
      exact h.bindLocal rfl (by simpa [Event.Over, Event.terms] using h.valueTerm haddr)
  | write haddr hvalue =>
      refine h.pass rfl ?_
      simpa [Event.Over, Event.terms] using ⟨h.valueTerm haddr, h.valueTerm hvalue⟩
  | comment => exact h
  | instruction => exact h.pass rfl (by simp [Event.Over, Event.terms])
  | @approximated a what sort log =>
      have hwarn : Scoped ctx.registers.Mentions n
          ⟨s.events.push (.warning what), s.nextLocal, s.current, s.bindings, log⟩ :=
        h.pass rfl (by simp [Event.Over, Event.terms])
      exact hwarn.bindLocal rfl (by simp [Event.Over, Event.terms])
  | @unrepresented a what log =>
      have hwarn : Scoped ctx.registers.Mentions n
          ⟨s.events.push (.warning what), s.nextLocal, s.current, s.bindings, log⟩ :=
        h.pass rfl (by simp [Event.Over, Event.terms])
      exact hwarn.bindNothing
  | passedOver => exact h.pass rfl (by simp [Event.Over, Event.terms])

/-- A block introduces the locals from the first that is free to the last that
it uses, and speaks of no name that is not there yet. -/
theorem scoped_of_block {b : MachineBlock} {trace : BlockTrace} {log log' : Log}
    (h : Succeeds (block ctx n b) log trace log') :
    n ≤ trace.nextLocal ∧ names trace.events = locals n trace.nextLocal
      ∧ WellScoped ctx.registers.Mentions trace.events := by
  obtain ⟨start, s, values, terms, hevents, hnext, -, hbindings, hstmts, -, hterms, htrace,
    hlast⟩ := state_of_block h
  have hstart : Scoped ctx.registers.Mentions n start := by
    refine ⟨Nat.le_of_eq hnext.symm, ?_, ?_, ?_⟩
    · simp [hevents, hnext, names, locals]
    · simp [hevents, WellScoped]
    · simp [hbindings]
  have hs := invariant_of_stmts (fun c _ s₁ s₂ h₁ ht => h₁.stmt ht) hstmts hstart
  have hfetch : (Event.fetch terms).Over
      fun x => ctx.registers.Mentions x ∨ x ∈ names s.events.toList := by
    intro t ht
    obtain ⟨⟨r, u⟩, hmem, rfl⟩ := List.mem_map.1 ht
    obtain ⟨v, -, hv⟩ := of_get?_registerTerms hterms ((Dict.get?_eq_some_iff _ _ _).2 hmem)
    exact hs.valueTerm hv
  rw [htrace, hlast, names_append, wellScoped_append, wellScoped_singleton]
  exact ⟨hs.le, by simp [Event.introduces, hs.names], hs.events, hfetch⟩

end

-- ===================================================== blocks in sequence

/-- A block that was traced, with what it was traced from. -/
structure TracedBlock where
  ctx : Context
  /-- The first local that was free. -/
  first : Nat
  block : MachineBlock
  trace : BlockTrace
  traced : ∃ log log', Succeeds (Trace.block ctx first block) log trace log'

namespace TracedBlock

/-- Whether a block takes over from another: it starts with the next free
local, and every register with a term that the other handed on or, for one
that it did not hand on, started with itself. -/
def HandsOver (p q : TracedBlock) : Prop :=
  q.first = p.trace.nextLocal ∧ ∀ r t, q.ctx.registers.get? r = some t →
    (∃ terms, .fetch terms ∈ p.trace.events ∧ terms.get? r = some t)
      ∨ p.ctx.registers.get? r = some t

/-- Whether no register of the block speaks of a local that is still free. -/
def Fresh (p : TracedBlock) : Prop :=
  ∀ k, p.first ≤ k → ¬ p.ctx.registers.Mentions (localName k)

/-- A name in the terms that a block starts with was in those of the block that
it takes over from, or that block introduced it. -/
theorem HandsOver.mentions {p q : TracedBlock} (h : p.HandsOver q) {x : String}
    (hx : q.ctx.registers.Mentions x) : p.ctx.registers.Mentions x ∨ x ∈ names p.trace.events := by
  obtain ⟨r, t, ht, hxt⟩ := hx
  rcases h.2 r t ht with ⟨terms, hmem, hterms⟩ | hold
  · obtain ⟨log, log', hrun⟩ := p.traced
    obtain ⟨-, -, hscoped⟩ := scoped_of_block hrun
    refine hscoped.known_or_mem hmem (List.mem_flatMap.2 ⟨t, ?_, hxt⟩)
    exact List.mem_map.2 ⟨(r, t), (Dict.get?_eq_some_iff _ _ _).1 hterms, rfl⟩
  · exact .inl ⟨r, t, hold, hxt⟩

/-- Blocks in sequence have locals in sequence, and speak of no name that is
not there yet. -/
theorem scoped_of_isChain {p : TracedBlock} {rest : List TracedBlock}
    (h : (p :: rest).IsChain HandsOver) :
    ∃ m, p.first ≤ m ∧ names ((p :: rest).flatMap (·.trace.events)) = locals p.first m
      ∧ WellScoped p.ctx.registers.Mentions ((p :: rest).flatMap (·.trace.events)) := by
  obtain ⟨log, log', hrun⟩ := p.traced
  obtain ⟨hle, hnames, hscoped⟩ := scoped_of_block hrun
  induction rest generalizing p log log' with
  | nil => exact ⟨p.trace.nextLocal, hle, by simpa using hnames, by simpa using hscoped⟩
  | cons q rest ih =>
      obtain ⟨hpq, hrest⟩ := List.isChain_cons_cons.1 h
      obtain ⟨log₁, log₁', hrun₁⟩ := q.traced
      obtain ⟨hle₁, hnames₁, hscoped₁⟩ := scoped_of_block hrun₁
      obtain ⟨m, hqm, hm, hq⟩ := ih hrest log₁ log₁' hrun₁ hle₁ hnames₁ hscoped₁
      rw [hpq.1] at hqm hm
      refine ⟨m, Nat.le_trans hle hqm, ?_, ?_⟩
      · rw [List.flatMap_cons, names_append, hnames, hm, locals_append hle hqm]
      · rw [List.flatMap_cons, wellScoped_append]
        exact ⟨hscoped, hq.mono fun x => hpq.mentions⟩

/-- A block that starts with what remains after another takes over from it. -/
theorem handsOver_of_after {p q : TracedBlock}
    (h : Handover.after ⟨p.ctx.registers, p.first⟩ p.trace = ⟨q.ctx.registers, q.first⟩) :
    p.HandsOver q := by
  obtain ⟨hregisters, hfirst⟩ := (Handover.mk.injEq ..).mp h
  refine ⟨hfirst.symm, fun r t ht => ?_⟩
  rw [← hregisters] at ht
  -- whatever the events so far handed on is among them
  refine List.foldlRecOn p.trace.events _
    (motive := fun regs : RegisterTerms => regs.get? r = some t →
      (∃ terms, .fetch terms ∈ p.trace.events ∧ terms.get? r = some t)
        ∨ p.ctx.registers.get? r = some t) .inr (fun regs ih e he ht => ?_) ht
  cases e with
  | fetch terms =>
      rcases Dict.of_get?_insertAll ht with hmem | hold
      · exact .inl ⟨terms, he, (Dict.get?_eq_some_iff _ _ _).2 hmem⟩
      · exact ih hold
  | command | warning | instruction | read | write => exact ih ht

end TracedBlock

/-- The trace of a block introduces the locals from the first that is free to
the last that it uses, one after the other, and every variable in it is one of
the terms of the registers or introduced before. Where blocks take over from
each other and the registers of the first speak of no local that is still free,
the same holds of all their events together: no name is introduced twice, and
none that was there before, so that no variable is captured. -/
theorem names_scoped (p : TracedBlock) :
    (p.first ≤ p.trace.nextLocal ∧ names p.trace.events = locals p.first p.trace.nextLocal
      ∧ WellScoped p.ctx.registers.Mentions p.trace.events)
    ∧ ∀ rest : List TracedBlock, (p :: rest).IsChain TracedBlock.HandsOver → p.Fresh →
      (names ((p :: rest).flatMap (·.trace.events))).Nodup
      ∧ WellScoped p.ctx.registers.Mentions ((p :: rest).flatMap (·.trace.events))
      ∧ CaptureFree p.ctx.registers.Mentions ((p :: rest).flatMap (·.trace.events)) := by
  obtain ⟨log, log', hrun⟩ := p.traced
  refine ⟨scoped_of_block hrun, fun rest hchain hfresh => ?_⟩
  obtain ⟨m, -, hnames, hscoped⟩ := TracedBlock.scoped_of_isChain hchain
  have hnodup := nodup_locals p.first m
  rw [← hnames] at hnodup
  refine ⟨hnodup, hscoped, hscoped.captureFree hnodup fun x hx => ?_⟩
  rw [hnames] at hx
  obtain ⟨k, hk, rfl⟩ := mem_locals hx
  exact hfresh k hk

-- ============================================================ an example

/-- The sum of a register and one. -/
def successor : Assignment Value :=
  ⟨0, .app (.binary .add 64 (.initial (.gp 0)) (.bits (.word 1#64))), .bits 64⟩

/-- A block that counts a register up. -/
def countBlock : MachineBlock :=
  ⟨4096, 4, [.assign successor], .fetch (Dict.ofList [(.gp 0, .assigned successor)])⟩

/-- The trace of the block with its register equal to `x`, and `k` the first
local that is free. -/
def countTrace (x : String) (k : Nat) : BlockTrace :=
  ⟨[.command (.define (localName k) [] (.bits 64) (.binary "bvadd" (.var x) (.bits 64 1))),
    .fetch (Dict.ofList [(.gp 0, .var (localName k))])], k + 1, 4⟩

/-- The block, traced from a register of which nothing is known. -/
def firstCount : TracedBlock where
  ctx := ⟨Dict.ofList [(.gp 0, .var "rax")], 4096, ∅⟩
  first := 0
  block := countBlock
  trace := countTrace "rax" 0
  traced := ⟨#[], _, rfl⟩

/-- The block, traced once more from where it ended. -/
def secondCount : TracedBlock where
  ctx := ⟨Dict.ofList [(.gp 0, .var "x0")], 4096, ∅⟩
  first := 1
  block := countBlock
  trace := countTrace "x0" 1
  traced := ⟨#[], _, rfl⟩

/-- The second run of the block starts with what remains after the first. -/
theorem handsOver_count : firstCount.HandsOver secondCount :=
  TracedBlock.handsOver_of_after rfl

/-- No local is the variable of the register. -/
theorem fresh_firstCount : firstCount.Fresh := by
  rintro k - ⟨r, t, ht, hx⟩
  have ht : (r, t) ∈ [(.gp 0, .var "rax")] := (Dict.get?_eq_some_iff _ _ _).1 ht
  obtain ⟨rfl, rfl⟩ := Prod.mk.inj (List.mem_singleton.1 ht)
  have hname : "x" ++ toString k = "rax" := List.mem_singleton.1 hx
  have hhead := congrArg (·.toList.head?) hname
  simp at hhead

/-- Two runs of the block introduce one local each, and capture nothing. -/
theorem names_scoped_count :
    names (firstCount.trace.events ++ secondCount.trace.events) = ["x0", "x1"]
      ∧ WellScoped firstCount.ctx.registers.Mentions
        (firstCount.trace.events ++ secondCount.trace.events)
      ∧ CaptureFree firstCount.ctx.registers.Mentions
        (firstCount.trace.events ++ secondCount.trace.events) := by
  obtain ⟨-, hseq⟩ := names_scoped firstCount
  obtain ⟨-, hscoped, hfree⟩ := hseq [secondCount]
    (List.isChain_cons_cons.2 ⟨handsOver_count, .singleton _⟩) fresh_firstCount
  rw [List.flatMap_cons, List.flatMap_singleton] at hscoped hfree
  exact ⟨rfl, hscoped, hfree⟩

end LiftedCode.Trace
