/-
The events of a machine block refine its execution. Replaying the events and
executing the statements go in step: `Related` ties the bindings of the trace,
the environment of the replay and the store of the execution together, every
statement keeps it (`Related.stmt`, one case for every way of tracing), and so
do all the statements of a block (`Related.stmts`). What the block hands on at
its end is then the same on both sides (`block_refines`).

The locals of a block must be new to the terms of the registers: a block whose
registers already speak of its first local gives that local a second meaning
(`block_captures`).
-/
import LiftedCode.Proofs.Trace.Encoding
import LiftedCode.Proofs.Trace.Step

namespace LiftedCode

-- ================================================== what is promised of a block

/-- What is promised of the assignments of a machine block: each was made with
its check, an identifier that an assignment reads stands for the one assignment
with that identifier, widths are 32-bit numbers where they are results, and a
shuffle of 16 bytes is of vectors of 128 bits. The last has to be asked for: the
check of an assignment passes shuffles of operands of any type
(`MachineFn.shuffle_mistyped`), and the term of a shuffle of narrower ones
extracts bits that they do not have. -/
structure MachineBlock.WellMade (b : MachineBlock) : Prop where
  made : ∀ a, .assign a ∈ b.stmts → Assignment.make a.id a.rhs = .ok a
  consistent : ∀ a c a', .assign a ∈ b.stmts → .assign c ∈ b.stmts →
    .assigned a' ∈ c.rhs.operands → a'.id = a.id → a' = a
  widths : ∀ a w x, .assign a ∈ b.stmts → a.rhs = .app (.unary .scanForward w x) →
    w < Width.limit
  shuffles : ∀ a x y, .assign a ∈ b.stmts → a.rhs = .machine (.shuffleBytes 16 x y) →
    x.ty.width? = some 128 ∧ y.ty.width? = some 128

/-- Whether no assignment of the block looks for the highest set bit. -/
def MachineBlock.ScansForward (b : MachineBlock) : Prop :=
  ∀ a w x, .assign a ∈ b.stmts → a.rhs ≠ .app (.unary .scanReverse w x)

/-- Whether a choice gives every read and every undefined value of a block a
datum of its type. -/
def Choice.Admissible (choice : Choice) (b : MachineBlock) : Prop :=
  ∀ a, .assign a ∈ b.stmts →
    ((∃ t, a.rhs = .undefined t) ∨ ∃ addr l, a.rhs = .read addr l) →
    a.ty.admits (choice a.id) = true

namespace Trace

open Smt (Term TermSort Env)

/-- The data of the registers, under data for the variables of their terms. -/
def RegisterTerms.data (registers : RegisterTerms) (ρ : Env) : RegisterData :=
  fun r => (registers.get? r).bind (·.eval ρ)

/-- Whether every register has a datum of its type. -/
def RegisterTerms.Typed (registers : RegisterTerms) (ρ : Env) : Prop :=
  ∀ r t, registers.get? r = some t → ∃ d, t.eval ρ = some d ∧ r.ty.admits d = true

/-- A datum of a type has the sort of the type. -/
theorem sortOfDatum_of_admits {t : Ty} {d : Datum} {sort : TermSort} (h : t.admits d = true)
    (hs : sortOf t = some sort) : Smt.sortOfDatum d = some sort := by
  by_cases ht : t = .bool
  · subst ht
    obtain ⟨b, rfl⟩ := Ty.eq_bool_of_admits h
    exact hs
  · have hs' : t.width?.map TermSort.bits = some sort := by
      cases t with
      | bool => exact absurd rfl ht
      | bits | float | tuple | vector => exact hs
    obtain ⟨w, hw, rfl⟩ := Option.map_eq_some_iff.1 hs'
    obtain ⟨x, rfl⟩ := Ty.eq_bits_of_admits h ht hw
    rfl

-- ========================================================== the relation

/-- What a trace under way, the replay of its events and the execution of the
same statements have in common. `rest` are the chosen values that the
statements to come will bind. -/
structure Related (b : MachineBlock) (start : Replay) (rest : List Datum) (s : State)
    (p : Replay) (run : Run) : Prop where
  replayed : start.events s.events.toList = some p
  choices : p.choices = rest
  accesses : p.accesses = run.accesses
  /-- Nothing that the variables stood for before has changed. -/
  kept : ∀ x d, start.env x = some d → p.env x = some d
  /-- The locals to come are new. -/
  fresh : ∀ k, s.nextLocal ≤ k → p.env (localName k) = none
  /-- What an assignment is bound to stands for what it computed. -/
  bound : ∀ id t, s.bindings.get? id = some (.term t) →
    ∃ d, run.store id = some d ∧ t.eval p.env = some d
  /-- What has been computed is a datum of an assignment of the block. -/
  typed : ∀ id d, run.store id = some d →
    ∃ a, .assign a ∈ b.stmts ∧ id = a.id ∧ a.ty.admits d = true

section

variable {ctx : Context} {b : MachineBlock} {start p p' : Replay} {rest rest' : List Datum}
  {s s' : State} {run : Run} {choice : Choice}

/-- The term for a value stands for its datum. -/
theorem Related.value (h : Related b start rest s p run) (hregs : ctx.registers.Typed start.env)
    {v : Value} {t : Term} (hv : valueTerm ctx.registers s.bindings v = .ok t) :
    ∃ d, v.eval (ctx.registers.data start.env) run.store = .ok d ∧ t.eval p.env = some d := by
  cases v with
  | bits l =>
      cases hv
      exact ⟨_, rfl, rfl⟩
  | bool c =>
      cases hv
      exact ⟨_, rfl, rfl⟩
  | assigned a =>
      rw [valueTerm] at hv
      split at hv
      case h_1 u hu =>
        cases hv
        obtain ⟨d, hd, hud⟩ := h.bound _ _ hu
        exact ⟨d, by rw [Value.eval, hd], hud⟩
      case h_2 | h_3 => contradiction
  | initial r =>
      rw [valueTerm] at hv
      split at hv
      case h_1 u hu =>
        cases hv
        obtain ⟨d, hd, -⟩ := hregs r t hu
        refine ⟨d, ?_, Term.eval_mono h.kept t d hd⟩
        have hr : ctx.registers.data start.env r = some d := by
          rw [RegisterTerms.data, hu, Option.bind_some, hd]
        rw [Value.eval, hr]
      case h_2 => contradiction
  | phi | returned | arg | entry => contradiction

/-- The datum of a value is one of its type. -/
theorem Related.value_typed (h : Related b start rest s p run)
    (hregs : ctx.registers.Typed start.env) {v : Value} {d : Datum}
    (hcons : ∀ a a', v = .assigned a' → .assign a ∈ b.stmts → a'.id = a.id → a' = a)
    (hv : v.eval (ctx.registers.data start.env) run.store = .ok d) : v.ty.admits d = true := by
  cases v with
  | bits l =>
      cases hv
      exact Ty.admits_bits _ (by simp [Value.ty]) rfl
  | bool c =>
      cases hv
      rfl
  | assigned a =>
      rw [Value.eval] at hv
      split at hv
      case h_1 e he =>
        cases hv
        obtain ⟨c, hc, hid, hadm⟩ := h.typed _ _ he
        rw [hcons c a rfl hc hid]
        exact hadm
      case h_2 => contradiction
  | initial r =>
      rw [Value.eval] at hv
      split at hv
      case h_1 e he =>
        cases hv
        obtain ⟨t, ht, hte⟩ := Option.bind_eq_some_iff.1 he
        obtain ⟨d', hd', hadm⟩ := hregs r t ht
        rw [hte] at hd'
        cases hd'
        exact hadm
      case h_2 => contradiction
  | phi | returned | arg | entry => contradiction

/-- An event that binds the next local to the datum of an assignment. -/
theorem Related.bindLocal (h : Related b start rest s p run) {a : Assignment Value} {d : Datum}
    {e : Event} {run' : Run} {current : Nat} {log : Log} (hmem : .assign a ∈ b.stmts)
    (hadm : a.ty.admits d = true) (hevent : p.event e = some (p'.bind (localName s.nextLocal) d))
    (henv : p'.env = p.env) (hchoices : p'.choices = rest')
    (hacc : p'.accesses = run'.accesses) (hstore : run'.store = run.store) :
    Related b start rest'
      ⟨s.events.push e, s.nextLocal + 1, current,
        s.bindings.insert a.id (.term (.var (localName s.nextLocal))), log⟩
      (p'.bind (localName s.nextLocal) d) (run'.bind a.id d) := by
  have hnew : p.env (localName s.nextLocal) = none := h.fresh _ (Nat.le_refl _)
  -- the environment only grows, as the name is new to it
  have hgrow : ∀ x c, p.env x = some c → (p'.bind (localName s.nextLocal) d).env x = some c := by
    intro x c hx
    show (if x = localName s.nextLocal then some d else p'.env x) = some c
    rw [if_neg, henv, hx]
    rintro rfl
    rw [hnew] at hx
    contradiction
  refine ⟨?_, hchoices, hacc, fun x c hx => hgrow x c (h.kept x c hx), ?_, ?_, ?_⟩
  · show start.events (s.events.push e).toList = _
    rw [Array.toList_push, Replay.events_append_singleton, h.replayed]
    exact hevent
  · intro k hk
    have hk : s.nextLocal < k := hk
    show (if localName k = localName s.nextLocal then some d else p'.env (localName k)) = none
    rw [if_neg, henv]
    · exact h.fresh k (Nat.le_of_lt hk)
    · intro heq
      have := localName_injective heq
      omega
  · intro id t ht
    have ht : (s.bindings.insert a.id (.term (.var (localName s.nextLocal)))).get? id
        = some (.term t) := ht
    rw [Dict.get?_insert] at ht
    rw [Run.store_bind]
    split at ht
    case isTrue hid =>
      cases ht
      refine ⟨d, by rw [if_pos hid.symm], ?_⟩
      show (if localName s.nextLocal = localName s.nextLocal then some d else _) = some d
      rw [if_pos rfl]
    case isFalse hid =>
      obtain ⟨c, hc, htc⟩ := h.bound id t ht
      refine ⟨c, ?_, Term.eval_mono hgrow t c htc⟩
      rw [if_neg fun hid' => hid hid'.symm, hstore, hc]
  · intro id c hc
    rw [Run.store_bind] at hc
    split at hc
    case isTrue hid =>
      cases hc
      exact ⟨a, hmem, hid, hadm⟩
    case isFalse => exact h.typed id c (hstore ▸ hc)

/-- An assignment that is bound to nothing that can be used. -/
theorem Related.bindNothing (h : Related b start rest s p run) {a : Assignment Value} {d : Datum}
    {log : Log} (hmem : .assign a ∈ b.stmts) (hadm : a.ty.admits d = true) :
    Related b start rest
      ⟨s.events, s.nextLocal, s.current, s.bindings.insert a.id .opaqueValue, log⟩ p
      (run.bind a.id d) := by
  refine ⟨h.replayed, h.choices, h.accesses, h.kept, h.fresh, ?_, ?_⟩
  · intro id t ht
    have ht : (s.bindings.insert a.id .opaqueValue).get? id = some (.term t) := ht
    rw [Dict.get?_insert] at ht
    rw [Run.store_bind]
    split at ht
    case isTrue => exact nomatch ht
    case isFalse hid =>
      obtain ⟨c, hc, htc⟩ := h.bound id t ht
      exact ⟨c, by rw [if_neg fun hid' => hid hid'.symm, hc], htc⟩
  · intro id c hc
    rw [Run.store_bind] at hc
    split at hc
    case isTrue hid =>
      cases hc
      exact ⟨a, hmem, hid, hadm⟩
    case isFalse => exact h.typed id c hc

theorem Related.pass (h : Related b start rest s p run) {e : Event} {run' : Run} {current : Nat}
    {log : Log} (hevent : p.event e = some p') (henv : p'.env = p.env)
    (hchoices : p'.choices = rest') (hacc : p'.accesses = run'.accesses)
    (hstore : run'.store = run.store) :
    Related b start rest' ⟨s.events.push e, s.nextLocal, current, s.bindings, log⟩ p' run' := by
  refine ⟨?_, hchoices, hacc, henv ▸ h.kept, henv ▸ h.fresh, ?_, hstore ▸ h.typed⟩
  · show start.events (s.events.push e).toList = _
    rw [Array.toList_push, Replay.events_append_singleton, h.replayed]
    exact hevent
  · rw [hstore, henv]
    exact h.bound

-- ============================================================ statements

/-- The term of an operation stands for what the operation gives. -/
theorem Related.app (h : Related b start rest s p run) (hregs : ctx.registers.Typed start.env)
    (hb : b.WellMade) (hrev : b.ScansForward) {a : Assignment Value} {f : App Value} {t : Term}
    (hmem : .assign a ∈ b.stmts) (hrhs : a.rhs = .app f)
    (hterm : appTerm (valueTerm ctx.registers s.bindings) f = .ok (some t))
    (htrap : f.eval (Value.eval (ctx.registers.data start.env) run.store) ≠ .error .trap) :
    ∃ d, f.eval (Value.eval (ctx.registers.data start.env) run.store) = .ok d
      ∧ t.eval p.env = some d ∧ a.ty.admits d = true := by
  obtain ⟨hhas, hlook⟩ := of_appTerm hterm
  obtain ⟨hcheck, hty⟩ := Assignment.of_make (hb.made a hmem)
  rw [hrhs] at hcheck hty
  -- the data of the operands, of which every one has a term
  obtain ⟨den, hden⟩ : ∃ den : Value → Datum, ∀ v, den v =
      match v.eval (ctx.registers.data start.env) run.store with
      | .ok d => d
      | .error _ => .tuple [] := ⟨_, fun _ => rfl⟩
  have hval : ∀ v ∈ f.operands,
      v.eval (ctx.registers.data start.env) run.store = .ok (den v)
        ∧ ∃ u, valueTerm ctx.registers s.bindings v = .ok u ∧ u.eval p.env = some (den v) := by
    intro v hv
    obtain ⟨u, hu⟩ := hlook v hv
    obtain ⟨d, hd, hue⟩ := h.value hregs hu
    have hdv : den v = d := by rw [hden, hd]
    exact ⟨by rw [hd, hdv], u, hu, by rw [hue, hdv]⟩
  have hadm : ∀ v ∈ f.operands, v.ty.admits (den v) = true := by
    intro v hv
    refine h.value_typed hregs ?_ (hval v hv).1
    rintro c a' rfl hc hid
    refine hb.consistent c a a' hc hmem ?_ hid
    rw [hrhs]
    exact hv
  have hev : f.eval (Value.eval (ctx.registers.data start.env) run.store)
      = f.eval fun v => .ok (den v) := App.eval_congr fun v hv => (hval v hv).1
  rw [hev] at htrap ⊢
  have hs := App.suits_of_typed (App.typed_of_check hcheck) hadm
  obtain ⟨r, hr, hrt⟩ := hs.eval (App.isFloat_of_hasTerm hhas) htrap
  refine ⟨r, hr, ?_, hrt a.ty hty⟩
  have hfit : f.encodingFits = true := by
    cases hf : f.encodingFits with
    | true => rfl
    | false =>
        rw [appTerm_of_not_fit hf hlook] at hterm
        contradiction
  have hlimit : Width.limit < valueCount magnitudeBits := by decide
  obtain ⟨u, hu, hue⟩ := appTerm_of_suits hs hhas hfit
    (fun w x hw => Nat.lt_trans (hb.widths a w x hmem (hrhs.trans (congrArg _ hw))) hlimit)
    (fun w x hw => hrev a w x hmem (hrhs.trans (congrArg _ hw)))
    (fun v hv => (hval v hv).2) hr
  rw [hterm] at hu
  cases hu
  exact hue

/-- The term of a shuffle stands for the shuffled bytes. -/
theorem Related.shuffle (h : Related b start rest s p run)
    (hregs : ctx.registers.Typed start.env) (hb : b.WellMade) {a : Assignment Value}
    {f : MachineFn Value} {t : Term} (hmem : .assign a ∈ b.stmts) (hrhs : a.rhs = .machine f)
    (hterm : machineFnTerm (valueTerm ctx.registers s.bindings) f = .ok (some t)) :
    ∃ d, run.assign (ctx.registers.data start.env) choice a = .ok (run.bind a.id d)
      ∧ t.eval p.env = some d ∧ a.ty.admits d = true := by
  obtain ⟨src, index, rfl⟩ : ∃ src index, f = .shuffleBytes 16 src index := by
    unfold machineFnTerm at hterm
    split at hterm
    case h_1 src index => exact ⟨src, index, rfl⟩
    case h_2 => exact nomatch Except.ok.inj hterm
  obtain ⟨u, hu, hterm⟩ := ok_of_bind hterm
  obtain ⟨v, hv, hterm⟩ := ok_of_bind hterm
  cases hterm
  obtain ⟨hsrc, hindex⟩ := hb.shuffles a src index hmem hrhs
  have hbits : ∀ x u, x ∈ a.rhs.operands → valueTerm ctx.registers s.bindings x = .ok u →
      x.ty.width? = some 128 →
      ∃ X, x.eval (ctx.registers.data start.env) run.store = .ok (.bits 128 X)
        ∧ u.eval p.env = some (.bits 128 X) := by
    intro x u hx hu hw
    obtain ⟨d, hd, hue⟩ := h.value hregs hu
    have hadm := h.value_typed hregs
      (fun c a' hax hc hid => hb.consistent c a a' hc hmem (hax ▸ hx) hid) hd
    obtain ⟨X, rfl⟩ := Ty.eq_bits_of_admits hadm (by rintro e; rw [e] at hw; contradiction) hw
    exact ⟨X, hd, hue⟩
  obtain ⟨X, hX, hXt⟩ := hbits src u (by simp [hrhs, Rhs.operands, MachineFn.operands]) hu hsrc
  obtain ⟨Y, hY, hYt⟩ := hbits index v (by simp [hrhs, Rhs.operands, MachineFn.operands]) hv hindex
  obtain ⟨-, hty⟩ := Assignment.of_make (hb.made a hmem)
  rw [hrhs] at hty
  have hty : Except.ok (.bits 128) = Except.ok a.ty := hty
  refine ⟨_, ?_, eval_shuffle128 hXt hYt, ?_⟩
  · simp only [Run.assign, hrhs, hX, hY, ok_bind, Datum.toBits_bits, pure_eq_ok]
  · rw [← Except.ok.inj hty]
    rfl

/-- What an assignment with a term computes is what the term stands for.
Nothing is chosen for it. -/
theorem Related.computed (h : Related b start rest s p run) (hregs : ctx.registers.Typed start.env)
    (hb : b.WellMade) (hrev : b.ScansForward) {a : Assignment Value} {t : Term}
    (hmem : .assign a ∈ b.stmts)
    (hterm : rhsTerm (valueTerm ctx.registers s.bindings) a.rhs = .ok (some t))
    (htrap : run.assign (ctx.registers.data start.env) choice a ≠ .error .trap) :
    ∃ d, run.assign (ctx.registers.data start.env) choice a = .ok (run.bind a.id d)
      ∧ t.eval p.env = some d ∧ a.ty.admits d = true ∧ (Stmt.assign a).chosen choice = [] := by
  cases hrhs : a.rhs with
  | app f =>
      rw [hrhs] at hterm
      have hassign : run.assign (ctx.registers.data start.env) choice a
          = (f.eval (Value.eval (ctx.registers.data start.env) run.store)).bind
            fun d => .ok (run.bind a.id d) := by
        rw [Run.assign, hrhs]
        rfl
      have hftrap : f.eval (Value.eval (ctx.registers.data start.env) run.store)
          ≠ .error .trap := by
        intro hf
        apply htrap
        rw [hassign, hf]
        rfl
      obtain ⟨d, hd, ht, hadm⟩ := h.app hregs hb hrev hmem hrhs hterm hftrap
      refine ⟨d, ?_, ht, hadm, by rw [Stmt.chosen, hrhs]⟩
      rw [hassign, hd]
      rfl
  | machine f =>
      rw [hrhs] at hterm
      obtain ⟨d, hd, ht, hadm⟩ := h.shuffle hregs hb hmem hrhs hterm
      exact ⟨d, hd, ht, hadm, by rw [Stmt.chosen, hrhs]⟩
  | undefined | read | readIf =>
      rw [hrhs] at hterm
      exact nomatch Except.ok.inj hterm

/-- The name of the next local, and the value chosen for it. -/
theorem Related.choose (h : Related b start rest s p run) {d : Datum} (hrest : rest = d :: rest') :
    p.choose = some (d, { p with choices := rest' }) := by
  rw [Replay.choose, h.choices, hrest]

/-- A statement that does not trap is executed as it is traced. -/
theorem Related.stmt {c : Stmt} (h : Related b start (c.chosen choice ++ rest) s p run)
    (hregs : ctx.registers.Typed start.env) (hb : b.WellMade) (hrev : b.ScansForward)
    (hchoice : choice.Admissible b) (hmem : c ∈ b.stmts) (htraced : Traced ctx s c s')
    (hwarn : ∀ what, Event.warning what ∉ s'.events.toList)
    (htrap : run.stmt (ctx.registers.data start.env) choice c ≠ .error .trap) :
    ∃ p' run', run.stmt (ctx.registers.data start.env) choice c = .ok run'
      ∧ Related b start rest s' p' run' := by
  cases htraced with
  | @defined a t sort log hterm hsort =>
      obtain ⟨d, hd, ht, hadm, hchosen⟩ := h.computed hregs hb hrev hmem hterm htrap
      rw [hchosen, List.nil_append] at h
      have hevent : p.event (.command (.define (localName s.nextLocal) [] sort t))
          = some (p.bind (localName s.nextLocal) d) := by
        simp only [Replay.event, ht, Option.bind_eq_bind, Option.bind_some,
          if_pos (sortOfDatum_of_admits hadm hsort)]
      exact ⟨_, _, hd, h.bindLocal hmem hadm hevent rfl h.choices h.accesses rfl⟩
  | @declared a t sort log hrhs hsort =>
      obtain ⟨-, hty⟩ := Assignment.of_make (hb.made a hmem)
      rw [hrhs] at hty
      have hty : t = a.ty := Except.ok.inj hty
      have hadm := hchoice a hmem (.inl ⟨t, hrhs⟩)
      have hchosen : (Stmt.assign a).chosen choice = [choice a.id] := by
        simp only [Stmt.chosen, hrhs, hty, hsort, Option.isSome_some, if_true]
      rw [hchosen] at h
      have hpick : p.choose = some (choice a.id, { p with choices := rest }) := h.choose rfl
      have hevent : p.event (.command (.declare (localName s.nextLocal) [] sort))
          = some (Replay.bind { p with choices := rest } (localName s.nextLocal)
            (choice a.id)) := by
        simp only [Replay.event, hpick, Option.bind_eq_bind, Option.bind_some,
          if_pos (sortOfDatum_of_admits hadm hsort)]
      refine ⟨_, run.bind a.id (choice a.id), ?_,
        h.bindLocal hmem hadm hevent rfl rfl h.accesses rfl⟩
      rw [Run.stmt, Run.assign, hrhs]
      rfl
  | @sortless a t log hrhs hsort =>
      obtain ⟨-, hty⟩ := Assignment.of_make (hb.made a hmem)
      rw [hrhs] at hty
      have hty : t = a.ty := Except.ok.inj hty
      have hchosen : (Stmt.assign a).chosen choice = [] := by
        simp only [Stmt.chosen, hrhs, hty, hsort, Option.isSome_none, Bool.false_eq_true, if_false]
      rw [hchosen, List.nil_append] at h
      refine ⟨p, run.bind a.id (choice a.id), ?_,
        h.bindNothing hmem (hchoice a hmem (.inl ⟨t, hrhs⟩))⟩
      rw [Run.stmt, Run.assign, hrhs]
      rfl
  | @read a addr layout t kind log hrhs haddr =>
      obtain ⟨x, hx, hxt⟩ := h.value hregs haddr
      obtain ⟨-, hty⟩ := Assignment.of_make (hb.made a hmem)
      rw [hrhs] at hty
      have hadm := hchoice a hmem (.inr ⟨addr, layout, hrhs⟩)
      have hlayout : layout.ty.admits (choice a.id) = true := by
        rw [← (ok_of_inRange hty).2]
        exact hadm
      have hchosen : (Stmt.assign a).chosen choice = [choice a.id] := by rw [Stmt.chosen, hrhs]
      rw [hchosen] at h
      have hpick : p.choose = some (choice a.id, { p with choices := rest }) := h.choose rfl
      have hevent : p.event (.read t layout (localName s.nextLocal) kind)
          = some (((Replay.mk p.env rest p.accesses).record (.read x layout (choice a.id))).bind
            (localName s.nextLocal) (choice a.id)) := by
        simp only [Replay.event, hxt, hpick, Option.bind_eq_bind, Option.bind_some,
          if_pos hlayout]
      refine ⟨_, (run.record (.read x layout (choice a.id))).bind a.id (choice a.id), ?_,
        h.bindLocal hmem hadm hevent rfl rfl ?_ rfl⟩
      · rw [Run.stmt, Run.assign, hrhs]
        show (addr.eval _ run.store).bind _ = _
        rw [hx]
        rfl
      · show p.accesses ++ [_] = run.accesses ++ [_]
        rw [h.accesses]
  | @write addr value layout t u kind log haddr hvalue =>
      obtain ⟨x, hx, hxt⟩ := h.value hregs haddr
      obtain ⟨y, hy, hyt⟩ := h.value hregs hvalue
      have hevent : p.event (.write t layout u kind) = some (p.record (.write x layout y)) := by
        simp only [Replay.event, hxt, hyt, Option.bind_eq_bind, Option.bind_some]
      refine ⟨_, run.record (.write x layout y), ?_, h.pass hevent rfl h.choices ?_ rfl⟩
      · simp only [Run.stmt, hx, hy, ok_bind, pure_eq_ok]
      · show p.accesses ++ [_] = run.accesses ++ [_]
        rw [h.accesses]
  | comment => exact ⟨p, run, rfl, h⟩
  | instruction => exact ⟨p, run, rfl, h.pass rfl rfl h.choices h.accesses rfl⟩
  | @approximated a what | @unrepresented a what | @passedOver what =>
      exact absurd (by simp) (hwarn what)

/-- The events before some statements stay. -/
theorem grows_of_stmts {cs : List Stmt} {u : Unit}
    (h : Succeeds (cs.forM (Trace.stmt ctx)) s u s') :
    ∃ new, s'.events.toList = s.events.toList ++ new := by
  refine invariant_of_stmts (P := fun s' => ∃ new, s'.events.toList = s.events.toList ++ new)
    ?_ h ⟨[], (List.append_nil _).symm⟩
  rintro c - s₁ s₂ ⟨new, hnew⟩ htraced
  obtain ⟨new', hnew'⟩ := htraced.grows
  exact ⟨new ++ new', by rw [hnew', hnew, List.append_assoc]⟩

/-- Statements that do not trap are executed as they are traced. -/
theorem Related.stmts {cs : List Stmt} {u : Unit}
    (h : Related b start (cs.flatMap (Stmt.chosen choice) ++ rest) s p run)
    (hregs : ctx.registers.Typed start.env) (hb : b.WellMade) (hrev : b.ScansForward)
    (hchoice : choice.Admissible b) (hmem : ∀ c ∈ cs, c ∈ b.stmts)
    (hrun : Succeeds (cs.forM (Trace.stmt ctx)) s u s')
    (hwarn : ∀ what, Event.warning what ∉ s'.events.toList)
    (htrap : run.stmts (ctx.registers.data start.env) choice cs ≠ .error .trap) :
    ∃ p' run', run.stmts (ctx.registers.data start.env) choice cs = .ok run'
      ∧ Related b start rest s' p' run' := by
  induction cs generalizing s p run with
  | nil =>
      obtain ⟨-, rfl⟩ := succeeds_pure hrun
      exact ⟨p, run, rfl, h⟩
  | cons c cs ih =>
      obtain ⟨_, s₁, hc, hcs⟩ := succeeds_bind hrun
      obtain ⟨new, hnew⟩ := grows_of_stmts hcs
      have hwarn₁ : ∀ what, Event.warning what ∉ s₁.events.toList := by
        intro what hw
        apply hwarn what
        rw [hnew]
        exact List.mem_append_left _ hw
      rw [List.flatMap_cons, List.append_assoc] at h
      have htrap₁ : run.stmt (ctx.registers.data start.env) choice c ≠ .error .trap := by
        intro hs
        apply htrap
        rw [Run.stmts, hs]
        rfl
      obtain ⟨p₁, run₁, hexec, h₁⟩ := h.stmt hregs hb hrev hchoice (hmem c List.mem_cons_self)
        (traced_of_succeeds hc) hwarn₁ htrap₁
      rw [Run.stmts, hexec] at htrap ⊢
      exact ih h₁ (fun d hd => hmem d (List.mem_cons_of_mem c hd)) hcs htrap

end

-- ========================================================== the refinement

/-- The events of a block refine its execution. Where the trace of a block has
no warnings, the variables of the register terms are none of the locals to
come, and the execution does not trap, the block executes, its events can be
replayed with the same choices, every register handed on stands for the datum
that the execution gives it, and the accesses are the same in the same order. -/
theorem block_refines {ctx : Context} {n : Nat} {b : MachineBlock} {trace : BlockTrace}
    {log log' : Log} {ρ : Env} {choice : Choice}
    (hrun : Succeeds (block ctx n b) log trace log')
    (hwarn : ∀ what, Event.warning what ∉ trace.events)
    (hb : b.WellMade) (hrev : b.ScansForward) (hregs : ctx.registers.Typed ρ)
    (hfresh : ∀ k, n ≤ k → ρ (localName k) = none) (hchoice : choice.Admissible b)
    (htrap : Run.start.stmts (ctx.registers.data ρ) choice b.stmts ≠ .error .trap) :
    ∃ run p values terms before,
      Run.start.stmts (ctx.registers.data ρ) choice b.stmts = .ok run
      ∧ Replay.events ⟨ρ, b.stmts.flatMap (Stmt.chosen choice), []⟩ trace.events = some p
      ∧ b.ending = .fetch values ∧ trace.events = before ++ [.fetch terms]
      ∧ (∀ r v, values.get? r = some v → ∃ t d, terms.get? r = some t
        ∧ t.eval p.env = some d ∧ v.eval (ctx.registers.data ρ) run.store = .ok d)
      ∧ (∀ r, values.get? r = none → terms.get? r = none)
      ∧ p.accesses = run.accesses ∧ p.choices = [] := by
  obtain ⟨start, s, values, terms, hevents, hnext, hbindings, hstmts, hend, hterms, htrace⟩ :=
    of_block hrun
  have hinit : Related b ⟨ρ, b.stmts.flatMap (Stmt.chosen choice), []⟩
      (b.stmts.flatMap (Stmt.chosen choice) ++ []) start
      ⟨ρ, b.stmts.flatMap (Stmt.chosen choice), []⟩ Run.start := by
    refine ⟨?_, (List.append_nil _).symm, rfl, fun _ _ h => h, hnext ▸ hfresh, ?_, ?_⟩
    · rw [hevents]
      rfl
    · intro id t ht
      rw [hbindings] at ht
      contradiction
    · intro id d hd
      contradiction
  have hwarn' : ∀ what, Event.warning what ∉ s.events.toList := by
    intro what hw
    apply hwarn what
    rw [htrace]
    exact List.mem_append_left _ hw
  obtain ⟨p, run, hexec, h⟩ := hinit.stmts hregs hb hrev hchoice (fun _ hc => hc) hstmts hwarn'
    htrap
  obtain ⟨-, hin, hout⟩ := succeeds_registerTerms values.sorted hterms
  refine ⟨run, p, values, terms, s.events.toList, hexec, ?_, hend, htrace, ?_, ?_, h.accesses,
    h.choices⟩
  · rw [htrace, Replay.events_append_singleton, h.replayed]
    rfl
  · intro r v hv
    obtain ⟨t, ht, htv⟩ := hin r v ((Dict.get?_eq_some_iff values r v).1 hv)
    obtain ⟨d, hd, hdt⟩ := h.value hregs htv
    exact ⟨t, d, ht, hdt, hd⟩
  · intro r hr
    refine hout r fun v hv => ?_
    rw [(Dict.get?_eq_some_iff values r v).2 hv] at hr
    contradiction

-- =========================================================== an example

/-- The number in memory at the address in a register. -/
def addend : Assignment Value := ⟨0, .read (.initial (.gp 1)) (.bits 8 .little), .bits 64⟩

/-- A flag that is left open. -/
def openFlag : Assignment Value := ⟨1, .undefined .bool, .bool⟩

/-- The sum of another register and the number. -/
def total : Assignment Value :=
  ⟨2, .app (.binary .add 64 (.initial (.gp 0)) (.assigned addend)), .bits 64⟩

/-- A block that adds a register to a number in memory, writes the sum back, hands
it on in the register, and leaves a flag open. -/
def accumulateBlock : MachineBlock :=
  ⟨4096, 4, [.assign addend, .assign openFlag, .assign total,
      .write (.initial (.gp 1)) (.bits 8 .little) (.assigned total)],
    .fetch (Dict.ofList [(.gp 0, .assigned total), (.flag .adjust, .assigned openFlag)])⟩

/-- The registers hold the first two locals, and the block accesses the heap. -/
def accumulateContext : Context :=
  ⟨Dict.ofList [(.gp 0, .var (localName 0)), (.gp 1, .var (localName 1))], 4096,
    Dict.ofList [(4096, .heap)]⟩

/-- The first local stands for seven and the second for an address. -/
def sevenAndAddress : Env := fun x =>
  if x = localName 0 then some (.bits 64 7#64)
  else if x = localName 1 then some (.bits 64 8192#64) else none

/-- Memory holds five, and the open flag is set. -/
def fiveAndSet : Choice := fun id => if id = 0 then .bits 64 5#64 else .bool true

/-- The block has three assignments. -/
theorem mem_accumulate {a : Assignment Value} (h : .assign a ∈ accumulateBlock.stmts) :
    a = addend ∨ a = openFlag ∨ a = total := by
  simpa [accumulateBlock] using h

/-- Each assignment is made with its check, and the sum reads the addend. -/
theorem wellMade_accumulate : accumulateBlock.WellMade where
  made a ha := by
    obtain rfl | rfl | rfl := mem_accumulate ha <;> rfl
  consistent a c a' ha hc h hid := by
    obtain rfl | rfl | rfl := mem_accumulate hc
    · simp [addend, Rhs.operands] at h
    · simp [openFlag, Rhs.operands] at h
    · obtain rfl : a' = addend := by simpa [total, Rhs.operands, App.operands] using h
      obtain rfl | rfl | rfl := mem_accumulate ha
      · rfl
      · contradiction
      · contradiction
  widths a w x ha h := by
    obtain rfl | rfl | rfl := mem_accumulate ha <;> simp [addend, openFlag, total] at h
  shuffles a x y ha h := by
    obtain rfl | rfl | rfl := mem_accumulate ha <;> simp [addend, openFlag, total] at h

/-- No assignment looks for a bit. -/
theorem scansForward_accumulate : accumulateBlock.ScansForward := by
  intro a w x ha h
  obtain rfl | rfl | rfl := mem_accumulate ha <;> simp [addend, openFlag, total] at h

/-- A number is read, and the flag is a truth value. -/
theorem admissible_accumulate : fiveAndSet.Admissible accumulateBlock := by
  intro a ha h
  obtain rfl | rfl | rfl := mem_accumulate ha
  · rfl
  · rfl
  · simp [total] at h

/-- The registers stand for numbers of their width. -/
theorem typed_accumulate : accumulateContext.registers.Typed sevenAndAddress := by
  intro r t ht
  have ht : (r, t) ∈ [(.gp 0, .var (localName 0)), (.gp 1, .var (localName 1))] :=
    (Dict.get?_eq_some_iff _ _ _).1 ht
  simp only [List.mem_cons, Prod.mk.injEq, List.not_mem_nil, or_false] at ht
  obtain ⟨rfl, rfl⟩ | ⟨rfl, rfl⟩ := ht
  · exact ⟨.bits 64 7#64, rfl, rfl⟩
  · exact ⟨.bits 64 8192#64, rfl, rfl⟩

/-- The locals from the third on are new. -/
theorem fresh_accumulate (k : Nat) (hk : 2 ≤ k) : sevenAndAddress (localName k) = none := by
  have h0 : localName k ≠ localName 0 := fun h => by
    have := localName_injective h
    omega
  have h1 : localName k ≠ localName 1 := fun h => by
    have := localName_injective h
    omega
  rw [sevenAndAddress, if_neg h0, if_neg h1]

/-- With its locals numbered from the third, the block reads five, writes twelve in
its place, and hands on twelve and the flag that was chosen. -/
theorem block_refines_accumulate :
    ∃ trace log p terms before t u,
      Succeeds (block accumulateContext 2 accumulateBlock) #[] trace log
      ∧ Replay.events ⟨sevenAndAddress, [.bits 64 5#64, .bool true], []⟩ trace.events = some p
      ∧ trace.events = before ++ [.fetch terms]
      ∧ terms.get? (.gp 0) = some t ∧ t.eval p.env = some (.bits 64 12#64)
      ∧ terms.get? (.flag .adjust) = some u ∧ u.eval p.env = some (.bool true)
      ∧ p.accesses = [.read (.bits 64 8192#64) (.bits 8 .little) (.bits 64 5#64),
        .write (.bits 64 8192#64) (.bits 8 .little) (.bits 64 12#64)]
      ∧ p.choices = [] := by
  obtain ⟨run, p, values, terms, before, hexec, hreplay, hend, htrace, hin, -, hacc, hchoices⟩ :=
    @block_refines accumulateContext 2 accumulateBlock
      ⟨[.read (.var (localName 1)) (.bits 8 .little) (localName 2) .heap,
        .command (.declare (localName 3) [] .bool),
        .command (.define (localName 4) [] (.bits 64)
          (.binary "bvadd" (.var (localName 0)) (.var (localName 2)))),
        .write (.var (localName 1)) (.bits 8 .little) (.var (localName 4)) .heap,
        .fetch (Dict.ofList [(.gp 0, .var (localName 4)),
          (.flag .adjust, .var (localName 3))])], 5, 4⟩
      #[] _ sevenAndAddress fiveAndSet rfl (by simp) wellMade_accumulate
      scansForward_accumulate typed_accumulate fresh_accumulate admissible_accumulate nofun
  cases hend
  cases hexec
  obtain ⟨t, d, ht, htd, hd⟩ := hin (.gp 0) (.assigned total) rfl
  obtain ⟨u, e, hu, hue, he⟩ := hin (.flag .adjust) (.assigned openFlag) rfl
  cases hd
  cases he
  exact ⟨_, _, p, terms, before, t, u, rfl, hreplay, htrace, ht, htd, hu, hue, hacc, hchoices⟩

-- ========================================================== a capture

/-- The sum of a register and one. -/
def increment : Assignment Value :=
  ⟨0, .app (.binary .add 64 (.initial (.gp 0)) (.bits (.word 1#64))), .bits 64⟩

/-- A block that hands on a register, and in another the sum of it and one. -/
def incrementBlock : MachineBlock :=
  ⟨4096, 4, [.assign increment],
    .fetch (Dict.ofList [(.gp 0, .initial (.gp 0)), (.gp 3, .assigned increment)])⟩

/-- A register that holds the first local. -/
def incrementContext : Context := ⟨Dict.ofList [(.gp 0, .var (localName 0))], 4096, ∅⟩

/-- The first local stands for seven. -/
def firstIsSeven : Env := fun x => if x = localName 0 then some (.bits 64 7#64) else none

/-- The one assignment is made with its check, and reads no other. -/
theorem wellMade_increment : incrementBlock.WellMade where
  made a ha := by
    obtain rfl : a = increment := by simpa [incrementBlock] using ha
    rfl
  consistent a c a' ha hc h _ := by
    obtain rfl : c = increment := by simpa [incrementBlock] using hc
    simp [increment, Rhs.operands, App.operands] at h
  widths a w x ha h := by
    obtain rfl : a = increment := by simpa [incrementBlock] using ha
    simp [increment] at h
  shuffles a x y ha h := by
    obtain rfl : a = increment := by simpa [incrementBlock] using ha
    simp [increment] at h

/-- The one assignment does not look for a bit. -/
theorem scansForward_increment : incrementBlock.ScansForward := by
  intro a w x ha h
  obtain rfl : a = increment := by simpa [incrementBlock] using ha
  simp [increment] at h

/-- Nothing is chosen in the block. -/
theorem admissible_increment (choice : Choice) : choice.Admissible incrementBlock := by
  intro a ha h
  obtain rfl : a = increment := by simpa [incrementBlock] using ha
  simp [increment] at h

/-- The register stands for a number of its width. -/
theorem typed_increment : incrementContext.registers.Typed firstIsSeven := by
  intro r t ht
  have ht : (r, t) ∈ [(.gp 0, .var (localName 0))] := (Dict.get?_eq_some_iff _ _ _).1 ht
  have hrt : (r, t) = (.gp 0, .var (localName 0)) := List.mem_singleton.1 ht
  obtain ⟨rfl, rfl⟩ := Prod.mk.inj hrt
  exact ⟨.bits 64 7#64, rfl, rfl⟩

/-- With its locals numbered from the first, the block captures the variable of
its register: the register is handed on as the term that stood for seven, and
stands for eight after the replay. -/
theorem block_captures :
    ∃ trace log run p terms before t,
      Succeeds (block incrementContext 0 incrementBlock) #[] trace log
      ∧ (∀ what, Event.warning what ∉ trace.events)
      ∧ incrementBlock.WellMade ∧ incrementBlock.ScansForward
      ∧ incrementContext.registers.Typed firstIsSeven
      ∧ Choice.Admissible (fun _ => .tuple []) incrementBlock
      ∧ Run.start.stmts (incrementContext.registers.data firstIsSeven) (fun _ => .tuple [])
        incrementBlock.stmts = .ok run
      ∧ Replay.events ⟨firstIsSeven, [], []⟩ trace.events = some p
      ∧ trace.events = before ++ [.fetch terms] ∧ terms.get? (.gp 0) = some t
      ∧ t.eval p.env = some (.bits 64 8#64)
      ∧ (Value.initial (.gp 0)).eval (incrementContext.registers.data firstIsSeven) run.store
        = .ok (.bits 64 7#64) :=
  ⟨⟨[.command (.define (localName 0) [] (.bits 64)
        (.binary "bvadd" (.var (localName 0)) (.bits 64 1))),
      .fetch (Dict.ofList [(.gp 0, .var (localName 0)), (.gp 3, .var (localName 0))])], 1, 4⟩,
    _, _, _, _, [_], _, rfl, by simp, wellMade_increment, scansForward_increment,
    typed_increment, admissible_increment _, rfl, rfl, rfl, rfl, rfl, rfl⟩

end Trace

end LiftedCode
