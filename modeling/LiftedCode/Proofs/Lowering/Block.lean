/-
The lowering of a block simulates it. While a block is lowered, `Tracks` ties
what the lowering has produced so far to the execution of the block: the
instructions can be executed, and what an identifier is bound to stands for its
datum in the store. Every stage of the lowering keeps it (`Tracks.phis`,
`Tracks.stmts`, `Tracks.exits`).
-/
import LiftedCode.Proofs.Lowering.Demand
import LiftedCode.Proofs.Routine.Execution

namespace LiftedCode

-- =============================================== what is promised of a block

/-- Whether a statement is the assignment of an operation that lowers exactly,
or does nothing. -/
def Stmt.IsPlain : Stmt → Prop
  | assign a => ∃ f, a.rhs = .app f ∧ f.isSpecial = false
  | comment _ | instruction _ _ => True
  | _ => False

/-- The identifier and the type of what a block binds. -/
def Value.name? : Value → Option (Ident × Ty)
  | assigned a => some (a.id, a.ty)
  | phi v | returned v => some (v.id, v.ty)
  | _ => none

namespace RoutineBlock

/-- The values that the block reads. -/
def reads (b : RoutineBlock) : List Value :=
  b.stmts.flatMap Stmt.operands ++ b.transfer.operands
    ++ b.exits.values.filterMap fun
      | .value v => some v
      | .calleeSaved _ => none

section

variable {b : RoutineBlock} {v : Value}

/-- What a statement reads, its block reads. -/
theorem mem_reads_of_stmt {st : Stmt} (hst : st ∈ b.stmts) (hv : v ∈ st.operands) : v ∈ b.reads :=
  List.mem_append_left _ (List.mem_append_left _ (List.mem_flatMap.2 ⟨st, hst, hv⟩))

theorem mem_reads_of_transfer (hv : v ∈ b.transfer.operands) : v ∈ b.reads :=
  List.mem_append_left _ (List.mem_append_right _ hv)

theorem mem_reads_of_exit {r : Register} (hv : b.exits.get? r = some (.value v)) : v ∈ b.reads := by
  refine List.mem_append_right _ (List.mem_filterMap.2 ⟨.value v, ?_, rfl⟩)
  exact List.mem_map.2 ⟨_, (Dict.get?_eq_some_iff _ _ _).1 hv, rfl⟩

end

/-- The identifiers that the block binds by itself, with their types. -/
def bindings (b : RoutineBlock) : List (Ident × Ty) :=
  b.phis.map (fun p => (p.var.id, p.var.ty)) ++ b.stmts.filterMap fun
    | .assign a => some (a.id, a.ty)
    | _ => none

/-- What is promised of a block: its statements are plain, every assignment was
made with its check, and an identifier has one type. -/
structure WellMade (b : RoutineBlock) : Prop where
  plain : ∀ c ∈ b.stmts, c.IsPlain
  made : ∀ a, .assign a ∈ b.stmts → Assignment.make a.id a.rhs = .ok a
  consistent : ∀ v ∈ b.reads, ∀ e ∈ v.name?, ∀ e' ∈ b.bindings, e'.1 = e.1 → e'.2 = e.2

end RoutineBlock

namespace Lowering

open Llvm (Typed Local Instr Op Data Frame Linkage)

-- ============================================================ the relation

section

variable (link : Linkage) (args : List Datum)

/-- What a routine is run on, where functions are as the linkage says. -/
def inputs : Inputs := ⟨args, link.address⟩

/-- What the lowering of a block under way and the execution of the block have
in common, when the locals were `ρ₀` at the start. -/
structure Tracks (b : RoutineBlock) (ρ₀ : Frame) (s : State) (σ : Store) (ρ : Frame) : Prop where
  ran : Llvm.run link ρ₀ s.instrs.toList = some ρ
  args : ∀ i d, args[i]? = some d → ρ (.arg i) = some (.ofDatum d)
  bound : ∀ id x, s.values.get? id = some x → ∃ t d, (id, t) ∈ b.bindings ∧ σ id = some d
    ∧ t.admits d = true ∧ Stands link s ρ x (.ofTy t) (.ofDatum d)

/-- What the operand handed out for a register has to do with the register. -/
def ExitStands (exits : Dict Register ExitValue) (s : State) (σ : Store) (ρ : Frame) (r : Register)
    (e : Ty × Typed) : Prop :=
  ∃ v d, exits.get? r = some (.value v) ∧ e.1 = v.ty ∧ (inputs link args).value σ v = .ok d
    ∧ v.ty.admits d = true ∧ Stands link s ρ e.2 (.ofTy v.ty) (.ofDatum d)

end

variable {link : Linkage} {args : List Datum} {env : Env} {b : RoutineBlock}
  {ρ₀ ρ ρ' : Frame} {s s₁ s' : State} {σ : Store}

/-- Everything may be asked for, and anything may be too wide: what is known
here is that the lowering succeeds. -/
abbrev After (link : Linkage) (s : State) (ρ : Frame) (s' : State) (ρ' : Frame) : Prop :=
  Follows link (fun _ => True) s ρ s' ρ'

/-- Nothing is lost on the way to a state that follows. -/
theorem Tracks.follows (h : Tracks link args b ρ₀ s σ ρ) (hf : After link s ρ s' ρ') :
    Tracks link args b ρ₀ s' σ ρ' where
  ran := by
    obtain ⟨is, his, hrun⟩ := hf.ran
    rw [his, Llvm.run_append h.ran, hrun]
  args i d hd := by
    have hkept : ρ' (.arg i) = ρ (.arg i) := hf.kept (.arg i) nofun
    rw [hkept]
    exact h.args i d hd
  bound id x hx := by
    rw [hf.values] at hx
    obtain ⟨t, d, hmem, hd, hadm, hs⟩ := h.bound id x hx
    exact ⟨t, d, hmem, hd, hadm, hs.mono hf⟩

/-- A value that there is an operand for has a datum of its type, and the
operand stands for it. -/
theorem Tracks.value (h : Tracks link args b ρ₀ s σ ρ) (hb : b.WellMade)
    (hargs : Ty.admitsEach env.args args = true) {v : Value} (hv : v ∈ b.reads)
    (ha : Available env s.values v) :
    ∃ d, (inputs link args).value σ v = .ok d ∧ v.ty.admits d = true
      ∧ Known link env s ρ v (.ofDatum d) := by
  cases v with
  | bits l => exact ⟨_, rfl, Ty.admits_bits _ (by simp [Value.ty]) rfl, rfl⟩
  | bool p => exact ⟨_, rfl, rfl, rfl⟩
  | assigned a =>
      obtain ⟨x, hx⟩ := ha
      obtain ⟨t, d, hmem, hd, hadm, hs⟩ := h.bound a.id x hx
      obtain rfl : t = a.ty := hb.consistent _ hv _ rfl _ hmem rfl
      exact ⟨d, by rw [Inputs.value, hd], hadm, x, hx, hs⟩
  | phi u | returned u =>
      obtain ⟨x, hx⟩ := ha
      obtain ⟨t, d, hmem, hd, hadm, hs⟩ := h.bound u.id x hx
      obtain rfl : t = u.ty := hb.consistent _ hv _ rfl _ hmem rfl
      exact ⟨d, by rw [Inputs.value, hd], hadm, x, hx, hs⟩
  | initial => exact ha.elim
  | arg i t =>
      obtain ⟨d, hd, hadm⟩ := Ty.field_of_admitsEach hargs ha
      exact ⟨d, by rw [Inputs.value, inputs, hd], hadm, ha, h.args i d hd⟩
  | entry f => exact ⟨_, rfl, rfl, rfl⟩

/-- Values that there are operands for have data. -/
theorem Tracks.data (h : Tracks link args b ρ₀ s σ ρ) (hb : b.WellMade)
    (hargs : Ty.admitsEach env.args args = true) {vs : List Value} (hvs : ∀ v ∈ vs, v ∈ b.reads)
    (ha : ∀ v ∈ vs, Available env s.values v) :
    ∃ den : Value → Datum, ∀ v ∈ vs, (inputs link args).value σ v = .ok (den v)
      ∧ v.ty.admits (den v) = true ∧ Known link env s ρ v (.ofDatum (den v)) := by
  have hex : ∀ v, ∃ d, v ∈ vs → (inputs link args).value σ v = .ok d
      ∧ v.ty.admits d = true ∧ Known link env s ρ v (.ofDatum d) := by
    intro v
    by_cases hv : v ∈ vs
    · obtain ⟨d, hd⟩ := h.value hb hargs (hvs v hv) (ha v hv)
      exact ⟨d, fun _ => hd⟩
    · exact ⟨.tuple [], fun hv' => absurd hv' hv⟩
  exact ⟨fun v => Classical.choose (hex v), fun v => Classical.choose_spec (hex v)⟩

/-- A value that has an operand has a datum, which the operand stands for. -/
theorem Tracks.succeeds_value (h : Tracks link args b ρ₀ s σ ρ) (hb : b.WellMade)
    (hargs : Ty.admitsEach env.args args = true) {v : Value} {x : Typed} (hv : v ∈ b.reads)
    (hrun : Succeeds (Lowering.value env v) s x s') :
    ∃ d ρ', After link s ρ s' ρ' ∧ (inputs link args).value σ v = .ok d ∧ v.ty.admits d = true
      ∧ Stands link s' ρ' x (.ofTy v.ty) (.ofDatum d) := by
  have ha := (demands_value v s x s' hrun).2.available v (List.mem_singleton.2 rfl)
  obtain ⟨d, hd, hadm, hknown⟩ := h.value hb hargs hv ha
  have hg : Gives link (fun _ => True) True (Lowering.value env v) s ρ (.ofTy v.ty) (.ofDatum d) :=
    gives_value hknown fun _ _ => trivial
  obtain ⟨ρ', hf, hs⟩ := hg.of_succeeds hrun
  exact ⟨d, ρ', hf, hd, hadm, hs⟩

-- ================================================================ binding

/-- A binding that succeeds is new. -/
theorem succeeds_bindIdent {id : Ident} {x : Typed} {u : Unit}
    (h : Succeeds (Step.bind id x) s u s') :
    s' = { s with values := s.values.insert id x } := by
  obtain ⟨r, s₁, hget, h⟩ := succeeds_bind h
  obtain ⟨rfl, rfl⟩ := succeeds_get hget
  obtain ⟨_, s₂, hmod, h⟩ := succeeds_bind h
  have h₂ := succeeds_modify hmod
  split at h
  case isTrue => exact absurd h not_succeeds_throw
  case isFalse =>
    obtain ⟨-, rfl⟩ := succeeds_pure h
    exact h₂

/-- An identifier is bound to an operand that stands for its datum. -/
theorem Tracks.bind (h : Tracks link args b ρ₀ s σ ρ) {σ' : Store} {id : Ident} {t : Ty}
    {d : Datum} {x : Typed} (hmem : (id, t) ∈ b.bindings) (hadm : t.admits d = true)
    (hx : Stands link s ρ x (.ofTy t) (.ofDatum d)) (hd : σ' id = some d)
    (hσ : ∀ i, i ≠ id → σ' i = σ i) :
    Tracks link args b ρ₀ { s with values := s.values.insert id x } σ' ρ := by
  refine ⟨h.ran, h.args, ?_⟩
  intro i y hy
  have hy : (s.values.insert id x).get? i = some y := hy
  rw [Dict.get?_insert] at hy
  split at hy
  case isTrue hi =>
    cases hy
    subst hi
    exact ⟨t, d, hmem, hd, hadm, hx.ty, hx.eval, hx.old⟩
  case isFalse hi =>
    obtain ⟨u, e, hu, he, hadme, hs⟩ := h.bound i y hy
    refine ⟨u, e, hu, ?_, hadme, hs.ty, hs.eval, hs.old⟩
    rw [hσ i fun h => hi h.symm, he]

-- ============================================================= statements

/-- Phi variables are bound to their own locals. -/
theorem Tracks.phis {ps : List PhiBinding} {u : Unit} (h : Tracks link args b ρ₀ s σ ρ)
    (hmem : ∀ p ∈ ps, p ∈ b.phis)
    (hphis : ∀ p ∈ ps, ∃ d, σ p.var.id = some d ∧ p.var.ty.admits d = true
      ∧ ρ (.var p.var.id) = some (.ofDatum d))
    (hrun : Succeeds (bindPhis ps) s u s') :
    Tracks link args b ρ₀ s' σ ρ ∧ s'.instrs = s.instrs
      ∧ ∀ id, (∃ x, s.values.get? id = some x) ∨ id ∈ ps.map (·.var.id) →
        ∃ x, s'.values.get? id = some x := by
  induction ps generalizing s with
  | nil =>
      obtain ⟨-, rfl⟩ := succeeds_pure hrun
      refine ⟨h, rfl, ?_⟩
      intro id hid
      rcases hid with hid | hid
      · exact hid
      · exact absurd hid List.not_mem_nil
  | cons p ps ih =>
      obtain ⟨_, s₁, hbind, hrest⟩ := succeeds_bind hrun
      obtain rfl := succeeds_bindIdent hbind
      obtain ⟨d, hd, hadm, hρ⟩ := hphis p List.mem_cons_self
      have hp : (p.var.id, p.var.ty) ∈ b.bindings :=
        List.mem_append_left _ (List.mem_map.2 ⟨p, hmem p List.mem_cons_self, rfl⟩)
      have hx : Stands link s ρ ⟨.ofTy p.var.ty, .reg (.var p.var.id)⟩ (.ofTy p.var.ty)
          (.ofDatum d) := ⟨rfl, hρ, nofun⟩
      have h₁ := h.bind hp hadm hx hd fun _ _ => rfl
      obtain ⟨h', hinstrs, hbound⟩ := ih h₁ (fun q hq => hmem q (List.mem_cons_of_mem p hq))
        (fun q hq => hphis q (List.mem_cons_of_mem p hq)) hrest
      refine ⟨h', hinstrs, ?_⟩
      intro id hid
      apply hbound
      by_cases hpid : p.var.id = id
      · subst hpid
        exact .inl ⟨_, Dict.get?_insert_self _ _ _⟩
      · rcases hid with ⟨x, hx⟩ | hid
        · exact .inl ⟨x, (Dict.get?_insert_of_ne hpid).trans hx⟩
        · rcases List.mem_cons.1 hid with rfl | hid
          · exact absurd rfl hpid
          · exact .inr hid

/-- An assignment that is lowered can be executed, and both sides bind the same. -/
theorem Tracks.assignment (h : Tracks link args b ρ₀ s σ ρ) (hb : b.WellMade)
    (hargs : Ty.admitsEach env.args args = true)
    (hundef : env.target.options.allowUndefined = false) {a : Assignment Value} {u : Unit}
    (hmem : .assign a ∈ b.stmts) (hrun : Succeeds (assignment env a) s u s') :
    ∃ σ' ρ' x, (inputs link args).stmt σ (.assign a) = .ok σ' ∧ Tracks link args b ρ₀ s' σ' ρ'
      ∧ s'.values = s.values.insert a.id x := by
  obtain ⟨f, hrhs, hspecial⟩ := hb.plain _ hmem
  obtain ⟨hcheck, hty⟩ := Assignment.of_make (hb.made a hmem)
  rw [hrhs] at hcheck hty
  unfold Lowering.assignment at hrun
  rw [hrhs] at hrun
  obtain ⟨x, s₁, happ, hbind⟩ := succeeds_bind hrun
  obtain rfl := succeeds_bindIdent hbind
  have hreads : ∀ v ∈ f.operands, v ∈ b.reads := by
    intro v hv
    refine RoutineBlock.mem_reads_of_stmt hmem ?_
    rw [Stmt.operands, hrhs]
    exact hv
  -- every operand is available, since the operation was lowered, and so it has a datum
  obtain ⟨den, hval⟩ := h.data hb hargs hreads (demands_app _ s x s₁ happ).2.available
  have hev : f.eval ((inputs link args).value σ) = f.eval fun v => .ok (den v) :=
    App.eval_congr fun v hv => (hval v hv).1
  have ht := App.typed_of_check hcheck
  have hadm : ∀ v ∈ f.operands, v.ty.admits (den v) = true := fun v hv => (hval v hv).2.1
  obtain ⟨r, hr, hrt⟩ := (App.suits_of_typed ht hadm).eval_of_traps
    (App.isFloat_of_isSpecial hspecial) (App.traps_of_isSpecial hspecial)
  have hlowers : Lowers link (fun _ => True) True (app env f) s ρ fun x s' ρ' =>
      ∃ t, f.ty = .ok t ∧ Stands link s' ρ' x (.ofTy t) (.ofDatum r) :=
    lowers_app ht hadm hspecial hundef
      (fun v hv => ⟨(hval v hv).2.2, rfl, fun _ _ => trivial⟩) (fun _ _ => trivial)
      (fun _ => trivial) hr
  obtain ⟨ρ', hf, t, hft, hx⟩ := hlowers.of_succeeds happ
  obtain rfl : a.ty = t := Except.ok.inj (hty.symm.trans hft)
  have hbinds : (a.id, a.ty) ∈ b.bindings :=
    List.mem_append_right _ (List.mem_filterMap.2 ⟨_, hmem, rfl⟩)
  refine ⟨σ.set a.id r, ρ', x, ?_, ?_, ?_⟩
  · rw [Inputs.stmt, hrhs]
    show f.eval ((inputs link args).value σ) >>= _ = _
    rw [hev, hr]
    rfl
  · exact (h.follows hf).bind hbinds (hrt a.ty hty) hx (Store.set_self _ _ _)
      fun i hi => Store.set_of_ne hi
  · rw [← hf.values]

/-- Whether a statement is there for its reader only. -/
def IsRemark : Stmt → Prop
  | .comment _ | .instruction _ _ => True
  | _ => False

/-- A remark leaves at most a comment. -/
theorem succeeds_remark {c : Stmt} {u : Unit} (hrun : Succeeds (stmt env c) s u s')
    (hc : IsRemark c) :
    s' = s ∨ ∃ text, s' = { s with instrs := s.instrs.push (.comment text) } := by
  cases c with
  | comment text =>
      have hrun : Succeeds (if env.target.options.comments = true then Step.emit (.comment text)
        else pure ()) s u s' := hrun
      split at hrun
      case isTrue => exact .inr ⟨text, succeeds_modify hrun⟩
      case isFalse => exact .inl (succeeds_pure hrun).2.symm
  | instruction offset name =>
      have hrun : Succeeds (if env.target.options.comments = true then do
          let addr ← Step.ofFault (Address.add env.label offset)
          Step.emit (.comment (Numeral.hex addr ++ ": " ++ name))
        else pure ()) s u s' := hrun
      split at hrun
      case isTrue =>
        obtain ⟨addr, s₁, haddr, hemit⟩ := succeeds_bind hrun
        obtain ⟨-, rfl⟩ := succeeds_ofExcept haddr
        exact .inr ⟨_, succeeds_modify hemit⟩
      case isFalse => exact .inl (succeeds_pure hrun).2.symm
  | assign | write | writeIf | call | machine => exact hc.elim

/-- An instruction that is added and only remarks something. -/
theorem Tracks.comment (h : Tracks link args b ρ₀ s σ ρ) (text : String) :
    Tracks link args b ρ₀ { s with instrs := s.instrs.push (.comment text) } σ ρ := by
  refine ⟨?_, h.args, ?_⟩
  · show Llvm.run link ρ₀ (s.instrs.push (.comment text)).toList = some ρ
    rw [Array.toList_push, Llvm.run_append h.ran]
    rfl
  · intro id x hx
    obtain ⟨t, d, hmem, hd, hadm, hs⟩ := h.bound id x hx
    exact ⟨t, d, hmem, hd, hadm, hs.ty, hs.eval, hs.old⟩

/-- A statement that is lowered can be executed, and both sides stay in step. -/
theorem Tracks.stmt (h : Tracks link args b ρ₀ s σ ρ) (hb : b.WellMade)
    (hargs : Ty.admitsEach env.args args = true)
    (hundef : env.target.options.allowUndefined = false) {c : Stmt} {u : Unit}
    (hmem : c ∈ b.stmts) (hrun : Succeeds (stmt env c) s u s') :
    ∃ σ' ρ', (inputs link args).stmt σ c = .ok σ' ∧ Tracks link args b ρ₀ s' σ' ρ'
      ∧ ∀ id, (∃ x, s.values.get? id = some x) ∨ id ∈ c.binds →
        ∃ x, s'.values.get? id = some x := by
  have hplain := hb.plain c hmem
  cases c with
  | assign a =>
      obtain ⟨σ', ρ', x, hexec, h', hvalues⟩ := h.assignment hb hargs hundef hmem hrun
      refine ⟨σ', ρ', hexec, h', ?_⟩
      intro id hid
      rw [hvalues]
      by_cases ha : a.id = id
      · subst ha
        exact ⟨x, Dict.get?_insert_self _ _ _⟩
      · rcases hid with ⟨y, hy⟩ | hid
        · exact ⟨y, (Dict.get?_insert_of_ne ha).trans hy⟩
        · exact absurd (List.mem_singleton.1 hid).symm ha
  | comment | instruction =>
      have hold : ∀ id, (∃ x, s.values.get? id = some x) ∨ id ∈ [] →
          ∃ x, s.values.get? id = some x := by
        rintro id (hid | hid)
        · exact hid
        · exact absurd hid List.not_mem_nil
      rcases succeeds_remark hrun trivial with rfl | ⟨text, rfl⟩
      · exact ⟨σ, ρ, rfl, h, hold⟩
      · exact ⟨σ, ρ, rfl, h.comment text, hold⟩
  | write | writeIf | call | machine => exact hplain.elim

/-- Statements that are lowered can be executed, and both sides stay in step. -/
theorem Tracks.stmts (hb : b.WellMade) (hargs : Ty.admitsEach env.args args = true)
    (hundef : env.target.options.allowUndefined = false) {cs : List Stmt} {u : Unit}
    (h : Tracks link args b ρ₀ s σ ρ) (hmem : ∀ c ∈ cs, c ∈ b.stmts)
    (hrun : Succeeds (cs.forM (Lowering.stmt env)) s u s') :
    ∃ σ' ρ', (inputs link args).stmts σ cs = .ok σ' ∧ Tracks link args b ρ₀ s' σ' ρ'
      ∧ ∀ id, (∃ x, s.values.get? id = some x) ∨ id ∈ cs.flatMap Stmt.binds →
        ∃ x, s'.values.get? id = some x := by
  induction cs generalizing s σ ρ with
  | nil =>
      obtain ⟨-, rfl⟩ := succeeds_pure hrun
      refine ⟨σ, ρ, rfl, h, ?_⟩
      rintro id (hid | hid)
      · exact hid
      · exact absurd hid List.not_mem_nil
  | cons c cs ih =>
      obtain ⟨_, s₁, hc, hcs⟩ := succeeds_bind hrun
      obtain ⟨σ₁, ρ₁, hexec, h₁, hbound⟩ := h.stmt hb hargs hundef (hmem c List.mem_cons_self) hc
      obtain ⟨σ', ρ', hexec', h', hbound'⟩ :=
        ih h₁ (fun d hd => hmem d (List.mem_cons_of_mem c hd)) hcs
      refine ⟨σ', ρ', ?_, h', ?_⟩
      · rw [Inputs.stmts, hexec]
        exact hexec'
      · intro id hid
        apply hbound'
        rw [List.flatMap_cons, List.mem_append] at hid
        rcases hid with hid | hid | hid
        · exact .inl (hbound id (.inl hid))
        · exact .inl (hbound id (.inr hid))
        · exact .inr hid

-- ================================================================== exits

/-- The operands that are handed out stand for the registers at the end. -/
theorem Tracks.exits (hb : b.WellMade) (hargs : Ty.admitsEach env.args args = true)
    {rs : List Register} {done done' : ExitOperands} (h : Tracks link args b ρ₀ s σ ρ)
    (hdone : ∀ r e, done.get? r.name = some (some e) → ExitStands link args b.exits s σ ρ r e)
    (hrun : Succeeds (exitOperands env b.exits rs done) s done' s') :
    ∃ ρ', After link s ρ s' ρ'
      ∧ ∀ r e, done'.get? r.name = some (some e) → ExitStands link args b.exits s' σ ρ' r e := by
  induction rs generalizing s ρ done with
  | nil =>
      obtain ⟨rfl, rfl⟩ := succeeds_pure hrun
      exact ⟨ρ, .refl s ρ, hdone⟩
  | cons r rs ih =>
      unfold exitOperands at hrun
      split at hrun
      case isTrue => exact ih h hdone hrun
      case isFalse =>
        split at hrun
        case h_1 v hv =>
          obtain ⟨x, s₁, hx, hrest⟩ := succeeds_bind hrun
          have hread : v ∈ b.reads := RoutineBlock.mem_reads_of_exit hv
          obtain ⟨d, ρ₁, hf, hd, hadm, hs⟩ := h.succeeds_value hb hargs hread hx
          have hdone₁ : ∀ q e, (done.insert r.name (some (v.ty, x))).get? q.name = some (some e) →
              ExitStands link args b.exits s₁ σ ρ₁ q e := by
            intro q e hq
            rw [Dict.get?_insert] at hq
            split at hq
            case isTrue hrq =>
              cases hq
              obtain rfl := Register.name_injective hrq
              exact ⟨v, d, hv, rfl, hd, hadm, hs⟩
            case isFalse =>
              obtain ⟨v', d', hv', hty, hd', hadm', hs'⟩ := hdone q e hq
              exact ⟨v', d', hv', hty, hd', hadm', hs'.mono hf⟩
          obtain ⟨ρ', hf', hdone'⟩ := ih (h.follows hf) hdone₁ hrest
          exact ⟨ρ', hf.trans hf', hdone'⟩
        all_goals
          refine ih h ?_ hrun
          intro q e hq
          rw [Dict.get?_insert] at hq
          split at hq
          case isTrue => exact nomatch hq
          case isFalse => exact hdone q e hq

end Lowering

end LiftedCode
