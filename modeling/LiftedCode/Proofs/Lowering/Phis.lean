/-
Phi variables of a lowered routine. On every edge into a block, a phi variable of
the block has the operand that the block at the other end supplies for its
register: what the value of the register there is lowered to, once the statements
there have been (`Supplies`). There is one operand per edge, in order of the
addresses that the edges are from, and nothing else (`Resolves`). Where one is not
to be had, as a register has no value on an edge or one of another type, or as no
edge leads to the block, there is a defect that the routine is refused for
(`Defect`).

# The argument

Operands are handed out by the names of registers, and those are different
(`Register.name_injective`). They are made one after the other, but making one
only asks for declarations, so each could have been made right after the
statements (`Widens`). The edges that ask for an operand are those that the graph
records, once each and in order (`Precede`). So the choice for an edge is the
operand that the block there supplies or else a defect, and the choices for blocks
and routines are made up of those (`Chooses`).
-/
import LiftedCode.Proofs.Flow.Overlap
import LiftedCode.Proofs.Lowering.Graph

namespace LiftedCode.Lowering

open Llvm (Typed Operand BlockName Phi Instr Terminator Declaration)

-- ================================================================ choices

section

variable {ε α β : Type} {P : α → Prop} {Q : β → Prop} {D : ε → Prop}

/-- Whether a choice comes out as `P` says, or fails for a reason with `D`. -/
def Chooses (x : Except ε α) (P : α → Prop) (D : ε → Prop) : Prop :=
  match x with
  | .ok a => P a
  | .error e => D e

/-- More may be said of the choice, once it is made. -/
theorem Chooses.imp {x : Except ε α} {P' : α → Prop} (h : Chooses x P D)
    (hP : ∀ a, x = .ok a → P a → P' a) : Chooses x P' D := by
  cases x with
  | ok a => exact hP a rfl h
  | error e => exact h

/-- One choice after the other. -/
theorem Chooses.bind {x : Except ε α} {f : α → Except ε β} (h : Chooses x P D)
    (hf : ∀ a, P a → Chooses (f a) Q D) : Chooses (x >>= f) Q D := by
  cases x with
  | ok a => exact hf a h
  | error e => exact h

/-- Choices for the members of a list, one by one. -/
theorem chooses_mapM {f : α → Except ε β} {R : α → β → Prop} {as : List α}
    (h : ∀ a ∈ as, Chooses (f a) (R a) D) : Chooses (as.mapM f) (List.Forall₂ R as) D := by
  induction as with
  | nil => exact .nil
  | cons a as ih =>
      rw [List.mapM_cons]
      refine (h a List.mem_cons_self).bind fun b hb => ?_
      refine (ih fun c hc => h c (List.mem_cons_of_mem a hc)).bind fun bs hbs => ?_
      exact .cons hb hbs

theorem exists_of_forall₂ {R : α → β → Prop} {as : List α} {bs : List β} {a : α}
    (h : List.Forall₂ R as bs) (ha : a ∈ as) : ∃ b, R a b := by
  have hall := h.imp fun a b hab => And.intro (Exists.intro b hab) hab
  exact ((List.forall₂_and_left as bs).1 hall).1 a ha

end

-- ================================================================= states

/-- Nothing that values are lowered to is lost between two states of a block, and no
value is bound. -/
structure Widens (s s' : State) : Prop where
  values : s'.values = s.values
  declared : ∀ name d, s.declarations.get? name = some d → s'.declarations.get? name = some d

variable {env : Env} {s s₀ s' : State} {v : Value} {x : Typed}

theorem Widens.refl (s : State) : Widens s s := ⟨rfl, fun _ _ h => h⟩

theorem Widens.trans (h : Widens s₀ s) (h' : Widens s s') : Widens s₀ s' :=
  ⟨h'.values.trans h.values, fun name d hd => h'.declared name d (h.declared name d hd)⟩

/-- What is asked for is there, or it is new and is added. -/
theorem succeeds_declare_iff {d : Declaration} {u : Unit} : Succeeds (Step.declare d) s u s'
    ↔ (s.declarations.get? d.name = some d ∧ s' = s)
      ∨ (s.declarations.get? d.name = none ∧ s' = { s with
          declarations := s.declarations.insert d.name d
          log := s.log.push (.declaring d.name) }) := by
  rw [Succeeds, run_declare, Declarations.declare]
  cases s.declarations.get? d.name with
  | none =>
      refine ⟨fun h => ?_, ?_⟩
      · cases h
        exact .inr ⟨rfl, rfl⟩
      · rintro (⟨hd, -⟩ | ⟨-, rfl⟩)
        · contradiction
        · rfl
  | some d' =>
      dsimp only
      by_cases heq : d' = d
      · rw [if_pos heq, heq]
        refine ⟨fun h => ?_, ?_⟩
        · cases h
          exact .inl ⟨rfl, rfl⟩
        · rintro (⟨-, rfl⟩ | ⟨hd, -⟩)
          · rfl
          · contradiction
      · rw [if_neg heq]
        refine ⟨fun h => ?_, ?_⟩
        · cases h
        · rintro (⟨hd, -⟩ | ⟨hd, -⟩)
          · exact absurd (Option.some.inj hd) heq
          · contradiction

/-- What has been asked for could have been asked for before. -/
theorem Widens.exists_declare (hw : Widens s₀ s) {d : Declaration} {u : Unit}
    (h : Succeeds (Step.declare d) s u s') : ∃ s₁, Succeeds (Step.declare d) s₀ u s₁ := by
  cases hget : s₀.declarations.get? d.name with
  | none => exact ⟨_, succeeds_declare_iff.2 (.inr ⟨hget, rfl⟩)⟩
  | some d' =>
      have hlater := hw.declared _ _ hget
      rcases succeeds_declare_iff.1 h with ⟨hd, -⟩ | ⟨hnone, -⟩
      · obtain rfl : d' = d := Option.some.inj (hlater.symm.trans hd)
        exact ⟨s₀, succeeds_declare_iff.2 (.inl ⟨hget, rfl⟩)⟩
      · exact nomatch hlater.symm.trans hnone

/-- The operand for a value loses nothing. -/
theorem widens_value (h : Succeeds (value env v) s x s') : Widens s s' := by
  obtain ⟨hvalues, hmet⟩ := demands_value v s x s' h
  exact ⟨hvalues, hmet.kept⟩

/-- A value is lowered to what it would have been lowered to before. -/
theorem Widens.exists_value (hw : Widens s₀ s) (h : Succeeds (value env v) s x s') :
    ∃ s₁, Succeeds (value env v) s₀ x s₁ := by
  cases v with
  | bits | bool =>
      obtain ⟨rfl, -⟩ := succeeds_pure h
      exact ⟨s₀, rfl⟩
  | assigned a =>
      obtain ⟨-, hx⟩ := succeeds_bound h
      exact ⟨s₀, run_bound (hw.values ▸ hx)⟩
  | phi w | returned w =>
      obtain ⟨-, hx⟩ := succeeds_bound h
      exact ⟨s₀, run_bound (hw.values ▸ hx)⟩
  | initial => exact absurd h not_succeeds_throw
  | arg i t =>
      unfold value at h ⊢
      dsimp only at h ⊢
      split at h
      case h_1 => exact absurd h not_succeeds_throw
      case h_2 =>
        obtain ⟨u, _, hcheck, h⟩ := succeeds_bind h
        obtain ⟨hty, -⟩ := succeeds_check hcheck
        obtain ⟨rfl, -⟩ := succeeds_pure h
        rw [hty]
        exact ⟨s₀, rfl⟩
  | entry f =>
      obtain ⟨_, _, hdeclare, h⟩ := succeeds_bind h
      obtain ⟨rfl, -⟩ := succeeds_pure h
      obtain ⟨s₁, hs₁⟩ := hw.exists_declare hdeclare
      exact ⟨s₁, hs₁.bind rfl⟩

-- ================================================================== exits

/-- What a block hands out for a register: the type and the operand of the value that
the register has at the end, lowered from the state `s`, or nothing if it has none. -/
def HandsOut (env : Env) (exits : Dict Register ExitValue) (s : State) (r : Register) :
    Option (Ty × Typed) → Prop
  | some (t, x) => ∃ v s', exits.get? r = some (.value v) ∧ t = v.ty ∧ Succeeds (value env v) s x s'
  | none => ∀ v, exits.get? r ≠ some (.value v)

/-- What is handed out for registers, all of it lowered from one state. -/
def AllHandOut (env : Env) (exits : Dict Register ExitValue) (s : State) (done : ExitOperands) :
    Prop :=
  ∀ r e, done.get? r.name = some e → HandsOut env exits s r e

variable {exits : Dict Register ExitValue} {done done' : ExitOperands}

/-- What is handed out for a name is for the register with that name. -/
theorem AllHandOut.insert (h : AllHandOut env exits s done) {q : Register}
    {e : Option (Ty × Typed)} (he : HandsOut env exits s q e) :
    AllHandOut env exits s (done.insert q.name e) := by
  intro r e' hr
  rw [Dict.get?_insert] at hr
  split at hr
  case isTrue hname =>
    cases hr
    exact Register.name_injective hname ▸ he
  case isFalse => exact h r e' hr

/-- Something is handed out for every register that is asked for, and it is what would
have been handed out at the start. -/
theorem allHandOut_of_exitOperands {rs : List Register} (hw : Widens s₀ s)
    (hdone : AllHandOut env exits s₀ done)
    (h : Succeeds (exitOperands env exits rs done) s done' s') :
    AllHandOut env exits s₀ done'
      ∧ (∀ name e, done.get? name = some e → done'.get? name = some e)
      ∧ ∀ r ∈ rs, ∃ e, done'.get? r.name = some e := by
  induction rs generalizing s done with
  | nil =>
      obtain ⟨rfl, rfl⟩ := succeeds_pure h
      exact ⟨hdone, fun _ _ he => he, nofun⟩
  | cons q rs ih =>
      unfold exitOperands at h
      split at h
      case isTrue hcontains =>
        obtain ⟨hall, hold, hrest⟩ := ih hw hdone h
        obtain ⟨e, he⟩ := Option.isSome_iff_exists.1 hcontains
        exact ⟨hall, hold, List.forall_mem_cons.2 ⟨⟨e, hold _ e he⟩, hrest⟩⟩
      case isFalse hcontains =>
        have hnone : done.get? q.name = none := by
          rw [← Option.not_isSome_iff_eq_none]
          exact hcontains
        -- the other registers, once something is handed out for this one
        have hgo : ∀ e s₁, HandsOut env exits s₀ q e → Widens s₀ s₁ →
            Succeeds (exitOperands env exits rs (done.insert q.name e)) s₁ done' s' →
            AllHandOut env exits s₀ done'
              ∧ (∀ name e, done.get? name = some e → done'.get? name = some e)
              ∧ ∀ r ∈ q :: rs, ∃ e, done'.get? r.name = some e := by
          intro e s₁ hout hw₁ h₁
          obtain ⟨hall, hold, hrest⟩ := ih hw₁ (hdone.insert hout) h₁
          exact ⟨hall, fun name e he => hold name e (Dict.get?_insert_of_new hnone he),
            List.forall_mem_cons.2 ⟨⟨e, hold _ _ (Dict.get?_insert_self _ _ _)⟩, hrest⟩⟩
        split at h
        case h_1 v hv =>
          obtain ⟨x, s₁, hx, h⟩ := succeeds_bind h
          obtain ⟨s₂, hx₀⟩ := hw.exists_value hx
          exact hgo (some (v.ty, x)) s₁ ⟨v, s₂, hv, rfl, hx₀⟩ (hw.trans (widens_value hx)) h
        all_goals
          rename_i hv
          exact hgo none s (fun v hq => nomatch hv.symm.trans hq) hw h

-- =============================================================== operands

/-- The state of a block once its statements have been lowered, in the lowering of the
routine. -/
def AfterStmts (target : Target) (r : Routine) (log : Log) (u : RoutineBlock) (s : State) : Prop :=
  ∃ map order i ls p s₁, r.blockMap = .ok map ∧ lowerOrder map r.entry = .ok order
    ∧ order[i]? = some u
    ∧ Succeeds ((order.take i).mapM (block target r.signature map)) (startProgress r map log) ls p
    ∧ Succeeds (bindPhis u.phis) (blockStart u p) () s₁
    ∧ Succeeds (u.stmts.forM (stmt ⟨target, u.label, r.signature.args⟩)) s₁ () s

/-- The operand that a block supplies for a phi variable: the value of the variable's
register at the end of the block, lowered after the statements there. It has the type of
the variable. -/
def Supplies (target : Target) (r : Routine) (log : Log) (u : RoutineBlock) (q : PhiBinding)
    (o : Operand) : Prop :=
  ∃ v s x s', u.exits.get? q.reg = some (.value v) ∧ v.ty = q.var.ty
    ∧ AfterStmts target r log u s
    ∧ Succeeds (value ⟨target, u.label, r.signature.args⟩ v) s x s' ∧ o = x.operand

/-- The ends of the edges into a block, by address and as often as there are edges. -/
structure Precede (r : Routine) (l : Label) (preds : List Label) : Prop where
  sorted : preds.Pairwise (· ≤ ·)
  exist : ∀ u ∈ preds, ∃ b ∈ r.blocks, b.label = u
  count : ∀ b ∈ r.blocks, preds.count b.label = b.transfer.successors.count l

/-- A phi variable has one operand for each edge, the one that the block at the end of
the edge supplies. -/
def Resolves (target : Target) (r : Routine) (log : Log) (preds : List Label) (q : PhiBinding)
    (p : Phi) : Prop :=
  p.name = .var q.var.id ∧ p.ty = .ofTy q.var.ty
    ∧ ∃ operand : Label → Operand, p.incoming = preds.map (fun l => (operand l, .block l))
      ∧ ∀ u ∈ r.blocks, u.label ∈ preds → Supplies target r log u q (operand u.label)

/-- The phi variables of a block are resolved. -/
def Resolved (target : Target) (r : Routine) (log : Log) (b : RoutineBlock) (ps : List Phi) :
    Prop :=
  ∃ preds, Precede r b.label preds ∧ (b.phis ≠ [] → preds ≠ [])
    ∧ List.Forall₂ (Resolves target r log preds) b.phis ps

/-- What is wrong with a phi variable, and how it is reported. -/
inductive Defect (r : Routine) : LoweringError → Prop where
  | unreached {b : RoutineBlock} (hb : b ∈ r.blocks) (hphis : b.phis ≠ [])
      (hnone : ∀ u ∈ r.blocks, b.label ∉ u.transfer.successors) :
      Defect r (.phisWithoutPredecessors b.label)
  | unavailable {u b : RoutineBlock} {q : PhiBinding} (hu : u ∈ r.blocks) (hb : b ∈ r.blocks)
      (hedge : b.label ∈ u.transfer.successors) (hq : q ∈ b.phis)
      (hnone : ∀ v, u.exits.get? q.reg ≠ some (.value v)) :
      Defect r (.phiUnavailable q.var.id q.reg u.label)
  | mistyped {u b : RoutineBlock} {q : PhiBinding} {v : Value} (hu : u ∈ r.blocks)
      (hb : b ∈ r.blocks) (hedge : b.label ∈ u.transfer.successors) (hq : q ∈ b.phis)
      (hv : u.exits.get? q.reg = some (.value v)) (hne : v.ty ≠ q.var.ty) :
      Defect r (.code (.typeMismatch (.phi q.var.id) q.var.ty v.ty))

/-- The blocks of a routine have been lowered, apart from their phi variables. -/
structure BlocksLowered (target : Target) (r : Routine) (log : Log) (map : BlockMap RoutineBlock)
    (order : List RoutineBlock) (ls : List LoweredBlock) (p : Progress) : Prop where
  check : r.check = .ok ()
  built : r.blockMap = .ok map
  ordered : lowerOrder map r.entry = .ok order
  lowered : Succeeds (order.mapM (block target r.signature map)) (startProgress r map log) ls p

/-- Every block has handed something out for the phi variables behind it. -/
def HandedOut (target : Target) (r : Routine) (log : Log) (done : Dict Label LoweredBlock) : Prop :=
  ∀ u ∈ r.blocks, ∃ lb s, done.get? u.label = some lb ∧ AfterStmts target r log u s
    ∧ ∀ b ∈ r.blocks, b.label ∈ u.transfer.successors → ∀ q ∈ b.phis,
      ∃ e, lb.exits.get? q.reg.name = some e
        ∧ HandsOut ⟨target, u.label, r.signature.args⟩ u.exits s q.reg e

variable {target : Target} {r : Routine} {log log' : Log} {map : BlockMap RoutineBlock}
  {order : List RoutineBlock} {ls : List LoweredBlock} {p : Progress}

/-- The registers that the phi variables behind a block ask for are wanted. -/
theorem mem_wantedRegisters (hr : r.WellFormed) (hmap : r.blockMap = .ok map) {u b : RoutineBlock}
    {wanted : List Register} (h : wantedRegisters map u = .ok wanted) (hb : b ∈ r.blocks)
    (hedge : b.label ∈ u.transfer.successors) {q : PhiBinding} (hq : q ∈ b.phis) :
    q.reg ∈ wanted := by
  obtain ⟨bs, hbs, h⟩ := ok_of_bind h
  cases h
  obtain ⟨i, hi⟩ := List.mem_iff_getElem?.1 hedge
  obtain ⟨c, hc, hget⟩ := (ok_of_mapM hbs).2 i b.label hi
  obtain rfl : b = c :=
    Except.ok.inj ((BlockMap.get_of_build hmap hr.labels hb).symm.trans hget)
  exact List.mem_flatMap.2 ⟨b, List.mem_of_getElem? hc, List.mem_map_of_mem hq⟩

theorem BlocksLowered.wellFormed (h : BlocksLowered target r log map order ls p) : r.WellFormed :=
  Routine.wellFormed_of_check h.check

/-- Every lowered block has handed out what the blocks behind it ask for. -/
theorem BlocksLowered.handedOut (h : BlocksLowered target r log map order ls p) :
    HandedOut target r log (Dict.ofList (ls.map fun b => (b.label, b))) := by
  intro u hu
  obtain ⟨hnodup, hmem, -⟩ := of_lowerOrder h.wellFormed h.built h.ordered
  obtain ⟨i, hi⟩ := List.mem_iff_getElem?.1 ((hmem u).2 hu)
  obtain ⟨lb, p₁, p₂, hlb, htake, hrun⟩ := succeeds_mapM_take h.lowered hi
  obtain ⟨s₁, s, s₃, s₄, wanted, st, -⟩ := staged_of_succeeds target r.signature map hrun
  refine ⟨lb, s, get?_lowered h.lowered hnodup (List.mem_of_getElem? hlb) st.label,
    ⟨map, order, i, _, p₁, s₁, h.built, h.ordered, hi, htake, st.phis, st.stmts⟩,
    fun b hb hedge q hq => ?_⟩
  have hempty : AllHandOut ⟨target, u.label, r.signature.args⟩ u.exits s ∅ := by
    intro r' e he
    rw [Dict.get?_empty] at he
    contradiction
  obtain ⟨hall, -, hwanted⟩ := allHandOut_of_exitOperands (.refl s) hempty st.exits
  obtain ⟨e, he⟩ := hwanted q.reg (mem_wantedRegisters h.wellFormed h.built st.asked hb hedge hq)
  exact ⟨e, he, hall q.reg e he⟩

-- ================================================================== edges

/-- The edges that the graph of a routine records are the edges of the routine. -/
theorem precede_sources (hr : r.WellFormed) (hmap : r.blockMap = .ok map) (l : Label) :
    Precede r l (BlockMap.sources (BlockMap.edgesOf map.blocks) l) := by
  have hperm : map.blocks.Perm r.blocks := BlockMap.perm_of_build hmap
  refine ⟨BlockMap.pairwise_sources (BlockMap.pairwise_lt_of_build hmap) l, fun u hu => ?_,
    fun b hb => ?_⟩
  · obtain ⟨b, hb, hlabel, -⟩ := BlockMap.mem_edgesOf.1 (BlockMap.mem_sources.1 hu)
    exact ⟨b, hperm.mem_iff.1 hb, hlabel⟩
  · have hnodup : (map.blocks.map label).Nodup := (hperm.map label).nodup_iff.2 hr.labels
    exact BlockMap.count_sources hnodup (hperm.mem_iff.2 hb) l

/-- A block precedes exactly where it leads. -/
theorem Precede.mem_iff {l : Label} {preds : List Label} (h : Precede r l preds)
    {u : RoutineBlock} (hu : u ∈ r.blocks) : u.label ∈ preds ↔ l ∈ u.transfer.successors := by
  rw [← List.count_pos_iff, h.count u hu, List.count_pos_iff]

-- ============================================================= resolution

variable {done : Dict Label LoweredBlock}

/-- The operand that was chosen for a phi variable on the edges from a label. -/
def operandAt (done : Dict Label LoweredBlock) (q : PhiBinding) (l : Label) : Operand :=
  match phiOperand done q l with
  | .ok x => x.1
  | .error _ => default

/-- The choice for a phi variable among what a block may have handed out. -/
def choose (q : PhiBinding) (l : Label) :
    Option (Ty × Typed) → Except LoweringError (Operand × BlockName)
  | none => .error (.phiUnavailable q.var.id q.reg l)
  | some (t, x) =>
    if q.var.ty = t then .ok (x.operand, .block l)
    else .error (.code (.typeMismatch (.phi q.var.id) q.var.ty t))

/-- The operand on an edge is chosen from what the block at its end hands out. -/
theorem phiOperand_eq {q : PhiBinding} {l : Label} {lb : LoweredBlock} {e : Option (Ty × Typed)}
    (hlb : done.get? l = some lb) (he : lb.exits.get? q.reg.name = some e) :
    phiOperand done q l = choose q l e := by
  unfold phiOperand
  rw [hlb, Option.bind_eq_bind, Option.bind_some, he]
  cases e with
  | none => rfl
  | some e =>
      dsimp only [Option.bind_eq_bind, Option.bind_some, expectTy, choose]
      split <;> rfl

/-- The choice on an edge is the operand that the block there supplies. -/
theorem chooses_phiOperand (hdone : HandedOut target r log done) {u b : RoutineBlock}
    (hu : u ∈ r.blocks) (hb : b ∈ r.blocks) (hedge : b.label ∈ u.transfer.successors)
    {q : PhiBinding} (hq : q ∈ b.phis) : Chooses (phiOperand done q u.label)
      (fun x => x.2 = .block u.label ∧ Supplies target r log u q x.1) (Defect r) := by
  obtain ⟨lb, s, hlb, hafter, hexits⟩ := hdone u hu
  obtain ⟨e, he, hout⟩ := hexits b hb hedge q hq
  rw [phiOperand_eq hlb he]
  cases e with
  | none => exact .unavailable hu hb hedge hq hout
  | some e =>
      obtain ⟨v, s', hv, hty, hx⟩ := hout
      by_cases hv' : q.var.ty = v.ty
      · rw [choose, hty, if_pos hv']
        exact ⟨rfl, v, s, e.2, s', hv, hv'.symm, hafter, hx, rfl⟩
      · rw [choose, hty, if_neg hv']
        exact .mistyped hu hb hedge hq hv fun h => hv' h.symm

/-- The choices on all edges into a block. -/
theorem chooses_incoming (hdone : HandedOut target r log done) {b : RoutineBlock}
    (hb : b ∈ r.blocks) {preds : List Label} (hpre : Precede r b.label preds) {q : PhiBinding}
    (hq : q ∈ b.phis) : Chooses (preds.mapM (phiOperand done q))
      (fun incoming => incoming = preds.map (fun l => (operandAt done q l, .block l))
        ∧ ∀ u ∈ r.blocks, u.label ∈ preds → Supplies target r log u q (operandAt done q u.label))
      (Defect r) := by
  have hedge : ∀ {u}, u ∈ r.blocks → u.label ∈ preds → Chooses (phiOperand done q u.label)
      (fun x => x.2 = .block u.label ∧ Supplies target r log u q x.1) (Defect r) :=
    fun hu hmem => chooses_phiOperand hdone hu hb ((hpre.mem_iff hu).1 hmem) hq
  have hall : Chooses (preds.mapM (phiOperand done q))
      (List.Forall₂ (fun l x => (operandAt done q l, .block l) = x) preds) (Defect r) := by
    refine chooses_mapM fun l hl => ?_
    obtain ⟨u, hu, rfl⟩ := hpre.exist l hl
    refine (hedge hu hl).imp fun x hx hx' => ?_
    rw [operandAt, hx, ← hx'.1]
  refine hall.imp fun incoming hrun hincoming => ⟨?_, fun u hu hmem => ?_⟩
  · have heq := List.forall₂_map_left_iff.2 hincoming
    rw [List.forall₂_eq_eq_eq] at heq
    exact heq.symm
  · obtain ⟨i, hi⟩ := List.mem_iff_getElem?.1 hmem
    obtain ⟨x, -, hx⟩ := (ok_of_mapM hrun).2 i _ hi
    have hchoice := hedge hu hmem
    rw [operandAt, hx]
    rw [hx] at hchoice
    exact hchoice.2

/-- The phi variables of a block are resolved, or have a defect. -/
theorem chooses_phis (hr : r.WellFormed) (hmap : r.blockMap = .ok map)
    (hdone : HandedOut target r log done) {b : RoutineBlock} (hb : b ∈ r.blocks) :
    Chooses (phis map done b) (Resolved target r log b) (Defect r) := by
  have hpre := precede_sources hr hmap b.label
  have hpreds : map.predecessors b.label = .ok _ := BlockMap.predecessors_of_build hmap hb
  unfold phis
  by_cases hphis : b.phis = []
  · rw [if_pos (List.isEmpty_iff.2 hphis)]
    refine ⟨_, hpre, fun hne => absurd hphis hne, ?_⟩
    rw [hphis]
    exact .nil
  rw [if_neg fun h => hphis (List.isEmpty_iff.1 h), hpreds]
  generalize BlockMap.sources (BlockMap.edgesOf map.blocks) b.label = preds at hpre
  show Chooses (if preds.isEmpty = true then .error (.phisWithoutPredecessors b.label)
    else b.phis.mapM (phiOf done preds)) _ _
  by_cases hempty : preds = []
  · rw [if_pos (List.isEmpty_iff.2 hempty)]
    refine .unreached hb hphis fun u hu hedge => ?_
    have hmem := (hpre.mem_iff hu).2 hedge
    rw [hempty] at hmem
    exact absurd hmem List.not_mem_nil
  · rw [if_neg fun h => hempty (List.isEmpty_iff.1 h)]
    have hall : Chooses (b.phis.mapM (phiOf done preds))
        (List.Forall₂ (Resolves target r log preds) b.phis) (Defect r) := by
      refine chooses_mapM fun q hq => ?_
      refine (chooses_incoming hdone hb hpre hq).bind fun incoming hincoming => ?_
      exact ⟨rfl, rfl, operandAt done q, hincoming⟩
    exact hall.imp fun ps _ hps => ⟨preds, hpre, fun _ => hempty, hps⟩

/-- The value that a resolved phi variable has on an edge. -/
theorem Resolves.exists_value {preds : List Label} {q : PhiBinding} {c : Phi}
    (h : Resolves target r log preds q c) {u : RoutineBlock} (hu : u ∈ r.blocks)
    (hmem : u.label ∈ preds) : ∃ v, u.exits.get? q.reg = some (.value v) ∧ v.ty = q.var.ty := by
  obtain ⟨-, -, operand, -, hsupplied⟩ := h
  obtain ⟨v, _, _, _, hv, hty, -⟩ := hsupplied u hu hmem
  exact ⟨v, hv, hty⟩

/-- Where phi variables are resolved, every edge supplies a value. -/
theorem Resolved.exists_value {b : RoutineBlock} {ps : List Phi} (h : Resolved target r log b ps)
    {u : RoutineBlock} (hu : u ∈ r.blocks) (hedge : b.label ∈ u.transfer.successors)
    {q : PhiBinding} (hq : q ∈ b.phis) :
    ∃ v, u.exits.get? q.reg = some (.value v) ∧ v.ty = q.var.ty := by
  obtain ⟨preds, hpre, -, hps⟩ := h
  have hmem := (hpre.mem_iff hu).2 hedge
  obtain ⟨c, hc⟩ := exists_of_forall₂ hps hq
  exact hc.exists_value hu hmem

/-- Where the phi variables of all blocks are resolved, none of them has a defect. -/
theorem not_defect (h : ∀ b ∈ r.blocks, ∃ ps, Resolved target r log b ps) (e : LoweringError) :
    ¬ Defect r e := by
  intro hdefect
  cases hdefect with
  | unreached hb hphis hnone =>
      obtain ⟨ps, preds, hpre, hne, -⟩ := h _ hb
      obtain ⟨l, hl⟩ := List.exists_mem_of_ne_nil _ (hne hphis)
      obtain ⟨u, hu, rfl⟩ := hpre.exist l hl
      exact hnone u hu ((hpre.mem_iff hu).1 hl)
  | unavailable hu hb hedge hq hnone =>
      obtain ⟨ps, hps⟩ := h _ hb
      obtain ⟨v, hv, -⟩ := hps.exists_value hu hedge hq
      exact hnone v hv
  | mistyped hu hb hedge hq hv hne =>
      obtain ⟨ps, hps⟩ := h _ hb
      obtain ⟨w, hw, hty⟩ := hps.exists_value hu hedge hq
      obtain rfl : _ = w := ExitValue.value.inj (Option.some.inj (hv.symm.trans hw))
      exact hne hty

-- =============================================================== routines

/-- The phi variables of all blocks are resolved, or one of them has a defect. -/
theorem BlocksLowered.chooses (h : BlocksLowered target r log map order ls p) :
    Chooses (order.mapM (phis map (Dict.ofList (ls.map fun b => (b.label, b)))))
      (List.Forall₂ (Resolved target r log) order) (Defect r) := by
  refine chooses_mapM fun b hb => ?_
  have hmem := (of_lowerOrder h.wellFormed h.built h.ordered).2.1 b
  exact chooses_phis h.wellFormed h.built h.handedOut (hmem.1 hb)

/-- The blocks of a routine that is lowered have been lowered, and their phi variables are
resolved. -/
theorem resolved_of_succeeds {l : LoweredRoutine} (h : Succeeds (routine target r) log l log')
    {b : RoutineBlock} (hb : b ∈ r.blocks) :
    ∃ c ∈ l.definition.blocks, c.label = .block b.label ∧ Resolved target r log b c.phis := by
  obtain ⟨hcheck, map, p, p', hmap, hbody, rfl, -⟩ := of_routine h
  obtain ⟨order, ls, q, cs, init, horder, hls, hcs, hinit, hcode, -⟩ := of_routineBody hbody
  have hl : BlocksLowered target r log map order ls q := ⟨hcheck, hmap, horder, hls⟩
  obtain ⟨hnodup, hmem, -⟩ := of_lowerOrder hl.wellFormed hmap horder
  have hfound : ∀ c ∈ codeBlocks ls cs, c ∈ l.definition.blocks := by
    intro c hc
    rw [hcode]
    exact List.mem_append_left _ (List.mem_append_right _ hc)
  obtain ⟨lb, ps, hemitted⟩ := emitted_of_mem hls hcs hnodup hfound ((hmem b).2 hb)
  have hchoice := chooses_phis hl.wellFormed hmap hl.handedOut hb
  rw [hemitted.chosen] at hchoice
  exact ⟨_, hemitted.found, rfl, hchoice⟩

/-- The lowering ends where the choice for phi variables fails. -/
theorem BlocksLowered.run_routineBody (h : BlocksLowered target r log map order ls p)
    {e : LoweringError}
    (he : order.mapM (phis map (Dict.ofList (ls.map fun b => (b.label, b)))) = .error e) :
    (routineBody target r map).run.run (startProgress r map log) = (.error e, p) := by
  have horder : Succeeds (ofCheck (lowerOrder map r.entry : Except LoweringError _))
      (startProgress r map log) order (startProgress r map log) := by
    rw [h.ordered]
    rfl
  unfold routineBody
  rw [run_bind, horder]
  dsimp only
  rw [run_bind, h.lowered]
  dsimp only
  rw [run_bind, he]
  rfl

/-- A routine with a defect is refused for one. -/
theorem BlocksLowered.refused (h : BlocksLowered target r log map order ls p)
    (hdefect : ∃ e, Defect r e) :
    ∃ e log', (routine target r).run.run log = (.error e, log') ∧ Defect r e := by
  have hall := h.chooses
  cases hrun : order.mapM (phis map (Dict.ofList (ls.map fun b => (b.label, b)))) with
  | ok cs =>
      rw [hrun] at hall
      have hmem := (of_lowerOrder h.wellFormed h.built h.ordered).2.1
      obtain ⟨e, he⟩ := hdefect
      exact absurd he (not_defect (fun b hb => exists_of_forall₂ hall ((hmem b).2 hb)) e)
  | error e =>
      rw [hrun] at hall
      refine ⟨e, p.log, ?_, hall⟩
      rw [run_routine h.check h.built, h.run_routineBody hrun]

/-- The phi variables of a lowered routine are resolved, and a routine whose blocks can be
lowered has no code if one of its phi variables has a defect. -/
theorem routine_phis (target : Target) (r : Routine) (log : Log) :
    (∀ l log', Succeeds (routine target r) log l log' → ∀ b ∈ r.blocks,
      (∃ c ∈ l.definition.blocks, c.label = .block b.label)
        ∧ ∀ c ∈ l.definition.blocks, c.label = .block b.label → Resolved target r log b c.phis)
      ∧ ∀ map order ls p, BlocksLowered target r log map order ls p → (∃ e, Defect r e) →
        ∃ e log', (routine target r).run.run log = (.error e, log') ∧ Defect r e := by
  refine ⟨fun l log' h b hb => ?_, fun map order ls p h => h.refused⟩
  obtain ⟨c, hc, hlabel, hresolved⟩ := resolved_of_succeeds h hb
  obtain ⟨_, _, hlaid⟩ := laid_of_succeeds h
  refine ⟨⟨c, hc, hlabel⟩, fun c' hc' hlabel' => ?_⟩
  obtain rfl : c = c' := eq_of_nodup hlaid.nodup_text hc hc' <|
    congrArg BlockName.text (hlabel.trans hlabel'.symm)
  exact hresolved

/-- The block at the end of two edges from the entry and one from the block on the way. -/
def merging : RoutineBlock :=
  ⟨32, 1, [⟨⟨0, .bits 8⟩, .gp 0⟩], [], .ret [some (.phi ⟨0, .bits 8⟩)], ∅⟩

/-- Go on at the end, right away or with something else in a register. -/
def merge (exit : ExitValue) : Routine where
  name := "merge"
  addr := 0
  signature := ⟨[.bits 8], [.bits 8], false⟩
  entry := 0
  blocks := [
    ⟨0, 1, [], [], .table (.arg 0 (.bits 8)) [16, 32, 32],
      Dict.ofList [(.gp 0, .value (.arg 0 (.bits 8)))]⟩,
    ⟨16, 1, [], [], .jump 32, Dict.ofList [(.gp 0, exit)]⟩,
    merging]

/-- The blocks that meet, with the edges between them. -/
def mergeGraph (exit : ExitValue) : BlockMap RoutineBlock :=
  ⟨(merge exit).blocks, Dict.ofList [(0, []), (16, [0]), (32, [0, 0, 16])]⟩

theorem blockMap_merge (exit : ExitValue) : (merge exit).blockMap = .ok (mergeGraph exit) :=
  BlockMap.build_of_pairwise (by simp [merge, merging, FlowNode.label]) rfl rfl rfl

/-- On the way, the register gets a value. -/
def supplying : Routine := merge (.value (.arg 0 (.bits 8)))

/-- On the way, the register is as the caller has left it. -/
def withholding : Routine := merge (.calleeSaved (.gp 0))

theorem exists_succeeds_supplying : ∃ l log', Succeeds (routine default supplying) #[] l log' := by
  have hlabels : ((routine default supplying).run.run #[]).1.map
      (fun l => l.definition.blocks.map (·.label))
        = .ok [.block 0, .block 16, .block 32, .tableFailure] := by
    unfold routine supplying
    rw [blockMap_merge]
    rfl
  obtain ⟨l, log', hrun, -⟩ := exists_succeeds_of_map hlabels
  exact ⟨l, log', hrun⟩

theorem blocksLowered_withholding : ∃ map order ls p,
    BlocksLowered default withholding #[] map order ls p := by
  have hlabels : (((withholding.blocks.mapM (block default withholding.signature
      (mergeGraph (.calleeSaved (.gp 0))))).run.run
        (startProgress withholding (mergeGraph (.calleeSaved (.gp 0))) #[])).1.map
          fun ls => ls.map (·.label)) = .ok [0, 16, 32] := rfl
  obtain ⟨ls, p, hls, -⟩ := exists_succeeds_of_map hlabels
  exact ⟨_, _, ls, p, rfl, blockMap_merge _, rfl, hls⟩

/-- The phi variable has its operands if the register gets a value on the way, and the
routine is refused if it does not. -/
theorem routine_phis_merge :
    (∃ l log', Succeeds (routine default supplying) #[] l log'
      ∧ ∃ c ∈ l.definition.blocks, c.label = .block 32
        ∧ Resolved default supplying #[] merging c.phis)
      ∧ ∃ map order ls p e log', BlocksLowered default withholding #[] map order ls p
        ∧ (routine default withholding).run.run #[] = (.error e, log') ∧ Defect withholding e := by
  constructor
  · obtain ⟨l, log', hrun⟩ := exists_succeeds_supplying
    have hmem : merging ∈ supplying.blocks := .tail _ (.tail _ (.head _))
    obtain ⟨⟨c, hc, hlabel⟩, hall⟩ := (routine_phis _ _ _).1 l log' hrun merging hmem
    exact ⟨l, log', hrun, c, hc, hlabel, hall c hc hlabel⟩
  · obtain ⟨map, order, ls, p, hblocks⟩ := blocksLowered_withholding
    have hdefect : ∃ e, Defect withholding e :=
      ⟨_, .unavailable (.tail _ (.head _)) (.tail _ (.tail _ (.head _))) (.head _) (.head _) nofun⟩
    obtain ⟨e, log', hrun, he⟩ := (routine_phis _ _ _).2 map order ls p hblocks hdefect
    exact ⟨map, order, ls, p, e, log', hblocks, hrun, he⟩

end LiftedCode.Lowering
