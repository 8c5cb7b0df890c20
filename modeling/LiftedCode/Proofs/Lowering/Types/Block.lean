/-
The types of what a block binds. Lowering binds an identifier in three places: a phi
variable at the start, an assignment once there is an operand for its right-hand side,
and a variable for each result of a call. The states that are reached in this way, with
anything else done in between (`Point`), are those that the lowering of a block passes
through, also where it stops with an error (`passes_bindPhis`, `passes_stmts`,
`passes_blockBody`).

Every binding keeps operands of the types of what they stand for, and so they are of
these types at every point (`Point.held`).
-/
import LiftedCode.Proofs.Lowering.Confined.Block
import LiftedCode.Proofs.Lowering.Sound.Routine

namespace LiftedCode

-- ============================================================== coherence

/-- The value has the type that its identifier is known to have. -/
def Value.Agrees (kinds : Ident → Ty → Prop) (v : Value) : Prop :=
  ∀ e ∈ v.name?, ∀ t, kinds e.1 t → t = e.2

/-- What holds of a value, and of the operands of every assignment that it holds of, holds
of all that the value is made of. -/
theorem Value.Within.of_closed {P : Value → Prop}
    (hP : ∀ a, P (.assigned a) → ∀ v ∈ a.rhs.operands, P v) {u v : Value} (h : u.Within v)
    (hv : P v) : P u := by
  induction h with
  | self => exact hv
  | operand hop _ ih => exact ih (hP _ hv _ hop)

namespace RoutineBlock

/-- Whether the block binds the identifier, to something of the type. -/
def BindsAs (b : RoutineBlock) (id : Ident) (t : Ty) : Prop := (id, t) ∈ b.typings

/-- What is asked of a block: an identifier that it reads has the type that the block
binds it with, and its assignments were made with their checks. -/
structure Coherent (b : RoutineBlock) : Prop where
  reads : ∀ v ∈ b.reads, v.Agrees b.BindsAs
  made : ∀ a, .assign a ∈ b.stmts → Assignment.make a.id a.rhs = .ok a

/-- A phi variable is bound at its type. -/
theorem bindsAs_phi {b : RoutineBlock} {p : PhiBinding} (hp : p ∈ b.phis) :
    b.BindsAs p.var.id p.var.ty := List.mem_append_left _ (List.mem_map.2 ⟨p, hp, rfl⟩)

/-- What a statement binds is bound at its type. -/
theorem bindsAs_of_stmt {b : RoutineBlock} {st : Stmt} (hst : st ∈ b.stmts) {id : Ident} {t : Ty}
    (ht : (id, t) ∈ st.bindings) : b.BindsAs id t :=
  List.mem_append_right _ (List.mem_flatMap.2 ⟨st, hst, ht⟩)

end RoutineBlock

namespace Routine

/-- The values of the routine: what its blocks read, and what that is made of. -/
def Reads (r : Routine) (v : Value) : Prop := ∃ b ∈ r.blocks, ∃ u ∈ b.reads, v.Within u

/-- Whether something with the identifier is of the type. -/
def Names (r : Routine) (id : Ident) (t : Ty) : Prop :=
  (∃ b ∈ r.blocks, b.BindsAs id t) ∨ ∃ v, r.Reads v ∧ v.name? = some (id, t)

/-- Whether everything that shares an identifier is of one type. -/
def Coherent (r : Routine) : Prop := ∀ id t u, r.Names id t → r.Names id u → t = u

/-- A value of a coherent routine has the type that a block binds its identifier with. -/
theorem Coherent.agrees {r : Routine} (hr : r.Coherent) {b : RoutineBlock} (hb : b ∈ r.blocks)
    {v : Value} (hv : r.Reads v) : v.Agrees b.BindsAs :=
  fun e he t ht => hr e.1 t e.2 (.inl ⟨b, hb, ht⟩) (.inr ⟨v, hv, he⟩)

/-- A block of a coherent routine. -/
theorem Coherent.block {r : Routine} (hr : r.Coherent) {b : RoutineBlock} (hb : b ∈ r.blocks)
    (hmade : ∀ a, .assign a ∈ b.stmts → Assignment.make a.id a.rhs = .ok a) : b.Coherent :=
  ⟨fun v hv => hr.agrees hb ⟨b, hb, v, hv, .self v⟩, hmade⟩

end Routine

namespace Lowering

open Llvm (Typed)

-- ================================================================= points

/-- A state that is reached in the lowering of the block. -/
inductive Point (env : Env) (b : RoutineBlock) : State → Prop where
  | start {s : State} (h : s.values = ∅) : Point env b s
  /-- Between bindings, anything else may happen. -/
  | quiet {s s' : State} (h : Point env b s) (hv : s'.values = s.values) : Point env b s'
  | phi {s : State} {p : PhiBinding} (h : Point env b s) (hp : p ∈ b.phis) :
    Point env b ((Step.bind p.var.id ⟨.ofTy p.var.ty, .reg (.var p.var.id)⟩).after s)
  | assigned {s s' : State} {a : Assignment Value} {x : Typed} (h : Point env b s)
    (ha : .assign a ∈ b.stmts) (hx : Succeeds (operandOf env a.rhs) s x s') :
    Point env b ((Step.bind a.id x).after s')
  | returned {s s' : State} {c : Call} {v : Variable} {results x : Typed} {i : Nat} {t : Ty}
    (h : Point env b s) (hc : .call c ∈ b.stmts) (hv : v ∈ c.returns)
    (hx : Succeeds (resultOf results i v t) s x s') : Point env b ((Step.bind v.id x).after s')

-- ============================================================ known types

/-- The types of the operands for what is of these types. -/
def OfKinds (kinds : Ident → Ty → Prop) (id : Ident) (t : Llvm.Ty) : Prop :=
  ∃ u, kinds id u ∧ t = .ofTy u

section

variable {kinds : Ident → Ty → Prop} {v : Value} {t : Llvm.Ty}

/-- The operand for a value has the type of the value. -/
theorem eq_ofTy_of_mayBe (ht : v.MayBe (OfKinds kinds) t) (hv : v.Agrees kinds) :
    t = .ofTy v.ty := by
  cases v with
  | bits | bool | initial | arg | entry => exact ht
  | assigned | phi | returned =>
      obtain ⟨u, hu, rfl⟩ := ht
      exact congrArg Llvm.Ty.ofTy (hv _ rfl u hu)

/-- A result has the type that is its own, as operands are of the types of their values. -/
theorem ResultTy.eq_ofTy {vs : List Value} {u : Ty} (ht : ResultTy (OfKinds kinds) vs u t)
    (hvs : ∀ v ∈ vs, v.Agrees kinds) : t = .ofTy u := by
  rcases ht with rfl | ⟨v, hv, rfl, ht⟩
  · rfl
  · exact eq_ofTy_of_mayBe ht (hvs v hv)

end

section

variable {env : Env} {b : RoutineBlock} {s s' : State} {α β : Type} {m : Step α}

/-- The operand for the right-hand side of a made assignment has the type of the
assignment, whatever numbers there are. -/
theorem obtains_operandOf_ty {kinds : Ident → Ty → Prop} {a : Assignment Value}
    (hmade : Assignment.make a.id a.rhs = .ok a) (hops : ∀ v ∈ a.rhs.operands, v.Agrees kinds) :
    Obtains (OfKinds kinds) False (operandOf env a.rhs) (·.ty = .ofTy a.ty) :=
  (obtains_operandOf hmade False.elim).imp fun _ hx => hx.eq_ofTy hops

/-- A result is bound to an identifier of its type. -/
theorem Held.bindResult {kinds : Ident → Ty → Prop} (hs : Held (OfKinds kinds) s)
    {m : Step Typed} {id : Ident} {t : Ty} {x : Typed}
    (hm : Obtains (OfKinds kinds) False m (·.ty = .ofTy t)) (ht : kinds id t)
    (hx : Succeeds m s x s') : Held (OfKinds kinds) ((Step.bind id x).after s') := by
  have hs' : Held (OfKinds kinds) s' := after_of_succeeds hx ▸ hm.keeps hs
  exact hs'.bind ⟨t, ht, hm.result hs hx⟩

/-- At every point operands are of the types of what they stand for. -/
theorem Point.held (hb : b.Coherent) (h : Point env b s) : Held (OfKinds b.BindsAs) s := by
  induction h with
  | start hempty =>
      intro id x hx
      rw [hempty] at hx
      contradiction
  | quiet _ hv ih => exact ih.of_values hv
  | phi _ hp ih => exact ih.bind ⟨_, RoutineBlock.bindsAs_phi hp, rfl⟩
  | assigned _ ha hx ih =>
      have hops := fun v hv => hb.reads v (RoutineBlock.mem_reads_of_stmt ha hv)
      refine ih.bindResult (obtains_operandOf_ty (hb.made _ ha) hops) ?_ hx
      exact RoutineBlock.bindsAs_of_stmt ha List.mem_cons_self
  | returned _ hc hv hx ih =>
      refine ih.bindResult (obtains_resultOf _ _ _ _) ?_ hx
      exact RoutineBlock.bindsAs_of_stmt hc (List.mem_map.2 ⟨_, hv, rfl⟩)

-- ============================================================= the lowering

/-- The step leads from points to points, whether or not it succeeds. -/
def Passes (env : Env) (b : RoutineBlock) (m : Step α) : Prop :=
  ∀ s, Point env b s → Point env b (m.after s)

/-- One step after the other. -/
theorem Passes.bind {f : α → Step β} (h : Passes env b m) (hf : ∀ a, Passes env b (f a)) :
    Passes env b (m >>= f) := by
  intro s hs
  rcases after_bind m f s with ⟨-, hend⟩ | ⟨a, -, hend⟩
  · rw [hend]
    exact h s hs
  · rw [hend]
    exact hf a _ (h s hs)

/-- A confined step binds nothing. -/
theorem Confined.passes (h : Confined Reach.all m) : Passes env b m :=
  fun s hs => .quiet hs (h.after_values s)

theorem passes_pure (a : α) : Passes env b (pure a : Step α) := fun _ hs => hs

theorem passes_check (x : Except CodeError α) : Passes env b (Step.check x) := fun _ hs => hs

/-- A result that is bound, if there is one. -/
theorem passes_bindResult {m : Step Typed} {id : Ident} (hm : Confined Reach.all m)
    (hbind : ∀ {s x s'}, Point env b s → Succeeds m s x s' →
      Point env b ((Step.bind id x).after s')) : Passes env b (m >>= Step.bind id) := by
  intro s hs
  rcases after_bind m (Step.bind id) s with ⟨-, hend⟩ | ⟨x, hx, hend⟩
  · rw [hend]
    exact hm.passes s hs
  · rw [hend]
    exact hbind hs hx

theorem passes_bindPhis {ps : List PhiBinding} (h : ps ⊆ b.phis) : Passes env b (bindPhis ps) := by
  induction ps with
  | nil => exact passes_pure ()
  | cons p ps ih =>
      obtain ⟨hp, hps⟩ := List.cons_subset.1 h
      have hphi : Passes env b
          (Step.bind p.var.id ⟨.ofTy p.var.ty, .reg (.var p.var.id)⟩) := fun _ hs => hs.phi hp
      exact hphi.bind fun _ => ih hps

theorem passes_bindResults {c : Call} (hc : .call c ∈ b.stmts) (results : Typed)
    (i : Nat) {vs : List Variable} (h : vs ⊆ c.returns) (ts : List Ty) :
    Passes env b (bindResults results i vs ts) := by
  induction vs generalizing i ts with
  | nil => cases ts <;> exact passes_pure ()
  | cons v vs ih =>
      cases ts with
      | nil => exact passes_pure ()
      | cons t ts =>
          obtain ⟨hv, hvs⟩ := List.cons_subset.1 h
          have hresult : Confined Reach.all (resultOf results i v t) := inferInstance
          rw [bindResults_cons]
          refine (passes_bindResult hresult ?_).bind fun _ => ih (i + 1) hvs ts
          exact fun hs hx => hs.returned hc hv hx

theorem passes_call {c : Call} (hc : .call c ∈ b.stmts) : Passes env b (call env c) := by
  have hresults : Confined Reach.all (callResults env false c.dest c.signature c.args) :=
    confined_callResults false c.signature fun _ _ => inferInstance
  refine hresults.passes.bind fun r => ?_
  split
  · exact Confined.passes inferInstance
  · exact passes_bindResults hc r 0 (List.Subset.refl _) _

/-- A statement of the block binds at the types of the block. -/
theorem passes_stmt {st : Stmt} (hst : st ∈ b.stmts) : Passes env b (stmt env st) := by
  have hreach : ∀ v : Value, Reach.all.Has v := fun _ => inferInstance
  cases st with
  | assign a =>
      rw [stmt, assignment_eq]
      refine passes_bindResult (confined_operandOf a.rhs fun v _ => hreach v) ?_
      exact fun hs hx => hs.assigned hst hx
  | write addr l v => exact Confined.passes (inferInstanceAs (Confined _ (write env addr l v)))
  | writeIf c addr l v =>
      exact Confined.passes (inferInstanceAs (Confined _ (writeIf env c addr l v)))
  | call c => exact passes_call hst
  | machine s => exact (confined_machineStmt s fun v _ => hreach v).passes
  | comment | instruction =>
      have hcomment : ∀ text, Confined Reach.all (Step.emit (.comment text)) := fun text =>
        .emit fun _ _ => trivial
      unfold stmt
      exact Confined.passes inferInstance

theorem passes_stmts {sts : List Stmt} (h : sts ⊆ b.stmts) :
    Passes env b (sts.forM (stmt env)) := by
  induction sts with
  | nil => exact passes_pure ()
  | cons st sts ih =>
      obtain ⟨hst, hsts⟩ := List.cons_subset.1 h
      exact (passes_stmt hst).bind fun _ => ih hsts

/-- The lowering of a block binds at the types of the block. -/
theorem passes_blockBody (signature : Signature) (map : BlockMap RoutineBlock) :
    Passes env b (blockBody env signature map b) := by
  refine (passes_bindPhis (List.Subset.refl _)).bind fun _ => ?_
  refine (passes_stmts (List.Subset.refl _)).bind fun _ => (passes_check _).bind fun wanted => ?_
  refine (confined_exitOperands (fun _ _ _ => inferInstance) _ _).passes.bind fun exits => ?_
  refine (confined_transfer _ _ fun _ _ => inferInstance).passes.bind fun terminator => ?_
  exact fun _ hs => hs

end

-- ================================================================= routines

/-- The types of operands at a point of the lowering of a block: of what is bound, of the
values of the routine, and of the right-hand sides that can be made from these. -/
structure OperandsTyped (r : Routine) (env : Env) (b : RoutineBlock) (s : State) : Prop where
  bound : ∀ id x, s.values.get? id = some x →
    (∃ t, b.BindsAs id t) ∧ ∀ t, b.BindsAs id t → x.ty = .ofTy t
  value : ∀ v, r.Reads v → ∀ x s', Succeeds (value env v) s x s' → x.ty = .ofTy v.ty
  rhs : ∀ a : Assignment Value, Assignment.make a.id a.rhs = .ok a →
    (∀ v ∈ a.rhs.operands, r.Reads v) →
    ∀ x s', Succeeds (operandOf env a.rhs) s x s' → x.ty = .ofTy a.ty

/-- Operands have the types of what they stand for at every point of the lowering of a
block, and so after any number of its phi variables and of its statements, and where it
ends or stops. -/
theorem operandsTyped_points {r : Routine} (hr : r.Coherent)
    (hmade : ∀ b ∈ r.blocks, ∀ a, .assign a ∈ b.stmts → Assignment.make a.id a.rhs = .ok a)
    {b : RoutineBlock} (hb : b ∈ r.blocks) (env : Env) :
    (∀ s, Point env b s → OperandsTyped r env b s)
      ∧ ∀ (s : State) (n : Nat) (map : BlockMap RoutineBlock), s.values = ∅ →
        Point env b ((bindPhis (b.phis.take n)).after s)
        ∧ Point env b ((bindPhis b.phis >>= fun _ => (b.stmts.take n).forM (stmt env)).after s)
        ∧ Point env b ((blockBody env r.signature map b).after s) := by
  have hcoherent := hr.block hb (hmade b hb)
  refine ⟨fun s hs => ?_, fun s n map hempty => ?_⟩
  · have hheld := hs.held hcoherent
    refine ⟨fun id x hx => ?_, fun v hv x s' hrun => ?_, fun a ha hops x s' hrun => ?_⟩
    · obtain ⟨t, ht, hty⟩ := hheld id x hx
      refine ⟨⟨t, ht⟩, fun u hu => ?_⟩
      rw [hr id u t (.inl ⟨b, hb, hu⟩) (.inl ⟨b, hb, ht⟩)]
      exact hty
    · have hvalue : Obtains (OfKinds b.BindsAs) False (value env v) _ := obtains_value env v
      exact eq_ofTy_of_mayBe (hvalue.result hheld hrun) (hr.agrees hb hv)
    · have hagree : ∀ v ∈ a.rhs.operands, v.Agrees b.BindsAs := fun v hv =>
        hr.agrees hb (hops v hv)
      exact (obtains_operandOf_ty ha hagree).result hheld hrun
  · have hstart : Point env b s := .start hempty
    refine ⟨?_, ?_, ?_⟩
    · exact passes_bindPhis (List.take_subset n _) s hstart
    · refine (passes_bindPhis (List.Subset.refl _)).bind (fun _ => ?_) s hstart
      exact passes_stmts (List.take_subset n _)
    · exact passes_blockBody _ map s hstart

/-- What the machine says of itself. -/
def identify : Assignment Value :=
  ⟨0, .machine (.cpuid (.arg 0 (.bits 32)) (.arg 1 (.bits 32))),
    .tuple (List.replicate 4 (.bits 32))⟩

/-- The first of the four words. -/
def signatureWord : Assignment Value :=
  ⟨1, .app (.field (List.replicate 4 (.bits 32)) (.assigned identify) 0), .bits 32⟩

/-- A read of the other byte order, unless the condition is false. -/
def swappedWord : Assignment Value :=
  ⟨2, .readIf (.bits 4 .big) (.bool true) (.arg 2 (.bits 64)) (.assigned signatureWord), .bits 32⟩

/-- A block that returns a word with its bytes reversed. -/
def wordBlock : RoutineBlock where
  label := 4096
  size := 4
  phis := []
  stmts := [.assign identify, .assign signatureWord, .assign swappedWord]
  transfer := .ret [some (.assigned swappedWord)]
  exits := ∅

/-- A routine of the one block. -/
def wordRoutine : Routine where
  name := "f"
  addr := 4096
  signature := ⟨[.bits 32, .bits 32, .bits 64], [.bits 32], false⟩
  entry := 4096
  blocks := [wordBlock]

/-- The values of the routine. -/
def wordValues : List Value :=
  [.arg 0 (.bits 32), .arg 1 (.bits 32), .assigned identify, .bool true, .arg 2 (.bits 64),
    .assigned signatureWord, .assigned swappedWord]

/-- The routine reads no others than these values. -/
theorem mem_wordValues {v : Value} (h : wordRoutine.Reads v) : v ∈ wordValues := by
  obtain ⟨b, hb, u, hu, hv⟩ := h
  obtain rfl := List.mem_singleton.1 hb
  have hreads : wordBlock.reads = wordValues := rfl
  refine hv.of_closed (P := (· ∈ wordValues)) (fun a ha w hw => ?_) (hreads ▸ hu)
  have hcases : a = identify ∨ a = signatureWord ∨ a = swappedWord := by
    simpa [wordValues] using ha
  rcases hcases with rfl | rfl | rfl
  · exact List.mem_of_mem_take (i := 2) hw
  · exact List.mem_of_mem_take (i := 3) (List.mem_of_mem_drop (i := 2) hw)
  · exact List.mem_of_mem_take (i := 6) (List.mem_of_mem_drop (i := 3) hw)

/-- Each identifier of the routine stands for values of one type. -/
theorem coherent_wordRoutine : wordRoutine.Coherent := by
  have hname : ∀ id t, wordRoutine.Names id t → (id, t) ∈ wordBlock.typings := by
    have hvalues : ∀ v ∈ wordValues, ∀ e ∈ v.name?, e ∈ wordBlock.typings := by decide
    rintro id t (⟨b, hb, h⟩ | ⟨v, hv, hname⟩)
    · obtain rfl := List.mem_singleton.1 hb
      exact h
    · exact hvalues v (mem_wordValues hv) _ hname
  intro id t u ht hu
  have hone : ∀ e ∈ wordBlock.typings, ∀ e' ∈ wordBlock.typings, e.1 = e'.1 → e.2 = e'.2 := by
    decide
  exact hone _ (hname id t ht) _ (hname id u hu) rfl

/-- The surroundings of the block. -/
def wordEnv : Env := ⟨⟨default, .little⟩, 4096, wordRoutine.signature.args⟩

/-- Where the lowering of the block ends. -/
def wordEnd : State :=
  (blockBody wordEnv wordRoutine.signature ⟨[wordBlock], ∅⟩ wordBlock).after
    ⟨0, ∅, ∅, #[], #[]⟩

/-- The block is lowered to its end, where all three assignments are bound. -/
theorem operandsTyped_wordEnd : wordRoutine.Coherent
    ∧ (∀ b ∈ wordRoutine.blocks, ∀ a, .assign a ∈ b.stmts → Assignment.make a.id a.rhs = .ok a)
    ∧ OperandsTyped wordRoutine wordEnv wordBlock wordEnd
    ∧ (∃ x, wordEnd.values.get? 0 = some x ∧ x.ty = .struct (List.replicate 4 (.int 32)))
    ∧ (∃ x, wordEnd.values.get? 1 = some x ∧ x.ty = .int 32)
    ∧ ∃ x, wordEnd.values.get? 2 = some x ∧ x.ty = .int 32 := by
  have hmade : ∀ b ∈ wordRoutine.blocks, ∀ a, .assign a ∈ b.stmts →
      Assignment.make a.id a.rhs = .ok a := by
    intro b hb a ha
    obtain rfl := List.mem_singleton.1 hb
    have hcases : a = identify ∨ a = signatureWord ∨ a = swappedWord := by
      simpa [wordBlock] using ha
    rcases hcases with rfl | rfl | rfl <;> rfl
  obtain ⟨htyped, hpoints⟩ := operandsTyped_points coherent_wordRoutine hmade
    (List.mem_singleton.2 rfl) wordEnv
  have hend : OperandsTyped wordRoutine wordEnv wordBlock wordEnd :=
    htyped _ (hpoints _ 0 _ rfl).2.2
  have hbinds : ∀ {id t}, (id, t) ∈ wordBlock.typings → (wordEnd.values.get? id).isSome = true →
      ∃ x, wordEnd.values.get? id = some x ∧ x.ty = .ofTy t := by
    intro id t ht hsome
    obtain ⟨x, hx⟩ := Option.isSome_iff_exists.1 hsome
    exact ⟨x, hx, (hend.bound id x hx).2 t ht⟩
  refine ⟨coherent_wordRoutine, hmade, hend, ?_, ?_, ?_⟩
  · exact hbinds (t := identify.ty) (by decide) (by decide +kernel)
  · exact hbinds (t := .bits 32) (by decide) (by decide +kernel)
  · exact hbinds (t := .bits 32) (by decide) (by decide +kernel)

end Lowering

end LiftedCode
