/-
Statements without faults. An operand has the type that its identifier was bound with.
That is the type of the variable or of the assignment, or, where code refers to an
assignment under an identifier that something else is bound to, the type of that: an
operation whose result is of an operand's type passes it on (`Carries`).

What a block asks of numbers is said statement by statement (`StmtInRange`), and of the
widths that it reverses apart from that (`Reverses`), as these may come from other
statements than the one that reverses them. Writes are not checked when they are made,
so their layouts and values come into it as well.
-/
import LiftedCode.Lowering.Stmt
import LiftedCode.Proofs.Lowering.Types.Stmt

namespace LiftedCode.Lowering

open Llvm (Typed)

-- ================================================================ types

/-- The types that an identifier may have been bound with in a block. -/
inductive Carries (b : RoutineBlock) : Ident → Llvm.Ty → Prop where
  | phi {p : PhiBinding} (h : p ∈ b.phis) : Carries b p.var.id (.ofTy p.var.ty)
  | returned {c : Call} {v : Variable} (h : .call c ∈ b.stmts) (hv : v ∈ c.returns) :
    Carries b v.id (.ofTy v.ty)
  | assigned {a : Assignment Value} (h : .assign a ∈ b.stmts) : Carries b a.id (.ofTy a.ty)
  /-- A result of the type of an operand may be of the type of what that refers to. -/
  | passed {a : Assignment Value} {v : Value} {id : Ident} {t : Llvm.Ty} (h : .assign a ∈ b.stmts)
    (hv : v ∈ a.rhs.operands) (hty : v.ty = a.ty) (hid : v.ident? = some id)
    (ht : Carries b id t) : Carries b a.id t

/-- Whether the widths of all that identifiers may have been bound with are 32-bit
numbers. -/
def BindingsFit (b : RoutineBlock) : Prop := ∀ id t, Carries b id t → t.widthFits = true

/-- Whether the operand for a value may have the type. -/
def OperandTy (b : RoutineBlock) (v : Value) (t : Llvm.Ty) : Prop :=
  match v.ident? with
  | some id => Carries b id t
  | none => t = .ofTy v.ty

-- ============================================================== numbers

/-- What a statement asks of the numbers that its lowering computes: the widths of
its types, of its layout and of its value are 32-bit numbers, and the address of an
instruction mark, where those become comments, is a 64-bit number. -/
def StmtInRange (target : Target) (b : RoutineBlock) : Stmt → Prop
  | .assign a => a.ty.widthFits = true
  | .write _ l v | .writeIf _ _ l v => l.bitsFit = true ∧ v.ty.widthFits = true
  | .call c => ∀ v ∈ c.returns, v.ty.widthFits = true
  | .instruction offset _ => target.options.comments = true → b.label + offset < Address.limit
  | .machine _ | .comment _ => True

/-- The widths of the integers whose bytes a statement reverses, on a target of a
byte order: those of the operands that the operation is for, and where a layout has
the other order, those that come from memory or go there. -/
inductive Reverses (b : RoutineBlock) (order : ByteOrder) : Stmt → Nat → Prop where
  | operation {a : Assignment Value} {n w : Nat} {v : Value}
    (h : a.rhs = .app (.unary .reverseBytes n v)) (hv : OperandTy b v (.int w)) :
    Reverses b order (.assign a) w
  | read {a : Assignment Value} {addr : Value} {l : Layout} {w : Nat} (h : a.rhs = .read addr l)
    (hl : l.order ≠ order) (hw : reversedWidth? l (.ofTy l.ty) = some w) :
    Reverses b order (.assign a) w
  | readIf {a : Assignment Value} {c addr d : Value} {l : Layout} {w : Nat}
    (h : a.rhs = .readIf l c addr d) (hl : l.order ≠ order)
    (hw : reversedWidth? l (.ofTy l.ty) = some w) : Reverses b order (.assign a) w
  | default {a : Assignment Value} {c addr d : Value} {l : Layout} {t : Llvm.Ty} {w : Nat}
    (h : a.rhs = .readIf l c addr d) (hl : l.order ≠ order) (hd : OperandTy b d t)
    (hw : reversedWidth? l t = some w) : Reverses b order (.assign a) w
  | write {addr v : Value} {l : Layout} {t : Llvm.Ty} {w : Nat} (hl : l.order ≠ order)
    (hv : OperandTy b v t) (hw : reversedWidth? l t = some w) :
    Reverses b order (.write addr l v) w
  | writeIf {c addr v : Value} {l : Layout} {t : Llvm.Ty} {w : Nat} (hl : l.order ≠ order)
    (hv : OperandTy b v t) (hw : reversedWidth? l t = some w) :
    Reverses b order (.writeIf c addr l v) w

/-- What a block asks of the numbers that its lowering computes. -/
structure InRange (target : Target) (b : RoutineBlock) : Prop where
  phis : ∀ p ∈ b.phis, p.var.ty.widthFits = true
  stmts : ∀ c ∈ b.stmts, StmtInRange target b c
  reversals : ∀ c ∈ b.stmts, ∀ w, Reverses b target.order c w → ReversalFits w

variable {b : RoutineBlock} {env : Env}

/-- Identifiers are bound with the types of variables and assignments. -/
theorem InRange.bindingsFit {target : Target} (h : InRange target b) : BindingsFit b := by
  intro id t ht
  induction ht with
  | phi hp =>
      rw [widthFits_ofTy]
      exact h.phis _ hp
  | returned hc hv =>
      rw [widthFits_ofTy]
      exact h.stmts _ hc _ hv
  | assigned ha =>
      rw [widthFits_ofTy]
      exact h.stmts _ ha
  | passed _ _ _ _ _ ih => exact ih

theorem operandTy_iff {v : Value} {t : Llvm.Ty} : OperandTy b v t ↔ v.MayBe (Carries b) t := Iff.rfl

/-- What a result may have, the identifier that it is bound to may carry. -/
theorem Carries.of_result {a : Assignment Value} (h : .assign a ∈ b.stmts) {t : Llvm.Ty}
    (ht : ResultTy (Carries b) a.rhs.operands a.ty t) : Carries b a.id t := by
  rcases ht with rfl | ⟨v, hv, hty, ht⟩
  · exact .assigned h
  · unfold Value.MayBe at ht
    cases hid : v.ident? with
    | some id =>
        rw [hid] at ht
        exact .passed h hv hty hid ht
    | none =>
        rw [hid] at ht
        obtain rfl : t = .ofTy v.ty := ht
        exact hty ▸ .assigned h

-- =========================================================== assignments

/-- The right-hand side of a made assignment of a block whose numbers fit. -/
theorem InRange.rhsFits (h : InRange env.target b) {a : Assignment Value}
    (ha : .assign a ∈ b.stmts) (hmade : Assignment.make a.id a.rhs = .ok a) :
    RhsFits (Carries b) env a.rhs := by
  obtain ⟨hcheck, hty⟩ := Assignment.of_make hmade
  have hwidth : a.ty.widthFits = true := h.stmts _ ha
  have haccess : ∀ l : Layout, l.checkedTy = .ok a.ty →
      l.bitsFit = true ∧ l.ty.widthFits = true := by
    intro l hl
    obtain ⟨hbits, hlty⟩ := ok_of_inRange hl
    exact ⟨hbits, hlty ▸ hwidth⟩
  refine ⟨h.bindingsFit, fun w v hrhs n hn => ?_, fun addr l hrhs => ?_,
    fun l c addr d hrhs => ?_, fun l c addr d hrhs t ht => ?_⟩
  · exact h.reversals _ ha n (.operation hrhs (operandTy_iff.2 hn))
  · rw [hrhs] at hty
    obtain ⟨hbits, hfits⟩ := haccess l hty
    refine ⟨hbits, (widthFits_ofTy l.ty).trans hfits, fun hl w hw => ?_⟩
    exact h.reversals _ ha w (.read hrhs hl hw)
  · rw [hrhs] at hty
    obtain ⟨hbits, hfits⟩ := haccess l hty
    refine ⟨hbits, (widthFits_ofTy l.ty).trans hfits, fun hl w hw => ?_⟩
    exact h.reversals _ ha w (.readIf hrhs hl hw)
  · rw [hrhs] at hcheck hty
    obtain ⟨hbits, hfits⟩ := haccess l hty
    obtain ⟨-, -, hd⟩ := Rhs.of_check_readIf hcheck
    refine ⟨hbits, widthFits_of_mayBe ht h.bindingsFit (hd ▸ hfits), fun hl w hw => ?_⟩
    exact h.reversals _ ha w (.default hrhs hl (operandTy_iff.2 ht) hw)

/-- A made assignment binds what it may. -/
theorem obtains_assignment (h : InRange env.target b) {a : Assignment Value}
    (ha : .assign a ∈ b.stmts) (hmade : Assignment.make a.id a.rhs = .ok a) :
    Obtains (Carries b) True (assignment env a) fun _ => True := by
  rw [assignment_eq]
  refine (obtains_operandOf hmade fun _ => h.rhsFits ha hmade).bind fun x hx => ?_
  exact obtains_bind (.of_result ha hx)

-- ================================================================== calls

section

variable {types : Ident → Llvm.Ty → Prop} {fits : Prop}

theorem obtains_calleeAt (dest : Value) :
    Obtains types fits (calleeAt env dest) fun _ => True := by
  refine (obtains_check (settles_expectTy _ _ _)).bind fun _ _ => ?_
  exact (obtains_address dest).bind fun _ _ => obtains_pure trivial

theorem obtains_callee (dest : Value) (s : Signature) :
    Obtains types fits (callee env dest s) fun _ => True := by
  refine obtains_guard nofun fun _ => ?_
  cases dest with
  | entry f =>
      refine obtains_guard nofun fun _ => ?_
      exact (obtains_declare _).bind fun _ _ => obtains_pure trivial
  | bits | bool | assigned | initial | phi | returned | arg => exact obtains_calleeAt _

theorem obtains_arguments (i : Nat) (vs : List Value) (ts : List Ty) :
    Obtains types fits (arguments env i vs ts) fun _ => True := by
  induction vs generalizing i ts with
  | nil => cases ts <;> exact obtains_pure trivial
  | cons v vs ih =>
      cases ts with
      | nil => exact obtains_pure trivial
      | cons t ts =>
          refine (obtains_check (settles_expectTy _ _ _)).bind fun _ _ => ?_
          refine (obtains_value env v).bind fun _ _ => ?_
          exact (ih (i + 1) ts).bind fun _ _ => obtains_pure trivial

theorem obtains_callResults (tail : Bool) (dest : Value) (s : Signature) (args : List Value) :
    Obtains types fits (callResults env tail dest s args) fun _ => True := by
  refine (obtains_callee dest s).bind fun f _ => ?_
  refine obtains_guard nofun fun _ => ?_
  refine (obtains_arguments 0 args s.args).bind fun _ _ => ?_
  exact (obtains_assign _ _).imp fun _ _ => trivial

theorem obtains_bindResults (results : Typed) (i : Nat) {vs : List Variable} (ts : List Ty)
    (h : ∀ v ∈ vs, types v.id (.ofTy v.ty)) :
    Obtains types fits (bindResults results i vs ts) fun _ => True := by
  induction vs generalizing i ts with
  | nil => cases ts <;> exact obtains_pure trivial
  | cons v vs ih =>
      obtain ⟨hv, hvs⟩ := List.forall_mem_cons.1 h
      cases ts with
      | nil => exact obtains_pure trivial
      | cons t ts =>
          have hbind : Obtains types fits (resultOf results i v t >>= Step.bind v.id)
              fun _ => True :=
            (obtains_resultOf results i v t).bind fun x hx => obtains_bind (hx ▸ hv)
          rw [bindResults_cons]
          exact hbind.bind fun _ _ => ih (i + 1) ts hvs

theorem obtains_callStmt {c : Call} (h : .call c ∈ b.stmts) :
    Obtains (Carries b) fits (call env c) fun _ => True := by
  refine (obtains_callResults false c.dest c.signature c.args).bind fun r _ => ?_
  refine obtains_guard nofun fun _ => ?_
  exact obtains_bindResults r 0 c.signature.rets fun v hv => .returned h hv

-- =========================================================== statements

theorem obtains_forwards (s : MachineStmt Value) (direction : Value) :
    Obtains types fits (forwards s direction) fun _ => True := by
  unfold forwards
  split
  · exact obtains_pure trivial
  · exact obtains_throw nofun

theorem obtains_lengthInBytes (count : Value) (bytes : Nat) :
    Obtains types fits (lengthInBytes env count bytes) fun _ => True := by
  refine (obtains_value env count).bind fun n _ => ?_
  split
  · exact obtains_pure trivial
  · exact (obtains_assign _ _).imp fun _ _ => trivial

theorem obtains_machineStmt (s : MachineStmt Value) :
    Obtains types fits (machineStmt env s) fun _ => True := by
  unfold machineStmt
  split
  · exact (obtains_address _).bind fun _ _ => obtains_emit _
  · refine (obtains_forwards _ _).bind fun _ _ => (obtains_address _).bind fun _ _ => ?_
    refine (obtains_address _).bind fun _ _ => (obtains_lengthInBytes _ _).bind fun _ _ => ?_
    exact obtains_callVoid _ _
  · refine (obtains_forwards _ _).bind fun _ _ => (obtains_address _).bind fun _ _ => ?_
    refine (obtains_value env _).bind fun _ _ => (obtains_lengthInBytes _ _).bind fun _ _ => ?_
    exact obtains_callVoid _ _
  · exact obtains_throw nofun
  · exact obtains_emit _

end

/-- A statement of a block has no faults, provided that its assignment was made. -/
theorem obtains_stmt (henv : env.label = b.label) (h : InRange env.target b) {c : Stmt}
    (hc : c ∈ b.stmts) (hmade : ∀ a, c = .assign a → Assignment.make a.id a.rhs = .ok a) :
    Obtains (Carries b) True (stmt env c) fun _ => True := by
  cases c with
  | assign a => exact obtains_assignment h hc (hmade a rfl)
  | write addr l v =>
      obtain ⟨hl, hv⟩ := h.stmts _ hc
      refine obtains_write fun _ t ht => ⟨hl, widthFits_of_mayBe ht h.bindingsFit hv, ?_⟩
      exact fun ho w hw => h.reversals _ hc w (.write ho (operandTy_iff.2 ht) hw)
  | writeIf c addr l v =>
      obtain ⟨hl, hv⟩ := h.stmts _ hc
      refine obtains_writeIf (fun _ => hl) fun _ t ht =>
        ⟨hl, widthFits_of_mayBe ht h.bindingsFit hv, ?_⟩
      exact fun ho w hw => h.reversals _ hc w (.writeIf ho (operandTy_iff.2 ht) hw)
  | call c => exact obtains_callStmt hc
  | machine s => exact obtains_machineStmt s
  | comment text =>
      simp only [stmt]
      split
      · exact obtains_emit _
      · exact obtains_pure trivial
  | instruction offset name =>
      simp only [stmt]
      split
      case isTrue hon =>
        have hmark : env.label + offset < Address.limit := henv ▸ h.stmts _ hc hon
        exact (obtains_ofFault fun _ => Address.settles_add hmark).bind fun _ _ => obtains_emit _
      case isFalse => exact obtains_pure trivial

end LiftedCode.Lowering
