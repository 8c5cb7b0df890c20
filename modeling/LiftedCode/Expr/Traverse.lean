/-
Traversal: a walk through the assignments that a value is made of, operands
before the assignments that read them, from left to right. Assignments are
shared, so a walk that followed every reference would take exponential time;
this one asks before each step whether the assignment has been dealt with
under its identifier, and keeps what is still to do on a stack of its own, so
long chains of assignments are no deeper than short ones.
-/
import LiftedCode.Expr.Value

namespace LiftedCode

/-- Something that the traversal still has to do. -/
inductive Pending where
  /-- Go through the operands of an assignment, then finish it. -/
  | visit (a : Assignment Value)
  /-- Finish an assignment whose operands are done. -/
  | finish (a : Assignment Value)

namespace Pending

/-- The assignment that the task is about. -/
def assignment : Pending → Assignment Value
  | visit a | finish a => a

/-- A bound on the steps that a pending task can lead to. -/
noncomputable def weight : Pending → Nat
  | visit a => 2 * sizeOf a
  | finish _ => 1

/-- A bound on the steps that several pending tasks can lead to. -/
noncomputable def totalWeight : List Pending → Nat
  | [] => 0
  | p :: ps => p.weight + totalWeight ps

/-- The weight of two lists of tasks together. -/
theorem totalWeight_append (ps qs : List Pending) :
    totalWeight (ps ++ qs) = totalWeight ps + totalWeight qs := by
  induction ps with
  | nil => simp only [List.nil_append, totalWeight, Nat.zero_add]
  | cons p ps ih => simp only [List.cons_append, totalWeight, ih, Nat.add_assoc]

theorem totalWeight_filter_le (keep : Pending → Bool) (ps : List Pending) :
    totalWeight (ps.filter keep) ≤ totalWeight ps := by
  induction ps with
  | nil => exact Nat.le_refl _
  | cons p ps ih =>
    rw [List.filter_cons]
    split
    · exact Nat.add_le_add_left ih _
    · exact Nat.le_trans ih (Nat.le_add_left _ _)

/-- The visits to the assignments among some values. -/
def visits (vs : List Value) : List Pending := vs.filterMap fun v => v.assignment?.map visit

end Pending

-- ============================================================ measure

/-- The sizes of several values together. -/
noncomputable def Value.totalSize : List Value → Nat
  | [] => 0
  | v :: vs => sizeOf v + totalSize vs

/-- The operands of an operation are together smaller than the operation. -/
theorem App.totalSize_operands_lt (a : App Value) :
    Value.totalSize a.operands < sizeOf a := by
  cases a <;>
    simp only [App.operands, Value.totalSize, App.eq.sizeOf_spec, App.mux.sizeOf_spec,
      App.logic.sizeOf_spec, App.not.sizeOf_spec, App.resize.sizeOf_spec,
      App.bitcast.sizeOf_spec, App.field.sizeOf_spec, App.concat.sizeOf_spec,
      App.evenParity.sizeOf_spec, App.unary.sizeOf_spec, App.binary.sizeOf_spec,
      App.carry.sizeOf_spec, App.floatUnary.sizeOf_spec, App.floatBinary.sizeOf_spec,
      App.floatConvert.sizeOf_spec, App.floatOfSigned.sizeOf_spec,
      App.signedOfFloat.sizeOf_spec] <;>
    omega

/-- The operands of a machine function are together smaller than the function. -/
theorem MachineFn.totalSize_operands_lt (f : MachineFn Value) :
    Value.totalSize f.operands < sizeOf f := by
  cases f <;>
    simp only [MachineFn.operands, Value.totalSize, MachineFn.readFsBase.sizeOf_spec,
      MachineFn.readGsBase.sizeOf_spec, MachineFn.cpuid.sizeOf_spec,
      MachineFn.readTimestamp.sizeOf_spec, MachineFn.readControl.sizeOf_spec,
      MachineFn.shuffleBytes.sizeOf_spec] <;>
    omega

theorem Assignment.sizeOf_pos (a : Assignment Value) : 0 < sizeOf a := by
  cases a
  simp only [Assignment.mk.sizeOf_spec]
  omega

/-- The operands of an assignment are together smaller than the assignment. -/
theorem Assignment.totalSize_operands_lt (a : Assignment Value) :
    Value.totalSize a.rhs.operands < sizeOf a := by
  obtain ⟨id, rhs, ty⟩ := a
  cases rhs with
  | app a =>
    have h := App.totalSize_operands_lt a
    simp only [Rhs.operands, Assignment.mk.sizeOf_spec, Rhs.app.sizeOf_spec]
    omega
  | machine f =>
    have h := MachineFn.totalSize_operands_lt f
    simp only [Rhs.operands, Assignment.mk.sizeOf_spec, Rhs.machine.sizeOf_spec]
    omega
  | undefined t =>
    simp only [Rhs.operands, Value.totalSize, Assignment.mk.sizeOf_spec]
    omega
  | read v l =>
    simp only [Rhs.operands, Value.totalSize, Assignment.mk.sizeOf_spec,
      Rhs.read.sizeOf_spec]
    omega
  | readIf l c v d =>
    simp only [Rhs.operands, Value.totalSize, Assignment.mk.sizeOf_spec,
      Rhs.readIf.sizeOf_spec]
    omega

/-- Visits weigh no more than twice the values that they come from. -/
theorem Pending.totalWeight_visits_le (vs : List Value) :
    totalWeight (visits vs) ≤ 2 * Value.totalSize vs := by
  induction vs with
  | nil => exact Nat.zero_le _
  | cons v vs ih =>
    cases v with
    | assigned a =>
      have h : visits (.assigned a :: vs) = visit a :: visits vs := rfl
      simp only [h, totalWeight, weight, Value.totalSize, Value.assigned.sizeOf_spec]
      omega
    | bits | bool | initial | phi | returned | arg | entry =>
      refine Nat.le_trans (show _ ≤ _ from ih) ?_
      simp only [Value.totalSize]
      omega

-- ============================================================ the walk

/-- What a traversal does: how it tells from its state whether an identifier
has been dealt with, and how it finishes an assignment. -/
structure Traversal (m : Type → Type) (σ : Type) where
  done : σ → Ident → Bool
  finish : Assignment Value → σ → m σ

namespace Traversal

variable {m : Type → Type} [Monad m] {σ : Type}

/-- The visits to those assignments among some values that are not dealt with. -/
def waiting (t : Traversal m σ) (s : σ) (vs : List Value) : List Pending :=
  (Pending.visits vs).filter fun p => !t.done s p.assignment.id

omit [Monad m] in
/-- What waits weighs no more than twice the values that it comes from. -/
theorem totalWeight_waiting_le (t : Traversal m σ) (s : σ) (vs : List Value) :
    Pending.totalWeight (t.waiting s vs) ≤ 2 * Value.totalSize vs :=
  Nat.le_trans (Pending.totalWeight_filter_le _ _) (Pending.totalWeight_visits_le vs)

/-- Work through the pending tasks. An assignment is asked after both before
its operands are visited and before it is finished, since it may wait more than
once, and one of the operands may go under the same identifier. -/
def run (t : Traversal m σ) : List Pending → σ → m σ
  | [], s => pure s
  | .visit a :: rest, s =>
    if t.done s a.id then t.run rest s
    else t.run (t.waiting s a.rhs.operands ++ .finish a :: rest) s
  | .finish a :: rest, s =>
    if t.done s a.id then t.run rest s
    else do
      let s ← t.finish a s
      t.run rest s
termination_by tasks => Pending.totalWeight tasks
decreasing_by
  · have h := a.sizeOf_pos
    simp only [Pending.totalWeight, Pending.weight]
    omega
  · have h₁ := t.totalWeight_waiting_le s a.rhs.operands
    have h₂ := a.totalSize_operands_lt
    simp only [Pending.totalWeight_append, Pending.totalWeight, Pending.weight]
    omega
  all_goals
    simp only [Pending.totalWeight, Pending.weight]
    omega

/-- Walk through the assignments of a value. -/
def walk (t : Traversal m σ) (v : Value) (s : σ) : m σ := t.run (Pending.visits [v]) s

end Traversal

end LiftedCode
