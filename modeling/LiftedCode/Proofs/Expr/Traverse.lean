/-
The order of a traversal. It works through a list of pending tasks, and before the
task to finish an assignment come the tasks for whatever the assignment reads that
is not dealt with (`Pending.Ordered`). Visits put such tasks in front of others in
this order again (`ordered_of_visit`), so that an assignment is finished only when
the assignments that it reads are ready.
-/
import LiftedCode.Expr.Traverse

namespace LiftedCode

/-- Induction on what a value is made of. -/
@[elab_as_elim]
theorem Value.recOperands {P : Value → Prop} (leaf : ∀ v : Value, v.assignment? = none → P v)
    (assigned : ∀ a : Assignment Value, (∀ v ∈ a.rhs.operands, P v) → P (.assigned a))
    (v : Value) : P v :=
  match v with
  | .assigned a => assigned a fun u _ => recOperands leaf assigned u
  | .bits _ | .bool _ | .initial _ | .phi _ | .returned _ | .arg _ _ | .entry _ => leaf _ rfl
termination_by sizeOf v
decreasing_by
  have hlt := Assignment.sizeOf_lt_of_mem_operands ‹_›
  simp only [Value.assigned.sizeOf_spec]
  omega

-- ========================================================== pending tasks

namespace Pending

variable {ready ready' : Ident → Prop} {ps : List Pending}

/-- What the task needs is ready: an assignment is not finished before the
assignments that it reads. -/
def Supplied (ready : Ident → Prop) : Pending → Prop
  | visit _ => True
  | finish a => ∀ b, .assigned b ∈ a.rhs.operands → ready b.id

/-- The tasks are supplied if they are carried out in order, each of which makes
its own assignment ready. -/
def Ordered (ready : Ident → Prop) : List Pending → Prop
  | [] => True
  | p :: ps => p.Supplied ready ∧ Ordered (fun i => ready i ∨ i = p.assignment.id) ps

theorem Supplied.mono {p : Pending} (h : p.Supplied ready) (hready : ∀ i, ready i → ready' i) :
    p.Supplied ready' := by
  cases p with
  | visit a => trivial
  | finish a => exact fun b hb => hready b.id (h b hb)

theorem Ordered.mono (h : Ordered ready ps) (hready : ∀ i, ready i → ready' i) :
    Ordered ready' ps := by
  induction ps generalizing ready ready' with
  | nil => trivial
  | cons p ps ih => exact ⟨h.1.mono hready, ih h.2 fun i => Or.imp_left (hready i)⟩

/-- Visits do not need anything. -/
theorem Ordered.append {vs : List Pending} (hvs : ∀ p ∈ vs, ∃ a, p = visit a)
    (h : Ordered (fun i => ready i ∨ ∃ p ∈ vs, p.assignment.id = i) ps) :
    Ordered ready (vs ++ ps) := by
  induction vs generalizing ready with
  | nil => exact h.mono fun i hi => hi.resolve_right fun ⟨_, hp, _⟩ => List.not_mem_nil hp
  | cons p vs ih =>
      obtain ⟨a, rfl⟩ := hvs p List.mem_cons_self
      refine ⟨trivial, ih (fun q hq => hvs q (List.mem_cons_of_mem _ hq)) (h.mono ?_)⟩
      rintro i (hi | ⟨q, hq, rfl⟩)
      · exact .inl (.inl hi)
      · rcases List.mem_cons.1 hq with rfl | hq
        · exact .inl (.inr rfl)
        · exact .inr ⟨q, hq, rfl⟩

theorem mem_visits {vs : List Value} {p : Pending} :
    p ∈ visits vs ↔ ∃ a, .assigned a ∈ vs ∧ p = visit a := by
  rw [visits, List.mem_filterMap]
  constructor
  · rintro ⟨v, hv, hp⟩
    obtain ⟨a, ha, rfl⟩ := Option.map_eq_some_iff.1 hp
    cases v with
    | assigned b =>
        cases ha
        exact ⟨a, hv, rfl⟩
    | bits | bool | initial | phi | returned | arg | entry => contradiction
  · rintro ⟨a, ha, rfl⟩
    exact ⟨.assigned a, ha, rfl⟩

end Pending

namespace Traversal

variable {m : Type → Type} {σ : Type} {t : Traversal m σ} {s : σ}

/-- What waits is what is not dealt with. -/
theorem mem_waiting {vs : List Value} {p : Pending} : p ∈ t.waiting s vs
      ↔ ∃ a, .assigned a ∈ vs ∧ t.done s a.id = false ∧ p = .visit a := by
  rw [waiting, List.mem_filter, Pending.mem_visits]
  constructor
  · rintro ⟨⟨a, ha, rfl⟩, hp⟩
    exact ⟨a, ha, by simpa [Pending.assignment] using hp, rfl⟩
  · rintro ⟨a, ha, hdone, rfl⟩
    exact ⟨⟨a, ha, rfl⟩, by simpa [Pending.assignment] using hdone⟩

/-- What holds for the assignments among operands holds for what waits. -/
theorem forall_waiting {P : Assignment Value → Prop} {a : Assignment Value}
    (h : ∀ b, .assigned b ∈ a.rhs.operands → P b) :
    ∀ p ∈ t.waiting s a.rhs.operands, P p.assignment := by
  intro p hp
  obtain ⟨b, hb, -, rfl⟩ := mem_waiting.1 hp
  exact h b hb

/-- The operands of an assignment may have their turn in place of its visit. -/
theorem ordered_of_visit {ready : Ident → Prop} (hdone : ∀ i, t.done s i = true → ready i)
    {a : Assignment Value} {rest : List Pending}
    (h : Pending.Ordered ready (.visit a :: rest)) :
    Pending.Ordered ready (t.waiting s a.rhs.operands ++ .finish a :: rest) := by
  refine .append (fun p hp => ?_) ⟨fun b hb => ?_, h.2.mono fun i hi => hi.imp_left .inl⟩
  · obtain ⟨b, -, -, rfl⟩ := mem_waiting.1 hp
    exact ⟨b, rfl⟩
  · -- an operand is ready, or its turn comes before the assignment is finished
    cases hbd : t.done s b.id with
    | true => exact .inl (hdone b.id hbd)
    | false => exact .inr ⟨.visit b, mem_waiting.2 ⟨b, hb, hbd, rfl⟩, rfl⟩

end Traversal

end LiftedCode
