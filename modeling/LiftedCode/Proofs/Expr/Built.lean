/-
Values that are built up assignment by assignment, as `Value.Built` says: leaves
are given, and an assignment is made from values that were built before it,
under an identifier of one's own or under a fresh one. No other assignment is
ever made, so an invariant of all of them is an induction over how they are
built.

The invariant here is that types have no parts of zero width. The checks keep it
everywhere but in one place. A choice is of the type of its arms and a field of
that of its tuple, and there the check compares types and asks for nothing else
(`Rhs.sources`). So a part of zero width is never made, but it is passed on: an
assignment has one only if a leaf has it that the assignment takes its type
from, through choices and fields alone (`nonempty_or_inherited`).
-/
import LiftedCode.Proofs.Expr.Checked

namespace LiftedCode

/-- A value whose assignments were all made from values built before. -/
inductive Value.Built : Value → Prop where
  | leaf {v : Value} (h : v.assignment? = none) : Built v
  | made {id : Ident} {rhs : Rhs Value} {a : Assignment Value} (hops : ∀ v ∈ rhs.operands, Built v)
    (h : Assignment.make id rhs = .ok a) : Built (.assigned a)
  | fresh {s s' : IdentSupply} {rhs : Rhs Value} {a : Assignment Value}
    (hops : ∀ v ∈ rhs.operands, Built v) (h : s.assign rhs = (.ok a, s')) : Built (.assigned a)

/-- `Inherits u v`: the type of `v`, or what it is part of, comes from `u` through
choices and fields. -/
inductive Value.Inherits : Value → Value → Prop where
  | self (v : Value) : Inherits v v
  | source {u v : Value} {a : Assignment Value} (hv : v ∈ a.rhs.sources) (h : Inherits u v) :
    Inherits u (.assigned a)

/-- What is made is made of the right-hand side that was given. -/
theorem Assignment.rhs_of_make {id : Ident} {rhs : Rhs Value} {a : Assignment Value}
    (h : Assignment.make id rhs = .ok a) :
    a.rhs = rhs ∧ rhs.check = .ok () ∧ rhs.ty = .ok a.ty := by
  obtain ⟨_, hcheck, h'⟩ := ok_of_bind h
  obtain ⟨t, ht, h'⟩ := ok_of_bind h'
  obtain rfl : (⟨id, rhs, t⟩ : Assignment Value) = a := Except.ok.inj h'
  exact ⟨rfl, hcheck, ok_of_mapError ht⟩

/-- What is bound to a fresh identifier is made under it. -/
theorem IdentSupply.make_of_assign {s s' : IdentSupply} {rhs : Rhs Value} {a : Assignment Value}
    (h : s.assign rhs = (.ok a, s')) : ∃ id, Assignment.make id rhs = .ok a := by
  unfold assign at h
  split at h
  case h_1 id s₁ _ => exact ⟨id, (Prod.mk.inj h).1⟩
  case h_2 => exact nomatch (Prod.mk.inj h).1

namespace Value

/-- A step of building: a new assignment has no part of zero width, or takes
over one that an operand has inherited. -/
theorem nonempty_or_inherited_step {id : Ident} {rhs : Rhs Value} {a : Assignment Value}
    (hops : ∀ v ∈ rhs.operands, v.ty.nonempty = true
      ∨ ∃ u : Value, u.Inherits v ∧ u.assignment? = none ∧ u.ty.nonempty = false)
    (h : Assignment.make id rhs = .ok a) :
    a.ty.nonempty = true
      ∨ ∃ u : Value, u.Inherits (.assigned a) ∧ u.assignment? = none ∧ u.ty.nonempty = false := by
  obtain ⟨rfl, hcheck, hty⟩ := Assignment.rhs_of_make h
  by_cases hsrc : ∀ v ∈ a.rhs.sources, v.ty.nonempty = true
  · exact .inl (Rhs.nonempty_ty hcheck hty hsrc)
  · simp only [not_forall] at hsrc
    obtain ⟨v, hv, hempty⟩ := hsrc
    rcases hops v (Rhs.mem_operands_of_mem_sources hv) with hn | ⟨u, hu, hleaf, hz⟩
    · exact absurd hn hempty
    · exact .inr ⟨u, .source hv hu, hleaf, hz⟩

/-- No assignment makes a part of zero width. Of whatever values it is built, its
type has none, unless it takes it, through choices and fields alone, from a leaf
whose type has one. -/
theorem nonempty_or_inherited {v : Value} (h : v.Built) :
    v.ty.nonempty = true
      ∨ ∃ u : Value, u.Inherits v ∧ u.assignment? = none ∧ u.ty.nonempty = false := by
  induction h with
  | @leaf v hleaf =>
      cases hn : v.ty.nonempty with
      | true => exact .inl rfl
      | false => exact .inr ⟨v, .self v, hleaf, hn⟩
  | made hops h ih => exact nonempty_or_inherited_step ih h
  | fresh hops h ih =>
      obtain ⟨id, hmake⟩ := IdentSupply.make_of_assign h
      exact nonempty_or_inherited_step ih hmake

end Value

-- =========================================================== no bits at all

/-- A choice between two arguments of no bits. -/
def choiceOfNoBits : Assignment Value :=
  ⟨0, .app (.mux (.bits 0) (.bool true) (.arg 0 (.bits 0)) (.arg 1 (.bits 0))), .bits 0⟩

theorem built_choiceOfNoBits : (Value.assigned choiceOfNoBits).Built := by
  have hmake : Assignment.make 0 choiceOfNoBits.rhs = .ok choiceOfNoBits := rfl
  refine .made (fun v hv => .leaf ?_) hmake
  simp only [choiceOfNoBits, Rhs.operands, App.operands, List.mem_cons, List.not_mem_nil,
    or_false] at hv
  rcases hv with rfl | rfl | rfl <;> rfl

/-- The choice has no bits because an argument has none, of which it is one. -/
theorem Value.nonempty_or_inherited_choice : ∃ u : Value, u.Inherits (.assigned choiceOfNoBits)
    ∧ u.assignment? = none ∧ u.ty.nonempty = false :=
  (Value.nonempty_or_inherited built_choiceOfNoBits).resolve_left (by decide)

/-- Zero width is not kept out of all assignments: a choice between arguments of
no bits passes its check. -/
theorem Value.built_empty :
    ∃ a : Assignment Value, (Value.assigned a).Built ∧ a.ty.nonempty = false :=
  ⟨choiceOfNoBits, built_choiceOfNoBits, rfl⟩

end LiftedCode
