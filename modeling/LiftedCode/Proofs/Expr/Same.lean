/-
The comparison of right-hand sides and of statements. It looks at the shape first,
and then at one operand after the other, by the order of values. That tells
assignments apart by their identifiers, and functions by name and address. Where an
identifier stands for one assignment, and a name and an address for one function,
the comparison finds out whether the statements are equal
(`Stmt.decides_checkedSame`).

# The argument

Each comparison of parts has an outcome that says whether they are equal
(`Decides`), and a list of tests has the outcome of all of them
(`decides_allTrue_cons`). A shape and its operands make up an operation
(`Rhs.eq_iff_shape`), so nothing is left out.
-/
import LiftedCode.Proofs.Expr.Order
import LiftedCode.Stmt

namespace LiftedCode

-- ======================================================== outcomes

/-- The test has an outcome, which says whether `p` holds. -/
def Decides (x : Except Fault Bool) (p : Prop) : Prop := ∃ b, x = .ok b ∧ (b = true ↔ p)

section

variable {x : Except Fault Bool} {xs : List (Except Fault Bool)} {p q : Prop}

theorem decides_ok {b : Bool} (h : b = true ↔ p) : Decides (.ok b) p := ⟨b, rfl, h⟩

theorem decides_beq {α : Type} [BEq α] [LawfulBEq α] (a b : α) : Decides (.ok (a == b)) (a = b) :=
  decides_ok beq_iff_eq

theorem decides_false (h : ¬p) : Decides (.ok false) p :=
  decides_ok (iff_of_false Bool.false_ne_true h)

theorem Decides.iff (h : Decides x p) (hpq : p ↔ q) : Decides x q :=
  h.imp fun _ hb => ⟨hb.1, hb.2.trans hpq⟩

/-- What is behind a condition is looked at only if it holds. -/
theorem decides_if {c : Prop} [Decidable c] (h : c → Decides x p) :
    Decides (if c then x else .ok false) (c ∧ p) := by
  split
  case isTrue hc => exact (h hc).iff (and_iff_right hc).symm
  case isFalse hc => exact decides_false fun hp => hc hp.1

theorem decides_allTrue_nil : Decides (allTrue []) True := decides_ok (iff_of_true rfl trivial)

/-- The tests behind one are looked at only if it holds. -/
theorem decides_allTrue_cons (hx : Decides x p) (hxs : Decides (allTrue xs) q) :
    Decides (allTrue (x :: xs)) (p ∧ q) := by
  obtain ⟨b, rfl, hb⟩ := hx
  cases b with
  | true => exact hxs.iff (iff_and_self.2 fun _ => hb.1 rfl)
  | false => exact decides_false fun h => Bool.false_ne_true (hb.2 h.1)

end

-- ========================================================== values

/-- Values that can be compared, and of which those that are told apart by a name only
are equal if they have the same one. -/
structure Named (vs ws : List Value) : Prop where
  left_fits : ∀ v ∈ vs, v.ty.widthFits = true
  right_fits : ∀ w ∈ ws, w.ty.widthFits = true
  assigned : ∀ a b, .assigned a ∈ vs → .assigned b ∈ ws → a.id = b.id → a = b
  entry : ∀ f g, .entry f ∈ vs → .entry g ∈ ws → f.name = g.name → f.addr = g.addr → f = g

theorem Named.of_subset {vs ws vs' ws' : List Value} (h : Named vs ws) (hvs : vs' ⊆ vs)
    (hws : ws' ⊆ ws) : Named vs' ws' where
  left_fits v hv := h.left_fits v (hvs hv)
  right_fits w hw := h.right_fits w (hws hw)
  assigned a b ha hb := h.assigned a b (hvs ha) (hws hb)
  entry f g hf hg := h.entry f g (hvs hf) (hws hg)

namespace Value

variable {v w : Value} {vs ws : List Value}

/-- Named values that compare equal are equal. -/
theorem eq_of_order_eq (h : Named vs ws) (hv : v ∈ vs) (hw : w ∈ ws) (ho : order v w = .eq) :
    v = w := by
  obtain ⟨hkind, hty, hcontent⟩ := (order_eq_iff v w).1 ho
  cases hkind with
  | bits l m =>
      rw [Literal.ext (Ty.bits.inj hty) (Content.magnitude.inj hcontent)]
  | bool b c => rw [Content.truth.inj hcontent]
  | assigned a b => rw [h.assigned a b hv hw (Content.ident.inj hcontent)]
  | initial r s => rw [Content.register.inj hcontent]
  | phi a b | returned a b =>
      cases a
      cases b
      cases hty
      cases hcontent
      rfl
  | arg i j t u =>
      cases hty
      cases hcontent
      rfl
  | entry f g =>
      obtain ⟨hname, haddr⟩ := Content.function.inj hcontent
      rw [h.entry f g hv hw hname haddr]

theorem decides_checkedSame (h : Named vs ws) (hv : v ∈ vs) (hw : w ∈ ws) :
    Decides (v.checkedSame w) (v = w) := by
  rw [checkedSame_eq (h.left_fits v hv) (h.right_fits w hw)]
  refine decides_ok (beq_iff_eq.trans ⟨eq_of_order_eq h hv hw, ?_⟩)
  rintro rfl
  exact Std.ReflCmp.compare_self

/-- Lists of named values are compared place by place. -/
theorem decides_checkedSameAll (h : Named vs ws) : Decides (checkedSameAll vs ws) (vs = ws) := by
  refine Decides.iff (decides_if fun hlen => ?_) (and_iff_right_of_imp (congrArg List.length))
  induction vs generalizing ws with
  | nil =>
      obtain rfl := List.length_eq_zero_iff.1 hlen.symm
      exact decides_allTrue_nil.iff (iff_of_true trivial rfl)
  | cons v vs ih =>
      cases ws with
      | nil => contradiction
      | cons w ws =>
          have hfirst := decides_checkedSame h List.mem_cons_self List.mem_cons_self
          have hrest := ih (h.of_subset (List.subset_cons_self v vs) (List.subset_cons_self w ws))
            (Nat.succ.inj hlen)
          exact (decides_allTrue_cons hfirst hrest).iff List.cons_eq_cons.symm

end Value

-- =========================================== right-hand sides and statements

/-- Right-hand sides on named values are the same exactly if they are equal. -/
theorem Rhs.decides_checkedSame {r s : Rhs Value} (h : Named r.operands s.operands) :
    Decides (r.checkedSame s) (r = s) :=
  (decides_if fun _ => Value.decides_checkedSameAll h).iff eq_iff_shape.symm

/-- Assignments of right-hand sides on named values are the same exactly if they are
equal. -/
theorem Assignment.decides_checkedSame {a b : Assignment Value}
    (h : Named a.rhs.operands b.rhs.operands) : Decides (a.checkedSame b) (a = b) := by
  obtain ⟨same, hrun, hsame⟩ := Rhs.decides_checkedSame h
  have hparts : Decides (.ok (same && a.ty = b.ty)) (a.rhs = b.rhs ∧ a.ty = b.ty) :=
    decides_ok (by rw [Bool.and_eq_true, hsame, decide_eq_true_iff])
  rw [checkedSame, hrun]
  refine Decides.iff (decides_if fun _ => hparts) ?_
  cases a
  cases b
  rw [mk.injEq]

/-- Calls on named values are the same exactly if they are equal. -/
theorem Call.decides_checkedSame {c d : Call} (h : Named (c.dest :: c.args) (d.dest :: d.args)) :
    Decides ((Stmt.call c).checkedSame (.call d)) (c = d) := by
  have hdest := Value.decides_checkedSame h List.mem_cons_self List.mem_cons_self
  have hargs := Value.decides_checkedSameAll
    (h.of_subset (List.subset_cons_self _ _) (List.subset_cons_self _ _))
  have hall := decides_allTrue_cons hdest
    (decides_allTrue_cons (decides_beq c.signature d.signature)
      (decides_allTrue_cons hargs
        (decides_allTrue_cons (decides_beq c.returns d.returns) decides_allTrue_nil)))
  refine hall.iff ?_
  cases c
  cases d
  rw [mk.injEq, and_true]

/-- Statements on named values are the same exactly if they are equal. -/
theorem Stmt.decides_checkedSame {s t : Stmt} (h : Named s.operands t.operands) :
    Decides (s.checkedSame t) (s = t) := by
  -- statements of different kinds are never the same
  cases s with
  | assign a =>
      cases t with
      | assign b => exact (Assignment.decides_checkedSame h).iff (by rw [assign.injEq])
      | write | writeIf | call | machine | comment | instruction => exact decides_false (by simp)
  | write a l v =>
      cases t with
      | write b m w =>
          have haddr : Decides (a.checkedSame b) (a = b) :=
            Value.decides_checkedSame h (.head _) (.head _)
          have hvalue : Decides (v.checkedSame w) (v = w) :=
            Value.decides_checkedSame h (.tail _ (.head _)) (.tail _ (.head _))
          have hall := decides_allTrue_cons haddr (decides_allTrue_cons (decides_beq l m)
            (decides_allTrue_cons hvalue decides_allTrue_nil))
          exact hall.iff (by rw [write.injEq, and_true])
      | assign | writeIf | call | machine | comment | instruction => exact decides_false (by simp)
  | writeIf c a l v =>
      cases t with
      | writeIf d b m w =>
          have hcond : Decides (c.checkedSame d) (c = d) :=
            Value.decides_checkedSame h (.head _) (.head _)
          have haddr : Decides (a.checkedSame b) (a = b) :=
            Value.decides_checkedSame h (.tail _ (.head _)) (.tail _ (.head _))
          have hvalue : Decides (v.checkedSame w) (v = w) :=
            Value.decides_checkedSame h (.tail _ (.tail _ (.head _)))
              (.tail _ (.tail _ (.head _)))
          have hall := decides_allTrue_cons hcond (decides_allTrue_cons haddr
            (decides_allTrue_cons (decides_beq l m)
              (decides_allTrue_cons hvalue decides_allTrue_nil)))
          exact hall.iff (by rw [writeIf.injEq, and_true])
      | assign | write | call | machine | comment | instruction => exact decides_false (by simp)
  | call c =>
      cases t with
      | call d => exact (Call.decides_checkedSame h).iff (by rw [call.injEq])
      | assign | write | writeIf | machine | comment | instruction => exact decides_false (by simp)
  | machine m =>
      cases t with
      | machine n =>
          have hparts := decides_if fun _ : m.shape = n.shape => Value.decides_checkedSameAll h
          exact hparts.iff (MachineStmt.eq_iff_shape.symm.trans (by rw [machine.injEq]))
      | assign | write | writeIf | call | comment | instruction => exact decides_false (by simp)
  | comment c =>
      cases t with
      | comment d => exact (decides_beq c d).iff (by rw [comment.injEq])
      | assign | write | writeIf | call | machine | instruction => exact decides_false (by simp)
  | instruction i n =>
      cases t with
      | instruction j m =>
          exact decides_ok (by rw [Bool.and_eq_true, beq_iff_eq, beq_iff_eq, instruction.injEq])
      | assign | write | writeIf | call | machine | comment => exact decides_false (by simp)

end LiftedCode
