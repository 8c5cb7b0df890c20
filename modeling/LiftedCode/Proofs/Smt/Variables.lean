/-
The variables of terms. A term is over a set of names if all its variables are
among them (`Term.Over`). An application is over a set exactly if its arguments
are (`over_app`), so the constructors of terms bring in no variables of their
own.
-/
import LiftedCode.Smt.Shuffle

namespace LiftedCode.Smt.Term

mutual

/-- The variables that occur in a term. -/
def vars : Term → List String
  | .var x => [x]
  | .bool _ | .bits _ _ => []
  | .app _ ts => varsAll ts

/-- The variables of terms. -/
def varsAll : List Term → List String
  | [] => []
  | t :: ts => t.vars ++ varsAll ts

end

/-- Whether all variables of a term are among some names. -/
def Over (known : String → Prop) (t : Term) : Prop := ∀ x ∈ t.vars, known x

variable {known : String → Prop} {a b c t : Term}

-- ======================================================== constructors

/-- The variables of several terms are those of each of them. -/
theorem mem_varsAll {x : String} {ts : List Term} :
    x ∈ varsAll ts ↔ ∃ t ∈ ts, x ∈ t.vars := by
  induction ts with
  | nil => simp [varsAll]
  | cons t ts ih => simp [varsAll, ih]

theorem Over.mono {known' : String → Prop} (h : t.Over known) (hk : ∀ x, known x → known' x) :
    t.Over known' := fun x hx => hk x (h x hx)

@[simp] theorem over_var {x : String} : (var x).Over known ↔ known x := by simp [Over, vars]

@[simp] theorem over_bool (p : Bool) : (bool p).Over known := by simp [Over, vars]

@[simp] theorem over_bits (w n : Nat) : (bits w n).Over known := by simp [Over, vars]

/-- An application has the variables of its arguments. -/
@[simp] theorem over_app {f : Symbol} {ts : List Term} :
    (app f ts).Over known ↔ ∀ t ∈ ts, t.Over known := by
  simp only [Over, vars, mem_varsAll]
  constructor
  · intro h t ht x hx
    exact h x ⟨t, ht, hx⟩
  · rintro h x ⟨t, ht, hx⟩
    exact h t ht x hx

@[simp] theorem over_call {name : String} {ts : List Term} :
    (call name ts).Over known ↔ ∀ t ∈ ts, t.Over known := over_app

@[simp] theorem over_binary {name : String} :
    (binary name a b).Over known ↔ a.Over known ∧ b.Over known := by simp [binary]

@[simp] theorem over_eq : (eq a b).Over known ↔ a.Over known ∧ b.Over known := by simp [eq]

@[simp] theorem over_distinct : (distinct a b).Over known ↔ a.Over known ∧ b.Over known := by
  simp [distinct]

@[simp] theorem over_concat : (concat a b).Over known ↔ a.Over known ∧ b.Over known := by
  simp [concat]

@[simp] theorem over_ite :
    (ite c a b).Over known ↔ c.Over known ∧ a.Over known ∧ b.Over known := by simp [ite]

@[simp] theorem over_not : (not a).Over known ↔ a.Over known := by simp [not]

@[simp] theorem over_complement : (complement a).Over known ↔ a.Over known := by
  simp [complement]

@[simp] theorem over_zeroExtend {n : Nat} : (zeroExtend n a).Over known ↔ a.Over known := by
  simp [zeroExtend]

@[simp] theorem over_signExtend {n : Nat} : (signExtend n a).Over known ↔ a.Over known := by
  simp [signExtend]

@[simp] theorem over_bitAt {i : Nat} : (bitAt i a).Over known ↔ a.Over known := by simp [bitAt]

@[simp] theorem over_testBit {i : Nat} : (testBit i a).Over known ↔ a.Over known := by
  simp [testBit]

@[simp] theorem over_byteAt {i : Nat} : (byteAt i a).Over known ↔ a.Over known := by
  simp [byteAt]

-- ================================================== checked constructors

theorem over_of_literal {w n : Nat} (h : literal w n = .ok t) : t.Over known := by
  rw [literal] at h
  split at h
  case isTrue => contradiction
  case isFalse =>
    cases h
    exact over_bits _ _

theorem over_of_extract {hi lo : Nat} (h : extract hi lo a = .ok t) (ha : a.Over known) :
    t.Over known := by
  rw [extract] at h
  split at h
  case isTrue =>
    cases h
    simpa using ha
  case isFalse => contradiction

-- ================================================================ shuffle

/-- A byte of a shuffle has the variables of source and index. -/
theorem over_shuffledByte {i : Nat} (ha : a.Over known) (hb : b.Over known) :
    (shuffledByte a b i).Over known := by simp [shuffledByte, ha, hb]

theorem over_shuffle128 (ha : a.Over known) (hb : b.Over known) :
    (shuffle128 a b).Over known := by
  rw [shuffle128]
  refine List.foldlRecOn _ _ (over_shuffledByte ha hb) fun acc hacc i _ => ?_
  exact over_concat.2 ⟨over_shuffledByte ha hb, hacc⟩

end LiftedCode.Smt.Term
