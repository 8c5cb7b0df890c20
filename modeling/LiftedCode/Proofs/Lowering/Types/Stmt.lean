/-
The types of what statements bind: of the operand for the right-hand side of an
assignment (`obtains_operandOf`), and of that for a result of a call
(`obtains_resultOf`). What numbers have to fit for the former is said of the
right-hand side (`RhsFits`).
-/
import LiftedCode.Lowering.Block
import LiftedCode.Proofs.Lowering.Types.Operation

namespace LiftedCode.Lowering

open Llvm (Typed)

-- ============================================================ the bindings

section

variable (env : Env)

/-- The operand for a right-hand side. -/
def operandOf : Rhs Value → Step Typed
  | .app op => app env op
  | .undefined t => return ⟨.ofTy t, .undef⟩
  | .read addr layout => read env addr layout
  | .readIf layout c addr d => readIf env layout c addr d
  | .machine f => machineFn env f

theorem assignment_eq (a : Assignment Value) :
    assignment env a = operandOf env a.rhs >>= Step.bind a.id := by
  unfold assignment
  cases a.rhs <;> rfl

/-- The operand for a variable that takes the field `i` of the results of a call, which
is of type `t`. -/
def resultOf (results : Typed) (i : Nat) (v : Variable) (t : Ty) : Step Typed := do
  Step.check (expectTy (.returnedValue v.id) t v.ty)
  Step.assign (.ofTy t) (.extractValue results i)

theorem bindResults_cons (results : Typed) (i : Nat) (v : Variable) (vs : List Variable)
    (t : Ty) (ts : List Ty) : bindResults results i (v :: vs) (t :: ts)
      = (resultOf results i v t >>= Step.bind v.id)
          >>= fun _ => bindResults results (i + 1) vs ts := by
  unfold resultOf
  rw [bindResults, bind_assoc, bind_assoc]

end

-- =========================================================== their operands

/-- What is asked of numbers where the operand for a right-hand side is made: the widths
of what is bound, and those of the integers whose bytes are reversed. -/
structure RhsFits (types : Ident → Llvm.Ty → Prop) (env : Env) (rhs : Rhs Value) : Prop where
  bound : ∀ id t, types id t → t.widthFits = true
  reversal : ∀ w v, rhs = .app (.unary .reverseBytes w v) → ∀ n, v.MayBe types (.int n) →
    ReversalFits n
  read : ∀ addr l, rhs = .read addr l → Orderable env l (.ofTy l.ty)
  readIf : ∀ l c addr d, rhs = .readIf l c addr d → Orderable env l (.ofTy l.ty)
  default : ∀ l c addr d, rhs = .readIf l c addr d → ∀ t, d.MayBe types t → Orderable env l t

variable {types : Ident → Llvm.Ty → Prop} {fits : Prop} {env : Env}

/-- The operand for the right-hand side of a made assignment. -/
theorem obtains_operandOf {a : Assignment Value} (hmade : Assignment.make a.id a.rhs = .ok a)
    (hfits : fits → RhsFits types env a.rhs) :
    Obtains types fits (operandOf env a.rhs) fun x => ResultTy types a.rhs.operands a.ty x.ty := by
  obtain ⟨hcheck, hty⟩ := Assignment.of_make hmade
  cases hrhs : a.rhs with
  | app op =>
      rw [hrhs] at hcheck hty hfits
      refine obtains_app hcheck hty (fun hf => (hfits hf).bound) fun hf w v hop => ?_
      exact (hfits hf).reversal w v (hop ▸ rfl)
  | undefined t =>
      rw [hrhs] at hty
      cases hty
      exact obtains_pure (.own rfl)
  | read addr l =>
      rw [hrhs] at hty hfits
      have hlty := Layout.of_checkedTy hty
      refine (obtains_read fun hf => (hfits hf).read addr l rfl).imp fun x hx => ?_
      exact .own (hlty ▸ hx)
  | readIf l c addr d =>
      rw [hrhs] at hty hfits
      have hlty := Layout.of_checkedTy hty
      refine (obtains_readIf (fun hf => (hfits hf).readIf l c addr d rfl) fun hf => ?_).imp
        fun x hx => .own (hlty ▸ hx)
      exact (hfits hf).default l c addr d rfl
  | machine f =>
      rw [hrhs] at hty
      exact (obtains_machineFn hty).imp fun x hx => .own hx

/-- The operand for a result of a call has the type of its variable. -/
theorem obtains_resultOf (results : Typed) (i : Nat) (v : Variable) (t : Ty) :
    Obtains types fits (resultOf results i v t) (·.ty = .ofTy v.ty) :=
  (obtains_check (settles_expectTy _ _ _)).bind fun _ ht => ht ▸ obtains_assign _ _

end LiftedCode.Lowering
