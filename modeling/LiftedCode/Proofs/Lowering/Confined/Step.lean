/-
Steps that are confined to what is within reach. All of the lowering but the binding of
identifiers is put together from a few primitive steps: they look up identifiers, ask for
declarations, emit instructions, or fail for a reason of their own. Which identifiers
and which functions may come up is the reach of a step (`Confined`), and the operands
of what is lowered tell it, so that the instances for accesses to memory and operations
follow their definitions. What all primitive steps within a reach do, a confined step does.

A run of a confined step binds nothing and asks for nothing out of reach. If it
fails, the reach explains the failure (`Confined.run`): an identifier is not bound, or
two declarations within reach have one name, or else neither identifiers nor
declarations nor the structure of the routine have to do with it (`IsOrdinary`).
-/
import LiftedCode.Lowering.Stmt
import LiftedCode.Proofs.Llvm.Mangling
import LiftedCode.Proofs.Lowering.Declarations
import LiftedCode.Proofs.Lowering.Types.Step

namespace LiftedCode.Lowering

open Llvm (Typed Instr Op BinaryOperator IntPredicate CastOperator Declaration
  AsmEffect Intrinsic.IsIntrinsic)

-- ================================================================= reach

/-- What a step has access to: identifiers, functions besides those that generated code
calls on its own account, and whether it may leave comments. -/
structure Reach where
  idents : Ident → Prop
  functions : FunctionRef → Prop
  comments : Prop

namespace Reach

variable (R : Reach)

/-- What may be declared: the functions within reach, as they are. -/
def Declares (d : Declaration) : Prop :=
  Intrinsic.IsIntrinsic d ∨ ∃ f, R.functions f ∧ d = .ofFunction f.name f.signature

/-- Every declaration is one that may be there, under its own name. -/
def Covers (ds : Declarations) : Prop := ds.Keyed ∧ ∀ d ∈ ds.values, R.Declares d

/-- What a value refers to is within reach. -/
class Has (v : Value) : Prop where
  ident : ∀ id, v.ident? = some id → R.idents id
  function : ∀ f, v = .entry f → R.functions f

/-- Everything is within reach. -/
def all : Reach := ⟨fun _ => True, fun _ => True, True⟩

instance (v : Value) : all.Has v := ⟨fun _ _ => trivial, fun _ _ => trivial⟩

end Reach

namespace LoweringError

/-- Whether the error has to do neither with identifiers or declarations nor with the
structure of the routine. -/
def IsOrdinary : LoweringError → Prop
  | code (.duplicateAssignment _) | code (.duplicateBlock _) | code (.blockNotFound _)
  | code (.phiInEntryBlock _) | unboundValue _ | conflictingDeclaration _ => False
  | _ => True

/-- An error that is ordinary by its form. -/
class Ordinary (e : LoweringError) : Prop where
  isOrdinary : e.IsOrdinary

instance (u : Unsupported) : Ordinary (.unsupported u) := ⟨trivial⟩

instance (r : Register) : Ordinary (.initialRegister r) := ⟨trivial⟩

instance (i n : Nat) : Ordinary (.argumentOutOfRange i n) := ⟨trivial⟩

instance (name : String) (s s' : Signature) : Ordinary (.signatureMismatch name s s') := ⟨trivial⟩

instance (l : Label) : Ordinary (.variadicCall l) := ⟨trivial⟩

instance (l : Label) (ts us : List Ty) : Ordinary (.tailCallReturns l ts us) := ⟨trivial⟩

instance (l : Label) (m n : Nat) : Ordinary (.returnArity l m n) := ⟨trivial⟩

instance (l : Label) (w n : Nat) : Ordinary (.tableTooLarge l w n) := ⟨trivial⟩

end LoweringError

/-- What a failure within the reach may be due to. -/
inductive Reach.Explains (R : Reach) : LoweringError → Prop where
  | ordinary {e : LoweringError} (h : e.IsOrdinary) : R.Explains e
  | unbound {id : Ident} (h : R.idents id) : R.Explains (.unboundValue id)
  | conflict {d d' : Declaration} (h : R.Declares d) (h' : R.Declares d')
    (hname : d'.name = d.name) (hne : d' ≠ d) : R.Explains (.conflictingDeclaration d.name)

/-- The step is put together from primitive ones within reach. -/
class inductive Confined (R : Reach) : {α : Type} → Step α → Prop where
  | pure {α : Type} (a : α) : Confined R (pure a)
  | bind {α β : Type} {x : Step α} {f : α → Step β} (hx : Confined R x)
    (hf : ∀ a, Confined R (f a)) : Confined R (x >>= f)
  | ofExcept {α : Type} {x : Except LoweringError α} (h : ∀ e, x = .error e → e.IsOrdinary) :
    Confined R (Step.ofExcept x)
  | emit {i : Instr} (h : ∀ text, i = .comment text → R.comments) : Confined R (Step.emit i)
  | assign (t : Llvm.Ty) (op : Op) : Confined R (Step.assign t op)
  | declare {d : Declaration} (h : R.Declares d) : Confined R (Step.declare d)
  | bound {id : Ident} (h : R.idents id) : Confined R (Step.bound id)

-- =================================================================== runs

/-- What a run within the reach comes to, where identifiers are bound to `values`. -/
structure Reach.Outcome {α : Type} (R : Reach) (values : Dict Ident Typed)
    (out : Except LoweringError α × State) : Prop where
  covers : R.Covers out.2.declarations
  values : out.2.values = values
  explains : ∀ e, out.1 = .error e → R.Explains e

section

variable {R : Reach} {ds : Declarations} {d : Declaration}

/-- What is asked for is there afterwards, unless something else has its name. -/
theorem Reach.Covers.declare (hds : R.Covers ds) (hd : R.Declares d) (log : Log) :
    (∀ ds', ((ds.declare d).run.run log).1 = .ok ds' → R.Covers ds')
      ∧ ∀ e, ((ds.declare d).run.run log).1 = .error e → R.Explains e := by
  unfold Declarations.declare
  split
  case h_1 d' hd' =>
    have hmem : d' ∈ ds.values := Dict.mem_values.2 ⟨_, hd'⟩
    split
    case isTrue =>
      refine ⟨?_, nofun⟩
      rintro _ ⟨⟩
      exact hds
    case isFalse hne =>
      refine ⟨nofun, ?_⟩
      rintro _ ⟨⟩
      exact .conflict hd (hds.2 d' hmem) (hds.1 _ d' hd') hne
  case h_2 hnone =>
    refine ⟨?_, nofun⟩
    rintro _ ⟨⟩
    refine ⟨hds.1.insert d, fun e he => ?_⟩
    rcases (hds.1.mem_values_insert hnone).1 he with rfl | he
    · exact hd
    · exact hds.2 e he

/-- A confined step binds nothing, whether or not it succeeds. -/
theorem Confined.after_values {α : Type} {m : Step α} (h : Confined R m) (s : State) :
    (m.after s).values = s.values := by
  induction h generalizing s with
  | pure | ofExcept | emit | assign => rfl
  | @bind _ _ x f _ _ ihx ihf =>
      rcases after_bind x f s with ⟨-, hend⟩ | ⟨a, -, hend⟩
      · rw [hend, ihx]
      · rw [hend, ihf, ihx]
  | @declare d _ => exact after_declare_values d s
  | @bound id _ => rw [after_bound]

theorem Confined.run {α : Type} {m : Step α} (h : Confined R m) {s : State}
    (hs : R.Covers s.declarations) : R.Outcome s.values (m.run.run s) := by
  induction h generalizing s with
  | pure a => exact ⟨hs, rfl, nofun⟩
  | @bind _ _ x f _ _ ihx ihf =>
      have hx := ihx hs
      rw [run_bind]
      generalize x.run.run s = out at hx
      obtain ⟨e | a, s₁⟩ := out
      · refine ⟨hx.covers, hx.values, ?_⟩
        rintro _ ⟨⟩
        exact hx.explains e rfl
      · have hf := ihf a hx.covers
        exact ⟨hf.covers, hf.values.trans hx.values, hf.explains⟩
  | ofExcept he => exact ⟨hs, rfl, fun e hx => .ordinary (he e hx)⟩
  | emit => exact ⟨hs, rfl, nofun⟩
  | assign t op => exact ⟨hs, rfl, nofun⟩
  | @declare d hd =>
      obtain ⟨hok, herror⟩ := hs.declare hd s.log
      rw [run_declare]
      generalize (s.declarations.declare d).run.run s.log = out at hok herror
      obtain ⟨e | ds, log⟩ := out
      · refine ⟨hs, rfl, ?_⟩
        rintro _ ⟨⟩
        exact herror e rfl
      · exact ⟨hok ds rfl, rfl, nofun⟩
  | @bound id hid =>
      cases hx : s.values.get? id with
      | some x =>
          rw [run_bound hx]
          exact ⟨hs, rfl, nofun⟩
      | none =>
          rw [run_bound_of_none hx]
          refine ⟨hs, rfl, ?_⟩
          rintro _ ⟨⟩
          exact .unbound hid

end

-- ============================================================== instances

section

variable {R : Reach} {α β γ : Type}

attribute [instance] Confined.pure Confined.assign

instance (x : Step α) (f : α → Step β) [hx : Confined R x] [hf : ∀ a, Confined R (f a)] :
    Confined R (x >>= f) := .bind hx hf

/-- What goes on with a pair goes on with its parts. -/
instance (x : Step (α × β)) (f : α × β → Step γ) [Confined R x]
    [hf : ∀ a b, Confined R (f (a, b))] : Confined R (x >>= f) :=
  have : ∀ p, Confined R (f p) := fun p => hf p.1 p.2
  inferInstance

instance (p : Prop) [Decidable p] (x y : Step α) [Confined R x] [Confined R y] :
    Confined R (if p then x else y) := by
  split <;> infer_instance

instance (e : LoweringError) [he : e.Ordinary] : Confined R (throw e : Step α) := by
  refine .ofExcept (x := .error e) ?_
  rintro _ ⟨⟩
  exact he.isOrdinary

/-- Nothing comes after a failure. -/
instance (e : LoweringError) [e.Ordinary] (f : α → Step β) : Confined R (throw e >>= f) :=
  inferInstanceAs (Confined R (throw e : Step β))

instance (x : Except Fault α) : Confined R (Step.ofFault x) := by
  refine .ofExcept ?_
  rintro e he
  cases x with
  | ok => nomatch he
  | error f =>
      cases he
      trivial

instance (site : Site) (t u : Ty) : Confined R (Step.check (expectTy site t u)) := by
  refine .ofExcept ?_
  unfold expectTy
  split
  · exact nofun
  · rintro _ ⟨⟩
    trivial

instance (site : Site) (t : Ty) : Confined R (Step.check (expectBits site t)) := by
  refine .ofExcept ?_
  unfold expectBits
  split
  · exact nofun
  · rintro _ ⟨⟩
    trivial

instance (what : Layout → Unsupported) (l : Layout) : Confined R (Step.refuse what l : Step α) := by
  unfold Step.refuse
  infer_instance

instance (x p : Typed) : Confined R (Step.emit (.store x p)) := .emit nofun

instance (f : String) (args : List Typed) : Confined R (Step.emit (.call f args)) := .emit nofun

instance (e : AsmEffect) : Confined R (Step.emit (.asm e)) := .emit nofun

/-- A function that generated code calls on its own account can be asked for anywhere. -/
instance (d : Declaration) [hd : Intrinsic.IsIntrinsic d] : Confined R (Step.declare d) :=
  .declare (.inl hd)

-- =================================================== instructions by shape

instance (op : BinaryOperator) (a b : Typed) : Confined R (Step.binary op a b) := .assign _ _

instance (pred : IntPredicate) (a b : Typed) : Confined R (Step.compare pred a b) := .assign _ _

instance (op : CastOperator) (a : Typed) (t : Llvm.Ty) : Confined R (Step.cast op a t) :=
  .assign _ _

instance (c a b : Typed) : Confined R (Step.select c a b) := .assign _ _

instance (a : Typed) : Confined R (Step.pointer a) := .assign _ _

instance (d : Declaration) [Intrinsic.IsIntrinsic d] (args : List Typed) :
    Confined R (Step.call d args) := by
  unfold Step.call
  infer_instance

instance (d : Declaration) [Intrinsic.IsIntrinsic d] (args : List Typed) :
    Confined R (Step.callVoid d args) := by
  unfold Step.callVoid
  infer_instance

variable (env : Env)

instance (v : Value) [hv : R.Has v] : Confined R (value env v) := by
  cases v with
  | bits | bool | initial =>
      unfold value
      infer_instance
  | assigned | phi | returned => exact .bound (hv.ident _ rfl)
  | arg i t =>
      unfold value
      dsimp only
      cases env.args[i]? <;> infer_instance
  | entry f =>
      have : Confined R (Step.declare (.ofFunction f.name f.signature)) :=
        .declare (.inr ⟨f, hv.function f rfl, rfl⟩)
      unfold value
      infer_instance

-- ================================================================= memory

instance (x : Typed) : Confined R (Step.asInt x) := by
  unfold Step.asInt
  have : ∀ w : Option Nat, Confined R (match w with
      | some w => Step.cast .bitcast x (.int w)
      | none => throw (.unsupported (.aggregateComparison x.ty))) := by
    intro w
    cases w <;> infer_instance
  infer_instance

instance (x : Typed) : Confined R (Step.reverseBytes x) := by
  unfold Step.reverseBytes
  split <;> infer_instance

instance (l : Layout) (x : Typed) : Confined R (Step.matchOrder env l x) := by
  unfold Step.matchOrder
  split
  · infer_instance
  · split <;> infer_instance

variable (a b c : Value) [R.Has a] [R.Has b] [R.Has c] (l : Layout) (w : Nat)

instance : Confined R (address env a) := by
  unfold address
  infer_instance

instance : Confined R (layoutTy l) := by
  unfold layoutTy
  infer_instance

instance : Confined R (mask env a) := by
  unfold mask
  infer_instance

instance (x : Typed) : Confined R (singleton x) := .assign _ _

instance : Confined R (read env a l) := by
  unfold read
  infer_instance

instance : Confined R (readIf env l a b c) := by
  unfold readIf
  dsimp only
  split
  · exact .bind inferInstance fun _ => inferInstance
  · infer_instance

instance : Confined R (write env a l b) := by
  unfold write
  infer_instance

instance : Confined R (writeIf env a b l c) := by
  unfold writeIf
  dsimp only
  infer_instance

-- ============================================================= operations

instance : Confined R (operands env a b) := by
  unfold operands
  infer_instance

instance (op : BinaryOperator) : Confined R (shift env op w a b) := by
  unfold shift
  infer_instance

instance : Confined R (shiftSigned env w a b) := by
  unfold shiftSigned
  infer_instance

instance : Confined R (testBit env w a b) := by
  unfold testBit
  infer_instance

instance (signed subtract : Bool) : Confined R (overflow env signed subtract w a b c) := by
  unfold overflow
  infer_instance

instance (op : BinaryOperator) : Confined R (withCarry env op w a b c) := by
  unfold withCarry
  infer_instance

instance (op : BinaryOperator) : Confined R (plain env op a b) := by
  unfold plain
  infer_instance

instance (pred : IntPredicate) : Confined R (comparison env pred a b) := by
  unfold comparison
  infer_instance

instance (pred : Llvm.FloatPredicate) : Confined R (floatComparison env pred a b) := by
  unfold floatComparison
  infer_instance

instance (op : BinaryOp) : Confined R (binaryApp env op w a b) := by
  cases op <;> (unfold binaryApp; infer_instance)

instance (op : UnaryOp) : Confined R (unaryApp env op w a) := by
  cases op <;> (unfold unaryApp; infer_instance)

instance (op : CarryOp) : Confined R (carryApp env op w a b c) := by
  cases op <;> (unfold carryApp; infer_instance)

instance (op : LogicOp) : Confined R (logicApp env op a b) := by
  cases op <;> (unfold logicApp; infer_instance)

instance (op : FloatBinaryOp) : Confined R (floatBinaryApp env op a b) := by
  cases op <;> (unfold floatBinaryApp; infer_instance)

instance (op : FloatUnaryOp) (f : FloatFormat) : Confined R (floatUnaryApp env op f a) := by
  cases op <;> (unfold floatUnaryApp; infer_instance)

omit [R.Has a] [R.Has b] [R.Has c] in
theorem has_pair {a b : Value} (h : ∀ v ∈ [a, b], R.Has v) : R.Has a ∧ R.Has b :=
  ⟨h a List.mem_cons_self, h b (List.mem_cons_of_mem a List.mem_cons_self)⟩

theorem confined_app (f : App Value) (hf : ∀ v ∈ f.operands, R.Has v) : Confined R (app env f) := by
  cases f with
  | eq a b | logic _ a b | concat _ _ a b | binary _ _ a b | floatBinary _ _ a b =>
      obtain ⟨_, _⟩ := has_pair hf
      unfold app
      infer_instance
  | mux _ a b c | carry _ _ a b c =>
      obtain ⟨_, _, _, -⟩ := by simpa only [App.operands, List.forall_mem_cons] using hf
      unfold app
      infer_instance
  | not a | resize _ a | bitcast a | evenParity a | unary _ _ a | floatUnary _ _ a
  | floatConvert _ a | floatOfSigned _ a | signedOfFloat _ a =>
      have := hf a List.mem_cons_self
      unfold app
      infer_instance
  | field ts a i =>
      have := hf a List.mem_cons_self
      unfold app
      dsimp only
      cases ts[i]? <;> infer_instance

end

end LiftedCode.Lowering
