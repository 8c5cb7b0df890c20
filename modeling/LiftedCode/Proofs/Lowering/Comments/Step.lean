/-
Steps that leave comments alone. All steps but remarks and instruction marks do the
same whether or not comments were emitted before them, and emit none themselves; what
they declare has an unbroken name, if the functions that they read have (`Silent`).

Nothing but remarks and instruction marks needs to be looked at for it: all that is
confined to functions with unbroken names, and leaves no comments, is silent
(`Confined.silent`). The functions that generated code calls on its own account have
unbroken names (`Intrinsic.Family.printable_declaration`).
-/
import LiftedCode.Proofs.Llvm.Comments
import LiftedCode.Proofs.Lowering.Confined.Block
import LiftedCode.Proofs.Lowering.Simulation

namespace LiftedCode

open Llvm (Typed Instr Op Declaration Intrinsic.IsIntrinsic)

/-- A value that is a function has an unbroken name. -/
class Value.Printable (v : Value) : Prop where
  name : ∀ f, v = .entry f → Unbroken f.name

namespace Llvm.Intrinsic

-- ============================================================== functions

namespace Family

theorem unbroken_head (f : Family) : Unbroken f.head := by
  have hall : ∀ f ∈ all, Unbroken f.head := by decide +kernel
  exact hall f (mem_all f)

theorem unbroken_tail (f : Family) (p : f.Param) : Unbroken (f.tail p) := by
  cases f with
  | withOverflow | countLeadingZeros | countTrailingZeros | popCount => exact unbroken_toString p
  | swapBytes | squareRoot => exact Ty.unbroken_mangled p
  | maskedLoad | maskedStore =>
      exact Unbroken.append_iff.2 ⟨Ty.unbroken_mangled (.single p), by decide⟩
  | readTimestamp | moveBytes | fillBytes | shuffle128 | tableFailure =>
      show Unbroken ""
      decide

/-- The name of a function that generated code calls on its own account is unbroken, and
so are its attributes. -/
theorem printable_declaration (f : Family) (p : f.Param) : (f.declaration p).Printable where
  name := by
    rw [f.name_declaration, Unbroken.append_iff]
    exact ⟨f.unbroken_head, f.unbroken_tail p⟩
  attributes := by
    cases f with
    | tableFailure => exact List.forall_mem_singleton.2 (by decide)
    | withOverflow | countLeadingZeros | countTrailingZeros | popCount | swapBytes | squareRoot
    | maskedLoad | maskedStore | readTimestamp | moveBytes | fillBytes | shuffle128 =>
        exact List.forall_mem_nil _

end Family

instance (d : Declaration) [hd : IsIntrinsic d] : d.Printable := by
  obtain ⟨f, p, rfl⟩ := hd
  exact f.printable_declaration p

end Llvm.Intrinsic

namespace Lowering

-- ================================================================= silence

/-- The state, had no comments been emitted. -/
def State.withoutComments (s : State) : State :=
  { s with instrs := s.instrs.filter (!·.isComment) }

/-- The texts of the comments that were emitted. -/
def State.remarks (s : State) : List String := s.instrs.toList.filterMap Instr.remark?

/-- All names that are declared are unbroken. -/
def Declarations.Printable (ds : Declarations) : Prop :=
  ∀ name d, ds.get? name = some d → d.Printable

theorem Declarations.Printable.of_declare {ds ds' : Declarations} {d : Declaration} {log log' : Log}
    (hds : ds.Printable) (hd : d.Printable) (h : (ds.declare d).run.run log = (.ok ds', log')) :
    ds'.Printable := by
  unfold Declarations.declare at h
  split at h
  case h_1 d' _ =>
    split at h
    · cases h
      exact hds
    · cases h
  case h_2 =>
    cases h
    intro name e he
    rw [Dict.get?_insert] at he
    split at he
    · cases he
      exact hd
    · exact hds name e he

variable {α β γ : Type} {s s' : State}

/-- The step goes the same way without the comments that were emitted before it, and
emits none. -/
class Silent (x : Step α) : Prop where
  run : ∀ {s a s'}, Succeeds x s a s' → Succeeds x s.withoutComments a s'.withoutComments
    ∧ s'.remarks = s.remarks ∧ (s.declarations.Printable → s'.declarations.Printable)

instance silent_pure (a : α) : Silent (pure a) where
  run h := by
    obtain ⟨rfl, rfl⟩ := succeeds_pure h
    exact ⟨rfl, rfl, id⟩

instance silent_bind (x : Step α) (f : α → Step β) [hx : Silent x] [hf : ∀ a, Silent (f a)] :
    Silent (x >>= f) where
  run h := by
    obtain ⟨a, s₁, h₁, h₂⟩ := succeeds_bind h
    obtain ⟨hrun₁, hremarks₁, hnames₁⟩ := hx.run h₁
    obtain ⟨hrun₂, hremarks₂, hnames₂⟩ := (hf a).run h₂
    exact ⟨hrun₁.bind hrun₂, hremarks₂.trans hremarks₁, hnames₂ ∘ hnames₁⟩

instance silent_ofExcept (x : Except LoweringError α) : Silent (Step.ofExcept x) where
  run h := by
    obtain ⟨rfl, rfl⟩ := succeeds_ofExcept h
    exact ⟨rfl, rfl, id⟩

instance silent_check (x : Except CodeError α) : Silent (Step.check x) := silent_ofExcept _

-- ============================================================ instructions

/-- An instruction is kept, and it is no comment. -/
theorem filter_push {i : Instr} (hi : i.isComment = false) (is : Array Instr) :
    (is.push i).filter (!·.isComment) = (is.filter (!·.isComment)).push i := by
  apply Array.toList_inj.1
  simp [hi]

theorem remarks_push {i : Instr} (hi : i.isComment = false) (is : Array Instr) :
    (is.push i).toList.filterMap Instr.remark? = is.toList.filterMap Instr.remark? := by
  rw [Array.toList_push, List.filterMap_append]
  cases i with
  | comment => contradiction
  | assign | store | call | asm => exact List.append_nil _

theorem silent_emit {i : Instr} (hi : i.isComment = false) : Silent (Step.emit i) where
  run {s u s'} h := by
    obtain rfl := succeeds_modify h
    refine ⟨?_, remarks_push hi s.instrs, id⟩
    have hstate : State.withoutComments { s with instrs := s.instrs.push i }
        = { s.withoutComments with instrs := s.withoutComments.instrs.push i } := by
      unfold State.withoutComments
      rw [filter_push hi]
    rw [hstate]
    rfl

instance silent_assign (t : Llvm.Ty) (op : Op) : Silent (Step.assign t op) where
  run {s x s'} h := by
    cases h
    refine ⟨?_, remarks_push rfl s.instrs, id⟩
    have hstate : ∀ n, State.withoutComments
          { s with nextTemp := n, instrs := s.instrs.push (.assign (.temp s.nextTemp) op) }
        = { s.withoutComments with
            nextTemp := n
            instrs := s.withoutComments.instrs.push (.assign (.temp s.nextTemp) op) } := by
      intro n
      unfold State.withoutComments
      rw [filter_push rfl]
    rw [hstate]
    rfl

-- ============================================================ the state

/-- What is declared in addition has an unbroken name. -/
instance silent_declare (d : Declaration) [hd : d.Printable] : Silent (Step.declare d) where
  run {s u s'} h := by
    rw [Succeeds, run_declare] at h
    split at h
    case h_2 => cases h
    case h_1 ds log hdeclare =>
      cases h
      refine ⟨?_, rfl, fun hs => hs.of_declare hd hdeclare⟩
      rw [Succeeds, run_declare]
      show (match (s.declarations.declare d).run.run s.log with
        | (.ok ds, log) => _
        | (.error e, log) => _) = _
      rw [hdeclare]
      rfl

instance silent_bindIdent (id : Ident) (x : Typed) : Silent (Step.bind id x) where
  run {s u s'} h := by
    rw [Succeeds, run_bindIdent] at h
    split at h
    · cases h
    · rename_i hnew
      cases h
      refine ⟨?_, rfl, fun hs => hs⟩
      rw [Succeeds, run_bindIdent]
      exact Prod.ext (if_neg hnew) rfl

instance silent_bound (id : Ident) : Silent (Step.bound id) where
  run {s x s'} h := by
    obtain ⟨rfl, hx⟩ := succeeds_bound h
    refine ⟨?_, rfl, fun hs => hs⟩
    exact run_bound hx

-- ============================================================ confinement

/-- Functions with unbroken names are within reach, and comments are not. -/
def Reach.printable : Reach := ⟨fun _ => True, fun f => Unbroken f.name, False⟩

instance (v : Value) [hv : v.Printable] : Reach.printable.Has v := ⟨fun _ _ => trivial, hv.name⟩

theorem Reach.has_of_printable {vs : List Value} (h : ∀ v ∈ vs, v.Printable) :
    ∀ v ∈ vs, Reach.printable.Has v := by
  intro v hv
  have := h v hv
  infer_instance

theorem Reach.printable_of_declares {d : Declaration} (h : Reach.printable.Declares d) :
    d.Printable := by
  rcases h with h | ⟨f, hf, rfl⟩
  · infer_instance
  · exact ⟨hf, List.forall_mem_nil _⟩

/-- A step that is confined to functions with unbroken names is silent. -/
theorem Confined.silent {x : Step α} (h : Confined Reach.printable x) : Silent x := by
  induction h with
  | pure a => exact silent_pure a
  | bind _ _ ihx ihf => exact silent_bind _ _
  | ofExcept => exact silent_ofExcept _
  | @emit i hi =>
      refine silent_emit ?_
      cases i with
      | comment text => exact (hi text rfl).elim
      | assign | store | call | asm => rfl
  | assign t op => exact silent_assign t op
  | @declare d hd =>
      have := Reach.printable_of_declares hd
      exact silent_declare d
  | bound => exact silent_bound _

/-- Bindings are silent too. -/
theorem Composed.silent {ids : List Ident} {x : Step α} (h : Composed Reach.printable ids x) :
    Silent x := by
  induction h with
  | confined h => exact h.silent
  | bindIdent id x => exact silent_bindIdent id x
  | bind _ _ ihx ihf => exact silent_bind _ _
  | fewer _ _ ih => exact ih

end Lowering

end LiftedCode
