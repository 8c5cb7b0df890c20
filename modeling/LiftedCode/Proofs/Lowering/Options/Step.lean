/-
The options of the code touch only what they speak of. Two lowerings of one
block under different options run in step: they produce the same instructions
but for comments and for the flag that tells whether the zeros of zero may be
counted as anything (`essence`), and agree in all else (`Like`). Comments take
no temporaries, so the numbering stays the same (`alike_comment`).

The function that reports an index which a table does not have is declared at
the very end, and under some options only. For that declaration to succeed
whenever it is made, nobody else may ask for the name (`Like.free`,
`Value.IsFree`); the functions that the language comes with do not, since their
names begin otherwise (`IsIntrinsic`).
-/
import LiftedCode.Lowering.Routine
import LiftedCode.Proofs.Agreement
import LiftedCode.Proofs.Data.Dict
import LiftedCode.Proofs.Lowering.Step

namespace LiftedCode

namespace Llvm

-- =============================================== what options do not touch

/-- The operation without the flag of a count of zeros. -/
def Op.withoutFlag : Op → Op
  | op@(.call isTail (.int w) (.global f) [x, _]) =>
    if f = (Intrinsic.countLeadingZeros w).name ∨ f = (Intrinsic.countTrailingZeros w).name then
      .call isTail (.int w) (.global f) [x]
    else op
  | op => op

/-- The instruction without the flag of a count of zeros, unless it is a comment. -/
def Instr.essence? : Instr → Option Instr
  | comment _ => none
  | assign dst op => some (assign dst op.withoutFlag)
  | i => some i

/-- The instructions without comments, and without the flags of counts of zeros. -/
def essence (is : List Instr) : List Instr := is.filterMap Instr.essence?

/-- Whether a function is one that the language comes with, going by its name. -/
def Declaration.IsIntrinsic (d : Declaration) : Prop := d.name.toList.head? = some 'l'

end Llvm

/-- Whether a value does not ask for the report of a failure. -/
def Value.IsFree : Value → Prop
  | entry f => f.name ≠ Llvm.Intrinsic.tableFailure.name
  | bits _ | bool _ | assigned _ | initial _ | phi _ | returned _ | arg _ _ => True

namespace Lowering

open Llvm (Typed Local Instr Op BinaryOperator IntPredicate CastOperator Declaration essence
  Intrinsic.tableFailure Intrinsic.countLeadingZeros Intrinsic.countTrailingZeros)

/-- The same block and target under other options. -/
def Env.withOptions (env : Env) (o : Options) : Env :=
  { env with target := { env.target with options := o } }

@[simp] theorem Env.withOptions_args (env : Env) (o : Options) :
    (env.withOptions o).args = env.args := rfl

/-- Two states that are the same but for what options may touch, and in which the
report of a failure is not declared. -/
structure Like (s t : State) : Prop where
  nextTemp : s.nextTemp = t.nextTemp
  declarations : s.declarations = t.declarations
  values : s.values = t.values
  instrs : essence s.instrs.toList = essence t.instrs.toList
  free : s.declarations.get? Intrinsic.tableFailure.name = none

/-- Steps that agree from like states on, with the same result. -/
abbrev Alike {α : Type} (x y : Step α) : Prop := Agree Like Eq Like x y

-- ========================================================= primitive steps

section

variable {α : Type}

/-- A step that does nothing does not depend on options. -/
theorem alike_pure (a : α) : Alike (pure a) (pure a) := agree_pure rfl

theorem alike_throw (e : LoweringError) : Alike (throw e : Step α) (throw e) := agree_throw e

theorem alike_stateless (x : Except LoweringError α) :
    Alike (Step.ofExcept x) (Step.ofExcept x) := agree_ofExcept x

theorem alike_check (x : Except CodeError α) : Alike (Step.check x) (Step.check x) :=
  alike_stateless _

theorem alike_ofFault (x : Except Fault α) : Alike (Step.ofFault x) (Step.ofFault x) :=
  alike_stateless _

/-- A refusal has no results, so they may be said to be related in any way. -/
theorem agree_refuse {R : α → α → Prop} (what : Layout → Unsupported) (l : Layout) :
    Agree Like R Like (Step.refuse what l) (Step.refuse what l) :=
  (alike_ofFault _).bind fun _ => agree_throw _

/-- An instruction is put at the end, in its essence. -/
theorem essence_push (is : Array Instr) (i : Instr) :
    essence (is.push i).toList = essence is.toList ++ i.essence?.toList := by
  rw [essence, Array.toList_push, List.filterMap_append]
  cases hi : i.essence? with
  | none => rw [List.filterMap_cons_none hi]; rfl
  | some j => rw [List.filterMap_cons_some hi]; rfl

/-- Instructions of one essence. -/
theorem alike_emitRel {i j : Instr} (h : i.essence? = j.essence?) :
    Alike (Step.emit i) (Step.emit j) := by
  refine agree_modify fun s t hst =>
    ⟨hst.nextTemp, hst.declarations, hst.values, ?_, hst.free⟩
  rw [essence_push, essence_push, hst.instrs, h]

theorem alike_emit (i : Instr) : Alike (Step.emit i) (Step.emit i) := alike_emitRel rfl

/-- A comment, if it is wanted, leaves the essence of the instructions alone, and
takes nothing from what comes after it. -/
theorem succeeds_comment (wanted : Bool) (text : String) (s : State) :
    ∃ is, Succeeds (if wanted then Step.emit (.comment text) else pure ()) s ()
        { s with instrs := is }
      ∧ essence is.toList = essence s.instrs.toList := by
  cases wanted with
  | false => exact ⟨s.instrs, rfl, rfl⟩
  | true =>
      refine ⟨s.instrs.push (.comment text), rfl, ?_⟩
      rw [essence_push]
      exact List.append_nil _

/-- A comment is wanted on both sides, on one or on none. -/
theorem alike_comment (wanted wanted' : Bool) (text : String) :
    Alike (if wanted then Step.emit (.comment text) else pure ())
      (if wanted' then Step.emit (.comment text) else pure ()) := by
  intro s t h
  obtain ⟨is, hs, his⟩ := succeeds_comment wanted text s
  obtain ⟨is', ht, his'⟩ := succeeds_comment wanted' text t
  refine .inl ⟨(), (), _, _, hs, ht, rfl, h.nextTemp, h.declarations, h.values, ?_, h.free⟩
  rw [his, his', h.instrs]

/-- Operations that are the same but for the flag of a count. -/
theorem alike_assignRel (ty : Llvm.Ty) {op op' : Op} (h : op.withoutFlag = op'.withoutFlag) :
    Alike (Step.assign ty op) (Step.assign ty op') := by
  refine agree_get.bindRel fun s t hst => ?_
  have hset : Like
      { s with nextTemp := s.nextTemp + 1, instrs := s.instrs.push (.assign (.temp s.nextTemp) op) }
      { t with nextTemp := t.nextTemp + 1,
               instrs := t.instrs.push (.assign (.temp t.nextTemp) op') } := by
    refine ⟨congrArg (· + 1) hst.nextTemp, hst.declarations, hst.values, ?_, hst.free⟩
    rw [essence_push, essence_push, hst.instrs, hst.nextTemp, Instr.essence?, h]
    rfl
  refine (agree_set hset).bind fun _ => ?_
  rw [hst.nextTemp]
  exact agree_pure rfl

theorem alike_assign (ty : Llvm.Ty) (op : Op) : Alike (Step.assign ty op) (Step.assign ty op) :=
  alike_assignRel ty rfl

/-- What asking for a declaration leads to: nothing if it was made before, an
error if its name is taken, and a new declaration otherwise. -/
theorem run_declare_eq (d : Declaration) (s : State) : (Step.declare d).run.run s =
    match s.declarations.get? d.name with
    | some d' =>
      if d' = d then (.ok (), s) else (.error (.conflictingDeclaration d.name), s)
    | none => (.ok (), { s with
        declarations := s.declarations.insert d.name d
        log := s.log.push (.declaring d.name) }) := by
  rw [run_declare, Declarations.declare]
  cases s.declarations.get? d.name with
  | some d' =>
      dsimp only
      by_cases h : d' = d
      · rw [if_pos h, if_pos h]
        rfl
      · rw [if_neg h, if_neg h]
        rfl
  | none => rfl

/-- A declaration under another name than the report of a failure. -/
theorem alike_declare {d : Declaration} (hd : d.name ≠ Intrinsic.tableFailure.name) :
    Alike (Step.declare d) (Step.declare d) := by
  intro s t hst
  have hs := run_declare_eq d s
  have ht := run_declare_eq d t
  rw [← hst.declarations] at ht
  cases hfound : s.declarations.get? d.name with
  | some d' =>
      rw [hfound] at hs ht
      by_cases h : d' = d
      · exact .inl ⟨(), (), s, t, hs.trans (if_pos h), ht.trans (if_pos h), rfl, hst⟩
      · exact .inr ⟨_, s, t, hs.trans (if_neg h), ht.trans (if_neg h)⟩
  | none =>
      rw [hfound] at hs ht
      refine .inl ⟨(), (), _, _, hs, ht, rfl, hst.nextTemp, rfl, hst.values, hst.instrs, ?_⟩
      rw [← hst.free]
      exact Dict.get?_insert_of_ne hd

/-- A binding does not depend on options. -/
theorem alike_bind (id : Ident) (x : Typed) : Alike (Step.bind id x) (Step.bind id x) := by
  refine agree_get.bindRel fun s t h => ?_
  rw [h.values]
  have hmodify : Alike
      (modify fun s => { s with values := s.values.insert id x } : Step Unit)
      (modify fun s => { s with values := s.values.insert id x } : Step Unit) :=
    agree_modify fun s t h =>
      ⟨h.nextTemp, h.declarations, congrArg (·.insert id x) h.values, h.instrs, h.free⟩
  refine hmodify.bind fun _ => ?_
  split
  case isTrue => exact agree_throw _
  case isFalse => exact agree_pure rfl

/-- What is bound does not depend on options. -/
theorem alike_bound (id : Ident) : Alike (Step.bound id) (Step.bound id) := by
  refine agree_get.bindRel fun s t h => ?_
  rw [h.values]
  split
  case h_1 x hx => exact agree_pure rfl
  case h_2 => exact agree_throw _

-- ================================================= instructions by shape

theorem alike_binary (op : BinaryOperator) (a b : Typed) :
    Alike (Step.binary op a b) (Step.binary op a b) := alike_assign _ _

theorem alike_compare (pred : IntPredicate) (a b : Typed) :
    Alike (Step.compare pred a b) (Step.compare pred a b) := alike_assign _ _

theorem alike_cast (op : CastOperator) (a : Typed) (ty : Llvm.Ty) :
    Alike (Step.cast op a ty) (Step.cast op a ty) := alike_assign _ _

theorem alike_select (c a b : Typed) : Alike (Step.select c a b) (Step.select c a b) :=
  alike_assign _ _

theorem alike_pointer (addr : Typed) : Alike (Step.pointer addr) (Step.pointer addr) :=
  alike_cast _ _ _

/-- A function that the language comes with does not report failures. -/
theorem name_ne_of_isIntrinsic {d : Declaration} (hd : d.IsIntrinsic) :
    d.name ≠ Intrinsic.tableFailure.name := by
  intro hname
  rw [Declaration.IsIntrinsic, hname] at hd
  simp [Intrinsic.tableFailure] at hd

theorem alike_call {d : Declaration} (hd : d.IsIntrinsic) (args : List Typed) :
    Alike (Step.call d args) (Step.call d args) :=
  (alike_declare (name_ne_of_isIntrinsic hd)).bind fun _ => alike_assign _ _

/-- Counts of zeros from either side, with any two flags. -/
theorem alike_countZeros {d : Declaration} {w : Nat}
    (hd : d = Intrinsic.countLeadingZeros w ∨ d = Intrinsic.countTrailingZeros w)
    (x flag flag' : Typed) : Alike (Step.call d [x, flag]) (Step.call d [x, flag']) := by
  have hname : d.IsIntrinsic := by
    rcases hd with rfl | rfl <;> simp [Declaration.IsIntrinsic, Intrinsic.countLeadingZeros,
      Intrinsic.countTrailingZeros, Llvm.Intrinsic.plain]
  refine (alike_declare (name_ne_of_isIntrinsic hname)).bind fun _ => alike_assignRel _ ?_
  rcases hd with rfl | rfl <;> simp [Intrinsic.countLeadingZeros,
    Intrinsic.countTrailingZeros, Llvm.Intrinsic.plain, Op.withoutFlag]

theorem alike_callVoid {d : Declaration} (hd : d.IsIntrinsic) (args : List Typed) :
    Alike (Step.callVoid d args) (Step.callVoid d args) :=
  (alike_emit _).bind fun _ => alike_declare (name_ne_of_isIntrinsic hd)

end

/-- A value that does not ask for the report of a failure has the same operand. -/
theorem alike_value {env : Env} {o o' : Options} {v : Value} (hv : v.IsFree) :
    Alike (value (env.withOptions o) v) (value (env.withOptions o') v) := by
  cases v with
  | bits | bool => exact alike_pure _
  | assigned a => exact alike_bound _
  | phi v | returned v => exact alike_bound _
  | initial r => exact alike_throw _
  | arg i t =>
      simp only [value, Env.withOptions_args]
      cases env.args[i]? with
      | none => exact alike_throw _
      | some expected => exact (alike_check _).bind fun _ => alike_pure _
  | entry f =>
      have hf : (Declaration.ofFunction f.name f.signature).name ≠ Intrinsic.tableFailure.name := hv
      exact (alike_declare hf).bind fun _ => alike_pure _

end Lowering

end LiftedCode
