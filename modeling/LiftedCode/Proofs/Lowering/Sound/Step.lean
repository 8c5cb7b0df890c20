/-
The discipline of the lowering of a block. Whatever has been emitted so far
reads what is in scope and refers to functions that are declared, its results
are numbered without a gap, and an identifier is bound to an operand that is in
scope (`Sound`). If the block is well typed, then so is what has been emitted
for it; all of this is kept together, as it is about the same operands, but the
types are asked for only where `Setting.typed` holds, so that the rest is known
of every block.

`Keeps` is the triple for a step: started in a sound state it ends in one, with
a result that has a property. Operands that are in sight stay so (`Sees.mono`),
as instructions and declarations are only added (`Grows`).

# The rules

- `Keeps.bind` puts triples in sequence.
- `yields_assign` is the rule for an instruction with a result; those for
  operators, comparisons, casts, choices and calls are instances of it.
- `yields_value` is the rule for a value, whose identifier has one type.
-/
import LiftedCode.Proofs.Llvm.Symbols
import LiftedCode.Proofs.Llvm.Typing
import LiftedCode.Proofs.Lowering.Block
import LiftedCode.Proofs.Lowering.Declarations
import Mathlib.Data.List.Forall2

namespace LiftedCode

-- ================================================================ types

namespace Ty

mutual

/-- Whether the elements of all vectors in the type are truth values, bitvectors
or floating-point numbers. -/
def flat : Ty → Bool
  | .bool | .bits _ | .float _ => true
  | .tuple ts => allFlat ts
  | .vector _ .bool | .vector _ (.bits _) | .vector _ (.float _) => true
  | .vector _ (.tuple _) | .vector _ (.vector _ _) => false

/-- Whether all of the types are flat. -/
def allFlat : List Ty → Bool
  | [] => true
  | t :: ts => flat t && allFlat ts

end

/-- Whether there is a type of the target language for the type. -/
def lowerable (t : Ty) : Bool := t.nonempty && t.flat

mutual

/-- What stands for a type has values, if anything does. -/
theorem legal_ofTy : (t : Ty) → t.nonempty = true → t.flat = true → (Llvm.Ty.ofTy t).legal = true
  | .bool, _, _ => rfl
  | .bits w, h, _ => h
  | .float f, _, _ => by cases f <;> rfl
  | .tuple ts, h, hf => legal_ofTys ts h hf
  | .vector n .bool, h, _ => by
    simpa [nonempty, Llvm.Ty.ofTy, Llvm.Ty.legal, Llvm.Ty.isScalar, Llvm.Ty.isInt] using h
  | .vector n (.bits w), h, _ => by
    simpa [nonempty, Llvm.Ty.ofTy, Llvm.Ty.legal, Llvm.Ty.isScalar, Llvm.Ty.isInt] using h
  | .vector n (.float f), h, _ => by
    cases f <;> simpa [nonempty, Llvm.Ty.ofTy, Llvm.Ty.ofFormat, Llvm.Ty.legal, Llvm.Ty.isScalar,
      Llvm.Ty.isFloat] using h
  | .vector _ (.tuple _), _, h | .vector _ (.vector _ _), _, h => by contradiction

/-- Flat types that are not empty stand for legal ones. -/
theorem legal_ofTys : (ts : List Ty) → allNonempty ts = true → allFlat ts = true →
    Llvm.Ty.allLegal (Llvm.Ty.ofTys ts) = true
  | [], _, _ => rfl
  | t :: ts, h, hf => by
    rw [allNonempty, Bool.and_eq_true] at h
    rw [allFlat, Bool.and_eq_true] at hf
    rw [Llvm.Ty.ofTys, Llvm.Ty.allLegal, legal_ofTy t h.1 hf.1, legal_ofTys ts h.2 hf.2]
    rfl

end

/-- A type that can be lowered stands for a legal one. -/
theorem legal_of_lowerable {t : Ty} (h : t.lowerable = true) : (Llvm.Ty.ofTy t).legal = true := by
  rw [lowerable, Bool.and_eq_true] at h
  exact legal_ofTy t h.1 h.2

end Ty

theorem Llvm.Ty.ofTys_eq_map (ts : List LiftedCode.Ty) : ofTys ts = ts.map ofTy := by
  induction ts with
  | nil => rfl
  | cons t ts ih => rw [ofTys, ih, List.map_cons]

namespace Lowering

open Llvm (Typed Local Instr Op Operand BinaryOperator IntPredicate CastOperator Declaration Scope
  InScope)

-- ============================================================= judgements

/-- The temporaries from `n` on that come before `m`. -/
def temps (n m : Nat) : List Local := (List.range' n (m - n)).map Local.temp

/-- What the lowering of a block is judged by. -/
structure Setting where
  env : Env
  phis : List PhiBinding
  /-- The first temporary of the block. -/
  first : Nat
  /-- The types that identifiers are bound with. -/
  kinds : Ident → Ty → Prop
  /-- Whether the types are looked at. -/
  typed : Prop
  /-- Whether integers of one bit may be cast to their own type. -/
  casts : Prop

namespace Setting

variable (c : Setting)

/-- The types of the locals that the block starts with: the parameters and its
own phi variables. -/
def Entry (x : Local) (t : Llvm.Ty) : Prop :=
  (∃ i u, c.env.args[i]? = some u ∧ x = .arg i ∧ t = .ofTy u)
    ∨ ∃ p ∈ c.phis, x = .var p.var.id ∧ t = .ofTy p.var.ty

/-- Whether a local is known beforehand or has been defined. -/
def Knows (s : State) (x : Local) : Prop :=
  (∃ t, c.Entry x t) ∨ x ∈ Llvm.results s.instrs.toList

/-- What there is to refer to after what has been emitted. -/
def scope (s : State) : Scope where
  locals x t := c.Entry x t ∨ ∃ op, .assign x op ∈ s.instrs.toList ∧ op.ty? = some t
  declared d := s.declarations.get? d.name = some d

/-- Whether an instruction obeys the typing rules, or is a cast that is let
pass. -/
def Admits (s : State) (i : Instr) : Prop :=
  i.WellTyped (c.scope s) ∨ c.casts ∧ i.IsUnitCast (c.scope s)

/-- Whether an integer of one bit has been cast to its own type. -/
def CastsUnit (s : State) : Prop := ∃ i ∈ s.instrs.toList, i.IsUnitCast (c.scope s)

/-- What an operand refers to is there: its locals are known, and its functions
are declared. -/
structure Finds (s : State) (o : Operand) : Prop where
  locals : ∀ y ∈ o.locals, c.Knows s y
  functions : o.Linked (c.scope s).declared

/-- An operand is in scope and has a type. -/
structure Sees (s : State) (x : Typed) (t : Llvm.Ty) : Prop where
  finds : c.Finds s x.operand
  ty : c.typed → x.ty = t
  wellTyped : c.typed → x.WellTyped (c.scope s)

/-- What has been emitted so far is in scope, declared and well typed, and so are
the operands that identifiers are bound to. -/
structure Sound (s : State) : Prop where
  le : c.first ≤ s.nextTemp
  results : Llvm.results s.instrs.toList = temps c.first s.nextTemp
  inScope : InScope (fun x => ∃ t, c.Entry x t) s.instrs.toList
  linked : ∀ i ∈ s.instrs.toList, i.Linked (c.scope s).declared
  admitted : c.typed → ∀ i ∈ s.instrs.toList, c.Admits s i
  values : ∀ id x, s.values.get? id = some x →
    ∃ t, (c.typed → c.kinds id t) ∧ c.Sees s x (.ofTy t)

/-- Whether a value has a type of the target language, which is that of whatever
its identifier is bound to. -/
def Reads (v : Value) (t : Llvm.Ty) : Prop :=
  c.typed → .ofTy v.ty = t ∧ v.ty.lowerable = true
    ∧ ∀ e ∈ v.name?, ∀ u, c.kinds e.1 u → u = e.2

end Setting

/-- Nothing is lost between two states, and what is added is in its place. -/
structure Grows (s s' : State) : Prop where
  instrs : s.instrs.toList <+: s'.instrs.toList
  declared : ∀ d : Declaration, s.declarations.get? d.name = some d →
    s'.declarations.get? d.name = some d
  keyed : s.declarations.Keyed → s'.declarations.Keyed

/-- Run from `s`, the step ends in a sound state, if `s` is one, and with a result
that has the property, if at all. -/
def Keeps (c : Setting) {α : Type} (m : Step α) (s : State) (Q : α → State → Prop) : Prop :=
  ∀ a s', Succeeds m s a s' → c.Sound s → c.Sound s' ∧ Grows s s' ∧ Q a s'

/-- The step gives an operand of a type. -/
abbrev Yields (c : Setting) (m : Step Typed) (s : State) (t : Llvm.Ty) : Prop :=
  Keeps c m s fun x s' => c.Sees s' x t

/-- The step gives an operand of a type, and casts an integer of one bit to its
own type if `P` holds. -/
abbrev YieldsCast (c : Setting) (m : Step Typed) (s : State) (t : Llvm.Ty) (P : Prop) : Prop :=
  Keeps c m s fun x s' => c.Sees s' x t ∧ (c.typed → P → c.CastsUnit s')

variable {c : Setting} {s s₁ s' : State} {α β : Type}

-- =============================================================== numbers

/-- Temporaries that follow one another are numbered through. -/
theorem temps_append {k m n : Nat} (hkm : k ≤ m) (hmn : m ≤ n) :
    temps k m ++ temps m n = temps k n := by
  rw [temps, temps, temps, ← List.map_append, range'_append_range' hkm hmn]

@[simp] theorem temps_self (n : Nat) : temps n n = [] := by simp [temps]

@[simp] theorem temps_succ (n : Nat) : temps n (n + 1) = [.temp n] := by simp [temps]

-- ================================================================ growth

theorem Grows.refl (s : State) : Grows s s := ⟨List.prefix_rfl, fun _ h => h, id⟩

theorem Grows.trans (h : Grows s s₁) (h' : Grows s₁ s') : Grows s s' :=
  ⟨h.instrs.trans h'.instrs, fun d hd => h'.declared d (h.declared d hd), h'.keyed ∘ h.keyed⟩

/-- An instruction that is added, and temporaries that are numbered, are a growth. -/
theorem Grows.push (s : State) (n : Nat) (i : Instr) :
    Grows s { s with nextTemp := n, instrs := s.instrs.push i } where
  instrs := ⟨[i], Array.toList_push.symm⟩
  declared _ h := h
  keyed := id

/-- A binding that is added is a growth. -/
theorem Grows.insert (s : State) (id : Ident) (x : Typed) :
    Grows s { s with values := s.values.insert id x } := ⟨List.prefix_rfl, fun _ h => h, fun h => h⟩

namespace Setting

/-- What is known stays known. -/
theorem Knows.mono {x : Local} (h : c.Knows s x) (hs : Grows s s') : c.Knows s' x := by
  obtain ⟨is, his⟩ := hs.instrs
  refine h.imp_right fun hx => ?_
  rw [← his, Llvm.results_append]
  exact List.mem_append_left _ hx

/-- What is in scope stays in scope as the state grows. -/
theorem scope_mono (hs : Grows s s') : (c.scope s).Within (c.scope s') where
  locals x t h := by
    refine h.imp_right ?_
    rintro ⟨op, hop, ht⟩
    exact ⟨op, hs.instrs.subset hop, ht⟩
  declared := hs.declared

/-- An instruction that is admitted stays so as the state grows. -/
theorem Admits.mono {i : Instr} (h : c.Admits s i) (hs : Grows s s') : c.Admits s' i :=
  h.imp (·.mono (scope_mono hs)) fun hi => ⟨hi.1, hi.2.mono (scope_mono hs)⟩

theorem CastsUnit.mono (h : c.CastsUnit s) (hs : Grows s s') : c.CastsUnit s' := by
  obtain ⟨i, hi, hcast⟩ := h
  exact ⟨i, hs.instrs.subset hi, hcast.mono (scope_mono hs)⟩

theorem Finds.mono {o : Operand} (h : c.Finds s o) (hs : Grows s s') : c.Finds s' o where
  locals y hy := (h.locals y hy).mono hs
  functions := h.functions.mono hs.declared

/-- An operand in sight stays so. -/
theorem Sees.mono {x : Typed} {t : Llvm.Ty} (h : c.Sees s x t) (hs : Grows s s') :
    c.Sees s' x t where
  finds := h.finds.mono hs
  ty := h.ty
  wellTyped hc := (h.wellTyped hc).mono (scope_mono hs)

/-- The locals of an operand that is in sight are known. -/
theorem Sees.known {x : Typed} {t : Llvm.Ty} (h : c.Sees s x t) :
    ∀ y ∈ x.operand.locals, c.Knows s y := h.finds.locals

/-- An operand that is in sight has a legal type. -/
theorem Sees.legal {x : Typed} {t : Llvm.Ty} (h : c.Sees s x t) (hc : c.typed) :
    t.legal = true := by
  rw [← h.ty hc]
  exact (h.wellTyped hc).legal

/-- An integer that is in sight has a bit at least. -/
theorem Sees.pos {x : Typed} {w : Nat} (h : c.Sees s x (.int w)) (hc : c.typed) : 0 < w :=
  Llvm.Ty.legal_int.1 (h.legal hc)

/-- The type is that which it is equal to. -/
theorem Sees.of_eq {x : Typed} {t u : Llvm.Ty} (h : c.Sees s x t) (hu : c.typed → t = u) :
    c.Sees s x u :=
  ⟨h.finds, fun hc => (h.ty hc).trans (hu hc), h.wellTyped⟩

/-- An integer constant is in sight everywhere. -/
theorem sees_int {w : Nat} (n : Nat) (hw : c.typed → 0 < w) : c.Sees s (.int w n) (.int w) where
  finds := ⟨nofun, nofun⟩
  ty _ := rfl
  wellTyped hc := ⟨Llvm.Ty.legal_int.2 (hw hc), rfl⟩

/-- A truth value is in sight everywhere. -/
theorem sees_bool (b : Bool) : c.Sees s (.bool b) (.int 1) where
  finds := ⟨nofun, nofun⟩
  ty _ := rfl
  wellTyped _ := ⟨rfl, rfl⟩

/-- An undefined value of a legal type is in sight everywhere. -/
theorem sees_undef {t : Llvm.Ty} (h : c.typed → t.legal = true) : c.Sees s ⟨t, .undef⟩ t where
  finds := ⟨nofun, nofun⟩
  ty _ := rfl
  wellTyped hc := ⟨h hc, trivial⟩

/-- An instruction at the end that refers to what is there and obeys the rules. -/
theorem Sound.push (h : c.Sound s) {i : Instr} {n : Nat} (hn : s.nextTemp ≤ n)
    (hresults : i.results = temps s.nextTemp n) (hfinds : ∀ o ∈ i.operands, c.Finds s o)
    (hcall : ∀ k ∈ i.directCall?, ∃ d, (c.scope s).declared d ∧ k.Matches d)
    (hi : c.typed → c.Admits s i) :
    c.Sound { s with nextTemp := n, instrs := s.instrs.push i } where
  le := Nat.le_trans h.le hn
  results := by
    rw [Array.toList_push, Llvm.results_append, Llvm.results_singleton, h.results, hresults,
      temps_append h.le hn]
  inScope := by
    rw [Array.toList_push, Llvm.inScope_append_singleton]
    refine ⟨h.inScope, fun x hx => ?_⟩
    obtain ⟨o, ho, hx⟩ := List.mem_flatMap.1 hx
    exact (hfinds o ho).locals x hx
  linked j hj := by
    rw [Array.toList_push, List.mem_append, List.mem_singleton] at hj
    rcases hj with hj | rfl
    · exact h.linked j hj
    · exact ⟨fun o ho => (hfinds o ho).functions, hcall⟩
  admitted hc j hj := by
    rw [Array.toList_push, List.mem_append, List.mem_singleton] at hj
    rcases hj with hj | rfl
    · exact (h.admitted hc j hj).mono (.push s n i)
    · exact (hi hc).mono (.push s n j)
  values id x hx := by
    obtain ⟨t, ht, hs⟩ := h.values id x hx
    exact ⟨t, ht, hs.mono (.push s n i)⟩

/-- What an identifier is bound to has to be in sight. -/
theorem Sound.insert (h : c.Sound s) {id : Ident} {x : Typed} {t : Ty} (ht : c.typed → c.kinds id t)
    (hx : c.Sees s x (.ofTy t)) : c.Sound { s with values := s.values.insert id x } where
  le := h.le
  results := h.results
  inScope := h.inScope
  linked := h.linked
  admitted := h.admitted
  values i y hy := by
    have hy : (s.values.insert id x).get? i = some y := hy
    rw [Dict.get?_insert] at hy
    split at hy
    case isTrue hi =>
      cases hy
      subst hi
      exact ⟨t, ht, hx.mono (.insert s id x)⟩
    case isFalse =>
      obtain ⟨u, hu, hy⟩ := h.values i y hy
      exact ⟨u, hu, hy.mono (.insert s id x)⟩

end Setting

-- ============================================================= sequences

/-- Steps in sequence. The second may use that nothing was lost. -/
theorem Keeps.bind {m : Step α} {f : α → Step β} {Q : α → State → Prop} {R : β → State → Prop}
    (h : Keeps c m s Q) (hf : ∀ a s₁, Grows s s₁ → Q a s₁ → Keeps c (f a) s₁ R) :
    Keeps c (m >>= f) s R := by
  intro b s' hrun hs
  obtain ⟨a, s₁, hm, hrest⟩ := succeeds_bind hrun
  obtain ⟨hs₁, hg₁, hQ⟩ := h a s₁ hm hs
  obtain ⟨hs', hg', hR⟩ := hf a s₁ hg₁ hQ b s' hrest hs₁
  exact ⟨hs', hg₁.trans hg', hR⟩

/-- A weaker property. -/
theorem Keeps.imp {m : Step α} {Q R : α → State → Prop} (h : Keeps c m s Q)
    (hQ : ∀ a s', Q a s' → R a s') : Keeps c m s R := by
  intro a s' hrun hs
  obtain ⟨hs', hg, ha⟩ := h a s' hrun hs
  exact ⟨hs', hg, hQ a s' ha⟩

/-- What two accounts of one step say holds together. -/
theorem Keeps.and {m : Step α} {Q R : α → State → Prop} (h : Keeps c m s Q) (h' : Keeps c m s R) :
    Keeps c m s fun a s' => Q a s' ∧ R a s' := by
  intro a s' hrun hs
  obtain ⟨hs', hg, hQ⟩ := h a s' hrun hs
  exact ⟨hs', hg, hQ, (h' a s' hrun hs).2.2⟩

/-- What only grows along with the state stays. -/
theorem Keeps.grows {m : Step α} {Q : α → State → Prop} (h : Keeps c m s Q) :
    Keeps c m s fun a s' => Q a s' ∧ Grows s s' := by
  intro a s' hrun hs
  obtain ⟨hs', hg, hQ⟩ := h a s' hrun hs
  exact ⟨hs', hg, hQ, hg⟩

/-- A cast that has been made before the step stays. -/
theorem Yields.after_cast {m : Step Typed} {t : Llvm.Ty} {P : Prop} (h : Yields c m s t)
    (hcast : c.typed → P → c.CastsUnit s) : YieldsCast c m s t P :=
  h.grows.imp fun _ _ hx => ⟨hx.1, fun hc hP => (hcast hc hP).mono hx.2⟩

/-- What is not said to make a cast has none to make. -/
theorem Yields.without_cast {m : Step Typed} {t : Llvm.Ty} {P : Prop} (h : Yields c m s t)
    (hP : ¬P) : YieldsCast c m s t P :=
  h.after_cast fun _ hp => absurd hp hP

theorem YieldsCast.yields {m : Step Typed} {t : Llvm.Ty} {P : Prop} (h : YieldsCast c m s t P) :
    Yields c m s t := h.imp fun _ _ hx => hx.1

/-- Where types are looked at, the type may be given in another way. -/
theorem Yields.of_eq {m : Step Typed} {t u : Llvm.Ty} (h : Yields c m s t)
    (hu : c.typed → t = u) : Yields c m s u :=
  h.imp fun _ _ hx => hx.of_eq hu

/-- A step that does nothing keeps everything. -/
theorem keeps_pure {a : α} {Q : α → State → Prop} (h : Q a s) : Keeps c (pure a) s Q := by
  intro b s' hrun hs
  obtain ⟨rfl, rfl⟩ := succeeds_pure hrun
  exact ⟨hs, .refl s, h⟩

/-- A step that always fails keeps anything. -/
theorem keeps_throw {e : LoweringError} {Q : α → State → Prop} : Keeps c (throw e) s Q :=
  fun _ _ hrun => absurd hrun not_succeeds_throw

/-- What goes on past a guard was not stopped by it. -/
theorem keeps_guard {p : Prop} [Decidable p] {e : LoweringError} {m : Step α}
    {Q : α → State → Prop} (h : ¬p → Keeps c m s Q) : Keeps c (if p then throw e else m) s Q := by
  intro a s' hrun
  obtain ⟨hp, hrun⟩ := succeeds_guard hrun
  exact h hp a s' hrun

/-- A computation that does not touch the state. -/
theorem keeps_ofExcept (x : Except LoweringError α) :
    Keeps c (Step.ofExcept x) s fun a _ => x = .ok a := by
  intro a s' hrun hs
  obtain ⟨hx, rfl⟩ := succeeds_ofExcept hrun
  exact ⟨hs, .refl s, hx⟩

/-- A check keeps everything, and is known to have passed. -/
theorem keeps_check (x : Except CodeError α) : Keeps c (Step.check x) s fun a _ => x = .ok a :=
  (keeps_ofExcept _).imp fun _ _ h => ok_of_mapError h

theorem keeps_ofFault (x : Except Fault α) : Keeps c (Step.ofFault x) s fun a _ => x = .ok a :=
  (keeps_ofExcept _).imp fun _ _ h => ok_of_mapError h

theorem keeps_refuse {what : Layout → Unsupported} {l : Layout} {Q : α → State → Prop} :
    Keeps c (Step.refuse what l) s Q :=
  (keeps_ofFault _).bind fun _ _ _ _ => keeps_throw

-- =========================================================== instructions

/-- An instruction without a result. -/
theorem keeps_emit {i : Instr} (hresults : i.results = []) (hfinds : ∀ o ∈ i.operands, c.Finds s o)
    (hcall : ∀ k ∈ i.directCall?, ∃ d, (c.scope s).declared d ∧ k.Matches d)
    (hi : c.typed → i.WellTyped (c.scope s)) : Keeps c (Step.emit i) s fun _ _ => True := by
  intro _ s' hrun hs
  obtain rfl := succeeds_modify hrun
  refine ⟨hs.push (Nat.le_refl _) ?_ hfinds hcall fun hc => .inl (hi hc), .push s _ i, trivial⟩
  rw [hresults, temps_self]

/-- An instruction with a result, which is a fresh local. -/
theorem yields_assign {t u : Llvm.Ty} {op : Op} (hfinds : ∀ o ∈ op.operands, c.Finds s o)
    (hcall : ∀ k ∈ op.directCall?, ∃ d, (c.scope s).declared d ∧ k.Matches d)
    (hu : c.typed → u = t) (ht : c.typed → t.legal = true ∧ op.ty? = some t)
    (hop : c.typed → ∀ x, c.Admits s (.assign x op)) : Yields c (Step.assign u op) s t := by
  intro x s' hrun hs
  cases hrun
  refine ⟨hs.push (Nat.le_succ _) (temps_succ _).symm hfinds hcall fun hc => hop hc _,
    .push s _ _, ⟨?_, nofun⟩, hu, ?_⟩
  · intro y hy
    obtain rfl := List.mem_singleton.1 hy
    refine .inr ?_
    rw [Array.toList_push, Llvm.results_append, Llvm.results_singleton]
    exact List.mem_append_right _ List.mem_cons_self
  · intro hc
    rw [hu hc]
    refine ⟨(ht hc).1, .inr ⟨op, ?_, (ht hc).2⟩⟩
    rw [Array.toList_push]
    exact List.mem_append_right _ List.mem_cons_self

section

variable {x y z : Typed} {t u : Llvm.Ty}

/-- The second operand is written without its type, which is that of the
first. -/
theorem Setting.Sees.wellTyped_operand (hy : c.Sees s y t) (hx : c.Sees s x t) (hc : c.typed) :
    Typed.WellTyped (c.scope s) ⟨x.ty, y.operand⟩ := by
  rw [hx.ty hc, ← hy.ty hc]
  exact hy.wellTyped hc

theorem forall_mem_pair {α : Type} {p : α → Prop} {a b : α} (ha : p a) (hb : p b) :
    ∀ x ∈ [a, b], p x := by
  simpa using ⟨ha, hb⟩

/-- The result of an operator that takes operands of the type. -/
theorem yields_operator {op : BinaryOperator} (hx : c.Sees s x t) (hy : c.Sees s y t)
    (hop : c.typed → op.takes t = true) (hu : c.typed → u = t) :
    Yields c (Step.assign u (.binary op x y.operand)) s t := by
  refine yields_assign (forall_mem_pair hx.finds hy.finds) nofun hu
    (fun hc => ⟨hx.legal hc, congrArg some (hx.ty hc)⟩) fun hc _ => .inl ?_
  refine ⟨?_, hx.wellTyped hc, hy.wellTyped_operand hx hc⟩
  rw [hx.ty hc]
  exact hop hc

theorem yields_binary {op : BinaryOperator} (hx : c.Sees s x t) (hy : c.Sees s y t)
    (hop : c.typed → op.takes t = true) : Yields c (Step.binary op x y) s t :=
  yields_operator hx hy hop hx.ty

theorem yields_compare {pred : IntPredicate} (hx : c.Sees s x t) (hy : c.Sees s y t)
    (ht : c.typed → t.isInt = true) : Yields c (Step.compare pred x y) s (.int 1) := by
  refine yields_assign (forall_mem_pair hx.finds hy.finds) nofun (fun _ => rfl)
    (fun _ => ⟨rfl, rfl⟩) fun hc _ => .inl ?_
  refine ⟨?_, hx.wellTyped hc, hy.wellTyped_operand hx hc⟩
  rw [hx.ty hc]
  exact ht hc

/-- The result of a conversion that is allowed between the types. -/
theorem yields_cast {op : CastOperator} (hx : c.Sees s x t)
    (hop : c.typed → op.allows t u = true ∧ u.legal = true) :
    Yields c (Step.cast op x u) s u := by
  refine yields_assign (by simpa [Op.operands] using hx.finds) nofun (fun _ => rfl)
    (fun hc => ⟨(hop hc).2, rfl⟩) fun hc _ => .inl ?_
  refine ⟨?_, (hop hc).2, hx.wellTyped hc⟩
  rw [hx.ty hc]
  exact (hop hc).1

/-- The result of a choice between operands of one type. -/
theorem yields_select (hz : c.Sees s z (.int 1)) (hx : c.Sees s x t) (hy : c.Sees s y t) :
    Yields c (Step.select z x y) s t := by
  refine yields_assign ?_ nofun hx.ty (fun hc => ⟨hx.legal hc, congrArg some (hx.ty hc)⟩)
    fun hc _ => .inl ?_
  · simpa [Op.operands] using ⟨hz.finds, hx.finds, hy.finds⟩
  · exact ⟨hz.ty hc, (hy.ty hc).trans (hx.ty hc).symm, hz.wellTyped hc, hx.wellTyped hc,
      hy.wellTyped hc⟩

/-- A cast of an integer of one bit to its own type is let pass, and is there
afterwards. -/
theorem yieldsCast_unit {op : CastOperator} (hop : op = .trunc ∨ op = .zext)
    (hx : c.Sees s x (.int 1)) (hcasts : c.typed → c.casts) :
    YieldsCast c (Step.cast op x (.int 1)) s (.int 1) True := by
  have hunit : ∀ {s' : State}, Grows s s' → c.typed → ∀ y,
      Instr.IsUnitCast (c.scope s') (.assign y (.cast op x (.int 1))) := fun hg hc _ =>
    ⟨hop, hx.ty hc, rfl, (hx.wellTyped hc).mono (Setting.scope_mono hg)⟩
  have hyields : Yields c (Step.cast op x (.int 1)) s (.int 1) :=
    yields_assign (by simpa [Op.operands] using hx.finds) nofun (fun _ => rfl)
      (fun _ => ⟨rfl, rfl⟩) fun hc y => .inr ⟨hcasts hc, hunit (.refl s) hc y⟩
  intro y s' hrun hs
  obtain ⟨hs', hg, hy⟩ := hyields y s' hrun hs
  refine ⟨hs', hg, hy, fun hc _ => ⟨_, ?_, hunit hg hc (.temp s.nextTemp)⟩⟩
  cases hrun
  rw [Array.toList_push]
  exact List.mem_append_right _ List.mem_cons_self

end

-- =========================================================== declarations

/-- What is asked for is declared from then on. -/
theorem keeps_declare (d : Declaration) :
    Keeps c (Step.declare d) s fun _ s' => s'.declarations.get? d.name = some d := by
  intro _ s' hrun hs
  rw [Succeeds, run_declare] at hrun
  split at hrun
  case h_2 => cases hrun
  case h_1 ds log hdeclare =>
    cases hrun
    obtain ⟨hd, hold⟩ := Declarations.of_declare hdeclare
    have hg : Grows s { s with declarations := ds, log := log } :=
      ⟨List.prefix_rfl, fun e => hold e.name e, fun hkeyed => hkeyed.of_declare hdeclare⟩
    refine ⟨⟨hs.le, hs.results, hs.inScope, ?_, ?_, ?_⟩, hg, hd⟩
    · exact fun i hi => (hs.linked i hi).mono hg.declared
    · exact fun hc i hi => (hs.admitted hc i hi).mono hg
    · intro id x hx
      obtain ⟨t, ht, hx⟩ := hs.values id x hx
      exact ⟨t, ht, hx.mono hg⟩

/-- Operands that have the types of a list, one for each. -/
theorem of_forall₂_sees {xs : List Typed} {ts : List Llvm.Ty}
    (h : List.Forall₂ (c.Sees s) xs ts) : (∀ x ∈ xs, c.Finds s x.operand)
      ∧ (c.typed → ts = xs.map (·.ty) ∧ ∀ x ∈ xs, x.WellTyped (c.scope s)) := by
  induction h with
  | nil => exact ⟨nofun, fun _ => ⟨rfl, nofun⟩⟩
  | cons hx _ ih =>
      refine ⟨List.forall_mem_cons.2 ⟨hx.finds, ih.1⟩, fun hc => ⟨?_, ?_⟩⟩
      · rw [List.map_cons, hx.ty hc, ← (ih.2 hc).1]
      · exact List.forall_mem_cons.2 ⟨hx.wellTyped hc, (ih.2 hc).2⟩

theorem forall₂_sees_mono {xs : List Typed} {ts : List Llvm.Ty}
    (h : List.Forall₂ (c.Sees s) xs ts) (hs : Grows s s') : List.Forall₂ (c.Sees s') xs ts :=
  h.imp fun _ _ hx => hx.mono hs

/-- A function that is declared is found by its name. -/
theorem Setting.finds_global {d : Declaration} (hd : (c.scope s).declared d) :
    c.Finds s (.global d.name) := by
  refine ⟨nofun, fun f hf => ?_⟩
  obtain rfl := List.mem_singleton.1 hf
  exact ⟨d, hd, rfl⟩

/-- A call of a function that is declared for it. -/
theorem yields_call {d : Declaration} {xs : List Typed} (hxs : List.Forall₂ (c.Sees s) xs d.args)
    (hret : c.typed → d.ret.legal = true) : Yields c (Step.call d xs) s d.ret := by
  refine (keeps_declare d).bind fun _ s₁ h₁ hd => ?_
  obtain ⟨hfinds, htyped⟩ := of_forall₂_sees (forall₂_sees_mono hxs h₁)
  refine yields_assign ?_ ?_ (fun _ => rfl) (fun hc => ⟨hret hc, rfl⟩) fun hc _ => .inl ?_
  · rw [Op.operands, List.forall_mem_cons, List.forall_mem_map]
    exact ⟨Setting.finds_global hd, hfinds⟩
  · rintro _ ⟨⟩
    exact ⟨d, hd, rfl, rfl, hxs.length_eq.symm⟩
  · exact ⟨hret hc, .declared d xs hd (htyped hc).1, (htyped hc).2⟩

/-- A call without a result can be emitted before or after the function is
declared. -/
theorem succeeds_callVoid {d : Declaration} {xs : List Typed} {u : Unit}
    (h : Succeeds (Step.callVoid d xs) s u s') :
    Succeeds (Step.declare d >>= fun _ => Step.emit (.call d.name xs)) s u s' := by
  obtain ⟨_, s₁, hemit, hdeclare⟩ := succeeds_bind h
  obtain rfl := succeeds_modify hemit
  rw [Succeeds, run_declare] at hdeclare
  rw [Succeeds, run_bind, run_declare]
  dsimp only at hdeclare
  rcases hrun : (s.declarations.declare d).run.run s.log with ⟨_ | ds, log⟩
  all_goals
    rw [hrun] at hdeclare
    cases hdeclare
  rfl

/-- A call without a result of a function that is declared for it. -/
theorem keeps_callVoid {d : Declaration} {xs : List Typed}
    (hxs : List.Forall₂ (c.Sees s) xs d.args) (hret : d.ret = .void) :
    Keeps c (Step.callVoid d xs) s fun _ _ => True := by
  have hkeeps : Keeps c (Step.declare d >>= fun _ => Step.emit (.call d.name xs)) s
      fun _ _ => True := by
    refine (keeps_declare d).bind fun _ s₁ h₁ hd => ?_
    obtain ⟨hfinds, htyped⟩ := of_forall₂_sees (forall₂_sees_mono hxs h₁)
    refine keeps_emit rfl (List.forall_mem_map.2 hfinds) ?_ fun hc => ⟨?_, (htyped hc).2⟩
    · rintro _ ⟨⟩
      exact ⟨d, hd, rfl, hret, hxs.length_eq.symm⟩
    · rw [← hret]
      exact .declared d xs hd (htyped hc).1
  exact fun u s' hrun => hkeeps u s' (succeeds_callVoid hrun)

-- ====================================================== parts and memory

section

variable {x y p : Typed} {t u : Llvm.Ty} {ts : List Llvm.Ty} {i : Nat}

/-- A field of a structure. -/
theorem yields_extractValue (hx : c.Sees s x (.struct ts)) (hi : c.typed → ts[i]? = some t) :
    Yields c (Step.assign t (.extractValue x i)) s t := by
  refine yields_assign (by simpa [Op.operands] using hx.finds) nofun (fun _ => rfl) ?_
    fun hc _ => .inl ?_
  · intro hc
    refine ⟨Llvm.Ty.allLegal_iff.1 (hx.legal hc) t (List.mem_of_getElem? (hi hc)), ?_⟩
    rw [Op.ty?, hx.ty hc]
    exact hi hc
  · exact ⟨⟨ts, hx.ty hc, (List.getElem?_eq_some_iff.1 (hi hc)).1⟩, hx.wellTyped hc⟩

/-- A structure with one field put in. -/
theorem yields_insertValue (hx : c.Sees s x (.struct ts)) (hy : c.Sees s y t)
    (hi : c.typed → ts[i]? = some t) :
    Yields c (Step.assign x.ty (.insertValue x y i)) s (.struct ts) := by
  refine yields_assign (forall_mem_pair hx.finds hy.finds) nofun hx.ty
    (fun hc => ⟨hx.legal hc, congrArg some (hx.ty hc)⟩) fun hc _ => .inl ?_
  refine ⟨⟨ts, hx.ty hc, ?_⟩, hx.wellTyped hc, hy.wellTyped hc⟩
  rw [hy.ty hc]
  exact hi hc

/-- The type of vectors with one element is legal. -/
theorem legal_single (hscalar : t.isScalar = true) (hlegal : t.legal = true) :
    t.single.legal = true := by
  rw [Llvm.Ty.single, Llvm.Ty.legal, hscalar, hlegal]
  rfl

/-- A vector with one element. -/
theorem yields_insertFirst (hx : c.Sees s x t) (hu : c.typed → u = t)
    (ht : c.typed → t.isScalar = true) :
    Yields c (Step.assign u.single (.insertFirst ⟨u.single, .undef⟩ x)) s t.single := by
  refine yields_assign (forall_mem_pair ⟨nofun, nofun⟩ hx.finds) nofun
    (fun hc => by rw [hu hc]) (fun hc => ?_) fun hc _ => .inl ?_
  all_goals
    obtain rfl := hu hc
    have hlegal := legal_single (ht hc) (hx.legal hc)
  · exact ⟨hlegal, rfl⟩
  · exact ⟨⟨1, by rw [hx.ty hc]; rfl⟩, ⟨hlegal, trivial⟩, hx.wellTyped hc⟩

/-- The element of a vector of one element. -/
theorem yields_extractFirst (hx : c.Sees s x t.single) (ht : c.typed → t.legal = true) :
    Yields c (Step.assign t (.extractFirst x)) s t := by
  refine yields_assign (by simpa [Op.operands] using hx.finds) nofun (fun _ => rfl) ?_
    fun hc _ => .inl ⟨⟨1, t, hx.ty hc⟩, hx.wellTyped hc⟩
  intro hc
  refine ⟨ht hc, ?_⟩
  rw [Op.ty?, hx.ty hc]
  rfl

/-- What is read through a pointer. -/
theorem yields_load (hp : c.Sees s p .ptr) (ht : c.typed → t.legal = true) :
    Yields c (Step.assign t (.load t p)) s t :=
  yields_assign (by simpa [Op.operands] using hp.finds) nofun (fun _ => rfl)
    (fun hc => ⟨ht hc, rfl⟩) fun hc _ => .inl ⟨ht hc, hp.ty hc, hp.wellTyped hc⟩

/-- A write through a pointer keeps everything. -/
theorem keeps_store (hx : c.Sees s x t) (hp : c.Sees s p .ptr) :
    Keeps c (Step.emit (.store x p)) s fun _ _ => True :=
  keeps_emit rfl (forall_mem_pair hx.finds hp.finds) nofun
    fun hc => ⟨hp.ty hc, hx.wellTyped hc, hp.wellTyped hc⟩

end

-- ================================================================ values

/-- An identifier is bound to what is in sight, with one of its types. -/
theorem keeps_bindIdent {id : Ident} {x : Typed} {t : Ty} (ht : c.typed → c.kinds id t)
    (hx : c.Sees s x (.ofTy t)) : Keeps c (Step.bind id x) s fun _ _ => True := by
  intro _ s' hrun hs
  obtain rfl := succeeds_bindIdent hrun
  exact ⟨hs.insert ht hx, .insert s id x, trivial⟩

/-- What an identifier is bound to has one of its types. -/
theorem yields_bound {id : Ident} {t : Llvm.Ty}
    (h : c.typed → ∀ u, c.kinds id u → .ofTy u = t) : Yields c (Step.bound id) s t := by
  intro x s' hrun hs
  obtain ⟨rfl, hx⟩ := succeeds_bound hrun
  obtain ⟨u, hu, hx⟩ := hs.values id x hx
  exact ⟨hs, .refl s, hx.of_eq fun hc => h hc u (hu hc)⟩

/-- What is written in place of a type has values if something is read at it. -/
theorem Setting.Reads.legal {v : Value} {t : Llvm.Ty} (h : c.Reads v t) (hc : c.typed) :
    t.legal = true := by
  obtain ⟨rfl, hl, -⟩ := h hc
  exact Ty.legal_of_lowerable hl

/-- The identifier of a value is bound with the type of the value. -/
theorem Setting.Reads.kinds {v : Value} {t : Llvm.Ty} (h : c.Reads v t) {id : Ident} {u : Ty}
    (hv : v.name? = some (id, u)) (hu : u = v.ty) (hc : c.typed) {u' : Ty} (hk : c.kinds id u') :
    .ofTy u' = t := by
  obtain ⟨ht, -, hkinds⟩ := h hc
  rw [hkinds (id, u) hv u' hk, hu]
  exact ht

/-- The operand for a value that can be read has the type at which it is read. -/
theorem yields_value {v : Value} {t : Llvm.Ty} (h : c.Reads v t) :
    Yields c (value c.env v) s t := by
  cases v with
  | bits l =>
      exact keeps_pure ((Setting.sees_int l.magnitude fun _ => l.width_pos).of_eq
        fun hc => (h hc).1)
  | bool b => exact keeps_pure ((Setting.sees_bool b).of_eq fun hc => (h hc).1)
  | assigned a => exact yields_bound fun hc u hu => h.kinds rfl rfl hc hu
  | phi w | returned w => exact yields_bound fun hc u hu => h.kinds rfl rfl hc hu
  | initial r => exact keeps_throw
  | arg i u =>
      unfold value
      dsimp only
      split
      case h_1 => exact keeps_throw
      case h_2 expected hi =>
        refine (keeps_check _).bind fun _ s₁ _ hcheck => keeps_pure ?_
        rw [← App.eq_of_expectTy hcheck] at hi
        have hentry : c.Entry (.arg i) (.ofTy u) := .inl ⟨i, u, hi, rfl, rfl⟩
        refine ⟨⟨?_, nofun⟩, fun hc => (h hc).1, fun hc => ⟨?_, .inl hentry⟩⟩
        · intro y hy
          obtain rfl := List.mem_singleton.1 hy
          exact .inl ⟨_, hentry⟩
        · have hlegal := h.legal hc
          rw [← (h hc).1] at hlegal
          exact hlegal
  | entry f =>
      refine (keeps_declare _).bind fun _ s₁ _ hd => keeps_pure ?_
      exact ⟨⟨nofun, (Setting.finds_global hd).functions⟩, fun hc => (h hc).1,
        fun _ => ⟨rfl, rfl, _, hd, rfl⟩⟩

end Lowering

end LiftedCode
