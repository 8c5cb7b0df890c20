/-
What a step of the lowering emits. A step that is run from a state adds
instructions to it, and `Follows` says what they do: executed on the locals of
the state they give the locals of the new one, under which everything stands
for what it stood for before. `Lowers` is the triple for a step: it ends in a
state that follows, with a result that has a property, or it is refused.

# Refusals

A step may be refused for two reasons only, and both are pinned down: a width
leaves its range, or a declaration that the step asks for clashes with another
one (`Clash`). The declarations a step may ask for are `wanted`, and `tooWide`
is the condition under which it may report a width.

# The rules

- `Lowers.bind` puts triples in sequence.
- `gives_assign` is the rule for an instruction, and the rules for operators,
  comparisons, conversions, choices and calls are instances of it.
- `gives_value` is the rule for a value: one that is `Known` has an operand
  that stands for the same.
-/
import LiftedCode.Lowering.Block
import LiftedCode.Proofs.Data.Dict
import LiftedCode.Proofs.Effect
import LiftedCode.Proofs.Llvm.Eval

namespace LiftedCode.Lowering

open Llvm (Typed Operand Local Instr Op BinaryOperator IntPredicate CastOperator Declaration Data
  Frame Linkage Builtin)

/-- The operand of a destination that is an address. -/
def calleeAt (env : Env) (dest : Value) : Step Operand := do
  Step.check (expectTy .callDestination (.bits 64) dest.ty)
  return (← address env dest).operand

-- ============================================================= relations

section

variable (link : Linkage) (wanted : Declaration → Prop) (tooWide : Prop)

/-- The instructions that were added on the way from `s` to `s'` take the locals
`ρ` to `ρ'`, and assign none that the state has numbered before. -/
structure Follows (s : State) (ρ : Frame) (s' : State) (ρ' : Frame) : Prop where
  ran : ∃ is, s'.instrs.toList = s.instrs.toList ++ is ∧ Llvm.run link ρ is = some ρ'
  values : s'.values = s.values
  numbered : s.nextTemp ≤ s'.nextTemp
  kept : ∀ x, (∀ k, x = .temp k → k < s.nextTemp) → ρ' x = ρ x
  declared : ∀ name d, s'.declarations.get? name = some d →
    s.declarations.get? name = some d ∨ wanted d ∧ d.name = name

/-- On the way from `s` to `s'` nothing that was bound or numbered is lost, and only
wanted declarations come in. -/
structure Preserves (s : State) (ρ : Frame) (s' : State) (ρ' : Frame) : Prop where
  values : s'.values = s.values
  numbered : s.nextTemp ≤ s'.nextTemp
  kept : ∀ x, (∀ k, x = .temp k → k < s.nextTemp) → ρ' x = ρ x
  declared : ∀ name d, s'.declarations.get? name = some d →
    s.declarations.get? name = some d ∨ wanted d ∧ d.name = name

/-- Whether one of the wanted declarations meets a different one for its name. -/
def Clash (ds : Declarations) (name : String) : Prop :=
  ∃ d d', wanted d ∧ d.name = name ∧ d' ≠ d
    ∧ (ds.get? name = some d' ∨ wanted d' ∧ d'.name = name)

/-- The errors with which a step may be refused. -/
def Refused (ds : Declarations) (e : LoweringError) : Prop :=
  (e = .code (.fault .overflow) ∧ tooWide)
    ∨ ∃ name, e = .conflictingDeclaration name ∧ Clash wanted ds name

/-- Run from `s`, the step ends in a state that follows and with a result that
has the property, or it is refused. -/
def Lowers {α : Type} (m : Step α) (s : State) (ρ : Frame) (Q : α → State → Frame → Prop) :
    Prop :=
  match m.run.run s with
  | (.ok a, s') => ∃ ρ', Follows link wanted s ρ s' ρ' ∧ Q a s' ρ'
  | (.error e, _) => Refused wanted tooWide s.declarations e

/-- An operand has a type and stands for a datum, and no local that is still to
be numbered is in it. -/
structure Stands (s : State) (ρ : Frame) (x : Typed) (t : Llvm.Ty) (d : Data) : Prop where
  ty : x.ty = t
  eval : x.eval link ρ = some d
  old : ∀ k, x.operand = .reg (.temp k) → k < s.nextTemp

/-- The step gives an operand of a type that stands for a datum, or it is
refused. -/
abbrev Gives (m : Step Typed) (s : State) (ρ : Frame) (t : Llvm.Ty) (d : Data) : Prop :=
  Lowers link wanted tooWide m s ρ fun x s' ρ' => Stands link s' ρ' x t d

/-- The datum that the operand for a value will stand for. Registers of the
machine have none. -/
def Known (env : Env) (s : State) (ρ : Frame) (v : Value) (d : Data) : Prop :=
  match v with
  | .bits l => d = .bits l.width (BitVec.ofNat l.width l.magnitude)
  | .bool b => d = .bits 1 (BitVec.ofBool b)
  | .assigned a => ∃ x, s.values.get? a.id = some x ∧ Stands link s ρ x (.ofTy a.ty) d
  | .phi u | .returned u => ∃ x, s.values.get? u.id = some x ∧ Stands link s ρ x (.ofTy u.ty) d
  | .initial _ => False
  | .arg i t => env.args[i]? = some t ∧ ρ (.arg i) = some d
  | .entry f => d = .bits 64 (link.address f.name)

end

variable {link : Linkage} {wanted : Declaration → Prop} {tooWide : Prop} {env : Env}
  {s s₁ s' : State} {ρ ρ₁ ρ' : Frame} {α β : Type}

-- ============================================================== following

theorem Follows.refl (s : State) (ρ : Frame) : Follows link wanted s ρ s ρ where
  ran := ⟨[], (List.append_nil _).symm, rfl⟩
  values := rfl
  numbered := Nat.le_refl _
  kept _ _ := rfl
  declared _ _ h := .inl h

theorem Follows.trans (h : Follows link wanted s ρ s₁ ρ₁) (h' : Follows link wanted s₁ ρ₁ s' ρ') :
    Follows link wanted s ρ s' ρ' where
  ran := by
    obtain ⟨is, his, hrun⟩ := h.ran
    obtain ⟨js, hjs, hrun'⟩ := h'.ran
    refine ⟨is ++ js, ?_, ?_⟩
    · rw [hjs, his, List.append_assoc]
    · rw [Llvm.run_append hrun, hrun']
  values := h'.values.trans h.values
  numbered := Nat.le_trans h.numbered h'.numbered
  kept x hx := by
    rw [h'.kept x fun k hk => Nat.lt_of_lt_of_le (hx k hk) h.numbered]
    exact h.kept x hx
  declared name d hd := by
    rcases h'.declared name d hd with hd | hd
    · exact h.declared name d hd
    · exact .inr hd

theorem Follows.preserves (h : Follows link wanted s ρ s' ρ') : Preserves wanted s ρ s' ρ' :=
  ⟨h.values, h.numbered, h.kept, h.declared⟩

theorem Stands.of_preserves {x : Typed} {t : Llvm.Ty} {d : Data} (h : Stands link s ρ x t d)
    (hp : Preserves wanted s ρ s' ρ') : Stands link s' ρ' x t d where
  ty := h.ty
  eval := by
    rw [Llvm.Typed.eval_congr, h.eval]
    intro y hy
    refine hp.kept y fun k hk => h.old k ?_
    rw [hy, hk]
  old k hk := Nat.lt_of_lt_of_le (h.old k hk) hp.numbered

theorem Known.of_preserves {v : Value} {d : Data} (h : Known link env s ρ v d)
    (hp : Preserves wanted s ρ s' ρ') : Known link env s' ρ' v d := by
  cases v with
  | bits _ | bool _ | entry _ => exact h
  | assigned _ | phi _ | returned _ =>
      obtain ⟨x, hx, hs⟩ := h
      exact ⟨x, by rw [hp.values, hx], hs.of_preserves hp⟩
  | initial => exact h.elim
  | arg i t =>
      refine ⟨h.1, ?_⟩
      have hkept : ρ' (.arg i) = ρ (.arg i) := hp.kept (.arg i) nofun
      rw [hkept]
      exact h.2

/-- An operand goes on standing for the same. -/
theorem Stands.mono {x : Typed} {t : Llvm.Ty} {d : Data} (h : Stands link s ρ x t d)
    (hf : Follows link wanted s ρ s' ρ') : Stands link s' ρ' x t d := h.of_preserves hf.preserves

/-- A value stays known. -/
theorem Known.mono {v : Value} {d : Data} (h : Known link env s ρ v d)
    (hf : Follows link wanted s ρ s' ρ') : Known link env s' ρ' v d := h.of_preserves hf.preserves

theorem stands_int (w n : Nat) :
    Stands link s ρ (.int w n) (.int w) (.bits w (BitVec.ofNat w n)) :=
  ⟨rfl, rfl, nofun⟩

theorem stands_bool (b : Bool) :
    Stands link s ρ (.bool b) (.int 1) (.bits 1 (BitVec.ofBool b)) :=
  ⟨rfl, rfl, nofun⟩

-- ============================================================== sequences

theorem Refused.of_preserves {e : LoweringError} (hp : Preserves wanted s ρ s₁ ρ₁)
    (h : Refused wanted tooWide s₁.declarations e) :
    Refused wanted tooWide s.declarations e := by
  rcases h with h | ⟨name, rfl, d, d', hd, hname, hne, hd'⟩
  · exact .inl h
  · refine .inr ⟨name, rfl, d, d', hd, hname, hne, ?_⟩
    rcases hd' with hd' | hd'
    · exact hp.declared name d' hd'
    · exact .inr hd'

/-- A refusal after some instructions is one from the start. -/
theorem Refused.of_follows {e : LoweringError} (hf : Follows link wanted s ρ s₁ ρ₁)
    (h : Refused wanted tooWide s₁.declarations e) :
    Refused wanted tooWide s.declarations e := h.of_preserves hf.preserves

/-- Steps in sequence. The second may use that its state follows the first. -/
theorem Lowers.bind {m : Step α} {f : α → Step β} {Q : α → State → Frame → Prop}
    {R : β → State → Frame → Prop} (h : Lowers link wanted tooWide m s ρ Q)
    (hf : ∀ a s₁ ρ₁, Follows link wanted s ρ s₁ ρ₁ → Q a s₁ ρ₁ →
      Lowers link wanted tooWide (f a) s₁ ρ₁ R) :
    Lowers link wanted tooWide (m >>= f) s ρ R := by
  unfold Lowers at *
  rw [run_bind]
  split at h
  case h_2 e s₁ he =>
    rw [he]
    exact h
  case h_1 a s₁ ha =>
    obtain ⟨ρ₁, h₁, hQ⟩ := h
    have h₂ := hf a s₁ ρ₁ h₁ hQ
    rw [ha]
    dsimp only
    split at h₂
    case h_1 b s' hb =>
      obtain ⟨ρ', h₃, hR⟩ := h₂
      rw [hb]
      exact ⟨ρ', h₁.trans h₃, hR⟩
    case h_2 e s' he =>
      rw [he]
      exact h₂.of_follows h₁

/-- A weaker property. -/
theorem Lowers.imp {m : Step α} {Q R : α → State → Frame → Prop}
    (h : Lowers link wanted tooWide m s ρ Q) (hQ : ∀ a s' ρ', Q a s' ρ' → R a s' ρ') :
    Lowers link wanted tooWide m s ρ R := by
  unfold Lowers at *
  split at h
  case h_1 a s' ha =>
    obtain ⟨ρ', hf, h⟩ := h
    exact ⟨ρ', hf, hQ a s' ρ' h⟩
  case h_2 => exact h

/-- A step that succeeds has the property. -/
theorem Lowers.of_succeeds {m : Step α} {Q : α → State → Frame → Prop} {a : α}
    (h : Lowers link wanted tooWide m s ρ Q) (hm : Succeeds m s a s') :
    ∃ ρ', Follows link wanted s ρ s' ρ' ∧ Q a s' ρ' := by
  unfold Lowers at h
  rw [hm] at h
  exact h

/-- A step that only looks at the state. -/
theorem lowers_of_run {m : Step α} {a : α} {Q : α → State → Frame → Prop}
    (hrun : m.run.run s = (.ok a, s)) (h : Q a s ρ) : Lowers link wanted tooWide m s ρ Q := by
  unfold Lowers
  rw [hrun]
  exact ⟨ρ, .refl s ρ, h⟩

theorem lowers_pure {a : α} {Q : α → State → Frame → Prop} (h : Q a s ρ) :
    Lowers link wanted tooWide (pure a : Step α) s ρ Q :=
  lowers_of_run rfl h

/-- Arithmetic that stays in its range. -/
theorem lowers_ofFault {x : Except Fault α} {Q : α → State → Frame → Prop}
    (h : (∃ a, x = .ok a ∧ Q a s ρ) ∨ x = .error .overflow ∧ tooWide) :
    Lowers link wanted tooWide (Step.ofFault x) s ρ Q := by
  rcases h with ⟨a, rfl, h⟩ | ⟨rfl, h⟩
  · exact lowers_of_run rfl h
  · exact .inl ⟨rfl, h⟩

/-- What is bound is taken in even if that is refused. -/
theorem run_bindIdent (id : Ident) (x : Typed) (s : State) : (Step.bind id x).run.run s
    = (if s.values.contains id then .error (.code (.duplicateAssignment id)) else .ok (),
      { s with values := s.values.insert id x }) := by
  show (ite (s.values.contains id = true) (throw _) (pure ()) : Step Unit).run.run _ = _
  split <;> rfl

/-- The operand that an identifier is bound to. -/
theorem run_bound {id : Ident} {x : Typed} (hx : s.values.get? id = some x) :
    (Step.bound id).run.run s = (.ok x, s) := by
  have hget : (get : Step State).run.run s = (.ok s, s) := rfl
  unfold Step.bound
  rw [run_bind, hget]
  dsimp only
  rw [hx]
  rfl

/-- An identifier that nothing is bound to. -/
theorem run_bound_of_none {s : State} {id : Ident} (h : s.values.get? id = none) :
    (Step.bound id).run.run s = (.error (.unboundValue id), s) := by
  have hget : (get : Step State).run.run s = (.ok s, s) := rfl
  unfold Step.bound
  rw [run_bind, hget]
  dsimp only
  rw [h]
  rfl

theorem lowers_bound {id : Ident} {x : Typed} {Q : Typed → State → Frame → Prop}
    (hx : s.values.get? id = some x) (h : Q x s ρ) :
    Lowers link wanted tooWide (Step.bound id) s ρ Q :=
  lowers_of_run (run_bound hx) h

-- =========================================================== instructions

/-- An instruction: its result is a fresh local that stands for what the
operation gives. -/
theorem gives_assign {t : Llvm.Ty} {op : Op} {d : Data} (h : op.eval link ρ = some d) :
    Gives link wanted tooWide (Step.assign t op) s ρ t d := by
  refine ⟨ρ.set (.temp s.nextTemp) d, ?_, ?_⟩
  · refine ⟨⟨[.assign (.temp s.nextTemp) op], Array.toList_push, ?_⟩, rfl, Nat.le_succ _, ?_,
      fun _ _ hd => .inl hd⟩
    · show (op.eval link ρ).map (ρ.set (.temp s.nextTemp)) >>= pure = _
      rw [h]
      rfl
    · intro x hx
      rw [Llvm.Frame.set_of_ne]
      rintro rfl
      exact Nat.lt_irrefl _ (hx _ rfl)
  · refine ⟨rfl, Llvm.Frame.set_self _ _ _, ?_⟩
    intro k hk
    cases hk
    exact Nat.lt_succ_self _

section

variable {x y z : Typed} {t : Llvm.Ty} {w : Nat} {X Y : BitVec w} {d e : Data}

/-- An operand of an integer type, written without the type. -/
theorem Stands.eval_operand (h : Stands link s ρ y t d) (hx : x.ty = t) :
    Typed.eval link ρ ⟨x.ty, y.operand⟩ = some d := by
  rw [hx, ← h.ty]
  exact h.eval

theorem gives_binary {op : BinaryOperator} (hx : Stands link s ρ x (.int w) (.bits w X))
    (hy : Stands link s ρ y (.int w) (.bits w Y)) (h : op.value X Y = some d) :
    Gives link wanted tooWide (Step.binary op x y) s ρ (.int w) d := by
  unfold Step.binary
  rw [hx.ty]
  apply gives_assign
  rw [Llvm.Op.eval, hx.eval_operand hx.ty, hy.eval_operand hx.ty, hx.ty]
  exact (op.eval_bits X Y).trans h

theorem gives_compare {pred : IntPredicate} (hx : Stands link s ρ x (.int w) (.bits w X))
    (hy : Stands link s ρ y (.int w) (.bits w Y)) :
    Gives link wanted tooWide (Step.compare pred x y) s ρ (.int 1)
      (.bits 1 (BitVec.ofBool (pred.value X Y))) := by
  apply gives_assign
  rw [Llvm.Op.eval, hx.eval, hy.eval_operand hx.ty, hx.ty]
  exact pred.eval_bits X Y

theorem gives_cast {op : CastOperator} {u : Llvm.Ty} (hx : Stands link s ρ x t d)
    (h : op.eval t u d = some e) : Gives link wanted tooWide (Step.cast op x u) s ρ u e := by
  apply gives_assign
  rw [Llvm.Op.eval, hx.eval, hx.ty]
  exact h

theorem gives_select {c : Bool} (hz : Stands link s ρ z (.int 1) (.bits 1 (BitVec.ofBool c)))
    (hx : Stands link s ρ x t d) (hy : Stands link s ρ y t e) :
    Gives link wanted tooWide (Step.select z x y) s ρ t (if c then d else e) := by
  unfold Step.select
  rw [hx.ty]
  apply gives_assign
  rw [Llvm.Op.eval, hx.eval, hy.eval, hz.eval]
  exact Data.choose_ofBool d e c

end

-- =========================================================== declarations

/-- Asking for a declaration changes the declarations and the log only. -/
theorem run_declare (d : Declaration) (s : State) : (Step.declare d).run.run s =
    match (s.declarations.declare d).run.run s.log with
    | (.ok ds, log) => (.ok (), { s with declarations := ds, log := log })
    | (.error e, log) => (.error e, { s with log := log }) := rfl

/-- What was asked for is declared, and nothing is lost. -/
theorem Declarations.of_declare {ds ds' : Declarations} {d : Declaration} {log log' : Log}
    (h : (ds.declare d).run.run log = (.ok ds', log')) : ds'.get? d.name = some d
      ∧ ∀ name e, ds.get? name = some e → ds'.get? name = some e := by
  unfold Declarations.declare at h
  split at h
  case h_1 d' hd' =>
    by_cases he : d' = d
    · rw [if_pos he] at h
      cases h
      subst he
      exact ⟨hd', fun _ _ h => h⟩
    · rw [if_neg he] at h
      cases h
  case h_2 hnone =>
    cases h
    exact ⟨Dict.get?_insert_self _ _ _, fun _ _ he => Dict.get?_insert_of_new hnone he⟩

/-- A declaration that may be asked for. -/
theorem lowers_declare {d : Declaration} (hd : wanted d) :
    Lowers link wanted tooWide (Step.declare d) s ρ fun _ _ _ => True := by
  unfold Lowers
  rw [run_declare]
  cases hget : s.declarations.get? d.name with
  | some d' =>
      rw [Declarations.declare, hget]
      dsimp only
      by_cases he : d' = d
      · rw [if_pos he]
        exact ⟨ρ, .refl s ρ, trivial⟩
      · rw [if_neg he]
        exact .inr ⟨d.name, rfl, d, d', hd, rfl, he, .inl hget⟩
  | none =>
      rw [Declarations.declare, hget]
      refine ⟨ρ, ?_, trivial⟩
      refine ⟨⟨[], (List.append_nil _).symm, rfl⟩, rfl, Nat.le_refl _, fun _ _ => rfl, ?_⟩
      intro name e he
      rw [Dict.get?_insert] at he
      split at he
      case isTrue hn =>
        cases he
        exact .inr ⟨hd, hn⟩
      case isFalse => exact .inl he

/-- A call of an operation that the language has as a function. -/
theorem gives_call {b : Builtin} {w : Nat} {xs : List Typed} {ds : List Data} {d : Data}
    (hd : wanted (b.declaration w))
    (hxs : ∀ s' ρ', Follows link wanted s ρ s' ρ' → xs.mapM (Typed.eval link ρ') = some ds)
    (h : b.eval w ds = some d) :
    Gives link wanted tooWide (Step.call (b.declaration w) xs) s ρ (.int w) d := by
  have hret : (b.declaration w).ret = .int w := by cases b <;> rfl
  apply (lowers_declare hd).bind
  intro _ s₁ ρ₁ hf _
  rw [hret]
  apply gives_assign
  rw [Llvm.Op.eval, hxs s₁ ρ₁ hf]
  exact (Llvm.callResult_builtin b w ds).trans h

theorem gives_call_one {b : Builtin} {w : Nat} {x : Typed} {t : Llvm.Ty} {d r : Data}
    (hd : wanted (b.declaration w)) (hx : Stands link s ρ x t d) (h : b.eval w [d] = some r) :
    Gives link wanted tooWide (Step.call (b.declaration w) [x]) s ρ (.int w) r := by
  refine gives_call hd ?_ h
  intro s' ρ' hf
  rw [List.mapM_cons, (hx.mono hf).eval]
  rfl

theorem gives_call_two {b : Builtin} {w : Nat} {x y : Typed} {t u : Llvm.Ty} {d e r : Data}
    (hd : wanted (b.declaration w)) (hx : Stands link s ρ x t d) (hy : Stands link s ρ y u e)
    (h : b.eval w [d, e] = some r) :
    Gives link wanted tooWide (Step.call (b.declaration w) [x, y]) s ρ (.int w) r := by
  refine gives_call hd ?_ h
  intro s' ρ' hf
  rw [List.mapM_cons, List.mapM_cons, (hx.mono hf).eval, (hy.mono hf).eval]
  rfl

-- =============================================================== values

/-- The operand for a value that is known stands for the same. The declaration
of a known function may be asked for. -/
theorem gives_value {v : Value} {d : Data} (h : Known link env s ρ v d)
    (hv : ∀ f, v = .entry f → wanted (.ofFunction f.name f.signature)) :
    Gives link wanted tooWide (value env v) s ρ (.ofTy v.ty) d := by
  cases v with
  | bits l => exact lowers_pure ⟨rfl, h ▸ rfl, nofun⟩
  | bool b => exact lowers_pure ⟨rfl, h ▸ rfl, nofun⟩
  | assigned a =>
      obtain ⟨x, hx, hs⟩ := h
      exact lowers_bound hx hs
  | phi u | returned u =>
      obtain ⟨x, hx, hs⟩ := h
      exact lowers_bound hx hs
  | initial => exact h.elim
  | arg i t =>
      obtain ⟨ht, hd⟩ := h
      have hrun : (value env (.arg i t)).run.run s = (.ok ⟨.ofTy t, .reg (.arg i)⟩, s) := by
        unfold value
        simp only [ht, expectTy, if_true]
        rfl
      exact lowers_of_run hrun ⟨rfl, hd, nofun⟩
  | entry f =>
      apply (lowers_declare (hv f rfl)).bind
      intro _ s₁ ρ₁ _ _
      exact lowers_pure ⟨rfl, h ▸ rfl, nofun⟩

end LiftedCode.Lowering
