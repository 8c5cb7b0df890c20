/-
Verdicts: the errors that say something about the code that is read, as opposed
to faults, which only say that a computation has no answer. A computation
settles if it comes to a result or to a verdict (`Settles`), and with a state, if
it does so from every state that is as it should be (`SettlesFrom`). Settling goes
through sequences and lists, so a program settles if its parts do, each on what
the parts before it have established.
-/
import LiftedCode.Lowering.Error
import LiftedCode.Proofs.Effect
import LiftedCode.Trace.Error

namespace LiftedCode

/-- Errors among which there are faults. -/
class HasFaults (ε : Type) where
  fault : Fault → ε

instance : HasFaults Fault := ⟨id⟩

instance : HasFaults CodeError := ⟨.fault⟩

instance : HasFaults Trace.TraceError := ⟨.code ∘ .fault⟩

instance : HasFaults Lowering.LoweringError := ⟨.code ∘ .fault⟩

section

variable {ε ε' σ α β : Type} [HasFaults ε] [HasFaults ε']

/-- Whether an error is no fault. No fault is a verdict, so arithmetic that
settles has a result. -/
def IsVerdict (e : ε) : Prop := ∀ f, e ≠ HasFaults.fault f

/-- Whether the computation comes to a result that is as `Q` says, or to a verdict. -/
def Settles (x : Except ε α) (Q : α → Prop) : Prop :=
  match x with
  | .ok a => Q a
  | .error e => IsVerdict e

/-- Whether the computation settles from every state with `P`, its result and the
state it ends in being as `Q` says. -/
def SettlesFrom (P : σ → Prop) (m : ExceptT ε (StateM σ) α) (Q : α → σ → Prop) : Prop :=
  ∀ s, P s → Settles (m.run.run s).1 fun a => Q a (m.run.run s).2

/-- What settles does not end in a fault. -/
theorem Settles.ne_fault {x : Except ε α} {Q : α → Prop} (h : Settles x Q) (f : Fault) :
    x ≠ .error (HasFaults.fault f) := by
  rintro rfl
  exact h f rfl

-- ========================================================= without a state

section

variable {x : Except ε α} {f : α → Except ε β} {Q Q' : α → Prop} {R : β → Prop}

/-- A computation that succeeds settles. -/
theorem settles_of_ok {a : α} (h : x = .ok a) (ha : Q a) : Settles x Q := h ▸ ha

/-- Less may be said of the result. -/
theorem Settles.imp (h : Settles x Q) (hQ : ∀ a, Q a → Q' a) : Settles x Q' := by
  cases x with
  | ok a => exact hQ a h
  | error e => exact h

/-- What comes out may be spoken of as what came out. -/
theorem Settles.eq_ok (h : Settles x Q) : Settles x fun a => Q a ∧ x = .ok a := by
  cases x with
  | ok a => exact ⟨h, rfl⟩
  | error e => exact h

/-- One computation after the other. -/
theorem Settles.bind (h : Settles x Q) (hf : ∀ a, Q a → Settles (f a) R) :
    Settles (x >>= f) R := by
  cases x with
  | ok a => exact hf a h
  | error e => exact h

/-- Verdicts that are passed on as verdicts. -/
theorem Settles.mapError {g : ε → ε'} (h : Settles x Q) (hg : ∀ e, IsVerdict e → IsVerdict (g e)) :
    Settles (x.mapError g) Q := by
  cases x with
  | ok a => exact h
  | error e => exact hg e h

/-- A traversal settles if each of its steps does. -/
theorem settles_mapM {f : α → Except ε β} {as : List α} (h : ∀ a ∈ as, Settles (f a) R) :
    Settles (as.mapM f) fun bs => ∀ b ∈ bs, R b := by
  induction as with
  | nil => exact fun b hb => absurd hb List.not_mem_nil
  | cons a as ih =>
      rw [List.mapM_cons]
      refine (h a List.mem_cons_self).bind fun b hb => ?_
      refine (ih fun c hc => h c (List.mem_cons_of_mem a hc)).bind fun bs hbs => ?_
      exact List.forall_mem_cons.2 ⟨hb, hbs⟩

end

/-- Arithmetic settles only with a result. -/
theorem settles_fault {x : Except Fault α} {Q : α → Prop} :
    Settles x Q ↔ ∃ a, x = .ok a ∧ Q a := by
  constructor
  · intro h
    cases x with
    | ok a => exact ⟨a, rfl, h⟩
    | error f => exact absurd rfl (h f)
  · rintro ⟨a, rfl, ha⟩
    exact ha

/-- What fits is in range. -/
theorem settles_inRange {fits : Bool} {x : α} (h : fits = true) :
    Settles (inRange fits x) (· = x) := by
  rw [inRange, if_pos h]
  exact rfl

theorem Width.settles_add {a b : Nat} (h : a + b < limit) : Settles (add a b) (· = a + b) :=
  settles_inRange (decide_eq_true h)

theorem Width.settles_mul {a b : Nat} (h : a * b < limit) : Settles (mul a b) (· = a * b) :=
  settles_inRange (decide_eq_true h)

theorem Width.settles_sub {a b : Nat} (h : b ≤ a) : Settles (sub a b) (· = a - b) :=
  settles_inRange (decide_eq_true h)

theorem Address.settles_add {a b : Nat} (h : a + b < limit) : Settles (add a b) (· = a + b) :=
  settles_inRange (decide_eq_true h)

/-- What is wrong with code is a verdict also where the lowering says so. -/
theorem Lowering.isVerdict_code {e : CodeError} (h : IsVerdict e) :
    IsVerdict (LoweringError.code e) := by
  intro f hf
  exact h f (LoweringError.code.inj hf)

theorem settles_expectTy (site : Site) (t u : Ty) :
    Settles (expectTy site t u) fun _ => t = u := by
  unfold expectTy
  split
  case isTrue h => exact h
  case isFalse => exact nofun

theorem settles_expectBits (site : Site) (t : Ty) :
    Settles (expectBits site t) fun _ => True := by
  unfold expectBits
  split
  · trivial
  · exact nofun

-- ========================================================== with a state

section

variable {P P' : σ → Prop} {m : ExceptT ε (StateM σ) α} {Q Q' : α → σ → Prop}

theorem settles_pure {a : α} (h : ∀ s, P s → Q a s) :
    SettlesFrom P (pure a : ExceptT ε (StateM σ) α) Q := h

theorem settles_throw {e : ε} (h : IsVerdict e) :
    SettlesFrom P (throw e : ExceptT ε (StateM σ) α) Q := fun _ _ => h

/-- A computation without a state stays where it is. -/
theorem settles_ofExcept {x : Except ε α} {R : α → Prop} (h : Settles x R) :
    SettlesFrom P (ExceptT.mk (pure x) : ExceptT ε (StateM σ) α) fun a s => R a ∧ P s := by
  intro s hs
  exact h.imp fun a ha => ⟨ha, hs⟩

theorem settles_set {t : σ} {Q : PUnit → σ → Prop} (h : Q ⟨⟩ t) :
    SettlesFrom P (set t : ExceptT ε (StateM σ) PUnit) Q := fun _ _ => h

theorem settles_modify {g : σ → σ} {Q : PUnit → σ → Prop} (h : ∀ s, P s → Q ⟨⟩ (g s)) :
    SettlesFrom P (modify g : ExceptT ε (StateM σ) PUnit) Q := h

/-- Less may be said of the result and the state. -/
theorem SettlesFrom.imp (h : SettlesFrom P m Q) (hQ : ∀ a s, Q a s → Q' a s) :
    SettlesFrom P m Q' := fun s hs => (h s hs).imp fun a ha => hQ a _ ha

/-- More may be asked of the state at the start. -/
theorem SettlesFrom.of_imp (h : SettlesFrom P m Q) (hP : ∀ s, P' s → P s) : SettlesFrom P' m Q :=
  fun s hs => h s (hP s hs)

/-- One step after the other. -/
theorem SettlesFrom.bind {f : α → ExceptT ε (StateM σ) β} {R : β → σ → Prop}
    (h : SettlesFrom P m Q) (hf : ∀ a, SettlesFrom (Q a) (f a) R) :
    SettlesFrom P (m >>= f) R := by
  intro s hs
  have hm := h s hs
  rw [run_bind]
  generalize m.run.run s = out at hm
  obtain ⟨e | a, s₁⟩ := out
  · exact hm
  · exact hf a s₁ hm

/-- What is known of a result whatever the state is need not be said of the state. -/
theorem SettlesFrom.bindWith {f : α → ExceptT ε (StateM σ) β} {R : α → Prop} {Q : β → σ → Prop}
    (h : SettlesFrom P m fun a s => R a ∧ P' s) (hf : ∀ a, R a → SettlesFrom P' (f a) Q) :
    SettlesFrom P (m >>= f) Q :=
  h.bind fun a s hs => hf a hs.1 s hs.2

/-- The state that is read is as it should be. -/
theorem settles_get_bind {f : σ → ExceptT ε (StateM σ) β} {R : β → σ → Prop}
    (h : ∀ s, P s → SettlesFrom P (f s) R) : SettlesFrom P (get >>= f) R :=
  fun s hs => h s hs s hs

/-- A traversal whose steps each keep what holds of the state. -/
theorem settles_mapM_from {f : α → ExceptT ε (StateM σ) β} {as : List α}
    (h : ∀ a ∈ as, SettlesFrom P (f a) fun _ => P) : SettlesFrom P (as.mapM f) fun _ => P := by
  induction as with
  | nil => exact settles_pure fun _ hs => hs
  | cons a as ih =>
      rw [List.mapM_cons]
      refine (h a List.mem_cons_self).bind fun b => ?_
      refine (ih fun c hc => h c (List.mem_cons_of_mem a hc)).bind fun bs => ?_
      exact settles_pure fun _ hs => hs

end

end

end LiftedCode
