/-
Agreement: how the runs of two computations that can fail compare. Run from
related states, computations that agree both succeed, with related results and
in related states, or both fail with the same error (`Agree`). Agreement goes
through sequences (`Agree.bind`) and through lists (`agree_forM`,
`agree_mapM`), so that two programs of one shape agree if their parts do.

A single computation respects a relation if it cannot tell related states apart and
keeps them related, also where it fails (`Respects`).
-/
import LiftedCode.Proofs.Effect
import Mathlib.Data.List.Forall2

namespace LiftedCode

variable {ε σ τ α β γ δ : Type} {P Q T : σ → τ → Prop} {R : α → β → Prop} {S : γ → δ → Prop}

/-- From states that are related by `P`, both computations succeed with results
that are related by `R` and in states that are related by `Q`, or both fail with
the same error. -/
def Agree (P : σ → τ → Prop) (R : α → β → Prop) (Q : σ → τ → Prop)
    (x : ExceptT ε (StateM σ) α) (y : ExceptT ε (StateM τ) β) : Prop :=
  ∀ s t, P s t →
    (∃ a b s' t', Succeeds x s a s' ∧ Succeeds y t b t' ∧ R a b ∧ Q s' t')
      ∨ ∃ e s' t', x.run.run s = (.error e, s') ∧ y.run.run t = (.error e, t')

/-- Agreement by what the runs return. -/
theorem Agree.run {x : ExceptT ε (StateM σ) α} {y : ExceptT ε (StateM τ) β} (h : Agree P R Q x y)
    {s : σ} {t : τ} (hst : P s t) :
    (∃ a b s' t', x.run s = (.ok a, s') ∧ y.run t = (.ok b, t') ∧ R a b ∧ Q s' t')
      ∨ ∃ e s' t', x.run s = (.error e, s') ∧ y.run t = (.error e, t') := h s t hst

-- ============================================================ single steps

theorem agree_pure {a : α} {b : β} (h : R a b) :
    Agree P R P (pure a : ExceptT ε (StateM σ) α) (pure b : ExceptT ε (StateM τ) β) :=
  fun s t hst => .inl ⟨a, b, s, t, rfl, rfl, h, hst⟩

theorem agree_throw (e : ε) :
    Agree P R Q (throw e : ExceptT ε (StateM σ) α) (throw e : ExceptT ε (StateM τ) β) :=
  fun s t _ => .inr ⟨e, s, t, rfl, rfl⟩

/-- A guard stops both or neither. -/
theorem agree_guard {p : Prop} [Decidable p] (e : ε) {x : ExceptT ε (StateM σ) α}
    {y : ExceptT ε (StateM τ) β} (h : ¬p → Agree P R Q x y) :
    Agree P R Q (if p then throw e else x) (if p then throw e else y) := by
  by_cases hp : p
  · rw [if_pos hp, if_pos hp]
    exact agree_throw e
  · rw [if_neg hp, if_neg hp]
    exact h hp

/-- A computation without a state agrees with itself, on what is known of its
result. -/
theorem agree_ofExcept_of {R : α → α → Prop} {x : Except ε α} (h : ∀ a, x = .ok a → R a a) :
    Agree P R P (ExceptT.mk (pure x) : ExceptT ε (StateM σ) α)
      (ExceptT.mk (pure x) : ExceptT ε (StateM τ) α) := by
  intro s t hst
  cases x with
  | ok a => exact .inl ⟨a, a, s, t, rfl, rfl, h a rfl, hst⟩
  | error e => exact .inr ⟨e, s, t, rfl, rfl⟩

theorem agree_ofExcept (x : Except ε α) :
    Agree P Eq P (ExceptT.mk (pure x) : ExceptT ε (StateM σ) α)
      (ExceptT.mk (pure x) : ExceptT ε (StateM τ) α) :=
  agree_ofExcept_of fun _ _ => rfl

/-- The states that are read are related. -/
theorem agree_get :
    Agree P P P (get : ExceptT ε (StateM σ) σ) (get : ExceptT ε (StateM τ) τ) :=
  fun s t hst => .inl ⟨s, t, s, t, rfl, rfl, hst, hst⟩

theorem agree_set {s' : σ} {t' : τ} (h : Q s' t') :
    Agree P Eq Q (set s' : ExceptT ε (StateM σ) PUnit) (set t' : ExceptT ε (StateM τ) PUnit) :=
  fun _ _ _ => .inl ⟨⟨⟩, ⟨⟩, s', t', rfl, rfl, rfl, h⟩

theorem agree_modify {f : σ → σ} {g : τ → τ} (h : ∀ s t, P s t → Q (f s) (g t)) :
    Agree P Eq Q (modify f : ExceptT ε (StateM σ) PUnit)
      (modify g : ExceptT ε (StateM τ) PUnit) :=
  fun s t hst => .inl ⟨⟨⟩, ⟨⟩, f s, g t, rfl, rfl, rfl, h s t hst⟩

-- =============================================================== sequences

/-- Sequences agree if their first parts do, and the second ones on related
results. -/
theorem Agree.bindRel {x : ExceptT ε (StateM σ) α} {y : ExceptT ε (StateM τ) β}
    {f : α → ExceptT ε (StateM σ) γ} {g : β → ExceptT ε (StateM τ) δ} (h : Agree P R Q x y)
    (hf : ∀ a b, R a b → Agree Q S T (f a) (g b)) : Agree P S T (x >>= f) (y >>= g) := by
  intro s t hst
  rcases h s t hst with ⟨a, b, s₁, t₁, hx, hy, hab, hst₁⟩ | ⟨e, s', t', hx, hy⟩
  · rcases hf a b hab s₁ t₁ hst₁ with ⟨c, d, s', t', hfa, hgb, hcd, hst'⟩ | ⟨e, s', t', hfa, hgb⟩
    · exact .inl ⟨c, d, s', t', hx.bind hfa, hy.bind hgb, hcd, hst'⟩
    · refine .inr ⟨e, s', t', ?_, ?_⟩
      · rw [run_bind, hx]
        exact hfa
      · rw [run_bind, hy]
        exact hgb
  · refine .inr ⟨e, s', t', ?_, ?_⟩
    · rw [run_bind, hx]
    · rw [run_bind, hy]

/-- Sequences agree if their first parts do with one result, and the second ones
on that. -/
theorem Agree.bind {x : ExceptT ε (StateM σ) α} {y : ExceptT ε (StateM τ) α}
    {f : α → ExceptT ε (StateM σ) γ} {g : α → ExceptT ε (StateM τ) δ} (h : Agree P Eq Q x y)
    (hf : ∀ a, Agree Q S T (f a) (g a)) : Agree P S T (x >>= f) (y >>= g) :=
  h.bindRel fun a _ hab => hab ▸ hf a

/-- Walks through a list agree if their steps do. -/
theorem agree_forM {f : α → ExceptT ε (StateM σ) PUnit} {g : α → ExceptT ε (StateM τ) PUnit}
    {as : List α} (h : ∀ a ∈ as, Agree P Eq P (f a) (g a)) :
    Agree P Eq P (as.forM f) (as.forM g) := by
  induction as with
  | nil => exact agree_pure rfl
  | cons a as ih =>
      exact (h a List.mem_cons_self).bind fun _ =>
        ih fun b hb => h b (List.mem_cons_of_mem a hb)

/-- The results for a list are related one by one if those of its members are. -/
theorem agree_mapM {f : γ → ExceptT ε (StateM σ) α} {g : γ → ExceptT ε (StateM τ) β}
    {cs : List γ} (h : ∀ c ∈ cs, Agree P R P (f c) (g c)) :
    Agree P (List.Forall₂ R) P (cs.mapM f) (cs.mapM g) := by
  induction cs with
  | nil => exact agree_pure .nil
  | cons c cs ih =>
      rw [List.mapM_cons, List.mapM_cons]
      refine (h c List.mem_cons_self).bindRel fun a b hab => ?_
      refine (ih fun d hd => h d (List.mem_cons_of_mem c hd)).bindRel fun as bs hs => ?_
      exact agree_pure (.cons hab hs)

-- ======================================================== one computation

/-- From related states the computation comes to the same result or error, and to
related states. -/
def Respects {ρ : Type} (P : ρ → ρ → Prop) (x : ExceptT ε (StateM ρ) α) : Prop :=
  ∀ s t, P s t → (x.run.run s).1 = (x.run.run t).1 ∧ P (x.run.run s).2 (x.run.run t).2

section

variable {ρ : Type} {P : ρ → ρ → Prop}

theorem respects_pure (a : α) : Respects P (pure a : ExceptT ε (StateM ρ) α) :=
  fun _ _ hst => ⟨rfl, hst⟩

theorem respects_throw (e : ε) : Respects P (throw e : ExceptT ε (StateM ρ) α) :=
  fun _ _ hst => ⟨rfl, hst⟩

theorem respects_ofExcept (x : Except ε α) :
    Respects P (ExceptT.mk (pure x) : ExceptT ε (StateM ρ) α) := fun _ _ hst => ⟨rfl, hst⟩

theorem respects_modify {f : ρ → ρ} (h : ∀ s t, P s t → P (f s) (f t)) :
    Respects P (modify f : ExceptT ε (StateM ρ) PUnit) := fun s t hst => ⟨rfl, h s t hst⟩

theorem Respects.bind {x : ExceptT ε (StateM ρ) α} {f : α → ExceptT ε (StateM ρ) β}
    (hx : Respects P x) (hf : ∀ a, Respects P (f a)) : Respects P (x >>= f) := by
  intro s t hst
  obtain ⟨hresult, hstates⟩ := hx s t hst
  rw [run_bind, run_bind]
  generalize x.run.run s = out, x.run.run t = out' at hresult hstates
  obtain ⟨r, s₁⟩ := out
  obtain ⟨r', t₁⟩ := out'
  obtain rfl : r = r' := hresult
  cases r with
  | error e => exact ⟨rfl, hstates⟩
  | ok a => exact hf a s₁ t₁ hstates

/-- What is done with the state does not depend on what relates others to it. -/
theorem respects_get_bind {f : ρ → ExceptT ε (StateM ρ) α} (h : ∀ s t, P s t → f s = f t)
    (hf : ∀ s, Respects P (f s)) : Respects P (get >>= f) := by
  intro s t hst
  rw [run_get_bind, run_get_bind, h s t hst]
  exact hf t s t hst

end

end LiftedCode
