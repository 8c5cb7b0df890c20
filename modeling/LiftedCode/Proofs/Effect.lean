/-
Effects: how the runs of computations that can fail come apart. A computation
that succeeds is a success of its first part followed by one of the rest
(`ok_of_bind`); with a state, the rest goes on from where the first part ended
(`succeeds_bind`).
-/
import LiftedCode.Fault

namespace LiftedCode

section

variable {ε ε' α β : Type}

/-- A success in sequence is a success of either part. -/
theorem ok_of_bind {x : Except ε α} {f : α → Except ε β} {b : β} (h : x >>= f = .ok b) :
    ∃ a, x = .ok a ∧ f a = .ok b := by
  cases x with
  | ok a => exact ⟨a, rfl, h⟩
  | error e => contradiction

/-- A success whose errors were renamed is a success. -/
theorem ok_of_mapError {f : ε → ε'} {x : Except ε α} {a : α} (h : x.mapError f = .ok a) :
    x = .ok a := by
  cases x with
  | ok b => exact congrArg Except.ok (Except.ok.inj h)
  | error e => contradiction

/-- A number that has a range is what was computed, and within it. -/
theorem ok_of_inRange {fits : Bool} {x a : α} (h : inRange fits x = .ok a) :
    fits = true ∧ a = x := by
  unfold inRange at h
  split at h
  case isTrue hfits => exact ⟨hfits, (Except.ok.inj h).symm⟩
  case isFalse => contradiction

/-- A success whose result was mapped is a success. -/
theorem ok_of_map {f : α → β} {x : Except ε α} {b : β} (h : x.map f = .ok b) :
    ∃ a, x = .ok a ∧ f a = b := by
  cases x with
  | ok a => exact ⟨a, rfl, Except.ok.inj h⟩
  | error e => contradiction

/-- A success for every member of a list, one by one. -/
theorem ok_of_mapM {f : α → Except ε β} {as : List α} {bs : List β} (h : as.mapM f = .ok bs) :
    bs.length = as.length
      ∧ ∀ (i : Nat) a, as[i]? = some a → ∃ b, bs[i]? = some b ∧ f a = .ok b := by
  induction as generalizing bs with
  | nil =>
      cases h
      exact ⟨rfl, nofun⟩
  | cons a as ih =>
      rw [List.mapM_cons] at h
      obtain ⟨b, hb, h⟩ := ok_of_bind h
      obtain ⟨bs', hbs, h⟩ := ok_of_bind h
      cases h
      obtain ⟨hlen, hget⟩ := ih hbs
      refine ⟨congrArg Nat.succ hlen, ?_⟩
      intro i c hc
      cases i with
      | zero =>
          cases hc
          exact ⟨b, rfl, hb⟩
      | succ i => exact hget i c hc

/-- A success for every member of a list, where successes are known. -/
theorem eq_map_of_mapM {f : α → Except ε β} {g : α → β} {as : List α} {bs : List β}
    (h : as.mapM f = .ok bs) (hg : ∀ a ∈ as, ∀ b, f a = .ok b → b = g a) : bs = as.map g := by
  induction as generalizing bs with
  | nil => exact (Except.ok.inj h).symm
  | cons a as ih =>
      rw [List.mapM_cons] at h
      obtain ⟨b, hb, h⟩ := ok_of_bind h
      obtain ⟨bs', hbs, h⟩ := ok_of_bind h
      cases h
      rw [List.map_cons, ← hg a List.mem_cons_self b hb,
        ← ih hbs fun c hc => hg c (List.mem_cons_of_mem a hc)]

/-- Successes for all members of a list are a success for the list. -/
theorem mapM_eq_map {f : α → Except ε β} {g : α → β} {as : List α}
    (h : ∀ a ∈ as, f a = .ok (g a)) : as.mapM f = .ok (as.map g) := by
  induction as with
  | nil => rfl
  | cons a as ih =>
      rw [List.mapM_cons, h a List.mem_cons_self,
        ih fun b hb => h b (List.mem_cons_of_mem a hb)]
      rfl

/-- What came out for a list came out for one of its members. -/
theorem exists_of_mem_mapM {f : α → Except ε β} {as : List α} {bs : List β}
    (h : as.mapM f = .ok bs) {b : β} (hb : b ∈ bs) : ∃ a ∈ as, f a = .ok b := by
  obtain ⟨hlen, hget⟩ := ok_of_mapM h
  obtain ⟨i, hi, rfl⟩ := List.mem_iff_getElem.1 hb
  rw [hlen] at hi
  obtain ⟨b, hb, hf⟩ := hget i as[i] (List.getElem?_eq_getElem hi)
  refine ⟨as[i], List.getElem_mem hi, ?_⟩
  rw [hf]
  exact congrArg Except.ok (List.getElem?_eq_some_iff.1 hb).2.symm

/-- A failure in sequence is one of the first part, or of the second after a success. -/
theorem error_of_bind {x : Except ε α} {f : α → Except ε β} {e : ε} (h : x >>= f = .error e) :
    x = .error e ∨ ∃ a, x = .ok a ∧ f a = .error e := by
  cases x with
  | ok a => exact .inr ⟨a, rfl, h⟩
  | error e' => exact .inl (congrArg Except.error (Except.error.inj h))

/-- A failure that was renamed is a failure. -/
theorem error_of_mapError {f : ε → ε'} {x : Except ε α} {e : ε'} (h : x.mapError f = .error e) :
    ∃ e', x = .error e' ∧ f e' = e := by
  cases x with
  | ok a => contradiction
  | error e' => exact ⟨e', rfl, Except.error.inj h⟩

/-- A failure for a list is one for one of its members. -/
theorem error_of_mapM {f : α → Except ε β} {as : List α} {e : ε} (h : as.mapM f = .error e) :
    ∃ a ∈ as, f a = .error e := by
  induction as with
  | nil => contradiction
  | cons a as ih =>
      rw [List.mapM_cons] at h
      rcases error_of_bind h with h | ⟨_, -, h⟩
      · exact ⟨a, List.mem_cons_self, h⟩
      · rcases error_of_bind h with h | ⟨_, -, h⟩
        · obtain ⟨c, hc, h⟩ := ih h
          exact ⟨c, List.mem_cons_of_mem a hc, h⟩
        · contradiction

@[simp] theorem ok_bind (a : α) (f : α → Except ε β) : (Except.ok a >>= f) = f a := rfl

@[simp] theorem error_bind (e : ε) (f : α → Except ε β) : (Except.error e >>= f) = .error e := rfl

@[simp] theorem pure_eq_ok (a : α) : (pure a : Except ε α) = .ok a := rfl

@[simp] theorem throw_eq_error (e : ε) : (throw e : Except ε α) = .error e := rfl

end

-- ================================================= failure and a state

/-- Run from `s`, the computation succeeds with `a` and ends in `s'`. -/
def Succeeds {ε σ α : Type} (x : ExceptT ε (StateM σ) α) (s : σ) (a : α) (s' : σ) : Prop :=
  x.run.run s = (.ok a, s')

section

variable {ε σ α β : Type} {s s' : σ} {a : α}

/-- What is evaluated to a result has one. -/
theorem exists_succeeds_of_map {x : ExceptT ε (StateM σ) α} {f : α → β} {b : β}
    (h : (x.run.run s).1.map f = .ok b) : ∃ a s', Succeeds x s a s' ∧ f a = b := by
  obtain ⟨a, ha, rfl⟩ := ok_of_map h
  exact ⟨a, (x.run.run s).2, Prod.ext ha rfl, rfl⟩

/-- The same, where errors need not be compared. -/
theorem exists_succeeds_of_toOption {x : ExceptT ε (StateM σ) α} {f : α → β} {b : β}
    (h : ((x.run.run s).1.map f).toOption = some b) : ∃ a s', Succeeds x s a s' ∧ f a = b := by
  apply exists_succeeds_of_map
  generalize Except.map f (x.run.run s).1 = y at *
  cases y with
  | ok b' => exact congrArg _ (Option.some.inj h)
  | error e => contradiction

/-- A computation without effects stays where it is. -/
theorem succeeds_pure {b : α} (h : Succeeds (pure a : ExceptT ε (StateM σ) α) s b s') :
    a = b ∧ s = s' := by
  have h := Prod.mk.inj h
  exact ⟨Except.ok.inj h.1, h.2⟩

/-- The second part of a sequence runs where the first ended, unless that
failed. -/
theorem run_bind (x : ExceptT ε (StateM σ) α) (f : α → ExceptT ε (StateM σ) β) (s : σ) :
    (x >>= f).run.run s = match x.run.run s with
      | (.ok a, s₁) => (f a).run.run s₁
      | (.error e, s₁) => (.error e, s₁) := by
  show (ExceptT.bindCont f (x.run.run s).1).run (x.run.run s).2 = _
  rcases x.run.run s with ⟨_ | _, _⟩ <;> rfl

/-- The state that is read is the one that the rest runs in. -/
theorem run_get_bind (f : σ → ExceptT ε (StateM σ) α) (s : σ) :
    (get >>= f).run.run s = (f s).run.run s := rfl

/-- A success in sequence goes through the state between the parts. -/
theorem succeeds_bind {x : ExceptT ε (StateM σ) α} {f : α → ExceptT ε (StateM σ) β} {b : β}
    (h : Succeeds (x >>= f) s b s') : ∃ a s₁, Succeeds x s a s₁ ∧ Succeeds (f a) s₁ b s' := by
  rw [Succeeds, run_bind] at h
  split at h
  case h_1 a s₁ hx => exact ⟨a, s₁, hx, h⟩
  case h_2 => exact nomatch (Prod.mk.inj h).1

/-- A failure in sequence is one of the first part, or of the second from where the
first ended. -/
theorem error_of_run_bind {x : ExceptT ε (StateM σ) α} {f : α → ExceptT ε (StateM σ) β} {e : ε}
    (h : ((x >>= f).run.run s).1 = .error e) :
    (x.run.run s).1 = .error e ∨ ∃ a s₁, ((f a).run.run s₁).1 = .error e := by
  rw [run_bind] at h
  split at h
  case h_1 a s₁ _ => exact .inr ⟨a, s₁, h⟩
  case h_2 e' s₁ hx =>
    refine .inl ?_
    rw [hx]
    exact congrArg Except.error (Except.error.inj h)

/-- Successes in sequence are a success. -/
theorem Succeeds.bind {x : ExceptT ε (StateM σ) α} {f : α → ExceptT ε (StateM σ) β} {s₁ : σ} {b : β}
    (hx : Succeeds x s a s₁) (hf : Succeeds (f a) s₁ b s') : Succeeds (x >>= f) s b s' := by
  rw [Succeeds, run_bind, hx]
  exact hf

/-- A success for every member of a list, one by one, each from some state. -/
theorem succeeds_mapM {f : α → ExceptT ε (StateM σ) β} {as : List α} {bs : List β}
    (h : Succeeds (as.mapM f) s bs s') :
    bs.length = as.length
      ∧ ∀ (i : Nat) a, as[i]? = some a → ∃ b s₁ s₂, bs[i]? = some b ∧ Succeeds (f a) s₁ b s₂ := by
  induction as generalizing s bs with
  | nil =>
      obtain ⟨rfl, rfl⟩ := succeeds_pure h
      exact ⟨rfl, nofun⟩
  | cons a as ih =>
      rw [List.mapM_cons] at h
      obtain ⟨b, s₁, hb, h⟩ := succeeds_bind h
      obtain ⟨bs', s₂, hbs, h⟩ := succeeds_bind h
      obtain ⟨rfl, rfl⟩ := succeeds_pure h
      obtain ⟨hlen, hget⟩ := ih hbs
      refine ⟨congrArg Nat.succ hlen, ?_⟩
      intro i c hc
      cases i with
      | zero =>
          cases hc
          exact ⟨b, s, s₁, rfl, hb⟩
      | succ i => exact hget i c hc

/-- A success for a member of a list goes on from where those for the members before
it have led. -/
theorem succeeds_mapM_take {f : α → ExceptT ε (StateM σ) β} {as : List α} {bs : List β}
    (h : Succeeds (as.mapM f) s bs s') {i : Nat} {a : α} (hi : as[i]? = some a) :
    ∃ b s₁ s₂, bs[i]? = some b ∧ Succeeds ((as.take i).mapM f) s (bs.take i) s₁
      ∧ Succeeds (f a) s₁ b s₂ := by
  induction as generalizing s bs i with
  | nil => exact nomatch hi
  | cons c as ih =>
      rw [List.mapM_cons] at h
      obtain ⟨b, s₁, hb, h⟩ := succeeds_bind h
      obtain ⟨bs', s₂, hbs, h⟩ := succeeds_bind h
      obtain ⟨rfl, rfl⟩ := succeeds_pure h
      cases i with
      | zero =>
          cases hi
          exact ⟨b, s, s₁, rfl, rfl, hb⟩
      | succ i =>
          obtain ⟨d, t₁, t₂, hd, htake, hrun⟩ := ih hbs hi
          refine ⟨d, t₁, t₂, hd, ?_, hrun⟩
          rw [List.take_succ_cons, List.mapM_cons]
          exact hb.bind (htake.bind rfl)

/-- Reading the state does not change it. -/
theorem succeeds_get {r : σ} (h : Succeeds (get : ExceptT ε (StateM σ) σ) s r s') :
    s = r ∧ s = s' := by
  have h := Prod.mk.inj h
  exact ⟨Except.ok.inj h.1, h.2⟩

theorem succeeds_modify {f : σ → σ} {u : Unit}
    (h : Succeeds (modify f : ExceptT ε (StateM σ) Unit) s u s') : s' = f s :=
  (Prod.mk.inj h).2.symm

/-- A state in place of the one before. -/
theorem succeeds_set {t : σ} {u : PUnit}
    (h : Succeeds (set t : ExceptT ε (StateM σ) PUnit) s u s') : s' = t :=
  (Prod.mk.inj h).2.symm

/-- A failure does not succeed. -/
theorem not_succeeds_throw {e : ε} : ¬ Succeeds (throw e : ExceptT ε (StateM σ) α) s a s' := by
  intro h
  exact nomatch (Prod.mk.inj h).1

/-- What succeeds past a guard was not stopped by it. -/
theorem succeeds_guard {p : Prop} [Decidable p] {e : ε} {m : ExceptT ε (StateM σ) α}
    (h : Succeeds (if p then throw e else m) s a s') : ¬p ∧ Succeeds m s a s' := by
  by_cases hp : p
  · rw [if_pos hp] at h
    exact absurd h not_succeeds_throw
  · rw [if_neg hp] at h
    exact ⟨hp, h⟩

/-- A computation without a state stays where it is. -/
theorem succeeds_ofExcept {x : Except ε α}
    (h : Succeeds (ExceptT.mk (pure x) : ExceptT ε (StateM σ) α) s a s') :
    x = .ok a ∧ s = s' := Prod.mk.inj h

end

end LiftedCode
