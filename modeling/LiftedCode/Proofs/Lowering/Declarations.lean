/-
Collections of declarations, put together. A collection keeps every declaration
under its own name (`Keyed`), and so has one for a name. Declarations that are
added end up in a collection of all that was there and all that was added, in
whatever order they come, unless two different ones among these have one name
(`ends_declareAll`). Which clash is met first depends on the order; that there
is one does not.
-/
import LiftedCode.Lowering.Declarations
import LiftedCode.Proofs.Data.Dict

namespace LiftedCode

/-- The values are what lookups find. -/
theorem Dict.mem_values {κ ν : Type} [Ord κ] [Std.LawfulEqOrd κ] {d : Dict κ ν} {v : ν} :
    v ∈ d.values ↔ ∃ k, d.get? k = some v := by
  rw [Dict.values, List.mem_map]
  constructor
  · rintro ⟨⟨k, v⟩, hmem, rfl⟩
    exact ⟨k, (d.get?_eq_some_iff k v).2 hmem⟩
  · rintro ⟨k, hk⟩
    exact ⟨(k, v), (d.get?_eq_some_iff k v).1 hk, rfl⟩

namespace Lowering

open Llvm (Declaration)

-- ============================================================ conflicts

section

variable {α : Type}

/-- Some of the declarations have one name and differ. -/
def Conflict (ds : List Declaration) : Prop := ∃ d ∈ ds, ∃ d' ∈ ds, d.name = d'.name ∧ d ≠ d'

instance (ds : List Declaration) : Decidable (Conflict ds) :=
  inferInstanceAs (Decidable (∃ d ∈ ds, ∃ d' ∈ ds, d.name = d'.name ∧ d ≠ d'))

/-- Run from any log, the step ends well with something that has a property, or
it ends with a conflict, which is there only under a condition. -/
def Ends (x : StateM Log (Except LoweringError Unit × α)) (P : α → Prop) (C : Prop) : Prop :=
  ∀ log, match x.run log with
    | ((.ok (), a), _) => P a
    | ((.error e, _), _) => C ∧ ∃ name, e = .conflictingDeclaration name

theorem Conflict.mono {ds ds' : List Declaration} (h : Conflict ds) (hsub : ds ⊆ ds') :
    Conflict ds' := by
  obtain ⟨d, hd, d', hd', hne⟩ := h
  exact ⟨d, hsub hd, d', hsub hd', hne⟩

theorem Ends.imp {x : StateM Log (Except LoweringError Unit × α)} {P Q : α → Prop} {C D : Prop}
    (h : Ends x P C) (hP : ∀ a, P a → Q a) (hC : C → D) : Ends x Q D := by
  intro log
  have h := h log
  split
  case h_1 hx =>
    rw [hx] at h
    exact hP _ h
  case h_2 hx =>
    rw [hx] at h
    exact ⟨hC h.1, h.2⟩

/-- A step that does not meet a conflict ends well. -/
theorem Ends.exists_ok {x : StateM Log (Except LoweringError Unit × α)} {P : α → Prop} {C : Prop}
    (h : Ends x P C) (hC : ¬ C) (log : Log) :
    ∃ a log', x.run log = ((.ok (), a), log') ∧ P a := by
  have h := h log
  split at h
  case h_1 a log' hx => exact ⟨a, log', hx, h⟩
  case h_2 => exact absurd h.1 hC

end

-- ========================================================== collections

namespace Declarations

/-- Every declaration is under its own name. -/
def Keyed (ds : Declarations) : Prop := ∀ name d, ds.get? name = some d → d.name = name

variable {ds : Declarations}

theorem keyed_empty : Keyed ∅ := fun _ _ h => nomatch h

/-- What is kept under its own name is found under it. -/
theorem Keyed.mem_values (h : ds.Keyed) {d : Declaration} :
    d ∈ ds.values ↔ ds.get? d.name = some d := by
  rw [Dict.mem_values]
  constructor
  · rintro ⟨name, hd⟩
    rwa [h name d hd]
  · exact fun hd => ⟨d.name, hd⟩

/-- There is one declaration for a name. -/
theorem Keyed.not_conflict (h : ds.Keyed) : ¬ Conflict ds.values := by
  rintro ⟨d, hd, d', hd', hname, hne⟩
  rw [h.mem_values] at hd hd'
  rw [hname] at hd
  exact hne (Option.some.inj (hd.symm.trans hd'))

theorem Keyed.insert (h : ds.Keyed) (d : Declaration) : Keyed (Dict.insert ds d.name d) := by
  intro name e he
  rw [Dict.get?_insert] at he
  split at he
  case isTrue hname =>
    cases he
    exact hname
  case isFalse => exact h name e he

/-- What is asked for comes under its own name. -/
theorem Keyed.of_declare (h : ds.Keyed) {d : Declaration} {ds' : Declarations} {log log' : Log}
    (hrun : (ds.declare d).run.run log = (.ok ds', log')) : ds'.Keyed := by
  unfold declare at hrun
  split at hrun
  case h_1 d' _ =>
    by_cases heq : d' = d
    · rw [if_pos heq] at hrun
      cases hrun
      exact h
    · rw [if_neg heq] at hrun
      cases hrun
  case h_2 =>
    cases hrun
    exact h.insert d

/-- A declaration for a new name joins those that are there. -/
theorem Keyed.mem_values_insert (h : ds.Keyed) {d e : Declaration} (hd : ds.get? d.name = none) :
    e ∈ (Dict.insert ds d.name d).values ↔ e = d ∨ e ∈ ds.values := by
  rw [(h.insert d).mem_values, h.mem_values, Dict.get?_insert]
  by_cases hname : d.name = e.name
  · rw [if_pos hname, ← hname, hd]
    exact ⟨fun he => .inl (Option.some.inj he).symm, fun he => he.elim (congrArg some ·.symm) nofun⟩
  · rw [if_neg hname]
    exact ⟨.inr, fun he => he.resolve_left fun he => hname (congrArg _ he.symm)⟩

/-- The declarations are in the order of their names. -/
theorem Keyed.pairwise_values (h : ds.Keyed) :
    ds.values.Pairwise fun a b => compare a.name b.name = .lt := by
  have hentries : ∀ e ∈ ds.entries, e.2.name = e.1 := fun e he =>
    h e.1 e.2 ((Dict.get?_eq_some_iff ds e.1 e.2).2 he)
  refine List.pairwise_map.2 (ds.sorted.imp_of_mem fun ha hb hlt => ?_)
  rw [hentries _ ha, hentries _ hb]
  exact hlt

-- ============================================================== adding

/-- A declaration is there already, or it clashes, or it is added. -/
theorem run_declareAll_cons (d : Declaration) (rest : List Declaration) (log : Log) :
    (ds.declareAll (d :: rest)).run log = match ds.get? d.name with
      | some d' => if d' = d then (ds.declareAll rest).run log
          else ((.error (.conflictingDeclaration d.name), ds), log)
      | none => (declareAll (Dict.insert ds d.name d) rest).run (log.push (.declaring d.name)) := by
  rw [declareAll, declare]
  cases ds.get? d.name with
  | none => rfl
  | some d' =>
      dsimp only
      split <;> rfl

/-- Added declarations end up together with those that were there. -/
theorem ends_declareAll (h : ds.Keyed) (l : List Declaration) :
    Ends (ds.declareAll l) (fun ds' => ds'.Keyed ∧ ∀ d, d ∈ ds'.values ↔ d ∈ ds.values ++ l)
      (Conflict (ds.values ++ l)) := by
  induction l generalizing ds with
  | nil => exact fun log => ⟨h, fun d => by rw [List.append_nil]⟩
  | cons d l ih =>
      intro log
      rw [run_declareAll_cons]
      cases hget : ds.get? d.name with
      | none =>
          -- what is added next is added to a collection that has the declaration
          have hmem : ∀ e, e ∈ (Dict.insert ds d.name d).values ++ l ↔ e ∈ ds.values ++ d :: l := by
            intro e
            rw [List.mem_append, h.mem_values_insert hget, List.mem_append, List.mem_cons, or_assoc,
              or_left_comm]
          exact (ih (h.insert d)).imp
            (fun ds' h' => ⟨h'.1, fun e => (h'.2 e).trans (hmem e)⟩)
            (fun hc => hc.mono fun e he => (hmem e).1 he) _
      | some d' =>
          have hd' : d' ∈ ds.values := Dict.mem_values.2 ⟨_, hget⟩
          have hname : d'.name = d.name := h _ _ hget
          dsimp only
          by_cases heq : d' = d
          · subst heq
            have hmem : ∀ e, e ∈ ds.values ++ l ↔ e ∈ ds.values ++ d' :: l := by
              intro e
              rw [List.mem_append, List.mem_append, List.mem_cons, or_left_comm]
              exact ⟨.inr, fun he => he.elim (fun he => .inl (he ▸ hd')) id⟩
            rw [if_pos rfl]
            exact (ih h).imp
              (fun ds' h' => ⟨h'.1, fun e => (h'.2 e).trans (hmem e)⟩)
              (fun hc => hc.mono fun e he => (hmem e).1 he) _
          · rw [if_neg heq]
            refine ⟨⟨d', List.mem_append_left _ hd', d, ?_, hname, heq⟩, d.name, rfl⟩
            exact List.mem_append_right _ List.mem_cons_self

end Declarations

end Lowering

end LiftedCode
