/-
What a refused addition leaves behind in an assembly. The definitions are as
they were, and so is everything if there was nothing to add, as the routine that
was to be added cannot be lowered. Otherwise the declarations that come with the
addition have been taken in one by one, in the order of their names, and those
in front of the first that clashes stay (`Leaves`). None of the assembly's own
is lost or changed. So what is made of the assembly later is the same as if
nothing had been added, but for declarations of functions that it does not
define (`leaves_of_refused`), and there can be some of these
(`finish_ne_of_refused`).

# The argument

All three ways to add something come down to one, once what is added is there
as an assembly of its own (`run_take`). Declarations are under their own names
in every assembly and in all that is added, so they come in the order of their
names, and the first that clashes splits them by their names.
-/
import LiftedCode.Proofs.Lowering.Assembly

namespace LiftedCode.Lowering

open Llvm (Declaration)

-- ============================================================= additions

/-- What can be added to an assembly: a routine that is yet to be lowered, one
that has been, and another assembly. -/
inductive Addition where
  | routine (target : Target) (r : Routine)
  | lowered (l : LoweredRoutine)
  | assembly (other : Assembly)

/-- What is added, as an assembly of its own. -/
def Addition.prepare : Addition → Logged LoweringError Assembly
  | .routine target r => do
    let l ← Lowering.routine target r
    return ⟨[l.definition], l.declarations⟩
  | .lowered l => return ⟨[l.definition], l.declarations⟩
  | .assembly other => return other

namespace Assembly

/-- Take in what is added. -/
def take (m : Assembly) : Addition → AssemblyStep
  | .routine target r => m.add target r
  | .lowered l => m.addLowered l
  | .assembly other => m.merge other

/-- An assembly that came about by additions, any of which may have been
refused. -/
inductive Reachable : Assembly → Prop where
  | empty : Reachable .empty
  | routine {m : Assembly} (h : Reachable m) (target : Target) (r : Routine) (log : Log) :
      Reachable ((m.take (.routine target r)).run log).1.2
  | lowered {m : Assembly} {l : LoweredRoutine} (h : Reachable m) (hl : l.declarations.Keyed)
      (log : Log) : Reachable ((m.take (.lowered l)).run log).1.2
  | assembly {m other : Assembly} (h : Reachable m) (h' : Reachable other) (log : Log) :
      Reachable ((m.take (.assembly other)).run log).1.2

end Assembly

/-- What is added can come about. -/
def Addition.Possible : Addition → Prop
  | .routine _ _ => True
  | .lowered l => l.declarations.Keyed
  | .assembly other => other.Reachable

variable {m m' other : Assembly} {a : Addition} {log log' : Log} {e : LoweringError}

/-- What comes about by an addition to an assembly that came about. -/
theorem Assembly.Reachable.take (h : m.Reachable) (ha : a.Possible) (log : Log) :
    ((m.take a).run log).1.2.Reachable := by
  cases a with
  | routine target r => exact .routine h target r log
  | lowered l => exact .lowered h ha log
  | assembly other => exact .assembly h ha log

/-- An addition is prepared and merged. -/
theorem run_take : (m.take a).run log = match a.prepare.run.run log with
    | (.ok other, log') => (m.merge other).run log'
    | (.error e, log') => ((.error e, m), log') := by
  cases a with
  | lowered l => rfl
  | assembly other => rfl
  | routine target r =>
      rw [Assembly.take, Assembly.add, StateT.run_bind, Addition.prepare, run_bind]
      rcases (Lowering.routine target r).run.run log with ⟨_ | l, log'⟩ <;> rfl

-- ============================================================== refusals

namespace Declarations

variable {ds ds' : Declarations}

/-- What has been taken in when a declaration clashes. -/
theorem of_declareAll_error (h : ds.Keyed) {l : List Declaration}
    (hrun : (ds.declareAll l).run log = ((.error e, ds'), log')) :
    ∃ taken d rest, l = taken ++ d :: rest ∧ e = .conflictingDeclaration d.name ∧ ds'.Keyed
      ∧ (∀ x, x ∈ ds'.values ↔ x ∈ ds.values ∨ x ∈ taken)
      ∧ ∃ d' ∈ ds'.values, d'.name = d.name ∧ d' ≠ d := by
  induction l generalizing ds log with
  | nil => cases hrun
  | cons d l ih =>
      rw [run_declareAll_cons] at hrun
      cases hget : ds.get? d.name with
      | none =>
          rw [hget] at hrun
          obtain ⟨taken, c, rest, rfl, he, hkeyed, hmem, hclash⟩ := ih (h.insert d) hrun
          refine ⟨d :: taken, c, rest, rfl, he, hkeyed, fun x => ?_, hclash⟩
          rw [hmem, h.mem_values_insert hget, List.mem_cons, or_assoc, or_left_comm]
      | some d' =>
          have hd' : d' ∈ ds.values := Dict.mem_values.2 ⟨_, hget⟩
          rw [hget] at hrun
          dsimp only at hrun
          by_cases heq : d' = d
          · subst heq
            rw [if_pos rfl] at hrun
            obtain ⟨taken, c, rest, rfl, he, hkeyed, hmem, hclash⟩ := ih h hrun
            refine ⟨d' :: taken, c, rest, rfl, he, hkeyed, fun x => ?_, hclash⟩
            rw [hmem, List.mem_cons, or_left_comm]
            exact ⟨.inr, fun hx => hx.elim (fun hx => .inl (hx ▸ hd')) id⟩
          · rw [if_neg heq] at hrun
            cases hrun
            refine ⟨[], d, l, rfl, rfl, h, fun x => ?_, d', hd', h _ _ hget, heq⟩
            simp

/-- Declarations that come in the order of their names are taken in up to a
name. -/
theorem of_merge_error (h : ds.Keyed) {incoming : Declarations} (hin : incoming.Keyed)
    (hrun : (ds.merge incoming).run log = ((.error e, ds'), log')) :
    ∃ d ∈ ds.values, ∃ d' ∈ incoming.values, d.name = d'.name ∧ d ≠ d'
      ∧ e = .conflictingDeclaration d'.name ∧ ds'.Keyed
      ∧ ∀ x, x ∈ ds'.values
          ↔ x ∈ ds.values ∨ x ∈ incoming.values ∧ compare x.name d'.name = .lt := by
  obtain ⟨taken, d', rest, hsplit, he, hkeyed, hmem, d, hd, hname, hne⟩ :=
    of_declareAll_error h hrun
  have hsorted := hin.pairwise_values
  rw [hsplit, List.pairwise_append, List.pairwise_cons] at hsorted
  obtain ⟨-, ⟨hafter, -⟩, hbefore⟩ := hsorted
  have hself : compare d'.name d'.name = .eq := Std.ReflCmp.compare_self
  -- what is taken in is what comes before the declaration that clashes
  have htaken : ∀ x, x ∈ taken ↔ x ∈ incoming.values ∧ compare x.name d'.name = .lt := by
    intro x
    rw [hsplit, List.mem_append, List.mem_cons]
    refine ⟨fun hx => ⟨.inl hx, hbefore x hx d' List.mem_cons_self⟩, ?_⟩
    rintro ⟨hx | rfl | hx, hlt⟩
    · exact hx
    · rw [hself] at hlt
      contradiction
    · rw [Std.OrientedCmp.gt_of_lt (hafter x hx)] at hlt
      contradiction
  refine ⟨d, ?_, d', ?_, hname, hne, he, hkeyed, fun x => ?_⟩
  · refine ((hmem d).1 hd).resolve_right fun hd => ?_
    have hlt := ((htaken d).1 hd).2
    rw [hname, hself] at hlt
    contradiction
  · rw [hsplit]
    exact List.mem_append_right _ List.mem_cons_self
  · rw [hmem, htaken]

end Declarations

/-- Declarations are under their own names, however an assembly came about. -/
theorem Assembly.keyed_merge (h : m.declarations.Keyed) :
    ((m.merge other).run log).1.2.declarations.Keyed := by
  rw [Assembly.merge, run_takeIn]
  rcases hrun : (m.declarations.declareAll other.declarations.values).run log
    with ⟨⟨_ | ⟨⟩, merged⟩, log'⟩
  · obtain ⟨-, -, -, -, -, hkeyed, -⟩ := Declarations.of_declareAll_error h hrun
    exact hkeyed
  · have hends := Declarations.ends_declareAll h other.declarations.values log
    rw [hrun] at hends
    exact hends.1

theorem Assembly.keyed_take (h : m.declarations.Keyed) :
    ((m.take a).run log).1.2.declarations.Keyed := by
  rw [run_take]
  split
  case h_1 => exact keyed_merge h
  case h_2 => exact h

theorem Assembly.Reachable.keyed (h : m.Reachable) : m.declarations.Keyed := by
  induction h with
  | empty => exact Declarations.keyed_empty
  | routine _ _ _ _ ih => exact keyed_take ih
  | lowered _ _ _ ih => exact keyed_take ih
  | assembly _ _ _ ih _ => exact keyed_take ih

/-- What is prepared has its declarations under their own names. -/
theorem Addition.Possible.keyed (h : a.Possible)
    (hrun : a.prepare.run.run log = (.ok other, log')) : other.declarations.Keyed := by
  cases a with
  | lowered l =>
      cases hrun
      exact h
  | assembly m =>
      cases hrun
      exact h.keyed
  | routine target r =>
      obtain ⟨l, _, hl, hrest⟩ := succeeds_bind hrun
      obtain ⟨rfl, -⟩ := succeeds_pure hrest
      exact keyed_of_succeeds hl

/-- Of what was to be added to `m`, the declarations in front of the name are left
in `m'`. For that name there are different ones, and for those in front of it
there are not. -/
structure Leaves (m other m' : Assembly) (name : String) : Prop where
  clash : ∃ d ∈ m.declarations.values, ∃ d' ∈ other.declarations.values,
    d.name = name ∧ d'.name = name ∧ d ≠ d'
  first : ∀ d ∈ m.declarations.values, ∀ d' ∈ other.declarations.values, d.name = d'.name →
    compare d'.name name = .lt → d = d'
  definitions : m'.definitions = m.definitions
  declarations : ∀ d, d ∈ m'.declarations.values
    ↔ d ∈ m.declarations.values ∨ d ∈ other.declarations.values ∧ compare d.name name = .lt
  finished : ∀ d, d ∈ m'.finish.declarations
    ↔ d ∈ m.finish.declarations ∨ d ∈ other.declarations.values ∧ compare d.name name = .lt
        ∧ ∀ f ∈ m.definitions, f.name ≠ d.name
  /-- The finished module is the same if there is nothing new to declare. -/
  same : m'.finish = m.finish ↔ ∀ d ∈ other.declarations.values, compare d.name name = .lt →
    (∀ f ∈ m.definitions, f.name ≠ d.name) → d ∈ m.declarations.values

namespace Assembly

theorem finish_definitions (h : m'.definitions = m.definitions) :
    m'.finish.definitions = m.finish.definitions := by
  unfold finish
  rw [h]

/-- A finished module declares what it does not define. -/
theorem mem_finish_declarations {d : Declaration} : d ∈ m.finish.declarations
    ↔ d ∈ m.declarations.values ∧ ∀ f ∈ m.definitions, f.name ≠ d.name := by
  have hfinish : d ∈ m.finish.declarations ↔ d ∈ m.declarations.values
      ∧ m.finish.definitions.all (·.name != d.name) = true := List.mem_filter
  have hperm : m.finish.definitions.Perm m.definitions := List.mergeSort_perm _ _
  rw [hfinish, List.all_eq_true]
  simp only [bne_iff_ne, hperm.mem_iff]

/-- Modules with the same definitions and with declarations in the order of their
names differ in what they declare. -/
theorem finish_eq_iff (h : m.declarations.Keyed) (h' : m'.declarations.Keyed)
    (hdefs : m'.definitions = m.definitions) :
    m'.finish = m.finish ↔ ∀ d, d ∈ m'.finish.declarations ↔ d ∈ m.finish.declarations := by
  constructor
  · intro heq d
    rw [heq]
  · intro hmem
    have hdecls : m'.finish.declarations = m.finish.declarations :=
      eq_of_ordered (h'.pairwise_values.filter _) (h.pairwise_values.filter _) hmem
    have hdefs := finish_definitions hdefs
    cases hm : m.finish
    cases hm' : m'.finish
    rw [hm, hm'] at hdecls hdefs
    cases hdecls
    cases hdefs
    rfl

end Assembly

theorem leaves_of_merge (h : m.declarations.Keyed) (h' : other.declarations.Keyed)
    (hrun : (m.merge other).run log = ((.error e, m'), log')) :
    ∃ name, e = .conflictingDeclaration name ∧ Leaves m other m' name := by
  rw [Assembly.merge, run_takeIn] at hrun
  split at hrun
  case h_1 => cases hrun
  case h_2 merged _ hmerge =>
    cases hrun
    obtain ⟨d, hd, d', hd', hname, hne, he, hkeyed, hmem⟩ :=
      Declarations.of_merge_error h h' hmerge
    have hfinished : ∀ x, x ∈ (Assembly.mk m.definitions merged).finish.declarations
        ↔ x ∈ m.finish.declarations ∨ x ∈ other.declarations.values
            ∧ compare x.name d'.name = .lt ∧ ∀ f ∈ m.definitions, f.name ≠ x.name := by
      intro x
      rw [Assembly.mem_finish_declarations, Assembly.mem_finish_declarations, hmem,
        or_and_right, and_assoc]
    refine ⟨d'.name, he, ⟨d, hd, d', hd', hname, rfl, hne⟩, ?_, rfl, hmem, hfinished, ?_⟩
    · intro x hx x' hx' hxname hlt
      refine Decidable.byContradiction fun hxne => hkeyed.not_conflict ?_
      exact ⟨x, (hmem x).2 (.inl hx), x', (hmem x').2 (.inr ⟨hx', hlt⟩), hxname, hxne⟩
    · have hfinish : (Assembly.mk m.definitions merged).finish = m.finish ↔ _ :=
        Assembly.finish_eq_iff h hkeyed rfl
      rw [hfinish]
      constructor
      · intro hsame x hx hlt hundef
        have hnew := (hsame x).1 ((hfinished x).2 (.inr ⟨hx, hlt, hundef⟩))
        exact (Assembly.mem_finish_declarations.1 hnew).1
      · intro hnone x
        rw [hfinished]
        refine ⟨fun hx => hx.elim id ?_, .inl⟩
        rintro ⟨hx, hlt, hundef⟩
        exact Assembly.mem_finish_declarations.2 ⟨hnone x hx hlt hundef, hundef⟩

/-- A refused addition leaves the assembly as it was if there is nothing to add.
Otherwise two declarations clash, and what is left is the assembly as it was with
those declarations of the addition that come in front of them. The definitions
are the same in either case, and so are those of the finished module. -/
theorem leaves_of_refused (h : m.Reachable) (ha : a.Possible)
    (hrun : (m.take a).run log = ((.error e, m'), log')) :
    m'.definitions = m.definitions ∧ m'.finish.definitions = m.finish.definitions
      ∧ (m' = m ∧ a.prepare.run.run log = (.error e, log')
        ∨ ∃ other log₁ name, a.prepare.run.run log = (.ok other, log₁)
          ∧ e = .conflictingDeclaration name ∧ Leaves m other m' name) := by
  rw [run_take] at hrun
  split at hrun
  case h_1 other log₁ hprepare =>
    obtain ⟨name, he, hleaves⟩ := leaves_of_merge h.keyed (ha.keyed hprepare) hrun
    exact ⟨hleaves.definitions, Assembly.finish_definitions hleaves.definitions,
      .inr ⟨other, log₁, name, hprepare, he, hleaves⟩⟩
  case h_2 e' log₁ hprepare =>
    cases hrun
    exact ⟨rfl, rfl, .inl ⟨rfl, hprepare⟩⟩

theorem keyed_stub (name : String) (ds : List Declaration) : (stub name ds).declarations.Keyed := by
  intro n d hd
  rcases Dict.of_get?_insertAll hd with hmem | hempty
  · obtain ⟨d', -, hd'⟩ := List.mem_map.1 hmem
    obtain ⟨hname, rfl⟩ := Prod.mk.inj hd'
    exact hname
  · exact nomatch hempty

/-- A routine that declares something new, and then a function otherwise than it
has been declared. -/
def intrudesOnF : LoweredRoutine := stub "h" [⟨"e", .void, [], []⟩, ⟨"f", .ptr, [], []⟩]

/-- The assembly of a routine that declares the function. -/
def declaresF : Assembly := ((Assembly.empty.take (.lowered usesF)).run #[]).1.2

theorem reachable_declaresF : declaresF.Reachable := .lowered .empty (keyed_stub _ _) #[]

theorem run_intrudesOnF : ∃ m' log', (declaresF.take (.lowered intrudesOnF)).run #[]
    = ((.error (.conflictingDeclaration "f"), m'), log') := ⟨_, _, rfl⟩

/-- What is left of a refused routine. -/
theorem leaves_of_refused_stub : ∃ m', declaresF.Reachable
    ∧ m'.definitions = declaresF.definitions
    ∧ Leaves declaresF ⟨[intrudesOnF.definition], intrudesOnF.declarations⟩ m' "f" := by
  obtain ⟨m', log', hrun⟩ := run_intrudesOnF
  obtain ⟨hdefs, -, ⟨-, herror⟩ | ⟨other, log₁, name, hprepare, hname, hleaves⟩⟩ :=
    leaves_of_refused (a := .lowered intrudesOnF) reachable_declaresF (keyed_stub _ _) hrun
  · cases herror
  · cases hprepare
    cases hname
    exact ⟨m', reachable_declaresF, hdefs, hleaves⟩

/-- A refused routine can change what an assembly declares, and with it the module
that is made of the assembly. -/
theorem finish_ne_of_refused : declaresF.Reachable ∧ intrudesOnF.declarations.Keyed
    ∧ ∃ e m' log', (declaresF.addLowered intrudesOnF).run #[] = ((.error e, m'), log')
      ∧ m'.declarations ≠ declaresF.declarations ∧ m'.finish ≠ declaresF.finish := by
  obtain ⟨m', log', hrun⟩ := run_intrudesOnF
  have hkeyed : intrudesOnF.declarations.Keyed := keyed_stub _ _
  have hmerge : (declaresF.merge ⟨[intrudesOnF.definition], intrudesOnF.declarations⟩).run #[]
    = _ := hrun
  obtain ⟨name, hname, hleaves⟩ := leaves_of_merge reachable_declaresF.keyed hkeyed hmerge
  cases hname
  -- the declaration in front of the one that clashes
  have hnew : (⟨"e", .void, [], []⟩ : Declaration) ∈ intrudesOnF.declarations.values := by decide
  have hold : (⟨"e", .void, [], []⟩ : Declaration) ∉ declaresF.declarations.values := by decide
  have hundef : ∀ f ∈ declaresF.definitions, f.name ≠ "e" := by decide
  refine ⟨reachable_declaresF, hkeyed, _, m', log', hrun, fun heq => ?_, fun heq => ?_⟩
  · have hleft := (hleaves.declarations _).2 (.inr ⟨hnew, by decide⟩)
    rw [heq] at hleft
    exact hold hleft
  · exact hold (hleaves.same.1 heq _ hnew (by decide) hundef)

end LiftedCode.Lowering
