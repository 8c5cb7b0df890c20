/-
Assembled modules. An assembly keeps the definitions of the routines that it
has taken in, and all of their declarations (`Collects`), however the routines
came to it: one by one, or as other assemblies that have taken in some of them.

# Order and grouping

A way to assemble routines is a tree (`Plan`). What comes out of it depends on
the routines only: if two of their declarations clash, every plan is refused,
and if none do, every plan ends in one and the same module
(`assemble_eq_of_perm`). A refused plan may be refused for another clash, as it
stops at the first one that it meets.

# Names

In a finished module the declarations are in step with one another and with the
definitions (`Consistent`): what is declared is declared once, and is not
defined. There is no such thing for definitions, which are taken in as they
come, and declarations of what is defined are dropped without a look at their
types (`finish_inconsistent`).
-/
import LiftedCode.Lowering.Assembly
import LiftedCode.Proofs.Lowering.Declarations
import LiftedCode.Proofs.Lowering.References
import Mathlib.Data.List.Nodup
import Mathlib.Data.List.Perm.Basic
import Mathlib.Data.List.Sort

namespace LiftedCode.Lowering

open Llvm (Declaration)

-- ========================================================= what is kept

/-- The declarations that come with routines. -/
def recorded (ls : List LoweredRoutine) : List Declaration :=
  ls.flatMap fun l => l.declarations.values

/-- The assembly has taken in the routines, and nothing else. -/
structure Collects (ls : List LoweredRoutine) (m : Assembly) : Prop where
  definitions : m.definitions = ls.map (·.definition)
  keyed : m.declarations.Keyed
  declared : ∀ d, d ∈ m.declarations.values ↔ d ∈ recorded ls

variable {ls ls' : List LoweredRoutine} {l : LoweredRoutine} {m m' other : Assembly}

theorem mem_recorded {d : Declaration} :
    d ∈ recorded ls ↔ ∃ l ∈ ls, d ∈ l.declarations.values := List.mem_flatMap

theorem recorded_append : recorded (ls ++ ls') = recorded ls ++ recorded ls' :=
  List.flatMap_append

/-- The empty assembly has collected nothing. -/
theorem collects_empty : Collects [] .empty := ⟨rfl, Declarations.keyed_empty, fun _ => Iff.rfl⟩

/-- What has been collected does not clash. -/
theorem Collects.not_conflict (h : Collects ls m) : ¬ Conflict (recorded ls) := fun hc =>
  h.keyed.not_conflict (hc.mono fun d hd => (h.declared d).2 hd)

-- ============================================================== steps

/-- Definitions are taken in if the declarations are. -/
theorem run_takeIn {definitions : List LoweredDefinition} {ds : Declarations} {log : Log} :
    (m.takeIn definitions ds).run log = match (m.declarations.declareAll ds.values).run log with
      | ((.ok (), merged), log') => ((.ok (), ⟨m.definitions ++ definitions, merged⟩), log')
      | ((.error e, merged), log') => ((.error e, ⟨m.definitions, merged⟩), log') := by
  unfold Assembly.takeIn
  rw [StateT.run_bind, Declarations.merge]
  rcases (m.declarations.declareAll ds.values).run log with ⟨⟨_ | ⟨⟩, merged⟩, log'⟩ <;> rfl

/-- Definitions are taken in with their declarations, unless these clash with
what is there. -/
theorem Collects.ends_takeIn (h : Collects ls m) {definitions : List LoweredDefinition}
    {ds : Declarations} (hdefs : definitions = ls'.map (·.definition))
    (hds : ∀ d, d ∈ ds.values ↔ d ∈ recorded ls') :
    Ends (m.takeIn definitions ds) (Collects (ls ++ ls')) (Conflict (recorded (ls ++ ls'))) := by
  have hmem : ∀ d, d ∈ m.declarations.values ++ ds.values ↔ d ∈ recorded (ls ++ ls') := by
    intro d
    rw [recorded_append, List.mem_append, List.mem_append, h.declared, hds]
  intro log
  have hmerge := Declarations.ends_declareAll h.keyed ds.values log
  rw [run_takeIn]
  split at hmerge
  case h_1 merged log' hx =>
    rw [hx]
    refine ⟨?_, hmerge.1, fun d => (hmerge.2 d).trans (hmem d)⟩
    rw [List.map_append, ← h.definitions, ← hdefs]
  case h_2 e merged log' hx =>
    rw [hx]
    exact ⟨hmerge.1.mono fun d hd => (hmem d).1 hd, hmerge.2⟩

/-- One more routine is collected, unless its declarations clash. -/
theorem Collects.ends_addLowered (h : Collects ls m) (l : LoweredRoutine) :
    Ends (m.addLowered l) (Collects (ls ++ [l])) (Conflict (recorded (ls ++ [l]))) :=
  h.ends_takeIn rfl fun d => by rw [recorded, List.flatMap_singleton]

/-- All that two assemblies have collected is collected, unless it clashes. -/
theorem Collects.ends_merge (h : Collects ls m) (h' : Collects ls' other) :
    Ends (m.merge other) (Collects (ls ++ ls')) (Conflict (recorded (ls ++ ls'))) :=
  h.ends_takeIn h'.definitions h'.declared

-- ============================================================== plans

/-- Go on with an assembly, unless there is none. -/
def AssemblyStep.andThen (x : AssemblyStep) (f : Assembly → AssemblyStep) : AssemblyStep := do
  match ← x with
  | (.ok (), m) => f m
  | (.error e, m) => return (.error e, m)

/-- A way to assemble routines: take in one more, or all of another assembly. -/
inductive Plan where
  | empty
  | add (plan : Plan) (l : LoweredRoutine)
  | merge (plan other : Plan)

namespace Plan

/-- The routines that the plan assembles. -/
def members : Plan → List LoweredRoutine
  | empty => []
  | add p l => p.members ++ [l]
  | merge p q => p.members ++ q.members

/-- Carry the plan out, up to the first step that is refused. -/
def assemble : Plan → AssemblyStep
  | empty => return (.ok (), .empty)
  | add p l => p.assemble.andThen fun m => m.addLowered l
  | merge p q => p.assemble.andThen fun m => q.assemble.andThen fun other => m.merge other

end Plan

/-- The plan that takes in routines one by one. -/
def Plan.ofList (ls : List LoweredRoutine) : Plan := ls.foldl .add .empty

theorem Plan.members_ofList : (Plan.ofList ls).members = ls := by
  have hfrom : ∀ p : Plan, (ls.foldl .add p).members = p.members ++ ls := by
    induction ls with
    | nil => exact fun p => (List.append_nil _).symm
    | cons l ls ih => exact fun p => (ih (p.add l)).trans (List.append_cons _ _ _).symm
  exact hfrom .empty

/-- One step of an assembly after the other, where a clash in the first is one in all. -/
theorem Ends.andThen {x : AssemblyStep} {f : Assembly → AssemblyStep} {P Q : Assembly → Prop}
    {C D : Prop} (h : Ends x P C) (hf : ∀ m, P m → Ends (f m) Q D) (hC : C → D) :
    Ends (x.andThen f) Q D := by
  intro log
  have h := h log
  have hrun : (x.andThen f).run log = match x.run log with
      | ((.ok (), m), log') => (f m).run log'
      | ((.error e, m), log') => ((.error e, m), log') := by
    unfold AssemblyStep.andThen
    rw [StateT.run_bind]
    rcases x.run log with ⟨⟨_ | ⟨⟩, m⟩, log'⟩ <;> rfl
  rw [hrun]
  split at h
  case h_1 m log' hx =>
    rw [hx]
    exact hf m h log'
  case h_2 e m log' hx =>
    rw [hx]
    exact ⟨hC h.1, h.2⟩

/-- A plan collects its members, unless they clash. -/
theorem Plan.ends_assemble (p : Plan) :
    Ends p.assemble (Collects p.members) (Conflict (recorded p.members)) := by
  induction p with
  | empty => exact fun _ => collects_empty
  | add p l ih =>
      refine ih.andThen (fun m h => h.ends_addLowered l) fun hc => hc.mono ?_
      rw [members, recorded_append]
      exact List.subset_append_left _ _
  | merge p q ihp ihq =>
      have hq : Conflict (recorded q.members) → Conflict (recorded (p.merge q).members) := by
        refine fun hc => hc.mono ?_
        rw [members, recorded_append]
        exact List.subset_append_right _ _
      refine ihp.andThen (fun m h => ihq.andThen (fun other h' => h.ends_merge h') hq)
        fun hc => hc.mono ?_
      rw [members, recorded_append]
      exact List.subset_append_left _ _

-- ======================================================= finished modules

/-- The module of the routines: their definitions by name, and those of their
declarations that are of something else, by name and once each. -/
structure IsModuleOf (ls : List LoweredRoutine) (m : LoweredModule) : Prop where
  definitions : m.definitions.Perm (ls.map (·.definition))
  ordered : m.definitions.Pairwise fun a b => compare a.name b.name = .lt
  declarations : ∀ d, d ∈ m.declarations ↔ d ∈ recorded ls ∧ ∀ l ∈ ls, l.definition.name ≠ d.name
  orderedDeclarations : m.declarations.Pairwise fun a b => compare a.name b.name = .lt

/-- Lists in order of names are equal if they have the same members. -/
theorem eq_of_ordered {α : Type} {name : α → String} {xs ys : List α}
    (hx : xs.Pairwise fun a b => compare (name a) (name b) = .lt)
    (hy : ys.Pairwise fun a b => compare (name a) (name b) = .lt) (h : ∀ a, a ∈ xs ↔ a ∈ ys) :
    xs = ys := by
  have hirrefl : Std.Irrefl fun a b => compare (name a) (name b) = .lt := by
    constructor
    intro a hlt
    have heq : compare (name a) (name a) = .eq := Std.ReflCmp.compare_self
    rw [heq] at hlt
    contradiction
  have hantisymm : Std.Antisymm fun a b => compare (name a) (name b) = .lt := by
    constructor
    intro a b hab hba
    rw [Std.OrientedCmp.gt_of_lt hab] at hba
    contradiction
  exact hx.eq_of_mem_iff hy h

namespace IsModuleOf

variable {module module' : LoweredModule}

/-- The order of the routines does not matter. -/
theorem perm (h : IsModuleOf ls module) (hp : ls.Perm ls') : IsModuleOf ls' module where
  definitions := h.definitions.trans (hp.map _)
  ordered := h.ordered
  declarations d := by
    have hrecorded : d ∈ recorded ls ↔ d ∈ recorded ls' := (hp.flatMap_right _).mem_iff
    rw [h.declarations, hrecorded]
    exact and_congr_right fun _ => forall_congr' fun l => imp_congr_left hp.mem_iff
  orderedDeclarations := h.orderedDeclarations

/-- There is one module of some routines. -/
theorem unique (h : IsModuleOf ls module) (h' : IsModuleOf ls module') : module = module' := by
  have hdefs : module.definitions = module'.definitions :=
    eq_of_ordered h.ordered h'.ordered fun d =>
      h.definitions.mem_iff.trans h'.definitions.mem_iff.symm
  have hdecls : module.declarations = module'.declarations :=
    eq_of_ordered h.orderedDeclarations h'.orderedDeclarations fun d =>
      (h.declarations d).trans (h'.declarations d).symm
  cases module
  cases module'
  cases hdefs
  cases hdecls
  rfl

end IsModuleOf

namespace Collects

/-- The definitions of a module are those of the routines. -/
theorem perm_finish (h : Collects ls m) : m.finish.definitions.Perm (ls.map (·.definition)) := by
  rw [← h.definitions]
  exact List.mergeSort_perm _ _

theorem perm_names (h : Collects ls m) :
    (m.finish.definitions.map (·.name)).Perm (ls.map (·.definition.name)) := by
  have hperm := h.perm_finish.map (·.name)
  rw [List.map_map] at hperm
  exact hperm

/-- What is declared was recorded, and is not defined. -/
theorem mem_declarations (h : Collects ls m) {d : Declaration} : d ∈ m.finish.declarations
    ↔ d ∈ recorded ls ∧ ∀ l ∈ ls, l.definition.name ≠ d.name := by
  have hfinish : d ∈ m.finish.declarations ↔ d ∈ m.declarations.values
      ∧ m.finish.definitions.all (·.name != d.name) = true := List.mem_filter
  rw [hfinish, h.declared, List.all_eq_true]
  refine and_congr_right fun _ => ?_
  simp only [bne_iff_ne, h.perm_finish.mem_iff, List.forall_mem_map]

/-- The declarations of a module are in order of their names, each of which occurs once. -/
theorem ordered_declarations (h : Collects ls m) :
    m.finish.declarations.Pairwise fun a b => compare a.name b.name = .lt :=
  h.keyed.pairwise_values.filter _

/-- Definitions with different names are put in order. -/
theorem ordered_definitions (h : Collects ls m) (hn : (ls.map (·.definition.name)).Nodup) :
    m.finish.definitions.Pairwise fun a b => compare a.name b.name = .lt := by
  have hle : ∀ o : Ordering, (o != .gt) = o.isLE := by decide
  have hsorted : m.finish.definitions.Pairwise
      fun a b => (compare a.name b.name != .gt) = true := by
    refine List.pairwise_mergeSort (fun a b c => ?_) (fun a b => ?_) m.definitions
    · rw [hle, hle, hle]
      exact Std.TransCmp.isLE_trans
    · have hswap : compare b.name a.name = (compare a.name b.name).swap :=
        Std.OrientedCmp.eq_swap
      rw [hswap]
      cases compare a.name b.name <;> rfl
  have hne : m.finish.definitions.Pairwise fun a b => a.name ≠ b.name :=
    List.pairwise_map.1 (h.perm_names.nodup_iff.2 hn)
  refine hsorted.imp₂ (fun a b hab hne => ?_) hne
  rw [hle, Ordering.isLE_iff_eq_lt_or_eq_eq] at hab
  exact hab.resolve_right fun heq => hne (Std.LawfulEqCmp.eq_of_compare heq)

/-- What has been collected is finished to the module of the routines. -/
theorem isModuleOf (h : Collects ls m) (hn : (ls.map (·.definition.name)).Nodup) :
    IsModuleOf ls m.finish :=
  ⟨h.perm_finish, h.ordered_definitions hn, fun _ => h.mem_declarations, h.ordered_declarations⟩

end Collects

/-- Assembly depends on the routines only. Where their declarations clash,
whichever way they are assembled is refused; where they do not, there is one
module that every way leads to. -/
theorem assemble_eq_of_perm (ls : List LoweredRoutine)
    (hn : (ls.map (·.definition.name)).Nodup) :
    (Conflict (recorded ls) → ∀ p : Plan, p.members.Perm ls → ∀ log,
      ∃ name m log', p.assemble.run log = ((.error (.conflictingDeclaration name), m), log'))
    ∧ (¬ Conflict (recorded ls) → ∃ module, IsModuleOf ls module
      ∧ ∀ p : Plan, p.members.Perm ls → ∀ log,
        ∃ m log', p.assemble.run log = ((.ok (), m), log') ∧ m.finish = module) := by
  have hsub : ∀ {ls ls' : List LoweredRoutine}, ls.Perm ls' → recorded ls ⊆ recorded ls' :=
    fun hp => (hp.flatMap_right _).subset
  -- what a plan ends in, by whether its members clash
  have hrun : ∀ p : Plan, p.members.Perm ls → ∀ log,
      (∃ m log', p.assemble.run log = ((.ok (), m), log') ∧ IsModuleOf ls m.finish
        ∧ ¬ Conflict (recorded ls))
      ∨ ∃ name m log', p.assemble.run log = ((.error (.conflictingDeclaration name), m), log')
        ∧ Conflict (recorded ls) := by
    intro p hp log
    have hends := p.ends_assemble log
    split at hends
    case h_1 m log' hx =>
      have hnames := (hp.map (·.definition.name)).nodup_iff.2 hn
      exact .inl ⟨m, log', hx, (hends.isModuleOf hnames).perm hp,
        fun hc => hends.not_conflict (hc.mono (hsub hp.symm))⟩
    case h_2 e m log' hx =>
      obtain ⟨hc, name, rfl⟩ := hends
      exact .inr ⟨name, m, log', hx, hc.mono (hsub hp)⟩
  constructor
  · intro hc p hp log
    rcases hrun p hp log with ⟨m, log', -, -, hnc⟩ | ⟨name, m, log', hx, -⟩
    · exact absurd hc hnc
    · exact ⟨name, m, log', hx⟩
  · intro hnc
    have hok : ∀ p : Plan, p.members.Perm ls → ∀ log, ∃ m log',
        p.assemble.run log = ((.ok (), m), log') ∧ IsModuleOf ls m.finish := by
      intro p hp log
      rcases hrun p hp log with ⟨m, log', hx, hmodule, -⟩ | ⟨_, _, _, -, hc⟩
      · exact ⟨m, log', hx, hmodule⟩
      · exact absurd hc hnc
    obtain ⟨m₀, -, -, hmodule⟩ := hok (.ofList ls) (by rw [Plan.members_ofList]) #[]
    refine ⟨m₀.finish, hmodule, fun p hp log => ?_⟩
    obtain ⟨m, log', hx, hm⟩ := hok p hp log
    exact ⟨m, log', hx, hm.unique hmodule⟩

/-- A definition without a body, and declarations. -/
def stub (name : String) (ds : List Declaration) : LoweredRoutine :=
  ⟨⟨name, .void, [], []⟩, Dict.ofList (ds.map fun d => (d.name, d))⟩

/-- A definition of `f`. -/
def definesF : LoweredRoutine := stub "f" []

/-- A routine that declares `f` as it is defined. -/
def usesF : LoweredRoutine := stub "g" [⟨"f", .void, [], []⟩]

/-- A routine that declares `f` otherwise. -/
def misusesF : LoweredRoutine := stub "h" [⟨"f", .ptr, [], []⟩]

/-- Two routines in either order and grouping, and two that clash. -/
theorem assemble_eq_of_perm_stubs :
    (∃ m m' log log', (Plan.ofList [definesF, usesF]).assemble.run #[] = ((.ok (), m), log)
      ∧ (Plan.merge (.ofList [usesF]) (.ofList [definesF])).assemble.run #[] = ((.ok (), m'), log')
      ∧ m.finish = m'.finish)
    ∧ ∃ name m log, (Plan.merge (.ofList [misusesF]) (.ofList [usesF])).assemble.run #[]
        = ((.error (.conflictingDeclaration name), m), log) := by
  constructor
  · obtain ⟨module, -, hall⟩ := (assemble_eq_of_perm [definesF, usesF] (by decide)).2 (by decide)
    obtain ⟨m, log, hrun, hm⟩ := hall (.ofList [definesF, usesF]) (.refl _) #[]
    obtain ⟨m', log', hrun', hm'⟩ :=
      hall (.merge (.ofList [usesF]) (.ofList [definesF])) (.swap _ _ _) #[]
    exact ⟨m, m', log, log', hrun, hrun', hm.trans hm'.symm⟩
  · exact (assemble_eq_of_perm [misusesF, usesF] (by decide)).1 (by decide)
      (.merge (.ofList [misusesF]) (.ofList [usesF])) (.refl _) #[]

-- ================================================================ names

/-- The names that a module introduces. -/
def globals (m : LoweredModule) : List String :=
  m.definitions.map (·.name) ++ m.declarations.map (·.name)

/-- A declaration has the types of a definition. -/
def Fits (d : Declaration) (f : LoweredDefinition) : Prop :=
  d.ret = f.ret ∧ d.args = f.params.map (·.1)

/-- The routine was lowered to this. -/
def LoweredRoutine.IsCodeOf (l : LoweredRoutine) (r : Routine) : Prop :=
  ∃ target log log', Succeeds (routine target r) log l log'

/-- An assembly that came about in steps none of which was refused, and the
routines that it has taken in. -/
inductive Gathered : List LoweredRoutine → Assembly → Prop where
  | empty : Gathered [] .empty
  | add {ls : List LoweredRoutine} {m m' : Assembly} {target : Target} {r : Routine}
      {l : LoweredRoutine} {log log₁ log' : Log} (h : Gathered ls m)
      (hl : Succeeds (routine target r) log l log₁)
      (hrun : (m.add target r).run log = ((.ok (), m'), log')) : Gathered (ls ++ [l]) m'
  | addLowered {ls : List LoweredRoutine} {m m' : Assembly} {l : LoweredRoutine} {log log' : Log}
      (h : Gathered ls m) (hrun : (m.addLowered l).run log = ((.ok (), m'), log')) :
      Gathered (ls ++ [l]) m'
  | merge {ls ls' : List LoweredRoutine} {m m' other : Assembly} {log log' : Log}
      (h : Gathered ls m) (h' : Gathered ls' other)
      (hrun : (m.merge other).run log = ((.ok (), m'), log')) : Gathered (ls ++ ls') m'

/-- The global names of a module that is assembled from routines. -/
structure Consistent (ls : List LoweredRoutine) (m : LoweredModule) : Prop where
  definitions : m.definitions.Perm (ls.map (·.definition))
  declared : (m.declarations.map (·.name)).Nodup
  undefined : ∀ d ∈ m.declarations, ∀ f ∈ m.definitions, f.name ≠ d.name
  unique : (globals m).Nodup ↔ (ls.map (·.definition.name)).Nodup
  agree : ∀ l ∈ ls, ∀ l' ∈ ls, ∀ d ∈ l.declarations.values, ∀ d' ∈ l'.declarations.values,
    d.name = d'.name → d = d'
  /-- A reference to a function with the types of the function settles the types of
  whatever is recorded for the name. -/
  fits : ∀ l ∈ ls, ∀ r, l.IsCodeOf r → ∀ f σ, r.RefersTo f σ →
    ∀ l' ∈ ls, ∀ r', l'.IsCodeOf r' → f.name = r'.name → σ.args = r'.signature.args →
      σ.rets = r'.signature.rets → ∀ d ∈ recorded ls, d.name = r'.name → Fits d l'.definition

/-- What holds at the end of a step that was not refused. -/
theorem Ends.of_ok {x : AssemblyStep} {P : Assembly → Prop} {C : Prop} {log log' : Log}
    (h : Ends x P C) (hx : x.run log = ((.ok (), m), log')) : P m := by
  have h := h log
  rw [hx] at h
  exact h

/-- Lowering comes before taking in. -/
theorem run_add {target : Target} {r : Routine} {log log' : Log}
    (h : Succeeds (routine target r) log l log') :
    (m.add target r).run log = (m.addLowered l).run log' := by
  unfold Assembly.add
  rw [StateT.run_bind, h]
  rfl

/-- Assemblies come about by taking in. -/
theorem Gathered.collects (h : Gathered ls m) : Collects ls m := by
  induction h with
  | empty => exact collects_empty
  | add _ hl hrun ih =>
      rw [run_add hl] at hrun
      exact (ih.ends_addLowered _).of_ok hrun
  | addLowered _ hrun ih => exact (ih.ends_addLowered _).of_ok hrun
  | merge _ _ hrun ih ih' => exact (ih.ends_merge ih').of_ok hrun

/-- A routine whose declarations do not clash is taken in. -/
theorem Gathered.exists_add {target : Target} {r : Routine} {log log' : Log} (h : Gathered ls m)
    (hl : Succeeds (routine target r) log l log') (hnc : ¬ Conflict (recorded (ls ++ [l]))) :
    ∃ m', Gathered (ls ++ [l]) m' := by
  obtain ⟨m', _, hrun, -⟩ := (h.collects.ends_addLowered l).exists_ok hnc log'
  rw [← run_add hl] at hrun
  exact ⟨m', h.add hl hrun⟩

/-- What is recorded for a name is one declaration. -/
theorem Collects.eq_of_name (h : Collects ls m) {d d' : Declaration} (hd : d ∈ recorded ls)
    (hd' : d' ∈ recorded ls) (hname : d.name = d'.name) : d = d' :=
  Decidable.byContradiction fun hne => h.not_conflict ⟨d, hd, d', hd', hname, hne⟩

/-- The types of the parameters are those of the arguments. -/
theorem map_params (σ : Signature) : (params σ).map (·.1) = Llvm.Ty.ofTys σ.args := by
  have hfst := congrArg (List.map Llvm.Ty.ofTy) (List.zipIdx_map_fst 0 σ.args)
  rw [List.map_map] at hfst
  rw [params, List.map_map, Llvm.Ty.ofTys_eq_map]
  exact hfst

/-- The definition of a routine has its types. -/
theorem LoweredRoutine.IsCodeOf.fits {r : Routine} (h : l.IsCodeOf r) {name : String}
    {σ : Signature} (hargs : σ.args = r.signature.args) (hrets : σ.rets = r.signature.rets) :
    Fits (.ofFunction name σ) l.definition := by
  obtain ⟨target, log, log', hrun⟩ := h
  obtain ⟨-, map, p, p', -, hbody, -⟩ := of_routine hrun
  obtain ⟨_, _, _, _, _, -, -, -, -, hcode, -⟩ := of_routineBody hbody
  rw [hcode]
  refine ⟨?_, ?_⟩
  · show Llvm.Ty.ofResults σ = .ofResults r.signature
    rw [Llvm.Ty.ofResults, hrets]
    rfl
  · show Llvm.Ty.ofTys σ.args = (params r.signature).map (·.1)
    rw [map_params, hargs]

/-- A module declares a name once. -/
theorem Collects.nodup_declarations (h : Collects ls m) :
    (m.finish.declarations.map (·.name)).Nodup := by
  refine List.pairwise_map.2 (h.ordered_declarations.imp fun {a b} hlt heq => ?_)
  have hself : compare b.name b.name = .eq := Std.ReflCmp.compare_self
  rw [heq, hself] at hlt
  contradiction

/-- A module does not declare what it defines. -/
theorem Collects.not_defined (h : Collects ls m) {d : Declaration}
    (hd : d ∈ m.finish.declarations) {f : LoweredDefinition} (hf : f ∈ m.finish.definitions) :
    f.name ≠ d.name := by
  obtain ⟨l, hl, rfl⟩ := List.mem_map.1 (h.perm_finish.mem_iff.1 hf)
  exact (h.mem_declarations.1 hd).2 l hl

/-- Only definitions can share a name. -/
theorem Collects.nodup_globals (h : Collects ls m) :
    (globals m.finish).Nodup ↔ (ls.map (·.definition.name)).Nodup := by
  rw [globals, List.nodup_append, h.perm_names.nodup_iff]
  refine ⟨And.left, fun hn => ⟨hn, h.nodup_declarations, fun name hname name' hname' => ?_⟩⟩
  obtain ⟨f, hf, rfl⟩ := List.mem_map.1 hname
  obtain ⟨d, hd, rfl⟩ := List.mem_map.1 hname'
  exact h.not_defined hd hf

/-- The global names of what has been collected are in step. -/
theorem Collects.consistent (h : Collects ls m) : Consistent ls m.finish where
  definitions := h.perm_finish
  declared := h.nodup_declarations
  undefined d hd f hf := h.not_defined hd hf
  unique := h.nodup_globals
  agree l hl l' hl' d hd d' hd' hname :=
    h.eq_of_name (mem_recorded.2 ⟨l, hl, hd⟩) (mem_recorded.2 ⟨l', hl', hd'⟩) hname
  fits l hl r hr f σ hrefers l' hl' r' hr' hname hargs hrets d hd hdname := by
    obtain ⟨target, log, log', hrun⟩ := hr
    have hrecorded : Declaration.ofFunction f.name σ ∈ recorded ls :=
      mem_recorded.2 ⟨l, hl, Dict.mem_values.2 ⟨_, declared_of_refersTo hrun hrefers⟩⟩
    rw [h.eq_of_name hd hrecorded (hdname.trans hname.symm)]
    exact hr'.fits hargs hrets

/-- The global names of a module are in step, apart from the definitions. -/
theorem gathered_consistent (h : Gathered ls m) : Consistent ls m.finish := h.collects.consistent

/-- Return nothing. -/
def leaf : Routine where
  name := "f"
  addr := 4096
  signature := ⟨[], [], false⟩
  entry := 4096
  blocks := [⟨4096, 4, [], [], .ret [], ∅⟩]

/-- Go on in the leaf, which is said to have the results. -/
def caller (rets : List Ty) : Routine where
  name := "g"
  addr := 8192
  signature := ⟨[], rets, false⟩
  entry := 8192
  blocks := [⟨8192, 4, [], [], .tailCall (.entry ⟨"f", 4096, ⟨[], rets, false⟩⟩)
    ⟨[], rets, false⟩ [], ∅⟩]

theorem blockMap_leaf : leaf.blockMap = .ok ⟨leaf.blocks, Dict.ofList [(4096, [])]⟩ :=
  BlockMap.build_of_pairwise (List.pairwise_singleton _ _) rfl rfl rfl

theorem blockMap_caller (rets : List Ty) :
    (caller rets).blockMap = .ok ⟨(caller rets).blocks, Dict.ofList [(8192, [])]⟩ :=
  BlockMap.build_of_pairwise (List.pairwise_singleton _ _) rfl rfl rfl

/-- The leaf is lowered, and declares nothing. -/
theorem routine_leaf (log : Log) : ∃ l log', Succeeds (routine default leaf) log l log'
    ∧ l.definition.name = "f" ∧ l.definition.ret = .struct [] ∧ l.declarations.values = [] := by
  unfold routine
  rw [blockMap_leaf]
  exact ⟨_, _, rfl, rfl, rfl, rfl⟩

/-- The caller is lowered, and declares the leaf as it says. -/
theorem routine_caller {rets : List Ty} (hrets : rets = [] ∨ rets = [.bits 8]) (log : Log) :
    ∃ l log', Succeeds (routine default (caller rets)) log l log' ∧ l.definition.name = "g"
      ∧ l.declarations.values = [.ofFunction "f" ⟨[], rets, false⟩] := by
  unfold routine
  rw [blockMap_caller]
  rcases hrets with rfl | rfl
  all_goals exact ⟨_, _, rfl, rfl, rfl⟩

/-- The leaf and a routine that calls it can be taken in, whatever the call says of
its results. -/
theorem gathered_caller {rets : List Ty} (hrets : rets = [] ∨ rets = [.bits 8]) :
    ∃ l k m, Gathered [l, k] m ∧ l.definition.name = "f" ∧ l.definition.ret = .struct []
      ∧ k.definition.name = "g" ∧ k.declarations.values = [.ofFunction "f" ⟨[], rets, false⟩] := by
  obtain ⟨l, _, hl, hname, hret, hdecls⟩ := routine_leaf #[]
  obtain ⟨k, _, hk, hkname, hkdecls⟩ := routine_caller hrets #[]
  have hrecorded : recorded [l, k] = [.ofFunction "f" ⟨[], rets, false⟩] := by
    simp [recorded, hdecls, hkdecls]
  obtain ⟨m₁, h₁⟩ := Gathered.empty.exists_add hl (by simp [recorded, hdecls, Conflict])
  obtain ⟨m, h⟩ := h₁.exists_add hk (by
    show ¬ Conflict (recorded [l, k])
    simp [hrecorded, Conflict])
  exact ⟨l, k, m, h, hname, hret, hkname, hkdecls⟩

/-- A call that says the right thing of its results. -/
theorem gathered_consistent_caller : ∃ ls m, Gathered ls m
    ∧ ls.map (·.definition.name) = ["f", "g"] ∧ Consistent ls m.finish := by
  obtain ⟨l, k, m, h, hname, -, hkname, -⟩ := gathered_caller (.inl rfl)
  refine ⟨[l, k], m, h, ?_, gathered_consistent h⟩
  rw [List.map_cons, List.map_singleton, hname, hkname]

/-- A routine can be taken in twice, and is then defined twice. A call that says
something else of the results of a function than its definition is let pass. -/
theorem finish_inconsistent :
    (∃ ls m, Gathered ls m ∧ ¬ (globals m.finish).Nodup)
    ∧ ∃ ls m, Gathered ls m ∧ (ls.map (·.definition.name)).Nodup
      ∧ ∃ l ∈ ls, ∃ d ∈ l.declarations.values, ∃ f ∈ m.finish.definitions,
        d.name = f.name ∧ ¬ Fits d f := by
  constructor
  · obtain ⟨l, _, hl, hname, -, hdecls⟩ := routine_leaf #[]
    obtain ⟨m₁, h₁⟩ := Gathered.empty.exists_add hl (by simp [recorded, hdecls, Conflict])
    obtain ⟨m, h⟩ := h₁.exists_add hl (by simp [recorded, hdecls, Conflict])
    refine ⟨_, m, h, ?_⟩
    rw [h.collects.nodup_globals]
    simp
  · obtain ⟨l, k, m, h, hname, hret, hkname, hdecls⟩ := gathered_caller (.inr rfl)
    have hnames : ([l, k].map (·.definition.name)).Nodup := by simp [hname, hkname]
    have hl : l.definition ∈ m.finish.definitions :=
      h.collects.perm_finish.mem_iff.2 List.mem_cons_self
    have hd : .ofFunction "f" ⟨[], [.bits 8], false⟩ ∈ k.declarations.values := by simp [hdecls]
    refine ⟨[l, k], m, h, hnames, k, by simp, _, hd, l.definition, hl, hname.symm, ?_⟩
    intro hfits
    have hret' : Llvm.Ty.struct [.int 8] = l.definition.ret := hfits.1
    rw [hret] at hret'
    exact nomatch hret'

end LiftedCode.Lowering
