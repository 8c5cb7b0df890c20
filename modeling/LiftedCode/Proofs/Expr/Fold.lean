/-
What a fold with a cache computes. Its results are those of the recursion on the
value that keeps nothing (`Fold.plain`), and it calls the fold once for every
assignment whose identifier is not in the cache, in an order in which operands
come before what reads them. This holds for whatever was folded into the cache
before, as long as no assignment of the value shares its identifier with another
one, in the value itself or in one that was folded before (`Unambiguous`). What a
cache has is taken for the result of any assignment with the identifier, so
without this the result of another assignment can come back
(`run_ne_plain`). Lookups do not fail in either case.

# The argument

A run is a list of calls, each of which finds the results for its operands in
the cache (`Calls`). That it finds them is a matter of the pending tasks only: an
assignment is finished after its operands had their turn (`Pending.Ordered`).
What is in a cache was called for by some assignment of the values that were
folded, with results that are there still (`Explained`), and so the results are
those of the recursion, by induction on what an assignment is made of.
-/
import LiftedCode.Expr.Fold
import LiftedCode.Proofs.Data.Dict
import LiftedCode.Proofs.Effect
import LiftedCode.Proofs.Expr.Checked
import LiftedCode.Proofs.Expr.Traverse

namespace LiftedCode

-- ============================================================== recursion

namespace Fold

variable {ρ : Type}

/-- The fold of a value by recursion, without a cache. -/
def plain (f : Fold ρ) (v : Value) : ρ :=
  match v with
  | .assigned a => f.assignment a (a.rhs.operands.attach.map fun u => f.plain u.1)
  | v => f.leaf v
termination_by sizeOf v
decreasing_by
  have hlt := Assignment.sizeOf_lt_of_mem_operands u.2
  simp only [Value.assigned.sizeOf_spec]
  omega

/-- The plain fold of an assignment folds its operands first. -/
theorem plain_assigned (f : Fold ρ) (a : Assignment Value) :
    f.plain (.assigned a) = f.assignment a (a.rhs.operands.map f.plain) := by
  rw [plain, List.attach_map_val]

end Fold

namespace Fold

variable {ρ : Type} {f : Fold ρ}

-- ================================================================== calls

/-- The calls are made one after the other, from one cache to another. Each is for
an identifier that is new, and finds the results for its operands. -/
inductive Calls (f : Fold ρ) :
    FoldCache ρ → List (Assignment Value × List ρ) → FoldCache ρ → Prop where
  | nil (cache : FoldCache ρ) : Calls f cache [] cache
  | cons {cache cache' : FoldCache ρ} {a : Assignment Value} {args : List ρ}
    {calls : List (Assignment Value × List ρ)} (hnew : cache.get? a.id = none)
    (hargs : a.rhs.operands.mapM (f.operand cache) = .ok args)
    (h : Calls f (cache.insert a.id (f.assignment a args)) calls cache') :
    Calls f cache ((a, args) :: calls) cache'

/-- Something is in the cache for the identifier. -/
def Has (cache : FoldCache ρ) (i : Ident) : Prop := ∃ r, cache.get? i = some r

variable {cache cache' : FoldCache ρ} {calls : List (Assignment Value × List ρ)}

theorem contains_iff_has {i : Ident} : cache.contains i = true ↔ Has cache i :=
  Option.isSome_iff_exists

theorem get?_eq_none_iff {i : Ident} : cache.get? i = none ↔ ¬Has cache i := by
  rw [Option.eq_none_iff_forall_ne_some]
  exact ⟨fun h ⟨r, hr⟩ => h r hr, fun h r hr => h ⟨r, hr⟩⟩

theorem has_insert {i j : Ident} {r : ρ} : Has (cache.insert i r) j ↔ Has cache j ∨ j = i := by
  unfold Has
  rw [Dict.get?_insert]
  by_cases hij : i = j
  · rw [if_pos hij]
    exact ⟨fun _ => .inr hij.symm, fun _ => ⟨r, rfl⟩⟩
  · rw [if_neg hij]
    exact ⟨.inl, fun h => h.resolve_right (hij ·.symm)⟩

/-- The operand of an assignment is what the cache has for its identifier. -/
theorem operand_assigned {b : Assignment Value} {r : ρ} :
    f.operand cache (.assigned b) = .ok r ↔ cache.get? b.id = some r := by
  rw [operand, Dict.get]
  cases cache.get? b.id with
  | none => constructor <;> (intro h; contradiction)
  | some r' => rw [Except.ok.injEq, Option.some.injEq]

/-- The results for operands are there if all assignments among them are. -/
theorem exists_args {vs : List Value} (h : ∀ b, .assigned b ∈ vs → Has cache b.id) :
    ∃ args, vs.mapM (f.operand cache) = .ok args := by
  induction vs with
  | nil => exact ⟨[], rfl⟩
  | cons v vs ih =>
      obtain ⟨args, hargs⟩ := ih fun b hb => h b (List.mem_cons_of_mem v hb)
      obtain ⟨r, hr⟩ : ∃ r, f.operand cache v = .ok r := by
        cases v with
        | assigned b =>
            obtain ⟨r, hr⟩ := h b List.mem_cons_self
            exact ⟨r, operand_assigned.2 hr⟩
        | bits | bool | initial | phi | returned | arg | entry => exact ⟨_, rfl⟩
      exact ⟨r :: args, by rw [List.mapM_cons, hr, ok_bind, hargs]; rfl⟩

/-- Assignments among operands whose results were found are there. -/
theorem has_of_mapM {vs : List Value} {args : List ρ}
    (h : vs.mapM (f.operand cache) = .ok args) {b : Assignment Value} (hb : .assigned b ∈ vs) :
    Has cache b.id := by
  obtain ⟨i, hi⟩ := List.mem_iff_getElem?.1 hb
  obtain ⟨r, -, hr⟩ := (ok_of_mapM h).2 i _ hi
  exact ⟨r, operand_assigned.1 hr⟩

namespace Calls

/-- A result that is there stays. -/
theorem get? (h : Calls f cache calls cache') {i : Ident} {r : ρ} (hr : cache.get? i = some r) :
    cache'.get? i = some r := by
  induction h with
  | nil => exact hr
  | cons hnew _ _ ih => exact ih (Dict.get?_insert_of_new hnew hr)

/-- Calls lose nothing from the cache. -/
theorem has (h : Calls f cache calls cache') {i : Ident} (hi : Has cache i) : Has cache' i :=
  hi.imp fun _ => h.get?

/-- What an operand has for a result stays. -/
theorem operand (h : Calls f cache calls cache') {v : Value} {r : ρ}
    (hr : f.operand cache v = .ok r) : f.operand cache' v = .ok r := by
  cases v with
  | assigned b => exact operand_assigned.2 (h.get? (operand_assigned.1 hr))
  | bits | bool | initial | phi | returned | arg | entry => exact hr

/-- Operands that were there before the calls are there after them, with the same
results. -/
theorem args (h : Calls f cache calls cache') {vs : List Value} {args : List ρ}
    (hargs : vs.mapM (f.operand cache) = .ok args) : vs.mapM (f.operand cache') = .ok args := by
  induction vs generalizing args with
  | nil => exact hargs
  | cons v vs ih =>
      rw [List.mapM_cons] at hargs ⊢
      obtain ⟨r, hr, hargs⟩ := ok_of_bind hargs
      obtain ⟨rs, hrs, hargs⟩ := ok_of_bind hargs
      rw [h.operand hr, ok_bind, ih hrs]
      exact hargs

/-- The results are there for what was there before and for what was called for. -/
theorem has_iff (h : Calls f cache calls cache') {i : Ident} :
    Has cache' i ↔ Has cache i ∨ i ∈ calls.map (·.1.id) := by
  induction h with
  | nil => simp
  | cons _ _ _ ih => rw [ih, has_insert, List.map_cons, List.mem_cons, or_assoc]

/-- No identifier is called for that is there, and none is called for twice. -/
theorem nodup (h : Calls f cache calls cache') :
    (calls.map (·.1.id)).Nodup ∧ ∀ i ∈ calls.map (·.1.id), ¬Has cache i := by
  induction h with
  | nil => exact ⟨List.nodup_nil, nofun⟩
  | cons hnew _ _ ih =>
      obtain ⟨hnodup, hnone⟩ := ih
      rw [List.map_cons, List.nodup_cons, List.forall_mem_cons]
      exact ⟨⟨fun ha => hnone _ ha (has_insert.2 (.inr rfl)), hnodup⟩, get?_eq_none_iff.1 hnew,
        fun i hi hh => hnone i hi (has_insert.2 (.inl hh))⟩

/-- A call has its result in the cache, and so have its operands. -/
theorem of_mem (h : Calls f cache calls cache') {a : Assignment Value} {args : List ρ}
    (hc : (a, args) ∈ calls) : cache'.get? a.id = some (f.assignment a args)
      ∧ a.rhs.operands.mapM (f.operand cache') = .ok args := by
  induction h with
  | nil => exact absurd hc List.not_mem_nil
  | @cons cache cache' b bargs calls hnew hargs h ih =>
      rcases List.mem_cons.1 hc with hc | hc
      · cases hc
        have hfirst : Calls f cache ((a, args) :: calls) cache' := .cons hnew hargs h
        exact ⟨h.get? (Dict.get?_insert_self _ _ _), hfirst.args hargs⟩
      · exact ih hc

/-- Operands are there before what reads them is called for. -/
theorem before (h : Calls f cache calls cache')
    {pre post : List (Assignment Value × List ρ)} {a : Assignment Value} {args : List ρ}
    (hsplit : calls = pre ++ (a, args) :: post) {b : Assignment Value}
    (hb : .assigned b ∈ a.rhs.operands) : Has cache b.id ∨ b.id ∈ pre.map (·.1.id) := by
  induction h generalizing pre with
  | nil => exact absurd hsplit (by simp)
  | cons _ hargs _ ih =>
      cases pre with
      | nil =>
          cases hsplit
          exact .inl (has_of_mapM hargs hb)
      | cons c pre =>
          cases hsplit
          rcases ih rfl with hh | hm
          · rcases has_insert.1 hh with hh | hi
            · exact .inl hh
            · exact .inr (hi ▸ List.mem_cons_self)
          · exact .inr (List.mem_cons_of_mem _ hm)

end Calls

-- =================================================================== runs

/-- An assignment is finished by a call with the results for its operands. -/
theorem exists_finish {p : FoldProgress ρ} {a : Assignment Value} {args : List ρ}
    (hargs : a.rhs.operands.mapM (f.operand p.cache) = .ok args) :
    ∃ p', f.finish a p = .ok p' ∧ p'.cache = p.cache.insert a.id (f.assignment a args)
      ∧ p'.calls = (a, args) :: p.calls := by
  rw [finish, hargs]
  exact ⟨_, rfl, rfl, rfl⟩

/-- A run of pending tasks makes calls, for assignments that the tasks lead to, until
all of them have their results. -/
theorem exists_calls {P : Assignment Value → Prop} {tasks : List Pending} {p : FoldProgress ρ}
    (hclosed : ∀ a, P a → ∀ b, .assigned b ∈ a.rhs.operands → P b)
    (htasks : ∀ t ∈ tasks, P t.assignment) (hord : Pending.Ordered (Has p.cache) tasks) :
    ∃ p' calls, f.traversal.run tasks p = .ok p' ∧ p'.calls = calls.reverse ++ p.calls
      ∧ Calls f p.cache calls p'.cache ∧ (∀ c ∈ calls, P c.1)
      ∧ ∀ t ∈ tasks, Has p'.cache t.assignment.id := by
  have hdone : ∀ {i : Ident} {p : FoldProgress ρ},
      f.traversal.done p i = true ↔ Has p.cache i := contains_iff_has
  fun_induction Traversal.run f.traversal tasks p with
  | case1 p => exact ⟨p, [], rfl, rfl, .nil _, nofun, nofun⟩
  | case2 a rest p hd ih | case4 a rest p hd ih =>
      have ha : Has p.cache a.id := hdone.1 hd
      obtain ⟨p', calls, hrun, hcalls, h, hP, hhas⟩ := ih (List.forall_mem_cons.1 htasks).2
        (hord.2.mono fun i hi => hi.elim id fun hi => hi ▸ ha)
      exact ⟨p', calls, hrun, hcalls, h, hP, List.forall_mem_cons.2 ⟨h.has ha, hhas⟩⟩
  | case3 a rest p hd ih =>
      have hops := Traversal.forall_waiting (t := f.traversal) (s := p)
        (hclosed a (htasks _ List.mem_cons_self))
      obtain ⟨ha, hrest⟩ := List.forall_mem_cons.1 htasks
      obtain ⟨p', calls, hrun, hcalls, h, hP, hhas⟩ :=
        ih (List.forall_mem_append.2 ⟨hops, List.forall_mem_cons.2 ⟨ha, hrest⟩⟩)
          (Traversal.ordered_of_visit (fun i => hdone.1) hord)
      refine ⟨p', calls, hrun, hcalls, h, hP, List.forall_mem_cons.2 ⟨?_, fun t ht => ?_⟩⟩
      · exact hhas (.finish a) (List.mem_append_right _ List.mem_cons_self)
      · exact hhas t (List.mem_append_right _ (List.mem_cons_of_mem _ ht))
  | case5 a rest p hd ih =>
      have hnew : p.cache.get? a.id = none := get?_eq_none_iff.2 fun ha => hd (hdone.2 ha)
      obtain ⟨args, hargs⟩ := exists_args hord.1
      obtain ⟨p₁, hfinish, hcache, hlast⟩ := exists_finish hargs
      obtain ⟨ha, hrest⟩ := List.forall_mem_cons.1 htasks
      obtain ⟨p', calls, hrun, hcalls, h, hP, hhas⟩ :=
        ih p₁ hrest (hord.2.mono fun i hi => hcache ▸ has_insert.2 hi)
      rw [hcache] at h
      rw [show f.traversal.finish a p = .ok p₁ from hfinish, ok_bind]
      refine ⟨p', (a, args) :: calls, hrun, ?_, .cons hnew hargs h,
        List.forall_mem_cons.2 ⟨ha, hP⟩,
        List.forall_mem_cons.2 ⟨h.has (has_insert.2 (.inr rfl)), hhas⟩⟩
      rw [hcalls, hlast, List.reverse_cons, List.append_assoc]
      rfl

/-- A fold gives a result, whatever the cache. The calls that it makes are for what
the value is made of, and the value itself has its result in the end. -/
theorem exists_run (f : Fold ρ) (cache : FoldCache ρ) (v : Value) :
    ∃ out, f.run cache v = .ok out ∧ Calls f cache out.calls out.cache
      ∧ (∀ c ∈ out.calls, (Value.assigned c.1).Within v)
      ∧ f.operand out.cache v = .ok out.result := by
  cases v with
  | assigned a =>
      have hclosed : ∀ b : Assignment Value, (Value.assigned b).Within (.assigned a) →
          ∀ c, .assigned c ∈ b.rhs.operands → (Value.assigned c).Within (.assigned a) :=
        fun b hb c hc => (Value.Within.operand hc (.self _)).trans hb
      have htasks : ∀ t ∈ [Pending.visit a], (Value.assigned t.assignment).Within (.assigned a) :=
        List.forall_mem_singleton.2 (.self _)
      obtain ⟨p', calls, hrun, hcalls, h, hP, hhas⟩ :=
        exists_calls (f := f) (p := ⟨cache, [], 0⟩) hclosed htasks ⟨trivial, trivial⟩
      obtain ⟨r, hr⟩ := hhas (.visit a) List.mem_cons_self
      have hresult : f.operand p'.cache (.assigned a) = .ok r := operand_assigned.2 hr
      refine ⟨⟨r, p'.cache, p'.calls.reverse, p'.leaves⟩, ?_, ?_, ?_, hresult⟩
      · show (f.traversal.run (Pending.visits [.assigned a]) ⟨cache, [], 0⟩ >>= _) = _
        have hvisits : Pending.visits [.assigned a] = [.visit a] := rfl
        rw [hvisits, hrun, ok_bind, hresult]
        rfl
      · rw [hcalls, List.append_nil, List.reverse_reverse]
        exact h
      · rw [hcalls, List.append_nil, List.reverse_reverse]
        exact hP
  | bits | bool | initial | phi | returned | arg | entry =>
      exact ⟨⟨f.leaf _, cache, [], 1⟩, rfl, .nil cache, List.forall_mem_nil _, rfl⟩

end Fold

-- ============================================================== histories

namespace Value

/-- The value is made of an assignment with the identifier. -/
def Reaches (v : Value) (i : Ident) : Prop := ∃ a, (assigned a).Within v ∧ a.id = i

/-- No assignment that the value is made of shares its identifier with another one,
among all that some values are made of. -/
def Unambiguous (vs : List Value) (v : Value) : Prop :=
  ∀ a, (assigned a).Within v → ∀ w ∈ vs, ∀ b, (assigned b).Within w → b.id = a.id → b = a

/-- What is within an unambiguous value is unambiguous. -/
theorem Unambiguous.within {vs : List Value} {u v : Value} (h : v.Unambiguous vs)
    (hu : u.Within v) : u.Unambiguous vs := fun a ha => h a (ha.trans hu)

end Value

namespace Fold

variable {ρ : Type} {f : Fold ρ} {cache cache' : FoldCache ρ}
  {calls : List (Assignment Value × List ρ)} {vs : List Value} {u v : Value}

/-- The cache after a fold of each of the values, the first of them last, that all
share it. -/
inductive Cached (f : Fold ρ) : List Value → FoldCache ρ → Prop where
  | empty : Cached f [] ∅
  | run {vs : List Value} {cache : FoldCache ρ} {v : Value} {out : FoldOutcome ρ}
    (h : Cached f vs cache) (hrun : f.run cache v = .ok out) : Cached f (v :: vs) out.cache

/-- What is in the cache was called for, for assignments that the values are made of
and with results that are in the cache. -/
def Explained (f : Fold ρ) (vs : List Value) (cache : FoldCache ρ) : Prop :=
  ∀ i r, cache.get? i = some r → ∃ a args, a.id = i ∧ (∃ v ∈ vs, (Value.assigned a).Within v)
    ∧ a.rhs.operands.mapM (f.operand cache) = .ok args ∧ r = f.assignment a args

/-- A run explains what it adds. -/
theorem Calls.explained (h : Calls f cache calls cache') (hold : f.Explained vs cache)
    (hv : ∀ c ∈ calls, (Value.assigned c.1).Within v) : f.Explained (v :: vs) cache' := by
  intro i r hr
  rcases h.has_iff.1 ⟨r, hr⟩ with ⟨r₀, hr₀⟩ | hi
  · obtain ⟨a, args, ha, ⟨w, hw, hwithin⟩, hargs, hresult⟩ := hold i r₀ hr₀
    obtain rfl : r = r₀ := Option.some.inj (hr.symm.trans (h.get? hr₀))
    exact ⟨a, args, ha, ⟨w, List.mem_cons_of_mem v hw, hwithin⟩, h.args hargs, hresult⟩
  · obtain ⟨⟨a, args⟩, hc, rfl⟩ := List.mem_map.1 hi
    obtain ⟨hget, hargs⟩ := h.of_mem hc
    exact ⟨a, args, rfl, ⟨v, List.mem_cons_self, hv _ hc⟩, hargs,
      Option.some.inj (hr.symm.trans hget)⟩

/-- A cache that folds have filled explains all that it has. -/
theorem Cached.explained (h : f.Cached vs cache) : f.Explained vs cache := by
  induction h with
  | empty => exact fun i r hr => nomatch hr
  | @run vs cache v out _ hrun ih =>
      obtain ⟨out', hrun', hcalls, hwithin, -⟩ := exists_run f cache v
      obtain rfl : out = out' := Except.ok.inj (hrun.symm.trans hrun')
      exact hcalls.explained ih hwithin

theorem operand_of_leaf (h : v.assignment? = none) : f.operand cache v = .ok (f.leaf v) := by
  cases v with
  | assigned => contradiction
  | bits | bool | initial | phi | returned | arg | entry => rfl

theorem plain_of_leaf (h : v.assignment? = none) : f.plain v = f.leaf v := by
  cases v with
  | assigned => contradiction
  | bits | bool | initial | phi | returned | arg | entry => simp only [plain]

namespace Explained

/-- The result that is there for an assignment was called for by that assignment, if
there is no other with its identifier. -/
theorem of_get? (h : f.Explained vs cache) {a : Assignment Value}
    (hu : (Value.assigned a).Unambiguous vs) {r : ρ} (hr : cache.get? a.id = some r) :
    ∃ args, a.rhs.operands.mapM (f.operand cache) = .ok args ∧ r = f.assignment a args := by
  obtain ⟨b, args, hid, ⟨w, hw, hwithin⟩, hargs, hresult⟩ := h a.id r hr
  obtain rfl : b = a := hu a (.self _) w hw b hwithin hid
  exact ⟨args, hargs, hresult⟩

/-- The result that is there for an operand is that of the recursion. -/
theorem eq_plain (h : f.Explained vs cache) (hu : v.Unambiguous vs) {r : ρ}
    (hr : f.operand cache v = .ok r) : r = f.plain v := by
  induction v using Value.recOperands generalizing r with
  | leaf v hleaf =>
      rw [operand_of_leaf hleaf] at hr
      rw [plain_of_leaf hleaf]
      exact (Except.ok.inj hr).symm
  | assigned a ih =>
      obtain ⟨args, hargs, rfl⟩ := h.of_get? hu (operand_assigned.1 hr)
      have hplain : args = a.rhs.operands.map f.plain :=
        eq_map_of_mapM hargs fun w hw r hr => ih w hw (hu.within (.operand hw (.self w))) hr
      rw [plain_assigned, hplain]

/-- Where a value has a result, so has all that it is made of. -/
theorem exists_operand (h : f.Explained vs cache) (hu : v.Unambiguous vs) (huv : u.Within v)
    {r : ρ} (hr : f.operand cache v = .ok r) : ∃ r, f.operand cache u = .ok r := by
  induction huv generalizing r with
  | self => exact ⟨r, hr⟩
  | @operand v a hv _ ih =>
      obtain ⟨args, hargs, -⟩ := h.of_get? hu (operand_assigned.1 hr)
      obtain ⟨i, hi⟩ := List.mem_iff_getElem?.1 hv
      obtain ⟨r', -, hr'⟩ := (ok_of_mapM hargs).2 i v hi
      exact ih (hu.within (.operand hv (.self v))) hr'

end Explained

-- ============================================================= the promise

/-- A fold of `v` with a cache that some values were folded into does what the
recursion does, calling for each assignment that is new to the cache once. -/
structure Folds (f : Fold ρ) (vs : List Value) (cache : FoldCache ρ) (v : Value)
    (out : FoldOutcome ρ) : Prop where
  result : out.result = f.plain v
  once : out.folded.Nodup
  called : ∀ i, i ∈ out.folded ↔ v.Reaches i ∧ ¬Has cache i
  args : ∀ c ∈ out.calls, (Value.assigned c.1).Within v ∧ c.2 = c.1.rhs.operands.map f.plain
  /-- The operands of an assignment had their results before it was called for. -/
  before : ∀ pre a args post, out.calls = pre ++ (a, args) :: post →
    ∀ b, .assigned b ∈ a.rhs.operands → Has cache b.id ∨ b.id ∈ pre.map (·.1.id)
  has : ∀ i, Has out.cache i ↔ Has cache i ∨ v.Reaches i
  kept : ∀ i r, cache.get? i = some r → out.cache.get? i = some r
  plain : ∀ a, (Value.assigned a).Within v → out.cache.get? a.id = some (f.plain (.assigned a))
  /-- What is in the cache is the result for one of the assignments that have been
  folded, and the recursion's if there is no other with its identifier. -/
  source : ∀ i r, out.cache.get? i = some r → ∃ a, a.id = i
    ∧ (∃ w ∈ v :: vs, (Value.assigned a).Within w)
    ∧ ((Value.assigned a).Unambiguous (v :: vs) → r = f.plain (.assigned a))

/-- A fold of an unambiguous value on a filled cache gives the plain result. -/
theorem folds_of_cached (h : f.Cached vs cache) (hu : v.Unambiguous (v :: vs)) :
    ∃ out, f.run cache v = .ok out ∧ Folds f vs cache v out := by
  obtain ⟨out, hrun, hcalls, hwithin, hresult⟩ := exists_run f cache v
  have hex : f.Explained (v :: vs) out.cache := hcalls.explained h.explained hwithin
  have hplain : ∀ a, (Value.assigned a).Within v →
      out.cache.get? a.id = some (f.plain (.assigned a)) := by
    intro a ha
    obtain ⟨r, hr⟩ := hex.exists_operand hu ha hresult
    rw [← hex.eq_plain (hu.within ha) hr]
    exact operand_assigned.1 hr
  have hreaches : ∀ i, i ∈ out.folded → v.Reaches i := by
    intro i hi
    obtain ⟨c, hc, rfl⟩ := List.mem_map.1 hi
    exact ⟨c.1, hwithin c hc, rfl⟩
  have hhas : ∀ i, v.Reaches i → Has out.cache i := by
    rintro i ⟨a, ha, rfl⟩
    exact ⟨_, hplain a ha⟩
  refine ⟨out, hrun, hex.eq_plain hu hresult, hcalls.nodup.1, fun i => ?_, fun c hc => ?_,
    fun pre a args post hsplit b hb => hcalls.before hsplit hb, fun i => ?_,
    fun i r => hcalls.get?, hplain, fun i r hr => ?_⟩
  · exact ⟨fun hi => ⟨hreaches i hi, hcalls.nodup.2 i hi⟩,
      fun hi => (hcalls.has_iff.1 (hhas i hi.1)).resolve_left hi.2⟩
  · refine ⟨hwithin c hc, eq_map_of_mapM (hcalls.of_mem hc).2 fun w hw r hr => ?_⟩
    have hoperand : w.Within (.assigned c.1) := .operand hw (.self w)
    exact hex.eq_plain (hu.within (hoperand.trans (hwithin c hc))) hr
  · exact ⟨fun hi => (hcalls.has_iff.1 hi).imp_right (hreaches i),
      fun hi => hi.elim hcalls.has (hhas i)⟩
  · obtain ⟨a, args, rfl, hw, hargs, rfl⟩ := hex i r hr
    exact ⟨a, rfl, hw, fun hua => hex.eq_plain hua (operand_assigned.2 hr)⟩

/-- A fold never fails, whatever the cache. It does what the recursion does, with a
cache that any values were folded into before, if no assignment of the value shares
its identifier with another one of the value or of those. -/
theorem run_eq_plain (f : Fold ρ) : (∀ cache v, ∃ out, f.run cache v = .ok out)
    ∧ ∀ vs cache v, f.Cached vs cache → v.Unambiguous (v :: vs) →
      ∃ out, f.run cache v = .ok out ∧ Folds f vs cache v out := by
  constructor
  · intro cache v
    obtain ⟨out, hrun, -⟩ := exists_run f cache v
    exact ⟨out, hrun⟩
  · exact fun vs cache v h hu => folds_of_cached h hu

/-- How often a value reads `true`, counting a shared assignment every time. -/
def truths : Fold Nat where
  leaf
    | .bool true => 1
    | _ => 0
  assignment _ rs := rs.sum

/-- The negation of a truth value, always under one identifier. -/
def negation (b : Bool) : Assignment Value := ⟨0, .app (.not (.bool b)), .bool⟩

/-- A negation compared with itself. -/
def twice (b : Bool) : Assignment Value :=
  ⟨1, .app (.eq (.assigned (negation b)) (.assigned (negation b))), .bool⟩

/-- Within the negation there is no other assignment. -/
theorem within_negation {a : Assignment Value} {b : Bool} :
    (Value.assigned a).Within (.assigned (negation b)) ↔ a = negation b := by
  rw [Value.within_assigned]
  simp [negation, Rhs.operands, App.operands, Value.within_of_leaf (v := .bool b) rfl]

/-- Within the sum there is just the negation besides it. -/
theorem within_twice {a : Assignment Value} {b : Bool} :
    (Value.assigned a).Within (.assigned (twice b)) ↔ a = twice b ∨ a = negation b := by
  rw [Value.within_assigned]
  simp [twice, Rhs.operands, App.operands, within_negation]

theorem plain_negation (b : Bool) : truths.plain (.assigned (negation b)) = b.toNat := by
  have hops : (negation b).rhs.operands = [.bool b] := rfl
  rw [plain_assigned, hops, List.map_singleton, plain_of_leaf rfl]
  cases b <;> rfl

theorem plain_twice (b : Bool) : truths.plain (.assigned (twice b)) = b.toNat + b.toNat := by
  have hops : (twice b).rhs.operands = [.assigned (negation b), .assigned (negation b)] := rfl
  rw [plain_assigned, hops, List.map_cons, List.map_singleton, plain_negation]
  rfl

/-- A negation that was folded before is folded once more as part of a comparison. -/
theorem run_eq_plain_twice : ∃ cache out, truths.Cached [.assigned (negation true)] cache
    ∧ truths.run cache (.assigned (twice true)) = .ok out ∧ out.result = 2
    ∧ truths.Folds [.assigned (negation true)] cache (.assigned (twice true)) out := by
  obtain ⟨out₀, hrun₀⟩ := (run_eq_plain truths).1 ∅ (.assigned (negation true))
  have hcached : truths.Cached [.assigned (negation true)] out₀.cache := .run .empty hrun₀
  have hu : (Value.assigned (twice true)).Unambiguous
      [.assigned (twice true), .assigned (negation true)] := by
    intro a ha w hw b hb hid
    have hb : b = twice true ∨ b = negation true := by
      rcases List.mem_cons.1 hw with rfl | hw
      · exact within_twice.1 hb
      · obtain rfl := List.mem_singleton.1 hw
        exact .inr (within_negation.1 hb)
    rcases within_twice.1 ha with rfl | rfl <;> rcases hb with rfl | rfl
    all_goals first | rfl | exact absurd hid (by decide)
  obtain ⟨out, hrun, hfolds⟩ := (run_eq_plain truths).2 _ _ _ hcached hu
  exact ⟨out₀.cache, out, hcached, hrun, hfolds.result.trans (plain_twice true), hfolds⟩

/-- The result of another assignment with the same identifier comes back, if that was
folded before. -/
theorem run_ne_plain : ∃ cache out, truths.Cached [.assigned (negation true)] cache
    ∧ (Value.assigned (negation false)).Unambiguous [.assigned (negation false)]
    ∧ truths.run cache (.assigned (negation false)) = .ok out
    ∧ out.result ≠ truths.plain (.assigned (negation false)) := by
  have hu : ∀ b, (Value.assigned (negation b)).Unambiguous [.assigned (negation b)] := by
    intro b a ha w hw a' ha' _
    obtain rfl := List.mem_singleton.1 hw
    rw [within_negation.1 ha, within_negation.1 ha']
  obtain ⟨out₀, hrun₀, h₀⟩ := folds_of_cached .empty (hu true)
  obtain ⟨out, hrun, hcalls, -, hresult⟩ :=
    exists_run truths out₀.cache (.assigned (negation false))
  refine ⟨out₀.cache, out, .run .empty hrun₀, hu false, hrun, ?_⟩
  -- one identifier, one result
  have hkept := hcalls.get? (h₀.plain _ (.self _))
  have hout : some out.result = some (truths.plain (.assigned (negation true))) :=
    (operand_assigned.1 hresult).symm.trans hkept
  rw [Option.some.inj hout, plain_negation, plain_negation]
  decide

end Fold

end LiftedCode
