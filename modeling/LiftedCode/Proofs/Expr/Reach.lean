/-
The identifiers that are collected. Those of a value, of a right-hand side and of a
statement come in the order of a walk by recursion, operands first and from left to
right, that passes over what it has collected (`Value.postorder`). This holds for any
values. If no two assignments share an identifier, these are the identifiers of all
that the operands are made of, each once, and each behind all that its own
right-hand side reaches (`Gathers`).

# The argument

The pending tasks carry out the recursion: a visit stands for the walk of its
assignment and the task to finish one for its identifier (`Pending.postorder`), and
the tasks in their order for these one after the other (`run_collectIdents`). What is
not put on the stack since it has been collected would be passed over
(`foldl_waiting`), whatever is collected before its turn. In the recursion, an
identifier that has been collected was collected with all that it reaches, as no
other assignment has it (`Ranked`), so that nothing is missed by passing over it
(`ranked_postorder`).
-/
import LiftedCode.Expr.Reach
import LiftedCode.Proofs.Data.OrderedSet
import LiftedCode.Proofs.Expr.Fold

namespace LiftedCode

-- ============================================================== recursion

namespace Value

/-- Collect the identifiers of what a value is made of, operands first, passing over
assignments whose identifiers have been collected. -/
def postorder (seen : List Ident) (v : Value) : List Ident :=
  match v with
  | .assigned a =>
    if a.id ∈ seen then seen
    else addMissing (a.rhs.operands.attach.foldl (fun seen u => postorder seen u.1) seen) a.id
  | _ => seen
termination_by sizeOf v
decreasing_by
  have hlt := Assignment.sizeOf_lt_of_mem_operands u.2
  simp only [Value.assigned.sizeOf_spec]
  omega

variable {seen : List Ident} {a : Assignment Value} {v : Value} {i : Ident}

/-- What has been seen is not visited again. -/
theorem postorder_of_mem (h : a.id ∈ seen) : postorder seen (.assigned a) = seen := by
  rw [postorder, if_pos h]

/-- An assignment comes after its operands. -/
theorem postorder_of_notMem (h : a.id ∉ seen) :
    postorder seen (.assigned a) = addMissing (a.rhs.operands.foldl postorder seen) a.id := by
  rw [postorder, if_neg h, List.foldl_attach]

/-- A leaf adds nothing. -/
theorem postorder_of_leaf (h : v.assignment? = none) : postorder seen v = seen := by
  cases v with
  | assigned => contradiction
  | bits | bool | initial | phi | returned | arg | entry => simp only [postorder]

/-- What has been collected is collected still after a walk through values, if it is
after each of them. -/
theorem mem_foldl_of_mem {vs : List Value}
    (h : ∀ v ∈ vs, ∀ seen, i ∈ seen → i ∈ postorder seen v) (hi : i ∈ seen) :
    i ∈ vs.foldl postorder seen := by
  induction vs generalizing seen with
  | nil => exact hi
  | cons v vs ih =>
      obtain ⟨hv, hvs⟩ := List.forall_mem_cons.1 h
      exact ih hvs (hv seen hi)

/-- Nothing that has been seen is lost. -/
theorem mem_postorder_of_mem (hi : i ∈ seen) : i ∈ postorder seen v := by
  induction v using Value.recOperands generalizing seen with
  | leaf v hleaf => exact (postorder_of_leaf hleaf).symm ▸ hi
  | assigned a ih =>
      by_cases ha : a.id ∈ seen
      · exact (postorder_of_mem ha).symm ▸ hi
      · rw [postorder_of_notMem ha, mem_addMissing]
        exact .inl (mem_foldl_of_mem (fun u hu _ hi => ih u hu hi) hi)

end Value

-- =============================================================== the stack

namespace Pending

/-- What a task collects. -/
def postorder (seen : List Ident) : Pending → List Ident
  | visit a => Value.postorder seen (.assigned a)
  | finish a => addMissing seen a.id

end Pending

variable {s : IdentSet} {tasks : List Pending} {vs : List Value}

/-- The traversal is done with what it has collected. -/
theorem done_collectIdents (hs : s.Indexed) {i : Ident} :
    collectIdents.done s i = true ↔ i ∈ s.toList := hs.contains_iff

/-- The visits to what waits collect what the walk through all of the values does, as
the others are passed over. -/
theorem foldl_waiting (hs : s.Indexed) {seen : List Ident} (hseen : s.toList ⊆ seen) :
    (collectIdents.waiting s vs).foldl Pending.postorder seen
      = vs.foldl Value.postorder seen := by
  induction vs generalizing seen with
  | nil => rfl
  | cons v vs ih =>
      cases v with
      | assigned b =>
          have hmono : s.toList ⊆ Value.postorder seen (.assigned b) :=
            fun i hi => Value.mem_postorder_of_mem (hseen hi)
          have hvisits : Pending.visits (.assigned b :: vs) = .visit b :: Pending.visits vs := rfl
          rw [Traversal.waiting, hvisits, List.filter_cons]
          split
          · exact ih hmono
          · rename_i hb
            have hb : b.id ∈ s.toList :=
              (done_collectIdents hs).1 (by simpa [Pending.assignment] using hb)
            rw [List.foldl_cons, Value.postorder_of_mem (hseen hb)]
            exact ih hseen
      | bits | bool | initial | phi | returned | arg | entry =>
          rw [List.foldl_cons, Value.postorder_of_leaf rfl]
          exact ih hseen

/-- A run carries out its tasks one after the other. -/
theorem run_collectIdents (hs : s.Indexed) : (collectIdents.run tasks s : IdentSet).Indexed
    ∧ (collectIdents.run tasks s : IdentSet).toList
      = tasks.foldl Pending.postorder s.toList := by
  fun_induction Traversal.run collectIdents tasks s with
  | case1 s => exact ⟨hs, rfl⟩
  | case2 a rest s hd ih =>
      have ha : a.id ∈ s.toList := (done_collectIdents hs).1 hd
      rw [List.foldl_cons, Pending.postorder, Value.postorder_of_mem ha]
      exact ih hs
  | case3 a rest s hd ih =>
      have ha : a.id ∉ s.toList := fun ha => hd ((done_collectIdents hs).2 ha)
      have hrun := ih hs
      rw [List.foldl_append, foldl_waiting hs (List.Subset.refl _)] at hrun
      rw [List.foldl_cons, Pending.postorder, Value.postorder_of_notMem ha]
      exact hrun
  | case4 a rest s hd ih =>
      have ha : a.id ∈ s.toList := (done_collectIdents hs).1 hd
      rw [List.foldl_cons, Pending.postorder, addMissing, if_pos ha]
      exact ih hs
  | case5 a rest s hd ih =>
      have hrun := ih (s.insert a.id) (hs.insert a.id)
      rw [hs.toList_insert] at hrun
      exact hrun

/-- The identifiers of values are added by the walk through them. -/
theorem foldl_addIdents (hs : s.Indexed) : (vs.foldl Value.addIdents s).Indexed
    ∧ (vs.foldl Value.addIdents s).toList = vs.foldl Value.postorder s.toList := by
  induction vs generalizing s with
  | nil => exact ⟨hs, rfl⟩
  | cons v vs ih =>
      obtain ⟨hwalk, hlist⟩ := @run_collectIdents s (Pending.visits [v]) hs
      have hv : (v.addIdents s).toList = Value.postorder s.toList v := by
        refine hlist.trans ?_
        cases v with
        | assigned a => rfl
        | bits | bool | initial | phi | returned | arg | entry =>
            exact (Value.postorder_of_leaf rfl).symm
      rw [List.foldl_cons, List.foldl_cons, ← hv]
      exact ih hwalk

-- ================================================================ the order

/-- No two assignments that the values are made of share an identifier. -/
def AllUnambiguous (vs : List Value) : Prop := ∀ v ∈ vs, v.Unambiguous vs

/-- The assignment is one of those that the values are made of. -/
def Among (a : Assignment Value) (vs : List Value) : Prop :=
  ∃ v ∈ vs, (Value.assigned a).Within v

/-- The identifiers are of what the values are made of, each once, and each behind all
that the right-hand side of its assignment reaches. -/
structure Ranked (vs : List Value) (ids : List Ident) : Prop where
  nodup : ids.Nodup
  source : ∀ i ∈ ids, ∃ a, Among a vs ∧ a.id = i
  behind : ∀ pre i post, ids = pre ++ i :: post → ∀ a, Among a vs → a.id = i →
    ∀ u ∈ a.rhs.operands, ∀ j, u.Reaches j → j ∈ pre

/-- The identifiers are all of those of what the values are made of, each once, and
each behind all that the right-hand side of its assignment reaches. -/
structure Gathers (vs : List Value) (ids : List Ident) : Prop extends Ranked vs ids where
  mem : ∀ i, i ∈ ids ↔ ∃ v ∈ vs, v.Reaches i

variable {a b : Assignment Value} {ids : List Ident}

theorem Among.operand {u : Value} (h : Among a vs) (hu : u ∈ a.rhs.operands)
    (hb : (Value.assigned b).Within u) : Among b vs := by
  obtain ⟨v, hv, hwithin⟩ := h
  exact ⟨v, hv, (Value.Within.operand hu hb).trans hwithin⟩

/-- In unambiguous values an identifier stands for one assignment. -/
theorem AllUnambiguous.eq (h : AllUnambiguous vs) (ha : Among a vs) (hb : Among b vs)
    (hid : b.id = a.id) : b = a := by
  obtain ⟨v, hv, hav⟩ := ha
  obtain ⟨w, hw, hbw⟩ := hb
  exact h v hv a hav w hw b hbw hid

/-- An assignment is larger than what it is made of. -/
theorem Value.Within.sizeOf_le {u v : Value} (h : u.Within v) : sizeOf u ≤ sizeOf v := by
  induction h with
  | self => exact Nat.le_refl _
  | operand hv _ ih =>
      have hlt := Assignment.sizeOf_lt_of_mem_operands hv
      simp only [Value.assigned.sizeOf_spec]
      omega

/-- An assignment is not within its own operands. -/
theorem not_within_operand {u : Value} (hu : u ∈ a.rhs.operands) :
    ¬(Value.assigned a).Within u := by
  intro h
  have hle := h.sizeOf_le
  have hlt := Assignment.sizeOf_lt_of_mem_operands hu
  simp only [Value.assigned.sizeOf_spec] at hle
  omega

/-- An assignment reaches its own identifier and what its operands reach. -/
theorem reaches_assigned {i : Ident} : (Value.assigned a).Reaches i
    ↔ i = a.id ∨ ∃ u ∈ a.rhs.operands, u.Reaches i := by
  constructor
  · rintro ⟨b, hb, rfl⟩
    rcases Value.within_assigned.1 hb with heq | ⟨u, hu, hb⟩
    · exact .inl (by rw [Value.assigned.inj heq])
    · exact .inr ⟨u, hu, b, hb, rfl⟩
  · rintro (rfl | ⟨u, hu, b, hb, rfl⟩)
    · exact ⟨a, .self _, rfl⟩
    · exact ⟨b, .operand hu hb, rfl⟩

/-- A leaf reaches no identifier. -/
theorem not_reaches_of_leaf {v : Value} {i : Ident} (h : v.assignment? = none) :
    ¬v.Reaches i := by
  rintro ⟨b, hb, -⟩
  obtain rfl := (Value.within_of_leaf h).1 hb
  contradiction

/-- No operand of an assignment reaches its identifier. -/
theorem AllUnambiguous.not_reaches_operand (h : AllUnambiguous vs) (ha : Among a vs) {u : Value}
    (hu : u ∈ a.rhs.operands) : ¬u.Reaches a.id := by
  rintro ⟨b, hb, hid⟩
  obtain rfl : b = a := h.eq ha (ha.operand hu hb) hid
  exact not_within_operand hu hb

namespace Ranked

/-- With an identifier, all is there that its assignment reaches. -/
theorem reached (h : Ranked vs ids) (ha : Among a vs) (hid : a.id ∈ ids) {i : Ident}
    (hi : (Value.assigned a).Reaches i) : i ∈ ids := by
  obtain ⟨pre, post, hsplit⟩ := List.append_of_mem hid
  rcases reaches_assigned.1 hi with rfl | ⟨u, hu, hi⟩
  · exact hid
  · rw [hsplit]
    exact List.mem_append_left _ (h.behind pre a.id post hsplit a ha rfl u hu i hi)

/-- An identifier comes at the end when all is there that its assignment reads. -/
theorem concat (h : Ranked vs ids) (hc : AllUnambiguous vs) (ha : Among a vs) (hnew : a.id ∉ ids)
    (hops : ∀ u ∈ a.rhs.operands, ∀ i, u.Reaches i → i ∈ ids) : Ranked vs (ids ++ [a.id]) where
  nodup := List.pairwise_append.2 ⟨h.nodup, List.pairwise_singleton _ _, fun i hi j hj => by
    rw [List.mem_singleton.1 hj]
    exact fun heq => hnew (heq ▸ hi)⟩
  source := by
    intro i hi
    rcases List.mem_append.1 hi with hi | hi
    · exact h.source i hi
    · exact ⟨a, ha, (List.mem_singleton.1 hi).symm⟩
  behind := by
    intro pre i post hsplit b hb hid u hu j hj
    rcases List.eq_nil_or_concat post with rfl | ⟨post, k, rfl⟩
    · -- the identifier at the end is that of `a` and of no other
      obtain ⟨rfl, hlast⟩ := List.append_inj' hsplit rfl
      obtain rfl : b = a := hc.eq ha hb (hid.trans (List.singleton_inj.1 hlast).symm)
      exact hops u hu j hj
    · rw [List.concat_eq_append, ← List.cons_append, ← List.append_assoc] at hsplit
      obtain ⟨hsplit, -⟩ := List.append_inj' hsplit rfl
      exact h.behind pre i post hsplit b hb hid u hu j hj

end Ranked

/-- What a walk through values comes to, if each of them is walked through as said. -/
theorem ranked_foldl {us : List Value}
    (h : ∀ u ∈ us, ∀ seen, Ranked vs seen → Ranked vs (u.postorder seen)
      ∧ ∀ i, i ∈ u.postorder seen ↔ i ∈ seen ∨ u.Reaches i)
    {seen : List Ident} (hseen : Ranked vs seen) :
    Ranked vs (us.foldl Value.postorder seen) ∧ ∀ i, i ∈ us.foldl Value.postorder seen
      ↔ i ∈ seen ∨ ∃ u ∈ us, u.Reaches i := by
  induction us generalizing seen with
  | nil => exact ⟨hseen, fun i => by simp⟩
  | cons u us ih =>
      obtain ⟨hu, hus⟩ := List.forall_mem_cons.1 h
      obtain ⟨hranked, hmem⟩ := hu seen hseen
      obtain ⟨hrest, hall⟩ := ih hus hranked
      refine ⟨hrest, fun i => ?_⟩
      rw [List.foldl_cons, hall, hmem, or_assoc]
      simp only [List.mem_cons, exists_eq_or_imp]

/-- A walk adds what the value reaches, in order. -/
theorem ranked_postorder (hc : AllUnambiguous vs) {v : Value}
    (hv : ∀ a, (Value.assigned a).Within v → Among a vs) {seen : List Ident}
    (hseen : Ranked vs seen) :
    Ranked vs (v.postorder seen) ∧ ∀ i, i ∈ v.postorder seen ↔ i ∈ seen ∨ v.Reaches i := by
  induction v using Value.recOperands generalizing seen with
  | leaf v hleaf =>
      rw [Value.postorder_of_leaf hleaf]
      exact ⟨hseen, fun i => ⟨.inl, fun h => h.resolve_right (not_reaches_of_leaf hleaf)⟩⟩
  | assigned a ih =>
      have ha : Among a vs := hv a (.self _)
      by_cases hid : a.id ∈ seen
      · -- what was collected was collected with all that it reaches
        rw [Value.postorder_of_mem hid]
        exact ⟨hseen, fun i => ⟨.inl, fun h => h.elim id (hseen.reached ha hid)⟩⟩
      · obtain ⟨hops, hmem⟩ := ranked_foldl
          (fun u hu seen => ih u hu fun b hb => hv b (.operand hu hb)) hseen
        have hnew : a.id ∉ a.rhs.operands.foldl Value.postorder seen := by
          rw [hmem]
          rintro (hin | ⟨u, hu, hreach⟩)
          · exact hid hin
          · exact hc.not_reaches_operand ha hu hreach
        rw [Value.postorder_of_notMem hid, addMissing, if_neg hnew]
        refine ⟨hops.concat hc ha hnew fun u hu i hi => (hmem i).2 (.inr ⟨u, hu, hi⟩),
          fun i => ?_⟩
        rw [List.mem_append, List.mem_singleton, hmem, reaches_assigned, or_assoc,
          or_comm (a := i = a.id)]

/-- The walk through values collects all that they are made of. -/
theorem gathers_foldl (hc : AllUnambiguous vs) : Gathers vs (vs.foldl Value.postorder []) := by
  have hempty : Ranked vs [] := ⟨List.nodup_nil, nofun, by simp⟩
  obtain ⟨hranked, hmem⟩ := @ranked_foldl vs vs (fun v hv seen =>
    ranked_postorder hc fun a ha => ⟨v, hv, ha⟩) [] hempty
  exact ⟨hranked, fun i => by simp [hmem]⟩

-- ============================================================== statements

theorem AllUnambiguous.operands (h : AllUnambiguous [.assigned a]) :
    AllUnambiguous a.rhs.operands := by
  have hwithin : ∀ b, Among b a.rhs.operands → Among b [.assigned a] := by
    rintro b ⟨u, hu, hb⟩
    exact ⟨_, List.mem_singleton_self _, .operand hu hb⟩
  intro u hu b hb w hw c hc hid
  exact h.eq (hwithin b ⟨u, hu, hb⟩) (hwithin c ⟨w, hw, hc⟩) hid

/-- The walk through an assignment ends with its own identifier. -/
theorem Value.postorder_assigned (h : AllUnambiguous [.assigned a]) :
    postorder [] (.assigned a) = a.rhs.operands.foldl postorder [] ++ [a.id] := by
  have hnew : a.id ∉ a.rhs.operands.foldl postorder [] := by
    rw [(gathers_foldl h.operands).mem]
    rintro ⟨u, hu, hreach⟩
    exact h.not_reaches_operand ⟨_, List.mem_singleton_self _, .self _⟩ hu hreach
  rw [postorder_of_notMem List.not_mem_nil, addMissing, if_neg hnew]

/-- What is collected from nothing is what the walk collects. -/
theorem toList_foldl_addIdents (vs : List Value) :
    (vs.foldl Value.addIdents ∅).toList = vs.foldl Value.postorder [] :=
  (foldl_addIdents OrderedSet.indexed_empty).2

namespace Stmt

/-- The values that a statement names: the assignment that it makes, or the
operands that it reads. -/
def roots : Stmt → List Value
  | assign a => [.assigned a]
  | s => s.operands

/-- The identifiers of a statement are those of its values, one value after the other. -/
theorem toList_idents (s : Stmt) : s.idents.toList = s.roots.foldl Value.postorder [] := by
  cases s with
  | assign a =>
      have hs := (@foldl_addIdents ∅ a.rhs.operands OrderedSet.indexed_empty).1
      refine (hs.toList_insert a.id).trans ?_
      rw [toList_foldl_addIdents]
      exact (Value.postorder_of_notMem List.not_mem_nil).symm
  | write | writeIf | call | machine | comment | instruction => exact toList_foldl_addIdents _

end Stmt

/-- The identifiers of a value, of a right-hand side and of a statement are in the order
of the walk by recursion. If none is shared, they are all that can be reached, each once
and behind all that its right-hand side reaches, and those of the statement that makes
an assignment end with its own. -/
theorem toList_idents_eq_postorder :
    (∀ v : Value, v.idents.toList = v.postorder []
      ∧ (AllUnambiguous [v] → Gathers [v] v.idents.toList))
    ∧ (∀ r : Rhs Value, r.idents.toList = r.operands.foldl Value.postorder []
      ∧ (AllUnambiguous r.operands → Gathers r.operands r.idents.toList))
    ∧ ∀ s : Stmt, s.idents.toList = s.roots.foldl Value.postorder []
      ∧ (AllUnambiguous s.roots → Gathers s.roots s.idents.toList
        ∧ ∀ a, s = .assign a → s.idents.toList = a.rhs.idents.toList ++ [a.id]) := by
  refine ⟨fun v => ?_, fun r => ?_, fun s => ?_⟩
  · have hv : v.idents.toList = [v].foldl Value.postorder [] := toList_foldl_addIdents [v]
    exact ⟨hv, fun hc => hv ▸ gathers_foldl hc⟩
  · have hr : r.idents.toList = r.operands.foldl Value.postorder [] := toList_foldl_addIdents _
    exact ⟨hr, fun hc => hr ▸ gathers_foldl hc⟩
  · refine ⟨s.toList_idents, fun hc => ⟨s.toList_idents ▸ gathers_foldl hc, ?_⟩⟩
    rintro a rfl
    rw [Rhs.idents, toList_foldl_addIdents, Stmt.toList_idents]
    exact Value.postorder_assigned hc

/-- The base of a segment, read once. -/
def segmentBase : Assignment Value := ⟨7, .machine .readFsBase, .bits 64⟩

/-- The base of a segment, added to itself. -/
def doubledBase : Assignment Value :=
  ⟨3, .app (.binary .add 64 (.assigned segmentBase) (.assigned segmentBase)), .bits 64⟩

/-- A copy to the doubled base, of as many bytes as it says, from the base. -/
def copyToDoubled : Stmt :=
  .machine (.repeatMove 1 (.assigned doubledBase) (.assigned segmentBase)
    (.assigned doubledBase) (.bool false))

theorem among_copyToDoubled {b : Assignment Value} :
    Among b copyToDoubled.roots ↔ b = doubledBase ∨ b = segmentBase := by
  have hbase : (Value.assigned b).Within (.assigned segmentBase) ↔ b = segmentBase := by
    rw [Value.within_assigned]
    simp [segmentBase, Rhs.operands, MachineFn.operands]
  have hdoubled : (Value.assigned b).Within (.assigned doubledBase)
      ↔ b = doubledBase ∨ b = segmentBase := by
    rw [Value.within_assigned]
    simp [doubledBase, Rhs.operands, App.operands, hbase]
  simp [Among, copyToDoubled, Stmt.roots, Stmt.operands, MachineStmt.operands, hbase, hdoubled,
    Value.within_of_leaf (v := .bool false) rfl]
  exact fun h => h.elim .inr id

/-- The base comes before its double, and both come once. -/
theorem idents_copyToDoubled : AllUnambiguous copyToDoubled.roots
    ∧ copyToDoubled.idents.toList = [7, 3]
    ∧ Gathers copyToDoubled.roots copyToDoubled.idents.toList := by
  have hc : AllUnambiguous copyToDoubled.roots := by
    intro v hv a ha w hw b hb hid
    rcases among_copyToDoubled.1 ⟨v, hv, ha⟩ with rfl | rfl <;>
      rcases among_copyToDoubled.1 ⟨w, hw, hb⟩ with rfl | rfl
    all_goals first | rfl | exact absurd hid (by decide)
  obtain ⟨hwalk, hgathers⟩ := toList_idents_eq_postorder.2.2 copyToDoubled
  refine ⟨hc, hwalk.trans ?_, (hgathers hc).1⟩
  simp [copyToDoubled, Stmt.roots, Stmt.operands, MachineStmt.operands, Value.postorder,
    doubledBase, segmentBase, addMissing, Rhs.operands, App.operands, MachineFn.operands]

end LiftedCode
