/-
The order of a search. What `search` does with a stack of blocks is a recursive
depth-first search (`postorder`), step by step (`search_eq`), and so its result
is the postorder of that search, read backwards.

# Which blocks

The search goes where edges lead and nowhere else (`reaches_of_mem`), no block
is left twice (`nodup_postorder`), and what a block that was left leads to was
visited before or is left, too (`back_of_edge`). From one entry on, these are
the blocks that can be reached.

# In which order

A successor of a block is left before the block, unless it was visited before
the search came to the block. Then it is a block that the search has yet to
leave, and everything that is left before that can be reached from it. This is
the invariant of `back_of_edge`: an edge that does not lead to what was left
earlier leads back on a cycle.
-/
import LiftedCode.Flow.Postorder
import LiftedCode.Proofs.Flow.Overlap
import Mathlib.Data.List.Permutation
import Mathlib.Logic.Relation

namespace LiftedCode.BlockMap

open Relation (ReflTransGen TransGen)

variable {β : Type} [FlowNode β]

-- ============================================================= the search

/-- What has been visited counts, and not how often. -/
theorem unvisited_append_le (m : BlockMap β) (ls visited : List Label) :
    m.unvisited (ls ++ visited) ≤ m.unvisited visited := by
  refine List.countP_mono_left fun b _ hb => ?_
  simp only [decide_eq_true_eq, List.mem_append, not_or] at hb ⊢
  exact hb.2

/-- The blocks that a recursive search from some labels visits, in the order in
which it leaves them. The labels are taken from left to right. What was visited
is passed over, as is what has no block, and any other block is left after its
successors have been searched. -/
def postorder (m : BlockMap β) (visited : List Label) : List Label → List Label
  | [] => []
  | l :: ls =>
    if _h : l ∈ visited then m.postorder visited ls
    else match _hb : m.find? l with
      | some b =>
        let below := m.postorder (l :: visited) (FlowNode.successors b)
        below ++ l :: m.postorder (below ++ l :: visited) ls
      | none => m.postorder visited ls
termination_by ls => (m.unvisited visited, ls.length)
decreasing_by
  · exact Prod.Lex.right _ (Nat.lt_succ_self _)
  · exact Prod.Lex.left _ _ (unvisited_cons_lt _hb _h)
  · refine Prod.Lex.left _ _ (Nat.lt_of_le_of_lt ?_ (unvisited_cons_lt _hb _h))
    exact unvisited_append_le m _ _
  · exact Prod.Lex.right _ (Nat.lt_succ_self _)

@[simp] theorem postorder_nil (m : BlockMap β) (visited : List Label) :
    m.postorder visited [] = [] := by rw [postorder]

/-- A step from a block to one of its successors. -/
def Edge (m : BlockMap β) (u v : Label) : Prop :=
  ∃ b ∈ m.blocks, label b = u ∧ v ∈ FlowNode.successors b

/-- There is a path, of any length, from one label to another. -/
abbrev Reaches (m : BlockMap β) (u v : Label) : Prop := ReflTransGen m.Edge u v

variable {blocks : List β} {m : BlockMap β} {visited ls : List Label} {l u v entry : Label} {b : β}

theorem mem_of_find? (h : m.find? l = some b) : b ∈ m.blocks ∧ label b = l :=
  ⟨List.mem_of_find?_eq_some h, by simpa using List.find?_some h⟩

/-- The successors of the block that is found are where the edges lead. -/
theorem edge_iff (hn : m.labels.Nodup) (h : m.find? u = some b) :
    m.Edge u v ↔ v ∈ FlowNode.successors b := by
  obtain ⟨hb, hlabel⟩ := mem_of_find? h
  constructor
  · rintro ⟨c, hc, hcu, hv⟩
    rwa [eq_of_nodup hn hb hc (hlabel.trans hcu.symm)]
  · exact fun hv => ⟨b, hb, hlabel, hv⟩

/-- The block that is searched from alone is left last. -/
theorem postorder_singleton (h : m.find? l = some b) :
    m.postorder [] [l] = m.postorder [l] (FlowNode.successors b) ++ [l] := by
  rw [postorder, dif_neg List.not_mem_nil]
  split
  case h_2 hnone => exact nomatch hnone.symm.trans h
  case h_1 c hc =>
    obtain rfl : b = c := Option.some.inj (h.symm.trans hc)
    dsimp only
    rw [postorder_nil]

/-- Where the search goes, edges lead from where it started, and it has not
been there before. -/
theorem reaches_of_mem (h : v ∈ m.postorder visited ls) :
    v ∉ visited ∧ ∃ l ∈ ls, m.Reaches l v := by
  fun_induction postorder m visited ls with
  | case1 => exact absurd h List.not_mem_nil
  | case2 visited l ls hl ih =>
      obtain ⟨hv, k, hk, hreach⟩ := ih h
      exact ⟨hv, k, List.mem_cons_of_mem l hk, hreach⟩
  | case3 visited l ls hl b hb below ih₁ ih₂ =>
      obtain ⟨hmem, hlabel⟩ := mem_of_find? hb
      rcases List.mem_append.1 h with h | h
      · obtain ⟨hv, k, hk, hreach⟩ := ih₁ h
        exact ⟨fun hc => hv (List.mem_cons_of_mem l hc), l, List.mem_cons_self,
          .head ⟨b, hmem, hlabel, hk⟩ hreach⟩
      rcases List.mem_cons.1 h with rfl | h
      · exact ⟨hl, v, List.mem_cons_self, .refl⟩
      · obtain ⟨hv, k, hk, hreach⟩ := ih₂ h
        refine ⟨fun hc => hv ?_, k, List.mem_cons_of_mem l hk, hreach⟩
        exact List.mem_append_right _ (List.mem_cons_of_mem l hc)
  | case4 visited l ls hl hb ih =>
      obtain ⟨hv, k, hk, hreach⟩ := ih h
      exact ⟨hv, k, List.mem_cons_of_mem l hk, hreach⟩

/-- No block is left twice. -/
theorem nodup_postorder : (m.postorder visited ls).Nodup := by
  fun_induction postorder m visited ls with
  | case1 => exact List.nodup_nil
  | case2 visited l ls hl ih => exact ih
  | case3 visited l ls hl b hb below ih₁ ih₂ =>
      rw [List.nodup_append, List.nodup_cons]
      refine ⟨ih₁, ⟨fun h => ?_, ih₂⟩, fun x hx y hy hxy => ?_⟩
      · exact (reaches_of_mem h).1 (List.mem_append_right _ List.mem_cons_self)
      · subst hxy
        rcases List.mem_cons.1 hy with rfl | hy
        · exact (reaches_of_mem hx).1 List.mem_cons_self
        · exact (reaches_of_mem hy).1 (List.mem_append_left _ hx)
  | case4 visited l ls hl hb ih => exact ih

/-- Every label to search from was visited, or its block is left. -/
theorem mem_postorder (hl : l ∈ ls) (hb : l ∈ m.labels) :
    l ∈ visited ∨ l ∈ m.postorder visited ls := by
  fun_induction postorder m visited ls with
  | case1 => exact absurd hl List.not_mem_nil
  | case2 visited k ls hk ih =>
      rcases List.mem_cons.1 hl with rfl | hl
      · exact .inl hk
      · exact ih hl
  | case3 visited k ls hk b hb below ih₁ ih₂ =>
      rcases List.mem_cons.1 hl with rfl | hl
      · exact .inr (List.mem_append_right _ List.mem_cons_self)
      rcases ih₂ hl with h | h
      · rcases List.mem_append.1 h with h | h
        · exact .inr (List.mem_append_left _ h)
        · rcases List.mem_cons.1 h with rfl | h
          · exact .inr (List.mem_append_right _ List.mem_cons_self)
          · exact .inl h
      · exact .inr (List.mem_append_right _ (List.mem_cons_of_mem k h))
  | case4 visited k ls hk hnone ih =>
      rcases List.mem_cons.1 hl with rfl | hl
      · obtain ⟨b, hb, hlabel⟩ := List.mem_map.1 hb
        exact absurd hlabel (by simpa using List.find?_eq_none.1 hnone b hb)
      · exact ih hl

/-- Every successor is there. -/
def Closed (m : BlockMap β) : Prop := ∀ u v, m.Edge u v → v ∈ m.labels

/-- Where an edge leads to is visited before the search, or left before its
source, or it is on a cycle with it. -/
theorem back_of_edge (hn : m.labels.Nodup) (hc : m.Closed) (hu : u ∈ m.postorder visited ls)
    (he : m.Edge u v) : v ∈ visited ∨ [v, u].Sublist (m.postorder visited ls)
      ∨ v ∈ m.postorder visited ls ∧ m.Reaches v u := by
  fun_induction postorder m visited ls with
  | case1 => exact absurd hu List.not_mem_nil
  | case2 visited l ls hl ih => exact ih hu
  | case3 visited l ls hl b hb below ih₁ ih₂ =>
      obtain ⟨hmem, hlabel⟩ := mem_of_find? hb
      rcases List.mem_append.1 hu with hu | hu
      · rcases ih₁ hu with h | h | ⟨hv, hreach⟩
        · rcases List.mem_cons.1 h with rfl | h
          · -- the block that is being searched leads to all that is left below it
            obtain ⟨-, k, hk, hreach⟩ := reaches_of_mem hu
            refine .inr (.inr ⟨List.mem_append_right _ List.mem_cons_self, ?_⟩)
            exact .head ⟨b, hmem, hlabel, hk⟩ hreach
          · exact .inl h
        · exact .inr (.inl (h.trans (List.sublist_append_left _ _)))
        · exact .inr (.inr ⟨List.mem_append_left _ hv, hreach⟩)
      rcases List.mem_cons.1 hu with rfl | hu
      · have hv := (edge_iff hn hb).1 he
        rcases @mem_postorder _ _ m (u :: visited) _ _ hv (hc u v he) with h | h
        · rcases List.mem_cons.1 h with rfl | h
          · exact .inr (.inr ⟨List.mem_append_right _ List.mem_cons_self, .refl⟩)
          · exact .inl h
        · exact .inr (.inl ((List.singleton_sublist.2 h).append
            (List.singleton_sublist.2 List.mem_cons_self)))
      · rcases ih₂ hu with h | h | ⟨hv, hreach⟩
        · rw [List.append_cons, List.mem_append] at h
          rcases h with h | h
          · rw [List.append_cons]
            exact .inr (.inl ((List.singleton_sublist.2 h).append (List.singleton_sublist.2 hu)))
          · exact .inl h
        · exact .inr (.inl ((h.cons l).trans (List.sublist_append_right _ _)))
        · exact .inr (.inr ⟨List.mem_append_right _ (List.mem_cons_of_mem l hv), hreach⟩)
  | case4 visited l ls hl hb ih => exact ih hu

-- ====================================================== with a stack

/-- What is done with the block on top of a stack is the recursive search from
the successors that it has still to try. -/
theorem search_eq (hc : m.Closed) {seen : List Label} (hseen : ∀ x, x ∈ seen ↔ x ∈ visited)
    (hls : ∀ l ∈ ls, l ∈ m.labels) (u : Label) (rest : List (Label × List Label))
    (left : List Label) : ∃ seen', (∀ x, x ∈ seen' ↔ x ∈ m.postorder visited ls ∨ x ∈ visited)
      ∧ m.search ((u, ls) :: rest) seen left
        = m.search rest seen' (u :: ((m.postorder visited ls).reverse ++ left)) := by
  fun_induction postorder m visited ls generalizing seen u rest left with
  | case1 =>
      refine ⟨seen, fun x => ?_, by rw [search]; rfl⟩
      rw [hseen]
      exact ⟨.inr, fun h => h.resolve_left List.not_mem_nil⟩
  | case2 visited l ls hl ih =>
      obtain ⟨seen', hmem, hrun⟩ :=
        ih hseen (fun k hk => hls k (List.mem_cons_of_mem l hk)) u rest left
      refine ⟨seen', hmem, ?_⟩
      rw [search, dif_pos ((hseen l).2 hl), hrun]
  | case3 visited l ls hl b hb below ih₁ =>
      rename_i ih₂
      have hbelow : ∀ k ∈ FlowNode.successors b, k ∈ m.labels := fun k hk =>
        hc l k ⟨b, (mem_of_find? hb).1, (mem_of_find? hb).2, hk⟩
      have hseen₁ : ∀ x, x ∈ l :: seen ↔ x ∈ l :: visited := fun x => by
        rw [List.mem_cons, List.mem_cons, hseen]
      obtain ⟨seen₁, hmem₁, hrun₁⟩ := ih₁ hseen₁ hbelow l ((u, ls) :: rest) left
      have hseen₂ : ∀ x, x ∈ seen₁ ↔ x ∈ below ++ l :: visited := fun x => by
        rw [hmem₁, List.mem_append]
      obtain ⟨seen₂, hmem₂, hrun₂⟩ := ih₂ hseen₂ (fun k hk => hls k (List.mem_cons_of_mem l hk))
        u rest (l :: (below.reverse ++ left))
      refine ⟨seen₂, fun x => ?_, ?_⟩
      · rw [hmem₂]
        simp only [List.mem_append, List.mem_cons]
        tauto
      · rw [search, dif_neg (fun h => hl ((hseen l).1 h))]
        split
        case h_2 hnone =>
          rw [hb] at hnone
          contradiction
        case h_1 c hfound =>
          obtain rfl : c = b := Option.some.inj (hfound.symm.trans hb)
          rw [hrun₁, hrun₂, List.reverse_append, List.reverse_cons, List.append_assoc,
            List.append_assoc, List.singleton_append]
  | case4 visited l ls hl hb ih =>
      obtain ⟨b, hmem, hlabel⟩ := List.mem_map.1 (hls l List.mem_cons_self)
      exact absurd hlabel (by simpa using List.find?_eq_none.1 hb b hmem)

-- ============================================================ the orders

theorem closed_of_build (h : build blocks = .ok m) : m.Closed := by
  rintro u v ⟨b, hb, -, hv⟩
  have hperm := perm_of_build h
  obtain ⟨c, hc, hlabel⟩ := (exists_build_iff.1 ⟨m, h⟩).2.1 b (hperm.mem_iff.1 hb) v hv
  exact List.mem_map.2 ⟨c, hperm.mem_iff.2 hc, hlabel⟩

theorem pairwise_lt_labels (h : build blocks = .ok m) : m.labels.Pairwise (· < ·) :=
  List.pairwise_map.2 (pairwise_lt_of_build h)

theorem nodup_labels_of_build (h : build blocks = .ok m) : m.labels.Nodup :=
  (pairwise_lt_labels h).imp Nat.ne_of_lt

/-- The result of the search from an entry is its postorder, read backwards. -/
theorem reversePostorder_eq (h : build blocks = .ok m) (he : entry ∈ m.labels) :
    m.reversePostorder entry = .ok (m.postorder [] [entry]).reverse := by
  obtain ⟨b, hb, rfl⟩ := List.mem_map.1 he
  have hfind : m.find? (label b) = some b := find?_of_nodup (nodup_labels_of_build h) hb
  have hsucc : m.successors (label b) = .ok (FlowNode.successors b) := by
    rw [successors, get, hfind]
    rfl
  have hall : ∀ k ∈ FlowNode.successors b, k ∈ m.labels := fun k hk =>
    closed_of_build h _ k ⟨b, hb, rfl, hk⟩
  obtain ⟨seen, -, hrun⟩ :=
    search_eq (closed_of_build h) (fun x => Iff.rfl) hall (label b) [] []
  rw [reversePostorder, hsucc, ok_bind, hrun, search, postorder_singleton hfind,
    List.reverse_append, List.append_nil]
  rfl

/-- What comes first of two in a list without repetitions is at the smaller
place. -/
theorem idxOf_lt_of_sublist {order : List Label} (hn : order.Nodup) (h : [u, v].Sublist order) :
    order.idxOf u < order.idxOf v := by
  induction order with
  | nil => cases h
  | cons k ks ih =>
      rw [List.nodup_cons] at hn
      cases h with
      | cons _ h =>
          have hu : k ≠ u := fun hk => hn.1 (hk ▸ h.subset List.mem_cons_self)
          have hv : k ≠ v := fun hk =>
            hn.1 (hk ▸ h.subset (List.mem_cons_of_mem u List.mem_cons_self))
          rw [List.idxOf_cons_ne ks hu, List.idxOf_cons_ne ks hv]
          exact Nat.succ_lt_succ (ih hn.2 h)
      | cons_cons _ h =>
          have hv : u ≠ v := fun hk => hn.1 (hk ▸ h.subset List.mem_cons_self)
          rw [List.idxOf_cons_self, List.idxOf_cons_ne ks hv]
          exact Nat.succ_pos _

/-- An order of the blocks that can be reached from an entry. An edge leads
forward in it, unless it is on a cycle. -/
structure Arranged (m : BlockMap β) (entry : Label) (order : List Label) : Prop where
  mem : ∀ l, l ∈ order ↔ m.Reaches entry l
  nodup : order.Nodup
  first : order.head? = some entry
  back : ∀ u v, m.Reaches entry u → m.Edge u v → ¬order.idxOf u < order.idxOf v → m.Reaches v u

/-- Where there are no cycles, all edges lead forward. -/
theorem Arranged.forward {order : List Label} (h : m.Arranged entry order)
    (hacyclic : ∀ l, ¬TransGen m.Edge l l) (hu : m.Reaches entry u) (he : m.Edge u v) :
    order.idxOf u < order.idxOf v := by
  by_contra hnot
  exact hacyclic u (TransGen.head' he (h.back u v hu he hnot))

/-- The postorder from an entry, read backwards, is such an order. -/
theorem arranged_postorder (h : build blocks = .ok m) (he : entry ∈ m.labels) :
    m.Arranged entry (m.postorder [] [entry]).reverse := by
  have hn := nodup_labels_of_build h
  have hc := closed_of_build h
  have hentry : entry ∈ m.postorder [] [entry] :=
    (mem_postorder List.mem_cons_self he).resolve_left List.not_mem_nil
  have hmem : ∀ l, l ∈ m.postorder [] [entry] ↔ m.Reaches entry l := by
    intro l
    constructor
    · intro hl
      obtain ⟨-, k, hk, hreach⟩ := reaches_of_mem hl
      rwa [List.mem_singleton.1 hk] at hreach
    · intro hl
      induction hl with
      | refl => exact hentry
      | tail _ hedge ih =>
          rcases back_of_edge hn hc ih hedge with hv | hv | ⟨hv, -⟩
          · exact absurd hv List.not_mem_nil
          · exact hv.subset List.mem_cons_self
          · exact hv
  have hnodup : (m.postorder [] [entry]).reverse.Nodup := List.nodup_reverse.2 nodup_postorder
  refine ⟨fun l => List.mem_reverse.trans (hmem l), hnodup, ?_, fun u v hu hedge hnot => ?_⟩
  · obtain ⟨b, hb, rfl⟩ := List.mem_map.1 he
    rw [postorder_singleton (find?_of_nodup hn hb), List.reverse_append]
    rfl
  · rcases back_of_edge hn hc ((hmem u).2 hu) hedge with hv | hv | ⟨-, hreach⟩
    · exact absurd hv List.not_mem_nil
    · exact absurd (idxOf_lt_of_sublist hnodup hv.reverse) hnot
    · exact hreach

/-- In a graph, the search from an entry ends with the postorder of the recursive
search, read backwards. The entry is in front, every block that can be reached
is there once, and edges lead forward unless they are on a cycle. The other
blocks are those that cannot be reached. -/
theorem reversePostorder_arranged (h : build blocks = .ok m) (he : entry ∈ m.labels) :
    ∃ order, m.reversePostorder entry = .ok order ∧ order = (m.postorder [] [entry]).reverse
      ∧ m.Arranged entry order
      ∧ ((∀ l, ¬TransGen m.Edge l l) → ∀ u v, m.Reaches entry u → m.Edge u v →
        order.idxOf u < order.idxOf v)
      ∧ ∃ others, m.unreachable entry = .ok others ∧ others.Pairwise (· < ·)
        ∧ ∀ l, l ∈ others ↔ l ∈ m.labels ∧ ¬m.Reaches entry l := by
  have harranged := arranged_postorder h he
  refine ⟨_, reversePostorder_eq h he, rfl, harranged,
    fun hacyclic u v hu hedge => harranged.forward hacyclic hu hedge, ?_⟩
  refine ⟨m.labels.filter (· ∉ (m.postorder [] [entry]).reverse), ?_, ?_, fun l => ?_⟩
  · rw [unreachable, reversePostorder_eq h he]
    rfl
  · exact (pairwise_lt_labels h).filter _
  · rw [List.mem_filter, decide_eq_true_iff, harranged.mem]

/-- A block with the given successors. -/
def junction (l : Label) (next : List Label) : RoutineBlock :=
  ⟨l, 4, [], [], .table (.bool true) next, ∅⟩

/-- There are two ways to the block 8, which leads to itself, and none to the
block 16. -/
def loopMap : BlockMap RoutineBlock :=
  ⟨[junction 0 [4, 8], junction 4 [8], junction 8 [8], junction 16 []],
    Dict.ofList [(0, []), (4, [0]), (8, [0, 4, 8]), (16, [])]⟩

/-- The only edge that does not lead forward is the one from 8 to itself. -/
theorem reversePostorder_arranged_loop :
    build [junction 8 [8], junction 0 [4, 8], junction 4 [8], junction 16 []] = .ok loopMap
      ∧ loopMap.reversePostorder 0 = .ok [0, 4, 8] ∧ loopMap.Arranged 0 [0, 4, 8]
      ∧ loopMap.unreachable 0 = .ok [16] ∧ ¬loopMap.Reaches 0 16 := by
  have hbuild : build [junction 8 [8], junction 0 [4, 8], junction 4 [8], junction 16 []]
      = .ok loopMap := by cbv
  have hrun : loopMap.reversePostorder 0 = .ok [0, 4, 8] := by cbv
  have hothers : loopMap.unreachable 0 = .ok [16] := by cbv
  have hentry : 0 ∈ loopMap.labels := by decide
  obtain ⟨order, horder, -, harranged, -, others, hrest, -, hmem⟩ :=
    reversePostorder_arranged hbuild hentry
  obtain rfl : order = [0, 4, 8] := Except.ok.inj (horder.symm.trans hrun)
  obtain rfl : others = [16] := Except.ok.inj (hrest.symm.trans hothers)
  exact ⟨hbuild, hrun, harranged, hothers, ((hmem 16).1 List.mem_cons_self).2⟩

end LiftedCode.BlockMap
