/-
What the graph of a list of blocks has in it: the blocks themselves, each under
its label (`get_of_build`), and at every label the edges that lead there, once
each (`predecessors_of_build`).
-/
import LiftedCode.Flow.BlockMap
import LiftedCode.Proofs.Data.Dict
import LiftedCode.Proofs.Effect

namespace LiftedCode

/-- Under the key of a member the member is found, if no other has the key. -/
theorem find?_of_nodup {α κ : Type} [DecidableEq κ] {key : α → κ} {xs : List α} {x : α}
    (h : (xs.map key).Nodup) (hx : x ∈ xs) : xs.find? (fun y => key y == key x) = some x := by
  induction xs with
  | nil => exact absurd hx List.not_mem_nil
  | cons y ys ih =>
      rw [List.map_cons, List.nodup_cons] at h
      rw [List.find?_cons]
      rcases List.mem_cons.1 hx with rfl | hx
      · rw [beq_self_eq_true]
      · have hne : key y ≠ key x := by
          intro he
          rw [he] at h
          exact h.1 (List.mem_map.2 ⟨x, hx, rfl⟩)
        rw [beq_eq_false_iff_ne.2 hne]
        exact ih h.2 hx

/-- Members with one key are one member, if no key occurs twice. -/
theorem eq_of_nodup {α κ : Type} [DecidableEq κ] {key : α → κ} {xs : List α} {x y : α}
    (h : (xs.map key).Nodup) (hx : x ∈ xs) (hy : y ∈ xs) (he : key x = key y) : x = y := by
  have hfind := find?_of_nodup h hx
  rw [he, find?_of_nodup h hy] at hfind
  exact (Option.some.inj hfind).symm

namespace BlockMap

-- ================================================================ edges

/-- The labels from which edges lead to a label, once per edge. -/
def sources (edges : List (Label × Label)) (v : Label) : List Label :=
  (edges.filter fun e => e.2 = v).map (·.1)

theorem mem_sources {edges : List (Label × Label)} {u v : Label} :
    u ∈ sources edges v ↔ (u, v) ∈ edges := by
  unfold sources
  constructor
  · intro h
    obtain ⟨⟨u, w⟩, he, rfl⟩ := List.mem_map.1 h
    obtain ⟨he, hw⟩ := List.mem_filter.1 he
    rwa [← of_decide_eq_true hw]
  · intro h
    exact List.mem_map.2 ⟨(u, v), List.mem_filter.2 ⟨h, decide_eq_true rfl⟩, rfl⟩

section

variable {edges : List (Label × Label)} {preds preds' : Dict Label (List Label)}

/-- Each edge is recorded at its end, behind what has been recorded there. -/
theorem get?_addEdges (h : addEdges preds edges = .ok preds') (v : Label) :
    preds'.get? v = (preds.get? v).map (· ++ sources edges v) := by
  induction edges generalizing preds with
  | nil =>
      cases h
      simp [sources]
  | cons e edges ih =>
      obtain ⟨u, w⟩ := e
      unfold addEdges at h
      split at h
      case h_2 => contradiction
      case h_1 us hus =>
        rw [ih h, Dict.get?_insert]
        by_cases hw : w = v
        · subst hw
          simp [hus, sources]
        · simp [hw, sources]

/-- Edges can be recorded if all labels that they lead to are there. -/
theorem addEdges_isOk_iff : (∃ preds', addEdges preds edges = .ok preds')
    ↔ ∀ u v, (u, v) ∈ edges → ∃ us, preds.get? v = some us := by
  induction edges generalizing preds with
  | nil => exact ⟨fun _ _ _ h => absurd h List.not_mem_nil, fun _ => ⟨preds, rfl⟩⟩
  | cons e edges ih =>
      obtain ⟨u, w⟩ := e
      unfold addEdges
      split
      case h_2 hnone =>
        refine ⟨fun ⟨_, h⟩ => (nomatch h), fun h => ?_⟩
        obtain ⟨us, hus⟩ := h u w List.mem_cons_self
        exact nomatch hnone.symm.trans hus
      case h_1 us hus =>
        -- an insertion under a label that is there leaves the set of labels as it is
        have hkeys : ∀ v, (∃ vs, (preds.insert w (us ++ [u])).get? v = some vs)
            ↔ ∃ vs, preds.get? v = some vs := by
          intro v
          by_cases hv : w = v
          · subst hv
            simp [hus]
          · rw [Dict.get?_insert_of_ne hv]
        rw [ih]
        constructor
        · intro h x y hxy
          rcases List.mem_cons.1 hxy with he | hxy
          · obtain ⟨-, rfl⟩ := Prod.mk.inj he
            exact ⟨us, hus⟩
          · exact (hkeys y).1 (h x y hxy)
        · exact fun h x y hxy => (hkeys y).2 (h x y (List.mem_cons_of_mem _ hxy))

end

variable {β : Type} [FlowNode β] {blocks : List β} {m : BlockMap β}

theorem mem_edgesOf {u v : Label} :
    (u, v) ∈ edgesOf blocks ↔ ∃ b ∈ blocks, label b = u ∧ v ∈ FlowNode.successors b := by
  unfold edgesOf
  rw [List.mem_flatMap]
  refine exists_congr fun b => and_congr_right fun _ => ?_
  rw [List.mem_map]
  constructor
  · rintro ⟨s, hs, he⟩
    obtain ⟨hu, rfl⟩ := Prod.mk.inj he
    exact ⟨hu, hs⟩
  · rintro ⟨rfl, hv⟩
    exact ⟨v, hv, rfl⟩

/-- Where edges to a label are from, block by block. -/
theorem sources_edgesOf (blocks : List β) (l : Label) : sources (edgesOf blocks) l
    = blocks.flatMap fun b => List.replicate ((FlowNode.successors b).count l) (label b) := by
  have hblock : ∀ (u : Label) (ss : List Label),
      sources (ss.map fun s => (u, s)) l = List.replicate (ss.count l) u := by
    intro u ss
    induction ss with
    | nil => rfl
    | cons s ss ih =>
        rw [sources] at ih ⊢
        rw [List.map_cons, List.filter_cons, List.count_cons]
        by_cases hs : s = l
        · simp [hs, ih, List.replicate_succ]
        · simp [hs, ih]
  unfold edgesOf
  rw [sources, List.filter_flatMap, List.map_flatMap]
  exact congrArg (blocks.flatMap ·) (funext fun b => hblock (label b) _)

/-- An edge is recorded as often as it is there. -/
theorem count_sources {b : β} (hn : (blocks.map label).Nodup) (hb : b ∈ blocks) (l : Label) :
    (sources (edgesOf blocks) l).count (label b) = (FlowNode.successors b).count l := by
  rw [sources_edgesOf]
  induction blocks with
  | nil => exact absurd hb List.not_mem_nil
  | cons c blocks ih =>
      rw [List.map_cons, List.nodup_cons] at hn
      rw [List.flatMap_cons, List.count_append, List.count_replicate]
      rcases List.mem_cons.1 hb with rfl | hb
      · have hrest : label b ∉ blocks.flatMap fun b =>
            List.replicate ((FlowNode.successors b).count l) (label b) := by
          intro hm
          obtain ⟨c, hc, hm⟩ := List.mem_flatMap.1 hm
          exact hn.1 (List.mem_map.2 ⟨c, hc, (List.eq_of_mem_replicate hm).symm⟩)
        rw [if_pos (beq_self_eq_true _), List.count_eq_zero_of_not_mem hrest, Nat.add_zero]
      · have hne : label c ≠ label b := fun he => hn.1 (List.mem_map.2 ⟨b, hb, he.symm⟩)
        rw [if_neg (by rwa [beq_iff_eq]), Nat.zero_add]
        exact ih hn.2 hb

/-- Where edges are from comes in the order of the blocks. -/
theorem pairwise_sources (h : blocks.Pairwise fun a b => label a < label b) (l : Label) :
    (sources (edgesOf blocks) l).Pairwise (· ≤ ·) := by
  rw [sources_edgesOf]
  induction blocks with
  | nil => exact .nil
  | cons c blocks ih =>
      rw [List.pairwise_cons] at h
      rw [List.flatMap_cons, List.pairwise_append]
      refine ⟨List.pairwise_replicate.2 (.inr (Nat.le_refl _)), ih h.2, fun a ha b hb => ?_⟩
      obtain ⟨d, hd, hb⟩ := List.mem_flatMap.1 hb
      rw [List.eq_of_mem_replicate ha, List.eq_of_mem_replicate hb]
      exact Nat.le_of_lt (h.1 d hd)

/-- The labels of blocks, to which no edges have been recorded. -/
def isolated (blocks : List β) : Dict Label (List Label) :=
  Dict.ofList (blocks.map fun b => (label b, []))

/-- Nothing but the labels of the blocks is there, and nothing at them. -/
theorem get?_isolated {v : Label} {us : List Label} :
    (isolated blocks).get? v = some us ↔ us = [] ∧ ∃ b ∈ blocks, label b = v := by
  constructor
  · intro h
    rcases Dict.of_get?_insertAll h with hmem | hempty
    · obtain ⟨b, hb, he⟩ := List.mem_map.1 hmem
      obtain ⟨hv, rfl⟩ := Prod.mk.inj he
      exact ⟨rfl, b, hb, hv⟩
    · exact nomatch hempty
  · rintro ⟨rfl, b, hb, hv⟩
    refine Dict.get?_ofList ?_ ⟨_, List.mem_map.2 ⟨b, hb, rfl⟩, hv⟩
    intro e he _
    obtain ⟨c, -, rfl⟩ := List.mem_map.1 he
    rfl

-- ================================================================ graphs

/-- The blocks of the graph in order of address, and where its edges are from. -/
theorem of_build (h : build blocks = .ok m) :
    m.blocks = blocks.mergeSort (fun a b => label a ≤ label b)
      ∧ addEdges (isolated m.blocks) (edgesOf m.blocks) = .ok m.preds := by
  unfold build at h
  dsimp only at h
  split at h
  case h_1 => contradiction
  split at h
  case h_1 => contradiction
  obtain ⟨preds, hpreds, h⟩ := ok_of_bind h
  cases h
  exact ⟨rfl, hpreds⟩

/-- Blocks that are in order make a graph as they are. -/
theorem build_of_pairwise (h : blocks.Pairwise fun a b => label a ≤ label b)
    (hshared : sharedLabel? blocks = none) (hoverlap : overlap? blocks = none)
    {preds : Dict Label (List Label)}
    (hpreds : addEdges (isolated blocks) (edgesOf blocks) = .ok preds) :
    build blocks = .ok ⟨blocks, preds⟩ := by
  have hsorted : blocks.mergeSort (fun a b => label a ≤ label b) = blocks :=
    List.mergeSort_of_pairwise (h.imp decide_eq_true)
  unfold build
  simp only [hsorted, hshared, hoverlap]
  rw [← isolated, hpreds]
  rfl

/-- The graph has the blocks that it was built from. -/
theorem perm_of_build (h : build blocks = .ok m) : m.blocks.Perm blocks := by
  rw [(of_build h).1]
  exact List.mergeSort_perm _ _

/-- Every block is under its label. -/
theorem get_of_build (h : build blocks = .ok m) (hn : (blocks.map label).Nodup) {b : β}
    (hb : b ∈ blocks) : m.get (label b) = .ok b := by
  have hp := perm_of_build h
  have hfind : m.find? (label b) = some b :=
    find?_of_nodup ((hp.map label).nodup_iff.2 hn) (hp.mem_iff.2 hb)
  rw [get, hfind]

/-- The predecessors of a block are where the edges to it are from. -/
theorem predecessors_of_build (h : build blocks = .ok m) {b : β} (hb : b ∈ blocks) :
    m.predecessors (label b) = .ok (sources (edgesOf m.blocks) (label b)) := by
  have hlabel : (isolated m.blocks).get? (label b) = some [] :=
    get?_isolated.2 ⟨rfl, b, (perm_of_build h).mem_iff.2 hb, rfl⟩
  rw [predecessors, get?_addEdges (of_build h).2, hlabel]
  rfl

/-- Every edge of a block is recorded at its end. -/
theorem mem_predecessors (h : build blocks = .ok m) {b : β} {l : Label} (hb : b ∈ blocks)
    (hl : l ∈ FlowNode.successors b) : ∃ ps, m.predecessors l = .ok ps ∧ label b ∈ ps := by
  have hedges := (of_build h).2
  have hmem : (label b, l) ∈ edgesOf m.blocks :=
    mem_edgesOf.2 ⟨b, (perm_of_build h).mem_iff.2 hb, rfl, hl⟩
  obtain ⟨us, hus⟩ := addEdges_isOk_iff.1 ⟨_, hedges⟩ _ _ hmem
  obtain ⟨-, c, hc, rfl⟩ := get?_isolated.1 hus
  exact ⟨_, predecessors_of_build h ((perm_of_build h).mem_iff.1 hc), mem_sources.2 hmem⟩

end BlockMap

end LiftedCode
