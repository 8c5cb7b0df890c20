/-
The predecessors in a graph are the successors read the other way round: an edge is
recorded at its end as often as its source has it, in order of the sources
(`transposed_of_build`). Blocks with different labels come in one order of address
only, so a graph does not tell in which order its blocks were given
(`build_eq_of_perm`).
-/
import LiftedCode.Proofs.Flow.Overlap

namespace LiftedCode.BlockMap

variable {β : Type} [FlowNode β] {blocks blocks' : List β} {m : BlockMap β} {b : β}
  {u v : Label} {us vs : List Label}

-- =============================================================== queries

/-- A block that is found is in the graph, under its label. -/
theorem of_get (h : m.get u = .ok b) : b ∈ m.blocks ∧ label b = u := by
  unfold get at h
  split at h
  case h_1 c hfind =>
    cases h
    have hlabel : (label b == u) = true := List.find?_some (p := (label · == u)) hfind
    exact ⟨List.mem_of_find?_eq_some hfind, beq_iff_eq.1 hlabel⟩
  case h_2 => contradiction

/-- The successors of a label are those of a block with this label. -/
theorem of_successors (h : m.successors u = .ok vs) :
    ∃ b ∈ m.blocks, label b = u ∧ FlowNode.successors b = vs := by
  obtain ⟨b, hb, h⟩ := ok_of_bind h
  obtain ⟨hmem, hlabel⟩ := of_get hb
  exact ⟨b, hmem, hlabel, Except.ok.inj h⟩

/-- The predecessors of a label are where the edges to it are from. -/
theorem of_predecessors (h : build blocks = .ok m) (hus : m.predecessors v = .ok us) :
    us = sources (edgesOf m.blocks) v := by
  unfold predecessors at hus
  split at hus
  case h_1 ps hps =>
    cases hus
    rw [get?_addEdges (of_build h).2] at hps
    obtain ⟨before, hbefore, rfl⟩ := Option.map_eq_some_iff.1 hps
    obtain ⟨rfl, -⟩ := get?_isolated.1 hbefore
    rfl
  case h_2 => contradiction

-- ============================================================= transpose

/-- The successors and the predecessors of a graph are the same edges: every label has
both, the predecessors in order of address, and an edge is as often among the ones as
among the others. -/
structure Transposed (m : BlockMap β) : Prop where
  successors : ∀ u ∈ m.labels, ∃ vs, m.successors u = .ok vs
  predecessors : ∀ v ∈ m.labels, ∃ us, m.predecessors v = .ok us
  ordered : ∀ v us, m.predecessors v = .ok us → us.Pairwise (· ≤ ·)
  count : ∀ u v us vs, m.predecessors v = .ok us → m.successors u = .ok vs →
    us.count u = vs.count v

theorem transposed (h : build blocks = .ok m) : m.Transposed := by
  have hperm := perm_of_build h
  have hlt := pairwise_lt_of_build h
  have hn : (m.blocks.map label).Nodup := List.pairwise_map.2 (hlt.imp Nat.ne_of_lt)
  refine ⟨fun u hu => ?_, fun v hv => ?_, fun v us hus => ?_, fun u v us vs hus hvs => ?_⟩
  · obtain ⟨b, hb, rfl⟩ := List.mem_map.1 hu
    have hget : m.get (label b) = .ok b :=
      get_of_build h ((hperm.map label).nodup_iff.1 hn) (hperm.mem_iff.1 hb)
    exact ⟨_, congrArg (· >>= _) hget⟩
  · obtain ⟨b, hb, rfl⟩ := List.mem_map.1 hv
    exact ⟨_, predecessors_of_build h (hperm.mem_iff.1 hb)⟩
  · rw [of_predecessors h hus]
    exact pairwise_sources hlt v
  · obtain ⟨b, hb, rfl, rfl⟩ := of_successors hvs
    rw [of_predecessors h hus]
    exact count_sources hn hb v

-- ============================================================== the order

/-- Blocks with different labels have one order of address. -/
theorem sorted_eq_of_perm (hn : (blocks.map label).Nodup) (h : blocks'.Perm blocks) :
    sorted blocks' = sorted blocks := by
  have hn' : (blocks'.map label).Nodup := (h.map label).nodup_iff.2 hn
  have hperm : (sorted blocks').Perm (sorted blocks) :=
    (List.mergeSort_perm _ _).trans (h.trans (List.mergeSort_perm _ _).symm)
  refine hperm.eq_of_pairwise (fun a b _ _ hab hba => ?_) (pairwise_lt_sorted.2 hn')
    (pairwise_lt_sorted.2 hn)
  exact absurd hba (Nat.lt_asymm hab)

theorem build_eq_of_perm (hn : (blocks.map label).Nodup) (h : blocks'.Perm blocks) :
    build blocks' = build blocks := by
  have hsorted := sorted_eq_of_perm hn h
  unfold sorted at hsorted
  unfold build
  rw [hsorted]

/-- In a graph the predecessors are the transpose of the successors, and the blocks in
any other order make the same graph, with the same answers to all queries. -/
theorem transposed_of_build (h : build blocks = .ok m) :
    m.Transposed ∧ ∀ blocks', blocks'.Perm blocks → build blocks' = .ok m := by
  refine ⟨transposed h, fun blocks' hperm => ?_⟩
  rw [build_eq_of_perm (exists_build_iff.1 ⟨m, h⟩).1 hperm]
  exact h

/-- A block behind another one that goes back to it on either outcome of a test. -/
def backTwice : List RoutineBlock :=
  [⟨0, 4, [], [], .jump 4, ∅⟩, ⟨4, 4, [], [], .branch (.bool true) 0 0, ∅⟩]

theorem build_backTwice : build backTwice
    = .ok ⟨backTwice, Dict.ofList [(0, [4, 4]), (4, [0])]⟩ :=
  build_of_pairwise (by decide) rfl rfl rfl

/-- Both edges of the test are recorded at their end, also if the blocks are given in the
opposite order. -/
theorem transposed_of_build_backTwice : ∃ m, build backTwice = .ok m
    ∧ build backTwice.reverse = .ok m
    ∧ m.successors 4 = .ok [0, 0]
    ∧ ∃ us, m.predecessors 0 = .ok us ∧ us.Pairwise (· ≤ ·) ∧ us.count 4 = 2 := by
  obtain ⟨htransposed, hperm⟩ := transposed_of_build build_backTwice
  obtain ⟨us, hus⟩ := htransposed.predecessors 0 List.mem_cons_self
  refine ⟨_, build_backTwice, hperm _ (List.reverse_perm _), rfl, us, hus, ?_, ?_⟩
  · exact htransposed.ordered 0 us hus
  · exact htransposed.count 4 0 us [0, 0] hus rfl

end LiftedCode.BlockMap
