/-
Which lists of blocks make a graph. Their labels have to be different, every
successor has to be there, and no block may begin inside another. Only
neighbours in order of address are compared, and that is enough: where blocks
in a row end before the next one begins, every block ends before all that come
after it (`overlap?_eq_none_iff`).

There is one exception. The end of a block is held back at the last address, and
so a block that begins there is not found to begin inside another. This is the
only overlap that is let pass (`build_isOk_iff`).
-/
import LiftedCode.Proofs.Flow.BlockMap
import LiftedCode.Routine
import Mathlib.Data.List.Chain
import Mathlib.Data.List.Nodup
import Mathlib.Order.MinMax

namespace LiftedCode.BlockMap

variable {β : Type} [FlowNode β] {blocks : List β} {m : BlockMap β} {a b : β}

/-- Whether a block covers an address. -/
def Covers (b : β) (x : Nat) : Prop := label b ≤ x ∧ x < label b + FlowNode.size b

/-- Whether the second of two blocks begins behind the first, but inside it. -/
def RunsInto (a b : β) : Prop := label a < label b ∧ label b < label a + FlowNode.size a

instance : Decidable (RunsInto a b) := inferInstanceAs (Decidable (_ ∧ _))

/-- Whether the first of two blocks is found to end before the second begins. -/
def EndsBefore (a b : β) : Prop :=
  Address.addSaturating (label a) (FlowNode.size a) ≤ label b

/-- Blocks in order of address. -/
def sorted (blocks : List β) : List β := blocks.mergeSort fun a b => label a ≤ label b

-- ============================================================ neighbours

/-- What runs into a block is found to, unless the block begins at the last
address. -/
theorem endsBefore_iff : EndsBefore a b
    ↔ label a + FlowNode.size a ≤ label b ∨ Address.limit ≤ label b + 1 := by
  unfold EndsBefore Address.addSaturating
  rw [min_le_iff]
  exact or_congr_right Nat.sub_le_iff_le_add

/-- The end of a block is not before its beginning, wherever that is. -/
theorem EndsBefore.trans {c : β} (h : EndsBefore a b) (h' : EndsBefore b c) : EndsBefore a c := by
  rw [endsBefore_iff] at h h' ⊢
  rcases h' with hbc | hlast
  · have hle : label b ≤ label c := Nat.le_trans (Nat.le_add_right _ _) hbc
    rcases h with hab | hlast
    · exact .inl (Nat.le_trans hab hle)
    · exact .inr (Nat.le_trans hlast (Nat.succ_le_succ hle))
  · exact .inr hlast

/-- Where no neighbours share a label, blocks in order begin one behind the
other. -/
theorem sharedLabel?_eq_none_iff (h : blocks.Pairwise fun a b => label a ≤ label b) :
    sharedLabel? blocks = none ↔ blocks.Pairwise fun a b => label a < label b := by
  induction blocks with
  | nil => simp [sharedLabel?]
  | cons a rest ih =>
      rw [List.pairwise_cons] at h ⊢
      cases rest with
      | nil => simp [sharedLabel?]
      | cons b rest =>
          rw [sharedLabel?, ← ih h.2]
          split
          case isTrue he =>
            exact ⟨nofun, fun hlt => absurd he (Nat.ne_of_lt (hlt.1 b List.mem_cons_self))⟩
          case isFalse hne =>
            have hab : label a < label b :=
              Nat.lt_of_le_of_ne (h.1 b List.mem_cons_self) hne
            refine ⟨fun hnone => ⟨fun c hc => ?_, hnone⟩, And.right⟩
            rcases List.mem_cons.1 hc with rfl | hc
            · exact hab
            · exact Nat.lt_of_lt_of_le hab ((List.pairwise_cons.1 h.2).1 c hc)

theorem overlap?_eq_none_iff_isChain : overlap? blocks = none ↔ blocks.IsChain EndsBefore := by
  induction blocks with
  | nil => simp [overlap?]
  | cons a rest ih =>
      cases rest with
      | nil => simp [overlap?]
      | cons b rest =>
          rw [List.isChain_cons_cons, ← ih, overlap?, EndsBefore]
          split
          case isTrue h => simp [Nat.not_le.2 h]
          case isFalse h => simp [Nat.not_lt.1 h]

/-- Neighbours that do not overlap are enough for all pairs. -/
theorem overlap?_eq_none_iff : overlap? blocks = none ↔ blocks.Pairwise EndsBefore := by
  have htrans : Trans (fun a b : β => EndsBefore a b) (fun a b : β => EndsBefore a b)
      (fun a b : β => EndsBefore a b) := ⟨EndsBefore.trans⟩
  rw [overlap?_eq_none_iff_isChain, List.isChain_iff_pairwise]

-- ================================================================= order

theorem mem_sorted : a ∈ sorted blocks ↔ a ∈ blocks := (List.mergeSort_perm blocks _).mem_iff

theorem pairwise_sorted : (sorted blocks).Pairwise fun a b => label a ≤ label b := by
  refine (List.pairwise_mergeSort ?_ ?_ blocks).imp fun h => of_decide_eq_true h
  · intro a b c hab hbc
    exact decide_eq_true (Nat.le_trans (of_decide_eq_true hab) (of_decide_eq_true hbc))
  · intro a b
    rw [Bool.or_eq_true, decide_eq_true_iff, decide_eq_true_iff]
    exact Nat.le_total _ _

/-- Blocks with different labels begin one behind the other. -/
theorem pairwise_lt_sorted :
    ((sorted blocks).Pairwise fun a b => label a < label b) ↔ (blocks.map label).Nodup := by
  have hperm : (sorted blocks).Perm blocks := List.mergeSort_perm _ _
  rw [← (hperm.map label).nodup_iff, List.Nodup, List.pairwise_map]
  exact ⟨List.Pairwise.imp Nat.ne_of_lt,
    fun h => pairwise_sorted.imp₂ (fun _ _ hle hne => Nat.lt_of_le_of_ne hle hne) h⟩

/-- Where labels are different, no neighbours overlap if no block runs into
another that begins before the last address. -/
theorem overlap?_sorted (h : (blocks.map label).Nodup) : overlap? (sorted blocks) = none
    ↔ ∀ a ∈ blocks, ∀ b ∈ blocks, RunsInto a b → Address.limit ≤ label b + 1 := by
  have hlt := pairwise_lt_sorted.2 h
  rw [overlap?_eq_none_iff]
  constructor
  · intro hends a ha b hb hruns
    -- of two blocks it is always the first in order that ends before the other
    have hpairs : (sorted blocks).Pairwise fun a b =>
        (label a < label b → EndsBefore a b) ∧ (label b < label a → EndsBefore b a) :=
      hlt.imp₂ (fun _ _ hlt hends => ⟨fun _ => hends, fun h => absurd hlt (Nat.lt_asymm h)⟩) hends
    have hsymm : Std.Symm fun a b : β =>
        (label a < label b → EndsBefore a b) ∧ (label b < label a → EndsBefore b a) :=
      ⟨fun _ _ => And.symm⟩
    have hall := hpairs.forall_of_forall (fun _ _ => ⟨fun h => absurd h (Nat.lt_irrefl _),
      fun h => absurd h (Nat.lt_irrefl _)⟩) (mem_sorted.2 ha) (mem_sorted.2 hb)
    rcases endsBefore_iff.1 (hall.1 hruns.1) with hend | hlast
    · exact absurd hruns.2 (Nat.not_lt.2 hend)
    · exact hlast
  · intro hruns
    refine hlt.imp_of_mem fun {a b} ha hb hab => endsBefore_iff.2 ?_
    by_cases hend : label b < label a + FlowNode.size a
    · exact .inr (hruns a (mem_sorted.1 ha) b (mem_sorted.1 hb) ⟨hab, hend⟩)
    · exact .inl (Nat.not_lt.1 hend)

-- ================================================================ graphs

/-- All edges can be recorded if every successor is there. -/
theorem addEdges_sorted :
    (∃ preds, addEdges (isolated (sorted blocks)) (edgesOf (sorted blocks)) = .ok preds)
      ↔ ∀ b ∈ blocks, ∀ l ∈ FlowNode.successors b, ∃ c ∈ blocks, label c = l := by
  rw [addEdges_isOk_iff]
  constructor
  · intro h b hb l hl
    obtain ⟨us, hus⟩ := h _ l (mem_edgesOf.2 ⟨b, mem_sorted.2 hb, rfl, hl⟩)
    obtain ⟨-, c, hc, hlabel⟩ := get?_isolated.1 hus
    exact ⟨c, mem_sorted.1 hc, hlabel⟩
  · intro h u l hedge
    obtain ⟨b, hb, -, hl⟩ := mem_edgesOf.1 hedge
    obtain ⟨c, hc, hlabel⟩ := h b (mem_sorted.1 hb) l hl
    exact ⟨[], get?_isolated.2 ⟨rfl, c, mem_sorted.2 hc, hlabel⟩⟩

/-- The stages of building a graph. -/
theorem build_isOk_iff_stages : (∃ m, build blocks = .ok m)
    ↔ sharedLabel? (sorted blocks) = none ∧ overlap? (sorted blocks) = none
      ∧ ∃ preds, addEdges (isolated (sorted blocks)) (edgesOf (sorted blocks)) = .ok preds := by
  constructor
  · rintro ⟨m, h⟩
    have hedges := of_build h
    unfold build at h
    dsimp only at h
    split at h
    case h_1 => contradiction
    case h_2 hshared =>
      split at h
      case h_1 => contradiction
      case h_2 hoverlap =>
        rw [hedges.1] at hedges
        exact ⟨hshared, hoverlap, _, hedges.2⟩
  · rintro ⟨hshared, hoverlap, preds, hedges⟩
    unfold build
    unfold sorted at hshared hoverlap hedges
    simp only [hshared, hoverlap]
    exact ⟨_, congrArg (· >>= _) hedges⟩

theorem exists_build_iff : (∃ m, build blocks = .ok m) ↔ (blocks.map label).Nodup
    ∧ (∀ b ∈ blocks, ∀ l ∈ FlowNode.successors b, ∃ c ∈ blocks, label c = l)
    ∧ ∀ a ∈ blocks, ∀ b ∈ blocks, RunsInto a b → Address.limit ≤ label b + 1 := by
  rw [build_isOk_iff_stages, sharedLabel?_eq_none_iff pairwise_sorted, pairwise_lt_sorted,
    addEdges_sorted]
  refine and_congr_right fun hn => ?_
  rw [overlap?_sorted hn, and_comm]

/-- Blocks with different labels, whose successors are all there, make no graph only if
some of them overlap. -/
theorem overlapping_of_build {e : CodeError} (hn : (blocks.map label).Nodup)
    (hclosed : ∀ b ∈ blocks, ∀ l ∈ FlowNode.successors b, ∃ c ∈ blocks, label c = l)
    (h : build blocks = .error e) : ∃ l m, e = .overlappingBlocks l m := by
  have hshared : sharedLabel? (sorted blocks) = none :=
    (sharedLabel?_eq_none_iff pairwise_sorted).2 (pairwise_lt_sorted.2 hn)
  cases hoverlap : overlap? (sorted blocks) with
  | none =>
      obtain ⟨m, hm⟩ := build_isOk_iff_stages.2 ⟨hshared, hoverlap, addEdges_sorted.2 hclosed⟩
      rw [hm] at h
      nomatch h
  | some p =>
      unfold sorted at hshared hoverlap
      unfold build at h
      simp only [hshared, hoverlap] at h
      exact ⟨p.1, p.2, (Except.error.inj h).symm⟩

/-- The blocks of a graph begin one behind the other. -/
theorem pairwise_lt_of_build (h : build blocks = .ok m) :
    m.blocks.Pairwise fun a b => label a < label b := by
  have hblocks : m.blocks = sorted blocks := (of_build h).1
  rw [hblocks]
  exact pairwise_lt_sorted.2 (exists_build_iff.1 ⟨m, h⟩).1

/-- Of two blocks of a graph that share an address, the one that begins first
runs into the other. -/
theorem last_of_covers (h : build blocks = .ok m) (ha : a ∈ m.blocks) (hb : b ∈ m.blocks) {x : Nat}
    (hax : Covers a x) (hbx : Covers b x) (hlt : label a < label b) : Address.limit ≤ x + 1 := by
  obtain ⟨-, -, hruns⟩ := exists_build_iff.1 ⟨m, h⟩
  have hperm := perm_of_build h
  have hlast := hruns a (hperm.mem_iff.1 ha) b (hperm.mem_iff.1 hb)
    ⟨hlt, Nat.lt_of_le_of_lt hbx.1 hax.2⟩
  exact Nat.le_trans hlast (Nat.succ_le_succ hbx.1)

/-- Blocks make a graph exactly if their labels are different, all successors
are there, and none runs into another, unless this one begins at the last
address. In a graph no address but the last belongs to two blocks. -/
theorem build_isOk_iff (blocks : List β) :
    ((∃ m, build blocks = .ok m) ↔ (blocks.map label).Nodup
        ∧ (∀ b ∈ blocks, ∀ l ∈ FlowNode.successors b, ∃ c ∈ blocks, label c = l)
        ∧ ∀ a ∈ blocks, ∀ b ∈ blocks, RunsInto a b → Address.limit ≤ label b + 1)
      ∧ ∀ m, build blocks = .ok m → ∀ a ∈ m.blocks, ∀ b ∈ m.blocks, ∀ x,
        Covers a x → Covers b x → a = b ∨ Address.limit ≤ x + 1 := by
  refine ⟨exists_build_iff, fun m h a ha b hb x hax hbx => ?_⟩
  have hperm := perm_of_build h
  rcases Nat.lt_trichotomy (label a) (label b) with hlt | he | hgt
  · exact .inr (last_of_covers h ha hb hax hbx hlt)
  · have hn := (exists_build_iff.1 ⟨m, h⟩).1
    exact .inl (eq_of_nodup hn (hperm.mem_iff.1 ha) (hperm.mem_iff.1 hb) he)
  · exact .inr (last_of_covers h hb ha hbx hax hgt)

/-- A block that returns. -/
def returnBlock (l : Label) (size : Nat) : RoutineBlock := ⟨l, size, [], [], .ret [], ∅⟩

/-- Blocks next to each other make a graph, one of no size among them; they do
not if one is a byte longer. -/
theorem build_isOk_neighbours :
    (∃ m, build [returnBlock 8 4, returnBlock 4 4, returnBlock 2 0, returnBlock 0 2] = .ok m)
      ∧ ¬∃ m, build [returnBlock 8 4, returnBlock 4 5] = .ok m := by
  constructor
  · exact (build_isOk_iff _).1.2 (by decide)
  · intro h
    exact absurd ((build_isOk_iff _).1.1 h) (by decide)

/-- A block that begins at the last address makes a graph with one that covers
this address, too. -/
theorem build_overlapping :
    (∃ m, build [returnBlock 1 (Address.limit - 1), returnBlock (Address.limit - 1) 1] = .ok m)
      ∧ RunsInto (returnBlock 1 (Address.limit - 1)) (returnBlock (Address.limit - 1) 1)
      ∧ Covers (returnBlock 1 (Address.limit - 1)) (Address.limit - 1)
      ∧ Covers (returnBlock (Address.limit - 1) 1) (Address.limit - 1) := by
  refine ⟨exists_build_iff.2 (by decide), by decide, ?_, ?_⟩
  · exact ⟨by decide, by decide⟩
  · exact ⟨Nat.le_refl _, by decide⟩

end LiftedCode.BlockMap
