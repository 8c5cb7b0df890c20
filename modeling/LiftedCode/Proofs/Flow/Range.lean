/-
Which block covers an address, and which ranges all blocks cover. In a graph
whose blocks end at 64-bit addresses every block ends before the next one begins
(`endsBy_of_lt`), so the last block that begins at an address or before it is the
only one that can cover the address.

Ranges are put together block by block, each block behind the last range or right
at its end. What has been put together so far has a gap between any two ranges
and covers what its parts cover (`Merged`), and one more block keeps this
(`Merged.append`).
-/
import LiftedCode.Flow.Range
import LiftedCode.Proofs.Flow.Overlap
import Mathlib.Data.List.TakeWhile

namespace LiftedCode.BlockMap

variable {β : Type} [FlowNode β] {blocks : List β} {m : BlockMap β} {a b : β}

-- ================================================================== ends

/-- Whether the ends of all blocks are 64-bit addresses. -/
def EndsFit (m : BlockMap β) : Prop :=
  ∀ b ∈ m.blocks, label b + FlowNode.size b < Address.limit

theorem EndsFit.endOf (h : m.EndsFit) (hb : b ∈ m.blocks) :
    endOf b = .ok (label b + FlowNode.size b) := if_pos (decide_eq_true (h b hb))

/-- Where the ends of blocks are 64-bit addresses, a block ends before another one
begins behind it. -/
theorem endsBy_of_lt (h : build blocks = .ok m) (hfit : m.EndsFit) (ha : a ∈ m.blocks)
    (hb : b ∈ m.blocks) (hlt : label a < label b) : label a + FlowNode.size a ≤ label b := by
  obtain ⟨-, -, hruns⟩ := exists_build_iff.1 ⟨m, h⟩
  have hperm := perm_of_build h
  refine Nat.not_lt.1 fun hinto => ?_
  -- only a block at the last address may be run into, and from beyond that address
  have hlast := hruns a (hperm.mem_iff.1 ha) b (hperm.mem_iff.1 hb) ⟨hlt, hinto⟩
  exact absurd (hfit a ha) (Nat.not_lt.2 (Nat.le_trans hlast hinto))

/-- No two blocks cover an address. -/
theorem eq_of_covers (h : build blocks = .ok m) (hfit : m.EndsFit) (ha : a ∈ m.blocks)
    (hb : b ∈ m.blocks) {x : Nat} (hax : Covers a x) (hbx : Covers b x) : a = b := by
  rcases (build_isOk_iff blocks).2 m h a ha b hb x hax hbx with he | hlast
  · exact he
  · exact absurd (hfit a ha) (Nat.not_lt.2 (Nat.le_trans hlast hax.2))

-- ============================================================= addresses

/-- Of blocks in order of address, those that begin at an address or before it. -/
theorem mem_takeWhile {l : List β} (hl : l.Pairwise fun a b => label a < label b) {x : Nat} :
    b ∈ l.takeWhile (label · ≤ x) ↔ b ∈ l ∧ label b ≤ x := by
  constructor
  · intro hb
    have hx := List.mem_takeWhile_imp (p := (label · ≤ x)) hb
    exact ⟨(List.takeWhile_sublist _).subset hb, of_decide_eq_true hx⟩
  · rintro ⟨hb, hx⟩
    induction l with
    | nil => exact absurd hb List.not_mem_nil
    | cons a l ih =>
        obtain ⟨hfirst, hl⟩ := List.pairwise_cons.1 hl
        rcases List.mem_cons.1 hb with rfl | hb
        · rw [List.takeWhile_cons, if_pos (decide_eq_true hx)]
          exact List.mem_cons_self
        · have ha : label a ≤ x := Nat.le_trans (Nat.le_of_lt (hfirst b hb)) hx
          rw [List.takeWhile_cons, if_pos (decide_eq_true ha)]
          exact List.mem_cons_of_mem a (ih hl hb)

/-- The block that is found for an address covers it, and if none is found none
does. -/
theorem containing_spec (h : build blocks = .ok m) (hfit : m.EndsFit) (x : Nat) :
    ∃ found, m.containing x = .ok found
      ∧ (∀ b, found = some b → b ∈ m.blocks ∧ Covers b x)
      ∧ (found = none → ∀ b ∈ m.blocks, ¬ Covers b x) := by
  have hl := pairwise_lt_of_build h
  unfold containing
  cases hlast : (m.blocks.takeWhile (label · ≤ x)).getLast? with
  | none =>
      refine ⟨none, rfl, nofun, fun _ b hb hx => ?_⟩
      have hmem := (mem_takeWhile hl).2 ⟨hb, hx.1⟩
      rw [List.getLast?_eq_none_iff.1 hlast] at hmem
      exact absurd hmem List.not_mem_nil
  | some a =>
      obtain ⟨before, hbefore⟩ := List.getLast?_eq_some_iff.1 hlast
      have ha : a ∈ m.blocks ∧ label a ≤ x := by
        rw [← mem_takeWhile hl, hbefore]
        exact List.mem_append_right _ List.mem_cons_self
      dsimp only
      rw [hfit.endOf ha.1]
      by_cases hx : x < label a + FlowNode.size a
      · refine ⟨some a, congrArg Except.ok (if_pos hx), fun b hb => ?_, nofun⟩
        cases hb
        exact ⟨ha.1, ha.2, hx⟩
      · refine ⟨none, congrArg Except.ok (if_neg hx), nofun, fun _ b hb hbx => ?_⟩
        -- a block that covers the address begins at it or before it, so it is the last
        -- that does, or it ends before the last begins
        have hmem := (mem_takeWhile hl).2 ⟨hb, hbx.1⟩
        have hsorted := hl.sublist (List.takeWhile_sublist (label · ≤ x))
        rw [hbefore] at hmem hsorted
        rcases List.mem_append.1 hmem with hmem | hmem
        · have hlt := (List.pairwise_append.1 hsorted).2.2 b hmem a List.mem_cons_self
          have hend := endsBy_of_lt h hfit hb ha.1 hlt
          exact absurd hbx.2 (Nat.not_lt.2 (Nat.le_trans hend ha.2))
        · obtain rfl := List.mem_singleton.1 hmem
          exact hx hbx.2

-- ================================================================ ranges

/-- Whether a range covers an address. -/
def InSpan (r : Nat × Nat) (x : Nat) : Prop := r.1 ≤ x ∧ x < r.2

/-- Whether the first of two ranges lies within the second. -/
def SpanWithin (p r : Nat × Nat) : Prop := r.1 ≤ p.1 ∧ p.2 ≤ r.2

/-- Ranges, the last one first, that were put together from parts: there are gaps
between them, and they cover what the parts cover and end where parts end. -/
structure Merged (parts rs : List (Nat × Nat)) : Prop where
  gaps : rs.Pairwise fun r s => s.2 < r.1
  proper : ∀ r ∈ rs, r.1 ≤ r.2
  within : ∀ p ∈ parts, ∃ r ∈ rs, SpanWithin p r
  covered : ∀ x, (∃ r ∈ rs, InSpan r x) ↔ ∃ p ∈ parts, InSpan p x
  ends : ∀ r ∈ rs, ∃ p ∈ parts, p.2 = r.2

theorem merged_nil : Merged [] [] := ⟨.nil, nofun, nofun, by simp, nofun⟩

/-- A part behind the last range is a range of its own. -/
theorem Merged.cons {parts rs : List (Nat × Nat)} (h : Merged parts rs) {p : Nat × Nat}
    (hp : p.1 ≤ p.2) (hgap : ∀ r ∈ rs, r.2 < p.1) : Merged (parts ++ [p]) (p :: rs) where
  gaps := List.pairwise_cons.2 ⟨hgap, h.gaps⟩
  proper := List.forall_mem_cons.2 ⟨hp, h.proper⟩
  within q hq := by
    rcases List.mem_append.1 hq with hq | hq
    · obtain ⟨r, hr, hwithin⟩ := h.within q hq
      exact ⟨r, List.mem_cons_of_mem p hr, hwithin⟩
    · obtain rfl := List.mem_singleton.1 hq
      exact ⟨q, List.mem_cons_self, Nat.le_refl _, Nat.le_refl _⟩
  covered x := by
    simp only [List.mem_append, List.mem_singleton, or_and_right, exists_or, exists_eq_left]
    rw [← h.covered, List.exists_mem_cons_iff, or_comm]
  ends r hr := by
    rcases List.mem_cons.1 hr with rfl | hr
    · exact ⟨r, List.mem_append_right _ List.mem_cons_self, rfl⟩
    · obtain ⟨q, hq, he⟩ := h.ends r hr
      exact ⟨q, List.mem_append_left _ hq, he⟩

/-- A part at the end of the last range extends it. -/
theorem Merged.extend {parts rs : List (Nat × Nat)} {start : Nat} {p : Nat × Nat}
    (h : Merged parts ((start, p.1) :: rs)) (hp : p.1 ≤ p.2) :
    Merged (parts ++ [p]) ((start, p.2) :: rs) := by
  obtain ⟨hgap, hgaps⟩ := List.pairwise_cons.1 h.gaps
  obtain ⟨hstart, hproper⟩ := List.forall_mem_cons.1 h.proper
  have hstart : start ≤ p.1 := hstart
  refine ⟨List.pairwise_cons.2 ⟨hgap, hgaps⟩, ?_, fun q hq => ?_, fun x => ?_, fun r hr => ?_⟩
  · exact List.forall_mem_cons.2 ⟨Nat.le_trans hstart hp, hproper⟩
  · rcases List.mem_append.1 hq with hq | hq
    · obtain ⟨r, hr, hwithin⟩ := h.within q hq
      rcases List.mem_cons.1 hr with rfl | hr
      · exact ⟨_, List.mem_cons_self, hwithin.1, Nat.le_trans hwithin.2 hp⟩
      · exact ⟨r, List.mem_cons_of_mem _ hr, hwithin⟩
    · obtain rfl := List.mem_singleton.1 hq
      exact ⟨_, List.mem_cons_self, hstart, Nat.le_refl _⟩
  · -- the longer range covers what the shorter one and the part cover
    have hlonger : InSpan (start, p.2) x ↔ InSpan (start, p.1) x ∨ InSpan p x := by
      unfold InSpan
      dsimp only
      omega
    simp only [List.mem_append, List.mem_singleton, or_and_right, exists_or, exists_eq_left]
    rw [← h.covered, List.exists_mem_cons_iff, List.exists_mem_cons_iff, hlonger, or_right_comm]
  · rcases List.mem_cons.1 hr with rfl | hr
    · exact ⟨p, List.mem_append_right _ List.mem_cons_self, rfl⟩
    · obtain ⟨q, hq, he⟩ := h.ends r (List.mem_cons_of_mem _ hr)
      exact ⟨q, List.mem_append_left _ hq, he⟩

/-- One more part, which begins where the last range ends or behind it. -/
theorem Merged.append {parts rs : List (Nat × Nat)} (h : Merged parts rs) {p : Nat × Nat}
    (hp : p.1 ≤ p.2) (hends : ∀ q ∈ parts, q.2 ≤ p.1) :
    Merged (parts ++ [p]) (appendRange p rs) := by
  cases rs with
  | nil => exact h.cons hp nofun
  | cons r rs =>
      obtain ⟨start, stop⟩ := r
      obtain ⟨hgap, -⟩ := List.pairwise_cons.1 h.gaps
      obtain ⟨hstart, -⟩ := List.forall_mem_cons.1 h.proper
      obtain ⟨q, hq, he⟩ := h.ends _ List.mem_cons_self
      have hstop : stop ≤ p.1 := (show q.2 = stop from he) ▸ hends q hq
      unfold appendRange
      dsimp only
      by_cases htouch : stop = p.1
      · subst htouch
        rw [if_pos rfl]
        exact h.extend hp
      · rw [if_neg htouch]
        have hlt : stop < p.1 := Nat.lt_of_le_of_ne hstop htouch
        refine h.cons hp (List.forall_mem_cons.2 ⟨hlt, fun s hs => ?_⟩)
        exact Nat.lt_of_lt_of_le (hgap s hs) (Nat.le_trans hstart hstop)

/-- Parts that end where the next ones begin, or before, are put together. -/
theorem merged_foldl {parts : List (Nat × Nat)} (hproper : ∀ p ∈ parts, p.1 ≤ p.2)
    (hends : parts.Pairwise fun p q => p.2 ≤ q.1) :
    Merged parts (parts.foldl (fun rs p => appendRange p rs) []) := by
  induction parts using List.reverseRecOn with
  | nil => exact merged_nil
  | append_singleton parts p ih =>
      rw [List.pairwise_append] at hends
      rw [List.foldl_concat]
      refine (ih (fun q hq => hproper q (List.mem_append_left _ hq)) hends.1).append ?_ ?_
      · exact hproper p (List.mem_append_right _ List.mem_cons_self)
      · exact fun q hq => hends.2.2 q hq p List.mem_cons_self

-- ================================================================ graphs

/-- The range of a block. -/
def span (b : β) : Nat × Nat := (label b, label b + FlowNode.size b)

/-- The ranges are put together from those of the blocks. -/
theorem ranges_eq (hfit : m.EndsFit) : m.ranges
    = .ok ((m.blocks.map span).foldl (fun rs p => appendRange p rs) []).reverse := by
  have hspans : (m.blocks.mapM fun b => do return (label b, ← LiftedCode.endOf b))
      = .ok (m.blocks.map span) := by
    refine mapM_eq_map fun b hb => ?_
    rw [hfit.endOf hb]
    rfl
  unfold ranges
  rw [hspans]
  rfl

/-- The ranges that blocks cover: in order of address with gaps between them, so that
none can be longer, each block within one of them, and no address in them but those of
the blocks. -/
structure Ranges (blocks : List β) (rs : List (Nat × Nat)) : Prop where
  ordered : rs.Pairwise fun r s => r.1 < s.1
  gaps : rs.Pairwise fun r s => r.2 < s.1
  within : ∀ b ∈ blocks, ∃! r, r ∈ rs ∧ SpanWithin (span b) r
  covered : ∀ x, (∃ r ∈ rs, InSpan r x) ↔ ∃ b ∈ blocks, Covers b x

/-- A range is within one of those between which there are gaps. -/
theorem eq_of_spanWithin {rs : List (Nat × Nat)} (hgaps : rs.Pairwise fun r s => r.2 < s.1)
    {p r s : Nat × Nat} (hp : p.1 ≤ p.2) (hr : r ∈ rs) (hs : s ∈ rs) (hpr : SpanWithin p r)
    (hps : SpanWithin p s) : r = s := by
  have hnear : ¬ r.2 < s.1 ∧ ¬ s.2 < r.1 := by
    unfold SpanWithin at hpr hps
    omega
  refine Decidable.byContradiction fun hne => ?_
  have hapart : rs.Pairwise fun r s => r.2 < s.1 ∨ s.2 < r.1 := hgaps.imp .inl
  have hsymm : Std.Symm fun r s : Nat × Nat => r.2 < s.1 ∨ s.2 < r.1 := ⟨fun _ _ => Or.symm⟩
  exact (hapart.forall hr hs hne).elim hnear.1 hnear.2

theorem ranges_of_merged {blocks : List β} {rs : List (Nat × Nat)}
    (h : Merged (blocks.map span) rs) : Ranges blocks rs.reverse := by
  have hgaps : rs.reverse.Pairwise fun r s => r.2 < s.1 := List.pairwise_reverse.2 h.gaps
  refine ⟨?_, hgaps, fun b hb => ?_, fun x => ?_⟩
  · refine hgaps.imp_of_mem fun hr _ hlt => ?_
    exact Nat.lt_of_le_of_lt (h.proper _ (List.mem_reverse.1 hr)) hlt
  · obtain ⟨r, hr, hwithin⟩ := h.within (span b) (List.mem_map_of_mem hb)
    have hr := List.mem_reverse.2 hr
    refine ⟨r, ⟨hr, hwithin⟩, fun s hs => ?_⟩
    exact eq_of_spanWithin hgaps (Nat.le_add_right _ _) hs.1 hr hs.2 hwithin
  · simp only [List.mem_reverse]
    rw [h.covered]
    constructor
    · rintro ⟨p, hp, hx⟩
      obtain ⟨b, hb, rfl⟩ := List.mem_map.1 hp
      exact ⟨b, hb, hx⟩
    · rintro ⟨b, hb, hx⟩
      exact ⟨span b, List.mem_map_of_mem hb, hx⟩

/-- Where all blocks of a graph end at 64-bit addresses, the block that is found for
an address is the only one that covers it, there is none if none is found, and the
ranges of the graph are those that its blocks cover. -/
theorem locates_of_build (h : build blocks = .ok m) (hfit : m.EndsFit) :
    (∀ x, ∃ found, m.containing x = .ok found ∧ ∀ b, found = some b
        ↔ b ∈ m.blocks ∧ Covers b x ∧ ∀ c ∈ m.blocks, Covers c x → c = b)
      ∧ ∃ rs, m.ranges = .ok rs ∧ Ranges m.blocks rs := by
  constructor
  · intro x
    obtain ⟨found, hfound, hsome, hnone⟩ := containing_spec h hfit x
    refine ⟨found, hfound, fun b => ⟨fun hb => ?_, ?_⟩⟩
    · obtain ⟨hmem, hx⟩ := hsome b hb
      exact ⟨hmem, hx, fun c hc hcx => eq_of_covers h hfit hc hmem hcx hx⟩
    · rintro ⟨hb, hx, -⟩
      cases found with
      | none => exact absurd hx (hnone rfl b hb)
      | some c =>
          obtain ⟨hc, hcx⟩ := hsome c rfl
          rw [eq_of_covers h hfit hc hb hcx hx]
  · refine ⟨_, ranges_eq hfit, ranges_of_merged (merged_foldl ?_ ?_)⟩
    · intro p hp
      obtain ⟨b, -, rfl⟩ := List.mem_map.1 hp
      exact Nat.le_add_right _ _
    · refine List.pairwise_map.2 ((pairwise_lt_of_build h).imp_of_mem fun ha hb hlt => ?_)
      exact endsBy_of_lt h hfit ha hb hlt

/-- A gap, a block of no size behind it, blocks next to each other, and a block of no
size at the end of the last of these. -/
def scattered : List RoutineBlock :=
  [returnBlock 0 2, returnBlock 3 0, returnBlock 4 4, returnBlock 8 4, returnBlock 12 0]

theorem build_scattered : build scattered
    = .ok ⟨scattered, Dict.ofList [(0, []), (3, []), (4, []), (8, []), (12, [])]⟩ :=
  build_of_pairwise (by decide) rfl rfl rfl

/-- The block at an address inside a range, an address just behind all blocks, and the
ranges, of which one has no addresses. -/
theorem locates_of_build_scattered : ∃ m, build scattered = .ok m ∧ m.EndsFit
    ∧ m.containing 7 = .ok (some (returnBlock 4 4))
    ∧ (∀ c ∈ m.blocks, Covers c 7 → c = returnBlock 4 4)
    ∧ m.containing 12 = .ok none
    ∧ m.ranges = .ok [(0, 2), (3, 3), (4, 12)]
    ∧ Ranges m.blocks [(0, 2), (3, 3), (4, 12)] := by
  have hfit : EndsFit (β := RoutineBlock) ⟨scattered, Dict.ofList
      [(0, []), (3, []), (4, []), (8, []), (12, [])]⟩ := by
    unfold EndsFit
    decide
  obtain ⟨hcontaining, rs, hranges, hcover⟩ := locates_of_build build_scattered hfit
  obtain ⟨found, hfound, hiff⟩ := hcontaining 7
  cases hfound
  cases hranges
  exact ⟨_, build_scattered, hfit, rfl, ((hiff _).1 rfl).2.2, rfl, rfl, hcover⟩

end LiftedCode.BlockMap
