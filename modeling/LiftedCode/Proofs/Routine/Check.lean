/-
What the check of a routine establishes. A routine that passes it has one block
for each label and one definition for each identifier, its entry exists and has
no phi variables, and control never leaves its blocks
(`wellFormed_of_check`). Nothing else is asked of it (`check_of_wellFormed`).
-/
import LiftedCode.Proofs.Effect
import LiftedCode.Proofs.Flow.BlockMap
import LiftedCode.Routine

namespace LiftedCode.Routine

/-- A well formed routine. -/
structure WellFormed (r : Routine) : Prop where
  labels : (r.blocks.map label).Nodup
  binds : (r.blocks.flatMap RoutineBlock.binds).Nodup
  entry : ∃ b ∈ r.blocks, b.label = r.entry ∧ b.phis = []
  closed : ∀ b ∈ r.blocks, ∀ l ∈ b.transfer.successors, ∃ c ∈ r.blocks, c.label = l

/-- Labels of which none is repeated are different. -/
theorem nodup_of_firstRepeated {seen ls : List Label} (h : firstRepeated seen ls = none) :
    ls.Nodup ∧ ∀ l ∈ ls, l ∉ seen := by
  induction ls generalizing seen with
  | nil => exact ⟨List.nodup_nil, nofun⟩
  | cons l ls ih =>
      unfold firstRepeated at h
      split at h
      case isTrue => contradiction
      case isFalse hl =>
        obtain ⟨hn, hnew⟩ := ih h
        refine ⟨List.nodup_cons.2 ⟨fun hm => hnew l hm List.mem_cons_self, hn⟩, ?_⟩
        intro m hm
        rcases List.mem_cons.1 hm with rfl | hm
        · exact hl
        · exact fun hs => hnew m hm (List.mem_cons_of_mem l hs)

/-- Identifiers that are new are different, and from then on they are known. -/
theorem nodup_of_define {seen seen' ids : List Ident} (h : define seen ids = .ok seen') :
    ids.Nodup ∧ (∀ i ∈ ids, i ∉ seen) ∧ ∀ i, i ∈ ids ∨ i ∈ seen → i ∈ seen' := by
  induction ids generalizing seen with
  | nil =>
      cases h
      refine ⟨List.nodup_nil, nofun, ?_⟩
      rintro i (hi | hi)
      · exact absurd hi List.not_mem_nil
      · exact hi
  | cons id ids ih =>
      unfold define at h
      split at h
      case isTrue => contradiction
      case isFalse hid =>
        obtain ⟨hn, hnew, hknown⟩ := ih h
        refine ⟨List.nodup_cons.2 ⟨fun hm => hnew id hm List.mem_cons_self, hn⟩, ?_, ?_⟩
        · intro i hi
          rcases List.mem_cons.1 hi with rfl | hi
          · exact hid
          · exact fun hs => hnew i hi (List.mem_cons_of_mem id hs)
        · intro i hi
          apply hknown
          rcases hi with hi | hi
          · rcases List.mem_cons.1 hi with rfl | hi
            · exact .inr List.mem_cons_self
            · exact .inl hi
          · exact .inr (List.mem_cons_of_mem id hi)

/-- Blocks that pass the check bind different identifiers and lead to labels
that there are. -/
theorem of_checkBlocks {labels : List Label} {seen : List Ident} {bs : List RoutineBlock}
    (h : checkBlocks labels seen bs = .ok ()) :
    (bs.flatMap RoutineBlock.binds).Nodup ∧ (∀ i ∈ bs.flatMap RoutineBlock.binds, i ∉ seen)
      ∧ ∀ b ∈ bs, ∀ l ∈ b.transfer.successors, l ∈ labels := by
  induction bs generalizing seen with
  | nil => exact ⟨List.nodup_nil, nofun, nofun⟩
  | cons b bs ih =>
      obtain ⟨seen', hdefine, h⟩ := ok_of_bind h
      obtain ⟨hn, hnew, hknown⟩ := nodup_of_define hdefine
      split at h
      case h_1 => contradiction
      case h_2 hfind =>
        obtain ⟨hns, hnews, hclosed⟩ := ih h
        refine ⟨?_, ?_, ?_⟩
        · rw [List.flatMap_cons, List.nodup_append]
          refine ⟨hn, hns, ?_⟩
          rintro i hi j hj rfl
          exact hnews i hj (hknown i (.inl hi))
        · intro i hi hs
          rw [List.flatMap_cons, List.mem_append] at hi
          rcases hi with hi | hi
          · exact hnew i hi hs
          · exact hnews i hi (hknown i (.inr hs))
        · intro c hc l hl
          rcases List.mem_cons.1 hc with rfl | hc
          · exact of_decide_eq_true (by simpa using List.find?_eq_none.1 hfind l hl)
          · exact hclosed c hc l hl

variable {r : Routine}

/-- A block is found under its label only. -/
theorem of_block? {l : Label} {b : RoutineBlock} (h : r.block? l = .ok b) :
    b ∈ r.blocks ∧ b.label = l := by
  unfold block? at h
  split at h
  case h_2 => contradiction
  case h_1 c hc =>
    cases h
    have hlabel := List.find?_some hc
    exact ⟨List.mem_of_find?_eq_some hc, beq_iff_eq.1 hlabel⟩

/-- A routine that passes the check is well formed. -/
theorem wellFormed_of_check (h : r.check = .ok ()) : r.WellFormed := by
  unfold check at h
  dsimp only at h
  split at h
  case h_1 => contradiction
  case h_2 hrep =>
    obtain ⟨entry, hentry, h⟩ := ok_of_bind h
    by_cases hphis : (!entry.phis.isEmpty) = true
    · rw [if_pos hphis] at h
      contradiction
    rw [if_neg hphis] at h
    obtain ⟨hmem, hlabel⟩ := of_block? hentry
    obtain ⟨hbinds, -, hclosed⟩ := of_checkBlocks h
    refine ⟨(nodup_of_firstRepeated hrep).1, hbinds, ⟨entry, hmem, hlabel, ?_⟩, ?_⟩
    · simpa using hphis
    · intro b hb l hl
      exact List.mem_map.1 (hclosed b hb l hl)

theorem WellFormed.block? (h : r.WellFormed) {b : RoutineBlock} (hb : b ∈ r.blocks) :
    r.block? b.label = .ok b := by
  unfold Routine.block?
  rw [show r.blocks.find? (·.label == b.label) = some b from find?_of_nodup h.labels hb]

/-- A block binds an identifier once. -/
theorem WellFormed.binds_nodup (h : r.WellFormed) {b : RoutineBlock} (hb : b ∈ r.blocks) :
    b.binds.Nodup := by
  obtain ⟨front, back, hsplit⟩ := List.append_of_mem hb
  have hn := h.binds
  rw [hsplit, List.flatMap_append, List.flatMap_cons, List.nodup_append, List.nodup_append] at hn
  exact hn.2.1.1

-- ============================================================ the converse

theorem firstRepeated_of_nodup {seen ls : List Label} (h : ls.Nodup) (hnew : ∀ l ∈ ls, l ∉ seen) :
    firstRepeated seen ls = none := by
  induction ls generalizing seen with
  | nil => rfl
  | cons l ls ih =>
      obtain ⟨hl, hn⟩ := List.nodup_cons.1 h
      rw [firstRepeated, if_neg (hnew l List.mem_cons_self)]
      refine ih hn fun m hm hs => ?_
      rcases List.mem_cons.1 hs with rfl | hs
      · exact hl hm
      · exact hnew m (List.mem_cons_of_mem l hm) hs

theorem define_of_nodup {seen ids : List Ident} (h : ids.Nodup) (hnew : ∀ i ∈ ids, i ∉ seen) :
    ∃ seen', define seen ids = .ok seen' ∧ ∀ i ∈ seen', i ∈ ids ∨ i ∈ seen := by
  induction ids generalizing seen with
  | nil => exact ⟨seen, rfl, fun _ => .inr⟩
  | cons id ids ih =>
      obtain ⟨hid, hn⟩ := List.nodup_cons.1 h
      have hnew' : ∀ i ∈ ids, i ∉ id :: seen := by
        intro i hi hs
        rcases List.mem_cons.1 hs with rfl | hs
        · exact hid hi
        · exact hnew i (List.mem_cons_of_mem id hi) hs
      obtain ⟨seen', hdefine, hknown⟩ := ih hn hnew'
      rw [define, if_neg (hnew id List.mem_cons_self)]
      refine ⟨seen', hdefine, fun i hi => ?_⟩
      rcases hknown i hi with hi | hi
      · exact .inl (List.mem_cons_of_mem id hi)
      · rcases List.mem_cons.1 hi with rfl | hi
        · exact .inl List.mem_cons_self
        · exact .inr hi

theorem checkBlocks_of_nodup {labels : List Label} {seen : List Ident} {bs : List RoutineBlock}
    (h : (bs.flatMap RoutineBlock.binds).Nodup)
    (hnew : ∀ i ∈ bs.flatMap RoutineBlock.binds, i ∉ seen)
    (hclosed : ∀ b ∈ bs, ∀ l ∈ b.transfer.successors, l ∈ labels) :
    checkBlocks labels seen bs = .ok () := by
  induction bs generalizing seen with
  | nil => rfl
  | cons b bs ih =>
      rw [List.flatMap_cons, List.nodup_append] at h
      rw [List.flatMap_cons, List.forall_mem_append] at hnew
      obtain ⟨hsuccessors, hclosed⟩ := List.forall_mem_cons.1 hclosed
      obtain ⟨seen', hdefine, hknown⟩ := define_of_nodup h.1 hnew.1
      have hfind : b.transfer.successors.find? (· ∉ labels) = none := by
        refine List.find?_eq_none.2 fun l hl => ?_
        simpa using hsuccessors l hl
      rw [checkBlocks, hdefine, ok_bind, hfind]
      refine ih h.2.1 (fun i hi hs => ?_) hclosed
      -- what is known by then was bound by the block or before it
      rcases hknown i hs with hs | hs
      · exact h.2.2 i hs i hi rfl
      · exact hnew.2 i hi hs

/-- A routine that is well formed passes the check. -/
theorem check_of_wellFormed (h : r.WellFormed) : r.check = .ok () := by
  obtain ⟨entry, hentry, hlabel, hphis⟩ := h.entry
  have hfirst : firstRepeated [] (r.blocks.map (·.label)) = none :=
    firstRepeated_of_nodup h.labels fun _ _ => List.not_mem_nil
  have hblock : r.block? r.entry = .ok entry := hlabel ▸ h.block? hentry
  have hblocks : checkBlocks (r.blocks.map (·.label)) [] r.blocks = .ok () := by
    refine checkBlocks_of_nodup h.binds (fun _ _ => List.not_mem_nil) fun b hb l hl => ?_
    obtain ⟨c, hc, hcl⟩ := h.closed b hb l hl
    exact List.mem_map.2 ⟨c, hc, hcl⟩
  unfold check
  dsimp only
  rw [hfirst, hblock]
  simp only [ok_bind, hphis]
  exact hblocks

end LiftedCode.Routine
