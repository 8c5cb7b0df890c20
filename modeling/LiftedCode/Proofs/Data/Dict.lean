/-
What dictionaries answer. A lookup after an insertion finds the inserted value
under its key and what was there under every other (`get?_insert`), and a
lookup finds exactly what is among the entries (`get?_eq_some_iff`). In the
dictionary of a list it finds what the list has for the key, if that is one
value only (`get?_ofList`).

Where keys can compare equal without being equal, a lookup finds what is under the
one key that compares equal (`get?_eq_some_iff_exists`).
-/
import LiftedCode.Data.Dict
import Mathlib.Data.List.Pairwise

namespace LiftedCode.Dict

variable {κ ν : Type} [Ord κ]

/-- Nothing is in the dictionary without entries. -/
@[simp] theorem get?_empty (k : κ) : (∅ : Dict κ ν).get? k = none := rfl

/-- What a lookup finds is under a key that compares equal. -/
theorem exists_of_get? {d : Dict κ ν} {k : κ} {v : ν} (h : d.get? k = some v) :
    ∃ k', compare k k' = .eq ∧ (k', v) ∈ d.entries := by
  obtain ⟨e, he, rfl⟩ := Option.map_eq_some_iff.1 h
  have hk : compare k e.1 = .eq := by simpa using List.find?_some he
  exact ⟨e.1, hk, List.mem_of_find?_eq_some he⟩

private theorem mem_insertEntry_of_new {k : κ} {v : ν} {l : List (κ × ν)} {e : κ × ν}
    (hnew : ∀ f ∈ l, compare k f.1 ≠ .eq) : e ∈ insertEntry k v l ↔ e = (k, v) ∨ e ∈ l := by
  induction l with
  | nil => rw [insertEntry, List.mem_cons]
  | cons f l ih =>
      rw [List.forall_mem_cons] at hnew
      rw [insertEntry]
      split
      case h_1 => rw [List.mem_cons]
      case h_2 heq => exact absurd heq hnew.1
      case h_3 => rw [List.mem_cons, ih hnew.2, List.mem_cons, or_left_comm]

section

variable [Std.TransOrd κ] {d : Dict κ ν} {k : κ} {v : ν}

/-- Entries with keys that compare equal are one entry. -/
theorem eq_of_compare_eq {e f : κ × ν} (he : e ∈ d.entries) (hf : f ∈ d.entries)
    (h : compare e.1 f.1 = .eq) : e = f := by
  have : Std.Symm fun a b : κ × ν => compare a.1 b.1 ≠ .eq :=
    ⟨fun a b hab hba => hab (Std.OrientedCmp.eq_symm hba)⟩
  have hne : d.entries.Pairwise fun a b => compare a.1 b.1 ≠ .eq :=
    d.sorted.imp fun hlt heq => by
      rw [hlt] at heq
      contradiction
  by_contra hef
  exact hne.forall he hf hef h

theorem get?_eq_some_iff_exists :
    d.get? k = some v ↔ ∃ k', compare k k' = .eq ∧ (k', v) ∈ d.entries := by
  refine ⟨exists_of_get?, ?_⟩
  rintro ⟨k', hk, hmem⟩
  have hfound : (d.get? k).isSome := by
    rw [get?, Option.isSome_map, List.find?_isSome]
    exact ⟨_, hmem, beq_iff_eq.2 hk⟩
  obtain ⟨u, hu⟩ := Option.isSome_iff_exists.1 hfound
  obtain ⟨l, hl, hlmem⟩ := exists_of_get? hu
  have hlk : compare l k' = .eq := Std.TransCmp.eq_trans (Std.OrientedCmp.eq_symm hl) hk
  rw [hu, (Prod.mk.inj (eq_of_compare_eq hlmem hmem hlk)).2]

theorem get?_eq_none_iff_forall : d.get? k = none ↔ ∀ e ∈ d.entries, compare k e.1 ≠ .eq := by
  rw [Option.eq_none_iff_forall_ne_some]
  constructor
  · exact fun h e he hk => h e.2 (get?_eq_some_iff_exists.2 ⟨e.1, hk, he⟩)
  · intro h v hv
    obtain ⟨k', hk, hmem⟩ := exists_of_get? hv
    exact h _ hmem hk

/-- An insertion under a key without a value is one more entry. -/
theorem mem_entries_insert_of_new {e : κ × ν} (hnew : d.get? k = none) :
    e ∈ (d.insert k v).entries ↔ e = (k, v) ∨ e ∈ d.entries :=
  mem_insertEntry_of_new (get?_eq_none_iff_forall.1 hnew)

end

/-- The value of the first entry with a key. -/
private def findEntry (k : κ) (l : List (κ × ν)) : Option ν :=
  (l.find? fun e => compare k e.1 == .eq).map (·.2)

private theorem findEntry_cons (k : κ) (e : κ × ν) (l : List (κ × ν)) :
    findEntry k (e :: l) = if compare k e.1 = .eq then some e.2 else findEntry k l := by
  rw [findEntry, List.find?_cons]
  cases h : compare k e.1 <;> rfl

variable [Std.LawfulEqOrd κ]

private theorem findEntry_eq_some_iff {l : List (κ × ν)}
    (hs : l.Pairwise (fun a b => compare a.1 b.1 = .lt)) (k : κ) (v : ν) :
    findEntry k l = some v ↔ (k, v) ∈ l := by
  induction l with
  | nil => simp [findEntry]
  | cons e l ih =>
      obtain ⟨k₀, v₀⟩ := e
      rw [List.pairwise_cons] at hs
      rw [findEntry_cons, List.mem_cons]
      by_cases hk : compare k k₀ = .eq
      · obtain rfl : k = k₀ := Std.LawfulEqCmp.eq_of_compare hk
        rw [if_pos hk]
        constructor
        · intro h
          exact .inl (congrArg (Prod.mk k) (Option.some.inj h).symm)
        · rintro (h | h)
          · exact congrArg some (Prod.mk.inj h).2.symm
          · have := hs.1 _ h
            rw [hk] at this
            contradiction
      · rw [if_neg hk, ih hs.2]
        constructor
        · exact .inr
        · rintro (h | h)
          · exact absurd (by rw [(Prod.mk.inj h).1]; exact Std.ReflCmp.compare_self) hk
          · exact h

/-- A lookup finds what is among the entries. -/
theorem get?_eq_some_iff (d : Dict κ ν) (k : κ) (v : ν) :
    d.get? k = some v ↔ (k, v) ∈ d.entries :=
  findEntry_eq_some_iff d.sorted k v

variable [DecidableEq κ]

private theorem findEntry_insertEntry (k k' : κ) (v : ν) (l : List (κ × ν)) :
    findEntry k' (insertEntry k v l) = if k = k' then some v else findEntry k' l := by
  have hk : compare k' k = .eq ↔ k = k' := by
    rw [Std.LawfulEqCmp.compare_eq_iff_eq]
    exact eq_comm
  induction l with
  | nil =>
      rw [insertEntry, findEntry_cons]
      simp only [hk]
  | cons e l ih =>
      obtain ⟨k₀, v₀⟩ := e
      rw [insertEntry]
      split
      case h_1 => simp only [findEntry_cons, hk]
      case h_2 h0 =>
        obtain rfl : k = k₀ := Std.LawfulEqCmp.eq_of_compare h0
        simp only [findEntry_cons, hk]
        split <;> rfl
      case h_3 h0 =>
        rw [findEntry_cons, findEntry_cons, ih]
        by_cases hkk : k = k'
        · subst hkk
          rw [h0]
          simp
        · rw [if_neg hkk, if_neg hkk]

variable [Std.TransOrd κ]

theorem get?_insert (d : Dict κ ν) (k k' : κ) (v : ν) :
    (d.insert k v).get? k' = if k = k' then some v else d.get? k' :=
  findEntry_insertEntry k k' v d.entries

@[simp] theorem get?_insert_self (d : Dict κ ν) (k : κ) (v : ν) :
    (d.insert k v).get? k = some v := by
  rw [get?_insert, if_pos rfl]

/-- An insertion does not touch the other keys. -/
theorem get?_insert_of_ne {d : Dict κ ν} {k k' : κ} {v : ν} (h : k ≠ k') :
    (d.insert k v).get? k' = d.get? k' := by
  rw [get?_insert, if_neg h]

/-- An insertion under a key without a value leaves all values as they are. -/
theorem get?_insert_of_new {d : Dict κ ν} {k k' : κ} {v v' : ν} (hnew : d.get? k = none)
    (hv' : d.get? k' = some v') : (d.insert k v).get? k' = some v' := by
  rw [get?_insert_of_ne]
  · exact hv'
  · rintro rfl
    rw [hnew] at hv'
    contradiction

/-- What is there for a key after insertions that all agree on it. -/
theorem get?_insertAll {l : List (κ × ν)} {d : Dict κ ν} {k : κ} {v : ν}
    (hv : ∀ e ∈ l, e.1 = k → e.2 = v) (h : d.get? k = some v ∨ ∃ e ∈ l, e.1 = k) :
    (d.insertAll l).get? k = some v := by
  induction l generalizing d with
  | nil =>
      rcases h with h | ⟨e, he, -⟩
      · exact h
      · exact absurd he List.not_mem_nil
  | cons e l ih =>
      apply ih (fun f hf => hv f (List.mem_cons_of_mem e hf))
      rw [get?_insert]
      by_cases hk : e.1 = k
      · rw [if_pos hk, hv e List.mem_cons_self hk]
        exact .inl rfl
      · rw [if_neg hk]
        rcases h with h | ⟨f, hf, hfk⟩
        · exact .inl h
        · rcases List.mem_cons.1 hf with rfl | hf
          · exact absurd hfk hk
          · exact .inr ⟨f, hf, hfk⟩

/-- What is there after insertions was inserted or was there before. -/
theorem of_get?_insertAll {l : List (κ × ν)} {d : Dict κ ν} {k : κ} {v : ν}
    (h : (d.insertAll l).get? k = some v) : (k, v) ∈ l ∨ d.get? k = some v := by
  induction l generalizing d with
  | nil => exact .inr h
  | cons e l ih =>
      rcases ih h with hl | hd
      · exact .inl (List.mem_cons_of_mem e hl)
      · rw [get?_insert] at hd
        split at hd
        case isTrue hk =>
          obtain rfl := Option.some.inj hd
          exact .inl (by rw [← hk]; exact List.mem_cons_self)
        case isFalse => exact .inr hd

/-- What the list has for a key. -/
theorem get?_ofList {l : List (κ × ν)} {k : κ} {v : ν} (hv : ∀ e ∈ l, e.1 = k → e.2 = v)
    (h : ∃ e ∈ l, e.1 = k) : (ofList l).get? k = some v :=
  get?_insertAll hv (.inr h)

end LiftedCode.Dict
