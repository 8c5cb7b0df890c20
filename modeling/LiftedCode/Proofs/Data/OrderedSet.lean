/-
Ordered sets whose two halves agree. The positions of a set are those at which its
members stand (`OrderedSet.Paired`), if the set was made by insertions. Then no two
members compare equal, a lookup finds the position of the one member that does, an
insertion puts at the end what does not compare equal to one, and a position stays
what it is under all later insertions. Of an inserted sequence the first of all
elements that compare equal is left (`Paired.toList_insertAll`).

The order of the elements decides alone which of them are the same. Where these are
equal, positions and members name each other (`OrderedSet.Indexed`).
-/
import LiftedCode.Data.OrderedSet
import LiftedCode.Proofs.Data.Dict

namespace LiftedCode

/-- The list with `x` at the end, unless it is in the list. -/
def addMissing {α : Type} [DecidableEq α] (l : List α) (x : α) : List α :=
  if x ∈ l then l else l ++ [x]

/-- What is brought in is a member, and all members stay. -/
theorem mem_addMissing {α : Type} [DecidableEq α] {l : List α} {x y : α} :
    y ∈ addMissing l x ↔ y ∈ l ∨ y = x := by
  unfold addMissing
  split
  case isTrue hx => exact ⟨.inl, fun h => h.elim id fun hy => hy ▸ hx⟩
  case isFalse => rw [List.mem_append, List.mem_singleton]

namespace OrderedSet

variable {α : Type} [Ord α] {s : OrderedSet α} {x y : α} {i : Nat}

/-- The positions of a set are those at which its members stand. -/
def Paired (s : OrderedSet α) : Prop :=
  ∀ x i, (x, i) ∈ s.positions.entries ↔ s.get? i = some x

/-- The empty set is paired. -/
theorem paired_empty : (∅ : OrderedSet α).Paired := fun _ _ => ⟨nofun, nofun⟩

section

variable [Std.TransOrd α]

-- ============================================================ one set

/-- A lookup finds the position of the member that compares equal. -/
theorem Paired.indexOf?_eq_some_iff (h : s.Paired) :
    s.indexOf? x = some i ↔ ∃ y, compare x y = .eq ∧ s.get? i = some y := by
  rw [indexOf?, Dict.get?_eq_some_iff_exists]
  exact exists_congr fun y => and_congr_right fun _ => h y i

/-- No two members compare equal. -/
theorem Paired.pairwise (h : s.Paired) : s.toList.Pairwise fun x y => compare x y ≠ .eq := by
  refine List.pairwise_iff_getElem.2 fun i j hi hj hlt heq => Nat.ne_of_lt hlt ?_
  have hmem : ∀ (k : Nat) (hk : k < s.toList.length), (s.toList[k], k) ∈ s.positions.entries := by
    intro k hk
    rw [h, get?, ← Array.getElem?_toList]
    exact List.getElem?_eq_getElem hk
  exact congrArg Prod.snd (Dict.eq_of_compare_eq (hmem i hi) (hmem j hj) heq)

/-- Membership is that in the list of the items. -/
theorem Paired.contains_eq (h : s.Paired) (x : α) :
    s.contains x = s.toList.any fun y => compare x y == .eq := by
  rw [Bool.eq_iff_iff, contains, Option.isSome_iff_exists, List.any_eq_true]
  simp only [h.indexOf?_eq_some_iff, toList, Array.mem_toList_iff, Array.mem_iff_getElem?,
    beq_iff_eq]
  constructor
  · rintro ⟨i, y, hxy, hy⟩
    exact ⟨y, ⟨i, hy⟩, hxy⟩
  · rintro ⟨y, ⟨i, hy⟩, hxy⟩
    exact ⟨i, y, hxy, hy⟩

-- ====================================================== one insertion

/-- A member is not inserted again. -/
theorem insertAt_of_some (hx : s.indexOf? x = some i) : s.insertAt x = (i, s) := by
  rw [insertAt, hx]

/-- A new element comes after all others. -/
theorem insertAt_of_none (hx : s.indexOf? x = none) :
    s.insertAt x = (s.size, ⟨s.items.push x, s.positions.insert x s.size⟩) := by
  rw [insertAt, hx]

/-- Members stay where they are. -/
theorem get?_insert_of_some (hi : s.get? i = some y) : (s.insert x).get? i = some y := by
  cases hx : s.indexOf? x with
  | some j => rwa [insert, insertAt_of_some hx]
  | none =>
      obtain ⟨hlt, -⟩ := Array.getElem?_eq_some_iff.1 hi
      rw [insert, insertAt_of_none hx, get?, Array.getElem?_push, if_neg (Nat.ne_of_lt hlt)]
      exact hi

/-- An insertion keeps items and positions in step. -/
theorem Paired.insert (h : s.Paired) (x : α) : (s.insert x).Paired := by
  cases hx : s.indexOf? x with
  | some j => rwa [OrderedSet.insert, insertAt_of_some hx]
  | none =>
      intro y i
      rw [OrderedSet.insert, insertAt_of_none hx, get?, Dict.mem_entries_insert_of_new hx, h y i,
        Array.getElem?_push, Prod.mk.injEq]
      by_cases hi : i = s.items.size
      · have hend : s.get? i = none := Array.getElem?_eq_none (Nat.le_of_eq hi.symm)
        rw [if_pos hi, hend, Option.some.injEq]
        constructor
        · rintro (⟨hy, -⟩ | hy)
          · exact hy.symm
          · contradiction
        · exact fun hy => .inl ⟨hy.symm, hi⟩
      · -- an earlier position belongs to an old member
        rw [if_neg hi]
        exact or_iff_right fun hnew => hi hnew.2

/-- The answer of an insertion is the position at which the element is found. -/
theorem Paired.indexOf?_insertAt (h : s.Paired) (x : α) :
    (s.insert x).indexOf? x = some (s.insertAt x).1 := by
  cases hx : s.indexOf? x with
  | some j => rw [OrderedSet.insert, insertAt_of_some hx, hx]
  | none =>
      refine (h.insert x).indexOf?_eq_some_iff.2 ⟨x, Std.ReflCmp.compare_self, ?_⟩
      rw [OrderedSet.insert, insertAt_of_none hx]
      exact Array.getElem?_push_size

/-- An insertion does not move members. -/
theorem Paired.indexOf?_insert_of_some (h : s.Paired) (hi : s.indexOf? x = some i) :
    (s.insert y).indexOf? x = some i := by
  obtain ⟨z, hxz, hz⟩ := h.indexOf?_eq_some_iff.1 hi
  exact (h.insert y).indexOf?_eq_some_iff.2 ⟨z, hxz, get?_insert_of_some hz⟩

/-- An insertion puts at the end what does not compare equal to a member. -/
theorem Paired.toList_insert (h : s.Paired) (x : α) : (s.insert x).toList
    = if s.toList.any fun y => compare x y == .eq then s.toList else s.toList ++ [x] := by
  rw [← h.contains_eq, contains]
  cases hx : s.indexOf? x with
  | some j => rw [OrderedSet.insert, insertAt_of_some hx]; rfl
  | none =>
      rw [OrderedSet.insert, insertAt_of_none hx]
      exact Array.toList_push

-- ==================================================== many insertions

/-- Bring in all elements of a list, one after the other. -/
def insertAll (s : OrderedSet α) (xs : List α) : OrderedSet α := xs.foldl insert s

/-- The set of the elements of a list. -/
def ofList (xs : List α) : OrderedSet α := insertAll ∅ xs

theorem Paired.insertAll (h : s.Paired) (xs : List α) : (s.insertAll xs).Paired := by
  induction xs generalizing s with
  | nil => exact h
  | cons x xs ih => exact ih (h.insert x)

/-- Insertions do not move members. -/
theorem Paired.indexOf?_insertAll (h : s.Paired) (hi : s.indexOf? x = some i) (xs : List α) :
    (s.insertAll xs).indexOf? x = some i := by
  induction xs generalizing s with
  | nil => exact hi
  | cons y xs ih => exact ih (h.insert y) (h.indexOf?_insert_of_some hi)

/-- Insertions go through the list as the removal of repeated elements does, which keeps
the elements that it has seen with the last in front. -/
theorem Paired.toList_insertAll (h : s.Paired) (xs : List α) : (s.insertAll xs).toList
    = List.eraseDupsBy.loop (fun x y => compare x y == .eq) xs s.toList.reverse := by
  induction xs generalizing s with
  | nil => rw [List.eraseDupsBy.loop, List.reverse_reverse]; rfl
  | cons x xs ih =>
      rw [List.eraseDupsBy.loop, List.any_reverse]
      refine (ih (h.insert x)).trans ?_
      rw [h.toList_insert]
      split
      case isTrue hseen => rw [hseen]
      case isFalse hnew =>
        rw [Bool.not_eq_true] at hnew
        rw [hnew, List.reverse_append]
        rfl

/-- A list is inserted after another by inserting its elements. -/
theorem ofList_append (xs ys : List α) : ofList (xs ++ ys) = (ofList xs).insertAll ys :=
  List.foldl_append

/-- A set that was made by insertions is paired. -/
theorem paired_ofList (xs : List α) : (ofList xs).Paired := paired_empty.insertAll xs

/-- After insertions into the empty set, no two members compare equal, positions and
members tell each other, the answer of each insertion is the position of its element
for good, and the members are the first of all inserted elements that compare equal. -/
theorem positions_of_insertions (xs : List α) :
    ((ofList xs).toList.Pairwise fun x y => compare x y ≠ .eq)
      ∧ (∀ x i, (x, i) ∈ (ofList xs).positions.entries ↔ (ofList xs).get? i = some x)
      ∧ (∀ x i, (ofList xs).indexOf? x = some i
        ↔ ∃ y, compare x y = .eq ∧ (ofList xs).get? i = some y)
      ∧ (∀ x ys, (ofList (xs ++ x :: ys)).indexOf? x = some ((ofList xs).insertAt x).1
        ∧ ((ofList (xs ++ x :: ys)).insertAt x).1 = ((ofList xs).insertAt x).1)
      ∧ (ofList xs).toList = xs.eraseDupsBy fun x y => compare x y == .eq := by
  have h := paired_ofList xs
  refine ⟨h.pairwise, h, fun x i => h.indexOf?_eq_some_iff, fun x ys => ?_,
    paired_empty.toList_insertAll xs⟩
  have hlater : (ofList (xs ++ x :: ys)).indexOf? x = some ((ofList xs).insertAt x).1 := by
    rw [ofList_append]
    exact (h.insert x).indexOf?_insertAll (h.indexOf?_insertAt x) ys
  exact ⟨hlater, by rw [insertAt_of_some hlater]⟩

/-- Identifiers of which one comes three times. -/
theorem positions_of_insertions_repeated :
    (ofList [7, 3, 7, 5]).toList = [7, 3, 5] ∧ ((ofList [7]).insertAt 3).1 = 1
      ∧ (ofList [7, 3, 7, 5, 7]).indexOf? 3 = some 1
      ∧ (3, 1) ∈ (ofList [7, 3, 7, 5]).positions.entries := by
  obtain ⟨-, hpairs, -, -, hlist⟩ := positions_of_insertions [7, 3, 7, 5]
  have hlater := ((positions_of_insertions [7]).2.2.2.1 3 [7, 5, 7]).1
  exact ⟨hlist, rfl, hlater, (hpairs 3 1).2 rfl⟩

end

-- ====================================================== equal members

/-- A member has the position that it stands at, and nothing else has one. -/
def Indexed (s : OrderedSet α) : Prop := ∀ x i, s.indexOf? x = some i ↔ s.get? i = some x

theorem indexed_empty : (∅ : OrderedSet α).Indexed := fun _ _ => ⟨nofun, nofun⟩

/-- Members are what is found. -/
theorem Indexed.contains_iff (h : s.Indexed) : s.contains x = true ↔ x ∈ s.toList := by
  rw [contains, Option.isSome_iff_exists, toList, Array.mem_toList_iff, Array.mem_iff_getElem?]
  exact exists_congr (h x)

/-- No member occurs twice. -/
theorem Indexed.nodup (h : s.Indexed) : s.toList.Nodup := by
  refine List.pairwise_iff_getElem.2 fun i j hi hj hlt heq => Nat.ne_of_lt hlt ?_
  have hget : ∀ (k : Nat) (hk : k < s.toList.length), s.indexOf? s.toList[k] = some k := by
    intro k hk
    rw [h, get?, ← Array.getElem?_toList]
    exact List.getElem?_eq_getElem hk
  have hpos := hget i hi
  rw [heq, hget j hj] at hpos
  exact (Option.some.inj hpos).symm

/-- Where what compares equal is equal, positions are indices exactly if the set is
paired. -/
theorem indexed_iff_paired [Std.LawfulEqOrd α] : s.Indexed ↔ s.Paired :=
  forall₂_congr fun x i => iff_congr (Dict.get?_eq_some_iff s.positions x i) Iff.rfl

/-- An insertion gives a position to what has none, at the end. -/
theorem Indexed.insert [Std.TransOrd α] [Std.LawfulEqOrd α] (h : s.Indexed) (x : α) :
    (s.insert x).Indexed :=
  indexed_iff_paired.2 ((indexed_iff_paired.1 h).insert x)

/-- An insertion adds what is missing to the list. -/
theorem Indexed.toList_insert [Std.TransOrd α] [DecidableEq α] (h : s.Indexed) (x : α) :
    (s.insert x).toList = addMissing s.toList x := by
  have hmem := h.contains_iff (x := x)
  unfold contains at hmem
  unfold OrderedSet.insert insertAt addMissing
  cases hx : s.indexOf? x with
  | some i =>
      rw [hx] at hmem
      rw [if_pos (hmem.1 rfl)]
  | none =>
      rw [hx] at hmem
      rw [if_neg fun hin => Bool.false_ne_true (hmem.2 hin)]
      exact Array.toList_push

end OrderedSet

end LiftedCode
