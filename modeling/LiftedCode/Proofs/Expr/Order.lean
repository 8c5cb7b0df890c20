/-
The orders of types and of values. Both compare one thing after the other, so
the three comparisons between three of them follow the first that is not equality
(`Chained`), kind by kind and part by part. From this the order of types is total
(`Ty.order_eq_iff`), and so is that of values, in which those are equal that have
the same kind, type and content (`Value.order_eq_iff`).

Values are compared by their types only at the end, after their content. This is
what keeps equal values from having different types: two arguments of one index
have one width, and may still be a vector of bytes and a vector of words.
-/
import LiftedCode.Expr.Order

namespace LiftedCode

-- ======================================================== chains

/-- Whether `c` follows from `a` and `b`, where these are the outcomes for a first
and a second thing, for the second and a third, and `c` is that for the first and
the third: upwards, it is the first of them that is not equality. -/
def Chained (a b c : Ordering) : Prop := a.isLE → b.isLE → c = a.then b

namespace Chained

variable {a b c a' b' c' : Ordering}

/-- A chained order is transitive. -/
theorem isLE (h : Chained a b c) (ha : a.isLE) (hb : b.isLE) : c.isLE := by
  rw [h ha hb, Ordering.isLE_then_iff_or]
  cases a with
  | lt => exact .inl rfl
  | eq => exact .inr ⟨rfl, hb⟩
  | gt => contradiction

/-- Comparisons that are made only if others find no difference. -/
theorem andThen (h : Chained a b c) (h' : a = .eq → b = .eq → Chained a' b' c') :
    Chained (a.then a') (b.then b') (c.then c') := by
  intro ha hb
  rcases Ordering.isLE_then_iff_or.1 ha with rfl | ⟨rfl, ha'⟩
  · have hble : b.isLE := by
      rcases Ordering.isLE_then_iff_or.1 hb with rfl | ⟨rfl, -⟩ <;> rfl
    rw [h rfl hble]
    rfl
  · rcases Ordering.isLE_then_iff_or.1 hb with rfl | ⟨rfl, hb'⟩
    · rw [h rfl rfl]
      cases a' with
      | lt | eq => rfl
      | gt => contradiction
    · rw [h rfl rfl]
      exact h' rfl rfl ha' hb'

end Chained

/-- A transitive comparison is chained. -/
theorem chained_compare {α : Type} [Ord α] [Std.TransOrd α] (x y z : α) :
    Chained (compare x y) (compare y z) (compare x z) := by
  intro hxy hyz
  cases h : compare x y with
  | lt => exact Std.TransCmp.lt_of_lt_of_isLE h hyz
  | eq => exact Std.TransCmp.congr_left h
  | gt =>
      rw [h] at hxy
      contradiction

-- ========================================================= types

instance : Std.TransOrd FloatFormat :=
  inferInstanceAs (Std.TransCmp (compareOn FloatFormat.width))

instance : Std.LawfulEqOrd FloatFormat where
  eq_of_compare {f g} h := by
    cases f <;> cases g <;> first | rfl | contradiction

namespace Ty

/-- Whether two types are of one kind. -/
inductive SameKind : Ty → Ty → Prop where
  | bool : SameKind .bool .bool
  | bits (v w : Nat) : SameKind (.bits v) (.bits w)
  | float (f g : FloatFormat) : SameKind (.float f) (.float g)
  | tuple (ts us : List Ty) : SameKind (.tuple ts) (.tuple us)
  | vector (m n : Nat) (t u : Ty) : SameKind (.vector m t) (.vector n u)

theorem sameKind_of_rank_eq {t u : Ty} (h : t.rank = u.rank) : SameKind t u := by
  cases t <;> cases u <;> first | constructor | simp [rank] at h

/-- Types of different kinds are ordered by kind. -/
theorem order_of_rank_ne {t u : Ty} (h : t.rank ≠ u.rank) :
    order t u = compare t.rank u.rank := by
  cases t <;> cases u <;> first | rfl | exact absurd rfl h

/-- The kinds are compared first. -/
theorem order_eq_then (t u : Ty) : order t u = (compare t.rank u.rank).then (order t u) := by
  by_cases h : t.rank = u.rank
  · rw [Nat.compare_eq_eq.2 h]
    rfl
  · rw [order_of_rank_ne h]
    cases compare t.rank u.rank <;> rfl

/-- It is enough to look at types of one kind. -/
theorem chained_of_sameKind {t u v : Ty}
    (h : SameKind t u → SameKind u v → Chained (order t u) (order u v) (order t v)) :
    Chained (order t u) (order u v) (order t v) := by
  rw [order_eq_then t u, order_eq_then u v, order_eq_then t v]
  refine (chained_compare t.rank u.rank v.rank).andThen fun htu huv => ?_
  exact h (sameKind_of_rank_eq (Nat.compare_eq_eq.1 htu))
    (sameKind_of_rank_eq (Nat.compare_eq_eq.1 huv))

mutual

/-- The order of types is antisymmetric. -/
theorem order_swap : (t u : Ty) → order t u = (order u t).swap
  | .bool, u => by cases u <;> rfl
  | .bits _, u => by
    cases u <;> first | rfl | exact Std.OrientedOrd.eq_swap
  | .float _, u => by
    cases u <;> first | rfl | exact Std.OrientedOrd.eq_swap
  | .tuple ts, u => by
    cases u <;> first | rfl | exact orderList_swap ts _
  | .vector m t, u => by
    cases u with
    | bool | bits | float | tuple => rfl
    | vector n u =>
        rw [order, order, Ordering.swap_then, ← Std.OrientedOrd.eq_swap, ← order_swap t u]

theorem orderList_swap : (ts us : List Ty) → orderList ts us = (orderList us ts).swap
  | [], us => by cases us <;> rfl
  | t :: ts, us => by
    cases us with
    | nil => rfl
    | cons u us =>
        rw [orderList, orderList, Ordering.swap_then, ← order_swap t u, ← orderList_swap ts us]

end

mutual

/-- Types compare equal only if they are. -/
theorem order_eq_iff : (t u : Ty) → (order t u = .eq ↔ t = u)
  | .bool, u => by cases u <;> simp [order, rank]
  | .bits _, u => by cases u <;> simp [order, rank]
  | .float _, u => by cases u <;> simp [order, rank]
  | .tuple ts, u => by
    cases u with
    | bool | bits | float | vector => simp [order, rank]
    | tuple us => rw [order, Ty.tuple.injEq, orderList_eq_iff ts us]
  | .vector m t, u => by
    cases u with
    | bool | bits | float | tuple => simp [order, rank]
    | vector n u =>
        rw [order, Ordering.then_eq_eq, Nat.compare_eq_eq, order_eq_iff t u, Ty.vector.injEq]

theorem orderList_eq_iff : (ts us : List Ty) → (orderList ts us = .eq ↔ ts = us)
  | [], us => by cases us <;> simp [orderList]
  | t :: ts, us => by
    cases us with
    | nil => simp [orderList]
    | cons u us =>
        simp [orderList, Ordering.then_eq_eq, order_eq_iff t u, orderList_eq_iff ts us]

end

mutual

/-- The order of types is chained. -/
theorem order_chained : (t u v : Ty) → Chained (order t u) (order u v) (order t v)
  | .bool, _, _ => chained_of_sameKind fun | .bool, .bool => fun _ _ => rfl
  | .bits _, _, _ => chained_of_sameKind fun | .bits .., .bits .. => chained_compare _ _ _
  | .float _, _, _ => chained_of_sameKind fun | .float .., .float .. => chained_compare _ _ _
  | .tuple ts, _, _ => chained_of_sameKind fun | .tuple .., .tuple .. => orderList_chained ts _ _
  | .vector l t, _, _ => chained_of_sameKind fun
    | .vector _ m _ _, .vector _ n _ _ =>
      (chained_compare l m n).andThen fun _ _ => order_chained t _ _

theorem orderList_chained : (ts us vs : List Ty) →
    Chained (orderList ts us) (orderList us vs) (orderList ts vs)
  | t :: ts, u :: us, v :: vs =>
    (order_chained t u v).andThen fun _ _ => orderList_chained ts us vs
  | [], [], _ => fun _ h => by rw [orderList]; rfl
  | [], _ :: _, [] => nofun
  | [], _ :: _, _ :: _ => fun _ _ => rfl
  | _ :: _, [], _ => nofun
  | _ :: _, _ :: _, [] => nofun

end

instance : Std.TransOrd Ty where
  eq_swap := order_swap _ _
  isLE_trans := (order_chained _ _ _).isLE

instance : Std.LawfulEqOrd Ty where
  compare_self := (order_eq_iff _ _).2 rfl
  eq_of_compare := (order_eq_iff _ _).1

end Ty

-- ======================================================== values

namespace Value

/-- Whether two values are of one kind. -/
inductive SameKind : Value → Value → Prop where
  | bits (l m : Literal) : SameKind (.bits l) (.bits m)
  | bool (b c : Bool) : SameKind (.bool b) (.bool c)
  | assigned (a b : Assignment Value) : SameKind (.assigned a) (.assigned b)
  | initial (r s : Register) : SameKind (.initial r) (.initial s)
  | phi (v w : Variable) : SameKind (.phi v) (.phi w)
  | returned (v w : Variable) : SameKind (.returned v) (.returned w)
  | arg (i j : Nat) (t u : Ty) : SameKind (.arg i t) (.arg j u)
  | entry (f g : FunctionRef) : SameKind (.entry f) (.entry g)

/-- What tells the values of one kind and type apart. -/
inductive Content where
  | magnitude (n : Nat)
  | truth (b : Bool)
  | ident (id : Ident)
  | register (reg : Register)
  | index (i : Nat)
  | function (name : String) (addr : Nat)

/-- What a value is told apart by from others of its kind and width. -/
def content : Value → Content
  | bits l => .magnitude l.magnitude
  | bool b => .truth b
  | assigned a => .ident a.id
  | initial r => .register r
  | phi v | returned v => .ident v.id
  | arg i _ => .index i
  | entry f => .function f.name f.addr

theorem sameKind_iff {x y : Value} : SameKind x y ↔ x.rank = y.rank := by
  constructor
  · intro h
    cases h <;> rfl
  · intro h
    cases x <;> cases y <;> first | constructor | simp [rank] at h

/-- The contents of values of one kind are compared antisymmetrically. -/
theorem SameKind.compareContent_swap {x y : Value} (h : SameKind x y) :
    compareContent x y = (compareContent y x).swap := by
  cases h with
  | entry f g =>
      rw [compareContent, compareContent, Ordering.swap_then, ← Std.OrientedOrd.eq_swap,
        ← Std.OrientedOrd.eq_swap]
  | bits | bool | assigned | initial | phi | returned | arg => exact Std.OrientedOrd.eq_swap

/-- The contents of values of one kind are compared in a chained way. -/
theorem SameKind.compareContent_chained {x y z : Value} (hxy : SameKind x y)
    (hyz : SameKind y z) :
    Chained (compareContent x y) (compareContent y z) (compareContent x z) := by
  cases hxy with
  | entry f g =>
      cases hyz with
      | entry _ k =>
          exact (chained_compare f.name g.name k.name).andThen fun _ _ => chained_compare _ _ _
  | bits | bool | assigned | initial | phi | returned | arg =>
      cases hyz
      exact chained_compare _ _ _

/-- Values of one kind compare equal in content only if theirs is the same. -/
theorem SameKind.compareContent_eq_iff {x y : Value} (h : SameKind x y) :
    compareContent x y = .eq ↔ x.content = y.content := by
  cases h <;> simp [compareContent, content, Ordering.then_eq_eq]

/-- The order of values is antisymmetric. -/
theorem order_swap (x y : Value) : order x y = (order y x).swap := by
  have hrank : compare x.rank y.rank = (compare y.rank x.rank).swap := Std.OrientedOrd.eq_swap
  have hwidth : compare x.ty.width? y.ty.width? = (compare y.ty.width? x.ty.width?).swap :=
    Std.OrientedOrd.eq_swap
  have hty : compare x.ty y.ty = (compare y.ty x.ty).swap := Std.OrientedOrd.eq_swap
  simp only [order, Ordering.swap_then]
  by_cases h : x.rank = y.rank
  · rw [← hrank, ← hwidth, ← hty, ← (sameKind_iff.2 h).compareContent_swap]
  · -- content is compared between values of one kind only
    rw [← hrank]
    cases hc : compare x.rank y.rank with
    | lt | gt => rfl
    | eq => exact absurd (Nat.compare_eq_eq.1 hc) h

/-- The order of values is chained. -/
theorem order_chained (x y z : Value) : Chained (order x y) (order y z) (order x z) := by
  refine (chained_compare x.rank y.rank z.rank).andThen fun hxy hyz => ?_
  have hxy := sameKind_iff.2 (Nat.compare_eq_eq.1 hxy)
  have hyz := sameKind_iff.2 (Nat.compare_eq_eq.1 hyz)
  refine (chained_compare x.ty.width? y.ty.width? z.ty.width?).andThen fun _ _ => ?_
  exact (hxy.compareContent_chained hyz).andThen fun _ _ => chained_compare _ _ _

instance : Std.TransCmp order where
  eq_swap := order_swap _ _
  isLE_trans := (order_chained _ _ _).isLE

/-- Values compare equal if they have the same kind, type and content. -/
theorem order_eq_iff (x y : Value) :
    order x y = .eq ↔ SameKind x y ∧ x.ty = y.ty ∧ x.content = y.content := by
  simp only [order, Ordering.then_eq_eq, Std.LawfulEqOrd.compare_eq_iff_eq, ← sameKind_iff]
  constructor
  · rintro ⟨hkind, -, hcontent, hty⟩
    exact ⟨hkind, hty, hkind.compareContent_eq_iff.1 hcontent⟩
  · rintro ⟨hkind, hty, hcontent⟩
    exact ⟨hkind, congrArg Ty.width? hty, hkind.compareContent_eq_iff.2 hcontent, hty⟩

/-- Values of one kind and content are written alike. -/
theorem SameKind.plainText_eq {x y : Value} (h : SameKind x y) (hc : x.content = y.content) :
    x.plainText = y.plainText := by
  cases h <;> simp_all [content, plainText]

/-- Whether the comparison has an outcome and does not find `x` above `y`. -/
def AtMost (x y : Value) : Prop := ∃ o, checkedOrder x y = .ok o ∧ o.isLE

section

variable {x y : Value}

/-- Values whose widths are 32-bit numbers can be compared. -/
theorem checkedOrder_eq (hx : x.ty.widthFits = true) (hy : y.ty.widthFits = true) :
    checkedOrder x y = .ok (order x y) := by
  rw [checkedOrder, hx, hy, Bool.and_self, Bool.or_true]
  rfl

/-- Where widths fit, the checked order is the order. -/
theorem atMost_iff (hx : x.ty.widthFits = true) (hy : y.ty.widthFits = true) :
    AtMost x y ↔ (order x y).isLE := by
  rw [AtMost, checkedOrder_eq hx hy]
  constructor
  · rintro ⟨o, ho, hle⟩
    rwa [Except.ok.inj ho]
  · exact fun h => ⟨_, rfl, h⟩

/-- Where widths fit, the checked comparison is that of the order. -/
theorem checkedSame_eq (hx : x.ty.widthFits = true) (hy : y.ty.widthFits = true) :
    checkedSame x y = .ok (order x y == .eq) := by
  rw [checkedSame, checkedOrder_eq hx hy]
  rfl

end

/-- Values whose widths are 32-bit numbers are in a total order, in which those are
equal that have the same kind, type and content. These are written alike. -/
theorem checkedOrder_lawful {x y z : Value} (hx : x.ty.widthFits = true)
    (hy : y.ty.widthFits = true) (hz : z.ty.widthFits = true) :
    checkedOrder x x = .ok .eq
      ∧ (∃ o, checkedOrder x y = .ok o ∧ checkedOrder y x = .ok o.swap)
      ∧ (AtMost x y ∨ AtMost y x)
      ∧ (AtMost x y → AtMost y z → AtMost x z)
      ∧ (∀ o, checkedOrder x y = .ok o → checkedOrder y z = .ok o → checkedOrder x z = .ok o)
      ∧ ∃ same, checkedSame x y = .ok same
        ∧ (same = true ↔ SameKind x y ∧ x.ty = y.ty ∧ x.content = y.content)
        ∧ (same = true → x.ty = y.ty ∧ ∀ style, x.text style = y.text style) := by
  rw [atMost_iff hx hy, atMost_iff hy hx, atMost_iff hy hz, atMost_iff hx hz,
    checkedOrder_eq hx hx, checkedOrder_eq hx hy, checkedOrder_eq hy hx, checkedOrder_eq hy hz,
    checkedOrder_eq hx hz, checkedSame_eq hx hy]
  refine ⟨congrArg _ Std.ReflCmp.compare_self, ⟨_, rfl, congrArg _ (order_swap y x)⟩, ?_,
    Std.TransCmp.isLE_trans, ?_, _, rfl, ?_, ?_⟩
  · rw [order_swap y x]
    cases order x y <;> decide
  · intro o hxy hyz
    rw [Except.ok.injEq] at hxy hyz ⊢
    cases o with
    | lt => exact Std.TransCmp.lt_trans hxy hyz
    | eq => exact Std.TransCmp.eq_trans hxy hyz
    | gt => exact Std.TransCmp.gt_trans hxy hyz
  · rw [beq_iff_eq, order_eq_iff]
  · intro hsame
    obtain ⟨hkind, hty, hcontent⟩ := (order_eq_iff x y).1 (beq_iff_eq.1 hsame)
    refine ⟨hty, fun style => ?_⟩
    cases style with
    | plain => exact hkind.plainText_eq hcontent
    | typed => rw [text, text, hkind.plainText_eq hcontent, hty]

/-- Two arguments of one index and width, in order only by their types, and an entry
above both. -/
theorem checkedOrder_lawful_vectors :
    let words := Value.arg 2 (.vector 2 (.bits 16))
    let bytes := Value.arg 2 (.vector 4 (.bits 8))
    let start := Value.entry ⟨"start", 4096, ⟨[], [], false⟩⟩
    words.ty.widthFits = true ∧ bytes.ty.widthFits = true ∧ start.ty.widthFits = true
      ∧ words.ty.width? = bytes.ty.width? ∧ words.content = bytes.content
      ∧ checkedOrder words bytes = .ok .lt ∧ checkedOrder bytes words = .ok .gt
      ∧ checkedOrder words start = .ok .lt ∧ checkedSame words bytes = .ok false := by
  intro words bytes start
  obtain ⟨-, ⟨o, hwb, hbw⟩, -, -, htrans, same, hsame, hiff, -⟩ :=
    @checkedOrder_lawful words bytes start rfl rfl rfl
  have ho : o = .lt := (Except.ok.inj hwb).symm
  subst ho
  have hne : same = false := by
    rw [Bool.eq_false_iff, ne_eq, hiff]
    exact fun h => absurd h.2.1 (by decide)
  exact ⟨rfl, rfl, rfl, rfl, rfl, hwb, hbw, htrans .lt hwb rfl, hsame.trans (congrArg _ hne)⟩

end Value

end LiftedCode
