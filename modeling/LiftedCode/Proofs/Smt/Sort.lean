/-
The sorts of terms. A symbol has a sort on arguments of the sorts that it is
for, a literal needs a bit and a value that fits its width, and bits are taken
only from within their operand. A term with a sort stands for something of the
sort, whenever its variables do (`eval_of_sort?`), and so does every term in it
(`sorted_of_subterm`).
-/
import LiftedCode.Proofs.Smt.Eval

namespace LiftedCode.Smt

/-- The sorts of variables. -/
abbrev Sorting := String → Option TermSort

/-- Whether the values of a sort have at least one bit. -/
def TermSort.Positive : TermSort → Prop
  | bool => True
  | bits w => 0 < w

-- ============================================================== symbols

/-- The symbols from two bitvectors of one width to one of that width. -/
def arithmeticNames : List String :=
  ["bvadd", "bvsub", "bvmul", "bvudiv", "bvurem", "bvsdiv", "bvsrem", "bvand", "bvor", "bvxor",
    "bvshl", "bvlshr", "bvashr"]

/-- The symbols from two bitvectors of one width to a truth value. -/
def comparisonNames : List String := ["bvult", "bvule", "bvslt", "bvsle", "=", "distinct"]

/-- The symbols from two truth values to a truth value. -/
def connectiveNames : List String := ["and", "or", "xor", "=", "distinct"]

/-- The sort of a symbol on arguments of the given sorts. -/
def Symbol.sort? : Symbol → List TermSort → Option TermSort
  | .named name, [.bool] => if name = "not" then some .bool else none
  | .named name, [.bits w] => if name = "bvnot" then some (.bits w) else none
  | .named name, [.bool, .bool] => if name ∈ connectiveNames then some .bool else none
  | .named name, [.bits v, .bits w] =>
    if name = "concat" then some (.bits (v + w))
    else if v = w ∧ name ∈ arithmeticNames then some (.bits w)
    else if v = w ∧ name ∈ comparisonNames then some .bool
    else none
  | .named name, [.bool, s, t] => if name = "ite" ∧ s = t then some s else none
  | .extract hi lo, [.bits w] => if lo ≤ hi ∧ hi < w then some (.bits (hi - lo + 1)) else none
  | .zeroExtend n, [.bits w] => some (.bits (w + n))
  | .signExtend n, [.bits w] => some (.bits (w + n))
  | _, _ => none

/-- A datum of the sort of truth values is one. -/
theorem eq_bool_of_sort {d : Datum} (h : sortOfDatum d = some .bool) : ∃ b, d = .bool b := by
  cases d with
  | bool b => exact ⟨b, rfl⟩
  | bits | tuple => simp [sortOfDatum] at h

/-- A datum of a sort of bitvectors is one of the width. -/
theorem eq_bits_of_sort {d : Datum} {w : Nat} (h : sortOfDatum d = some (.bits w)) :
    ∃ x : BitVec w, d = .bits w x := by
  cases d with
  | bits v x =>
      cases h
      exact ⟨x, rfl⟩
  | bool | tuple => simp [sortOfDatum] at h

/-- The symbols from two bitvectors of one width to one of that width. -/
theorem pairCall_of_arithmetic {name : String} {w : Nat} (h : name ∈ arithmeticNames)
    (x y : BitVec w) : ∃ z, pairCall name x y = some (.bits w z) := by
  simp only [arithmeticNames, List.mem_cons, List.not_mem_nil, or_false] at h
  rcases h with rfl | rfl | rfl | rfl | rfl | rfl | rfl | rfl | rfl | rfl | rfl | rfl | rfl <;>
    exact ⟨_, rfl⟩

/-- The symbols from two bitvectors of one width to a truth value. -/
theorem pairCall_of_comparison {name : String} {w : Nat} (h : name ∈ comparisonNames)
    (x y : BitVec w) : ∃ b, pairCall name x y = some (.bool b) := by
  simp only [comparisonNames, List.mem_cons, List.not_mem_nil, or_false] at h
  rcases h with rfl | rfl | rfl | rfl | rfl | rfl <;> exact ⟨_, rfl⟩

/-- The symbols from two truth values to a truth value. -/
theorem boolsCall_of_connective {name : String} (h : name ∈ connectiveNames) (p q : Bool) :
    ∃ b, boolsCall name p q = some (.bool b) := by
  simp only [connectiveNames, List.mem_cons, List.not_mem_nil, or_false] at h
  rcases h with rfl | rfl | rfl | rfl | rfl <;> exact ⟨_, rfl⟩

/-- A symbol on data of sorts that it is for stands for something of its sort. -/
theorem Symbol.value_of_sort? {f : Symbol} {ds : List Datum} {ss : List TermSort} {s : TermSort}
    (hds : ds.map sortOfDatum = ss.map some) (h : f.sort? ss = some s) :
    ∃ d, f.value ds = some d ∧ sortOfDatum d = some s := by
  unfold Symbol.sort? at h
  split at h
  case h_1 name =>
    obtain ⟨d, rfl, hd⟩ := List.map_eq_singleton_iff.1 hds
    obtain ⟨p, rfl⟩ := eq_bool_of_sort hd
    obtain ⟨rfl, rfl⟩ : name = "not" ∧ .bool = s := by simpa using h
    exact ⟨.bool (!p), rfl, rfl⟩
  case h_2 name w =>
    obtain ⟨d, rfl, hd⟩ := List.map_eq_singleton_iff.1 hds
    obtain ⟨x, rfl⟩ := eq_bits_of_sort hd
    obtain ⟨rfl, rfl⟩ : name = "bvnot" ∧ .bits w = s := by simpa using h
    exact ⟨.bits w (~~~x), rfl, rfl⟩
  case h_3 name =>
    obtain ⟨d, _, rfl, hd, hds⟩ := List.map_eq_cons_iff.1 hds
    obtain ⟨e, rfl, he⟩ := List.map_eq_singleton_iff.1 hds
    obtain ⟨p, rfl⟩ := eq_bool_of_sort hd
    obtain ⟨q, rfl⟩ := eq_bool_of_sort he
    obtain ⟨hname, rfl⟩ : name ∈ connectiveNames ∧ .bool = s := by simpa using h
    obtain ⟨b, hb⟩ := boolsCall_of_connective hname p q
    exact ⟨.bool b, hb, rfl⟩
  case h_4 name v w =>
    obtain ⟨d, _, rfl, hd, hds⟩ := List.map_eq_cons_iff.1 hds
    obtain ⟨e, rfl, he⟩ := List.map_eq_singleton_iff.1 hds
    obtain ⟨x, rfl⟩ := eq_bits_of_sort hd
    obtain ⟨y, rfl⟩ := eq_bits_of_sort he
    rw [Symbol.value]
    split at h
    case isTrue hname =>
      cases h
      exact ⟨_, if_pos hname, rfl⟩
    case isFalse hname =>
      rw [if_neg hname]
      split at h
      case isTrue harith =>
        obtain ⟨rfl, harith⟩ := harith
        cases h
        obtain ⟨z, hz⟩ := pairCall_of_arithmetic harith x y
        exact ⟨.bits v z, by rw [dif_pos rfl]; exact hz, rfl⟩
      case isFalse =>
        split at h
        case isTrue hcomp =>
          obtain ⟨rfl, hcomp⟩ := hcomp
          cases h
          obtain ⟨b, hb⟩ := pairCall_of_comparison hcomp x y
          exact ⟨.bool b, by rw [dif_pos rfl]; exact hb, rfl⟩
        case isFalse => contradiction
  case h_5 name s t =>
    obtain ⟨d, _, rfl, hd, hds⟩ := List.map_eq_cons_iff.1 hds
    obtain ⟨e, _, rfl, he, hds⟩ := List.map_eq_cons_iff.1 hds
    obtain ⟨f, rfl, hf⟩ := List.map_eq_singleton_iff.1 hds
    obtain ⟨p, rfl⟩ := eq_bool_of_sort hd
    obtain ⟨⟨rfl, rfl⟩, rfl⟩ : (name = "ite" ∧ s = t) ∧ s = _ := by simpa using h
    refine ⟨if p then e else f, ?_, ?_⟩
    · simp [Symbol.value, he, hf]
    · cases p
      · exact hf
      · exact he
  case h_6 hi lo w =>
    obtain ⟨d, rfl, hd⟩ := List.map_eq_singleton_iff.1 hds
    obtain ⟨x, rfl⟩ := eq_bits_of_sort hd
    obtain ⟨hrange, rfl⟩ : (lo ≤ hi ∧ hi < w) ∧ .bits (hi - lo + 1) = s := by simpa using h
    exact ⟨_, if_pos hrange, rfl⟩
  case h_7 n w | h_8 n w =>
    obtain ⟨d, rfl, hd⟩ := List.map_eq_singleton_iff.1 hds
    obtain ⟨x, rfl⟩ := eq_bits_of_sort hd
    cases h
    exact ⟨_, rfl, rfl⟩
  case h_9 => contradiction

/-- A symbol on sorts of at least one bit has one. -/
theorem Symbol.positive_of_sort? {f : Symbol} {ss : List TermSort} {s : TermSort}
    (hss : ∀ t ∈ ss, t.Positive) (h : f.sort? ss = some s) : s.Positive := by
  unfold Symbol.sort? at h
  split at h
  case h_1 | h_3 =>
    split at h
    case isTrue =>
      cases h
      trivial
    case isFalse => contradiction
  case h_2 w =>
    split at h
    case isTrue =>
      cases h
      exact hss _ List.mem_cons_self
    case isFalse => contradiction
  case h_4 v w =>
    have hv : 0 < v := hss (.bits v) (by simp)
    have hw : 0 < w := hss (.bits w) (by simp)
    split at h
    case isTrue =>
      cases h
      exact Nat.add_pos_left hv w
    case isFalse =>
      split at h
      case isTrue =>
        cases h
        exact hw
      case isFalse =>
        split at h
        case isTrue =>
          cases h
          trivial
        case isFalse => contradiction
  case h_5 s t =>
    split at h
    case isTrue =>
      cases h
      exact hss s (by simp)
    case isFalse => contradiction
  case h_6 =>
    split at h
    case isTrue =>
      cases h
      exact Nat.succ_pos _
    case isFalse => contradiction
  case h_7 n w | h_8 n w =>
    have hw : 0 < w := hss (.bits w) (by simp)
    cases h
    exact Nat.add_pos_left hw n
  case h_9 => contradiction

-- ================================================================ terms

namespace Term

mutual

/-- The sort of a term under sorts of its variables. -/
def sort? (Γ : Sorting) : Term → Option TermSort
  | .var x => Γ x
  | .bool _ => some .bool
  | .bits w n => if 0 < w ∧ n < valueCount w then some (.bits w) else none
  | .app f ts => (sorts? Γ ts).bind f.sort?

/-- The sorts of terms, if every one is well sorted. -/
def sorts? (Γ : Sorting) : List Term → Option (List TermSort)
  | [] => some []
  | t :: ts => do return (← sort? Γ t) :: (← sorts? Γ ts)

end

/-- A term that occurs in a term. -/
inductive Subterm : Term → Term → Prop where
  | self (t : Term) : Subterm t t
  | arg {f : Symbol} {ts : List Term} {t u : Term} (ht : t ∈ ts) (hu : Subterm u t) :
    Subterm u (.app f ts)

section

variable {Γ Δ : Sorting} {ρ : Env}

/-- Several terms have sorts if each of them has one. -/
theorem sorts?_cons {t : Term} {ts : List Term} {ss : List TermSort} :
    sorts? Γ (t :: ts) = some ss
      ↔ ∃ s ss', t.sort? Γ = some s ∧ sorts? Γ ts = some ss' ∧ ss = s :: ss' := by
  simp only [sorts?, Option.bind_eq_bind, Option.bind_eq_some_iff, Option.pure_def,
    Option.some.injEq]
  constructor
  · rintro ⟨s, hs, ss', hss', rfl⟩
    exact ⟨s, ss', hs, hss', rfl⟩
  · rintro ⟨s, ss', hs, hss', rfl⟩
    exact ⟨s, hs, ss', hss', rfl⟩

mutual

/-- Sorts for more variables do not change the sort of a term. -/
theorem sort?_mono (h : ∀ x s, Γ x = some s → Δ x = some s) :
    (t : Term) → ∀ s, t.sort? Γ = some s → t.sort? Δ = some s
  | .var x => fun s hs => h x s hs
  | .bool b => fun s hs => hs
  | .bits w n => fun s hs => hs
  | .app f ts => fun s hs => by
    obtain ⟨ss, hss, hf⟩ := Option.bind_eq_some_iff.1 hs
    rw [sort?, sorts?_mono h ts ss hss]
    exact hf

/-- Sorts for more variables do not change the sorts of several terms. -/
theorem sorts?_mono (h : ∀ x s, Γ x = some s → Δ x = some s) :
    (ts : List Term) → ∀ ss, sorts? Γ ts = some ss → sorts? Δ ts = some ss
  | [] => fun ss hss => hss
  | t :: ts => fun ss hss => by
    obtain ⟨s, ss', hs, hss', rfl⟩ := sorts?_cons.1 hss
    exact sorts?_cons.2 ⟨s, ss', sort?_mono h t s hs, sorts?_mono h ts ss' hss', rfl⟩

end

mutual

/-- A term with a sort stands for something of the sort, if its variables do. -/
theorem eval_of_sort? (h : ∀ x s, Γ x = some s → ∃ d, ρ x = some d ∧ sortOfDatum d = some s) :
    (t : Term) → ∀ s, t.sort? Γ = some s → ∃ d, t.eval ρ = some d ∧ sortOfDatum d = some s
  | .var x => fun s hs => h x s hs
  | .bool b => fun s hs => ⟨.bool b, rfl, hs⟩
  | .bits w n => fun s hs => by
    obtain ⟨-, rfl⟩ : (0 < w ∧ n < valueCount w) ∧ .bits w = s := by simpa [sort?] using hs
    exact ⟨_, rfl, rfl⟩
  | .app f ts => fun s hs => by
    obtain ⟨ss, hss, hf⟩ := Option.bind_eq_some_iff.1 hs
    obtain ⟨ds, hds, hsorts⟩ := evalAll_of_sorts? h ts ss hss
    obtain ⟨d, hd, hsort⟩ := Symbol.value_of_sort? hsorts hf
    exact ⟨d, by rw [eval, hds]; exact hd, hsort⟩

/-- Terms with sorts stand for data of the sorts, if their variables do. -/
theorem evalAll_of_sorts? (h : ∀ x s, Γ x = some s → ∃ d, ρ x = some d ∧ sortOfDatum d = some s) :
    (ts : List Term) → ∀ ss, sorts? Γ ts = some ss →
      ∃ ds, evalAll ρ ts = some ds ∧ ds.map sortOfDatum = ss.map some
  | [] => fun ss hss => ⟨[], rfl, by cases hss; rfl⟩
  | t :: ts => fun ss hss => by
    obtain ⟨s, ss', hs, hss', rfl⟩ := sorts?_cons.1 hss
    obtain ⟨d, hd, hds⟩ := eval_of_sort? h t s hs
    obtain ⟨ds, hall, hsorts⟩ := evalAll_of_sorts? h ts ss' hss'
    exact ⟨d :: ds, by rw [evalAll, hd, hall]; rfl, by rw [List.map_cons, hds, hsorts]; rfl⟩

end

mutual

/-- A sorted term over variables of at least one bit has at least one bit. -/
theorem positive_of_sort? (h : ∀ x s, Γ x = some s → s.Positive) :
    (t : Term) → ∀ s, t.sort? Γ = some s → s.Positive
  | .var x => fun s hs => h x s hs
  | .bool b => fun s hs => by
    cases hs
    trivial
  | .bits w n => fun s hs => by
    obtain ⟨⟨hw, -⟩, rfl⟩ : (0 < w ∧ n < valueCount w) ∧ .bits w = s := by
      simpa [sort?] using hs
    exact hw
  | .app f ts => fun s hs => by
    obtain ⟨ss, hss, hf⟩ := Option.bind_eq_some_iff.1 hs
    exact Symbol.positive_of_sort? (positive_of_sorts? h ts ss hss) hf

/-- Sorted terms over variables of at least one bit have at least one bit. -/
theorem positive_of_sorts? (h : ∀ x s, Γ x = some s → s.Positive) :
    (ts : List Term) → ∀ ss, sorts? Γ ts = some ss → ∀ s ∈ ss, s.Positive
  | [] => fun ss hss => by
    cases hss
    exact nofun
  | t :: ts => fun ss hss => by
    obtain ⟨s, ss', hs, hss', rfl⟩ := sorts?_cons.1 hss
    exact List.forall_mem_cons.2 ⟨positive_of_sort? h t s hs, positive_of_sorts? h ts ss' hss'⟩

end

/-- Each of several terms with sorts has one. -/
theorem exists_sort?_of_mem {ts : List Term} {ss : List TermSort} (h : sorts? Γ ts = some ss)
    {t : Term} (ht : t ∈ ts) : ∃ s, t.sort? Γ = some s := by
  induction ts generalizing ss with
  | nil => exact absurd ht List.not_mem_nil
  | cons u ts ih =>
      obtain ⟨s, ss', hs, hss', rfl⟩ := sorts?_cons.1 h
      rcases List.mem_cons.1 ht with rfl | ht
      · exact ⟨s, hs⟩
      · exact ih hss' ht

/-- Every term in a sorted term has a sort. -/
theorem sorted_of_subterm {t u : Term} (hu : Subterm u t) {s : TermSort}
    (h : t.sort? Γ = some s) : ∃ s', u.sort? Γ = some s' := by
  induction hu generalizing s with
  | self => exact ⟨s, h⟩
  | arg ht _ ih =>
      obtain ⟨ss, hss, -⟩ := Option.bind_eq_some_iff.1 h
      obtain ⟨s', hs'⟩ := exists_sort?_of_mem hss ht
      exact ih hs'

/-- Bits are taken only from within a bitvector. -/
theorem extract_of_sort? {hi lo : Nat} {ts : List Term} {s : TermSort}
    (h : (app (.extract hi lo) ts).sort? Γ = some s) :
    ∃ a w, ts = [a] ∧ a.sort? Γ = some (.bits w) ∧ lo ≤ hi ∧ hi < w := by
  obtain ⟨ss, hss, hf⟩ := Option.bind_eq_some_iff.1 h
  unfold Symbol.sort? at hf
  split at hf
  case h_6 hi' lo' w heq =>
    cases heq
    split at hf
    case isTrue hrange =>
      cases ts with
      | nil => contradiction
      | cons a ts =>
          obtain ⟨s, ss', hs, hss', hcons⟩ := sorts?_cons.1 hss
          cases hcons
          cases ts with
          | nil => exact ⟨a, w, rfl, hs, hrange⟩
          | cons b ts =>
              obtain ⟨_, _, -, -, hnil⟩ := sorts?_cons.1 hss'
              contradiction
    case isFalse => contradiction
  all_goals contradiction

/-- Whether every term in a term has a sort of at least one bit, and takes bits
only from within a bitvector. -/
def Sound (Γ : Sorting) (t : Term) : Prop :=
  ∀ u, Subterm u t → (∃ s, u.sort? Γ = some s ∧ s.Positive)
    ∧ ∀ hi lo ts, u = .app (.extract hi lo) ts →
      ∃ a w, ts = [a] ∧ a.sort? Γ = some (.bits w) ∧ lo ≤ hi ∧ hi < w

/-- A term with a sort is sound. -/
theorem sound_of_sort? (h : ∀ x s, Γ x = some s → s.Positive) {t : Term} {s : TermSort}
    (ht : t.sort? Γ = some s) : t.Sound Γ := by
  intro u hu
  obtain ⟨s', hs'⟩ := sorted_of_subterm hu ht
  refine ⟨⟨s', hs', positive_of_sort? h u s' hs'⟩, ?_⟩
  rintro hi lo ts rfl
  exact extract_of_sort? hs'

end

-- ======================================================== constructors

section

variable {Γ : Sorting} {a b c : Term} {s t : TermSort} {v w : Nat}

theorem sort?_app_one {f : Symbol} (ha : a.sort? Γ = some s) :
    (app f [a]).sort? Γ = f.sort? [s] := by
  simp [sort?, sorts?, ha]

theorem sort?_app_two {f : Symbol} (ha : a.sort? Γ = some s) (hb : b.sort? Γ = some t) :
    (app f [a, b]).sort? Γ = f.sort? [s, t] := by
  simp [sort?, sorts?, ha, hb]

theorem sort?_bits {n : Nat} (hw : 0 < w) (hn : n < valueCount w) :
    (bits w n).sort? Γ = some (.bits w) := if_pos ⟨hw, hn⟩

theorem sort?_not (ha : a.sort? Γ = some .bool) : (not a).sort? Γ = some .bool := sort?_app_one ha

theorem sort?_connective {name : String} (hname : name ∈ connectiveNames)
    (ha : a.sort? Γ = some .bool) (hb : b.sort? Γ = some .bool) :
    (call name [a, b]).sort? Γ = some .bool := by
  rw [call, sort?_app_two ha hb, Symbol.sort?, if_pos hname]

theorem sort?_arithmetic {name : String} (hname : name ∈ arithmeticNames)
    (ha : a.sort? Γ = some (.bits w)) (hb : b.sort? Γ = some (.bits w)) :
    (binary name a b).sort? Γ = some (.bits w) := by
  have hconcat : name ≠ "concat" := by
    rintro rfl
    exact absurd hname (by decide)
  rw [binary, call, sort?_app_two ha hb, Symbol.sort?, if_neg hconcat, if_pos ⟨rfl, hname⟩]

/-- The operands of arithmetic have one width. -/
theorem of_sort?_arithmetic {name : String} (hname : name ∈ arithmeticNames)
    (h : (binary name a b).sort? Γ = some s) :
    ∃ w, a.sort? Γ = some (.bits w) ∧ b.sort? Γ = some (.bits w) := by
  have hother : ∀ n ∈ arithmeticNames,
      n ≠ "concat" ∧ n ∉ connectiveNames ∧ n ∉ comparisonNames := by decide
  obtain ⟨hconcat, hconnective, hcomparison⟩ := hother name hname
  obtain ⟨ss, hss, h⟩ := Option.bind_eq_some_iff.1 h
  obtain ⟨t, ts, ha, hts, rfl⟩ := sorts?_cons.1 hss
  obtain ⟨u, us, hb, hus, rfl⟩ := sorts?_cons.1 hts
  cases hus
  cases t with
  | bool =>
      cases u with
      | bool =>
          rw [Symbol.sort?, if_neg hconnective] at h
          contradiction
      | bits w => exact nomatch h
  | bits v =>
      cases u with
      | bool => exact nomatch h
      | bits w =>
          rw [Symbol.sort?, if_neg hconcat, if_neg fun hw : v = w ∧ _ => hcomparison hw.2] at h
          split at h
          case isTrue hw => exact ⟨v, ha, hw.1 ▸ hb⟩
          case isFalse => contradiction

theorem sort?_comparison {name : String} (hname : name ∈ comparisonNames)
    (ha : a.sort? Γ = some (.bits w)) (hb : b.sort? Γ = some (.bits w)) :
    (binary name a b).sort? Γ = some .bool := by
  simp only [comparisonNames, List.mem_cons, List.not_mem_nil, or_false] at hname
  rw [binary, call, sort?_app_two ha hb]
  rcases hname with rfl | rfl | rfl | rfl | rfl | rfl <;>
    simp [Symbol.sort?, arithmeticNames, comparisonNames]

/-- Two terms of one sort can be compared. -/
theorem sort?_eq (ha : a.sort? Γ = some s) (hb : b.sort? Γ = some s) :
    (eq a b).sort? Γ = some .bool := by
  cases s with
  | bool => exact sort?_connective (by decide) ha hb
  | bits w => exact sort?_comparison (by decide) ha hb

theorem sort?_distinct (ha : a.sort? Γ = some (.bits w)) (hb : b.sort? Γ = some (.bits w)) :
    (distinct a b).sort? Γ = some .bool := sort?_comparison (by decide) ha hb

theorem sort?_ite (hc : c.sort? Γ = some .bool) (ha : a.sort? Γ = some s)
    (hb : b.sort? Γ = some s) : (ite c a b).sort? Γ = some s := by
  simp [ite, call, sort?, sorts?, hc, ha, hb, Symbol.sort?]

theorem sort?_complement (ha : a.sort? Γ = some (.bits w)) :
    (complement a).sort? Γ = some (.bits w) := sort?_app_one ha

theorem sort?_concat (ha : a.sort? Γ = some (.bits v)) (hb : b.sort? Γ = some (.bits w)) :
    (concat a b).sort? Γ = some (.bits (v + w)) := sort?_app_two ha hb

theorem sort?_zeroExtend {n : Nat} (ha : a.sort? Γ = some (.bits w)) :
    (zeroExtend n a).sort? Γ = some (.bits (w + n)) := sort?_app_one ha

theorem sort?_signExtend {n : Nat} (ha : a.sort? Γ = some (.bits w)) :
    (signExtend n a).sort? Γ = some (.bits (w + n)) := sort?_app_one ha

theorem sort?_extract {hi lo : Nat} (h : lo ≤ hi) (hw : hi < w)
    (ha : a.sort? Γ = some (.bits w)) :
    (app (.extract hi lo) [a]).sort? Γ = some (.bits (hi - lo + 1)) := by
  rw [sort?_app_one ha, Symbol.sort?, if_pos ⟨h, hw⟩]

theorem sort?_bitAt {i : Nat} (hi : i < w) (ha : a.sort? Γ = some (.bits w)) :
    (bitAt i a).sort? Γ = some (.bits 1) := by
  rw [bitAt, sort?_extract (Nat.le_refl i) hi ha, Nat.sub_self]

theorem sort?_testBit {i : Nat} (hi : i < w) (ha : a.sort? Γ = some (.bits w)) :
    (testBit i a).sort? Γ = some .bool :=
  sort?_eq (sort?_bitAt hi ha) (sort?_bits (by decide) (by decide))

end

end Term

end LiftedCode.Smt
