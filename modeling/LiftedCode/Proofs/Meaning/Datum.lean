/-
Data: what values are. A truth value is a datum of its own, everything else
with a width is its bits, and what has no width is a list of data. A type
admits some data (`Ty.admits`); the inversions below read off a datum what its
type says.
-/
import LiftedCode.Ty

namespace LiftedCode

/-- What a value is. -/
inductive Datum where
  | bool (b : Bool)
  | bits (width : Nat) (x : BitVec width)
  /-- The parts of something without a flat form. -/
  | tuple (fields : List Datum)
deriving Inhabited

/-- Why a computation on data has no result. -/
inductive Stop where
  /-- A division by zero, or one whose result leaves the signed range. -/
  | trap
  /-- A datum is not of the form that the computation is for. -/
  | shape
deriving DecidableEq, Repr, Inhabited

namespace Datum

/-- Bitvectors are the same datum if their widths and numbers are. -/
theorem bits_congr {v w : Nat} {x : BitVec v} {y : BitVec w} (hw : v = w)
    (hx : x.toNat = y.toNat) : bits v x = bits w y := by
  subst hw
  rw [BitVec.eq_of_toNat_eq hx]

/-- Bitvectors are the same datum if their widths and bits are. -/
theorem bits_congr_getLsbD {v w : Nat} {x : BitVec v} {y : BitVec w} (hw : v = w)
    (hx : ∀ i, i < w → x.getLsbD i = y.getLsbD i) : bits v x = bits w y := by
  subst hw
  rw [BitVec.eq_of_getLsbD_eq hx]

-- ============================================================= readings

/-- The truth value that a datum is. -/
def toBool : Datum → Except Stop Bool
  | bool b => .ok b
  | _ => .error .shape

/-- The bits, of which there must be `w`. -/
def toBits (w : Nat) : Datum → Except Stop (BitVec w)
  | bits v x => if h : v = w then .ok (x.cast h) else .error .shape
  | _ => .error .shape

/-- A field of a tuple. -/
def field (i : Nat) : Datum → Except Stop Datum
  | tuple ds => match ds[i]? with
    | some d => .ok d
    | none => .error .shape
  | _ => .error .shape

/-- The datum of a type with the given bits. -/
def ofFlat (t : Ty) {w : Nat} (x : BitVec w) : Datum :=
  if t.isBool then bool (x.getLsbD 0) else bits w x

/-- The bits of a datum, read at a type. -/
def reread (t : Ty) : Datum → Except Stop Datum
  | bool b => .ok (ofFlat t (BitVec.ofBool b))
  | bits _ x => .ok (ofFlat t x)
  | tuple _ => .error .shape

/-- Whether two data of one type with a flat form are equal. -/
def same : Datum → Datum → Except Stop Bool
  | bool a, bool b => .ok (a == b)
  | bits v x, bits w y => if h : v = w then .ok (x.cast h == y) else .error .shape
  | _, _ => .error .shape

@[simp] theorem toBool_bool (b : Bool) : (bool b).toBool = .ok b := rfl

@[simp] theorem toBits_bits {w : Nat} (x : BitVec w) : (bits w x).toBits w = .ok x := by
  simp [toBits]

@[simp] theorem same_bool (a b : Bool) : same (bool a) (bool b) = .ok (a == b) := rfl

@[simp] theorem same_bits {w : Nat} (x y : BitVec w) :
    same (bits w x) (bits w y) = .ok (x == y) := by
  simp [same]

@[simp] theorem ofFlat_bool {w : Nat} (x : BitVec w) : ofFlat .bool x = bool (x.getLsbD 0) := rfl

/-- At a type other than that of truth values, a datum is its bits. -/
theorem ofFlat_of_ne {t : Ty} {w : Nat} (x : BitVec w) (h : t ≠ .bool) :
    ofFlat t x = bits w x := by
  cases t with
  | bool => exact absurd rfl h
  | bits | float | tuple | vector => rfl

end Datum

-- ================================================================ types

/-- Formats of one width are one format. -/
theorem FloatFormat.eq_of_width {f g : FloatFormat} (h : f.width = g.width) : f = g := by
  cases f <;> cases g <;> first | rfl | contradiction

namespace Ty

mutual

/-- Whether a datum is one of the type's values. -/
def admits : Ty → Datum → Bool
  | .bool, .bool _ => true
  | .bits w, .bits v _ => v == w
  | .float f, .bits v _ => v == f.width
  | .tuple ts, .tuple ds => admitsEach ts ds
  | .vector n t, .bits v _ => t.width?.any fun w => v == n * w
  | .vector n t, .tuple ds => t.width?.isNone && ds.length == n && ds.all t.admits
  | _, _ => false

/-- Whether data are values of types, one by one. -/
def admitsEach : List Ty → List Datum → Bool
  | [], [] => true
  | t :: ts, d :: ds => t.admits d && admitsEach ts ds
  | _, _ => false

end

/-- A datum of the type of truth values is one. -/
theorem eq_bool_of_admits {d : Datum} (h : Ty.bool.admits d = true) : ∃ b, d = .bool b := by
  cases d with
  | bool b => exact ⟨b, rfl⟩
  | bits | tuple => simp [admits] at h

/-- A datum of another type with a width has that many bits. -/
theorem eq_bits_of_admits {t : Ty} {w : Nat} {d : Datum} (h : t.admits d = true) (ht : t ≠ .bool)
    (hw : t.width? = some w) : ∃ x, d = .bits w x := by
  cases t with
  | bool => exact absurd rfl ht
  | bits v =>
      cases d with
      | bits u x =>
          simp only [admits, beq_iff_eq] at h
          obtain rfl : v = w := Option.some.inj hw
          exact ⟨h ▸ x, by subst h; rfl⟩
      | bool | tuple => simp [admits] at h
  | float f =>
      cases d with
      | bits u x =>
          simp only [admits, beq_iff_eq] at h
          obtain rfl : f.width = w := Option.some.inj hw
          exact ⟨h ▸ x, by subst h; rfl⟩
      | bool | tuple => simp [admits] at h
  | tuple ts => simp [width?] at hw
  | vector n t =>
      obtain ⟨u, hu, rfl⟩ := Option.map_eq_some_iff.1 hw
      cases d with
      | bits v x =>
          simp only [admits, hu, Option.any_some, beq_iff_eq] at h
          exact ⟨h ▸ x, by subst h; rfl⟩
      | bool | tuple => simp [admits, hu] at h

/-- A datum of a bitvector type is a bitvector of the width. -/
theorem eq_bits_of_admits_bits {w : Nat} {d : Datum} (h : (Ty.bits w).admits d = true) :
    ∃ x, d = .bits w x :=
  eq_bits_of_admits h (by simp) rfl

/-- A type with a width admits every datum of that width, truth values apart. -/
theorem admits_bits {t : Ty} {w : Nat} (x : BitVec w) (ht : t ≠ .bool) (hw : t.width? = some w) :
    t.admits (.bits w x) = true := by
  cases t with
  | bool => exact absurd rfl ht
  | bits v => simpa [admits] using (Option.some.inj hw).symm
  | float f => simpa [admits] using (Option.some.inj hw).symm
  | tuple ts => simp [width?] at hw
  | vector n t =>
      obtain ⟨u, hu, rfl⟩ := Option.map_eq_some_iff.1 hw
      simp [admits, hu]

/-- A type with a width admits the datum with any bits of that width. -/
theorem admits_ofFlat {t : Ty} {w : Nat} (x : BitVec w) (hw : t.width? = some w) :
    t.admits (Datum.ofFlat t x) = true := by
  by_cases ht : t = .bool
  · subst ht
    rfl
  · rw [Datum.ofFlat_of_ne x ht]
    exact admits_bits x ht hw

/-- A datum of a tuple type has a field for every type in it. -/
theorem field_of_admitsEach {ts : List Ty} {ds : List Datum} {i : Nat} {t : Ty}
    (h : admitsEach ts ds = true) (ht : ts[i]? = some t) :
    ∃ d, ds[i]? = some d ∧ t.admits d = true := by
  induction ts generalizing ds i with
  | nil => simp at ht
  | cons u ts ih =>
      cases ds with
      | nil => simp [admitsEach] at h
      | cons d ds =>
          simp only [admitsEach, Bool.and_eq_true] at h
          cases i with
          | zero =>
              obtain rfl : u = t := by simpa using ht
              exact ⟨d, rfl, h.1⟩
          | succ i =>
              obtain ⟨e, he, ha⟩ := ih h.2 (show ts[i]? = some t by simpa using ht)
              exact ⟨e, by simpa using he, ha⟩

end Ty

end LiftedCode
