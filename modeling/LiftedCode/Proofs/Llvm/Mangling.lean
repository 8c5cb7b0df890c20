/-
The names of the functions that generated code calls on its own account. A name is
that of a family of functions, and then tells by a width or by the short form of a
type which of them is meant. The short forms have nothing between their parts: where
a numeral ends there is no digit, and after the `s` that ends a structure no type goes
on. So a short form determines the type and what comes after it
(`Ty.letters_append_injective`), and a name determines the function
(`Intrinsic.IsIntrinsic.eq_of_name`).
-/
import LiftedCode.Llvm.Intrinsic

namespace LiftedCode

-- =============================================================== numerals

/-- The text does not begin with a digit. -/
def NoDigit (r : List Char) : Prop := ∀ c ∈ r.head?, c.isDigit = false

theorem isDigit_of_mem_toString {c : Char} {n : Nat} (hc : c ∈ (toString n).toList) :
    c.isDigit = true := by
  rw [Nat.toString_eq_repr, Nat.toList_repr] at hc
  exact Nat.isDigit_of_mem_toDigits (by decide) (by decide) hc

theorem takeWhile_digits {n : Nat} {r : List Char} (hr : NoDigit r) :
    ((toString n).toList ++ r).takeWhile Char.isDigit = (toString n).toList := by
  rw [List.takeWhile_append_of_pos fun c hc => isDigit_of_mem_toString hc]
  cases r with
  | nil => exact List.append_nil _
  | cons c r =>
      rw [List.takeWhile_cons, hr c rfl]
      exact List.append_nil _

/-- A numeral ends where the digits end. -/
theorem toString_append_injective {m n : Nat} {r r' : List Char} (hr : NoDigit r) (hr' : NoDigit r')
    (h : (toString m).toList ++ r = (toString n).toList ++ r') : m = n ∧ r = r' := by
  have hdigits := congrArg (List.takeWhile Char.isDigit) h
  rw [takeWhile_digits hr, takeWhile_digits hr'] at hdigits
  rw [hdigits] at h
  exact ⟨toString_nat_injective (String.toList_inj.1 hdigits), List.append_cancel_left h⟩

/-- A numeral begins with a digit. -/
theorem toString_append_ne {n : Nat} {c : Char} (hc : c.isDigit = false) (r r' : List Char) :
    (toString n).toList ++ r ≠ c :: r' := by
  intro h
  cases hn : (toString n).toList with
  | nil =>
      rw [Nat.toString_eq_repr, Nat.toList_repr] at hn
      exact Nat.toDigits_ne_nil hn
  | cons d ds =>
      rw [hn] at h
      obtain rfl : d = c := (List.cons.inj h).1
      rw [isDigit_of_mem_toString (hn ▸ List.mem_cons_self)] at hc
      contradiction

namespace Llvm

namespace Ty

-- ================================================================= types

mutual

/-- The letters of the short form. -/
def letters : Ty → List Char
  | .int w => 'i' :: (toString w).toList
  | .half => ['f', '1', '6']
  | .float => ['f', '3', '2']
  | .double => ['f', '6', '4']
  | .extended => ['f', '8', '0']
  | .ptr => ['p', '0']
  | .void => ['i', 's', 'V', 'o', 'i', 'd']
  | .vector n t => 'v' :: ((toString n).toList ++ t.letters)
  | .struct ts => 's' :: 'l' :: '_' :: (lettersAll ts ++ ['s'])

/-- The letters of the short forms of several types. -/
def lettersAll : List Ty → List Char
  | [] => []
  | t :: ts => t.letters ++ lettersAll ts

end

mutual

theorem toList_mangled : (t : Ty) → t.mangled.toList = t.letters
  | .int w => by
    rw [mangled, letters, String.toList_append]
    rfl
  | .half | .float | .double | .extended | .ptr | .void => by decide
  | .vector n t => by
    rw [mangled, letters, String.toList_append, String.toList_append, toList_mangled t]
    rfl
  | .struct ts => by
    rw [mangled, letters, String.toList_append, String.toList_append, toList_mangledAll ts]
    rfl

theorem toList_mangledAll : (ts : List Ty) → (mangledAll ts).toList = lettersAll ts
  | [] => by decide
  | t :: ts => by
    rw [mangledAll, lettersAll, String.toList_append, toList_mangled t, toList_mangledAll ts]

end

/-- No type goes on like this, and no list of types that has ended. -/
def Stops (r : List Char) : Prop := ∀ c ∈ r.head?, c.isDigit = false ∧ c ≠ 'l'

theorem Stops.noDigit {r : List Char} (h : Stops r) : NoDigit r := fun c hc => (h c hc).1

theorem stops_letters (t : Ty) (r : List Char) : Stops (t.letters ++ r) := by
  cases t <;>
    · rw [letters]
      rintro _ ⟨⟩
      decide

theorem stops_lettersAll (ts : List Ty) (r : List Char) : Stops (lettersAll ts ++ 's' :: r) := by
  cases ts with
  | nil =>
      rintro _ ⟨⟩
      decide
  | cons t ts =>
      rw [lettersAll, List.append_assoc]
      exact stops_letters t _

/-- Where a list of types ends, no type begins. -/
theorem letters_append_ne {t : Ty} {r r' : List Char} (hr : Stops r) :
    t.letters ++ r' ≠ 's' :: r := by
  intro h
  cases t with
  | struct ts =>
      rw [letters] at h
      exact (hr 'l' (by rw [← (List.cons.inj h).2]; rfl)).2 rfl
  | int | half | float | double | extended | ptr | void | vector =>
      rw [letters] at h
      nomatch h

mutual

/-- A mangled type determines itself and what comes after it. -/
theorem letters_append_injective : (t u : Ty) → {r r' : List Char} → Stops r → Stops r' →
    t.letters ++ r = u.letters ++ r' → t = u ∧ r = r'
  | .int w, u, r, r', hr, hr', h => by
    cases u with
    | int v =>
        rw [letters, letters] at h
        have hnumeral := (List.cons.inj h).2
        obtain ⟨rfl, hrest⟩ := toString_append_injective hr.noDigit hr'.noDigit hnumeral
        exact ⟨rfl, hrest⟩
    | void =>
        rw [letters, letters] at h
        exact absurd (List.cons.inj h).2 (toString_append_ne (by decide) _ _)
    | half | float | double | extended | ptr | vector | struct =>
        rw [letters, letters] at h
        nomatch h
  | .vector n t, u, r, r', hr, hr', h => by
    cases u with
    | vector m u =>
        rw [letters, letters, List.cons_append, List.cons_append, List.append_assoc,
          List.append_assoc] at h
        obtain ⟨rfl, helem⟩ := toString_append_injective (stops_letters t r).noDigit
          (stops_letters u r').noDigit (List.cons.inj h).2
        obtain ⟨rfl, hrest⟩ := letters_append_injective t u hr hr' helem
        exact ⟨rfl, hrest⟩
    | int | half | float | double | extended | ptr | void | struct =>
        rw [letters, letters] at h
        nomatch h
  | .struct ts, u, r, r', hr, hr', h => by
    cases u with
    | struct us =>
        have hfields : lettersAll ts ++ 's' :: r = lettersAll us ++ 's' :: r' := by
          simpa [letters] using h
        obtain ⟨rfl, hrest⟩ := lettersAll_append_injective ts us hr hr' hfields
        exact ⟨rfl, hrest⟩
    | int | half | float | double | extended | ptr | void | vector =>
        rw [letters, letters] at h
        nomatch h
  | .void, u, r, r', hr, hr', h => by
    cases u with
    | void => exact ⟨rfl, List.append_cancel_left h⟩
    | int w =>
        rw [letters, letters] at h
        exact absurd (List.cons.inj h).2.symm (toString_append_ne (by decide) _ _)
    | half | float | double | extended | ptr | vector | struct =>
        rw [letters, letters] at h
        nomatch h
  | .half, u, r, r', hr, hr', h | .float, u, r, r', hr, hr', h | .double, u, r, r', hr, hr', h
  | .extended, u, r, r', hr, hr', h | .ptr, u, r, r', hr, hr', h => by
    cases u with
    | half | float | double | extended | ptr =>
        first
        | exact ⟨rfl, List.append_cancel_left h⟩
        | (rw [letters, letters] at h
           nomatch h)
    | int | void | vector | struct =>
        rw [letters, letters] at h
        nomatch h

/-- Mangled types in a row end with the `s` after which no type goes on. -/
theorem lettersAll_append_injective : (ts us : List Ty) → {r r' : List Char} → Stops r →
    Stops r' → lettersAll ts ++ 's' :: r = lettersAll us ++ 's' :: r' → ts = us ∧ r = r'
  | [], [], r, r', _, _, h => ⟨rfl, (List.cons.inj h).2⟩
  | [], u :: us, r, r', hr, _, h => by
    rw [lettersAll.eq_2, List.append_assoc] at h
    exact absurd h.symm (letters_append_ne hr)
  | t :: ts, [], r, r', _, hr', h => by
    rw [lettersAll.eq_2, List.append_assoc] at h
    exact absurd h (letters_append_ne hr')
  | t :: ts, u :: us, r, r', hr, hr', h => by
    rw [lettersAll, lettersAll, List.append_assoc, List.append_assoc] at h
    obtain ⟨rfl, hrest⟩ := letters_append_injective t u (stops_lettersAll ts r)
      (stops_lettersAll us r') h
    obtain ⟨rfl, hr⟩ := lettersAll_append_injective ts us hr hr' hrest
    exact ⟨rfl, hr⟩

end

/-- Types have different short forms. -/
theorem eq_of_mangled {t u : Ty} (h : t.mangled = u.mangled) : t = u := by
  have hletters := congrArg String.toList h
  rw [toList_mangled, toList_mangled] at hletters
  have hends : Stops [] := nofun
  exact (letters_append_injective t u hends hends (congrArg (· ++ []) hletters)).1

end Ty

namespace Intrinsic

-- ================================================================ families

/-- A kind of function that generated code calls on its own account. -/
inductive Family where
  | withOverflow (signed subtract : Bool)
  | countLeadingZeros
  | countTrailingZeros
  | popCount
  | swapBytes
  | maskedLoad
  | maskedStore
  | squareRoot
  | readTimestamp
  | moveBytes
  | fillBytes
  | shuffle128
  | tableFailure
deriving DecidableEq

namespace Family

/-- What the functions of a family differ by. -/
def Param : Family → Type
  | withOverflow _ _ | countLeadingZeros | countTrailingZeros | popCount => Nat
  | swapBytes | maskedLoad | maskedStore | squareRoot => Ty
  | readTimestamp | moveBytes | fillBytes | shuffle128 | tableFailure => Unit

/-- The declaration of a member of a family. -/
def declaration : (f : Family) → f.Param → Declaration
  | withOverflow signed subtract, w => Intrinsic.withOverflow signed subtract w
  | countLeadingZeros, w => Intrinsic.countLeadingZeros w
  | countTrailingZeros, w => Intrinsic.countTrailingZeros w
  | popCount, w => Intrinsic.popCount w
  | swapBytes, t => Intrinsic.swapBytes t
  | maskedLoad, t => Intrinsic.maskedLoad t
  | maskedStore, t => Intrinsic.maskedStore t
  | squareRoot, t => Intrinsic.squareRoot t
  | readTimestamp, _ => Intrinsic.readTimestamp
  | moveBytes, _ => Intrinsic.moveBytes
  | fillBytes, _ => Intrinsic.fillBytes
  | shuffle128, _ => Intrinsic.shuffle128
  | tableFailure, _ => Intrinsic.tableFailure

/-- What the names of a family begin with. -/
def head : Family → String
  | withOverflow signed subtract =>
    "llvm." ++ (if signed then "s" else "u") ++ (if subtract then "sub" else "add")
      ++ ".with.overflow.i"
  | countLeadingZeros => "llvm.ctlz.i"
  | countTrailingZeros => "llvm.cttz.i"
  | popCount => "llvm.ctpop.i"
  | swapBytes => "llvm.bswap."
  | maskedLoad => "llvm.masked.load."
  | maskedStore => "llvm.masked.store."
  | squareRoot => "llvm.sqrt."
  | readTimestamp => Intrinsic.readTimestamp.name
  | moveBytes => Intrinsic.moveBytes.name
  | fillBytes => Intrinsic.fillBytes.name
  | shuffle128 => Intrinsic.shuffle128.name
  | tableFailure => Intrinsic.tableFailure.name

/-- How the names of a family go on. -/
def tail : (f : Family) → f.Param → String
  | withOverflow _ _, w | countLeadingZeros, w | countTrailingZeros, w | popCount, w =>
    toString (α := Nat) w
  | swapBytes, t | squareRoot, t => Ty.mangled t
  | maskedLoad, t | maskedStore, t => (Ty.single t).mangled ++ ".p0"
  | readTimestamp, _ | moveBytes, _ | fillBytes, _ | shuffle128, _ | tableFailure, _ => ""

theorem name_declaration (f : Family) (p : f.Param) :
    (f.declaration p).name = f.head ++ f.tail p := by
  cases f with
  | maskedLoad | maskedStore => exact String.append_assoc
  | readTimestamp | moveBytes | fillBytes | shuffle128 | tableFailure =>
      exact String.append_empty.symm
  | withOverflow | countLeadingZeros | countTrailingZeros | popCount | swapBytes | squareRoot => rfl

/-- All families. -/
def all : List Family :=
  [withOverflow false false, withOverflow false true, withOverflow true false,
    withOverflow true true, countLeadingZeros, countTrailingZeros, popCount, swapBytes, maskedLoad,
    maskedStore, squareRoot, readTimestamp, moveBytes, fillBytes, shuffle128, tableFailure]

theorem mem_all (f : Family) : f ∈ all := by
  cases f with
  | withOverflow signed subtract => cases signed <;> cases subtract <;> decide
  | countLeadingZeros | countTrailingZeros | popCount | swapBytes | maskedLoad | maskedStore
  | squareRoot | readTimestamp | moveBytes | fillBytes | shuffle128 | tableFailure => decide

/-- No name of a family begins as the names of another do. -/
theorem eq_of_head_prefix {f g : Family} (h : f.head.toList <+: g.head.toList) : f = g := by
  have hall : ∀ f ∈ all, ∀ g ∈ all, f.head.toList <+: g.head.toList → f = g := by decide +kernel
  exact hall f (mem_all f) g (mem_all g) h

/-- All families have names that begin as reserved ones do. -/
theorem reserved_head (f : Family) :
    "llvm.".toList <+: f.head.toList ∨ "rivet.".toList <+: f.head.toList := by
  have hall : ∀ f ∈ all, "llvm.".toList <+: f.head.toList ∨ "rivet.".toList <+: f.head.toList := by
    decide +kernel
  exact hall f (mem_all f)

theorem tail_injective (f : Family) : Function.Injective f.tail := by
  cases f with
  | withOverflow | countLeadingZeros | countTrailingZeros | popCount =>
      exact fun m n h => toString_nat_injective h
  | swapBytes | squareRoot => exact fun t u h => Ty.eq_of_mangled h
  | maskedLoad | maskedStore =>
      intro t u h
      have hsingle : (Ty.single t).mangled = (Ty.single u).mangled :=
        (String.append_left_inj ".p0").1 h
      cases Ty.eq_of_mangled hsingle
      rfl
  | readTimestamp | moveBytes | fillBytes | shuffle128 | tableFailure => exact fun _ _ _ => rfl

end Family

/-- A function that generated code calls on its own account. -/
class IsIntrinsic (d : Declaration) : Prop where
  exists_family : ∃ (f : Family) (p : f.Param), f.declaration p = d

instance (signed subtract : Bool) (w : Nat) : IsIntrinsic (withOverflow signed subtract w) :=
  ⟨.withOverflow signed subtract, w, rfl⟩

instance (w : Nat) : IsIntrinsic (countLeadingZeros w) := ⟨.countLeadingZeros, w, rfl⟩

instance (w : Nat) : IsIntrinsic (countTrailingZeros w) := ⟨.countTrailingZeros, w, rfl⟩

instance (w : Nat) : IsIntrinsic (popCount w) := ⟨.popCount, w, rfl⟩

instance (t : Ty) : IsIntrinsic (swapBytes t) := ⟨.swapBytes, t, rfl⟩

instance (t : Ty) : IsIntrinsic (maskedLoad t) := ⟨.maskedLoad, t, rfl⟩

instance (t : Ty) : IsIntrinsic (maskedStore t) := ⟨.maskedStore, t, rfl⟩

instance (t : Ty) : IsIntrinsic (squareRoot t) := ⟨.squareRoot, t, rfl⟩

instance : IsIntrinsic readTimestamp := ⟨.readTimestamp, (), rfl⟩

instance : IsIntrinsic moveBytes := ⟨.moveBytes, (), rfl⟩

instance : IsIntrinsic fillBytes := ⟨.fillBytes, (), rfl⟩

instance : IsIntrinsic shuffle128 := ⟨.shuffle128, (), rfl⟩

instance : IsIntrinsic tableFailure := ⟨.tableFailure, (), rfl⟩

/-- A name that begins as those of functions do that generated code calls on its own account. -/
def Reserved (name : String) : Prop := name.startsWith "llvm." ∨ name.startsWith "rivet."

instance (name : String) : Decidable (Reserved name) := inferInstanceAs (Decidable (_ ∨ _))

variable {d d' : Declaration}

theorem IsIntrinsic.reserved (h : IsIntrinsic d) : Reserved d.name := by
  obtain ⟨f, p, rfl⟩ := h
  rw [Reserved, String.startsWith_string_iff, String.startsWith_string_iff, f.name_declaration,
    String.toList_append]
  exact f.reserved_head.imp (·.trans (List.prefix_append _ _)) (·.trans (List.prefix_append _ _))

/-- Functions that generated code calls on its own account are declared in one way each. -/
theorem IsIntrinsic.eq_of_name (h : IsIntrinsic d) (h' : IsIntrinsic d')
    (hname : d.name = d'.name) : d = d' := by
  obtain ⟨f, p, rfl⟩ := h
  obtain ⟨g, q, rfl⟩ := h'
  rw [f.name_declaration, g.name_declaration] at hname
  -- one of the names begins as the other does, so the families are the same
  have hlist : f.head.toList ++ (f.tail p).toList = g.head.toList ++ (g.tail q).toList := by
    rw [← String.toList_append, hname, String.toList_append]
  have hfg : f = g := by
    rcases List.prefix_or_prefix_of_prefix (List.prefix_append _ _) (hlist ▸ List.prefix_append _ _)
      with h | h
    · exact (Family.eq_of_head_prefix h).symm
    · exact Family.eq_of_head_prefix h
  subst hfg
  rw [f.tail_injective (append_left_injective hname)]

end Intrinsic

end Llvm

end LiftedCode
