/-
Ordered sets: sets that remember the order in which their members first came
in. A member's position never changes, so positions name members as well as
members name positions.
-/
import LiftedCode.Data.Dict

namespace LiftedCode

/-- A set with its members in order of their first insertion, and for each
member its position among them. -/
structure OrderedSet (α : Type) [Ord α] where
  items : Array α
  positions : Dict α Nat

namespace OrderedSet

variable {α : Type} [Ord α]

/-- The set without elements. -/
def empty : OrderedSet α := ⟨#[], ∅⟩

instance : EmptyCollection (OrderedSet α) := ⟨empty⟩

instance : Inhabited (OrderedSet α) := ⟨empty⟩

/-- The position of `x`, if it is a member. -/
def indexOf? (s : OrderedSet α) (x : α) : Option Nat := s.positions.get? x

/-- Whether an element was inserted. -/
def contains (s : OrderedSet α) (x : α) : Bool := (s.indexOf? x).isSome

/-- The element at a position. -/
def get? (s : OrderedSet α) (i : Nat) : Option α := s.items[i]?

/-- The number of elements. -/
def size (s : OrderedSet α) : Nat := s.items.size

/-- Whether nothing was inserted. -/
def isEmpty (s : OrderedSet α) : Bool := s.items.isEmpty

/-- The members in order of their first insertion. -/
def toList (s : OrderedSet α) : List α := s.items.toList

/-- Bring in `x` if it is not a member yet; the answer is its position. -/
def insertAt [Std.TransOrd α] (s : OrderedSet α) (x : α) : Nat × OrderedSet α :=
  match s.indexOf? x with
  | some i => (i, s)
  | none => (s.size, ⟨s.items.push x, s.positions.insert x s.size⟩)

/-- Bring in `x` if it is not a member yet. -/
def insert [Std.TransOrd α] (s : OrderedSet α) (x : α) : OrderedSet α := (s.insertAt x).2

end OrderedSet

end LiftedCode
