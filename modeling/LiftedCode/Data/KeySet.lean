/-
Sets of keys, in increasing order.
-/
import LiftedCode.Data.Dict

namespace LiftedCode

/-- A finite set, as the dictionary that says nothing about its keys. -/
abbrev KeySet (α : Type) [Ord α] := Dict α Unit

namespace KeySet

variable {α : Type} [Ord α]

/-- The set with one more key. -/
def add [Std.TransOrd α] (s : KeySet α) (x : α) : KeySet α := s.insert x ()

/-- The set of the keys in a list. -/
def ofKeys [Std.TransOrd α] (xs : List α) : KeySet α := xs.foldl add ∅

/-- The written form, from those of the keys. -/
def text (key : α → String) (s : KeySet α) : String :=
  "\x7b" ++ commaSeparated (s.keys.map key) ++ "\x7d"

end KeySet

end LiftedCode
