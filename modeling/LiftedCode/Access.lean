/-
Accesses to memory: which kind of memory the access at each instruction
touches, so that verification can check it against the right model.
-/
import LiftedCode.Data.Dict

namespace LiftedCode

/-- The kind of memory that an access touches. -/
inductive AccessKind where
  /-- Memory that only the machine code knows of. -/
  | binaryOnly
  /-- A stack object that the source program knows by name. -/
  | jointStack (name : String)
  | heap
deriving DecidableEq, Repr, Inhabited

/-- The written form of a kind. -/
def AccessKind.text : AccessKind → String
  | binaryOnly => "binary_only"
  | jointStack name => "joint_stack(" ++ name ++ ")"
  | heap => "heap"

/-- The kinds of the accesses at instruction addresses. -/
abbrev Classifier := Dict Nat AccessKind

/-- The kinds of the accesses at addresses from `start` up to but not at `stop`. -/
def Classifier.restrictedTo (c : Classifier) (start stop : Nat) : Classifier :=
  c.filter fun addr _ => start ≤ addr && addr < stop

end LiftedCode
